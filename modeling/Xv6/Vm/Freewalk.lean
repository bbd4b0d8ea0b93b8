import Xv6.Vm.Mapping

/-!
Freeing a page table.

`freewalk` frees the pages of a table bottom up and clears the entries
that led to them; in between, an entry of a page may lead to a page that
is already freed. The rule for it therefore compares memory with what it
was before the walk began: as long as the pages below a page are as they
were, freeing it takes exactly the pages below it away.
-/

namespace Xv6.Vm

open Lib Prog

/-- The page is a page-table page at or below the one of level `l` and
number `n`. -/
def Below (A : View) (r l n z : ℕ) : Prop :=
  ∃ l' n', A.owner z = some (.table r l' n') ∧ l' ≤ l ∧ n' / 512 ^ (l - l') = n

variable {C : Config} {s s₀ t : Phys} {A : View} {r l n x z : ℕ}

theorem below_self (hx : A.owner x = some (.table r l n)) : Below A r l n x :=
  ⟨l, n, hx, le_rfl, by simp⟩

theorem below_succ_iff : Below A r (l + 1) n z ↔
    A.owner z = some (.table r (l + 1) n) ∨ ∃ j < 512, Below A r l (n * 512 + j) z := by
  constructor
  · rintro ⟨l', n', hz, hl, hn⟩
    rcases Nat.lt_or_ge l l' with hlt | hle
    · obtain rfl : l' = l + 1 := by omega
      rw [Nat.sub_self, Nat.pow_zero, Nat.div_one] at hn
      exact .inl (hn ▸ hz)
    · rw [Nat.succ_sub hle, Nat.pow_succ, ← Nat.div_div_eq_div_mul] at hn
      refine .inr ⟨n' / 512 ^ (l - l') % 512, Nat.mod_lt _ (by decide), l', n', hz, hle, ?_⟩
      omega
  · rintro (hz | ⟨j, hj, l', n', hz, hle, hn⟩)
    · exact below_self hz
    · refine ⟨l', n', hz, by omega, ?_⟩
      rw [Nat.succ_sub hle, Nat.pow_succ, ← Nat.div_div_eq_div_mul, hn]
      omega

theorem below_zero_iff : Below A r 0 n z ↔ A.owner z = some (.table r 0 n) := by
  constructor
  · rintro ⟨l', n', hz, hl, hn⟩
    obtain rfl : l' = 0 := by omega
    rw [Nat.sub_self, Nat.pow_zero, Nat.div_one] at hn
    exact hn ▸ hz
  · exact below_self

theorem Below.unique {m : ℕ} (h : Below A r l n z) (h' : Below A r l m z) : n = m := by
  obtain ⟨l₁, n₁, hz₁, -, hn⟩ := h
  obtain ⟨l₂, n₂, hz₂, -, hm⟩ := h'
  rw [hz₁] at hz₂
  cases hz₂
  exact hn.symm.trans hm

/-- The page-table page that a page is below. -/
theorem Tree.exists_above (h : Tree C s A) (hz : Below A r l n z) (hl : l ≤ 2) :
    ∃ y, A.owner y = some (.table r l n) := by
  induction l generalizing n with
  | zero => exact ⟨z, below_zero_iff.mp hz⟩
  | succ l ih =>
      rcases below_succ_iff.mp hz with hz | ⟨j, hj, hz⟩
      · exact ⟨z, hz⟩
      · obtain ⟨y, hy⟩ := ih hz (by omega)
        obtain ⟨y', hy', -⟩ := h.up hy (by omega)
        rw [show (n * 512 + j) / 512 = n by omega] at hy'
        exact ⟨y', hy'⟩

/-- All page-table pages are below the root. -/
theorem Tree.below_root (h : Tree C s A) (hz : A.owner z = some (.table r l n)) :
    Below A r 2 0 z := by
  have hl := h.level hz
  have hbelow : Below A r 2 (n / 512 ^ (2 - l)) z := ⟨l, n, hz, hl, rfl⟩
  obtain ⟨y, hy⟩ := h.exists_above hbelow le_rfl
  rwa [(h.root hy).2] at hbelow

/-- Freeing a page-table page frees what is below it. -/
theorem wp_freewalk {Q : Unit → Phys → Prop} (h : Tree C s₀ A)
    (hx : A.owner x = some (.table r l n)) (hunmapped : ∀ v, A.maps r v = none)
    (hsame : ∀ z, Below A r l n z → s.mem z = s₀.mem z ∧ z ∈ s.used)
    (hQ : ∀ t, t.supply = s.supply → (∀ z, ¬ Below A r l n z → t.mem z = s.mem z) →
      (∀ z, z ∈ t.used ↔ z ∈ s.used ∧ ¬ Below A r l n z) → Q () t) :
    wp (freewalk (l + 1) x) Q s := by
  induction l generalizing x n s Q with
  | zero =>
      obtain ⟨hmem, hused⟩ := hsame x (below_self hx)
      rw [freewalk, wp_bind]
      -- no entry of the last level is valid, so the loop changes nothing
      refine wp_forN (fun _ t => t = s) rfl (fun i t hi ht => ?_) fun t ht => ?_
      · subst ht
        have hinvalid : ¬ t.mem x i &&& pteV ≠ 0 := by
          intro hvalid
          have hleaf := h.leaf hx hi
          rw [hunmapped, ← hmem, if_pos hvalid] at hleaf
          cases hleaf
        simp only [wp_bind, wp_load, wp_ite, wp_pure]
        exact ⟨fun hv => absurd hv.1 hinvalid, fun _ => ⟨fun hv => absurd hv hinvalid, fun _ => trivial⟩⟩
      · subst ht
        simp only [wp, kfree, hused, if_true]
        refine hQ _ rfl (fun _ _ => rfl) fun z => ?_
        rw [Finset.mem_erase, and_comm, below_zero_iff]
        refine and_congr_right fun _ => not_congr ⟨fun hz => hz ▸ hx, fun hz => h.table_unique hz hx⟩
  | succ l ih =>
      have hl : l + 1 ≤ 2 := h.level hx
      obtain ⟨hmem, hused⟩ := hsame x (below_self hx)
      have hnot : ∀ m, ¬ Below A r l m x := by
        rintro m ⟨l', n', hx', hl', -⟩
        rw [hx] at hx'
        cases hx'
        omega
      rw [freewalk, wp_bind]
      -- the subtrees of the entries before the i-th are gone
      refine wp_forN (fun i t => t.supply = s.supply ∧
        (∀ z, z ≠ x → (∀ j < i, ¬ Below A r l (n * 512 + j) z) → t.mem z = s.mem z) ∧
        (∀ j, i ≤ j → t.mem x j = s.mem x j) ∧
        ∀ z, z ∈ t.used ↔ z ∈ s.used ∧ ∀ j < i, ¬ Below A r l (n * 512 + j) z)
        ⟨rfl, fun _ _ _ => rfl, fun _ _ => rfl, fun z => by simp⟩ ?_ ?_
      · rintro i t hi ⟨hsupply, hkeep, hrow, hfreed⟩
        have hword : t.mem x i = s₀.mem x i := by rw [hrow i le_rfl, hmem]
        simp only [wp_bind, wp_load, hword, wp_ite, wp_pure, store, wp_modify]
        refine ⟨fun hvalid => ?_, fun hnot' => ⟨fun hvalid => ?_, fun hinvalid => ?_⟩⟩
        · obtain ⟨y, hlink, hy⟩ := h.down hx hi hvalid.1
          rw [hlink.pa]
          refine ih hy (fun z hz => ?_) fun u husupply hukeep hufreed => ?_
          · have hzx : z ≠ x := by
              rintro rfl
              exact hnot _ hz
            have hbefore : ∀ j < i, ¬ Below A r l (n * 512 + j) z := by
              intro j hj hz'
              have := hz.unique hz'
              omega
            obtain ⟨hz₀, hzused⟩ := hsame z (below_succ_iff.mpr (.inr ⟨i, hi, hz⟩))
            exact ⟨(hkeep z hzx hbefore).trans hz₀, (hfreed z).mpr ⟨hzused, hbefore⟩⟩
          · refine ⟨husupply.trans hsupply, fun z hzx hz => ?_, fun j hj => ?_, fun z => ?_⟩
            · rw [mem_set_page_of_ne hzx, hukeep z (hz i (by omega)),
                hkeep z hzx fun j hj => hz j (by omega)]
            · rw [mem_set_of_ne (by simp; omega), hukeep x (hnot _), hrow j (by omega)]
            · rw [used_set, hufreed, hfreed, and_assoc]
              refine and_congr_right fun _ => ⟨fun hz j hj => ?_, fun hz => ⟨fun j hj => hz j (by omega),
                hz i (by omega)⟩⟩
              rcases Nat.lt_succ_iff_lt_or_eq.mp hj with hj | rfl
              · exact hz.1 j hj
              · exact hz.2
        · -- an entry above the last level has no other flag
          obtain ⟨y, hlink, -⟩ := h.down hx hi hvalid
          exact absurd ⟨hvalid, hlink.pointer⟩ hnot'
        · have hempty : ∀ z, ¬ Below A r l (n * 512 + i) z := by
            intro z hz
            obtain ⟨y, hy⟩ := h.exists_above hz (by omega)
            exact hinvalid (h.valid_of_child hx hi hy).valid
          refine ⟨hsupply, fun z hzx hz => hkeep z hzx fun j hj => hz j (by omega),
            fun j hj => hrow j (by omega), fun z => ?_⟩
          rw [hfreed]
          refine and_congr_right fun _ => ⟨fun hz j hj => ?_, fun hz j hj => hz j (by omega)⟩
          rcases Nat.lt_succ_iff_lt_or_eq.mp hj with hj | rfl
          · exact hz j hj
          · exact hempty z
      · rintro t ⟨hsupply, hkeep, -, hfreed⟩
        have hxused : x ∈ t.used := (hfreed x).mpr ⟨hused, fun j _ => hnot _⟩
        have hbelow : ∀ z, Below A r (l + 1) n z ↔ z = x ∨ ∃ j < 512, Below A r l (n * 512 + j) z := by
          intro z
          rw [below_succ_iff]
          refine or_congr_left ⟨fun hz => h.table_unique hz hx, fun hz => hz ▸ hx⟩
        simp only [wp, kfree, hxused, if_true]
        refine hQ _ hsupply (fun z hz => ?_) fun z => ?_
        · rw [hbelow, not_or] at hz
          exact hkeep z hz.1 fun j hj hz' => hz.2 ⟨j, hj, hz'⟩
        · rw [Finset.mem_erase, hfreed, hbelow, not_or]
          constructor
          · rintro ⟨hzx, hzused, hz⟩
            exact ⟨hzused, hzx, fun ⟨j, hj, hz'⟩ => hz j hj hz'⟩
          · rintro ⟨hzused, hzx, hz⟩
            exact ⟨hzx, hzused, fun j hj hz' => hz ⟨j, hj, hz'⟩⟩

/-! ### The view without a table -/

open Classical in
/-- The pages of the table are gone. -/
noncomputable def View.without (A : View) (r : ℕ) : View :=
  { A with owner := fun z => if ∃ l n, A.owner z = some (.table r l n) then none else A.owner z }

theorem View.owner_without_table (hz : A.owner z = some (.table r l n)) :
    (A.without r).owner z = none :=
  if_pos ⟨l, n, hz⟩

theorem View.owner_without_of_ne (hz : ∀ l n, A.owner z ≠ some (.table r l n)) :
    (A.without r).owner z = A.owner z :=
  if_neg fun ⟨l, n, h⟩ => hz l n h

theorem View.owner_without_eq_some {o : Owner} :
    (A.without r).owner z = some o ↔ A.owner z = some o ∧ ∀ l n, o ≠ .table r l n := by
  by_cases hz : ∃ l n, A.owner z = some (.table r l n)
  · obtain ⟨l, n, hz⟩ := hz
    rw [View.owner_without_table hz, hz]
    simp only [reduceCtorEq, Option.some.injEq, false_iff, not_and]
    rintro rfl hne
    exact hne l n rfl
  · rw [View.owner_without_of_ne fun l n h => hz ⟨l, n, h⟩]
    refine ⟨fun ho => ⟨ho, fun l n he => hz ⟨l, n, he ▸ ho⟩⟩, And.left⟩

/-- A table without entries is taken away. -/
theorem Tree.without (h : Tree C s A) (hunmapped : ∀ v, A.maps r v = none)
    (hmem : ∀ z, (∀ l n, A.owner z ≠ some (.table r l n)) → t.mem z = s.mem z)
    (hused : ∀ z, z ∈ t.used ↔ z ∈ s.used ∧ ∀ l n, A.owner z ≠ some (.table r l n)) :
    Tree C t (A.without r) := by
  have hother : ∀ {z r' l n}, (A.without r).owner z = some (.table r' l n) →
      A.owner z = some (.table r' l n) ∧ r' ≠ r := by
    intro z r' l n hz
    obtain ⟨hz, hne⟩ := View.owner_without_eq_some.mp hz
    exact ⟨hz, fun hr => hne l n (by rw [hr])⟩
  have hkeep : ∀ {z r' l n}, A.owner z = some (.table r' l n) → r' ≠ r →
      (A.without r).owner z = some (.table r' l n) ∧ t.mem z = s.mem z := by
    intro z r' l n hz hr
    have hne : ∀ l n, A.owner z ≠ some (.table r l n) := by
      intro l' n' hz'
      rw [hz] at hz'
      cases hz'
      exact hr rfl
    exact ⟨(View.owner_without_of_ne hne).trans hz, hmem z hne⟩
  constructor
  case used_iff =>
    intro z
    rw [hused, h.used_iff]
    by_cases hz : ∃ l n, A.owner z = some (.table r l n)
    · obtain ⟨l, n, hz⟩ := hz
      rw [View.owner_without_table hz]
      simp [hz]
    · have hz' : ∀ l n, A.owner z ≠ some (.table r l n) := fun l n h => hz ⟨l, n, h⟩
      rw [View.owner_without_of_ne hz']
      exact ⟨And.left, fun ho => ⟨ho, hz'⟩⟩
  case used_pool => exact fun z hz => h.used_pool ((hused z).mp hz).1
  case root => exact fun hz => h.root (hother hz).1
  case level => exact fun hz => h.level (hother hz).1
  case down =>
    intro z r' l n i hz hi hv
    obtain ⟨hz, hr⟩ := hother hz
    rw [(hkeep hz hr).2] at hv ⊢
    obtain ⟨y, hlink, hy⟩ := h.down hz hi hv
    exact ⟨y, hlink, (hkeep hy hr).1⟩
  case up =>
    intro y r' l n hy hl
    obtain ⟨hy, hr⟩ := hother hy
    obtain ⟨z, hz, hlink⟩ := h.up hy hl
    exact ⟨z, (hkeep hz hr).1, (hkeep hz hr).2 ▸ hlink⟩
  case leaf =>
    intro z r' n i hz hi
    obtain ⟨hz, hr⟩ := hother hz
    rw [(hkeep hz hr).2]
    exact h.leaf hz hi
  case table_of_maps =>
    intro r' v w hw
    obtain ⟨z, hz⟩ := h.table_of_maps hw
    refine ⟨z, (hkeep hz ?_).1⟩
    rintro rfl
    cases hw.symm.trans (hunmapped v)

/-- What taking a table away leaves alone. -/
theorem Change.without (hmem : ∀ z, (∀ l n, A.owner z ≠ some (.table r l n)) → t.mem z = s.mem z)
    (hsupply : t.supply = s.supply) : Change r A (A.without r) s t where
  maps _ _ := rfl
  owner ho := View.owner_without_eq_some.trans (and_iff_left (Owner.ne_table_of_not_of ho))
  mem {x o} hx ho := by
    refine hmem x fun l n hz => Owner.ne_table_of_not_of ho l n ?_
    rw [hx] at hz
    exact Option.some.inj hz
  supply := by rw [hsupply]

/-- Freeing a table that has no entries left. -/
theorem wp_freewalk_rep {Q : Unit → Phys → Prop} (h : Rep C s A)
    (hr : A.owner r = some (.table r 2 0)) (hunmapped : ∀ v, A.maps r v = none)
    (hQ : ∀ t, Rep C t (A.without r) → Change r A (A.without r) s t → Q () t) :
    wp (freewalk 3 r) Q s := by
  have hbelow : ∀ z, Below A r 2 0 z ↔ ∃ l n, A.owner z = some (.table r l n) := by
    intro z
    refine ⟨fun ⟨l, n, hz, _⟩ => ⟨l, n, hz⟩, fun ⟨l, n, hz⟩ => h.below_root hz⟩
  refine wp_freewalk h.toTree hr hunmapped (fun z hz => ⟨rfl, ?_⟩) fun t hsupply hmem hused => ?_
  · obtain ⟨l, n, hz⟩ := (hbelow z).mp hz
    exact (h.used_iff z).mpr (by simp [hz])
  have hmem' : ∀ z, (∀ l n, A.owner z ≠ some (.table r l n)) → t.mem z = s.mem z := by
    intro z hz
    refine hmem z ?_
    rw [hbelow]
    exact fun ⟨l, n, hz'⟩ => hz l n hz'
  refine hQ t (h.of_tree (h.toTree.without hunmapped hmem' fun z => ?_) rfl fun z r' v => ?_)
    (.without hmem' hsupply)
  · rw [hused, hbelow]
    simp only [not_exists, ne_eq]
  · rw [View.owner_without_eq_some]
    exact ⟨And.left, fun hz => ⟨hz, nofun⟩⟩

end Xv6.Vm
