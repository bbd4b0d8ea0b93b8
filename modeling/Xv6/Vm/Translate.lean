import Xv6.Vm.Mapping

/-!
Page tables as maps from virtual pages.

A table is given by its root alone: `pageAt` follows valid entries down
from there. It is well formed when the pages it reaches are handed out,
entries above the last level are pointers, and no page is reached in two
ways. `translate` is what `walk` makes of an address. The results are about
any range of addresses, mapped and unmapped by the loops of `mappages` and
`uvmunmap`.

A well-formed table has a view, in which the pages of other tables are
nobody's; the rules for views then say what becomes of the table, and a
view says that its tables are well formed.
-/

namespace Xv6.Vm

open Lib Prog

variable {C : Config} {s t : Phys} {A A' : View} {r v w n i x y va d : ℕ}

/-! ### Tables -/

/-- The page-table page `depth` levels below the root for the addresses with
number `n`. -/
def pageAt (s : Phys) (r : ℕ) : (depth n : ℕ) → Option ℕ
  | 0, n => if n = 0 then some r else none
  | depth + 1, n => (pageAt s r depth (n / 512)).bind fun x =>
      if s.mem x (n % 512) &&& pteV ≠ 0 then some (pte2pa (s.mem x (n % 512))) else none

/-- The valid entry of a virtual page. -/
def entryAt (s : Phys) (r v : ℕ) : Option ℕ :=
  (pageAt s r 2 (v / 512)).bind fun x =>
    if s.mem x (v % 512) &&& pteV ≠ 0 then some (s.mem x (v % 512)) else none

/-- The page-table pages of the table form a tree, and no other use is made
of them. -/
structure WellFormed (C : Config) (s : Phys) (r : ℕ) : Prop where
  pool : s.used ⊆ C.pool
  used : ∀ {d n x}, d ≤ 2 → pageAt s r d n = some x → x ∈ s.used
  unshared : ∀ {d d' n n' x}, d ≤ 2 → d' ≤ 2 → pageAt s r d n = some x →
    pageAt s r d' n' = some x → d = d' ∧ n = n'
  pointer : ∀ {d n x i}, d < 2 → pageAt s r d n = some x → i < 512 →
    s.mem x i &&& pteV ≠ 0 → s.mem x i &&& (pteR ||| pteW ||| pteX) = 0

/-- The physical page and the flags that `walk` finds for an address. -/
def translate (C : Config) (s : Phys) (r va : ℕ) : Option (ℕ × ℕ) :=
  match walk C r va false s with
  | .ok (some (page, i)) _ =>
      if s.mem page i &&& pteV = 0 then none
      else some (pte2pa (s.mem page i), pteFlags (s.mem page i))
  | _ => none

/-! ### Tables and views -/

open Classical in
/-- The view in which only the pages of one table are in use as such. -/
noncomputable def viewOf (s : Phys) (r : ℕ) : View where
  owner x :=
    if h : ∃ p : ℕ × ℕ, p.1 ≤ 2 ∧ pageAt s r p.1 p.2 = some x then
      some (.table r (2 - h.choose.1) h.choose.2)
    else if x ∈ s.used then some .loose else none
  maps r' v := if r' = r then entryAt s r v else none

theorem WellFormed.owner_viewOf (h : WellFormed C s r) (hd : d ≤ 2)
    (hx : pageAt s r d n = some x) : (viewOf s r).owner x = some (.table r (2 - d) n) := by
  have hex : ∃ p : ℕ × ℕ, p.1 ≤ 2 ∧ pageAt s r p.1 p.2 = some x := ⟨(d, n), hd, hx⟩
  obtain ⟨h1, h2⟩ := h.unshared hex.choose_spec.1 hd hex.choose_spec.2 hx
  unfold viewOf
  simp only
  rw [dif_pos hex, h1, h2]

theorem WellFormed.viewOf_eq_table {r' l : ℕ} (h : WellFormed C s r)
    (hx : (viewOf s r).owner x = some (.table r' l n)) :
    r' = r ∧ l ≤ 2 ∧ pageAt s r (2 - l) n = some x := by
  by_cases hex : ∃ p : ℕ × ℕ, p.1 ≤ 2 ∧ pageAt s r p.1 p.2 = some x
  · obtain ⟨⟨d, m⟩, hd, hp⟩ := hex
    rw [h.owner_viewOf hd hp] at hx
    cases hx
    refine ⟨rfl, by omega, ?_⟩
    rwa [show 2 - (2 - d) = d by simp only at hd; omega]
  · unfold viewOf at hx
    simp only [dif_neg hex] at hx
    split_ifs at hx
    cases hx

theorem pageAt_succ_eq_some : pageAt s r (d + 1) n = some x ↔
    ∃ y, pageAt s r d (n / 512) = some y ∧ s.mem y (n % 512) &&& pteV ≠ 0 ∧
      pte2pa (s.mem y (n % 512)) = x := by
  rw [pageAt, Option.bind_eq_some_iff]
  refine exists_congr fun y => and_congr_right fun _ => ?_
  split_ifs with hv
  · simp only [Option.some.injEq, hv, ne_eq, not_false_eq_true, true_and]
  · simp only [hv, false_and]

theorem WellFormed.tree (h : WellFormed C s r) : Tree C s (viewOf s r) := by
  constructor
  case used_iff =>
    intro x
    by_cases hex : ∃ p : ℕ × ℕ, p.1 ≤ 2 ∧ pageAt s r p.1 p.2 = some x
    · obtain ⟨⟨d, m⟩, hd, hp⟩ := hex
      rw [h.owner_viewOf hd hp]
      exact ⟨fun _ => rfl, fun _ => h.used hd hp⟩
    · unfold viewOf
      simp only [dif_neg hex]
      split_ifs with hx <;> simp [hx]
  case used_pool => exact h.pool
  case root =>
    intro x r' n hx
    obtain ⟨rfl, -, hp⟩ := h.viewOf_eq_table hx
    rw [Nat.sub_self, pageAt] at hp
    split_ifs at hp with hn
    exact ⟨(Option.some.inj hp).symm, hn⟩
  case level => exact fun hx => (h.viewOf_eq_table hx).2.1
  case down =>
    intro x r' l n i hx hi hv
    obtain ⟨rfl, hl, hp⟩ := h.viewOf_eq_table hx
    refine ⟨_, ⟨hv, h.pointer (by omega) hp hi hv, rfl⟩, ?_⟩
    have hchild : pageAt s r' (2 - (l + 1) + 1) (n * 512 + i) = some (pte2pa (s.mem x i)) := by
      refine pageAt_succ_eq_some.mpr ⟨x, ?_, ?_, ?_⟩
      · rwa [show (n * 512 + i) / 512 = n by omega]
      · rwa [show (n * 512 + i) % 512 = i by omega]
      · rw [show (n * 512 + i) % 512 = i by omega]
    have hown := h.owner_viewOf (by omega) hchild
    rwa [show 2 - (2 - (l + 1) + 1) = l by omega] at hown
  case up =>
    intro y r' l n hy hl
    obtain ⟨rfl, -, hp⟩ := h.viewOf_eq_table hy
    rw [show 2 - l = (2 - (l + 1)) + 1 by omega] at hp
    obtain ⟨x, hx, hv, hpa⟩ := pageAt_succ_eq_some.mp hp
    refine ⟨x, ?_, hv, h.pointer (by omega) hx (Nat.mod_lt _ (by decide)) hv, hpa⟩
    have hown := h.owner_viewOf (by omega) hx
    rwa [show 2 - (2 - (l + 1)) = l + 1 by omega] at hown
  case leaf =>
    intro x r' n i hx hi
    obtain ⟨rfl, -, hp⟩ := h.viewOf_eq_table hx
    change (if r' = r' then entryAt s r' (n * 512 + i) else none) = _
    rw [if_pos rfl, entryAt, show (n * 512 + i) / 512 = n by omega,
      show (n * 512 + i) % 512 = i by omega, hp]
    rfl
  case table_of_maps =>
    intro r' v w hw
    change (if r' = r then entryAt s r v else none) = some w at hw
    split_ifs at hw with hr
    subst hr
    obtain ⟨x, hx, -⟩ := Option.bind_eq_some_iff.mp hw
    exact ⟨x, h.owner_viewOf le_rfl hx⟩

theorem WellFormed.owner_root (h : WellFormed C s r) : (viewOf s r).owner r = some (.table r 2 0) :=
  h.owner_viewOf (d := 0) (by decide) rfl

/-- In a state that a view describes, the pages of a table are found by
following its entries. -/
theorem Tree.pageAt_iff (h : Tree C s A) (hr : A.owner r = some (.table r 2 0)) (hd : d ≤ 2) :
    pageAt s r d n = some x ↔ A.owner x = some (.table r (2 - d) n) := by
  induction d generalizing n x with
  | zero =>
      rw [pageAt]
      constructor
      · intro hx
        split_ifs at hx with hn
        cases hx
        rw [hn]
        exact hr
      · intro hx
        obtain ⟨rfl, rfl⟩ := h.root hx
        rfl
  | succ d ih =>
      rw [pageAt_succ_eq_some]
      constructor
      · rintro ⟨y, hy, hv, hpa⟩
        rw [ih (by omega), show 2 - d = 2 - (d + 1) + 1 by omega] at hy
        obtain ⟨z, hz, hown⟩ := h.down hy (Nat.mod_lt _ (by decide)) hv
        rw [← hpa, hz.pa, hown, show n / 512 * 512 + n % 512 = n by omega]
      · intro hx
        obtain ⟨y, hy, hlink⟩ := h.up hx (by omega)
        refine ⟨y, (ih (by omega)).mpr ?_, hlink.valid, hlink.pa⟩
        rwa [show 2 - d = 2 - (d + 1) + 1 by omega]

theorem Tree.wellFormed (h : Tree C s A) (hr : A.owner r = some (.table r 2 0)) :
    WellFormed C s r where
  pool := h.used_pool
  used hd hx := (h.used_iff _).mpr (by rw [(h.pageAt_iff hr hd).mp hx]; rfl)
  unshared := by
    intro d d' n n' x hd hd' hx hx'
    rw [h.pageAt_iff hr hd] at hx
    rw [h.pageAt_iff hr hd', hx] at hx'
    obtain ⟨-, hl, hn⟩ := Owner.table.inj (Option.some.inj hx')
    exact ⟨by omega, hn⟩
  pointer := by
    intro d n x i hd hx hi hv
    rw [h.pageAt_iff hr hd.le, show 2 - d = 1 - d + 1 by omega] at hx
    obtain ⟨y, hlink, -⟩ := h.down hx hi hv
    exact hlink.pointer

theorem pageAt_empty (hzero : ∀ i, s.mem r i = 0) (hx : pageAt s r d n = some x) :
    d = 0 ∧ n = 0 ∧ x = r := by
  induction d generalizing n x with
  | zero =>
      rw [pageAt] at hx
      split_ifs at hx with hn
      exact ⟨rfl, hn, (Option.some.inj hx).symm⟩
  | succ d ih =>
      obtain ⟨y, hy, hv, -⟩ := pageAt_succ_eq_some.mp hx
      obtain ⟨-, -, rfl⟩ := ih hy
      rw [hzero] at hv
      exact absurd rfl hv

/-- A root without entries, as `uvmcreate` makes it. -/
theorem wellFormed_empty (hpool : s.used ⊆ C.pool) (hr : r ∈ s.used) (hzero : ∀ i, s.mem r i = 0) :
    WellFormed C s r where
  pool := hpool
  used _ hx := by
    obtain ⟨-, -, rfl⟩ := pageAt_empty hzero hx
    exact hr
  unshared _ _ hx hx' := by
    obtain ⟨rfl, rfl, -⟩ := pageAt_empty hzero hx
    obtain ⟨rfl, rfl, -⟩ := pageAt_empty hzero hx'
    exact ⟨rfl, rfl⟩
  pointer _ hx _ hv := by
    obtain ⟨-, -, rfl⟩ := pageAt_empty hzero hx
    rw [hzero] at hv
    exact absurd rfl hv

/-! ### Supplies -/

/-- `k` calls of `kalloc` are answered with pages. -/
def Stocked (C : Config) (s : Phys) (k : ℕ) : Prop :=
  ∃ (pages : List ℕ) (rest : List (Option ℕ)), s.supply = pages.map some ++ rest ∧
    k ≤ pages.length ∧ pages.Nodup ∧ ∀ pg ∈ pages, pg ∈ C.pool ∧ pg ∉ s.used

variable {k l pa perm size : ℕ}

theorem Stocked.mono {m : ℕ} (h : Stocked C s m) (hk : k ≤ m) : Stocked C s k := by
  obtain ⟨pages, rest, hsupply, hlen, hpages⟩ := h
  exact ⟨pages, rest, hsupply, hk.trans hlen, hpages⟩

theorem served_load {Q : ℕ → Phys → Prop} : served (load x i) Q s ↔ Q (s.mem x i) s := .rfl

theorem served_kalloc {Q : Option ℕ → Phys → Prop} (h : Stocked C s (k + 1))
    (hQ : ∀ pg t, Stocked C t k → Q (some pg) t) : served (kalloc C) Q s := by
  obtain ⟨pages, rest, hsupply, hlen, hnodup, hfree⟩ := h
  cases pages with
  | nil => exact absurd hlen (Nat.not_succ_le_zero k)
  | cons pg pages =>
      simp only [served, kalloc, hsupply, List.map_cons, List.cons_append,
        if_pos (hfree pg List.mem_cons_self)]
      refine hQ pg _ ⟨pages, rest, rfl, Nat.le_of_succ_le_succ hlen, hnodup.of_cons, ?_⟩
      intro q hq
      obtain ⟨hpool, hused⟩ := hfree q (List.mem_cons_of_mem _ hq)
      refine ⟨hpool, fun hmem => ?_⟩
      rcases Finset.mem_insert.mp hmem with rfl | hmem
      · exact (List.nodup_cons.mp hnodup).1 hq
      · exact hused hmem

variable {Q : Option (ℕ × ℕ) → Phys → Prop}

/-- A walk takes at most one page for each level below the root. -/
theorem served_walkFrom_alloc (h : Stocked C s (l + k))
    (hQ : ∀ a t, Stocked C t k → Q a t) : served (walkFrom C va true l x) Q s := by
  induction l generalizing s x with
  | zero => exact hQ _ s (h.mono (by omega))
  | succ l ih =>
      simp only [walkFrom, served_bind, served_load, if_true]
      refine served_ite (fun _ => ih (h.mono (by omega))) fun _ => ?_
      rw [served_bind]
      refine served_kalloc (k := l + k) (h.mono (by omega)) fun pg t ht => ?_
      simp only [clearPage, setPage, store, served_bind, served_modify]
      exact ih ht

theorem served_walkFrom (hQ : ∀ a, Q a s) : served (walkFrom C va false l x) Q s := by
  induction l generalizing x with
  | zero => exact hQ _
  | succ l ih =>
      simp only [walkFrom, served_bind, served_load]
      exact served_ite (fun _ => ih) fun _ => hQ none

theorem served_walk (hQ : ∀ a, Q a s) : served (walk C r va false) Q s :=
  served_ite (fun _ => served_fault) fun _ => served_walkFrom hQ

/-- A round of the loop takes at most two pages. -/
theorem served_mappagesLoop (h : Stocked C s (2 * n)) {a : ℕ} :
    served (mappagesLoop C r perm n a pa) (fun _ _ => True) s := by
  induction n generalizing s a pa with
  | zero => trivial
  | succ n ih =>
      rw [mappagesLoop, served_bind, walk]
      refine served_ite (fun _ => served_fault) fun _ => ?_
      refine served_walkFrom_alloc (k := 2 * n) (h.mono (by omega)) fun a t ht => ?_
      cases a with
      | none => trivial
      | some place =>
          simp only [served_bind, served_load]
          refine served_ite (fun _ => served_fault) fun _ => ?_
          simp only [store, served_bind, served_modify]
          exact ih (s := t.set _ _ _) ht

theorem served_uvmunmapLoop {a : ℕ} : served (uvmunmapLoop C r false n a) (fun _ _ => True) s := by
  induction n generalizing s a with
  | zero => trivial
  | succ n ih =>
      rw [uvmunmapLoop, served_bind]
      refine served_walk fun place => ?_
      cases place with
      | none => trivial
      | some place =>
          simp only [served_bind, served_load]
          refine served_ite (fun _ => served_fault) fun _ => ?_
          refine served_ite (fun _ => served_fault) fun _ => ?_
          simp only [Bool.false_eq_true, if_false, store, served_bind, served_modify]
          exact ih

/-! ### Translations -/

/-- What an entry says about its page. -/
def reading (w : ℕ) : ℕ × ℕ := (pte2pa w, pteFlags w)

theorem px_zero (va : ℕ) : px 0 va = va / pgsize % 512 := px_eq 0 va

theorem div_last_level (va : ℕ) : va / 2 ^ 21 = va / pgsize / 512 :=
  (Nat.div_div_eq_div_mul va pgsize 512).symm

/-- Walking reads the map of the view. -/
theorem Tree.translate_eq (h : Tree C s A) (hr : A.owner r = some (.table r 2 0))
    (hva : va < maxva) : translate C s r va = (A.maps r (va / pgsize)).map reading := by
  have hwalk : wp (walk C r va false) (fun a t => t = s ∧
      (A.maps r (va / pgsize)).map reading = a.bind fun p =>
        if s.mem p.1 p.2 &&& pteV = 0 then none else some (reading (s.mem p.1 p.2))) s := by
    rw [walk, if_neg (Nat.not_le.mpr hva)]
    refine wp_walkFrom h (by rw [root_div hva]; exact hr) (fun y hy => ⟨rfl, ?_⟩) fun hno => ⟨rfl, ?_⟩
    · rw [div_last_level] at hy
      rw [h.word hy, px_zero]
      by_cases hv : s.mem y (va / pgsize % 512) &&& pteV = 0
      · rw [if_neg (not_not.mpr hv)]
        exact (if_pos hv).symm
      · rw [if_pos hv]
        exact (if_neg hv).symm
    · cases hw : A.maps r (va / pgsize) with
      | none => rfl
      | some w =>
          obtain ⟨y, hy⟩ := h.table_of_maps hw
          exact absurd (by rw [hy, div_last_level]) (hno y)
  obtain ⟨a, t, hend, ⟨rfl, hmap⟩, -⟩ :=
    exists_of_served hwalk (served_walk (Q := fun _ _ => True) fun _ => trivial)
  rw [translate, hend, hmap]
  cases a <;> rfl

theorem translate_empty (h : WellFormed C s r) (hzero : ∀ i, s.mem r i = 0) (hva : va < maxva) :
    translate C s r va = none := by
  rw [h.tree.translate_eq h.owner_root hva, Option.map_eq_none_iff]
  change (if r = r then entryAt s r (va / pgsize) else none) = none
  rw [if_pos rfl, entryAt, Option.bind_eq_none_iff]
  intro x hx
  exact absurd (pageAt_empty hzero hx).1 (by decide)

/-! ### Mapping a range -/

/-- The entry that `mappages` writes. -/
def leafWord (pa perm : ℕ) : ℕ := pa2pte pa ||| perm ||| pteV

theorem leafWord_valid (pa perm : ℕ) : leafWord pa perm &&& pteV ≠ 0 := by
  rw [leafWord, Nat.or_assoc, pte_and (by decide), Nat.and_or_distrib_right]
  intro h
  exact absurd (Nat.or_eq_zero_iff.mp h).2 (by decide)

theorem leafWord_leaf (hperm : perm &&& (pteR ||| pteW ||| pteX) ≠ 0) :
    leafWord pa perm &&& (pteR ||| pteW ||| pteX) ≠ 0 := by
  rw [leafWord, Nat.or_assoc, pte_and (by decide), Nat.and_or_distrib_right]
  intro h
  exact hperm (Nat.or_eq_zero_iff.mp h).1

theorem reading_leafWord (hpa : pgsize ∣ pa) (hperm : perm < 1024) :
    reading (leafWord pa perm) = (pa, perm ||| pteV) := by
  have hflags : perm ||| pteV < 2 ^ 10 := Nat.or_lt_two_pow hperm (by decide)
  rw [reading, leafWord, Nat.or_assoc, pte2pa_or hpa hflags, pteFlags, pte_and (by decide),
    show 0x3FF = 2 ^ 10 - 1 from rfl, Nat.and_two_pow_sub_one_eq_mod, Nat.mod_eq_of_lt hflags]

/-- An entry is written, and the page it leads to stays what it is. -/
theorem Tree.setWord (h : Tree C s A) (hy : A.owner y = some (.table r 0 (v / 512))) (w : ℕ) :
    Tree C (s.set y (v % 512) w) (A.setMap r v (if w &&& pteV ≠ 0 then some w else none)) := by
  have hset := h.setLeaf (t := s.set y (v % 512) w) (o := A.owner) (w := w) hy
    (Nat.mod_lt v (by decide)) (fun _ _ _ _ => .rfl) h.used_iff h.used_pool rfl
  rwa [show v / 512 * 512 + v % 512 = v by omega] at hset

/-- The loop of `mappages` over `n` pages that are not mapped. -/
theorem wp_mappagesLoop {Q : Bool → Phys → Prop} (h : Ready C s A)
    (hr : A.owner r = some (.table r 2 0)) (hmax : v + n ≤ maxPage)
    (hpa : pa + n * pgsize < 2 ^ 64) (hnone : ∀ u, v ≤ u → u < v + n → A.maps r u = none)
    (hQ : ∀ t A', Ready C t A' → A'.owner r = some (.table r 2 0) →
      (∀ u, A'.maps r u = if v ≤ u ∧ u < v + n then
        some (leafWord (pa + (u - v) * pgsize) perm) else A.maps r u) → Q true t) :
    wp (mappagesLoop C r perm n (v * pgsize) pa) Q s := by
  induction n generalizing s A v pa with
  | zero =>
      refine hQ s A h hr fun u => ?_
      rw [if_neg (by omega)]
  | succ n ih =>
      have hv : v < maxPage := by omega
      rw [Nat.succ_mul] at hpa
      have hrest : pa + pgsize + n * pgsize < 2 ^ 64 := by
        rwa [Nat.add_assoc, Nat.add_comm pgsize]
      have hnext : pa + pgsize < 2 ^ 64 :=
        lt_of_le_of_lt (Nat.le_add_right (pa + pgsize) (n * pgsize)) hrest
      rw [mappagesLoop, wp_bind]
      refine wp_walk_alloc h hr (page_lt hv) fun t A' y ht hgrow hy => ?_
      rw [page_div] at hy
      rw [px_page]
      have hfree : t.mem y (v % 512) &&& pteV = 0 := by
        have hword := ht.tree.word hy
        rw [hgrow.maps, hnone v le_rfl (by omega)] at hword
        by_contra hv
        rw [if_pos hv] at hword
        cases hword
      simp only [wp_bind, wp_load]
      rw [if_neg (not_not.mpr hfree), wp_bind, store, wp_modify, u64_next_page hv, u64,
        Nat.mod_eq_of_lt hnext]
      have hset := ht.tree.setWord hy (leafWord pa perm)
      rw [if_pos (leafWord_valid pa perm)] at hset
      refine ih (A := A'.setMap r v (some (leafWord pa perm))) ⟨hset, ht.supply⟩ (hgrow.keep hr)
        (by omega) hrest (fun u hu hun => ?_) fun t' A'' ht' hr' hmaps => hQ t' A'' ht' hr' ?_
      · rw [View.maps_setMap, if_neg (by omega), hgrow.maps, hnone u (by omega) (by omega)]
      · intro u
        rw [hmaps, View.maps_setMap, hgrow.maps]
        rcases eq_or_ne u v with rfl | hu
        · rw [if_neg (by omega), if_pos ⟨rfl, rfl⟩, if_pos ⟨le_rfl, by omega⟩, Nat.sub_self,
            Nat.zero_mul, Nat.add_zero]
        · by_cases hrange : v + 1 ≤ u ∧ u < v + 1 + n
          · rw [if_pos hrange, if_pos (by omega)]
            congr 2
            obtain ⟨k, rfl⟩ := Nat.exists_eq_add_of_le hrange.1
            rw [show v + 1 + k - (v + 1) = k by omega, show v + 1 + k - v = k + 1 by omega,
              Nat.succ_mul, Nat.add_assoc, Nat.add_comm pgsize]
          · rw [if_neg hrange, if_neg (fun he => hu he.2), if_neg (by omega)]

/-- The loop of `uvmunmap` over `n` pages that are mapped, which are kept. -/
theorem wp_uvmunmapLoop_keep {Q : Unit → Phys → Prop} (h : Tree C s A)
    (hr : A.owner r = some (.table r 2 0)) (hmax : v + n ≤ maxPage)
    (hmapped : ∀ u, v ≤ u → u < v + n →
      ∃ w, A.maps r u = some w ∧ w &&& (pteR ||| pteW ||| pteX) ≠ 0)
    (hQ : ∀ t A', Tree C t A' → A'.owner r = some (.table r 2 0) →
      (∀ u, A'.maps r u = if v ≤ u ∧ u < v + n then none else A.maps r u) → Q () t) :
    wp (uvmunmapLoop C r false n (v * pgsize)) Q s := by
  induction n generalizing s A v with
  | zero =>
      refine hQ s A h hr fun u => ?_
      rw [if_neg (by omega)]
  | succ n ih =>
      have hv : v < maxPage := by omega
      obtain ⟨w, hw, hleaf⟩ := hmapped v le_rfl (by omega)
      rw [uvmunmapLoop, wp_bind]
      refine wp_walk_mapped h hr hv hw fun y hy hword => ?_
      simp only [wp_bind, wp_load, hword]
      rw [if_neg (h.word_eq hy hw).2, if_neg (pteFlags_ne hleaf)]
      simp only [Bool.false_eq_true, if_false, wp_bind, store, wp_modify]
      rw [u64_next_page hv]
      have hset := h.setWord hy 0
      rw [if_neg (by decide)] at hset
      refine ih (A := A.setMap r v none) hset hr (by omega) (fun u hu hun => ?_)
        fun t A' ht hr' hmaps => hQ t A' ht hr' fun u => ?_
      · rw [View.maps_setMap, if_neg (by omega)]
        exact hmapped u (by omega) (by omega)
      · rw [hmaps, View.maps_setMap]
        split_ifs <;> first | rfl | omega

/-! ### Ranges of addresses -/

/-- The address is in a page of the range. -/
def InPages (va size x : ℕ) : Prop :=
  pgrounddown va ≤ pgrounddown x ∧ pgrounddown x ≤ pgrounddown (va + size - 1)

instance (va size x : ℕ) : Decidable (InPages va size x) := instDecidableAnd

theorem rounds_eq (hsize : 0 < size) (hmax : va + size ≤ maxva) :
    va / pgsize + rounds va size = (va + size - 1) / pgsize + 1 := by
  simp only [rounds, pgrounddown, u64, maxva, pgsize] at hmax ⊢
  omega

theorem inPages_iff (hsize : 0 < size) (hmax : va + size ≤ maxva) : InPages va size x ↔
    va / pgsize ≤ x / pgsize ∧ x / pgsize < va / pgsize + rounds va size := by
  rw [rounds_eq hsize hmax]
  simp only [InPages, pgrounddown, pgsize]
  omega

/-- Mapping a range adds it to the translation, and unmapping it takes it
away again. -/
theorem mappages_refines (h : WellFormed C s r) (hsupply : ∀ a ∈ s.supply, a ≠ none)
    (hsize : 0 < size) (hmax : va + size ≤ maxva) (hpa : pgsize ∣ pa) (hlt : pa + size < 2 ^ 56)
    (hperm : perm < 1024) (hrwx : perm &&& (pteR ||| pteW ||| pteX) ≠ 0)
    (hfree : ∀ x < maxva, InPages va size x → translate C s r x = none) :
    (Stocked C s (2 * rounds va size) → ∃ t, mappages C r va size pa perm s = .ok true t) ∧
    wp (mappages C r va size pa perm) (fun done t => done = true ∧ WellFormed C t r ∧
      (∀ x < maxva, translate C t r x =
        if InPages va size x then some (pa + (pgrounddown x - pgrounddown va), perm ||| pteV)
        else translate C s r x) ∧
      ∃ u, uvmunmap C r va size false t = .ok () u ∧
        ∀ x < maxva, translate C u r x = translate C s r x) s := by
  have hroot := h.owner_root
  have hnum := rounds_eq hsize hmax
  have hpages : va / pgsize + rounds va size ≤ maxPage := by
    simp only [maxPage, maxva, pgsize] at hmax hnum ⊢
    omega
  have hrange := fun x => inPages_iff (x := x) hsize hmax
  have hpage : ∀ u, va / pgsize ≤ u → u < va / pgsize + rounds va size →
      (viewOf s r).maps r u = none := by
    intro u hu hun
    have hx : u * pgsize < maxva := page_lt (by omega)
    have hdiv : u * pgsize / pgsize = u := Nat.mul_div_cancel u (by decide)
    have hnone := hfree (u * pgsize) hx ((hrange _).mpr (by rw [hdiv]; exact ⟨hu, hun⟩))
    rw [h.tree.translate_eq hroot hx, hdiv] at hnone
    exact Option.map_eq_none_iff.mp hnone
  have hmap : wp (mappages C r va size pa perm) (fun done t => done = true ∧ ∃ A',
      Tree C t A' ∧ A'.owner r = some (.table r 2 0) ∧ ∀ u, A'.maps r u =
        if va / pgsize ≤ u ∧ u < va / pgsize + rounds va size then
          some (leafWord (pa + (u - va / pgsize) * pgsize) perm) else (viewOf s r).maps r u) s := by
    refine wp_mappagesLoop ⟨h.tree, hsupply⟩ hroot hpages ?_ hpage
      fun t A' ht hr' hmaps => ⟨rfl, A', ht.tree, hr', hmaps⟩
    simp only [maxva, pgsize] at hmax hnum hlt ⊢
    omega
  refine ⟨fun hstock => ?_, wp_mono hmap ?_⟩
  · obtain ⟨done, t, hend, ⟨rfl, -⟩, -⟩ := exists_of_served hmap (served_mappagesLoop hstock)
    exact ⟨t, hend⟩
  rintro done t ⟨rfl, A', ht, hr', hmaps⟩
  refine ⟨rfl, ht.wellFormed hr', fun x hx => ?_, ?_⟩
  · rw [ht.translate_eq hr' hx, hmaps, h.tree.translate_eq hroot hx]
    by_cases hin : InPages va size x
    · rw [if_pos hin, if_pos ((hrange x).mp hin), Option.map_some,
        reading_leafWord (Nat.dvd_add hpa (Nat.dvd_mul_left _ _)) hperm, Nat.sub_mul]
      rfl
    · rw [if_neg hin, if_neg fun hin' => hin ((hrange x).mpr hin')]
  · have hunmap : wp (uvmunmap C r va size false) (fun _ u => ∃ A'',
        Tree C u A'' ∧ A''.owner r = some (.table r 2 0) ∧ ∀ v, A''.maps r v =
          if va / pgsize ≤ v ∧ v < va / pgsize + rounds va size then none else A'.maps r v) t := by
      refine wp_uvmunmapLoop_keep ht hr' hpages (fun u hu hun => ?_)
        fun u A'' hu hr'' hmaps' => ⟨A'', hu, hr'', hmaps'⟩
      refine ⟨leafWord (pa + (u - va / pgsize) * pgsize) perm, ?_, leafWord_leaf hrwx⟩
      rw [hmaps, if_pos ⟨hu, hun⟩]
    obtain ⟨_, u, hend, ⟨A'', hu, hr'', hmaps'⟩, -⟩ := exists_of_served hunmap served_uvmunmapLoop
    refine ⟨u, hend, fun x hx => ?_⟩
    rw [hu.translate_eq hr'' hx, h.tree.translate_eq hroot hx, hmaps', hmaps]
    split_ifs with hin
    · rw [hpage _ hin.1 hin.2]
    · rfl

/-- A machine with five pages, the first of which is the root of a table
without entries. -/
def fivePages : Config where
  pool := {4096, 8192, 12288, 16384, 20480}
  trampoline := 0
  pool_aligned := by decide
  pool_lt := by decide
  trampoline_aligned := by decide
  trampoline_lt := by decide
  card_pool_le := by decide

def emptyTable : Phys where
  mem := fun _ _ => 0
  used := {4096}
  supply := [some 8192, some 12288, some 16384, some 20480]

/-- The range starts in one page and ends in the next. -/
theorem mappages_two_pages : ∃ t,
    mappages fivePages 4096 100 5000 0x80000000 pteR emptyTable = .ok true t ∧
    WellFormed fivePages t 4096 ∧
    translate fivePages t 4096 5050 = some (0x80001000, pteR ||| pteV) ∧
    ∃ u, uvmunmap fivePages 4096 100 5000 false t = .ok () u ∧
      translate fivePages u 4096 5050 = none := by
  have hwf : WellFormed fivePages emptyTable 4096 :=
    wellFormed_empty (by decide) (by decide) fun _ => rfl
  have hempty : ∀ x < maxva, translate fivePages emptyTable 4096 x = none :=
    fun x hx => translate_empty hwf (fun _ => rfl) hx
  obtain ⟨hends, hmap⟩ := mappages_refines hwf (by decide) (by decide : 0 < 5000)
    (by decide : 100 + 5000 ≤ maxva) (by decide : pgsize ∣ 0x80000000) (by decide)
    (by decide : pteR < 1024) (by decide) fun x hx _ => hempty x hx
  obtain ⟨t, ht⟩ := hends ⟨[8192, 12288, 16384, 20480], [], rfl, by decide, by decide, by decide⟩
  obtain ⟨-, hwf', htrans, u, hu, hback⟩ := of_wp hmap ht
  refine ⟨t, ht, hwf', ?_, u, hu, ?_⟩
  · rw [htrans 5050 (by decide)]
    rfl
  · rw [hback 5050 (by decide), hempty 5050 (by decide)]

end Xv6.Vm
