import Xv6.Vm.View

/-!
What the functions on page tables do to the view.

Every result is a rule for the weakest precondition of a function: in a
state that a view describes, the function does not fault, and the state it
ends in is described by a view that differs as stated. `kalloc` may fail at
any call; the rules say what a failure leaves, and which answers of the
allocator lead to it. The rules for an allocator that does not fail are
their special cases.
-/

namespace Xv6.Vm

open Lib Prog

/-- The tables are as the view says, and `kalloc` does not fail. -/
structure Ready (C : Config) (s : Phys) (A : View) : Prop where
  tree : Tree C s A
  supply : ∀ a ∈ s.supply, a ≠ none

/-- The view has got more page-table pages of the table with root `r`. -/
structure Grow (r : ℕ) (A A' : View) : Prop where
  maps : A'.maps = A.maps
  owner : ∀ x, A'.owner x = A.owner x ∨ A.owner x = none ∧ ∃ l n, A'.owner x = some (.table r l n)

/-- The page belongs to the table with root `r`. -/
def Owner.Of (r : ℕ) : Owner → Prop
  | .table r' _ _ => r' = r
  | .frame r' _ => r' = r
  | .trapframe _ => False
  | .loose => False

/-- No page in use has been written but those of the table with root `r`, and
`kalloc` has been called a number of times. -/
structure Kept (r : ℕ) (A : View) (s t : Phys) : Prop where
  mem : ∀ {x o}, A.owner x = some o → (∀ l n, o ≠ .table r l n) → t.mem x = s.mem x
  supply : t.supply <:+ s.supply

/-- What does not belong to the table with root `r` is as it was. -/
structure Change (r : ℕ) (A A' : View) (s t : Phys) : Prop where
  maps : ∀ r' ≠ r, A'.maps r' = A.maps r'
  owner : ∀ {x o}, ¬ o.Of r → (A'.owner x = some o ↔ A.owner x = some o)
  mem : ∀ {x o}, A.owner x = some o → ¬ o.Of r → t.mem x = s.mem x
  supply : t.supply <:+ s.supply

/-- A change that only adds pages, and does not write the user pages. -/
structure Extend (r : ℕ) (A A' : View) (s t : Phys) : Prop extends Change r A A' s t where
  keep : ∀ {x o}, A.owner x = some o → A'.owner x = some o
  frame : ∀ {x v}, A.owner x = some (.frame r v) → t.mem x = s.mem x

variable {C : Config} {s t u : Phys} {A A' A'' : View} {r v w n i x y va : ℕ}

theorem Grow.refl (r : ℕ) (A : View) : Grow r A A := ⟨rfl, fun _ => .inl rfl⟩

theorem Grow.keep (h : Grow r A A') {o : Owner} (hx : A.owner x = some o) :
    A'.owner x = some o := by
  rcases h.owner x with hsame | ⟨hnone, -⟩
  · rw [hsame, hx]
  · rw [hnone] at hx
    cases hx

theorem Grow.trans (h : Grow r A A') (h' : Grow r A' A'') : Grow r A A'' := by
  refine ⟨h'.maps.trans h.maps, fun x => ?_⟩
  rcases h'.owner x with hsame' | ⟨hnone', l, n, htable⟩
  · rw [hsame']
    exact h.owner x
  · rcases h.owner x with hsame | ⟨-, l', n', htable'⟩
    · exact .inr ⟨hsame ▸ hnone', l, n, htable⟩
    · rw [htable'] at hnone'
      cases hnone'

theorem Grow.own {l : ℕ} (hx : A.owner x = none) : Grow r A (A.own x (some (.table r l n))) := by
  refine ⟨rfl, fun y => ?_⟩
  rcases eq_or_ne y x with rfl | hy
  · exact .inr ⟨hx, l, n, View.owner_own_self _ _ _⟩
  · exact .inl (View.owner_own_of_ne _ _ hy)

theorem Kept.refl (r : ℕ) (A : View) (s : Phys) : Kept r A s s := ⟨fun _ _ => rfl, List.suffix_rfl⟩

theorem Kept.trans (h : Kept r A s t) (hgrow : Grow r A A') (h' : Kept r A' t u) : Kept r A s u :=
  ⟨fun hx ho => (h'.mem (hgrow.keep hx) ho).trans (h.mem hx ho), h'.supply.trans h.supply⟩

theorem Owner.ne_table_of_not_of {o : Owner} (ho : ¬ o.Of r) (l n : ℕ) : o ≠ .table r l n := by
  rintro rfl
  exact ho rfl

theorem Change.refl (r : ℕ) (A : View) (s : Phys) : Change r A A s s :=
  ⟨fun _ _ => rfl, fun _ => .rfl, fun _ _ => rfl, List.suffix_rfl⟩

theorem Change.trans (h : Change r A A' s t) (h' : Change r A' A'' t u) : Change r A A'' s u where
  maps r' hr := (h'.maps r' hr).trans (h.maps r' hr)
  owner ho := (h'.owner ho).trans (h.owner ho)
  mem hx ho := (h'.mem ((h.owner ho).mpr hx) ho).trans (h.mem hx ho)
  supply := h'.supply.trans h.supply

/-- Another table stays. -/
theorem Change.root {q : ℕ} (h : Change r A A' s t) (hq : q ≠ r)
    (hroot : A.owner q = some (.table q 2 0)) : A'.owner q = some (.table q 2 0) :=
  (h.owner (o := .table q 2 0) hq).mpr hroot

theorem Extend.refl (r : ℕ) (A : View) (s : Phys) : Extend r A A s s :=
  ⟨.refl r A s, id, fun _ => rfl⟩

theorem Extend.trans (h : Extend r A A' s t) (h' : Extend r A' A'' t u) : Extend r A A'' s u :=
  ⟨h.toChange.trans h'.toChange, fun hx => h'.keep (h.keep hx),
    fun hx => (h'.frame (h.keep hx)).trans (h.frame hx)⟩

theorem Grow.extend (h : Grow r A A') (hk : Kept r A s t) : Extend r A A' s t where
  maps _ _ := by rw [h.maps]
  owner {x o} ho := by
    refine ⟨fun hx => ?_, h.keep⟩
    rcases h.owner x with hsame | ⟨-, l, n, htable⟩
    · rwa [← hsame]
    · rw [htable] at hx
      cases hx
      exact absurd rfl ho
  mem hx ho := hk.mem hx (Owner.ne_table_of_not_of ho)
  supply := hk.supply
  keep := h.keep
  frame hx := hk.mem hx nofun

theorem Rep.grow (h : Rep C s A) (ht : Tree C t A') (hgrow : Grow r A A') : Rep C t A' := by
  refine h.of_tree ht hgrow.maps fun x r' v => ?_
  rcases hgrow.owner x with hsame | ⟨hnone, l, n, htable⟩
  · rw [hsame]
  · rw [hnone, htable]
    simp

/-! ### The allocator -/

variable {l : List (Option ℕ)}

/-- Neither trees nor user pages depend on what `kalloc` will answer. -/
theorem Tree.of_supply (h : Tree C s A) : Tree C { s with supply := l } A :=
  ⟨h.used_iff, h.used_pool, h.root, h.level, h.down, h.up, h.leaf, h.table_of_maps⟩

theorem Rep.of_supply (h : Rep C s A) : Rep C { s with supply := l } A :=
  ⟨h.toTree.of_supply, h.maps_leaf, h.frame_iff⟩

/-- A page is handed out. -/
theorem Tree.alloc {pg : ℕ} (h : Tree C s A) (hpool : pg ∈ C.pool) (hnone : A.owner pg = none) :
    Tree C { s with used := insert pg s.used, supply := l } (A.own pg (some .loose)) := by
  refine h.congr ?_ (fun _ _ _ _ _ => rfl) ?_ ?_
  · intro x r l n
    rcases eq_or_ne x pg with rfl | hx
    · simp [hnone]
    · simp [hx]
  · intro x
    rcases eq_or_ne x pg with rfl | hx
    · simp
    · simp [hx, h.used_iff]
  · exact Finset.insert_subset hpool h.used_pool

theorem Rep.alloc {pg : ℕ} (h : Rep C s A) (hpool : pg ∈ C.pool) (hnone : A.owner pg = none) :
    Rep C { s with used := insert pg s.used, supply := l } (A.own pg (some .loose)) := by
  refine h.of_tree (h.toTree.alloc hpool hnone) rfl fun x r v => ?_
  rcases eq_or_ne x pg with rfl | hx
  · simp [hnone]
  · simp [hx]

/-- `kalloc` fails or hands out a page. -/
theorem wp_kalloc_tree {Q : Option ℕ → Phys → Prop} (h : Tree C s A)
    (hfail : ∀ rest, s.supply = none :: rest → Q none { s with supply := rest })
    (hQ : ∀ pg rest, s.supply = some pg :: rest → A.owner pg = none → pg ∈ C.pool →
      Q (some pg) { s with used := insert pg s.used, supply := rest }) : wp (kalloc C) Q s := by
  simp only [wp, kalloc]
  cases hsupply : s.supply with
  | nil => trivial
  | cons a rest =>
      cases a with
      | none => exact hfail rest hsupply
      | some pg =>
          by_cases hpg : pg ∈ C.pool ∧ pg ∉ s.used
          · simp only [hpg, not_false_eq_true, and_self, if_true]
            refine hQ pg rest hsupply ?_ hpg.1
            simpa [h.used_iff] using hpg.2
          · simp only [hpg, if_false]

/-- A page of nobody's table is freed. -/
theorem Rep.free {o : Owner} (h : Rep C s A) (hx : A.owner x = some o) (hdata : o.IsData)
    (hframe : ∀ r v, o ≠ .frame r v) : Rep C { s with used := s.used.erase x } (A.own x none) := by
  refine h.of_tree (h.toTree.congr ?_ (fun _ _ _ _ _ => rfl) ?_ ?_) rfl ?_
  · intro y r l n
    rcases eq_or_ne y x with rfl | hy
    · simp only [Function.update_self, hx, Option.some.injEq, false_iff, reduceCtorEq]
      rintro rfl
      exact hdata
    · simp [hy]
  · intro y
    rcases eq_or_ne y x with rfl | hy
    · simp
    · simp [hy, h.used_iff]
  · exact (Finset.erase_subset _ _).trans h.used_pool
  · intro y r v
    rcases eq_or_ne y x with rfl | hy
    · simpa [hx] using hframe r v
    · simp [hy]

theorem wp_kfree_of_mem {Q : Unit → Phys → Prop} (hx : x ∈ s.used)
    (hQ : Q () { s with used := s.used.erase x }) : wp (kfree x) Q s := by
  simpa only [wp, kfree, hx, if_true] using hQ

/-! ### Walking -/

theorem wp_load {Q : ℕ → Phys → Prop} : wp (load x i) Q s ↔ Q (s.mem x i) s := .rfl

theorem div_two_pow_level (va l : ℕ) :
    va / 2 ^ (12 + 9 * (l + 1)) / 512 = va / 2 ^ (12 + 9 * (l + 2)) := by
  rw [Nat.div_div_eq_div_mul, show 12 + 9 * (l + 2) = 12 + 9 * (l + 1) + 9 by omega,
    Nat.pow_add 2 _ 9]

theorem div_two_pow_child (va l : ℕ) :
    va / 2 ^ (12 + 9 * (l + 2)) * 512 + px (l + 1) va = va / 2 ^ (12 + 9 * (l + 1)) := by
  rw [px_eq, ← div_two_pow_level]
  omega

/-- The page-table pages around one of the last level. -/
theorem Tree.above (h : Tree C s A) (hy : A.owner y = some (.table r 0 (va / 2 ^ 21))) {l : ℕ}
    (hl : l ≤ 2) : ∃ z, A.owner z = some (.table r l (va / 2 ^ (12 + 9 * (l + 1)))) := by
  induction l with
  | zero => exact ⟨y, hy⟩
  | succ l ih =>
      obtain ⟨z, hz⟩ := ih (by omega)
      obtain ⟨z', hz', -⟩ := h.up hz (by omega)
      rw [div_two_pow_level] at hz'
      exact ⟨z', hz'⟩

/-- The number of page-table pages that a walk with allocation has to add
below the page. -/
def missing (s : Phys) (va : ℕ) : (level page : ℕ) → ℕ
  | 0, _ => 0
  | level + 1, page =>
      if s.mem page (px (level + 1) va) &&& pteV ≠ 0 then
        missing s va level (pte2pa (s.mem page (px (level + 1) va)))
      else level + 1

theorem missing_empty {l : ℕ} (hzero : ∀ j, s.mem x j = 0) : missing s va l x = l := by
  cases l with
  | zero => rfl
  | succ l => simp [missing, hzero]

/-- What is missing depends on the pages of the table alone. -/
theorem Tree.missing_congr {l : ℕ} (h : Tree C s A) (hx : A.owner x = some (.table r l n))
    (hmem : ∀ {z l n}, A.owner z = some (.table r l n) → t.mem z = s.mem z) :
    missing t va l x = missing s va l x := by
  induction l generalizing x n with
  | zero => rfl
  | succ l ih =>
      rw [missing, missing, hmem hx]
      split
      next hvalid =>
        obtain ⟨y, hlink, hy⟩ := h.down hx (px_lt _ _) hvalid
        rw [hlink.pa]
        exact ih hy
      next => rfl

variable {Q : Option (ℕ × ℕ) → Phys → Prop}

/-- Descending with allocation ends at the page-table page of the last
level, unless one of the calls of `kalloc` fails. -/
theorem wp_walkFrom_tree {l : ℕ} (h : Tree C s A)
    (hx : A.owner x = some (.table r l (va / 2 ^ (12 + 9 * (l + 1)))))
    (hfail : ∀ t A', Tree C t A' → Grow r A A' → Kept r A s t →
      none ∈ s.supply.take (missing s va l x) → Q none t)
    (hQ : ∀ t A' y, Tree C t A' → Grow r A A' → Kept r A s t →
      none ∉ s.supply.take (missing s va l x) →
      A'.owner y = some (.table r 0 (va / 2 ^ 21)) → Q (some (y, px 0 va)) t) :
    wp (walkFrom C va true l x) Q s := by
  induction l generalizing s A x with
  | zero => exact hQ s A x h (.refl r A) (.refl r A s) List.not_mem_nil hx
  | succ l ih =>
      simp only [walkFrom, wp_bind, wp_load, wp_ite, if_true]
      refine ⟨fun hvalid => ?_, fun hinvalid => ?_⟩
      · obtain ⟨y, hlink, hy⟩ := h.down hx (px_lt _ _) hvalid
        rw [div_two_pow_child] at hy
        rw [missing, if_pos hvalid, hlink.pa] at hfail hQ
        rw [hlink.pa]
        exact ih h hy hfail hQ
      · rw [missing, if_neg hinvalid] at hfail hQ
        refine wp_kalloc_tree h (fun rest hsupply => ?_) fun pg rest hsupply hnone hpool => ?_
        · rw [hsupply] at hfail
          exact hfail _ A h.of_supply (.refl r A) ⟨fun _ _ => rfl, hsupply ▸ List.suffix_cons _ _⟩
            List.mem_cons_self
        rw [hsupply, List.take_succ_cons, List.mem_cons, or_iff_right (Option.some_ne_none pg).symm]
          at hfail hQ
        have hpgloose : (A.own pg (some .loose)).owner pg = some .loose := View.owner_own_self _ _ _
        have hne : x ≠ pg := by
          rintro rfl
          rw [hnone] at hx
          cases hx
        have hx' : (A.own pg (some .loose)).owner x =
            some (.table r (l + 1) (va / 2 ^ (12 + 9 * (l + 2)))) := by
          rw [View.owner_own_of_ne _ _ hne, hx]
        set t : Phys := { s with used := insert pg s.used, supply := rest } with ht
        have hclear := (h.alloc (l := rest) hpool hnone).setPage hpgloose trivial fun _ => 0
        have hword : (t.setPage pg fun _ => 0).mem x (px (l + 1) va) &&& pteV = 0 := by
          simpa [Phys.setPage, hne, ht] using hinvalid
        have hzero : ∀ j, (t.setPage pg fun _ => 0).mem pg j = 0 := by
          intro j
          simp [Phys.setPage]
        have hlinked := hclear.link hx' (px_lt _ _) hword hpgloose hzero
        rw [div_two_pow_child, View.own_own] at hlinked
        simp only [clearPage, Vm.setPage, store, wp_bind, wp_modify]
        set t' := (t.setPage pg fun _ => 0).set x (px (l + 1) va) (pa2pte pg ||| pteV) with ht'
        have hgrow : Grow r A (A.own pg (some (.table r l (va / 2 ^ (12 + 9 * (l + 1)))))) :=
          .own hnone
        have hkept : Kept r A s t' := by
          refine ⟨fun {z o} hz ho => ?_, hsupply ▸ List.suffix_cons _ _⟩
          have hzx : z ≠ x := by
            rintro rfl
            rw [hx] at hz
            exact ho _ _ (Option.some.inj hz).symm
          have hzpg : z ≠ pg := by
            rintro rfl
            rw [hnone] at hz
            cases hz
          rw [ht', mem_set_page_of_ne hzx]
          exact Function.update_of_ne hzpg _ _
        have hmissing : missing t' va l pg = l := by
          refine missing_empty fun j => ?_
          rw [ht', mem_set_page_of_ne hne.symm]
          exact hzero j
        have hsupply' : t'.supply = rest := rfl
        refine ih hlinked (View.owner_own_self _ _ _) (fun u A' hu hgrow' hkept' hmem => ?_)
          fun u A' y hu hgrow' hkept' hmem hy => ?_
        · rw [hmissing, hsupply'] at hmem
          exact hfail u A' hu (hgrow.trans hgrow') (hkept.trans hgrow hkept') hmem
        · rw [hmissing, hsupply'] at hmem
          exact hQ u A' y hu (hgrow.trans hgrow') (hkept.trans hgrow hkept') hmem hy

theorem root_div (hva : va < maxva) : va / 2 ^ (12 + 9 * (2 + 1)) = 0 :=
  Nat.div_eq_of_lt (lt_of_lt_of_le hva (Nat.pow_le_pow_right Nat.two_pos (by decide)))

theorem wp_walk_tree (h : Tree C s A) (hr : A.owner r = some (.table r 2 0)) (hva : va < maxva)
    (hfail : ∀ t A', Tree C t A' → Grow r A A' → Kept r A s t →
      none ∈ s.supply.take (missing s va 2 r) → Q none t)
    (hQ : ∀ t A' y, Tree C t A' → Grow r A A' → Kept r A s t →
      none ∉ s.supply.take (missing s va 2 r) →
      A'.owner y = some (.table r 0 (va / 2 ^ 21)) → Q (some (y, px 0 va)) t) :
    wp (walk C r va true) Q s := by
  rw [walk, if_neg (Nat.not_le.mpr hva)]
  exact wp_walkFrom_tree h (by rw [root_div hva]; exact hr) hfail hQ

theorem wp_walk_alloc (h : Ready C s A) (hr : A.owner r = some (.table r 2 0)) (hva : va < maxva)
    (hQ : ∀ t A' y, Ready C t A' → Grow r A A' →
      A'.owner y = some (.table r 0 (va / 2 ^ 21)) → Q (some (y, px 0 va)) t) :
    wp (walk C r va true) Q s := by
  refine wp_walk_tree h.tree hr hva (fun t A' _ _ _ hmem => ?_) fun t A' y ht hgrow hkept _ hy => ?_
  · exact absurd rfl (h.supply none (List.mem_of_mem_take hmem))
  · exact hQ t A' y ⟨ht, fun a ha => h.supply a (hkept.supply.subset ha)⟩ hgrow hy

/-- Descending without allocation changes nothing, and ends at the page-table
page of the last level if there is one. -/
theorem wp_walkFrom {l : ℕ} (h : Tree C s A)
    (hx : A.owner x = some (.table r l (va / 2 ^ (12 + 9 * (l + 1)))))
    (hsome : ∀ y, A.owner y = some (.table r 0 (va / 2 ^ 21)) → Q (some (y, px 0 va)) s)
    (hnone : (∀ y, A.owner y ≠ some (.table r 0 (va / 2 ^ 21))) → Q none s) :
    wp (walkFrom C va false l x) Q s := by
  induction l generalizing x with
  | zero => exact hsome x hx
  | succ l ih =>
      simp only [walkFrom, wp_bind, wp_load, wp_ite]
      refine ⟨fun hvalid => ?_, fun hinvalid => ?_⟩
      · obtain ⟨y, hlink, hy⟩ := h.down hx (px_lt _ _) hvalid
        rw [div_two_pow_child] at hy
        rw [hlink.pa]
        exact ih hy
      · refine ⟨(by simp), fun _ => hnone fun y hy => hinvalid ?_⟩
        obtain ⟨z, hz⟩ := h.above hy (l := l) (by have := h.level hx; omega)
        rw [← div_two_pow_child] at hz
        exact (h.valid_of_child hx (px_lt _ _) hz).valid

theorem page_div (v : ℕ) : v * pgsize / 2 ^ 21 = v / 512 := by
  simp only [pgsize]
  omega

theorem px_page (v : ℕ) : px 0 (v * pgsize) = v % 512 := by
  rw [px_eq]
  exact congrArg (· % 512) (Nat.mul_div_cancel v (by decide : 0 < pgsize))

theorem page_lt (hv : v < maxPage) : v * pgsize < maxva := by
  simp only [maxPage, maxva, pgsize] at hv ⊢
  omega

/-- Walking to any page without allocation. -/
theorem wp_walk (h : Tree C s A) (hr : A.owner r = some (.table r 2 0)) (hv : v < maxPage)
    (hsome : ∀ y, A.owner y = some (.table r 0 (v / 512)) → Q (some (y, v % 512)) s)
    (hnone : A.maps r v = none → Q none s) : wp (walk C r (v * pgsize) false) Q s := by
  have hva := page_lt hv
  rw [walk, if_neg (Nat.not_le.mpr hva)]
  refine wp_walkFrom h (by rw [root_div hva]; exact hr) (fun y hy => ?_) fun hno => ?_
  · rw [page_div] at hy
    rw [px_page]
    exact hsome y hy
  · refine hnone ?_
    cases hw : A.maps r v with
    | none => rfl
    | some w =>
        obtain ⟨y, hy⟩ := h.table_of_maps hw
        exact absurd (by rw [page_div, hy]) (hno y)

/-- The word at the place of a page. -/
theorem Tree.word (h : Tree C s A) (hy : A.owner y = some (.table r 0 (v / 512))) :
    A.maps r v = if s.mem y (v % 512) &&& pteV ≠ 0 then some (s.mem y (v % 512)) else none := by
  have := h.leaf hy (Nat.mod_lt v (by decide : 512 > 0))
  rwa [show v / 512 * 512 + v % 512 = v by omega] at this

theorem Tree.word_eq (h : Tree C s A) (hy : A.owner y = some (.table r 0 (v / 512)))
    (hw : A.maps r v = some w) : s.mem y (v % 512) = w ∧ w &&& pteV ≠ 0 := by
  rw [h.word hy] at hw
  split_ifs at hw with hvalid
  cases hw
  exact ⟨rfl, hvalid⟩

/-- Walking to a page that is mapped. -/
theorem wp_walk_mapped (h : Tree C s A)
    (hr : A.owner r = some (.table r 2 0)) (hv : v < maxPage) (hw : A.maps r v = some w)
    (hQ : ∀ y, A.owner y = some (.table r 0 (v / 512)) → s.mem y (v % 512) = w →
      Q (some (y, v % 512)) s) : wp (walk C r (v * pgsize) false) Q s := by
  refine wp_walk h hr hv (fun y hy => hQ y hy (h.word_eq hy hw).1) fun hnone => ?_
  rw [hnone] at hw
  cases hw

/-! ### Mapping a page -/

theorem rounds_page (hv : v < maxPage) : rounds (v * pgsize) pgsize = 1 := by
  simp only [rounds, pgrounddown, u64, maxPage, maxva, pgsize] at hv ⊢
  omega

theorem pgrounddown_page (v : ℕ) : pgrounddown (v * pgsize) = v * pgsize := by
  rw [pgrounddown, Nat.mul_div_cancel _ (by decide)]

/-- The view after a page has been mapped. -/
def View.map (A : View) (r v pa w : ℕ) : View :=
  if v < trapframePage then (A.setMap r v (some w)).own pa (some (.frame r v))
  else A.setMap r v (some w)

@[simp] theorem View.maps_map (A : View) (r v pa w r' v' : ℕ) :
    (A.map r v pa w).maps r' v' = if r' = r ∧ v' = v then some w else A.maps r' v' := by
  unfold View.map
  split
  · rw [View.maps_own, View.maps_setMap]
  · rw [View.maps_setMap]

theorem View.owner_map_of_ne (A : View) {pa : ℕ} (h : x ≠ pa) :
    (A.map r v pa w).owner x = A.owner x := by
  unfold View.map
  split
  · rw [View.owner_own_of_ne _ _ h, View.owner_setMap]
  · rfl

/-- An entry is written where there was none. -/
theorem Rep.map {pa perm : ℕ} (h : Rep C s A) (hy : A.owner y = some (.table r 0 (v / 512)))
    (hv : v < maxPage) (hnone : A.maps r v = none) (hpa : pgsize ∣ pa) (hpalt : pa < 2 ^ 56)
    (hperm : perm < 1024) (hleaf : perm &&& (pteR ||| pteW ||| pteX) ≠ 0)
    (hloose : v < trapframePage → A.owner pa = some .loose) :
    Rep C (s.set y (v % 512) (pa2pte pa ||| perm ||| pteV))
      (A.map r v pa (pa2pte pa ||| perm ||| pteV)) := by
  set w := pa2pte pa ||| perm ||| pteV with hw
  have hflags : perm ||| pteV < 1024 := Nat.or_lt_two_pow (n := 10) hperm (by decide)
  have hvalid : w &&& pteV ≠ 0 := by
    rw [hw, Nat.and_or_distrib_right]
    intro h0
    exact absurd (Nat.or_eq_zero_iff.mp h0).2 (by decide)
  have hwpa : pte2pa w = pa := by
    rw [hw, Nat.or_assoc]
    exact pte2pa_or hpa hflags
  have hwleaf : w &&& (pteR ||| pteW ||| pteX) ≠ 0 := by
    rw [hw, Nat.or_assoc, pte_and (by decide), Nat.and_or_distrib_right]
    intro h0
    exact hleaf (Nat.or_eq_zero_iff.mp h0).1
  have hwlt : w < 2 ^ 64 := by
    rw [hw, Nat.or_assoc]
    refine Nat.or_lt_two_pow ?_ (lt_trans hflags (by decide))
    rw [pa2pte, Nat.shiftRight_eq_div_pow, Nat.shiftLeft_eq]
    omega
  have hidx : v / 512 * 512 + v % 512 = v := by omega
  have hview : A.map r v pa w =
      { A.setMap r v (some w) with owner := (A.map r v pa w).owner } := by
    unfold View.map
    split <;> rfl
  have hmain := h.setLeaf (t := s.set y (v % 512) w) (o := (A.map r v pa w).owner) (w := w) hy
    (Nat.mod_lt v (by decide)) ?_ ?_ h.used_pool rfl (fun _ => ⟨hwleaf, by rwa [hidx], hwlt⟩) ?_
  · rw [hidx, if_pos hvalid] at hmain
    rw [hview]
    exact hmain
  · intro z r' l n
    rcases eq_or_ne z pa with rfl | hz
    · unfold View.map
      split_ifs with hvt
      · simp [hloose hvt]
      · rfl
    · rw [View.owner_map_of_ne _ hz]
  · intro z
    rcases eq_or_ne z pa with rfl | hz
    · unfold View.map
      split_ifs with hvt
      · simp [h.used_iff, hloose hvt]
      · exact h.used_iff z
    · rw [View.owner_map_of_ne _ hz]
      exact h.used_iff z
  · intro z r' v'
    rw [hidx, if_pos hvalid, View.maps_setMap]
    by_cases hrv : r' = r ∧ v' = v
    · obtain ⟨rfl, rfl⟩ := hrv
      have hold : A.owner z ≠ some (.frame r' v') := by
        intro hz
        obtain ⟨-, w', hw', -⟩ := h.frame_iff.mp hz
        rw [hnone] at hw'
        cases hw'
      rw [if_pos ⟨rfl, rfl⟩]
      unfold View.map
      split_ifs with hvt
      · rcases eq_or_ne z pa with rfl | hz
        · simp [hvt, hwpa]
        · simp [hz, hold, hwpa, hz.symm]
      · simp [hvt, hold]
    · rw [if_neg hrv, ← h.frame_iff]
      unfold View.map
      split_ifs with hvt
      · rcases eq_or_ne z pa with rfl | hz
        · simp only [View.owner_own_self, Option.some.injEq, Owner.frame.injEq, hloose hvt,
            reduceCtorEq, iff_false]
          exact fun he => hrv ⟨he.1.symm, he.2.symm⟩
        · rw [View.owner_own_of_ne _ _ hz, View.owner_setMap]
      · rfl

/-- `mappages` of one page fails or makes the entry. -/
theorem wp_mappages_rep {Q : Bool → Phys → Prop} {pa perm : ℕ} (h : Rep C s A)
    (hr : A.owner r = some (.table r 2 0)) (hv : v < maxPage) (hnone : A.maps r v = none)
    (hpa : pgsize ∣ pa) (hpalt : pa < 2 ^ 56) (hperm : perm < 1024)
    (hleaf : perm &&& (pteR ||| pteW ||| pteX) ≠ 0)
    (hloose : v < trapframePage → A.owner pa = some .loose)
    (hfail : ∀ t A₁, Grow r A A₁ → Kept r A s t → Rep C t A₁ →
      none ∈ s.supply.take (missing s (v * pgsize) 2 r) → Q false t)
    (hQ : ∀ t A₁, Grow r A A₁ → Kept r A s t →
      Rep C t (A₁.map r v pa (pa2pte pa ||| perm ||| pteV)) →
      none ∉ s.supply.take (missing s (v * pgsize) 2 r) → Q true t) :
    wp (mappages C r (v * pgsize) pgsize pa perm) Q s := by
  rw [mappages, rounds_page hv, pgrounddown_page]
  simp only [mappagesLoop, wp_bind]
  refine wp_walk_tree h.toTree hr (page_lt hv) (fun t A₁ ht hgrow hkept hmem => ?_)
    fun t A₁ y ht hgrow hkept hmem hy => ?_
  · exact hfail t A₁ hgrow hkept (h.grow ht hgrow) hmem
  replace ht := h.grow ht hgrow
  rw [page_div] at hy
  rw [px_page]
  have hnone₁ : A₁.maps r v = none := by rw [hgrow.maps, hnone]
  have hinvalid : ¬ t.mem y (v % 512) &&& pteV ≠ 0 := by
    intro hvalid
    rw [ht.word hy, if_pos hvalid] at hnone₁
    cases hnone₁
  simp only [wp_bind, wp_load, wp_ite, store, wp_modify, wp_pure]
  refine ⟨fun hvalid => absurd hvalid hinvalid, fun _ => hQ _ A₁ hgrow ⟨?_, hkept.supply⟩ ?_ hmem⟩
  · intro z o hz ho
    rw [mem_set_page_of_ne, hkept.mem hz ho]
    rintro rfl
    rw [hgrow.keep hz] at hy
    exact ho _ _ (Option.some.inj hy)
  · exact ht.map hy hv hnone₁ hpa hpalt hperm hleaf fun hvt => hgrow.keep (hloose hvt)

/-! ### Unmapping -/

theorem zero_invalid : ¬ 0 &&& pteV ≠ 0 := by decide

/-- An entry is cleared, and the page it led to is freed. -/
theorem Rep.unmapFree (h : Rep C s A) (hy : A.owner y = some (.table r 0 (v / 512)))
    (hw : A.maps r v = some w) (hv : v < trapframePage)
    (hmem : t.mem = (s.set y (v % 512) 0).mem) (hused : t.used = s.used.erase (pte2pa w)) :
    Rep C t ((A.setMap r v none).own (pte2pa w) none) := by
  have hidx : v / 512 * 512 + v % 512 = v := by omega
  have hframe : A.owner (pte2pa w) = some (.frame r v) := h.frame_iff.mpr ⟨hv, w, hw, rfl⟩
  have hmain := h.setLeaf (t := t) (o := ((A.setMap r v none).own (pte2pa w) none).owner) (w := 0)
    hy (Nat.mod_lt v (by decide)) ?_ ?_ ?_ hmem (fun h0 => absurd h0 zero_invalid) ?_
  · rw [hidx, if_neg zero_invalid] at hmain
    exact hmain
  · intro z r' l n
    rcases eq_or_ne z (pte2pa w) with rfl | hz
    · simp [hframe]
    · simp [hz]
  · intro z
    rw [hused]
    rcases eq_or_ne z (pte2pa w) with rfl | hz
    · simp
    · simp [hz, h.used_iff]
  · rw [hused]
    exact (Finset.erase_subset _ _).trans h.used_pool
  · intro z r' v'
    rw [hidx, if_neg zero_invalid, View.maps_setMap]
    rcases eq_or_ne z (pte2pa w) with rfl | hz
    · simp only [View.owner_own_self, reduceCtorEq, false_iff]
      rintro ⟨hvt, w', hw', hpa⟩
      split_ifs at hw' with hrv
      -- the page would back two virtual pages
      have hframe' := h.frame_iff.mpr ⟨hvt, w', hw', hpa⟩
      rw [hframe] at hframe'
      cases hframe'
      exact hrv ⟨rfl, rfl⟩
    · rw [View.owner_own_of_ne _ _ hz, View.owner_setMap, h.frame_iff]
      by_cases hrv : r' = r ∧ v' = v
      · obtain ⟨rfl, rfl⟩ := hrv
        simp [hw, hz.symm]
      · rw [if_neg hrv]

/-- An entry of the kernel's part is cleared. -/
theorem Rep.unmapKeep (h : Rep C s A) (hy : A.owner y = some (.table r 0 (v / 512)))
    (hv : trapframePage ≤ v) : Rep C (s.set y (v % 512) 0) (A.setMap r v none) := by
  have hidx : v / 512 * 512 + v % 512 = v := by omega
  have hmain := h.setLeaf (t := s.set y (v % 512) 0) (o := A.owner) (w := 0) hy
    (Nat.mod_lt v (by decide)) (fun _ _ _ _ => .rfl) h.used_iff h.used_pool rfl
    (fun h0 => absurd h0 zero_invalid) ?_
  · rw [hidx, if_neg zero_invalid] at hmain
    exact hmain
  · intro z r' v'
    rw [hidx, if_neg zero_invalid, View.maps_setMap, h.frame_iff]
    by_cases hrv : r' = r ∧ v' = v
    · obtain ⟨rfl, rfl⟩ := hrv
      simp [Nat.not_lt.mpr hv]
    · rw [if_neg hrv]

/-- A leaf entry has more flags than that of being valid. -/
theorem pteFlags_ne (hw : w &&& (pteR ||| pteW ||| pteX) ≠ 0) : pteFlags w ≠ pteV := by
  intro h
  refine hw ?_
  calc w &&& (pteR ||| pteW ||| pteX)
      = w &&& (0x3FF &&& (pteR ||| pteW ||| pteX)) := rfl
    _ = pteFlags w &&& (pteR ||| pteW ||| pteX) := by rw [pteFlags, Nat.and_assoc]
    _ = 0 := by rw [h]; decide

theorem u64_next_page (hv : v < maxPage) : u64 (v * pgsize + pgsize) = (v + 1) * pgsize := by
  simp only [maxPage, maxva, pgsize, u64] at hv ⊢
  omega

/-- What freeing the user page `v` leaves alone. -/
theorem Rep.change_unmapFree (h : Rep C s A) (hy : A.owner y = some (.table r 0 (v / 512)))
    (hw : A.maps r v = some w) (hv : v < trapframePage) (hmem : t.mem = (s.set y (v % 512) 0).mem)
    (hsupply : t.supply = s.supply) : Change r A ((A.setMap r v none).own (pte2pa w) none) s t := by
  have hframe : A.owner (pte2pa w) = some (.frame r v) := h.frame_iff.mpr ⟨hv, w, hw, rfl⟩
  constructor
  case maps =>
    intro r' hr'
    funext u
    rw [View.maps_own, View.maps_setMap, if_neg fun he => hr' he.1]
  case owner =>
    intro x o ho
    rcases eq_or_ne x (pte2pa w) with rfl | hx
    · rw [View.owner_own_self, hframe]
      refine iff_of_false nofun ?_
      rintro ⟨⟩
      exact ho rfl
    · rw [View.owner_own_of_ne _ _ hx, View.owner_setMap]
  case mem =>
    intro x o hx ho
    rw [hmem, mem_set_page_of_ne]
    rintro rfl
    rw [hy] at hx
    cases hx
    exact ho rfl
  case supply => rw [hsupply]

/-- Unmapping and freeing the `n` user pages from `v` on. -/
theorem wp_uvmunmapLoop_rep {Q : Unit → Phys → Prop} (h : Rep C s A)
    (hr : A.owner r = some (.table r 2 0))
    (hmapped : ∀ u, v ≤ u → u < v + n → ∃ w, A.maps r u = some w) (hn : v + n ≤ trapframePage)
    (hQ : ∀ t A', Rep C t A' → Change r A A' s t → A'.owner r = some (.table r 2 0) →
      (∀ u, A'.maps r u = if v ≤ u ∧ u < v + n then none else A.maps r u) →
      t.supply = s.supply → Q () t) : wp (uvmunmapLoop C r true n (v * pgsize)) Q s := by
  induction n generalizing s A v with
  | zero =>
      refine hQ s A h (.refl r A s) hr (fun u => ?_) rfl
      rw [if_neg (by omega)]
  | succ n ih =>
      obtain ⟨w, hw⟩ := hmapped v le_rfl (by omega)
      obtain ⟨hleaf, hmax, -⟩ := h.maps_leaf hw
      have hframe : A.owner (pte2pa w) = some (.frame r v) :=
        h.frame_iff.mpr ⟨by omega, w, hw, rfl⟩
      have hused : pte2pa w ∈ s.used := (h.used_iff _).mpr (by simp [hframe])
      simp only [uvmunmapLoop, wp_bind]
      refine wp_walk_mapped h.toTree hr hmax hw fun y hy hword => ?_
      have hvalid := (h.word_eq hy hw).2
      simp only [wp_bind, wp_load, hword, wp_ite, if_true, store, wp_modify]
      refine ⟨fun h0 => absurd h0 hvalid, fun _ => ⟨fun hf => absurd hf (pteFlags_ne hleaf),
        fun _ => wp_kfree_of_mem hused ?_⟩⟩
      rw [u64_next_page hmax]
      set s₁ : Phys := ({ s with used := s.used.erase (pte2pa w) } : Phys).set y (v % 512) 0
      have hstep := h.unmapFree (t := s₁) hy hw (by omega) rfl rfl
      have hchange := h.change_unmapFree (t := s₁) hy hw (by omega) rfl rfl
      have hr' : ((A.setMap r v none).own (pte2pa w) none).owner r = some (.table r 2 0) := by
        rw [View.owner_own_of_ne, View.owner_setMap, hr]
        rintro rfl
        rw [hframe] at hr
        cases hr
      refine ih hstep hr' (fun u hu hun => ?_) (by omega) fun t A' ht hchange' hr'' hmaps hsupply =>
        hQ t A' ht (hchange.trans hchange') hr'' (fun u => ?_) hsupply
      · obtain ⟨w', hw'⟩ := hmapped u (by omega) (by omega)
        refine ⟨w', ?_⟩
        rw [View.maps_own, View.maps_setMap, if_neg (by omega), hw']
      · rw [hmaps, View.maps_own, View.maps_setMap]
        split_ifs <;> first | rfl | omega

end Xv6.Vm
