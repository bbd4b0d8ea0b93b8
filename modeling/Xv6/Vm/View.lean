import Xv6.Vm.PageTable

/-!
What memory stands for: address spaces and owners of pages.

A `View` says for every page that is handed out what it is (a page-table
page of some table, a user page, a trapframe, or a page in nobody's table
yet), and for every table which page-table entry each virtual page has.
`Tree s A` says that the page-table pages are as the view `A` says: those
of each table form a tree of three levels in which every valid entry leads
to the page that the view names. `Rep s A` says in addition that every
user page has one entry.

Since the owner is a function of the page, a page has one use only. Each
change of memory that the functions of `vm.c` make is matched by a change
of the view.
-/

namespace Xv6.Vm

open Lib

/-! ### Page-table entries -/

theorem pte2pa_or {pa f : ℕ} (hpa : pgsize ∣ pa) (hf : f < 1024) :
    pte2pa (pa2pte pa ||| f) = pa := by
  have hf0 : f >>> 10 = 0 := by
    rw [Nat.shiftRight_eq_div_pow]
    exact Nat.div_eq_of_lt hf
  rw [pte2pa, pa2pte, Nat.shiftRight_or_distrib, Nat.shiftLeft_shiftRight, hf0, Nat.or_zero,
    Nat.shiftRight_eq_div_pow, Nat.shiftLeft_eq]
  exact Nat.div_mul_cancel hpa

theorem shiftLeft_and {x m : ℕ} (hm : m < 1024) : x <<< 10 &&& m = 0 := by
  apply Nat.eq_of_testBit_eq
  intro i
  rw [Nat.testBit_and, Nat.testBit_shiftLeft, Nat.zero_testBit]
  rcases Nat.lt_or_ge i 10 with h | h
  · simp [Nat.not_le.mpr h]
  · have hbig : m < 2 ^ i := lt_of_lt_of_le hm (Nat.pow_le_pow_right Nat.two_pos h)
    simp [Nat.testBit_lt_two_pow hbig]

/-- The flags of an entry do not depend on its address. -/
theorem pte_and {pa f m : ℕ} (hm : m < 1024) : (pa2pte pa ||| f) &&& m = f &&& m := by
  rw [Nat.and_or_distrib_right, pa2pte, shiftLeft_and hm, Nat.zero_or]

theorem link_valid (y : ℕ) : (pa2pte y ||| pteV) &&& pteV ≠ 0 := by
  rw [pte_and (by decide)]
  decide

/-- The entry leads to the page-table page `y`. -/
structure Points (w y : ℕ) : Prop where
  valid : w &&& pteV ≠ 0
  pointer : w &&& (pteR ||| pteW ||| pteX) = 0
  pa : pte2pa w = y

theorem points_link {y : ℕ} (hy : pgsize ∣ y) : Points (pa2pte y ||| pteV) y where
  valid := link_valid y
  pointer := by
    rw [pte_and (by decide)]
    decide
  pa := pte2pa_or hy (by decide)

theorem px_eq (level va : ℕ) : px level va = va / 2 ^ (12 + 9 * level) % 512 := by
  rw [px, show 0x1FF = 2 ^ 9 - 1 from rfl, Nat.and_two_pow_sub_one_eq_mod,
    Nat.shiftRight_eq_div_pow]

theorem px_lt (level va : ℕ) : px level va < 512 := by
  rw [px_eq]
  exact Nat.mod_lt _ (by decide)

/-! ### Memory -/

@[simp] theorem used_set (s : Phys) (x i w : ℕ) : (s.set x i w).used = s.used := rfl

theorem mem_set_self {s : Phys} {x i w : ℕ} : (s.set x i w).mem x i = w := by
  simp [Phys.set, Phys.setPage]

theorem mem_set_page_of_ne {s : Phys} {x i w y : ℕ} (h : y ≠ x) :
    (s.set x i w).mem y = s.mem y := by
  simp [Phys.set, Phys.setPage, h]

theorem mem_set_of_ne {s : Phys} {x i w y j : ℕ} (h : (y, j) ≠ (x, i)) :
    (s.set x i w).mem y j = s.mem y j := by
  rcases eq_or_ne y x with rfl | hyx
  · simp only [ne_eq, Prod.mk.injEq, true_and] at h
    simp [Phys.set, Phys.setPage, h]
  · rw [mem_set_page_of_ne hyx]

/-! ### Views -/

/-- What a page is used for. The page-table page `table r l n` of the table
with root `r` is the one of level `l` for the addresses whose number is
`n` when cut off above the index of level `l`. -/
inductive Owner where
  | table (r l n : ℕ)
  | frame (r v : ℕ)
  | trapframe (i : ℕ)
  | loose

structure View where
  owner : ℕ → Option Owner
  /-- The valid entry of a virtual page, by root and page number. -/
  maps : ℕ → ℕ → Option ℕ

namespace View

def own (A : View) (x : ℕ) (o : Option Owner) : View :=
  { A with owner := Function.update A.owner x o }

def setMap (A : View) (r v : ℕ) (w : Option ℕ) : View :=
  { A with maps := Function.update A.maps r (Function.update (A.maps r) v w) }

@[simp] theorem owner_own_self (A : View) (x : ℕ) (o : Option Owner) :
    (A.own x o).owner x = o := Function.update_self _ _ _

@[simp] theorem owner_own_of_ne (A : View) {x y : ℕ} (o : Option Owner) (h : y ≠ x) :
    (A.own x o).owner y = A.owner y := Function.update_of_ne h _ _

@[simp] theorem own_own (A : View) (x : ℕ) (o o' : Option Owner) :
    (A.own x o).own x o' = A.own x o' := by
  simp [own]

@[simp] theorem maps_own (A : View) (x : ℕ) (o : Option Owner) : (A.own x o).maps = A.maps := rfl

@[simp] theorem owner_setMap (A : View) (r v : ℕ) (w : Option ℕ) :
    (A.setMap r v w).owner = A.owner := rfl

theorem maps_setMap (A : View) (r v r' v' : ℕ) (w : Option ℕ) :
    (A.setMap r v w).maps r' v' = if r' = r ∧ v' = v then w else A.maps r' v' := by
  by_cases hr : r' = r
  · subst hr
    by_cases hv : v' = v
    · subst hv
      simp [setMap]
    · simp [setMap, hv]
  · simp [setMap, hr]

@[simp] theorem maps_setMap_self (A : View) (r v : ℕ) (w : Option ℕ) :
    (A.setMap r v w).maps r v = w := by simp [maps_setMap]

end View

/-- The number of the page below the trampoline. -/
abbrev trapframePage : ℕ := trapframeVa / pgsize

abbrev trampolinePage : ℕ := trampolineVa / pgsize

/-- The number of pages below `MAXVA`. -/
abbrev maxPage : ℕ := maxva / pgsize

/-- The page-table pages are as the view says. -/
structure Tree (C : Config) (s : Phys) (A : View) : Prop where
  used_iff : ∀ x, x ∈ s.used ↔ (A.owner x).isSome
  used_pool : s.used ⊆ C.pool
  root : ∀ {x r n}, A.owner x = some (.table r 2 n) → x = r ∧ n = 0
  level : ∀ {x r l n}, A.owner x = some (.table r l n) → l ≤ 2
  /-- A valid entry above the last level leads to a page-table page. -/
  down : ∀ {x r l n i}, A.owner x = some (.table r (l + 1) n) → i < 512 →
    s.mem x i &&& pteV ≠ 0 →
    ∃ y, Points (s.mem x i) y ∧ A.owner y = some (.table r l (n * 512 + i))
  /-- An entry one level up leads to the page-table page. -/
  up : ∀ {y r l n}, A.owner y = some (.table r l n) → l < 2 →
    ∃ x, A.owner x = some (.table r (l + 1) (n / 512)) ∧ Points (s.mem x (n % 512)) y
  leaf : ∀ {x r n i}, A.owner x = some (.table r 0 n) → i < 512 →
    A.maps r (n * 512 + i) = if s.mem x i &&& pteV ≠ 0 then some (s.mem x i) else none
  table_of_maps : ∀ {r v w}, A.maps r v = some w → ∃ x, A.owner x = some (.table r 0 (v / 512))

/-- Memory is as the view says, and each user page has one entry. -/
structure Rep (C : Config) (s : Phys) (A : View) : Prop extends Tree C s A where
  maps_leaf : ∀ {r v w}, A.maps r v = some w →
    w &&& (pteR ||| pteW ||| pteX) ≠ 0 ∧ v < maxPage ∧ w < 2 ^ 64
  /-- The user pages are those that entries below the trapframe lead to. -/
  frame_iff : ∀ {x r v}, A.owner x = some (.frame r v) ↔
    v < trapframePage ∧ ∃ w, A.maps r v = some w ∧ pte2pa w = x

variable {C : Config} {s t : Phys} {A : View} {x y r l n i v w : ℕ}

theorem Tree.aligned (h : Tree C s A) {o : Owner} (hx : A.owner x = some o) : pgsize ∣ x :=
  C.pool_aligned x (h.used_pool ((h.used_iff x).mpr (by simp [hx])))

theorem Tree.lt (h : Tree C s A) {o : Owner} (hx : A.owner x = some o) : x < 2 ^ 56 :=
  C.pool_lt x (h.used_pool ((h.used_iff x).mpr (by simp [hx])))

/-- A table has one page for each level and number. -/
theorem Tree.table_unique (h : Tree C s A) (hx : A.owner x = some (.table r l n))
    (hy : A.owner y = some (.table r l n)) : x = y := by
  induction hd : 2 - l generalizing x y l n with
  | zero =>
      obtain rfl : l = 2 := by have := h.level hx; omega
      rw [(h.root hx).1, (h.root hy).1]
  | succ d ih =>
      obtain ⟨x', hx', hxl⟩ := h.up hx (by omega)
      obtain ⟨y', hy', hyl⟩ := h.up hy (by omega)
      obtain rfl := ih hx' hy' (by omega)
      exact hxl.pa.symm.trans hyl.pa

/-- A page-table page has a root above it. -/
theorem Tree.root_of_table (h : Tree C s A) (hx : A.owner x = some (.table r l n)) :
    A.owner r = some (.table r 2 0) := by
  induction hd : 2 - l generalizing x l n with
  | zero =>
      obtain rfl : l = 2 := by have := h.level hx; omega
      obtain ⟨rfl, rfl⟩ := h.root hx
      exact hx
  | succ d ih =>
      obtain ⟨x', hx', -⟩ := h.up hx (by omega)
      exact ih hx' (by omega)

/-- The entry of the page that leads to a page-table page of the level below. -/
theorem Tree.valid_of_child (h : Tree C s A) (hx : A.owner x = some (.table r (l + 1) n))
    (hi : i < 512) (hy : A.owner y = some (.table r l (n * 512 + i))) : Points (s.mem x i) y := by
  obtain ⟨x', hx', hlink⟩ := h.up hy (by have := h.level hx; omega)
  rw [show (n * 512 + i) / 512 = n by omega] at hx'
  obtain rfl := h.table_unique hx hx'
  rwa [show (n * 512 + i) % 512 = i by omega] at hlink

/-! ### Changes that leave the tables alone -/

variable {o : ℕ → Option Owner}

/-- Pages that are not part of a table can be handed out, freed, relabelled
and written. -/
theorem Tree.congr (h : Tree C s A)
    (htable : ∀ x r l n, o x = some (.table r l n) ↔ A.owner x = some (.table r l n))
    (hmem : ∀ x r l n, A.owner x = some (.table r l n) → t.mem x = s.mem x)
    (hused : ∀ x, x ∈ t.used ↔ (o x).isSome) (hpool : t.used ⊆ C.pool) :
    Tree C t { A with owner := o } where
  used_iff := hused
  used_pool := hpool
  root := fun hx => h.root ((htable _ _ _ _).mp hx)
  level := fun hx => h.level ((htable _ _ _ _).mp hx)
  down := by
    intro x r l n i hx hi hv
    have hx' := (htable _ _ _ _).mp hx
    rw [hmem _ _ _ _ hx'] at hv ⊢
    obtain ⟨y, hlink, hy⟩ := h.down hx' hi hv
    exact ⟨y, hlink, (htable _ _ _ _).mpr hy⟩
  up := by
    intro y r l n hy hl
    obtain ⟨x, hx, hlink⟩ := h.up ((htable _ _ _ _).mp hy) hl
    exact ⟨x, (htable _ _ _ _).mpr hx, hmem _ _ _ _ hx ▸ hlink⟩
  leaf := by
    intro x r n i hx hi
    have hx' := (htable _ _ _ _).mp hx
    rw [hmem _ _ _ _ hx']
    exact h.leaf hx' hi
  table_of_maps := by
    intro r v w hw
    obtain ⟨x, hx⟩ := h.table_of_maps hw
    exact ⟨x, (htable _ _ _ _).mpr hx⟩

/-- Not the page of a table. -/
def Owner.IsData : Owner → Prop
  | .table _ _ _ => False
  | _ => True

/-- Writing a page that is not part of a table. -/
theorem Tree.setPage {o : Owner} (h : Tree C s A) (hx : A.owner x = some o) (ho : o.IsData)
    (f : ℕ → ℕ) : Tree C (s.setPage x f) A := by
  refine h.congr (fun _ _ _ _ => .rfl) ?_ h.used_iff h.used_pool
  intro y r l n hy
  refine Function.update_of_ne ?_ _ _
  rintro rfl
  rw [hx] at hy
  cases hy
  exact ho

/-! ### Changes of the tables -/

/-- A fresh table with an empty root. -/
theorem Tree.create (h : Tree C s A) (hr : A.owner r = some .loose) (hzero : ∀ i, s.mem r i = 0) :
    Tree C s (A.own r (some (.table r 2 0))) := by
  have hne : ∀ {x o}, A.owner x = some o → o ≠ .loose → x ≠ r := by
    rintro x o hx ho rfl
    rw [hr] at hx
    exact ho (Option.some.inj hx).symm
  have htable : ∀ {x r' l n}, (A.own r (some (.table r 2 0))).owner x = some (.table r' l n) →
      x = r ∧ r' = r ∧ l = 2 ∧ n = 0 ∨ A.owner x = some (.table r' l n) := by
    intro x r' l n hx
    rcases eq_or_ne x r with rfl | hxr
    · rw [View.owner_own_self] at hx
      cases hx
      exact .inl ⟨rfl, rfl, rfl, rfl⟩
    · rw [View.owner_own_of_ne _ _ hxr] at hx
      exact .inr hx
  constructor
  case used_iff =>
    intro x
    rcases eq_or_ne x r with rfl | hxr
    · simp [h.used_iff, hr]
    · rw [View.owner_own_of_ne _ _ hxr, h.used_iff]
  case used_pool => exact h.used_pool
  case root =>
    intro x r' n hx
    rcases htable hx with ⟨rfl, rfl, -, rfl⟩ | hx
    · exact ⟨rfl, rfl⟩
    · exact h.root hx
  case level =>
    intro x r' l n hx
    rcases htable hx with ⟨-, -, rfl, -⟩ | hx
    · exact le_rfl
    · exact h.level hx
  case down =>
    intro x r' l n i hx hi hv
    rcases htable hx with ⟨rfl, -, -, -⟩ | hx
    · rw [hzero] at hv
      exact absurd rfl hv
    · obtain ⟨y, hlink, hy⟩ := h.down hx hi hv
      exact ⟨y, hlink, by rw [View.owner_own_of_ne _ _ (hne hy nofun), hy]⟩
  case up =>
    intro y r' l n hy hl
    rcases htable hy with ⟨-, -, rfl, -⟩ | hy
    · omega
    · obtain ⟨x, hx, hlink⟩ := h.up hy hl
      exact ⟨x, by rw [View.owner_own_of_ne _ _ (hne hx nofun), hx], hlink⟩
  case leaf =>
    intro x r' n i hx hi
    rcases htable hx with ⟨-, -, hl, -⟩ | hx
    · cases hl
    · exact h.leaf hx hi
  case table_of_maps =>
    intro r' v w hw
    obtain ⟨x, hx⟩ := h.table_of_maps hw
    exact ⟨x, by rw [View.owner_own_of_ne _ _ (hne hx nofun), hx]⟩

/-- An empty page is hung into a table. -/
theorem Tree.link (h : Tree C s A) (hx : A.owner x = some (.table r (l + 1) n)) (hi : i < 512)
    (hinvalid : s.mem x i &&& pteV = 0) (hy : A.owner y = some .loose)
    (hzero : ∀ j, s.mem y j = 0) :
    Tree C (s.set x i (pa2pte y ||| pteV)) (A.own y (some (.table r l (n * 512 + i)))) := by
  have hl : l + 1 ≤ 2 := h.level hx
  have hne : ∀ {z o}, A.owner z = some o → o ≠ .loose → z ≠ y := by
    rintro z o hz ho rfl
    rw [hy] at hz
    exact ho (Option.some.inj hz).symm
  have hxy : x ≠ y := hne hx nofun
  have htable : ∀ {z r' l' n'},
      (A.own y (some (.table r l (n * 512 + i)))).owner z = some (.table r' l' n') →
      z = y ∧ r' = r ∧ l' = l ∧ n' = n * 512 + i ∨ z ≠ y ∧ A.owner z = some (.table r' l' n') := by
    intro z r' l' n' hz
    rcases eq_or_ne z y with rfl | hzy
    · rw [View.owner_own_self] at hz
      cases hz
      exact .inl ⟨rfl, rfl, rfl, rfl⟩
    · rw [View.owner_own_of_ne _ _ hzy] at hz
      exact .inr ⟨hzy, hz⟩
  have hkeep : ∀ {z r' l' n'}, A.owner z = some (.table r' l' n') →
      (A.own y (some (.table r l (n * 512 + i)))).owner z = some (.table r' l' n') := by
    intro z r' l' n' hz
    rw [View.owner_own_of_ne _ _ (hne hz nofun), hz]
  -- the new word is at one place only
  have hmem : ∀ z j, (z, j) ≠ (x, i) → (s.set x i (pa2pte y ||| pteV)).mem z j = s.mem z j :=
    fun z j hzj => mem_set_of_ne hzj
  have hmem_self : Points ((s.set x i (pa2pte y ||| pteV)).mem x i) y := by
    rw [mem_set_self]
    exact points_link (h.aligned hy)
  have hmem_new : ∀ j, (s.set x i (pa2pte y ||| pteV)).mem y j = 0 := by
    intro j
    rw [hmem y j fun he => hxy (Prod.mk.inj he).1.symm, hzero]
  constructor
  case used_iff =>
    intro z
    rcases eq_or_ne z y with rfl | hzy
    · simp [h.used_iff, hy]
    · rw [View.owner_own_of_ne _ _ hzy, used_set, h.used_iff]
  case used_pool => exact h.used_pool
  case root =>
    intro z r' n' hz
    rcases htable hz with ⟨-, -, hl', -⟩ | ⟨-, hz⟩
    · omega
    · exact h.root hz
  case level =>
    intro z r' l' n' hz
    rcases htable hz with ⟨-, -, rfl, -⟩ | ⟨-, hz⟩
    · omega
    · exact h.level hz
  case down =>
    intro z r' l' n' j hz hj hv
    rcases htable hz with ⟨rfl, -, -, -⟩ | ⟨-, hold⟩
    · simp only [hmem_new] at hv
      exact absurd rfl hv
    · by_cases hzj : (z, j) = (x, i)
      · obtain ⟨rfl, rfl⟩ := Prod.mk.inj hzj
        rw [hx] at hold
        cases hold
        exact ⟨y, hmem_self, View.owner_own_self _ _ _⟩
      · simp only [hmem z j hzj] at hv ⊢
        obtain ⟨u, hlink, hu⟩ := h.down hold hj hv
        exact ⟨u, hlink, hkeep hu⟩
  case up =>
    intro z r' l' n' hz hl'
    rcases htable hz with ⟨rfl, rfl, rfl, rfl⟩ | ⟨-, hz⟩
    · refine ⟨x, ?_, ?_⟩
      · rw [show (n * 512 + i) / 512 = n by omega]
        exact hkeep hx
      · rw [show (n * 512 + i) % 512 = i by omega]
        exact hmem_self
    · obtain ⟨u, hu, hlink⟩ := h.up hz hl'
      refine ⟨u, hkeep hu, ?_⟩
      rw [hmem u _ fun he => ?_]
      · exact hlink
      · -- the place of the new word had no valid entry
        obtain ⟨rfl, rfl⟩ := Prod.mk.inj he
        exact hlink.valid hinvalid
  case leaf =>
    intro z r' n' j hz hj
    rcases htable hz with ⟨rfl, rfl, rfl, rfl⟩ | ⟨-, hold⟩
    · simp only [hmem_new, View.maps_own]
      cases hw : A.maps r' ((n * 512 + i) * 512 + j) with
      | none => rfl
      | some w =>
          obtain ⟨u, hu⟩ := h.table_of_maps hw
          rw [show ((n * 512 + i) * 512 + j) / 512 = n * 512 + i by omega] at hu
          exact absurd hinvalid (h.valid_of_child hx hi hu).valid
    · have hzx : z ≠ x := by
        rintro rfl
        rw [hx] at hold
        cases hold
      simp only [hmem z j (fun he => hzx (Prod.mk.inj he).1)]
      exact h.leaf hold hj
  case table_of_maps =>
    intro r' v w hw
    obtain ⟨u, hu⟩ := h.table_of_maps hw
    exact ⟨u, hkeep hu⟩

/-- An entry of the last level is written. What becomes of the page it led
to and of the one it leads to is the caller's to say. -/
theorem Tree.setLeaf (h : Tree C s A) (hx : A.owner x = some (.table r 0 n)) (hi : i < 512)
    (htable : ∀ z r l n, o z = some (.table r l n) ↔ A.owner z = some (.table r l n))
    (hused : ∀ z, z ∈ t.used ↔ (o z).isSome) (hpool : t.used ⊆ C.pool)
    (hmem : t.mem = (s.set x i w).mem) :
    Tree C t { A.setMap r (n * 512 + i) (if w &&& pteV ≠ 0 then some w else none) with
      owner := o } := by
  have hother : ∀ {z r' l' n'}, A.owner z = some (.table r' (l' + 1) n') → t.mem z = s.mem z := by
    intro z r' l' n' hz
    rw [hmem]
    refine mem_set_page_of_ne ?_
    rintro rfl
    rw [hx] at hz
    cases hz
  constructor
  case used_iff => exact hused
  case used_pool => exact hpool
  case root => exact fun hz => h.root ((htable _ _ _ _).mp hz)
  case level => exact fun hz => h.level ((htable _ _ _ _).mp hz)
  case down =>
    intro z r' l' n' j hz hj hv
    have hz' := (htable _ _ _ _).mp hz
    rw [hother hz'] at hv ⊢
    obtain ⟨u, hlink, hu⟩ := h.down hz' hj hv
    exact ⟨u, hlink, (htable _ _ _ _).mpr hu⟩
  case up =>
    intro z r' l' n' hz hl'
    obtain ⟨u, hu, hlink⟩ := h.up ((htable _ _ _ _).mp hz) hl'
    exact ⟨u, (htable _ _ _ _).mpr hu, hother hu ▸ hlink⟩
  case leaf =>
    intro z r' n' j hz hj
    have hz' := (htable _ _ _ _).mp hz
    by_cases hzj : z = x ∧ j = i
    · obtain ⟨rfl, rfl⟩ := hzj
      rw [hx] at hz'
      cases hz'
      simp only [View.maps_setMap_self, hmem, mem_set_self]
    · have hne : ¬(r' = r ∧ n' * 512 + j = n * 512 + i) := by
        rintro ⟨rfl, hn⟩
        obtain rfl : j = i := by omega
        obtain rfl : n' = n := by omega
        exact hzj ⟨h.table_unique hz' hx, rfl⟩
      have hword : t.mem z j = s.mem z j := by
        rw [hmem]
        exact mem_set_of_ne fun he => hzj (Prod.mk.inj he)
      simp only [View.maps_setMap, if_neg hne, hword]
      exact h.leaf hz' hj
  case table_of_maps =>
    intro r' v w' hw
    simp only [View.maps_setMap] at hw
    split_ifs at hw with hrv
    · obtain ⟨rfl, rfl⟩ := hrv
      refine ⟨x, (htable _ _ _ _).mpr ?_⟩
      rwa [show (n * 512 + i) / 512 = n by omega]
    · obtain ⟨u, hu⟩ := h.table_of_maps hw
      exact ⟨u, (htable _ _ _ _).mpr hu⟩

/-! ### User pages -/

/-- The tables change, but not what they map. -/
theorem Rep.of_tree {A' : View} (h : Rep C s A) (ht : Tree C t A') (hmaps : A'.maps = A.maps)
    (hframe : ∀ x r v, A'.owner x = some (.frame r v) ↔ A.owner x = some (.frame r v)) :
    Rep C t A' where
  toTree := ht
  maps_leaf := by
    rw [hmaps]
    exact h.maps_leaf
  frame_iff := by
    rw [hmaps]
    exact (hframe _ _ _).trans h.frame_iff

theorem Rep.setPage {o : Owner} (h : Rep C s A) (hx : A.owner x = some o) (ho : o.IsData)
    (f : ℕ → ℕ) : Rep C (s.setPage x f) A :=
  h.of_tree (h.toTree.setPage hx ho f) rfl fun _ _ _ => .rfl

theorem Rep.setLeaf (h : Rep C s A) (hx : A.owner x = some (.table r 0 n)) (hi : i < 512)
    (htable : ∀ z r l n, o z = some (.table r l n) ↔ A.owner z = some (.table r l n))
    (hused : ∀ z, z ∈ t.used ↔ (o z).isSome) (hpool : t.used ⊆ C.pool)
    (hmem : t.mem = (s.set x i w).mem) (hleaf : w &&& pteV ≠ 0 →
      w &&& (pteR ||| pteW ||| pteX) ≠ 0 ∧ n * 512 + i < maxPage ∧ w < 2 ^ 64)
    (hframe : ∀ z r' v, o z = some (.frame r' v) ↔ v < trapframePage ∧ ∃ w',
      (A.setMap r (n * 512 + i) (if w &&& pteV ≠ 0 then some w else none)).maps r' v = some w' ∧
        pte2pa w' = z) :
    Rep C t { A.setMap r (n * 512 + i) (if w &&& pteV ≠ 0 then some w else none) with
      owner := o } where
  toTree := h.toTree.setLeaf hx hi htable hused hpool hmem
  maps_leaf := by
    intro r' v w' hw
    simp only [View.maps_setMap] at hw
    split_ifs at hw with hrv hvalid
    · obtain ⟨rfl, rfl⟩ := hrv
      cases hw
      exact hleaf hvalid
    · exact h.maps_leaf hw
  frame_iff := hframe _ _ _

end Xv6.Vm
