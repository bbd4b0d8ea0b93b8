import Xv6.Buddy.Refine
import Xv6.Lib.Runs

/-!
The allocator and its callers.

A state is the allocator together with the blocks its callers hold; a
caller may ask for up to `2 ^ 63` bytes and may free a block it holds.
A state is consistent when the data structures represent a layout whose
blocks in use are the callers' and the leaves marked at boot, among them
the first leaf, where the allocator's own data starts.

In every run from a consistent state the callers' blocks, the blocks on
the free lists and the marked leaves partition the heap.
-/

namespace Xv6.Buddy

open Lib Lib.Subdivision

/-- The allocator and the blocks that callers hold, as address and size. -/
structure Heap where
  bd : Bd
  live : List (ℕ × ℕ)

inductive Call where
  | malloc (nbytes : ℕ)
  | free (p : ℕ)

/-- A call of the allocator. A block is freed at most once after each time
it is handed out. -/
def step (s : Heap) : Call → Option Heap
  | .malloc nbytes =>
      if nbytes ≤ 2 ^ 63 then do
        let fk ← firstk nbytes
        match ← bdMalloc s.bd nbytes with
        | (none, b) => some { s with bd := b }
        | (some p, b) => some { bd := b, live := (p, fk) :: s.live }
      else none
  | .free p => do
      let blk ← s.live.find? fun blk => blk.1 = p
      let b ← bdFree s.bd p
      some { bd := b, live := s.live.erase blk }

/-! ### Consistency -/

/-- The blocks in use are those of the callers and the marked leaves. -/
structure Records (marked : Set ℕ) (s : Heap) {top : ℕ} (L : Layout top) : Prop where
  nodup : s.live.Nodup
  mem_live : ∀ p k, (p, k) ∈ s.live ↔
    ∃ i, p = start s.bd.bdBase k i ∧ (k, i) ∈ L.used ∧ ¬(k = 0 ∧ i ∈ marked)
  used_of_marked : ∀ i ∈ marked, (0, i) ∈ L.used
  first_marked : 0 ∈ marked

/-- The free lists, the bit arrays, the callers' blocks and the marked leaves
fit together. -/
def Consistent (marked : Set ℕ) (s : Heap) : Prop :=
  ∃ top, ∃ L : Layout top, Represents s.bd L ∧ Records marked s L

variable {marked : Set ℕ} {s t : Heap} {top : ℕ} {L : Layout top}

theorem Records.malloc {b : Bd} {k i : ℕ} {L' : Layout top} (h : Records marked s L)
    (hbase : b.bdBase = s.bd.bdBase) (hnew : (k, i) ∉ L.used)
    (hused : ∀ x, x ∈ L'.used ↔ x ∈ L.used ∨ x = (k, i)) :
    Records marked { bd := b, live := (start s.bd.bdBase k i, k) :: s.live } L' where
  nodup := by
    refine List.nodup_cons.mpr ⟨fun hmem => ?_, h.nodup⟩
    obtain ⟨j, hj, hu, -⟩ := (h.mem_live _ _).mp hmem
    exact hnew (start_injective _ _ hj ▸ hu)
  mem_live := by
    intro p m
    rw [List.mem_cons, h.mem_live, hbase]
    constructor
    · rintro (he | ⟨j, rfl, hu, hm⟩)
      · obtain ⟨rfl, rfl⟩ := Prod.mk.inj he
        refine ⟨i, rfl, (hused _).mpr (.inr rfl), ?_⟩
        rintro ⟨rfl, hi⟩
        exact hnew (h.used_of_marked i hi)
      · exact ⟨j, rfl, (hused _).mpr (.inl hu), hm⟩
    · rintro ⟨j, rfl, hu, hm⟩
      rcases (hused _).mp hu with hu | he
      · exact .inr ⟨j, rfl, hu, hm⟩
      · obtain ⟨rfl, rfl⟩ := Prod.mk.inj he
        exact .inl rfl
  used_of_marked := fun j hj => (hused _).mpr (.inl (h.used_of_marked j hj))
  first_marked := h.first_marked

theorem Records.free {b : Bd} {k i : ℕ} {L' : Layout top} (h : Records marked s L)
    (hbase : b.bdBase = s.bd.bdBase) (hi : ¬(k = 0 ∧ i ∈ marked))
    (hused : ∀ x, x ∈ L'.used ↔ x ∈ L.used ∧ x ≠ (k, i)) :
    Records marked { bd := b, live := s.live.erase (start s.bd.bdBase k i, k) } L' where
  nodup := h.nodup.erase _
  mem_live := by
    intro p m
    rw [h.nodup.mem_erase_iff, h.mem_live, hbase]
    constructor
    · rintro ⟨hne, j, rfl, hu, hm⟩
      refine ⟨j, rfl, (hused _).mpr ⟨hu, ?_⟩, hm⟩
      rintro ⟨⟩
      exact hne rfl
    · rintro ⟨j, rfl, hu, hm⟩
      obtain ⟨hu, hne⟩ := (hused _).mp hu
      refine ⟨fun he => hne ?_, j, rfl, hu, hm⟩
      obtain ⟨hj, rfl⟩ := Prod.mk.inj he
      rw [start_injective _ _ hj]
  used_of_marked := by
    refine fun j hj => (hused _).mpr ⟨h.used_of_marked j hj, fun he => hi ?_⟩
    obtain ⟨rfl, rfl⟩ := Prod.mk.inj he
    exact ⟨rfl, hj⟩
  first_marked := h.first_marked

/-- A caller's block can be freed. -/
theorem Records.bdFree {p k : ℕ} (h : Records marked s L) (hrep : Represents s.bd L)
    (hlive : (p, k) ∈ s.live) :
    ∃ b i, bdFree s.bd p = some b ∧ b.bdBase = s.bd.bdBase ∧ p = start s.bd.bdBase k i ∧
      ¬(k = 0 ∧ i ∈ marked) ∧
      ∃ L' : Layout top, Represents b L' ∧ (∀ x, x ∈ L'.used ↔ x ∈ L.used ∧ x ≠ (k, i)) ∧
        (L.Merged → L'.Merged) := by
  obtain ⟨i, rfl, hu, hi⟩ := (h.mem_live p k).mp hlive
  have hne : (k, i) ≠ (0, 0) := by
    rintro ⟨⟩
    exact hi ⟨rfl, h.first_marked⟩
  obtain ⟨b, hb, hbase, hL'⟩ := hrep.bdFree hu (h.used_of_marked 0 h.first_marked) hne
  exact ⟨b, i, hb, hbase, rfl, hi, hL'⟩

/-- A call moves from one layout to another, and keeps it merged. -/
theorem Records.step {c : Call} (hrec : Records marked s L) (hrep : Represents s.bd L)
    (hstep : step s c = some t) :
    t.bd.bdBase = s.bd.bdBase ∧ ∃ L' : Layout top, Represents t.bd L' ∧ Records marked t L' ∧
      (L.Merged → L'.Merged) := by
  cases c with
  | malloc n =>
      rw [Buddy.step] at hstep
      split_ifs at hstep with hn
      obtain ⟨fk, hfk, -, hmalloc⟩ := hrep.bdMalloc hn
      rcases hmalloc with hnone | ⟨i, b, hsome, hbase, hnew, L', hrep', hused, hmerged⟩
      · simp only [hfk, hnone, Option.bind_eq_bind, Option.bind_some] at hstep
        cases hstep
        exact ⟨rfl, L, hrep, ⟨hrec.nodup, hrec.mem_live, hrec.used_of_marked, hrec.first_marked⟩, id⟩
      · simp only [hfk, hsome, Option.bind_eq_bind, Option.bind_some] at hstep
        cases hstep
        exact ⟨hbase, L', hrep', hrec.malloc hbase hnew hused, hmerged⟩
  | free p =>
      obtain ⟨⟨q, k⟩, hfind, hstep⟩ := Option.bind_eq_some_iff.mp hstep
      obtain rfl : q = p := by simpa using List.find?_some hfind
      obtain ⟨b, i, hb, hbase, rfl, hi, L', hrep', hused, hmerged⟩ :=
        hrec.bdFree hrep (List.mem_of_find?_eq_some hfind)
      rw [hb] at hstep
      cases hstep
      exact ⟨hbase, L', hrep', hrec.free hbase hi hused, hmerged⟩

/-- Every call keeps the state consistent. -/
theorem Consistent.step {c : Call} (h : Consistent marked s) (hstep : step s c = some t) :
    Consistent marked t := by
  obtain ⟨top, L, hrep, hrec⟩ := h
  obtain ⟨-, L', hrep', hrec', -⟩ := hrec.step hrep hstep
  exact ⟨top, L', hrep', hrec'⟩

/-! ### The heap is partitioned -/

/-- What a piece of the heap can be. -/
inductive Owner where
  | caller
  | freeList
  | marked
deriving DecidableEq

/-- The block at address `blk.1` of size `blk.2` is held by the owner. -/
def Owns (marked : Set ℕ) (s : Heap) (blk : ℕ × ℕ) : Owner → Prop
  | .caller => blk ∈ s.live
  | .freeList => blk.2 ≤ s.bd.maxsize ∧ blk.1 ∈ (s.bd.bdSizes blk.2).free
  | .marked => blk.2 = 0 ∧ ∃ i ∈ marked, blk.1 = s.bd.bdBase + i * leafSize

/-- The address lies in the block. -/
def InBlock (blk : ℕ × ℕ) (x : ℕ) : Prop := blk.1 ≤ x ∧ x < blk.1 + blkSize blk.2

/-- What the allocator promises in a state. -/
structure Sound (marked : Set ℕ) (s : Heap) : Prop where
  /-- No owner holds anything outside the heap. -/
  inside : ∀ o blk x, Owns marked s blk o → InBlock blk x →
    s.bd.bdBase ≤ x ∧ x < s.bd.bdBase + s.bd.heapSize
  /-- Every address of the heap is in exactly one block of one owner. -/
  partition : ∀ x, s.bd.bdBase ≤ x → x < s.bd.bdBase + s.bd.heapSize →
    ∃! piece : Owner × (ℕ × ℕ), Owns marked s piece.2 piece.1 ∧ InBlock piece.2 x
  live_nodup : s.live.Nodup
  free_nodup : ∀ k ≤ s.bd.maxsize, (s.bd.bdSizes k).free.Nodup
  /-- A request is served by an aligned block of the least size that has room,
  or not at all. -/
  malloc : ∀ n ≤ 2 ^ 63, ∃ fk r b, firstk n = some fk ∧ n ≤ blkSize fk ∧
    bdMalloc s.bd n = some (r, b) ∧
    ∀ p ∈ r, s.bd.bdBase ≤ p ∧ blkSize fk ∣ p - s.bd.bdBase
  /-- A caller's block is freed without unlinking a block that is not on the
  free list of its size. -/
  free : ∀ p k, (p, k) ∈ s.live → ∃ b, bdFree s.bd p = some b

/-- Who holds a tip of the layout. -/
theorem owns_iff (hrep : Represents s.bd L) (hrec : Records marked s L) {o : Owner} {p k : ℕ} :
    Owns marked s (p, k) o ↔ ∃ i, p = start s.bd.bdBase k i ∧ L.Tip k i ∧
      (o = .freeList ↔ (k, i) ∉ L.used) ∧ (o = .marked ↔ k = 0 ∧ i ∈ marked) := by
  cases o with
  | caller =>
      refine (hrec.mem_live p k).trans (exists_congr fun i => and_congr_right fun _ => ?_)
      constructor
      · rintro ⟨hu, hm⟩
        exact ⟨L.tip_of_used hu, by simp [hu], by simp [hm]⟩
      · rintro ⟨-, hu, hm⟩
        exact ⟨by simpa using hu, by simpa using hm⟩
  | freeList =>
      constructor
      · rintro ⟨hk : k ≤ _, hp : p ∈ (s.bd.bdSizes k).free⟩
        obtain ⟨i, rfl, hfree⟩ := ((hrep.free (hrep.maxsize_eq ▸ hk)).mem_iff p).mp hp
        refine ⟨i, rfl, hfree.tip, by simp [hfree.not_used], ?_⟩
        refine ⟨nofun, ?_⟩
        rintro ⟨rfl, hi⟩
        exact absurd (hrec.used_of_marked i hi) hfree.not_used
      · rintro ⟨i, rfl, htip, hu, -⟩
        exact ⟨hrep.maxsize_eq ▸ htip.le,
          ((hrep.free htip.le).mem_iff _).mpr ⟨i, rfl, htip, hu.mp rfl⟩⟩
  | marked =>
      constructor
      · rintro ⟨hk, i, hi, hp⟩
        obtain rfl : k = 0 := hk
        have hu := hrec.used_of_marked i hi
        exact ⟨i, by simpa [start, blkSize] using hp, L.tip_of_used hu, by simp [hu], by simp [hi]⟩
      · rintro ⟨i, rfl, -, -, hm⟩
        obtain ⟨rfl, hi⟩ := hm.mp rfl
        exact ⟨rfl, i, hi, by simp [start, blkSize]⟩

/-- An address is in a block if and only if its leaf is. -/
theorem inBlock_start {base k i x : ℕ} :
    InBlock (start base k i, k) x ↔ base ≤ x ∧ (x - base) / leafSize / 2 ^ k = i := by
  have hdiv : (x - base) / leafSize / 2 ^ k = (x - base) / blkSize k := by
    rw [Nat.div_div_eq_div_mul, blkSize, Nat.mul_comm]
  rw [hdiv, Nat.div_eq_iff (blkSize_pos k)]
  have hpos := blkSize_pos k
  simp only [InBlock, start]
  omega

/-- Each tip has one owner. -/
theorem exists_unique_owner (hrec : Records marked s L) (k i : ℕ) :
    ∃! o : Owner, (o = .freeList ↔ (k, i) ∉ L.used) ∧ (o = .marked ↔ k = 0 ∧ i ∈ marked) := by
  by_cases hu : (k, i) ∈ L.used
  · by_cases hm : k = 0 ∧ i ∈ marked
    · exact ⟨.marked, ⟨by simp [hu], by simp [hm]⟩, fun o ho => ho.2.mpr hm⟩
    · refine ⟨.caller, by simp [hu, hm], fun o ho => ?_⟩
      cases o <;> simp_all
  · have hm : ¬(k = 0 ∧ i ∈ marked) := by
      rintro ⟨rfl, hi⟩
      exact hu (hrec.used_of_marked i hi)
    exact ⟨.freeList, by simp [hu, hm], fun o ho => ho.1.mpr hu⟩

/-- Each address of the heap is in one tip, which has one owner. -/
theorem exists_unique_piece (hrep : Represents s.bd L) (hrec : Records marked s L) {x : ℕ}
    (hle : s.bd.bdBase ≤ x) (hlt : x < s.bd.bdBase + blkSize top) :
    ∃! piece : Owner × (ℕ × ℕ), Owns marked s piece.2 piece.1 ∧ InBlock piece.2 x := by
  have hleaf : (x - s.bd.bdBase) / leafSize < 2 ^ top := by
    rw [Nat.div_lt_iff_lt_mul (by decide)]
    rw [blkSize] at hlt
    omega
  obtain ⟨k, -, htip⟩ := exists_tip (t := L.toSubdivision) hleaf
  obtain ⟨o, ho, hunique⟩ :=
    exists_unique_owner hrec k ((x - s.bd.bdBase) / leafSize / 2 ^ k)
  refine ⟨(o, start s.bd.bdBase k _, k), ⟨(owns_iff hrep hrec).mpr ⟨_, rfl, htip, ho⟩,
    inBlock_start.mpr ⟨hle, rfl⟩⟩, ?_⟩
  rintro ⟨o', p, m⟩ ⟨howns, hin⟩
  obtain ⟨j, rfl, htip', ho'⟩ := (owns_iff hrep hrec).mp howns
  obtain ⟨-, rfl⟩ := inBlock_start.mp hin
  obtain rfl := htip.unique htip'
  rw [hunique o' ho']

theorem Sound.of_consistent (h : Consistent marked s) : Sound marked s := by
  obtain ⟨top, L, hrep, hrec⟩ := h
  have hheap : s.bd.heapSize = blkSize top := by rw [Bd.heapSize, hrep.maxsize_eq]
  refine ⟨?_, ?_, hrec.nodup, ?_, ?_, ?_⟩
  · rintro o ⟨p, k⟩ x howns ⟨hle, hlt⟩
    obtain ⟨i, rfl, htip, -⟩ := (owns_iff hrep hrec).mp howns
    have hend := end_le htip.le htip.lt
    simp only [start] at hle hlt
    omega
  · intro x hle hlt
    exact exists_unique_piece hrep hrec hle (hheap ▸ hlt)
  · intro k hk
    exact (hrep.free (hrep.maxsize_eq ▸ hk)).nodup
  · intro n hn
    obtain ⟨fk, hfk, hle, hnone | ⟨i, b, hsome, -⟩⟩ := hrep.bdMalloc hn
    · exact ⟨fk, none, s.bd, hfk, hle, hnone, (by simp)⟩
    · refine ⟨fk, _, b, hfk, hle, hsome, ?_⟩
      rintro p ⟨⟩
      exact ⟨Nat.le_add_right _ _, i, by rw [start, Nat.add_sub_cancel_left, Nat.mul_comm]⟩
  · intro p k hlive
    obtain ⟨b, -, hb, -⟩ := hrec.bdFree hrep hlive
    exact ⟨b, hb⟩

/-- **The heap stays partitioned.** In every run from a consistent state the
callers' blocks, the free lists and the marked leaves divide the heap up,
requests are served by aligned blocks with room, and frees find their
buddies where they look for them. -/
theorem heap_partitioned {calls : List Call} (h : Consistent marked s)
    (hrun : run step s calls = some t) : Sound marked t :=
  .of_consistent (invariant' (fun h hstep => h.step hstep) h hrun)

/-! ### The size of a block -/

/-- The entries of `bd_sizes` that the loop of `size` reads, from `k` on and
for at most `d` rounds. -/
def sizeReadsFrom (b : Bd) (p : ℕ) : (d k : ℕ) → List ℕ
  | 0, _ => []
  | d + 1, k =>
      (k + 1) :: if bitIsset (b.bdSizes (k + 1)).split (blkIndex b (k + 1) p) then []
        else sizeReadsFrom b p d (k + 1)

/-- The entries that `size` reads. -/
def sizeReads (b : Bd) (p : ℕ) : List ℕ := sizeReadsFrom b p b.nsizes 0

theorem sizeReadsFrom_le {b : Bd} {p m : ℕ}
    (hset : bitIsset (b.bdSizes (m + 1)).split (blkIndex b (m + 1) p) = true) {d k j : ℕ}
    (hk : k ≤ m) (hj : j ∈ sizeReadsFrom b p d k) : j ≤ m + 1 := by
  induction d generalizing k with
  | zero => cases hj
  | succ d ih =>
      rcases List.mem_cons.mp hj with rfl | hj
      · omega
      · split_ifs at hj with hstop
        · cases hj
        · have hne : k ≠ m := by
            rintro rfl
            exact hstop hset
          exact ih (by omega) hj

/-- A result ends the loop before the end of the array. -/
theorem sizeReads_lt {b : Bd} {p k : ℕ} (h : size b p = some k) :
    ∀ j ∈ sizeReads b p, j < b.nsizes := by
  intro j hj
  rw [size] at h
  have hset := List.find?_some h
  have hle := sizeReadsFrom_le hset (Nat.zero_le k) hj
  have hk := List.mem_range.mp (List.mem_of_find?_eq_some h)
  rw [Bd.maxsize] at hk
  omega

theorem Records.size {p k : ℕ} (h : Records marked s L) (hrep : Represents s.bd L)
    (hlive : (p, k) ∈ s.live) : size s.bd p = some k := by
  obtain ⟨i, rfl, hu, hi⟩ := (h.mem_live p k).mp hlive
  have hmeta := h.used_of_marked 0 h.first_marked
  refine hrep.size hu (lt_top_of_used hu hmeta ?_)
  rintro ⟨⟩
  exact hi ⟨rfl, h.first_marked⟩

/-- **The size of a block is found.** In every run from a consistent state,
`size` returns for each block that a caller holds the size it was handed out
with, and reads no entry past the end of the array. -/
theorem size_found {calls : List Call} (h : Consistent marked s)
    (hrun : run step s calls = some t) {p k : ℕ} (hlive : (p, k) ∈ t.live) :
    size t.bd p = some k ∧ ∀ j ∈ sizeReads t.bd p, j < t.bd.nsizes := by
  obtain ⟨top, L, hrep, hrec⟩ := invariant' (fun h hstep => h.step hstep) h hrun
  have hsize := hrec.size hrep hlive
  exact ⟨hsize, sizeReads_lt hsize⟩

/-! ### A small heap -/

/-- A heap of four leaves at address 4096, the first of them marked. -/
def smallHeap : Heap where
  bd :=
    { nsizes := 3
      bdBase := 4096
      bdSizes := fun
        | 0 => { free := [4112], alloc := fun _ => 1, split := fun _ => 0 }
        | 1 => { free := [4128], alloc := fun _ => 1, split := fun _ => 1 }
        | _ => { free := [], alloc := fun _ => 1, split := fun _ => 1 } }
  live := []

/-- The layout of `smallHeap`. -/
def smallLayout : Layout 2 where
  split := {(2, 0), (1, 0)}
  pos := by
    rintro k i (h | h) <;> obtain ⟨rfl, rfl⟩ := Prod.mk.inj h <;> decide
  parent := by
    rintro k i (h | h) <;> obtain ⟨rfl, rfl⟩ := Prod.mk.inj h <;> simp
  used := {(0, 0)}
  tip_of_used := by
    rintro k i h
    obtain ⟨rfl, rfl⟩ := Prod.mk.inj h
    exact ⟨.inr ⟨by decide, .inr rfl⟩, by simp⟩

theorem smallLayout_free_iff {k i : ℕ} : smallLayout.Free k i ↔ k = 0 ∧ i = 1 ∨ k = 1 ∧ i = 1 := by
  simp only [Layout.Free, Tip, Node, smallLayout, Set.mem_insert_iff, Set.mem_singleton_iff,
    Prod.mk.injEq]
  omega

theorem smallHeap_represents : Represents smallHeap.bd smallLayout where
  nsizes_eq := rfl
  top_le := by decide
  split := by
    intro k hpos hk i hi
    interval_cases k <;> interval_cases i <;>
      simp [smallLayout, smallHeap] <;> decide
  alloc := by
    intro k hk i hi
    interval_cases k <;> interval_cases i <;>
      simp [Layout.Taken, smallLayout, smallHeap] <;> decide
  free := by
    intro k hk
    refine ⟨?_, fun p => ?_⟩
    · interval_cases k <;> simp [smallHeap]
    · simp only [smallLayout_free_iff]
      interval_cases k <;> simp [smallHeap, start, blkSize, leafSize]

theorem smallHeap_consistent : Consistent {0} smallHeap := by
  refine ⟨2, smallLayout, smallHeap_represents, by simp [smallHeap], ?_, ?_, rfl⟩
  · simp only [smallHeap, smallLayout, Set.mem_singleton_iff, Prod.mk.injEq, List.not_mem_nil,
      false_iff]
    rintro p k ⟨i, -, hu, hm⟩
    exact hm hu
  · rintro i rfl
    rfl

theorem heap_partitioned_small : ∃ t,
    run step smallHeap [.malloc 20, .malloc 10, .free 4128] = some t ∧ Sound {0} t := by
  have hrun := (Option.some_get (by decide +kernel :
    Option.isSome (run step smallHeap [.malloc 20, .malloc 10, .free 4128]) = true)).symm
  exact ⟨_, hrun, heap_partitioned smallHeap_consistent hrun⟩

theorem size_found_small : ∃ t, run step smallHeap [.malloc 20, .malloc 10] = some t ∧
    size t.bd 4128 = some 1 ∧ size t.bd 4112 = some 0 := by
  have hrun := (Option.some_get (by decide +kernel :
    Option.isSome (run step smallHeap [.malloc 20, .malloc 10]) = true)).symm
  have hlive : ((run step smallHeap [.malloc 20, .malloc 10]).get (by decide +kernel)).live =
      [(4112, 0), (4128, 1)] := by decide +kernel
  refine ⟨_, hrun, (size_found smallHeap_consistent hrun ?_).1,
    (size_found smallHeap_consistent hrun ?_).1⟩
  · rw [hlive]
    decide
  · rw [hlive]
    decide

end Xv6.Buddy
