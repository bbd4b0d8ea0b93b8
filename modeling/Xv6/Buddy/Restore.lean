import Xv6.Buddy.Heap

/-!
Freeing restores the heap.

`bd_free` merges a block with its buddy whenever the buddy is free, so no
two halves of a block are ever both on a free list. The layout is then
determined by the blocks in use, and with it every bit and every free
list: the order in which blocks were handed out and freed leaves no trace.
-/

namespace Xv6.Buddy

open Lib Lib.Subdivision

/-- No two halves of a block are both on the free list of their size. -/
def MergedLists (b : Bd) : Prop :=
  ∀ k < b.maxsize, ∀ i, start b.bdBase k i ∈ (b.bdSizes k).free →
    start b.bdBase k (buddy i) ∉ (b.bdSizes k).free

/-- The two allocators have the same bits for every block, and the same
blocks on their free lists. -/
structure SameBlocks (b b' : Bd) : Prop where
  nsizes : b'.nsizes = b.nsizes
  bdBase : b'.bdBase = b.bdBase
  alloc : ∀ k ≤ b.maxsize, ∀ i < 2 ^ (b.maxsize - k),
    bitIsset (b'.bdSizes k).alloc i = bitIsset (b.bdSizes k).alloc i
  split : ∀ k ≤ b.maxsize, 0 < k → ∀ i < 2 ^ (b.maxsize - k),
    bitIsset (b'.bdSizes k).split i = bitIsset (b.bdSizes k).split i
  free : ∀ k ≤ b.maxsize, (b'.bdSizes k).free.Perm (b.bdSizes k).free

variable {marked : Set ℕ} {s t : Heap} {b b' : Bd} {top : ℕ} {L L' : Layout top}

theorem Represents.merged_iff (h : Represents b L) : MergedLists b ↔ L.Merged := by
  have hmem : ∀ {k i}, k ≤ top → (start b.bdBase k i ∈ (b.bdSizes k).free ↔ L.Free k i) := by
    intro k i hk
    rw [(h.free hk).mem_iff]
    refine ⟨fun ⟨j, hj, hfree⟩ => ?_, fun hfree => ⟨i, rfl, hfree⟩⟩
    rwa [start_injective _ _ hj]
  rw [MergedLists, h.maxsize_eq]
  constructor
  · intro hlists k i hk hfree hbuddy
    exact hlists k hk i ((hmem hk.le).mpr hfree) ((hmem hk.le).mpr hbuddy)
  · intro hmerged k hk i hfree hbuddy
    exact hmerged hk ((hmem hk.le).mp hfree) ((hmem hk.le).mp hbuddy)

/-- The layout determines the bits and the free lists. -/
theorem Represents.sameBlocks (h : Represents b L) (h' : Represents b' L')
    (hbase : b'.bdBase = b.bdBase) (hused : ∀ x, x ∈ L'.used ↔ x ∈ L.used)
    (hsplit : ∀ x, x ∈ L'.split ↔ x ∈ L.split) : SameBlocks b b' := by
  have htaken : ∀ k i, L'.Taken k i ↔ L.Taken k i := fun k i => or_congr (hsplit _) (hused _)
  have hfree : ∀ k i, L'.Free k i ↔ L.Free k i := by
    intro k i
    simp only [Layout.Free, Tip, Node, hsplit, hused]
  constructor
  case nsizes => rw [h.nsizes_eq, h'.nsizes_eq]
  case bdBase => exact hbase
  case alloc =>
    intro k hk i hi
    rw [h.maxsize_eq] at hk hi
    rw [Bool.eq_iff_iff, h.alloc hk i hi, h'.alloc hk i hi, htaken]
  case split =>
    intro k hk hpos i hi
    rw [h.maxsize_eq] at hk hi
    rw [Bool.eq_iff_iff, h.split hpos hk i hi, h'.split hpos hk i hi]
    exact hsplit (k, i)
  case free =>
    intro k hk
    rw [h.maxsize_eq] at hk
    refine (List.perm_ext_iff_of_nodup (h'.free hk).nodup (h.free hk).nodup).mpr fun p => ?_
    rw [(h'.free hk).mem_iff, (h.free hk).mem_iff, hbase]
    simp only [hfree]

/-- The blocks that callers hold determine the blocks in use. -/
theorem Records.used_iff (h : Records marked s L) (h' : Records marked t L')
    (hbase : t.bd.bdBase = s.bd.bdBase) (hlive : ∀ blk, blk ∈ t.live ↔ blk ∈ s.live)
    (x : ℕ × ℕ) : x ∈ L'.used ↔ x ∈ L.used := by
  obtain ⟨k, i⟩ := x
  by_cases hm : k = 0 ∧ i ∈ marked
  · obtain ⟨rfl, hi⟩ := hm
    exact ⟨fun _ => h.used_of_marked i hi, fun _ => h'.used_of_marked i hi⟩
  · have hheld : ∀ {s : Heap} {L : Layout top}, Records marked s L →
        ((start s.bd.bdBase k i, k) ∈ s.live ↔ (k, i) ∈ L.used) := by
      intro s L h
      rw [h.mem_live]
      refine ⟨fun ⟨j, hj, hu, _⟩ => ?_, fun hu => ⟨i, rfl, hu, hm⟩⟩
      rwa [start_injective _ _ hj]
    rw [← hheld h, ← hheld h', hbase]
    exact hlive _

/-- What a run does to the layout. -/
theorem Records.of_run {calls : List Call} (hrec : Records marked s L) (hrep : Represents s.bd L)
    (hrun : run Buddy.step s calls = some t) :
    t.bd.bdBase = s.bd.bdBase ∧ ∃ L' : Layout top, Represents t.bd L' ∧ Records marked t L' ∧
      (L.Merged → L'.Merged) := by
  induction calls generalizing s L with
  | nil =>
      obtain rfl : s = t := Option.some.inj hrun
      exact ⟨rfl, L, hrep, hrec, id⟩
  | cons c calls ih =>
      obtain ⟨u, hstep, hrun⟩ := run_cons_eq_some.mp hrun
      obtain ⟨hbase, L₁, hrep₁, hrec₁, hmerged⟩ := hrec.step hrep hstep
      obtain ⟨hbase', L', hrep', hrec', hmerged'⟩ := ih hrec₁ hrep₁ hrun
      exact ⟨hbase'.trans hbase, L', hrep', hrec', hmerged' ∘ hmerged⟩

/-- **Freeing restores the heap.** In every run from a consistent state
without free buddies there are never two free buddies; every block held
can be freed, and as soon as callers hold the blocks they held at the
start, all bits and free lists are as they were. -/
theorem heap_restored {calls : List Call} (h : Consistent marked s) (hmerged : MergedLists s.bd)
    (hrun : run step s calls = some t) :
    MergedLists t.bd ∧ (∀ p k, (p, k) ∈ t.live → ∃ b, bdFree t.bd p = some b) ∧
      ((∀ blk, blk ∈ t.live ↔ blk ∈ s.live) → SameBlocks s.bd t.bd) := by
  obtain ⟨top, L, hrep, hrec⟩ := h
  obtain ⟨hbase, L', hrep', hrec', hkeep⟩ := hrec.of_run hrep hrun
  have hL : L.Merged := hrep.merged_iff.mp hmerged
  refine ⟨hrep'.merged_iff.mpr (hkeep hL), fun p k hlive => ?_, fun hlive => ?_⟩
  · obtain ⟨b, -, hb, -⟩ := hrec'.bdFree hrep' hlive
    exact ⟨b, hb⟩
  · have hused := hrec.used_iff hrec' hbase hlive
    exact hrep.sameBlocks hrep' hbase hused (hL.split_eq (hkeep hL) hused)

theorem smallHeap_merged : MergedLists smallHeap.bd := by
  refine smallHeap_represents.merged_iff.mpr fun {k i} _ hfree hbuddy => ?_
  rw [smallLayout_free_iff] at hfree hbuddy
  have := buddy_ne i
  omega

theorem heap_restored_small : ∃ t,
    run step smallHeap [.malloc 10, .malloc 20, .malloc 1, .free 4112, .free 4128] = some t ∧
      SameBlocks smallHeap.bd t.bd := by
  have hrun := (Option.some_get (by decide +kernel : Option.isSome (run step smallHeap
    [.malloc 10, .malloc 20, .malloc 1, .free 4112, .free 4128]) = true)).symm
  have hlive : ((run step smallHeap [.malloc 10, .malloc 20, .malloc 1, .free 4112,
      .free 4128]).get (by decide +kernel)).live = [] := by decide +kernel
  refine ⟨_, hrun, (heap_restored smallHeap_consistent smallHeap_merged hrun).2.2 fun blk => ?_⟩
  rw [hlive]
  rfl

end Xv6.Buddy
