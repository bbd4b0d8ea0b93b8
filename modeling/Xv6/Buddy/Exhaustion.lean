import Xv6.Buddy.Restore

/-!
When `bd_malloc` returns the null pointer.

`bd_malloc` looks at the free lists only. Since `bd_free` merges eagerly,
an aligned range that no caller holds and that is not marked is always
part of a block on some free list of its size or a larger one, so the
search fails only when there is no such range.
-/

namespace Xv6.Buddy

open Lib Lib.Subdivision

variable {marked : Set ℕ} {s t : Heap} {b b' : Bd} {top k i n : ℕ} {L : Layout top}

/-- `p` is the address of an aligned range of `blkSize k` bytes of the heap,
and no byte of it is in a caller's block or marked. -/
structure Available (marked : Set ℕ) (s : Heap) (k p : ℕ) : Prop where
  le : s.bd.bdBase ≤ p
  dvd : blkSize k ∣ p - s.bd.bdBase
  end_le : p + blkSize k ≤ s.bd.bdBase + s.bd.heapSize
  unowned : ∀ x, InBlock (p, k) x → ∀ blk, InBlock blk x →
    ¬ Owns marked s blk .caller ∧ ¬ Owns marked s blk .marked

/-! ### The search of the free lists -/

/-- After a search without success the lists of all sizes with room are
empty. -/
theorem free_eq_nil {fk : ℕ} (hfk : firstk n = some fk) (h : bdMalloc b n = some (none, b'))
    (hk : fk ≤ k) (hlt : k < b.nsizes) : (b.bdSizes k).free = [] := by
  rw [bdMalloc, hfk, Option.bind_eq_bind, Option.bind_some] at h
  cases hfind : (List.range' fk (b.nsizes - fk)).find? fun k => !(b.bdSizes k).free.isEmpty with
  | none =>
      have hnot := List.find?_eq_none.mp hfind k (List.mem_range'_1.mpr ⟨hk, by omega⟩)
      simpa using hnot
  | some m =>
      simp only [hfind, Option.bind_eq_bind] at h
      obtain ⟨⟨p, rest⟩, -, h⟩ := Option.bind_eq_some_iff.mp h
      cases (Prod.mk.inj (Option.some.inj h)).1

theorem Represents.not_free {fk : ℕ} (h : Represents b L) (hfk : firstk n = some fk)
    (hnone : Buddy.bdMalloc b n = some (none, b')) (m : ℕ) (hm : fk ≤ m) (j : ℕ) : ¬ L.Free m j := by
  intro hfree
  have hle := hfree.tip.le
  have hmem := ((h.free hle).mem_iff _).mpr ⟨j, rfl, hfree⟩
  rw [free_eq_nil hfk hnone hm (by rw [h.nsizes_eq]; omega)] at hmem
  exact List.not_mem_nil hmem

/-! ### Ranges and blocks -/

/-- The aligned ranges of the heap are its blocks. -/
theorem exists_start_iff (hrep : Represents s.bd L) {p : ℕ} :
    s.bd.bdBase ≤ p ∧ blkSize k ∣ p - s.bd.bdBase ∧ p + blkSize k ≤ s.bd.bdBase + s.bd.heapSize ↔
      ∃ i, p = start s.bd.bdBase k i ∧ k ≤ top ∧ i < 2 ^ (top - k) := by
  rw [Bd.heapSize, hrep.maxsize_eq]
  constructor
  · rintro ⟨hle, ⟨i, hi⟩, hend⟩
    have hi' : p - s.bd.bdBase = i * blkSize k := hi.trans (Nat.mul_comm _ _)
    have hlast : (i + 1) * blkSize k ≤ blkSize top := by
      rw [Nat.succ_mul]
      omega
    have hk : k ≤ top := by
      have hsize : blkSize k ≤ blkSize top :=
        (Nat.le_mul_of_pos_left _ (Nat.succ_pos i)).trans hlast
      rw [blkSize_eq_pow, blkSize_eq_pow] at hsize
      have := (Nat.pow_le_pow_iff_right (by decide)).mp hsize
      omega
    rw [blkSize_eq_mul hk] at hlast
    exact ⟨i, by rw [start]; omega, hk, Nat.le_of_mul_le_mul_right hlast (blkSize_pos k)⟩
  · rintro ⟨i, rfl, hk, hi⟩
    have hend := end_le hk hi
    refine ⟨Nat.le_add_right _ _, ⟨i, ?_⟩, ?_⟩
    · rw [start, Nat.add_sub_cancel_left, Nat.mul_comm]
    · rw [start]
      omega

/-- A block is held by a caller or marked if and only if it is in use. -/
theorem owned_iff (hrep : Represents s.bd L) (hrec : Records marked s L) {p : ℕ} :
    Owns marked s (p, k) .caller ∨ Owns marked s (p, k) .marked ↔
      ∃ i, p = start s.bd.bdBase k i ∧ (k, i) ∈ L.used := by
  constructor
  · rintro (howns | howns) <;>
    · obtain ⟨i, rfl, -, hused, -⟩ := (owns_iff hrep hrec).mp howns
      exact ⟨i, rfl, by simpa using hused⟩
  · rintro ⟨i, rfl, hu⟩
    obtain ⟨o, ho, -⟩ := exists_unique_owner hrec k i
    have howns := (owns_iff hrep hrec).mpr ⟨i, rfl, L.tip_of_used hu, ho⟩
    cases o with
    | caller => exact .inl howns
    | freeList => exact absurd hu (ho.1.mp rfl)
    | marked => exact .inr howns

/-- A range is available if and only if no unit of it is in use. -/
theorem available_iff (hrep : Represents s.bd L) (hrec : Records marked s L) {p : ℕ} :
    Available marked s k p ↔ ∃ i, p = start s.bd.bdBase k i ∧ k ≤ top ∧ i < 2 ^ (top - k) ∧
      ∀ m l, l / 2 ^ k = i → (m, l / 2 ^ m) ∉ L.used := by
  constructor
  · rintro ⟨hle, hdvd, hend, hun⟩
    obtain ⟨i, rfl, hk, hi⟩ := (exists_start_iff hrep).mp ⟨hle, hdvd, hend⟩
    refine ⟨i, rfl, hk, hi, fun m l hl hu => ?_⟩
    have hleaf : (s.bd.bdBase + l * leafSize - s.bd.bdBase) / leafSize = l := by
      rw [Nat.add_sub_cancel_left, Nat.mul_div_cancel _ (by decide)]
    have hin : ∀ m, InBlock (start s.bd.bdBase m (l / 2 ^ m), m) (s.bd.bdBase + l * leafSize) :=
      fun m => inBlock_start.mpr ⟨Nat.le_add_right _ _, by rw [hleaf]⟩
    have hnone := hun _ (hl ▸ hin k) _ (hin m)
    exact ((owned_iff hrep hrec).mpr ⟨_, rfl, hu⟩).elim hnone.1 hnone.2
  · rintro ⟨i, rfl, hk, hi, hfree⟩
    obtain ⟨hle, hdvd, hend⟩ := (exists_start_iff hrep).mpr ⟨i, rfl, hk, hi⟩
    refine ⟨hle, hdvd, hend, fun x hx => ?_⟩
    obtain ⟨-, hxi⟩ := inBlock_start.mp hx
    rintro ⟨q, m⟩ hq
    refine not_or.mp fun howns => ?_
    obtain ⟨j, rfl, hu⟩ := (owned_iff hrep hrec).mp howns
    obtain ⟨-, hxj⟩ := inBlock_start.mp hq
    exact hfree m _ hxi (hxj ▸ hu)

/-! ### Failure -/

/-- **`bd_malloc` fails only when it must.** In every state reached from a
consistent one without free buddies, a request ends, and it returns the
null pointer if and only if no aligned range of the size is available; the
allocator is then unchanged. -/
theorem malloc_none_iff {calls : List Call} (h : Consistent marked s) (hmerged : MergedLists s.bd)
    (hrun : run step s calls = some t) (hn : n ≤ 2 ^ 63) :
    ∃ fk r b, firstk n = some fk ∧ bdMalloc t.bd n = some (r, b) ∧
      (r = none ↔ ¬ ∃ p, Available marked t fk p) ∧ (r = none → b = t.bd) := by
  obtain ⟨top, L₀, hrep₀, hrec₀⟩ := h
  obtain ⟨-, L, hrep, hrec, hkeep⟩ := hrec₀.of_run hrep₀ hrun
  have hL : L.Merged := hkeep (hrep₀.merged_iff.mp hmerged)
  obtain ⟨fk, hfk, -, hnone | ⟨i, b, hsome, -, hnew, L', -, hused, -⟩⟩ := hrep.bdMalloc hn
  · refine ⟨fk, none, t.bd, hfk, hnone, ⟨fun _ => ?_, fun _ => rfl⟩, fun _ => rfl⟩
    rintro ⟨p, hp⟩
    obtain ⟨i, rfl, hk, hi, hfree⟩ := (available_iff hrep hrec).mp hp
    obtain ⟨m, l, hl, hu⟩ := hL.exists_used hk hi (hrep.not_free hfk hnone)
    exact hfree m l hl hu
  · refine ⟨fk, _, b, hfk, hsome, ⟨nofun, fun hno => absurd ⟨start t.bd.bdBase fk i, ?_⟩ hno⟩,
      nofun⟩
    -- the block handed out is a tip of the new layout, which has the old blocks in use
    have htip := L'.tip_of_used ((hused _).mpr (.inr rfl))
    refine (available_iff hrep hrec).mpr ⟨i, rfl, htip.le, htip.lt, fun m l hl hu => hnew ?_⟩
    subst hl
    obtain rfl := htip.unique (L'.tip_of_used ((hused _).mpr (.inl hu)))
    exact hu

theorem malloc_none_small : ∃ t, run step smallHeap [.malloc 20] = some t ∧
    ∃ fk r b, firstk 20 = some fk ∧ bdMalloc t.bd 20 = some (r, b) ∧
      (r = none ↔ ¬ ∃ p, Available {0} t fk p) ∧ (r = none → b = t.bd) := by
  have hrun := (Option.some_get (by decide +kernel :
    Option.isSome (run step smallHeap [.malloc 20]) = true)).symm
  exact ⟨_, hrun, malloc_none_iff smallHeap_consistent smallHeap_merged hrun (by norm_num)⟩

end Xv6.Buddy
