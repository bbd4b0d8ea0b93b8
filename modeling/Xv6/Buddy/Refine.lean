import Xv6.Buddy.Alloc
import Xv6.Lib.Dyadic

/-!
The allocator's bit arrays and free lists represent a layout.

`Represents b L` reads the layout `L` off the data structures: the split
bits are the split blocks, the alloc bits the blocks that are split or in
use, and the free list of size `k` lists the free blocks of size `k`. Each
round of the loops of `bd_malloc` and `bd_free` is one of the moves of a
layout, and the two functions as a whole put a block in use and take one
out of use.
-/

namespace Xv6.Buddy

open Lib Lib.Subdivision

/-! ### Bit arrays and free lists as sets -/

/-- The first `n` bits of the array are those of the indices in `F`. -/
def Marks (array : ℕ → BitVec 8) (n : ℕ) (F : ℕ → Prop) : Prop :=
  ∀ i < n, (bitIsset array i = true ↔ F i)

/-- The list has the address of every index in `F` once, and nothing else. -/
structure Lists (l : List ℕ) (start : ℕ → ℕ) (F : ℕ → Prop) : Prop where
  nodup : l.Nodup
  mem_iff : ∀ p, p ∈ l ↔ ∃ i, p = start i ∧ F i

section Sets

variable {array : ℕ → BitVec 8} {n i p : ℕ} {F G : ℕ → Prop} {l : List ℕ} {start : ℕ → ℕ}

theorem Marks.congr (h : Marks array n F) (hG : ∀ j, G j ↔ F j) : Marks array n G :=
  fun j hj => (h j hj).trans (hG j).symm

theorem Marks.set (h : Marks array n F) (hG : ∀ j, G j ↔ F j ∨ j = i) :
    Marks (bitSet array i) n G := by
  intro j hj
  rw [bitIsset_bitSet, Bool.or_eq_true, h j hj, hG, decide_eq_true_iff, or_comm]

theorem Marks.clear (h : Marks array n F) (hG : ∀ j, G j ↔ F j ∧ j ≠ i) :
    Marks (bitClear array i) n G := by
  intro j hj
  rw [bitIsset_bitClear, Bool.and_eq_true, h j hj, hG, Bool.not_eq_true', decide_eq_false_iff_not,
    and_comm]

theorem Lists.congr (h : Lists l start F) (hG : ∀ j, G j ↔ F j) : Lists l start G :=
  ⟨h.nodup, fun p => (h.mem_iff p).trans (by simp only [hG])⟩

theorem Lists.push (hinj : Function.Injective start) (h : Lists l start F) (hi : ¬ F i)
    (hG : ∀ j, G j ↔ F j ∨ j = i) : Lists (lstPush l (start i)) start G where
  nodup := by
    refine List.nodup_cons.mpr ⟨fun hmem => ?_, h.nodup⟩
    obtain ⟨j, hj, hF⟩ := (h.mem_iff _).mp hmem
    exact hi (hinj hj ▸ hF)
  mem_iff := by
    intro p
    rw [lstPush, List.mem_cons, h.mem_iff]
    constructor
    · rintro (rfl | ⟨j, rfl, hF⟩)
      · exact ⟨i, rfl, (hG i).mpr (.inr rfl)⟩
      · exact ⟨j, rfl, (hG j).mpr (.inl hF)⟩
    · rintro ⟨j, rfl, hj⟩
      rcases (hG j).mp hj with hF | rfl
      · exact .inr ⟨j, rfl, hF⟩
      · exact .inl rfl

theorem Lists.erase (hinj : Function.Injective start) (h : Lists l start F)
    (hG : ∀ j, G j ↔ F j ∧ j ≠ i) : Lists (l.erase (start i)) start G where
  nodup := h.nodup.erase _
  mem_iff := by
    intro p
    rw [h.nodup.mem_erase_iff, h.mem_iff]
    constructor
    · rintro ⟨hne, j, rfl, hF⟩
      exact ⟨j, rfl, (hG j).mpr ⟨hF, fun he => hne (by rw [he])⟩⟩
    · rintro ⟨j, rfl, hj⟩
      obtain ⟨hF, hne⟩ := (hG j).mp hj
      exact ⟨fun he => hne (hinj he), j, rfl, hF⟩

theorem Lists.remove (hinj : Function.Injective start) (h : Lists l start F) (hi : F i)
    (hG : ∀ j, G j ↔ F j ∧ j ≠ i) : ∃ l', lstRemove l (start i) = some l' ∧ Lists l' start G :=
  ⟨_, if_pos ((h.mem_iff _).mpr ⟨i, rfl, hi⟩), h.erase hinj hG⟩

theorem Lists.pop (hinj : Function.Injective start) (h : Lists (start i :: l) start F)
    (hG : ∀ j, G j ↔ F j ∧ j ≠ i) : Lists l start G := by
  have := h.erase hinj hG
  rwa [List.erase_cons_head] at this

end Sets

/-! ### Addresses -/

/-- The address of a block, without the detour through `int`. -/
def start (base k i : ℕ) : ℕ := base + i * blkSize k

theorem start_injective (base k : ℕ) : Function.Injective (start base k) := by
  intro i j h
  exact Nat.eq_of_mul_eq_mul_right (blkSize_pos k) (Nat.add_left_cancel h)

theorem start_succ (base k i : ℕ) : start base (k + 1) i = start base k (2 * i) := by
  rw [start, start, blkSize_succ]
  ring

variable {k top : ℕ}

theorem blkSize_eq_mul (h : k ≤ top) : blkSize top = 2 ^ (top - k) * blkSize k := by
  rw [blkSize, blkSize, ← mul_assoc, ← pow_add, Nat.sub_add_cancel h]

/-- A block lies in the heap. -/
theorem end_le {i : ℕ} (hk : k ≤ top) (hi : i < 2 ^ (top - k)) :
    i * blkSize k + blkSize k ≤ blkSize top := by
  rw [blkSize_eq_mul hk, ← Nat.succ_mul]
  exact Nat.mul_le_mul_right _ hi

/-- The largest heap whose offsets fit in an `int`. -/
theorem blkSize_le (h : top ≤ 27) : blkSize top ≤ 2 ^ 31 := by
  rw [blkSize_eq_pow]
  exact Nat.pow_le_pow_right (by decide) (by omega)

theorem offset_lt {i : ℕ} (htop : top ≤ 27) (hk : k ≤ top) (hi : i < 2 ^ (top - k)) :
    i * blkSize k < 2 ^ 31 := by
  have h1 := end_le hk hi
  have h2 := blkSize_le htop
  have h3 := blkSize_pos k
  omega

theorem blkIndex_start {b : Bd} {i m : ℕ} (h : i * blkSize k < 2 ^ 31) :
    blkIndex b m (start b.bdBase k i) = i * 2 ^ k / 2 ^ m := by
  have hoff : ((start b.bdBase k i : ℕ) : ℤ) - b.bdBase = ((i * blkSize k : ℕ) : ℤ) := by
    rw [start]
    push_cast
    ring
  have hdiv : i * blkSize k / blkSize m < 2 ^ 31 := lt_of_le_of_lt (Nat.div_le_self _ _) h
  have hcancel : i * blkSize k / blkSize m = i * 2 ^ k / 2 ^ m := by
    rw [blkSize, blkSize, ← mul_assoc, Nat.mul_div_mul_right _ _ (by decide)]
  simp only [blkIndex]
  rw [hoff, cint_of_lt h, ← Int.ofNat_tdiv, cint_of_lt hdiv, Int.toNat_natCast, hcancel]

theorem blkIndex_self {b : Bd} {i : ℕ} (h : i * blkSize k < 2 ^ 31) :
    blkIndex b k (start b.bdBase k i) = i := by
  rw [blkIndex_start h, Nat.mul_div_cancel _ (Nat.two_pow_pos k)]

theorem addr_eq {b : Bd} {i : ℕ} (h : i * blkSize k < 2 ^ 31) :
    addr b k i = start b.bdBase k i := by
  simp only [addr]
  rw [cint_of_lt h, start]
  omega

/-! ### Representing a layout -/

/-- The allocator's data structures represent the layout `L`. The heap has
at most `2 ^ 31` bytes, so that offsets fit in an `int`; `kinit` gives the
allocator less than 128 megabytes. -/
structure Represents (b : Bd) {top : ℕ} (L : Layout top) : Prop where
  nsizes_eq : b.nsizes = top + 1
  top_le : top ≤ 27
  split : ∀ {k}, 0 < k → k ≤ top →
    Marks (b.bdSizes k).split (2 ^ (top - k)) fun i => (k, i) ∈ L.split
  alloc : ∀ {k}, k ≤ top → Marks (b.bdSizes k).alloc (2 ^ (top - k)) (L.Taken k)
  free : ∀ {k}, k ≤ top → Lists (b.bdSizes k).free (start b.bdBase k) (L.Free k)

variable {b : Bd} {top : ℕ} {L : Layout top} {k i : ℕ}

@[simp] theorem bdSizes_modify (b : Bd) (k m : ℕ) (f : SzInfo → SzInfo) :
    (b.modify k f).bdSizes m = if m = k then f (b.bdSizes k) else b.bdSizes m :=
  Function.update_apply _ _ _ _

@[simp] theorem bdBase_modify (b : Bd) (k : ℕ) (f : SzInfo → SzInfo) :
    (b.modify k f).bdBase = b.bdBase := rfl

theorem Represents.maxsize_eq (h : Represents b L) : b.maxsize = top := by
  rw [Bd.maxsize, h.nsizes_eq, Nat.add_sub_cancel]

theorem Represents.tip_offset_lt (h : Represents b L) (ht : L.Tip k i) : i * blkSize k < 2 ^ 31 :=
  offset_lt h.top_le ht.le ht.lt

/-- Popping a free block and marking it allocated. -/
theorem Represents.take {rest : List ℕ} (h : Represents b L) (hfree : L.Free k i)
    (hlist : (b.bdSizes k).free = start b.bdBase k i :: rest) :
    Represents ((b.modify k fun s => { s with free := rest }).modify k fun s =>
      { s with alloc := bitSet s.alloc i }) (L.take k i hfree) where
  nsizes_eq := h.nsizes_eq
  top_le := h.top_le
  split := by
    intro m hpos hm
    by_cases hmk : m = k
    · subst hmk
      simpa using h.split hpos hm
    · simpa [hmk] using h.split hpos hm
  alloc := by
    intro m hm
    by_cases hmk : m = k
    · subst hmk
      simpa using (h.alloc hm).set fun j => by simp [Layout.taken_take]
    · simpa [hmk] using (h.alloc hm).congr fun j => by simp [Layout.taken_take, hmk]
  free := by
    intro m hm
    by_cases hmk : m = k
    · subst hmk
      have hl := h.free hm
      rw [hlist] at hl
      simpa using hl.pop (start_injective _ _) fun j => by simp [Layout.free_take]
    · simpa [hmk] using (h.free hm).congr fun j => by simp [Layout.free_take, hmk]

/-- One round of the loop of `bd_malloc`. -/
theorem Represents.splitBlock (h : Represents b L) (hu : (k + 1, i) ∈ L.used) :
    Represents (splitBlock b (k + 1) (start b.bdBase (k + 1) i)) (L.divide k i hu) := by
  have htip := L.tip_of_used hu
  have hidx : blkIndex b (k + 1) (start b.bdBase (k + 1) i) = i :=
    blkIndex_self (h.tip_offset_lt htip)
  have hleft : blkIndex b k (start b.bdBase (k + 1) i) = 2 * i := by
    rw [blkIndex_start (h.tip_offset_lt htip), pow_succ', ← mul_assoc,
      Nat.mul_div_cancel _ (Nat.two_pow_pos k), Nat.mul_comm]
  have hright : start b.bdBase (k + 1) i + blkSize k = start b.bdBase k (2 * i + 1) := by
    rw [start_succ, start, start]
    ring
  have hnew : ¬ L.Free k (2 * i + 1) := fun hf =>
    Layout.not_node_of_tip htip (by omega) hf.tip.1
  simp only [Buddy.splitBlock, Nat.add_sub_cancel, hidx, hleft, hright]
  refine ⟨h.nsizes_eq, h.top_le, fun {m} hpos hm => ?_, fun {m} hm => ?_, fun {m} hm => ?_⟩
  · rcases eq_or_ne m (k + 1) with rfl | hmk
    · simpa using (h.split hpos hm).set fun j => by simp [Layout.mem_split_divide]
    · rcases eq_or_ne m k with rfl | hmk'
      · simpa using (h.split hpos hm).congr fun j => by simp [Layout.mem_split_divide]
      · simpa [hmk, hmk'] using (h.split hpos hm).congr fun j => by
          simp [Layout.mem_split_divide, hmk]
  · rcases eq_or_ne m k with rfl | hmk
    · simpa using (h.alloc hm).set fun j => by simp [Layout.taken_divide]
    · rcases eq_or_ne m (k + 1) with rfl | hmk'
      · simpa using (h.alloc hm).congr fun j => by simp [Layout.taken_divide]
      · simpa [hmk, hmk'] using (h.alloc hm).congr fun j => by
          simp [Layout.taken_divide, hmk]
  · rcases eq_or_ne m k with rfl | hmk
    · simpa using (h.free hm).push (start_injective _ _) hnew fun j => by
        simp [Layout.free_divide]
    · rcases eq_or_ne m (k + 1) with rfl | hmk'
      · simpa using (h.free hm).congr fun j => by simp [Layout.free_divide]
      · simpa [hmk, hmk'] using (h.free hm).congr fun j => by
          simp [Layout.free_divide, hmk]

/-- The end of `bd_free`: the block is listed as it is. -/
theorem Represents.drop (h : Represents b L) (hu : (k, i) ∈ L.used) :
    Represents ((b.modify k fun s => { s with alloc := bitClear s.alloc i }).modify k fun s =>
      { s with free := lstPush s.free (start b.bdBase k i) }) (L.drop k i) where
  nsizes_eq := h.nsizes_eq
  top_le := h.top_le
  split := by
    intro m hpos hm
    by_cases hmk : m = k
    · subst hmk
      simpa using h.split hpos hm
    · simpa [hmk] using h.split hpos hm
  alloc := by
    intro m hm
    by_cases hmk : m = k
    · subst hmk
      simpa using (h.alloc hm).clear fun j => by simp [Layout.taken_drop hu]
    · simpa [hmk] using (h.alloc hm).congr fun j => by simp [Layout.taken_drop hu, hmk]
  free := by
    intro m hm
    by_cases hmk : m = k
    · subst hmk
      simpa using (h.free hm).push (start_injective _ _) (fun hf => hf.not_used hu) fun j => by
        simp [Layout.free_drop hu]
    · simpa [hmk] using (h.free hm).congr fun j => by simp [Layout.free_drop hu, hmk]

/-- One round of the loop of `bd_free` that merges. -/
theorem Represents.mergeBlock (h : Represents b L) (hk : k < top) (hu : (k, i) ∈ L.used)
    (hb : L.Free k (buddy i)) :
    ∃ b', mergeBlock (b.modify k fun s => { s with alloc := bitClear s.alloc i }) k
        (start b.bdBase k i) (buddy i) = some (start b.bdBase (k + 1) (i / 2), b') ∧
      b'.bdBase = b.bdBase ∧ Represents b' (L.join k i hk hu hb) := by
  have htip := L.tip_of_used hu
  obtain ⟨l, hl, hlists⟩ := (h.free hk.le).remove (start_injective _ _) hb
    (G := (L.join k i hk hu hb).Free k) fun j => by simp [Layout.free_join]
  have hparent : (if buddy i % 2 = 0 then start b.bdBase k (buddy i) else start b.bdBase k i) =
      start b.bdBase (k + 1) (i / 2) := by
    rw [start_succ]
    unfold buddy
    split_ifs with h1 h2 h2
    · omega
    · rw [show 2 * (i / 2) = i by omega]
    · rw [show 2 * (i / 2) = i - 1 by omega]
    · omega
  have haddr : addr (b.modify k fun s => { s with alloc := bitClear s.alloc i }) k (buddy i) =
      start b.bdBase k (buddy i) := addr_eq (h.tip_offset_lt hb.tip)
  have hidx : blkIndex (b.modify k fun s => { s with alloc := bitClear s.alloc i }) (k + 1)
      (start b.bdBase (k + 1) (i / 2)) = i / 2 :=
    blkIndex_self (offset_lt h.top_le hk (lt_of_split (htip.1.parent_split hk)))
  simp only [Buddy.mergeBlock, haddr, hparent, hidx, bdSizes_modify, if_true, hl]
  refine ⟨_, rfl, rfl, h.nsizes_eq, h.top_le, fun {m} hpos hm => ?_, fun {m} hm => ?_,
    fun {m} hm => ?_⟩
  · rcases eq_or_ne m (k + 1) with rfl | hmk
    · simpa using (h.split hpos hm).clear fun j => by simp [Layout.mem_split_join]
    · rcases eq_or_ne m k with rfl | hmk'
      · simpa using (h.split hpos hm).congr fun j => by simp [Layout.mem_split_join]
      · simpa [hmk, hmk'] using (h.split hpos hm).congr fun j => by
          simp [Layout.mem_split_join, hmk]
  · rcases eq_or_ne m k with rfl | hmk
    · simpa using (h.alloc hm).clear fun j => by simp [Layout.taken_join]
    · rcases eq_or_ne m (k + 1) with rfl | hmk'
      · simpa using (h.alloc hm).congr fun j => by simp [Layout.taken_join]
      · simpa [hmk, hmk'] using (h.alloc hm).congr fun j => by simp [Layout.taken_join, hmk]
  · rcases eq_or_ne m k with rfl | hmk
    · simpa using hlists
    · rcases eq_or_ne m (k + 1) with rfl | hmk'
      · simpa using (h.free hm).congr fun j => by simp [Layout.free_join]
      · simpa [hmk, hmk'] using (h.free hm).congr fun j => by simp [Layout.free_join, hmk]

/-! ### The functions -/

theorem bdBase_splitLoop (p fk : ℕ) (b : Bd) (d : ℕ) : (splitLoop p fk b d).bdBase = b.bdBase := by
  induction d generalizing b with
  | zero => rfl
  | succ d ih => exact ih _

/-- Splitting moves the block in use down to its leftmost part of size `fk`;
the blocks `U` in use beside it are left alone. -/
theorem Represents.splitLoop {U : Set (ℕ × ℕ)} {fk d : ℕ} (h : Represents b L)
    (hu : ∀ x, x ∈ L.used ↔ x ∈ U ∨ x = (fk + d, i)) (hU : (fk + d, i) ∉ U) :
    ∃ j, start b.bdBase (fk + d) i = start b.bdBase fk j ∧ (fk, j) ∉ U ∧ ∃ L' : Layout top,
        Represents (splitLoop (start b.bdBase (fk + d) i) fk b d) L' ∧
        (∀ x, x ∈ L'.used ↔ x ∈ U ∨ x = (fk, j)) ∧ (L.Merged → L'.Merged) := by
  induction d generalizing b L i with
  | zero => exact ⟨i, rfl, hU, L, h, hu, id⟩
  | succ d ih =>
      have hused : (fk + d + 1, i) ∈ L.used := (hu _).mpr (.inr rfl)
      have hdiv : ∀ x, x ∈ (L.divide (fk + d) i hused).used ↔ x ∈ U ∨ x = (fk + d, 2 * i) := by
        intro x
        rw [Layout.mem_used_divide, hu]
        constructor
        · rintro (⟨hx | hx, hne⟩ | hx)
          · exact .inl hx
          · exact absurd hx hne
          · exact .inr hx
        · rintro (hx | hx)
          · exact .inl ⟨.inl hx, fun he => hU (he ▸ hx)⟩
          · exact .inr hx
      have hnew : (fk + d, 2 * i) ∉ U := fun hx =>
        Layout.not_node_of_tip (L.tip_of_used hused) (by omega)
          (L.tip_of_used ((hu _).mpr (.inl hx))).1
      obtain ⟨j, hj, hjU, L', hL', hused', hmerged⟩ := ih (h.splitBlock hused) hdiv hnew
      rw [show (Buddy.splitBlock b (fk + d + 1) (start b.bdBase (fk + d + 1) i)).bdBase
        = b.bdBase from rfl, ← start_succ] at hj hL'
      exact ⟨j, hj, hjU, L', hL', hused', fun hm => hmerged hm.divide⟩

/-- A block in use beside the first leaf is not the whole heap. -/
theorem lt_top_of_used (hu : (k, i) ∈ L.used) (hmeta : (0, 0) ∈ L.used)
    (hne : (k, i) ≠ (0, 0)) : k < top := by
  have htip := L.tip_of_used hu
  refine lt_of_le_of_ne htip.le ?_
  rintro rfl
  obtain rfl : i = 0 := by simpa using htip.lt
  have hk : k = 0 := Tip.unique (l := 0) (by simpa using htip)
    (by simpa using L.tip_of_used hmeta)
  exact hne (by rw [hk])

/-- Merging takes a block out of use, whatever else it is merged with. The
leaf at the start of the heap stays in use, so that the loop stops before
the whole heap is merged. It stops at a taken buddy only. -/
theorem Represents.mergeLoop {d : ℕ} (h : Represents b L) (hd : k + d = top)
    (hu : (k, i) ∈ L.used) (hmeta : (0, 0) ∈ L.used) (hne : (k, i) ≠ (0, 0)) :
    ∃ b', mergeLoop b d k (start b.bdBase k i) = some b' ∧ b'.bdBase = b.bdBase ∧
      ∃ L' : Layout top, Represents b' L' ∧ (∀ x, x ∈ L'.used ↔ x ∈ L.used ∧ x ≠ (k, i)) ∧
        (L.Merged → L'.Merged) := by
  induction d generalizing b L k i with
  | zero =>
      have := lt_top_of_used hu hmeta hne
      omega
  | succ d ih =>
      have htip := L.tip_of_used hu
      have hk : k < top := by omega
      have hidx : blkIndex b k (start b.bdBase k i) = i := blkIndex_self (h.tip_offset_lt htip)
      have hnode : L.Node k (buddy i) := node_of_parent (by
        rw [buddy_div_two]
        exact htip.1.parent_split hk)
      have hbit : bitIsset ((b.modify k fun s =>
          { s with alloc := bitClear s.alloc i }).bdSizes k).alloc (buddy i) = true ↔
          L.Taken k (buddy i) := by
        simp [buddy_ne, h.alloc hk.le (buddy i) hnode.lt]
      rw [Buddy.mergeLoop]
      simp only [hidx]
      change ∃ b', (if bitIsset _ (buddy i) = true then _ else
        (Buddy.mergeBlock _ k _ (buddy i)).bind _) = some b' ∧ _
      by_cases htaken : L.Taken k (buddy i)
      · rw [if_pos (hbit.mpr htaken)]
        exact ⟨_, rfl, rfl, L.drop k i, h.drop hu, fun x => Layout.mem_used_drop,
          fun hm => hm.drop hu htaken⟩
      · rw [if_neg (fun hset => htaken (hbit.mp hset))]
        have hfree := (Layout.free_iff_not_taken hnode).mpr htaken
        obtain ⟨b₁, hb₁, hbase₁, hrep₁⟩ := h.mergeBlock hk hu hfree
        obtain ⟨b', hb', hbase', L', hL', hused, hmerged⟩ := ih hrep₁ (by omega)
          (Layout.mem_used_join.mpr (.inr rfl)) (Layout.mem_used_join.mpr (.inl ⟨hmeta, hne.symm⟩))
          (by simp)
        rw [hbase₁] at hb' hbase'
        refine ⟨b', ?_, hbase', L', hL', fun x => ?_, fun hm => hmerged hm.join⟩
        · rw [hb₁]
          exact hb'
        · rw [hused, Layout.mem_used_join]
          constructor
          · rintro ⟨hx | hx, hx'⟩
            · exact hx
            · exact absurd hx hx'
          · rintro ⟨hx, hxne⟩
            refine ⟨.inl ⟨hx, hxne⟩, ?_⟩
            rintro rfl
            exact (L.tip_of_used hx).not_split (htip.1.parent_split hk)

/-- The split bits around a block in use give its size away: its parent is
split, and no smaller block around its start is. -/
theorem Represents.size (h : Represents b L) (hu : (k, i) ∈ L.used) (hk : k < top) :
    size b (start b.bdBase k i) = some k := by
  have htip := L.tip_of_used hu
  have hoff := h.tip_offset_lt htip
  have hbit : ∀ m < top, (bitIsset (b.bdSizes (m + 1)).split
      (blkIndex b (m + 1) (start b.bdBase k i)) = true ↔
      (m + 1, i * 2 ^ k / 2 ^ (m + 1)) ∈ L.split) := by
    intro m hm
    rw [blkIndex_start hoff]
    refine h.split (by omega) hm _ ?_
    rw [Nat.div_lt_iff_lt_mul (Nat.two_pow_pos _), ← pow_add, Nat.sub_add_cancel hm]
    calc i * 2 ^ k < 2 ^ (top - k) * 2 ^ k := by
          exact Nat.mul_lt_mul_of_pos_right htip.lt (Nat.two_pow_pos k)
      _ = 2 ^ top := by rw [← pow_add, Nat.sub_add_cancel hk.le]
  have hself : i * 2 ^ k / 2 ^ k = i := Nat.mul_div_cancel _ (Nat.two_pow_pos k)
  rw [Buddy.size, h.maxsize_eq, List.find?_range_eq_some]
  refine ⟨(hbit k hk).mpr ?_, List.mem_range.mpr hk, fun m hm => ?_⟩
  · rw [div_two_pow_succ, hself]
    exact htip.1.parent_split hk
  · rw [Bool.not_eq_true', ← Bool.not_eq_true, hbit m (by omega)]
    intro hs
    refine htip.not_split ?_
    rcases Nat.lt_or_ge (m + 1) k with hlt | hge
    · have := (node_of_split hs).split_above hlt hk.le
      rwa [hself] at this
    · obtain rfl : m + 1 = k := by omega
      rwa [hself] at hs

/-- `bd_malloc` returns, and either finds no block or puts a new block of the
size asked for in use. -/
theorem Represents.bdMalloc {n : ℕ} (h : Represents b L) (hn : n ≤ 2 ^ 63) :
    ∃ fk, firstk n = some fk ∧ n ≤ blkSize fk ∧ (bdMalloc b n = some (none, b) ∨
        ∃ i b', bdMalloc b n = some (some (start b.bdBase fk i), b') ∧
          b'.bdBase = b.bdBase ∧ (fk, i) ∉ L.used ∧
          ∃ L' : Layout top, Represents b' L' ∧ (∀ x, x ∈ L'.used ↔ x ∈ L.used ∨ x = (fk, i)) ∧
            (L.Merged → L'.Merged)) := by
  obtain ⟨fk, hfk, hle, -⟩ := firstk_eq_some hn
  refine ⟨fk, hfk, hle, ?_⟩
  rw [Buddy.bdMalloc, hfk]
  cases hfind : (List.range' fk (b.nsizes - fk)).find? fun k => !(b.bdSizes k).free.isEmpty with
  | none => exact .inl (by simp [hfind])
  | some k =>
      obtain ⟨d, rfl⟩ : ∃ d, k = fk + d := by
        obtain ⟨d, -, hd⟩ := List.mem_range'.mp (List.mem_of_find?_eq_some hfind)
        exact ⟨d, by omega⟩
      have hk : fk + d ≤ top := by
        obtain ⟨e, he, hd⟩ := List.mem_range'.mp (List.mem_of_find?_eq_some hfind)
        have := h.nsizes_eq
        omega
      obtain ⟨p, rest, hlist⟩ : ∃ p rest, (b.bdSizes (fk + d)).free = p :: rest :=
        List.exists_cons_of_ne_nil (by simpa using List.find?_some hfind)
      -- the block that is popped is a free one
      obtain ⟨i, rfl, hfree⟩ := ((h.free hk).mem_iff p).mp (by simp [hlist])
      have hidx := blkIndex_self (b := b) (h.tip_offset_lt hfree.tip)
      obtain ⟨j, hj, hnew, L', hL', hused, hmerged⟩ := (h.take hfree hlist).splitLoop (U := L.used)
        (fun x => Layout.mem_used_take) hfree.not_used
      refine .inr ⟨j, _, ?_, ?_, hnew, L', hL', hused, fun hm => hmerged hm.take⟩
      swap
      · exact bdBase_splitLoop _ _ _ _
      simp only [Option.bind_eq_bind, Option.bind_some, hfind, hlist, lstPop, hidx,
        Nat.add_sub_cancel_left, bdBase_modify]
      rw [bdBase_modify, bdBase_modify] at hj
      rw [hj]

/-- `bd_free` of a block in use returns, and takes the block out of use. In
particular it finds every buddy it merges with on the free list of its size. -/
theorem Represents.bdFree (h : Represents b L) (hu : (k, i) ∈ L.used) (hmeta : (0, 0) ∈ L.used)
    (hne : (k, i) ≠ (0, 0)) : ∃ b', bdFree b (start b.bdBase k i) = some b' ∧ b'.bdBase = b.bdBase ∧
      ∃ L' : Layout top, Represents b' L' ∧ (∀ x, x ∈ L'.used ↔ x ∈ L.used ∧ x ≠ (k, i)) ∧
        (L.Merged → L'.Merged) := by
  have hk := lt_top_of_used hu hmeta hne
  obtain ⟨b', hb', hrest⟩ := h.mergeLoop (Nat.add_sub_cancel' hk.le) hu hmeta hne
  refine ⟨b', ?_, hrest⟩
  rw [Buddy.bdFree, h.size hu hk, h.maxsize_eq]
  exact hb'

end Xv6.Buddy
