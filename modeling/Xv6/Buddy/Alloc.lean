import Xv6.Param

/-!
The buddy allocator (`kernel/buddy.c`).

For every size `k` the allocator has a free list and two bit arrays with
one bit per block of `2 ^ k` leaves: `alloc` for the blocks that are
handed out or split, `split` for those that are split. A free list is the
list of the addresses on it, front first; the links themselves are in
`kernel/list.c`. Every function runs under the allocator's lock, so that
calls are steps.

Addresses are natural numbers. Offsets and block indices go through the
C type `int`, as in the source.
-/

namespace Xv6.Buddy

/-- `LEAF_SIZE`. -/
abbrev leafSize : ℕ := 16

/-- `BLK_SIZE(k)`. -/
def blkSize (k : ℕ) : ℕ := 2 ^ k * leafSize

/-! ### Bit arrays -/

/-- The mask of the bit `index` in its byte. -/
def bitMask (index : ℕ) : BitVec 8 := 1#8 <<< (index % 8)

def bitIsset (array : ℕ → BitVec 8) (index : ℕ) : Bool :=
  let b := array (index / 8)
  let m := bitMask index
  b &&& m == m

def bitSet (array : ℕ → BitVec 8) (index : ℕ) : ℕ → BitVec 8 :=
  Function.update array (index / 8) (array (index / 8) ||| bitMask index)

def bitClear (array : ℕ → BitVec 8) (index : ℕ) : ℕ → BitVec 8 :=
  Function.update array (index / 8) (array (index / 8) &&& ~~~bitMask index)

/-! ### Lists -/

/-- The front of a list and the rest; `lst_pop` panics on an empty list. -/
def lstPop : List ℕ → Option (ℕ × List ℕ)
  | [] => none
  | p :: l => some (p, l)

def lstPush (l : List ℕ) (p : ℕ) : List ℕ := p :: l

/-- Unlinks `e`. When `e` is not on the list, `lst_remove` follows links
that are not there; the model then has no result. -/
def lstRemove (l : List ℕ) (e : ℕ) : Option (List ℕ) :=
  if e ∈ l then some (l.erase e) else none

/-! ### The allocator -/

/-- `struct sz_info`. -/
structure SzInfo where
  free : List ℕ
  alloc : ℕ → BitVec 8
  split : ℕ → BitVec 8

/-- The static variables of the allocator. -/
structure Bd where
  nsizes : ℕ
  bdSizes : ℕ → SzInfo
  bdBase : ℕ

namespace Bd

/-- `MAXSIZE`. -/
def maxsize (b : Bd) : ℕ := b.nsizes - 1

/-- `HEAP_SIZE`. -/
def heapSize (b : Bd) : ℕ := blkSize b.maxsize

/-- Changes the entry of size `k`. -/
def modify (b : Bd) (k : ℕ) (f : SzInfo → SzInfo) : Bd :=
  { b with bdSizes := Function.update b.bdSizes k (f (b.bdSizes k)) }

end Bd

/-- Conversion to the 32-bit type `int`. -/
def cint (x : ℤ) : ℤ := x.bmod (2 ^ 32)

/-- The loop of `firstk`, in 64-bit arithmetic. -/
def firstkLoop (n : ℕ) : (fuel k size : ℕ) → Option ℕ
  | 0, _, _ => none
  | fuel + 1, k, size =>
      if size < n then firstkLoop n fuel (k + 1) (size * 2 % 2 ^ 64) else some k

/-- The first `k` such that a block of size `k` has `n` bytes. After sixty
rounds `size` has wrapped to zero and stays there: without a result by
then the loop does not end. -/
def firstk (n : ℕ) : Option ℕ := firstkLoop n 64 0 leafSize

variable (b : Bd)

/-- The index of the block of size `k` that holds the address `p`. -/
def blkIndex (k p : ℕ) : ℕ :=
  let n := cint ((p : ℤ) - b.bdBase)
  (cint (n.tdiv (blkSize k))).toNat

/-- The address of the block `bi` of size `k`. -/
def addr (k bi : ℕ) : ℕ :=
  let n := cint ((bi * blkSize k : ℕ) : ℤ)
  (b.bdBase + n).toNat

/-- One round of the loop of `bd_malloc` that splits: marks the block of size
`k` at `p` as split and its left half as allocated, and lists the other. -/
def splitBlock (k p : ℕ) : Bd :=
  let q := p + blkSize (k - 1)
  let b₁ := b.modify k fun s => { s with split := bitSet s.split (blkIndex b k p) }
  let b₂ := b₁.modify (k - 1) fun s => { s with alloc := bitSet s.alloc (blkIndex b (k - 1) p) }
  b₂.modify (k - 1) fun s => { s with free := lstPush s.free q }

/-- Splits the block at `p` from size `fk + d` down to size `fk`. -/
def splitLoop (p fk : ℕ) (b : Bd) : ℕ → Bd
  | 0 => b
  | d + 1 => splitLoop p fk (splitBlock b (fk + d + 1) p) d

/-- Allocates `nbytes`. The inner result is the address of the block, or
`none` for the null pointer; without an outer result the call does not
return. -/
def bdMalloc (nbytes : ℕ) : Option (Option ℕ × Bd) := do
  let fk ← firstk nbytes
  match (List.range' fk (b.nsizes - fk)).find? fun k => !(b.bdSizes k).free.isEmpty with
  | none => some (none, b)
  | some k =>
      let (p, rest) ← lstPop (b.bdSizes k).free
      let b₁ := b.modify k fun s => { s with free := rest }
      let b₂ := b₁.modify k fun s => { s with alloc := bitSet s.alloc (blkIndex b k p) }
      some (some p, splitLoop p fk b₂ (k - fk))

/-- The size of the block that `p` points to. The loop runs up to
`k = MAXSIZE` and looks at `bd_sizes[k+1]`; when no earlier round returns,
its last one reads past the array, and the model has no result. -/
def size (p : ℕ) : Option ℕ :=
  (List.range b.maxsize).find? fun k =>
    bitIsset (b.bdSizes (k + 1)).split (blkIndex b (k + 1) p)

/-- The block at `p` of size `k`, just marked free, is merged with its free
buddy: the buddy leaves its list, and the parent is no longer split. The
result is the address of the parent. -/
def mergeBlock (k p buddy : ℕ) : Option (ℕ × Bd) := do
  let q := addr b k buddy
  let l ← lstRemove (b.bdSizes k).free q
  let b₁ := b.modify k fun s => { s with free := l }
  let p := if buddy % 2 = 0 then q else p
  some (p, b₁.modify (k + 1) fun s =>
    { s with split := bitClear s.split (blkIndex b (k + 1) p) })

/-- The loop of `bd_free` from size `k` on, with `d` sizes left to merge. -/
def mergeLoop (b : Bd) : (d k p : ℕ) → Option Bd
  | 0, k, p => some (b.modify k fun s => { s with free := lstPush s.free p })
  | d + 1, k, p =>
      let bi := blkIndex b k p
      let buddy := if bi % 2 = 0 then bi + 1 else bi - 1
      let b₁ := b.modify k fun s => { s with alloc := bitClear s.alloc bi }
      if bitIsset (b₁.bdSizes k).alloc buddy then
        some (b₁.modify k fun s => { s with free := lstPush s.free p })
      else do
        let (p, b₂) ← mergeBlock b₁ k p buddy
        mergeLoop b₂ d (k + 1) p

/-- Frees the block at `p`. -/
def bdFree (p : ℕ) : Option Bd := do
  let k ← size b p
  mergeLoop b (b.maxsize - k) k p

/-! ### Bits and sizes -/

section Bits

variable (array : ℕ → BitVec 8) (i j : ℕ)

theorem bitMask_eq : bitMask i = BitVec.twoPow 8 (i % 8) := by
  rw [bitMask, BitVec.twoPow_eq]

theorem bitIsset_eq : bitIsset array i = (array (i / 8)).getLsbD (i % 8) := by
  have hi : i % 8 < 8 := Nat.mod_lt _ (by decide)
  have hne : BitVec.twoPow 8 (i % 8) ≠ 0 := by
    intro h
    have := congrArg (fun x => x.getLsbD (i % 8)) h
    simp [hi] at this
  rw [bitIsset, bitMask_eq, BitVec.and_twoPow]
  cases hb : (array (i / 8)).getLsbD (i % 8)
  · simpa using fun h => hne h.symm
  · simp

theorem index_eq_iff : i = j ↔ i / 8 = j / 8 ∧ i % 8 = j % 8 := by omega

@[simp] theorem bitIsset_bitSet :
    bitIsset (bitSet array i) j = (decide (j = i) || bitIsset array j) := by
  have hi : i % 8 < 8 := Nat.mod_lt _ (by decide)
  rw [bitIsset_eq, bitIsset_eq, bitSet, bitMask_eq]
  by_cases hbyte : j / 8 = i / 8
  · rw [hbyte, Function.update_self, BitVec.getLsbD_or, BitVec.getLsbD_twoPow, Bool.or_comm]
    congr 1
    rw [Bool.eq_iff_iff]
    simp only [hi, decide_true, Bool.true_and, decide_eq_true_eq, index_eq_iff j i, hbyte,
      true_and]
    exact eq_comm
  · rw [Function.update_of_ne hbyte]
    have : j ≠ i := fun h => hbyte (by rw [h])
    simp [this]

@[simp] theorem bitIsset_bitClear :
    bitIsset (bitClear array i) j = (!decide (j = i) && bitIsset array j) := by
  have hi : i % 8 < 8 := Nat.mod_lt _ (by decide)
  have hj : j % 8 < 8 := Nat.mod_lt _ (by decide)
  rw [bitIsset_eq, bitIsset_eq, bitClear, bitMask_eq]
  by_cases hbyte : j / 8 = i / 8
  · rw [hbyte, Function.update_self, BitVec.getLsbD_and, BitVec.getLsbD_not,
      BitVec.getLsbD_twoPow, Bool.and_comm]
    congr 1
    rw [Bool.eq_iff_iff]
    simp only [hi, hj, decide_true, Bool.true_and, Bool.not_eq_true', decide_eq_false_iff_not,
      index_eq_iff j i, hbyte, true_and]
    exact not_congr eq_comm
  · rw [Function.update_of_ne hbyte]
    have : j ≠ i := fun h => hbyte (by rw [h])
    simp [this]

end Bits

theorem blkSize_pos (k : ℕ) : 0 < blkSize k := Nat.mul_pos (Nat.two_pow_pos k) (by decide)

theorem blkSize_succ (k : ℕ) : blkSize (k + 1) = 2 * blkSize k := by
  rw [blkSize, blkSize, pow_succ]
  ring

theorem blkSize_eq_pow (k : ℕ) : blkSize k = 2 ^ (k + 4) := by
  rw [blkSize, pow_add]
  norm_num

theorem cint_of_lt {n : ℕ} (h : n < 2 ^ 31) : cint n = n := by
  rw [cint, Int.bmod_eq_of_le] <;> omega

/-- The result of `firstk`: the least block size that has room. -/
theorem firstk_eq_some {n : ℕ} (hn : n ≤ 2 ^ 63) :
    ∃ k, firstk n = some k ∧ n ≤ blkSize k ∧ ∀ j < k, blkSize j < n := by
  -- every round but the last leaves `size` below `n`, so that doubling it does not wrap
  suffices h : ∀ fuel k, 60 ≤ fuel + k → k < 60 → (∀ j < k, blkSize j < n) →
      ∃ m, firstkLoop n fuel k (blkSize k) = some m ∧ n ≤ blkSize m ∧ ∀ j < m, blkSize j < n from
    h 64 0 (by decide) (by decide) (by omega)
  intro fuel
  induction fuel with
  | zero => intro k h60 hk; omega
  | succ fuel ih =>
      intro k h60 hk hbelow
      rw [firstkLoop]
      by_cases hlt : blkSize k < n
      · rw [if_pos hlt]
        have hk59 : k ≠ 59 := by
          rintro rfl
          rw [blkSize_eq_pow] at hlt
          omega
        have hwrap : blkSize k * 2 % 2 ^ 64 = blkSize (k + 1) := by
          rw [blkSize_succ, Nat.mul_comm]
          exact Nat.mod_eq_of_lt (by omega)
        rw [hwrap]
        refine ih (k + 1) (by omega) (by omega) fun j hj => ?_
        rcases Nat.lt_succ_iff_lt_or_eq.mp hj with hj | rfl
        · exact hbelow j hj
        · exact hlt
      · rw [if_neg hlt]
        exact ⟨k, rfl, Nat.le_of_not_lt hlt, hbelow⟩

end Xv6.Buddy
