import Xv6.Buddy.Refine
import Xv6.Lib.Prog

/-!
`bd_init` of `kernel/buddy.c`: the bit arrays.

The arrays of all sizes lie one after the other in the first bytes of the
heap, so a bit past the end of one array is a bit of the next. They are
read and written here through pointers into memory. The sizes and indices
of the bits that `bd_init` reads and writes are recorded, which the code
does not do. Prints are left out.
-/

namespace Xv6.Buddy

open Lib Prog

/-! ### The model -/

/-- The two arrays of a size. -/
inductive Which where
  | alloc
  | split
deriving DecidableEq

/-- The static variables of the allocator while `bd_init` runs, and its
variable `p`. -/
structure Init where
  bdBase : ℕ
  nsizes : ℕ
  p : ℕ
  mem : ℕ → BitVec 8
  /-- `bd_sizes[k].alloc` and `bd_sizes[k].split` -/
  array : Which → ℕ → ℕ
  /-- `bd_sizes[k].free` -/
  free : ℕ → List ℕ
  /-- the bits that have been read or written -/
  touched : List (ℕ × ℕ)

/-- The state of the allocator for its other functions. -/
def Init.bd (s : Init) : Bd where
  nsizes := s.nsizes
  bdBase := s.bdBase
  bdSizes := fun k =>
    { free := s.free k
      alloc := fun j => s.mem (s.array .alloc k + j)
      split := fun j => s.mem (s.array .split k + j) }

abbrev InitProg : Type → Type := Prog String Init

/-- `ROUNDUP`, on 64-bit unsigned numbers. -/
def roundup (n sz : ℕ) : ℕ := ((n + (2 ^ 64 - 1)) % 2 ^ 64 / sz + 1) * sz % 2 ^ 64

/-- `NBLK(k)`. -/
def nblk (nsizes k : ℕ) : ℕ := (cint (2 ^ (nsizes - 1 - k) : ℕ)).toNat

def log2Loop : (fuel n k : ℕ) → ℕ
  | 0, _, k => k
  | fuel + 1, n, k => if 1 < n then log2Loop fuel (n / 2) (k + 1) else k

/-- `log2`: a 64-bit number is shifted down to 1 in fewer than 64 rounds. -/
def log2 (n : ℕ) : ℕ := log2Loop 64 n 0

def memset (ptr n : ℕ) : InitProg Unit := modify fun s =>
  { s with mem := fun a => if ptr ≤ a ∧ a < ptr + n then 0 else s.mem a }

/-- `bit_set` on the array `w` of size `k`. -/
def setBit (w : Which) (k index : ℕ) : InitProg Unit := modify fun s =>
  let a := s.array w k + index / 8
  { s with
    mem := Function.update s.mem a (s.mem a ||| bitMask index)
    touched := (k, index) :: s.touched }

/-- `bit_isset` on the array `alloc` of size `k`. -/
def allocIsset (k index : ℕ) : InitProg Bool := do
  let s ← get
  modify fun s => { s with touched := (k, index) :: s.touched }
  return bitIsset (s.bd.bdSizes k).alloc index

def push (k p : ℕ) : InitProg Unit := modify fun s =>
  { s with free := Function.update s.free k (lstPush (s.free k) p) }

/-- The first block of size `k` that does not contain `p`. -/
def blkIndexNext (b : Bd) (k p : ℕ) : ℕ :=
  let d := (p : ℤ) - b.bdBase
  let n := cint (d.tdiv (blkSize k))
  (if d.tmod (blkSize k) ≠ 0 then cint (n + 1) else n).toNat

def bdMark (start stop : ℕ) : InitProg Unit :=
  if start % leafSize ≠ 0 ∨ stop % leafSize ≠ 0 then fault "bd_mark"
  else do
    let s ← get
    forN s.nsizes fun k => do
      let bi := blkIndex s.bd k start
      let bj := blkIndexNext s.bd k stop
      forN (bj - bi) fun d => do
        if 0 < k then setBit .split k (bi + d)
        setBit .alloc k (bi + d)

def bdInitfreePair (k bi : ℕ) : InitProg ℤ := do
  let buddy := if bi % 2 = 0 then bi + 1 else bi - 1
  let x ← allocIsset k bi
  let y ← allocIsset k buddy
  if x ≠ y then do
    let z ← allocIsset k bi
    let s ← get
    if z then push k (addr s.bd k buddy) else push k (addr s.bd k bi)
    return cint (blkSize k)
  else return 0

/-- The loop of `bd_initfree` up to size `n`, with the bytes made free. -/
def initfreeLoop (bdLeft bdRight : ℕ) : ℕ → InitProg ℤ
  | 0 => return 0
  | k + 1 => do
      let free ← initfreeLoop bdLeft bdRight k
      let s ← get
      let left := blkIndexNext s.bd k bdLeft
      let right := blkIndex s.bd k bdRight
      let a ← bdInitfreePair k left
      if right ≤ left then return cint (free + a)
      else do
        let c ← bdInitfreePair k right
        return cint (cint (free + a) + c)

def bdInitfree (bdLeft bdRight : ℕ) : InitProg ℤ := do
  let s ← get
  initfreeLoop bdLeft bdRight s.bd.maxsize

def bdMarkDataStructures (p : ℕ) : InitProg ℤ := do
  let s ← get
  let bytes := cint ((p : ℤ) - s.bdBase)
  bdMark s.bdBase p
  return bytes

def bdMarkUnavailable (stop : ℕ) : InitProg ℤ := do
  let s ← get
  let unavailable := cint (s.bd.heapSize - ((stop : ℤ) - s.bdBase))
  let unavailable :=
    if 0 < unavailable then cint (roundup unavailable.toNat leafSize) else unavailable
  let bdEnd := ((s.bdBase : ℤ) + s.bd.heapSize - unavailable).toNat
  bdMark bdEnd (s.bdBase + s.bd.heapSize)
  return unavailable

/-- `nsizes` for the heap from `p` to `stop`. -/
def numSizes (p stop : ℕ) : ℕ :=
  let d := (stop : ℤ) - p
  let n := log2 (d.tdiv leafSize % 2 ^ 64).toNat + 1
  if (blkSize (n - 1) : ℤ) < d then n + 1 else n

/-- The bytes of a bit array of size `k`. -/
def arrayBytes (nsizes k : ℕ) : ℕ := roundup (nblk nsizes k) 8 / 8

/-- `sizeof(Sz_info)`: two links and two pointers. -/
def sizeofSzInfo : ℕ := 32

/-- Puts the array `w` of size `k` at `p` and clears it. -/
def placeArray (w : Which) (k : ℕ) : InitProg Unit := do
  let s ← get
  let sz := arrayBytes s.nsizes k
  modify fun s =>
    { s with array := Function.update s.array w (Function.update (s.array w) k s.p) }
  memset s.p sz
  modify fun s => { s with p := s.p + sz }

/-- The first part of `bd_init`, which lays out the allocator's own data. -/
def placeData (base stop : ℕ) : InitProg Unit := do
  let p := roundup base leafSize
  let n := numSizes p stop
  modify fun s => { s with bdBase := p, nsizes := n, p := p + sizeofSzInfo * n }
  memset p (sizeofSzInfo * n)
  forN n fun k => do
    modify fun s => { s with free := Function.update s.free k [] }
    placeArray .alloc k
  forN (n - 1) fun j => placeArray .split (j + 1)
  modify fun s => { s with p := roundup s.p leafSize }

def bdInit (base stop : ℕ) : InitProg Unit := do
  placeData base stop
  let s ← get
  let bytes ← bdMarkDataStructures s.p
  let unavailable ← bdMarkUnavailable stop
  let bdEnd := ((s.bdBase : ℤ) + s.bd.heapSize - unavailable).toNat
  let free ← bdInitfree s.p bdEnd
  if free ≠ s.bd.heapSize - bytes - unavailable then fault "bd_init: free mem"
  else return

/-! ### The arrays as sets of blocks -/

variable {s t : Init} {top k i : ℕ} {w : Which} {P P' : Which → ℕ → ℕ → Prop} {F : String → Prop}

/-- The arrays that there are in a heap of `2 ^ top` leaves. -/
def Has (top : ℕ) (w : Which) (k : ℕ) : Prop := k ≤ top ∧ (w = .split → 0 < k)

/-- The bits of the arrays are those in `P`, and no byte has bits of two
arrays. -/
structure Bits (s : Init) (top : ℕ) (P : Which → ℕ → ℕ → Prop) : Prop where
  marks : ∀ w k, Has top w k → Marks (fun j => s.mem (s.array w k + j)) (2 ^ (top - k)) (P w k)
  apart : ∀ w k w' k', Has top w k → Has top w' k' → (w, k) ≠ (w', k') →
    ∀ i < 2 ^ (top - k), ∀ j < 2 ^ (top - k'), s.array w k + i / 8 ≠ s.array w' k' + j / 8

/-- The two states differ in the bits only. -/
structure Same (s t : Init) : Prop where
  bdBase : t.bdBase = s.bdBase
  nsizes : t.nsizes = s.nsizes
  p : t.p = s.p
  array : t.array = s.array
  free : t.free = s.free

theorem Same.refl (s : Init) : Same s s := ⟨rfl, rfl, rfl, rfl, rfl⟩

theorem Same.trans {u : Init} (h : Same s t) (h' : Same t u) : Same s u :=
  ⟨h'.bdBase.trans h.bdBase, h'.nsizes.trans h.nsizes, h'.p.trans h.p, h'.array.trans h.array,
    h'.free.trans h.free⟩

/-- Only bits of the arrays have been read or written. -/
def InRange (top : ℕ) (s : Init) : Prop := ∀ x ∈ s.touched, x.1 ≤ top ∧ x.2 < 2 ^ (top - x.1)

theorem Bits.congr (h : Bits s top P)
    (hP : ∀ w k, Has top w k → ∀ i < 2 ^ (top - k), P' w k i ↔ P w k i) : Bits s top P' :=
  ⟨fun w k hk i hi => (h.marks w k hk i hi).trans (hP w k hk i hi).symm, h.apart⟩

theorem bitIsset_congr (array array' : ℕ → BitVec 8) (h : array (i / 8) = array' (i / 8)) :
    bitIsset array i = bitIsset array' i := by
  simp only [bitIsset, h]

/-- The arrays after a bit has been set. -/
theorem Bits.setBit (h : Bits s top P) (hk : Has top w k) (hi : i < 2 ^ (top - k)) :
    twp F (setBit w k i) (fun _ t =>
      Bits t top (fun w' k' j => P w' k' j ∨ (w', k') = (w, k) ∧ j = i) ∧ Same s t ∧
        (InRange top s → InRange top t)) s := by
  refine twp_modify.mpr ⟨⟨fun w' k' hk' => ?_, h.apart⟩, ⟨rfl, rfl, rfl, rfl, rfl⟩, fun hr x hx => ?_⟩
  · by_cases he : (w', k') = (w, k)
    · obtain ⟨rfl, rfl⟩ := Prod.mk.inj he
      have harray : (fun j => Function.update s.mem (s.array w' k' + i / 8)
          (s.mem (s.array w' k' + i / 8) ||| bitMask i) (s.array w' k' + j)) =
          bitSet (fun j => s.mem (s.array w' k' + j)) i := by
        funext j
        by_cases hj : j = i / 8
        · simp [bitSet, hj]
        · rw [bitSet, Function.update_of_ne hj, Function.update_of_ne (by omega)]
      simp only [harray]
      exact (h.marks w' k' hk').set fun j => by simp
    · -- the byte that changes is not in the other arrays
      intro j hj
      have hne := h.apart w' k' w k hk' hk he j hj i hi
      rw [bitIsset_congr _ (fun j => s.mem (s.array w' k' + j)) (Function.update_of_ne hne _ _),
        h.marks w' k' hk' j hj]
      simp [he]
  · rcases List.mem_cons.mp hx with rfl | hx
    · exact ⟨hk.1, hi⟩
    · exact hr x hx

/-- The blocks of size `k` from `bi` to `bj` are marked. -/
theorem Bits.markRange {bi bj : ℕ} (h : Bits s top P) (hk : k ≤ top) (hbj : bj ≤ 2 ^ (top - k)) :
    twp F (forN (bj - bi) fun d => do
        if 0 < k then Buddy.setBit .split k (bi + d)
        Buddy.setBit .alloc k (bi + d))
      (fun _ t => Bits t top (fun w' k' j => P w' k' j ∨ k' = k ∧ bi ≤ j ∧ j < bj) ∧ Same s t ∧
        (InRange top s → InRange top t)) s := by
  refine twp_forN (fun d t => Bits t top
    (fun w' k' j => P w' k' j ∨ k' = k ∧ bi ≤ j ∧ j < bi + d) ∧ Same s t ∧
      (InRange top s → InRange top t)) ⟨?_, Same.refl s, id⟩ ?_ ?_
  · exact h.congr fun w' k' _ j _ => by
      simp
  · rintro d t hd ⟨hbits, hsame, hr⟩
    have hi : bi + d < 2 ^ (top - k) := by omega
    refine twp_ite (fun hpos => ?_) fun hpos => ?_
    · refine twp_bind.mpr (twp_mono (hbits.setBit (w := .split) ⟨hk, fun _ => hpos⟩ hi) ?_)
      rintro _ u ⟨hbits, hsame', hr'⟩
      refine twp_mono (hbits.setBit (w := .alloc) ⟨hk, nofun⟩ hi) ?_
      rintro _ v ⟨hbits, hsame'', hr''⟩
      refine ⟨hbits.congr fun w' k' _ j _ => ?_, (hsame.trans hsame').trans hsame'',
        fun h => hr'' (hr' (hr h))⟩
      cases w' <;>
      · simp only [Prod.mk.injEq, reduceCtorEq, true_and, false_and, or_false, or_assoc]
        refine or_congr_right ?_
        omega
    · refine twp_mono (hbits.setBit (w := .alloc) ⟨hk, nofun⟩ hi) ?_
      rintro _ v ⟨hbits, hsame'', hr''⟩
      refine ⟨hbits.congr fun w' k' hk' j _ => ?_, hsame.trans hsame'', fun h => hr'' (hr h)⟩
      cases w' with
      | alloc =>
          simp only [Prod.mk.injEq, true_and, or_assoc]
          refine or_congr_right ?_
          omega
      | split =>
          have := hk'.2 rfl
          simp only [Prod.mk.injEq, reduceCtorEq, false_and, or_false]
          refine or_congr_right ?_
          omega
  · rintro t ⟨hbits, hsame, hr⟩
    refine ⟨hbits.congr fun w' k' _ j _ => or_congr_right ?_, hsame, hr⟩
    omega

/-! ### Marking a range of leaves -/

theorem start_zero (base a : ℕ) : start base 0 a = base + a * leafSize := by
  rw [start, blkSize, pow_zero, Nat.one_mul]

variable {a : ℕ}

theorem blkIndex_leaf {b : Bd} (ha : a * leafSize < 2 ^ 31) :
    blkIndex b k (b.bdBase + a * leafSize) = a / 2 ^ k := by
  rw [← start_zero, blkIndex_start (by rwa [blkSize, pow_zero, Nat.one_mul]), pow_zero, Nat.mul_one]

theorem add_pred_div (c : ℕ) {n : ℕ} (hn : 0 < n) :
    (c + (n - 1)) / n = c / n + if c % n = 0 then 0 else 1 := by
  rw [Nat.add_div hn, Nat.div_eq_of_lt (Nat.sub_lt hn Nat.one_pos),
    Nat.mod_eq_of_lt (Nat.sub_lt hn Nat.one_pos)]
  split_ifs <;> omega

theorem blkIndexNext_leaf {b : Bd} {c : ℕ} (hc : c ≤ 2 ^ 27) :
    blkIndexNext b k (b.bdBase + c * leafSize) = (c + (2 ^ k - 1)) / 2 ^ k := by
  have hd : ((b.bdBase + c * leafSize : ℕ) : ℤ) - b.bdBase = ((c * leafSize : ℕ) : ℤ) := by
    push_cast
    ring
  have hdiv : c * leafSize / blkSize k = c / 2 ^ k := by
    rw [blkSize, Nat.mul_div_mul_right _ _ (by decide)]
  have hmod : c * leafSize % blkSize k = c % 2 ^ k * leafSize := by
    rw [blkSize, Nat.mul_mod_mul_right]
  have hle : c / 2 ^ k ≤ c := Nat.div_le_self _ _
  simp only [blkIndexNext]
  rw [hd, ← Int.ofNat_tdiv, ← Int.ofNat_tmod, hdiv, hmod, cint_of_lt (by omega),
    add_pred_div c (Nat.two_pow_pos k)]
  by_cases hz : c % 2 ^ k = 0
  · rw [hz, Nat.zero_mul, if_neg (by simp), if_pos rfl, Int.toNat_natCast, Nat.add_zero]
  · have hne : ((c % 2 ^ k * leafSize : ℕ) : ℤ) ≠ 0 := by
      rw [Ne, Int.natCast_eq_zero, Nat.mul_eq_zero]
      simp [hz]
    rw [if_pos hne, if_neg hz, ← Nat.cast_succ, cint_of_lt (by omega), Int.toNat_natCast]

/-- The number of blocks that `c` leaves reach into. -/
theorem add_pred_div_le {c : ℕ} (hc : c ≤ 2 ^ top) (hk : k ≤ top) :
    (c + (2 ^ k - 1)) / 2 ^ k ≤ 2 ^ (top - k) := by
  have hpos := Nat.two_pow_pos k
  have hpow : 2 ^ top = 2 ^ (top - k) * 2 ^ k := by rw [← pow_add, Nat.sub_add_cancel hk]
  rw [Nat.div_le_iff_le_mul_add_pred hpos, Nat.mul_comm]
  omega

/-- `bd_mark` marks the blocks of all sizes that meet the range. -/
theorem Bits.bdMark {c : ℕ} (h : Bits s top P) (hn : s.nsizes = top + 1) (htop : top ≤ 27)
    (hbase : s.bdBase % leafSize = 0) (ha : a * leafSize < 2 ^ 31) (hc : c ≤ 2 ^ top) :
    twp F (bdMark (s.bdBase + a * leafSize) (s.bdBase + c * leafSize)) (fun _ t =>
      Bits t top (fun w k i => P w k i ∨ a / 2 ^ k ≤ i ∧ i < (c + (2 ^ k - 1)) / 2 ^ k) ∧
        Same s t ∧ (InRange top s → InRange top t)) s := by
  have halign : ∀ x, (s.bdBase + x * leafSize) % leafSize = 0 := fun x => by
    rw [Nat.add_mul_mod_self_right, hbase]
  rw [Buddy.bdMark, if_neg (by simp [halign])]
  refine twp_bind.mpr (twp_get.mpr ?_)
  rw [hn]
  refine twp_forN (fun m t => Bits t top
    (fun w k i => P w k i ∨ k < m ∧ a / 2 ^ k ≤ i ∧ i < (c + (2 ^ k - 1)) / 2 ^ k) ∧ Same s t ∧
      (InRange top s → InRange top t)) ⟨h.congr fun w k _ i _ => by simp, Same.refl s, id⟩ ?_ ?_
  · rintro m t hm ⟨hbits, hsame, hr⟩
    have hc27 : c ≤ 2 ^ 27 := hc.trans (Nat.pow_le_pow_right (by decide) htop)
    have hbi : blkIndex s.bd m (s.bdBase + a * leafSize) = a / 2 ^ m := blkIndex_leaf (b := s.bd) ha
    have hbj : blkIndexNext s.bd m (s.bdBase + c * leafSize) = (c + (2 ^ m - 1)) / 2 ^ m :=
      blkIndexNext_leaf (b := s.bd) hc27
    simp only [hbi, hbj]
    refine twp_mono (hbits.markRange (by omega) (add_pred_div_le hc (by omega))) ?_
    rintro _ u ⟨hbits, hsame', hr'⟩
    refine ⟨hbits.congr fun w k _ i _ => ?_, hsame.trans hsame', fun h => hr' (hr h)⟩
    rw [or_assoc]
    refine or_congr_right ?_
    by_cases hkm : k = m
    · subst hkm
      simp
    · simp only [hkm, false_and, or_false, and_congr_left_iff]
      omega
  · rintro t ⟨hbits, hsame, hr⟩
    refine ⟨hbits.congr fun w k hk i _ => or_congr_right ?_, hsame, hr⟩
    have := hk.1
    simp only [Nat.lt_succ_of_le this, true_and]

/-! ### The layout of the allocator's data -/

/-- The bytes of the first `m` arrays of sizes `k`, `k + 1`, … -/
def arraysBytes (nsizes k m : ℕ) : ℕ := ∑ j ∈ Finset.range m, arrayBytes nsizes (k + j)

theorem arraysBytes_succ (n k m : ℕ) :
    arraysBytes n k (m + 1) = arraysBytes n k m + arrayBytes n (k + m) :=
  Finset.sum_range_succ _ _

theorem arraysBytes_zero (n k : ℕ) : arraysBytes n k 0 = 0 := rfl

theorem arraysBytes_mono (n k : ℕ) : Monotone (arraysBytes n k) :=
  monotone_nat_of_le_succ fun m => by
    rw [arraysBytes_succ]
    exact Nat.le_add_right _ _

/-- The first `m` arrays `alloc` and `m'` arrays `split` are in place, from
`a` on. -/
structure Placed (a m m' : ℕ) (s : Init) : Prop where
  p : s.p = a + arraysBytes s.nsizes 0 m + arraysBytes s.nsizes 1 m'
  alloc : ∀ k < m, s.array .alloc k = a + arraysBytes s.nsizes 0 k
  split : ∀ k < m', s.array .split (k + 1) =
    a + arraysBytes s.nsizes 0 m + arraysBytes s.nsizes 1 k
  zero : ∀ x, a ≤ x → x < s.p → s.mem x = 0
  free : ∀ k < m, s.free k = []

/-- What the loops leave as it is. -/
structure Fixed (s t : Init) : Prop where
  bdBase : t.bdBase = s.bdBase
  nsizes : t.nsizes = s.nsizes
  touched : t.touched = s.touched

theorem twp_placeArray {R : Unit → Init → Prop} :
    twp F (placeArray w k) R s ↔ R () { s with
      array := Function.update s.array w (Function.update (s.array w) k s.p)
      mem := fun a => if s.p ≤ a ∧ a < s.p + arrayBytes s.nsizes k then 0 else s.mem a
      p := s.p + arrayBytes s.nsizes k } := by
  simp only [placeArray, memset, twp_bind, twp_get, twp_modify]

theorem Placed.alloc_loop {n : ℕ} (hp : s.p = a) : twp F (forN n fun k => do
        modify fun s => { s with free := Function.update s.free k [] }
        placeArray .alloc k) (fun _ t => Placed a n 0 t ∧ Fixed s t) s := by
  refine twp_forN (fun m t => Placed a m 0 t ∧ Fixed s t)
    ⟨⟨by simp [hp, arraysBytes_zero], nofun, nofun, fun x hx hlt => ?_, nofun⟩, rfl, rfl, rfl⟩ ?_
    fun t ht => ht
  · omega
  rintro m t hm ⟨h, hfix⟩
  simp only [twp_bind, twp_modify, twp_placeArray]
  have hsucc := arraysBytes_succ t.nsizes 0 m
  rw [Nat.zero_add] at hsucc
  have hp := h.p
  refine ⟨⟨?_, fun k hk => ?_, nofun, fun x hx hlt => ?_, fun k hk => ?_⟩,
    hfix.bdBase, hfix.nsizes, hfix.touched⟩
  · simp only [hp, hsucc, arraysBytes_zero]
    omega
  · simp only [Function.update_self]
    by_cases hkm : k = m
    · rw [hkm, Function.update_self, hp, arraysBytes_zero, Nat.add_zero]
    · rw [Function.update_of_ne hkm]
      exact h.alloc k (by omega)
  · simp only at hlt ⊢
    by_cases hx' : t.p ≤ x
    · rw [if_pos ⟨hx', hlt⟩]
    · rw [if_neg fun hc => hx' hc.1]
      exact h.zero x hx (by omega)
  · by_cases hkm : k = m
    · simp [hkm]
    · simp only [Function.update_of_ne hkm]
      exact h.free k (by omega)

theorem Placed.split_loop {n m : ℕ} (h : Placed a m 0 s) :
    twp F (forN n fun j => placeArray .split (j + 1)) (fun _ t => Placed a m n t ∧ Fixed s t) s := by
  refine twp_forN (fun n t => Placed a m n t ∧ Fixed s t) ⟨h, rfl, rfl, rfl⟩ ?_ fun t ht => ht
  rintro n t hn ⟨h, hfix⟩
  rw [twp_placeArray]
  have hsucc := arraysBytes_succ t.nsizes 1 n
  rw [Nat.add_comm 1 n] at hsucc
  have hp := h.p
  refine ⟨⟨?_, fun k hk => ?_, fun k hk => ?_, fun x hx hlt => ?_, h.free⟩,
    hfix.bdBase, hfix.nsizes, hfix.touched⟩
  · simp only [hp, hsucc]
    omega
  · simp only [Function.update_of_ne (show Which.alloc ≠ Which.split by decide)]
    exact h.alloc k hk
  · simp only [Function.update_self]
    by_cases hkn : k = n
    · rw [hkn, Function.update_self, hp]
    · rw [Function.update_of_ne (by omega)]
      exact h.split k (by omega)
  · simp only at hlt ⊢
    by_cases hx' : t.p ≤ x
    · rw [if_pos ⟨hx', hlt⟩]
    · rw [if_neg fun hc => hx' hc.1]
      exact h.zero x hx (by omega)

theorem arrayBytes_eq (htop : top ≤ 27) (k : ℕ) :
    arrayBytes (top + 1) k = (2 ^ (top - k) + 7) / 8 := by
  have hle : 2 ^ (top - k) ≤ 2 ^ 27 := Nat.pow_le_pow_right (by decide) (by omega)
  have hpos : 0 < 2 ^ (top - k) := Nat.two_pow_pos _
  have hnblk : nblk (top + 1) k = 2 ^ (top - k) := by
    rw [nblk, Nat.add_sub_cancel, cint_of_lt (by omega), Int.toNat_natCast]
  rw [arrayBytes, hnblk]
  generalize 2 ^ (top - k) = n at hle hpos ⊢
  rw [roundup]
  omega

theorem div_eight_lt_arrayBytes (htop : top ≤ 27) (hi : i < 2 ^ (top - k)) :
    i / 8 < arrayBytes (top + 1) k := by
  rw [arrayBytes_eq htop]
  omega

/-- The byte of a bit of the arrays, and where its array ends. -/
theorem Placed.address (h : Placed a (top + 1) top s) (hn : s.nsizes = top + 1)
    (htop : top ≤ 27) (hk : Has top w k) (hi : i < 2 ^ (top - k)) :
    ∃ j lo hi, s.array w k = lo ∧ lo + i / 8 < hi ∧
      (w = .alloc ∧ j = k ∧ lo = a + arraysBytes (top + 1) 0 j ∧
          hi = a + arraysBytes (top + 1) 0 (j + 1) ∨
        w = .split ∧ j + 1 = k ∧ lo = a + arraysBytes (top + 1) 0 (top + 1) + arraysBytes (top + 1) 1 j ∧
          hi = a + arraysBytes (top + 1) 0 (top + 1) + arraysBytes (top + 1) 1 (j + 1)) := by
  have hbyte := div_eight_lt_arrayBytes htop hi
  cases w with
  | alloc =>
      have hsucc := arraysBytes_succ (top + 1) 0 k
      rw [Nat.zero_add] at hsucc
      have haddr := h.alloc k (Nat.lt_succ_of_le hk.1)
      rw [hn] at haddr
      exact ⟨k, _, _, haddr, by omega, .inl ⟨rfl, rfl, rfl, rfl⟩⟩
  | split =>
      obtain ⟨j, rfl⟩ := Nat.exists_eq_succ_of_ne_zero (Nat.pos_iff_ne_zero.mp (hk.2 rfl))
      have hsucc := arraysBytes_succ (top + 1) 1 j
      rw [Nat.add_comm 1 j] at hsucc
      have haddr := h.split j hk.1
      rw [hn] at haddr
      exact ⟨j, _, _, haddr, by simp only [Nat.succ_eq_add_one] at hbyte; omega,
        .inr ⟨rfl, rfl, rfl, rfl⟩⟩

/-- When the arrays are in place, all their bits are clear. -/
theorem Placed.bits (h : Placed a (top + 1) top s) (hn : s.nsizes = top + 1)
    (htop : top ≤ 27) : Bits s top fun _ _ _ => False := by
  have hp := h.p
  rw [hn] at hp
  refine ⟨fun w k hk i hi => ?_, fun w k w' k' hk hk' hne i hi i' hi' => ?_⟩
  · have hzero : s.mem (s.array w k + i / 8) = 0 := by
      obtain ⟨j, lo, hi, rfl, hlt, hcase⟩ := h.address hn htop hk hi
      have hmono : w = .alloc → arraysBytes (top + 1) 0 (j + 1) ≤ arraysBytes (top + 1) 0 (top + 1) :=
        fun hw => arraysBytes_mono _ _ (by
          have := hk.1
          rcases hcase with hc | hc
          · omega
          · exact absurd (hw.symm.trans hc.1) (by decide))
      have hmono' : w = .split → arraysBytes (top + 1) 1 (j + 1) ≤ arraysBytes (top + 1) 1 top :=
        fun hw => arraysBytes_mono _ _ (by
          have := hk.1
          rcases hcase with hc | hc
          · exact absurd (hw.symm.trans hc.1) (by decide)
          · omega)
      refine h.zero _ ?_ ?_
      · rcases hcase with hc | hc <;> omega
      · rcases hcase with hc | hc
        · have := hmono hc.1
          omega
        · have := hmono' hc.1
          omega
    have hclear : bitIsset (fun j => s.mem (s.array w k + j)) i = false := by
      rw [bitIsset_eq]
      simp [hzero]
    simp [hclear]
  · obtain ⟨j, lo, hi₁, rfl, hlt, hcase⟩ := h.address hn htop hk hi
    obtain ⟨j', lo', hi₂, rfl, hlt', hcase'⟩ := h.address hn htop hk' hi'
    have hm := fun n => @arraysBytes_mono (top + 1) n (j + 1) j'
    have hm' := fun n => @arraysBytes_mono (top + 1) n (j' + 1) j
    have htop₁ := @arraysBytes_mono (top + 1) 0 (j + 1) (top + 1)
    have htop₂ := @arraysBytes_mono (top + 1) 0 (j' + 1) (top + 1)
    have hkt := hk.1
    have hkt' := hk'.1
    rcases hcase with ⟨rfl, rfl, hlo, hhi⟩ | ⟨rfl, rfl, hlo, hhi⟩ <;>
    rcases hcase' with ⟨rfl, rfl, hlo', hhi'⟩ | ⟨rfl, rfl, hlo', hhi'⟩
    · have hjj : j ≠ j' := fun he => hne (by rw [he])
      rcases Nat.lt_or_gt_of_ne hjj with hlt₁ | hlt₁
      · have := hm 0 hlt₁
        omega
      · have := hm' 0 hlt₁
        omega
    · have := htop₁ (by omega)
      omega
    · have := htop₂ (by omega)
      omega
    · have hjj : j ≠ j' := fun he => hne (by rw [he])
      rcases Nat.lt_or_gt_of_ne hjj with hlt₁ | hlt₁
      · have := hm 1 hlt₁
        omega
      · have := hm' 1 hlt₁
        omega

/-! ### Sizes -/

theorem log2Loop_spec (fuel : ℕ) {n : ℕ} (k : ℕ) (hpos : 0 < n) (hn : n < 2 ^ fuel) :
    ∃ m, log2Loop fuel n k = k + m ∧ 2 ^ m ≤ n ∧ n < 2 ^ (m + 1) := by
  induction fuel generalizing n k with
  | zero =>
      rw [pow_zero] at hn
      omega
  | succ fuel ih =>
      rw [log2Loop]
      split
      · rw [pow_succ] at hn
        obtain ⟨m, hm, hle, hlt⟩ := ih (n := n / 2) (k + 1) (by omega) (by omega)
        refine ⟨m + 1, by omega, ?_, ?_⟩
        · rw [pow_succ]
          omega
        · rw [pow_succ]
          omega
      · exact ⟨0, rfl, by omega, by omega⟩

/-- The heap is the least one that has room for the memory. -/
theorem numSizes_spec {p stop : ℕ} (hle : p + leafSize ≤ stop) (hlt : stop - p < 2 ^ 31) :
    ∃ top, numSizes p stop = top + 1 ∧ top ≤ 27 ∧ stop - p ≤ blkSize top ∧
      blkSize top < 2 * (stop - p) := by
  obtain ⟨S, rfl⟩ := Nat.exists_eq_add_of_le (Nat.le_of_add_right_le hle)
  rw [Nat.add_sub_cancel_left] at hlt ⊢
  have hS : 16 ≤ S := by
    simp only [leafSize] at hle
    omega
  have hquot : S / leafSize = S / 16 := rfl
  have hd : ((p + S : ℕ) : ℤ) - p = (S : ℤ) := by
    push_cast
    ring
  have harg : (((S : ℤ).tdiv leafSize) % 2 ^ 64).toNat = S / leafSize := by
    rw [← Int.ofNat_tdiv, hquot]
    omega
  obtain ⟨m, hm, hpow, hpow'⟩ := log2Loop_spec 64 (n := S / leafSize) 0 (by omega)
    (by omega)
  rw [Nat.zero_add] at hm
  have hlow : blkSize m ≤ S := by
    rw [blkSize]
    exact (Nat.le_div_iff_mul_le (by decide)).mp hpow
  have hhigh : S < blkSize (m + 1) := by
    rw [blkSize]
    exact (Nat.div_lt_iff_lt_mul (by decide)).mp hpow'
  have hm26 : m ≤ 26 := by
    by_contra hm26
    have : blkSize 27 ≤ blkSize m := Nat.mul_le_mul_right _ (Nat.pow_le_pow_right (by decide) (by omega))
    rw [show blkSize 27 = 2 ^ 31 by decide] at this
    omega
  simp only [numSizes, hd, harg, log2, hm, Nat.add_sub_cancel, Nat.cast_lt]
  split
  · refine ⟨m + 1, rfl, by omega, hhigh.le, ?_⟩
    rw [blkSize_succ]
    omega
  · exact ⟨m, rfl, by omega, by omega, by omega⟩

/-- The end of the arrays. -/
def metaEnd (p n : ℕ) : ℕ := p + sizeofSzInfo * n + arraysBytes n 0 n + arraysBytes n 1 (n - 1)

/-- What the first part of `bd_init` leaves. -/
structure Laid (base stop top : ℕ) (s t : Init) : Prop where
  bdBase : t.bdBase = roundup base leafSize
  nsizes : t.nsizes = top + 1
  p : t.p = roundup (metaEnd (roundup base leafSize) (top + 1)) leafSize
  bits : Bits t top fun _ _ _ => False
  free : ∀ k ≤ top, t.free k = []
  touched : t.touched = s.touched

theorem twp_placeData {base stop : ℕ} (hn : numSizes (roundup base leafSize) stop = top + 1)
    (htop : top ≤ 27) : twp F (placeData base stop) (fun _ t => Laid base stop top s t) s := by
  simp only [placeData, memset, twp_bind, twp_modify, hn, Nat.add_sub_cancel]
  refine twp_mono (Placed.alloc_loop rfl) ?_
  rintro _ t ⟨hplaced, hfix⟩
  refine twp_mono hplaced.split_loop ?_
  rintro _ u ⟨hplaced, hfix'⟩
  have hnu : u.nsizes = top + 1 := hfix'.nsizes.trans hfix.nsizes
  have hbits := hplaced.bits hnu htop
  refine ⟨hfix'.bdBase.trans hfix.bdBase, hnu, ?_, ⟨hbits.marks, hbits.apart⟩,
    fun k hk => hplaced.free k (Nat.lt_succ_of_le hk), hfix'.touched.trans hfix.touched⟩
  simp only [hplaced.p, hnu, metaEnd, Nat.add_sub_cancel]

end Xv6.Buddy
