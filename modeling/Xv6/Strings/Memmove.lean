import Xv6.Lib.Copying

/-!
`memmove` of the kernel (`kernel/string.c`) and of user programs
(`user/ulib.c`).

The kernel copies downwards only if the destination starts inside the
source; the user library does so whenever it does not start below it. The
kernel's count is a `uint`, that of the library an `int`.
-/

namespace Xv6.Strings

open Lib

/-- A pointer. -/
abbrev Addr : Type := BitVec 64

abbrev Mem : Type := Addr → BitVec 8

/-- The kernel's `memmove`. -/
def kernelMemmove (dst src : Addr) (n : BitVec 32) (m : Mem) : Addr × Mem :=
  if src < dst ∧ src + n.setWidth 64 > dst then
    (dst, copyDown (dst + n.setWidth 64) (src + n.setWidth 64) n.toNat m)
  else (dst, copyUp dst src n.toNat m)

/-- The user library's `memmove`. -/
def userMemmove (vdst vsrc : Addr) (n : BitVec 32) (m : Mem) : Addr × Mem :=
  if vsrc > vdst then (vdst, copyUp vdst vsrc n.toInt.toNat m)
  else (vdst, copyDown (vdst + n.signExtend 64) (vsrc + n.signExtend 64) n.toInt.toNat m)

/-- The `n` bytes at `src` before are those at `dst` now, and no other byte
has changed. -/
structure Copies (dst src : Addr) (n : ℕ) (m m' : Mem) : Prop where
  inside : ∀ i < n, m' (dst + BitVec.ofNat 64 i) = m (src + BitVec.ofNat 64 i)
  outside : ∀ a, (∀ i < n, a ≠ dst + BitVec.ofNat 64 i) → m' a = m a

variable {dst src : Addr} {n : BitVec 32} {m : Mem}

theorem copies_copied {n : ℕ} (hn : n ≤ 2 ^ 64) : Copies dst src n m (copied dst src n m) where
  inside := fun _ hi => copied_add hi hn
  outside := fun a ha => copied_of_not (Nat.le_of_not_lt fun hlt =>
    ha _ hlt ((eq_add_ofNat_iff (by omega)).mpr rfl))

theorem setWidth_eq (n : BitVec 32) : n.setWidth 64 = BitVec.ofNat 64 n.toNat := by
  apply BitVec.eq_of_toNat_eq
  simp

theorem signExtend_eq (h : 0 ≤ n.toInt) : n.signExtend 64 = BitVec.ofNat 64 n.toNat := by
  rw [BitVec.signExtend_eq_setWidth_of_msb_false (by simpa [BitVec.msb_eq_toInt] using h),
    setWidth_eq]

theorem kernelMemmove_eq (hdst : dst.toNat + n.toNat ≤ 2 ^ 64)
    (hsrc : src.toNat + n.toNat ≤ 2 ^ 64) :
    kernelMemmove dst src n m = (dst, copied dst src n.toNat m) := by
  rw [kernelMemmove, setWidth_eq]
  split_ifs with hover
  · have hlt := hover.1
    rw [copyDown_eq (by omega) (.inr (by bv_omega))]
  · rw [copyUp_eq (by omega)]
    by_cases heq : dst = src
    · exact .inl heq
    · refine .inr ?_
      by_cases hlt : src < dst
      · -- the range of the source ends before the end of memory, as it is not the upper one
        have hend : ¬ src + BitVec.ofNat 64 n.toNat > dst := fun h => hover ⟨hlt, h⟩
        bv_omega
      · bv_omega

theorem userMemmove_eq (hpos : 0 ≤ n.toInt) (hdst : dst.toNat + n.toNat ≤ 2 ^ 64)
    (hsrc : src.toNat + n.toNat ≤ 2 ^ 64) :
    userMemmove dst src n m = (dst, copied dst src n.toNat m) := by
  have hcount : n.toInt.toNat = n.toNat := by
    rw [BitVec.toInt_eq_toNat_of_msb (by simpa [BitVec.msb_eq_toInt] using hpos)]
    rfl
  rw [userMemmove, signExtend_eq hpos, hcount]
  split_ifs with hbelow
  · rw [copyUp_eq (by omega) (.inr (by bv_omega))]
  · rw [copyDown_eq (by omega)]
    by_cases heq : dst = src
    · exact .inl heq
    · exact .inr (by bv_omega)

/-- **Both copy, whatever the overlap.** -/
theorem memmove_copies (dst src : Addr) (n : BitVec 32) (m : Mem)
    (hdst : dst.toNat + n.toNat ≤ 2 ^ 64) (hsrc : src.toNat + n.toNat ≤ 2 ^ 64) :
    Copies dst src n.toNat m (kernelMemmove dst src n m).2 ∧
      (0 ≤ n.toInt → Copies dst src n.toNat m (userMemmove dst src n m).2 ∧
        userMemmove dst src n m = kernelMemmove dst src n m) := by
  rw [kernelMemmove_eq hdst hsrc]
  refine ⟨copies_copied (by omega), fun hpos => ?_⟩
  rw [userMemmove_eq hpos hdst hsrc]
  exact ⟨copies_copied (by omega), rfl⟩

/-- Four bytes are moved up by one, to the end of memory. -/
theorem memmove_copies_top :
    Copies 0xfffffffffffffffc 0xfffffffffffffffb 4 (fun a => a.setWidth 8)
        (userMemmove 0xfffffffffffffffc 0xfffffffffffffffb 4 fun a => a.setWidth 8).2 ∧
      (userMemmove 0xfffffffffffffffc 0xfffffffffffffffb 4 fun a => a.setWidth 8).2
        0xffffffffffffffff = 0xfe := by
  have hcopies := ((memmove_copies 0xfffffffffffffffc 0xfffffffffffffffb 4 (fun a => a.setWidth 8)
    (by decide) (by decide)).2 (by decide)).1
  exact ⟨hcopies, (hcopies.inside 3 (by decide)).trans (by decide)⟩

end Xv6.Strings
