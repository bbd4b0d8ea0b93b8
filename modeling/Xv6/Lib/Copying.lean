import Mathlib

/-!
Copying a range of memory cell by cell.

Addresses are bit vectors, so that a range may end where the address space
does, and the distance `a - d` says where in the range from `d` on the
address `a` is. Going up is right unless the destination starts inside
the source, going down unless the source starts inside the destination.
-/

namespace Xv6.Lib

variable {w : ℕ} {β : Type*}

/-- Copies `n` cells, the first one first. -/
def copyUp (d s : BitVec w) : ℕ → (BitVec w → β) → BitVec w → β
  | 0, m => m
  | n + 1, m => copyUp (d + 1) (s + 1) n (Function.update m d (m s))

/-- Copies the `n` cells before the two addresses, the last one first. -/
def copyDown (d s : BitVec w) : ℕ → (BitVec w → β) → BitVec w → β
  | 0, m => m
  | n + 1, m => copyDown (d - 1) (s - 1) n (Function.update m (d - 1) (m (s - 1)))

/-- The memory with the cells from `s` on also in the range from `d` on. -/
def copied (d s : BitVec w) (n : ℕ) (m : BitVec w → β) : BitVec w → β := fun a =>
  if (a - d).toNat < n then m (s + (a - d)) else m a

variable {d s a : BitVec w} {n : ℕ} {m : BitVec w → β}

theorem copied_zero : copied d s 0 m = m := by
  funext a
  simp [copied]

/-- In the range. -/
theorem copied_add {i : ℕ} (hi : i < n) (hn : n ≤ 2 ^ w) :
    copied d s n m (d + BitVec.ofNat w i) = m (s + BitVec.ofNat w i) := by
  rw [copied, add_sub_cancel_left, if_pos]
  rw [BitVec.toNat_ofNat, Nat.mod_eq_of_lt (by omega)]
  exact hi

/-- Outside of it. -/
theorem copied_of_not (h : n ≤ (a - d).toNat) : copied d s n m a = m a :=
  if_neg (Nat.not_lt.mpr h)

theorem toNat_sub_one {x : BitVec w} (h : x ≠ 0) : (x - 1).toNat = x.toNat - 1 := by
  have hlt := x.isLt
  have hpos : 0 < x.toNat := Nat.pos_of_ne_zero fun h0 => h (BitVec.eq_of_toNat_eq h0)
  have hone : (1 : BitVec w).toNat = 1 :=
    (BitVec.toNat_ofNat 1 w).trans (Nat.mod_eq_of_lt (by omega))
  rw [BitVec.toNat_sub, hone, show 2 ^ w - 1 + x.toNat = 2 ^ w + (x.toNat - 1) by omega,
    Nat.add_mod_left, Nat.mod_eq_of_lt (by omega)]

/-- Before the first cell is far after it. -/
theorem not_toNat_neg_one_lt (hn : n < 2 ^ w) : ¬ (0 - 1 : BitVec w).toNat < n := by
  rcases Nat.eq_zero_or_pos n with rfl | hpos
  · exact Nat.not_lt_zero _
  · have hone : (1 : BitVec w).toNat = 1 :=
      (BitVec.toNat_ofNat 1 w).trans (Nat.mod_eq_of_lt (by omega))
    rw [zero_sub, BitVec.toNat_neg, hone, Nat.mod_eq_of_lt (by omega)]
    omega

/-- An address by its distance. -/
theorem eq_add_ofNat_iff (hn : n < 2 ^ w) : a = d + BitVec.ofNat w n ↔ (a - d).toNat = n := by
  have hlast : (BitVec.ofNat w n).toNat = n := by
    rw [BitVec.toNat_ofNat, Nat.mod_eq_of_lt hn]
  rw [← sub_eq_iff_eq_add']
  refine ⟨fun h => h ▸ hlast, fun h => BitVec.eq_of_toNat_eq (h.trans hlast.symm)⟩

/-- Going up reads no cell that it has written before. -/
theorem copyUp_eq (hn : n ≤ 2 ^ w) (hsafe : d = s ∨ n ≤ (d - s).toNat) :
    copyUp d s n m = copied d s n m := by
  induction n generalizing d s m with
  | zero => exact copied_zero.symm
  | succ n ih =>
      rw [copyUp, ih (by omega)]
      · funext a
        have hfrom : s + 1 + (a - (d + 1)) = s + (a - d) := by ring
        have hdist : a - (d + 1) = a - d - 1 := by ring
        simp only [copied]
        rw [hfrom, hdist]
        by_cases ha : a = d
        · subst ha
          have hself : (0 : BitVec w).toNat < n + 1 := Nat.succ_pos n
          rw [sub_self, if_neg (not_toNat_neg_one_lt hn), if_pos hself, Function.update_self,
            add_zero]
        · have hne := sub_ne_zero.mpr ha
          have hpos : (a - d).toNat ≠ 0 := fun h0 => hne (BitVec.eq_of_toNat_eq h0)
          rw [toNat_sub_one hne, Function.update_of_ne ha]
          by_cases hin : (a - d).toNat < n + 1
          · rw [if_pos (by omega), if_pos hin, Function.update_of_ne]
            intro hread
            have hsame : a - d = d - s := eq_sub_iff_add_eq'.mpr hread
            rcases hsafe with rfl | hle
            · exact hne (hsame.trans (sub_self d))
            · rw [hsame] at hin
              omega
          · rw [if_neg (by omega), if_neg hin]
      · rw [add_left_inj, add_sub_add_right_eq_sub]
        exact hsafe.imp_right fun hle => by omega

/-- Going down neither. -/
theorem copyDown_eq (hn : n ≤ 2 ^ w) (hsafe : d = s ∨ n ≤ (s - d).toNat) :
    copyDown (d + BitVec.ofNat w n) (s + BitVec.ofNat w n) n m = copied d s n m := by
  induction n generalizing m with
  | zero => exact copied_zero.symm
  | succ n ih =>
      have hback : ∀ x : BitVec w, x + BitVec.ofNat w (n + 1) - 1 = x + BitVec.ofNat w n := by
        intro x
        rw [BitVec.ofNat_add, ← add_assoc]
        exact add_sub_cancel_right _ _
      rw [copyDown, hback, hback, ih (by omega) (hsafe.imp_right fun hle => by omega)]
      funext a
      have hend := eq_add_ofNat_iff (a := a) (d := d) hn
      simp only [copied]
      rcases Nat.lt_trichotomy (a - d).toNat n with hlt | heq | hgt
      · rw [if_pos hlt, if_pos (by omega), Function.update_of_ne]
        intro hread
        rcases hsafe with rfl | hle
        · rw [add_sub_cancel] at hread
          exact absurd (hend.mp hread) (by omega)
        · have hsum : (s - d) + (a - d) = BitVec.ofNat w n := by
            rw [← sub_eq_iff_eq_add'.mpr hread]
            ring
          have hnat := congrArg BitVec.toNat hsum
          have hlt' := (s - d).isLt
          rw [BitVec.toNat_add, BitVec.toNat_ofNat, Nat.mod_eq_of_lt hn] at hnat
          rcases Nat.lt_or_ge ((s - d).toNat + (a - d).toNat) (2 ^ w) with hsmall | hbig
          · rw [Nat.mod_eq_of_lt hsmall] at hnat
            omega
          · rw [Nat.mod_eq_sub_mod hbig, Nat.mod_eq_of_lt (by omega)] at hnat
            omega
      · rw [if_neg (by omega), if_pos (by omega), hend.mpr heq, Function.update_self,
          add_sub_cancel_left]
      · rw [if_neg (by omega), if_neg (by omega), Function.update_of_ne fun h => by
          have := hend.mp h
          omega]

end Xv6.Lib
