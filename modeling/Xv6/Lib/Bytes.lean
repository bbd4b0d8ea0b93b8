import Mathlib

/-!
Numbers as sums of digits, the least significant digit first.
-/

namespace Xv6.Lib

variable {B n k : ℕ} {d : ℕ → ℕ}

/-- The first digit apart from the others. -/
theorem sum_digits_succ (B n : ℕ) (d : ℕ → ℕ) :
    ((List.range (n + 1)).map fun b => d b * B ^ b).sum =
      d 0 + B * ((List.range n).map fun b => d (b + 1) * B ^ b).sum := by
  rw [List.range_succ_eq_map, List.map_cons, List.sum_cons, List.map_map, pow_zero, mul_one,
    ← List.sum_map_mul_left]
  congr 2
  apply List.map_congr_left
  intro b _
  simp only [Function.comp_apply, Nat.succ_eq_add_one]
  ring

theorem sum_digits (hd : ∀ b < n, d b < B) (hk : k < n) :
    ((List.range n).map fun b => d b * B ^ b).sum / B ^ k % B = d k := by
  induction k generalizing n d with
  | zero =>
      obtain ⟨n, rfl⟩ := Nat.exists_eq_succ_of_ne_zero (by omega : n ≠ 0)
      rw [sum_digits_succ, pow_zero, Nat.div_one, Nat.add_mul_mod_self_left,
        Nat.mod_eq_of_lt (hd 0 hk)]
  | succ k ih =>
      obtain ⟨n, rfl⟩ := Nat.exists_eq_succ_of_ne_zero (by omega : n ≠ 0)
      have hfirst := hd 0 (by omega)
      have hB : 0 < B := by omega
      rw [sum_digits_succ, pow_succ', ← Nat.div_div_eq_div_mul, Nat.add_mul_div_left _ _ hB,
        Nat.div_eq_of_lt hfirst, Nat.zero_add]
      exact ih (fun b hb => hd (b + 1) (by omega)) (by omega)

end Xv6.Lib
