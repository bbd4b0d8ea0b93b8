import Mathlib

/-!
Ring buffers with free-running counters.

A buffer of `c` cells is filled at the counter `tail` and emptied at the
counter `head`. The counters are never reset: they run through the
residues modulo `m`, and a cell is a counter modulo `c`. When `c` divides
`m` the wrap of a counter is harmless, and when `c` is less than `m` the
counters tell an empty buffer from a full one.
-/

namespace Xv6.Lib

variable {α : Type*}

/-- After `n` elements have left the buffer, it holds the list `l`. -/
structure Ring (c m : ℕ) (data : ℕ → α) (head tail n : ℕ) (l : List α) : Prop where
  head_eq : head = n % m
  tail_eq : tail = (n + l.length) % m
  length_le : l.length ≤ c
  cell : ∀ k a, l[k]? = some a → data ((n + k) % c) = a

namespace Ring

variable {c m : ℕ} {data : ℕ → α} {head tail n : ℕ} {l : List α} {a : α}

/-- The distance of the counters is the number of elements. -/
theorem distance (h : Ring c m data head tail n l) (hlt : c < m) :
    (tail + (m - head)) % m = l.length := by
  have hlen : l.length < m := lt_of_le_of_lt h.length_le hlt
  have hpos : 0 < m := by omega
  have hhead : n % m < m := Nat.mod_lt n hpos
  calc (tail + (m - head)) % m
      = (n + l.length + (m - n % m)) % m := by rw [h.tail_eq, h.head_eq, Nat.mod_add_mod]
    _ = (m * (n / m) + m + l.length) % m := by
        have := Nat.div_add_mod n m
        congr 1
        omega
    _ = (m * (n / m + 1) + l.length) % m := by rw [Nat.mul_add_one]
    _ = l.length := by rw [Nat.mul_add_mod, Nat.mod_eq_of_lt hlen]

theorem empty_iff (h : Ring c m data head tail n l) (hlt : c < m) : head = tail ↔ l = [] := by
  have hdist := h.distance hlt
  have hpos : 0 < m := by omega
  have hhead : head < m := h.head_eq ▸ Nat.mod_lt n hpos
  constructor
  · rintro rfl
    rw [show head + (m - head) = m by omega, Nat.mod_self] at hdist
    exact List.length_eq_zero_iff.mp hdist.symm
  · rintro rfl
    rw [h.head_eq, h.tail_eq]
    rfl

theorem full_iff (h : Ring c m data head tail n l) (hlt : c < m) :
    tail = (head + c) % m ↔ l.length = c := by
  have hlen := h.length_le
  have htail : tail = (head + l.length) % m := by rw [h.tail_eq, h.head_eq, Nat.mod_add_mod]
  constructor
  · intro hfull
    have hmod : head + l.length ≡ head + c [MOD m] := htail.symm.trans hfull
    exact (Nat.ModEq.add_left_cancel' head hmod).eq_of_lt_of_lt (by omega) hlt
  · intro hfull
    rw [htail, hfull]

theorem push (h : Ring c m data head tail n l) (hdvd : c ∣ m) (hroom : l.length < c) :
    Ring c m (Function.update data (tail % c) a) head ((tail + 1) % m) n (l ++ [a]) where
  head_eq := h.head_eq
  tail_eq := by
    rw [h.tail_eq, Nat.mod_add_mod, List.length_append, List.length_singleton, ← Nat.add_assoc]
  length_le := by
    rw [List.length_append, List.length_singleton]
    omega
  cell := by
    have htail : tail % c = (n + l.length) % c := by rw [h.tail_eq, Nat.mod_mod_of_dvd _ hdvd]
    intro k x hk
    rcases Nat.lt_or_ge k l.length with hlt | hge
    · rw [List.getElem?_append_left hlt] at hk
      rw [Function.update_of_ne, h.cell k x hk]
      -- two places less than `c` apart are different cells
      intro he
      have hmod : n + k ≡ n + l.length [MOD c] := he.trans htail
      have := (Nat.ModEq.add_left_cancel' n hmod).eq_of_lt_of_lt (by omega) hroom
      omega
    · obtain rfl : k = l.length := by
        have := (List.getElem?_eq_some_iff.mp hk).1
        rw [List.length_append, List.length_singleton] at this
        omega
      rw [List.getElem?_append_right hge, Nat.sub_self] at hk
      rw [← htail, Function.update_self]
      exact Option.some.inj hk

theorem front (h : Ring c m data head tail n (a :: l)) (hdvd : c ∣ m) : data (head % c) = a := by
  rw [h.head_eq, Nat.mod_mod_of_dvd _ hdvd]
  exact h.cell 0 a rfl

theorem pop (h : Ring c m data head tail n (a :: l)) :
    Ring c m data ((head + 1) % m) tail (n + 1) l where
  head_eq := by rw [h.head_eq, Nat.mod_add_mod]
  tail_eq := by
    rw [h.tail_eq, List.length_cons]
    congr 1
    omega
  length_le := by
    have := h.length_le
    rw [List.length_cons] at this
    omega
  cell := by
    intro k x hk
    rw [show n + 1 + k = n + (k + 1) by omega]
    exact h.cell (k + 1) x hk

/-- The first elements are a buffer of their own, up to their end. -/
theorem left {l' : List α} (h : Ring c m data head tail n (l ++ l')) :
    Ring c m data head ((n + l.length) % m) n l where
  head_eq := h.head_eq
  tail_eq := rfl
  length_le := by
    have := h.length_le
    rw [List.length_append] at this
    omega
  cell := by
    intro k x hk
    have hlt := (List.getElem?_eq_some_iff.mp hk).1
    exact h.cell k x (by rw [List.getElem?_append_left hlt, hk])

/-- So are the last ones. -/
theorem right {l' : List α} (h : Ring c m data head tail n (l ++ l')) :
    Ring c m data ((n + l.length) % m) tail (n + l.length) l' where
  head_eq := rfl
  tail_eq := by rw [h.tail_eq, List.length_append, Nat.add_assoc]
  length_le := by
    have := h.length_le
    rw [List.length_append] at this
    omega
  cell := by
    intro k x hk
    rw [Nat.add_assoc]
    refine h.cell (l.length + k) x ?_
    rw [List.getElem?_append_right (Nat.le_add_right _ _), Nat.add_sub_cancel_left, hk]

theorem tail_sub_one (h : Ring c m data head tail n (l ++ [a])) (hlt : c < m) :
    (tail + (m - 1)) % m = (n + l.length) % m := by
  rw [h.tail_eq, Nat.mod_add_mod, List.length_append, List.length_singleton,
    show n + (l.length + 1) + (m - 1) = n + l.length + m by omega, Nat.add_mod_right]

/-- The element that was put in last. -/
theorem back (h : Ring c m data head tail n (l ++ [a])) (hlt : c < m) (hdvd : c ∣ m) :
    data ((tail + (m - 1)) % m % c) = a := by
  rw [h.tail_sub_one hlt, Nat.mod_mod_of_dvd _ hdvd]
  exact h.cell l.length a (by simp)

/-- The element that was put in last is taken out again. -/
theorem unpush (h : Ring c m data head tail n (l ++ [a])) (hlt : c < m) :
    Ring c m data head ((tail + (m - 1)) % m) n l := by
  rw [h.tail_sub_one hlt]
  exact h.left

end Ring

end Xv6.Lib
