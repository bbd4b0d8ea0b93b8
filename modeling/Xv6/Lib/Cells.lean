import Xv6.Lib.Copying

/-!
What a range of memory holds, as a list.

`Spells m p l` follows the list through memory from `p` on, and `put` stores
it there. An address is outside the range if its distance from the start
is at least the length of the list.
-/

namespace Xv6.Lib

variable {w : ℕ} {β : Type*}

/-- The cells from `p` on are those of the list. -/
def Spells (m : BitVec w → β) : BitVec w → List β → Prop
  | _, [] => True
  | p, b :: l => m p = b ∧ Spells m (p + 1) l

/-- Stores the list from `p` on. -/
def put (m : BitVec w → β) : BitVec w → List β → BitVec w → β
  | _, [] => m
  | p, b :: l => put (Function.update m p b) (p + 1) l

variable {m m' : BitVec w → β} {p a d s : BitVec w} {b : β} {l l₁ l₂ : List β} {n : ℕ}

theorem add_ofNat_succ (p : BitVec w) (i : ℕ) :
    p + BitVec.ofNat w (i + 1) = p + 1 + BitVec.ofNat w i := by
  rw [Nat.add_comm, BitVec.ofNat_add, ← add_assoc]
  rfl

theorem add_ofNat_add (p : BitVec w) (i j : ℕ) :
    p + BitVec.ofNat w (i + j) = p + BitVec.ofNat w i + BitVec.ofNat w j := by
  rw [BitVec.ofNat_add, add_assoc]

/-- The distance from a later address. -/
theorem toNat_sub_add (hn : n < 2 ^ w) : (a - (p + BitVec.ofNat w n)).toNat =
    if n ≤ (a - p).toNat then (a - p).toNat - n else 2 ^ w + (a - p).toNat - n := by
  have hlt := (a - p).isLt
  rw [← sub_sub, BitVec.toNat_sub, BitVec.toNat_ofNat, Nat.mod_eq_of_lt hn]
  split_ifs with hle
  · rw [show 2 ^ w - n + (a - p).toNat = 2 ^ w + ((a - p).toNat - n) by omega, Nat.add_mod_left,
      Nat.mod_eq_of_lt (by omega)]
  · rw [Nat.mod_eq_of_lt (by omega)]
    omega

theorem toNat_sub_le_succ : (a - p).toNat ≤ (a - (p + 1)).toNat + 1 := by
  have hone : (1 : BitVec w).toNat ≤ 1 := (BitVec.toNat_ofNat 1 w).trans_le (Nat.mod_le _ _)
  rw [show a - p = a - (p + 1) + 1 by ring, BitVec.toNat_add]
  exact (Nat.mod_le _ _).trans (by omega)

theorem spells_append :
    Spells m p (l₁ ++ l₂) ↔ Spells m p l₁ ∧ Spells m (p + BitVec.ofNat w l₁.length) l₂ := by
  induction l₁ generalizing p with
  | nil => simp [Spells]
  | cons b l₁ ih =>
      rw [List.cons_append, Spells, Spells, ih, List.length_cons, add_ofNat_succ, and_assoc]

theorem Spells.congr (h : Spells m p l) (heq : ∀ a, (a - p).toNat < l.length → m' a = m a)
    (hlen : l.length ≤ 2 ^ w) : Spells m' p l := by
  induction l generalizing p with
  | nil => trivial
  | cons b l ih =>
      rw [List.length_cons] at heq hlen
      obtain ⟨hb, hl⟩ := h
      refine ⟨(heq p (by simp)).trans hb, ih hl (fun a ha => heq a ?_) (by omega)⟩
      exact toNat_sub_le_succ.trans_lt (by omega)

/-- A store elsewhere. -/
theorem Spells.update (h : Spells m p l) (ha : l.length ≤ (a - p).toNat) :
    Spells (Function.update m a b) p l := by
  refine h.congr (fun a' ha' => Function.update_of_ne ?_ _ _) (ha.trans (a - p).isLt.le)
  rintro rfl
  omega

/-- A cell of the range is overwritten. -/
theorem Spells.set {c : β} (h : Spells m p (l₁ ++ c :: l₂)) (hlen : l₁.length + l₂.length < 2 ^ w) :
    Spells (Function.update m (p + BitVec.ofNat w l₁.length) b) p (l₁ ++ b :: l₂) := by
  obtain ⟨hfirst, -, hrest⟩ := spells_append.mp h
  refine spells_append.mpr ⟨hfirst.update ?_, Function.update_self .., hrest.update ?_⟩
  · rw [add_sub_cancel_left, BitVec.toNat_ofNat, Nat.mod_eq_of_lt (by omega)]
  · rw [sub_add_cancel_left, ← zero_sub]
    exact Nat.le_of_not_lt (not_toNat_neg_one_lt (by omega))

theorem put_of_not (ha : l.length ≤ (a - p).toNat) : put m p l a = m a := by
  induction l generalizing m p with
  | nil => rfl
  | cons b l ih =>
      rw [List.length_cons] at ha
      have hne : a - p ≠ 0 := fun h0 => by simp [h0] at ha
      rw [put, ih, Function.update_of_ne (sub_ne_zero.mp hne)]
      rw [← sub_sub, toNat_sub_one hne]
      omega

theorem spells_put (hlen : l.length ≤ 2 ^ w) : Spells (put m p l) p l := by
  induction l generalizing m p with
  | nil => trivial
  | cons b l ih =>
      rw [List.length_cons] at hlen
      refine ⟨?_, ih (by omega)⟩
      rw [put, put_of_not, Function.update_self]
      rw [sub_add_cancel_left, ← zero_sub]
      exact Nat.le_of_not_lt (not_toNat_neg_one_lt hlen)

theorem spells_iff : Spells m p l ↔ ∀ i b, l[i]? = some b → m (p + BitVec.ofNat w i) = b := by
  induction l generalizing p with
  | nil => simp [Spells]
  | cons c l ih =>
      rw [Spells, ih]
      constructor
      · rintro ⟨hc, hl⟩ i b hb
        cases i with
        | zero => simpa [hc] using hb
        | succ i =>
            rw [add_ofNat_succ]
            exact hl i b (by simpa using hb)
      · intro h
        refine ⟨by simpa using h 0 c, fun i b hb => ?_⟩
        rw [← add_ofNat_succ]
        exact h (i + 1) b (by simpa using hb)

theorem Spells.copied (h : Spells m s l) (hlen : l.length ≤ n) (hn : n ≤ 2 ^ w) :
    Spells (copied d s n m) d l := by
  rw [spells_iff] at h ⊢
  intro i b hb
  rw [copied_add ((List.getElem?_eq_some_iff.mp hb).1.trans_le hlen) hn]
  exact h i b hb

end Xv6.Lib
