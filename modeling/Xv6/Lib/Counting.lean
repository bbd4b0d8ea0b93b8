import Mathlib

/-!
Counting how often a family takes a value.

`Counts good f n` says that exactly `n` of the members of the family `f`
are good. The family may be infinite as long as few members are good; what
a change of one member does to the count depends on that member only.

For a finite family the number is a function of the family, `tally`. An
account says how many there are of each thing; `bump` adds one, and
`holders` is the account of a finite family that may point to things.
-/

namespace Xv6.Lib

variable {ι β : Type*}

/-- Exactly `n` members of the family are good. -/
def Counts (good : β → Prop) (f : ι → β) (n : ℕ) : Prop :=
  ∃ F : Finset ι, (∀ i, i ∈ F ↔ good (f i)) ∧ F.card = n

namespace Counts

variable {good : β → Prop} {f : ι → β} {i j : ι} {b : β} {n : ℕ}

theorem zero (h : ∀ i, ¬ good (f i)) : Counts good f 0 :=
  ⟨∅, fun i => by simp [h i], rfl⟩

theorem pos (h : Counts good f n) (hi : good (f i)) : 0 < n := by
  obtain ⟨F, hF, rfl⟩ := h
  exact Finset.card_pos.mpr ⟨i, (hF i).mpr hi⟩

theorem not_good (h : Counts good f 0) (i : ι) : ¬ good (f i) :=
  fun hi => absurd (h.pos hi) (Nat.lt_irrefl 0)

theorem congr {g : ι → β} (h : Counts good f n) (hg : ∀ i, good (g i) ↔ good (f i)) :
    Counts good g n := by
  obtain ⟨F, hF, hcard⟩ := h
  exact ⟨F, fun i => (hF i).trans (hg i).symm, hcard⟩

variable [DecidableEq ι]

/-- A member changes and stays as good as it was. -/
theorem keep (h : Counts good f n) (hb : good b ↔ good (f i)) :
    Counts good (Function.update f i b) n := by
  refine h.congr fun j => ?_
  rw [Function.update_apply]
  split_ifs with hj
  · rw [hj, hb]
  · rfl

/-- A member becomes good. -/
theorem enter (h : Counts good f n) (hi : ¬ good (f i)) (hb : good b) :
    Counts good (Function.update f i b) (n + 1) := by
  obtain ⟨F, hF, rfl⟩ := h
  refine ⟨insert i F, fun j => ?_, Finset.card_insert_of_notMem fun hm => hi ((hF i).mp hm)⟩
  rw [Function.update_apply, Finset.mem_insert, hF]
  split_ifs with hj
  · simp [hj, hb]
  · simp [hj]

/-- A member stops being good. -/
theorem leave (h : Counts good f n) (hi : good (f i)) (hb : ¬ good b) :
    Counts good (Function.update f i b) (n - 1) := by
  obtain ⟨F, hF, rfl⟩ := h
  refine ⟨F.erase i, fun j => ?_, Finset.card_erase_of_mem ((hF i).mpr hi)⟩
  rw [Function.update_apply, Finset.mem_erase, hF]
  split_ifs with hj
  · simp [hj, hb]
  · simp [hj]

end Counts

/-! ### Finite families -/

section Tally

variable [Fintype ι] (good : β → Prop) [DecidablePred good]

/-- How many members of the family are good. -/
def tally (f : ι → β) : ℕ := (Finset.univ.filter fun i => good (f i)).card

variable {good} {f : ι → β} {i : ι}

theorem tally_pos (hi : good (f i)) : 0 < tally good f :=
  Finset.card_pos.mpr ⟨i, by simpa using hi⟩

theorem tally_eq_zero (h : ∀ i, ¬ good (f i)) : tally good f = 0 :=
  Finset.card_eq_zero.mpr (Finset.filter_eq_empty_iff.mpr fun i _ => h i)

variable [DecidableEq ι]

/-- A change of one member. -/
theorem tally_update (good : β → Prop) [DecidablePred good] (f : ι → β) (i : ι) (b : β) :
    tally good (Function.update f i b) + (if good (f i) then 1 else 0) =
      tally good f + if good b then 1 else 0 := by
  have hsplit : ∀ g : ι → β, tally good g = (Finset.univ.erase i |>.filter fun j => good (g j)).card +
      if good (g i) then 1 else 0 := by
    intro g
    rw [tally, ← Finset.insert_erase (Finset.mem_univ i), Finset.filter_insert,
      Finset.erase_insert (Finset.notMem_erase i _)]
    split_ifs with hi
    · rw [Finset.card_insert_of_notMem (by simp)]
    · rfl
  have hrest : (Finset.univ.erase i |>.filter fun j => good (Function.update f i b j)) =
      (Finset.univ.erase i |>.filter fun j => good (f j)) := by
    refine Finset.filter_congr fun j hj => ?_
    rw [Function.update_of_ne (Finset.ne_of_mem_erase hj)]
  rw [hsplit (Function.update f i b), hsplit f, hrest, Function.update_self]
  omega

end Tally

/-! ### Accounts -/

section Accounts

variable {α : Type*} [DecidableEq α] {n : α → ℕ} {a b : α}

/-- The account with one more of `a`. -/
def bump (n : α → ℕ) (a : α) : α → ℕ := fun b => if b = a then n b + 1 else n b

@[simp] theorem bump_self (n : α → ℕ) (a : α) : bump n a a = n a + 1 := if_pos rfl

theorem bump_of_ne (n : α → ℕ) (h : b ≠ a) : bump n a b = n b := if_neg h

theorem bump_pos (n : α → ℕ) (a : α) : 0 < bump n a a := by simp

theorem le_bump (n : α → ℕ) (a b : α) : n b ≤ bump n a b := by
  unfold bump
  split <;> omega

theorem bump_comm (n : α → ℕ) (a b : α) : bump (bump n a) b = bump (bump n b) a := by
  funext c
  unfold bump
  split_ifs <;> rfl

variable [Fintype ι] {g : ι → Option α} {i : ι}

/-- How many members of the family point to each thing. -/
def holders (g : ι → Option α) : α → ℕ := fun a => tally (· = some a) g

theorem holders_pos (h : g i = some a) : 0 < holders g a := tally_pos (i := i) h

theorem holders_none : holders (fun _ : ι => (none : Option α)) = fun _ => 0 := by
  funext a
  exact tally_eq_zero fun _ => nofun

variable [DecidableEq ι]

/-- A member that pointed to nothing points to `a`. -/
theorem holders_enter (h : g i = none) :
    holders (Function.update g i (some a)) = bump (holders g) a := by
  funext b
  have hu := tally_update (· = some b) g i (some a)
  simp only [h, reduceCtorEq, if_false, Option.some.injEq] at hu
  unfold holders bump
  split_ifs at hu ⊢ with h1 h2 h2
  · exact hu
  · exact absurd h1.symm h2
  · exact absurd h2.symm h1
  · exact hu

/-- A member stops pointing to `a`. -/
theorem holders_leave (h : g i = some a) :
    bump (holders (Function.update g i none)) a = holders g := by
  have := holders_enter (g := Function.update g i none) (i := i) (a := a) (by simp)
  rw [← this, Function.update_idem, ← h, Function.update_eq_self]

end Accounts

end Xv6.Lib
