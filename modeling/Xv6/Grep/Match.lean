import Mathlib

/-!
The matcher of `grep` (`user/grep.c`).

A string is the list of its bytes without the terminating 0, so that the
end of a list is where the code reads 0. `matchhere` and `matchstar` call
each other in the source; here the loop of `matchstar` has the call of
`matchhere` that it makes as a parameter.

A pattern is read as a list of items, and what it means for these to match
is said without an order in which to try things.
-/

namespace Xv6.Grep

abbrev Byte : Type := BitVec 8

/-- A character constant. -/
abbrev ch (c : Char) : Byte := BitVec.ofNat 8 c.toNat

/-! ### The code -/

/-- The loop of `matchstar`, whose calls of `matchhere` are `here`. -/
def matchstar (c : Byte) (here : List Byte → Bool) : List Byte → Bool
  | [] => here []
  | a :: text =>
      if here (a :: text) then true
      else if a = c ∨ c = ch '.' then matchstar c here text
      else false

/-- The last two lines of `matchhere`: a character of the text is taken, and
`next` is the call for what follows. -/
def matchone (c : Byte) (next : List Byte → Bool) : List Byte → Bool
  | [] => false
  | a :: text => if c = ch '.' ∨ c = a then next text else false

/-- Whether `re` matches at the beginning of the text. -/
def matchhere : List Byte → List Byte → Bool
  | [], _ => true
  | [c], text => if c = ch '$' then text = [] else matchone c (matchhere []) text
  | c :: d :: re, text =>
      if d = ch '*' then matchstar c (matchhere re) text
      else matchone c (matchhere (d :: re)) text

/-- The loop of `match`. -/
def matchLoop (re : List Byte) : List Byte → Bool
  | [] => matchhere re []
  | a :: text => if matchhere re (a :: text) then true else matchLoop re text

/-- Whether `re` matches anywhere in the text. -/
def «match» (re text : List Byte) : Bool :=
  match re with
  | [] => matchLoop [] text
  | c :: re => if c = ch '^' then matchhere re text else matchLoop (c :: re) text

/-! ### The language of patterns -/

inductive Item where
  /-- Any number of the character. -/
  | star (c : Byte)
  /-- The end of the text. -/
  | eot
  | one (c : Byte)
deriving DecidableEq

/-- A pattern read from left to right. -/
def items : List Byte → List Item
  | [] => []
  | [c] => if c = ch '$' then [.eot] else [.one c]
  | c :: d :: re => if d = ch '*' then .star c :: items re else .one c :: items (d :: re)

/-- The character of a pattern stands for the character of a text. -/
def Fits (c a : Byte) : Prop := c = ch '.' ∨ c = a

/-- The items match a string that is followed by `rest`. -/
inductive Matches (rest : List Byte) : List Item → List Byte → Prop
  | nil : Matches rest [] []
  | one {c a : Byte} {l : List Item} {w : List Byte} :
      Fits c a → Matches rest l w → Matches rest (.one c :: l) (a :: w)
  | star {c : Byte} {l : List Item} {u w : List Byte} :
      (∀ a ∈ u, Fits c a) → Matches rest l w → Matches rest (.star c :: l) (u ++ w)
  | eot {l : List Item} : rest = [] → Matches rest l [] → Matches rest (.eot :: l) []

/-- The pattern matches a substring of the text, which has to be at its start
after a `^`. -/
def Accepts (re text : List Byte) : Prop :=
  if re.head? = some (ch '^') then
    ∃ w rest, text = w ++ rest ∧ Matches rest (items re.tail) w
  else ∃ before w rest, text = before ++ w ++ rest ∧ Matches rest (items re) w

/-! ### The code decides it -/

variable {c a : Byte} {here : List Byte → Bool} {l : List Item} {re text rest w : List Byte}

theorem matchstar_iff : matchstar c here text = true ↔
    ∃ u t, text = u ++ t ∧ (∀ a ∈ u, Fits c a) ∧ here t = true := by
  induction text with
  | nil =>
      constructor
      · exact fun h => ⟨[], [], rfl, nofun, h⟩
      · rintro ⟨u, t, ht, -, h⟩
        obtain ⟨rfl, rfl⟩ := List.nil_eq_append_iff.mp ht
        exact h
  | cons a text ih =>
      rw [matchstar]
      constructor
      · intro h
        split_ifs at h with hnow hfits
        · exact ⟨[], a :: text, rfl, nofun, hnow⟩
        · obtain ⟨u, t, rfl, hu, ht⟩ := ih.mp h
          refine ⟨a :: u, t, rfl, fun b hb => ?_, ht⟩
          rcases List.mem_cons.mp hb with rfl | hb
          · exact hfits.symm.imp id Eq.symm
          · exact hu b hb
      · rintro ⟨u, t, heq, hu, ht⟩
        cases u with
        | nil =>
            obtain rfl : a :: text = t := heq
            rw [if_pos ht]
        | cons b u =>
            obtain ⟨rfl, rfl⟩ := List.cons.inj heq
            have hfits : a = c ∨ c = ch '.' := (hu a (by simp)).symm.imp Eq.symm id
            rw [ih.mpr ⟨u, t, rfl, fun b hb => hu b (List.mem_cons_of_mem a hb), ht⟩, if_pos hfits]
            exact ite_self _

/-- One character, and the rest of the pattern after it. -/
theorem matches_one_iff : (∃ w rest, text = w ++ rest ∧ Matches rest (.one c :: l) w) ↔
    ∃ a t, text = a :: t ∧ Fits c a ∧ ∃ w rest, t = w ++ rest ∧ Matches rest l w := by
  constructor
  · rintro ⟨w, rest, rfl, h⟩
    cases h with
    | one hfits h => exact ⟨_, _, rfl, hfits, _, rest, rfl, h⟩
  · rintro ⟨a, t, rfl, hfits, w, rest, rfl, h⟩
    exact ⟨a :: w, rest, rfl, .one hfits h⟩

theorem matches_star_iff : (∃ w rest, text = w ++ rest ∧ Matches rest (.star c :: l) w) ↔
    ∃ u t, text = u ++ t ∧ (∀ a ∈ u, Fits c a) ∧ ∃ w rest, t = w ++ rest ∧ Matches rest l w := by
  constructor
  · rintro ⟨w, rest, rfl, h⟩
    cases h with
    | star hu h => exact ⟨_, _, List.append_assoc .., hu, _, rest, rfl, h⟩
  · rintro ⟨u, t, rfl, hu, w, rest, rfl, h⟩
    exact ⟨u ++ w, rest, (List.append_assoc ..).symm, .star hu h⟩

theorem matches_eot_iff : (∃ w rest, text = w ++ rest ∧ Matches rest [.eot] w) ↔ text = [] := by
  constructor
  · rintro ⟨w, rest, rfl, h⟩
    cases h with
    | eot hrest _ => rw [hrest, List.append_nil]
  · rintro rfl
    exact ⟨[], [], rfl, .eot rfl .nil⟩

theorem matchone_iff : matchone c here text = true ↔
    ∃ a t, text = a :: t ∧ Fits c a ∧ here t = true := by
  cases text with
  | nil => exact iff_of_false Bool.false_ne_true nofun
  | cons a t =>
      rw [matchone]
      constructor
      · intro h
        split_ifs at h with hfits
        exact ⟨a, t, rfl, hfits, h⟩
      · rintro ⟨b, t', heq, hfits, h⟩
        obtain ⟨rfl, rfl⟩ := List.cons.inj heq
        exact (if_pos hfits).trans h

theorem matchhere_nil : matchhere [] text = true ↔ ∃ w rest, text = w ++ rest ∧ Matches rest [] w :=
  ⟨fun _ => ⟨[], text, rfl, .nil⟩, fun _ => rfl⟩

/-- The code tries the items one after the other. -/
theorem matchhere_iff : ∀ re text : List Byte, matchhere re text = true ↔
    ∃ w rest, text = w ++ rest ∧ Matches rest (items re) w
  | [], _ => matchhere_nil
  | [c], text => by
      rw [matchhere, items]
      split_ifs with hdollar
      · rw [decide_eq_true_iff, matches_eot_iff]
      · rw [matchone_iff, matches_one_iff]
        simp only [matchhere_nil]
  | c :: d :: re, text => by
      rw [matchhere, items]
      split_ifs with hstar
      · rw [matchstar_iff, matches_star_iff]
        simp only [matchhere_iff re]
      · rw [matchone_iff, matches_one_iff]
        simp only [matchhere_iff (d :: re)]

theorem matchLoop_iff : matchLoop re text = true ↔
    ∃ before t, text = before ++ t ∧ matchhere re t = true := by
  induction text with
  | nil =>
      constructor
      · exact fun h => ⟨[], [], rfl, h⟩
      · rintro ⟨before, t, ht, h⟩
        obtain ⟨rfl, rfl⟩ := List.nil_eq_append_iff.mp ht
        exact h
  | cons a text ih =>
      rw [matchLoop]
      constructor
      · intro h
        split_ifs at h with hnow
        · exact ⟨[], a :: text, rfl, hnow⟩
        · obtain ⟨before, t, rfl, ht⟩ := ih.mp h
          exact ⟨a :: before, t, rfl, ht⟩
      · rintro ⟨before, t, heq, ht⟩
        cases before with
        | nil =>
            obtain rfl : a :: text = t := heq
            rw [if_pos ht]
        | cons b before =>
            obtain ⟨rfl, rfl⟩ := List.cons.inj heq
            rw [ih.mpr ⟨before, t, rfl, ht⟩]
            exact ite_self _

/-- The loop looks for a place to start. -/
theorem matchLoop_iff_matches : matchLoop re text = true ↔
    ∃ before w rest, text = before ++ w ++ rest ∧ Matches rest (items re) w := by
  rw [matchLoop_iff]
  constructor
  · rintro ⟨before, t, rfl, h⟩
    obtain ⟨w, rest, rfl, hw⟩ := (matchhere_iff re t).mp h
    exact ⟨before, w, rest, (List.append_assoc ..).symm, hw⟩
  · rintro ⟨before, w, rest, rfl, h⟩
    exact ⟨before, w ++ rest, List.append_assoc .., (matchhere_iff re _).mpr ⟨w, rest, rfl, h⟩⟩

/-- **The matcher decides its language.** -/
theorem match_iff (re text : List Byte) : «match» re text = true ↔ Accepts re text := by
  rw [«match».eq_def, Accepts]
  cases re with
  | nil => exact matchLoop_iff_matches
  | cons c re =>
      by_cases hcaret : c = ch '^'
      · simp only [hcaret, List.head?_cons, if_true, List.tail_cons]
        exact matchhere_iff re text
      · simp only [hcaret, List.head?_cons, Option.some.injEq, if_false]
        exact matchLoop_iff_matches

-- a star after `$`, and a `*` that stands for itself
example : «match» [ch '*', ch '$', ch '*', ch '$'] [ch 'a', ch '*', ch '$', ch '$'] = true := by
  decide

end Xv6.Grep
