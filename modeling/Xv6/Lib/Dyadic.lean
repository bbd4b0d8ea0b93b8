import Mathlib

/-!
Dyadic subdivisions of an interval.

The block `(k, i)` is the interval of the `2 ^ k` units from `i * 2 ^ k`
on. A `Subdivision` of the `2 ^ top` units is given by the blocks that have
been split in two halves; what is left are its tips. The tips of a
subdivision partition the units: every unit lies in exactly one of them.

A `Layout` colours the tips, used or free, and has the four moves of an
allocator: a free tip is taken or a used one dropped, a used tip is
divided into a used and a free half, and a used tip is joined with its
free buddy. A layout is merged when no two halves of a block are both
free; the blocks in use then determine the rest.
-/

namespace Xv6.Lib

/-- The blocks of `2 ^ top` units that have been split. Blocks of one unit
are never split, and a block can be split only once its parent is. -/
structure Subdivision (top : ℕ) where
  split : Set (ℕ × ℕ)
  pos : ∀ {k i}, (k, i) ∈ split → 0 < k
  parent : ∀ {k i}, (k, i) ∈ split → k = top ∧ i = 0 ∨ k < top ∧ (k + 1, i / 2) ∈ split

namespace Subdivision

variable {top : ℕ} (t : Subdivision top)

/-- The block is the whole interval or one of the halves of a split block. -/
def Node (k i : ℕ) : Prop := k = top ∧ i = 0 ∨ k < top ∧ (k + 1, i / 2) ∈ t.split

/-- A block that is there and has not been split. -/
def Tip (k i : ℕ) : Prop := t.Node k i ∧ (k, i) ∉ t.split

variable {t} {j k i l : ℕ}

theorem Node.le (h : t.Node k i) : k ≤ top := by
  rcases h with h | h <;> omega

theorem Tip.le (h : t.Tip k i) : k ≤ top := h.1.le

theorem Tip.not_split (h : t.Tip k i) : (k, i) ∉ t.split := h.2

theorem node_of_split (h : (k, i) ∈ t.split) : t.Node k i := t.parent h

theorem le_of_split (h : (k, i) ∈ t.split) : k ≤ top := (node_of_split h).le

theorem node_top : t.Node top 0 := .inl ⟨rfl, rfl⟩

theorem node_of_parent (h : (k + 1, i / 2) ∈ t.split) : t.Node k i :=
  .inr ⟨le_of_split h, h⟩

theorem Node.parent_split (h : t.Node k i) (hk : k < top) : (k + 1, i / 2) ∈ t.split := by
  rcases h with h | h
  · omega
  · exact h.2

/-- Indices of blocks are bounded by the number of blocks of the size. -/
theorem Node.lt (h : t.Node k i) : i < 2 ^ (top - k) := by
  induction hd : top - k generalizing k i with
  | zero =>
      rcases h with ⟨-, rfl⟩ | ⟨hk, -⟩
      · simp
      · omega
  | succ d ih =>
      have hp := ih (node_of_split (h.parent_split (by omega))) (by omega)
      rw [pow_succ]
      omega

theorem Tip.lt (h : t.Tip k i) : i < 2 ^ (top - k) := h.1.lt

theorem lt_of_split (h : (k, i) ∈ t.split) : i < 2 ^ (top - k) := (node_of_split h).lt

theorem div_two_pow_succ (l k : ℕ) : l / 2 ^ (k + 1) = l / 2 ^ k / 2 := by
  rw [pow_succ, Nat.div_div_eq_div_mul]

/-- All blocks around a block that is there are split. -/
theorem Node.split_above (h : t.Node j (l / 2 ^ j)) (hjk : j < k) (hk : k ≤ top) :
    (k, l / 2 ^ k) ∈ t.split := by
  induction k with
  | zero => omega
  | succ k ih =>
      have hnode : t.Node k (l / 2 ^ k) := by
        rcases Nat.lt_or_ge j k with hlt | hge
        · exact node_of_split (ih hlt (by omega))
        · obtain rfl : j = k := by omega
          exact h
      rw [div_two_pow_succ]
      exact hnode.parent_split (by omega)

theorem Node.exists_tip (h : t.Node k (l / 2 ^ k)) : ∃ j ≤ k, t.Tip j (l / 2 ^ j) := by
  induction k with
  | zero => exact ⟨0, le_rfl, h, fun hs => absurd (t.pos hs) (by omega)⟩
  | succ k ih =>
      by_cases hs : (k + 1, l / 2 ^ (k + 1)) ∈ t.split
      · rw [div_two_pow_succ] at hs
        obtain ⟨j, hj, htip⟩ := ih (node_of_parent hs)
        exact ⟨j, by omega, htip⟩
      · exact ⟨k + 1, le_rfl, h, hs⟩

/-- Every unit lies in a tip. -/
theorem exists_tip (hl : l < 2 ^ top) : ∃ k ≤ top, t.Tip k (l / 2 ^ k) := by
  refine Node.exists_tip (k := top) ?_
  rw [Nat.div_eq_of_lt hl]
  exact node_top

/-- Two tips that share a unit are the same. -/
theorem Tip.unique (hj : t.Tip j (l / 2 ^ j)) (hk : t.Tip k (l / 2 ^ k)) : j = k := by
  rcases Nat.lt_trichotomy j k with h | h | h
  · exact absurd (hj.1.split_above h hk.le) hk.not_split
  · exact h
  · exact absurd (hk.1.split_above h hj.le) hj.not_split

/-! ### Dividing and joining -/

/-- Splits a tip. -/
def divide (t : Subdivision top) (k i : ℕ) (h : t.Tip (k + 1) i) : Subdivision top where
  split := insert (k + 1, i) t.split
  pos := by
    rintro m j (he | hs)
    · obtain ⟨rfl, rfl⟩ := Prod.mk.inj he
      omega
    · exact t.pos hs
  parent := by
    rintro m j (he | hs)
    · obtain ⟨rfl, rfl⟩ := Prod.mk.inj he
      exact h.1.imp_right fun hp => ⟨hp.1, .inr hp.2⟩
    · exact (t.parent hs).imp_right fun hp => ⟨hp.1, .inr hp.2⟩

theorem node_divide (h : t.Tip (k + 1) i) {m : ℕ} :
    (t.divide k i h).Node m j ↔ t.Node m j ∨ m = k ∧ j / 2 = i := by
  have hle := h.le
  constructor
  · rintro (htop | ⟨hm, he | hs⟩)
    · exact .inl (.inl htop)
    · obtain ⟨hk, rfl⟩ := Prod.mk.inj he
      exact .inr ⟨by omega, rfl⟩
    · exact .inl (.inr ⟨hm, hs⟩)
  · rintro (hn | ⟨rfl, rfl⟩)
    · exact hn.imp_right fun hp => ⟨hp.1, .inr hp.2⟩
    · exact .inr ⟨by omega, .inl rfl⟩

theorem tip_divide (h : t.Tip (k + 1) i) {m : ℕ} : (t.divide k i h).Tip m j ↔
      t.Tip m j ∧ (m, j) ≠ (k + 1, i) ∨ m = k ∧ j / 2 = i := by
  constructor
  · rintro ⟨hn, hs⟩
    obtain ⟨hne, hs⟩ := not_or.mp hs
    exact ((node_divide h).mp hn).imp_left fun hn => ⟨⟨hn, hs⟩, hne⟩
  · rintro (⟨⟨hn, hs⟩, hne⟩ | ⟨rfl, rfl⟩)
    · exact ⟨(node_divide h).mpr (.inl hn), not_or.mpr ⟨hne, hs⟩⟩
    · refine ⟨(node_divide h).mpr (.inr ⟨rfl, rfl⟩), not_or.mpr ⟨fun he => ?_, fun hs => ?_⟩⟩
      · have := (Prod.mk.inj he).1
        omega
      · -- a split child would have made its parent split
        exact h.not_split ((node_of_split hs).parent_split (by have := h.le; omega))

/-- The other half of the parent. -/
def buddy (i : ℕ) : ℕ := if i % 2 = 0 then i + 1 else i - 1

theorem buddy_div_two (i : ℕ) : buddy i / 2 = i / 2 := by
  unfold buddy
  split <;> omega

theorem buddy_ne (i : ℕ) : buddy i ≠ i := by
  unfold buddy
  split <;> omega

theorem buddy_buddy (i : ℕ) : buddy (buddy i) = i := by
  unfold buddy
  split_ifs <;> omega

theorem div_two_eq_iff : j / 2 = i / 2 ↔ j = i ∨ j = buddy i := by
  unfold buddy
  split <;> omega

/-- Undoes the split of the parent of two tips. -/
def join (t : Subdivision top) (k i : ℕ) (h : t.Tip k i) (hb : t.Tip k (buddy i)) :
    Subdivision top where
  split := t.split \ {(k + 1, i / 2)}
  pos := fun hs => t.pos hs.1
  parent := by
    rintro m j ⟨hs, hne⟩
    refine (t.parent hs).imp_right fun hp => ⟨hp.1, hp.2, fun he => ?_⟩
    -- the parent of a split block is not the block that is joined
    obtain ⟨hm, hj⟩ := Prod.mk.inj he
    obtain rfl : m = k := by omega
    rcases div_two_eq_iff.mp hj with rfl | rfl
    · exact h.not_split hs
    · exact hb.not_split hs

theorem node_join (h : t.Tip k i) (hb : t.Tip k (buddy i)) {m : ℕ} (hk : k < top) :
    (t.join k i h hb).Node m j ↔ t.Node m j ∧ ¬(m = k ∧ j / 2 = i / 2) := by
  constructor
  · rintro (⟨rfl, rfl⟩ | ⟨hm, hs, hne⟩)
    · exact ⟨node_top, by omega⟩
    · exact ⟨.inr ⟨hm, hs⟩, fun hmj => hne (by simp [hmj])⟩
  · rintro ⟨htop | ⟨hm, hs⟩, hne⟩
    · exact .inl htop
    · refine .inr ⟨hm, hs, fun he => hne ?_⟩
      obtain ⟨hmk, hj⟩ := Prod.mk.inj he
      exact ⟨by omega, hj⟩

theorem tip_join (h : t.Tip k i) (hb : t.Tip k (buddy i)) {m : ℕ} (hk : k < top) :
    (t.join k i h hb).Tip m j ↔ t.Tip m j ∧ ¬(m = k ∧ j / 2 = i / 2) ∨ (m, j) = (k + 1, i / 2) := by
  constructor
  · rintro ⟨hn, hs⟩
    obtain ⟨hn, hne⟩ := (node_join h hb hk).mp hn
    by_cases he : (m, j) = (k + 1, i / 2)
    · exact .inr he
    · exact .inl ⟨⟨hn, fun hs' => hs ⟨hs', he⟩⟩, hne⟩
  · rintro (⟨⟨hn, hs⟩, hne⟩ | he)
    · exact ⟨(node_join h hb hk).mpr ⟨hn, hne⟩, fun hs' => hs hs'.1⟩
    · obtain ⟨rfl, rfl⟩ := Prod.mk.inj he
      refine ⟨(node_join h hb hk).mpr ⟨node_of_split (h.1.parent_split hk), by omega⟩, fun hs' => ?_⟩
      exact hs'.2 rfl

end Subdivision

/-! ### Layouts -/

/-- A subdivision with some of its tips in use. -/
structure Layout (top : ℕ) extends Subdivision top where
  used : Set (ℕ × ℕ)
  tip_of_used : ∀ {k i}, (k, i) ∈ used → toSubdivision.Tip k i

variable {x : ℕ × ℕ}

namespace Layout

open Subdivision

variable {top : ℕ} (L : Layout top)

/-- The tips that are not in use. -/
def Free (k i : ℕ) : Prop := L.Tip k i ∧ (k, i) ∉ L.used

/-- The blocks that are split or in use. -/
def Taken (k i : ℕ) : Prop := (k, i) ∈ L.split ∨ (k, i) ∈ L.used

variable {L} {k i m j : ℕ}

theorem free_iff_not_taken (h : L.Node k i) : L.Free k i ↔ ¬ L.Taken k i := by
  simp only [Free, Tip, Taken, h, true_and, not_or]

theorem Free.tip (h : L.Free k i) : L.Tip k i := h.1

theorem Free.not_used (h : L.Free k i) : (k, i) ∉ L.used := h.2

theorem used_or_free (h : L.Tip k i) : (k, i) ∈ L.used ∨ L.Free k i := by
  by_cases hu : (k, i) ∈ L.used
  · exact .inl hu
  · exact .inr ⟨h, hu⟩

/-- Puts a free tip in use. -/
def take (L : Layout top) (k i : ℕ) (h : L.Free k i) : Layout top where
  toSubdivision := L.toSubdivision
  used := insert (k, i) L.used
  tip_of_used := by
    rintro m j (he | hu)
    · obtain ⟨rfl, rfl⟩ := Prod.mk.inj he
      exact h.tip
    · exact L.tip_of_used hu

@[simp] theorem split_take {h : L.Free k i} : (L.take k i h).split = L.split := rfl

theorem mem_used_take {h : L.Free k i} :
    x ∈ (L.take k i h).used ↔ x ∈ L.used ∨ x = (k, i) := or_comm

theorem free_take {h : L.Free k i} : (L.take k i h).Free m j ↔ L.Free m j ∧ (m, j) ≠ (k, i) := by
  constructor
  · rintro ⟨ht, hu⟩
    obtain ⟨hne, hu⟩ := not_or.mp hu
    exact ⟨⟨ht, hu⟩, hne⟩
  · rintro ⟨⟨ht, hu⟩, hne⟩
    exact ⟨ht, not_or.mpr ⟨hne, hu⟩⟩

theorem taken_take {h : L.Free k i} : (L.take k i h).Taken m j ↔ L.Taken m j ∨ (m, j) = (k, i) := by
  simp only [Taken, take, Set.mem_insert_iff]
  tauto

/-- Takes a tip out of use. -/
def drop (L : Layout top) (k i : ℕ) : Layout top where
  toSubdivision := L.toSubdivision
  used := L.used \ {(k, i)}
  tip_of_used := fun hu => L.tip_of_used hu.1

@[simp] theorem split_drop : (L.drop k i).split = L.split := rfl

theorem mem_used_drop : x ∈ (L.drop k i).used ↔ x ∈ L.used ∧ x ≠ (k, i) := .rfl

theorem free_drop (h : (k, i) ∈ L.used) : (L.drop k i).Free m j ↔ L.Free m j ∨ (m, j) = (k, i) := by
  constructor
  · rintro ⟨ht, hu⟩
    by_cases he : (m, j) = (k, i)
    · exact .inr he
    · exact .inl ⟨ht, fun hu' => hu ⟨hu', he⟩⟩
  · rintro (⟨ht, hu⟩ | he)
    · exact ⟨ht, fun hu' => hu hu'.1⟩
    · obtain ⟨rfl, rfl⟩ := Prod.mk.inj he
      exact ⟨L.tip_of_used h, fun hu' => hu'.2 rfl⟩

theorem taken_drop (h : (k, i) ∈ L.used) :
    (L.drop k i).Taken m j ↔ L.Taken m j ∧ (m, j) ≠ (k, i) := by
  simp only [Taken, drop, Set.mem_sdiff, Set.mem_singleton_iff]
  constructor
  · rintro (hs | ⟨hu, hne⟩)
    · refine ⟨.inl hs, ?_⟩
      rintro ⟨⟩
      exact (L.tip_of_used h).not_split hs
    · exact ⟨.inr hu, hne⟩
  · rintro ⟨hs | hu, hne⟩
    · exact .inl hs
    · exact .inr ⟨hu, hne⟩

/-- Splits a tip in use, the left half of which stays in use. -/
def divide (L : Layout top) (k i : ℕ) (h : (k + 1, i) ∈ L.used) : Layout top where
  toSubdivision := L.toSubdivision.divide k i (L.tip_of_used h)
  used := insert (k, 2 * i) (L.used \ {(k + 1, i)})
  tip_of_used := by
    rintro m j (he | ⟨hu, hne⟩)
    · obtain ⟨rfl, rfl⟩ := Prod.mk.inj he
      exact (tip_divide (L.tip_of_used h)).mpr (.inr ⟨rfl, by omega⟩)
    · exact (tip_divide (L.tip_of_used h)).mpr (.inl ⟨L.tip_of_used hu, hne⟩)

theorem mem_split_divide {h : (k + 1, i) ∈ L.used} :
    x ∈ (L.divide k i h).split ↔ x ∈ L.split ∨ x = (k + 1, i) := or_comm

theorem mem_used_divide {h : (k + 1, i) ∈ L.used} :
    x ∈ (L.divide k i h).used ↔ x ∈ L.used ∧ x ≠ (k + 1, i) ∨ x = (k, 2 * i) := or_comm

theorem not_node_of_tip (h : L.Tip (k + 1) i) (hj : j / 2 = i) : ¬ L.Node k j := by
  intro hn
  have hs := hn.parent_split (by have := h.le; omega)
  rw [hj] at hs
  exact h.not_split hs

theorem free_divide {h : (k + 1, i) ∈ L.used} :
    (L.divide k i h).Free m j ↔ L.Free m j ∨ (m, j) = (k, 2 * i + 1) := by
  have htip := L.tip_of_used h
  constructor
  · rintro ⟨ht, hu⟩
    obtain ⟨hne, hu⟩ := not_or.mp hu
    rcases (tip_divide htip).mp ht with ⟨ht, hne'⟩ | ⟨rfl, hj⟩
    · exact .inl ⟨ht, fun hu' => hu ⟨hu', hne'⟩⟩
    · have hjne : j ≠ 2 * i := fun he => hne (by rw [he])
      exact .inr (by rw [show j = 2 * i + 1 by omega])
  · rintro (⟨ht, hu⟩ | he)
    · refine ⟨(tip_divide htip).mpr (.inl ⟨ht, ?_⟩),
        not_or.mpr ⟨?_, fun hu' => hu hu'.1⟩⟩
      · rintro ⟨⟩
        exact hu h
      · rintro ⟨⟩
        exact not_node_of_tip htip (by omega) ht.1
    · obtain ⟨rfl, rfl⟩ := Prod.mk.inj he
      refine ⟨(tip_divide htip).mpr (.inr ⟨rfl, by omega⟩), not_or.mpr ⟨?_, ?_⟩⟩
      · intro he
        have := (Prod.mk.inj he).2
        omega
      · rintro ⟨hu, -⟩
        exact not_node_of_tip htip (by omega) (L.tip_of_used hu).1

theorem taken_divide {h : (k + 1, i) ∈ L.used} :
    (L.divide k i h).Taken m j ↔ L.Taken m j ∨ (m, j) = (k, 2 * i) := by
  simp only [Taken, divide, Subdivision.divide, Set.mem_insert_iff, Set.mem_sdiff,
    Set.mem_singleton_iff]
  constructor
  · rintro ((he | hs) | (he | ⟨hu, -⟩))
    · exact .inl (.inr (he ▸ h))
    · exact .inl (.inl hs)
    · exact .inr he
    · exact .inl (.inr hu)
  · rintro ((hs | hu) | he)
    · exact .inl (.inr hs)
    · by_cases he : (m, j) = (k + 1, i)
      · exact .inl (.inl he)
      · exact .inr (.inr ⟨hu, he⟩)
    · exact .inr (.inl he)

/-- Joins a tip in use with its free buddy. -/
def join (L : Layout top) (k i : ℕ) (hk : k < top) (h : (k, i) ∈ L.used)
    (hb : L.Free k (buddy i)) : Layout top where
  toSubdivision := L.toSubdivision.join k i (L.tip_of_used h) hb.tip
  used := insert (k + 1, i / 2) (L.used \ {(k, i)})
  tip_of_used := by
    rintro m j (he | ⟨hu, hne⟩)
    · exact (tip_join (L.tip_of_used h) hb.tip hk).mpr (.inr he)
    · refine (tip_join (L.tip_of_used h) hb.tip hk).mpr (.inl ⟨L.tip_of_used hu, ?_⟩)
      rintro ⟨rfl, hj⟩
      rcases div_two_eq_iff.mp hj with rfl | rfl
      · exact hne rfl
      · exact hb.not_used hu

theorem mem_split_join {hk : k < top} {h : (k, i) ∈ L.used} {hb : L.Free k (buddy i)} : x ∈ (L.join k i hk h hb).split ↔ x ∈ L.split ∧ x ≠ (k + 1, i / 2) := .rfl

theorem mem_used_join {hk : k < top} {h : (k, i) ∈ L.used} {hb : L.Free k (buddy i)} : x ∈ (L.join k i hk h hb).used ↔
      x ∈ L.used ∧ x ≠ (k, i) ∨ x = (k + 1, i / 2) := or_comm

theorem free_join {hk : k < top} {h : (k, i) ∈ L.used} {hb : L.Free k (buddy i)} :
    (L.join k i hk h hb).Free m j ↔ L.Free m j ∧ (m, j) ≠ (k, buddy i) := by
  constructor
  · rintro ⟨ht, hu⟩
    obtain ⟨hne, hu⟩ := not_or.mp hu
    rcases (tip_join (L.tip_of_used h) hb.tip hk).mp ht with ⟨ht, hout⟩ | he
    · refine ⟨⟨ht, fun hu' => hu ⟨hu', ?_⟩⟩, ?_⟩
      · rintro ⟨⟩
        exact hout ⟨rfl, rfl⟩
      · rintro ⟨⟩
        exact hout ⟨rfl, buddy_div_two i⟩
    · exact absurd he hne
  · rintro ⟨⟨ht, hu⟩, hne⟩
    have hout : ¬(m = k ∧ j / 2 = i / 2) := by
      rintro ⟨rfl, hj⟩
      rcases div_two_eq_iff.mp hj with rfl | rfl
      · exact hu h
      · exact hne rfl
    have htip : (L.join k i hk h hb).Tip m j := (tip_join (L.tip_of_used h) hb.tip hk).mpr (.inl ⟨ht, hout⟩)
    refine ⟨htip, not_or.mpr ⟨?_, fun hu' => hu hu'.1⟩⟩
    · rintro ⟨⟩
      exact ht.not_split ((L.tip_of_used h).1.parent_split hk)

theorem taken_join {hk : k < top} {h : (k, i) ∈ L.used} {hb : L.Free k (buddy i)} :
    (L.join k i hk h hb).Taken m j ↔ L.Taken m j ∧ (m, j) ≠ (k, i) := by
  have htip := L.tip_of_used h
  simp only [Taken, join, Subdivision.join, Set.mem_insert_iff, Set.mem_sdiff,
    Set.mem_singleton_iff]
  constructor
  · rintro (⟨hs, -⟩ | (he | ⟨hu, hne⟩))
    · refine ⟨.inl hs, ?_⟩
      rintro ⟨⟩
      exact htip.not_split hs
    · obtain ⟨rfl, rfl⟩ := Prod.mk.inj he
      refine ⟨.inl (htip.1.parent_split hk), fun he' => ?_⟩
      have := (Prod.mk.inj he').1
      omega
    · exact ⟨.inr hu, hne⟩
  · rintro ⟨hs | hu, hne⟩
    · by_cases he : (m, j) = (k + 1, i / 2)
      · exact .inr (.inl he)
      · exact .inl ⟨hs, he⟩
    · exact .inr (.inr ⟨hu, hne⟩)

/-! ### Merged layouts -/

/-- No two halves of a block are both free. -/
def Merged (L : Layout top) : Prop := ∀ {k i}, k < top → L.Free k i → ¬ L.Free k (buddy i)

theorem Merged.of_free_imp {L' : Layout top} (h : L.Merged)
    (hfree : ∀ {m j}, L'.Free m j → L.Free m j) : L'.Merged :=
  fun hm hj hb => h hm (hfree hj) (hfree hb)

/-- One more free block, the other half of which is not free. -/
theorem Merged.of_free_imp_or {L' : Layout top} (h : L.Merged)
    (hfree : ∀ {m j}, L'.Free m j → L.Free m j ∨ (m, j) = (k, i))
    (hbuddy : ¬ L'.Free k (buddy i)) : L'.Merged := by
  intro m j hm hj hb
  rcases hfree hj with hj' | he
  · rcases hfree hb with hb' | he
    · exact h hm hj' hb'
    · obtain ⟨rfl, rfl⟩ := Prod.mk.inj he
      rw [buddy_buddy] at hbuddy
      exact hbuddy hj
  · obtain ⟨rfl, rfl⟩ := Prod.mk.inj he
    exact hbuddy hb

theorem Merged.take (h : L.Merged) {hfree : L.Free k i} : (L.take k i hfree).Merged :=
  h.of_free_imp fun hj => (free_take.mp hj).1

theorem Merged.divide (h : L.Merged) {hu : (k + 1, i) ∈ L.used} : (L.divide k i hu).Merged := by
  refine h.of_free_imp_or (fun hj => free_divide.mp hj) fun hb => hb.not_used ?_
  rw [show buddy (2 * i + 1) = 2 * i by unfold buddy; split <;> omega]
  exact mem_used_divide.mpr (.inr rfl)

theorem Merged.drop (h : L.Merged) (hu : (k, i) ∈ L.used) (hb : L.Taken k (buddy i)) :
    (L.drop k i).Merged := by
  refine h.of_free_imp_or (fun hj => (free_drop hu).mp hj) fun hfree => ?_
  refine (free_iff_not_taken hfree.tip.1).mp hfree ((taken_drop hu).mpr ⟨hb, fun he => ?_⟩)
  exact buddy_ne i (Prod.mk.inj he).2

theorem Merged.join (h : L.Merged) {hk : k < top} {hu : (k, i) ∈ L.used}
    {hb : L.Free k (buddy i)} : (L.join k i hk hu hb).Merged :=
  h.of_free_imp fun hj => (free_join.mp hj).1

/-- In a merged layout a block is split only because of a smaller block in
use inside it. -/
theorem Merged.mem_split_iff (h : L.Merged) (hk : k ≤ top) :
    (k, i) ∈ L.split ↔ ∃ m < k, ∃ l, l / 2 ^ k = i ∧ (m, l / 2 ^ m) ∈ L.used := by
  constructor
  · intro hs
    induction k generalizing i with
    | zero => exact absurd (L.pos hs) (by omega)
    | succ k ih =>
        -- a half that is split has a used block inside, and two tips cannot both be free
        have hhalf : ∀ j, j / 2 = i → (k, j) ∈ L.split ∨ (k, j) ∈ L.used →
            ∃ m < k + 1, ∃ l, l / 2 ^ (k + 1) = i ∧ (m, l / 2 ^ m) ∈ L.used := by
          rintro j rfl (hs' | hu)
          · obtain ⟨m, hm, l, hl, hu⟩ := ih (by omega) hs'
            exact ⟨m, by omega, l, by rw [div_two_pow_succ, hl], hu⟩
          · have hself : j * 2 ^ k / 2 ^ k = j := Nat.mul_div_cancel _ (Nat.two_pow_pos k)
            exact ⟨k, by omega, j * 2 ^ k, by rw [div_two_pow_succ, hself], by rwa [hself]⟩
        have hnode : ∀ j, j / 2 = i → L.Node k j := fun j hj => node_of_parent (hj ▸ hs)
        by_cases hleft : L.Free k (2 * i)
        · have hright := h (by omega) hleft
          have hb : buddy (2 * i) / 2 = i := by
            rw [buddy_div_two]
            omega
          rw [free_iff_not_taken (hnode _ hb), not_not] at hright
          exact hhalf _ hb hright
        · rw [free_iff_not_taken (hnode _ (by omega)), not_not] at hleft
          exact hhalf _ (by omega) hleft
  · rintro ⟨m, hm, l, rfl, hu⟩
    exact (L.tip_of_used hu).1.split_above hm hk

/-- In a merged layout without free blocks of size `k` or more every block
of size `k` meets a block in use. -/
theorem Merged.exists_used (h : L.Merged) (hk : k ≤ top) (hi : i < 2 ^ (top - k))
    (hnone : ∀ m, k ≤ m → ∀ j, ¬ L.Free m j) : ∃ m l, l / 2 ^ k = i ∧ (m, l / 2 ^ m) ∈ L.used := by
  have hself : i * 2 ^ k / 2 ^ k = i := Nat.mul_div_cancel _ (Nat.two_pow_pos k)
  have hl : i * 2 ^ k < 2 ^ top := by
    calc i * 2 ^ k < 2 ^ (top - k) * 2 ^ k := Nat.mul_lt_mul_of_pos_right hi (Nat.two_pow_pos k)
      _ = 2 ^ top := by rw [← pow_add, Nat.sub_add_cancel hk]
  obtain ⟨m, -, htip⟩ := exists_tip (t := L.toSubdivision) hl
  rcases used_or_free htip with hu | hfree
  · exact ⟨m, i * 2 ^ k, hself, hu⟩
  · have hm : m < k := by
      by_contra hm
      exact hnone m (by omega) _ hfree
    have hs := htip.1.split_above hm hk
    rw [hself] at hs
    obtain ⟨m', -, l, hl', hu⟩ := (h.mem_split_iff hk).mp hs
    exact ⟨m', l, hl', hu⟩

/-- Merged layouts with the same blocks in use are split in the same way. -/
theorem Merged.split_eq {L' : Layout top} (h : L.Merged) (h' : L'.Merged)
    (hused : ∀ x, x ∈ L'.used ↔ x ∈ L.used) (x : ℕ × ℕ) : x ∈ L'.split ↔ x ∈ L.split := by
  obtain ⟨k, i⟩ := x
  by_cases hk : k ≤ top
  · rw [h'.mem_split_iff hk, h.mem_split_iff hk]
    simp only [hused]
  · exact ⟨fun hs => absurd (le_of_split hs) hk, fun hs => absurd (le_of_split hs) hk⟩

end Layout

end Xv6.Lib
