import Mathlib

/-!
A family of queues that elements move between.

`Q : ι → List α` is a family of queues, head first. An element joins a
queue at its tail and leaves it at its first occurrence; moving it is
leaving one queue and joining another, possibly the same one.

Two invariants go with such a family, each relative to the queue `home a`
an element belongs to. `Filed` says that what is queued may be queued: it
is in the queue it belongs to, and only once. `Kept` says that what must
be queued is. They fail independently, so they are separate, and each
comes with one lemma for each of the three operations.

`Ahead q p l` is the order inside one queue: walking `l` from its head
meets `q` before `p`.
-/

namespace Xv6.Lib

variable {ι α : Type*} [DecidableEq ι] [DecidableEq α]

/-- `a` joins the queue `i` at its tail. -/
def enqueue (Q : ι → List α) (i : ι) (a : α) : ι → List α :=
  Function.update Q i (Q i ++ [a])

/-- The first occurrence of `a` leaves the queue `i`. -/
def dequeue (Q : ι → List α) (i : ι) (a : α) : ι → List α :=
  Function.update Q i ((Q i).erase a)

/-- `a` leaves the queue `i` and joins the queue `j`. -/
def requeue (Q : ι → List α) (i j : ι) (a : α) : ι → List α :=
  enqueue (dequeue Q i a) j a

/-! ### Membership -/

variable {Q : ι → List α} {i j : ι} {a b p q r : α} {l : List α}

omit [DecidableEq α] in
theorem mem_enqueue : b ∈ enqueue Q i a j ↔ b ∈ Q j ∨ j = i ∧ b = a := by
  unfold enqueue
  by_cases h : j = i
  · subst j
    simp
  · simp [h]

theorem mem_of_mem_dequeue (h : b ∈ dequeue Q i a j) : b ∈ Q j := by
  unfold dequeue at h
  by_cases hj : j = i
  · subst j
    rw [Function.update_self] at h
    exact List.mem_of_mem_erase h
  · rwa [Function.update_of_ne hj] at h

theorem mem_dequeue_of_ne (hb : b ≠ a) : b ∈ dequeue Q i a j ↔ b ∈ Q j := by
  unfold dequeue
  by_cases hj : j = i
  · subst j
    rw [Function.update_self]
    exact List.mem_erase_of_ne hb
  · rw [Function.update_of_ne hj]

theorem mem_requeue_self : a ∈ requeue Q i j a j :=
  mem_enqueue.mpr (.inr ⟨rfl, rfl⟩)

theorem mem_requeue_of_ne {l : ι} (hb : b ≠ a) : b ∈ requeue Q i j a l ↔ b ∈ Q l := by
  rw [requeue, mem_enqueue, mem_dequeue_of_ne hb]
  simp [hb]

/-! ### What is queued -/

/-- Every entry is a `listed` element in the queue it belongs to, and no
element is queued twice. -/
structure Filed (Q : ι → List α) (home : α → ι) (listed : α → Prop) : Prop where
  mem : ∀ {i a}, a ∈ Q i → listed a ∧ home a = i
  nodup : ∀ i, (Q i).Nodup

namespace Filed

variable {home home' : α → ι} {listed listed' : α → Prop}

omit [DecidableEq ι] [DecidableEq α] in
/-- The invariant only looks at the listed elements. -/
theorem congr (h : Filed Q home listed) (hl : ∀ b, listed b → listed' b ∧ home' b = home b) :
    Filed Q home' listed' where
  mem {i b} hb := by
    obtain ⟨hlb, hi⟩ := h.mem hb
    obtain ⟨hl', hh⟩ := hl b hlb
    exact ⟨hl', hh.trans hi⟩
  nodup := h.nodup

omit [DecidableEq ι] [DecidableEq α] in
theorem not_mem (h : Filed Q home listed) (ha : ¬ listed a) (i : ι) : a ∉ Q i :=
  fun hm => ha (h.mem hm).1

omit [DecidableEq α] in
theorem enqueue (h : Filed Q home listed) (ha : ∀ i, a ∉ Q i) (ha' : listed' a)
    (hl : ∀ b, b ≠ a → listed b → listed' b ∧ home' b = home b) :
    Filed (enqueue Q (home' a) a) home' listed' where
  mem {i b} hb := by
    rcases mem_enqueue.mp hb with hb | ⟨rfl, rfl⟩
    · have hne : b ≠ a := fun hba => ha i (hba ▸ hb)
      obtain ⟨hlb, hi⟩ := h.mem hb
      exact ⟨(hl b hne hlb).1, (hl b hne hlb).2.trans hi⟩
    · exact ⟨ha', rfl⟩
  nodup i := by
    unfold Lib.enqueue
    by_cases hi : i = home' a
    · subst hi
      rw [Function.update_self]
      simpa using (h.nodup _).concat (ha _)
    · rw [Function.update_of_ne hi]
      exact h.nodup i

theorem dequeue_not_mem (h : Filed Q home listed) (i : ι) : a ∉ dequeue Q (home a) a i := by
  intro hm
  have hi := (h.mem (mem_of_mem_dequeue hm)).2
  subst hi
  rw [Lib.dequeue, Function.update_self] at hm
  exact (h.nodup _).not_mem_erase hm

theorem dequeue (h : Filed Q home listed)
    (hl : ∀ b, b ≠ a → listed b → listed' b ∧ home' b = home b) :
    Filed (dequeue Q (home a) a) home' listed' where
  mem {i b} hb := by
    have hne : b ≠ a := by
      rintro rfl
      exact h.dequeue_not_mem i hb
    obtain ⟨hlb, hi⟩ := h.mem (mem_of_mem_dequeue hb)
    exact ⟨(hl b hne hlb).1, (hl b hne hlb).2.trans hi⟩
  nodup i := by
    unfold Lib.dequeue
    by_cases hi : i = home a
    · subst hi
      rw [Function.update_self]
      exact (h.nodup _).erase a
    · rw [Function.update_of_ne hi]
      exact h.nodup i

theorem requeue (h : Filed Q home listed) (ha' : listed' a)
    (hl : ∀ b, b ≠ a → listed b → listed' b ∧ home' b = home b) :
    Filed (requeue Q (home a) (home' a) a) home' listed' := by
  have hd : Filed (Lib.dequeue Q (home a) a) home' listed' := h.dequeue hl
  exact hd.enqueue h.dequeue_not_mem ha' fun _ _ hb => ⟨hb, rfl⟩

end Filed

/-! ### What must be queued -/

/-- Every element that must be queued is in the queue it belongs to. -/
def Kept (Q : ι → List α) (home : α → ι) (must : α → Prop) : Prop :=
  ∀ a, must a → a ∈ Q (home a)

namespace Kept

variable {home home' : α → ι} {must must' : α → Prop}

theorem enqueue (h : Kept Q home must) (hm : ∀ b, b ≠ a → must' b → must b ∧ home' b = home b) :
    Kept (enqueue Q (home' a) a) home' must' := by
  intro b hb
  by_cases hba : b = a
  · subst hba
    exact mem_enqueue.mpr (.inr ⟨rfl, rfl⟩)
  · obtain ⟨hmb, hh⟩ := hm b hba hb
    exact mem_enqueue.mpr (.inl (hh ▸ h b hmb))

theorem dequeue (h : Kept Q home must) {i : ι}
    (hm : ∀ b, must' b → b ≠ a ∧ must b ∧ home' b = home b) : Kept (dequeue Q i a) home' must' := by
  intro b hb
  obtain ⟨hba, hmb, hh⟩ := hm b hb
  exact (mem_dequeue_of_ne hba).mpr (hh ▸ h b hmb)

theorem requeue (h : Kept Q home must) {i : ι}
    (hm : ∀ b, b ≠ a → must' b → must b ∧ home' b = home b) :
    Kept (requeue Q i (home' a) a) home' must' := by
  intro b hb
  by_cases hba : b = a
  · subst hba
    exact mem_requeue_self
  · obtain ⟨hmb, hh⟩ := hm b hba hb
    exact (mem_requeue_of_ne hba).mpr (hh ▸ h b hmb)

end Kept

/-! ### The order inside a queue -/

/-- Walking the queue from its head meets `q` before `p`, or meets no `p`. -/
def Ahead (q p : α) : List α → Prop
  | [] => True
  | a :: l => a = q ∨ a ≠ p ∧ Ahead q p l

omit [DecidableEq α] in
theorem ahead_of_not_mem (h : p ∉ l) : Ahead q p l := by
  induction l with
  | nil => trivial
  | cons a l ih =>
      rw [List.mem_cons, not_or] at h
      exact .inr ⟨Ne.symm h.1, ih h.2⟩

omit [DecidableEq α] in
theorem Ahead.append (h : Ahead q p l) (hr : q ∈ l ∨ r ≠ p) : Ahead q p (l ++ [r]) := by
  induction l with
  | nil =>
      refine .inr ⟨?_, trivial⟩
      simpa using hr
  | cons a l ih =>
      rcases h with rfl | ⟨ha, h⟩
      · exact .inl rfl
      · by_cases haq : a = q
        · exact .inl haq
        · refine .inr ⟨ha, ih h ?_⟩
          rcases hr with hr | hr
          · exact .inl ((List.mem_cons.mp hr).resolve_left (Ne.symm haq))
          · exact .inr hr

theorem Ahead.erase (h : Ahead q p l) (hr : r ≠ q) : Ahead q p (l.erase r) := by
  induction l with
  | nil => trivial
  | cons a l ih =>
      rw [List.erase_cons]
      split
      · rename_i har
        rcases h with rfl | h
        · exact absurd (beq_iff_eq.mp har).symm hr
        · exact h.2
      · rcases h with rfl | ⟨ha, h⟩
        · exact .inl rfl
        · exact .inr ⟨ha, ih h⟩

omit [DecidableEq α] in
/-- A first-match scan cannot return `p` while `q` stands ahead of it and
matches too. -/
theorem Ahead.find?_ne {P : α → Bool} (h : Ahead q p l)
    (hq : P q = true) (hqp : q ≠ p) : l.find? P ≠ some p := by
  induction l with
  | nil => simp
  | cons a l ih =>
      rw [List.find?_cons]
      rcases h with rfl | ⟨ha, h⟩
      · simpa [hq] using hqp
      · cases hP : P a with
        | true => simpa using ha
        | false => exact ih h

omit [DecidableEq α] in
/-- The order survives an element joining a queue. -/
theorem Ahead.enqueue (h : Ahead q p (Q i)) (hq : q ∈ Q i) : Ahead q p (enqueue Q j a i) := by
  unfold Lib.enqueue
  by_cases hi : i = j
  · subst hi
    rw [Function.update_self]
    exact h.append (.inl hq)
  · rwa [Function.update_of_ne hi]

theorem Ahead.dequeue (h : Ahead q p (Q i)) (ha : a ≠ q) : Ahead q p (dequeue Q j a i) := by
  unfold Lib.dequeue
  by_cases hi : i = j
  · subst hi
    rw [Function.update_self]
    exact h.erase ha
  · rwa [Function.update_of_ne hi]

theorem Ahead.requeue {l : ι} (h : Ahead q p (Q i))
    (hq : q ∈ Q i) (ha : a ≠ q) : Ahead q p (requeue Q j l a i) :=
  (h.dequeue ha).enqueue ((mem_dequeue_of_ne ha.symm).mpr hq)

end Xv6.Lib
