import Mathlib

/-!
Singly linked circles.

`Linked next x l y` says that following `next` from `x` leads through the
nodes of `l` to `y`. A circle is a list of nodes linked from the first
round to the first again; it may be cut open at any of its nodes
(`Loop.split`), which is how a search that starts anywhere, an
insertion behind a node and the removal of a node's successor are
treated. A sorted circle has a single place where the order is broken.
-/

namespace Xv6.Lib

variable {N : Type*}

/-- The links lead from `x` through `l` to `y`. -/
def Linked (next : N → N) : N → List N → N → Prop
  | x, [], y => next x = y
  | x, a :: l, y => next x = a ∧ Linked next a l y

/-- The nodes of the list are linked in a circle. -/
def Loop (next : N → N) : List N → Prop
  | [] => False
  | x :: l => Linked next x l x

namespace Linked

variable {next next' : N → N} {x y a : N} {l l₁ l₂ : List N}

theorem append : Linked next x (l₁ ++ a :: l₂) y ↔ Linked next x l₁ a ∧ Linked next a l₂ y := by
  induction l₁ generalizing x with
  | nil => simp only [List.nil_append, Linked]
  | cons b l₁ ih => simp only [List.cons_append, Linked, ih, and_assoc]

/-- Links elsewhere do not matter. -/
theorem congr (h : Linked next x l y) (heq : ∀ a ∈ x :: l, next' a = next a) :
    Linked next' x l y := by
  induction l generalizing x with
  | nil => exact (heq x (by simp)).trans h
  | cons a l ih =>
      obtain ⟨hx, hrest⟩ := h
      exact ⟨(heq x (by simp)).trans hx, ih hrest fun c hc => heq c (List.mem_cons_of_mem x hc)⟩

theorem next_mem (h : Linked next x l y) : ∀ a ∈ x :: l, next a = y ∨ next a ∈ l := by
  induction l generalizing x with
  | nil =>
      intro a ha
      rw [List.mem_singleton.mp ha]
      exact .inl h
  | cons b l ih =>
      intro a ha
      rcases List.mem_cons.mp ha with rfl | ha
      · exact .inr (by simp [h.1])
      · exact (ih h.2 a ha).imp_right (List.mem_cons_of_mem b)

/-- What holds at the end and passes from a node to the one before it holds
along the way. -/
theorem back {P : N → Prop} (h : Linked next x l y) (hy : P y)
    (hstep : ∀ a ∈ l, P (next a) → P a) : ∀ a ∈ l, P a := by
  induction l generalizing x with
  | nil => simp
  | cons b l ih =>
      have hl := ih h.2 fun a ha => hstep a (List.mem_cons_of_mem b ha)
      have hb : P (next b) := by
        rcases h.2.next_mem b (by simp) with hb | hb
        · rwa [hb]
        · exact hl _ hb
      intro a ha
      rcases List.mem_cons.mp ha with rfl | ha
      · exact hstep a (by simp) hb
      · exact hl a ha

end Linked

namespace Loop

variable {next next' : N → N} {p q : N} {ring pre post : List N}

/-- A circle cut open at one of its nodes. -/
theorem split : Loop next (pre ++ p :: post) ↔ Linked next p (post ++ pre) p := by
  cases pre with
  | nil => simp only [List.nil_append, List.append_nil, Loop]
  | cons x pre =>
      change Linked next x (pre ++ p :: post) x ↔ _
      rw [Linked.append, Linked.append, and_comm]

theorem next_mem (h : Loop next ring) (hp : p ∈ ring) : next p ∈ ring := by
  obtain ⟨pre, post, rfl⟩ := List.append_of_mem hp
  rcases (split.mp h).next_mem p (by simp) with hn | hn
  · rwa [hn]
  · simp only [List.mem_append, List.mem_cons] at hn ⊢
    exact hn.symm.imp_right .inr

theorem congr (h : Loop next ring) (heq : ∀ a ∈ ring, next' a = next a) : Loop next' ring := by
  cases ring with
  | nil => exact h
  | cons x l => exact Linked.congr h heq

/-- From every node the links lead to the node `p`. -/
theorem reach {P : N → Prop} (h : Loop next ring) (hp : p ∈ ring) (hPp : P p)
    (hstep : ∀ a ∈ ring, P (next a) → P a) : ∀ a ∈ ring, P a := by
  obtain ⟨pre, post, rfl⟩ := List.append_of_mem hp
  have hsub : ∀ a ∈ post ++ pre, a ∈ pre ++ p :: post := by simp; tauto
  have hall := (split.mp h).back hPp fun a ha => hstep a (hsub a ha)
  intro a ha
  simp only [List.mem_append, List.mem_cons] at ha hall
  rcases ha with ha | rfl | ha
  · exact hall a (.inr ha)
  · exact hPp
  · exact hall a (.inl ha)

variable [DecidableEq N]

/-- A node is linked in behind `p`. -/
theorem insert {b : N} (h : Loop next (pre ++ p :: post)) (hnodup : (pre ++ p :: post).Nodup)
    (hb : b ∉ pre ++ p :: post) :
    Loop (Function.update (Function.update next b (next p)) p b) (pre ++ p :: b :: post) := by
  rw [split] at h ⊢
  rw [List.nodup_middle, List.nodup_cons] at hnodup
  simp only [List.mem_append, List.mem_cons, not_or] at hb hnodup
  have hlink : ∀ a ∈ post ++ pre, a ≠ p ∧ a ≠ b := by
    intro a ha
    constructor
    · rintro rfl
      rcases List.mem_append.mp ha with ha | ha
      · exact hnodup.1.2 ha
      · exact hnodup.1.1 ha
    · rintro rfl
      rcases List.mem_append.mp ha with ha | ha
      · exact hb.2.2 ha
      · exact hb.1 ha
  refine ⟨Function.update_self .., ?_⟩
  change Linked _ b (post ++ pre) p
  -- the part behind `b` is as it was behind `p`
  have hfirst : Function.update (Function.update next b (next p)) p b b = next p := by
    rw [Function.update_of_ne hb.2.1, Function.update_self]
  generalize post ++ pre = m at h hlink
  cases m with
  | nil => exact hfirst.trans h
  | cons a m =>
      refine ⟨hfirst.trans h.1, h.2.congr fun c hc => ?_⟩
      rw [Function.update_of_ne (hlink c hc).1, Function.update_of_ne (hlink c hc).2]

/-- The successor of `p` is taken out. -/
theorem skip {y : N} (h : Loop next (pre ++ p :: y :: post))
    (hnodup : (pre ++ p :: y :: post).Nodup) :
    next p = y ∧ Loop (Function.update next p (next y)) (pre ++ p :: post) := by
  rw [split] at h
  rw [split]
  rw [List.nodup_middle, List.nodup_cons] at hnodup
  obtain ⟨hp, hrest⟩ := h
  refine ⟨hp, ?_⟩
  change Linked next y (post ++ pre) p at hrest
  have hne : ∀ a ∈ post ++ pre, a ≠ p := by
    rintro a ha rfl
    apply hnodup.1
    simp only [List.mem_append, List.mem_cons] at ha ⊢
    tauto
  generalize post ++ pre = m at hrest hne
  cases m with
  | nil => exact (Function.update_self ..).trans hrest
  | cons a m =>
      refine ⟨(Function.update_self ..).trans hrest.1, hrest.2.congr fun c hc => ?_⟩
      exact Function.update_of_ne (hne c hc) ..

omit [DecidableEq N] in
/-- In a sorted circle a link leads to the next greater node, or from the
greatest node to the least. -/
theorem next_sorted [LinearOrder N] (h : Loop next ring) (hs : ring.Pairwise (· < ·))
    (hp : p ∈ ring) :
    (∃ pre post, ring = pre ++ p :: next p :: post) ∨ ∀ c ∈ ring, next p ≤ c ∧ c ≤ p := by
  obtain ⟨pre, post, rfl⟩ := List.append_of_mem hp
  cases post with
  | cons q post =>
      have hq : next p = q := (split.mp h).1
      exact .inl ⟨pre, post, by rw [hq]⟩
  | nil =>
      refine .inr fun c hc => ?_
      have hle : ∀ c ∈ pre ++ [p], c ≤ p := by
        intro c hc
        rcases List.mem_append.mp hc with hc | hc
        · exact le_of_lt ((List.pairwise_append.mp hs).2.2 c hc p (by simp))
        · exact le_of_eq (List.mem_singleton.mp hc)
      refine ⟨?_, hle c hc⟩
      cases pre with
      | nil =>
          rw [show next p = p from h]
          exact le_of_eq (List.mem_singleton.mp hc).symm
      | cons x pre =>
          rw [show next p = x from (split.mp h).1]
          rcases List.mem_cons.mp hc with rfl | hc
          · exact le_refl c
          · exact le_of_lt ((List.pairwise_cons.mp hs).1 c hc)

omit [DecidableEq N] in
/-- No node lies between a node and its successor. -/
theorem next_order [LinearOrder N] (h : Loop next ring) (hs : ring.Pairwise (· < ·))
    (hp : p ∈ ring) :
    (p < next p ∧ ∀ c ∈ ring, c ≤ p ∨ next p ≤ c) ∨ ∀ c ∈ ring, next p ≤ c ∧ c ≤ p := by
  refine (h.next_sorted hs hp).imp_left ?_
  rintro ⟨pre, post, rfl⟩
  obtain ⟨-, hrest, hcross⟩ := List.pairwise_append.mp hs
  obtain ⟨hp, hpost⟩ := List.pairwise_cons.mp hrest
  refine ⟨hp _ (List.mem_cons_self ..), fun c hc => ?_⟩
  rcases List.mem_append.mp hc with hc | hc
  · exact .inl (le_of_lt (hcross c hc p (List.mem_cons_self ..)))
  · rcases List.mem_cons.mp hc with rfl | hc
    · exact .inl (le_refl c)
    · rcases List.mem_cons.mp hc with rfl | hc
      · exact .inr (le_refl _)
      · exact .inr (le_of_lt ((List.pairwise_cons.mp hpost).1 c hc))

end Loop

end Xv6.Lib
