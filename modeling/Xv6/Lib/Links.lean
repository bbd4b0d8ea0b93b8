import Mathlib

/-!
Doubly linked lists in a circle around a sentinel.

The links are two functions `next` and `prev` on nodes. `Chain next prev x l y`
says that following `next` from `x` leads through the nodes of `l` to `y`,
and following `prev` leads back. A circle around the sentinel `h` is a
chain from `h` to `h`. Unlinking a node and linking one in behind the
sentinel are the usual assignments to four fields.
-/

namespace Xv6.Lib

variable {N : Type*}

/-- The links lead from `x` through `l` to `y` and back. -/
def Chain (next prev : N → N) : N → List N → N → Prop
  | x, [], y => next x = y ∧ prev y = x
  | x, a :: l, y => next x = a ∧ prev a = x ∧ Chain next prev a l y

/-- The nodes of `l` are linked in a circle around `h`. -/
structure Circle (next prev : N → N) (h : N) (l : List N) : Prop where
  nodup : (h :: l).Nodup
  chain : Chain next prev h l h

namespace Chain

variable {next prev next' prev' : N → N} {x y a b : N} {l l₁ l₂ : List N}

theorem append : Chain next prev x (l₁ ++ a :: l₂) y ↔
    Chain next prev x l₁ a ∧ Chain next prev a l₂ y := by
  induction l₁ generalizing x with
  | nil => simp only [List.nil_append, Chain, and_assoc]
  | cons b l₁ ih => simp only [List.cons_append, Chain, ih, and_assoc]

/-- Seen from the other end. -/
theorem reverse (h : Chain next prev x l y) : Chain prev next y l.reverse x := by
  induction l generalizing x with
  | nil => exact ⟨h.2, h.1⟩
  | cons a l ih =>
      obtain ⟨hnext, hprev, hrest⟩ := h
      rw [List.reverse_cons]
      exact append.mpr ⟨ih hrest, hprev, hnext⟩

/-- Links elsewhere do not matter. -/
theorem congr (h : Chain next prev x l y) (hnext : ∀ a ∈ x :: l, next' a = next a)
    (hprev : ∀ a, a ∈ l ∨ a = y → prev' a = prev a) : Chain next' prev' x l y := by
  induction l generalizing x with
  | nil =>
      rw [Chain, hnext x (by simp), hprev y (.inr rfl)]
      exact h
  | cons a l ih =>
      obtain ⟨hx, ha, hrest⟩ := h
      refine ⟨by rw [hnext x (by simp), hx], by rw [hprev a (by simp), ha], ih hrest ?_ ?_⟩
      · exact fun c hc => hnext c (List.mem_cons_of_mem x hc)
      · exact fun c hc => hprev c (hc.imp_left (List.mem_cons_of_mem a))

/-- The node before the end. -/
theorem prev_mem (h : Chain next prev x l y) : prev y = x ∧ l = [] ∨ prev y ∈ l := by
  induction l generalizing x with
  | nil => exact .inl ⟨h.2, rfl⟩
  | cons a l ih =>
      rcases ih h.2.2 with ⟨hy, -⟩ | hy
      · exact .inr (by simp [hy])
      · exact .inr (List.mem_cons_of_mem a hy)

theorem next_mem (h : Chain next prev x l y) : next x = y ∧ l = [] ∨ next x ∈ l := by
  cases l with
  | nil => exact .inl ⟨h.1, rfl⟩
  | cons a l => exact .inr (by simp [h.1])

variable [DecidableEq N]

/-- A node is unlinked. -/
theorem unlink (h : Chain next prev x (l₁ ++ b :: l₂) y) (hnodup : (x :: l₁ ++ b :: l₂).Nodup)
    (hy : y ∉ l₁ ++ b :: l₂) :
    Chain (Function.update next (prev b) (next b)) (Function.update prev (next b) (prev b))
      x (l₁ ++ l₂) y := by
  obtain ⟨hleft, hright⟩ := append.mp h
  have hnext := hright.next_mem
  induction l₁ generalizing x with
  | nil =>
      obtain ⟨hx, hb⟩ := hleft
      simp only [List.cons_append, List.nil_append, List.nodup_cons, List.mem_cons] at hnodup
      rw [hb]
      cases l₂ with
      | nil =>
          obtain ⟨hby, -⟩ := hright
          simp [Chain, hby]
      | cons c l₂ =>
          obtain ⟨hbc, -, hrest⟩ := hright
          rw [hbc]
          refine ⟨by simp, by simp, hrest.congr (fun d hd => ?_) fun d hd => ?_⟩
          · refine Function.update_of_ne ?_ _ _
            rintro rfl
            exact hnodup.1 (.inr (by simpa using hd))
          · refine Function.update_of_ne ?_ _ _
            rintro rfl
            rcases hd with hd | rfl
            · exact (List.nodup_cons.mp hnodup.2.2).1 hd
            · exact hy (by simp)
  | cons a l₁ ih =>
      obtain ⟨hx, ha, hrest⟩ := hleft
      have hnodup' := (List.nodup_cons.mp hnodup).2
      have hxmem := (List.nodup_cons.mp hnodup).1
      have hprev : prev b ∈ a :: l₁ := by
        rcases hrest.prev_mem with ⟨hb, -⟩ | hb
        · simp [hb]
        · exact List.mem_cons_of_mem a hb
      have hay : a ≠ next b := by
        rcases hnext with ⟨hb, -⟩ | hb
        · rintro rfl
          exact hy (by simp [hb])
        · rintro rfl
          exact (List.nodup_cons.mp hnodup').1 (by simp [hb])
      refine ⟨?_, ?_, ih (append.mpr ⟨hrest, hright⟩) hnodup' ?_ hrest⟩
      · rw [Function.update_of_ne, hx]
        rintro rfl
        exact hxmem (List.mem_append_left _ hprev)
      · rw [Function.update_of_ne hay, ha]
      · exact fun hmem => hy (List.mem_cons_of_mem a hmem)

end Chain

namespace Circle

variable {next prev : N → N} {h b : N} {l : List N}

theorem reverse (hc : Circle next prev h l) : Circle prev next h l.reverse where
  nodup := by
    have := hc.nodup
    rw [List.nodup_cons] at this ⊢
    exact ⟨by simpa using this.1, List.nodup_reverse.mpr this.2⟩
  chain := hc.chain.reverse

variable [DecidableEq N]

/-- A node is linked in behind the sentinel. -/
theorem push (hc : Circle next prev h l) (hb : b ∉ h :: l) :
    Circle (Function.update (Function.update next b (next h)) h b)
      (Function.update (Function.update prev b h) (next h) b) h (b :: l) where
  nodup := by
    have hnodup := List.nodup_cons.mp hc.nodup
    simp only [List.mem_cons, not_or] at hb
    refine List.nodup_cons.mpr ⟨?_, List.nodup_cons.mpr ⟨hb.2, hnodup.2⟩⟩
    simp only [List.mem_cons, not_or]
    exact ⟨fun he => hb.1 he.symm, hnodup.1⟩
  chain := by
    have hnodup := List.nodup_cons.mp hc.nodup
    have hchain := hc.chain
    simp only [List.mem_cons, not_or] at hb
    cases l with
    | nil =>
        obtain ⟨hnext, hprev⟩ := hchain
        rw [hnext]
        simp [Chain, hb.1]
    | cons a l =>
        obtain ⟨hnext, hprev, hrest⟩ := hchain
        simp only [List.mem_cons, not_or] at hb
        have hha : h ≠ a := fun he => hnodup.1 (by simp [he])
        rw [hnext]
        refine ⟨by simp, ?_, ?_, by simp, hrest.congr (fun c hmem => ?_) fun c hmem => ?_⟩
        · rw [Function.update_of_ne hb.2.1, Function.update_self]
        · rw [Function.update_of_ne hb.1, Function.update_self]
        · have hch : c ≠ h := fun he => hnodup.1 (he ▸ hmem)
          have hcb : c ≠ b := by
            rintro rfl
            exact (List.mem_cons.mp hmem).elim hb.2.1 hb.2.2
          rw [Function.update_of_ne hch, Function.update_of_ne hcb]
        · have hca : c ≠ a := by
            rintro rfl
            rcases hmem with hmem | rfl
            · exact (List.nodup_cons.mp hnodup.2).1 hmem
            · exact hha rfl
          have hcb : c ≠ b := by
            rintro rfl
            rcases hmem with hmem | rfl
            · exact hb.2.2 hmem
            · exact hb.1 rfl
          rw [Function.update_of_ne hca, Function.update_of_ne hcb]

theorem unlink {l₁ l₂ : List N} (hc : Circle next prev h (l₁ ++ b :: l₂)) :
    Circle (Function.update next (prev b) (next b)) (Function.update prev (next b) (prev b))
      h (l₁ ++ l₂) where
  nodup := by
    refine hc.nodup.sublist (List.Sublist.cons_cons h ?_)
    exact List.Sublist.append_left (List.sublist_cons_self b l₂) l₁
  chain := hc.chain.unlink hc.nodup (List.nodup_cons.mp hc.nodup).1

omit [DecidableEq N] in
/-- A node is not its own neighbour. -/
theorem next_ne {l₁ l₂ : List N} (hc : Circle next prev h (l₁ ++ b :: l₂)) : next b ≠ b := by
  intro he
  obtain ⟨hh, hnodup⟩ := List.nodup_cons.mp hc.nodup
  rcases (Chain.append.mp hc.chain).2.next_mem with ⟨hb, -⟩ | hb
  · rw [he] at hb
    exact hh (by simp [hb])
  · rw [he] at hb
    exact (List.nodup_cons.mp (List.nodup_append.mp hnodup).2.1).1 hb

end Circle

/-! ### Several circles -/

/-- Circles that have no node in common. -/
structure Circles {K : Type*} (next prev : N → N) (S : Set K) (head : K → N) (l : K → List N) :
    Prop where
  circle : ∀ k ∈ S, Circle next prev (head k) (l k)
  apart : ∀ j ∈ S, ∀ k ∈ S, j ≠ k → List.Disjoint (head j :: l j) (head k :: l k)

section Several

variable {K : Type*} {next prev next' prev' : N → N} {S : Set K} {head : K → N} {l : K → List N}
  {k : K} {b h : N} {c c' : List N}

/-- Links elsewhere do not matter. -/
theorem Circle.congr (hc : Circle next prev h c) (hnext : ∀ a ∈ h :: c, next' a = next a)
    (hprev : ∀ a ∈ h :: c, prev' a = prev a) : Circle next' prev' h c where
  nodup := hc.nodup
  chain := hc.chain.congr hnext fun a ha => hprev a <| by
    rcases ha with ha | rfl
    · exact List.mem_cons_of_mem h ha
    · exact List.mem_cons_self

/-- The neighbours of a node. -/
theorem Circle.next_mem (hc : Circle next prev h c) {a : N} (ha : a ∈ h :: c) :
    next a ∈ h :: c := by
  rcases List.mem_cons.mp ha with rfl | ha
  · rcases hc.chain.next_mem with ⟨heq, -⟩ | hmem
    · rw [heq]
      exact List.mem_cons_self
    · exact List.mem_cons_of_mem _ hmem
  · obtain ⟨l₁, l₂, rfl⟩ := List.append_of_mem ha
    rcases (Chain.append.mp hc.chain).2.next_mem with ⟨heq, -⟩ | hmem
    · rw [heq]
      exact List.mem_cons_self
    · exact List.mem_cons_of_mem _ (List.mem_append_right _ (List.mem_cons_of_mem _ hmem))

theorem Circle.prev_mem (hc : Circle next prev h c) {a : N} (ha : a ∈ h :: c) :
    prev a ∈ h :: c := by
  simpa using hc.reverse.next_mem (by simpa using ha)

theorem Circle.next_eq_self_iff (hc : Circle next prev h c) : next h = h ↔ c = [] := by
  have hh := (List.nodup_cons.mp hc.nodup).1
  cases c with
  | nil => exact iff_of_true hc.chain.1 rfl
  | cons a c =>
      refine iff_of_false (fun heq => ?_) (List.cons_ne_nil _ _)
      rw [hc.chain.1] at heq
      exact hh (heq ▸ List.mem_cons_self)

variable [DecidableEq K]

/-- One of the circles is changed, and only links of its own nodes or of new
ones are. -/
theorem Circles.change (hc : Circles next prev S head l) (hk : k ∈ S)
    (hnew : Circle next' prev' (head k) c')
    (hother : ∀ j ∈ S, j ≠ k → ∀ a ∈ head j :: l j, a ∉ c' ∧ next' a = next a ∧ prev' a = prev a) :
    Circles next' prev' S head (Function.update l k c') where
  circle := fun j hj => by
    by_cases hjk : j = k
    · subst hjk
      rw [Function.update_self]
      exact hnew
    · rw [Function.update_of_ne hjk]
      exact (hc.circle j hj).congr (fun a ha => (hother j hj hjk a ha).2.1)
        fun a ha => (hother j hj hjk a ha).2.2
  apart := by
    have hnew : ∀ j ∈ S, j ≠ k → List.Disjoint (head j :: l j) (head k :: c') := by
      intro j hj hjk a ha hak
      rcases List.mem_cons.mp hak with rfl | hak
      · exact hc.apart j hj k hk hjk ha List.mem_cons_self
      · exact (hother j hj hjk a ha).1 hak
    intro i hi j hj hij
    by_cases hik : i = k
    · subst hik
      rw [Function.update_self, Function.update_of_ne hij.symm]
      exact fun a hai haj => hnew j hj hij.symm haj hai
    · by_cases hjk : j = k
      · subst hjk
        rw [Function.update_self, Function.update_of_ne hij]
        exact hnew i hi hij
      · rw [Function.update_of_ne hik, Function.update_of_ne hjk]
        exact hc.apart i hi j hj hij

variable [DecidableEq N]

theorem Circles.push (hc : Circles next prev S head l) (hk : k ∈ S)
    (hb : ∀ j ∈ S, b ∉ head j :: l j) :
    Circles (Function.update (Function.update next b (next (head k))) (head k) b)
      (Function.update (Function.update prev b (head k)) (next (head k)) b) S head
      (Function.update l k (b :: l k)) := by
  have hcircle := hc.circle k hk
  refine hc.change hk (hcircle.push (hb k hk)) fun j hj hjk a ha => ?_
  have hab : a ≠ b := by
    rintro rfl
    exact hb j hj ha
  have hak : a ∉ head k :: l k := hc.apart j hj k hk hjk ha
  refine ⟨?_, ?_, ?_⟩
  · intro hmem
    rcases List.mem_cons.mp hmem with heq | hmem
    · exact hab heq
    · exact hak (List.mem_cons_of_mem _ hmem)
  · rw [Function.update_of_ne, Function.update_of_ne hab]
    rintro rfl
    exact hak List.mem_cons_self
  · rw [Function.update_of_ne, Function.update_of_ne hab]
    rintro rfl
    exact hak (hcircle.next_mem List.mem_cons_self)

/-- The node tells which circle it is on. -/
theorem Circles.unlink (hc : Circles next prev S head l) (hk : k ∈ S) (hb : b ∈ l k) :
    Circles (Function.update next (prev b) (next b)) (Function.update prev (next b) (prev b))
      S head (Function.update l k ((l k).erase b)) := by
  have hcircle := hc.circle k hk
  have hmem : b ∈ head k :: l k := List.mem_cons_of_mem _ hb
  refine hc.change hk ?_ fun j hj hjk a ha => ?_
  · obtain ⟨l₁, l₂, hl⟩ := List.append_of_mem hb
    rw [hl] at hcircle ⊢
    have hfirst : b ∉ l₁ := fun h =>
      (List.nodup_append.mp (List.nodup_cons.mp hcircle.nodup).2).2.2 b h b List.mem_cons_self rfl
    rw [List.erase_append_right _ hfirst, List.erase_cons_head]
    exact hcircle.unlink
  · have hak : a ∉ head k :: l k := hc.apart j hj k hk hjk ha
    refine ⟨fun h => hak (List.mem_cons_of_mem _ (List.mem_of_mem_erase h)), ?_, ?_⟩
    · rw [Function.update_of_ne]
      rintro rfl
      exact hak (hcircle.prev_mem hmem)
    · rw [Function.update_of_ne]
      rintro rfl
      exact hak (hcircle.next_mem hmem)

end Several

/-! ### Searching -/

/-- Follows the links from `x` to the first node that passes the test. The
result is `none` when `fuel` runs out, and `some none` at the sentinel. -/
def seek [DecidableEq N] (next : N → N) (h : N) (test : N → Bool) :
    (fuel : ℕ) → (x : N) → Option (Option N)
  | 0, _ => none
  | fuel + 1, x =>
      if x = h then some none
      else if test x then some (some x)
      else seek next h test fuel (next x)

/-- On a chain to the sentinel the search is that of the list. -/
theorem Chain.seek_eq [DecidableEq N] {next prev : N → N} {x h : N} {l : List N} {fuel : ℕ}
    {test : N → Bool} (hc : Chain next prev x l h) (hh : h ∉ l) (hfuel : l.length < fuel) :
    seek next h test fuel (next x) = some (l.find? test) := by
  induction l generalizing x fuel with
  | nil =>
      obtain ⟨fuel, rfl⟩ := Nat.exists_eq_succ_of_ne_zero (Nat.ne_of_gt hfuel)
      rw [hc.1, seek, if_pos rfl]
      rfl
  | cons a l ih =>
      obtain ⟨fuel, rfl⟩ := Nat.exists_eq_succ_of_ne_zero (Nat.ne_of_gt (Nat.zero_lt_of_lt hfuel))
      simp only [List.mem_cons, not_or] at hh
      rw [hc.1, seek, if_neg fun he => hh.1 he.symm, List.find?_cons]
      cases test a with
      | true => rfl
      | false =>
          exact ih hc.2.2 hh.2 (by rw [List.length_cons] at hfuel; omega)

end Xv6.Lib
