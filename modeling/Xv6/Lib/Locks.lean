import Mathlib

/-!
Spin locks and who holds them.

A lock table maps each lock to its holder. The program text of a holder
says, at each of its points, which locks it has taken: `Owned` says that
the table and these lists agree, which makes every lock list of one
holder disjoint from those of the others. A step takes one lock, releases
one or does neither, and `LockOp.Moves` is what the program text has to
say about it; `Owned.step` then keeps the agreement.
-/

namespace Xv6.Lib

/-- What one step does to the locks. -/
inductive LockOp (L : Type*)
  | skip
  | acquire (l : L)
  | release (l : L)
  deriving DecidableEq

variable {L T : Type*} [DecidableEq L] [DecidableEq T]

namespace LockOp

/-- The lock table after `t` has done the operation. A taken lock cannot
be acquired, by anyone, and only its holder can release it. -/
def apply (lock : L → Option T) (t : T) : LockOp L → Option (L → Option T)
  | .skip => some lock
  | .acquire l => if lock l = none then some (Function.update lock l (some t)) else none
  | .release l => if lock l = some t then some (Function.update lock l none) else none

/-- The operation takes a holder of the locks `h` to one of the locks `h'`. -/
def Moves : LockOp L → List L → List L → Prop
  | .skip, h, h' => h'.Perm h
  | .acquire l, h, h' => h'.Perm (l :: h)
  | .release l, h, h' => h.Perm (l :: h')

theorem apply_acquire {lock lock' : L → Option T} {t : T} {l : L}
    (h : (acquire l).apply lock t = some lock') : lock l = none := by
  by_contra hl
  simp [apply, hl] at h

end LockOp

/-- The locks that the holders say they hold are those the table gives
them. -/
structure Owned (lock : L → Option T) (held : T → List L) : Prop where
  mem : ∀ l t, lock l = some t ↔ l ∈ held t
  nodup : ∀ t, (held t).Nodup

namespace Owned

variable {lock lock' : L → Option T} {held : T → List L} {t : T}

omit [DecidableEq L] [DecidableEq T] in
theorem congr {held' : T → List L} (h : Owned lock held) (hp : ∀ u, (held' u).Perm (held u)) :
    Owned lock held' :=
  ⟨fun l u => by rw [(hp u).mem_iff]; exact h.mem l u, fun u => (hp u).nodup_iff.mpr (h.nodup u)⟩

omit [DecidableEq L] [DecidableEq T] in
/-- A lock has one holder. -/
theorem unique (h : Owned lock held) {l : L} {u : T} (ht : l ∈ held t) (hu : l ∈ held u) : t = u :=
  Option.some.inj (((h.mem l t).mpr ht).symm.trans ((h.mem l u).mpr hu))

/-- The lock that is acquired was held by nobody. -/
theorem not_mem_of_acquire (h : Owned lock held) {l : L}
    (ha : (LockOp.acquire l).apply lock t = some lock') (u : T) : l ∉ held u := by
  intro hu
  have hl := LockOp.apply_acquire ha
  rw [(h.mem l u).mpr hu] at hl
  cases hl

theorem step (h : Owned lock held) {op : LockOp L} {h' : List L}
    (ha : op.apply lock t = some lock') (hm : op.Moves (held t) h') :
    Owned lock' (Function.update held t h') := by
  cases op with
  | skip =>
      obtain rfl : lock = lock' := Option.some.inj ha
      refine h.congr fun u => ?_
      by_cases hu : u = t
      · subst hu
        rw [Function.update_self]
        exact hm
      · simp [hu]
  | acquire l =>
      have hfree : ∀ u, l ∉ held u := h.not_mem_of_acquire ha
      have hl := LockOp.apply_acquire ha
      simp only [LockOp.apply, hl, ↓reduceIte, Option.some.injEq] at ha
      subst ha
      refine ⟨fun m u => ?_, fun u => ?_⟩
      · by_cases hu : u = t
        · subst hu
          rw [Function.update_self, hm.mem_iff, List.mem_cons, ← h.mem]
          by_cases hml : m = l <;> simp [hml]
        · rw [Function.update_of_ne hu, ← h.mem]
          by_cases hml : m = l
          · simp [hml, hl, Ne.symm hu]
          · simp [hml]
      · by_cases hu : u = t
        · subst hu
          rw [Function.update_self, hm.nodup_iff, List.nodup_cons]
          exact ⟨hfree u, h.nodup u⟩
        · rw [Function.update_of_ne hu]
          exact h.nodup u
  | release l =>
      simp only [LockOp.apply, Option.ite_none_right_eq_some, Option.some.injEq] at ha
      obtain ⟨hl, rfl⟩ := ha
      have hnd : (l :: h').Nodup := hm.nodup_iff.mp (h.nodup t)
      rw [List.nodup_cons] at hnd
      refine ⟨fun m u => ?_, fun u => ?_⟩
      · by_cases hu : u = t
        · subst hu
          by_cases hml : m = l
          · simp [hml, hnd.1]
          · have := hm.mem_iff (a := m)
            simp only [List.mem_cons, hml, false_or] at this
            rw [Function.update_of_ne hml, Function.update_self, h.mem, this]
        · rw [Function.update_of_ne hu, ← h.mem]
          by_cases hml : m = l
          · simp [hml, hl, Ne.symm hu]
          · simp [hml]
      · by_cases hu : u = t
        · subst hu
          rw [Function.update_self]
          exact hnd.2
        · rw [Function.update_of_ne hu]
          exact h.nodup u

end Owned

end Xv6.Lib
