import Xv6.Sched.Effects

/-!
The scheduling policy.

A dispatch scans the queues from priority 0 on and takes the first
`RUNNABLE` process, then moves it to the tail of its queue. The first half
makes the choice strict in the priority and first come, first served
inside a class. The second half bounds overtaking inside a class: right
after `p` is dispatched, everything else in the queue stands ahead of it,
and no step of another process changes that.

The one thing that does is a `nice` on the waiting process itself. Even
when it keeps the priority, it sends the process to the tail, behind `p`:
`reniced_overtaken`.
-/

namespace Xv6.Sched

open Lib

variable {p q : ProcId}

namespace Sys

/-- Every process that has to be queued is queued exactly once, under its
own priority. -/
def WellQueued (s : Sys) : Prop :=
  ∀ p, s.Must p → (s.kern.prio (s.home p)).count p = 1 ∧
    ∀ j, j ≠ s.home p → p ∉ s.kern.prio j

instance (s : Sys) : Decidable s.WellQueued :=
  inferInstanceAs (Decidable (∀ p, s.Must p → _ ∧ _))

/-- `q` is waiting for a CPU in the queue `i`. -/
def WaitsIn (q : ProcId) (i : Fin nprio) (s : Sys) : Prop :=
  q ∈ s.kern.prio i ∧ (s.kern.proc q).state = .runnable

instance (q : ProcId) (i : Fin nprio) (s : Sys) : Decidable (s.WaitsIn q i) :=
  inferInstanceAs (Decidable (_ ∧ _))

/-- The step is not a `nice` that finds `q`. -/
def NiceSpares (q : ProcId) (s : Sys) : Act → Prop
  | .nice pid _ => s.kern.findPid pid ≠ some q
  | _ => True

/-! ### The choice -/

theorem mem_left_of_finRange {n : ℕ} {l r : List (Fin n)} {i j : Fin n}
    (h : List.finRange n = l ++ i :: r) (hj : j < i) : j ∈ l := by
  have hmem : j ∈ l ++ i :: r := h ▸ List.mem_finRange j
  have hsorted : (l ++ i :: r).Pairwise (· < ·) := h ▸ List.pairwise_lt_finRange n
  rcases List.mem_append.mp hmem with hl | hr
  · exact hl
  · rcases List.mem_cons.mp hr with rfl | hr
    · exact absurd hj (lt_irrefl _)
    · have := (List.pairwise_cons.mp (List.pairwise_append.mp hsorted).2.1).1 j hr
      exact absurd hj (lt_asymm this)

/-- The scan returns the first match of the first queue that has one. -/
theorem pick_first {k : Kern} (h : k.pickHighestPriorityRunnableProc = some p) :
    ∃ i, (k.prio i).find? (fun q => (k.proc q).state = .runnable) = some p ∧
      ∀ j, j < i → ∀ q ∈ k.prio j, (k.proc q).state ≠ .runnable := by
  obtain ⟨l, i, r, hsplit, hi, hnone⟩ := List.findSome?_eq_some_iff.mp h
  refine ⟨i, hi, fun j hj q hq => ?_⟩
  simpa using List.find?_eq_none.mp (hnone j (mem_left_of_finRange hsplit hj)) q hq

/-- In a well-queued state, the queue the scan stops in is that of the
process it returns. -/
theorem pick_home {s : Sys} (hw : s.WellQueued)
    (h : s.kern.pickHighestPriorityRunnableProc = some p) (hl : s.lock p = false) :
    (s.kern.prio (s.home p)).find? (fun q => (s.kern.proc q).state = .runnable) = some p ∧
      ∀ j, j < s.home p → ∀ q ∈ s.kern.prio j, (s.kern.proc q).state ≠ .runnable := by
  obtain ⟨i, hi, hlow⟩ := pick_first h
  have hmust : s.Must p := ⟨hl, .inl (by simp [pick_runnable h, ProcState.waiting])⟩
  obtain rfl : i = s.home p := by
    by_contra hne
    exact (hw p hmust).2 i hne (List.mem_of_find?_eq_some hi)
  exact ⟨hi, hlow⟩

theorem find?_takeWhile {P : ProcId → Bool} {l : List ProcId}
    (h : l.find? P = some p) (hq : q ∈ l.takeWhile (· ≠ p)) : P q = false := by
  induction l with
  | nil => simp at hq
  | cons a l ih =>
      rw [List.find?_cons] at h
      cases hP : P a with
      | true =>
          obtain rfl : a = p := by simpa [hP] using h
          simp at hq
      | false =>
          rw [hP] at h
          rw [List.takeWhile_cons] at hq
          split at hq
          · rcases List.mem_cons.mp hq with rfl | hq
            · exact hP
            · exact ih h hq
          · simp at hq

/-! ### The order between two dispatches -/

/-- After the dispatch of `p`, everything else in its queue is ahead of it. -/
theorem ahead_of_dispatch {s t : Sys} (hw : s.WellQueued)
    (h : s.step (.dispatch p) = some t) (hq : q ∈ t.kern.prio (s.home p)) (hqp : q ≠ p) :
    Ahead q p (t.kern.prio (s.home p)) := by
  obtain ⟨⟨hp, hl⟩, ⟨⟩⟩ := Option.ite_none_right_eq_some.mp h
  have hmust : s.Must p := ⟨hl, .inl (by simp [pick_runnable hp, ProcState.waiting])⟩
  have hgone : p ∉ (s.kern.prio (s.home p)).erase p := by
    rw [← List.count_eq_zero, List.count_erase_self, (hw p hmust).1]
  have hprio : (s.kern.schedule p).prio (s.home p) =
      (s.kern.prio (s.home p)).erase p ++ [p] := by
    simp [home, Lib.requeue, Lib.enqueue, Lib.dequeue]
  rw [kern_setKern, hprio] at hq ⊢
  refine (ahead_of_not_mem hgone).append (.inl ?_)
  simpa [hqp] using hq

/-- A step that does not renice `q` keeps `q` ahead of `p` as long as `q`
waits in the queue. -/
theorem step_ahead {s t : Sys} {a : Act} {i : Fin nprio} (hb : Base s)
    (hq : WaitsIn q i s) (hq' : WaitsIn q i t) (hnice : NiceSpares q s a)
    (hA : Ahead q p (s.kern.prio i)) (h : s.step a = some t) : Ahead q p (t.kern.prio i) := by
  cases (step_spec hb h).2 with
  | quiet prio listed must => rwa [prio]
  | enqueue r prio before after listed must =>
      rw [prio]
      exact hA.enqueue hq.1
  | dequeue r prio label listed must =>
      rw [prio]
      refine hA.dequeue ?_
      rintro rfl
      subst label
      -- `exit` runs in a `RUNNING` process
      simp only [step, Option.ite_none_right_eq_some] at h
      have hrun := h.1.1
      simp [hq.2] at hrun
  | requeue r prio label listed must others =>
      rw [prio]
      refine hA.requeue hq.1 ?_
      rintro rfl
      rcases label with ⟨-, hrun, -⟩ | ⟨pid, rfl, hp⟩
      · simp [hq'.2] at hrun
      · exact hnice hp

theorem Until.head {i : Fin nprio} {z : Act} {s : Sys} {mid : List Act}
    (h : Until step (WaitsIn q i) z s mid) : WaitsIn q i s := by
  cases mid with
  | nil => exact h
  | cons a mid => exact h.1

/-- The same along a run. -/
theorem run_ahead {s t : Sys} {mid : List Act} {i : Fin nprio} (hb : Base s)
    (hstay : Until step (WaitsIn q i) (.dispatch q) s mid) (hdisp : .dispatch q ∉ mid)
    (hnice : Meets step (NiceSpares q) s mid) (hA : Ahead q p (s.kern.prio i))
    (h : run step s mid = some t) : Ahead q p (t.kern.prio i) ∧ WaitsIn q i t := by
  induction mid generalizing s with
  | nil =>
      obtain rfl : s = t := Option.some.inj h
      exact ⟨hA, hstay⟩
  | cons a mid ih =>
      obtain ⟨u, hu, h⟩ := run_cons_eq_some.mp h
      rw [List.mem_cons, not_or] at hdisp
      have hstay' := hstay.2.resolve_left (Ne.symm hdisp.1) u hu
      exact ih (step_spec hb hu).1 hstay' hdisp.2 (hnice.2 u hu)
        (step_ahead hb hstay.1 (Until.head hstay') hnice.1 hA hu) h

end Sys

open Sys

/-- Every dispatch of the run takes a process of the best priority that
has a `RUNNABLE` one, and the first `RUNNABLE` one of that queue. -/
def DispatchesFirst (as : List Act) : Prop :=
  ∀ bs p cs s, as = bs ++ .dispatch p :: cs → run step init bs = some s →
    (∀ j, j < s.home p → ∀ q ∈ s.kern.prio j, (s.kern.proc q).state ≠ .runnable) ∧
      ∀ q ∈ (s.kern.prio (s.home p)).takeWhile (· ≠ p), (s.kern.proc q).state ≠ .runnable

/-- Between two consecutive dispatches of `p` at one priority, every other
process `q` that waits in that queue as long as it is not dispatched, and
on which every step in between meets `C q`, is dispatched. -/
def BoundedOvertaking (C : ProcId → Sys → Act → Prop) (as : List Act) : Prop :=
  ∀ bs mid cs p q s t u, as = bs ++ .dispatch p :: (mid ++ .dispatch p :: cs) →
    run step init bs = some s → step s (.dispatch p) = some t → run step t mid = some u →
    .dispatch p ∉ mid → s.home p = u.home p → q ≠ p →
    Until step (WaitsIn q (s.home p)) (.dispatch q) t mid → Meets step (C q) t mid →
    .dispatch q ∈ mid

/-- **The scheduling policy**, along every run from boot in which every
process that has to be queued is queued exactly once, under its own
priority. -/
theorem scheduling_policy (as : List Act) (t : Sys) (h : run step init as = some t)
    (hw : Meets step (fun s _ => s.WellQueued) init as) :
    DispatchesFirst as ∧ BoundedOvertaking NiceSpares as := by
  have hbase : ∀ {bs s}, run step init bs = some s → Base s := fun hs =>
    invariant' (fun hb hstep => (step_spec hb hstep).1) init_base hs
  constructor
  · rintro bs p cs s rfl hs
    obtain ⟨-, hwell, -⟩ := meets_append hw hs
    obtain ⟨s', hs', hrest⟩ := run_append_eq_some.mp h
    obtain rfl : s = s' := Option.some.inj (hs.symm.trans hs')
    obtain ⟨v, hv, -⟩ := run_cons_eq_some.mp hrest
    simp only [step, Option.ite_none_right_eq_some] at hv
    obtain ⟨hfind, hlow⟩ := pick_home hwell hv.1.1 hv.1.2
    refine ⟨hlow, fun q hq => ?_⟩
    simpa using find?_takeWhile hfind hq
  · rintro bs mid cs p q s t' u rfl hs ht hu hconsec hhome hqp hstay hnice
    obtain ⟨-, hwell, hwt⟩ := meets_append hw hs
    obtain ⟨-, hwu, -⟩ := meets_append (hwt t' ht) hu
    by_contra hdisp
    obtain ⟨hA, hwait⟩ := run_ahead (step_spec (hbase hs) ht).1 hstay hdisp hnice
      (ahead_of_dispatch hwell ht (Until.head hstay).1 hqp) hu
    -- the second dispatch scans past `q`
    have hrun : run step init (bs ++ .dispatch p :: mid) = some u :=
      run_append_eq_some.mpr ⟨s, hs, run_cons_eq_some.mpr ⟨t', ht, hu⟩⟩
    rw [show bs ++ Act.dispatch p :: (mid ++ .dispatch p :: cs) =
      (bs ++ .dispatch p :: mid) ++ .dispatch p :: cs by simp] at h
    obtain ⟨u', hu', hrest⟩ := run_append_eq_some.mp h
    obtain rfl : u = u' := Option.some.inj (hrun.symm.trans hu')
    obtain ⟨v, hv, -⟩ := run_cons_eq_some.mp hrest
    simp only [step, Option.ite_none_right_eq_some] at hv
    obtain ⟨hfind, -⟩ := pick_home hwu hv.1.1 hv.1.2
    rw [hhome] at hA
    exact hA.find?_ne (by simpa using hwait.2) hqp hfind

/-- Init and its child take turns. -/
theorem scheduling_policy_fork :
    DispatchesFirst [.userinit, .dispatch 0, .fork 0 1, .forkEnqueue 0, .yield 0, .dispatch 0,
        .yield 0, .dispatch 1, .yield 1, .dispatch 0] ∧
      BoundedOvertaking NiceSpares [.userinit, .dispatch 0, .fork 0 1, .forkEnqueue 0,
        .yield 0, .dispatch 0, .yield 0, .dispatch 1, .yield 1, .dispatch 0] :=
  scheduling_policy _ _
    (Option.some_get (by decide +kernel : Option.isSome _ = true)).symm (by decide +kernel)

/-- Init forks process 1, is dispatched ahead of it, and renices it to the
priority it has; then init is dispatched again. -/
theorem reniced_overtaken :
    ¬ ∀ as t, run step init as = some t → Meets step (fun s _ => s.WellQueued) init as →
      BoundedOvertaking (fun _ _ _ => True) as := by
  intro h
  have := h [.userinit, .dispatch 0, .fork 0 1, .forkEnqueue 0, .yield 0, .dispatch 0,
      .nice 2 5, .yield 0, .dispatch 0] _
    (Option.some_get (by decide +kernel : Option.isSome _ = true)).symm (by decide +kernel)
    [.userinit, .dispatch 0, .fork 0 1, .forkEnqueue 0, .yield 0] [.nice 2 5, .yield 0] []
    0 1 _ _ _ rfl
    (Option.some_get (by decide +kernel : Option.isSome _ = true)).symm
    (Option.some_get (by decide +kernel : Option.isSome _ = true)).symm
    (Option.some_get (by decide +kernel : Option.isSome _ = true)).symm
    (by decide) (by decide +kernel) (by decide) (by decide +kernel)
    (meets_of_forall (fun _ _ => trivial) _ _)
  exact absurd this (by decide)

end Xv6.Sched
