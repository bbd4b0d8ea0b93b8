import Xv6.Sched.Effects

/-!
The two queue invariants along whole runs.

`NoRunnableLost` is what the scheduler needs: a process that waits for a
CPU can be found by `pick_highest_priority_runnable_proc`. `exit` breaks
it. It takes the process out of its queue, drops all locks, and only makes
it a zombie two critical sections later; a timer interrupt in between runs
`yield`, and the process is `RUNNABLE` in no queue. That window is the only
way to lose a process: `runnable_kept_iff`.

`NoStaleEntry` is what the queues need. `nice` breaks it: it looks only at
pids, so it queues slots that hold no process (pid 0 names every `UNUSED`
slot), zombies and processes that `exit` has already taken out. As long as
`nice` finds a process that may stand in a queue, the queues stay exact:
`no_stale_entry`.
-/

namespace Xv6.Sched

open Lib

namespace Sys

/-- Every `RUNNABLE` process whose lock is free is in the queue of its
priority. `prio_lock` is free in every state between two steps. -/
def NoRunnableLost (s : Sys) : Prop :=
  ∀ p, (s.kern.proc p).state = .runnable → s.lock p = false →
    p ∈ s.kern.prio (s.kern.proc p).priority

/-- A `yield` by a process that `exit` has dequeued finds the process put
back in its queue in the meantime (by a `nice`). -/
def YieldsQueued (s : Sys) : Act → Prop
  | .yield p => (s.pos p).dequeued = true → p ∈ s.kern.prio (s.kern.proc p).priority
  | _ => True

/-- The invariant behind `NoRunnableLost`: every process that has to be
queued is. -/
def KeepInv (s : Sys) : Prop := Base s ∧ Kept s.kern.prio s.home s.Must

theorem init_keepInv : KeepInv init :=
  ⟨init_base, fun p h => by
    have : (procinit.proc p).state.waiting = true ∨ (procinit.proc p).state = .running ∧ _ := h.2
    simp [procinit, ProcState.waiting] at this⟩

theorem step_keepInv {s t : Sys} {a : Act} (hs : KeepInv s) (ha : YieldsQueued s a)
    (h : s.step a = some t) : KeepInv t := by
  obtain ⟨hb, he⟩ := step_spec hs.1 h
  refine ⟨hb, ?_⟩
  cases he with
  | quiet prio listed must =>
      intro b hM
      obtain ⟨hb', hhome⟩ := must b hM
      rw [prio, hhome]
      by_cases hm : s.Must b
      · exact hs.2 b hm
      · obtain rfl := hb'.resolve_left hm
        obtain ⟨⟨hrun, hl, -⟩, ⟨⟩⟩ := Option.ite_none_right_eq_some.mp h
        refine ha ?_
        by_contra hd
        exact hm ⟨hl, .inr ⟨hrun, by simpa using hd⟩⟩
  | enqueue p prio before after listed must =>
      rw [prio]
      exact hs.2.enqueue must
  | dequeue p prio label listed must =>
      rw [prio]
      exact hs.2.dequeue must
  | requeue p prio label listed must others =>
      rw [prio]
      exact hs.2.requeue fun b hb hM => ⟨must b hM, others b hb⟩

theorem KeepInv.noRunnableLost {s : Sys} (hs : KeepInv s) : NoRunnableLost s :=
  fun p hr hl => hs.2 p ⟨hl, .inl (by simp [hr, ProcState.waiting])⟩

/-- The step that loses a process. -/
theorem yield_loses {s t : Sys} {p : ProcId} (hd : p ∉ s.kern.prio (s.kern.proc p).priority)
    (h : s.step (.yield p) = some t) : ¬ NoRunnableLost t := by
  obtain ⟨⟨-, hl, -⟩, ⟨⟩⟩ := Option.ite_none_right_eq_some.mp h
  intro hk
  apply hd
  simpa [Kern.yield] using hk p (by simp [Kern.yield]) hl

/-- Every entry of a queue is a live process of that priority, and no
process has two entries. -/
structure NoStaleEntry (s : Sys) : Prop where
  entry : ∀ i, ∀ p ∈ s.kern.prio i,
    (s.kern.proc p).priority = i ∧ (s.kern.proc p).state.live = true
  nodup : ∀ i, (s.kern.prio i).Nodup
  once : ∀ i j p, p ∈ s.kern.prio i → p ∈ s.kern.prio j → i = j

/-- A `nice` that finds a slot finds a process that may stand in a queue:
live, not being built by `fork`, and not dequeued by `exit`. -/
def NicesListed (s : Sys) : Act → Prop
  | .nice pid _ => ∀ p, s.kern.findPid pid = some p → s.Listed p
  | _ => True

instance (s : Sys) : (a : Act) → Decidable (s.NicesListed a)
  | .nice pid _ => inferInstanceAs (Decidable (∀ p, s.kern.findPid pid = some p → s.Listed p))
  | .userinit | .fork .. | .forkEnqueue .. | .forkNoTrapframe .. | .forkNoMemory ..
  | .exit .. | .exitWakeInit .. | .exitDequeue .. | .exitParent .. | .exitReparent ..
  | .exitZombie ..
  | .wait .. | .sleep .. | .wakeup .. | .kill .. | .dispatch .. | .dispatchLate ..
  | .yield .. => isTrue trivial

/-- The invariant behind `NoStaleEntry`. -/
def FileInv (s : Sys) : Prop := Base s ∧ Filed s.kern.prio s.home s.Listed

theorem init_fileInv : FileInv init :=
  ⟨init_base, fun h => absurd h List.not_mem_nil, fun _ => List.nodup_nil⟩

theorem step_fileInv {s t : Sys} {a : Act} (hs : FileInv s) (ha : NicesListed s a)
    (h : s.step a = some t) : FileInv t := by
  obtain ⟨hb, he⟩ := step_spec hs.1 h
  refine ⟨hb, ?_⟩
  cases he with
  | quiet prio listed must =>
      rw [prio]
      exact hs.2.congr listed
  | enqueue p prio before after listed must =>
      rw [prio]
      exact hs.2.enqueue (hs.2.not_mem before) after listed
  | dequeue p prio label listed must =>
      rw [prio]
      exact hs.2.dequeue listed
  | requeue p prio label listed must others =>
      rw [prio]
      refine hs.2.requeue (listed p ?_) fun b hb hL => ⟨listed b hL, others b hb⟩
      rcases label with ⟨-, -, i, hi⟩ | ⟨pid, rfl, hp⟩
      · exact (hs.2.mem hi).1
      · exact ha p hp

theorem FileInv.noStaleEntry {s : Sys} (hs : FileInv s) : NoStaleEntry s where
  entry _ _ hp := ⟨(hs.2.mem hp).2, (hs.2.mem hp).1.1⟩
  nodup := hs.2.nodup
  once _ _ _ hi hj := (hs.2.mem hi).2.symm.trans (hs.2.mem hj).2

end Sys

open Sys

/-- **When no runnable process is lost.** Along a run from boot, every
state keeps the runnable processes findable if and only if every timer
`yield` of a process between its dequeue in `exit` and its `ZOMBIE` finds
it back in its queue. -/
theorem runnable_kept_iff (as : List Act) (t : Sys) (h : run step init as = some t) :
    (∀ bs s, bs <+: as → run step init bs = some s → NoRunnableLost s) ↔
      Meets step YieldsQueued init as := by
  refine forall_prefix_iff_meets KeepInv.noRunnableLost step_keepInv ?_ init_keepInv h
  intro s a t _ ha hstep
  cases a with
  | yield p =>
      simp only [YieldsQueued, not_forall] at ha
      obtain ⟨-, hp⟩ := ha
      exact yield_loses hp hstep
  | _ => exact absurd trivial ha

/-- Boot, the first dispatch and a timer interrupt. -/
theorem runnable_kept_iff_boot :
    (∀ bs s, bs <+: [.userinit, .dispatch 0, .yield 0] → run step init bs = some s →
        NoRunnableLost s) ↔
      Meets step YieldsQueued init [.userinit, .dispatch 0, .yield 0] :=
  runnable_kept_iff [.userinit, .dispatch 0, .yield 0] _
    (Option.some_get (by decide +kernel : Option.isSome _ = true)).symm

/-- The run that loses process 1: init forks it and sleeps in `wait`, it
exits, and the timer interrupts it right after it has left its queue. -/
def losingRun : List Act :=
  [.userinit, .dispatch 0, .fork 0 1, .forkEnqueue 0, .sleep 0 (.proc 0), .dispatch 1,
   .exit 1, .exitWakeInit 1, .exitDequeue 1, .yield 1]

theorem runnable_process_lost :
    ¬ ∀ as t, run step init as = some t → NoRunnableLost t := by
  intro h
  have hrun : (run step init losingRun).any (fun t =>
      (t.kern.proc 1).state = .runnable ∧ t.lock 1 = false ∧
        1 ∉ t.kern.prio (t.kern.proc 1).priority) = true := by decide +kernel
  obtain ⟨t, ht, hp⟩ := (Option.any_eq_true _ _).mp hrun
  obtain ⟨hr, hl, hq⟩ := of_decide_eq_true hp
  exact hq (h losingRun t ht 1 hr hl)

/-- **When the queues hold no stale and no duplicate entry.** Along a run
from boot in which every `nice` that finds a slot finds a process that may
stand in a queue, the queues are exact. -/
theorem no_stale_entry (as : List Act) (t : Sys) (h : run step init as = some t)
    (hnice : Meets step NicesListed init as) : NoStaleEntry t :=
  (invariant step_fileInv init_fileInv hnice h).noStaleEntry

/-- Init moves itself to priority 3. -/
theorem no_stale_entry_boot :
    ∃ t, run step init [.userinit, .dispatch 0, .nice 1 3] = some t ∧ NoStaleEntry t := by
  have hrun := (Option.some_get
    (by decide +kernel : (run step init [.userinit, .dispatch 0, .nice 1 3]).isSome)).symm
  exact ⟨_, hrun, no_stale_entry _ _ hrun (by decide +kernel)⟩

/-- `nice(0, 3)` queues an `UNUSED` slot. -/
theorem unused_slot_queued :
    ¬ ∀ as t, run step init as = some t → NoStaleEntry t := by
  intro h
  have hrun : (run step init [.userinit, .dispatch 0, .nice 0 3]).any (fun t =>
      1 ∈ t.kern.prio 3 ∧ (t.kern.proc 1).state.live = false) = true := by decide +kernel
  obtain ⟨t, ht, hp⟩ := (Option.any_eq_true _ _).mp hrun
  obtain ⟨hm, hl⟩ := of_decide_eq_true hp
  have := ((h _ t ht).entry 3 1 hm).2
  simp [hl] at this

end Xv6.Sched
