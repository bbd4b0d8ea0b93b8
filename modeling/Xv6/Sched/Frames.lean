import Xv6.Sched.Queues

/-!
What a step of the critical sections leaves as it is. Each exception
names the step that makes it, so that a finer model can rule it out by
looking at who takes the step.
-/

namespace Xv6.Sched

open Lib

/-- Inside `exit`, before the process is a zombie. -/
def Pos.exiting : Pos → Bool
  | .exitWakeInit | .exitDequeue | .exitParent | .exitFinal _ => true
  | _ => false

namespace Sys

/-- What a step leaves as it is, with the steps that are the exceptions. -/
structure Frame (s : Sys) (a : Act) (t : Sys) : Prop where
  running : ∀ b, (s.kern.proc b).state = .running → (t.kern.proc b).state = .running ∨
    a = .yield b ∨ (∃ chan, a = .sleep b chan) ∨
      ∃ status, a = .exitZombie b status ∧ (t.kern.proc b).state = .zombie
  runnable : ∀ b, (s.kern.proc b).state = .runnable → (t.kern.proc b).state = .runnable ∨
    a = .dispatch b ∨ a = .dispatchLate b
  zombie : ∀ b, (s.kern.proc b).state = .zombie → (t.kern.proc b).state = .zombie ∨
    ∃ x, a = .wait x b
  live : ∀ b, (t.kern.proc b).state.live = true → (s.kern.proc b).state.live = true ∨
    ∃ x, a = .fork x b
  parent : ∀ b x, (t.kern.proc b).parent = some x → (s.kern.proc b).parent = some x ∨
    s.kern.initproc = some x ∨ a = .fork x b
  keeps : ∀ b x, (s.kern.proc b).parent = some x → (s.kern.proc b).state ≠ .unused →
    (t.kern.proc b).parent = some x ∨ a = .wait x b ∨ a = .exitReparent x b
  unused : ∀ b, (t.kern.proc b).state = .unused → (t.kern.proc b).parent = none ∨
    (s.kern.proc b).state = .unused ∧
      ((s.kern.proc b).parent = none → (t.kern.proc b).parent = none)
  init : t.kern.initproc = s.kern.initproc
  queued : ∀ b i, b ∈ s.kern.prio i → (∃ j, b ∈ t.kern.prio j) ∨ a = .exitDequeue b

variable {s t : Sys} {a : Act}

/-- What a step does to the slot `b`, which was `x` and is now `y`. -/
inductive Change (k : Kern) (a : Act) (b : ProcId) (x y : Proc) : Prop
  | kept (hy : y = x)
  | niced (i : Fin nprio) (hy : y = { x with priority := i })
  | killed (hy : y = { x with killed := true })
  | woken (killed : Bool) (hx : x.state = .sleeping) (hy : y = { x with state := .runnable, killed })
  | named (pid : CInt) (hx : x.state = .unused) (hy : y = { x with pid })
  | forked (p : ProcId) (pid : CInt) (i : Fin nprio) (ha : a = .fork p b) (hx : x.state = .unused)
      (hy : y = { x with pid, priority := i, parent := some p, state := .runnable })
  | freed (hx : x.state = .unused ∨ x.state = .zombie ∧ ∃ p, x.parent = some p ∧ a = .wait p b)
      (hy : y = {})
  | reparented (p : ProcId) (ha : a = .exitReparent p b) (hx : x.parent = some p)
      (hy : y = { x with parent := k.initproc })
  | died (status : CInt) (ha : a = .exitZombie b status) (hx : x.state = .running)
      (hy : y = { x with xstate := status, state := .zombie })
  | slept (chan : Chan) (ha : a = .sleep b chan) (hx : x.state = .running)
      (hy : y = { x with chan, state := .sleeping })
  | dispatched (ha : a = .dispatch b ∨ a = .dispatchLate b) (hx : x.state = .runnable)
      (hy : y = { x with state := .running, chan := .null })
  | yielded (ha : a = .yield b) (hx : x.state = .running) (hy : y = { x with state := .runnable })

/-- What a step does to the table and the queues. -/
structure Rewrites (s : Sys) (a : Act) (t : Sys) : Prop where
  slot : ∀ b, Change s.kern a b (s.kern.proc b) (t.kern.proc b)
  init : t.kern.initproc = s.kern.initproc
  queued : ∀ b i, b ∈ s.kern.prio i → (∃ j, b ∈ t.kern.prio j) ∨ a = .exitDequeue b

/-- A step that leaves the table alone. -/
theorem Rewrites.of_queues (hproc : t.kern.proc = s.kern.proc)
    (init : t.kern.initproc = s.kern.initproc)
    (queued : ∀ b i, b ∈ s.kern.prio i → (∃ j, b ∈ t.kern.prio j) ∨ a = .exitDequeue b) :
    Rewrites s a t :=
  ⟨fun b => .kept (congrFun hproc b), init, queued⟩

/-- A step that rewrites the slot `p` and leaves the queues alone. -/
theorem Rewrites.of_slot (p : ProcId) (hoff : ∀ b, b ≠ p → t.kern.proc b = s.kern.proc b)
    (hp : Change s.kern a p (s.kern.proc p) (t.kern.proc p))
    (hprio : t.kern.prio = s.kern.prio) (init : t.kern.initproc = s.kern.initproc) :
    Rewrites s a t := by
  refine ⟨fun b => ?_, init, fun b i hb => .inl ⟨i, by rwa [hprio]⟩⟩
  by_cases hb : b = p
  · exact hb ▸ hp
  · exact .kept (hoff b hb)

theorem wakeup1_change (k : Kern) (q b : ProcId) :
    Change k a b (k.proc b) ((k.wakeup1 q).proc b) := by
  simp only [Kern.wakeup1, Kern.proc_modify]
  split
  · subst_vars
    split
    · exact .woken _ ‹_ ∧ _›.2 rfl
    · exact .kept rfl
  · exact .kept rfl

theorem schedule_rewrites {p : ProcId} (ha : a = .dispatch p ∨ a = .dispatchLate p)
    (hr : (s.kern.proc p).state = .runnable) : Rewrites s a (s.setKern (s.kern.schedule p)) := by
  refine ⟨fun b => ?_, rfl, fun b i hb => .inl ?_⟩
  · by_cases hb : b = p
    · subst hb
      exact .dispatched ha hr (by simp [Kern.schedule])
    · exact .kept (by simp [Kern.schedule, hb])
  · rw [kern_setKern, Kern.prio_schedule]
    by_cases hbp : b = p
    · subst hbp
      exact ⟨_, mem_requeue_self⟩
    · exact ⟨i, (mem_requeue_of_ne hbp).mpr hb⟩

theorem nice_rewrites (pid : CInt) (i : Fin nprio) :
    Rewrites s a (s.setKern (s.kern.nice pid i)) := by
  unfold Kern.nice
  split
  · rename_i p hp
    refine ⟨fun b => ?_, rfl, fun b j hb => .inl ?_⟩
    · by_cases hb : b = p
      · exact .niced i (by simp [Kern.niceAt, hb])
      · exact .kept (by simp [Kern.niceAt, hb])
    · rw [kern_setKern, Kern.prio_niceAt]
      by_cases hbp : b = p
      · subst hbp
        exact ⟨_, mem_requeue_self⟩
      · exact ⟨j, (mem_requeue_of_ne hbp).mpr hb⟩
  · exact .of_queues rfl rfl fun _ j h => .inl ⟨j, h⟩

/-- The parent that the last section of `exit` wakes is not the process
itself, which runs. -/
theorem exitZombie_rewrites {p q : ProcId} {status : CInt} (hp : (s.kern.proc p).state = .running) :
    Rewrites s (.exitZombie p status)
      ((s.setKern (s.kern.exitZombie p q status)).setPos p .exited) := by
  refine ⟨fun b => ?_, rfl, fun b i hb => .inl ⟨i, hb⟩⟩
  by_cases hb : b = p
  · subst hb
    refine .died status rfl hp ?_
    by_cases hbq : b = q
    · subst hbq
      simp [Kern.exitZombie, Kern.wakeup1, hp]
    · simp [Kern.exitZombie, Kern.wakeup1, hbq]
  · simpa [Kern.exitZombie, hb] using wakeup1_change s.kern q b

theorem step_rewrites (ha : a ≠ .userinit) (h : s.step a = some t) : Rewrites s a t := by
  cases a with
  | userinit => exact absurd rfl ha
  | fork p np =>
      obtain ⟨⟨-, hf⟩, ⟨⟩⟩ := Option.ite_none_right_eq_some.mp h
      refine .of_slot np (fun b hb => by simp [Kern.forkChild, Kern.allocproc, hb]) ?_ rfl rfl
      exact .forked p s.kern.nextpid ⟨defPrio, by decide⟩ rfl hf.1
        (by simp [Kern.forkChild, Kern.allocproc])
  | forkEnqueue p =>
      simp only [step] at h
      split at h <;> cases h
      exact .of_queues rfl rfl fun b i hb => .inl ⟨i, mem_enqueue.mpr (.inl hb)⟩
  | forkNoTrapframe p np =>
      obtain ⟨⟨-, hf⟩, ⟨⟩⟩ := Option.ite_none_right_eq_some.mp h
      refine .of_slot np (fun b hb => by simp [hb]) ?_ rfl rfl
      exact .named s.kern.nextpid hf.1 (by simp)
  | forkNoMemory p np =>
      obtain ⟨⟨-, hf⟩, ⟨⟩⟩ := Option.ite_none_right_eq_some.mp h
      refine .of_slot np (fun b hb => by simp [Kern.freeproc, Kern.allocproc, hb]) ?_ rfl rfl
      exact .freed (.inl hf.1) (by simp [Kern.freeproc])
  | exit p =>
      obtain ⟨-, ⟨⟩⟩ := Option.ite_none_right_eq_some.mp h
      exact .of_queues rfl rfl fun b i hb => .inl ⟨i, hb⟩
  | exitWakeInit p =>
      simp only [step] at h
      split at h
      · obtain ⟨-, ⟨⟩⟩ := Option.ite_none_right_eq_some.mp h
        exact ⟨wakeup1_change _ _, rfl, fun b i hb => .inl ⟨i, hb⟩⟩
      · cases h
  | exitDequeue p =>
      obtain ⟨-, ⟨⟩⟩ := Option.ite_none_right_eq_some.mp h
      refine .of_queues rfl rfl fun b i hb => ?_
      by_cases hbp : b = p
      · exact .inr (hbp ▸ rfl)
      · exact .inl ⟨i, (mem_dequeue_of_ne hbp).mpr hb⟩
  | exitParent p =>
      simp only [step] at h
      split at h
      · obtain ⟨-, ⟨⟩⟩ := Option.ite_none_right_eq_some.mp h
        exact .of_queues rfl rfl fun b i hb => .inl ⟨i, hb⟩
      · cases h
  | exitReparent p pp =>
      simp only [step] at h
      split at h
      · obtain ⟨⟨-, hpar, -⟩, ⟨⟩⟩ := Option.ite_none_right_eq_some.mp h
        refine .of_slot pp (fun b hb => by simp [Kern.reparentAt, hb]) ?_ rfl rfl
        exact .reparented p rfl hpar (by simp [Kern.reparentAt])
      · cases h
  | exitZombie p status =>
      simp only [step] at h
      split at h
      · obtain ⟨⟨hp, -⟩, ⟨⟩⟩ := Option.ite_none_right_eq_some.mp h
        exact exitZombie_rewrites hp.1
      · cases h
  | wait p np =>
      obtain ⟨⟨-, hpar, hz, -⟩, ⟨⟩⟩ := Option.ite_none_right_eq_some.mp h
      refine .of_slot np (fun b hb => by simp [Kern.freeproc, hb]) ?_ rfl rfl
      exact .freed (.inr ⟨hz, p, hpar, rfl⟩) (by simp [Kern.freeproc])
  | sleep p chan =>
      obtain ⟨hp, ⟨⟩⟩ := Option.ite_none_right_eq_some.mp h
      refine .of_slot p (fun b hb => by simp [Kern.sleep, hb]) ?_ rfl rfl
      exact .slept chan rfl hp.1 (by simp [Kern.sleep])
  | wakeup q chan =>
      obtain ⟨-, ⟨⟩⟩ := Option.ite_none_right_eq_some.mp h
      refine .of_slot q (fun b hb => by simp [Kern.wakeupAt, hb]) ?_ rfl rfl
      by_cases hq : (s.kern.proc q).state = .sleeping ∧ (s.kern.proc q).chan = chan
      · exact .woken (s.kern.proc q).killed hq.1 (by simp [Kern.wakeupAt, hq])
      · exact .kept (by simp [Kern.wakeupAt, hq])
  | kill q pid =>
      obtain ⟨-, ⟨⟩⟩ := Option.ite_none_right_eq_some.mp h
      refine .of_slot q (fun b hb => by simp [Kern.killAt, hb]) ?_ rfl rfl
      by_cases hq : (s.kern.proc q).state = .sleeping
      · exact .woken true hq (by simp [Kern.killAt, hq])
      · exact .killed (by simp [Kern.killAt, hq])
  | nice pid i =>
      cases h
      exact nice_rewrites pid i
  | dispatch p =>
      obtain ⟨⟨hp, -⟩, ⟨⟩⟩ := Option.ite_none_right_eq_some.mp h
      exact schedule_rewrites (.inl rfl) (pick_runnable hp)
  | dispatchLate p =>
      obtain ⟨⟨hr, -⟩, ⟨⟩⟩ := Option.ite_none_right_eq_some.mp h
      exact schedule_rewrites (.inr rfl) hr
  | yield p =>
      obtain ⟨⟨hp, -⟩, ⟨⟩⟩ := Option.ite_none_right_eq_some.mp h
      refine .of_slot p (fun b hb => by simp [Kern.yield, hb]) ?_ rfl rfl
      exact .yielded rfl hp (by simp [Kern.yield])

theorem step_frame (ha : a ≠ .userinit) (h : s.step a = some t) : Frame s a t := by
  obtain ⟨hslot, init, queued⟩ := step_rewrites ha h
  refine ⟨fun b hb => ?_, fun b hb => ?_, fun b hb => ?_, fun b hb => ?_, fun b x hb => ?_,
    fun b x hb hu => ?_, fun b hb => ?_, init, queued⟩
  -- each constructor of `Change` settles each of the seven in its own slot
  all_goals
    cases hslot b <;> simp_all [ProcState.live]
    try tauto

theorem exitZombie_zombie {p : ProcId} {status : CInt} (h : s.step (.exitZombie p status) = some t) :
    (t.kern.proc p).state = .zombie := by
  simp only [step] at h
  split at h
  · obtain ⟨-, ⟨⟩⟩ := Option.ite_none_right_eq_some.mp h
    exact exitZombie_state _ _ _ _
  · cases h

/-- `UNUSED` slots have no parent. -/
def Orphans (s : Sys) : Prop :=
  ∀ b, (s.kern.proc b).state = .unused → (s.kern.proc b).parent = none

theorem Frame.orphans (h : Frame s a t) (hs : s.Orphans) : t.Orphans := by
  intro b hb
  rcases h.unused b hb with hn | ⟨hu, hn⟩
  · exact hn
  · exact hn (hs b hu)

/-- The parent of a process is changed by its parent only. -/
theorem Frame.parent_kept (h : Frame s a t) (hs : s.Orphans) {b x : ProcId}
    (hb : (s.kern.proc b).parent = some x) :
    (t.kern.proc b).parent = some x ∨ a = .wait x b ∨ a = .exitReparent x b :=
  h.keeps b x hb fun hu => by simp [hs b hu] at hb

/-- Init does not exit. -/
theorem step_exiting (h : s.step a = some t) {b : ProcId} (hb : (t.pos b).exiting = true) :
    (s.pos b).exiting = true ∨ a = .exit b ∧ s.kern.initproc ≠ some b := by
  cases a <;> simp only [step] at h
  case userinit =>
    simp only [Option.ite_none_right_eq_some, Option.map_eq_some_iff] at h
    obtain ⟨-, p, -, rfl⟩ := h
    grind [Pos.exiting, pos_setPos, pos_setKern]
  case dispatchLate p =>
    obtain ⟨-, ⟨⟩⟩ := Option.ite_none_right_eq_some.mp h
    exact .inl hb
  all_goals grind [Pos.exiting, pos_setPos, pos_setKern, pos_setLock, At]

end Sys

end Xv6.Sched
