import Xv6.Sched.System

/-!
What one step does to the queues, said once.

A step does one of four things: it leaves the queues alone, it adds a
process at the tail of the queue of its priority, it takes one out, or it
moves one to the tail of a queue. `step_effect` classifies every step and
records, for the processes it does not move, what cannot have changed.
All statements about whole runs are derived from it.

`Listed` is the condition for standing in a queue: the process is live, it
is not being built by `fork`, and `exit` has not taken it out. `Must` is
the condition for having to stand in one: it is waiting for a CPU or an
event, or it is running and will wait again.
-/

namespace Xv6.Sched

open Lib

/-- Neither `UNUSED` nor `ZOMBIE`. -/
def ProcState.live : ProcState → Bool
  | .sleeping => true
  | .runnable => true
  | .running => true
  | _ => false

/-- `SLEEPING` or `RUNNABLE`. -/
def ProcState.waiting : ProcState → Bool
  | .sleeping => true
  | .runnable => true
  | _ => false

variable {p : ProcId}

variable {k : Kern}

variable {s : Sys}

namespace Sys

/-- The queue a process belongs to. -/
def home (s : Sys) (p : ProcId) : Fin nprio := (s.kern.proc p).priority

/-- The process may stand in a queue. -/
def Listed (s : Sys) (p : ProcId) : Prop :=
  (s.kern.proc p).state.live = true ∧ s.lock p = false ∧ (s.pos p).dequeued = false

instance (s : Sys) (p : ProcId) : Decidable (s.Listed p) :=
  inferInstanceAs (Decidable (_ ∧ _ ∧ _))

/-- The process has to stand in a queue. -/
def Must (s : Sys) (p : ProcId) : Prop :=
  s.lock p = false ∧ ((s.kern.proc p).state.waiting = true ∨
    (s.kern.proc p).state = .running ∧ (s.pos p).dequeued = false)

instance (s : Sys) (p : ProcId) : Decidable (s.Must p) :=
  inferInstanceAs (Decidable (_ ∧ (_ ∨ _ ∧ _)))

/-- What a step with label `a` from `s` to `t` does to the queues. -/
inductive Effect (s : Sys) (a : Act) (t : Sys) : Prop
  | quiet (prio : t.kern.prio = s.kern.prio)
      (listed : ∀ b, s.Listed b → t.Listed b ∧ t.home b = s.home b)
      (must : ∀ b, t.Must b → (s.Must b ∨ a = .yield b) ∧ t.home b = s.home b)
  | enqueue (p : ProcId) (prio : t.kern.prio = Lib.enqueue s.kern.prio (t.home p) p)
      (before : ¬ s.Listed p) (after : t.Listed p)
      (listed : ∀ b, b ≠ p → s.Listed b → t.Listed b ∧ t.home b = s.home b)
      (must : ∀ b, b ≠ p → t.Must b → s.Must b ∧ t.home b = s.home b)
  | dequeue (p : ProcId) (prio : t.kern.prio = Lib.dequeue s.kern.prio (s.home p) p)
      (label : a = .exitDequeue p)
      (listed : ∀ b, b ≠ p → s.Listed b → t.Listed b ∧ t.home b = s.home b)
      (must : ∀ b, t.Must b → b ≠ p ∧ s.Must b ∧ t.home b = s.home b)
  | requeue (p : ProcId) (prio : t.kern.prio = Lib.requeue s.kern.prio (s.home p) (t.home p) p)
      (label : (a = .dispatch p ∨ a = .dispatchLate p) ∧ (t.kern.proc p).state = .running ∧
          (∃ i, p ∈ s.kern.prio i) ∨
        ∃ pid, a = .nice pid (t.home p) ∧ s.kern.findPid pid = some p)
      (listed : ∀ b, s.Listed b → t.Listed b)
      (must : ∀ b, t.Must b → s.Must b)
      (others : ∀ b, b ≠ p → t.home b = s.home b)

/-! ### Frames -/

/-- The slot `b` looks the same to the queues. -/
def Same (s t : Sys) (b : ProcId) : Prop :=
  (t.kern.proc b).state = (s.kern.proc b).state ∧ t.home b = s.home b ∧
    t.lock b = s.lock b ∧ t.pos b = s.pos b

theorem Same.listed {t : Sys} {b : ProcId} (h : Same s t b) (hb : s.Listed b) :
    t.Listed b ∧ t.home b = s.home b := by
  obtain ⟨hstate, hhome, hlock, hpos⟩ := h
  refine ⟨?_, hhome⟩
  rwa [Listed, hstate, hlock, hpos]

theorem Same.must {t : Sys} {b : ProcId} (h : Same s t b) (hb : t.Must b) :
    s.Must b ∧ t.home b = s.home b := by
  obtain ⟨hstate, hhome, hlock, hpos⟩ := h
  refine ⟨?_, hhome⟩
  rwa [Must, hstate, hlock, hpos] at hb

theorem Effect.quiet_of {t : Sys} {a : Act} (prio : t.kern.prio = s.kern.prio)
    (h : ∀ b, Same s t b ∨ (s.Listed b → t.Listed b ∧ t.home b = s.home b) ∧
        (t.Must b → (s.Must b ∨ a = .yield b) ∧ t.home b = s.home b)) : Effect s a t := by
  refine .quiet prio (fun b hb => ?_) (fun b hb => ?_)
  · rcases h b with hs | hs
    · exact hs.listed hb
    · exact hs.1 hb
  · rcases h b with hs | hs
    · exact ⟨.inl (hs.must hb).1, (hs.must hb).2⟩
    · exact hs.2 hb

/-! ### What the critical sections do to the table -/

/-- The section at slot `p` wakes it or leaves its state alone, and changes
no priority and no queue. -/
structure WakesAt (k k' : Kern) (p : ProcId) : Prop where
  prio : k'.prio = k.prio
  priority : ∀ b, (k'.proc b).priority = (k.proc b).priority
  state : ∀ b, (k'.proc b).state = (k.proc b).state ∨
    b = p ∧ (k.proc p).state = .sleeping ∧ (k'.proc p).state = .runnable

theorem WakesAt.refl (k : Kern) (p : ProcId) : WakesAt k k p :=
  ⟨rfl, fun _ => rfl, fun _ => .inl rfl⟩

theorem wakeup1_wakes (k : Kern) (p : ProcId) : WakesAt k (k.wakeup1 p) p := by
  refine ⟨rfl, fun b => ?_, fun b => ?_⟩ <;>
    by_cases hb : b = p <;> simp only [Kern.wakeup1, Kern.proc_modify, hb, if_true, if_false] <;>
    split <;> simp_all

theorem wakeupAt_wakes (k : Kern) (p : ProcId) (chan : Chan) : WakesAt k (k.wakeupAt p chan) p := by
  refine ⟨rfl, fun b => ?_, fun b => ?_⟩ <;>
    by_cases hb : b = p <;> simp only [Kern.wakeupAt, Kern.proc_modify, hb, if_true, if_false] <;>
    split <;> simp_all

theorem killAt_wakes (k : Kern) (p : ProcId) : WakesAt k (k.killAt p) p := by
  refine ⟨rfl, fun b => ?_, fun b => ?_⟩ <;>
    by_cases hb : b = p <;> simp only [Kern.killAt, Kern.proc_modify, hb, if_true, if_false] <;>
    split <;> simp_all

theorem reparentAt_wakes (k : Kern) (p : ProcId) : WakesAt k (k.reparentAt p) p := by
  refine ⟨rfl, fun b => ?_, fun b => .inl ?_⟩ <;>
    by_cases hb : b = p <;> simp [Kern.reparentAt, hb]

/-- The last section of `exit` makes `p` a zombie and may wake its parent. -/
theorem exitZombie_state (k : Kern) (p q : ProcId) (status : CInt) :
    ((k.exitZombie p q status).proc p).state = .zombie := by
  simp [Kern.exitZombie]

theorem exitZombie_wakes (k : Kern) (p q : ProcId) (status : CInt) {b : ProcId} (hb : b ≠ p) :
    ((k.exitZombie p q status).proc b).priority = (k.proc b).priority ∧
      (((k.exitZombie p q status).proc b).state = (k.proc b).state ∨
        b = q ∧ (k.proc b).state = .sleeping ∧
          ((k.exitZombie p q status).proc b).state = .runnable) := by
  have h := wakeup1_wakes k q
  have hp := h.priority b
  have hs := h.state b
  simp only [Kern.exitZombie, Kern.proc_modify, hb, if_false]
  refine ⟨hp, hs.imp_right ?_⟩
  rintro ⟨rfl, hq⟩
  exact ⟨rfl, hq⟩

theorem pick_runnable
    (h : k.pickHighestPriorityRunnableProc = some p) : (k.proc p).state = .runnable := by
  obtain ⟨i, -, hi⟩ := List.exists_of_findSome?_eq_some h
  simpa using List.find?_some hi

theorem pick_mem (h : k.pickHighestPriorityRunnableProc = some p) : ∃ i, p ∈ k.prio i := by
  obtain ⟨i, -, hi⟩ := List.exists_of_findSome?_eq_some h
  exact ⟨i, List.mem_of_find?_eq_some hi⟩

theorem findUnused_unused (h : k.findUnused = some p) : (k.proc p).state = .unused := by
  simpa using List.find?_some h

/-! ### The child `fork` builds -/

/-- A process is inside `fork` exactly while it holds the lock of one
`RUNNABLE` child. -/
structure Base (s : Sys) : Prop where
  forking : ∀ p np, s.pos p = .forking np →
    (s.kern.proc p).state = .running ∧ s.lock np = true
  locked : ∀ np, s.lock np = true → (s.kern.proc np).state = .runnable ∧ s.pos np = .run
  unique : ∀ p q np, s.pos p = .forking np → s.pos q = .forking np → p = q

theorem init_base : Base init where
  forking _ _ h := by cases h
  locked _ h := by cases h
  unique _ _ _ h := by cases h

/-- The slot is neither being built nor building. -/
def Idle (s : Sys) (b : ProcId) : Prop := s.lock b = false ∧ ∀ np, s.pos b ≠ .forking np

theorem At.idle {pos : Pos} (h : s.At p pos) (hpos : ∀ np, pos ≠ .forking np) : s.Idle p :=
  ⟨h.2.1, fun np hp => hpos np (h.2.2.symm.trans hp)⟩

theorem Base.idle (hs : Base s) {b : ProcId} (hl : s.lock b = false)
    (h : (s.kern.proc b).state ≠ .running) : s.Idle b :=
  ⟨hl, fun np hp => h (hs.forking b np hp).1⟩

/-- A step that keeps the locks and works on idle slots only. -/
theorem Base.frame {t : Sys} (hs : Base s) (hlock : t.lock = s.lock)
    (hpos : ∀ b, t.pos b = s.pos b ∨ s.Idle b ∧ ∀ np, t.pos b ≠ .forking np)
    (hstate : ∀ b, (t.kern.proc b).state = (s.kern.proc b).state ∨ s.Idle b) : Base t where
  forking p np h := by
    rcases hpos p with hp | ⟨-, hp⟩
    · rw [hp] at h
      rcases hstate p with he | he
      · rw [he, hlock]
        exact hs.forking p np h
      · exact absurd h (he.2 np)
    · exact absurd h (hp np)
  locked np h := by
    rw [hlock] at h
    obtain ⟨hr, hp⟩ := hs.locked np h
    have hidle : ¬ s.Idle np := fun hi => by simp [hi.1] at h
    exact ⟨((hstate np).resolve_right hidle).trans hr,
      ((hpos np).resolve_right fun hi => hidle hi.1).trans hp⟩
  unique p q np hp hq := by
    rcases hpos p with h | ⟨-, h⟩
    · rcases hpos q with h' | ⟨-, h'⟩
      · exact hs.unique p q np (h ▸ hp) (h' ▸ hq)
      · exact absurd hq (h' np)
    · exact absurd hp (h np)

/-- The same for a step that only rewrites the slot `p`. -/
theorem Base.frame_at (hs : Base s) (hp : s.Idle p)
    (h : ∀ b, b ≠ p → (k.proc b).state = (s.kern.proc b).state) : Base (s.setKern k) := by
  refine hs.frame rfl (fun b => .inl rfl) fun b => ?_
  by_cases hb : b = p
  · exact .inr (hb ▸ hp)
  · exact .inl (h b hb)

/-- The same for a step that moves `p` on and wakes the unlocked slot `q`. -/
theorem Base.frame_wakes (hs : Base s) {q : ProcId} {pos : Pos}
    (hp : s.Idle p) (hpos : ∀ np, pos ≠ .forking np) (hk : WakesAt s.kern k q)
    (hq : s.lock q = false) : Base ((s.setKern k).setPos p pos) := by
  refine hs.frame rfl (fun b => ?_) fun b => ?_
  · by_cases hb : b = p
    · subst hb
      exact .inr ⟨hp, by simpa using hpos⟩
    · simp [hb]
  · rcases hk.state b with h | ⟨rfl, h, -⟩
    · exact .inl h
    · exact .inr (hs.idle hq (by simp [h]))

/-! ### The steps, one kind at a time -/

section Kinds

attribute [local simp] Listed Must home Same ProcState.live ProcState.waiting

variable {s : Sys} {a : Act}

/-- `allocproc` and `freeproc` on a slot that is and stays dead. -/
theorem recycle_spec (hs : Base s) {np : ProcId} (hprio : k.prio = s.kern.prio)
    (hl : s.lock np = false) (hdead : (s.kern.proc np).state.live = false)
    (hdead' : (k.proc np).state.live = false) (h : ∀ b, b ≠ np → k.proc b = s.kern.proc b) :
    Base (s.setKern k) ∧ Effect s a (s.setKern k) := by
  constructor
  · refine hs.frame_at (hs.idle hl fun hr => ?_) fun b hb => by rw [h b hb]
    simp [hr] at hdead
  · refine .quiet_of hprio fun b => ?_
    by_cases hb : b = np
    · subst hb
      right
      cases hk : (s.kern.proc b).state <;> cases hk' : (k.proc b).state <;> simp_all
    · left
      simp [h b hb]

/-- The sections that move `p` on inside a function and wake a sleeper. -/
theorem advance_spec (hs : Base s) {q : ProcId} {pos : Pos} (hp : s.Idle p)
    (hpos : ∀ np, pos ≠ .forking np) (hdeq : pos.dequeued = (s.pos p).dequeued)
    (hk : WakesAt s.kern k q) (hq : s.lock q = false) :
    Base ((s.setKern k).setPos p pos) ∧ Effect s a ((s.setKern k).setPos p pos) := by
  refine ⟨hs.frame_wakes hp hpos hk hq, .quiet_of hk.prio fun b => .inr ?_⟩
  have hd : (if b = p then pos else s.pos b).dequeued = (s.pos b).dequeued := by
    split
    · subst_vars
      exact hdeq
    · rfl
  rcases hk.state b with h | ⟨rfl, h, h'⟩
  · simp only [Listed, Must, home, kern_setPos, kern_setKern, lock_setPos, lock_setKern,
      pos_setPos, pos_setKern, h, hd, hk.priority b]
    tauto
  · simp [h, h', hd, hk.priority b, hq]

/-- A section of `wakeup` or `kill`. -/
theorem wake_spec (hs : Base s) {q : ProcId} (hk : WakesAt s.kern k q)
    (hq : s.lock q = false) : Base (s.setKern k) ∧ Effect s a (s.setKern k) := by
  constructor
  · refine hs.frame rfl (fun b => .inl rfl) fun b => ?_
    rcases hk.state b with h | ⟨rfl, h, -⟩
    · exact .inl h
    · exact .inr (hs.idle hq (by simp [h]))
  · refine .quiet_of hk.prio fun b => .inr ?_
    rcases hk.state b with h | ⟨rfl, h, h'⟩
    · simp only [Listed, Must, home, kern_setKern, lock_setKern, pos_setKern, h, hk.priority b]
      tauto
    · simp [h, h', hk.priority b, hq]

theorem userinit_spec (hs : Base s) (hp : s.kern.findUnused = some p) :
    Base ((s.setKern (s.kern.userinit p)).setPos p .run) ∧
      Effect s .userinit ((s.setKern (s.kern.userinit p)).setPos p .run) := by
  have hu := findUnused_unused hp
  have hl : s.lock p = false := by
    by_contra hl
    have hr := (hs.locked p (by simpa using hl)).1
    simp [hu] at hr
  have hidle : s.Idle p := hs.idle hl (by simp [hu])
  have hne : ∀ b, b ≠ p → (s.kern.userinit p).proc b = s.kern.proc b := fun b hb => by
    simp [Kern.userinit, Kern.allocproc, hb]
  have hsame : ∀ b, b ≠ p → Same s ((s.setKern (s.kern.userinit p)).setPos p .run) b :=
    fun b hb => by simp [hne b hb, hb]
  constructor
  · refine hs.frame rfl (fun b => ?_) fun b => ?_
    · by_cases hb : b = p
      · subst hb
        exact .inr ⟨hidle, by simp⟩
      · exact .inl (hsame b hb).2.2.2
    · by_cases hb : b = p
      · exact .inr (hb ▸ hidle)
      · exact .inl (hsame b hb).1
  · refine .enqueue p rfl (by simp [hu]) ?_ (fun b hb => (hsame b hb).listed)
      (fun b hb => (hsame b hb).must)
    simp [Kern.userinit, hl, Pos.dequeued]

theorem fork_spec (hs : Base s) {np : ProcId} (hp : s.At p .run) (hnp : s.Free np) :
    Base (((s.setKern (s.kern.forkChild p np)).setLock np true).setPos np .run
        |>.setPos p (.forking np)) ∧
      Effect s (.fork p np) (((s.setKern (s.kern.forkChild p np)).setLock np true).setPos np .run
        |>.setPos p (.forking np)) := by
  obtain ⟨hrun, hlock, hpos⟩ := hp
  obtain ⟨hu, hl⟩ := hnp
  have hne : p ≠ np := by
    rintro rfl
    rw [hrun] at hu
    cases hu
  have hstate : ∀ b, b ≠ np → ((s.kern.forkChild p np).proc b) = s.kern.proc b := fun b hb => by
    simp [Kern.forkChild, Kern.allocproc, hb]
  generalize ht : (((s.setKern (s.kern.forkChild p np)).setLock np true).setPos np .run).setPos p
    (.forking np) = t
  have hkern : t.kern = s.kern.forkChild p np := by simp [← ht]
  have hlk : ∀ b, t.lock b = if b = np then true else s.lock b := fun b => by simp [← ht]
  have hps : ∀ b, t.pos b = if b = p then .forking np else if b = np then .run else s.pos b :=
    fun b => by simp [← ht]
  have hback : ∀ q mp, t.pos q = .forking mp → q = p ∧ mp = np ∨
      q ≠ np ∧ mp ≠ np ∧ s.pos q = .forking mp := fun q mp h => by
    rw [hps] at h
    split_ifs at h with hq hq'
    · exact .inl ⟨hq, (Pos.forking.inj h).symm⟩
    · refine .inr ⟨hq', fun hm => ?_, h⟩
      subst hm
      have := (hs.forking q mp h).2
      simp [hl] at this
  constructor
  · refine ⟨fun q mp h => ?_, fun mp h => ?_, fun q q' mp h h' => ?_⟩
    · rcases hback q mp h with ⟨rfl, rfl⟩ | ⟨hq, hm, h⟩
      · rw [hkern, hstate q hne, hlk, if_pos rfl]
        exact ⟨hrun, rfl⟩
      · rw [hkern, hstate q hq, hlk, if_neg hm]
        exact hs.forking q mp h
    · by_cases hm : mp = np
      · subst hm
        rw [hkern, hps, if_neg hne.symm, if_pos rfl]
        simp [Kern.forkChild]
      · rw [hlk, if_neg hm] at h
        obtain ⟨hr, hp'⟩ := hs.locked mp h
        have hmp : mp ≠ p := by
          rintro rfl
          simp [hrun] at hr
        rw [hkern, hstate mp hm, hps, if_neg hmp, if_neg hm]
        exact ⟨hr, hp'⟩
    · rcases hback q mp h with ⟨rfl, rfl⟩ | ⟨-, hm, h⟩ <;>
        rcases hback q' _ h' with ⟨rfl, hm'⟩ | ⟨-, hm', h'⟩
      · rfl
      · exact absurd rfl hm'
      · exact absurd hm' hm
      · exact hs.unique q q' mp h h'
  · refine .quiet_of (by rw [hkern]; rfl) fun b => ?_
    by_cases hb : b = np
    · subst hb
      right
      simp [hu, hlk]
    · by_cases hbp : b = p
      · subst hbp
        right
        simp [hkern, hstate b hb, hrun, hlock, hpos, hlk, hps, hb, Pos.dequeued]
      · left
        simp [hkern, hstate b hb, hlk, hps, hb, hbp]

theorem forkEnqueue_spec (hs : Base s) {np : ProcId} (hp : s.pos p = .forking np) :
    Base (((s.setKern (s.kern.insertIntoPrioQueue np)).setLock np false).setPos p .run) ∧
      Effect s (.forkEnqueue p)
        (((s.setKern (s.kern.insertIntoPrioQueue np)).setLock np false).setPos p .run) := by
  obtain ⟨hrun, hl⟩ := hs.forking p np hp
  obtain ⟨hr, hnp⟩ := hs.locked np hl
  generalize ht :
    ((s.setKern (s.kern.insertIntoPrioQueue np)).setLock np false).setPos p .run = t
  have hkern : t.kern = s.kern.insertIntoPrioQueue np := by simp [← ht]
  have hlk : ∀ b, t.lock b = if b = np then false else s.lock b := fun b => by simp [← ht]
  have hps : ∀ b, t.pos b = if b = p then .run else s.pos b := fun b => by simp [← ht]
  have hback : ∀ q mp, t.pos q = .forking mp → mp ≠ np ∧ s.pos q = .forking mp := fun q mp h => by
    rw [hps] at h
    split_ifs at h with hq
    refine ⟨fun hm => hq (hs.unique q p np (hm ▸ h) hp), h⟩
  constructor
  · refine ⟨fun q mp h => ?_, fun mp h => ?_, fun q q' mp h h' => ?_⟩
    · obtain ⟨hm, h⟩ := hback q mp h
      rw [hkern, hlk, if_neg hm]
      exact hs.forking q mp h
    · rw [hlk] at h
      split_ifs at h with hm
      obtain ⟨hr', hp'⟩ := hs.locked mp h
      refine ⟨by rw [hkern]; exact hr', ?_⟩
      rw [hps]
      split_ifs
      · rfl
      · exact hp'
    · exact hs.unique q q' mp (hback q mp h).2 (hback q' mp h').2
  · have hsame : ∀ b, b ≠ np → b ≠ p → Same s t b := fun b hb hbp => by
      simp [hkern, hlk, hps, hb, hbp]
    have hpne : p ≠ np := by
      rintro rfl
      simp [hr] at hrun
    have hlp : s.lock p = false := by
      by_contra hlp
      have := (hs.locked p (by simpa using hlp)).1
      simp [hrun] at this
    refine .enqueue np (by rw [hkern]; simp [hkern]) (by simp [hl]) ?_ (fun b hb hL => ?_)
      (fun b hb hM => ?_)
    · simp [hkern, hlk, hps, hr, hnp, hpne.symm, Pos.dequeued]
    · by_cases hbp : b = p
      · subst hbp
        simp [hkern, hlk, hps, hb, hrun, hlp, Pos.dequeued]
      · exact (hsame b hb hbp).listed hL
    · by_cases hbp : b = p
      · subst hbp
        simp [hkern, hrun, hlp, hp, Pos.dequeued]
      · exact (hsame b hb hbp).must hM

/-- The dequeue section of `exit`. -/
theorem exitDequeue_spec (hs : Base s) (hp : s.At p .exitDequeue) :
    Base ((s.setKern (s.kern.removeFromPrioQueue p)).setPos p .exitParent) ∧
      Effect s (.exitDequeue p)
        ((s.setKern (s.kern.removeFromPrioQueue p)).setPos p .exitParent) := by
  have hsame : ∀ b, b ≠ p →
      Same s ((s.setKern (s.kern.removeFromPrioQueue p)).setPos p .exitParent) b :=
    fun b hb => by simp [hb]
  constructor
  · refine hs.frame rfl (fun b => ?_) fun b => .inl rfl
    by_cases hb : b = p
    · subst hb
      exact .inr ⟨hp.idle (by simp), by simp⟩
    · exact .inl (hsame b hb).2.2.2
  · refine .dequeue p rfl rfl (fun b hb => (hsame b hb).listed) fun b hM => ?_
    have hb : b ≠ p := by
      rintro rfl
      obtain ⟨hrun, -, -⟩ := hp
      simp [hrun, Pos.dequeued] at hM
    exact ⟨hb, (hsame b hb).must hM⟩

/-- The last section of `exit`. -/
theorem exitZombie_spec (hs : Base s) {q : ProcId} {status : CInt}
    (hp : s.At p (.exitFinal q)) (hq : s.lock q = false) :
    Base ((s.setKern (s.kern.exitZombie p q status)).setPos p .exited) ∧
      Effect s (.exitZombie p status)
        ((s.setKern (s.kern.exitZombie p q status)).setPos p .exited) := by
  have hidle : s.Idle p := hp.idle (by simp)
  constructor
  · refine hs.frame rfl (fun b => ?_) fun b => ?_
    · by_cases hb : b = p
      · subst hb
        exact .inr ⟨hidle, by simp⟩
      · simp [hb]
    · by_cases hb : b = p
      · exact .inr (hb ▸ hidle)
      · rcases (exitZombie_wakes s.kern p q status hb).2 with h | ⟨rfl, h, -⟩
        · exact .inl h
        · exact .inr (hs.idle hq (by simp [h]))
  · refine .quiet_of rfl fun b => .inr ?_
    by_cases hb : b = p
    · subst hb
      obtain ⟨-, -, hpos⟩ := hp
      simp [hpos, exitZombie_state, Pos.dequeued]
    · obtain ⟨hprio, h⟩ := exitZombie_wakes s.kern p q status hb
      rcases h with h | ⟨rfl, h, h'⟩
      · simp only [Listed, Must, home, kern_setPos, kern_setKern, lock_setPos, lock_setKern,
          pos_setPos, pos_setKern, h, hb, hprio, if_false]
        tauto
      · simp [h, h', hb, hprio, hq]

theorem sleep_spec (hs : Base s) {chan : Chan} (hp : s.At p .run) :
    Base (s.setKern (s.kern.sleep p chan)) ∧
      Effect s (.sleep p chan) (s.setKern (s.kern.sleep p chan)) := by
  refine ⟨hs.frame_at (hp.idle (by simp)) fun b hb => by simp [Kern.sleep, hb],
    .quiet_of rfl fun b => ?_⟩
  by_cases hb : b = p
  · subst hb
    obtain ⟨hrun, hlock, hpos⟩ := hp
    right
    simp [Kern.sleep, hrun, hlock, hpos, Pos.dequeued]
  · left
    simp [Kern.sleep, hb]

theorem yield_spec (hs : Base s) (hrun : (s.kern.proc p).state = .running)
    (hlock : s.lock p = false) (hpos : (s.pos p).preemptible = true) :
    Base (s.setKern (s.kern.yield p)) ∧ Effect s (.yield p) (s.setKern (s.kern.yield p)) := by
  have hidle : s.Idle p := ⟨hlock, fun np hp => by simp [hp, Pos.preemptible] at hpos⟩
  refine ⟨hs.frame_at hidle fun b hb => by simp [Kern.yield, hb], .quiet_of rfl fun b => ?_⟩
  by_cases hb : b = p
  · subst hb
    right
    simp [Kern.yield, hrun, hlock]
  · left
    simp [Kern.yield, hb]

/-- The requeue of a `RUNNABLE` process. -/
theorem schedule_spec (hs : Base s) (ha : a = .dispatch p ∨ a = .dispatchLate p)
    (hr : (s.kern.proc p).state = .runnable) (hq : ∃ i, p ∈ s.kern.prio i)
    (hlock : s.lock p = false) :
    Base (s.setKern (s.kern.schedule p)) ∧ Effect s a (s.setKern (s.kern.schedule p)) := by
  refine ⟨hs.frame_at (hs.idle hlock (by simp [hr])) fun b hb => by simp [Kern.schedule, hb],
    .requeue p ?_ (.inl ⟨ha, ?_, hq⟩) (fun b hL => ?_) (fun b hM => ?_) fun b hb => ?_⟩
  · simp [Kern.schedule, Lib.requeue]
  · simp [Kern.schedule]
  · by_cases hb : b = p
    · subst hb
      simpa [Kern.schedule, hr] using hL
    · simpa [Kern.schedule, hb] using hL
  · by_cases hb : b = p
    · subst hb
      simp [hr, hlock]
    · simpa [Kern.schedule, hb] using hM
  · simp [Kern.schedule, hb]

theorem nice_spec (hs : Base s) (pid : CInt) (i : Fin nprio) :
    Base (s.setKern (s.kern.nice pid i)) ∧
      Effect s (.nice pid i) (s.setKern (s.kern.nice pid i)) := by
  unfold Kern.nice
  split
  · rename_i p hp
    have hstate : ∀ b, ((s.kern.niceAt p i).proc b).state = (s.kern.proc b).state := fun b => by
      by_cases hb : b = p
      · subst hb
        simp [Kern.niceAt]
      · simp [Kern.niceAt, hb]
    refine ⟨hs.frame rfl (fun b => .inl rfl) fun b => .inl (hstate b),
      .requeue p ?_ (.inr ⟨pid, ?_, hp⟩) (fun b hL => ?_) (fun b hM => ?_) fun b hb => ?_⟩
    · simp [Kern.niceAt, Lib.requeue]
    · simp [Kern.niceAt]
    · simpa only [Listed, kern_setKern, lock_setKern, pos_setKern, hstate] using hL
    · simpa only [Must, kern_setKern, lock_setKern, pos_setKern, hstate] using hM
    · simp [Kern.niceAt, hb]
  · exact ⟨hs, .quiet_of rfl fun b => .inl ⟨rfl, rfl, rfl, rfl⟩⟩

end Kinds

/-- **Every step, classified.** -/
theorem step_spec {t : Sys} {a : Act} (hs : Base s) (h : s.step a = some t) :
    Base t ∧ Effect s a t := by
  cases a with
  | userinit =>
      simp only [step, Option.ite_none_right_eq_some] at h
      obtain ⟨p, hp, rfl⟩ := Option.map_eq_some_iff.mp h.2
      exact userinit_spec hs hp
  | fork p np =>
      obtain ⟨⟨hp, hnp⟩, ⟨⟩⟩ := Option.ite_none_right_eq_some.mp h
      exact fork_spec hs hp hnp
  | forkEnqueue p =>
      simp only [step] at h
      split at h
      · rename_i np hp
        cases h
        exact forkEnqueue_spec hs hp
      · cases h
  | forkNoTrapframe p np =>
      obtain ⟨⟨-, hu, hl⟩, ⟨⟩⟩ := Option.ite_none_right_eq_some.mp h
      exact recycle_spec hs rfl hl (by simp [hu, ProcState.live])
        (by simp [hu, ProcState.live]) fun b hb => by simp [hb]
  | forkNoMemory p np =>
      obtain ⟨⟨-, hu, hl⟩, ⟨⟩⟩ := Option.ite_none_right_eq_some.mp h
      exact recycle_spec hs rfl hl (by simp [hu, ProcState.live])
        (by simp [Kern.freeproc, ProcState.live]) fun b hb => by
          simp [Kern.freeproc, Kern.allocproc, hb]
  | exit p =>
      obtain ⟨⟨hp, -⟩, ⟨⟩⟩ := Option.ite_none_right_eq_some.mp h
      exact advance_spec hs (hp.idle (by simp)) (by simp) (by simp [hp.2.2, Pos.dequeued])
        (.refl s.kern p) hp.2.1
  | exitWakeInit p =>
      simp only [step] at h
      split at h
      · obtain ⟨⟨hp, hi⟩, ⟨⟩⟩ := Option.ite_none_right_eq_some.mp h
        exact advance_spec hs (hp.idle (by simp)) (by simp) (by simp [hp.2.2, Pos.dequeued])
          (wakeup1_wakes _ _) hi
      · cases h
  | exitDequeue p =>
      obtain ⟨hp, ⟨⟩⟩ := Option.ite_none_right_eq_some.mp h
      exact exitDequeue_spec hs hp
  | exitParent p =>
      simp only [step] at h
      split at h
      · obtain ⟨hp, ⟨⟩⟩ := Option.ite_none_right_eq_some.mp h
        exact advance_spec hs (hp.idle (by simp)) (by simp) (by simp [hp.2.2, Pos.dequeued])
          (.refl s.kern p) hp.2.1
      · cases h
  | exitReparent p pp =>
      simp only [step] at h
      split at h
      · obtain ⟨⟨-, -, hl⟩, ⟨⟩⟩ := Option.ite_none_right_eq_some.mp h
        exact wake_spec hs (reparentAt_wakes _ _) hl
      · cases h
  | exitZombie p status =>
      simp only [step] at h
      split at h
      · obtain ⟨⟨hp, hq, -⟩, ⟨⟩⟩ := Option.ite_none_right_eq_some.mp h
        exact exitZombie_spec hs hp hq
      · cases h
  | wait p np =>
      obtain ⟨⟨-, -, hz, hl⟩, ⟨⟩⟩ := Option.ite_none_right_eq_some.mp h
      exact recycle_spec hs rfl hl (by simp [hz, ProcState.live])
        (by simp [Kern.freeproc, ProcState.live]) fun b hb => by simp [Kern.freeproc, hb]
  | sleep p chan =>
      obtain ⟨hp, ⟨⟩⟩ := Option.ite_none_right_eq_some.mp h
      exact sleep_spec hs hp
  | wakeup q chan =>
      obtain ⟨hq, ⟨⟩⟩ := Option.ite_none_right_eq_some.mp h
      exact wake_spec hs (wakeupAt_wakes _ _ _) hq
  | kill q pid =>
      obtain ⟨⟨hq, -⟩, ⟨⟩⟩ := Option.ite_none_right_eq_some.mp h
      exact wake_spec hs (killAt_wakes _ _) hq
  | nice pid i =>
      cases h
      exact nice_spec hs pid i
  | dispatch p =>
      obtain ⟨⟨hp, hl⟩, ⟨⟩⟩ := Option.ite_none_right_eq_some.mp h
      exact schedule_spec hs (.inl rfl) (pick_runnable hp) (pick_mem hp) hl
  | dispatchLate p =>
      obtain ⟨⟨hr, hq, hl⟩, ⟨⟩⟩ := Option.ite_none_right_eq_some.mp h
      exact schedule_spec hs (.inr rfl) hr hq hl
  | yield p =>
      obtain ⟨⟨hrun, hl, hpos⟩, ⟨⟩⟩ := Option.ite_none_right_eq_some.mp h
      exact yield_spec hs hrun hl hpos

end Sys

end Xv6.Sched
