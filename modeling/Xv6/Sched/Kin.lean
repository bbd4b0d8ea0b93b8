import Xv6.Sched.Deadlock

/-!
Parents, children and zombies.

A child that becomes a zombie wakes the parent it copied before it took
any lock. The copy can be out of date in one way only: the parent has
exited and given the child to init. So while a process other than init
holds its own lock in `wait`, no child of it can become a zombie, and the
children that its scan has passed are still none when it goes to sleep.
-/

namespace Xv6.Sched

open Lib

variable {op : LockOp Lock} {act : Option Act} {q : ProcId}

namespace Sys

/-- What a step does to the lives of the processes. -/
structure Fate (s : Sys) (a : Act) (t : Sys) : Prop where
  dies : ∀ b, (t.kern.proc b).state = .zombie → (s.kern.proc b).state = .zombie ∨
    ∃ status, a = .exitZombie b status ∧ (t.kern.proc b).xstate = status
  sleeps : ∀ b, (t.kern.proc b).state = .sleeping →
    (s.kern.proc b).state = .sleeping ∧ (t.kern.proc b).chan = (s.kern.proc b).chan ∨
      a = .sleep b (t.kern.proc b).chan
  lives : ∀ b, (s.kern.proc b).state.live = true → (t.kern.proc b).state.live = true ∨
    ∃ status, a = .exitZombie b status
  pid : ∀ b, (s.kern.proc b).state ≠ .unused → (t.kern.proc b).state ≠ .unused →
    (t.kern.proc b).pid = (s.kern.proc b).pid
  xstate : ∀ b, (s.kern.proc b).state = .zombie → (t.kern.proc b).state = .zombie →
    (t.kern.proc b).xstate = (s.kern.proc b).xstate

variable {s t : Sys} {a : Act}

theorem step_fate (ha : a ≠ .userinit) (h : s.step a = some t) : Fate s a t := by
  have hslot := (step_rewrites ha h).slot
  constructor
  all_goals
    intro b
    cases hslot b <;> simp_all [ProcState.live]
  -- a slot is freed when it is dead
  obtain hx | ⟨hx, -⟩ := ‹_ ∨ _› <;> simp [hx]

/-! ### Parents -/

/-- Only a running process moves on. -/
theorem step_pos (ha : a ≠ .userinit) (h : s.step a = some t) (b : ProcId) :
    t.pos b = s.pos b ∨ (s.kern.proc b).state = .running ∨ (∃ np, s.pos b = .forking np) ∨
      (s.kern.proc b).state = .unused := by
  cases a <;> simp only [step] at h
  case userinit => exact absurd rfl ha
  case dispatchLate p =>
    obtain ⟨-, ⟨⟩⟩ := Option.ite_none_right_eq_some.mp h
    exact .inl rfl
  all_goals grind [pos_setPos, pos_setKern, pos_setLock, At, Free]

theorem step_exitFinal (h : s.step a = some t) {b : ProcId} (hb : t.pos b = .exitFinal q) :
    s.pos b = .exitFinal q ∨ (s.kern.proc b).parent = some q ∧ t.kern = s.kern := by
  cases a <;> simp only [step] at h
  case userinit =>
    simp only [Option.ite_none_right_eq_some, Option.map_eq_some_iff] at h
    obtain ⟨-, p, -, rfl⟩ := h
    grind [pos_setPos, pos_setKern]
  case dispatchLate p =>
    obtain ⟨-, ⟨⟩⟩ := Option.ite_none_right_eq_some.mp h
    exact .inl hb
  all_goals grind [pos_setPos, pos_setKern, pos_setLock, kern_setPos, At]

theorem exitZombie_enabled {p : ProcId} {status : CInt}
    (h : s.step (.exitZombie p status) = some t) : ∃ q, s.pos p = .exitFinal q ∧
      (s.kern.proc p).state = .running ∧ (∀ pp, (s.kern.proc pp).parent ≠ some p) ∧
      t = (s.setKern (s.kern.exitZombie p q status)).setPos p .exited := by
  simp only [step] at h
  split at h
  · obtain ⟨⟨hp, -, hpp⟩, ⟨⟩⟩ := Option.ite_none_right_eq_some.mp h
    exact ⟨_, ‹_›, hp.1, hpp, rfl⟩
  · cases h

/-- What holds between parents and children. -/
structure Kin (s : Sys) : Prop where
  zombie : ∀ b, (s.kern.proc b).state = .zombie → s.pos b = .exited
  /-- The copy of the parent that `exit` takes is out of date only when the
  process has been given to init. -/
  copied : ∀ b q, s.pos b = .exitFinal q →
    (s.kern.proc b).parent = some q ∨ ∃ i, s.kern.initproc = some i ∧ (s.kern.proc b).parent = some i
  init : ∃ i, s.kern.initproc = some i ∧ (s.kern.proc i).state.live = true
  parents : ∀ b x, (s.kern.proc b).parent = some x → (s.kern.proc x).state.live = true

/-- A process inside `exit` keeps its parent or goes to init. -/
theorem Kin.parent_step (h : Kin s) (ho : s.Orphans) (ha : a ≠ .userinit)
    (hstep : s.step a = some t) {b x : ProcId} (hb : s.pos b = .exitFinal q)
    (hx : (s.kern.proc b).parent = some x) : (t.kern.proc b).parent = some x ∨
      ∃ i, t.kern.initproc = some i ∧ (t.kern.proc b).parent = some i := by
  have hf := step_frame ha hstep
  rcases hf.parent_kept ho hx with hkept | rfl | rfl
  · exact .inl hkept
  · -- a zombie is past `exit`
    obtain ⟨⟨-, -, hz, -⟩, -⟩ := Option.ite_none_right_eq_some.mp hstep
    rw [h.zombie b hz] at hb
    cases hb
  · simp only [step] at hstep
    split at hstep
    · obtain ⟨-, ⟨⟩⟩ := Option.ite_none_right_eq_some.mp hstep
      obtain ⟨i, hi, -⟩ := h.init
      exact .inr ⟨i, hi, by simp [Kern.reparentAt, hi]⟩
    · cases hstep

theorem Kin.step (h : Kin s) (ho : s.Orphans)
    (hinit : ∀ b, (s.pos b).exiting = true → s.kern.initproc ≠ some b) (ha : a ≠ .userinit)
    (hstep : s.step a = some t) : Kin t := by
  have hf := step_frame ha hstep
  have hfate := step_fate ha hstep
  have hlives : ∀ {x}, (s.kern.proc x).state.live = true →
      (s.kern.initproc = some x ∨ ∃ b, (s.kern.proc b).parent = some x) →
      (t.kern.proc x).state.live = true := by
    intro x hx hwhy
    refine (hfate.lives x hx).resolve_right ?_
    rintro ⟨status, rfl⟩
    obtain ⟨q, hpos, -, hpp, -⟩ := exitZombie_enabled hstep
    rcases hwhy with hi | ⟨b, hb⟩
    · exact hinit x (by rw [hpos]; rfl) hi
    · exact hpp b hb
  obtain ⟨i, hi, hlive⟩ := h.init
  refine ⟨fun b hb => ?_, fun b q hb => ?_, ⟨i, hf.init.trans hi, hlives hlive (.inl hi)⟩,
    fun b x hb => ?_⟩
  · rcases hfate.dies b hb with hz | ⟨status, rfl, -⟩
    · rcases step_pos ha hstep b with he | he | ⟨np, he⟩ | he
      · rw [he, h.zombie b hz]
      · rw [he] at hz
        cases hz
      · rw [h.zombie b hz] at he
        cases he
      · rw [he] at hz
        cases hz
    · obtain ⟨q, -, -, -, rfl⟩ := exitZombie_enabled hstep
      simp
  · rcases step_exitFinal hstep hb with hb' | ⟨hpar, hk⟩
    · rcases h.copied b q hb' with hpar | ⟨j, hj, hpar⟩
      · exact h.parent_step ho ha hstep hb' hpar
      · rcases h.parent_step ho ha hstep hb' hpar with hpar' | hpar'
        · exact .inr ⟨j, hf.init.trans hj, hpar'⟩
        · exact .inr hpar'
    · exact .inl (hk ▸ hpar)
  · rcases hf.parent b x hb with hpar | hx | rfl
    · exact hlives (h.parents b x hpar) (.inr ⟨b, hpar⟩)
    · rw [hi] at hx
      cases hx
      exact hlives hlive (.inl hi)
    · obtain ⟨⟨hp, -⟩, -⟩ := Option.ite_none_right_eq_some.mp hstep
      refine (hfate.lives x (by rw [hp.1]; rfl)).resolve_right ?_
      rintro ⟨status, ⟨⟩⟩

/-- The parent that `exit` copied does not go on sleeping in `wait`. -/
theorem exitZombie_woken (k : Kern) (p q : ProcId) (status : CInt)
    (hs : ((k.exitZombie p q status).proc q).state = .sleeping) :
    ((k.exitZombie p q status).proc q).chan ≠ .proc q := by
  intro hc
  by_cases hqp : q = p
  · subst hqp
    simp [exitZombie_state] at hs
  · simp only [Kern.exitZombie, Kern.wakeup1, Kern.proc_modify, hqp, ↓reduceIte] at hs hc
    split at hs
    · cases hs
    · rename_i hno
      rw [if_neg hno] at hc
      exact hno ⟨hc, hs⟩

end Sys

/-! ### The scan of `wait` -/

/-- The children below this slot are no zombies: the scan of `wait` has
passed them. -/
def Pc.passed : Pc → ℕ
  | .waitAcquireChild np => np.val
  | .waitReleaseChild np false => np.val + 1
  | _ => 0

theorem Pc.passed_of_preemptible {pc : Pc} (h : pc.preemptible = true) : pc.passed = 0 := by
  cases pc <;> first | rfl | cases h

theorem Pc.passed_of_resumes {pc : Pc} (h : pc.Resumes) : pc.passed = 0 := by
  cases pc <;> first | rfl | cases h

theorem Pc.mem_held_of_passed {p : ProcId} {pc : Pc} (h : 0 < pc.passed) : .proc p ∈ pc.held p := by
  cases pc <;> first | exact absurd h (Nat.lt_irrefl 0) | skip
  case waitAcquireChild np => exact List.mem_singleton.mpr rfl
  case waitReleaseChild np found => exact List.mem_of_getLast? rfl

/-- A channel that a caller of `sleep` other than `wait` may use. -/
def Chan.plain : Chan → Bool
  | .obj _ => true
  | _ => false

/-- Every call of `sleep` is on such a channel. -/
def Choice.plain : Choice → Bool
  | .sleep chan => chan.plain
  | _ => true

/-- The channel of a call of `sleep`. -/
def Pc.plain : Pc → Bool
  | .sleepAcquire chan => chan.plain
  | _ => true

theorem Pc.plain_of_preemptible {pc : Pc} (h : pc.preemptible = true) : pc.plain = true := by
  cases pc <;> first | rfl | cases h

/-- `sleep` is not on a process, and no zombie is made. -/
def Act.plain : Act → Bool
  | .sleep _ chan => chan.plain
  | .exitZombie _ _ => false
  | _ => true

/-- What the scan of `wait` adds to the discipline of a step. -/
structure Trans.Scans (tr : Trans) (k : Kern) (p : ProcId) (pc : Pc) : Prop where
  plain : tr.pc.plain = true
  /-- The scan passes a slot only when it holds no zombie child. -/
  passed : ∀ j : ProcId, j.val < tr.pc.passed → tr.kern = k ∧
    (j.val < pc.passed ∨ (k.proc j).parent ≠ some p ∨ (k.proc j).state ≠ .zombie)
  /-- `wait` sleeps when it has passed all slots. -/
  sleep : tr.act = some (.sleep p (.proc p)) → ∀ j : ProcId, j.val < pc.passed ∨
    (k.proc j).parent ≠ some p
  /-- `exit` holds the lock of the parent that it wakes. -/
  zombie : ∀ status, tr.act = some (.exitZombie p status) → ∃ q, pc.pos = .exitFinal q ∧
    .proc q ∈ pc.held p

namespace Kern

variable {k : Kern} {p : ProcId} {pc : Pc} {choice : Choice} {tr : Trans}

/-- A step outside the loops of `wait` and `exit`. -/
theorem scans_of_act (hplain : tr.pc.plain = true) (hpassed : tr.pc.passed = 0)
    (hact : tr.act.all Act.plain = true) : tr.Scans k p pc where
  plain := hplain
  passed j hj := by
    rw [hpassed] at hj
    exact absurd hj (Nat.not_lt_zero _)
  sleep h := by
    rw [h] at hact
    cases hact
  zombie status h := by
    rw [h] at hact
    cases hact

theorem scans_waitScan {i : ℕ} {b : Bool} (hi : i = pc.passed) :
    (k.waitScan op p i b).Scans k p pc := by
  unfold waitScan
  split
  · rename_i np hnp
    refine ⟨rfl, fun j hj => ⟨rfl, ?_⟩, nofun, nofun⟩
    rcases Nat.lt_or_ge j.val i with hji | hji
    · exact .inl (hi ▸ hji)
    · exact .inr (.inl (nextChild_first hnp hji hj))
  · rename_i hnone
    split
    · exact scans_of_act rfl rfl rfl
    · refine ⟨rfl, fun j hj => absurd hj (Nat.not_lt_zero _), fun _ j => ?_, nofun⟩
      rcases Nat.lt_or_ge j.val i with hji | hji
      · exact .inl (hi ▸ hji)
      · exact .inr (nextChild_none hnone hji)

theorem scans_reparentScan {status : CInt} {i : ℕ}
    (hpos : pc.pos = .exitFinal q) (hq : .proc q ∈ pc.held p) :
    (k.reparentScan op p status q i).Scans k p pc := by
  unfold reparentScan
  split
  · exact scans_of_act rfl rfl rfl
  · exact ⟨rfl, fun j hj => absurd hj (Nat.not_lt_zero _), nofun, fun _ _ => ⟨q, hpos, hq⟩⟩

theorem scans_return {ret : Pc} (h : ret.preemptible = true) :
    Trans.Scans { op, kern := k, pc := ret } k p pc :=
  scans_of_act (Pc.plain_of_preemptible h) (Pc.passed_of_preemptible h) rfl

theorem scans_next (o : Option ProcId) {f : ProcId → Pc} {pc' : Pc}
    (hf : ∀ i, (f i).plain = true ∧ (f i).passed = 0)
    (h : Trans.Scans { op, kern := k, pc := pc' } k p pc) :
    Trans.Scans { op, kern := k, pc := (o.map f).getD pc' } k p pc := by
  cases o with
  | none => exact h
  | some i => exact scans_of_act (hf i).1 (hf i).2 rfl

theorem scans_advance (hw : pc.Wf) (hplain : pc.plain = true) (h : k.advance p pc = some tr) :
    tr.Scans k p pc := by
  cases pc
  case user => cases h
  case exited => cases h
  case allocAcquire => cases h
  case waitAcquireChild => cases h
  case yieldRelease ret =>
    cases h
    exact scans_return hw
  case sleepAcquire chan =>
    cases h
    exact scans_of_act rfl rfl hplain
  case wakeupRelease i chan ret =>
    cases h
    exact scans_next _ (fun _ => ⟨rfl, rfl⟩) (scans_return hw)
  case killAcquire i pid =>
    simp only [advance] at h
    split at h <;> cases h <;> exact scans_of_act rfl rfl rfl
  case killRelease i pid found =>
    cases found <;> cases h
    · exact scans_next _ (fun _ => ⟨rfl, rfl⟩) (scans_return rfl)
    · exact scans_return rfl
  case allocRelease i =>
    cases h
    exact scans_next _ (fun _ => ⟨rfl, rfl⟩) (scans_return rfl)
  case exitAcquireInit status =>
    obtain ⟨i, -, rfl⟩ := Option.map_eq_some_iff.mp h
    exact scans_of_act rfl rfl rfl
  case exitAcquireSelf status =>
    obtain ⟨q, -, rfl⟩ := Option.map_eq_some_iff.mp h
    exact scans_of_act rfl rfl rfl
  case exitAcquireLast status q =>
    cases h
    exact scans_reparentScan rfl (List.mem_singleton.mpr rfl)
  case reparentRelease status q pp =>
    cases h
    exact scans_reparentScan rfl (List.mem_of_getLast? rfl)
  case waitAcquire =>
    cases h
    exact scans_waitScan rfl
  case waitReleaseChild np found =>
    cases found <;> cases h
    · exact scans_waitScan rfl
    · exact scans_of_act rfl rfl rfl
  case waitResume =>
    cases h
    exact scans_waitScan rfl
  all_goals
    cases h
    exact scans_of_act rfl rfl rfl

/-- `wait` at a child. -/
theorem threadStep_waitChild {np : ProcId}
    (h : k.threadStep p (.waitAcquireChild np) choice = some tr) :
    (k.proc np).state = .zombie ∧ k.waitZombie p np choice = some tr ∨ (k.proc np).state ≠ .zombie ∧
        tr = { op := .acquire (.proc np), kern := k, pc := .waitReleaseChild np false } := by
  unfold threadStep at h
  split at h
  · cases h
  · cases h
  · simp only at h
    split at h
    · exact .inl ⟨‹_›, h⟩
    · exact .inr ⟨‹_›, (Option.some.inj (Option.ite_none_right_eq_some.mp h).2).symm⟩

theorem threadStep_scans (hw : pc.Wf) (hplain : pc.plain = true) (hch : choice.plain = true)
    (h : k.threadStep p pc choice = some tr) : tr.Scans k p pc := by
  rcases threadStep_cases h with ⟨-, rfl | ⟨chan, rfl⟩⟩ | ⟨rfl, ht⟩ | ⟨i, rfl, ht⟩ | ⟨np, rfl, -⟩ | ht
  · exact scans_of_act rfl rfl rfl
  · exact scans_of_act rfl rfl rfl
  · unfold call at ht
    cases choice <;> simp only [Option.ite_none_left_eq_some, Option.some.injEq, reduceCtorEq] at ht
    case exit => obtain ⟨-, rfl⟩ := ht; exact scans_of_act rfl rfl rfl
    case sleep chan => subst ht; exact scans_of_act hch rfl rfl
    all_goals subst ht; exact scans_of_act rfl rfl rfl
  · rcases ht with ⟨-, ht⟩ | rfl
    · cases choice <;> simp only [forkInto, Option.some.injEq, reduceCtorEq] at ht
      all_goals subst ht; exact scans_of_act rfl rfl rfl
    · exact scans_of_act rfl rfl rfl
  · rcases threadStep_waitChild h with ⟨-, ht⟩ | ⟨hz, rfl⟩
    · cases choice <;> simp only [waitZombie, Option.some.injEq, reduceCtorEq] at ht
      all_goals subst ht; exact scans_of_act rfl rfl rfl
    · refine ⟨rfl, fun j hj => ⟨rfl, ?_⟩, by rintro ⟨⟩, by rintro _ ⟨⟩⟩
      rcases Nat.lt_or_eq_of_le (Nat.le_of_lt_succ hj) with hj | hj
      · exact .inl hj
      · exact .inr (.inr (by rwa [Fin.ext hj]))
  · exact scans_advance hw hplain ht

end Kern

namespace Machine

variable {m : Machine} {c : Cpu} {p : ProcId}

/-- No zombie is missed: a process that sleeps in `wait`, and the part of
the scan that a process in `wait` has behind it. -/
structure Awake (m : Machine) : Prop where
  plain : ∀ p, (m.pc p).plain = true
  asleep : ∀ q, m.kern.initproc ≠ some q → (m.kern.proc q).state = .sleeping →
    (m.kern.proc q).chan = .proc q → ∀ np, (m.kern.proc np).parent = some q →
      (m.kern.proc np).state ≠ .zombie
  passed : ∀ q, m.kern.initproc ≠ some q → ∀ np : ProcId, np.val < (m.pc q).passed →
    (m.kern.proc np).parent = some q → (m.kern.proc np).state ≠ .zombie

/-- A process inside the scan of `wait` holds its lock. -/
theorem Inv.held_of_passed (h : m.Inv) (hlive : (m.kern.proc p).state.live = true)
    (hp : 0 < (m.pc p).passed) : ∃ d, m.cpu d = .proc p ∧ .proc p ∈ m.held d := by
  have hnr : ¬ (m.pc p).Resumes := by
    intro hr
    rw [Pc.passed_of_resumes hr] at hp
    exact Nat.lt_irrefl 0 hp
  have hon : ∃ d, m.On d p := by
    by_contra hno
    exact hnr (h.resume p (not_exists.mp hno) hlive)
  obtain ⟨d, hd | hd⟩ := hon
  · refine ⟨d, hd, ?_⟩
    simp only [held, hd]
    exact Pc.mem_held_of_passed hp
  · exact absurd (h.switched d p hd) hnr

/-- A step after which a process other than init has a zombie child. -/
theorem zombie_child {s t : Sys} (hk : s.Kin) (hfol : s.Follows act t)
    (hne : act ≠ some .userinit) {np : ProcId} (hq : s.kern.initproc ≠ some q)
    (hpar : (t.kern.proc np).parent = some q) (hz : (t.kern.proc np).state = .zombie) :
    (s.kern.proc np).parent = some q ∧ ((s.kern.proc np).state = .zombie ∨
      (∃ status, act = some (.exitZombie np status)) ∧ s.pos np = .exitFinal q ∧
        ((t.kern.proc q).state = .sleeping → (t.kern.proc q).chan ≠ .proc q)) := by
  rcases follows_cases hfol hne with ⟨-, rfl⟩ | ⟨a, rfl, hstep, hf⟩
  · exact ⟨hpar, .inl hz⟩
  have ha : a ≠ .userinit := fun he => hne (congrArg some he)
  have hfate := Sys.step_fate ha hstep
  have hpar' : (s.kern.proc np).parent = some q := by
    rcases hf.parent np q hpar with h | h | rfl
    · exact h
    · exact absurd h hq
    · -- a child that `fork` has just made is no zombie
      obtain ⟨⟨-, hfree⟩, -⟩ := Option.ite_none_right_eq_some.mp hstep
      rcases hfate.dies np hz with h | ⟨status, ⟨⟩, -⟩
      rw [hfree.1] at h
      cases h
  refine ⟨hpar', ?_⟩
  rcases hfate.dies np hz with h | ⟨status, rfl, -⟩
  · exact .inl h
  · obtain ⟨q', hpos, -, -, rfl⟩ := Sys.exitZombie_enabled hstep
    obtain rfl : q' = q := by
      rcases hk.copied np q' hpos with h | ⟨i, hi, h⟩ <;> rw [hpar'] at h <;>
        cases h
      · rfl
      · exact absurd hi hq
    exact .inr ⟨⟨status, rfl⟩, hpos, Sys.exitZombie_woken _ _ _ _⟩

/-- A step after which a process sleeps. -/
theorem sleeps_of_follows {s t : Sys} (hfol : s.Follows act t)
    (hne : act ≠ some .userinit) (hq : (t.kern.proc q).state = .sleeping) :
    (s.kern.proc q).state = .sleeping ∧ (t.kern.proc q).chan = (s.kern.proc q).chan ∨
      act = some (.sleep q (t.kern.proc q).chan) := by
  rcases follows_cases hfol hne with ⟨-, rfl⟩ | ⟨a, rfl, hstep, -⟩
  · exact .inl ⟨hq, rfl⟩
  · rcases (Sys.step_fate (fun he => hne (congrArg some he)) hstep).sleeps q hq with h | h
    · exact .inl h
    · exact .inr (congrArg some h)

theorem init_of_follows {s t : Sys} (hfol : s.Follows act t)
    (hne : act ≠ some .userinit) : t.kern.initproc = s.kern.initproc := by
  rcases follows_cases hfol hne with ⟨-, rfl⟩ | ⟨a, -, -, hf⟩
  · rfl
  · exact hf.init

section Thread

variable {tr : Trans} {choice : Choice} {lock : Lock → Option Cpu}

theorem Awake.runThread (hw : m.Awake) (h : m.Inv) (hk : m.abs.Kin) (hc : m.cpu c = .proc p)
    (hch : choice.plain = true) (ht : m.kern.threadStep p (m.pc p) choice = some tr)
    (hop : tr.op.apply m.lock c = some lock) : (m.runThread c p tr lock).Awake := by
  have hl := Kern.threadStep_lawful (h.wf p) ht
  have hs := Kern.threadStep_scans (h.wf p) (hw.plain p) hch ht
  have hfol := (h.runThread hc ht hop).2
  have hne : tr.act ≠ some .userinit := fun he => hl.does _ he
  have hinit : tr.kern.initproc = m.kern.initproc := init_of_follows hfol hne
  have hself : (m.runThread c p tr lock).pc p = tr.pc := Trans.pcs_self ..
  refine ⟨fun b => ?_, fun q hq hsleep hchan np hpar hz => ?_, fun q hq np hnp hpar hz => ?_⟩
  · by_cases hb : b = p
    · rw [hb, hself]
      exact hs.plain
    · rcases pc_runThread_cases hb with he | he <;> rw [he]
      · exact hw.plain b
      · rfl
  · obtain ⟨hpar', hz'⟩ := zombie_child hk hfol hne (hinit ▸ hq) hpar hz
    rcases hz' with hz' | ⟨-, -, hwoken⟩
    · rcases sleeps_of_follows hfol hne hsleep with ⟨hsleep', hchan'⟩ | hact
      · exact hw.asleep q (hinit ▸ hq) hsleep' (hchan' ▸ hchan) np hpar' hz'
      · -- the process itself goes to sleep, with all children passed
        obtain rfl : q = p := (hl.does _ hact).1
        rw [show ((m.runThread c q tr lock).abs.kern.proc q).chan = .proc q from hchan] at hact
        rcases hs.sleep hact np with hlt | hno
        · exact hw.passed q (hinit ▸ hq) np hlt hpar' hz'
        · exact hno hpar'
    · exact hwoken hsleep hchan
  · obtain ⟨hpar', hz'⟩ := zombie_child hk hfol hne (hinit ▸ hq) hpar hz
    by_cases hqp : q = p
    · subst hqp
      rw [hself] at hnp
      obtain ⟨hkern, hwhy⟩ := hs.passed np hnp
      have hz'' : (m.kern.proc np).state = .zombie := hkern ▸ hz
      rcases hwhy with hlt | hno | hno
      · exact hw.passed q (hinit ▸ hq) np hlt hpar' hz''
      · exact hno hpar'
      · exact hno hz''
    · have hnp' : np.val < (m.pc q).passed := by
        rcases pc_runThread_cases hqp with he | he <;> rw [he] at hnp
        · exact hnp
        · exact absurd hnp (Nat.not_lt_zero _)
      rcases hz' with hz' | ⟨⟨status, hact⟩, hpos, -⟩
      · exact hw.passed q (hinit ▸ hq) np hnp' hpar' hz'
      · -- the lock of the parent is in use by the parent itself
        obtain rfl : np = p := (hl.does _ hact).1
        obtain ⟨q', hpos', hheld⟩ := hs.zombie status hact
        obtain rfl : q' = q := Pos.exitFinal.inj (hpos'.symm.trans hpos)
        obtain ⟨d, hd, hheld'⟩ := h.held_of_passed (hk.parents np q' hpar') (Nat.zero_lt_of_lt hnp')
        have hmine : .proc q' ∈ m.held c := by simpa only [held, hc] using hheld
        obtain rfl := h.owned.unique hmine hheld'
        exact hqp (CpuState.proc.inj (hd.symm.trans hc))

end Thread

theorem Awake.runSched {pc : SchedPc} {tr : SchedTrans} {choice : Choice}
    {lock : Lock → Option Cpu} (hw : m.Awake) (h : m.Inv) (hk : m.abs.Kin)
    (hc : m.cpu c = .sched pc) (ht : m.kern.schedStep pc choice = some tr)
    (hop : tr.op.apply m.lock c = some lock) : (m.runSched c tr lock).Awake := by
  have hfol := (h.runSched hc ht hop).2
  have hact := (Kern.schedStep_lawful ht).act
  have hne : tr.act ≠ some .userinit := by
    rcases hact with ⟨ha, -⟩ | ⟨q, -, ha⟩ | ⟨i, chan, ha⟩ <;> rw [ha] <;> nofun
  have hno : ∀ a, tr.act = some a → (∀ b status, a ≠ .exitZombie b status) ∧
      ∀ b chan, a ≠ .sleep b chan := by
    intro a ha
    rcases hact with ⟨ha', -⟩ | ⟨q, -, ha'⟩ | ⟨i, chan, ha'⟩ <;> rw [ha'] at ha <;> cases ha <;>
      exact ⟨nofun, nofun⟩
  have hinit : tr.kern.initproc = m.kern.initproc := init_of_follows hfol hne
  have hold : ∀ {q np}, m.kern.initproc ≠ some q → (tr.kern.proc np).parent = some q →
      (tr.kern.proc np).state = .zombie →
      (m.kern.proc np).parent = some q ∧ (m.kern.proc np).state = .zombie := by
    intro q np hq hpar hz
    obtain ⟨hpar', hz' | ⟨⟨status, hact⟩, -⟩⟩ := zombie_child hk hfol hne hq hpar hz
    · exact ⟨hpar', hz'⟩
    · exact absurd rfl ((hno _ hact).1 np status)
  refine ⟨hw.plain, fun q hq hsleep hchan np hpar hz => ?_, fun q hq np hnp hpar hz => ?_⟩
  · obtain ⟨hpar', hz'⟩ := hold (hinit ▸ hq) hpar hz
    rcases sleeps_of_follows hfol hne hsleep with ⟨hsleep', hchan'⟩ | ha
    · exact hw.asleep q (hinit ▸ hq) hsleep' (hchan' ▸ hchan) np hpar' hz'
    · exact absurd rfl ((hno _ ha).2 q _)
  · obtain ⟨hpar', hz'⟩ := hold (hinit ▸ hq) hpar hz
    exact hw.passed q (hinit ▸ hq) np hnp hpar' hz'

theorem kin_of_follows {s t : Sys} (hk : s.Kin) (ho : s.Orphans)
    (hinit : ∀ b, (s.pos b).exiting = true → s.kern.initproc ≠ some b)
    (hfol : s.Follows act t) (hne : act ≠ some .userinit) : t.Kin := by
  rcases follows_cases hfol hne with ⟨-, rfl⟩ | ⟨a, rfl, hstep, -⟩
  · exact hk
  · exact hk.step ho hinit (fun he => hne (congrArg some he)) hstep

theorem boot_kin : boot.abs.Kin where
  zombie b hb := by
    by_cases h : b = 0 <;>
      simp [abs, seen, boot, Kern.userinit, Kern.allocproc, procinit, h] at hb
  copied b q hb := by cases hb
  init := ⟨0, rfl, rfl⟩
  parents b x hb := by
    by_cases h : b = 0 <;>
      simp [abs, seen, boot, Kern.userinit, Kern.allocproc, procinit, h] at hb

theorem boot_awake : boot.Awake where
  plain _ := rfl
  asleep q _ hs := by
    by_cases h : q = 0 <;> simp [boot, Kern.userinit, Kern.allocproc, procinit, h] at hs
  passed q _ np h := absurd h (Nat.not_lt_zero _)

end Machine

end Xv6.Sched
