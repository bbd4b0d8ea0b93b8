import Xv6.Sched.Threads

/-!
The machine refines the step system of the critical sections.

`Machine.abs` forgets the locks and the CPUs and keeps how far each thread
is. A step of the machine is then one step of `Sys`, the one it is
labelled with, or none at all. What is needed for that is the locking
discipline of the code: which locks a program point holds, that a process
runs on one CPU, and that nobody else touches what a held lock protects.
-/

namespace Xv6.Sched

open Lib

/-- What the step system of the critical sections sees. The lock of a
slot counts as held while `fork` builds a process in it. -/
def seen (k : Kern) (pc : ProcId → Pc) : Sys where
  kern := k
  lock := fun np => decide (∃ p, (pc p).pos = .forking np)
  pos := fun p => (pc p).pos

/-- `t` follows from `s` by the step, or by doing nothing. -/
def Sys.Follows (s : Sys) (act : Option Act) (t : Sys) : Prop :=
  match act with
  | none => t = s
  | some a => s.step a = some t

theorem seen_ext {s : Sys} {k : Kern} {pc : ProcId → Pc} (hkern : s.kern = k)
    (hlock : ∀ np, s.lock np = true ↔ ∃ p, (pc p).pos = .forking np)
    (hpos : ∀ p, s.pos p = (pc p).pos) : seen k pc = s := by
  obtain ⟨kern, lock, pos⟩ := s
  subst hkern
  obtain rfl : pos = fun p => (pc p).pos := funext hpos
  have : lock = fun np => decide (∃ p, (pc p).pos = .forking np) := by
    funext np
    rw [Bool.eq_iff_iff, decide_eq_true_iff]
    exact hlock np
  rw [this]
  rfl

section

variable {k : Kern} {pc : ProcId → Pc} {p : ProcId} {tr : Trans}

theorem seen_lock {np : ProcId} : (seen k pc).lock np = true ↔ ∃ p, (pc p).pos = .forking np :=
  decide_eq_true_iff

theorem Trans.pcs_self (tr : Trans) (pc : ProcId → Pc) (p : ProcId) : tr.pcs pc p p = tr.pc :=
  Function.update_self ..

theorem Trans.pcs_of_ne (hs : tr.spawn = none) {b : ProcId} (hb : b ≠ p) :
    tr.pcs pc p b = pc b := by
  simp [Trans.pcs, hs, hb]

theorem Trans.pcs_spawn {np : ProcId} (hs : tr.spawn = some np) (hne : np ≠ p) :
    tr.pcs pc p np = .yieldRelease .user := by
  simp [Trans.pcs, hs, hne]

theorem Pos.ne_forking {pos : Pos} (h : pos.preemptible = true) (np : ProcId) :
    pos ≠ .forking np := by
  rintro rfl
  cases h

/-- A step inside one critical section, seen from outside. -/
theorem seen_stay (hs : tr.spawn = none) (hpos : tr.pc.pos = (pc p).pos) :
    seen tr.kern (tr.pcs pc p) = (seen k pc).setKern tr.kern := by
  have hall : ∀ b, ((tr.pcs pc p) b).pos = (pc b).pos := by
    intro b
    by_cases hb : b = p
    · rw [hb, tr.pcs_self, hpos]
    · rw [Trans.pcs_of_ne hs hb]
  refine seen_ext rfl (fun np => ?_) fun b => (hall b).symm
  simp only [Sys.lock_setKern, seen_lock, hall]

/-- A step from one section to the next. -/
theorem seen_move (hs : tr.spawn = none) (hold : (pc p).pos.preemptible = true)
    (hnew : tr.pc.pos.preemptible = true) :
    seen tr.kern (tr.pcs pc p) = ((seen k pc).setKern tr.kern).setPos p tr.pc.pos := by
  refine seen_ext rfl (fun np => ?_) fun b => ?_
  · simp only [Sys.lock_setPos, Sys.lock_setKern, seen_lock]
    refine exists_congr fun b => ?_
    by_cases hb : b = p
    · rw [hb, tr.pcs_self]
      exact iff_of_false (Pos.ne_forking hold np) (Pos.ne_forking hnew np)
    · rw [Trans.pcs_of_ne hs hb]
  · by_cases hb : b = p
    · rw [hb, tr.pcs_self]
      simp
    · rw [Trans.pcs_of_ne hs hb]
      simp [hb, seen]

theorem follows_skip (hact : tr.act = none) (hk : tr.kern = k) (hs : tr.spawn = none)
    (hpos : tr.pc.pos = (pc p).pos) : (seen k pc).Follows tr.act (seen tr.kern (tr.pcs pc p)) := by
  rw [hact, seen_stay (k := k) hs hpos, hk]
  rfl

theorem follows_stay {a : Act} (hact : tr.act = some a) (hs : tr.spawn = none)
    (hpos : tr.pc.pos = (pc p).pos)
    (hstep : (seen k pc).step a = some ((seen k pc).setKern tr.kern)) :
    (seen k pc).Follows tr.act (seen tr.kern (tr.pcs pc p)) := by
  rw [hact, seen_stay hs hpos]
  exact hstep

theorem follows_move {a : Act} (hact : tr.act = some a) (hs : tr.spawn = none)
    (hold : (pc p).pos.preemptible = true) (hnew : tr.pc.pos.preemptible = true)
    (hstep : (seen k pc).step a = some (((seen k pc).setKern tr.kern).setPos p tr.pc.pos)) :
    (seen k pc).Follows tr.act (seen tr.kern (tr.pcs pc p)) := by
  rw [hact, seen_move hs hold hnew]
  exact hstep

/-- What the thread of `p` may rely on when it takes a step with the lock
operation `op`. -/
structure Ready (k : Kern) (pc : ProcId → Pc) (p : ProcId) (op : LockOp Lock) : Prop where
  base : Sys.Base (seen k pc)
  wf : (pc p).Wf
  run : (pc p).leaving = false → (seen k pc).At p (pc p).pos
  free : ∀ q, op = .acquire (.proc q) → (seen k pc).lock q = false
  held : ∀ q, .proc q ∈ (pc p).held p → (∀ np, (pc p).pos ≠ .forking np) →
    (seen k pc).lock q = false
  scanned : ∀ j : ProcId, j.val < (pc p).scanned → (k.proc j).parent ≠ some p
  child : ∀ np, (pc p).child = some np → (k.proc np).parent = some p

theorem Ready.at_of {op : LockOp Lock} {pc' : Pc} (hr : Ready k pc p op) (hpc : pc p = pc')
    (hl : pc'.leaving = false) : (seen k pc).At p pc'.pos :=
  hpc ▸ hr.run (hpc ▸ hl)

variable {choice : Choice}

theorem call_follows (hr : Ready k pc p tr.op) (hpc : pc p = .user)
    (h : k.call p choice = some tr) : (seen k pc).Follows tr.act (seen tr.kern (tr.pcs pc p)) := by
  have hat : (seen k pc).At p .run := hr.at_of hpc rfl
  unfold Kern.call at h
  cases choice <;> simp only [Option.ite_none_left_eq_some, Option.some.injEq, reduceCtorEq] at h
  case exit status =>
    obtain ⟨hinit, rfl⟩ := h
    refine follows_move rfl rfl (by rw [hpc]; rfl) rfl ?_
    exact if_pos ⟨hat, hinit⟩
  case nice pid i =>
    subst h
    exact follows_stay rfl rfl (by rw [hpc]) rfl
  all_goals
    subst h
    exact follows_skip rfl rfl rfl (by rw [hpc]; rfl)

theorem forkInto_follows {i : ProcId} (hr : Ready k pc p tr.op) (hpc : pc p = .allocAcquire i)
    (hi : (k.proc i).state = .unused) (h : k.forkInto p i choice = some tr) :
    (seen k pc).Follows tr.act (seen tr.kern (tr.pcs pc p)) := by
  have hat : (seen k pc).At p .run := hr.at_of hpc rfl
  have hne : i ≠ p := by
    rintro rfl
    exact absurd (hi.symm.trans hat.1) (by decide)
  cases choice <;> simp only [Kern.forkInto, Option.some.injEq, reduceCtorEq] at h
  case go =>
    subst h
    have hpcs : ∀ b, b ≠ p → b ≠ i → Trans.pcs
        { op := .acquire (.proc i), kern := k.forkChild p i, pc := .forkAcquirePrio i,
          spawn := some i, act := some (.fork p i) } pc p b = pc b := by
      intro b hbp hbi
      simp [Trans.pcs, hbp, hbi]
    -- a process that builds a child is `RUNNING`, so it is not the slot `i`
    have hforking : ∀ b np, (pc b).pos = .forking np → b ≠ p ∧ b ≠ i := by
      refine fun b np hb => ⟨?_, ?_⟩
      · rintro rfl
        rw [hpc] at hb
        cases hb
      · rintro rfl
        exact absurd (hi.symm.trans (hr.base.forking b np hb).1) (by decide)
    refine (if_pos ⟨hat, hi, hr.free i rfl⟩).trans
      (congrArg some (seen_ext rfl (fun np => ?_) fun b => ?_).symm)
    · simp only [Sys.lock_setPos, Sys.lock_setLock, Sys.lock_setKern]
      by_cases hnp : np = i
      · simp only [hnp, ↓reduceIte, true_iff]
        exact ⟨p, by rw [Trans.pcs_self]; rfl⟩
      · simp only [hnp, ↓reduceIte, seen_lock]
        constructor <;> rintro ⟨b, hb⟩ <;> refine ⟨b, ?_⟩
        · rw [hpcs b (hforking b np hb).1 (hforking b np hb).2]
          exact hb
        · by_cases hbp : b = p
          · rw [hbp, Trans.pcs_self] at hb
            cases hb
            exact absurd rfl hnp
          · by_cases hbi : b = i
            · rw [hbi, Trans.pcs_spawn rfl hne] at hb
              cases hb
            · rwa [hpcs b hbp hbi] at hb
    · by_cases hbp : b = p
      · rw [hbp, Trans.pcs_self]
        simp only [Sys.pos_setPos, ↓reduceIte]
        rfl
      · by_cases hbi : b = i
        · rw [hbi, Trans.pcs_spawn rfl hne]
          simp only [Sys.pos_setPos, hne, ↓reduceIte]
          rfl
        · rw [hpcs b hbp hbi]
          simp [hbp, hbi, seen]
  case noTrapframe =>
    subst h
    exact follows_stay rfl rfl (by rw [hpc]; rfl) (if_pos ⟨hat, hi, hr.free i rfl⟩)
  case noMemory =>
    subst h
    exact follows_stay rfl rfl (by rw [hpc]; rfl) (if_pos ⟨hat, hi, hr.free i rfl⟩)

theorem waitZombie_follows {np : ProcId} (hr : Ready k pc p tr.op)
    (hpc : pc p = .waitAcquireChild np) (hz : (k.proc np).state = .zombie)
    (h : k.waitZombie p np choice = some tr) :
    (seen k pc).Follows tr.act (seen tr.kern (tr.pcs pc p)) := by
  have hat : (seen k pc).At p .run := hr.at_of hpc rfl
  have hpar : (k.proc np).parent = some p := hr.child np (by rw [hpc]; rfl)
  cases choice <;> simp only [Kern.waitZombie, Option.some.injEq, reduceCtorEq] at h
  case go =>
    subst h
    exact follows_stay rfl rfl (by rw [hpc]; rfl) (if_pos ⟨hat, hpar, hz, hr.free np rfl⟩)
  case badAddress =>
    subst h
    exact follows_skip rfl rfl rfl (by rw [hpc]; rfl)

theorem waitScan_follows {op : LockOp Lock} {i : ℕ} {b : Bool} (hat : (seen k pc).At p .run) :
    (seen k pc).Follows (k.waitScan op p i b).act
      (seen (k.waitScan op p i b).kern ((k.waitScan op p i b).pcs pc p)) := by
  have hpos : (pc p).pos = .run := hat.2.2
  unfold Kern.waitScan
  split
  · exact follows_skip rfl rfl rfl hpos.symm
  · split
    · exact follows_skip rfl rfl rfl hpos.symm
    · exact follows_stay rfl rfl hpos.symm (if_pos hat)

/-- When `reparent` is through, no child is left. -/
theorem reparentScan_follows {op : LockOp Lock} {status : CInt} {q : ProcId} {i : ℕ}
    (hat : (seen k pc).At p (.exitFinal q)) (hq : (seen k pc).lock q = false)
    (hscan : ∀ j : ProcId, j.val < i → (k.proc j).parent ≠ some p) :
    (seen k pc).Follows (k.reparentScan op p status q i).act
      (seen (k.reparentScan op p status q i).kern ((k.reparentScan op p status q i).pcs pc p)) := by
  have hpos : (pc p).pos = .exitFinal q := hat.2.2
  unfold Kern.reparentScan
  split
  · exact follows_skip rfl rfl rfl hpos.symm
  · rename_i hnone
    have hpar : ∀ pp, ((seen k pc).kern.proc pp).parent ≠ some p := by
      intro pp
      rcases Nat.lt_or_ge pp.val i with hlt | hge
      · exact hscan pp hlt
      · exact Kern.nextChild_none hnone hge
    refine follows_move rfl rfl (by rw [hpos]; rfl) rfl ?_
    simp only [Sys.step, show (seen k pc).pos p = .exitFinal q from hpos]
    exact if_pos ⟨hat, hq, hpar⟩

/-- `fork` queues the child. -/
theorem forkEnqueue_follows {np : ProcId} (hb : Sys.Base (seen k pc))
    (hpc : pc p = .forkAcquirePrio np) (h : k.advance p (.forkAcquirePrio np) = some tr) :
    (seen k pc).Follows tr.act (seen tr.kern (tr.pcs pc p)) := by
  cases h
  have hpos : (seen k pc).pos p = .forking np := by
    change (pc p).pos = _
    rw [hpc]
    rfl
  change (seen k pc).step (.forkEnqueue p) = _
  simp only [Sys.step, hpos]
  refine congrArg some (seen_ext rfl (fun x => ?_) fun b => ?_).symm
  · simp only [Sys.lock_setPos, Sys.lock_setLock, Sys.lock_setKern]
    by_cases hx : x = np
    · simp only [hx, ↓reduceIte, Bool.false_eq_true, false_iff, not_exists]
      intro b hbf
      by_cases hbp : b = p
      · rw [hbp, Trans.pcs_self] at hbf
        cases hbf
      · rw [Trans.pcs_of_ne rfl hbp] at hbf
        exact hbp (hb.unique b p np hbf hpos)
    · simp only [hx, ↓reduceIte, seen_lock]
      refine exists_congr fun b => ?_
      by_cases hbp : b = p
      · rw [hbp, Trans.pcs_self, hpc]
        exact iff_of_false (fun h => hx (Pos.forking.inj h).symm) (Pos.ne_forking rfl x)
      · rw [Trans.pcs_of_ne rfl hbp]
  · by_cases hbp : b = p
    · rw [hbp, Trans.pcs_self]
      simp only [Sys.pos_setPos, ↓reduceIte]
      rfl
    · rw [Trans.pcs_of_ne rfl hbp]
      simp [hbp, seen]

theorem Pos.preemptible_of_ne {pos : Pos} (h : ∀ np, pos ≠ .forking np) :
    pos.preemptible = true := by
  cases pos with
  | forking np => exact absurd rfl (h np)
  | _ => rfl

theorem advance_follows {pc' : Pc} (hr : Ready k pc p tr.op) (hpc : pc p = pc')
    (h : k.advance p pc' = some tr) : (seen k pc).Follows tr.act (seen tr.kern (tr.pcs pc p)) := by
  have hskip : ∀ pc'' : Pc, pc''.pos = pc'.pos → pc''.pos = (pc p).pos := by
    intro pc'' hpos
    rw [hpos, hpc]
  have hw : pc'.Wf := hpc ▸ hr.wf
  cases pc'
  case user => cases h
  case exited => cases h
  case allocAcquire => cases h
  case waitAcquireChild => cases h
  case yieldAcquire ret =>
    have hat := hr.at_of hpc rfl
    cases h
    have hret : ∀ np, ret.pos ≠ .forking np := fun np => Pc.pos_of_preemptible hw
    refine follows_stay rfl rfl (hskip _ rfl) (if_pos ⟨hat.1, hat.2.1, ?_⟩)
    rw [hat.2.2]
    exact Pos.preemptible_of_ne hret
  case sleepAcquire chan =>
    cases h
    exact follows_stay rfl rfl (hskip _ rfl) (if_pos (hr.at_of hpc rfl))
  case wakeupAcquire i chan ret =>
    cases h
    exact follows_stay rfl rfl (hskip _ rfl) (if_pos (hr.free i rfl))
  case wakeupRelease i chan ret =>
    cases h
    refine follows_skip rfl rfl rfl (hskip _ ?_)
    cases nextSlot i <;> rfl
  case killAcquire i pid =>
    simp only [Kern.advance] at h
    split at h
    · cases h
      exact follows_stay rfl rfl (hskip _ rfl) (if_pos ⟨hr.free i rfl, ‹_›⟩)
    · cases h
      exact follows_skip rfl rfl rfl (hskip _ rfl)
  case killRelease i pid found =>
    cases found with
    | false =>
        cases h
        refine follows_skip rfl rfl rfl (hskip _ ?_)
        cases nextSlot i <;> rfl
    | true =>
        cases h
        exact follows_skip rfl rfl rfl (hskip _ rfl)
  case allocRelease i =>
    cases h
    refine follows_skip rfl rfl rfl (hskip _ ?_)
    cases nextSlot i <;> rfl
  case forkAcquirePrio np => exact forkEnqueue_follows hr.base hpc h
  case exitAcquireInit status =>
    obtain ⟨i, hi, rfl⟩ := Option.map_eq_some_iff.mp h
    refine follows_move rfl rfl (by rw [hpc]; rfl) rfl ?_
    simp only [Sys.step, show (seen k pc).kern.initproc = some i from hi]
    exact if_pos ⟨hr.at_of hpc rfl, hr.free i rfl⟩
  case exitAcquireQueued status =>
    cases h
    exact follows_move rfl rfl (by rw [hpc]; rfl) rfl (if_pos (hr.at_of hpc rfl))
  case exitAcquireSelf status =>
    obtain ⟨q, hq, rfl⟩ := Option.map_eq_some_iff.mp h
    refine follows_move rfl rfl (by rw [hpc]; rfl) rfl ?_
    simp only [Sys.step, show ((seen k pc).kern.proc p).parent = some q from hq]
    exact if_pos (hr.at_of hpc rfl)
  case exitAcquireLast status q =>
    cases h
    refine reparentScan_follows (hr.at_of hpc rfl) (hr.held q ?_ ?_)
      fun j hj => absurd hj (Nat.not_lt_zero _)
    · rw [hpc]
      exact List.mem_singleton.mpr rfl
    · rw [hpc]
      exact Pos.ne_forking rfl
  case reparentAcquire status q pp =>
    have hpos : (seen k pc).pos p = .exitFinal q := (hr.at_of hpc rfl).2.2
    cases h
    refine follows_stay rfl rfl (hskip _ rfl) ?_
    simp only [Sys.step, hpos]
    exact if_pos ⟨hr.at_of hpc rfl, hr.child pp (by rw [hpc]; rfl), hr.free pp rfl⟩
  case reparentRelease status q pp =>
    cases h
    refine reparentScan_follows (hr.at_of hpc rfl) (hr.held q ?_ ?_)
      fun j hj => hr.scanned j ?_
    · rw [hpc]
      exact List.mem_of_getLast? rfl
    · rw [hpc]
      exact Pos.ne_forking rfl
    · rw [hpc]
      exact hj
  case waitAcquire =>
    cases h
    exact waitScan_follows (hr.at_of hpc rfl)
  case waitReleaseChild np found =>
    cases found with
    | false =>
        cases h
        exact waitScan_follows (hr.at_of hpc rfl)
    | true =>
        cases h
        exact follows_skip rfl rfl rfl (hskip _ rfl)
  case waitResume =>
    cases h
    exact waitScan_follows (hr.at_of hpc rfl)
  all_goals
    cases h
    exact follows_skip rfl rfl rfl (hskip _ rfl)

theorem threadStep_follows (hr : Ready k pc p tr.op) (h : k.threadStep p (pc p) choice = some tr) :
    (seen k pc).Follows tr.act (seen tr.kern (tr.pcs pc p)) := by
  rcases Kern.threadStep_cases h with ⟨-, ht⟩ | ⟨hpc, ht⟩ | ⟨i, hpc, ht⟩ | ⟨np, hpc, ht⟩ | ht
  · rcases ht with rfl | ⟨chan, rfl⟩
    · exact follows_skip rfl rfl rfl rfl
    · exact follows_skip rfl rfl rfl rfl
  · exact call_follows hr hpc ht
  · rcases ht with ⟨hi, ht⟩ | rfl
    · exact forkInto_follows hr hpc hi ht
    · exact follows_skip rfl rfl rfl (by rw [hpc]; rfl)
  · rcases ht with ⟨hz, ht⟩ | rfl
    · exact waitZombie_follows hr hpc hz ht
    · exact follows_skip rfl rfl rfl (by rw [hpc]; rfl)
  · exact advance_follows hr rfl ht

end

end Xv6.Sched
