import Xv6.Sched.Machine
import Xv6.Sched.Frames

/-!
What one step of a kernel thread or of a scheduler does, read off the
program text once: how it moves the locks, what it leaves in the program
point, and how far it has come in the step system of the critical
sections.
-/

namespace Xv6.Sched

open Lib

/-- How far a thread is in the step system of the critical sections. -/
def Pc.pos : Pc → Pos
  | .yieldAcquire ret | .yieldRelease ret => ret.pos
  | .wakeupAcquire _ _ ret | .wakeupRelease _ _ ret => ret.pos
  | .forkAcquirePrio np => .forking np
  | .exitAcquireInit _ => .exitWakeInit
  | .exitReleaseInit _ _ | .exitAcquirePrio _ | .exitAcquireQueued _ => .exitDequeue
  | .exitReleaseQueued _ | .exitReleasePrio _ | .exitAcquireSelf _ => .exitParent
  | .exitReleaseSelf _ q | .exitAcquireParent _ q | .exitAcquireLast _ q
  | .reparentAcquire _ q _ | .reparentRelease _ q _ => .exitFinal q
  | .exitReleaseParent _ | .exited => .exited
  | _ => .run

/-- Interrupts return to points where interrupts are on. -/
def Pc.Wf : Pc → Prop
  | .yieldAcquire ret | .yieldRelease ret => ret.preemptible = true
  | .wakeupAcquire _ _ ret | .wakeupRelease _ _ ret => ret.preemptible = true
  | _ => True

/-- Where `swtch` returns in a process. -/
def Pc.Resumes : Pc → Prop
  | .yieldRelease _ | .sleepRelease | .waitResume => True
  | _ => False

/-- The slots below this one are known to hold no child of the process:
`reparent` has passed them. -/
def Pc.scanned : Pc → ℕ
  | .reparentAcquire _ _ pp => pp.val
  | .reparentRelease _ _ pp => pp.val + 1
  | _ => 0

/-- The child that `wait` or `reparent` has found and is about to lock. -/
def Pc.child : Pc → Option ProcId
  | .waitAcquireChild np => some np
  | .reparentAcquire _ _ pp => some pp
  | _ => none

/-- `exit` has made the process a zombie and still runs. -/
def Pc.leaving : Pc → Bool
  | .exitReleaseParent _ => true
  | _ => false

variable {pc : Pc} {p : ProcId}

theorem Pc.held_of_preemptible (h : pc.preemptible = true) : pc.held p = [] := by
  cases pc <;> first | rfl | cases h

theorem Pc.wf_of_preemptible (h : pc.preemptible = true) : pc.Wf := by
  cases pc <;> first | cases h; done | trivial

theorem Pc.scanned_of_preemptible (h : pc.preemptible = true) : pc.scanned = 0 := by
  cases pc <;> first | rfl | cases h

theorem Pc.exiting_of_scanned (h : 0 < pc.scanned) : pc.pos.exiting = true := by
  cases pc <;> first | rfl | exact absurd h (Nat.lt_irrefl 0)

theorem Pc.leaving_of_preemptible (h : pc.preemptible = true) : pc.leaving = false := by
  cases pc <;> first | rfl | cases h

theorem Pc.child_of_preemptible (h : pc.preemptible = true) : pc.child = none := by
  cases pc <;> first | rfl | cases h

theorem Pc.leaving_of_resumes (h : pc.Resumes) : pc.leaving = false := by
  cases pc <;> first | rfl | cases h

theorem Pc.held_of_resumes (h : pc.Resumes) : pc.held p = [.proc p] := by
  cases pc <;> first | rfl | cases h

/-- Where a thread holds `prio_lock`. -/
theorem Pc.prio_mem_held (h : .prio ∈ pc.held p) :
    (∃ np, pc = .forkReleasePrio np) ∨ (∃ status, pc = .exitAcquireQueued status) ∨
      (∃ status, pc = .exitReleaseQueued status) ∨ ∃ status, pc = .exitReleasePrio status := by
  cases pc <;> simp [Pc.held] at h ⊢

theorem Pc.pos_of_preemptible {np : ProcId} (h : pc.preemptible = true) : pc.pos ≠ .forking np := by
  intro hpos
  cases pc <;> first | cases h; done | cases hpos

/-- A thread that the step system sees inside `fork` is at the one point
where the child is complete and not queued. -/
theorem Pc.eq_of_pos_forking {np : ProcId} (hw : pc.Wf) (h : pc.pos = .forking np) :
    pc = .forkAcquirePrio np := by
  cases pc <;> first | exact (Pc.pos_of_preemptible hw h).elim | cases h; done | cases h; rfl

namespace Kern

variable {k : Kern} {p : ProcId} {pc : Pc} {choice : Choice} {tr : Trans}

/-- The shapes of a thread step. -/
theorem threadStep_cases (h : k.threadStep p pc choice = some tr) :
    (pc.preemptible = true ∧ (tr = { kern := k, pc := .yieldAcquire pc } ∨
        ∃ chan, tr = { kern := k, pc := .wakeupAcquire firstSlot chan pc })) ∨
      (pc = .user ∧ k.call p choice = some tr) ∨
      (∃ i, pc = .allocAcquire i ∧ ((k.proc i).state = .unused ∧ k.forkInto p i choice = some tr ∨
        tr = { op := .acquire (.proc i), kern := k, pc := .allocRelease i })) ∨
      (∃ np, pc = .waitAcquireChild np ∧
        ((k.proc np).state = .zombie ∧ k.waitZombie p np choice = some tr ∨
        tr = { op := .acquire (.proc np), kern := k, pc := .waitReleaseChild np false })) ∨
      k.advance p pc = some tr := by
  unfold threadStep at h
  split at h
  · obtain ⟨hp, rfl⟩ := Option.ite_none_right_eq_some.mp h |>.imp id Option.some.inj
    exact .inl ⟨hp, .inl rfl⟩
  · obtain ⟨hp, rfl⟩ := Option.ite_none_right_eq_some.mp h |>.imp id Option.some.inj
    exact .inl ⟨hp, .inr ⟨_, rfl⟩⟩
  · split at h
    · exact .inr (.inl ⟨rfl, h⟩)
    · refine .inr (.inr (.inl ⟨_, rfl, ?_⟩))
      split at h
      · exact .inl ⟨‹_›, h⟩
      · exact .inr (Option.some.inj (Option.ite_none_right_eq_some.mp h).2).symm
    · refine .inr (.inr (.inr (.inl ⟨_, rfl, ?_⟩)))
      split at h
      · exact .inl ⟨‹_›, h⟩
      · exact .inr (Option.some.inj (Option.ite_none_right_eq_some.mp h).2).symm
    · exact .inr (.inr (.inr (.inr (Option.ite_none_right_eq_some.mp h).2)))

end Kern

/-- What a critical section says about the thread step that carries it
out: whose it is, and where the thread goes. -/
def Trans.Does (tr : Trans) (p : ProcId) (pc : Pc) : Act → Prop
  | .fork x np => x = p ∧ tr.spawn = some np ∧ tr.pc = .forkAcquirePrio np
  | .sleep x _ | .yield x => x = p ∧ tr.swtch = true
  | .exitZombie x _ => x = p ∧ tr.pc.leaving = true
  | .exitDequeue x => x = p ∧ .prio ∈ pc.held p
  | .wait x np => x = p ∧ tr.op = .acquire (.proc np)
  | .exitReparent x _ => x = p
  | .nice _ _ => pc = .user
  | .userinit | .dispatch _ | .dispatchLate _ => False
  | _ => True

/-- What every step of the thread of `p` from `pc` respects. -/
structure Trans.Lawful (tr : Trans) (k : Kern) (p : ProcId) (pc : Pc) : Prop where
  moves : tr.op.Moves (pc.held p) (if tr.swtch then [.proc p] else tr.pc.held p)
  wf : tr.pc.Wf
  does : ∀ a, tr.act = some a → tr.Does p pc a
  swtch : tr.swtch = true → tr.pc.Resumes ∨ pc.leaving = true
  spawn : ∀ np, tr.spawn = some np → tr.act = some (.fork p np)
  zombie : tr.pc.leaving = true → ∃ status, tr.act = some (.exitZombie p status)
  leave : pc.leaving = true → tr.swtch = true ∧ tr.act = none
  child : ∀ np, tr.pc.child = some np → (tr.kern.proc np).parent = some p
  -- `reparent` passes a slot only when it holds no child of the process
  scanned : k.initproc ≠ some p → ∀ j : ProcId, j.val < tr.pc.scanned →
    j.val < pc.scanned ∨ (tr.kern.proc j).parent ≠ some p

theorem Trans.does_of (tr : Trans) (h : tr.act.elim True (tr.Does p pc)) :
    ∀ a, tr.act = some a → tr.Does p pc a := by
  intro a ha
  rwa [ha] at h

/-- A step that goes on in the same thread. -/
theorem Trans.Lawful.of_stay {tr : Trans} {k : Kern}
    (hsw : tr.swtch = false) (hspawn : tr.spawn = none)
    (moves : tr.op.Moves (pc.held p) (tr.pc.held p)) (wf : tr.pc.Wf)
    (does : tr.act.elim True (tr.Does p pc)) (hl : pc.leaving = false)
    (hl' : tr.pc.leaving = false) (hs : tr.pc.scanned = 0) (hc : tr.pc.child = none) :
    tr.Lawful k p pc where
  moves := by rwa [hsw]
  wf := wf
  does := tr.does_of does
  swtch h := by simp [hsw] at h
  spawn _ h := by simp [hspawn] at h
  zombie h := by simp [hl'] at h
  leave h := by simp [hl] at h
  child _ h := by simp [hc] at h
  scanned _ j h := by simp [hs] at h

/-- A step that gives the CPU up. -/
theorem Trans.Lawful.of_swtch {tr : Trans} {k : Kern}
    (hsw : tr.swtch = true) (hspawn : tr.spawn = none) (moves : tr.op.Moves (pc.held p) [.proc p])
    (wf : tr.pc.Wf) (does : tr.act.elim True (tr.Does p pc)) (hr : tr.pc.Resumes)
    (hl : pc.leaving = false) (hl' : tr.pc.leaving = false) (hs : tr.pc.scanned = 0)
    (hc : tr.pc.child = none) : tr.Lawful k p pc where
  moves := by rwa [hsw]
  wf := wf
  does := tr.does_of does
  swtch _ := .inl hr
  spawn _ h := by simp [hspawn] at h
  zombie h := by simp [hl'] at h
  leave h := by simp [hl] at h
  child _ h := by simp [hc] at h
  scanned _ j h := by simp [hs] at h

namespace Kern

variable {k : Kern} {p : ProcId} {pc : Pc} {choice : Choice} {tr : Trans}

theorem nextChild_spec {i : ℕ} {pp : ProcId} (h : k.nextChild p i = some pp) :
    i ≤ pp.val ∧ (k.proc pp).parent = some p := by
  simpa using List.find?_some h

/-- The slots that the search for a child passes hold none. -/
theorem nextChild_first {i : ℕ} {pp j : ProcId} (h : k.nextChild p i = some pp)
    (hi : i ≤ j.val) (hj : j.val < pp.val) : (k.proc j).parent ≠ some p := by
  obtain ⟨-, as, bs, hsplit, has⟩ := List.find?_eq_some_iff_append.mp h
  intro hp
  have hmem : j ∈ as := by
    have hall : j ∈ as ++ pp :: bs := hsplit ▸ List.mem_finRange j
    rcases List.mem_append.mp hall with hm | hm
    · exact hm
    · have hsorted := (List.pairwise_lt_finRange nproc)
      rw [hsplit, List.pairwise_append] at hsorted
      rcases List.mem_cons.mp hm with rfl | hm
      · omega
      · have := List.rel_of_pairwise_cons hsorted.2.1 hm
        omega
  have := has j hmem
  simp [hi, hp] at this

theorem nextChild_none {i : ℕ} {j : ProcId} (h : k.nextChild p i = none) (hi : i ≤ j.val) :
    (k.proc j).parent ≠ some p := by
  intro hp
  have := List.find?_eq_none.mp h j (List.mem_finRange j)
  simp [hi, hp] at this

theorem call_lawful (h : k.call p choice = some tr) : tr.Lawful k p .user := by
  unfold call at h
  cases choice <;> simp only [Option.ite_none_left_eq_some, Option.some.injEq, reduceCtorEq] at h
  case exit status =>
    obtain ⟨-, rfl⟩ := h
    exact .of_stay rfl rfl (.refl _) trivial trivial rfl rfl rfl rfl
  case wakeup chan =>
    subst h
    exact .of_stay rfl rfl (.refl _) rfl trivial rfl rfl rfl rfl
  case nice pid i =>
    subst h
    exact .of_stay rfl rfl (.refl _) trivial rfl rfl rfl rfl rfl
  all_goals
    subst h
    exact .of_stay rfl rfl (.refl _) trivial trivial rfl rfl rfl rfl

theorem forkInto_lawful {i : ProcId} (h : k.forkInto p i choice = some tr) :
    tr.Lawful k p (.allocAcquire i) := by
  cases choice <;> simp only [forkInto, Option.some.injEq, reduceCtorEq] at h
  case go =>
    subst h
    exact ⟨.refl _, trivial, by rintro _ ⟨⟩; exact ⟨rfl, rfl, rfl⟩, nofun, by rintro _ ⟨⟩; rfl,
      nofun, nofun, nofun, fun _ j hj => (Nat.not_lt_zero _ hj).elim⟩
  all_goals
    subst h
    exact .of_stay rfl rfl (.refl _) trivial trivial rfl rfl rfl rfl

theorem waitZombie_lawful {np : ProcId} (h : k.waitZombie p np choice = some tr) :
    tr.Lawful k p (.waitAcquireChild np) := by
  cases choice <;> simp only [waitZombie, Option.some.injEq, reduceCtorEq] at h
  case go =>
    subst h
    exact .of_stay rfl rfl (.refl _) trivial ⟨rfl, rfl⟩ rfl rfl rfl rfl
  case badAddress =>
    subst h
    exact .of_stay rfl rfl (.refl _) trivial trivial rfl rfl rfl rfl

/-- The scan of `wait` starts under `p->lock`. -/
theorem waitScan_lawful {op : LockOp Lock} {i : ℕ} {b : Bool} (hop : op.Moves (pc.held p) [.proc p])
    (hl : pc.leaving = false) : (k.waitScan op p i b).Lawful k p pc := by
  unfold waitScan
  split
  · rename_i np hnp
    exact ⟨hop, trivial, nofun, nofun, nofun, nofun, fun h => by simp [hl] at h,
      by rintro _ ⟨⟩; exact (nextChild_spec hnp).2, fun _ j hj => (Nat.not_lt_zero _ hj).elim⟩
  · split
    · exact .of_stay rfl rfl hop trivial trivial hl rfl rfl rfl
    · exact .of_swtch rfl rfl hop trivial ⟨rfl, rfl⟩ trivial hl rfl rfl rfl

/-- The loop of `reparent` runs under the locks of the parent and of `p`. -/
theorem reparentScan_lawful {op : LockOp Lock} {status : CInt} {q : ProcId} {i : ℕ}
    (hop : op.Moves (pc.held p) [.proc p, .proc q]) (hl : pc.leaving = false)
    (hi : i = pc.scanned) : (k.reparentScan op p status q i).Lawful k p pc := by
  unfold reparentScan
  split
  · rename_i pp hpp
    refine ⟨hop, trivial, nofun, nofun, nofun, nofun, fun h => by simp [hl] at h,
      by rintro _ ⟨⟩; exact (nextChild_spec hpp).2, ?_⟩
    intro _ j hj
    rcases Nat.lt_or_ge j.val i with hji | hji
    · exact .inl (hi ▸ hji)
    · exact .inr (nextChild_first hpp hji hj)
  · exact ⟨hop, trivial, by rintro _ ⟨⟩; exact ⟨rfl, rfl⟩, nofun, nofun, fun _ => ⟨status, rfl⟩,
      fun h => by simp [hl] at h, nofun, fun _ j hj => (Nat.not_lt_zero _ hj).elim⟩

/-- Going on with the next slot of a loop, or leaving it. -/
theorem lawful_next {op : LockOp Lock} (o : Option ProcId) {f : ProcId → Pc} {pc' : Pc}
    (hf : ∀ i, Trans.Lawful { op, kern := k, pc := f i } k p pc)
    (h : Trans.Lawful { op, kern := k, pc := pc' } k p pc) :
    Trans.Lawful { op, kern := k, pc := (o.map f).getD pc' } k p pc := by
  cases o with
  | none => exact h
  | some i => exact hf i

/-- Releasing the last lock on the way back to an interrupted point. -/
theorem lawful_return {l : Lock} {ret : Pc} (hret : ret.preemptible = true)
    (hpc : pc.held p = [l]) (hl : pc.leaving = false) :
    Trans.Lawful { op := .release l, kern := k, pc := ret } k p pc := by
  refine .of_stay rfl rfl ?_ (Pc.wf_of_preemptible hret) trivial hl
    (Pc.leaving_of_preemptible hret) (Pc.scanned_of_preemptible hret)
    (Pc.child_of_preemptible hret)
  rw [Pc.held_of_preemptible hret, hpc]
  exact .refl _

theorem advance_lawful (hw : pc.Wf) (h : k.advance p pc = some tr) : tr.Lawful k p pc := by
  cases pc
  case user => cases h
  case exited => cases h
  case allocAcquire => cases h
  case waitAcquireChild => cases h
  case yieldAcquire ret =>
    cases h
    exact .of_swtch rfl rfl (.refl _) hw ⟨rfl, rfl⟩ trivial rfl rfl rfl rfl
  case yieldRelease ret =>
    cases h
    exact lawful_return hw rfl rfl
  case sleepAcquire chan =>
    cases h
    exact .of_swtch rfl rfl (.refl _) trivial ⟨rfl, rfl⟩ trivial rfl rfl rfl rfl
  case wakeupAcquire i chan ret =>
    cases h
    exact .of_stay rfl rfl (.refl _) hw trivial rfl rfl rfl rfl
  case wakeupRelease i chan ret =>
    cases h
    exact lawful_next _ (fun i => .of_stay rfl rfl (.refl _) hw trivial rfl rfl rfl rfl)
      (lawful_return hw rfl rfl)
  case killAcquire i pid =>
    simp only [advance] at h
    split at h
    · cases h
      exact .of_stay rfl rfl (.refl _) trivial trivial rfl rfl rfl rfl
    · cases h
      exact .of_stay rfl rfl (.refl _) trivial trivial rfl rfl rfl rfl
  case killRelease i pid found =>
    cases found with
    | false =>
        cases h
        exact lawful_next _ (fun i => .of_stay rfl rfl (.refl _) trivial trivial rfl rfl rfl rfl)
          (lawful_return rfl rfl rfl)
    | true =>
        cases h
        exact lawful_return rfl rfl rfl
  case allocRelease i =>
    cases h
    exact lawful_next _ (fun i => .of_stay rfl rfl (.refl _) trivial trivial rfl rfl rfl rfl)
      (lawful_return rfl rfl rfl)
  case exitAcquireInit status =>
    obtain ⟨i, -, rfl⟩ := Option.map_eq_some_iff.mp h
    exact .of_stay rfl rfl (.refl _) trivial trivial rfl rfl rfl rfl
  case exitAcquireQueued status =>
    cases h
    exact .of_stay rfl rfl (.refl _) trivial
      ⟨rfl, List.mem_singleton.mpr rfl⟩ rfl rfl rfl rfl
  case exitAcquireSelf status =>
    obtain ⟨q, -, rfl⟩ := Option.map_eq_some_iff.mp h
    exact .of_stay rfl rfl (.refl _) trivial trivial rfl rfl rfl rfl
  case exitAcquireLast status q =>
    cases h
    exact reparentScan_lawful (.refl _) rfl rfl
  case reparentAcquire status q pp =>
    cases h
    refine ⟨.refl _, trivial, by rintro _ ⟨⟩; exact rfl, by rintro ⟨⟩, by rintro _ ⟨⟩,
      by rintro ⟨⟩, by rintro ⟨⟩, by rintro _ ⟨⟩, ?_⟩
    intro hinit j hj
    -- the child `pp` now belongs to init
    rcases Nat.lt_or_eq_of_le (Nat.le_of_lt_succ hj) with hj | hj
    · exact .inl hj
    · right
      simpa [reparentAt, Fin.ext hj] using hinit
  case reparentRelease status q pp =>
    cases h
    exact reparentScan_lawful (.refl _) rfl rfl
  case exitReleaseParent q =>
    cases h
    exact ⟨.swap _ _ _, trivial, by rintro _ ⟨⟩, fun _ => .inr rfl, by rintro _ ⟨⟩,
      by rintro ⟨⟩, fun _ => ⟨rfl, rfl⟩, by rintro _ ⟨⟩, fun _ j hj => (Nat.not_lt_zero _ hj).elim⟩
  case waitAcquire =>
    cases h
    exact waitScan_lawful (.refl _) rfl
  case waitReleaseChild np found =>
    cases found with
    | false =>
        cases h
        exact waitScan_lawful (.refl _) rfl
    | true =>
        cases h
        exact .of_stay rfl rfl (.refl _) trivial trivial rfl rfl rfl rfl
  case waitResume =>
    cases h
    exact waitScan_lawful (.refl _) rfl
  case forkAcquirePrio np =>
    cases h
    exact .of_stay rfl rfl (.refl _) trivial trivial rfl rfl rfl rfl
  -- what is left takes or releases one lock and does nothing else
  all_goals
    cases h
    exact .of_stay rfl rfl (.refl _) trivial trivial rfl rfl rfl rfl

/-- The step that carries out a `nice` is the call of `nice`. -/
theorem threadStep_nice {pid : CInt} {i : Fin nprio} (h : k.threadStep p .user choice = some tr)
    (ha : tr.act = some (.nice pid i)) : choice = .nice pid i := by
  rcases threadStep_cases h with ⟨-, rfl | ⟨chan, rfl⟩⟩ | ⟨-, ht⟩ | ⟨_, hpc, -⟩ | ⟨_, hpc, -⟩ | ht
  · cases ha
  · cases ha
  · unfold call at ht
    cases choice <;> simp only [Option.ite_none_left_eq_some, Option.some.injEq, reduceCtorEq] at ht
    case exit => obtain ⟨-, rfl⟩ := ht; cases ha
    all_goals subst ht; cases ha
    rfl
  · cases hpc
  · cases hpc
  · cases ht

theorem threadStep_lawful (hw : pc.Wf) (h : k.threadStep p pc choice = some tr) :
    tr.Lawful k p pc := by
  rcases threadStep_cases h with ⟨hpre, ht⟩ | ⟨rfl, ht⟩ | ⟨i, rfl, ht⟩ | ⟨np, rfl, ht⟩ | ht
  · have hheld : pc.held p = [] := Pc.held_of_preemptible hpre
    have hl := Pc.leaving_of_preemptible hpre
    rcases ht with rfl | ⟨chan, rfl⟩
    · exact .of_stay rfl rfl (by rw [hheld]; exact .refl _) hpre trivial hl rfl rfl rfl
    · exact .of_stay rfl rfl (by rw [hheld]; exact .refl _) hpre trivial hl rfl rfl rfl
  · exact call_lawful ht
  · rcases ht with ⟨-, ht⟩ | rfl
    · exact forkInto_lawful ht
    · exact .of_stay rfl rfl (.refl _) trivial trivial rfl rfl rfl rfl
  · rcases ht with ⟨-, ht⟩ | rfl
    · exact waitZombie_lawful ht
    · exact .of_stay rfl rfl (.refl _) trivial trivial rfl rfl rfl rfl
  · exact advance_lawful hw ht

end Kern

/-! ### The scheduler -/

/-- Where a scheduler goes from a point. -/
structure SchedTrans.Lawful (tr : SchedTrans) (k : Kern) (pc : SchedPc) : Prop where
  act : tr.act = none ∧ tr.kern = k ∨ (∃ q, pc = .acquireProc q ∧ tr.act = some (.dispatchLate q)) ∨
    ∃ i chan, tr.act = some (.wakeup i chan)
  moves : (∃ q, pc = .releasePrioFor q ∧ tr.op = .release .prio ∧ tr.next = .proc q) ∨
    ∃ pc', tr.next = .sched pc' ∧ tr.op.Moves pc.held pc'.held ∧ ∀ q, pc ≠ .releasePrioFor q
  dispatch : ∀ q, pc = .acquireProc q → tr.kern = k.schedule q
  switch : ∀ q, tr.next = .sched (.releasePrioFor q) → pc = .acquireProc q
  pick : ∀ q, tr.next = .sched (.acquireProc q) → k.pickHighestPriorityRunnableProc = some q ∧
    tr.kern = k

namespace Kern

theorem schedStep_lawful {k : Kern} {pc : SchedPc} {choice : Choice} {tr : SchedTrans}
    (h : k.schedStep pc choice = some tr) : tr.Lawful k pc := by
  unfold schedStep at h
  split at h <;> first
    | cases h; done
    | cases h
  · refine ⟨.inl ⟨rfl, rfl⟩, .inr ⟨_, rfl, ?_, nofun⟩, nofun, ?_, ?_⟩ <;>
      cases k.pickHighestPriorityRunnableProc
    · exact .refl _
    · exact .refl _
    · nofun
    · nofun
    · nofun
    · rintro q ⟨⟩
      exact ⟨rfl, rfl⟩
  · exact ⟨.inl ⟨rfl, rfl⟩, .inr ⟨_, rfl, .refl _, nofun⟩, nofun, nofun, nofun⟩
  · exact ⟨.inl ⟨rfl, rfl⟩, .inr ⟨_, rfl, .refl _, nofun⟩, nofun, nofun, nofun⟩
  · exact ⟨.inr (.inl ⟨_, rfl, rfl⟩), .inr ⟨_, rfl, .refl _, nofun⟩, by rintro q ⟨⟩; rfl,
      by rintro q ⟨⟩; rfl, nofun⟩
  · exact ⟨.inl ⟨rfl, rfl⟩, .inl ⟨_, rfl, rfl, rfl⟩, nofun, nofun, nofun⟩
  · exact ⟨.inl ⟨rfl, rfl⟩, .inr ⟨_, rfl, .refl _, nofun⟩, nofun, nofun, nofun⟩
  · exact ⟨.inr (.inr ⟨_, _, rfl⟩), .inr ⟨_, rfl, .refl _, nofun⟩, nofun, nofun, nofun⟩
  · rename_i i chan
    refine ⟨.inl ⟨rfl, rfl⟩, .inr ⟨_, rfl, ?_, nofun⟩, nofun, ?_, ?_⟩ <;> cases nextSlot i
    · exact .refl _
    · exact .refl _
    all_goals nofun

end Kern

end Xv6.Sched
