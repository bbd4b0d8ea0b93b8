import Xv6.Sched.Locking

/-!
`prio_lock` against the process locks.

The scheduler and `exit` take `prio_lock` first and a process lock under
it; `fork` holds the lock of the child when it takes `prio_lock`. The two
orders collide only on a process that is in a queue while `fork` still
builds it, and nothing but a misdirected `nice` queues such a process.
-/

namespace Xv6.Sched

open Lib

namespace Machine

/-- The next lock operation of the CPU `c` is to acquire `l`. -/
def Tries (m : Machine) (c : Cpu) (l : Lock) : Prop :=
  ∃ choice, m.nextOp c choice = some (.acquire l)

/-- Two CPUs that wait for each other, one of them with `prio_lock`. -/
def Deadlocked (m : Machine) : Prop :=
  ∃ c d q, c ≠ d ∧ m.lock .prio = some c ∧ m.Tries c (.proc q) ∧
    m.lock (.proc q) = some d ∧ m.Tries d .prio

/-- A `nice` finds, if any slot, a live process that `fork` does not build
and `exit` has not dequeued. -/
def NicesListed (m : Machine) (a : Cpu × Choice) : Prop :=
  match a.2 with
  | .nice pid _ => ∀ p, m.kern.findPid pid = some p → m.abs.Listed p
  | _ => True

instance (m : Machine) : (a : Cpu × Choice) → Decidable (m.NicesListed a)
  | (_, .nice pid _) =>
      inferInstanceAs (Decidable (∀ p, m.kern.findPid pid = some p → m.abs.Listed p))
  | (_, .go) | (_, .noTrapframe) | (_, .noMemory) | (_, .badAddress) | (_, .timer)
  | (_, .interrupt _) | (_, .fork) | (_, .exit _) | (_, .wait) | (_, .sleep _) | (_, .wakeup _)
  | (_, .kill _) => isTrue trivial

variable {m : Machine} {c : Cpu} {p q : ProcId}

theorem op_waitScan {k : Kern} {op : LockOp Lock} {i : ℕ} {b : Bool} :
    (k.waitScan op p i b).op = op := by
  unfold Kern.waitScan
  split
  · rfl
  · split <;> rfl

theorem op_reparentScan {k : Kern} {op : LockOp Lock} {status : CInt} {i : ℕ} :
    (k.reparentScan op p status q i).op = op := by
  unfold Kern.reparentScan
  split <;> rfl

variable {k : Kern} {pc : Pc} {choice : Choice} {tr : Trans}

/-- The one lock that a thread tries under `prio_lock` is its own, in
`exit`. -/
theorem thread_tries_proc (h : k.threadStep p pc choice = some tr)
    (hop : tr.op = .acquire (.proc q)) (hprio : .prio ∈ pc.held p) :
    p = q ∧ pc.leaving = false := by
  rcases Pc.prio_mem_held hprio with ⟨np, rfl⟩ | ⟨status, rfl⟩ | ⟨status, rfl⟩ | ⟨status, rfl⟩ <;>
    rcases Kern.threadStep_cases h with
      ⟨hpre, -⟩ | ⟨hpc, -⟩ | ⟨_, hpc, -⟩ | ⟨_, hpc, -⟩ | ht <;>
    first
      | cases hpre
      | cases hpc
      | cases ht
        cases hop
  exact ⟨rfl, rfl⟩

/-- A thread that tries `prio_lock` with a process lock in hand is in
`fork`. -/
theorem thread_tries_prio (h : k.threadStep p pc choice = some tr)
    (hop : tr.op = .acquire .prio) (hq : .proc q ∈ pc.held p) : pc = .forkAcquirePrio q := by
  rcases Kern.threadStep_cases h with ⟨-, ht⟩ | ⟨rfl, -⟩ | ⟨_, rfl, -⟩ | ⟨np, rfl, ht⟩ | ht
  · rcases ht with rfl | ⟨chan, rfl⟩ <;> cases hop
  · simp [Pc.held] at hq
  · simp [Pc.held] at hq
  · rcases ht with ⟨-, ht⟩ | rfl
    · cases choice <;> simp only [Kern.waitZombie, Option.some.injEq, reduceCtorEq] at ht <;>
        (subst ht; cases hop)
    · cases hop
  · cases pc
    case forkAcquirePrio np =>
      obtain rfl : q = np := by simpa [Pc.held] using hq
      rfl
    case killAcquire i pid => simp [Pc.held] at hq
    case exitAcquireInit => simp [Pc.held] at hq
    case exitAcquireSelf => simp [Pc.held] at hq
    case exitAcquirePrio => simp [Pc.held] at hq
    case exitAcquireLast | reparentRelease =>
      cases ht
      rw [op_reparentScan] at hop
      cases hop
    case waitAcquire | waitResume =>
      cases ht
      rw [op_waitScan] at hop
      cases hop
    case waitReleaseChild np found =>
      cases found with
      | false =>
          cases ht
          rw [op_waitScan] at hop
          cases hop
      | true =>
          cases ht
          cases hop
    case killRelease i pid found =>
      cases found <;> (obtain rfl := Option.some.inj ht; cases hop)
    all_goals first
      | cases ht; done
      | cases ht
        cases hop

theorem Tries.prio {d : Cpu} (h : m.Tries d .prio) (hq : .proc q ∈ m.held d) :
    ∃ p, m.cpu d = .proc p ∧ m.pc p = .forkAcquirePrio q := by
  obtain ⟨choice, hop⟩ := h
  unfold nextOp at hop
  unfold held at hq
  split at hop <;> rename_i hd <;> rw [hd] at hq <;>
    obtain ⟨tr, ht, hop⟩ := Option.map_eq_some_iff.mp hop
  · -- a scheduler tries `prio_lock` with no lock in hand
    unfold Kern.schedStep at ht
    split at ht <;> first
      | cases ht; done
      | cases ht
        cases hop
    simp [SchedPc.held] at hq
  · exact ⟨_, hd, thread_tries_prio ht hop hq⟩

theorem Tries.proc (h : m.Tries c (.proc q)) (hprio : .prio ∈ m.held c) :
    m.cpu c = .sched (.acquireProc q) ∨ m.cpu c = .proc q ∧ (m.pc q).leaving = false := by
  obtain ⟨choice, hop⟩ := h
  unfold nextOp at hop
  unfold held at hprio
  split at hop <;> rename_i hc <;> rw [hc] at hprio <;>
    obtain ⟨tr, ht, hop⟩ := Option.map_eq_some_iff.mp hop
  · unfold Kern.schedStep at ht
    split at ht <;> first
      | cases ht; done
      | cases ht
        cases hop
    · exact .inl hc
    · simp [SchedPc.held] at hprio
  · obtain ⟨rfl, hl⟩ := thread_tries_proc ht hop hprio
    exact .inr ⟨hc, hl⟩

/-- While the queues hold no process that `fork` still builds, the two
lock orders do not meet. -/
theorem Inv.not_deadlocked (h : m.Inv) (hf : m.abs.FileInv) : ¬ m.Deadlocked := by
  rintro ⟨c, d, q, -, hprio, hc, hlock, hd⟩
  obtain ⟨p, hcpu, hpc⟩ := hd.prio ((h.owned.mem _ _).mp hlock)
  have hbuilt : m.abs.lock q = true := seen_lock.mpr ⟨p, by rw [hpc]; rfl⟩
  rcases hc.proc ((h.owned.mem _ _).mp hprio) with hc | ⟨hc, hl⟩
  · -- the scheduler found `q` in a queue
    obtain ⟨-, i, hi⟩ := h.picked c q hc
    exact hf.2.not_mem (fun hL => by simp [hL.2.1] at hbuilt) i hi
  · -- `exit` runs in `q`
    have hrun := h.running c q (.inl hc)
    rw [hl] at hrun
    exact absurd (hrun.symm.trans (h.base.locked q hbuilt).1) (by decide)

theorem boot_abs : Sys.step Sys.init .userinit = some boot.abs := by
  have hinit : Sys.init.kern.initproc = none := rfl
  have hfind : Sys.init.kern.findUnused = some 0 := by decide +kernel
  simp only [Sys.step, hinit, hfind, ↓reduceIte, Option.map_some]
  refine congrArg some (seen_ext rfl (fun np => ?_) fun b => ?_).symm
  · exact iff_of_false Bool.false_ne_true (by rintro ⟨_, ⟨⟩⟩)
  · by_cases hb : b = 0 <;> simp only [Sys.pos_setPos, hb, ↓reduceIte] <;> rfl

theorem boot_fileInv : boot.abs.FileInv :=
  Sys.step_fileInv (a := .userinit) Sys.init_fileInv trivial boot_abs

theorem boot_inv : boot.Inv where
  base := boot_fileInv.1
  owned := ⟨fun l t => by simp [boot, held, SchedPc.held], fun t => by simp [boot, held, SchedPc.held]⟩
  one c d p h := by simp [On, boot] at h
  running c p h := by simp [On, boot] at h
  switched c p h := by simp [boot] at h
  resume p _ _ := trivial
  wf p := rfl
  picked c q h := by simp [boot] at h
  orphans b hb := by
    change ((procinit.userinit 0).proc b).parent = none
    by_cases h : b = 0 <;> simp [Kern.userinit, Kern.allocproc, procinit, h]
  exiting p h := by cases h
  scanned p j h := (Nat.not_lt_zero _ h).elim
  child p np h := by cases h

theorem step_inv_fileInv {a : Cpu × Choice} {m' : Machine} (h : m.Inv ∧ m.abs.FileInv)
    (ha : m.NicesListed a) (hm : m.step a = some m') : m'.Inv ∧ m'.abs.FileInv := by
  obtain ⟨hi, act, hfol, hnice⟩ := h.1.step hm
  refine ⟨hi, ?_⟩
  cases act with
  | none => exact hfol ▸ h.2
  | some act =>
      refine Sys.step_fileInv h.2 ?_ hfol
      cases act with
      | nice pid i =>
          have hch := hnice pid i rfl
          simp only [NicesListed, hch] at ha
          exact ha
      | _ => exact trivial

end Machine

open Machine

/-- **`prio_lock` and the process locks do not deadlock.** On any number
of CPUs, along a run in which every `nice` that finds a slot finds a
process that may stand in a queue, no CPU holds `prio_lock` and waits for
a process lock whose holder waits for `prio_lock`. -/
theorem no_lock_cycle (as : List (Cpu × Choice)) (m : Machine) (h : run step boot as = some m)
    (hnice : Meets step NicesListed boot as) : ¬ m.Deadlocked :=
  have hm := invariant step_inv_fileInv ⟨boot_inv, boot_fileInv⟩ hnice h
  hm.1.not_deadlocked hm.2

/-- CPU 0 runs init, which moves itself to priority 3. -/
theorem no_lock_cycle_boot :
    ∃ m, run step boot [(0, .go), (0, .go), (0, .go), (0, .go), (0, .nice 1 3)] = some m ∧
      ¬ m.Deadlocked := by
  have hrun := (Option.some_get (by decide +kernel : (run step boot
    [(0, .go), (0, .go), (0, .go), (0, .go), (0, .nice 1 3)]).isSome)).symm
  exact ⟨_, hrun, no_lock_cycle _ _ hrun (by decide +kernel)⟩

/-- Init, on CPU 0, queues the `UNUSED` slot 1 with `nice(0, 3)` and forks
into it; CPU 1 then picks the child before it is complete. -/
def lockedRun : List (Cpu × Choice) :=
  [(0, .go), (0, .go), (0, .go), (0, .go), (0, .nice 0 3), (0, .fork), (0, .go), (0, .go),
   (0, .go), (1, .go)]

theorem fork_scheduler_locked : ¬ ∀ as m, run step boot as = some m → ¬ m.Deadlocked := by
  intro h
  have hrun : (run step boot lockedRun).any (fun m =>
      m.lock .prio = some 1 ∧ m.nextOp 1 .go = some (.acquire (.proc 1)) ∧
        m.lock (.proc 1) = some 0 ∧ m.nextOp 0 .go = some (.acquire .prio)) = true := by
    decide +kernel
  obtain ⟨m, hm, hp⟩ := (Option.any_eq_true _ _).mp hrun
  obtain ⟨hprio, hc, hproc, hd⟩ := of_decide_eq_true hp
  exact h lockedRun m hm ⟨1, 0, 1, by decide, hprio, ⟨_, hc⟩, hproc, ⟨_, hd⟩⟩

end Xv6.Sched
