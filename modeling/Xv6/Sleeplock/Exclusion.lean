import Xv6.Lib.Runs
import Xv6.Sleeplock.System

/-!
Sleep locks exclude, and no waiter is left behind.

`lk->locked` and `lk->pid` change only under `lk->lk`, and between the return
of `acquiresleep` and the locked section of `releasesleep` they name the
process. A process goes to sleep on `lk` only when it has seen `lk->locked`
under `lk->lk`, and it keeps `lk->lk` until it has its own `p->lock`. So when
`releasesleep` clears `lk->locked`, every waiter is asleep or will read the
cleared flag, and those asleep are all ahead of the loop of `wakeup`.
-/

set_option linter.unusedSectionVars false

namespace Xv6.Sleeplock

open Lib

open Sched (ProcState)

variable {K C : Type} {n : ℕ} {s t : State K C n} {k : K} {p q x : Fin n}

/-! ### Which locks a thread holds -/

/-- The spin locks that are held by or for the thread of `p`. -/
def State.held (s : State K C n) (p : Fin n) : List (Lock K C n) :=
  match s.phase p with
  | .run => (s.pc p).held p
  | .switching _ | .yieldRelease => [.proc p]
  | .yieldAcquire | .off _ => []

/-- Where a thread stops: in `yield` it had no lock, in `sleep` it has its
own. -/
def Rests (p : Fin n) (pc : Pc K C n) : Phase → Prop
  | .run => True
  | .switching false | .off false => pc.held p = [.proc p]
  | .switching true | .off true | .yieldAcquire | .yieldRelease => pc.held p = []

structure Locks (s : State K C n) : Prop where
  owned : Owned s.lock s.held
  rests : ∀ p, Rests p (s.pc p) (s.phase p)

theorem locks_init : Locks (init : State K C n) where
  owned := ⟨fun _ _ => by simp [init, State.held], fun _ => by simp [init, State.held]⟩
  rests _ := rfl

/-- The thread that is in a section of `lk->lk` runs and has the lock. -/
theorem Locks.mem_held (h : Locks s) (hk : .lk k ∈ (s.pc p).held p) : .lk k ∈ s.held p := by
  have hrests := h.rests p
  unfold State.held
  cases hphase : s.phase p with
  | run => exact hk
  | yieldAcquire | yieldRelease =>
      rw [hphase, Rests] at hrests
      simp [hrests] at hk
  | switching y | off y =>
      cases y <;> simp [hphase, Rests] at hrests <;> simp [hrests] at hk

variable [DecidableEq K] [DecidableEq C]

/-- While a thread takes `lk->lk`, no thread is in a section of it. -/
theorem Locks.not_mem_held (h : Locks s) {lock : Lock K C n → Option (Fin n)}
    (ha : (LockOp.acquire (.lk k)).apply s.lock p = some lock) : .lk k ∉ (s.pc q).held q :=
  fun hk => h.owned.not_mem_of_acquire ha q (h.mem_held hk)

/-- What a move has to say about the locks of its own thread. -/
structure Moved (op : LockOp (Lock K C n)) (s t : State K C n) (p : Fin n) : Prop where
  moves : op.Moves (s.held p) (t.held p)
  rests : Rests p (t.pc p) (t.phase p)
  pc : ∀ q, q ≠ p → t.pc q = s.pc q
  phase : ∀ q, q ≠ p → t.phase q = s.phase q

variable {op : LockOp (Lock K C n)} {pc : Pc K C n}

theorem Locks.moved {lock : Lock K C n → Option (Fin n)} (h : Locks s)
    (ha : op.apply s.lock p = some lock) (hm : Moved op s t p) : Locks { t with lock } where
  owned := by
    refine (h.owned.step ha hm.moves).congr fun q => ?_
    by_cases hq : q = p
    · subst hq
      simp only [Function.update_self]
      exact List.Perm.refl _
    · rw [Function.update_of_ne hq]
      simp only [State.held, hm.pc q hq, hm.phase q hq]
      exact List.Perm.refl _
  rests q := by
    by_cases hq : q = p
    · subst hq
      exact hm.rests
    · simp only [hm.pc q hq, hm.phase q hq]
      exact h.rests q

/-! ### Small steps -/

theorem held_wakeupFrom (i : ℕ) (ch : Chan K C) (caller : Option K) :
    (wakeupFrom i ch caller : Pc K C n).held p = (caller.map .lk).toList := by
  unfold wakeupFrom
  split
  · cases caller <;> rfl
  · cases caller <;> rfl

theorem held_killFrom (i : ℕ) (pid : ℤ) : (killFrom i pid : Pc K C n).held p = [] := by
  unfold killFrom
  split <;> rfl

section

variable (s p)

@[simp] theorem pc_goto (pc : Pc K C n) : (s.goto p pc).pc = Function.update s.pc p pc := rfl

@[simp] theorem phase_goto (pc : Pc K C n) : (s.goto p pc).phase = s.phase := rfl

@[simp] theorem pc_wakeupAt (i : Fin n) (ch : Chan K C) : (s.wakeupAt i ch).pc = s.pc := by
  unfold State.wakeupAt
  split <;> rfl

@[simp] theorem phase_wakeupAt (i : Fin n) (ch : Chan K C) : (s.wakeupAt i ch).phase = s.phase := by
  unfold State.wakeupAt
  split <;> rfl

@[simp] theorem pc_killAt (i : Fin n) : (s.killAt i).pc = s.pc := by
  unfold State.killAt
  dsimp only
  split <;> rfl

@[simp] theorem phase_killAt (i : Fin n) : (s.killAt i).phase = s.phase := by
  unfold State.killAt
  dsimp only
  split <;> rfl

end

/-- A running thread goes on at `pc`. -/
theorem moved_goto (hrun : s.phase p = .run) (hpc : t.pc = s.pc) (hphase : t.phase = s.phase)
    (hm : op.Moves ((s.pc p).held p) (pc.held p)) : Moved op s (t.goto p pc) p where
  moves := by
    simpa [State.held, hrun, hphase] using hm
  rests := by
    simp [hphase, hrun, Rests]
  pc q hq := by
    simp [hpc, hq]
  phase q _ := by
    simp [hphase]

variable {ch : Chan K C}

theorem moved_sleepOn (hrun : s.phase p = .run) (hpc : pc.held p = [.proc p])
    (hm : op.Moves ((s.pc p).held p) [.proc p]) : Moved op s (s.sleepOn p ch pc) p where
  moves := by
    simpa [State.held, hrun, State.sleepOn, State.setPhase] using hm
  rests := by
    simpa [State.sleepOn, State.setPhase, Rests] using hpc
  pc q hq := by
    simp [State.sleepOn, hq]
  phase q hq := by
    simp [State.sleepOn, State.setPhase, State.setState, hq]

/-- The thread is stopped or resumed. -/
theorem moved_setPhase {phase : Phase} (hpc : t.pc = s.pc)
    (hphase : t.phase = s.phase) (hm : op.Moves (s.held p) ((t.setPhase p phase).held p))
    (hrests : Rests p (s.pc p) phase) : Moved op s (t.setPhase p phase) p where
  moves := hm
  rests := by
    simpa [State.setPhase, hpc] using hrests
  pc q _ := by
    simp [State.setPhase, hpc]
  phase q hq := by
    simp [State.setPhase, hphase, hq]

variable {P : Procs n}

theorem moved_trySleeplock (hrun : s.phase p = .run) (hpc : (s.pc p).held p = []) :
    Moved (.acquire (.lk k)) s (s.trySleeplock p P k) p := by
  have hm : (LockOp.acquire (.lk k)).Moves ((s.pc p).held p) [.lk k] := by
    rw [hpc]
    exact List.Perm.refl _
  unfold State.trySleeplock
  split
  · exact moved_goto hrun rfl rfl hm
  · exact moved_goto hrun rfl rfl hm

/-! ### What a step does to the sleep locks -/

/-- What a process is doing about a sleep lock. -/
inductive Role (K C : Type)
  | idle
  /-- it has the lock and is about to return from `acquiresleep` -/
  | acquired (k : K)
  /-- it has called `releasesleep` and still has the lock -/
  | releasing (k : K)
  /-- it has seen the lock taken and is going to sleep -/
  | waiting (k : K)
  /-- it is in `releasesleep`, and `wakeup` has the slots from `i` on ahead -/
  | sweeping (i : ℕ) (ch : Chan K C) (k : K)
  /-- it is about to return `r` from `holdingsleep` -/
  | answering (k : K) (r : Bool)

def Pc.role : Pc K C n → Role K C
  | .acquiresleepRelease k => .acquired k
  | .releasesleepAcquire k => .releasing k
  | .sleepAcquire (.slk k) | .sleepRelease (.slk k) => .waiting k
  | .wakeupAcquire i ch (some k) => .sweeping i ch k
  | .wakeupRelease i ch (some k) => .sweeping (i + 1) ch k
  | .holdingsleepRelease k r => .answering k r
  | _ => .idle

def State.role (s : State K C n) (p : Fin n) : Role K C := (s.pc p).role

/-- The process has the sleep lock although it is inside one of the
functions. -/
def Role.Claims (k : K) (r : Role K C) : Prop := r = .acquired k ∨ r = .releasing k

/-- The process is in `releasesleep` and has the slot `x` still ahead. -/
def Role.Sweeps (k : K) (x : Fin n) (r : Role K C) : Prop :=
  ∃ i, r = .sweeping i (.slk k) k ∧ i ≤ x.val

/-- The process is `SLEEPING` on `k`. -/
def State.Asleep (s : State K C n) (x : Fin n) (k : K) : Prop :=
  s.state x = .sleeping ∧ s.chan x = some (.slk k)

/-- The sleep locks stay as they are. A process falls asleep or stops waiting
only as the code of `sleep` and `wakeup` says. -/
structure Same (P : Procs n) (s t : State K C n) (p : Fin n) : Prop where
  locked : t.locked = s.locked
  pid : t.pid = s.pid
  holds : t.holds = s.holds
  claims : ∀ k, (t.role p).Claims k ↔ (s.role p).Claims k
  releasing : ∀ k, t.role p = .releasing k → s.role p = .releasing k
  answer : ∀ k r, t.role p = .answering k r →
    s.role p = .answering k r ∨ ¬ (s.role p).Claims k ∧ r = s.holdingsleep p P k
  waiting : ∀ k, t.role p = .waiting k → s.role p = .waiting k ∨ s.locked k = true
  asleep : ∀ k x, t.Asleep x k → s.Asleep x k ∨ s.role p = .waiting k
  sweeps : ∀ k x, (s.role p).Sweeps k x → (t.role p).Sweeps k x ∨ ¬ t.Asleep x k

/-- The ways in which a step acts on the sleep locks. -/
inductive Effect (P : Procs n) (s : State K C n) (p : Fin n) :
    LockOp (Lock K C n) → State K C n → Prop
  | same {op : LockOp (Lock K C n)} {t : State K C n} (h : Same P s t p) : Effect P s p op t
  | lock (k : K) (hfree : s.locked k = false) (hrole : s.role p = .idle) :
      Effect P s p (.acquire (.lk k))
        ((s.setLocked k true (P.pid p)).goto p (.acquiresleepRelease k))
  | hold (k : K) (hrole : s.role p = .acquired k) :
      Effect P s p (.release (.lk k)) ((s.setHolds p k true).goto p .user)
  | call (k : K) (hrole : s.role p = .idle) (hholds : s.holds p k = true) :
      Effect P s p .skip ((s.setHolds p k false).goto p (.releasesleepAcquire k))
  | unlock (k : K) (hrole : s.role p = .releasing k) :
      Effect P s p (.acquire (.lk k))
        ((s.setLocked k false 0).goto p (wakeupFrom 0 (.slk k) (some k)))

@[simp] theorem role_goto (pc : Pc K C n) : (s.goto p pc).role p = pc.role := by
  simp [State.role]

theorem role_wakeupFrom_none (i : ℕ) (ch : Chan K C) :
    (wakeupFrom i ch none : Pc K C n).role = .idle := by
  unfold wakeupFrom
  split <;> rfl

theorem role_wakeupFrom (i : ℕ) (ch : Chan K C) (k : K) :
    (wakeupFrom i ch (some k) : Pc K C n).role = .sweeping i ch k ∨
      n ≤ i ∧ (wakeupFrom i ch (some k) : Pc K C n).role = .idle := by
  unfold wakeupFrom slot
  split
  case h_1 hslot =>
    split at hslot
    · cases hslot
      exact .inl rfl
    · cases hslot
  case h_2 hslot =>
    split at hslot
    · cases hslot
    · exact .inr ⟨by omega, rfl⟩

/-- The loop of `wakeup` at the slot `i` has the slots from `i` on ahead. -/
theorem sweeps_wakeupFrom {i : ℕ} (hi : i ≤ x.val) :
    (wakeupFrom i (.slk k) (some k) : Pc K C n).role.Sweeps k x := by
  obtain hrole | ⟨hn, _⟩ := role_wakeupFrom (n := n) i (Chan.slk k : Chan K C) k
  · exact ⟨i, hrole, hi⟩
  · exact absurd x.isLt (by omega)

theorem role_killFrom (i : ℕ) (pid : ℤ) : (killFrom i pid : Pc K C n).role = .idle := by
  unfold killFrom
  split <;> rfl

/-- The step leaves the sleep locks alone and wakes nobody the process has
yet to wake. -/
structure Frame (s t : State K C n) : Prop where
  locked : t.locked = s.locked
  pid : t.pid = s.pid
  holds : t.holds = s.holds
  asleep : ∀ k x, t.Asleep x k → s.Asleep x k

theorem Same.of_role_eq (h : Frame s t) (hrole : t.role p = s.role p) : Same P s t p where
  locked := h.locked
  pid := h.pid
  holds := h.holds
  claims k := by rw [hrole]
  releasing k hk := by rwa [hrole] at hk
  answer k r hr := .inl (by rwa [hrole] at hr)
  waiting k hk := .inl (by rwa [hrole] at hk)
  asleep k x hx := .inl (h.asleep k x hx)
  sweeps k x hx := .inl (by rwa [hrole])

/-- The process has done with what it was doing about a sleep lock. -/
theorem Same.of_idle (h : Frame s t) (hrole : t.role p = .idle)
    (hclaims : ∀ k, ¬ (s.role p).Claims k) (hsweeps : ∀ k (x : Fin n), ¬ (s.role p).Sweeps k x) :
    Same P s t p where
  locked := h.locked
  pid := h.pid
  holds := h.holds
  claims k := by
    refine ⟨fun hk => ?_, fun hk => absurd hk (hclaims k)⟩
    simp [hrole, Role.Claims] at hk
  releasing k hk := by simp [hrole] at hk
  answer k r hr := by simp [hrole] at hr
  waiting k hk := by simp [hrole] at hk
  asleep k x hx := .inl (h.asleep k x hx)
  sweeps k x hx := absurd hx (hsweeps k x)

theorem frame_setState (i : Fin n) (st : ProcState) (hst : st ≠ .sleeping) :
    Frame s (s.setState i st) := by
  refine ⟨rfl, rfl, rfl, fun k x hx => ?_⟩
  by_cases hi : x = i
  · subst hi
    simp [State.Asleep, State.setState, hst] at hx
  · simpa [State.Asleep, State.setState, hi] using hx

/-- Only a part of the state that says nothing about sleep locks changes. -/
theorem Frame.of_eq (hlocked : t.locked = s.locked) (hpid : t.pid = s.pid)
    (hholds : t.holds = s.holds) (hstate : t.state = s.state) (hchan : t.chan = s.chan) :
    Frame s t :=
  ⟨hlocked, hpid, hholds, fun _ _ h => by rwa [State.Asleep, hstate, hchan] at h⟩

theorem Frame.goto (h : Frame s t) (pc : Pc K C n) : Frame s (t.goto p pc) :=
  ⟨h.locked, h.pid, h.holds, h.asleep⟩

theorem frame_goto (pc : Pc K C n) : Frame s (s.goto p pc) := .of_eq rfl rfl rfl rfl rfl

theorem frame_clearChan : Frame s (s.clearChan p) := by
  refine ⟨rfl, rfl, rfl, fun k x hx => ?_⟩
  by_cases hi : x = p
  · subst hi
    simp [State.Asleep, State.clearChan] at hx
  · simpa [State.Asleep, State.clearChan, hi] using hx

theorem frame_wakeupAt (i : Fin n) (ch : Chan K C) : Frame s (s.wakeupAt i ch) := by
  unfold State.wakeupAt
  split
  · exact frame_setState i .runnable (by decide)
  · exact .of_eq rfl rfl rfl rfl rfl

theorem not_asleep_wakeupAt : ¬ (s.wakeupAt x (.slk k)).Asleep x k := by
  unfold State.wakeupAt State.Asleep
  split
  · simp [State.setState]
  · assumption

theorem frame_killAt (i : Fin n) : Frame s (s.killAt i) := by
  unfold State.killAt
  dsimp only
  split
  · have h := frame_setState (s := { s with killed := Function.update s.killed i true }) i
      .runnable (by decide)
    exact ⟨h.locked, h.pid, h.holds, h.asleep⟩
  · exact .of_eq rfl rfl rfl rfl rfl

/-- Both the locks and the sleep locks, for a thread that is and stays at
nothing in particular. -/
theorem effect_idle {pc' : Pc K C n}
    (hrun : s.phase p = .run) (hpc : s.pc p = pc) (h : Frame s t) (hpc' : t.pc = s.pc)
    (hphase : t.phase = s.phase) (hm : op.Moves (pc.held p) (pc'.held p)) (hold : pc.role = .idle)
    (hnew : pc'.role = .idle) : Moved op s (t.goto p pc') p ∧ Effect P s p op (t.goto p pc') := by
  subst hpc
  refine ⟨moved_goto hrun hpc' hphase hm, .same (.of_role_eq (h.goto _) ?_)⟩
  rw [role_goto, hnew]
  exact hold.symm

/-- A process that was at nothing in particular waits for a lock it has seen
taken, or knows whether it holds the lock. -/
theorem Same.of_begin (h : Frame s t) (hold : s.role p = .idle)
    (hnew : (∃ k, t.role p = .waiting k ∧ s.locked k = true) ∨
      ∃ k, t.role p = .answering k (s.holdingsleep p P k)) : Same P s t p where
  locked := h.locked
  pid := h.pid
  holds := h.holds
  claims k := by
    obtain ⟨_, hnew, _⟩ | ⟨_, hnew⟩ := hnew <;> simp [hold, hnew, Role.Claims]
  releasing k hk := by
    obtain ⟨_, hnew, _⟩ | ⟨_, hnew⟩ := hnew <;> simp [hnew] at hk
  answer k r hr := by
    obtain ⟨_, hnew, _⟩ | ⟨_, hnew⟩ := hnew
    · simp [hnew] at hr
    · rw [hnew] at hr
      cases hr
      exact .inr ⟨by simp [hold, Role.Claims], rfl⟩
  waiting k hk := by
    obtain ⟨_, hnew, hlocked⟩ | ⟨_, hnew⟩ := hnew
    · rw [hnew] at hk
      cases hk
      exact .inr hlocked
    · simp [hnew] at hk
  asleep k x hx := .inl (h.asleep k x hx)
  sweeps k x hx := by
    simp [hold, Role.Sweeps] at hx

theorem effect_trySleeplock (hrun : s.phase p = .run)
    (hpc : s.pc p = pc) (hheld : pc.held p = []) (hrole : pc.role = .idle) :
    Moved (.acquire (.lk k)) s (s.trySleeplock p P k) p ∧
      Effect P s p (.acquire (.lk k)) (s.trySleeplock p P k) := by
  subst hpc
  refine ⟨moved_trySleeplock hrun hheld, ?_⟩
  unfold State.trySleeplock
  split
  case isTrue hlocked =>
    exact .same (.of_begin (frame_goto _) hrole (.inl ⟨k, role_goto _, hlocked⟩))
  case isFalse hlocked =>
    exact .lock k (by simpa using hlocked) hrole

/-- Falling asleep ends the wait for a lock. -/
theorem effect_sleepOn {pc' : Pc K C n}
    (hrun : s.phase p = .run) (hpc : s.pc p = pc) (hheld : pc'.held p = [.proc p])
    (hm : op.Moves (pc.held p) [.proc p]) (hnew : pc'.role = .idle)
    (hold : (∀ k, ch = .slk k → pc.role = .waiting k) ∧ ∀ c, ch = .other c → pc.role = .idle) :
    Moved op s (s.sleepOn p ch pc') p ∧ Effect P s p op (s.sleepOn p ch pc') := by
  subst hpc
  have hrole : (s.sleepOn p ch pc').role p = .idle := by
    simpa [State.role, State.sleepOn] using hnew
  have hs : (∃ k, ch = .slk k ∧ s.role p = .waiting k) ∨ s.role p = .idle := by
    cases ch with
    | slk k => exact .inl ⟨k, rfl, hold.1 k rfl⟩
    | other c => exact .inr (hold.2 c rfl)
  refine ⟨moved_sleepOn hrun hheld hm, .same ?_⟩
  refine ⟨rfl, rfl, rfl, fun k => ?_, ?_, ?_, ?_, fun k x hx => ?_, fun k x hx => ?_⟩
  · obtain ⟨_, _, hs⟩ | hs := hs <;> simp [hrole, hs, Role.Claims]
  · simp [hrole]
  · simp [hrole]
  · simp [hrole]
  · by_cases hxp : x = p
    · subst hxp
      simp only [State.Asleep, State.sleepOn, Function.update_self, Option.some.injEq] at hx
      exact .inr (hold.1 k hx.2)
    · simp only [State.Asleep, State.sleepOn, State.setPhase, State.setState,
        Function.update_of_ne hxp] at hx
      exact .inl hx
  · obtain ⟨_, _, hs⟩ | hs := hs <;> simp [hs, Role.Sweeps] at hx

theorem effect_wakeupAcquire {i : Fin n} {caller : Option K}
    (hrun : s.phase p = .run) (hpc : s.pc p = .wakeupAcquire i ch caller) :
    Moved (.acquire (.proc i)) s ((s.wakeupAt i ch).goto p (.wakeupRelease i ch caller)) p ∧
      Effect P s p (.acquire (.proc i))
        ((s.wakeupAt i ch).goto p (.wakeupRelease i ch caller)) := by
  cases caller with
  | none =>
      exact effect_idle hrun hpc (frame_wakeupAt i ch) (by simp) (by simp) (.refl _) rfl rfl
  | some k =>
      refine ⟨moved_goto hrun (by simp) (by simp) (by rw [hpc]; exact .refl _), .same ?_⟩
      have hs : s.role p = .sweeping i ch k := by rw [State.role, hpc]; rfl
      have ht : ((s.wakeupAt i ch).goto p (.wakeupRelease i ch (some k))).role p =
          .sweeping (i + 1) ch k := role_goto _
      have hframe := (frame_wakeupAt (s := s) i ch).goto (p := p) (.wakeupRelease i ch (some k))
      refine ⟨hframe.locked, hframe.pid, hframe.holds, fun k => ?_, ?_, ?_, ?_,
        fun k x hx => .inl (hframe.asleep k x hx), fun k x hx => ?_⟩
      · simp [hs, ht, Role.Claims]
      · simp [ht]
      · simp [ht]
      · simp [ht]
      · obtain ⟨j, hj, hx⟩ := hx
        rw [hs] at hj
        cases hj
        by_cases hix : i = x
        · subst hix
          exact .inr not_asleep_wakeupAt
        · exact .inl ⟨_, ht, by omega⟩

theorem effect_wakeupRelease {i : Fin n} {caller : Option K}
    (hrun : s.phase p = .run) (hpc : s.pc p = .wakeupRelease i ch caller) :
    Moved (.release (.proc i)) s (s.goto p (wakeupFrom (i + 1) ch caller)) p ∧
      Effect P s p (.release (.proc i)) (s.goto p (wakeupFrom (i + 1) ch caller)) := by
  have hm : (LockOp.release (.proc i)).Moves ((s.pc p).held p)
      ((wakeupFrom (i + 1) ch caller : Pc K C n).held p) := by
    rw [hpc, held_wakeupFrom]
    cases caller <;> exact .refl _
  cases caller with
  | none =>
      rw [hpc] at hm
      exact effect_idle hrun hpc (.of_eq rfl rfl rfl rfl rfl) rfl rfl hm rfl
        (role_wakeupFrom_none _ _)
  | some k =>
      refine ⟨moved_goto hrun rfl rfl hm, .same ?_⟩
      have hs : s.role p = .sweeping (i + 1) ch k := by rw [State.role, hpc]; rfl
      obtain ht | ⟨hn, ht⟩ := role_wakeupFrom (n := n) (i + 1) ch k
      · exact .of_role_eq (frame_goto _) (by rw [role_goto, ht, hs])
      · -- the loop is over, and no slot was ahead
        refine .of_idle (frame_goto _) (by rw [role_goto, ht]) (fun k => ?_) fun k x hx => ?_
        · simp [hs, Role.Claims]
        · obtain ⟨j, hj, hx⟩ := hx
          rw [hs] at hj
          cases hj
          omega

theorem effect_advance (hrun : s.phase p = .run)
    (hadv : s.advance p P = some (op, t)) : Moved op s t p ∧ Effect P s p op t := by
  have hrefl : ∀ l : List (Lock K C n), l.Perm l := List.Perm.refl
  have hsame : Frame s s := .of_eq rfl rfl rfl rfl rfl
  have hrole : ∀ {pc}, s.pc p = pc → s.role p = pc.role := fun h => by rw [State.role, h]
  unfold State.advance at hadv
  split at hadv
  case h_1 => cases hadv
  case h_2 k hpc =>
    cases hadv
    exact effect_trySleeplock hrun hpc rfl rfl
  case h_3 k hpc =>
    cases hadv
    exact ⟨moved_goto hrun rfl rfl (by rw [hpc]; exact hrefl _), .hold k (hrole hpc)⟩
  case h_4 k hpc =>
    cases hadv
    refine ⟨moved_goto hrun rfl rfl ?_, .unlock k (hrole hpc)⟩
    rw [hpc, held_wakeupFrom]
    exact hrefl _
  case h_6 k hpc =>
    cases hadv
    refine ⟨moved_goto hrun rfl rfl (by rw [hpc]; exact hrefl _), .same ?_⟩
    exact .of_begin (frame_goto _) (hrole hpc) (.inr ⟨k, role_goto _⟩)
  case h_7 k r hpc =>
    cases hadv
    refine ⟨moved_goto hrun rfl rfl (by rw [hpc]; exact hrefl _), .same ?_⟩
    refine .of_idle (frame_goto _) (role_goto _) (fun k => ?_) fun k x => ?_
    · simp [hrole hpc, Pc.role, Role.Claims]
    · simp [hrole hpc, Pc.role, Role.Sweeps]
  case h_10 ch hpc =>
    cases hadv
    refine ⟨moved_goto hrun rfl rfl (by rw [hpc]; exact hrefl _), .same ?_⟩
    refine .of_role_eq (frame_goto _) ?_
    rw [role_goto, hrole hpc]
    cases ch <;> rfl
  case h_11 ch hpc =>
    cases hadv
    refine effect_sleepOn hrun hpc rfl (.swap _ _ _) rfl ⟨?_, ?_⟩
    · rintro k rfl
      rfl
    · rintro c rfl
      rfl
  case h_12 ch hpc =>
    cases hadv
    exact effect_idle hrun hpc frame_clearChan rfl rfl (hrefl _) rfl rfl
  case h_13 k hpc =>
    cases hadv
    exact effect_trySleeplock hrun hpc rfl rfl
  case h_15 c hpc =>
    cases hadv
    exact effect_sleepOn hrun hpc rfl (hrefl _) rfl ⟨nofun, fun _ _ => rfl⟩
  case h_16 c hpc =>
    cases hadv
    exact effect_idle hrun hpc frame_clearChan rfl rfl (hrefl _) rfl rfl
  case h_17 i ch caller hpc =>
    cases hadv
    exact effect_wakeupAcquire hrun hpc
  case h_18 i ch caller hpc =>
    cases hadv
    exact effect_wakeupRelease hrun hpc
  case h_19 i pid hpc =>
    split at hadv
    · cases hadv
      exact effect_idle hrun hpc (frame_killAt i) (by simp) (by simp) (hrefl _) rfl rfl
    · cases hadv
      exact effect_idle hrun hpc hsame rfl rfl (hrefl _) rfl rfl
  case h_21 i pid hpc =>
    cases hadv
    refine effect_idle hrun hpc hsame rfl rfl ?_ rfl (role_killFrom _ _)
    rw [held_killFrom]
    exact hrefl _
  all_goals
    rename_i hpc
    cases hadv
    exact effect_idle hrun hpc hsame rfl rfl (hrefl _) rfl rfl

theorem same_setPhase {phase : Phase} (h : Frame s t) (hpc : t.pc = s.pc) :
    Same P s (t.setPhase p phase) p := by
  refine .of_role_eq ⟨h.locked, h.pid, h.holds, h.asleep⟩ ?_
  change (t.pc p).role = _
  rw [hpc]
  rfl

theorem effect_go (h : Locks s)
    (hgo : s.go p P = some (op, t)) : Moved op s t p ∧ Effect P s p op t := by
  have hrests := h.rests p
  have hheld : ∀ {t : State K C n} {phase : Phase}, (t.setPhase p phase).held p =
      match phase with
      | .run => (t.pc p).held p
      | .switching _ | .yieldRelease => [.proc p]
      | .yieldAcquire | .off _ => [] := by
    intro t phase
    simp [State.held, State.setPhase]
  unfold State.go at hgo
  split at hgo
  case h_1 hphase => exact effect_advance hphase hgo
  case h_2 hphase =>
    cases hgo
    rw [hphase, Rests] at hrests
    refine ⟨moved_setPhase rfl rfl ?_ hrests, .same (same_setPhase (frame_setState _ _ nofun) rfl)⟩
    rw [hheld, State.held, hphase]
    exact .refl _
  case h_3 yield hphase =>
    cases hgo
    rw [hphase] at hrests
    refine ⟨moved_setPhase rfl rfl ?_ ?_, .same (same_setPhase (.of_eq rfl rfl rfl rfl rfl) rfl)⟩
    · rw [hheld, State.held, hphase]
      exact .refl _
    · cases yield <;> exact hrests
  case h_4 yield hphase =>
    obtain ⟨_, ⟨⟩⟩ := Option.ite_none_right_eq_some.mp hgo
    rw [hphase] at hrests
    refine ⟨moved_setPhase rfl rfl ?_ ?_, .same (same_setPhase (frame_setState _ _ nofun) rfl)⟩
    · rw [hheld, State.held, hphase]
      cases yield with
      | false =>
          change List.Perm ((s.pc p).held p) _
          rw [show (s.pc p).held p = _ from hrests]
      | true => exact .refl _
    · cases yield with
      | false => trivial
      | true => exact hrests
  case h_5 hphase =>
    cases hgo
    rw [hphase, Rests] at hrests
    refine ⟨moved_setPhase rfl rfl ?_ trivial, .same (same_setPhase (.of_eq rfl rfl rfl rfl rfl) rfl)⟩
    rw [hheld, State.held, hphase]
    change List.Perm _ (_ :: (s.pc p).held p)
    rw [hrests]

theorem effect_move {a : Act K C n} (h : Locks s)
    (hmove : s.move P a = some (op, t)) : Moved op s t a.actor ∧ Effect P s a.actor op t := by
  cases a with
  | go p => exact effect_go h hmove
  | timer p =>
      obtain ⟨⟨hrun, hheld⟩, ⟨⟩⟩ := Option.ite_none_right_eq_some.mp hmove
      refine ⟨moved_setPhase rfl rfl ?_ hheld, .same (same_setPhase (.of_eq rfl rfl rfl rfl rfl) rfl)⟩
      simp [State.held, State.setPhase, hrun, hheld, LockOp.Moves]
  | call p c =>
      obtain ⟨⟨hrun, hpc⟩, hcall⟩ := Option.ite_none_right_eq_some.mp hmove
      obtain ⟨u, hu, ⟨⟩⟩ := Option.map_eq_some_iff.mp hcall
      have hsame : Frame s s := .of_eq rfl rfl rfl rfl rfl
      cases c with
      | releasesleep k =>
          obtain ⟨hholds, ⟨⟩⟩ := Option.ite_none_right_eq_some.mp hu
          refine ⟨moved_goto hrun rfl rfl (by rw [hpc]; exact .refl _), .call k ?_ hholds⟩
          rw [State.role, Act.actor, hpc]
          rfl
      | wakeup ch =>
          cases hu
          refine effect_idle hrun hpc hsame rfl rfl ?_ rfl (role_wakeupFrom_none _ _)
          rw [held_wakeupFrom]
          exact .refl _
      | kill pid =>
          cases hu
          refine effect_idle hrun hpc hsame rfl rfl ?_ rfl (role_killFrom _ _)
          rw [held_killFrom]
          exact .refl _
      | acquiresleep k | holdingsleep k | sleep c | wait c =>
          cases hu
          exact effect_idle hrun hpc hsame rfl rfl (.refl _) rfl rfl

/-! ### The invariant -/

/-- The process has the sleep lock. -/
def State.Owner (s : State K C n) (p : Fin n) (k : K) : Prop :=
  s.holds p k = true ∨ (s.role p).Claims k

structure Good (P : Procs n) (s : State K C n) : Prop where
  owner : ∀ k p, s.Owner p k ↔ s.locked k = true ∧ s.pid k = P.pid p
  releasing : ∀ k p, s.role p = .releasing k → s.holds p k = false
  answer : ∀ k p r, s.role p = .answering k r → (r = true ↔ s.holds p k = true)
  waiting : ∀ k p, s.role p = .waiting k → s.locked k = true
  swept : ∀ k x, s.locked k = false → s.Asleep x k → ∃ q, (s.role q).Sweeps k x

theorem good_init (P : Procs n) : Good P (init : State K C n) where
  owner k p := by simp [State.Owner, init, State.role, Pc.role, Role.Claims]
  releasing k p := by simp [init]
  answer k p r := by simp [init, State.role, Pc.role]
  waiting k p := by simp [init, State.role, Pc.role]
  swept k x := by simp [init, State.Asleep]

variable {P : Procs n}

theorem Good.owner_unique (h : Good P s) (hp : s.Owner p k) (hq : s.Owner q k) : p = q := by
  have hpid := ((h.owner k p).mp hp).2
  rw [((h.owner k q).mp hq).2] at hpid
  exact P.injective hpid.symm

/-- The result of `holdingsleep`, for a process that is in none of the
functions. -/
theorem Good.holdingsleep_iff (h : Good P s) (hp : ¬ (s.role p).Claims k) :
    s.holdingsleep p P k = true ↔ s.holds p k = true := by
  have howner := h.owner k p
  rw [State.Owner, or_iff_left hp] at howner
  rw [howner, State.holdingsleep, Bool.and_eq_true, beq_iff_eq]

theorem mem_held_of_waiting (h : pc.role = .waiting k) : .lk k ∈ pc.held p := by
  unfold Pc.role at h
  split at h <;> cases h
  · exact List.mem_cons_self
  · exact List.mem_cons_of_mem _ List.mem_cons_self

theorem mem_held_of_sweeps (h : pc.role.Sweeps k x) : .lk k ∈ pc.held p := by
  obtain ⟨i, h, _⟩ := h
  unfold Pc.role at h
  split at h <;> cases h
  · exact List.mem_cons_self
  · exact List.mem_cons_of_mem _ List.mem_cons_self

/-- What is left to show when the other processes go on with what they were
doing. -/
theorem Good.change (h : Good P s) (hother : ∀ q, q ≠ p → t.role q = s.role q)
    (hholds : ∀ q, q ≠ p → t.holds q = s.holds q)
    (howner : ∀ k q, t.Owner q k ↔ t.locked k = true ∧ t.pid k = P.pid q)
    (hreleasing : ∀ k, t.role p = .releasing k → t.holds p k = false)
    (hanswer : ∀ k r, t.role p = .answering k r → (r = true ↔ t.holds p k = true))
    (hwaiting : ∀ k, t.role p = .waiting k → t.locked k = true)
    (hlocked : ∀ k q, q ≠ p → s.role q = .waiting k → s.locked k = true → t.locked k = true)
    (hswept : ∀ k x, t.locked k = false → t.Asleep x k → (t.role p).Sweeps k x ∨
      s.locked k = false ∧ s.Asleep x k ∧ ((s.role p).Sweeps k x → (t.role p).Sweeps k x)) :
    Good P t where
  owner := howner
  releasing k q hk := by
    by_cases hq : q = p
    · exact hq ▸ hreleasing k (hq ▸ hk)
    · rw [hholds q hq]
      exact h.releasing k q (hother q hq ▸ hk)
  answer k q r hr := by
    by_cases hq : q = p
    · subst hq
      exact hanswer k r hr
    · rw [hholds q hq]
      exact h.answer k q r (hother q hq ▸ hr)
  waiting k q hk := by
    by_cases hq : q = p
    · exact hwaiting k (hq ▸ hk)
    · have hs : s.role q = .waiting k := hother q hq ▸ hk
      exact hlocked k q hq hs (h.waiting k q hs)
  swept k x hk hx := by
    obtain hp | ⟨hs, hasleep, hp⟩ := hswept k x hk hx
    · exact ⟨p, hp⟩
    obtain ⟨q, hq⟩ := h.swept k x hs hasleep
    by_cases hqp : q = p
    · exact ⟨p, hp (hqp ▸ hq)⟩
    · exact ⟨q, (hother q hqp).symm ▸ hq⟩

theorem Good.same (h : Good P s) (hother : ∀ q, q ≠ p → t.role q = s.role q)
    (hsame : Same P s t p) : Good P t := by
  refine h.change hother (fun q _ => by rw [hsame.holds]) (fun k q => ?_) (fun k hk => ?_)
    (fun k r hr => ?_) (fun k hk => ?_) (fun k q _ _ hk => by rwa [hsame.locked])
    fun k x hk hx => ?_
  · rw [hsame.locked, hsame.pid, ← h.owner, State.Owner, State.Owner, hsame.holds]
    by_cases hq : q = p
    · rw [hq, hsame.claims k]
    · rw [hother q hq]
  · rw [hsame.holds]
    exact h.releasing k p (hsame.releasing k hk)
  · rw [hsame.holds]
    obtain hr | ⟨hclaims, rfl⟩ := hsame.answer k r hr
    · exact h.answer k p r hr
    · exact h.holdingsleep_iff hclaims
  · rw [hsame.locked]
    exact (hsame.waiting k hk).elim (h.waiting k p) id
  · rw [hsame.locked] at hk
    have hasleep : s.Asleep x k := by
      refine (hsame.asleep k x hx).resolve_right fun hp => ?_
      rw [h.waiting k p hp] at hk
      cases hk
    exact .inr ⟨hk, hasleep, fun hp => (hsame.sweeps k x hp).resolve_right (not_not_intro hx)⟩

theorem role_goto_of_ne (pc : Pc K C n) (hq : q ≠ p) : (s.goto p pc).role q = s.role q := by
  simp [State.role, hq]

theorem Good.lock (h : Good P s) (hfree : s.locked k = false) (hrole : s.role p = .idle) :
    Good P ((s.setLocked k true (P.pid p)).goto p (.acquiresleepRelease k)) := by
  have hnone : ∀ q, ¬ s.Owner q k := fun q hq => by
    have := ((h.owner k q).mp hq).1
    simp [hfree] at this
  refine h.change (p := p) (fun q hq => role_goto_of_ne _ hq) (fun _ _ => rfl) (fun k' q => ?_)
    (by simp [Pc.role]) (by simp [Pc.role]) (by simp [Pc.role]) (fun k' q _ _ hk => ?_)
    fun k' x hk hx => ?_
  · change s.holds q k' = true ∨ _ ↔ Function.update s.locked k true k' = true ∧
      Function.update s.pid k (P.pid p) k' = P.pid q
    by_cases hq : q = p
    · subst hq
      by_cases hkk : k' = k
      · simp [hkk, Pc.role, Role.Claims]
      · have howner := h.owner k' q
        rw [State.Owner, hrole] at howner
        simpa [hkk, Ne.symm hkk, Pc.role, Role.Claims] using howner
    · rw [role_goto_of_ne _ hq]
      change s.Owner q k' ↔ _
      by_cases hkk : k' = k
      · have hne : P.pid p ≠ P.pid q := fun he => hq (P.injective he.symm)
        simpa [hkk, hne] using hnone q
      · simpa [hkk] using h.owner k' q
  · change Function.update s.locked k true k' = true
    by_cases hkk : k' = k <;> simp [hkk, hk]
  · change Function.update s.locked k true k' = false at hk
    have hkk : k' ≠ k := by
      rintro rfl
      simp at hk
    rw [Function.update_of_ne hkk] at hk
    exact .inr ⟨hk, hx, by simp [hrole, Role.Sweeps]⟩

/-- Whether the owner of a lock has returned from `acquiresleep`, or has called
`releasesleep`, is nothing the lock sees. -/
theorem Good.setHolds (h : Good P s) {b : Bool}
    (howner : ∀ k', ((s.setHolds p k b).goto p pc).Owner p k' ↔ s.Owner p k')
    (hpc : pc.role = .idle ∨ pc.role = .releasing k ∧ b = false)
    (hrole : ∀ i ch k', s.role p ≠ .sweeping i ch k') : Good P ((s.setHolds p k b).goto p pc) := by
  have hother : ∀ q, q ≠ p → ((s.setHolds p k b).goto p pc).holds q = s.holds q := fun q hq =>
    Function.update_of_ne hq ..
  refine h.change (p := p) (fun q hq => role_goto_of_ne _ hq) hother (fun k' q => ?_)
    (fun k' hk => ?_) (fun k' r hr => ?_) (fun k' hk => ?_) (fun k' q _ _ hk => hk)
    fun k' x hk hx => ?_
  · by_cases hq : q = p
    · subst hq
      exact (howner k').trans (h.owner k' q)
    · rw [State.Owner, role_goto_of_ne _ hq, hother q hq]
      exact h.owner k' q
  · obtain hpc | ⟨hpc, rfl⟩ := hpc
    · simp [hpc] at hk
    · rw [role_goto, hpc] at hk
      cases hk
      simp [State.goto, State.setHolds]
  · obtain hpc | ⟨hpc, _⟩ := hpc <;> simp [hpc] at hr
  · obtain hpc | ⟨hpc, _⟩ := hpc <;> simp [hpc] at hk
  · exact .inr ⟨hk, hx, fun ⟨i, hi, _⟩ => absurd hi (hrole _ _ _)⟩

theorem Good.hold (h : Good P s) (hrole : s.role p = .acquired k) :
    Good P ((s.setHolds p k true).goto p .user) := by
  refine h.setHolds (fun k' => ?_) (.inl rfl) (by simp [hrole])
  by_cases hkk : k' = k
  · simp [State.Owner, State.goto, State.setHolds, hkk, hrole, Role.Claims]
  · simp [State.Owner, hrole, Role.Claims, Pc.role, Ne.symm hkk]
    simp [State.goto, State.setHolds, hkk]

theorem Good.call (h : Good P s) (hrole : s.role p = .idle) (hholds : s.holds p k = true) :
    Good P ((s.setHolds p k false).goto p (.releasesleepAcquire k)) := by
  refine h.setHolds (fun k' => ?_) (.inr ⟨rfl, rfl⟩) (by simp [hrole])
  by_cases hkk : k' = k
  · simp [State.Owner, hkk, hholds, Role.Claims, Pc.role]
  · simp [State.Owner, hrole, Role.Claims, Pc.role, Ne.symm hkk]
    simp [State.goto, State.setHolds, hkk]

theorem Good.unlock (h : Good P s) (hrole : s.role p = .releasing k)
    (hfree : ∀ q, s.role q ≠ .waiting k) :
    Good P ((s.setLocked k false 0).goto p (wakeupFrom 0 (.slk k) (some k))) := by
  have howner : s.Owner p k := .inr (.inr hrole)
  have hnew := role_wakeupFrom (n := n) 0 (Chan.slk k : Chan K C) k
  have hclaims : ∀ k', ¬ (wakeupFrom 0 (.slk k) (some k) : Pc K C n).role.Claims k' := by
    intro k'
    obtain hnew | ⟨_, hnew⟩ := hnew <;> simp [hnew, Role.Claims]
  refine h.change (p := p) (fun q hq => role_goto_of_ne _ hq) (fun _ _ => rfl) (fun k' q => ?_)
    (fun k' hk => ?_) (fun k' r hr => ?_) (fun k' hk => ?_) (fun k' q _ hq hk => ?_)
    fun k' x hk hx => ?_
  · change s.holds q k' = true ∨ _ ↔ Function.update s.locked k false k' = true ∧
      Function.update s.pid k 0 k' = P.pid q
    by_cases hq : q = p
    · subst hq
      rw [role_goto, or_iff_left (hclaims k')]
      by_cases hkk : k' = k
      · simp [hkk, h.releasing k q hrole]
      · have howner' := h.owner k' q
        simp only [State.Owner, hrole, Role.Claims, reduceCtorEq, Role.releasing.injEq,
          Ne.symm hkk, or_self, or_false] at howner'
        simpa [hkk] using howner'
    · rw [role_goto_of_ne _ hq]
      change s.Owner q k' ↔ _
      by_cases hkk : k' = k
      · have hne : ¬ s.Owner q k := fun hq' => hq (h.owner_unique hq' howner)
        simp [hkk, hne]
      · simpa [hkk] using h.owner k' q
  · obtain hnew | ⟨_, hnew⟩ := hnew <;> simp [hnew] at hk
  · obtain hnew | ⟨_, hnew⟩ := hnew <;> simp [hnew] at hr
  · obtain hnew | ⟨_, hnew⟩ := hnew <;> simp [hnew] at hk
  · have hkk : k' ≠ k := by
      rintro rfl
      exact hfree q hq
    exact (Function.update_of_ne hkk ..).trans hk
  · by_cases hkk : k' = k
    · subst hkk
      rw [role_goto]
      exact .inl (sweeps_wakeupFrom (Nat.zero_le _))
    · change Function.update s.locked k false k' = false at hk
      rw [Function.update_of_ne hkk] at hk
      exact .inr ⟨hk, hx, by simp [hrole, Role.Sweeps]⟩

/-! ### Runs -/

theorem step_eq_some {a : Act K C n} (h : step P s a = some t) : ∃ op u lock,
    s.move P a = some (op, u) ∧ op.apply s.lock a.actor = some lock ∧ t = { u with lock } := by
  obtain ⟨⟨op, u⟩, hmove, h⟩ := Option.bind_eq_some_iff.mp h
  obtain ⟨lock, happly, rfl⟩ := Option.map_eq_some_iff.mp h
  exact ⟨op, u, lock, hmove, happly, rfl⟩

theorem inv_step {a : Act K C n} (h : Locks s ∧ Good P s) (hstep : step P s a = some t) :
    Locks t ∧ Good P t := by
  obtain ⟨hlocks, hgood⟩ := h
  obtain ⟨op, u, lock, hmove, happly, rfl⟩ := step_eq_some hstep
  obtain ⟨hmoved, heffect⟩ := effect_move hlocks hmove
  refine ⟨hlocks.moved happly hmoved, ?_⟩
  have hgood' : Good P u := by
    cases heffect with
    | same hsame =>
        exact hgood.same (fun q hq => by rw [State.role, hmoved.pc q hq]; rfl) hsame
    | lock k hfree hrole => exact hgood.lock hfree hrole
    | hold k hrole => exact hgood.hold hrole
    | call k hrole hholds => exact hgood.call hrole hholds
    | unlock k hrole =>
        exact hgood.unlock hrole fun q hq =>
          hlocks.not_mem_held happly (mem_held_of_waiting hq)
  exact ⟨hgood'.owner, hgood'.releasing, hgood'.answer, hgood'.waiting, hgood'.swept⟩

theorem inv_of_run {as : List (Act K C n)} (hrun : run (step P) init as = some s) :
    Locks s ∧ Good P s :=
  invariant' inv_step ⟨locks_init, good_init P⟩ hrun

/-- In every reachable state at most one process is between its return from
`acquiresleep` and its call of `releasesleep`; `holdingsleep` is true for it
and for no other process; and when the sleep lock is free and nobody is in a
section of it, no process is `SLEEPING` on it. -/
theorem sleeplock_excludes (P : Procs n) (as : List (Act K C n)) (s : State K C n)
    (hrun : run (step P) init as = some s) (k : K) :
    (∀ p q, s.holds p k = true → s.holds q k = true → p = q) ∧
      (∀ p, s.pc p = .user → (s.holdingsleep p P k = true ↔ s.holds p k = true)) ∧
      (∀ p r, s.pc p = .holdingsleepRelease k r → (r = true ↔ s.holds p k = true)) ∧
      (s.lock (.lk k) = none → s.locked k = false → ∀ p,
        ¬ (s.state p = .sleeping ∧ s.chan p = some (.slk k))) := by
  obtain ⟨hlocks, hgood⟩ := inv_of_run hrun
  refine ⟨fun p q hp hq => hgood.owner_unique (.inl hp) (.inl hq), fun p hp => ?_,
    fun p r hp => ?_, fun hfree hlocked p hp => ?_⟩
  · exact hgood.holdingsleep_iff (by simp [State.role, hp, Pc.role, Role.Claims])
  · exact hgood.answer k p r (by rw [State.role, hp]; rfl)
  · obtain ⟨q, hq⟩ := hgood.swept k p hlocked hp
    have hmem := hlocks.mem_held (mem_held_of_sweeps (p := q) hq)
    rw [(hlocks.owned.mem _ _).mpr hmem] at hfree
    cases hfree

def twoProcs : Procs 2 := ⟨fun i => i.val + 1, by decide⟩

/-- The second process finds the lock taken and sleeps; the first releases it,
and the second wakes up and takes it. -/
def handover : List (Act Unit Unit 2) :=
  [.go 0, .go 0, .call 0 (.acquiresleep ()), .go 0, .go 0, .go 1, .go 1,
    .call 1 (.acquiresleep ()), .go 1, .go 1, .go 1, .go 1, .call 0 (.releasesleep ()), .go 0,
    .go 0, .go 0, .go 0, .go 0, .go 0, .go 1, .go 1, .go 1, .go 1]

theorem sleeplock_excludes_handover :
    ∃ s, run (step twoProcs) init handover = some s ∧ s.holds 1 () = true ∧
      ∀ p, s.holds p () = true → p = 1 := by
  obtain ⟨s, hs⟩ := Option.isSome_iff_exists.mp
    (by decide +kernel : (run (step twoProcs) init handover).isSome = true)
  have hholds : (run (step twoProcs) init handover).map (·.holds 1 ()) = some true := by
    decide +kernel
  rw [hs] at hholds
  have h1 : s.holds 1 () = true := Option.some.inj hholds
  exact ⟨s, hs, h1, fun p hp => (sleeplock_excludes twoProcs handover s hs ()).1 p 1 hp h1⟩

end Xv6.Sleeplock
