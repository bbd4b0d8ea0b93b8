import Xv6.Lib.Locks
import Xv6.Sched.Table

/-!
Sleep locks (`kernel/sleeplock.c`), with `sleep`, `wakeup`, `kill` and
`yield` of `kernel/proc.c`.

The system is a process table of `n` slots and any number of sleep locks.
Every `acquire` and `release` of a spin lock is a step, and the code between
two of them belongs to the step of the first: `lk->lk` of a sleep lock, the
`p->lock` of a process, and the locks that users of other channels pass to
`sleep`.

A kernel thread is described by its program point `Pc`, named after its next
lock operation, and by its `Phase`, which says what the scheduler is doing
with it. The `p->lock` that a process takes before `sched` is released by
the scheduler of its CPU; as far as mutual exclusion goes it is the lock of
the process all along, and so the table of locks has it.
-/

namespace Xv6.Sleeplock

open Lib

open Sched (ProcState)

/-- What a process sleeps on: a sleep lock, or something else. -/
inductive Chan (K C : Type)
  | slk (k : K)
  | other (c : C)
  deriving DecidableEq

/-- A spin lock. -/
inductive Lock (K C : Type) (n : ℕ)
  /-- `lk->lk` -/
  | lk (k : K)
  /-- what the users of another channel pass to `sleep` -/
  | cond (c : C)
  /-- `p->lock` -/
  | proc (i : Fin n)
  deriving DecidableEq

/-- The spin lock that goes with a channel in calls of `sleep`. -/
def Chan.lock {K C : Type} {n : ℕ} : Chan K C → Lock K C n
  | .slk k => .lk k
  | .other c => .cond c

/-- The lock operation that a kernel thread does next. -/
inductive Pc (K C : Type) (n : ℕ)
  /-- outside the functions below -/
  | user
  | acquiresleepAcquire (k : K)
  | acquiresleepRelease (k : K)
  | releasesleepAcquire (k : K)
  | releasesleepRelease (k : K)
  | holdingsleepAcquire (k : K)
  /-- with the result -/
  | holdingsleepRelease (k : K) (r : Bool)
  /-- a user of another channel, before and after `sleep` -/
  | condAcquire (c : C)
  | condRelease (c : C)
  /-- `acquire(&p->lock)` in `sleep` -/
  | sleepAcquire (chan : Chan K C)
  /-- `release(lk)` in `sleep` -/
  | sleepRelease (chan : Chan K C)
  /-- `sched` returned in `sleep`; next is `release(&p->lock)` -/
  | sleepResume (chan : Chan K C)
  /-- `acquire(lk)` at the end of `sleep` -/
  | sleepReacquire (chan : Chan K C)
  /-- called by a process that holds its own `p->lock`: `sleep(chan, &p->lock)` -/
  | waitAcquire (c : C)
  | waitResume (c : C)
  /-- `caller`: the sleep lock whose `releasesleep` calls `wakeup`, if one does -/
  | wakeupAcquire (i : Fin n) (chan : Chan K C) (caller : Option K)
  | wakeupRelease (i : Fin n) (chan : Chan K C) (caller : Option K)
  | killAcquire (i : Fin n) (pid : ℤ)
  | killRelease (i : Fin n) (pid : ℤ) (found : Bool)
  deriving DecidableEq

/-- What the scheduler does with a kernel thread. -/
inductive Phase
  | run
  /-- a timer interrupt has called `yield`; next is `acquire(&p->lock)` -/
  | yieldAcquire
  /-- `sched` was called, from `yield` or from `sleep`; the scheduler goes on
  with `release(&p->lock)` -/
  | switching (yield : Bool)
  /-- on no CPU -/
  | off (yield : Bool)
  /-- `sched` returned in `yield`, or the process starts in `forkret` -/
  | yieldRelease
  deriving DecidableEq

section Model

variable {K C : Type} {n : ℕ}

/-- The spin locks that the thread of `p` holds when it runs at a program
point. -/
def Pc.held (p : Fin n) : Pc K C n → List (Lock K C n)
  | .acquiresleepRelease k | .releasesleepRelease k | .holdingsleepRelease k _ => [.lk k]
  | .condRelease c => [.cond c]
  | .sleepAcquire ch => [ch.lock]
  | .sleepRelease ch => [.proc p, ch.lock]
  | .sleepResume _ | .waitResume _ => [.proc p]
  | .wakeupAcquire _ _ (some k) => [.lk k]
  | .wakeupRelease i _ (some k) => [.proc i, .lk k]
  | .wakeupRelease i _ none | .killRelease i _ _ => [.proc i]
  | .user | .acquiresleepAcquire _ | .releasesleepAcquire _ | .holdingsleepAcquire _
  | .condAcquire _ | .sleepReacquire _ | .waitAcquire _ | .wakeupAcquire _ _ none
  | .killAcquire _ _ => []

structure State (K C : Type) (n : ℕ) where
  lock : Lock K C n → Option (Fin n)
  /-- `lk->locked` -/
  locked : K → Bool
  /-- `lk->pid` -/
  pid : K → ℤ
  state : Fin n → ProcState
  chan : Fin n → Option (Chan K C)
  killed : Fin n → Bool
  pc : Fin n → Pc K C n
  phase : Fin n → Phase
  /-- The process has returned from `acquiresleep` of the lock and has not
  called `releasesleep` yet. No code reads this. -/
  holds : Fin n → K → Bool

/-- The processes, with their different pids. -/
structure Procs (n : ℕ) where
  pid : Fin n → ℤ
  injective : Function.Injective pid

/-- The locks have been initialised by `initsleeplock`, and the processes
start in `forkret`. -/
def init : State K C n where
  lock := fun _ => none
  locked := fun _ => false
  pid := fun _ => 0
  state := fun _ => .runnable
  chan := fun _ => none
  killed := fun _ => false
  pc := fun _ => .user
  phase := fun _ => .off true
  holds := fun _ _ => false

/-- The slot `i` of `proc[]`, unless the loop has come to its end. -/
def slot (n i : ℕ) : Option (Fin n) := if h : i < n then some ⟨i, h⟩ else none

/-- The loop of `wakeup` at the slot `i`. -/
def wakeupFrom (i : ℕ) (ch : Chan K C) (caller : Option K) : Pc K C n :=
  match slot n i with
  | some j => .wakeupAcquire j ch caller
  | none =>
      match caller with
      | some k => .releasesleepRelease k
      | none => .user

/-- The loop of `kill` at the slot `i`. -/
def killFrom (i : ℕ) (pid : ℤ) : Pc K C n :=
  match slot n i with
  | some j => .killAcquire j pid
  | none => .user

variable [DecidableEq K] [DecidableEq C]

namespace State

variable (s : State K C n) (p : Fin n)

/-- The thread goes on at `pc`. -/
def goto (pc : Pc K C n) : State K C n := { s with pc := Function.update s.pc p pc }

def setPhase (phase : Phase) : State K C n :=
  { s with phase := Function.update s.phase p phase }

def setState (i : Fin n) (x : ProcState) : State K C n :=
  { s with state := Function.update s.state i x }

def setLocked (k : K) (locked : Bool) (pid : ℤ) : State K C n :=
  { s with locked := Function.update s.locked k locked, pid := Function.update s.pid k pid }

def setHolds (k : K) (b : Bool) : State K C n :=
  { s with holds := Function.update s.holds p (Function.update (s.holds p) k b) }

/-- `p->chan = chan; p->state = SLEEPING; sched()`. -/
def sleepOn (ch : Chan K C) (pc : Pc K C n) : State K C n :=
  { (s.setState p .sleeping).setPhase p (.switching false) with
    chan := Function.update s.chan p (some ch)
    pc := Function.update s.pc p pc }

/-- `p->chan = 0`. -/
def clearChan : State K C n := { s with chan := Function.update s.chan p none }

/-- The body of the loop of `wakeup`. -/
def wakeupAt (i : Fin n) (ch : Chan K C) : State K C n :=
  if s.state i = .sleeping ∧ s.chan i = some ch then s.setState i .runnable else s

/-- What `kill` does to the process it has found. -/
def killAt (i : Fin n) : State K C n :=
  let s := { s with killed := Function.update s.killed i true }
  if s.state i = .sleeping then s.setState i .runnable else s

/-- The test of the loop of `acquiresleep`, with what follows it. -/
def trySleeplock (P : Procs n) (k : K) : State K C n :=
  if s.locked k then s.goto p (.sleepAcquire (.slk k))
  else (s.setLocked k true (P.pid p)).goto p (.acquiresleepRelease k)

/-- The result that `holdingsleep` computes. -/
def holdingsleep (P : Procs n) (k : K) : Bool := s.locked k && s.pid k == P.pid p

/-- The next lock operation of the thread of `p`, with the code behind it. -/
def advance (P : Procs n) : Option (LockOp (Lock K C n) × State K C n) :=
  match s.pc p with
  | .user => none
  | .acquiresleepAcquire k => some (.acquire (.lk k), s.trySleeplock p P k)
  | .acquiresleepRelease k => some (.release (.lk k), (s.setHolds p k true).goto p .user)
  | .releasesleepAcquire k =>
      some (.acquire (.lk k), (s.setLocked k false 0).goto p (wakeupFrom 0 (.slk k) (some k)))
  | .releasesleepRelease k => some (.release (.lk k), s.goto p .user)
  | .holdingsleepAcquire k =>
      some (.acquire (.lk k), s.goto p (.holdingsleepRelease k (s.holdingsleep p P k)))
  | .holdingsleepRelease k _ => some (.release (.lk k), s.goto p .user)
  | .condAcquire c => some (.acquire (.cond c), s.goto p (.sleepAcquire (.other c)))
  | .condRelease c => some (.release (.cond c), s.goto p .user)
  | .sleepAcquire ch => some (.acquire (.proc p), s.goto p (.sleepRelease ch))
  | .sleepRelease ch => some (.release ch.lock, s.sleepOn p ch (.sleepResume ch))
  | .sleepResume ch => some (.release (.proc p), (s.clearChan p).goto p (.sleepReacquire ch))
  | .sleepReacquire (.slk k) => some (.acquire (.lk k), s.trySleeplock p P k)
  | .sleepReacquire (.other c) => some (.acquire (.cond c), s.goto p (.condRelease c))
  | .waitAcquire c => some (.acquire (.proc p), s.sleepOn p (.other c) (.waitResume c))
  | .waitResume _ => some (.release (.proc p), (s.clearChan p).goto p .user)
  | .wakeupAcquire i ch caller =>
      some (.acquire (.proc i), (s.wakeupAt i ch).goto p (.wakeupRelease i ch caller))
  | .wakeupRelease i ch caller =>
      some (.release (.proc i), s.goto p (wakeupFrom (i + 1) ch caller))
  | .killAcquire i pid =>
      if P.pid i = pid then
        some (.acquire (.proc i), (s.killAt i).goto p (.killRelease i pid true))
      else some (.acquire (.proc i), s.goto p (.killRelease i pid false))
  | .killRelease i _ true => some (.release (.proc i), s.goto p .user)
  | .killRelease i pid false => some (.release (.proc i), s.goto p (killFrom (i + 1) pid))

/-- A thread goes on, or the scheduler goes on with it. -/
def go (P : Procs n) : Option (LockOp (Lock K C n) × State K C n) :=
  match s.phase p with
  | .run => s.advance p P
  | .yieldAcquire =>
      some (.acquire (.proc p), (s.setState p .runnable).setPhase p (.switching true))
  | .switching yield => some (.release (.proc p), s.setPhase p (.off yield))
  | .off yield =>
      if s.state p = .runnable then
        some (.acquire (.proc p),
          (s.setState p .running).setPhase p (if yield then .yieldRelease else .run))
      else none
  | .yieldRelease => some (.release (.proc p), s.setPhase p .run)

end State

/-- The functions that a process calls. -/
inductive Call (K C : Type)
  | acquiresleep (k : K)
  | releasesleep (k : K)
  | holdingsleep (k : K)
  /-- `sleep` on another channel, with a lock of its own or with `p->lock` -/
  | sleep (c : C)
  | wait (c : C)
  | wakeup (ch : Chan K C)
  | kill (pid : ℤ)
  deriving DecidableEq

/-- The start of a call. Only the holder of a sleep lock calls
`releasesleep`. -/
def State.call (s : State K C n) (p : Fin n) : Call K C → Option (State K C n)
  | .acquiresleep k => some (s.goto p (.acquiresleepAcquire k))
  | .releasesleep k =>
      if s.holds p k then some ((s.setHolds p k false).goto p (.releasesleepAcquire k)) else none
  | .holdingsleep k => some (s.goto p (.holdingsleepAcquire k))
  | .sleep c => some (s.goto p (.condAcquire c))
  | .wait c => some (s.goto p (.waitAcquire c))
  | .wakeup ch => some (s.goto p (wakeupFrom 0 ch none))
  | .kill pid => some (s.goto p (killFrom 0 pid))

inductive Act (K C : Type) (n : ℕ)
  | go (p : Fin n)
  /-- a timer interrupt; interrupts are off while a spin lock is held -/
  | timer (p : Fin n)
  | call (p : Fin n) (c : Call K C)
  deriving DecidableEq

/-- The process whose thread an action is about. -/
def Act.actor : Act K C n → Fin n
  | .go p | .timer p | .call p _ => p

/-- What an action does to the locks and to the rest of the state. -/
def State.move (P : Procs n) (s : State K C n) :
    Act K C n → Option (LockOp (Lock K C n) × State K C n)
  | .go p => s.go p P
  | .timer p =>
      if s.phase p = .run ∧ (s.pc p).held p = [] then some (.skip, s.setPhase p .yieldAcquire)
      else none
  | .call p c =>
      if s.phase p = .run ∧ s.pc p = .user then (s.call p c).map (.skip, ·) else none

def step (P : Procs n) (s : State K C n) (a : Act K C n) : Option (State K C n) :=
  (s.move P a).bind fun x => (x.1.apply s.lock a.actor).map fun lock => { x.2 with lock }

end Model

end Xv6.Sleeplock
