import Xv6.Sched.Table
import Xv6.Lib.Runs

/-!
The process table and the queues as a step system.

One step is one critical section of `proc.c`: what runs between taking a
process lock (or `prio_lock`) and releasing the last lock held. Two
functions stretch over several steps. `fork` keeps the lock of the child
from `allocproc` to the end, while the child is already `RUNNABLE` but not
yet queued; the field `lock` records the process locks that stay held
between two steps. `exit` takes and drops its locks several times, and
`pos` records how far it has come. A timer interrupt runs `yield` between
any two steps of a running process, except inside `fork`'s section, where
interrupts are off.

Which `UNUSED` slot `allocproc` finds, which zombie child `wait` finds and
which slots a `wakeup`, `kill` or `reparent` loop has reached are part of
the label, so the system has every interleaving of these loops. A dispatch
is one step. The scan reads `p->state` without the process locks, so a
better process may become `RUNNABLE` between the scan and the requeue;
`dispatchLate` is the requeue of a process picked earlier.
-/

namespace Xv6.Sched

/-- How far a process is in the functions that take more than one step. -/
inductive Pos
  | run
  /-- in `fork`, holding the lock of the child -/
  | forking (np : ProcId)
  /-- in `exit`, about to wake init -/
  | exitWakeInit
  /-- in `exit`, about to leave its queue -/
  | exitDequeue
  /-- in `exit`, out of its queue, about to copy its parent pointer -/
  | exitParent
  /-- in `exit`, out of its queue, about to become a zombie -/
  | exitFinal (originalParent : ProcId)
  /-- past the last `sched` of `exit` -/
  | exited
  deriving DecidableEq, Repr

/-- `exit` has removed the process from its queue and not yet made it a
zombie. -/
def Pos.dequeued : Pos → Bool
  | .exitParent => true
  | .exitFinal _ => true
  | _ => false

/-- The process is not inside a critical section that outlives a step. -/
def Pos.preemptible : Pos → Bool
  | .forking _ => false
  | _ => true

structure Sys where
  kern : Kern
  lock : ProcId → Bool
  pos : ProcId → Pos

/-- The state after `procinit`. -/
def Sys.init : Sys where
  kern := procinit
  lock := fun _ => false
  pos := fun _ => .run

/-- The steps. -/
inductive Act
  | userinit
  /-- `fork` by `p` into the slot `np`, up to `np->state = RUNNABLE` -/
  | fork (p np : ProcId)
  /-- the end of `fork`: the child is queued and its lock released -/
  | forkEnqueue (p : ProcId)
  /-- `fork` failing in `allocproc` for want of a trapframe -/
  | forkNoTrapframe (p np : ProcId)
  /-- `fork` failing in `uvmcopy` -/
  | forkNoMemory (p np : ProcId)
  | exit (p : ProcId)
  | exitWakeInit (p : ProcId)
  | exitDequeue (p : ProcId)
  | exitParent (p : ProcId)
  /-- `reparent` in `exit` reaching the child `pp` -/
  | exitReparent (p pp : ProcId)
  | exitZombie (p : ProcId) (status : CInt)
  /-- `wait` by `p` that finds its zombie child `np` -/
  | wait (p np : ProcId)
  | sleep (p : ProcId) (chan : Chan)
  | wakeup (q : ProcId) (chan : Chan)
  | kill (q : ProcId) (pid : CInt)
  | nice (pid : CInt) (priority : Fin nprio)
  | dispatch (p : ProcId)
  | dispatchLate (p : ProcId)
  | yield (p : ProcId)
  deriving DecidableEq, Repr

namespace Sys

/-- `p` runs on some CPU, outside every critical section, at `pos`. -/
def At (s : Sys) (p : ProcId) (pos : Pos) : Prop :=
  (s.kern.proc p).state = .running ∧ s.lock p = false ∧ s.pos p = pos

instance (s : Sys) (p : ProcId) (pos : Pos) : Decidable (s.At p pos) :=
  inferInstanceAs (Decidable (_ ∧ _ ∧ _))

def setPos (s : Sys) (p : ProcId) (pos : Pos) : Sys :=
  { s with pos := Function.update s.pos p pos }

def setLock (s : Sys) (p : ProcId) (b : Bool) : Sys :=
  { s with lock := Function.update s.lock p b }

def setKern (s : Sys) (k : Kern) : Sys := { s with kern := k }

/-- `np` is a slot `allocproc` can find and lock. -/
def Free (s : Sys) (np : ProcId) : Prop :=
  (s.kern.proc np).state = .unused ∧ s.lock np = false

instance (s : Sys) (np : ProcId) : Decidable (s.Free np) :=
  inferInstanceAs (Decidable (_ ∧ _))

/-- The step function. -/
def step (s : Sys) : Act → Option Sys
  | .userinit =>
      if s.kern.initproc = none then
        s.kern.findUnused.map fun p => (s.setKern (s.kern.userinit p)).setPos p .run
      else none
  | .fork p np =>
      if s.At p .run ∧ s.Free np then
        some (((s.setKern (s.kern.forkChild p np)).setLock np true).setPos np .run
          |>.setPos p (.forking np))
      else none
  | .forkEnqueue p =>
      match s.pos p with
      | .forking np =>
          some (((s.setKern (s.kern.insertIntoPrioQueue np)).setLock np false).setPos p .run)
      | _ => none
  | .forkNoTrapframe p np =>
      if s.At p .run ∧ s.Free np then some (s.setKern (s.kern.allocpid np)) else none
  | .forkNoMemory p np =>
      if s.At p .run ∧ s.Free np then
        some (s.setKern ((s.kern.allocproc np).freeproc np))
      else none
  | .exit p =>
      -- a call by init panics
      if s.At p .run ∧ s.kern.initproc ≠ some p then some (s.setPos p .exitWakeInit)
      else none
  | .exitWakeInit p =>
      match s.kern.initproc with
      | some i =>
          if s.At p .exitWakeInit ∧ s.lock i = false then
            some ((s.setKern (s.kern.wakeup1 i)).setPos p .exitDequeue)
          else none
      | none => none
  | .exitDequeue p =>
      if s.At p .exitDequeue then
        some ((s.setKern (s.kern.removeFromPrioQueue p)).setPos p .exitParent)
      else none
  | .exitParent p =>
      match (s.kern.proc p).parent with
      | some q => if s.At p .exitParent then some (s.setPos p (.exitFinal q)) else none
      | none => none
  | .exitReparent p pp =>
      match s.pos p with
      | .exitFinal q =>
          if s.At p (.exitFinal q) ∧ (s.kern.proc pp).parent = some p ∧ s.lock pp = false then
            some (s.setKern (s.kern.reparentAt pp))
          else none
      | _ => none
  | .exitZombie p status =>
      match s.pos p with
      | .exitFinal q =>
          if s.At p (.exitFinal q) ∧ s.lock q = false ∧
              ∀ pp, (s.kern.proc pp).parent ≠ some p then
            some ((s.setKern (s.kern.exitZombie p q status)).setPos p .exited)
          else none
      | _ => none
  | .wait p np =>
      if s.At p .run ∧ (s.kern.proc np).parent = some p ∧
          (s.kern.proc np).state = .zombie ∧ s.lock np = false then
        some (s.setKern (s.kern.freeproc np))
      else none
  | .sleep p chan => if s.At p .run then some (s.setKern (s.kern.sleep p chan)) else none
  | .wakeup q chan =>
      if s.lock q = false then some (s.setKern (s.kern.wakeupAt q chan)) else none
  | .kill q pid =>
      if s.lock q = false ∧ (s.kern.proc q).pid = pid then
        some (s.setKern (s.kern.killAt q))
      else none
  | .nice pid priority => some (s.setKern (s.kern.nice pid priority))
  | .dispatch p =>
      if s.kern.pickHighestPriorityRunnableProc = some p ∧ s.lock p = false then
        some (s.setKern (s.kern.schedule p))
      else none
  | .dispatchLate p =>
      if (s.kern.proc p).state = .runnable ∧ (∃ i, p ∈ s.kern.prio i) ∧ s.lock p = false then
        some (s.setKern (s.kern.schedule p))
      else none
  | .yield p =>
      if (s.kern.proc p).state = .running ∧ s.lock p = false ∧ (s.pos p).preemptible then
        some (s.setKern (s.kern.yield p))
      else none

variable (s : Sys) (p : ProcId)

@[simp] theorem kern_setPos (pos : Pos) :
    (s.setPos p pos).kern = s.kern := rfl

@[simp] theorem lock_setPos (pos : Pos) :
    (s.setPos p pos).lock = s.lock := rfl

@[simp] theorem pos_setPos (q : ProcId) (pos : Pos) :
    (s.setPos p pos).pos q = if q = p then pos else s.pos q := by
  simp [setPos, Function.update_apply]

@[simp] theorem kern_setLock (b : Bool) :
    (s.setLock p b).kern = s.kern := rfl

@[simp] theorem lock_setLock (q : ProcId) (b : Bool) :
    (s.setLock p b).lock q = if q = p then b else s.lock q := by
  simp [setLock, Function.update_apply]

@[simp] theorem pos_setLock (b : Bool) :
    (s.setLock p b).pos = s.pos := rfl

@[simp] theorem kern_setKern (k : Kern) : (s.setKern k).kern = k := rfl

@[simp] theorem lock_setKern (k : Kern) : (s.setKern k).lock = s.lock := rfl

@[simp] theorem pos_setKern (k : Kern) : (s.setKern k).pos = s.pos := rfl

end Sys

end Xv6.Sched
