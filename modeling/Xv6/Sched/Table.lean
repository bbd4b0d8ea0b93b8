import Xv6.Param
import Xv6.Lib.Queues

/-!
The process table `proc[]` and the priority queues `prio[]` of
`kernel/proc.c`, with the code that a process or the scheduler runs on
them inside one critical section.

A queue is the list of the processes of its `list_proc` cells, head
first. `bd_malloc` is taken to succeed: when it returns 0 the kernel
stores through a null pointer and there is no next state.

The fields of `struct proc` kept here are those these functions read.
`pid` and `nextpid` are C ints, so they wrap at `2 ^ 32`.
-/

namespace Xv6.Sched

/-- An index into `proc[]`, standing for a `struct proc *`. -/
abbrev ProcId := Fin nproc

/-- A C `int`. -/
abbrev CInt := BitVec 32

/-- `enum procstate`. -/
inductive ProcState
  | unused | sleeping | runnable | running | zombie
  deriving DecidableEq, Repr

/-- What a process can sleep on: no channel, a process (in `wait`), or any
other kernel object. -/
inductive Chan
  | null | proc (p : ProcId) | obj (a : ℕ)
  deriving DecidableEq, Repr

/-- `struct proc`. -/
structure Proc where
  state : ProcState := .unused
  parent : Option ProcId := none
  chan : Chan := .null
  killed : Bool := false
  xstate : CInt := 0
  pid : CInt := 0
  priority : Fin nprio := 0
  deriving DecidableEq, Repr

/-- The process table, the queues and the two globals of `proc.c`. -/
structure Kern where
  proc : ProcId → Proc
  prio : Fin nprio → List ProcId
  nextpid : CInt
  initproc : Option ProcId

/-- The state `procinit` leaves. -/
def procinit : Kern where
  proc := fun _ => {}
  prio := fun _ => []
  nextpid := 1
  initproc := none

namespace Kern

/-- Rewrite one entry of the process table. -/
def modify (k : Kern) (p : ProcId) (f : Proc → Proc) : Kern :=
  { k with proc := Function.update k.proc p (f (k.proc p)) }

/-- `insert_into_prio_queue`: a new cell behind the last one of the queue
of `p->priority`. -/
def insertIntoPrioQueue (k : Kern) (p : ProcId) : Kern :=
  { k with prio := Lib.enqueue k.prio (k.proc p).priority p }

/-- `remove_from_prio_queue`: the first cell holding `p` in the queue of
`p->priority` is unlinked, the others stay. -/
def removeFromPrioQueue (k : Kern) (p : ProcId) : Kern :=
  { k with prio := Lib.dequeue k.prio (k.proc p).priority p }

/-- The part of `allocproc` from `found:` to the trapframe allocation:
`p` gets a pid. -/
def allocpid (k : Kern) (p : ProcId) : Kern :=
  { k.modify p fun q => { q with pid := k.nextpid } with nextpid := k.nextpid + 1 }

/-- `allocproc` on the slot `p` it found, when its allocations succeed. -/
def allocproc (k : Kern) (p : ProcId) : Kern :=
  (k.allocpid p).modify p fun q => { q with priority := ⟨defPrio, by decide⟩ }

/-- `freeproc`. -/
def freeproc (k : Kern) (p : ProcId) : Kern :=
  k.modify p fun q =>
    { q with priority := 0, pid := 0, parent := none, chan := .null,
             killed := false, xstate := 0, state := .unused }

/-- The slot `allocproc` finds when nothing else runs. -/
def findUnused (k : Kern) : Option ProcId :=
  (List.finRange nproc).find? fun p => (k.proc p).state = .unused

/-- `userinit` on the slot `p`. -/
def userinit (k : Kern) (p : ProcId) : Kern :=
  insertIntoPrioQueue
    ({ k.allocproc p with initproc := some p }.modify p
      fun q => { q with state := .runnable }) p

/-- `fork` up to `np->state = RUNNABLE`: the child in the slot `np` is
complete but in no queue yet. -/
def forkChild (k : Kern) (p np : ProcId) : Kern :=
  (k.allocproc np).modify np fun q => { q with parent := some p, state := .runnable }

/-- `wakeup1`. -/
def wakeup1 (k : Kern) (p : ProcId) : Kern :=
  k.modify p fun q =>
    if q.chan = .proc p ∧ q.state = .sleeping then { q with state := .runnable } else q

/-- The body of the loop of `wakeup`, for the slot `p`. -/
def wakeupAt (k : Kern) (p : ProcId) (chan : Chan) : Kern :=
  k.modify p fun q =>
    if q.state = .sleeping ∧ q.chan = chan then { q with state := .runnable } else q

/-- The body of the loop of `kill` at the slot `p` whose pid matches. -/
def killAt (k : Kern) (p : ProcId) : Kern :=
  k.modify p fun q =>
    { q with killed := true, state := if q.state = .sleeping then .runnable else q.state }

/-- The body of the loop of `reparent` at the child `pp`. -/
def reparentAt (k : Kern) (pp : ProcId) : Kern :=
  k.modify pp fun q => { q with parent := k.initproc }

/-- The end of the last section of `exit`, under the locks of the parent and
of `p`, when `reparent` has returned. -/
def exitZombie (k : Kern) (p originalParent : ProcId) (status : CInt) : Kern :=
  (k.wakeup1 originalParent).modify p fun q => { q with xstate := status, state := .zombie }

/-- `sleep`, up to the call of `sched`. -/
def sleep (k : Kern) (p : ProcId) (chan : Chan) : Kern :=
  k.modify p fun q => { q with chan := chan, state := .sleeping }

/-- `yield`, up to the call of `sched`. -/
def yield (k : Kern) (p : ProcId) : Kern :=
  k.modify p fun q => { q with state := .runnable }

/-- The scan of `pick_highest_priority_runnable_proc`. -/
def pickHighestPriorityRunnableProc (k : Kern) : Option ProcId :=
  (List.finRange nprio).findSome? fun i =>
    (k.prio i).find? fun p => (k.proc p).state = .runnable

/-- What `scheduler` does with the process it picked, and what the
process does when `swtch` returns in it, up to its release of `p->lock`:
a sleeper clears its channel. -/
def schedule (k : Kern) (p : ProcId) : Kern :=
  ((k.modify p fun q => { q with state := .running, chan := .null }).removeFromPrioQueue
    p).insertIntoPrioQueue p

/-- The slot `nice` acts on: the first one with the pid. -/
def findPid (k : Kern) (pid : CInt) : Option ProcId :=
  (List.finRange nproc).find? fun p => (k.proc p).pid = pid

/-- The body of the `if` of `nice`. -/
def niceAt (k : Kern) (p : ProcId) (priority : Fin nprio) : Kern :=
  ((k.removeFromPrioQueue p).modify p fun q =>
    { q with priority := priority }).insertIntoPrioQueue p

/-- `nice`, with a priority that `sys_nice` admits. -/
def nice (k : Kern) (pid : CInt) (priority : Fin nprio) : Kern :=
  match k.findPid pid with
  | some p => k.niceAt p priority
  | none => k

/-! ### Reading the table and the queues back -/

variable (k : Kern) (p : ProcId)

@[simp] theorem proc_modify (q : ProcId) (f : Proc → Proc) :
    (k.modify p f).proc q = if q = p then f (k.proc p) else k.proc q := by
  simp [modify, Function.update_apply]

@[simp] theorem prio_modify (f : Proc → Proc) :
    (k.modify p f).prio = k.prio := rfl

@[simp] theorem proc_insertIntoPrioQueue :
    (k.insertIntoPrioQueue p).proc = k.proc := rfl

@[simp] theorem prio_insertIntoPrioQueue :
    (k.insertIntoPrioQueue p).prio = Lib.enqueue k.prio (k.proc p).priority p := rfl

@[simp] theorem proc_removeFromPrioQueue :
    (k.removeFromPrioQueue p).proc = k.proc := rfl

@[simp] theorem prio_removeFromPrioQueue :
    (k.removeFromPrioQueue p).prio = Lib.dequeue k.prio (k.proc p).priority p := rfl

@[simp] theorem proc_allocpid (q : ProcId) :
    (k.allocpid p).proc q = if q = p then { k.proc p with pid := k.nextpid } else k.proc q := by
  simp [allocpid, modify, Function.update_apply]

@[simp] theorem prio_allocpid : (k.allocpid p).prio = k.prio := rfl

@[simp] theorem prio_allocproc : (k.allocproc p).prio = k.prio := rfl

@[simp] theorem prio_freeproc : (k.freeproc p).prio = k.prio := rfl

@[simp] theorem prio_wakeup1 : (k.wakeup1 p).prio = k.prio := rfl

@[simp] theorem prio_schedule : (k.schedule p).prio =
      Lib.requeue k.prio (k.proc p).priority (k.proc p).priority p := by
  simp [schedule, Lib.requeue]

@[simp] theorem prio_niceAt (i : Fin nprio) :
    (k.niceAt p i).prio = Lib.requeue k.prio (k.proc p).priority i p := by
  simp [niceAt, Lib.requeue]

end Kern

end Xv6.Sched
