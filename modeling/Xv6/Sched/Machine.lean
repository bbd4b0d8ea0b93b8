import Xv6.Sched.System
import Xv6.Lib.Locks

/-!
The process code of `proc.c` on any number of CPUs, one lock operation at
a time.

Every `acquire` and `release` of `prio_lock` and of a `p->lock` is a step.
The code between two lock operations belongs to the step of the first of
them: it runs under the locks held there, or it touches only data of the
running process. `nice` takes no lock and is one step.

A kernel thread is described by its program point `Pc`, named after the
next lock operation, and a CPU either runs the thread of a process or is
in `scheduler`. The constructors that carry a `ret` are calls that an
interrupt can insert: `yield` from the timer and `wakeup` from a device.

A step that carries out one of the critical sections of `Sys.step` is
labelled with it; the label has no influence on the step.
-/

namespace Xv6.Sched

/-- A CPU. Their number is not bounded. -/
abbrev Cpu := ℕ

inductive Lock
  | prio
  | proc (p : ProcId)
  deriving DecidableEq, Repr

/-- The lock operation that a kernel thread does next. -/
inductive Pc
  /-- outside the functions below: user code, or kernel code that holds no process lock -/
  | user
  | yieldAcquire (ret : Pc)
  /-- `sched` returned in `yield`, or the process starts in `forkret` -/
  | yieldRelease (ret : Pc)
  | sleepAcquire (chan : Chan)
  | sleepRelease
  | wakeupAcquire (i : ProcId) (chan : Chan) (ret : Pc)
  | wakeupRelease (i : ProcId) (chan : Chan) (ret : Pc)
  | killAcquire (i : ProcId) (pid : CInt)
  | killRelease (i : ProcId) (pid : CInt) (found : Bool)
  | allocAcquire (i : ProcId)
  /-- the slot `i` is not `UNUSED` -/
  | allocRelease (i : ProcId)
  /-- `fork` gives up with the slot `np` locked -/
  | forkFail (np : ProcId)
  | forkAcquirePrio (np : ProcId)
  | forkReleasePrio (np : ProcId)
  | forkRelease (np : ProcId)
  | exitAcquireInit (status : CInt)
  | exitReleaseInit (status : CInt) (i : ProcId)
  | exitAcquirePrio (status : CInt)
  /-- the section that dequeues the process -/
  | exitAcquireQueued (status : CInt)
  | exitReleaseQueued (status : CInt)
  | exitReleasePrio (status : CInt)
  /-- the section that copies the parent pointer -/
  | exitAcquireSelf (status : CInt)
  | exitReleaseSelf (status : CInt) (originalParent : ProcId)
  | exitAcquireParent (status : CInt) (originalParent : ProcId)
  | exitAcquireLast (status : CInt) (originalParent : ProcId)
  | reparentAcquire (status : CInt) (originalParent pp : ProcId)
  | reparentRelease (status : CInt) (originalParent pp : ProcId)
  | exitReleaseParent (originalParent : ProcId)
  | exited
  | waitAcquire
  | waitAcquireChild (np : ProcId)
  /-- `found`: the child was a zombie, and `wait` returns -/
  | waitReleaseChild (np : ProcId) (found : Bool)
  | waitRelease
  /-- `sleep` returned in `wait`, with `p->lock` still held -/
  | waitResume
  deriving DecidableEq, Repr

/-- The locks that the thread of `p` holds at a program point, the last
one taken first. -/
def Pc.held (p : ProcId) : Pc → List Lock
  | .yieldRelease _ | .sleepRelease | .exitReleaseSelf _ _
  | .waitAcquireChild _ | .waitRelease | .waitResume => [.proc p]
  | .wakeupRelease i _ _ | .killRelease i _ _ | .allocRelease i | .exitReleaseInit _ i => [.proc i]
  | .forkFail np | .forkAcquirePrio np | .forkRelease np => [.proc np]
  | .forkReleasePrio np => [.prio, .proc np]
  | .exitAcquireQueued _ | .exitReleasePrio _ => [.prio]
  | .exitReleaseQueued _ => [.proc p, .prio]
  | .exitAcquireLast _ q => [.proc q]
  | .reparentAcquire _ q _ | .exitReleaseParent q => [.proc p, .proc q]
  | .reparentRelease _ q pp => [.proc pp, .proc p, .proc q]
  | .waitReleaseChild np _ => [.proc np, .proc p]
  | .user | .yieldAcquire _ | .sleepAcquire _ | .wakeupAcquire .. | .killAcquire ..
  | .allocAcquire _ | .exitAcquireInit _ | .exitAcquirePrio _ | .exitAcquireSelf _
  | .exitAcquireParent .. | .exited | .waitAcquire => []

/-- Interrupts are on: the thread holds none of these locks, is not inside an
interrupt handler, and does not hold the lock that callers of `sleep` and
`wakeup` hold. -/
def Pc.preemptible : Pc → Bool
  | .user | .killAcquire .. | .allocAcquire .. | .exitAcquireInit .. | .exitAcquirePrio ..
  | .exitAcquireSelf .. | .exitAcquireParent .. | .waitAcquire => true
  | _ => false

/-- The next lock operation of `scheduler` on a CPU. -/
inductive SchedPc
  | acquirePrio
  /-- nothing is runnable -/
  | releasePrio
  | acquireProc (p : ProcId)
  /-- `p` is picked and requeued -/
  | releasePrioFor (p : ProcId)
  /-- `swtch` from `p` returned -/
  | releaseProc (p : ProcId)
  /-- a device interrupt between two rounds -/
  | wakeupAcquire (i : ProcId) (chan : Chan)
  | wakeupRelease (i : ProcId) (chan : Chan)
  deriving DecidableEq, Repr

def SchedPc.held : SchedPc → List Lock
  | .acquirePrio | .wakeupAcquire _ _ => []
  | .releasePrio | .acquireProc _ => [.prio]
  | .releasePrioFor p => [.proc p, .prio]
  | .releaseProc p => [.proc p]
  | .wakeupRelease i _ => [.proc i]

/-- What a CPU executes. -/
inductive CpuState
  | sched (pc : SchedPc)
  | proc (p : ProcId)
  deriving DecidableEq, Repr

/-- The choices a step leaves open. -/
inductive Choice
  /-- the next lock operation, with what follows it -/
  | go
  /-- `go` in `allocproc`, with no page for the trapframe -/
  | noTrapframe
  /-- `go` in `fork`, with `uvmcopy` failing -/
  | noMemory
  /-- `go` in `wait`, with `copyout` failing -/
  | badAddress
  | timer
  | interrupt (chan : Chan)
  | fork
  | exit (status : CInt)
  | wait
  | sleep (chan : Chan)
  | wakeup (chan : Chan)
  | kill (pid : CInt)
  | nice (pid : CInt) (priority : Fin nprio)
  deriving DecidableEq, Repr

/-- What a step of the thread of a process does. -/
structure Trans where
  op : Lib.LockOp Lock := .skip
  kern : Kern
  pc : Pc
  /-- the step ends in `sched` -/
  swtch : Bool := false
  /-- the process whose kernel thread `allocproc` has prepared -/
  spawn : Option ProcId := none
  act : Option Act := none

/-- What a step of `scheduler` does. -/
structure SchedTrans where
  op : Lib.LockOp Lock
  kern : Kern
  next : CpuState
  act : Option Act := none

/-- The slot a loop over `proc[]` starts with. -/
def firstSlot : ProcId := ⟨0, by decide⟩

/-- The slot behind `i` in a loop over `proc[]`. -/
def nextSlot (i : ProcId) : Option ProcId :=
  if h : i.val + 1 < nproc then some ⟨i.val + 1, h⟩ else none

namespace Kern

/-- The next slot from `i` on whose parent is `p`. -/
def nextChild (k : Kern) (p : ProcId) (i : ℕ) : Option ProcId :=
  (List.finRange nproc).find? fun pp => i ≤ pp.val ∧ (k.proc pp).parent = some p

/-- The scan of `wait` from the slot `i` on: it stops at a child, returns
when there is none or the process is killed, and sleeps otherwise. -/
def waitScan (k : Kern) (op : Lib.LockOp Lock) (p : ProcId) (i : ℕ) (havekids : Bool) : Trans :=
  match k.nextChild p i with
  | some np => { op, kern := k, pc := .waitAcquireChild np }
  | none =>
      if !havekids || (k.proc p).killed then { op, kern := k, pc := .waitRelease }
      else { op, kern := k.sleep p (.proc p), pc := .waitResume, swtch := true,
             act := some (.sleep p (.proc p)) }

/-- The loop of `reparent` from the slot `i` on, with what follows it in
`exit`. -/
def reparentScan (k : Kern) (op : Lib.LockOp Lock) (p : ProcId) (status : CInt)
    (originalParent : ProcId) (i : ℕ) : Trans :=
  match k.nextChild p i with
  | some pp => { op, kern := k, pc := .reparentAcquire status originalParent pp }
  | none =>
      { op, kern := k.exitZombie p originalParent status, pc := .exitReleaseParent originalParent,
        act := some (.exitZombie p status) }

/-- `allocproc` and the rest of `fork` under the lock of the slot `np`. -/
def forkInto (k : Kern) (p np : ProcId) : Choice → Option Trans
  | .go =>
      some { op := .acquire (.proc np), kern := k.forkChild p np, pc := .forkAcquirePrio np,
             spawn := some np, act := some (.fork p np) }
  | .noTrapframe =>
      some { op := .acquire (.proc np), kern := k.allocpid np, pc := .forkFail np,
             act := some (.forkNoTrapframe p np) }
  | .noMemory =>
      some { op := .acquire (.proc np), kern := (k.allocproc np).freeproc np, pc := .forkFail np,
             act := some (.forkNoMemory p np) }
  | _ => none

/-- `wait` at a zombie child. -/
def waitZombie (k : Kern) (p np : ProcId) : Choice → Option Trans
  | .go =>
      some { op := .acquire (.proc np), kern := k.freeproc np, pc := .waitReleaseChild np true,
             act := some (.wait p np) }
  | .badAddress => some { op := .acquire (.proc np), kern := k, pc := .waitReleaseChild np true }
  | _ => none

/-- The call of a function of `proc.c` by `p`. -/
def call (k : Kern) (p : ProcId) : Choice → Option Trans
  | .fork => some { kern := k, pc := .allocAcquire firstSlot }
  | .exit status =>
      -- a call by init panics
      if k.initproc = some p then none
      else some { kern := k, pc := .exitAcquireInit status, act := some (.exit p) }
  | .wait => some { kern := k, pc := .waitAcquire }
  | .sleep chan => some { kern := k, pc := .sleepAcquire chan }
  | .wakeup chan => some { kern := k, pc := .wakeupAcquire firstSlot chan .user }
  | .kill pid => some { kern := k, pc := .killAcquire firstSlot pid }
  | .nice pid priority =>
      some { kern := k.nice pid priority, pc := .user, act := some (.nice pid priority) }
  | _ => none

/-- The next lock operation of the thread of `p`, with the code behind it. -/
def advance (k : Kern) (p : ProcId) : Pc → Option Trans
  | .yieldAcquire ret =>
      some { op := .acquire (.proc p), kern := k.yield p, pc := .yieldRelease ret, swtch := true,
             act := some (.yield p) }
  | .yieldRelease ret => some { op := .release (.proc p), kern := k, pc := ret }
  | .sleepAcquire chan =>
      some { op := .acquire (.proc p), kern := k.sleep p chan, pc := .sleepRelease, swtch := true,
             act := some (.sleep p chan) }
  | .sleepRelease => some { op := .release (.proc p), kern := k, pc := .user }
  | .wakeupAcquire i chan ret =>
      some { op := .acquire (.proc i), kern := k.wakeupAt i chan, pc := .wakeupRelease i chan ret,
             act := some (.wakeup i chan) }
  | .wakeupRelease i chan ret =>
      some { op := .release (.proc i), kern := k,
             pc := ((nextSlot i).map (.wakeupAcquire · chan ret)).getD ret }
  | .killAcquire i pid =>
      if (k.proc i).pid = pid then
        some { op := .acquire (.proc i), kern := k.killAt i, pc := .killRelease i pid true,
               act := some (.kill i pid) }
      else some { op := .acquire (.proc i), kern := k, pc := .killRelease i pid false }
  | .killRelease i _ true => some { op := .release (.proc i), kern := k, pc := .user }
  | .killRelease i pid false =>
      some { op := .release (.proc i), kern := k,
             pc := ((nextSlot i).map (.killAcquire · pid)).getD .user }
  | .allocRelease i =>
      some { op := .release (.proc i), kern := k,
             pc := ((nextSlot i).map .allocAcquire).getD .user }
  | .forkFail np => some { op := .release (.proc np), kern := k, pc := .user }
  | .forkAcquirePrio np =>
      some { op := .acquire .prio, kern := k.insertIntoPrioQueue np, pc := .forkReleasePrio np,
             act := some (.forkEnqueue p) }
  | .forkReleasePrio np => some { op := .release .prio, kern := k, pc := .forkRelease np }
  | .forkRelease np => some { op := .release (.proc np), kern := k, pc := .user }
  | .exitAcquireInit status =>
      k.initproc.map fun i =>
        { op := .acquire (.proc i), kern := k.wakeup1 i, pc := .exitReleaseInit status i,
          act := some (.exitWakeInit p) }
  | .exitReleaseInit status i =>
      some { op := .release (.proc i), kern := k, pc := .exitAcquirePrio status }
  | .exitAcquirePrio status =>
      some { op := .acquire .prio, kern := k, pc := .exitAcquireQueued status }
  | .exitAcquireQueued status =>
      some { op := .acquire (.proc p), kern := k.removeFromPrioQueue p,
             pc := .exitReleaseQueued status, act := some (.exitDequeue p) }
  | .exitReleaseQueued status =>
      some { op := .release (.proc p), kern := k, pc := .exitReleasePrio status }
  | .exitReleasePrio status =>
      some { op := .release .prio, kern := k, pc := .exitAcquireSelf status }
  | .exitAcquireSelf status =>
      (k.proc p).parent.map fun q =>
        { op := .acquire (.proc p), kern := k, pc := .exitReleaseSelf status q,
          act := some (.exitParent p) }
  | .exitReleaseSelf status q =>
      some { op := .release (.proc p), kern := k, pc := .exitAcquireParent status q }
  | .exitAcquireParent status q =>
      some { op := .acquire (.proc q), kern := k, pc := .exitAcquireLast status q }
  | .exitAcquireLast status q => some (k.reparentScan (.acquire (.proc p)) p status q 0)
  | .reparentAcquire status q pp =>
      some { op := .acquire (.proc pp), kern := k.reparentAt pp,
             pc := .reparentRelease status q pp, act := some (.exitReparent p pp) }
  | .reparentRelease status q pp =>
      some (k.reparentScan (.release (.proc pp)) p status q (pp.val + 1))
  | .exitReleaseParent q =>
      some { op := .release (.proc q), kern := k, pc := .exited, swtch := true }
  | .waitAcquire => some (k.waitScan (.acquire (.proc p)) p 0 false)
  | .waitReleaseChild np true => some { op := .release (.proc np), kern := k, pc := .waitRelease }
  | .waitReleaseChild np false => some (k.waitScan (.release (.proc np)) p (np.val + 1) true)
  | .waitRelease => some { op := .release (.proc p), kern := k, pc := .user }
  | .waitResume => some (k.waitScan .skip p 0 false)
  | .user | .exited | .allocAcquire _ | .waitAcquireChild _ => none

/-- A step of the thread of `p` at `pc`. -/
def threadStep (k : Kern) (p : ProcId) (pc : Pc) (choice : Choice) : Option Trans :=
  match choice with
  | .timer => if pc.preemptible then some { kern := k, pc := .yieldAcquire pc } else none
  | .interrupt chan =>
      if pc.preemptible then some { kern := k, pc := .wakeupAcquire firstSlot chan pc } else none
  | _ =>
      match pc with
      | .user => k.call p choice
      | .allocAcquire i =>
          if (k.proc i).state = .unused then k.forkInto p i choice
          else if choice = .go then
            some { op := .acquire (.proc i), kern := k, pc := .allocRelease i }
          else none
      | .waitAcquireChild np =>
          if (k.proc np).state = .zombie then k.waitZombie p np choice
          else if choice = .go then
            some { op := .acquire (.proc np), kern := k, pc := .waitReleaseChild np false }
          else none
      | _ => if choice = .go then k.advance p pc else none

/-- A step of `scheduler`. -/
def schedStep (k : Kern) : SchedPc → Choice → Option SchedTrans
  | .acquirePrio, .go =>
      some { op := .acquire .prio, kern := k,
             next := .sched ((k.pickHighestPriorityRunnableProc.map .acquireProc).getD
               .releasePrio) }
  | .acquirePrio, .interrupt chan =>
      some { op := .skip, kern := k, next := .sched (.wakeupAcquire firstSlot chan) }
  | .releasePrio, .go => some { op := .release .prio, kern := k, next := .sched .acquirePrio }
  | .acquireProc p, .go =>
      some { op := .acquire (.proc p), kern := k.schedule p, next := .sched (.releasePrioFor p),
             act := some (.dispatchLate p) }
  | .releasePrioFor p, .go => some { op := .release .prio, kern := k, next := .proc p }
  | .releaseProc p, .go =>
      some { op := .release (.proc p), kern := k, next := .sched .acquirePrio }
  | .wakeupAcquire i chan, .go =>
      some { op := .acquire (.proc i), kern := k.wakeupAt i chan,
             next := .sched (.wakeupRelease i chan), act := some (.wakeup i chan) }
  | .wakeupRelease i chan, .go =>
      some { op := .release (.proc i), kern := k,
             next := .sched (((nextSlot i).map (.wakeupAcquire · chan)).getD .acquirePrio) }
  | _, _ => none

end Kern

/-- The program points after a step of the thread of `p`. A new thread
starts in `forkret`. -/
def Trans.pcs (tr : Trans) (pc : ProcId → Pc) (p : ProcId) : ProcId → Pc :=
  Function.update
    (match tr.spawn with
      | some np => Function.update pc np (.yieldRelease .user)
      | none => pc) p tr.pc

structure Machine where
  kern : Kern
  lock : Lock → Option Cpu
  cpu : Cpu → CpuState
  pc : ProcId → Pc

namespace Machine

/-- The state when `userinit` has returned and the CPUs enter `scheduler`. -/
def boot : Machine where
  kern := procinit.userinit 0
  lock := fun _ => none
  cpu := fun _ => .sched .acquirePrio
  pc := fun _ => .yieldRelease .user

def runSched (m : Machine) (c : Cpu) (tr : SchedTrans) (lock : Lock → Option Cpu) : Machine :=
  { m with kern := tr.kern, lock, cpu := Function.update m.cpu c tr.next }

def runThread (m : Machine) (c : Cpu) (p : ProcId) (tr : Trans) (lock : Lock → Option Cpu) :
    Machine where
  kern := tr.kern
  lock := lock
  cpu := if tr.swtch then Function.update m.cpu c (.sched (.releaseProc p)) else m.cpu
  pc := tr.pcs m.pc p

/-- A step of the CPU `a.1`. -/
def step (m : Machine) (a : Cpu × Choice) : Option Machine :=
  match m.cpu a.1 with
  | .sched pc =>
      (m.kern.schedStep pc a.2).bind fun tr =>
        (tr.op.apply m.lock a.1).map fun lock => m.runSched a.1 tr lock
  | .proc p =>
      (m.kern.threadStep p (m.pc p) a.2).bind fun tr =>
        (tr.op.apply m.lock a.1).map fun lock => m.runThread a.1 p tr lock

/-- The lock operation that the CPU `c` tries next. -/
def nextOp (m : Machine) (c : Cpu) (choice : Choice) : Option (Lib.LockOp Lock) :=
  match m.cpu c with
  | .sched pc => (m.kern.schedStep pc choice).map (·.op)
  | .proc p => (m.kern.threadStep p (m.pc p) choice).map (·.op)

/-- The locks that the CPU `c` holds. -/
def held (m : Machine) (c : Cpu) : List Lock :=
  match m.cpu c with
  | .sched pc => pc.held
  | .proc p => (m.pc p).held p

end Machine

end Xv6.Sched
