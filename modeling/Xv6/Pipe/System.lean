import Mathlib

/-!
Pipes (`kernel/pipe.c`), with `sleep`, `wakeup` and `kill` of
`kernel/proc.c`.

The system is one pipe and the processes that use it. A process that holds
`pi->lock` moves one round of a loop at a time; in between other processes
can only be killed, as everything else they do with the pipe starts by
taking the lock. `sleep` and each round of `wakeup` are atomic under the
lock of the process concerned.

What `copyin` and `copyout` answer is left to the environment. Two fields
record what has happened: the bytes that writers have stored and the bytes
that readers have got, in order.
-/

namespace Xv6.Pipe

abbrev pipesize : ℕ := 512

/-- Unsigned 32-bit arithmetic. -/
abbrev u32 (x : ℕ) : ℕ := x % 2 ^ 32

/-- The channels of a pipe, the addresses of its counters. -/
inductive Chan where
  | nread
  | nwrite
deriving DecidableEq

/-- Where a process is in the functions of the pipe, with their arguments
and loop counters. -/
inductive Pc where
  /-- Outside, with the result of the last call. -/
  | user (ret : ℤ)
  | writeEnter (n : ℤ)
  /-- In the loop of `pipewrite`, holding the lock. -/
  | writing (n : ℤ) (i : ℕ)
  | writeSleep (n : ℤ) (i : ℕ)
  | readEnter (n : ℤ)
  /-- In the first loop of `piperead`, holding the lock. -/
  | waiting (n : ℤ)
  | readSleep (n : ℤ)
  /-- In the second loop of `piperead`, holding the lock. -/
  | reading (n : ℤ) (i : ℕ)
deriving DecidableEq

structure Proc where
  pc : Pc
  killed : Bool
  /-- The channel, while the process is `SLEEPING`. -/
  sleeping : Option Chan

def Proc.wake (c : Chan) (r : Proc) : Proc :=
  { r with sleeping := if r.sleeping = some c then none else r.sleeping }

structure State (P : Type) where
  lock : Option P
  data : ℕ → UInt8
  nread : ℕ
  nwrite : ℕ
  readopen : Bool
  writeopen : Bool
  /-- Both ends are closed, and the page has been freed. -/
  freed : Bool
  proc : P → Proc
  stored : List UInt8
  delivered : List UInt8

/-- What `pipealloc` makes, in a page with any contents. -/
def init {P : Type} (data : ℕ → UInt8) (killed : P → Bool) : State P where
  lock := none
  data := data
  nread := 0
  nwrite := 0
  readopen := true
  writeopen := true
  freed := false
  proc := fun p => { pc := .user 0, killed := killed p, sleeping := none }
  stored := []
  delivered := []

namespace State

variable {P : Type} [DecidableEq P] (s : State P)

abbrev Full : Prop := s.nwrite = u32 (s.nread + pipesize)

abbrev Empty : Prop := s.nread = s.nwrite

def setProc (p : P) (r : Proc) : State P := { s with proc := Function.update s.proc p r }

/-- The process goes on at `pc`. -/
def goto (p : P) (pc : Pc) : State P := s.setProc p { s.proc p with pc := pc }

/-- Releases the lock and returns. -/
def ret (p : P) (r : ℤ) : State P := { s with lock := none, proc := (s.goto p (.user r)).proc }

/-- Takes the lock and goes on at `pc`. -/
def acquire (p : P) (pc : Pc) : State P := { s with lock := some p, proc := (s.goto p pc).proc }

/-- Sleeps on a channel, releasing the lock; the process goes on at `pc`. -/
def sleep (p : P) (c : Chan) (pc : Pc) : State P :=
  let r : Proc := { s.proc p with pc := pc, sleeping := some c }
  { s with lock := none, proc := (s.setProc p r).proc }

def wakeup (c : Chan) : State P := { s with proc := fun q => (s.proc q).wake c }

/-- `pi->data[pi->nwrite++ % PIPESIZE] = ch`. -/
def put (ch : UInt8) : State P :=
  { s with
    data := Function.update s.data (s.nwrite % pipesize) ch
    nwrite := u32 (s.nwrite + 1)
    stored := s.stored ++ [ch] }

/-- `pi->data[pi->nread++ % PIPESIZE]` is taken out. -/
def take : State P := { s with nread := u32 (s.nread + 1) }

/-- The byte that `take` takes out has been copied to a reader. -/
def deliver : State P :=
  { s with
    nread := u32 (s.nread + 1)
    delivered := s.delivered ++ [s.data (s.nread % pipesize)] }

end State

variable {P : Type} [DecidableEq P]

/-- A round of the loop of `pipewrite`, or its end. -/
def writeMove (s : State P) (p : P) (n : ℤ) (i : ℕ) (copied : Option UInt8) : State P :=
  if i < n then
    if s.Full then
      if s.readopen = false ∨ (s.proc p).killed then s.ret p (-1)
      else (s.wakeup .nread).sleep p .nwrite (.writeSleep n i)
    else
      match copied with
      | none => (s.wakeup .nread).ret p n
      | some ch => (s.put ch).goto p (.writing n (i + 1))
  else (s.wakeup .nread).ret p n

/-- A round of the first loop of `piperead`. -/
def readWait (s : State P) (p : P) (n : ℤ) : State P :=
  if s.Empty ∧ s.writeopen then
    if (s.proc p).killed then s.ret p (-1) else s.sleep p .nread (.readSleep n)
  else s.goto p (.reading n 0)

/-- A round of the second loop of `piperead`, or its end. A byte that cannot
be copied to the reader is lost. -/
def readMove (s : State P) (p : P) (n : ℤ) (i : ℕ) (copied : Bool) : State P :=
  if i < n then
    if s.Empty then (s.wakeup .nwrite).ret p i
    else if copied then s.deliver.goto p (.reading n (i + 1))
    else (s.take.wakeup .nwrite).ret p i
  else (s.wakeup .nwrite).ret p i

def pipeclose (s : State P) (writable : Bool) : State P :=
  let s₁ :=
    if writable then { s with writeopen := false }.wakeup .nread
    else { s with readopen := false }.wakeup .nwrite
  { s₁ with freed := !s₁.readopen && !s₁.writeopen }

def kill (s : State P) (p : P) : State P :=
  s.setProc p { s.proc p with killed := true, sleeping := none }

inductive Act (P : Type) where
  /-- Calls of `pipewrite` and `piperead` for `n` bytes. -/
  | write (p : P) (n : ℤ)
  | read (p : P) (n : ℤ)
  /-- Takes the lock, at the start of a call or at the end of `sleep`. -/
  | acquire (p : P)
  /-- The holder of the lock moves. `copied` answers a call of `copyin` with the
  byte, or of `copyout`; there is no answer when the copy fails. -/
  | move (p : P) (copied : Option UInt8)
  | close (p : P) (writable : Bool)
  | kill (p : P)
deriving DecidableEq

/-- Where a process goes on once it has the lock. -/
def Pc.locked : Pc → Option Pc
  | .writeEnter n => some (.writing n 0)
  | .writeSleep n i => some (.writing n i)
  | .readEnter n => some (.waiting n)
  | .readSleep n => some (.waiting n)
  | _ => none

def Pc.isUser : Pc → Bool
  | .user _ => true
  | _ => false

/-- The holder `p` of the lock moves. -/
def move (s : State P) (p : P) (copied : Option UInt8) : Option (State P) :=
  match (s.proc p).pc with
  | .writing n i => some (writeMove s p n i copied)
  | .waiting n => some (readWait s p n)
  | .reading n i => some (readMove s p n i copied.isSome)
  | _ => none

def step (s : State P) : Act P → Option (State P)
  | .write p n =>
      if (s.proc p).pc.isUser ∧ ¬ s.freed then some (s.goto p (.writeEnter n)) else none
  | .read p n =>
      if (s.proc p).pc.isUser ∧ ¬ s.freed then some (s.goto p (.readEnter n)) else none
  | .acquire p =>
      if s.lock = none ∧ (s.proc p).sleeping = none ∧ ¬ s.freed then do
        let pc ← (s.proc p).pc.locked
        some (s.acquire p pc)
      else none
  | .move p copied => if s.lock = some p then move s p copied else none
  | .close p writable =>
      if (s.proc p).pc.isUser ∧ s.lock = none ∧ ¬ s.freed then some (pipeclose s writable)
      else none
  | .kill p => some (kill s p)

end Xv6.Pipe
