import Xv6.Lib.Locks

/-!
The consoles (`kernel/console.c`).

The system is the array `consoles`, the processes that call `consolewrite`
and `consoleread`, and the interrupt handler `consoleintr`. The interrupt
controller gives the interrupt of the uart to one CPU at a time, so there is
one handler. Every `acquire` and `release` is a step, and the code between
two of them belongs to the first, except that a process in a loop under
`cons->lock` moves one round at a time. `sleep` releases its lock in one step
and takes it again in another.

The addresses `&consoles[i]` are indices. One outside the array is never
used for more than a channel, as the loops that compare `console_number`
with it do not end.

What `either_copyin` and `either_copyout` answer is left to the environment.
The fields at the end of `State` record what has happened. What `consoleintr`
prints, the echo of the input included, is not kept.
-/

namespace Xv6.Console

open Lib

abbrev nbconsoles : ℤ := 3

abbrev inputBuf : ℕ := 128

/-- Unsigned 32-bit arithmetic. -/
abbrev u32 (x : ℕ) : ℕ := x % 2 ^ 32

/-- `a - b` of two `uint`s. -/
abbrev u32Sub (a b : ℕ) : ℕ := u32 (a + (2 ^ 32 - b))

/-- `C(x)`. -/
def ctrl (x : Char) : UInt8 := x.toUInt8 - '@'.toUInt8

abbrev newline : UInt8 := '\n'.toUInt8

/-- `struct cons_t`, without the lock. -/
structure Cons where
  buf : ℕ → UInt8 := fun _ => 0
  /-- read index -/
  r : ℕ := 0
  /-- write index -/
  w : ℕ := 0
  /-- edit index -/
  e : ℕ := 0

namespace Cons

variable (k : Cons)

def setE (e : ℕ) : Cons := { k with e }

@[simp] theorem setE_buf (e : ℕ) : (k.setE e).buf = k.buf := rfl

@[simp] theorem setE_r (e : ℕ) : (k.setE e).r = k.r := rfl

@[simp] theorem setE_w (e : ℕ) : (k.setE e).w = k.w := rfl

@[simp] theorem setE_e (e : ℕ) : (k.setE e).e = e := rfl

/-- `cons->e--`. -/
def back : Cons := k.setE (u32Sub k.e 1)

/-- The loop of `^U`. Each round takes `e` one place nearer to `w`, so
`e - w` rounds are enough. -/
def killLine : ℕ → Cons → Cons
  | 0, k => k
  | fuel + 1, k =>
      if k.e ≠ k.w ∧ k.buf (u32Sub k.e 1 % inputBuf) ≠ newline then killLine fuel k.back else k

/-- `cons->buf[cons->e++ % INPUT_BUF] = c`. -/
def put (c : UInt8) : Cons :=
  { k with buf := Function.update k.buf (k.e % inputBuf) c, e := u32 (k.e + 1) }

/-- The last `if` of the default case; the answer is whether `wakeup` is
called. -/
def commit (c : UInt8) : Cons × Bool :=
  if c = newline ∨ c = ctrl 'D' ∨ k.e = u32 (k.r + inputBuf) then ({ k with w := k.e }, true)
  else (k, false)

/-- The default case of the `switch`. -/
def store (c : UInt8) : Cons × Bool :=
  if c ≠ 0 ∧ u32Sub k.e k.r < inputBuf then
    let c := if c = '\r'.toUInt8 then newline else c
    (k.put c).commit c
  else (k, false)

/-- The `switch` of `consoleintr`, as far as the active console goes. -/
def key (c : UInt8) : Cons × Bool :=
  if c = ctrl 'P' ∨ c = ctrl 'Q' ∨ c = ctrl 'L' ∨ c = ctrl 'S' then (k, false)
  else if c = ctrl 'U' then (killLine (u32Sub k.e k.w) k, false)
  else if c = ctrl 'H' ∨ c = 0x7f then (if k.e ≠ k.w then k.back else k, false)
  else k.store c

/-- The byte that `consoleread` looks at. -/
def front : UInt8 := k.buf (k.r % inputBuf)

/-- `cons->r++`. -/
def take : Cons := { k with r := u32 (k.r + 1) }

end Cons

inductive Lock
  /-- `console_number_lock` -/
  | number
  /-- `consoles[i].lock` -/
  | cons (i : ℤ)
  deriving DecidableEq

/-- The channels `&consoles[i]` and `&consoles[i].r`. -/
inductive Chan
  | cons (i : ℤ)
  | r (i : ℤ)
  deriving DecidableEq

/-- A call in progress, with its arguments and loop variables. -/
inductive Op
  /-- `i` characters are written -/
  | write (minor n : ℤ) (i : ℕ)
  /-- `n` bytes are still wanted; `got` is what has been copied out -/
  | read (minor target n : ℤ) (got : List UInt8)
  deriving DecidableEq

/-- `f->minor`. -/
def Op.minor : Op → ℤ
  | .write minor _ _ | .read minor _ _ _ => minor

/-- The index of `cons` in `consolewrite` and `consoleread`. -/
def Op.cons (op : Op) : ℤ := op.minor - 1

inductive Pc
  | user (ret : ℤ)
  /-- `acquire(&console_number_lock)`, at the start or at the end of `sleep` -/
  | numberAcquire (op : Op)
  /-- the test of `console_number`, under the lock -/
  | numberTest (op : Op)
  /-- `acquire(&cons->lock)`, after the test or at the end of `sleep` -/
  | consAcquire (op : Op)
  /-- in the loop, under `cons->lock` -/
  | loop (op : Op)
  deriving DecidableEq

/-- The next lock operation of `consoleintr`. -/
inductive Intr
  | idle
  | switchAcquireNumber
  | switchAcquireNew (old : ℤ)
  | switchReleaseOld (old : ℤ)
  | switchReleaseNumber
  | release
  deriving DecidableEq

/-- A process or the interrupt handler. -/
inductive Thread (P : Type)
  | proc (p : P)
  | intr
  deriving DecidableEq

/-- A character that `consolewrite` sent to the uart, with the value of
`console_number` at that time. -/
structure Sent where
  minor : ℤ
  c : UInt8
  number : ℤ

/-- What happens to the input of a console. -/
inductive Input
  /-- a character is typed -/
  | key (c : UInt8)
  /-- a reader takes a byte -/
  | take

structure State (P : Type) where
  lock : Lock → Option (Thread P)
  /-- `console_number` -/
  number : ℤ
  /-- the global `cons` -/
  cons : ℤ
  console : ℤ → Cons
  pc : P → Pc
  killed : P → Bool
  /-- the channel, while the process is `SLEEPING` -/
  sleeping : P → Option Chan
  intr : Intr
  sent : List Sent
  /-- for each console, what was typed and taken -/
  input : ℤ → List Input
  /-- for each console, the bytes that readers have got -/
  delivered : ℤ → List UInt8
  /-- the calls of `consoleread` that have returned, with what they got -/
  reads : List (ℤ × List UInt8)

/-- What `consoleinit` leaves. -/
def init {P : Type} : State P where
  lock := fun _ => none
  number := 0
  cons := 0
  console := fun _ => {}
  pc := fun _ => .user 0
  killed := fun _ => false
  sleeping := fun _ => none
  intr := .idle
  sent := []
  input := fun _ => []
  delivered := fun _ => []
  reads := []

variable {P : Type} [DecidableEq P]

namespace State

variable (s : State P) (p : P)

def goto (pc : Pc) : State P := { s with pc := Function.update s.pc p pc }

/-- `sleep`, when it has the lock of the process. The process goes on at
`pc`. -/
def sleep (ch : Chan) (pc : Pc) : State P :=
  { s.goto p pc with sleeping := Function.update s.sleeping p (some ch) }

def wakeup (ch : Chan) : State P :=
  { s with sleeping := fun q => if s.sleeping q = some ch then none else s.sleeping q }

def setConsole (i : ℤ) (k : Cons) : State P :=
  { s with console := Function.update s.console i k }

def logInput (i : ℤ) (x : Input) : State P :=
  { s with input := Function.update s.input i (s.input i ++ [x]) }

/-- `either_copyout` of a byte. -/
def deliver (i : ℤ) (c : UInt8) : State P :=
  { s with delivered := Function.update s.delivered i (s.delivered i ++ [c]) }

/-- `consputc` in `consolewrite`. -/
def send (minor : ℤ) (c : UInt8) : State P :=
  { s with sent := s.sent ++ [{ minor, c, number := s.number }] }

/-- The end of `consoleread`. -/
def readReturn (op : Op) (got : List UInt8) (ret : ℤ) : LockOp Lock × State P :=
  (.release (.cons op.cons),
    { s.goto p (.user ret) with reads := s.reads ++ [(op.cons, got)] })

/-- A round of the loop of `consolewrite`, or its end. -/
def writeLoop (minor n : ℤ) (i : ℕ) (copied : Option UInt8) : LockOp Lock × State P :=
  let done := (.release (.cons (minor - 1)), s.goto p (.user n))
  if i < n then
    match copied with
    | none => done
    | some c => (.skip, (s.send minor c).goto p (.loop (.write minor n (i + 1))))
  else done

/-- What `consoleread` does with the byte at `cons->r`. -/
def readByte (minor target n : ℤ) (got : List UInt8) (copied : Bool) : LockOp Lock × State P :=
  let op := Op.read minor target n got
  let k := s.console op.cons
  let c := k.front
  let t := (s.setConsole op.cons k.take).logInput op.cons .take
  if c = ctrl 'D' then
    -- saved for next time, to make sure that the caller gets a 0-byte result
    if n < target then s.readReturn p op got (target - n) else t.readReturn p op got (target - n)
  else if copied = false then t.readReturn p op got (target - n)
  else
    let t := t.deliver op.cons c
    if c = newline then t.readReturn p op (got ++ [c]) (target - (n - 1))
    else (.skip, t.goto p (.loop (.read minor target (n - 1) (got ++ [c]))))

/-- A round of the loop of `consoleread`, or its end. -/
def readLoop (minor target n : ℤ) (got : List UInt8) (copied : Bool) : LockOp Lock × State P :=
  let op := Op.read minor target n got
  let k := s.console op.cons
  if 0 < n then
    if k.r = k.w then
      if s.killed p then s.readReturn p op got (-1)
      else (.release (.cons op.cons), s.sleep p (.r op.cons) (.consAcquire op))
    else s.readByte p minor target n got copied
  else s.readReturn p op got (target - n)

/-- The next lock operation of a process, or a round of its loop. -/
def go (copied : Option UInt8) : Option (LockOp Lock × State P) :=
  match s.pc p with
  | .user _ => none
  | .numberAcquire op => some (.acquire .number, s.goto p (.numberTest op))
  | .numberTest op =>
      if s.number ≠ op.cons then
        some (.release .number, s.sleep p (.cons op.cons) (.numberAcquire op))
      else some (.release .number, s.goto p (.consAcquire op))
  | .consAcquire op => some (.acquire (.cons op.cons), s.goto p (.loop op))
  | .loop (.write minor n i) => some (s.writeLoop p minor n i copied)
  | .loop (.read minor target n got) => some (s.readLoop p minor target n got copied.isSome)

/-- `consoleintr` up to its next lock operation. -/
def consoleintr (c : UInt8) : State P :=
  let i := s.cons
  let (k, wake) := (s.console i).key c
  let t := (s.setConsole i k).logInput i (.key c)
  let t := if wake then t.wakeup (.r i) else t
  { t with intr := if c = ctrl 'S' then .switchAcquireNumber else .release }

/-- `console_number = (console_number + 1) % NBCONSOLES`. -/
def nextNumber : ℤ := Int.tmod (s.number + 1) nbconsoles

/-- The rest of `consoleintr`. -/
def goIntr : Option (LockOp Lock × State P) :=
  match s.intr with
  | .idle => none
  | .switchAcquireNumber =>
      some (.acquire .number,
        { s with number := s.nextNumber, cons := s.nextNumber, intr := .switchAcquireNew s.cons })
  | .switchAcquireNew old =>
      some (.acquire (.cons s.cons), { s with intr := .switchReleaseOld old })
  | .switchReleaseOld old =>
      some (.release (.cons old), { s.wakeup (.cons s.cons) with intr := .switchReleaseNumber })
  | .switchReleaseNumber => some (.release .number, { s with intr := .release })
  | .release => some (.release (.cons s.cons), { s with intr := .idle })

end State

inductive Act (P : Type)
  | consolewrite (p : P) (minor n : ℤ)
  | consoleread (p : P) (minor n : ℤ)
  /-- A process goes on. `copied` answers `either_copyin` with the byte, or
  `either_copyout`; there is no answer when the copy fails. -/
  | go (p : P) (copied : Option UInt8)
  | kill (p : P)
  /-- `uartintr` calls `consoleintr`. -/
  | consoleintr (c : UInt8)
  | goIntr

def Act.actor : Act P → Thread P
  | .consolewrite p _ _ | .consoleread p _ _ | .go p _ | .kill p => .proc p
  | .consoleintr _ | .goIntr => .intr

def Pc.isUser : Pc → Bool
  | .user _ => true
  | _ => false

/-- What an action does to the locks and to the rest of the state. -/
def State.move (s : State P) : Act P → Option (LockOp Lock × State P)
  | .consolewrite p minor n =>
      if (s.pc p).isUser then some (.skip, s.goto p (.numberAcquire (.write minor n 0))) else none
  | .consoleread p minor n =>
      if (s.pc p).isUser then some (.skip, s.goto p (.numberAcquire (.read minor n n []))) else none
  | .go p copied => if s.sleeping p = none then s.go p copied else none
  | .kill p =>
      some (.skip, { s with
        killed := Function.update s.killed p true
        sleeping := Function.update s.sleeping p none })
  | .consoleintr c =>
      if s.intr = .idle then some (.acquire (.cons s.cons), s.consoleintr c) else none
  | .goIntr => s.goIntr

def step (s : State P) (a : Act P) : Option (State P) :=
  (s.move a).bind fun x => (x.1.apply s.lock a.actor).map fun lock => { x.2 with lock }

end Xv6.Console
