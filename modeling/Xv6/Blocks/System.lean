import Xv6.Bio.Invariant
import Xv6.Log.Group

/-!
Blocks: the buffer cache, the log and the disk together.

The cache is that of `Xv6.Bio.Cache` and there is a log as in
`Xv6.Log.Group` for every device; what is added here is the data. A
process reads a block with `bread`, may change it while it holds the
buffer and is in an operation on the device, and passes it to `log_write`
before it gives it back. The last operation to end commits: `commit` is
run one call at a time, by the same `bread` and `brelse` as everything
else and at the same time as everything else.

`stored` is the block map that all this stands for: what was last stored
in each block under the lock of its buffer, by an operation or, in the
area of the log, by the log itself. The copy that `install_trans` makes to
a home block does not count.
-/

namespace Xv6.Blocks

open Lib Bio Log

/-- A device and a block number. -/
abbrev Block : Type := ℕ × ℕ

structure Config (D : Type) where
  /-- `log[dev].start` -/
  start : ℕ → ℕ
  /-- A header block with `n` and `block[]` overwritten. -/
  putHead : List ℕ → D → D

/-- The block is in the area that `mkfs` sets apart for the log. -/
def Config.InLog {D : Type} (C : Config D) (x : Block) : Prop :=
  C.start x.1 ≤ x.2 ∧ x.2 < C.start x.1 + nlog

instance {D : Type} (C : Config D) (x : Block) : Decidable (C.InLog x) := instDecidableAnd

/-- The local variables of `write_log`, `write_head` and `install_trans`: the
buffer of a log block, and that of a home block. -/
inductive Reg
  | lbuf
  | dbuf
  deriving DecidableEq

/-- What a process in `commit` has still to do. -/
inductive Instr
  | commit
  /-- the loop of `write_log`, from `tail` on -/
  | writeLog (tail : ℕ)
  | writeHead
  | installTrans (tail : ℕ)
  /-- on to the next phase -/
  | next
  /-- the end of `end_op` -/
  | endOp
  | bread (r : Reg) (blockno : ℕ)
  | memmove (dst src : Reg)
  | putHead (r : Reg)
  | bwrite (r : Reg)
  | bunpin (r : Reg)
  | brelse (r : Reg)
  deriving DecidableEq

/-- `commit` when there is something to commit. -/
def commitBody : List Instr :=
  [.writeLog 0, .next, .writeHead, .installTrans 0, .next, .writeHead]

/-- A round of `write_log`. -/
def writeLogBody (start tail n : ℕ) : List Instr :=
  [.bread .lbuf (start + tail + 1), .bread .dbuf n, .memmove .lbuf .dbuf, .bwrite .lbuf,
    .brelse .dbuf, .brelse .lbuf, .writeLog (tail + 1)]

/-- `write_head`; the phase ends when the header reaches the disk. -/
def writeHeadBody (start : ℕ) : List Instr :=
  [.bread .lbuf start, .putHead .lbuf, .bwrite .lbuf, .next, .brelse .lbuf]

/-- A round of `install_trans`. -/
def installBody (start tail n : ℕ) : List Instr :=
  [.bread .lbuf (start + tail + 1), .bread .dbuf n, .memmove .dbuf .lbuf, .bwrite .dbuf,
    .bunpin .dbuf, .brelse .lbuf, .brelse .dbuf, .installTrans (tail + 1)]

inductive Call
  | none
  /-- in `bread`, waiting for the lock -/
  | bread (x : Block)
  /-- in `bread`, with the lock of `b` -/
  | fill (x : Block) (b : Fin nbuf)
  /-- in `log_write`, past the tests -/
  | logWrite (b : Fin nbuf)
  deriving DecidableEq

structure State (P D : Type) where
  bio : Bio.State P D
  log : ℕ → Group.State P
  disk : Block → D
  call : P → Call
  /-- The device whose log a process commits, and what is left to do. -/
  job : P → Option (ℕ × List Instr)
  reg : P → Reg → Fin nbuf
  stored : Block → D
  /-- The holder has changed the buffer and not yet logged or written it. -/
  dirty : Fin nbuf → Bool
  panicked : Bool

inductive Act (P D : Type)
  | bread (p : P) (x : Block)
  | acquiresleep (p : P)
  | fill (p : P)
  | modify (p : P) (b : Fin nbuf) (v : D)
  | logWrite (p : P) (b : Fin nbuf)
  | record (p : P)
  | brelse (p : P) (b : Fin nbuf)
  | unref (p : P)
  | beginOp (p : P) (d : ℕ)
  | endOp (p : P) (d : ℕ)
  /-- the next instruction of `commit` -/
  | exec (p : P)

variable {P D : Type} [DecidableEq P]

namespace State

variable (s : State P D)

abbrev buf (b : Fin nbuf) : Buf P D := s.bio.buf b

/-- The process is between calls, and not in `commit`. -/
def Ready (p : P) : Prop := s.call p = .none ∧ s.job p = none ∧ s.bio.pc p = .idle

instance (p : P) : Decidable (s.Ready p) := instDecidableAnd

def setBio (bio : Bio.State P D) : State P D :=
  { s with bio := bio, panicked := bio.panicked }

def setLog (d : ℕ) (l : Group.State P) : State P D :=
  { s with log := Function.update s.log d l, panicked := l.panicked.isSome }

def setCall (p : P) (c : Call) : State P D := { s with call := Function.update s.call p c }

def setJob (p : P) (j : Option (ℕ × List Instr)) : State P D :=
  { s with job := Function.update s.job p j }

def setReg (p : P) (r : Reg) (b : Fin nbuf) : State P D :=
  { s with reg := Function.update s.reg p (Function.update (s.reg p) r b) }

def setDirty (b : Fin nbuf) (y : Bool) : State P D :=
  { s with dirty := Function.update s.dirty b y }

def setStored (x : Block) (v : D) : State P D :=
  { s with stored := Function.update s.stored x v }

def setDisk (x : Block) (v : D) : State P D := { s with disk := Function.update s.disk x v }

/-- The buffer gets contents. -/
def setData (b : Fin nbuf) (v : D) : State P D :=
  let r := s.buf b
  { s with bio := { s.bio with cache := s.bio.cache.setBuf b { r with valid := true, data := v } } }

end State

def bioStep (s : State P D) (a : Bio.Act P) : Option (State P D) :=
  (Bio.step s.bio a).map s.setBio

def logStep (s : State P D) (d : ℕ) (a : Group.Act P) : Option (State P D) :=
  (Group.step (s.log d) a).map (s.setLog d)

/-- The lookup of `bread`. -/
def lookup (s : State P D) (p : P) (x : Block) : Option (State P D) := do
  let t ← bioStep s (.bget p x.1 x.2)
  if t.panicked then some t else some (t.setCall p (.bread x))

/-- The rest of `bread`; a process in `commit` keeps the buffer in its
variable. -/
def fill (s : State P D) (p : P) (b : Fin nbuf) : State P D :=
  let r := s.buf b
  let s := (if r.valid then s else s.setData b (s.disk r.label)).setCall p .none
  match s.job p with
  | some (d, .bread x _ :: rest) => (s.setReg p x b).setJob p (some (d, rest))
  | _ => s

/-- A copy into the buffer, by the log. -/
def copy (C : Config D) (s : State P D) (b : Fin nbuf) (v : D) : State P D :=
  let x := (s.buf b).label
  let s := (s.setData b v).setDirty b true
  if C.InLog x then s.setStored x v else s

def bwrite (s : State P D) (b : Fin nbuf) : State P D :=
  let r := s.buf b
  (s.setDisk r.label r.data).setDirty b false

def logWrite (s : State P D) (p : P) (b : Fin nbuf) : Option (State P D) := do
  let r := s.buf b
  let t ← logStep s r.dev (.logWrite p r.blockno)
  if t.panicked then some t else some (t.setCall p (.logWrite b))

/-- A block that is new in the header is pinned. -/
def pinNew (s : State P D) (p : P) (b : Fin nbuf) : Option (State P D) :=
  if (s.buf b).blockno ∈ (s.log (s.buf b).dev).lh then some s else bioStep s (.bpin p b)

/-- `log_write` under the lock. -/
def record (s : State P D) (p : P) (b : Fin nbuf) : Option (State P D) := do
  let s₁ ← pinNew s p b
  let s₂ ← logStep s₁ (s.buf b).dev (.record p)
  some ((s₂.setDirty b false).setCall p .none)

/-- `end_op`; the last operation of the device goes on with `commit`. -/
def endOp (s : State P D) (p : P) (d : ℕ) : Option (State P D) := do
  let t ← logStep s d (.endOp p)
  if (t.log d).pc p = .commit .writeLog then some (t.setJob p (some (d, [.commit, .endOp])))
  else some t

/-- One instruction of `commit`. -/
def exec (C : Config D) (s : State P D) (p : P) (d : ℕ) (i : Instr) (rest : List Instr) :
    Option (State P D) :=
  let lh := (s.log d).lh
  let go (s : State P D) (code : List Instr) : State P D := s.setJob p (some (d, code))
  match i with
  | .commit =>
      if lh = [] then (logStep s d (.commit p)).map (go · rest)
      else some (go s (commitBody ++ rest))
  | .writeLog tail =>
      match lh[tail]? with
      | some n => some (go s (writeLogBody (C.start d) tail n ++ rest))
      | none => some (go s rest)
  | .writeHead => some (go s (writeHeadBody (C.start d) ++ rest))
  | .installTrans tail =>
      match lh[tail]? with
      | some n => some (go s (installBody (C.start d) tail n ++ rest))
      | none => some (go s rest)
  | .next => (logStep s d (.commit p)).map (go · rest)
  | .endOp => (logStep s d (.commit p)).map fun t => t.setJob p none
  | .bread _ blockno => lookup s p (d, blockno)
  | .memmove dst src => some (go (copy C s (s.reg p dst) (s.buf (s.reg p src)).data) rest)
  | .putHead r =>
      let b := s.reg p r
      some (go (copy C s b (C.putHead lh (s.buf b).data)) rest)
  | .bwrite r => some (go (bwrite s (s.reg p r)) rest)
  | .bunpin r => (bioStep s (.bunpin p (s.reg p r))).map (go · rest)
  | .brelse r => (bioStep s (.releasesleep p (s.reg p r))).map (go · rest)

/-- The step function; after a panic there is no step. -/
def step (C : Config D) (s : State P D) (a : Act P D) : Option (State P D) :=
  if s.panicked then none else
  match a with
  | .bread p x => if s.Ready p then lookup s p x else none
  | .acquiresleep p =>
      match s.call p, s.bio.pc p with
      | .bread x, .waiting b =>
          (bioStep s (.acquiresleep p)).map fun t => t.setCall p (.fill x b)
      | _, _ => none
  | .fill p =>
      match s.call p with
      | .fill _ b => some (fill s p b)
      | _ => none
  | .modify p b v =>
      let r := s.buf b
      if s.Ready p ∧ r.lock = some p ∧ ((s.log r.dev).pc p).op.isSome then
        some (((s.setData b v).setDirty b true).setStored r.label v)
      else none
  | .logWrite p b =>
      if s.Ready p ∧ (s.buf b).lock = some p then logWrite s p b else none
  | .record p =>
      match s.call p with
      | .logWrite b => record s p b
      | _ => none
  | .brelse p b =>
      if s.Ready p ∧ s.dirty b = false then bioStep s (.releasesleep p b) else none
  | .unref p => bioStep s (.unref p)
  | .beginOp p d => if s.Ready p then logStep s d (.beginOp p) else none
  | .endOp p d => if s.Ready p then endOp s p d else none
  | .exec p =>
      match s.call p, s.bio.pc p, s.job p with
      | .none, .idle, some (d, i :: rest) => exec C s p d i rest
      | _, _, _ => none

end Xv6.Blocks
