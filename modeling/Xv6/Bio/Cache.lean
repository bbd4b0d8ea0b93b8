import Xv6.Lib.Links
import Xv6.Param

/-!
The buffer cache (`kernel/bio.c`).

A buffer has the label of the block it caches, a reference count and a
sleep lock. The buffers are linked in a circle around `bcache.head`, most
recently used first; a node is a buffer or the head, and the links are
kept as the source keeps them. What the functions do under `bcache.lock`
is one step each.

A process may hold several buffers. It waits for the lock of at most one,
with its reference already counted, and in `brelse` it has given the lock
back before the count goes down. Counts are natural numbers: a `uint` has
room for every reference that processes and pins can take.
-/

namespace Xv6.Bio

open Lib

/-- A buffer, or `none` for `bcache.head`. -/
abbrev Node : Type := Option (Fin nbuf)

/-- `struct buf`, without the links. -/
structure Buf (P D : Type) where
  dev : ℕ
  blockno : ℕ
  valid : Bool
  data : D
  refcnt : ℕ
  /-- The holder of the sleep lock. -/
  lock : Option P

/-- The block that the buffer is for. -/
def Buf.label {P D : Type} (r : Buf P D) : ℕ × ℕ := (r.dev, r.blockno)

structure Bcache (P D : Type) where
  buf : Fin nbuf → Buf P D
  next : Node → Node
  prev : Node → Node

namespace Bcache

variable {P D : Type} (c : Bcache P D)

def setBuf (b : Fin nbuf) (r : Buf P D) : Bcache P D :=
  { c with buf := Function.update c.buf b r }

def setNext (x y : Node) : Bcache P D := { c with next := Function.update c.next x y }

def setPrev (x y : Node) : Bcache P D := { c with prev := Function.update c.prev x y }

/-- Links `b` in behind the head. -/
def linkFront (b : Fin nbuf) : Bcache P D :=
  let c := c.setNext (some b) (c.next none)
  let c := c.setPrev (some b) none
  let c := c.setPrev (c.next none) (some b)
  c.setNext none (some b)

def unlink (b : Fin nbuf) : Bcache P D :=
  let c := c.setPrev (c.next (some b)) (c.prev (some b))
  c.setNext (c.prev (some b)) (c.next (some b))

/-- The first buffer that passes the test, following `links` from the head;
without a result the walk does not end. -/
def search (links : Node → Node) (test : Buf P D → Bool) : Option (Option (Fin nbuf)) :=
  (seek links none (fun x => x.any fun b => test (c.buf b)) (nbuf + 1) (links none)).map
    Option.join

end Bcache

variable {P D : Type}

/-- The cache before `binit`. -/
def zeroed (data : D) : Bcache P D where
  buf := fun _ =>
    { dev := 0, blockno := 0, valid := false, data := data, refcnt := 0, lock := none }
  next := fun _ => none
  prev := fun _ => none

/-- The buffers are linked in one after the other. -/
def binit (data : D) : Bcache P D :=
  (List.finRange nbuf).foldl Bcache.linkFront (zeroed data)

/-- The buffer that `bget` returns a reference to, without its lock, and the
cache then; there is no buffer when it panics. -/
def bget (c : Bcache P D) (dev blockno : ℕ) : Option (Option (Fin nbuf × Bcache P D)) := do
  match ← c.search c.next fun r => r.label = (dev, blockno) with
  | some b =>
      let r := c.buf b
      some (some (b, c.setBuf b { r with refcnt := r.refcnt + 1 }))
  | none =>
      match ← c.search c.prev fun r => r.refcnt = 0 with
      | some b =>
          let r := c.buf b
          let r := { r with dev := dev, blockno := blockno, valid := false, refcnt := 1 }
          some (some (b, c.setBuf b r))
      | none => some none

def setLock (c : Bcache P D) (b : Fin nbuf) (o : Option P) : Bcache P D :=
  let r := c.buf b
  c.setBuf b { r with lock := o }

/-- `brelse` after `releasesleep`. -/
def unref (c : Bcache P D) (b : Fin nbuf) : Bcache P D :=
  let r := c.buf b
  let c := c.setBuf b { r with refcnt := r.refcnt - 1 }
  if (c.buf b).refcnt = 0 then (c.unlink b).linkFront b else c

def bpin (c : Bcache P D) (b : Fin nbuf) : Bcache P D :=
  let r := c.buf b
  c.setBuf b { r with refcnt := r.refcnt + 1 }

def bunpin (c : Bcache P D) (b : Fin nbuf) : Bcache P D :=
  let r := c.buf b
  c.setBuf b { r with refcnt := r.refcnt - 1 }

/-! ### The system -/

inductive Pc where
  | idle
  /-- In `acquiresleep`, called by `bget`. -/
  | waiting (b : Fin nbuf)
  /-- In `brelse`, past `releasesleep`. -/
  | releasing (b : Fin nbuf)
deriving DecidableEq

structure State (P D : Type) where
  cache : Bcache P D
  pc : P → Pc
  /-- How often a buffer has been pinned and not unpinned. -/
  pins : Fin nbuf → ℕ
  /-- `bget` has found no buffer to recycle. -/
  panicked : Bool

def init (data : D) : State P D where
  cache := binit data
  pc := fun _ => .idle
  pins := fun _ => 0
  panicked := false

inductive Act (P : Type) where
  | bget (p : P) (dev blockno : ℕ)
  | acquiresleep (p : P)
  | releasesleep (p : P) (b : Fin nbuf)
  | unref (p : P)
  | bpin (p : P) (b : Fin nbuf)
  | bunpin (p : P) (b : Fin nbuf)

variable [DecidableEq P]

namespace State

variable (s : State P D)

abbrev buf (b : Fin nbuf) : Buf P D := s.cache.buf b

/-- The process goes on at `x` with the cache `c`. -/
def move (p : P) (x : Pc) (c : Bcache P D) : State P D :=
  { s with cache := c, pc := Function.update s.pc p x }

def setPins (b : Fin nbuf) (n : ℕ) (c : Bcache P D) : State P D :=
  { s with cache := c, pins := Function.update s.pins b n }

end State

/-- Only the holder of a buffer releases, pins and unpins it, and nobody
unpins more often than pins. -/
def step (s : State P D) (a : Act P) : Option (State P D) :=
  if s.panicked then none else
  match a with
  | .bget p dev blockno =>
      if s.pc p = .idle then do
        match ← bget s.cache dev blockno with
        | some (b, c) => some (s.move p (.waiting b) c)
        | none => some { s with panicked := true }
      else none
  | .acquiresleep p =>
      match s.pc p with
      | .waiting b =>
          if (s.buf b).lock = none then some (s.move p .idle (setLock s.cache b (some p)))
          else none
      | _ => none
  | .releasesleep p b =>
      if s.pc p = .idle ∧ (s.buf b).lock = some p then
        some (s.move p (.releasing b) (setLock s.cache b none))
      else none
  | .unref p =>
      match s.pc p with
      | .releasing b => some (s.move p .idle (unref s.cache b))
      | _ => none
  | .bpin p b =>
      if s.pc p = .idle ∧ (s.buf b).lock = some p then
        some (s.setPins b (s.pins b + 1) (bpin s.cache b))
      else none
  | .bunpin p b =>
      if s.pc p = .idle ∧ (s.buf b).lock = some p ∧ 0 < s.pins b then
        some (s.setPins b (s.pins b - 1) (bunpin s.cache b))
      else none

end Xv6.Bio
