import Xv6.Lib.Prog

/-!
The driver of the disk (`kernel/virtio_disk.c`) and its device, with one
disk.

Processes call `virtio_disk_rw` from `bread` and `bwrite`, with the sleep lock
of the buffer held: `acquiresleep` and `releasesleep` of `b->lock` are steps of
their own here. Under `vdisk_lock` a process moves from one call of `sleep` to
the next, and `virtio_disk_intr` one round of its loop at a time; the device
may move in between. `sleep` releases the lock in one step and takes it again
in another.

The device takes the chains that are published in the ring `avail`, in
order, and completes those it has taken in any order: it writes a status of
0, the number of the first descriptor to the next slot of the ring `used`,
and increments `used->id`.

The fields at the end of `State` record what has happened. The memory
barrier, the notification of the device and what is on the disk are left out.
-/

namespace Xv6.Virtio

open Lib

/-- The number of descriptors. -/
abbrev num : ℕ := 8

/-- A `uint16`. -/
abbrev u16 (x : ℕ) : ℕ := x % 2 ^ 16

abbrev bsize : ℕ := 1024

/-- `VRING_DESC_F_NEXT`: chained with another descriptor. -/
abbrev fNext : ℕ := 1

/-- `VRING_DESC_F_WRITE`: the device writes. -/
abbrev fWrite : ℕ := 2

/-- What a descriptor points to. -/
inductive Addr (B : Type)
  | null
  /-- a `struct virtio_blk_outhdr` -/
  | outhdr (type sector : ℕ)
  /-- `b->data` -/
  | data (b : B)
  /-- `info[i].status` -/
  | status (i : ℕ)

/-- `struct VRingDesc`. -/
structure Desc (B : Type) where
  addr : Addr B := .null
  len : ℕ := 0
  flags : ℕ := 0
  next : ℕ := 0

/-- The descriptor is chained with another. -/
def Desc.hasNext {B : Type} (d : Desc B) : Bool := d.flags &&& fNext ≠ 0

/-- An element of `info`. -/
structure Info (B : Type) where
  b : Option B := none
  status : ℕ := 0

inductive Chan (B : Type)
  /-- `&disk[n].free[0]` -/
  | free
  | buf (b : B)
  deriving DecidableEq

/-- Where a process is in `virtio_disk_rw`. -/
inductive Pc (B : Type)
  /-- outside -/
  | idle
  /-- `acquire(&vdisk_lock)`, at the start or at the end of `sleep` -/
  | enter (b : B) (write : Bool)
  /-- in the first loop, under the lock -/
  | alloc (b : B) (write : Bool)
  /-- in the second loop, under the lock -/
  | wait (b : B) (idx : ℕ × ℕ × ℕ)
  /-- `acquire(&vdisk_lock)` at the end of `sleep` -/
  | waitAcquire (b : B) (idx : ℕ × ℕ × ℕ)
  deriving DecidableEq

/-- A process or the interrupt handler. -/
inductive Thread (P : Type)
  | proc (p : P)
  | intr
  deriving DecidableEq

structure State (P B : Type) where
  /-- `vdisk_lock` -/
  lock : Option (Thread P)
  desc : ℕ → Desc B
  /-- `avail[2 + i]` -/
  avail : ℕ → ℕ
  /-- `avail[1]` -/
  availIdx : ℕ
  /-- `used->elems[i].id` -/
  usedElems : ℕ → ℕ
  /-- `used->id` -/
  usedId : ℕ
  free : ℕ → Bool
  /-- `used_idx` -/
  usedIdx : ℕ
  info : ℕ → Info B
  /-- `b->disk` -/
  disk : B → Bool
  blockno : B → ℕ
  /-- the holder of `b->lock` -/
  bufLock : B → Option P
  pc : P → Pc B
  /-- the channel, while the process is `SLEEPING` -/
  sleeping : P → Option (Chan B)
  /-- the handler is in its loop -/
  inIntr : Bool
  /-- how far the device has looked in `avail` -/
  lastAvail : ℕ
  /-- the chains that the device has taken and not completed -/
  taken : List ℕ
  /-- the buffers of the requests, in the order they were published -/
  posted : List B
  /-- the number of the last request with a first descriptor -/
  request : ℕ → ℕ
  /-- the requests that the device has completed, in order -/
  completed : List ℕ
  /-- the buffers whose flag `virtio_disk_intr` has cleared, in order -/
  cleared : List B

/-- What `virtio_disk_init` leaves. -/
def init {P B : Type} (blockno : B → ℕ) : State P B where
  lock := none
  desc := fun _ => {}
  avail := fun _ => 0
  availIdx := 0
  usedElems := fun _ => 0
  usedId := 0
  free := fun _ => true
  usedIdx := 0
  info := fun _ => {}
  disk := fun _ => false
  blockno := blockno
  bufLock := fun _ => none
  pc := fun _ => .idle
  sleeping := fun _ => none
  inIntr := false
  lastAvail := 0
  taken := []
  posted := []
  request := fun _ => 0
  completed := []
  cleared := []

/-- The panics, and the two ways in which `virtio_disk_intr` could leave its
arrays or follow a null pointer. -/
inductive Fault
  /-- `virtio_disk_intr 1` -/
  | intr1
  /-- `virtio_disk_intr 2` -/
  | intr2
  /-- `virtio_disk_intr status` -/
  | status
  | badIndex
  | nullPointer
  deriving DecidableEq

variable {P B : Type}

abbrev DiskM (P B : Type) : Type → Type := Prog Fault (State P B)

variable [DecidableEq P] [DecidableEq B]

namespace State

variable (s : State P B) (p : P)

def goto (pc : Pc B) : State P B := { s with pc := Function.update s.pc p pc }

/-- `sleep`, when it has the lock of the process. The process goes on at
`pc`. -/
def sleep (ch : Chan B) (pc : Pc B) : State P B :=
  { s with
    lock := none
    pc := Function.update s.pc p pc
    sleeping := Function.update s.sleeping p (some ch) }

def wakeup (ch : Chan B) : State P B :=
  { s with sleeping := fun q => if s.sleeping q = some ch then none else s.sleeping q }

/-- `disk[n].free[i] = 0`. -/
def mark (i : ℕ) : State P B := { s with free := Function.update s.free i false }

/-- The body of `free_desc`. -/
def freeDesc (i : ℕ) : State P B :=
  { s with
    desc := Function.update s.desc i { s.desc i with addr := .null }
    free := Function.update s.free i true }.wakeup .free

/-- The descriptors of a request are written, its buffer is recorded, and its
chain is published. -/
def publish (b : B) (write : Bool) (i0 i1 i2 : ℕ) : State P B :=
  let d0 : Desc B :=
    { addr := .outhdr (if write then 1 else 0) (s.blockno b * (bsize / 512)), len := 16,
      flags := fNext, next := i1 }
  let d1 : Desc B :=
    { addr := .data b, len := bsize, flags := (if write then 0 else fWrite) ||| fNext, next := i2 }
  let d2 : Desc B := { addr := .status i0, len := 1, flags := fWrite, next := 0 }
  { s with
    desc := Function.update (Function.update (Function.update s.desc i0 d0) i1 d1) i2 d2
    info := Function.update s.info i0 { b := some b, status := 0 }
    disk := Function.update s.disk b true
    avail := Function.update s.avail (s.availIdx % num) i0
    availIdx := u16 (s.availIdx + 1)
    posted := s.posted ++ [b]
    request := Function.update s.request i0 s.posted.length }

/-- `disk[n].info[id].b->disk = 0`, and what follows it in the loop of
`virtio_disk_intr`. -/
def clear (b : B) : State P B :=
  { s with
    disk := Function.update s.disk b false
    usedIdx := (s.usedIdx + 1) % num
    cleared := s.cleared ++ [b] }.wakeup (.buf b)

end State

/-- `alloc_desc`. -/
def allocDesc : DiskM P B (Option ℕ) := do
  let s ← Prog.get
  match (List.range num).find? s.free with
  | some i => do
      Prog.modify fun s => s.mark i
      pure (some i)
  | none => pure none

/-- `free_desc`. -/
def freeDesc (i : ℕ) : DiskM P B Unit := do
  let s ← Prog.get
  if num ≤ i then Prog.fault .intr1
  else if s.free i then Prog.fault .intr2
  else Prog.modify fun s => s.freeDesc i

/-- The loop of `free_chain`. Every round marks another descriptor free, so
there are at most `num` of them before a panic. -/
def freeChain : ℕ → ℕ → DiskM P B Unit
  | 0, _ => Prog.stuck
  | fuel + 1, i => do
      freeDesc i
      let s ← Prog.get
      if (s.desc i).hasNext then freeChain fuel (s.desc i).next else pure ()

/-- `alloc3_desc`. -/
def alloc3Desc : DiskM P B (Option (ℕ × ℕ × ℕ)) := do
  match ← allocDesc with
  | none => pure none
  | some i0 => do
      match ← allocDesc with
      | none => do
          freeDesc i0
          pure none
      | some i1 => do
          match ← allocDesc with
          | none => do
              freeDesc i0
              freeDesc i1
              pure none
          | some i2 => pure (some (i0, i1, i2))

/-- A round of the first loop of `virtio_disk_rw`. -/
def rwAlloc (p : P) (b : B) (write : Bool) : DiskM P B Unit := do
  match ← alloc3Desc with
  | none => Prog.modify fun s => s.sleep p .free (.enter b write)
  | some (i0, i1, i2) =>
      Prog.modify fun s => (s.publish b write i0 i1 i2).goto p (.wait b (i0, i1, i2))

/-- A round of the second loop of `virtio_disk_rw`, or what follows it. -/
def rwWait (p : P) (b : B) (idx : ℕ × ℕ × ℕ) : DiskM P B Unit := do
  let s ← Prog.get
  if s.disk b then Prog.modify fun s => s.sleep p (.buf b) (.waitAcquire b idx)
  else do
    Prog.modify fun s =>
      { s with info := Function.update s.info idx.1 { s.info idx.1 with b := none } }
    freeChain (num + 1) idx.1
    Prog.modify fun s => { s.goto p .idle with lock := none }

/-- `acquire(&vdisk_lock)`. -/
def acquire (x : Thread P) : DiskM P B Unit := do
  let s ← Prog.get
  if s.lock = none then Prog.modify fun s => { s with lock := some x } else Prog.stuck

/-- A process that is in `virtio_disk_rw` goes on. -/
def rwGo (p : P) : DiskM P B Unit := do
  let s ← Prog.get
  match s.pc p with
  | .idle => Prog.stuck
  | .enter b write => do
      acquire (.proc p)
      Prog.modify fun s => s.goto p (.alloc b write)
  | .alloc b write => rwAlloc p b write
  | .wait b idx => rwWait p b idx
  | .waitAcquire b idx => do
      acquire (.proc p)
      Prog.modify fun s => s.goto p (.wait b idx)

/-- A round of the loop of `virtio_disk_intr`, or its end. -/
def intrLoop : DiskM P B Unit := do
  let s ← Prog.get
  if s.usedIdx % num ≠ s.usedId % num then
    let id := s.usedElems s.usedIdx
    if num ≤ id then Prog.fault .badIndex
    else if (s.info id).status ≠ 0 then Prog.fault .status
    else
      match (s.info id).b with
      | none => Prog.fault .nullPointer
      | some b => Prog.modify fun s => s.clear b
  else Prog.modify fun s => { s with lock := none, inIntr := false }

inductive Act (P B : Type)
  /-- `acquiresleep(&b->lock)` and `releasesleep(&b->lock)` -/
  | acquiresleep (p : P) (b : B)
  | releasesleep (p : P) (b : B)
  | virtioDiskRw (p : P) (b : B) (write : Bool)
  | go (p : P)
  | kill (p : P)
  | virtioDiskIntr
  | goIntr
  /-- the device takes the next chain -/
  | take
  /-- the device completes a chain that it has taken -/
  | complete (h : ℕ)

/-- Where the device writes the status of a chain: to what the last
descriptor points to. -/
def State.statusAddr (s : State P B) (h : ℕ) : Addr B :=
  (s.desc (s.desc (s.desc h).next).next).addr

/-- The device completes a chain. -/
def State.complete (s : State P B) (h : ℕ) : State P B :=
  { s with
    info :=
      match s.statusAddr h with
      | .status i => Function.update s.info i { s.info i with status := 0 }
      | _ => s.info
    usedElems := Function.update s.usedElems (s.usedId % num) h
    usedId := u16 (s.usedId + 1)
    taken := s.taken.erase h
    completed := s.completed ++ [s.request h] }

/-- The device takes a chain. -/
def State.take (s : State P B) : State P B :=
  { s with
    lastAvail := u16 (s.lastAvail + 1)
    taken := s.taken ++ [s.avail (s.lastAvail % num)] }

def body (a : Act P B) : DiskM P B Unit := do
  let s ← Prog.get
  match a with
  | .acquiresleep p b =>
      if s.pc p = .idle ∧ s.bufLock b = none then
        Prog.modify fun s => { s with bufLock := Function.update s.bufLock b (some p) }
      else Prog.stuck
  | .releasesleep p b =>
      if s.pc p = .idle ∧ s.bufLock b = some p then
        Prog.modify fun s => { s with bufLock := Function.update s.bufLock b none }
      else Prog.stuck
  | .virtioDiskRw p b write =>
      if s.pc p = .idle ∧ s.bufLock b = some p then
        Prog.modify fun s => s.goto p (.enter b write)
      else Prog.stuck
  | .go p => if s.sleeping p = none then rwGo p else Prog.stuck
  | .kill p => Prog.modify fun s => { s with sleeping := Function.update s.sleeping p none }
  | .virtioDiskIntr => do
      acquire .intr
      Prog.modify fun s => { s with inIntr := true }
  | .goIntr => if s.inIntr then intrLoop else Prog.stuck
  | .take => if s.lastAvail ≠ s.availIdx then Prog.modify State.take else Prog.stuck
  | .complete h => if h ∈ s.taken then Prog.modify fun s => s.complete h else Prog.stuck

/-- There is no next state after a fault. -/
def step (s : State P B) (a : Act P B) : Option (State P B) :=
  match body a s with
  | .ok _ t => some t
  | .fault _ => none
  | .stuck => none

end Xv6.Virtio
