import Xv6.Vm.PageTable

/-!
Processes and their memory (`kernel/proc.c`, `kernel/exec.c`,
`kernel/sysproc.c`).

A system call is one step: a page table is only touched by its own
process, by the parent that makes it before the process can run and by
the parent that frees it after the process has ended, and the allocator
has its lock. Of the process states only the difference between a free
slot, a process that can make calls and one that has exited matters here;
names, files and scheduling are left out.
-/

namespace Xv6.Vm

open Lib

inductive ProcState where
  | unused
  | used
  | zombie
deriving DecidableEq

structure Proc where
  state : ProcState
  parent : Option ℕ
  xstate : ℤ
  sz : ℕ
  pagetable : Option ℕ
  tf : Option ℕ

/-- A free slot of the process table. -/
def Proc.free : Proc where
  state := .unused
  parent := none
  xstate := 0
  sz := 0
  pagetable := none
  tf := none

structure Kernel where
  phys : Phys
  proc : ℕ → Proc
  initproc : Option ℕ

abbrev KernelM : Type → Type := Prog Fault Kernel

/-- A function of `vm.c`, called by the kernel. -/
def vm {α : Type} (c : VmM α) : KernelM α :=
  Prog.zoom Kernel.phys (fun k s => { k with phys := s }) c

def getProc (i : ℕ) : KernelM Proc := do
  let k ← Prog.get
  pure (k.proc i)

def setProc (i : ℕ) (p : Proc) : KernelM Unit :=
  Prog.modify fun k => { k with proc := Function.update k.proc i p }

/-- Follows a pointer that the source takes to be there. -/
def deref (ptr : Option ℕ) : KernelM ℕ :=
  match ptr with
  | none => Prog.fault .nullPointer
  | some a => pure a

/-! Words of the trapframe. -/

abbrev tfEpc : ℕ := 3
abbrev tfSp : ℕ := 6
abbrev tfA0 : ℕ := 14
abbrev tfA1 : ℕ := 15

/-- The number of words of `struct trapframe`. -/
abbrev tfWords : ℕ := 36

variable (C : Config)

/-! ### Processes -/

def procPagetable (tf : ℕ) : VmM ℕ := do
  let pagetable ← uvmcreate C
  let _ ← mappages C pagetable trampolineVa pgsize C.trampoline (pteR ||| pteX)
  let _ ← mappages C pagetable trapframeVa pgsize tf (pteR ||| pteW)
  pure pagetable

def procFreepagetable (pagetable sz : ℕ) : VmM Unit := do
  uvmunmap C pagetable trampolineVa pgsize false
  uvmunmap C pagetable trapframeVa pgsize false
  if sz > 0 then uvmfree C pagetable sz else pure ()

/-- Finds a free slot and gives it a trapframe and an empty page table. -/
def allocproc : KernelM (Option ℕ) := do
  let k ← Prog.get
  match (List.range nproc).find? fun i => (k.proc i).state = .unused with
  | none => pure none
  | some i => do
      let p ← getProc i
      match ← vm (kalloc C) with
      | none => do
          setProc i { p with tf := none }
          pure none
      | some tf => do
          let pagetable ← vm (procPagetable C tf)
          setProc i { p with tf := some tf, pagetable := some pagetable }
          pure (some i)

def freeproc (i : ℕ) : KernelM Unit := do
  let p ← getProc i
  match p.tf with
  | none => pure ()
  | some tf => vm (kfree tf)
  match p.pagetable with
  | none => pure ()
  | some pagetable => vm (procFreepagetable C pagetable p.sz)
  setProc i .free

/-- The program that the first process runs. -/
def initcode : List ℕ :=
  [0x17, 0x05, 0x00, 0x00, 0x13, 0x05, 0x05, 0x02,
   0x97, 0x05, 0x00, 0x00, 0x93, 0x85, 0x05, 0x02,
   0x9d, 0x48, 0x73, 0x00, 0x00, 0x00, 0x89, 0x48,
   0x73, 0x00, 0x00, 0x00, 0xef, 0xf0, 0xbf, 0xff,
   0x2f, 0x69, 0x6e, 0x69, 0x74, 0x00, 0x00, 0x01,
   0x20, 0x00, 0x00, 0x00, 0x00, 0x00, 0x00, 0x00,
   0x00, 0x00, 0x00]

/-- Loads the program at address 0; a program of a page or more panics in
the source, and `initcode` is shorter. -/
def uvminit (pagetable : ℕ) (src : List ℕ) : KernelM Unit := do
  let mem ← deref (← vm (kalloc C))
  vm (clearPage mem)
  let _ ← vm (mappages C pagetable 0 pgsize mem (pteW ||| pteR ||| pteX ||| pteU))
  vm (writeBytes mem 0 src)

def userinit : KernelM Unit := do
  let i ← deref (← allocproc C)
  Prog.modify fun k => { k with initproc := some i }
  let p ← getProc i
  uvminit C (← deref p.pagetable) initcode
  let tf ← deref p.tf
  vm (store tf tfEpc 0)
  vm (store tf tfSp pgsize)
  setProc i { p with sz := pgsize, state := .used }

/-- The sum of an unsigned and a signed 32-bit number, unsigned. -/
def addInt (sz : ℕ) (n : ℤ) : ℕ := ((sz + n) % 2 ^ 32).toNat

def growproc (i : ℕ) (n : ℤ) : KernelM Bool := do
  let p ← getProc i
  let pagetable ← deref p.pagetable
  let sz := p.sz % 2 ^ 32
  if n > 0 then do
    let sz := (← vm (uvmalloc C pagetable sz (addInt sz n))) % 2 ^ 32
    if sz = 0 then pure false
    else do
      setProc i { p with sz := sz }
      pure true
  else if n < 0 then do
    let sz := (← vm (uvmdealloc C pagetable sz (addInt sz n))) % 2 ^ 32
    setProc i { p with sz := sz }
    pure true
  else do
    setProc i { p with sz := sz }
    pure true

/-- An unsigned number stored in an `int`. -/
def toInt32 (n : ℕ) : ℤ := (BitVec.ofNat 32 n).toInt

def sysSbrk (i : ℕ) (n : ℤ) : KernelM ℤ := do
  let p ← getProc i
  let addr := toInt32 p.sz
  if ← growproc C i n then pure addr else pure (-1)

/-- Makes a copy of the process; the result is the slot of the child. -/
def fork (i : ℕ) : KernelM (Option ℕ) := do
  match ← allocproc C with
  | none => pure none
  | some j => do
      let p ← getProc i
      let np ← getProc j
      if ← vm (uvmcopy C (← deref p.pagetable) (← deref np.pagetable) p.sz) then do
        let tf ← deref p.tf
        let ntf ← deref np.tf
        vm do
          let s ← Prog.get
          setPage ntf fun w => if w < tfWords then s.mem tf w else s.mem ntf w
        vm (store ntf tfA0 0)
        setProc j { np with sz := p.sz, parent := some i, state := .used }
        pure (some j)
      else do
        freeproc C j
        pure none

/-- Gives the children of `i` to the first process. -/
def reparent (i : ℕ) : KernelM Unit :=
  Prog.modify fun k =>
    let adopt (p : Proc) : Proc :=
      if p.parent = some i then { p with parent := k.initproc } else p
    { k with proc := fun j => adopt (k.proc j) }

def exit (i : ℕ) (status : ℤ) : KernelM Unit := do
  let k ← Prog.get
  if k.initproc = some i then Prog.fault .initExiting
  else do
    reparent i
    let p ← getProc i
    setProc i { p with xstate := status, state := .zombie }

/-- The bytes of an `int`. -/
def intBytes (x : ℤ) : List ℕ :=
  (List.range 4).map fun b => ((x % 2 ^ 32).toNat / 256 ^ b) % 256

/-- Frees a child that has exited. With children, but none that has exited,
the call does not return yet. -/
def wait (i addr : ℕ) : KernelM Bool := do
  let k ← Prog.get
  match (List.range nproc).find? fun j =>
      (k.proc j).parent = some i ∧ (k.proc j).state = .zombie with
  | some j => do
      let p ← getProc i
      let np ← getProc j
      if addr ≠ 0 then do
        if ← vm (copyout C (← deref p.pagetable) addr (intBytes np.xstate)) then do
          freeproc C j
          pure true
        else pure false
      else do
        freeproc C j
        pure true
  | none =>
      if (List.range nproc).any (fun j => (k.proc j).parent = some i) then Prog.stuck
      else pure false

end Xv6.Vm
