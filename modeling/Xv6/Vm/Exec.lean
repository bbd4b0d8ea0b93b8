import Xv6.Vm.Process

/-!
Starting a program (`kernel/exec.c`, and `sys_exec` of
`kernel/sysfile.c`), and the steps of the system.

A program file is the list of its bytes; headers are decoded from them as
`kernel/elf.h` lays them out.
-/

namespace Xv6.Vm

open Lib

/-! ### Program files -/

/-- The little-endian number in the bytes `off, …, off + n - 1`. -/
def field (bytes : List ℕ) (off n : ℕ) : ℕ :=
  ((List.range n).map fun b => bytes.getD (off + b) 0 * 256 ^ b).sum

/-- The bytes that `readi` delivers, with 32-bit offset and count; none when
it returns -1. -/
def readi (file : List ℕ) (off n : ℕ) : List ℕ :=
  if off > file.length ∨ (off + n) % 2 ^ 32 < off then [] else (file.drop off).take n

abbrev elfMagic : ℕ := 0x464C457F

abbrev elfProgLoad : ℕ := 1

/-- Sizes of `struct elfhdr` and `struct proghdr`. -/
abbrev elfhdrSize : ℕ := 64
abbrev proghdrSize : ℕ := 56

structure Elfhdr where
  magic : ℕ
  entry : ℕ
  phoff : ℕ
  phnum : ℕ
deriving DecidableEq

def Elfhdr.ofBytes (bytes : List ℕ) : Elfhdr where
  magic := field bytes 0 4
  entry := field bytes 24 8
  phoff := field bytes 32 8
  phnum := field bytes 56 2

structure Proghdr where
  type : ℕ
  off : ℕ
  vaddr : ℕ
  filesz : ℕ
  memsz : ℕ
deriving DecidableEq

def Proghdr.ofBytes (bytes : List ℕ) : Proghdr where
  type := field bytes 0 4
  off := field bytes 8 8
  vaddr := field bytes 16 8
  filesz := field bytes 32 8
  memsz := field bytes 40 8

variable (C : Config)

/-! ### Loading -/

/-- The loop of `loadseg`, with `n` rounds left from offset `i` on. -/
def loadsegLoop (pagetable va : ℕ) (file : List ℕ) (offset sz : ℕ) : (n i : ℕ) → VmM Bool
  | 0, _ => pure true
  | n + 1, i => do
      match ← walkaddr C pagetable (u64 (va + i)) with
      | none => Prog.fault .loadsegAddress
      | some pa => do
          let len := min (sz - i) pgsize
          let bytes := readi file ((offset + i) % 2 ^ 32) len
          writeBytes pa 0 bytes
          if bytes.length ≠ len then pure false
          else loadsegLoop pagetable va file offset sz n (i + pgsize)

/-- Loads a segment; `offset` and `sz` are 32-bit numbers. -/
def loadseg (pagetable va : ℕ) (file : List ℕ) (offset sz : ℕ) : VmM Bool :=
  if va % pgsize ≠ 0 then Prog.fault .loadsegAligned
  else loadsegLoop C pagetable va file offset sz (pagesBelow 0 sz) 0

/-- The loop of `exec` over the program headers, with `n` of them left. The
result is whether it succeeds, and the size reached. -/
def loadProgram (pagetable : ℕ) (file : List ℕ) : (n off sz : ℕ) → VmM (Bool × ℕ)
  | 0, _, sz => pure (true, sz)
  | n + 1, off, sz => do
      let bytes := readi file off proghdrSize
      if bytes.length ≠ proghdrSize then pure (false, sz)
      else do
        let ph := Proghdr.ofBytes bytes
        let next := (off + proghdrSize) % 2 ^ 32
        if ph.type ≠ elfProgLoad then loadProgram pagetable file n next sz
        else if ph.memsz < ph.filesz then pure (false, sz)
        else if u64 (ph.vaddr + ph.memsz) < ph.vaddr then pure (false, sz)
        else do
          let sz ← uvmalloc C pagetable sz (u64 (ph.vaddr + ph.memsz))
          if sz = 0 then pure (false, sz)
          else if ph.vaddr % pgsize ≠ 0 then pure (false, sz)
          else if ← loadseg C pagetable ph.vaddr file (ph.off % 2 ^ 32) (ph.filesz % 2 ^ 32) then
            loadProgram pagetable file n next sz
          else pure (false, sz)

/-- The stack pointer below `len` more bytes, aligned. -/
def pushSp (sp len : ℕ) : ℕ :=
  let sp := u64 (sp + (2 ^ 64 - len))
  sp - sp % 16

/-- Pushes the argument strings, each with its terminating zero. The result
is the stack pointer and the addresses of the strings, or nothing when
they do not fit. -/
def pushArgs (pagetable stackbase : ℕ) :
    (argv : List (List ℕ)) → (argc sp : ℕ) → VmM (Option (ℕ × List ℕ))
  | [], _, sp => pure (some (sp, []))
  | arg :: argv, argc, sp =>
      if argc ≥ maxArg then pure none
      else
        let sp := pushSp sp (arg.length + 1)
        if sp < stackbase then pure none
        else do
          if ← copyout C pagetable sp (arg ++ [0]) then do
            match ← pushArgs pagetable stackbase argv (argc + 1) sp with
            | none => pure none
            | some (sp', ustack) => pure (some (sp', sp :: ustack))
          else pure none

/-- The bytes of a 64-bit number. -/
def wordBytes (w : ℕ) : List ℕ := (List.range 8).map fun b => w / 256 ^ b % 256

/-- Lays out the stack below `sz`: the strings, then the array of pointers to
them. The result is the stack pointer. -/
def pushStack (pagetable sz : ℕ) (argv : List (List ℕ)) : VmM (Option ℕ) := do
  let stackbase := sz - pgsize
  match ← pushArgs C pagetable stackbase argv 0 sz with
  | none => pure none
  | some (sp, ustack) =>
      let sp := pushSp sp ((argv.length + 1) * 8)
      if sp < stackbase then pure none
      else do
        if ← copyout C pagetable sp ((ustack ++ [0]).flatMap wordBytes) then pure (some sp)
        else pure none

/-- Builds the image of the program in a page table: its segments and two
pages above them, a guard page and the stack. The result is the size
reached and, on success, the stack pointer. -/
def buildImage (pagetable : ℕ) (file : List ℕ) (elf : Elfhdr) (argv : List (List ℕ)) :
    VmM (ℕ × Option ℕ) := do
  let (ok, sz) ← loadProgram C pagetable file elf.phnum (elf.phoff % 2 ^ 32) 0
  if ok then do
    let sz := pgroundup sz
    let sz ← uvmalloc C pagetable sz (u64 (sz + 2 * pgsize))
    if sz = 0 then pure (sz, none)
    else do
      uvmclear C pagetable (sz - 2 * pgsize)
      let sp ← pushStack C pagetable sz argv
      pure (sz, sp)
  else pure (sz, none)

/-- Replaces the image of process `i`. Without a file the path does not
resolve. The result is whether it succeeds. -/
def exec (i : ℕ) (file : Option (List ℕ)) (argv : List (List ℕ)) : KernelM Bool :=
  match file with
  | none => pure false
  | some file => do
      let header := readi file 0 elfhdrSize
      let elf := Elfhdr.ofBytes header
      if header.length ≠ elfhdrSize then pure false
      else if elf.magic ≠ elfMagic then pure false
      else do
        let p ← getProc i
        let tf ← deref p.tf
        let pagetable ← vm (procPagetable C tf)
        let (sz, sp) ← vm (buildImage C pagetable file elf argv)
        match sp with
        | none => do
            vm (procFreepagetable C pagetable sz)
            pure false
        | some sp => do
            vm (store tf tfA1 sp)
            let oldpagetable ← deref p.pagetable
            setProc i { p with pagetable := some pagetable, sz := sz }
            vm (store tf tfEpc elf.entry)
            vm (store tf tfSp sp)
            vm (procFreepagetable C oldpagetable p.sz)
            pure true

/-- Takes a page for each argument string. -/
def allocArgs : ℕ → VmM (List ℕ)
  | 0 => pure []
  | n + 1 => do
      match ← kalloc C with
      | none => Prog.fault .sysExecKalloc
      | some page => do
          let pages ← allocArgs n
          pure (page :: pages)

def freeArgs : List ℕ → VmM Unit
  | [] => pure ()
  | page :: pages => do
      kfree page
      freeArgs pages

/-- The strings are fetched into pages of their own, which are freed after
the call. `fetched` is false when the memory of a further argument cannot
be read; the call then fails, as it does with too many arguments. -/
def sysExec (i : ℕ) (file : Option (List ℕ)) (argv : List (List ℕ)) (fetched : Bool) :
    KernelM Bool := do
  let pages ← vm (allocArgs C (min argv.length maxArg))
  if fetched ∧ argv.length < maxArg then do
    let ok ← exec C i file argv
    vm (freeArgs pages)
    pure ok
  else do
    vm (freeArgs pages)
    pure false

/-! ### The system -/

/-- A system call, or the start of the first process. -/
inductive Call where
  | userinit
  | fork (i : ℕ)
  | exec (i : ℕ) (file : Option (List ℕ)) (argv : List (List ℕ)) (fetched : Bool)
  | sbrk (i : ℕ) (n : ℤ)
  | exit (i : ℕ) (status : ℤ)
  | wait (i addr : ℕ)

def perform : Call → KernelM Unit
  | .userinit => userinit C
  | .fork i => do let _ ← fork C i
  | .exec i file argv fetched => do let _ ← sysExec C i file argv fetched
  | .sbrk i n => do let _ ← growproc C i n
  | .exit i status => exit i status
  | .wait i addr => do let _ ← wait C i addr

/-- The kernel runs, or has stopped in a fault. -/
inductive Sys where
  | running (k : Kernel)
  | stopped (f : Fault)

/-- The first process is started once; every other call is made by a process
that runs. The arguments of `sbrk` are 32-bit. -/
def Call.enabled (k : Kernel) : Call → Bool
  | .userinit => k.initproc.isNone
  | .sbrk i n => decide ((k.proc i).state = .used ∧ i < nproc ∧ -2 ^ 31 ≤ n ∧ n < 2 ^ 31)
  | .fork i | .exec i _ _ _ | .exit i _ | .wait i _ =>
      decide ((k.proc i).state = .used ∧ i < nproc)

/-- A step is a call together with the answers to its calls of `kalloc`. -/
def step (s : Sys) (l : Call × List (Option ℕ)) : Option Sys :=
  match s with
  | .stopped _ => none
  | .running k =>
      if l.1.enabled k then
        match perform C l.1 { k with phys := { k.phys with supply := l.2 } } with
        | .ok _ k' => some (.running k')
        | .fault f => some (.stopped f)
        | .stuck => none
      else none

/-- No process, and no page handed out. -/
def boot (mem : ℕ → ℕ → ℕ) : Sys :=
  .running
    { phys := { mem := mem, used := ∅, supply := [] }
      proc := fun _ => .free
      initproc := none }

end Xv6.Vm
