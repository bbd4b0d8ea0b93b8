import Xv6.Fs.Inode
import Xv6.Vm.Exec

/-!
All of `exec` (`kernel/exec.c`, with `strjoin` of `kernel/string.c`).

The call works on four parts of the system: the inodes, the count of
operations that the log has open, physical memory with the process's own
page table, and the record of the process. `tryExec` runs to one of its
ends: the `return` after a path that does not resolve, the label `bad`,
with the values that `pagetable`, `sz` and `ip` have there, or the end of
the function. `exec` adds what happens at `bad`.

The bytes of files are data here. `bd_malloc` of the string for `p->cmd`
may fail like `kalloc`; a null pointer that is written through ends the
kernel. The heap is seen only through these answers, so `bd_free` of the old
`p->cmd` does not appear.
-/

namespace Xv6.Exec

open Lib Vm

/-! ### State -/

inductive Fault where
  | fs (f : Fs.Fault)
  | vm (f : Vm.Fault)
  | nullPointer
deriving DecidableEq

/-- The fields of `struct proc` that the call reads or writes. -/
structure Proc where
  cwd : Option Fs.InodeId
  pagetable : ℕ
  sz : ℕ
  /-- The page of the trapframe. -/
  tf : ℕ
  name : List Char
  cmd : Option (List ℕ)

structure Machine where
  store : Fs.Store
  /-- `outstanding` of the log of the root device. -/
  outstanding : ℤ
  /-- The bytes of each file. -/
  content : Fs.Key → List ℕ
  phys : Phys
  /-- The answers to the coming calls of `bd_malloc`: whether they succeed. -/
  mallocs : List Bool
  proc : Proc

abbrev ExecM : Type → Type := Prog Fault Machine

def fs {α : Type} (c : Fs.FsM α) : ExecM α :=
  Prog.embed .fs Machine.store (fun m s => { m with store := s }) c

def vm {α : Type} (c : VmM α) : ExecM α :=
  Prog.embed .vm Machine.phys (fun m s => { m with phys := s }) c

def beginOp : ExecM Unit := Prog.modify fun m => { m with outstanding := m.outstanding + 1 }

def endOp : ExecM Unit := Prog.modify fun m => { m with outstanding := m.outstanding - 1 }

/-! ### The name and the command line -/

/-- The size of `p->name`. -/
abbrev nameSize : ℕ := 16

/-- What follows the last `/`, cut to fit with its terminating 0. -/
def programName (path : Fs.Path) : List Char :=
  ((path.reverse.takeWhile (· ≠ '/')).reverse).take (nameSize - 1)

/-- The arguments with a blank between them. The last blank is overwritten
by the terminating 0. -/
def joined (argv : List (List ℕ)) : List ℕ := (argv.flatMap fun arg => arg ++ [32]).dropLast

/-- `strjoin`: the string is written without a check of the pointer. (With no
argument at all the 0 goes to the byte before the string, which is left out
here.) -/
def strjoin (argv : List (List ℕ)) : ExecM (List ℕ) := fun m =>
  match m.mallocs with
  | [] => .stuck
  | true :: rest => .ok (joined argv) { m with mallocs := rest }
  | false :: _ => .fault .nullPointer

def setProc (f : Proc → Proc) : ExecM Unit := Prog.modify fun m => { m with proc := f m.proc }

/-! ### The call -/

/-- How the part of `exec` before the label `bad` ends. -/
inductive Exit where
  | returned (argc : ℕ)
  | noInode
  | bad (pagetable : Option ℕ) (sz : ℕ) (ip : Option Fs.InodeId)

variable (C : Config)

/-- Makes the new image that of the process. -/
def commit (path : Fs.Path) (argv : List (List ℕ)) (elf : Elfhdr) (pagetable sz sp : ℕ) :
    ExecM Exit := do
  let m ← Prog.get
  vm (store m.proc.tf tfA1 sp)
  setProc fun p => { p with name := programName path }
  let cmd ← strjoin argv
  setProc fun p => { p with cmd := some cmd, pagetable := pagetable, sz := sz }
  vm (store m.proc.tf tfEpc elf.entry)
  vm (store m.proc.tf tfSp sp)
  vm (procFreepagetable C m.proc.pagetable m.proc.sz)
  pure (.returned argv.length)

/-- The stack of the new image, after the file has been given back. -/
def tryStack (path : Fs.Path) (argv : List (List ℕ)) (elf : Elfhdr) (pagetable sz : ℕ) :
    ExecM Exit := do
  let sz := pgroundup sz
  let sz ← vm (uvmalloc C pagetable sz (u64 (sz + 2 * pgsize)))
  if sz = 0 then pure (.bad (some pagetable) sz none)
  else do
    vm (uvmclear C pagetable (sz - 2 * pgsize))
    match ← vm (pushStack C pagetable sz argv) with
    | none => pure (.bad (some pagetable) sz none)
    | some sp => commit C path argv elf pagetable sz sp

/-- The program is loaded from the locked inode. -/
def tryLoad (path : Fs.Path) (argv : List (List ℕ)) (ip : Fs.InodeId) : ExecM Exit := do
  let m ← Prog.get
  let file := m.content (m.store.inode ip).key
  let header := readi file 0 elfhdrSize
  let elf := Elfhdr.ofBytes header
  if header.length ≠ elfhdrSize then pure (.bad none 0 (some ip))
  else if elf.magic ≠ elfMagic then pure (.bad none 0 (some ip))
  else do
    let pagetable ← vm (procPagetable C m.proc.tf)
    let (ok, sz) ← vm (loadProgram C pagetable file elf.phnum (elf.phoff % 2 ^ 32) 0)
    if ok then do
      fs (Fs.iunlockput ip)
      endOp
      tryStack C path argv elf pagetable sz
    else pure (.bad (some pagetable) sz (some ip))

def tryExec (path : Fs.Path) (argv : List (List ℕ)) : ExecM Exit := do
  beginOp
  let m ← Prog.get
  match ← fs (Fs.namei m.proc.cwd path) with
  | none => do
      endOp
      pure .noInode
  | some ip => do
      fs (Fs.ilock ip)
      tryLoad C path argv ip

/-- The code at the label `bad`. -/
def bad (pagetable : Option ℕ) (sz : ℕ) (ip : Option Fs.InodeId) : ExecM Unit := do
  match pagetable with
  | none => pure ()
  | some pagetable => vm (procFreepagetable C pagetable sz)
  match ip with
  | none => pure ()
  | some ip => do
      fs (Fs.iunlockput ip)
      endOp

/-- The result is `argc`, or nothing for -1. -/
def exec (path : Fs.Path) (argv : List (List ℕ)) : ExecM (Option ℕ) := do
  match ← tryExec C path argv with
  | .returned argc => pure (some argc)
  | .noInode => pure none
  | .bad pagetable sz ip => do
      bad C pagetable sz ip
      pure none

end Xv6.Exec
