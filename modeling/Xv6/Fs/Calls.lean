import Xv6.Fs.Inode
import Xv6.Lib.Runs

/-!
The system calls on files (`kernel/sysfile.c`, `kernel/file.c`), with what
`pipe.c`, `exec.c` and `proc.c` do to descriptors and current directories.

A call runs to its end before the next one starts. What a call asks of the
rest of the kernel is an argument of it: whether `argstr` finds a string,
`kalloc` a page and `uvmcopy` the memory, whether `copyout` succeeds, and
what `exec` makes of a file. `read` and `write`, which change no count, are
left out.
-/

namespace Xv6.Fs

open Lib

/-! ### Data -/

inductive FdType where
  | none
  | pipe
  | inode
  | device
  | mutex
deriving DecidableEq, Repr

/-- `struct file`, without the lock of a mutex, which nothing reads. -/
structure File where
  type : FdType := .none
  ref : ℤ := 0
  readable : Bool := false
  writable : Bool := false
  /-- The page of the pipe. -/
  pipe : ℕ := 0
  ip : InodeId := 0
  off : ℕ := 0
  major : ℤ := 0
  minor : ℤ := 0
deriving DecidableEq, Repr

structure Pipe where
  readopen : Bool := false
  writeopen : Bool := false
deriving DecidableEq, Repr

/-- A `struct file *`. -/
abbrev FileId : Type := Fin nfile

/-- A `struct proc *`. -/
abbrev ProcId : Type := Fin nproc

/-- A process is `used` from `fork` to `exit`. -/
inductive ProcState where
  | unused
  | used
  | zombie
deriving DecidableEq, Repr

structure Sys where
  store : Store
  file : FileId → File
  ofile : ProcId × Fin nofile → Option FileId
  cwd : ProcId → Option InodeId
  state : ProcId → ProcState
  /-- What pages hold that are pipes. -/
  pipe : ℕ → Pipe

abbrev SysM : Type → Type := Prog Fault Sys

/-- A function of `fs.c`. -/
def onStore {α : Type} (c : FsM α) : SysM α :=
  Prog.zoom Sys.store (fun s t => { s with store := t }) c

def setFile (f : FileId) (r : File) : SysM Unit :=
  Prog.modify fun s => { s with file := Function.update s.file f r }

def setOfile (x : ProcId × Fin nofile) (o : Option FileId) : SysM Unit :=
  Prog.modify fun s => { s with ofile := Function.update s.ofile x o }

def setCwd (p : ProcId) (o : Option InodeId) : SysM Unit :=
  Prog.modify fun s => { s with cwd := Function.update s.cwd p o }

def setState (p : ProcId) (x : ProcState) : SysM Unit :=
  Prog.modify fun s => { s with state := Function.update s.state p x }

def setPipe (page : ℕ) (x : Pipe) : SysM Unit :=
  Prog.modify fun s => { s with pipe := Function.update s.pipe page x }

/-! ### Files -/

def filealloc : SysM (Option FileId) := do
  let s ← Prog.get
  match (List.finRange nfile).find? fun f => (s.file f).ref = 0 with
  | some f => do
      setFile f { s.file f with ref := 1 }
      pure (some f)
  | none => pure none

def filedup (f : FileId) : SysM Unit := do
  let s ← Prog.get
  let r := s.file f
  if r.ref < 1 then Prog.fault .filedup else setFile f { r with ref := r.ref + 1 }

/-- The page goes back to `kfree` when both ends are closed. -/
def pipeclose (page : ℕ) (writable : Bool) : SysM Unit := do
  let s ← Prog.get
  let x := s.pipe page
  setPipe page (if writable then { x with writeopen := false } else { x with readopen := false })

/-- What `fileclose` does with the copy of the file it has closed. -/
def filerelease (ff : File) : SysM Unit :=
  if ff.type = .pipe then pipeclose ff.pipe ff.writable
  else if ff.type = .inode ∨ ff.type = .device then onStore (iput ff.ip)
  else pure ()

def fileclose (f : FileId) : SysM Unit := do
  let s ← Prog.get
  let r := s.file f
  if r.ref < 1 then Prog.fault .fileclose
  else if r.ref - 1 > 0 then setFile f { r with ref := r.ref - 1 }
  else do
    setFile f { r with ref := 0, type := .none }
    filerelease r

/-! ### Descriptors -/

def argfd (p : ProcId) (fd : ℤ) : SysM (Option (Fin nofile × FileId)) := do
  let s ← Prog.get
  if h : 0 ≤ fd ∧ fd.toNat < nofile then
    pure ((s.ofile (p, ⟨fd.toNat, h.2⟩)).map fun f => (⟨fd.toNat, h.2⟩, f))
  else pure none

def fdalloc (p : ProcId) (f : FileId) : SysM (Option (Fin nofile)) := do
  let s ← Prog.get
  match (List.finRange nofile).find? fun fd => s.ofile (p, fd) = none with
  | some fd => do
      setOfile (p, fd) (some f)
      pure (some fd)
  | none => pure none

def sysDup (p : ProcId) (fd : ℤ) : SysM (Option (Fin nofile)) := do
  match ← argfd p fd with
  | none => pure none
  | some (_, f) => do
      match ← fdalloc p f with
      | none => pure none
      | some fd => do
          filedup f
          pure (some fd)

def sysClose (p : ProcId) (fd : ℤ) : SysM Bool := do
  match ← argfd p fd with
  | none => pure false
  | some (fd, f) => do
      setOfile (p, fd) none
      fileclose f
      pure true

/-- A new file and a descriptor for it. -/
def fileFdalloc (p : ProcId) : SysM (Option (FileId × Fin nofile)) := do
  match ← filealloc with
  | none => pure none
  | some f => do
      match ← fdalloc p f with
      | none => do
          fileclose f
          pure none
      | some fd => pure (some (f, fd))

def sysCreateMutex (p : ProcId) : SysM (Option (Fin nofile)) := do
  match ← fileFdalloc p with
  | none => pure none
  | some (f, fd) => do
      let s ← Prog.get
      setFile f { s.file f with type := .mutex }
      pure (some fd)

/-- `page` is what `kalloc` returns. -/
def pipealloc (page : Option ℕ) : SysM (Option (FileId × FileId)) := do
  match ← filealloc with
  | none => pure none
  | some f0 => do
      match ← filealloc with
      | none => do
          fileclose f0
          pure none
      | some f1 =>
          match page with
          | none => do
              fileclose f0
              fileclose f1
              pure none
          | some page => do
              setPipe page { readopen := true, writeopen := true }
              let s ← Prog.get
              setFile f0
                { s.file f0 with type := .pipe, readable := true, writable := false, pipe := page }
              let s ← Prog.get
              setFile f1
                { s.file f1 with type := .pipe, readable := false, writable := true, pipe := page }
              pure (some (f0, f1))

/-- `copied` says whether the descriptors could be copied out. -/
def sysPipe (p : ProcId) (page : Option ℕ) (copied : Bool) : SysM Bool := do
  match ← pipealloc page with
  | none => pure false
  | some (rf, wf) => do
      match ← fdalloc p rf with
      | none => do
          fileclose rf
          fileclose wf
          pure false
      | some fd0 => do
          match ← fdalloc p wf with
          | none => do
              setOfile (p, fd0) none
              fileclose rf
              fileclose wf
              pure false
          | some fd1 =>
              if copied then pure true
              else do
                setOfile (p, fd0) none
                setOfile (p, fd1) none
                fileclose rf
                fileclose wf
                pure false

/-! ### Directory entries -/

/-- The end of `sys_link` when the entry cannot be made. -/
def linkBad (ip : InodeId) : FsM Bool := do
  ilock ip
  setCopy ip Dinode.decr
  iupdate ip
  iunlockput ip
  pure false

/-- `dirlink` of `sys_link`, which first compares the devices. -/
def linkEntry (dp ip : InodeId) (name : Name) : FsM Bool := do
  let d ← inode dp
  let r ← inode ip
  if d.dev ≠ r.dev then pure false else dirlink dp name r.inum

def link (cwd : Option InodeId) (old new : Path) : FsM Bool := do
  match ← namei cwd old with
  | none => pure false
  | some ip => do
      ilock ip
      let r ← inode ip
      if r.copy.type = .dir then do
        iunlockput ip
        pure false
      else do
        setCopy ip Dinode.incr
        iupdate ip
        iunlock ip
        match ← nameiparent cwd new with
        | none => linkBad ip
        | some (dp, name) => do
            ilock dp
            if ← linkEntry dp ip name then do
              iunlockput dp
              iput ip
              pure true
            else do
              iunlockput dp
              linkBad ip

/-- The part of `sys_unlink` for the parent of a directory. -/
def unlinkParent (type : FileType) (dp : InodeId) : FsM Unit :=
  if type = .dir then do
    setCopy dp Dinode.decr
    iupdate dp
  else pure ()

/-- The entry of `unlink` is found, and `ip` is the inode it names. -/
def unlinkEntry (dp ip : InodeId) (off : ℕ) : FsM Bool := do
  ilock ip
  let r ← inode ip
  if r.copy.nlink < 1 then Prog.fault .unlinkNlink
  else if r.copy.type = .dir ∧ !isdirempty r.copy.data then do
    iunlockput ip
    iunlockput dp
    pure false
  else do
    setCopy dp fun d => { d with data := writeEntry off ⟨0, []⟩ d.data }
    iupdate dp
    unlinkParent r.copy.type dp
    iunlockput dp
    setCopy ip Dinode.decr
    iupdate ip
    iunlockput ip
    pure true

def unlink (cwd : Option InodeId) (path : Path) : FsM Bool := do
  match ← nameiparent cwd path with
  | none => pure false
  | some (dp, name) => do
      ilock dp
      if name = ['.'] ∨ name = ['.', '.'] then do
        iunlockput dp
        pure false
      else do
        match ← dirlookup dp name with
        | none => do
            iunlockput dp
            pure false
        | some (ip, off) => unlinkEntry dp ip off

/-- The entries `.` and `..` of a new directory. -/
def createDots (dp ip : InodeId) : FsM Unit := do
  setCopy dp Dinode.incr
  iupdate dp
  let r ← inode ip
  let dot ← dirlink ip ['.'] r.inum
  if !dot then Prog.fault .createDots
  else do
    let d ← inode dp
    let dotdot ← dirlink ip ['.', '.'] d.inum
    if !dotdot then Prog.fault .createDots else pure ()

/-- The part of `create` for a directory. -/
def createDir (type : FileType) (dp ip : InodeId) : FsM Unit :=
  if type = .dir then createDots dp ip else pure ()

/-- The part of `create` that makes an inode, with an entry in `dp`. -/
def createInode (C : Config) (dp : InodeId) (name : Name) (type : FileType) (major minor : ℤ) :
    FsM InodeId := do
  let d ← inode dp
  let ip ← ialloc C d.dev type
  ilock ip
  setCopy ip fun d => { d with major := major, minor := minor, nlink := 1 }
  iupdate ip
  createDir type dp ip
  let r ← inode ip
  let linked ← dirlink dp name r.inum
  if !linked then Prog.fault .createDirlink
  else do
    iunlockput dp
    pure ip

/-- The part of `create` for a name that exists. -/
def createFound (dp ip : InodeId) (type : FileType) : FsM (Option InodeId) := do
  iunlockput dp
  ilock ip
  let r ← inode ip
  if type = .file ∧ (r.copy.type = .file ∨ r.copy.type = .device) then pure (some ip)
  else do
    iunlockput ip
    pure none

/-- The inode is locked when it is returned. -/
def create (C : Config) (cwd : Option InodeId) (path : Path) (type : FileType)
    (major minor : ℤ) : FsM (Option InodeId) := do
  match ← nameiparent cwd path with
  | none => pure none
  | some (dp, name) => do
      ilock dp
      match ← dirlookup dp name with
      | some (ip, _) => createFound dp ip type
      | none => do
          let ip ← createInode C dp name type major minor
          pure (some ip)

/-- `mkdir` and `mknod`. -/
def createPut (C : Config) (cwd : Option InodeId) (path : Path) (type : FileType)
    (major minor : ℤ) : FsM Bool := do
  match ← create C cwd path type major minor with
  | none => pure false
  | some ip => do
      iunlockput ip
      pure true

/-! ### Processes and their files -/

abbrev oRdonly : BitVec 32 := 0x000
abbrev oWronly : BitVec 32 := 0x001
abbrev oRdwr : BitVec 32 := 0x002
abbrev oCreate : BitVec 32 := 0x200

/-- The part of `sys_open` that finds the inode and locks it. -/
def openInode (C : Config) (cwd : Option InodeId) (path : Path) (omode : BitVec 32) :
    FsM (Option InodeId) :=
  if omode &&& oCreate ≠ 0 then create C cwd path .file 0 0
  else do
    match ← namei cwd path with
    | none => pure none
    | some ip => do
        ilock ip
        let r ← inode ip
        if r.copy.type = .dir ∧ omode ≠ oRdonly then do
          iunlockput ip
          pure none
        else pure (some ip)

/-- What `sys_open` writes into a new file. -/
def File.opened (f : File) (ip : InodeId) (r : Dinode) (omode : BitVec 32) : File :=
  let f := if r.type = .device then { f with type := .device, major := r.major, minor := r.minor }
    else { f with type := .inode }
  { f with
    ip := ip
    off := 0
    readable := omode &&& oWronly = 0
    writable := omode &&& oWronly ≠ 0 ∨ omode &&& oRdwr ≠ 0 }

def sysOpen (C : Config) (p : ProcId) (path : Option Path) (omode : BitVec 32) :
    SysM (Option (Fin nofile)) := do
  match path with
  | none => pure none
  | some path => do
      let s ← Prog.get
      match ← onStore (openInode C (s.cwd p) path omode) with
      | none => pure none
      | some ip => do
          let r ← onStore (inode ip)
          if r.copy.type = .device ∧ (r.copy.major < 0 ∨ ndev ≤ r.copy.major) then do
            onStore (iunlockput ip)
            pure none
          else do
            match ← fileFdalloc p with
            | none => do
                onStore (iunlockput ip)
                pure none
            | some (f, fd) => do
                let s ← Prog.get
                setFile f ((s.file f).opened ip r.copy omode)
                onStore (iunlock ip)
                pure (some fd)

def sysLink (p : ProcId) (old new : Option Path) : SysM Bool := do
  match old, new with
  | some old, some new => do
      let s ← Prog.get
      onStore (link (s.cwd p) old new)
  | _, _ => pure false

def sysUnlink (p : ProcId) (path : Option Path) : SysM Bool := do
  match path with
  | some path => do
      let s ← Prog.get
      onStore (unlink (s.cwd p) path)
  | none => pure false

def sysMkdir (C : Config) (p : ProcId) (path : Option Path) : SysM Bool := do
  match path with
  | some path => do
      let s ← Prog.get
      onStore (createPut C (s.cwd p) path .dir 0 0)
  | none => pure false

def sysMknod (C : Config) (p : ProcId) (path : Option Path) (major minor : ℤ) : SysM Bool := do
  match path with
  | some path => do
      let s ← Prog.get
      onStore (createPut C (s.cwd p) path .device (short major) (short minor))
  | none => pure false

/-- `iput` of a current directory. -/
def iputCwd (p : ProcId) : SysM Unit := do
  let s ← Prog.get
  match s.cwd p with
  | some ip => onStore (iput ip)
  | none => Prog.fault .nullPointer

/-- The part of `sys_chdir` that finds the directory. -/
def chdirInode (cwd : Option InodeId) (path : Path) : FsM (Option InodeId) := do
  match ← namei cwd path with
  | none => pure none
  | some ip => do
      ilock ip
      let r ← inode ip
      if r.copy.type ≠ .dir then do
        iunlockput ip
        pure none
      else do
        iunlock ip
        pure (some ip)

def sysChdir (p : ProcId) (path : Option Path) : SysM Bool := do
  match path with
  | none => pure false
  | some path => do
      let s ← Prog.get
      match ← onStore (chdirInode (s.cwd p) path) with
      | none => pure false
      | some ip => do
          iputCwd p
          setCwd p (some ip)
          pure true

/-- What `exec` does with inodes. `image` says whether the program could be
loaded and `stack` whether the rest succeeds. -/
def exec (cwd : Option InodeId) (path : Path) (image stack : Bool) : FsM Bool := do
  match ← namei cwd path with
  | none => pure false
  | some ip => do
      ilock ip
      if image then do
        iunlockput ip
        pure stack
      else do
        iunlockput ip
        pure false

/-- `args` says whether the arguments could be fetched. -/
def sysExec (p : ProcId) (path : Option Path) (args image stack : Bool) : SysM Bool := do
  match path with
  | none => pure false
  | some path =>
      if args then do
        let s ← Prog.get
        onStore (exec (s.cwd p) path image stack)
      else pure false

/-- One round of the loop of `fork`. -/
def forkFd (p np : ProcId) (fd : Fin nofile) : SysM Unit := do
  let s ← Prog.get
  match s.ofile (p, fd) with
  | some f => do
      filedup f
      setOfile (np, fd) (some f)
  | none => pure ()

/-- `np->cwd = idup(p->cwd)`. -/
def forkCwd (p np : ProcId) : SysM Unit := do
  let s ← Prog.get
  match s.cwd p with
  | some ip => do
      let ip ← onStore (idup ip)
      setCwd np (some ip)
  | none => Prog.fault .nullPointer

/-- `kalloc` says whether there is a page for the trapframe and `uvmcopy`
whether the memory could be copied. -/
def fork (p : ProcId) (kalloc uvmcopy : Bool) : SysM Bool := do
  let s ← Prog.get
  match (List.finRange nproc).find? fun np => s.state np = .unused with
  | none => pure false
  | some np =>
      if !kalloc then pure false
      else if !uvmcopy then do
        setState np .unused
        pure false
      else do
        Prog.forEach (List.finRange nofile) (forkFd p np)
        forkCwd p np
        setState np .used
        pure true

/-- The first process, made by `userinit`. -/
abbrev initproc : ProcId := 0

/-- One round of the loop of `exit`. -/
def exitFd (p : ProcId) (fd : Fin nofile) : SysM Unit := do
  let s ← Prog.get
  match s.ofile (p, fd) with
  | some f => do
      fileclose f
      setOfile (p, fd) none
  | none => pure ()

def exit (p : ProcId) : SysM Unit :=
  if p = initproc then Prog.fault .initExiting
  else do
    Prog.forEach (List.finRange nofile) (exitFd p)
    iputCwd p
    setCwd p none
    setState p .zombie

/-! ### The system -/

/-- The memory of the kernel before the first process. -/
def zeroed (disk : Key → Dinode) : Sys where
  store := { inode := fun _ => {}, disk := disk }
  file := fun _ => {}
  ofile := fun _ => none
  cwd := fun _ => none
  state := fun _ => .unused
  pipe := fun _ => {}

def userinit : SysM Unit := do
  let ip ← onStore (namei none ['/'])
  setCwd initproc ip
  setState initproc .used

/-- The state in which the first process starts. -/
def boot (disk : Key → Dinode) : Sys :=
  { zeroed disk with
    store :=
      { inode := Function.update (fun _ => {}) 0 { dev := rootDev, inum := rootIno, ref := 1 }
        disk := disk }
    cwd := Function.update (fun _ => none) initproc (some 0)
    state := Function.update (fun _ => .unused) initproc .used }

theorem userinit_zeroed (disk : Key → Dinode) :
    userinit (zeroed disk) = .ok () (boot disk) := rfl

inductive Call where
  | sysOpen (path : Option Path) (omode : BitVec 32)
  | sysCreateMutex
  | sysPipe (page : Option ℕ) (copied : Bool)
  | sysDup (fd : ℤ)
  | sysClose (fd : ℤ)
  | sysLink (old new : Option Path)
  | sysUnlink (path : Option Path)
  | sysMkdir (path : Option Path)
  | sysMknod (path : Option Path) (major minor : ℤ)
  | sysChdir (path : Option Path)
  | sysExec (path : Option Path) (args image stack : Bool)
  | fork (kalloc uvmcopy : Bool)
  | exit
deriving DecidableEq

/-- The call, made by the process. -/
def perform (C : Config) (p : ProcId) : Call → SysM Unit
  | .sysOpen path omode => do discard (sysOpen C p path omode)
  | .sysCreateMutex => do discard (sysCreateMutex p)
  | .sysPipe page copied => do discard (sysPipe p page copied)
  | .sysDup fd => do discard (sysDup p fd)
  | .sysClose fd => do discard (sysClose p fd)
  | .sysLink old new => do discard (sysLink p old new)
  | .sysUnlink path => do discard (sysUnlink p path)
  | .sysMkdir path => do discard (sysMkdir C p path)
  | .sysMknod path major minor => do discard (sysMknod C p path major minor)
  | .sysChdir path => do discard (sysChdir p path)
  | .sysExec path args image stack => do discard (sysExec p path args image stack)
  | .fork kalloc uvmcopy => do discard (fork p kalloc uvmcopy)
  | .exit => exit p

inductive Event where
  | call (p : ProcId) (c : Call)
  /-- `freeproc`, called by `wait` of the parent. -/
  | freeproc (p : ProcId)
deriving DecidableEq

/-- Only a process that runs makes calls. -/
def eventBody (C : Config) : Event → SysM Unit
  | .call p c => do
      let s ← Prog.get
      if s.state p = .used then perform C p c else Prog.stuck
  | .freeproc p => do
      let s ← Prog.get
      if s.state p = .zombie then setState p .unused else Prog.stuck

/-- There is no next state after a fault. -/
def step (C : Config) (s : Sys) (e : Event) : Option Sys :=
  match eventBody C e s with
  | .ok _ t => some t
  | .fault _ => none
  | .stuck => none

end Xv6.Fs
