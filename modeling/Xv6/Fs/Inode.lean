import Xv6.Lib.Prog
import Xv6.Param

/-!
Inodes, directories and paths (`kernel/fs.c`, `kernel/fs.h`,
`kernel/stat.h`).

The functions run one system call at a time, so a lock is held or not, and
a call that waits for a lock that is held waits for ever: that is a fault
here. The contents of a directory are the list of its entries; those of
files, and with them the blocks, are left out. So is the panic of `balloc`
on a full disk, after which there is no next state anyway.

The counts are integers. That of references, an `int`, does not wrap with
the tables as small as they are; `nlink` is a `short`, and may.
-/

namespace Xv6.Fs

open Lib

/-! ### Data -/

/-- The `type` of an inode, with 0 for a free one. -/
inductive FileType where
  | free
  | dir
  | file
  | device
deriving DecidableEq, Repr

/-- A string without its terminating 0. -/
abbrev Path : Type := List Char

/-- A path element, of at most `DIRSIZ` characters. -/
abbrev Name : Type := List Char

abbrev dirsiz : ℕ := 14

abbrev rootIno : ℕ := 1

/-- The number of entries of a directory that is as large as a file can be:
`MAXFILE * BSIZE` bytes, with 16 bytes an entry. -/
abbrev maxDirents : ℕ := (12 + 256) * 1024 / 16

/-- An entry with `inum` 0 is empty. -/
structure Dirent where
  inum : ℕ
  name : Name
deriving DecidableEq, Repr

/-- An `int` given for a `short`. -/
def short (n : ℤ) : ℤ := (BitVec.ofInt 16 n).toInt

structure Dinode where
  type : FileType := .free
  major : ℤ := 0
  minor : ℤ := 0
  nlink : ℤ := 0
  /-- The size of a file in bytes; that of a directory follows from its entries. -/
  size : ℕ := 0
  /-- The entries of a directory. -/
  data : List Dirent := []
deriving DecidableEq, Repr

/-- `nlink++` on the copy of the inode. -/
def Dinode.incr (d : Dinode) : Dinode := { d with nlink := short (d.nlink + 1) }

/-- `nlink--` on the copy of the inode. -/
def Dinode.decr (d : Dinode) : Dinode := { d with nlink := short (d.nlink - 1) }

/-- An index into the inode cache, standing for a `struct inode *`. -/
abbrev InodeId : Type := Fin ninode

/-- `struct inode`. -/
structure Inode where
  dev : ℕ := 0
  inum : ℕ := 0
  ref : ℤ := 0
  lock : Bool := false
  valid : Bool := false
  /-- The copy of the disk inode. -/
  copy : Dinode := {}
deriving DecidableEq, Repr

/-- The device and the number of an inode. -/
abbrev Key : Type := ℕ × ℕ

def Inode.key (r : Inode) : Key := (r.dev, r.inum)

/-- The inode cache and the inodes on disk. -/
structure Store where
  inode : InodeId → Inode
  disk : Key → Dinode

/-- What ends the kernel: its panics, a lock that is never released, and a
null pointer that is followed. -/
inductive Fault where
  | igetNoInodes
  | iallocNoInodes
  | ilock
  | ilockNoType
  | iunlock
  | dirlookupNotDir
  | dirlink
  | unlinkNlink
  | createDots
  | createDirlink
  | filedup
  | fileclose
  | fileread
  | filewrite
  | shortFilewrite
  | initExiting
  | deadlock
  | nullPointer
deriving DecidableEq, Repr

abbrev FsM : Type → Type := Prog Fault Store

namespace Store

def set (s : Store) (i : InodeId) (r : Inode) : Store :=
  { s with inode := Function.update s.inode i r }

def setDisk (s : Store) (k : Key) (d : Dinode) : Store :=
  { s with disk := Function.update s.disk k d }

end Store

/-! ### The inode cache -/

def inode (i : InodeId) : FsM Inode := fun s => .ok (s.inode i) s

def setInode (i : InodeId) (r : Inode) : FsM Unit := Prog.modify fun s => s.set i r

/-- Changes the copy of the disk inode. -/
def setCopy (i : InodeId) (f : Dinode → Dinode) : FsM Unit := do
  let r ← inode i
  setInode i { r with copy := f r.copy }

/-- The first cache entry that passes the test. -/
def Store.find (s : Store) (test : Inode → Bool) : Option InodeId :=
  (List.finRange ninode).find? fun i => test (s.inode i)

def iget (dev inum : ℕ) : FsM InodeId := do
  let s ← Prog.get
  match s.find fun r => 0 < r.ref ∧ r.dev = dev ∧ r.inum = inum with
  | some i => do
      let r ← inode i
      setInode i { r with ref := r.ref + 1 }
      pure i
  | none =>
      match s.find fun r => r.ref = 0 with
      | some i => do
          let r ← inode i
          setInode i { r with dev := dev, inum := inum, ref := 1, valid := false }
          pure i
      | none => Prog.fault .igetNoInodes

def idup (i : InodeId) : FsM InodeId := do
  let r ← inode i
  setInode i { r with ref := r.ref + 1 }
  pure i

def ilock (i : InodeId) : FsM Unit := do
  let r ← inode i
  if r.ref < 1 then Prog.fault .ilock
  else if r.lock then Prog.fault .deadlock
  else if r.valid then setInode i { r with lock := true }
  else do
    let s ← Prog.get
    let d := s.disk r.key
    setInode i { r with lock := true, valid := true, copy := d }
    if d.type = .free then Prog.fault .ilockNoType else pure ()

def iunlock (i : InodeId) : FsM Unit := do
  let r ← inode i
  if !r.lock ∨ r.ref < 1 then Prog.fault .iunlock
  else setInode i { r with lock := false }

def iupdate (i : InodeId) : FsM Unit := do
  let r ← inode i
  Prog.modify fun s => s.setDisk r.key r.copy

def itrunc (i : InodeId) : FsM Unit := do
  setCopy i fun d => { d with size := 0, data := [] }
  iupdate i

/-- The part of `iput` that frees the inode on disk. -/
def ifree (i : InodeId) : FsM Unit := do
  let r ← inode i
  if r.lock then Prog.fault .deadlock
  else do
    setInode i { r with lock := true }
    itrunc i
    setCopy i fun d => { d with type := .free }
    iupdate i
    let r ← inode i
    setInode i { r with valid := false, lock := false }

def iput (i : InodeId) : FsM Unit := do
  let r ← inode i
  if r.ref = 1 ∧ r.valid ∧ r.copy.nlink = 0 then ifree i else pure ()
  let r ← inode i
  setInode i { r with ref := r.ref - 1 }

def iunlockput (i : InodeId) : FsM Unit := do
  iunlock i
  iput i

/-- The number of inodes on disk, which is less than what the `ushort` of a
directory entry holds. -/
structure Config where
  ninodes : ℕ
  ninodes_le : ninodes ≤ 2 ^ 16

def ialloc (C : Config) (dev : ℕ) (type : FileType) : FsM InodeId := do
  let s ← Prog.get
  match (List.range C.ninodes).find? fun inum => 1 ≤ inum ∧ (s.disk (dev, inum)).type = .free with
  | some inum => do
      Prog.modify fun s => s.setDisk (dev, inum) { type := type }
      iget dev inum
  | none => Prog.fault .iallocNoInodes

/-! ### Directories -/

def Dirent.named (name : Name) (de : Dirent) : Bool := de.inum ≠ 0 ∧ de.name = name

/-- The inode that the entry names, and the place of the entry. -/
def dirlookup (dp : InodeId) (name : Name) : FsM (Option (InodeId × ℕ)) := do
  let r ← inode dp
  if r.copy.type ≠ .dir then Prog.fault .dirlookupNotDir
  else
    match r.copy.data.findIdx? (Dirent.named name) with
    | none => pure none
    | some off => do
        let ip ← iget r.dev (r.copy.data[off]?.elim 0 Dirent.inum)
        pure (some (ip, off))

/-- `writei` of an entry into a directory, which may append it. -/
def writeEntry (off : ℕ) (de : Dirent) (data : List Dirent) : List Dirent :=
  if off < data.length then data.set off de else data ++ [de]

/-- The first empty place in the directory, or its end. -/
def emptyPlace (data : List Dirent) : ℕ :=
  (data.findIdx? fun de => de.inum = 0).getD data.length

/-- Whether the entry could be added. -/
def dirlink (dp : InodeId) (name : Name) (inum : ℕ) : FsM Bool := do
  match ← dirlookup dp name with
  | some (ip, _) => do
      iput ip
      pure false
  | none => do
      let r ← inode dp
      let off := emptyPlace r.copy.data
      if maxDirents ≤ off then Prog.fault .dirlink
      else do
        setCopy dp fun d => { d with data := writeEntry off ⟨inum, name⟩ d.data }
        iupdate dp
        pure true

/-- The directory has no entries besides the first two. -/
def isdirempty (data : List Dirent) : Bool := (data.drop 2).all fun de => de.inum = 0

/-! ### Paths -/

/-- The next path element and the rest of the path. -/
def skipelem (path : Path) : Option (Name × Path) :=
  match path.dropWhile (· = '/') with
  | [] => none
  | path =>
      some ((path.takeWhile (· ≠ '/')).take dirsiz,
        (path.dropWhile (· ≠ '/')).dropWhile (· = '/'))

/-- The end of `namex`, when the path has no element left. -/
def namexEnd (parent : Bool) (ip : InodeId) : FsM (Option (InodeId × Name)) :=
  if parent then do
    iput ip
    pure none
  else pure (some (ip, []))

/-- The loop of `namex`. A path has no more elements than characters. -/
def namexLoop (parent : Bool) : (fuel : ℕ) → InodeId → Path → FsM (Option (InodeId × Name))
  | 0, ip, _ => namexEnd parent ip
  | fuel + 1, ip, path =>
      match skipelem path with
      | none => namexEnd parent ip
      | some (name, path) => do
          ilock ip
          let r ← inode ip
          if r.copy.type ≠ .dir then do
            iunlockput ip
            pure none
          else if parent ∧ path = [] then do
            iunlock ip
            pure (some (ip, name))
          else do
            match ← dirlookup ip name with
            | none => do
                iunlockput ip
                pure none
            | some (next, _) => do
                iunlockput ip
                namexLoop parent fuel next path

/-- Where the path starts: `cwd` is that of the process. -/
def namexStart (cwd : Option InodeId) (path : Path) : FsM InodeId :=
  if path.head? = some '/' then iget rootDev rootIno
  else
    match cwd with
    | some ip => idup ip
    | none => Prog.fault .nullPointer

/-- The inode of the path, or that of its parent together with the last
element. -/
def namex (cwd : Option InodeId) (path : Path) (parent : Bool) :
    FsM (Option (InodeId × Name)) := do
  let ip ← namexStart cwd path
  namexLoop parent path.length ip path

def namei (cwd : Option InodeId) (path : Path) : FsM (Option InodeId) := do
  let r ← namex cwd path false
  pure (r.map Prod.fst)

def nameiparent (cwd : Option InodeId) (path : Path) : FsM (Option (InodeId × Name)) :=
  namex cwd path true

end Xv6.Fs
