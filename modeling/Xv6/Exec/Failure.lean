import Xv6.Exec.Call
import Xv6.Fs.Refs
import Xv6.Vm.Load

/-!
What a call of `exec` that returns -1 leaves behind.

At the label `bad`, the inode and the log are given back as they were
taken, and nothing of the process has been written. The new page table is
given back by `proc_freepagetable(pagetable, sz)`, which frees it only if
`sz` is not 0. But `sz` is 0 as long as no segment is loaded, and again
when `uvmalloc` has failed, since its result has been assigned to `sz`
before it is looked at.
-/

namespace Xv6.Exec

open Lib Prog Vm

variable {C : Config} {m t u : Machine} {n : Fs.InodeId → ℕ} {path : Fs.Path}
  {argv : List (List ℕ)} {elf : Elfhdr} {r sz : ℕ} {ip : Fs.InodeId} {held : Option Fs.InodeId}

/-! ### Rules -/

/-- The references and log operations that are held besides those of before. -/
def Holds (n : Fs.InodeId → ℕ) (m t : Machine) : Option Fs.InodeId → Prop
  | none => Fs.Counted n ∅ t.store ∧ t.outstanding = m.outstanding
  | some ip => Fs.Counted (bump n ip) {ip} t.store ∧ t.outstanding = m.outstanding + 1

/-- The header of a file with one program header right behind it. -/
def header : List ℕ :=
  [0x7f, 0x45, 0x4c, 0x46] ++ List.replicate 28 0 ++ [64] ++ List.replicate 23 0 ++ [1] ++
    List.replicate 7 0

/-- The root directory holds one file, `f`. The process is at the root. -/
def oneFile (bytes : List ℕ) : Machine where
  store := {
    inode := fun i => if i = 0 then { dev := 0, inum := 1, ref := 1 } else {}
    disk := fun k =>
      if k = (0, 1) then
        { type := .dir, nlink := 1, data := [⟨1, ['.']⟩, ⟨1, ['.', '.']⟩, ⟨2, ['f']⟩] }
      else if k = (0, 2) then { type := .file, nlink := 1, size := bytes.length }
      else {} }
  outstanding := 0
  content := fun k => if k = (0, 2) then bytes else []
  phys := oneTrapframe
  mallocs := []
  proc := { cwd := some 0, pagetable := 0, sz := 0, tf := 4096, name := [], cmd := none }

/-- Only the root is referenced. -/
def atRoot (i : Fs.InodeId) : ℕ := if i = 0 then 1 else 0

end Xv6.Exec
