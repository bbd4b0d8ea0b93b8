import Xv6.Exec.Failure
import Xv6.Vm.Grow
import Xv6.Vm.Stack

/-!
What a call of `exec` that succeeds has made: the program in the new user
memory, and the arguments on its stack.

The new image is made beside the old one, which is freed at the end. That
this leaves the new image alone rests on the pages having one use each: the
old table, the new table and the trapframe have no page in common.
-/

namespace Xv6.Exec

open Lib Prog Vm

variable {C : Config} {m t u : Machine} {A A' : View} {path : Fs.Path} {argv : List (List ℕ)}
  {elf : Elfhdr} {r sz sp top argc : ℕ} {ip : Fs.InodeId} {file : List ℕ} {s w : Phys}

/-- A process with a page table that the kernel has made, and a trapframe that
is in no table. -/
structure Ready (C : Config) (A : View) (m : Machine) : Prop where
  image : Built C m.proc.pagetable m.proc.sz A A m.phys m.phys
  trapframe : ∃ o : Owner, A.owner m.proc.tf = some o ∧ o.IsData ∧ ∀ r, ¬ o.Of r

/-! ### Making the image that of the process -/

/-- The process after `commit`. -/
structure Committed (C : Config) (r sz sp : ℕ) (A : View) (s : Phys) (m t : Machine) : Prop where
  pagetable : t.proc.pagetable = r
  size : t.proc.sz = sz
  tf : t.proc.tf = m.proc.tf
  a1 : t.phys.mem t.proc.tf tfA1 = sp
  sp : t.phys.mem t.proc.tf tfSp = sp
  mem : userMem C t.phys r = userMem C s r
  entry : ∃ A', Built C r sz A' A' t.phys t.phys ∧ A'.maps r = A.maps r

/-- A process without user memory calls `exec` on a file of the root directory. -/
def running (bytes : List ℕ) (s : Phys) : Machine :=
  { oneFile bytes with
    phys := s
    mallocs := [true]
    proc := { (oneFile bytes).proc with pagetable := 8192 } }

/-- The pages that are left then. -/
def left : List ℕ := [45056, 49152, 53248, 57344, 61440, 65536]

end Xv6.Exec
