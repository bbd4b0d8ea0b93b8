import Mathlib

/-!
The constants of `kernel/param.h` that the model uses.
-/

namespace Xv6

/-- Maximum number of processes. -/
abbrev nproc : Nat := 64

/-- Maximum number of CPUs. -/
abbrev ncpu : Nat := 8

/-- Maximum number of blocks any file system operation writes. -/
abbrev maxOpBlocks : Nat := 10

/-- Maximum number of data blocks in the on-disk log. -/
abbrev logSize : Nat := maxOpBlocks * 3

/-- Size of the disk block cache. -/
abbrev nbuf : Nat := maxOpBlocks * 3

/-- Maximum number of arguments of `exec`. -/
abbrev maxArg : Nat := 32

/-- Open files per process. -/
abbrev nofile : Nat := 16

/-- Open files per system. -/
abbrev nfile : Nat := 100

/-- Maximum number of active i-nodes. -/
abbrev ninode : Nat := 50

/-- Maximum major device number. -/
abbrev ndev : Nat := 10

/-- Device number of the root disk. -/
abbrev rootDev : Nat := 0

/-- Number of priority queues. -/
abbrev nprio : Nat := 10

/-- Priority of a new process. -/
abbrev defPrio : Nat := 5

instance : NeZero nproc := ⟨by decide⟩

instance : NeZero ncpu := ⟨by decide⟩

instance : NeZero ninode := ⟨by decide⟩

instance : NeZero nprio := ⟨by decide⟩

end Xv6
