import Xv6.Param
import Xv6.Lib.CrashDisk

/-!
The redo log of `kernel/log.c` on a disk that can lose power between any
two block writes.

A block is the sequence of its 32-bit words; the header block holds `n` in
word 0 and `block[i]` in word `i + 1`. The disk functions are programs
over block numbers, in the order in which the code calls `bread` and
`bwrite`. A home block that a transaction has modified is pinned in the
buffer cache until it is installed, so `write_log` reads it there: `cache`
is what the cache holds. Log blocks and the header are always written
through, so reading them means reading the disk.

`start` and `size` are `log.start` and `log.size`.
-/

namespace Xv6.Log

open Lib DiskProg

abbrev Word := BitVec 32

/-- The words of a block. -/
abbrev Block := ℕ → Word

abbrev Disk := ℕ → Block

/-- The header block `b` after `n` and the first `n` entries of `block[]`
have been stored in it. -/
def storeHead (lh : List ℕ) (b : Block) : Block
  | 0 => BitVec.ofNat 32 lh.length
  | j + 1 => if h : j < lh.length then BitVec.ofNat 32 lh[j] else b (j + 1)

/-- The in-memory header that the header block `b` describes: the loop
runs while `i < lh->n`, both of them ints. -/
def loadHead (b : Block) : List ℕ :=
  (List.range (b 0).toInt.toNat).map fun i => (b (i + 1)).toNat

/-- `install_trans`. -/
def installTrans (start : ℕ) (lh : List ℕ) : DiskProg ℕ Block Unit :=
  upTo (fun tail =>
    .read (start + tail + 1) fun lbuf =>
      .read (lh.getD tail 0) fun _ => .write (lh.getD tail 0) lbuf (.ret ())) 0 lh.length

/-- `read_head`. -/
def readHead (start : ℕ) : DiskProg ℕ Block (List ℕ) :=
  .read start fun b => .ret (loadHead b)

/-- `write_head`. -/
def writeHead (start : ℕ) (lh : List ℕ) : DiskProg ℕ Block Unit :=
  .read start fun b => .write start (storeHead lh b) (.ret ())

/-- `recover_from_log`, which `initlog` runs after a reboot. -/
def recoverFromLog (start : ℕ) : DiskProg ℕ Block Unit :=
  (readHead start).bind fun lh => (installTrans start lh).seq (writeHead start [])

/-- `write_log`. -/
def writeLog (start : ℕ) (lh : List ℕ) (cache : ℕ → Block) : DiskProg ℕ Block Unit :=
  upTo (fun tail =>
    .read (start + tail + 1) fun _ =>
      .write (start + tail + 1) (cache (lh.getD tail 0)) (.ret ())) 0 lh.length

/-- `commit`. -/
def commit (start : ℕ) (lh : List ℕ) (cache : ℕ → Block) : DiskProg ℕ Block Unit :=
  if 0 < lh.length then
    ((writeLog start lh cache).seq (writeHead start lh)).seq
      ((installTrans start lh).seq (writeHead start []))
  else .ret ()

/-! ### Transactions -/

/-- `b` is not a block of the log. -/
def Home (start size b : ℕ) : Prop := b < start ∨ start + size ≤ b

/-- What one `commit` writes: the distinct home blocks in the header, in
the order in which `log_write` has put them there, with their contents in
the cache. -/
structure Transaction (start size : ℕ) where
  lh : List ℕ
  cache : ℕ → Block
  home : ∀ b ∈ lh, Home start size b
  nodup : lh.Nodup
  length_lt : lh.length + 1 ≤ size
  /-- the room in `lh.block[]` -/
  length_le : lh.length ≤ logSize
  /-- block numbers are `uint`s -/
  lt_two_pow : ∀ b ∈ lh, b < 2 ^ 32

namespace Transaction

variable {start size : ℕ}

/-- The home blocks when the transaction is installed over `d`. -/
def apply (t : Transaction start size) (d : Disk) : Disk :=
  fun b => if b ∈ t.lh then t.cache b else d b

/-- The program of the transaction. -/
def prog (t : Transaction start size) : DiskProg ℕ Block Unit := commit start t.lh t.cache

end Transaction

/-- One transaction after the other. -/
def commitAll {start size : ℕ} : List (Transaction start size) → DiskProg ℕ Block Unit
  | [] => .ret ()
  | t :: ts => t.prog.seq (commitAll ts)

/-- The home blocks when the transactions are installed over `d` in order. -/
def applyAll {start size : ℕ} (ts : List (Transaction start size)) (d : Disk) : Disk :=
  ts.foldl (fun d t => t.apply d) d

/-- How many of the transactions have their first `write_head` among the
first `w` writes. `write_log` writes `n` blocks and `commit` `2 * n + 2` in
all; a transaction that changes nothing writes nothing. -/
def committed {start size : ℕ} : List (Transaction start size) → ℕ → ℕ
  | [], _ => 0
  | t :: ts, w =>
      if t.lh.length = 0 then committed ts w + 1
      else if w < t.lh.length + 1 then 0
      else committed ts (w - (2 * t.lh.length + 2)) + 1

/-- Reboots: recovery runs once for each entry of `ws` and crashes after
that many writes, and then runs to its end. -/
def reboots (start : ℕ) : List ℕ → Disk → Disk
  | [], d => (recoverFromLog start).final d
  | w :: ws, d => reboots start ws ((recoverFromLog start).crash w d)

end Xv6.Log
