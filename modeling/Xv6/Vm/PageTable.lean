import Xv6.Lib.Prog
import Xv6.Param

/-!
Page tables (`kernel/vm.c`, with the constants of `kernel/riscv.h` and
`kernel/memlayout.h`).

Physical memory is an array of pages, named by their physical addresses,
of 512 words of eight bytes. A page-table page is such a page; a data page
has its bytes packed in words, least significant byte first.

`kalloc` and `kfree` are the allocator's. Which page a call of `kalloc`
returns is left to the environment: the state carries the answers to the
coming calls, a page or the null pointer, and an answer counts only if the
page belongs to the allocator's pool and is not handed out.
-/

namespace Xv6.Vm

open Lib

/-! ### Addresses and page-table entries -/

abbrev pgsize : ℕ := 4096

/-- Unsigned 64-bit arithmetic. -/
abbrev u64 (x : ℕ) : ℕ := x % 2 ^ 64

def pgroundup (sz : ℕ) : ℕ := u64 (sz + pgsize - 1) / pgsize * pgsize

def pgrounddown (a : ℕ) : ℕ := a / pgsize * pgsize

abbrev pteV : ℕ := 1
abbrev pteR : ℕ := 2
abbrev pteW : ℕ := 4
abbrev pteX : ℕ := 8
abbrev pteU : ℕ := 16

def pa2pte (pa : ℕ) : ℕ := pa >>> 12 <<< 10

def pte2pa (pte : ℕ) : ℕ := pte >>> 10 <<< 12

def pteFlags (pte : ℕ) : ℕ := pte &&& 0x3FF

/-- The index of `va` in a page-table page of the level. -/
def px (level va : ℕ) : ℕ := va >>> (12 + 9 * level) &&& 0x1FF

abbrev maxva : ℕ := 2 ^ 38

abbrev trampolineVa : ℕ := maxva - pgsize

abbrev trapframeVa : ℕ := trampolineVa - pgsize

/-! ### Memory and the allocator -/

/-- What ends the kernel: the panics of the source, and three faults for
which the source has no check: freeing a page that is not handed out,
descending below the third level of a page table, and following a null
pointer. -/
inductive Fault where
  | walk
  | remap
  | uvmunmapWalk
  | uvmunmapNotMapped
  | uvmunmapNotLeaf
  | uvmcreate
  | freewalkLeaf
  | uvmcopyPteShouldExist
  | uvmcopyPageNotPresent
  | uvmclear
  | loadsegAligned
  | loadsegAddress
  | initExiting
  | sysExecKalloc
  | badFree
  | tooDeep
  | nullPointer
deriving DecidableEq

/-- The pages the allocator manages, and the page of the trampoline code,
which belongs to the kernel. -/
structure Config where
  pool : Finset ℕ
  trampoline : ℕ
  pool_aligned : ∀ pg ∈ pool, pgsize ∣ pg
  pool_lt : ∀ pg ∈ pool, pg < 2 ^ 56
  trampoline_aligned : pgsize ∣ trampoline
  trampoline_lt : trampoline < 2 ^ 56
  card_pool_le : pool.card ≤ 2 ^ 15

structure Phys where
  /-- The words of a page. -/
  mem : ℕ → ℕ → ℕ
  /-- The pages that are handed out. -/
  used : Finset ℕ
  /-- The answers to the coming calls of `kalloc`. -/
  supply : List (Option ℕ)

abbrev VmM : Type → Type := Prog Fault Phys

variable (C : Config)

def kalloc : VmM (Option ℕ) := fun s =>
  match s.supply with
  | [] => .stuck
  | none :: rest => .ok none { s with supply := rest }
  | some pg :: rest =>
      if pg ∈ C.pool ∧ pg ∉ s.used then
        .ok (some pg) { s with used := insert pg s.used, supply := rest }
      else .stuck

def kfree (pa : ℕ) : VmM Unit := fun s =>
  if pa ∈ s.used then .ok () { s with used := s.used.erase pa } else .fault .badFree

def load (page i : ℕ) : VmM ℕ := fun s => .ok (s.mem page i) s

def Phys.setPage (s : Phys) (page : ℕ) (f : ℕ → ℕ) : Phys :=
  { s with mem := Function.update s.mem page f }

def Phys.set (s : Phys) (page i w : ℕ) : Phys :=
  s.setPage page (Function.update (s.mem page) i w)

def setPage (page : ℕ) (f : ℕ → ℕ) : VmM Unit := Prog.modify fun s => s.setPage page f

def store (page i w : ℕ) : VmM Unit := Prog.modify fun s => s.set page i w

/-- `memset(page, 0, PGSIZE)`. -/
def clearPage (page : ℕ) : VmM Unit := setPage page fun _ => 0

/-- `memmove(dst, src, PGSIZE)`. -/
def copyPage (dst src : ℕ) : VmM Unit := do
  let s ← Prog.get
  setPage dst (s.mem src)

/-- Byte `k` of a page. -/
def byteAt (page : ℕ → ℕ) (k : ℕ) : ℕ := page (k / 8) / 256 ^ (k % 8) % 256

/-- The page with `bytes` written at offset `off`. -/
def putBytes (page : ℕ → ℕ) (off : ℕ) (bytes : List ℕ) (i : ℕ) : ℕ :=
  ((List.range 8).map fun b =>
    let k := 8 * i + b
    (if off ≤ k ∧ k < off + bytes.length then bytes.getD (k - off) 0 else byteAt page k)
      * 256 ^ b).sum

/-- `memmove` of some bytes into a page. -/
def writeBytes (page off : ℕ) (bytes : List ℕ) : VmM Unit := do
  let s ← Prog.get
  setPage page (putBytes (s.mem page) off bytes)

/-! ### Walking and mapping -/

/-- The descent of `walk` from a page-table page of the level. The result is
the page and the index of the entry, or the null pointer. -/
def walkFrom (va : ℕ) (alloc : Bool) : (level pagetable : ℕ) → VmM (Option (ℕ × ℕ))
  | 0, pagetable => pure (some (pagetable, px 0 va))
  | level + 1, pagetable => do
      let pte ← load pagetable (px (level + 1) va)
      if pte &&& pteV ≠ 0 then
        walkFrom va alloc level (pte2pa pte)
      else if alloc then
        match ← kalloc C with
        | none => pure none
        | some page => do
            clearPage page
            store pagetable (px (level + 1) va) (pa2pte page ||| pteV)
            walkFrom va alloc level page
      else
        pure none

def walk (pagetable va : ℕ) (alloc : Bool) : VmM (Option (ℕ × ℕ)) :=
  if va ≥ maxva then Prog.fault .walk else walkFrom C va alloc 2 pagetable

/-- The physical address of a user page, or the null pointer. -/
def walkaddr (pagetable va : ℕ) : VmM (Option ℕ) :=
  if va ≥ maxva then pure none
  else do
    match ← walk C pagetable va false with
    | none => pure none
    | some (page, i) => do
        let pte ← load page i
        if pte &&& pteV = 0 then pure none
        else if pte &&& pteU = 0 then pure none
        else pure (some (pte2pa pte))

/-- The number of rounds of the loops of `mappages` and `uvmunmap`, which go
from the page of `va` to that of `va + size - 1` and compare for equality
in 64-bit arithmetic. -/
def rounds (va size : ℕ) : ℕ :=
  let a := pgrounddown va
  let last := pgrounddown (u64 (va + size + (2 ^ 64 - 1)))
  u64 (last + (2 ^ 64 - a)) / pgsize + 1

/-- The loop of `mappages`; the result is whether it succeeds. -/
def mappagesLoop (pagetable perm : ℕ) : (n a pa : ℕ) → VmM Bool
  | 0, _, _ => pure true
  | n + 1, a, pa => do
      match ← walk C pagetable a true with
      | none => pure false
      | some (page, i) => do
          let pte ← load page i
          if pte &&& pteV ≠ 0 then Prog.fault .remap
          else do
            store page i (pa2pte pa ||| perm ||| pteV)
            mappagesLoop pagetable perm n (u64 (a + pgsize)) (u64 (pa + pgsize))

def mappages (pagetable va size pa perm : ℕ) : VmM Bool :=
  mappagesLoop C pagetable perm (rounds va size) (pgrounddown va) pa

def uvmunmapLoop (pagetable : ℕ) (doFree : Bool) : (n a : ℕ) → VmM Unit
  | 0, _ => pure ()
  | n + 1, a => do
      match ← walk C pagetable a false with
      | none => Prog.fault .uvmunmapWalk
      | some (page, i) => do
          let pte ← load page i
          if pte &&& pteV = 0 then Prog.fault .uvmunmapNotMapped
          else if pteFlags pte = pteV then Prog.fault .uvmunmapNotLeaf
          else do
            if doFree then kfree (pte2pa pte) else pure ()
            store page i 0
            uvmunmapLoop pagetable doFree n (u64 (a + pgsize))

def uvmunmap (pagetable va size : ℕ) (doFree : Bool) : VmM Unit :=
  uvmunmapLoop C pagetable doFree (rounds va size) (pgrounddown va)

/-! ### User memory -/

def uvmcreate : VmM ℕ := do
  match ← kalloc C with
  | none => Prog.fault .uvmcreate
  | some pagetable => do
      clearPage pagetable
      pure pagetable

def uvmdealloc (pagetable oldsz newsz : ℕ) : VmM ℕ :=
  if newsz ≥ oldsz then pure oldsz
  else do
    let newup := pgroundup newsz
    if newup < pgroundup oldsz then uvmunmap C pagetable newup (oldsz - newup) true
    else pure ()
    pure newsz

/-- The loop of `uvmalloc`, with `n` rounds left; the result is whether it
succeeds. -/
def uvmallocLoop (pagetable oldsz : ℕ) : (n a : ℕ) → VmM Bool
  | 0, _ => pure true
  | n + 1, a => do
      match ← kalloc C with
      | none => do
          let _ ← uvmdealloc C pagetable a oldsz
          pure false
      | some mem => do
          clearPage mem
          if ← mappages C pagetable a pgsize mem (pteW ||| pteX ||| pteR ||| pteU) then
            uvmallocLoop pagetable oldsz n (a + pgsize)
          else do
            kfree mem
            let _ ← uvmdealloc C pagetable a oldsz
            pure false

/-- The number of rounds of a loop from `a` in steps of a page while below
`bound`. -/
def pagesBelow (a bound : ℕ) : ℕ := (bound - a + (pgsize - 1)) / pgsize

def uvmalloc (pagetable oldsz newsz : ℕ) : VmM ℕ :=
  if newsz < oldsz then pure oldsz
  else do
    let oldsz := pgroundup oldsz
    if ← uvmallocLoop C pagetable oldsz (pagesBelow oldsz newsz) oldsz then pure newsz
    else pure 0

/-- Frees a page-table page and what hangs from it, `depth` levels deep. -/
def freewalk : (depth pagetable : ℕ) → VmM Unit
  | 0, _ => Prog.fault .tooDeep
  | depth + 1, pagetable => do
      Prog.forN 512 fun i => do
        let pte ← load pagetable i
        if pte &&& pteV ≠ 0 ∧ pte &&& (pteR ||| pteW ||| pteX) = 0 then do
          freewalk depth (pte2pa pte)
          store pagetable i 0
        else if pte &&& pteV ≠ 0 then Prog.fault .freewalkLeaf
        else pure ()
      kfree pagetable

def uvmfree (pagetable sz : ℕ) : VmM Unit := do
  uvmunmap C pagetable 0 sz true
  freewalk 3 pagetable

/-- The loop of `uvmcopy`, with `n` rounds left, and the pages it has made
taken back when it fails. -/
def uvmcopyLoop (old new : ℕ) : (n i : ℕ) → VmM Bool
  | 0, _ => pure true
  | n + 1, i => do
      match ← walk C old i false with
      | none => Prog.fault .uvmcopyPteShouldExist
      | some (page, k) => do
          let pte ← load page k
          if pte &&& pteV = 0 then Prog.fault .uvmcopyPageNotPresent
          else do
            match ← kalloc C with
            | none => do
                uvmunmap C new 0 i true
                pure false
            | some mem => do
                copyPage mem (pte2pa pte)
                if ← mappages C new i pgsize mem (pteFlags pte) then
                  uvmcopyLoop old new n (i + pgsize)
                else do
                  kfree mem
                  uvmunmap C new 0 i true
                  pure false

def uvmcopy (old new sz : ℕ) : VmM Bool := uvmcopyLoop C old new (pagesBelow 0 sz) 0

def uvmclear (pagetable va : ℕ) : VmM Unit := do
  match ← walk C pagetable va false with
  | none => Prog.fault .uvmclear
  | some (page, i) => do
      let pte ← load page i
      store page i (pte &&& (2 ^ 64 - 1 - pteU))

/-- The loop of `copyout`: each round copies up to the end of a page. As it
copies at least a byte, there are at most as many rounds as bytes. -/
def copyoutLoop (pagetable : ℕ) : (fuel dstva : ℕ) → List ℕ → VmM Bool
  | _, _, [] => pure true
  | 0, _, _ => pure true
  | fuel + 1, dstva, src => do
      let va0 := pgrounddown dstva
      match ← walkaddr C pagetable va0 with
      | none => pure false
      | some pa0 => do
          let n := pgsize - (dstva - va0)
          writeBytes pa0 (dstva - va0) (src.take n)
          copyoutLoop pagetable fuel (u64 (va0 + pgsize)) (src.drop n)

def copyout (pagetable dstva : ℕ) (src : List ℕ) : VmM Bool :=
  copyoutLoop C pagetable src.length dstva src

/-- Some bytes of a page, in order. -/
def readBytes (page : ℕ → ℕ) (off n : ℕ) : List ℕ :=
  (List.range n).map fun k => byteAt page (off + k)

/-- The loop of `copyin`. The result is whether it succeeds, and the bytes
that it has stored from `dst` on. -/
def copyinLoop (pagetable : ℕ) : (fuel srcva len : ℕ) → VmM (Bool × List ℕ)
  | _, _, 0 => pure (true, [])
  | 0, _, _ => pure (true, [])
  | fuel + 1, srcva, len => do
      let va0 := pgrounddown srcva
      match ← walkaddr C pagetable va0 with
      | none => pure (false, [])
      | some pa0 => do
          let n := min (pgsize - (srcva - va0)) len
          let s ← Prog.get
          let (ok, rest) ← copyinLoop pagetable fuel (u64 (va0 + pgsize)) (len - n)
          pure (ok, readBytes (s.mem pa0) (srcva - va0) n ++ rest)

def copyin (pagetable srcva len : ℕ) : VmM (Bool × List ℕ) :=
  copyinLoop C pagetable len srcva len

/-- The inner loop of `copyinstr`: at most `n` bytes of a page, up to the
first 0. The result is whether there was one, and the bytes stored. -/
def copyString (page : ℕ → ℕ) : (n off : ℕ) → Bool × List ℕ
  | 0, _ => (false, [])
  | n + 1, off =>
      if byteAt page off = 0 then (true, [0])
      else
        let (gotNull, rest) := copyString page n (off + 1)
        (gotNull, byteAt page off :: rest)

def copyinstrLoop (pagetable : ℕ) : (fuel srcva max : ℕ) → VmM (Bool × List ℕ)
  | _, _, 0 => pure (false, [])
  | 0, _, _ => pure (false, [])
  | fuel + 1, srcva, max => do
      let va0 := pgrounddown srcva
      match ← walkaddr C pagetable va0 with
      | none => pure (false, [])
      | some pa0 => do
          let n := min (pgsize - (srcva - va0)) max
          let s ← Prog.get
          match copyString (s.mem pa0) n (srcva - va0) with
          | (true, bytes) => pure (true, bytes)
          | (false, bytes) => do
              let (ok, rest) ← copyinstrLoop pagetable fuel (u64 (va0 + pgsize)) (max - n)
              pure (ok, bytes ++ rest)

/-- The string is copied with its terminating 0. -/
def copyinstr (pagetable srcva max : ℕ) : VmM (Bool × List ℕ) :=
  copyinstrLoop C pagetable max srcva max

end Xv6.Vm
