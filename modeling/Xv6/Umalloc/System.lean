import Xv6.Lib.Runs

/-!
The memory allocator of user programs (`user/umalloc.c`).

Free memory is kept as blocks, each headed by a 16-byte `Header` with a
pointer to the next free block and the size of the block in units of 16
bytes, header included. The blocks form a circle in the order of their
addresses that also runs through the static header `base`, and `freep`
points somewhere into it.

Memory is seen through the two fields of the header at an address:
`ptr a` and `size a`. Addresses are byte addresses, and pointer
arithmetic on `Header *` goes in steps of 16. A `size` is a `uint`, so a
sum of two sizes is reduced modulo `2 ^ 32`. The two search loops have
fuel; `none` is an answer still to come.
-/

namespace Xv6.Umalloc

open Lib

/-- The data of the allocator, and what `sbrk` has handed out so far. -/
structure Heap where
  /-- `a->s.ptr` -/
  ptr : ℕ → ℕ
  /-- `a->s.size` -/
  size : ℕ → ℕ
  /-- The static pointer; 0 before the first `malloc`. -/
  freep : ℕ
  /-- No address below `top` is still to be handed out by `sbrk`. -/
  top : ℕ
  /-- The regions returned by `sbrk`: first address and number of bytes. -/
  regions : List (ℕ × ℕ)
  /-- How often `sbrk` has failed. -/
  failures : ℕ

/-! ### free -/

/-- The loop of `free`: from `p` on, to the block after which `bp` belongs. -/
def findPrev (ptr : ℕ → ℕ) (bp : ℕ) : ℕ → ℕ → Option ℕ
  | 0, _ => none
  | fuel + 1, p =>
      if p < bp ∧ bp < ptr p then some p
      else if ptr p ≤ p ∧ (p < bp ∨ bp < ptr p) then some p
      else findPrev ptr bp fuel (ptr p)

/-- Join `bp` to its upper neighbour, or link it to it. -/
def coalesceUp (p bp : ℕ) (h : Heap) : Heap :=
  if bp + 16 * h.size bp = h.ptr p then
    { h with
      size := Function.update h.size bp ((h.size bp + h.size (h.ptr p)) % 2 ^ 32)
      ptr := Function.update h.ptr bp (h.ptr (h.ptr p)) }
  else
    { h with ptr := Function.update h.ptr bp (h.ptr p) }

/-- Join `bp` to its lower neighbour, or link it to it. -/
def coalesceDown (p bp : ℕ) (h : Heap) : Heap :=
  if p + 16 * h.size p = bp then
    { h with
      size := Function.update h.size p ((h.size p + h.size bp) % 2 ^ 32)
      ptr := Function.update h.ptr p (h.ptr bp) }
  else
    { h with ptr := Function.update h.ptr p bp }

def free (ap : ℕ) (fuel : ℕ) (h : Heap) : Option Heap :=
  let bp := ap - 16
  (findPrev h.ptr bp fuel h.freep).bind fun p =>
    some { coalesceDown p bp (coalesceUp p bp h) with freep := p }

/-! ### malloc -/

/-- The kernel's side of `sbrk`, as far as a program may rely on it: asked
for `n` bytes when everything below `top` is handed out or belongs to the
program, it fails or returns an aligned address that is not below `top`. -/
structure Sbrk where
  ask : ℕ → ℤ → Option ℕ
  fresh : ∀ {top n a}, ask top n = some a → 16 ∣ a ∧ top ≤ a

/-- The call `sbrk(n)`; the answer `none` is the pointer `-1`. Nothing is
assumed about arguments that are not positive. -/
def sbrk (os : Sbrk) (n : ℤ) (h : Heap) : Option (Option ℕ × Heap) :=
  if n ≤ 0 then none
  else
    match os.ask h.top n with
    | none => some (none, { h with failures := h.failures + 1 })
    | some a => some (some a,
        { h with top := a + n.toNat, regions := (a, n.toNat) :: h.regions })

/-- An `unsigned long` passed as an `int`. -/
def toInt (n : ℕ) : ℤ := Int.bmod n (2 ^ 32)

/-- `morecore` asks for no fewer units than this. -/
def atLeast (nu : ℕ) : ℕ := if nu < 4096 then 4096 else nu

def morecore (os : Sbrk) (nu : ℕ) (fuel : ℕ) (h : Heap) : Option (ℕ × Heap) :=
  let nu := atLeast nu
  (sbrk os (toInt (nu * 16)) h).bind fun
    | (none, h) => some (0, h)
    | (some hp, h) =>
        (free (hp + 16) fuel { h with size := Function.update h.size hp nu }).bind fun h =>
          some (h.freep, h)

/-- Serve the request from the block `p`, whose predecessor is `prevp`:
take the whole block out of the list, or cut off its tail. -/
def carve (nunits prevp p : ℕ) (h : Heap) : ℕ × Heap :=
  if h.size p = nunits then
    (p + 16, { h with ptr := Function.update h.ptr prevp (h.ptr p), freep := prevp })
  else
    let rest := h.size p - nunits
    let q := p + 16 * rest
    (q + 16,
      { h with size := Function.update (Function.update h.size p rest) q nunits, freep := prevp })

/-- The loop of `malloc`. -/
def mallocLoop (os : Sbrk) (nunits : ℕ) : ℕ → ℕ → ℕ → Heap → Option (ℕ × Heap)
  | 0, _, _, _ => none
  | fuel + 1, prevp, p, h =>
      if nunits ≤ h.size p then some (carve nunits prevp p h)
      else if p = h.freep then
        (morecore os nunits fuel h).bind fun
          | (p, h) => if p = 0 then some (0, h) else mallocLoop os nunits fuel p (h.ptr p) h
      else mallocLoop os nunits fuel p (h.ptr p) h

/-- The units of a request, header included. -/
def unitsFor (nbytes : ℕ) : ℕ := ((nbytes + 16 - 1) / 16 + 1) % 2 ^ 32

/-- The first call links `base` to itself. -/
def setup (base : ℕ) (h : Heap) : Heap :=
  if h.freep = 0 then
    { h with
      ptr := Function.update h.ptr base base
      freep := base
      size := Function.update h.size base 0 }
  else h

def malloc (base : ℕ) (os : Sbrk) (nbytes : ℕ) (fuel : ℕ) (h : Heap) : Option (ℕ × Heap) :=
  let h := setup base h
  mallocLoop os (unitsFor nbytes) fuel h.freep (h.ptr h.freep) h

/-! ### A program that uses the allocator -/

/-- The allocator, and the blocks the program holds: the address of the
header and the size recorded when the block was returned. -/
structure State where
  heap : Heap
  live : List (ℕ × ℕ)

inductive Act where
  | malloc (nbytes : ℕ) (os : Sbrk) (fuel : ℕ)
  /-- Free a block of the program. -/
  | free (ap : ℕ) (fuel : ℕ)
  /-- Store anything into 16 bytes that `malloc` returned. -/
  | store (a ptr size : ℕ)

/-- The 16 bytes at `a` belong to the payload of a block. -/
def Payload (live : List (ℕ × ℕ)) (a : ℕ) : Prop :=
  ∃ b ∈ live, b.1 + 16 ≤ a ∧ a < b.1 + 16 * b.2

instance (live : List (ℕ × ℕ)) (a : ℕ) : Decidable (Payload live a) :=
  inferInstanceAs (Decidable (∃ b ∈ live, b.1 + 16 ≤ a ∧ a < b.1 + 16 * b.2))

/-- The program frees only blocks it holds and stores only into their
payload. -/
def step (base : ℕ) (s : State) : Act → Option State
  | .malloc nbytes os fuel =>
      if nbytes ≤ 2 ^ 30 then
        (malloc base os nbytes fuel s.heap).map fun (r, h) =>
          { heap := h, live := if r = 0 then s.live else (r - 16, h.size (r - 16)) :: s.live }
      else none
  | .free ap fuel =>
      match s.live.find? (fun b => b.1 + 16 = ap) with
      | none => none
      | some b => (free ap fuel s.heap).map fun h => { heap := h, live := s.live.erase b }
  | .store a ptr size =>
      if 16 ∣ a ∧ Payload s.live a ∧ size < 2 ^ 32 then
        some { s with
          heap := { s.heap with
            ptr := Function.update s.heap.ptr a ptr, size := Function.update s.heap.size a size } }
      else none

/-- Before the first call: the static data is zero, and `sbrk` will return
only addresses above `base`. -/
def init (base : ℕ) : State where
  heap := { ptr := fun _ => 0, size := fun _ => 0, freep := 0, top := base + 16, regions := [],
            failures := 0 }
  live := []

end Xv6.Umalloc
