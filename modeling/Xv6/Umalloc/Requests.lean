import Xv6.Umalloc.Safety

/-!
What `malloc` asks the kernel for.

The units of a request are a `uint`, their number of bytes is an
`unsigned long`, and the argument of `sbrk` is an `int`. From almost 2 GiB
on it is not the number of bytes any more, but negative, zero or 16. The
kernel takes such arguments: it does not fail when it is asked for less than
one byte, and returns the end of the program as always. So `sbrk` is
described here for every argument, and the allocator is written over it.
-/

namespace Xv6.Umalloc

open Lib

/-! ### The code -/

/-- `sys_sbrk` with `growproc`. The program gets smaller by an argument that
is negative, if it is that large, and stays as it is otherwise; the answer
is the old end. -/
def sysSbrk (os : Sbrk) (n : ℤ) (h : Heap) : Option ℕ × Heap :=
  if 0 < n then
    match os.ask h.top n with
    | none => (none, { h with failures := h.failures + 1 })
    | some a => (some a, { h with top := a + n.toNat, regions := (a, n.toNat) :: h.regions })
  else
    (some h.top, { h with top := if 0 ≤ h.top + n then (h.top + n).toNat else h.top })

/-- The argument of `sbrk` for `nu` units. -/
def sbrkArg (nu : ℕ) : ℤ := toInt (atLeast nu * 16)

/-- A region of `n` bytes, with `nu` units in its header. -/
def region (os : Sbrk) (n : ℤ) (nu : ℕ) (h : Heap) : Option ℕ × Heap :=
  match sysSbrk os n h with
  | (none, h) => (none, h)
  | (some hp, h) => (some hp, { h with size := Function.update h.size hp nu })

/-- The first half of `morecore`. -/
def fetch (os : Sbrk) (nu : ℕ) (h : Heap) : Option ℕ × Heap :=
  region os (sbrkArg nu) (atLeast nu) h

/-- The second half: the region becomes a free block. -/
def release (fuel : ℕ) : Option ℕ × Heap → Option (ℕ × Heap)
  | (none, h) => some (0, h)
  | (some hp, h) => (free (hp + 16) fuel h).bind fun h => some (h.freep, h)

/-- `morecore`, whatever the argument of `sbrk` is. -/
def morecoreAny (os : Sbrk) (nu : ℕ) (fuel : ℕ) (h : Heap) : Option (ℕ × Heap) :=
  release fuel (fetch os nu h)

/-- The loop of `malloc`, given `morecore` for its number of units. -/
def searchLoop (more : ℕ → Heap → Option (ℕ × Heap)) (nunits : ℕ) :
    ℕ → ℕ → ℕ → Heap → Option (ℕ × Heap)
  | 0, _, _, _ => none
  | fuel + 1, prevp, p, h =>
      if nunits ≤ h.size p then some (carve nunits prevp p h)
      else if p = h.freep then
        (more fuel h).bind fun
          | (p, h) => if p = 0 then some (0, h) else searchLoop more nunits fuel p (h.ptr p) h
      else searchLoop more nunits fuel p (h.ptr p) h

/-- A request of any size. -/
def mallocAny (base : ℕ) (os : Sbrk) (nbytes : ℕ) (fuel : ℕ) (h : Heap) : Option (ℕ × Heap) :=
  let nunits := unitsFor nbytes
  let h := setup base h
  searchLoop (morecoreAny os nunits) nunits fuel h.freep (h.ptr h.freep) h

variable {os : Sbrk} {more : ℕ → Heap → Option (ℕ × Heap)} {base nbytes nunits p prevp fuel : ℕ} {h h' : Heap}

/-! ### Requests with a positive argument -/

theorem sbrk_eq {n : ℤ} (hn : 0 < n) : sbrk os n h = some (sysSbrk os n h) := by
  rw [sbrk, sysSbrk, if_neg (by omega), if_pos hn]
  cases os.ask h.top n <;> rfl

theorem release_region {n : ℤ} {nu : ℕ} (hn : 0 < n) :
    release fuel (region os n nu h) = (sbrk os n h).bind fun
      | (none, h) => some (0, h)
      | (some hp, h) =>
          (free (hp + 16) fuel { h with size := Function.update h.size hp nu }).bind fun h =>
            some (h.freep, h) := by
  rw [sbrk_eq hn, Option.bind_some, region]
  generalize sysSbrk os n h = v
  obtain ⟨_ | hp, h⟩ := v <;> rfl

theorem morecoreAny_eq (hpos : 0 < sbrkArg nunits) :
    morecoreAny os nunits fuel h = morecore os nunits fuel h :=
  release_region hpos

theorem searchLoop_morecore :
    searchLoop (morecore os nunits) nunits fuel prevp p h = mallocLoop os nunits fuel prevp p h := by
  induction fuel generalizing prevp p h with
  | zero => rfl
  | succ fuel ih => simp only [searchLoop, mallocLoop, ih]

theorem sbrkArg_eq (hn : atLeast nunits * 16 < 2 ^ 31) : sbrkArg nunits = (atLeast nunits * 16 : ℕ) :=
  toInt_eq hn

theorem toInt_lt (n : ℕ) : toInt n < 2 ^ 31 :=
  (Int.bmod_lt (Nat.two_pow_pos 32)).trans_eq (by norm_num)

theorem sbrkArg_ne (hn : 2 ^ 31 ≤ atLeast nunits * 16) :
    sbrkArg nunits ≠ (atLeast nunits * 16 : ℕ) := by
  intro heq
  have hlt := toInt_lt (atLeast nunits * 16)
  rw [← sbrkArg, heq] at hlt
  omega

/-- The largest request whose argument is a number of bytes. -/
theorem units_fit_iff (hn : nbytes < 2 ^ 32) :
    atLeast (unitsFor nbytes) * 16 < 2 ^ 31 ↔ nbytes ≤ 2 ^ 31 - 32 := by
  unfold atLeast unitsFor
  split <;> omega

theorem sbrkArg_pos (hn : nbytes ≤ 2 ^ 31 - 32) : 0 < sbrkArg (unitsFor nbytes) := by
  rw [sbrkArg_eq ((units_fit_iff (by omega)).mpr hn)]
  have := (le_atLeast (unitsFor nbytes)).2
  omega

/-- Up to there `malloc` is as it was described before. -/
theorem mallocAny_eq (hn : nbytes ≤ 2 ^ 31 - 32) :
    mallocAny base os nbytes fuel h = malloc base os nbytes fuel h := by
  have hmore : morecoreAny os (unitsFor nbytes) = morecore os (unitsFor nbytes) :=
    funext₂ fun _ _ => morecoreAny_eq (sbrkArg_pos hn)
  rw [mallocAny, malloc, hmore]
  exact searchLoop_morecore

/-! ### The calls of `morecore` -/

/-- The loop of `malloc`, at the block `p`, calls `morecore` when the heap
is the last argument. -/
inductive Asks (more : ℕ → Heap → Option (ℕ × Heap)) (nunits : ℕ) : ℕ → Heap → Heap → Prop
  | call {h : Heap} : h.size h.freep < nunits → Asks more nunits h.freep h h
  | next {p : ℕ} {h h' : Heap} : h.size p < nunits → p ≠ h.freep →
      Asks more nunits (h.ptr p) h h' → Asks more nunits p h h'
  /-- There was a call already, and there is still no block. -/
  | again {q : ℕ} {h h₁ h' : Heap} : h.size h.freep < nunits →
      Settles (fun fuel => more fuel h) (q, h₁) → q ≠ 0 →
      Asks more nunits (h₁.ptr q) h₁ h' → Asks more nunits h.freep h h'

/-- A call of `malloc` calls `morecore`. -/
def MallocAsks (os : Sbrk) (base nbytes : ℕ) (h h' : Heap) : Prop :=
  let nunits := unitsFor nbytes
  let h := setup base h
  Asks (morecoreAny os nunits) nunits (h.ptr h.freep) h h'

/-- What should come of it: the argument of `sbrk` is the number of bytes of
the new block, which is inside of what `sbrk` returns; or `malloc` returns
0. -/
structure Covered (os : Sbrk) (base nbytes : ℕ) (h h' : Heap) : Prop where
  block : ∀ hp t, fetch os (unitsFor nbytes) h' = (some hp, t) →
    sbrkArg (unitsFor nbytes) = (t.size hp * 16 : ℕ) ∧
      ∃ n, t.regions = (hp, n) :: h'.regions ∧ hp + t.size hp * 16 ≤ hp + n
  failed : ∀ t, fetch os (unitsFor nbytes) h' = (none, t) →
    Settles (fun fuel => mallocAny base os nbytes fuel h) (0, t)

variable {t : Heap}

/-- If a call returns 0, so does the loop. -/
theorem Asks.fails (hasks : Asks more nunits p h h') (hzero : ∀ fuel, more fuel h' = some (0, t)) :
    Settles (fun fuel => searchLoop more nunits fuel prevp p h) (0, t) := by
  induction hasks generalizing prevp with
  | call hsmall =>
      refine .succ rfl ?_
      simp only [searchLoop, if_neg (Nat.not_le.mpr hsmall), hzero, Option.bind_some, if_true]
      exact .pure _
  | next hsmall hne _ ih =>
      refine .succ rfl ?_
      simp only [searchLoop, if_neg (Nat.not_le.mpr hsmall), if_neg hne]
      exact ih hzero
  | again hsmall hmore hq _ ih =>
      refine .succ rfl ?_
      simp only [searchLoop, if_neg (Nat.not_le.mpr hsmall), if_true]
      refine hmore.bind ?_
      simp only [if_neg hq]
      exact ih hzero

theorem region_size {n : ℤ} {nu hp : ℕ} (h' : region os n nu h = (some hp, t)) :
    t.size hp = nu := by
  rw [region] at h'
  generalize sysSbrk os n h = v at h'
  obtain ⟨_ | a, s⟩ := v
  · cases h'
  · cases h'
    exact Function.update_self ..

theorem region_bytes {n nu hp : ℕ} (hn : 0 < n)
    (h' : region os n nu h = (some hp, t)) : t.regions = (hp, n) :: h.regions := by
  rw [region, sysSbrk, if_pos (by omega)] at h'
  generalize os.ask h.top n = a at h'
  cases a with
  | none => cases h'
  | some a =>
      cases h'
      rfl

theorem fetch_size {hp : ℕ} (h' : fetch os nunits h = (some hp, t)) : t.size hp = atLeast nunits :=
  region_size h'

theorem fetch_bytes {hp : ℕ} (hfit : atLeast nunits * 16 < 2 ^ 31)
    (h' : fetch os nunits h = (some hp, t)) :
    t.regions = (hp, atLeast nunits * 16) :: h.regions := by
  rw [fetch, sbrkArg_eq hfit] at h'
  exact region_bytes (Nat.mul_pos (le_atLeast nunits).2 (by decide)) h'

theorem morecoreAny_none (h' : fetch os nunits h = (none, t)) :
    morecoreAny os nunits fuel h = some (0, t) := by
  rw [morecoreAny, h', release]

/-- Every call of `morecore` by `malloc` is as it should be exactly if the
request is not larger than this, or the kernel has no memory. -/
theorem malloc_covered_iff (os : Sbrk) (base : ℕ) (h : Heap) (hn : nbytes < 2 ^ 32) :
    (∀ h', MallocAsks os base nbytes h h' → Covered os base nbytes h h') ↔
      nbytes ≤ 2 ^ 31 - 32 ∨
        ∀ h', MallocAsks os base nbytes h h' → (fetch os (unitsFor nbytes) h').1 = none := by
  constructor
  · intro hall
    refine or_iff_not_imp_left.mpr fun hlarge h' hasks => ?_
    have hblock := (hall h' hasks).block
    rcases hf : fetch os (unitsFor nbytes) h' with ⟨_ | hp, t⟩
    · rfl
    · obtain ⟨harg, -⟩ := hblock hp t hf
      rw [fetch_size hf] at harg
      have hbig : 2 ^ 31 ≤ atLeast (unitsFor nbytes) * 16 := by
        have := mt (units_fit_iff hn).mp hlarge
        omega
      exact absurd harg (sbrkArg_ne hbig)
  · intro hcond h' hasks
    refine ⟨fun hp t hf => ?_, fun t hf => Asks.fails hasks fun fuel => morecoreAny_none hf⟩
    rcases hcond with hfit | hnone
    · have hfit := (units_fit_iff hn).mpr hfit
      rw [fetch_size hf]
      exact ⟨sbrkArg_eq hfit, _, fetch_bytes hfit hf, le_rfl⟩
    · have := hnone h' hasks
      rw [hf] at this
      cases this

/-- The first call of `malloc` asks the kernel. -/
theorem asks_first (os : Sbrk) (hn : 0 < unitsFor nbytes) :
    MallocAsks os 1000 nbytes (init 1000).heap (setup 1000 (init 1000).heap) :=
  let h := setup 1000 (init 1000).heap
  have hsmall : h.size h.freep < unitsFor nbytes := hn
  Asks.call hsmall

/-- A request for 100 bytes when nothing has been allocated. -/
theorem malloc_covered_first :
    Covered generous 1000 100 (init 1000).heap (setup 1000 (init 1000).heap) :=
  (malloc_covered_iff generous 1000 (init 1000).heap (by decide)).mpr (.inl (by decide)) _
    (asks_first generous (by decide))

/-- For the largest `uint` the kernel is asked for 16 bytes, and the block
that `malloc` returns has the size of more than 4 GiB in its header. -/
theorem malloc_claims_too_much :
    (∃ h', MallocAsks generous 1000 (2 ^ 32 - 1) (init 1000).heap h' ∧
      ¬ Covered generous 1000 (2 ^ 32 - 1) (init 1000).heap h') ∧
    (mallocAny 1000 generous (2 ^ 32 - 1) 10 (init 1000).heap).map
      (fun v => (v.1, v.2.size (v.1 - 16), v.2.regions)) =
        some (1040, 2 ^ 28 + 1, [(1024, 16)]) := by
  refine ⟨⟨_, asks_first generous (by decide +kernel), fun hcov => ?_⟩, by decide +kernel⟩
  have hsome : (fetch generous (unitsFor (2 ^ 32 - 1)) (setup 1000 (init 1000).heap)).1 =
      some 1024 := by decide +kernel
  have hf := Prod.ext_iff.mpr ⟨hsome, rfl⟩
  obtain ⟨harg, -⟩ := hcov.block _ _ hf
  rw [fetch_size hf] at harg
  exact absurd harg (sbrkArg_ne (by decide +kernel))

end Xv6.Umalloc
