import Xv6.Umalloc.Malloc

/-!
A program that allocates and frees.

Whatever the program asks for and frees, and whatever it stores into its
own blocks, the free list stays a sorted circle of blocks that are not
adjacent, no two blocks overlap, and every call returns.
-/

namespace Xv6.Umalloc

open Lib

variable {base : ℕ} {s t : State}

/-- Before the first `malloc` there is nothing; after it the list is
ready. -/
def Inv (base : ℕ) (s : State) : Prop :=
  (s.heap.freep = 0 ∧ s.live = [] ∧ s.heap.regions = [] ∧ base + 16 ≤ s.heap.top) ∨
    ∃ ring, Ready base s.heap ring s.live

variable {h : Heap}

theorem ready_setup (h0 : h.freep = 0) (hreg : h.regions = [])
    (htop : base + 16 ≤ h.top) : Ready base (setup base h) [base] [] := by
  have hsetup : setup base h = { h with
      ptr := Function.update h.ptr base base
      freep := base
      size := Function.update h.size base 0 } := if_pos h0
  rw [hsetup]
  refine ⟨⟨Function.update_self .., List.pairwise_singleton .., by simp, Function.update_self ..,
    ⟨List.pairwise_singleton .., fun b hb => ?_⟩, by simp, by simp [hreg], htop⟩, by simp, ?_⟩
  · simp only [blocks, List.map_cons, List.map_nil, List.append_nil, List.mem_singleton,
      Function.update_self] at hb
    subst hb
    refine ⟨fun y hy hfin => ⟨(base, 16), by simp, hy, ?_⟩, fun hne => absurd rfl hne,
      Nat.two_pow_pos 32⟩
    unfold finish at hfin
    simpa using hfin
  · rintro a ha b hb ⟨hne, -⟩
    rw [List.mem_singleton.mp ha, List.mem_singleton.mp hb] at hne
    exact hne rfl

/-- The list is ready once `malloc` has looked at `freep`. -/
theorem Inv.setup (hinv : Inv base s) (hbase : 0 < base) :
    (setup base s.heap).failures = s.heap.failures ∧
      ∃ ring, Ready base (setup base s.heap) ring s.live := by
  rcases hinv with ⟨h0, hlive, hreg, htop⟩ | ⟨ring, hr⟩
  · refine ⟨?_, [base], ?_⟩
    · rw [Umalloc.setup, if_pos h0]
    · rw [hlive]
      exact ready_setup h0 hreg htop
  · rw [Umalloc.setup, if_neg (hr.freep_ne hbase)]
    exact ⟨rfl, ring, hr⟩

theorem units_le {nbytes : ℕ} (hn : nbytes ≤ 2 ^ 30) :
    1 ≤ unitsFor nbytes ∧ unitsFor nbytes ≤ 2 ^ 26 + 1 ∧ nbytes ≤ 16 * (unitsFor nbytes - 1) := by
  unfold unitsFor
  omega

theorem Inv.malloc (hinv : Inv base s) (hbase : 0 < base) (os : Sbrk) {nbytes : ℕ}
    (hn : nbytes ≤ 2 ^ 30) : ∃ v, Settles (fun n => malloc base os nbytes n s.heap) v ∧
      Served base s.heap s.live (unitsFor nbytes) v := by
  obtain ⟨hfail, ring, hr⟩ := hinv.setup hbase
  obtain ⟨h1, hle, -⟩ := units_le hn
  obtain ⟨v, hv, hfailed, hfound⟩ := hr.mallocLoop hbase os h1 hle
  rw [hfail] at hfailed hfound
  exact ⟨v, hv, hfailed, hfound⟩

variable {live : List (ℕ × ℕ)}

/-- The size of the block `malloc` returned is in its header. -/
theorem Served.size {nunits : ℕ} {v : ℕ × Heap}
    (hs : Served base h live nunits v) (h0 : v.1 ≠ 0) : v.2.size (v.1 - 16) = nunits := by
  obtain ⟨-, ring, hr⟩ := hs.found h0
  exact (hr.recorded _ (List.mem_cons_self ..)).1

theorem Ready.perm {ring : List ℕ} {live' : List (ℕ × ℕ)}
    (hr : Ready base h ring live) (hp : live.Perm live') : Ready base h ring live' where
  loop := hr.loop
  sorted := hr.sorted
  base_mem := hr.base_mem
  base_size := hr.base_size
  layout := hr.layout.perm (hp.append_left _)
  recorded b hb := hr.recorded b (hp.mem_iff.mpr hb)
  regions := hr.regions
  top := hr.top
  entry := hr.entry
  gaps := hr.gaps

/-- A block of the program, freed. -/
theorem Inv.free (hinv : Inv base s) {b : ℕ × ℕ} (hb : b ∈ s.live) :
    ∃ h ring, Settles (fun n => free (b.1 + 16) n s.heap) h ∧
      Ready base h ring (s.live.erase b) := by
  rcases hinv with ⟨-, hlive, -⟩ | ⟨ring, hr⟩
  · rw [hlive] at hb
    cases hb
  · obtain ⟨h, ring', hset, hr', -⟩ := (hr.perm (List.perm_cons_erase hb)).free
    exact ⟨h, ring', hset, hr'⟩

/-- The program stores into its own memory. -/
theorem Ready.store {ring : List ℕ} {a ptr size : ℕ}
    (hr : Ready base h ring live) (ha : Payload live a) :
    Ready base
      { h with ptr := Function.update h.ptr a ptr, size := Function.update h.size a size }
      ring live := by
  obtain ⟨b, hb, hlo, hhi⟩ := ha
  have hfin : a < finish b := by
    unfold finish
    omega
  have hapart : ∀ c ∈ blocks h.size ring live, c ≠ b → c.1 ≠ a := by
    intro c hc hcb
    have hbmem : b ∈ blocks h.size ring live := mem_blocks.mpr (.inr hb)
    have hc16 := lt_finish c
    have : Std.Symm Apart := ⟨fun _ _ => Apart.symm⟩
    rcases hr.layout.apart.forall hc hbmem hcb with hle | hle
    · omega
    · omega
  have hring : ∀ c ∈ ring, c ≠ a := by
    intro c hc
    refine hapart (c, h.size c) (free_mem_blocks hc) fun heq => ?_
    exact hr.live_ne hb hc (by rw [← heq])
  have hlive : ∀ c ∈ live, c.1 ≠ a := by
    intro c hc
    by_cases hcb : c = b
    · rw [hcb]
      omega
    · exact hapart c (mem_blocks.mpr (.inr hc)) hcb
  refine ⟨hr.congr (fun c hc => Function.update_of_ne (hring c hc) ..)
    (fun c hc => Function.update_of_ne (hring c hc) ..)
    (fun c hc => Function.update_of_ne (hlive c hc) ..) rfl rfl, hr.entry, ?_⟩
  rintro c hc d hd ⟨hne, hcd⟩
  simp only [Function.update_of_ne (hring c hc)] at hcd
  exact hr.gaps c hc d hd ⟨hne, hcd⟩

theorem Inv.step {a : Act} (hinv : Inv base s) (hbase : 0 < base)
    (hstep : step base s a = some t) : Inv base t := by
  cases a with
  | malloc nbytes os fuel =>
      simp only [Umalloc.step, Option.ite_none_right_eq_some, Option.map_eq_some_iff] at hstep
      obtain ⟨hn, ⟨r, h⟩, hres, rfl⟩ := hstep
      obtain ⟨v, hv, hserved⟩ := hinv.malloc hbase os hn
      obtain rfl := hv.eq_of_some hres
      by_cases h0 : r = 0
      · simp only [h0, if_true]
        exact .inr (hserved.failed h0).2
      · simp only [h0, if_false]
        rw [hserved.size h0]
        exact .inr (hserved.found h0).2
  | free ap fuel =>
      simp only [Umalloc.step] at hstep
      split at hstep
      · cases hstep
      · rename_i b hfind
        obtain ⟨h, hres, rfl⟩ := Option.map_eq_some_iff.mp hstep
        have hb := List.mem_of_find?_eq_some hfind
        have hap : b.1 + 16 = ap := by simpa using List.find?_some hfind
        obtain ⟨h', ring, hset, hr⟩ := hinv.free hb
        rw [hap] at hset
        obtain rfl := hset.eq_of_some hres
        exact .inr ⟨ring, hr⟩
  | store a ptr size =>
      simp only [Umalloc.step, Option.ite_none_right_eq_some, Option.some.injEq] at hstep
      obtain ⟨⟨-, hpay, -⟩, rfl⟩ := hstep
      rcases hinv with ⟨-, hlive, -⟩ | ⟨ring, hr⟩
      · obtain ⟨b, hb, -⟩ := hpay
        rw [hlive] at hb
        cases hb
      · exact .inr ⟨ring, hr.store hpay⟩

theorem inv_of_run {acts : List Act} (hbase : 0 < base)
    (hrun : run (step base) (init base) acts = some s) : Inv base s :=
  invariant' (fun hinv hstep => hinv.step hbase hstep) (.inl ⟨rfl, rfl, rfl, Nat.le_refl _⟩) hrun

/-! ### The allocator in every run -/

/-- The list begins with `base`. -/
theorem Ready.eq_cons {ring : List ℕ} (hr : Ready base h ring live) : ∃ l, ring = base :: l := by
  cases ring with
  | nil => exact absurd hr.base_mem (List.not_mem_nil)
  | cons x l =>
      refine ⟨l, ?_⟩
      rcases List.mem_cons.mp hr.base_mem with rfl | hmem
      · rfl
      · have := (List.pairwise_cons.mp hr.sorted).1 base hmem
        have := hr.base_le (List.mem_cons_self ..)
        omega

/-- Apart from `base` itself, blocks lie in memory obtained from `sbrk`. -/
theorem Ready.obtained {l : List ℕ} (hr : Ready base h (base :: l) live) :
    (blocks h.size l live).Pairwise Apart ∧ ∀ b ∈ blocks h.size l live, ∀ y, b.1 ≤ y →
      y < finish b → Obtained h.regions y := by
  obtain ⟨hapart, -, hlay⟩ := Layout.cons.mp hr.layout
  refine ⟨hlay.apart, fun b hb y hy hfin => ?_⟩
  obtain ⟨r, hmem, hlo, hhi⟩ := (hlay.placed b hb).inside y hy hfin
  rcases List.mem_cons.mp hmem with rfl | hmem
  · -- a byte of the static header is in no other block
    have hle := (hlay.placed b hb).base_le fun r hr' => (hr.regions r hr').1
    have hb16 := lt_finish (base, h.size base)
    rcases hapart b hb with hlt | hlt
    · have hlt : finish (base, h.size base) ≤ b.1 := hlt
      simp only at hb16 hhi
      omega
    · have := lt_finish b
      simp only at hlt
      omega
  · exact ⟨r, hmem, hlo, hhi⟩

/-- Whatever a program has allocated, freed and stored into its blocks: the
list through `freep` is a circle of `base` and the free blocks, each
once, ascending from `base` on with one link back down; no free block
ends where another starts; the free blocks and the blocks of the program
do not overlap and lie in memory obtained from `sbrk`; both loops end;
and `malloc` returns 0 only after a failure of `sbrk`, otherwise a block
with room for the bytes asked for. -/
theorem allocator_sound {acts : List Act} (hbase : 0 < base)
    (hrun : run (step base) (init base) acts = some s) :
    (s.heap.freep = 0 → s.live = [] ∧ s.heap.regions = []) ∧
    (s.heap.freep ≠ 0 → ∃ l,
      Loop s.heap.ptr (base :: l) ∧ (base :: l).Pairwise (· < ·) ∧ s.heap.freep ∈ base :: l ∧
      (∀ a ∈ l, ∀ b ∈ l, ¬ Touches s.heap.size a b) ∧
      (blocks s.heap.size l s.live).Pairwise Apart ∧
      ∀ b ∈ blocks s.heap.size l s.live, ∀ y, b.1 ≤ y → y < finish b →
        Obtained s.heap.regions y) ∧
    (∀ nbytes ≤ 2 ^ 30, ∀ os, ∃ r h, Settles (fun n => malloc base os nbytes n s.heap) (r, h) ∧
      (r = 0 → h.failures = s.heap.failures + 1) ∧
      (r ≠ 0 → h.failures = s.heap.failures ∧ nbytes ≤ 16 * (h.size (r - 16) - 1))) ∧
    ∀ b ∈ s.live, ∃ h, Settles (fun n => free (b.1 + 16) n s.heap) h := by
  have hinv := inv_of_run hbase hrun
  refine ⟨fun h0 => ?_, fun hne => ?_, fun nbytes hn os => ?_, fun b hb => ?_⟩
  · rcases hinv with ⟨-, hlive, hreg, -⟩ | ⟨ring, hr⟩
    · exact ⟨hlive, hreg⟩
    · exact absurd h0 (hr.freep_ne hbase)
  · rcases hinv with ⟨h0, -⟩ | ⟨ring, hr⟩
    · exact absurd h0 hne
    · obtain ⟨l, rfl⟩ := hr.eq_cons
      obtain ⟨hapart, hobt⟩ := hr.obtained
      refine ⟨l, hr.loop, hr.sorted, hr.entry, fun a ha b hb => ?_, hapart, hobt⟩
      exact hr.gaps a (List.mem_cons_of_mem base ha) b (List.mem_cons_of_mem base hb)
  · obtain ⟨⟨r, h⟩, hset, hserved⟩ := hinv.malloc hbase os hn
    refine ⟨r, h, hset, fun h0 => (hserved.failed h0).1, fun h0 => ⟨(hserved.found h0).1, ?_⟩⟩
    rw [hserved.size h0]
    exact (units_le hn).2.2
  · obtain ⟨h, -, hset, -⟩ := hinv.free hb
    exact ⟨h, hset⟩

/-- An `sbrk` that always succeeds. -/
def generous : Sbrk where
  ask top _ := some ((top + 15) / 16 * 16)
  fresh h := by
    cases h
    omega

/-- Three blocks are allocated, one written to, and two freed in turn. -/
def threeBlocks : List Act :=
  [.malloc 100 generous 10, .malloc 5000 generous 10, .malloc 70000 generous 10,
   .store 61424 7 9, .free 66448 10, .free 61424 10]

theorem allocator_sound_threeBlocks : ∃ s, run (step 1000) (init 1000) threeBlocks = some s ∧
    s.live.length = 1 ∧ s.heap.freep ≠ 0 ∧
    ∀ b ∈ s.live, ∃ h, Settles (fun n => free (b.1 + 16) n s.heap) h := by
  obtain ⟨s, hs⟩ := Option.isSome_iff_exists.mp
    (by decide +kernel : (run (step 1000) (init 1000) threeBlocks).isSome = true)
  have hsome : (run (step 1000) (init 1000) threeBlocks).map
      (fun s => (s.live.length, s.heap.freep)) = some (1, 1024) := by decide +kernel
  rw [hs, Option.map_some, Option.some.injEq, Prod.mk.injEq] at hsome
  refine ⟨s, hs, hsome.1, by omega, (allocator_sound (by decide) hs).2.2.2⟩

end Xv6.Umalloc
