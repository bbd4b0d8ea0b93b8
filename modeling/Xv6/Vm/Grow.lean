import Xv6.Vm.Copy
import Xv6.Vm.Process

/-!
Growing and shrinking the memory of a process: `uvmalloc`, `growproc` and
`sys_sbrk`.

A call of `uvmalloc` may fail in any of its rounds, for the page itself or
for a page-table page on the way to its entry. It then unmaps and frees what
the earlier rounds have mapped. The page-table pages that have been linked in
by then stay; they map nothing, and are freed with the table.
-/

namespace Xv6.Vm

open Lib Prog

variable {C : Config} {s t : Phys} {A A' : View} {r v n x p oldsz newsz : ℕ}

/-! ### Every call of `uvmalloc` ends -/

theorem served_uvmdealloc : served (uvmdealloc C r oldsz newsz) (fun _ _ => True) s := by
  rw [uvmdealloc]
  refine served_ite (fun _ => trivial) fun _ => ?_
  refine served_ite (fun _ => ?_) fun _ => trivial
  rw [served_bind]
  exact served_mono served_uvmunmap fun _ _ _ => trivial

/-- A round takes at most three pages. -/
theorem served_uvmallocLoop (hv : v + n ≤ maxPage) (h : Supplied C s (3 * n)) :
    served (uvmallocLoop C r p n (v * pgsize)) (fun _ _ => True) s := by
  induction n generalizing s v with
  | zero => trivial
  | succ n ih =>
      rw [uvmallocLoop_succ, served_bind]
      refine served_addPage (k := 3 * n) (by omega) (fun pg s₁ => ⟨_, rfl⟩)
        (h.mono (by omega)) fun b t ht => ?_
      refine served_ite (fun _ => ?_) fun _ => ?_
      · rw [show v * pgsize + pgsize = (v + 1) * pgsize by simp only [pgsize]; omega]
        exact ih (by omega) ht
      · rw [served_bind]
        exact served_mono served_uvmdealloc fun _ _ _ => trivial

theorem pages_le_trapframe (h : newsz ≤ trapframeVa) : pages newsz ≤ trapframePage := by
  simp only [trapframeVa, trampolineVa, maxva, pgsize, pages, trapframePage] at h ⊢
  omega

/-- The rounds of `uvmalloc` are below the trapframe. -/
theorem uvmalloc_rounds (htop : newsz ≤ trapframeVa) (hle : oldsz ≤ newsz) :
    pgroundup oldsz = pages oldsz * pgsize ∧
      pagesBelow (pages oldsz * pgsize) newsz = pages newsz - pages oldsz ∧
      pages oldsz + (pages newsz - pages oldsz) ≤ maxPage := by
  have hpages := pages_le_trapframe htop
  have hmax : maxPage = trapframePage + 2 := by decide
  have hbound : trapframeVa ≤ 2 ^ 63 := by decide
  have hmono : pages oldsz ≤ pages newsz := pages_mono hle
  refine ⟨pgroundup_eq (by omega), ?_, by omega⟩
  simp only [pagesBelow, pages, pgsize]
  omega

theorem served_uvmalloc (htop : newsz ≤ trapframeVa)
    (h : Supplied C s (3 * (pages newsz - pages oldsz))) :
    served (uvmalloc C r oldsz newsz) (fun _ _ => True) s := by
  rw [uvmalloc]
  refine served_ite (fun _ => trivial) fun hle => ?_
  obtain ⟨hround, hrounds, hmax⟩ := uvmalloc_rounds htop (Nat.le_of_not_lt hle)
  rw [served_bind, hround, hrounds]
  refine served_mono (served_uvmallocLoop hmax h) fun ok t _ => ?_
  exact served_ite (fun _ => trivial) fun _ => trivial

/-! ### Growing while there is memory -/

/-- No call of `kalloc` will fail. -/
def Full (s : Phys) : Prop := ∀ a ∈ s.supply, a ≠ none

/-- The user memory is that of size `newsz`, and what is new in it is zero
and in fresh pages. -/
structure Grown (C : Config) (r oldsz newsz : ℕ) (s t : Phys) : Prop where
  mapped : ∀ va < trapframeVa, translate C t r va ≠ none ↔ va < pgroundup newsz
  old : ∀ va < pgroundup oldsz, translate C t r va = translate C s r va
  fresh : ∀ va, pgroundup oldsz ≤ va → va < pgroundup newsz → ∃ pg flags,
    translate C t r va = some (pg, flags) ∧ pg ∉ s.used ∧ t.mem pg = fun _ => 0
  distinct : ∀ va < trapframeVa, ∀ va' < trapframeVa, ∀ pg f f', translate C t r va = some (pg, f) →
    translate C t r va' = some (pg, f') → va / pgsize = va' / pgsize

/-- Every address translates as before, the user pages are still in use, and
what has been allocated and not freed again are page-table pages. -/
structure NotGrown (C : Config) (r : ℕ) (s t : Phys) : Prop where
  same : ∀ va < maxva, translate C t r va = translate C s r va
  kept : ∀ va < trapframeVa, ∀ pg f, translate C s r va = some (pg, f) → pg ∈ t.used
  freed : ∀ x ∈ t.used, x ∉ s.used → ∃ d n, d ≤ 2 ∧ pageAt t r d n = some x

theorem user_va {va : ℕ} (h : va < trapframeVa) : va < maxva ∧ va / pgsize < trapframePage := by
  simp only [trapframeVa, trampolineVa, maxva, pgsize, trapframePage] at h ⊢
  omega

/-- A user address leads to the page that is owned for it. -/
theorem Rep.frame_of_translate {va pg f : ℕ} (h : Rep C s A)
    (hr : A.owner r = some (.table r 2 0)) (hva : va < trapframeVa)
    (htrans : translate C s r va = some (pg, f)) : A.owner pg = some (.frame r (va / pgsize)) := by
  rw [h.toTree.translate_eq hr (user_va hva).1, Option.map_eq_some_iff] at htrans
  obtain ⟨w, hw, hread⟩ := htrans
  exact h.frame_iff.mpr ⟨(user_va hva).2, w, hw, congrArg Prod.fst hread⟩

theorem Rep.used_of_translate {va pg f : ℕ} (h : Rep C s A)
    (hr : A.owner r = some (.table r 2 0)) (hva : va < trapframeVa)
    (htrans : translate C s r va = some (pg, f)) : pg ∈ s.used := by
  rw [h.used_iff, h.frame_of_translate hr hva htrans]
  rfl

theorem Change.notGrown (hchange : Change r A A' s t) (h : Rep C s A) (ht : Rep C t A')
    (hr : A.owner r = some (.table r 2 0)) (hr' : A'.owner r = some (.table r 2 0))
    (hmaps : A'.maps r = A.maps r) : NotGrown C r s t := by
  have hsame : ∀ va < maxva, translate C t r va = translate C s r va := by
    intro va hva
    rw [ht.toTree.translate_eq hr' hva, h.toTree.translate_eq hr hva, hmaps]
  refine ⟨hsame, fun va hva pg f htrans => ?_, fun x hx hxs => ?_⟩
  · rw [← hsame va (user_va hva).1] at htrans
    exact ht.used_of_translate hr' hva htrans
  · obtain ⟨o, ho⟩ := Option.isSome_iff_exists.mp ((ht.used_iff x).mp hx)
    have hof : o.Of r := by
      by_contra hof
      exact hxs ((h.used_iff x).mpr (by simp [(hchange.owner hof).mp ho]))
    rcases (ht.inTable_iff hr').mpr ⟨o, ho, hof⟩ with hpage | ⟨va, flags, hva, htrans⟩
    · exact hpage
    · rw [hsame va (user_va hva).1] at htrans
      exact absurd (h.used_of_translate hr hva htrans) hxs

/-- `uvmalloc` from `oldsz` to a size that is not smaller. -/
theorem wp_uvmalloc_outcome (h : Rep C s A) (hr : A.owner r = some (.table r 2 0))
    (hsz : Sized A r oldsz) (hle : oldsz ≤ newsz) :
    wp (uvmalloc C r oldsz newsz) (fun ret t => ∃ A', Rep C t A' ∧
      A'.owner r = some (.table r 2 0) ∧
      (ret = newsz ∧ Sized A' r newsz ∧ Grown C r oldsz newsz s t ∨
        ret = 0 ∧ A'.maps r = A.maps r ∧ NotGrown C r s t)) s := by
  refine wp_uvmalloc_rep h hr hsz (fun hlt => absurd hle (Nat.not_le.mpr hlt))
    (fun t A' _ ht hchange hr' hmaps _ => ?_) fun t A' _ ht hext hsz' hold hnew => ?_
  · exact ⟨A', ht, hr', .inr ⟨rfl, hmaps, hchange.notGrown h ht hr hr' hmaps⟩⟩
  have hr' := hext.keep hr
  have hold63 : oldsz ≤ 2 ^ 63 := (hsz.le h).trans (by decide)
  have hnew63 : newsz ≤ 2 ^ 63 := (hsz'.le ht).trans (by decide)
  have hpages := hsz'.pages_le ht
  have hmono : pages oldsz ≤ pages newsz := pages_mono hle
  refine ⟨A', ht, hr', .inl ⟨rfl, hsz', ?_⟩⟩
  constructor
  · intro va hva
    rw [ht.toTree.translate_eq hr' (user_va hva).1, ne_eq, Option.map_eq_none_iff,
      pgroundup_eq hnew63, ← Nat.div_lt_iff_lt_mul (by decide)]
    exact hsz' _ (user_va hva).2
  · intro va hva
    rw [pgroundup_eq hold63, ← Nat.div_lt_iff_lt_mul (by decide)] at hva
    have hmax : va < maxva := by
      simp only [pgsize, maxva] at hva ⊢
      omega
    rw [ht.toTree.translate_eq hr' hmax, h.toTree.translate_eq hr hmax, hold _ (by omega)]
  · intro va hlo hhi
    rw [pgroundup_eq hold63, ← Nat.le_div_iff_mul_le (by decide)] at hlo
    rw [pgroundup_eq hnew63, ← Nat.div_lt_iff_lt_mul (by decide)] at hhi
    have hmax : va < maxva := by
      simp only [pgsize, maxva] at hhi ⊢
      omega
    obtain ⟨pg, hpg, halign, hzero, hmap⟩ := hnew _ hlo hhi
    refine ⟨pg, userPerm ||| pteV, ?_, ?_, hzero⟩
    · rw [ht.toTree.translate_eq hr' hmax, hmap, Option.map_some]
      exact congrArg some (reading_leafWord halign (by decide))
    · rw [h.used_iff, hpg]
      exact Bool.false_ne_true
  · intro va hva va' hva' pg f f' htrans htrans'
    have hframe := (ht.frame_of_translate hr' hva htrans).symm.trans
      (ht.frame_of_translate hr' hva' htrans')
    exact (Owner.frame.inj (Option.some.inj hframe)).2

/-! ### `growproc` -/

variable {K : Kernel} {i ret : ℕ} {d : ℤ}

/-- The sum of a size and an increment that stays in the range of the size. -/
theorem addInt_eq {sz : ℕ} (h : (sz : ℤ) + d = newsz) (hlt : newsz < 2 ^ 32) :
    addInt sz d = newsz := by
  rw [addInt, h]
  omega

/-- A failing `uvmalloc` is all that `growproc` has done. -/
theorem growproc_fails (hroot : (K.proc i).pagetable = some r) (hsz : (K.proc i).sz < 2 ^ 32)
    (hpos : 0 < d) (hsum : addInt (K.proc i).sz d = newsz)
    (hrun : uvmalloc C r (K.proc i).sz newsz K.phys = .ok 0 t) :
    growproc C i d K = .ok false { K with phys := t } := by
  have hmod : (K.proc i).sz % 2 ^ 32 = (K.proc i).sz := Nat.mod_eq_of_lt hsz
  simp only [growproc, getProc, deref, vm, bind, Prog.bind, pure, Prog.pure, Prog.get, zoom, hroot,
    hmod, hsum, hpos, if_true, hrun, Nat.zero_mod]

/-- A table that translates as it did when it was well formed can be given
back with the size that it had. -/
theorem procFreepagetable_ends (h : Rep C s A) (hr : A.owner r = some (.table r 2 0))
    (hsz : Sized A r oldsz) (htrampoline : A.maps r trampolinePage ≠ none)
    (htrapframe : A.maps r trapframePage ≠ none) :
    ∃ t, procFreepagetable C r oldsz s = .ok () t := by
  have hwp : wp (procFreepagetable C r oldsz) (fun _ _ => True) s := by
    by_cases hzero : oldsz = 0
    · subst hzero
      exact wp_procFreepagetable_user h hr htrampoline htrapframe fun _ _ _ _ _ _ _ => trivial
    · exact wp_procFreepagetable h hr hsz (Nat.pos_of_ne_zero hzero) htrampoline htrapframe
        fun _ _ _ _ _ => trivial
  obtain ⟨_, t, hrun, -, -⟩ := exists_of_served hwp served_procFreepagetable
  exact ⟨t, hrun⟩

/-- What follows a call of `uvmalloc` that has returned 0: `growproc` leaves
the process as it was, and the table can be freed with the old size. -/
structure Recovers (C : Config) (r oldsz newsz : ℕ) (s t : Phys) : Prop where
  growproc : ∀ (K : Kernel) (i : ℕ) (d : ℤ), K.phys = s → (K.proc i).pagetable = some r →
    (K.proc i).sz = oldsz → 0 < d → d < 2 ^ 31 → (oldsz : ℤ) + d = newsz →
    growproc C i d K = .ok false { K with phys := t }
  free : translate C s r trampolineVa ≠ none → translate C s r trapframeVa ≠ none →
    ∃ u, procFreepagetable C r oldsz t = .ok () u

/-- `uvmalloc` has done all of its work or none of it, whatever `kalloc`
answers. -/
theorem uvmalloc_all_or_nothing (h : Rep C s A) (hr : A.owner r = some (.table r 2 0))
    (hsz : Sized A r oldsz) (hle : oldsz ≤ newsz) (htop : newsz ≤ trapframeVa)
    (hsupply : Supplied C s (3 * pages newsz)) :
    ∃ ret t, uvmalloc C r oldsz newsz s = .ok ret t ∧
      (ret = newsz ∧ Grown C r oldsz newsz s t ∨
        ret = 0 ∧ NotGrown C r s t ∧ Recovers C r oldsz newsz s t) := by
  obtain ⟨ret, t, hrun, ⟨A', ht, hr', hout⟩, -⟩ :=
    exists_of_served (wp_uvmalloc_outcome h hr hsz hle) (served_uvmalloc htop (hsupply.mono (Nat.mul_le_mul_left 3 (Nat.sub_le _ _))))
  refine ⟨ret, t, hrun, ?_⟩
  rcases hout with ⟨hret, -, hgrown⟩ | ⟨rfl, hmaps, hnot⟩
  · exact .inl ⟨hret, hgrown⟩
  have hbound := hsz.le h
  refine .inr ⟨rfl, hnot, ?_, fun htrampoline htrapframe => ?_⟩
  · rintro K i d rfl hroot rfl hpos hlt hsum
    have hnew : newsz < 2 ^ 32 := by omega
    exact growproc_fails hroot (by omega) hpos (addInt_eq hsum hnew) hrun
  · rw [h.toTree.translate_eq hr (by decide), ne_eq, Option.map_eq_none_iff, ← hmaps]
      at htrampoline htrapframe
    refine procFreepagetable_ends ht hr' (fun v hv => ?_) htrampoline htrapframe
    rw [hmaps]
    exact hsz v hv

/-- A trapframe is handed out. Six pages follow for an image of one page, and
then one more. -/
def sevenPages : Phys where
  mem := fun _ _ => 0
  used := {4096}
  supply := (List.range 7).map (fun i => some ((i + 2) * 4096)) ++ List.replicate 8 none

theorem exists_sevenPages : ∃ t A,
    image sixteenPages 4096 [.uvmalloc 4096] sevenPages = .ok (8192, 4096) t ∧
      Built sixteenPages 8192 4096 (View.loose sevenPages) A sevenPages t ∧
      Supplied sixteenPages t 9 := by
  have hrun : ((image sixteenPages 4096 [.uvmalloc 4096] sevenPages).toOption.map
      fun p => (p.1, p.2.supply, decide (32768 ∉ p.2.used))) =
      some ((8192, 4096), some 32768 :: List.replicate 8 none, true) := by
    decide +kernel
  obtain ⟨⟨p, t⟩, hend, heq⟩ := Option.map_eq_some_iff.mp hrun
  simp only [Prod.mk.injEq] at heq
  obtain ⟨rfl, hsupply, hfresh⟩ := heq
  have himage := Outcome.eq_ok_of_toOption hend
  obtain ⟨A, hbuilt⟩ := of_wpf (wpf_image (by decide) (by decide)) himage
  refine ⟨t, A, himage, hbuilt, some 32768 :: List.replicate 8 none, [], by simp [hsupply],
    by decide, by decide, fun pg hpg => ?_⟩
  obtain rfl : pg = 32768 := by simpa using hpg
  exact ⟨by decide, of_decide_eq_true hfresh⟩

/-- Two pages are asked for and there is one. -/
theorem uvmalloc_second_page_fails : ∃ t,
    image sixteenPages 4096 [.uvmalloc 4096] sevenPages = .ok (8192, 4096) t ∧
      ∃ ret u, uvmalloc sixteenPages 8192 4096 12288 t = .ok ret u ∧
        (ret = 12288 ∧ Grown sixteenPages 8192 4096 12288 t u ∨
          ret = 0 ∧ NotGrown sixteenPages 8192 t u ∧
            Recovers sixteenPages 8192 4096 12288 t u) := by
  obtain ⟨t, A, himage, hbuilt, hsupply⟩ := exists_sevenPages
  exact ⟨t, himage, uvmalloc_all_or_nothing hbuilt.rep hbuilt.root hbuilt.sized (by decide)
    (by decide) hsupply⟩

/-! ### `sys_sbrk` -/

theorem toInt32_eq (h : n < 2 ^ 31) : toInt32 n = n := by
  have hnat : (BitVec.ofNat 32 n).toNat = n := by
    rw [BitVec.toNat_ofNat]
    omega
  rw [toInt32, BitVec.toInt_eq_toNat_of_lt (by omega), hnat]

theorem growproc_grows (hroot : (K.proc i).pagetable = some r) (hsz : (K.proc i).sz < 2 ^ 32)
    (hpos : 0 < d) (hsum : addInt (K.proc i).sz d = newsz) (hnew : 0 < newsz ∧ newsz < 2 ^ 32)
    (hrun : uvmalloc C r (K.proc i).sz newsz K.phys = .ok newsz t) :
    growproc C i d K = .ok true { K with
      phys := t, proc := Function.update K.proc i { K.proc i with sz := newsz } } := by
  have hmod : (K.proc i).sz % 2 ^ 32 = (K.proc i).sz := Nat.mod_eq_of_lt hsz
  have hmod' : newsz % 2 ^ 32 = newsz := Nat.mod_eq_of_lt hnew.2
  have hne : newsz ≠ 0 := Nat.pos_iff_ne_zero.mp hnew.1
  simp only [growproc, getProc, deref, vm, bind, Prog.bind, pure, Prog.pure, Prog.get, zoom, hroot,
    hmod, hsum, hpos, if_true, hrun, hmod', hne, if_false, setProc, Prog.modify]

theorem growproc_shrinks (hroot : (K.proc i).pagetable = some r) (hsz : (K.proc i).sz < 2 ^ 32)
    (hneg : d < 0) (hrun : uvmdealloc C r (K.proc i).sz (addInt (K.proc i).sz d) K.phys = .ok ret t)
    (hret : ret < 2 ^ 32) : growproc C i d K = .ok true { K with
      phys := t, proc := Function.update K.proc i { K.proc i with sz := ret } } := by
  have hmod : (K.proc i).sz % 2 ^ 32 = (K.proc i).sz := Nat.mod_eq_of_lt hsz
  have hmod' : ret % 2 ^ 32 = ret := Nat.mod_eq_of_lt hret
  have hnot : ¬ d > 0 := by omega
  simp only [growproc, getProc, deref, vm, bind, Prog.bind, pure, Prog.pure, Prog.get, zoom, hroot,
    hmod, hnot, hneg, if_true, if_false, hrun, hmod', setProc, Prog.modify]

theorem growproc_zero (hroot : (K.proc i).pagetable = some r) (hsz : (K.proc i).sz < 2 ^ 32) :
    growproc C i 0 K = .ok true { K with
      phys := K.phys, proc := Function.update K.proc i { K.proc i with sz := (K.proc i).sz } } := by
  have hmod : (K.proc i).sz % 2 ^ 32 = (K.proc i).sz := Nat.mod_eq_of_lt hsz
  simp only [growproc, getProc, deref, bind, Prog.bind, pure, Prog.pure, Prog.get, hroot, hmod,
    lt_irrefl, if_false, setProc, Prog.modify]

theorem sysSbrk_eq {ok : Bool} {K' : Kernel} (h : growproc C i d K = .ok ok K') :
    sysSbrk C i d K = .ok (if ok then toInt32 (K.proc i).sz else -1) K' := by
  simp only [sysSbrk, getProc, bind, Prog.bind, pure, Prog.pure, Prog.get, h]
  cases ok <;> rfl

/-- The call returns the old size and the size has changed by `d`, or it
returns -1 and the process and the translation of its addresses are as
before. -/
def SbrkMeets (C : Config) (r i : ℕ) (d : ℤ) (K : Kernel) : Prop :=
  ∃ ret K', sysSbrk C i d K = .ok ret K' ∧
    (ret = (K.proc i).sz ∧ ((K'.proc i).sz : ℤ) = (K.proc i).sz + d ∨
      ret = -1 ∧ K'.proc = K.proc ∧ ∀ va < maxva, translate C K'.phys r va = translate C K.phys r va)

/-- The state after a call that has set the size to `sz`. -/
theorem SbrkMeets.of_size {sz : ℕ} (hlt : (K.proc i).sz < 2 ^ 31)
    (hrun : growproc C i d K = .ok true { K with
      phys := t, proc := Function.update K.proc i { K.proc i with sz := sz } }) :
    SbrkMeets C r i d K ↔ (sz : ℤ) = (K.proc i).sz + d := by
  have hcall := sysSbrk_eq hrun
  rw [if_pos rfl, toInt32_eq hlt] at hcall
  constructor
  · rintro ⟨ret, K', hcall', hout⟩
    rw [hcall] at hcall'
    cases hcall'
    rcases hout with ⟨-, hsz⟩ | ⟨hret, -⟩
    · simpa using hsz
    · omega
  · intro hsz
    exact ⟨_, _, hcall, .inl ⟨rfl, by simpa using hsz⟩⟩

/-- `sbrk` does what was asked or fails, exactly if the size would not
become negative. -/
theorem sbrk_meets_iff (h : Rep C K.phys A) (hr : A.owner r = some (.table r 2 0))
    (hroot : (K.proc i).pagetable = some r) (hsz : Sized A r (K.proc i).sz)
    (hd : -2 ^ 31 ≤ d ∧ d < 2 ^ 31)
    (hsupply : Supplied C K.phys (3 * pages ((K.proc i).sz + d).toNat)) :
    SbrkMeets C r i d K ↔ 0 ≤ (K.proc i).sz + d := by
  have hbound := hsz.le h
  have hlt : (K.proc i).sz < 2 ^ 31 := by omega
  rcases lt_trichotomy d 0 with hneg | rfl | hpos
  · -- a request below 0 wraps to a large size, and `uvmdealloc` does nothing
    have hwp : wp (uvmdealloc C r (K.proc i).sz (addInt (K.proc i).sz d)) (fun ret _ =>
        ret = min (K.proc i).sz (addInt (K.proc i).sz d)) K.phys :=
      wp_uvmdealloc_rep h hr hsz fun _ _ _ _ _ _ _ => rfl
    obtain ⟨ret, t, hrun, rfl, -⟩ := exists_of_served hwp served_uvmdealloc
    rw [SbrkMeets.of_size hlt (growproc_shrinks hroot (by omega) hneg hrun (by omega)), addInt]
    omega
  · rw [SbrkMeets.of_size hlt (growproc_zero hroot (by omega))]
    omega
  · obtain ⟨newsz, hnew⟩ := Int.eq_ofNat_of_zero_le (by omega : 0 ≤ ((K.proc i).sz : ℤ) + d)
    have hsum : addInt (K.proc i).sz d = newsz := addInt_eq hnew (by omega)
    have htop : newsz ≤ trapframeVa := (by omega : newsz ≤ 2 ^ 32).trans (by decide)
    rw [hnew] at hsupply ⊢
    obtain ⟨ret, t, hrun, ⟨A', -, -, hout⟩, -⟩ := exists_of_served
      (wp_uvmalloc_outcome h hr hsz (by omega : (K.proc i).sz ≤ newsz)) (served_uvmalloc htop (hsupply.mono (Nat.mul_le_mul_left 3 (Nat.sub_le _ _))))
    refine ⟨fun _ => Int.natCast_nonneg newsz, fun _ => ?_⟩
    rcases hout with ⟨rfl, -⟩ | ⟨rfl, -, hnot⟩
    · exact (SbrkMeets.of_size hlt (growproc_grows hroot (by omega) hpos hsum (by omega) hrun)).mpr
        hnew.symm
    · exact ⟨_, _, sysSbrk_eq (growproc_fails hroot (by omega) hpos hsum hrun),
        .inr ⟨rfl, rfl, hnot.same⟩⟩

/-- A kernel with one page table, of a process of one page. -/
def onePageKernel (phys : Phys) : Kernel where
  phys := phys
  proc := fun _ => { Proc.free with state := .used, sz := 4096, pagetable := some 8192, tf := some 4096 }
  initproc := none

theorem onePageKernel_sz (phys : Phys) (i : ℕ) : ((onePageKernel phys).proc i).sz = 4096 := rfl

theorem sbrk_one_page : ∃ t,
    image sixteenPages 4096 [.uvmalloc 4096] sevenPages = .ok (8192, 4096) t ∧
      SbrkMeets sixteenPages 8192 0 4096 (onePageKernel t) := by
  obtain ⟨t, A, himage, hbuilt, hsupply⟩ := exists_sevenPages
  exact ⟨t, himage, (sbrk_meets_iff (K := onePageKernel t) hbuilt.rep hbuilt.root rfl hbuilt.sized
    (by decide) (hsupply.mono (by rw [onePageKernel_sz]; decide))).mpr
    (by rw [onePageKernel_sz]; decide)⟩

/-- A process of one page gives back one byte more than it has. The call
returns the old size, and the size has not changed. -/
theorem sbrk_below_zero : ∃ t,
    image sixteenPages 4096 [.uvmalloc 4096] sevenPages = .ok (8192, 4096) t ∧
      (∃ K', sysSbrk sixteenPages 0 (-4097) (onePageKernel t) = .ok 4096 K' ∧
        (K'.proc 0).sz = 4096) ∧
      ¬ SbrkMeets sixteenPages 8192 0 (-4097) (onePageKernel t) := by
  obtain ⟨t, A, himage, -⟩ := exists_sevenPages
  have hdealloc : uvmdealloc sixteenPages 8192 4096 (addInt 4096 (-4097)) t = .ok 4096 t := by
    rw [uvmdealloc, if_pos (by decide)]
    rfl
  have hrun := growproc_shrinks (K := onePageKernel t) (i := 0) rfl
    (by rw [onePageKernel_sz]; decide) (by decide) hdealloc (by decide)
  refine ⟨t, himage, ⟨_, sysSbrk_eq hrun, by simp⟩, fun hmeets => ?_⟩
  have hsize := (SbrkMeets.of_size (by rw [onePageKernel_sz]; decide) hrun).mp hmeets
  rw [onePageKernel_sz] at hsize
  revert hsize
  decide

end Xv6.Vm
