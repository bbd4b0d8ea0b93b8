import Xv6.Vm.UserMemory
import Xv6.Vm.Translate
import Xv6.Vm.Process

/-!
The life of a process image: `proc_pagetable`, then any number of calls of
`uvmalloc` and `uvmdealloc`, then `proc_freepagetable`.

`kalloc` may fail at every call. When it fails in `proc_pagetable`, the
table is used without the mapping of the trampoline; when it fails in
`uvmalloc`, the size stays what it was. `proc_freepagetable` returns all
pages of the table to the allocator, but only if the size is not 0: with
size 0 it frees none of the page-table pages.
-/

namespace Xv6.Vm

open Lib Prog

variable {C : Config} {s t u : Phys} {A A' A₁ : View} {r v w n i x y sz tf : ℕ}

/-! ### Memory without tables -/

/-- The view that knows of no table. -/
def View.loose (s : Phys) : View where
  owner x := if x ∈ s.used then some .loose else none
  maps _ _ := none

theorem View.owner_loose {o : Owner} :
    (View.loose s).owner x = some o ↔ x ∈ s.used ∧ o = .loose := by
  simp only [View.loose]
  split_ifs with hx <;> simp [hx, eq_comm]

theorem rep_loose (hpool : s.used ⊆ C.pool) : Rep C s (View.loose s) := by
  have hno : ∀ {x r l n}, (View.loose s).owner x ≠ some (.table r l n) := by
    intro x r l n hx
    cases (View.owner_loose.mp hx).2
  constructor
  case maps_leaf => exact fun hw => by cases hw
  case frame_iff =>
    intro x r v
    refine ⟨fun hx => ?_, fun ⟨_, w, hw, _⟩ => by cases hw⟩
    cases (View.owner_loose.mp hx).2
  case toTree =>
    refine ⟨fun x => ?_, hpool, fun hx => absurd hx hno, fun hx => absurd hx hno,
      fun hx => absurd hx hno, fun hx => absurd hx hno, fun hx => absurd hx hno,
      fun hw => by cases hw⟩
    simp only [View.loose]
    split_ifs with hx <;> simp [hx]

/-! ### Making a table -/

/-- A page that is in no table has no entries. -/
theorem Tree.maps_eq_none (h : Tree C s A) (hr : A.owner r ≠ some (.table r 2 0)) :
    A.maps r v = none := by
  cases hw : A.maps r v with
  | none => rfl
  | some w =>
      obtain ⟨x, hx⟩ := h.table_of_maps hw
      exact absurd (h.root_of_table hx) hr

theorem wpf_uvmcreate {F : Fault → Prop} {Q : ℕ → Phys → Prop} (h : Rep C s A)
    (hF : none ∈ s.supply → F .uvmcreate)
    (hQ : ∀ t r, A.owner r = none → Rep C t (A.own r (some (.table r 2 0))) →
      Extend r A (A.own r (some (.table r 2 0))) s t → Q r t) : wpf F (uvmcreate C) Q s := by
  rw [uvmcreate, wpf_bind]
  refine wpf_of_wp (wp_kalloc_tree h.toTree (fun rest hsupply => ?_)
    fun r rest hsupply hr hpool => ?_)
  · exact hF (by simp [hsupply])
  have hloose : (A.own r (some .loose)).owner r = some .loose := View.owner_own_self _ _ _
  have hclear := (h.alloc (l := rest) hpool hr).setPage hloose trivial fun _ => 0
  have htree := hclear.toTree.create hloose fun i => by simp [Phys.setPage]
  rw [View.own_own] at htree
  have hne : ∀ {x o}, A.owner x = some o → x ≠ r := by
    rintro x o hx rfl
    rw [hr] at hx
    cases hx
  refine hQ _ r hr (hclear.of_tree htree rfl fun x r' v => ?_) (Grow.extend (.own hr) ⟨?_, ?_⟩)
  · rcases eq_or_ne x r with rfl | hx
    · simp
    · rw [View.owner_own_of_ne _ _ hx, View.owner_own_of_ne _ _ hx]
  · exact fun hx _ => Function.update_of_ne (hne hx) _ _
  · change rest <:+ s.supply
    rw [hsupply]
    exact List.suffix_cons _ _

/-- An entry above the user pages has been made. -/
theorem Grow.extend_kernel (hgrow : Grow r A A₁) (hkept : Kept r A s t) (hv : trapframePage ≤ v) :
    Extend r A (A₁.map r v x w) s t := by
  have hext := hgrow.extend hkept
  have howner : (A₁.map r v x w).owner = A₁.owner := by
    rw [View.map, if_neg (Nat.not_lt.mpr hv)]
    rfl
  constructor
  case keep => exact fun hx => howner ▸ hext.keep hx
  case frame => exact hext.frame
  case toChange =>
    refine ⟨fun r' hr => ?_, fun ho => howner ▸ hext.owner ho, hext.mem, hext.supply⟩
    funext u
    rw [View.maps_map, if_neg fun he => hr he.1, hext.maps r' hr]

/-- Where the page-table page of the last level is there, none is missing. -/
theorem Tree.missing_eq_zero {l va : ℕ} (h : Tree C s A)
    (hx : A.owner x = some (.table r l (va / 2 ^ (12 + 9 * (l + 1)))))
    (hy : A.owner y = some (.table r 0 (va / 2 ^ 21))) : missing s va l x = 0 := by
  induction l generalizing x with
  | zero => rfl
  | succ l ih =>
      obtain ⟨z, hz⟩ := h.above hy (l := l) (by have := h.level hx; omega)
      have hlink := h.valid_of_child hx (px_lt _ _) (by rw [div_two_pow_child]; exact hz)
      rw [missing, if_pos hlink.valid, hlink.pa]
      exact ih hz

/-- What `proc_pagetable` has made. The trapframe is mapped in the same
page-table page as the trampoline, so it is mapped if that is. -/
structure NewTable (C : Config) (r : ℕ) (A A' : View) (s t : Phys) : Prop where
  fresh : A.owner r = none
  rep : Rep C t A'
  root : A'.owner r = some (.table r 2 0)
  extend : Extend r A A' s t
  user : ∀ v < trapframePage, A'.maps r v = none
  trapframe : A'.maps r trampolinePage ≠ none → A'.maps r trapframePage ≠ none
  trampoline : none ∉ s.supply → A'.maps r trampolinePage ≠ none
  kernel : ∀ {v w}, trapframePage ≤ v → A'.maps r v = some w → w &&& pteU = 0

theorem trampolineVa_eq : trampolineVa = trampolinePage * pgsize := by decide

theorem trapframeVa_eq : trapframeVa = trapframePage * pgsize := by decide

theorem wpf_procPagetable {F : Fault → Prop} {Q : ℕ → Phys → Prop} (h : Rep C s A)
    (htf : tf ∈ s.used) (hF : none ∈ s.supply → F .uvmcreate)
    (hQ : ∀ t A' r, NewTable C r A A' s t → Q r t) : wpf F (procPagetable C tf) Q s := by
  rw [procPagetable, wpf_bind]
  refine wpf_uvmcreate h hF fun s₁ r hfresh h₁ hext₁ => ?_
  set A₁ := A.own r (some (.table r 2 0))
  have hr₁ : A₁.owner r = some (.table r 2 0) := View.owner_own_self _ _ _
  have hempty : ∀ v, A₁.maps r v = none := fun v =>
    h.toTree.maps_eq_none (by rw [hfresh]; exact nofun)
  have hpool := h.used_pool htf
  rw [wpf_bind, trampolineVa_eq, trapframeVa_eq]
  -- the trapframe, in a table with or without the trampoline
  have hsecond : ∀ s₂ A₂, Rep C s₂ A₂ → Extend r A A₂ s s₂ → A₂.owner r = some (.table r 2 0) →
      (∀ v, v ≠ trampolinePage → A₂.maps r v = none) →
      (none ∉ s.supply → A₂.maps r trampolinePage ≠ none) →
      (∀ {v w}, A₂.maps r v = some w → w &&& pteU = 0) →
      wpf F (do
        let _ ← mappages C r (trapframePage * pgsize) pgsize tf (pteR ||| pteW)
        pure r) Q s₂ := by
    intro s₂ A₂ h₂ hext₂ hr₂ hother htramp huser
    rw [wpf_bind]
    refine wpf_of_wp (wp_mappages_rep h₂ hr₂ (by decide) (hother _ (by decide))
      (C.pool_aligned tf hpool) (C.pool_lt tf hpool) (by decide) (by decide)
      (fun hlt => absurd hlt (lt_irrefl _)) (fun t A₃ hgrow hkept ht hmem => ?_)
      fun t A₃ hgrow hkept ht _ => ?_)
    · refine hQ t A₃ r ⟨hfresh, ht, hgrow.keep hr₂, hext₂.trans (hgrow.extend hkept),
        fun v hv => ?_, fun hne => ?_, ?_, fun _ hw => ?_⟩
      · rw [hgrow.maps]
        refine hother v ?_
        rintro rfl
        exact absurd hv (by decide)
      · -- with the trampoline there is a page for the entry
        rw [hgrow.maps] at hne
        obtain ⟨w, hw⟩ := exists_of_ne_none hne
        obtain ⟨y, hy⟩ := h₂.table_of_maps hw
        rw [h₂.toTree.missing_eq_zero hr₂ hy] at hmem
        cases hmem
      · rw [hgrow.maps]
        exact htramp
      · rw [hgrow.maps] at hw
        exact huser hw
    · have hmaps : ∀ v, (A₃.map r trapframePage tf (pa2pte tf ||| (pteR ||| pteW) ||| pteV)).maps
          r v = if v = trapframePage then some (pa2pte tf ||| (pteR ||| pteW) ||| pteV)
          else A₂.maps r v := by
        intro v
        rw [View.maps_map, hgrow.maps]
        simp only [true_and]
      refine hQ t _ r ⟨hfresh, ht, ?_, hext₂.trans (hgrow.extend_kernel hkept le_rfl),
        fun v hv => ?_, fun _ => ?_, fun hsupply => ?_, fun {v w} _ hw => ?_⟩
      · rw [View.map, if_neg (lt_irrefl _)]
        exact hgrow.keep hr₂
      · rw [hmaps, if_neg hv.ne]
        refine hother v ?_
        rintro rfl
        exact absurd hv (by decide)
      · rw [hmaps, if_pos rfl]
        exact Option.some_ne_none _
      · rw [hmaps, if_neg (by decide)]
        exact htramp hsupply
      · rw [hmaps] at hw
        split_ifs at hw
        · cases hw
          rw [Nat.or_assoc, pte_and (by decide)]
          decide
        · exact huser hw
  refine wpf_of_wp (wp_mappages_rep h₁ hr₁ (by decide) (hempty _) C.trampoline_aligned
    C.trampoline_lt (by decide) (by decide) (fun hlt => absurd hlt (by decide))
    (fun s₂ A₂ hgrow hkept h₂ hmem => ?_) fun s₂ A₂ hgrow hkept h₂ _ => ?_)
  · refine hsecond s₂ A₂ h₂ (hext₁.trans (hgrow.extend hkept)) (hgrow.keep hr₁) (fun v _ => ?_)
      (fun hsupply => absurd (hext₁.supply.subset (List.mem_of_mem_take hmem)) hsupply)
      fun hw => ?_
    · rw [hgrow.maps]
      exact hempty v
    · rw [hgrow.maps, hempty] at hw
      cases hw
  · refine hsecond s₂ _ h₂ (hext₁.trans (hgrow.extend_kernel hkept (by decide))) ?_
      (fun v hv => ?_) (fun _ => ?_) fun {v w} hw => ?_
    · rw [View.map, if_neg (by decide)]
      exact hgrow.keep hr₁
    · rw [View.maps_map, if_neg fun he => hv he.2, hgrow.maps]
      exact hempty v
    · rw [View.maps_map, if_pos ⟨rfl, rfl⟩]
      exact Option.some_ne_none _
    · rw [View.maps_map, hgrow.maps, hempty] at hw
      split_ifs at hw
      cases hw
      rw [Nat.or_assoc, pte_and (by decide)]
      decide

/-! ### Changing the size -/

/-- A call that changes the size. -/
inductive Resize where
  | uvmalloc (newsz : ℕ)
  | uvmdealloc (newsz : ℕ)

/-- Makes the call; the result is the new size. A failed call of `uvmalloc`
leaves the size as it was, as in `growproc`. -/
def resize (C : Config) (pagetable sz : ℕ) : Resize → VmM ℕ
  | .uvmalloc newsz => do
      let newsz ← uvmalloc C pagetable sz newsz
      pure (if newsz = 0 then sz else newsz)
  | .uvmdealloc newsz => uvmdealloc C pagetable sz newsz

def resizes (C : Config) (pagetable : ℕ) : (calls : List Resize) → (sz : ℕ) → VmM ℕ
  | [], sz => pure sz
  | call :: calls, sz => do
      let sz ← resize C pagetable sz call
      resizes C pagetable calls sz

/-- A new table and its size after some calls. -/
def image (C : Config) (tf : ℕ) (calls : List Resize) : VmM (ℕ × ℕ) := do
  let pagetable ← procPagetable C tf
  let sz ← resizes C pagetable calls 0
  pure (pagetable, sz)

/-- A table of size `sz`, made in a state that was described by `A`. -/
structure Built (C : Config) (r sz : ℕ) (A A' : View) (s t : Phys) : Prop where
  rep : Rep C t A'
  root : A'.owner r = some (.table r 2 0)
  sized : Sized A' r sz
  change : Change r A A' s t
  trapframe : A'.maps r trampolinePage ≠ none → A'.maps r trapframePage ≠ none
  kernel : ∀ {v w}, trapframePage ≤ v → A'.maps r v = some w → w &&& pteU = 0

theorem Built.of_maps {A'' : View} {sz' : ℕ} (h : Built C r sz A A' s t) (hu : Rep C u A'')
    (hroot : A''.owner r = some (.table r 2 0)) (hsized : Sized A'' r sz')
    (hchange : Change r A' A'' t u) (hmaps : ∀ v, trapframePage ≤ v → A''.maps r v = A'.maps r v) :
    Built C r sz' A A'' s u := by
  refine ⟨hu, hroot, hsized, h.change.trans hchange, ?_, fun hv hw => ?_⟩
  · rw [hmaps _ (by decide), hmaps _ le_rfl]
    exact h.trapframe
  · rw [hmaps _ hv] at hw
    exact h.kernel hv hw

theorem NewTable.built (h : NewTable C r A A' s t) : Built C r 0 A A' s t := by
  refine ⟨h.rep, h.root, fun v hv => ?_, h.extend.toChange, h.trapframe, h.kernel⟩
  rw [h.user v hv]
  simp [pages, pgsize]

theorem Built.pages_le (h : Built C r sz A A' s t) : pages sz ≤ trapframePage :=
  (h.sized.pages_le h.rep).trans (by decide)

/-- `uvmalloc` makes the table larger, or fails and leaves the size as it was. -/
theorem Built.uvmalloc (h : Built C r sz A A' s t) (newsz : ℕ) :
    wp (Vm.uvmalloc C r sz newsz) (fun sz' u => ∃ A'', sz' = max sz newsz ∧ Built C r sz' A A'' s u ∨
      sz' = 0 ∧ Built C r sz A A'' s u) t := by
  refine wp_uvmalloc_rep h.rep h.root h.sized
    (fun hlt => ⟨A', .inl ⟨(max_eq_left hlt.le).symm, h⟩⟩)
    (fun u A'' _ hu hchange hroot hmaps _ => ⟨A'', .inr ⟨rfl, ?_⟩⟩)
    fun u A'' hle hu hext hsized hold _ => ⟨A'', .inl ⟨(max_eq_right hle).symm, ?_⟩⟩
  · refine h.of_maps hu hroot (fun v hv => ?_) hchange fun v _ => by rw [hmaps]
    rw [hmaps]
    exact h.sized v hv
  · have htop := (hsized.pages_le hu).trans (by decide : 2 ^ 15 ≤ trapframePage)
    exact h.of_maps hu (hext.keep h.root) hsized hext.toChange fun v hv => hold v (by omega)

/-- Each call keeps what is known of the table. -/
theorem Built.resize (h : Built C r sz A A' s t) (call : Resize) :
    wp (resize C r sz call) (fun sz' u => ∃ A'', Built C r sz' A A'' s u) t := by
  cases call with
  | uvmalloc newsz =>
      rw [Vm.resize, wp_bind]
      refine wp_mono (h.uvmalloc newsz) fun sz' u ⟨A'', hu⟩ => ⟨A'', ?_⟩
      rcases hu with ⟨hmax, hu⟩ | ⟨rfl, hu⟩
      · rw [show (if sz' = 0 then sz else sz') = sz' by split <;> omega]
        exact hu
      · exact hu
  | uvmdealloc newsz =>
      refine wp_uvmdealloc_rep h.rep h.root h.sized fun u A'' hu hchange hroot hmaps _ => ?_
      refine ⟨A'', h.of_maps hu hroot (h.sized.dealloc hmaps) hchange fun v hv => ?_⟩
      have := h.pages_le
      rw [hmaps, if_neg (by omega)]

theorem Built.resizes (h : Built C r sz A A' s t) (calls : List Resize) :
    wp (resizes C r calls sz) (fun sz' u => ∃ A'', Built C r sz' A A'' s u) t := by
  induction calls generalizing sz t A' with
  | nil => exact ⟨A', h⟩
  | cons call calls ih =>
      rw [Vm.resizes, wp_bind]
      exact wp_mono (h.resize call) fun sz' u ⟨A'', hu⟩ => ih hu

/-- What any run that makes an image ends with. -/
theorem wpf_image (hpool : s.used ⊆ C.pool) (htf : tf ∈ s.used) {calls : List Resize} :
    wpf (fun _ => True) (image C tf calls)
      (fun p u => ∃ A', Built C p.1 p.2 (View.loose s) A' s u) s := by
  rw [image, wpf_bind]
  refine wpf_procPagetable (rep_loose hpool) htf (fun _ => trivial) fun u A' r hnew => ?_
  rw [wpf_bind]
  exact wpf_of_wp (hnew.built.resizes calls)

/-! ### Freeing -/

variable {Q : Unit → Phys → Prop}

/-- `uvmunmap` of an entry above the user pages. -/
theorem wp_uvmunmap_kernel (h : Rep C s A)
    (hr : A.owner r = some (.table r 2 0)) (hv : trapframePage ≤ v) (hne : A.maps r v ≠ none)
    (hQ : ∀ t, Rep C t (A.setMap r v none) → Change r A (A.setMap r v none) s t →
      t.used = s.used → Q () t) : wp (uvmunmap C r (v * pgsize) pgsize false) Q s := by
  obtain ⟨w, hw⟩ := exists_of_ne_none hne
  obtain ⟨hleaf, hmax, -⟩ := h.maps_leaf hw
  rw [uvmunmap, rounds_page hmax, pgrounddown_page]
  simp only [uvmunmapLoop, wp_bind]
  refine wp_walk_mapped h.toTree hr hmax hw fun y hy hword => ?_
  have hvalid := (h.word_eq hy hw).2
  simp only [wp_bind, wp_load, hword, wp_ite, Bool.false_eq_true, if_false, wp_pure, store,
    wp_modify]
  refine ⟨fun h0 => absurd h0 hvalid, fun _ => ⟨fun hf => absurd hf (pteFlags_ne hleaf),
    fun _ => hQ _ (h.unmapKeep hy hv) ⟨fun r' hr' => ?_, fun _ => .rfl, fun {x o} hx ho => ?_,
      List.suffix_rfl⟩ rfl⟩⟩
  · funext u
    rw [View.maps_setMap, if_neg fun he => hr' he.1]
  · refine mem_set_page_of_ne ?_
    rintro rfl
    rw [hy] at hx
    cases hx
    exact ho rfl

/-- `uvmunmap` does not return when its first page is not mapped. -/
theorem wpf_uvmunmap_unmapped {doFree : Bool} {size : ℕ}
    (h : Tree C s A) (hr : A.owner r = some (.table r 2 0)) (hv : v < maxPage)
    (hnone : A.maps r v = none) :
    wpf (fun _ => True) (uvmunmap C r (v * pgsize) size doFree) Q s := by
  rw [uvmunmap, pgrounddown_page]
  obtain ⟨k, hk⟩ : ∃ k, rounds (v * pgsize) size = k + 1 := ⟨_, rfl⟩
  rw [hk, uvmunmapLoop, wpf_bind]
  refine wpf_of_wp (wp_walk h hr hv (fun y hy => ?_) fun _ => trivial)
  have hinvalid : s.mem y (v % 512) &&& pteV = 0 := by
    by_contra hvalid
    rw [h.word hy, if_pos hvalid] at hnone
    cases hnone
  change wpf _ (load y (v % 512) >>= _) Q s
  rw [wpf_bind]
  change wpf _ (if s.mem y (v % 512) &&& pteV = 0 then _ else _) Q s
  rw [if_pos hinvalid]
  trivial

/-- The two entries above the user pages are taken away first. -/
theorem wp_procFreepagetable_user (h : Rep C s A)
    (hr : A.owner r = some (.table r 2 0)) (htrampoline : A.maps r trampolinePage ≠ none)
    (htrapframe : A.maps r trapframePage ≠ none)
    (hQ : ∀ t A', Rep C t A' → Change r A A' s t → A'.owner r = some (.table r 2 0) →
      (∀ v, A'.maps r v = if v < trapframePage then A.maps r v else none) → t.used = s.used →
      wp (if sz > 0 then uvmfree C r sz else pure ()) Q t) : wp (procFreepagetable C r sz) Q s := by
  have hmax : maxPage = trapframePage + 2 := by decide
  have hlast : trampolinePage = trapframePage + 1 := by decide
  rw [procFreepagetable, wp_bind, trampolineVa_eq, trapframeVa_eq]
  refine wp_uvmunmap_kernel h hr (by omega) htrampoline fun s₁ h₁ hchange₁ hused₁ => ?_
  rw [wp_bind]
  refine wp_uvmunmap_kernel h₁ hr le_rfl ?_ fun s₂ h₂ hchange₂ hused₂ =>
    hQ s₂ _ h₂ (hchange₁.trans hchange₂) hr (fun v => ?_) (hused₂.trans hused₁)
  · rw [View.maps_setMap, if_neg fun he => absurd he.2 (by omega)]
    exact htrapframe
  · rw [View.maps_setMap, View.maps_setMap]
    split_ifs with h1 h2 h3 <;> first | rfl | omega | skip
    -- no entry is above that of the trampoline
    cases hw : A.maps r v with
    | none => rfl
    | some w =>
        have := (h.maps_leaf hw).2.1
        omega

/-- With a size other than 0, the pages of the table are freed, and no
others. -/
theorem wp_procFreepagetable (h : Rep C s A)
    (hr : A.owner r = some (.table r 2 0)) (hsz : Sized A r sz) (hpos : 0 < sz)
    (htrampoline : A.maps r trampolinePage ≠ none) (htrapframe : A.maps r trapframePage ≠ none)
    (hQ : ∀ t A', Rep C t A' → Change r A A' s t → (∀ x o, A'.owner x = some o → ¬ o.Of r) →
      Q () t) : wp (procFreepagetable C r sz) Q s := by
  refine wp_procFreepagetable_user h hr htrampoline htrapframe
    fun s₂ A₂ h₂ hchange₂ hr₂ hmaps₂ _ => ?_
  have hsz₂ : Sized A₂ r sz := fun v hv => by rw [hmaps₂, if_pos hv, hsz v hv]
  rw [if_pos hpos, uvmfree, wp_bind, ← Nat.zero_mul pgsize]
  refine wp_uvmunmap_rep h₂ hr₂ hsz₂ (lt_pages_iff.mpr (by omega)) (by omega)
    fun s₃ A₃ h₃ hchange₃ hr₃ hmaps₃ _ => ?_
  have hunmapped : ∀ v, A₃.maps r v = none := by
    intro v
    rw [hmaps₃, hmaps₂]
    split_ifs with h1 h2 <;> first | rfl | skip
    by_contra hne
    have := (hsz v h2).mp hne
    omega
  refine wp_freewalk_rep h₃ hr₃ hunmapped fun t ht hchange₄ => ?_
  refine hQ t _ ht ((hchange₂.trans hchange₃).trans hchange₄) fun x o hx ho => ?_
  cases o with
  | table r' l n =>
      obtain rfl : r' = r := ho
      exact (View.owner_without_eq_some.mp hx).2 l n rfl
  | frame r' v =>
      obtain rfl : r' = r := ho
      obtain ⟨-, w, hw, -⟩ := ht.frame_iff.mp hx
      cases (hunmapped v).symm.trans hw
  | trapframe i => exact ho
  | loose => exact ho

/-! ### Freeing all of an image -/

theorem served_kfree : served (kfree x) (fun _ _ => True) s := by
  simp only [served, kfree]
  split_ifs <;> trivial

theorem served_uvmunmap {doFree : Bool} {va size : ℕ} :
    served (uvmunmap C r va size doFree) (fun _ _ => True) s := by
  rw [uvmunmap]
  generalize rounds va size = k, pgrounddown va = a
  induction k generalizing s a with
  | zero => trivial
  | succ k ih =>
      rw [uvmunmapLoop, served_bind]
      refine served_walk fun place => ?_
      cases place with
      | none => trivial
      | some place =>
          simp only [served_bind, served_load]
          refine served_ite (fun _ => served_fault) fun _ => ?_
          refine served_ite (fun _ => served_fault) fun _ => ?_
          refine served_ite (fun _ => ?_) fun _ => ih _
          rw [served_bind]
          exact served_mono served_kfree fun _ _ _ => ih _

theorem served_freewalk {depth : ℕ} : served (freewalk depth x) (fun _ _ => True) s := by
  induction depth generalizing s x with
  | zero => trivial
  | succ depth ih =>
      rw [freewalk, served_bind]
      refine served_mono (Q := fun _ _ => True) (served_forN fun i t => ?_) fun _ _ _ => served_kfree
      simp only [served_bind, served_load]
      refine served_ite (fun _ => ?_) fun _ => served_ite (fun _ => served_fault) fun _ => trivial
      rw [served_bind]
      exact served_mono ih fun _ _ _ => trivial

theorem served_procFreepagetable : served (procFreepagetable C r sz) (fun _ _ => True) s := by
  rw [procFreepagetable, served_bind]
  refine served_mono served_uvmunmap fun _ _ _ => ?_
  rw [served_bind]
  refine served_mono served_uvmunmap fun _ _ _ => served_ite (fun _ => ?_) fun _ => trivial
  rw [uvmfree, served_bind]
  exact served_mono served_uvmunmap fun _ _ _ => served_freewalk

/-- The page is a page-table page or a user page of the table. -/
def InTable (C : Config) (s : Phys) (r x : ℕ) : Prop :=
  (∃ d n, d ≤ 2 ∧ pageAt s r d n = some x) ∨
    ∃ va flags, va < trapframeVa ∧ translate C s r va = some (x, flags)

theorem Rep.inTable_iff (h : Rep C s A) (hr : A.owner r = some (.table r 2 0)) :
    InTable C s r x ↔ ∃ o, A.owner x = some o ∧ o.Of r := by
  have hva : ∀ {va}, va < trapframeVa → va < maxva ∧ va / pgsize < trapframePage := by
    intro va hva
    simp only [trapframeVa, trampolineVa, maxva, pgsize, trapframePage] at hva ⊢
    omega
  constructor
  · rintro (⟨d, n, hd, hx⟩ | ⟨va, flags, hlt, hx⟩)
    · exact ⟨_, (h.toTree.pageAt_iff hr hd).mp hx, rfl⟩
    · rw [h.toTree.translate_eq hr (hva hlt).1, Option.map_eq_some_iff] at hx
      obtain ⟨w, hw, hread⟩ := hx
      exact ⟨_, h.frame_iff.mpr ⟨(hva hlt).2, w, hw, congrArg Prod.fst hread⟩, rfl⟩
  · rintro ⟨o, hx, ho⟩
    cases o with
    | table r' l n =>
        obtain rfl : r' = r := ho
        have hl := h.level hx
        refine .inl ⟨2 - l, n, by omega, (h.toTree.pageAt_iff hr (by omega)).mpr ?_⟩
        rwa [show 2 - (2 - l) = l by omega]
    | frame r' v =>
        obtain rfl : r' = r := ho
        obtain ⟨hv, w, hw, rfl⟩ := h.frame_iff.mp hx
        have hlt : v * pgsize < trapframeVa := by
          rw [trapframeVa_eq]
          exact Nat.mul_lt_mul_of_pos_right hv (by decide)
        refine .inr ⟨v * pgsize, pteFlags w, hlt, ?_⟩
        rw [h.toTree.translate_eq hr (hva hlt).1, Nat.mul_div_cancel _ (by decide), hw]
        rfl
    | trapframe i => exact ho.elim
    | loose => exact ho.elim

/-- `proc_freepagetable` returns exactly the pages of the table, so that the
pages handed out are again those from before the table was made, the
trapframe among them. As `kfree` refuses a page that is not handed out,
each page is freed once. -/
def FreesImage (C : Config) (r sz : ℕ) (s t : Phys) : Prop :=
  ∃ u, procFreepagetable C r sz t = .ok () u ∧
    (∀ x, x ∈ t.used ∧ x ∉ u.used ↔ InTable C t r x) ∧ u.used = s.used

/-- The pages in use after all pages of the table have been freed. -/
theorem Change.used (h : Change r A A' s t) (ht : Rep C t A')
    (hgone : ∀ x o, A'.owner x = some o → ¬ o.Of r) :
    x ∈ t.used ↔ ∃ o, A.owner x = some o ∧ ¬ o.Of r := by
  rw [ht.used_iff, Option.isSome_iff_exists]
  constructor
  · rintro ⟨o, ho⟩
    exact ⟨o, (h.owner (hgone x o ho)).mp ho, hgone x o ho⟩
  · rintro ⟨o, ho, hof⟩
    exact ⟨o, (h.owner hof).mpr ho⟩

theorem Change.used_eq (h : Change r (View.loose s) A' s t) (ht : Rep C t A')
    (hgone : ∀ x o, A'.owner x = some o → ¬ o.Of r) : t.used = s.used := by
  ext x
  rw [h.used ht hgone]
  constructor
  · rintro ⟨o, ho, -⟩
    exact (View.owner_loose.mp ho).1
  · exact fun hx => ⟨.loose, View.owner_loose.mpr ⟨hx, rfl⟩, id⟩

/-- With size 0, or without the trampoline, the table is not freed. -/
theorem Built.of_freesImage (hbuilt : Built C r sz A A' s t) (hfrees : FreesImage C r sz s t) :
    0 < sz ∧ A'.maps r trampolinePage ≠ none := by
  obtain ⟨h, hr, -, -, htrap, -⟩ := hbuilt
  obtain ⟨u, hok, hfreed, -⟩ := hfrees
  have htramp : A'.maps r trampolinePage ≠ none := by
    intro hnone
    have hstop : wpf (fun _ => True) (procFreepagetable C r sz) (fun _ _ => False) t := by
      rw [procFreepagetable, wpf_bind, trampolineVa_eq]
      exact wpf_uvmunmap_unmapped h.toTree hr (by decide) hnone
    exact of_wpf hstop hok
  refine ⟨?_, htramp⟩
  by_contra hzero
  obtain rfl : sz = 0 := by omega
  -- nothing has been freed, and the root is a page of the table
  have hkeep : wp (procFreepagetable C r 0) (fun _ u => u.used = t.used) t :=
    wp_procFreepagetable_user h hr htramp (htrap htramp) fun _ _ _ _ _ _ hused => hused
  have hroot := (hfreed r).mpr ((h.inTable_iff hr).mpr ⟨_, hr, rfl⟩)
  rw [of_wp hkeep hok] at hroot
  exact hroot.2 hroot.1

theorem Built.freesImage (hbuilt : Built C r sz (View.loose s) A s t) (hpos : 0 < sz)
    (htramp : A.maps r trampolinePage ≠ none) : FreesImage C r sz s t := by
  obtain ⟨h, hr, hsz, hchange, htrap, -⟩ := hbuilt
  have hfree : wp (procFreepagetable C r sz) (fun _ u => ∃ A', Rep C u A' ∧ Change r A A' t u ∧
      ∀ x o, A'.owner x = some o → ¬ o.Of r) t :=
    wp_procFreepagetable h hr hsz hpos htramp (htrap htramp) fun u A' hu hch hgone =>
      ⟨A', hu, hch, hgone⟩
  obtain ⟨_, u, hok, ⟨A', hu, hch, hgone⟩, -⟩ := exists_of_served hfree served_procFreepagetable
  refine ⟨u, hok, fun x => ?_, ?_⟩
  · rw [h.inTable_iff hr, hch.used hu hgone, h.used_iff, Option.isSome_iff_exists]
    constructor
    · rintro ⟨⟨o, ho⟩, hnot⟩
      exact ⟨o, ho, by_contra fun hof => hnot ⟨o, ho, hof⟩⟩
    · rintro ⟨o, ho, hof⟩
      refine ⟨⟨o, ho⟩, fun ⟨o', ho', hof'⟩ => hof' ?_⟩
      rw [ho] at ho'
      cases ho'
      exact hof
  · exact (hchange.trans hch).used_eq hu hgone

/-- An image is freed exactly if its size is not 0 and the trampoline is
mapped in it. -/
theorem procFreepagetable_frees_iff (hpool : s.used ⊆ C.pool) (htf : tf ∈ s.used)
    {calls : List Resize} (hrun : image C tf calls s = .ok (r, sz) t) :
    FreesImage C r sz s t ↔ 0 < sz ∧ translate C t r trampolineVa ≠ none := by
  obtain ⟨A, hbuilt⟩ := of_wpf (wpf_image hpool htf) hrun
  rw [hbuilt.rep.toTree.translate_eq hbuilt.root (by decide), ne_eq, Option.map_eq_none_iff]
  exact ⟨hbuilt.of_freesImage, fun h => hbuilt.freesImage h.1 h.2⟩

theorem pgsize_dvd_zero : pgsize ∣ 0 := by decide

theorem zero_lt_maxPa : 0 < 2 ^ 56 := by decide

/-- A machine with sixteen pages. -/
def sixteenPages : Config where
  pool := (Finset.range 16).image fun i => (i + 1) * 4096
  trampoline := 0
  pool_aligned := by decide
  pool_lt := by decide
  trampoline_aligned := pgsize_dvd_zero
  trampoline_lt := zero_lt_maxPa
  card_pool_le := by decide

/-- Only a trapframe is handed out. -/
def oneTrapframe : Phys where
  mem := fun _ _ => 0
  used := {4096}
  supply := (List.range 15).map fun i => some ((i + 2) * 4096)

theorem procFreepagetable_one_page : ∃ t,
    image sixteenPages 4096 [.uvmalloc 5000, .uvmdealloc 100] oneTrapframe = .ok (8192, 100) t ∧
      FreesImage sixteenPages 8192 100 oneTrapframe t := by
  have hrun : ((image sixteenPages 4096 [.uvmalloc 5000, .uvmdealloc 100] oneTrapframe).toOption.map
      fun p => (p.1, (translate sixteenPages p.2 8192 trampolineVa).isSome)) =
      some ((8192, 100), true) := by
    decide +kernel
  obtain ⟨⟨p, t⟩, hend, heq⟩ := Option.map_eq_some_iff.mp hrun
  obtain ⟨rfl, htramp⟩ := Prod.mk.inj heq
  have himage := Outcome.eq_ok_of_toOption hend
  refine ⟨t, himage, (procFreepagetable_frees_iff (by decide) (by decide) himage).mpr
    ⟨by decide, ?_⟩⟩
  exact Option.isSome_iff_ne_none.mp htramp

/-- A process that has given back all its memory, and so has size 0, leaves
its page-table pages behind when it is freed. -/
theorem procFreepagetable_leaks : ∃ t,
    image sixteenPages 4096 [.uvmalloc 4096, .uvmdealloc 0] oneTrapframe = .ok (8192, 0) t ∧
      ¬ FreesImage sixteenPages 8192 0 oneTrapframe t := by
  have hrun : ((image sixteenPages 4096 [.uvmalloc 4096, .uvmdealloc 0] oneTrapframe).toOption.map
      Prod.fst) = some (8192, 0) := by
    decide +kernel
  obtain ⟨⟨p, t⟩, hend, rfl⟩ := Option.map_eq_some_iff.mp hrun
  have himage := Outcome.eq_ok_of_toOption hend
  obtain ⟨A, hbuilt⟩ := of_wpf (wpf_image (by decide) (by decide)) himage
  exact ⟨t, himage, fun hfrees => absurd (hbuilt.of_freesImage hfrees).1 (lt_irrefl 0)⟩

end Xv6.Vm
