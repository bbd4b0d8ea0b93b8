import Xv6.Vm.Freewalk

/-!
Growing, shrinking, copying and freeing user memory.

The user memory of a table has size `sz` when exactly the pages that reach
below `sz` are mapped, up to the trapframe. As the pages that back them
are different pages of the allocator's pool, the size is bounded by the
pool; this is why the loops that map pages stay far below the trapframe.

A round of the loops that map pages takes a page, fills it and maps it;
when `kalloc` fails in it, at the page or at a page-table page, the round
leaves nothing behind but page-table pages without entries.
-/

namespace Xv6.Vm

open Lib Prog

/-- The number of pages that `sz` bytes take. -/
def pages (sz : ℕ) : ℕ := (sz + (pgsize - 1)) / pgsize

/-- The user memory of the table is `[0, sz)`, rounded up to pages. -/
def Sized (A : View) (r sz : ℕ) : Prop :=
  ∀ v < trapframePage, (A.maps r v ≠ none ↔ v < pages sz)

variable {C : Config} {s t : Phys} {A A' : View} {r v w n i x y sz oldsz newsz : ℕ}

theorem lt_pages_iff : v < pages sz ↔ v * pgsize < sz := by
  simp only [pages, pgsize]
  omega

theorem pages_mul (n : ℕ) : pages (n * pgsize) = n := by
  simp only [pages, pgsize]
  omega

theorem pages_mono (h : newsz ≤ oldsz) : pages newsz ≤ pages oldsz := by
  simp only [pages, pgsize]
  omega

theorem exists_of_ne_none {a : Option ℕ} (h : a ≠ none) : ∃ w, a = some w :=
  Option.ne_none_iff_exists'.mp h

/-! ### Sizes are bounded by the pool -/

theorem Rep.mapped_le (h : Rep C s A) (hmapped : ∀ u < n, A.maps r u ≠ none)
    (hn : n ≤ trapframePage) : n ≤ 2 ^ 15 := by
  let page (u : ℕ) : ℕ := pte2pa ((A.maps r u).getD 0)
  have hframe : ∀ u < n, A.owner (page u) = some (.frame r u) := by
    intro u hu
    obtain ⟨w, hw⟩ := exists_of_ne_none (hmapped u hu)
    refine h.frame_iff.mpr ⟨by omega, w, hw, ?_⟩
    simp only [page, hw, Option.getD_some]
  have hcard : (Finset.range n).card ≤ C.pool.card := by
    refine Finset.card_le_card_of_injOn page (fun u hu => ?_) fun u hu u' hu' he => ?_
    · rw [Finset.coe_range, Set.mem_Iio] at hu
      exact h.used_pool ((h.used_iff _).mpr (by simp [hframe u hu]))
    · rw [Finset.coe_range, Set.mem_Iio] at hu hu'
      have h1 := hframe u hu
      have h2 := hframe u' hu'
      rw [show page u = page u' from he, h2] at h1
      cases h1
      rfl
  rw [Finset.card_range] at hcard
  exact hcard.trans C.card_pool_le

theorem Rep.mapped_below_le (h : Rep C s A)
    (hmapped : ∀ u < n, u < trapframePage → A.maps r u ≠ none) : n ≤ 2 ^ 15 := by
  have hmin : min n trapframePage ≤ 2 ^ 15 :=
    h.mapped_le (fun u hu => hmapped u (by omega) (by omega)) (by omega)
  have : (2 : ℕ) ^ 15 < trapframePage := by decide
  omega

theorem Sized.pages_le (hsz : Sized A r sz) (h : Rep C s A) : pages sz ≤ 2 ^ 15 :=
  h.mapped_below_le fun u hu hut => (hsz u hut).mpr hu

theorem Sized.le (hsz : Sized A r sz) (h : Rep C s A) : sz ≤ 2 ^ 27 := by
  have := hsz.pages_le h
  simp only [pages, pgsize] at this
  omega

theorem pgroundup_eq (hsz : sz ≤ 2 ^ 63) : pgroundup sz = pages sz * pgsize := by
  simp only [pgroundup, pages, u64, pgsize]
  omega

/-! ### Shrinking -/

theorem rounds_range {size : ℕ} (hsize : 0 < size) (hlt : v * pgsize + size ≤ 2 ^ 62) :
    rounds (v * pgsize) size = pages (v * pgsize + size) - v := by
  simp only [rounds, pgrounddown, pages, u64, pgsize] at hlt ⊢
  omega

/-- `uvmunmap` of the user pages from `v` up to size `sz`. -/
theorem wp_uvmunmap_rep {Q : Unit → Phys → Prop} {size : ℕ} (h : Rep C s A)
    (hr : A.owner r = some (.table r 2 0)) (hsz : Sized A r sz) (hv : v < pages sz)
    (hsize : v * pgsize + size = sz)
    (hQ : ∀ t A', Rep C t A' → Change r A A' s t → A'.owner r = some (.table r 2 0) →
      (∀ u, A'.maps r u = if v ≤ u ∧ u < pages sz then none else A.maps r u) →
      t.supply = s.supply → Q () t) : wp (uvmunmap C r (v * pgsize) size true) Q s := by
  have hpages := hsz.pages_le h
  have hle := hsz.le h
  have hpos : v * pgsize < sz := lt_pages_iff.mp hv
  have htop : pages sz ≤ trapframePage := le_trans hpages (by decide)
  have hn : v + (pages sz - v) = pages sz := by omega
  rw [uvmunmap, pgrounddown_page, rounds_range (by omega) (by omega), hsize]
  refine wp_uvmunmapLoop_rep h hr (fun u _ hu => ?_) (by omega)
    fun t A' ht hchange hr' hmaps hsupply => ?_
  · exact exists_of_ne_none ((hsz u (by omega)).mpr (by omega))
  · rw [hn] at hmaps
    exact hQ t A' ht hchange hr' hmaps hsupply

/-- `uvmdealloc` from size `oldsz`. -/
theorem wp_uvmdealloc_rep {Q : ℕ → Phys → Prop} (h : Rep C s A)
    (hr : A.owner r = some (.table r 2 0)) (hsz : Sized A r oldsz)
    (hQ : ∀ t A', Rep C t A' → Change r A A' s t → A'.owner r = some (.table r 2 0) →
      (∀ u, A'.maps r u = if pages newsz ≤ u ∧ u < pages oldsz then none else A.maps r u) →
      t.supply = s.supply → Q (min oldsz newsz) t) : wp (uvmdealloc C r oldsz newsz) Q s := by
  -- with no page between the sizes nothing changes
  have hsame : pages oldsz ≤ pages newsz → Q (min oldsz newsz) s := fun hle =>
    hQ s A h (.refl r A s) hr (fun u => by rw [if_neg (by omega)]) rfl
  rw [uvmdealloc, wp_ite]
  refine ⟨fun hge => ?_, fun hlt => ?_⟩
  · have := hsame (pages_mono hge)
    rwa [Nat.min_eq_left hge] at this
  · have hle := hsz.le h
    rw [Nat.min_eq_right (by omega)] at hQ hsame
    simp only [wp_bind, wp_ite, wp_pure]
    rw [pgroundup_eq (by omega), pgroundup_eq (by omega)]
    refine ⟨fun hless => ?_, fun hnot => hsame ?_⟩
    · have hv : pages newsz < pages oldsz := Nat.lt_of_mul_lt_mul_right hless
      have hbelow : pages newsz * pgsize < oldsz := lt_pages_iff.mp hv
      exact wp_uvmunmap_rep h hr hsz hv (by omega) hQ
    · exact Nat.le_of_mul_le_mul_right (Nat.not_lt.mp hnot) (by decide)

/-- What the change of the map says about the size. -/
theorem Sized.dealloc (hsz : Sized A r oldsz)
    (hmaps : ∀ u, A'.maps r u = if pages newsz ≤ u ∧ u < pages oldsz then none else A.maps r u) :
    Sized A' r (min oldsz newsz) := by
  intro u hu
  have hmin : pages (min oldsz newsz) = min (pages oldsz) (pages newsz) := by
    simp only [pages, pgsize]
    omega
  rw [hmaps, hmin]
  split_ifs with hrange
  · simp only [ne_eq, not_true_eq_false, false_iff]
    omega
  · rw [hsz u hu]
    omega

/-! ### Adding a page -/

/-- The part that rounds of `uvmalloc` and of `uvmcopy` have in common: a
page is taken, filled and mapped, or everything is given back. -/
def addPage (C : Config) (pagetable va perm : ℕ) (fill : ℕ → VmM Unit) : VmM Bool := do
  match ← kalloc C with
  | none => pure false
  | some mem => do
      fill mem
      if ← mappages C pagetable va pgsize mem perm then pure true
      else do
        kfree mem
        pure false

theorem uvmallocLoop_succ (C : Config) (r oldsz n a : ℕ) : uvmallocLoop C r oldsz (n + 1) a = (do
    if ← addPage C r a (pteW ||| pteX ||| pteR ||| pteU) clearPage then
      uvmallocLoop C r oldsz n (a + pgsize)
    else do
      let _ ← uvmdealloc C r a oldsz
      pure false) := by
  simp only [uvmallocLoop, addPage, bind_assoc]
  refine bind_congr fun page => ?_
  cases page with
  | none => rfl
  | some mem =>
      simp only [bind_assoc]
      refine bind_congr fun _ => bind_congr fun ok => ?_
      cases ok <;> simp

/-- A page that was nobody's has been given to the table, or is nobody's
again, and the table has got more page-table pages. -/
theorem Grow.extend_fresh {A₁ A₂ : View} {s₁ t₁ : Phys} {pg : ℕ}
    (hgrow : Grow r (A.own pg (some .loose)) A₁) (hkept : Kept r (A.own pg (some .loose)) s₁ t)
    (hpg : A.owner pg = none) (hmem : ∀ x ≠ pg, s₁.mem x = s.mem x)
    (hsupply : s₁.supply <:+ s.supply) (howner : ∀ x ≠ pg, A₂.owner x = A₁.owner x)
    (hself : ∀ o, A₂.owner pg = some o → o.Of r) (hmaps : ∀ r' ≠ r, A₂.maps r' = A₁.maps r')
    (hmem₁ : t₁.mem = t.mem) (hsupply₁ : t₁.supply = t.supply) : Extend r A A₂ s t₁ := by
  have hne : ∀ {x o}, A.owner x = some o → x ≠ pg := by
    rintro x o hx rfl
    rw [hpg] at hx
    cases hx
  have hown : ∀ {x o}, A.owner x = some o → (A.own pg (some .loose)).owner x = some o :=
    fun hx => (View.owner_own_of_ne _ _ (hne hx)).trans hx
  have hkeep : ∀ {x o}, A.owner x = some o → A₂.owner x = some o :=
    fun hx => (howner _ (hne hx)).trans (hgrow.keep (hown hx))
  have hsame : ∀ {x o}, A.owner x = some o → (∀ l n, o ≠ .table r l n) → t₁.mem x = s.mem x := by
    intro x o hx ho
    rw [hmem₁, hkept.mem (hown hx) ho, hmem x (hne hx)]
  constructor
  case keep => exact hkeep
  case frame => exact fun hx => hsame hx nofun
  case toChange =>
    refine ⟨fun r' hr => ?_, fun {x o} ho => ⟨fun hx => ?_, hkeep⟩,
      fun hx ho => hsame hx (Owner.ne_table_of_not_of ho), ?_⟩
    · rw [hmaps r' hr, hgrow.maps, View.maps_own]
    · rcases eq_or_ne x pg with rfl | hxpg
      · exact absurd (hself o hx) ho
      · rw [howner x hxpg] at hx
        rcases hgrow.owner x with hold | ⟨-, l, n, htable⟩
        · rwa [hold, View.owner_own_of_ne _ _ hxpg] at hx
        · rw [htable] at hx
          cases hx
          exact absurd rfl ho
    · rw [hsupply₁]
      exact hkept.supply.trans hsupply

/-- The page `pg`, which was nobody's, is the user page `v` of the table. -/
structure Added (r v perm : ℕ) (f : ℕ → ℕ) (A A' : View) (t : Phys) (pg : ℕ) : Prop where
  fresh : A.owner pg = none
  aligned : pgsize ∣ pg
  frame : A'.owner pg = some (.frame r v)
  bytes : t.mem pg = f
  maps : ∀ u, A'.maps r u = if u = v then some (pa2pte pg ||| perm ||| pteV) else A.maps r u

theorem wp_addPage {Q : Bool → Phys → Prop} {fill : ℕ → VmM Unit} {f : ℕ → ℕ} {perm : ℕ}
    (h : Rep C s A) (hr : A.owner r = some (.table r 2 0)) (hv : v < trapframePage)
    (hnone : A.maps r v = none) (hperm : perm < 1024)
    (hleaf : perm &&& (pteR ||| pteW ||| pteX) ≠ 0)
    (hfill : ∀ pg s₁, s₁.mem = s.mem → fill pg s₁ = .ok () (s₁.setPage pg f))
    (hfail : ∀ t A', Rep C t A' → Extend r A A' s t → A'.maps = A.maps →
      none ∈ s.supply.take (1 + missing s (v * pgsize) 2 r) → Q false t)
    (hQ : ∀ t A' pg, Rep C t A' → Extend r A A' s t → Added r v perm f A A' t pg →
      none ∉ s.supply.take (1 + missing s (v * pgsize) 2 r) → Q true t) :
    wp (addPage C r (v * pgsize) perm fill) Q s := by
  rw [addPage, wp_bind]
  refine wp_kalloc_tree h.toTree (fun rest hsupply => ?_) fun pg rest hsupply hpg hpool => ?_
  · refine hfail _ A h.of_supply ((Grow.refl r A).extend ⟨fun _ _ => rfl, ?_⟩) rfl ?_
    · rw [hsupply]
      exact List.suffix_cons _ _
    · rw [hsupply, Nat.add_comm, List.take_succ_cons]
      exact List.mem_cons_self
  set s₁ : Phys := { s with used := insert pg s.used, supply := rest }
  set s₂ := s₁.setPage pg f with hs₂
  have hloose : (A.own pg (some .loose)).owner pg = some .loose := View.owner_own_self _ _ _
  have h₂ : Rep C s₂ (A.own pg (some .loose)) := Rep.setPage (h.alloc hpool hpg) hloose trivial f
  have hne : r ≠ pg := by
    rintro rfl
    rw [hpg] at hr
    cases hr
  have hr' : (A.own pg (some .loose)).owner r = some (.table r 2 0) := by
    rw [View.owner_own_of_ne _ _ hne, hr]
  have hmem : ∀ x ≠ pg, s₂.mem x = s.mem x := fun x hx => Function.update_of_ne hx _ _
  have hmissing : missing s₂ (v * pgsize) 2 r = missing s (v * pgsize) 2 r := by
    refine h.toTree.missing_congr hr fun {z l n} hz => hmem z ?_
    rintro rfl
    rw [hpg] at hz
    cases hz
  have hrest : s₂.supply = rest := rfl
  have hanswers : none ∈ s.supply.take (1 + missing s (v * pgsize) 2 r) ↔
      none ∈ s₂.supply.take (missing s₂ (v * pgsize) 2 r) := by
    rw [hmissing, hsupply, Nat.add_comm, List.take_succ_cons, List.mem_cons,
      or_iff_right (Option.some_ne_none pg).symm, hrest]
  have hsuffix : s₂.supply <:+ s.supply := hsupply ▸ List.suffix_cons _ _
  have hrun : wp (fill pg) (fun _ u => u = s₂) s₁ := by
    rw [wp, hfill pg s₁ rfl]
  change wp (fill pg >>= fun _ => _) Q s₁
  rw [wp_bind]
  refine wp_mono hrun fun _ u hu => ?_
  rw [hu, wp_bind]
  have hmax : v < maxPage := lt_trans hv (by decide)
  refine wp_mappages_rep h₂ hr' hmax (by rw [View.maps_own, hnone])
    (h₂.aligned hloose) (h₂.lt hloose) hperm hleaf (fun _ => hloose)
    (fun t A₁ hgrow hkept ht hanswer => ?_) fun t A₁ hgrow hkept ht hanswer => ?_
  · have hpg₁ : A₁.owner pg = some .loose := hgrow.keep hloose
    rw [if_neg (by decide), wp_bind]
    refine wp_kfree_of_mem ((ht.used_iff pg).mpr (by simp [hpg₁])) ?_
    refine hfail _ (A₁.own pg none) (ht.free hpg₁ trivial (by simp)) ?_ (hgrow.maps.trans rfl)
      (hanswers.mpr hanswer)
    refine hgrow.extend_fresh hkept hpg hmem hsuffix (fun x hx => ?_) (fun o ho => ?_)
      (fun _ _ => rfl) rfl rfl
    · exact View.owner_own_of_ne _ _ hx
    · rw [View.owner_own_self] at ho
      cases ho
  · rw [if_pos rfl]
    have hframe : (A₁.map r v pg (pa2pte pg ||| perm ||| pteV)).owner pg = some (.frame r v) := by
      rw [View.map, if_pos hv, View.owner_own_self]
    refine hQ t _ pg ht ?_ ⟨hpg, h₂.aligned hloose, hframe, ?_, fun u => ?_⟩
      (mt hanswers.mp hanswer)
    · refine hgrow.extend_fresh hkept hpg hmem hsuffix (fun x hx => View.owner_map_of_ne _ hx)
        (fun o ho => ?_) (fun r' hr' => ?_) rfl rfl
      · rw [hframe] at ho
        cases ho
        rfl
      · funext u
        rw [View.maps_map, if_neg fun he => hr' he.1]
    · rw [hkept.mem hloose (by simp), hs₂]
      exact Function.update_self _ _ _
    · rw [View.maps_map, hgrow.maps, View.maps_own]
      simp

/-! ### Growing -/

/-- The flags of the pages that `uvmalloc` maps. -/
abbrev userPerm : ℕ := pteW ||| pteX ||| pteR ||| pteU

/-- The size of a table of which the first `v` pages are mapped. -/
theorem sized_mul (hmapped : ∀ u < v, A.maps r u ≠ none)
    (hfree : ∀ u, v ≤ u → u < trapframePage → A.maps r u = none) : Sized A r (v * pgsize) := by
  intro u hu
  rw [pages_mul]
  refine ⟨fun hne => ?_, hmapped u⟩
  by_contra hge
  exact hne (hfree u (by omega) hu)

/-- The loop of `uvmalloc` maps the next `n` pages, or takes back all from
page `p` on. -/
theorem wp_uvmallocLoop_rep {Q : Bool → Phys → Prop} {p : ℕ} (h : Rep C s A)
    (hr : A.owner r = some (.table r 2 0)) (hmapped : ∀ u < v, A.maps r u ≠ none)
    (hfree : ∀ u, v ≤ u → u < trapframePage → A.maps r u = none) (hp : p ≤ v)
    (hv : v ≤ trapframePage)
    (hfail : ∀ t A', Rep C t A' → Change r A A' s t → A'.owner r = some (.table r 2 0) →
      (∀ u, A'.maps r u = if p ≤ u ∧ u < v then none else A.maps r u) → none ∈ s.supply → Q false t)
    (hQ : ∀ t A', Rep C t A' → Extend r A A' s t → v + n ≤ trapframePage →
      (∀ u, v ≤ u → u < v + n → ∃ pg, A.owner pg = none ∧ pgsize ∣ pg ∧
        t.mem pg = (fun _ => 0) ∧ A'.maps r u = some (pa2pte pg ||| userPerm ||| pteV)) →
      (∀ u, ¬(v ≤ u ∧ u < v + n) → A'.maps r u = A.maps r u) → Q true t) :
    wp (uvmallocLoop C r (p * pgsize) n (v * pgsize)) Q s := by
  induction n generalizing s A v with
  | zero =>
      exact hQ s A h (.refl r A s) (by omega) (fun u h1 h2 => by omega) fun _ _ => rfl
  | succ n ih =>
      have hvt : v < trapframePage := by
        have := h.mapped_le hmapped hv
        exact lt_of_le_of_lt this (by decide)
      rw [uvmallocLoop_succ, wp_bind]
      refine wp_addPage h hr hvt (hfree v le_rfl hvt) (by decide) (by decide) (fun _ _ _ => rfl)
        (fun t A₁ ht hext hmaps hanswer => ?_) fun t A₁ pg ht hext hadd _ => ?_
      · -- no page for this round: the pages of the earlier ones are taken back
        rw [if_neg (by decide), wp_bind]
        refine wp_uvmdealloc_rep ht (hext.keep hr) ?_ fun t' A' ht' hchange hr' hmaps' _ => ?_
        · rw [← hmaps] at hmapped hfree
          exact sized_mul hmapped hfree
        · rw [pages_mul, pages_mul, hmaps] at hmaps'
          exact hfail t' A' ht' (hext.toChange.trans hchange) hr' hmaps'
            (List.mem_of_mem_take hanswer)
      · rw [if_pos rfl,
          show v * pgsize + pgsize = (v + 1) * pgsize by simp only [pgsize]; omega]
        refine ih ht (hext.keep hr) (fun u hu => ?_) (fun u hu hut => ?_) (by omega) hvt
          (fun t' A' ht' hchange hr' hmaps' hanswer => ?_)
          fun t' A' ht' hext' hn hnew hold => ?_
        · rw [hadd.maps]
          split_ifs with huv
          · simp
          · exact hmapped u (by omega)
        · rw [hadd.maps, if_neg (by omega)]
          exact hfree u (by omega) hut
        · refine hfail t' A' ht' (hext.toChange.trans hchange) hr' (fun u => ?_)
            (hext.supply.subset hanswer)
          rcases eq_or_ne u v with rfl | huv
          · rw [hmaps', if_pos (by omega), if_neg (by omega), hfree u le_rfl hvt]
          · rw [hmaps', hadd.maps, if_neg huv]
            exact if_congr (by omega) rfl rfl
        · refine hQ t' A' ht' (hext.trans hext') (by omega) (fun u h1 h2 => ?_) fun u hu => ?_
          · rcases Nat.eq_or_lt_of_le h1 with rfl | hlt
            · refine ⟨pg, hadd.fresh, hadd.aligned, (hext'.frame hadd.frame).trans hadd.bytes, ?_⟩
              rw [hold v (by omega), hadd.maps, if_pos rfl]
            · obtain ⟨pg', hpg', hpage'⟩ := hnew u hlt (by omega)
              refine ⟨pg', ?_, hpage'⟩
              by_contra hne
              obtain ⟨o, ho⟩ := Option.ne_none_iff_exists'.mp hne
              rw [hext.keep ho] at hpg'
              cases hpg'
          · rw [hold u (by omega), hadd.maps, if_neg (by omega)]

/-- `uvmalloc` from size `oldsz` fails or makes the memory larger. -/
theorem wp_uvmalloc_rep {Q : ℕ → Phys → Prop} (h : Rep C s A)
    (hr : A.owner r = some (.table r 2 0)) (hsz : Sized A r oldsz)
    (hsame : newsz < oldsz → Q oldsz s)
    (hfail : ∀ t A', oldsz ≤ newsz → Rep C t A' → Change r A A' s t →
      A'.owner r = some (.table r 2 0) → A'.maps r = A.maps r → none ∈ s.supply → Q 0 t)
    (hQ : ∀ t A', oldsz ≤ newsz → Rep C t A' → Extend r A A' s t → Sized A' r newsz →
      (∀ u, ¬(pages oldsz ≤ u ∧ u < pages newsz) → A'.maps r u = A.maps r u) →
      (∀ u, pages oldsz ≤ u → u < pages newsz → ∃ pg, A.owner pg = none ∧ pgsize ∣ pg ∧
        t.mem pg = (fun _ => 0) ∧ A'.maps r u = some (pa2pte pg ||| userPerm ||| pteV)) →
      Q newsz t) : wp (uvmalloc C r oldsz newsz) Q s := by
  rw [uvmalloc, wp_ite]
  refine ⟨fun hlt => hsame hlt, fun hge => ?_⟩
  have hpages := hsz.pages_le h
  have hle := hsz.le h
  have hmono : pages oldsz ≤ pages newsz := pages_mono (by omega)
  have hrounds : pagesBelow (pages oldsz * pgsize) newsz = pages newsz - pages oldsz := by
    simp only [pagesBelow, pages, pgsize]
    omega
  have hend : pages oldsz + (pages newsz - pages oldsz) = pages newsz := by omega
  have htop : pages oldsz ≤ trapframePage := le_trans hpages (by decide)
  rw [wp_bind, pgroundup_eq (by omega), hrounds]
  refine wp_uvmallocLoop_rep h hr (fun u hu => (hsz u (by omega)).mpr hu) (fun u hu hut => ?_)
    le_rfl htop (fun t A' ht hchange hr' hmaps hanswer => ?_) fun t A' ht hext hn hnew hold => ?_
  · by_contra hne
    have := (hsz u hut).mp hne
    omega
  · refine hfail t A' (by omega) ht hchange hr' (funext fun u => ?_) hanswer
    rw [hmaps, if_neg (by omega)]
  · rw [hend] at hn hnew hold
    refine hQ t A' (by omega) ht hext (fun u hut => ?_) hold hnew
    by_cases hu : pages oldsz ≤ u ∧ u < pages newsz
    · obtain ⟨pg, -, -, -, hw⟩ := hnew u hu.1 hu.2
      simp only [hw, ne_eq, reduceCtorEq, not_false_eq_true, true_iff]
      exact hu.2
    · rw [hold u hu, hsz u hut]
      omega

end Xv6.Vm
