import Xv6.Vm.Image

/-!
Copying the memory of a process (`uvmcopy`), with an allocator that may
fail at every call.

A failure in a later round takes back what the earlier rounds have made.
In the first round there is nothing to take back, but `uvmcopy` calls
`uvmunmap` all the same, with size 0: its loop runs from page 0 to the page
of address `-1`, and panics at once since page 0 is not mapped.
-/

namespace Xv6.Vm

open Lib Prog

variable {C : Config} {s t : Phys} {A A' : View} {old new r v w n i k l x pg sz va perm : ℕ}

/-! ### Answers for every call -/

/-- The next `k` calls of `kalloc` are answered, each with a page that is
free then or with the null pointer. -/
def Supplied (C : Config) (s : Phys) (k : ℕ) : Prop :=
  ∃ answers rest : List (Option ℕ), s.supply = answers ++ rest ∧ k ≤ answers.length ∧
    answers.reduceOption.Nodup ∧ ∀ pg, some pg ∈ answers → pg ∈ C.pool ∧ pg ∉ s.used

theorem Supplied.mono {m : ℕ} (h : Supplied C s m) (hk : k ≤ m) : Supplied C s k := by
  obtain ⟨answers, rest, hsupply, hlen, hanswers⟩ := h
  exact ⟨answers, rest, hsupply, hk.trans hlen, hanswers⟩

theorem Supplied.of_used (h : Supplied C s k) (hsupply : t.supply = s.supply)
    (hused : t.used ⊆ s.used) : Supplied C t k := by
  obtain ⟨answers, rest, heq, hlen, hnodup, hfree⟩ := h
  exact ⟨answers, rest, hsupply.trans heq, hlen, hnodup,
    fun pg hpg => ⟨(hfree pg hpg).1, fun hmem => (hfree pg hpg).2 (hused hmem)⟩⟩

theorem served_kalloc_supplied {Q : Option ℕ → Phys → Prop} (h : Supplied C s (k + 1))
    (hQ : ∀ a t, Supplied C t k → Q a t) : served (kalloc C) Q s := by
  obtain ⟨answers, rest, hsupply, hlen, hnodup, hfree⟩ := h
  cases answers with
  | nil => exact absurd hlen (Nat.not_succ_le_zero k)
  | cons a answers =>
      have hlen' : k ≤ answers.length := Nat.le_of_succ_le_succ hlen
      simp only [served, kalloc, hsupply, List.cons_append]
      cases a with
      | none =>
          rw [List.reduceOption_cons_of_none] at hnodup
          exact hQ _ _ ⟨answers, rest, rfl, hlen', hnodup,
            fun q hq => hfree q (List.mem_cons_of_mem _ hq)⟩
      | some pg =>
          rw [List.reduceOption_cons_of_some, List.nodup_cons] at hnodup
          simp only [if_pos (hfree pg List.mem_cons_self)]
          refine hQ _ _ ⟨answers, rest, rfl, hlen', hnodup.2, fun q hq => ?_⟩
          obtain ⟨hpool, hused⟩ := hfree q (List.mem_cons_of_mem _ hq)
          refine ⟨hpool, fun hmem => ?_⟩
          rcases Finset.mem_insert.mp hmem with rfl | hmem
          · exact hnodup.1 (List.reduceOption_mem_iff.mpr hq)
          · exact hused hmem

theorem served_walkFrom_supplied {Q : Option (ℕ × ℕ) → Phys → Prop} (h : Supplied C s (l + k))
    (hQ : ∀ a t, Supplied C t k → Q a t) : served (walkFrom C va true l x) Q s := by
  induction l generalizing s x with
  | zero => exact hQ _ s (h.mono (by omega))
  | succ l ih =>
      simp only [walkFrom, served_bind, served_load, if_true]
      refine served_ite (fun _ => ih (h.mono (by omega))) fun _ => ?_
      rw [served_bind]
      refine served_kalloc_supplied (k := l + k) (h.mono (by omega)) fun a t ht => ?_
      cases a with
      | none => exact hQ none t (ht.mono (by omega))
      | some page =>
          simp only [clearPage, setPage, store, served_bind, served_modify]
          exact ih (s := (t.setPage page fun _ => 0).set _ _ _)
            (ht.of_used rfl (Finset.Subset.refl _))

variable {Q : Bool → Phys → Prop}

/-- Mapping a page takes at most two page-table pages. -/
theorem served_mappages_supplied (hv : v < maxPage)
    (h : Supplied C s (2 + k)) (hQ : ∀ b t, Supplied C t k → Q b t) :
    served (mappages C r (v * pgsize) pgsize pg perm) Q s := by
  rw [mappages, rounds_page hv, pgrounddown_page]
  simp only [mappagesLoop, served_bind]
  rw [walk]
  refine served_ite (fun _ => served_fault) fun _ => ?_
  refine served_walkFrom_supplied h fun place t ht => ?_
  cases place with
  | none => exact hQ false t ht
  | some place =>
      simp only [served_bind, served_load]
      refine served_ite (fun _ => served_fault) fun _ => ?_
      exact hQ true (t.set _ _ _) (ht.of_used rfl (Finset.Subset.refl _))

theorem served_addPage {fill : ℕ → VmM Unit} (hv : v < maxPage)
    (hfill : ∀ pg s₁, ∃ f, fill pg s₁ = .ok () (s₁.setPage pg f)) (h : Supplied C s (3 + k))
    (hQ : ∀ b t, Supplied C t k → Q b t) : served (addPage C r (v * pgsize) perm fill) Q s := by
  rw [addPage, served_bind]
  refine served_kalloc_supplied (k := 2 + k) (h.mono (by omega)) fun a t ht => ?_
  cases a with
  | none => exact hQ false t (ht.mono (by omega))
  | some page =>
      obtain ⟨f, hf⟩ := hfill page t
      change served (fill page >>= fun _ => _) Q t
      rw [served_bind, served, hf]
      change served (mappages C r (v * pgsize) pgsize page perm >>= fun _ => _) Q _
      rw [served_bind]
      refine served_mappages_supplied hv (ht.of_used (t := t.setPage page f) rfl
        (Finset.Subset.refl _)) fun b u hu => ?_
      cases b with
      | true => exact hQ true u hu
      | false =>
          rw [if_neg (by decide), served_bind, served, kfree]
          split_ifs
          · exact hQ false _ (hu.of_used rfl (Finset.erase_subset _ _))
          · trivial

/-! ### The loop -/

theorem uvmcopyLoop_succ (C : Config) (old new n i : ℕ) :
    uvmcopyLoop C old new (n + 1) i = (do
      match ← walk C old i false with
      | none => Prog.fault .uvmcopyPteShouldExist
      | some (page, k) => do
          let pte ← load page k
          if pte &&& pteV = 0 then Prog.fault .uvmcopyPageNotPresent
          else do
            if ← addPage C new i (pteFlags pte) fun mem => copyPage mem (pte2pa pte) then
              uvmcopyLoop C old new n (i + pgsize)
            else do
              uvmunmap C new 0 i true
              pure false) := by
  rw [uvmcopyLoop]
  refine bind_congr fun place => ?_
  cases place with
  | none => rfl
  | some place =>
      refine bind_congr fun pte => if_congr Iff.rfl rfl ?_
      rw [addPage, bind_assoc]
      refine bind_congr fun page => ?_
      cases page with
      | none =>
          change _ = pure false >>= fun _ => _
          rw [pure_bind, if_neg Bool.false_ne_true]
      | some mem =>
          change (copyPage mem (pte2pa pte) >>= fun _ => _) =
            (copyPage mem (pte2pa pte) >>= fun _ => _) >>= fun _ => _
          rw [bind_assoc]
          refine bind_congr fun _ => ?_
          rw [bind_assoc]
          refine bind_congr fun ok => ?_
          cases ok with
          | true => rw [if_pos rfl, if_pos rfl, pure_bind, if_pos rfl]
          | false =>
              rw [if_neg Bool.false_ne_true, if_neg Bool.false_ne_true, bind_assoc]
              refine bind_congr fun _ => ?_
              rw [pure_bind, if_neg Bool.false_ne_true]

theorem pteFlags_lt (w : ℕ) : pteFlags w < 1024 :=
  lt_of_le_of_lt Nat.and_le_right (by decide)

theorem pteFlags_leaf (h : w &&& (pteR ||| pteW ||| pteX) ≠ 0) :
    pteFlags w &&& (pteR ||| pteW ||| pteX) ≠ 0 := by
  rwa [pteFlags, Nat.and_assoc]

theorem pteFlags_or_pteV (h : w &&& pteV ≠ 0) : pteFlags w ||| pteV = pteFlags w := by
  have hodd : w % 2 = 1 := by
    rw [pteV, Nat.and_one_is_mod] at h
    omega
  apply Nat.eq_of_testBit_eq
  intro j
  rw [Nat.testBit_or]
  cases j with
  | zero => simp [pteFlags, hodd]
  | succ j => simp [pteV, Nat.testBit_succ]

/-- The pages `v, …, v + n - 1` of the new table are fresh pages with the
contents and the flags of those of the old one. -/
structure Copied (old new v n : ℕ) (A A' : View) (s t : Phys) : Prop where
  page : ∀ u, v ≤ u → u < v + n → ∃ w pg, A.maps old u = some w ∧ A.owner pg = none ∧
    pgsize ∣ pg ∧ t.mem pg = s.mem (pte2pa w) ∧
    A'.maps new u = some (pa2pte pg ||| pteFlags w ||| pteV)
  other : ∀ u, ¬(v ≤ u ∧ u < v + n) → A'.maps new u = A.maps new u

/-- The first page copied, then the rest. -/
theorem Copied.cons {A₁ : View} {s₁ : Phys} (h : Rep C s A) (hne : old ≠ new)
    (hv : v + n < trapframePage) (hw : A.maps old v = some w) (hext : Extend new A A₁ s s₁)
    (hadd : Added new v (pteFlags w) (s.mem (pte2pa w)) A A₁ s₁ pg)
    (hext' : Extend new A₁ A' s₁ t) (hrest : Copied old new (v + 1) n A₁ A' s₁ t) :
    Copied old new v (n + 1) A A' s t where
  page u h1 h2 := by
    rcases Nat.eq_or_lt_of_le h1 with rfl | hlt
    · refine ⟨w, pg, hw, hadd.fresh, hadd.aligned, (hext'.frame hadd.frame).trans hadd.bytes, ?_⟩
      rw [hrest.other v (by omega), hadd.maps, if_pos rfl]
    · obtain ⟨w', pg', hw', hpg', halign, hbytes, hmap⟩ := hrest.page u hlt (by omega)
      rw [hext.maps old hne] at hw'
      refine ⟨w', pg', hw', ?_, halign, hbytes.trans ?_, hmap⟩
      · by_contra hsome
        obtain ⟨o, ho⟩ := Option.ne_none_iff_exists'.mp hsome
        rw [hext.keep ho] at hpg'
        cases hpg'
      · exact hext.mem (h.frame_iff.mpr ⟨by omega, w', hw', rfl⟩) hne
  other u hu := by
    rw [hrest.other u (by omega), hadd.maps, if_neg (by omega)]

/-- The loop of `uvmcopy` copies the next `n` pages, or leaves no user page
in the new table. Only in its first round, with nothing copied yet, it must
not fail. -/
theorem wp_uvmcopyLoop (h : Rep C s A)
    (hold : A.owner old = some (.table old 2 0)) (hnew : A.owner new = some (.table new 2 0))
    (hne : old ≠ new) (hparent : ∀ u < v + n, A.maps old u ≠ none)
    (hmapped : ∀ u < v, A.maps new u ≠ none)
    (hfree : ∀ u, v ≤ u → u < trapframePage → A.maps new u = none)
    (hfirst : v = 0 → n ≠ 0 → none ∉ s.supply.take (1 + missing s 0 2 new))
    (hfail : ∀ t A', Rep C t A' → Change new A A' s t → A'.owner new = some (.table new 2 0) →
      (∀ u < trapframePage, A'.maps new u = none) → Q false t)
    (hQ : ∀ t A', Rep C t A' → Extend new A A' s t → Copied old new v n A A' s t → Q true t) :
    wp (uvmcopyLoop C old new n (v * pgsize)) Q s := by
  induction n generalizing s A v with
  | zero => exact hQ s A h (.refl new A s) ⟨fun u h1 h2 => by omega, fun _ _ => rfl⟩
  | succ n ih =>
      have hle := h.mapped_below_le fun u hu _ => hparent u hu
      have htop : v + (n + 1) < trapframePage := lt_of_le_of_lt hle (by decide)
      obtain ⟨w, hw⟩ := exists_of_ne_none (hparent v (by omega))
      obtain ⟨hleaf, hmax, -⟩ := h.maps_leaf hw
      rw [uvmcopyLoop_succ, wp_bind]
      refine wp_walk_mapped h.toTree hold hmax hw fun y hy hword => ?_
      have hvalid := (h.word_eq hy hw).2
      change wp (load y (v % 512) >>= fun _ => _) Q s
      rw [wp_bind, wp_load, hword, if_neg hvalid, wp_bind]
      refine wp_addPage (f := s.mem (pte2pa w)) h hnew (by omega) (hfree v le_rfl (by omega))
        (pteFlags_lt w) (pteFlags_leaf hleaf) (fun pg s₁ hmem => ?_)
        (fun t A₁ ht hext hmaps hanswer => ?_) fun t A₁ pg ht hext hadd _ => ?_
      · rw [← hmem]
        rfl
      · -- the pages of the earlier rounds, at least one, are taken back
        have hpos : 0 < v := by
          refine Nat.pos_of_ne_zero fun hzero => ?_
          subst hzero
          rw [Nat.zero_mul] at hanswer
          exact hfirst rfl (Nat.succ_ne_zero n) hanswer
        rw [if_neg Bool.false_ne_true, wp_bind, ← Nat.zero_mul pgsize]
        rw [← hmaps] at hmapped hfree
        refine wp_uvmunmap_rep ht (hext.keep hnew) (sized_mul hmapped hfree)
          (by rwa [pages_mul]) (by omega) fun t' A' ht' hchange hroot hmaps' _ => ?_
        refine hfail t' A' ht' (hext.toChange.trans hchange) hroot fun u hu => ?_
        rw [hmaps', pages_mul]
        split_ifs with huv
        · rfl
        · exact hfree u (by omega) hu
      · rw [if_pos rfl,
          show v * pgsize + pgsize = (v + 1) * pgsize by simp only [pgsize]; omega]
        refine ih ht (hext.root hne hold) (hext.keep hnew) (fun u hu => ?_) (fun u hu => ?_)
          (fun u hu hut => ?_) (fun hzero => absurd hzero (Nat.succ_ne_zero v))
          (fun t' A' ht' hchange hroot hmaps => ?_) fun t' A' ht' hext' hcopied => ?_
        · rw [hext.maps old hne]
          exact hparent u (by omega)
        · rw [hadd.maps]
          split_ifs with huv
          · simp
          · exact hmapped u (by omega)
        · rw [hadd.maps, if_neg (by omega)]
          exact hfree u (by omega) hut
        · exact hfail t' A' ht' (hext.toChange.trans hchange) hroot hmaps
        · exact hQ t' A' ht' (hext.trans hext')
            (.cons h hne (by omega) hw hext hadd hext' hcopied)

/-- When `kalloc` fails in the first round, `uvmcopy` does not return. -/
theorem wpf_uvmcopyLoop_first (h : Rep C s A)
    (hold : A.owner old = some (.table old 2 0)) (hnew : A.owner new = some (.table new 2 0))
    (hw : A.maps old 0 = some w) (hfree : ∀ u < trapframePage, A.maps new u = none)
    (hanswer : none ∈ s.supply.take (1 + missing s 0 2 new)) :
    wpf (fun _ => True) (uvmcopyLoop C old new (n + 1) (0 * pgsize)) Q s := by
  obtain ⟨hleaf, hmax, -⟩ := h.maps_leaf hw
  rw [uvmcopyLoop_succ, wpf_bind]
  refine wpf_of_wp (wp_walk_mapped h.toTree hold hmax hw fun y hy hword => ?_)
  have hvalid := (h.word_eq hy hw).2
  change wpf _ (load y (0 % 512) >>= fun _ => _) Q s
  rw [wpf_bind]
  change wpf _ (if s.mem y (0 % 512) &&& pteV = 0 then _ else _) Q s
  rw [hword, if_neg hvalid, wpf_bind]
  refine wpf_of_wp (wp_addPage (f := s.mem (pte2pa w)) h hnew (by decide) (hfree 0 (by decide))
    (pteFlags_lt w) (pteFlags_leaf hleaf) (fun pg s₁ hmem => ?_)
    (fun t A₁ ht hext hmaps _ => ?_) fun t A₁ pg ht hext hadd hno => ?_)
  · rw [← hmem]
    rfl
  · rw [if_neg Bool.false_ne_true, wpf_bind, ← Nat.zero_mul pgsize]
    refine wpf_uvmunmap_unmapped ht.toTree (hext.keep hnew) (by decide) ?_
    rw [hmaps]
    exact hfree 0 (by decide)
  · rw [Nat.zero_mul] at hno
    exact absurd hanswer hno

/-- A round takes at most three pages. -/
theorem served_uvmcopyLoop (hv : v + n ≤ maxPage) (h : Supplied C s (3 * n)) :
    served (uvmcopyLoop C old new n (v * pgsize)) (fun _ _ => True) s := by
  induction n generalizing s v with
  | zero => trivial
  | succ n ih =>
      rw [uvmcopyLoop_succ, served_bind]
      refine served_walk fun place => ?_
      cases place with
      | none => trivial
      | some place =>
          change served (load place.1 place.2 >>= fun _ => _) _ s
          rw [served_bind, served_load]
          refine served_ite (fun _ => served_fault) fun _ => ?_
          rw [served_bind]
          refine served_addPage (k := 3 * n) (by omega) (fun pg s₁ => ⟨_, rfl⟩)
            (h.mono (by omega)) fun b t ht => ?_
          refine served_ite (fun _ => ?_) fun _ => ?_
          · rw [show v * pgsize + pgsize = (v + 1) * pgsize by simp only [pgsize]; omega]
            exact ih (by omega) ht
          · rw [served_bind]
            exact served_mono served_uvmunmap fun _ _ _ => trivial

/-! ### Clean failures -/

/-- The user memory of the new table is a copy, in fresh pages of its own, of
the first `sz` bytes of the old one. -/
structure IsCopy (C : Config) (old new sz : ℕ) (s t : Phys) : Prop where
  page : ∀ va < sz, ∃ pa pg flags, translate C s old va = some (pa, flags) ∧
    translate C t new va = some (pg, flags) ∧ pg ∉ s.used ∧ t.mem pg = s.mem pa
  unshared : ∀ va < sz, ∀ va' < sz, ∀ pg f f', translate C t new va = some (pg, f) →
    translate C t new va' = some (pg, f') → va / pgsize = va' / pgsize

/-- No user page is mapped in the new table, and what has been allocated and
not freed again are page-table pages of it. -/
def IsUndone (C : Config) (new : ℕ) (s t : Phys) : Prop :=
  (∀ va < trapframeVa, translate C t new va = none) ∧
    ∀ x ∈ t.used, x ∉ s.used → ∃ d n, d ≤ 2 ∧ pageAt t new d n = some x

/-- The old table translates as before, and no page is written or freed but
those that were page-table pages of the new table. -/
def IsUntouched (C : Config) (old new : ℕ) (s t : Phys) : Prop :=
  (∀ va, translate C t old va = translate C s old va) ∧
    ∀ x ∈ s.used, (∀ d n, d ≤ 2 → pageAt s new d n ≠ some x) → x ∈ t.used ∧ t.mem x = s.mem x

/-- `uvmcopy` returns, and has either copied everything or left nothing. -/
def CopiesCleanly (C : Config) (old new sz : ℕ) (s : Phys) : Prop :=
  ∃ ok t, uvmcopy C old new sz s = .ok ok t ∧ IsUntouched C old new s t ∧
    if ok then IsCopy C old new sz s t else IsUndone C new s t

theorem Change.isUntouched (hchange : Change new A A' s t) (h : Rep C s A) (ht : Rep C t A')
    (hold : A.owner old = some (.table old 2 0)) (hnew : A.owner new = some (.table new 2 0))
    (hne : old ≠ new) (hfree : ∀ u < trapframePage, A.maps new u = none) :
    IsUntouched C old new s t := by
  constructor
  · intro va
    rcases Nat.lt_or_ge va maxva with hva | hva
    · rw [ht.toTree.translate_eq (hchange.root hne hold) hva, h.toTree.translate_eq hold hva,
        hchange.maps old hne]
    · simp only [translate, walk, if_pos hva, Prog.fault]
  · intro x hx hno
    obtain ⟨o, ho⟩ := Option.isSome_iff_exists.mp ((h.used_iff x).mp hx)
    have hof : ¬ o.Of new := by
      intro hof
      cases o with
      | table r' l m =>
          obtain rfl : r' = new := hof
          have hl := h.level ho
          refine hno (2 - l) m (by omega) ((h.toTree.pageAt_iff hnew (by omega)).mpr ?_)
          rwa [show 2 - (2 - l) = l by omega]
      | frame r' u =>
          obtain rfl : r' = new := hof
          obtain ⟨hu, w, hw, -⟩ := h.frame_iff.mp ho
          cases (hfree u hu).symm.trans hw
      | trapframe i => exact hof
      | loose => exact hof
    exact ⟨(ht.used_iff x).mpr (by simp [(hchange.owner hof).mpr ho]), hchange.mem ho hof⟩

theorem Change.isUndone (hchange : Change new A A' s t) (h : Rep C s A) (ht : Rep C t A')
    (hroot : A'.owner new = some (.table new 2 0))
    (hmaps : ∀ u < trapframePage, A'.maps new u = none) : IsUndone C new s t := by
  constructor
  · intro va hva
    have hlt : va < maxva ∧ va / pgsize < trapframePage := by
      simp only [trapframeVa, trampolineVa, maxva, pgsize, trapframePage] at hva ⊢
      omega
    rw [ht.toTree.translate_eq hroot hlt.1, hmaps _ hlt.2]
    rfl
  · intro x hx hxs
    obtain ⟨o, ho⟩ := Option.isSome_iff_exists.mp ((ht.used_iff x).mp hx)
    have hof : o.Of new := by
      by_contra hof
      exact hxs ((h.used_iff x).mpr (by simp [(hchange.owner hof).mp ho]))
    rcases (ht.inTable_iff hroot).mpr ⟨o, ho, hof⟩ with hpage | ⟨va, flags, hva, htrans⟩
    · exact hpage
    · have hlt : va < maxva ∧ va / pgsize < trapframePage := by
        simp only [trapframeVa, trampolineVa, maxva, pgsize, trapframePage] at hva ⊢
        omega
      rw [ht.toTree.translate_eq hroot hlt.1, hmaps _ hlt.2] at htrans
      cases htrans

theorem Copied.isCopy (hcopied : Copied old new 0 (pages sz) A A' s t) (h : Rep C s A)
    (ht : Rep C t A') (hold : A.owner old = some (.table old 2 0))
    (hroot : A'.owner new = some (.table new 2 0)) (hle : pages sz ≤ 2 ^ 15) :
    IsCopy C old new sz s t := by
  have hva : ∀ {va}, va < sz → va / pgsize < pages sz ∧ va < maxva := by
    intro va hva
    simp only [pages, pgsize, maxva] at hle ⊢
    omega
  constructor
  · intro va hlt
    obtain ⟨hpage, hmax⟩ := hva hlt
    obtain ⟨w, pg, hw, hpg, halign, hbytes, hmap⟩ :=
      hcopied.page (va / pgsize) (Nat.zero_le _) (by omega)
    obtain ⟨y, hy⟩ := h.table_of_maps hw
    have hvalid := (h.word_eq hy hw).2
    refine ⟨pte2pa w, pg, pteFlags w, ?_, ?_, ?_, hbytes⟩
    · rw [h.toTree.translate_eq hold hmax, hw]
      rfl
    · have hread := reading_leafWord halign (pteFlags_lt w)
      rw [pteFlags_or_pteV hvalid] at hread
      rw [ht.toTree.translate_eq hroot hmax, hmap, Option.map_some, ← hread]
      rfl
    · rw [h.used_iff, hpg]
      exact Bool.false_ne_true
  · -- a user page has one place in one table
    have hframe : ∀ {va pg f}, va < sz → translate C t new va = some (pg, f) →
        A'.owner pg = some (.frame new (va / pgsize)) := by
      intro va pg f hlt htrans
      obtain ⟨hpage, hmax⟩ := hva hlt
      rw [ht.toTree.translate_eq hroot hmax, Option.map_eq_some_iff] at htrans
      obtain ⟨w, hw, hread⟩ := htrans
      refine ht.frame_iff.mpr ⟨?_, w, hw, congrArg Prod.fst hread⟩
      exact lt_of_lt_of_le hpage (hle.trans (by decide))
    intro va hlt va' hlt' pg f f' htrans htrans'
    have hsame := (hframe hlt htrans).symm.trans (hframe hlt' htrans')
    exact (Owner.frame.inj (Option.some.inj hsame)).2

theorem uvmcopy_eq (C : Config) (old new sz : ℕ) :
    uvmcopy C old new sz = uvmcopyLoop C old new (pages sz) (0 * pgsize) := by
  rw [uvmcopy, Nat.zero_mul]
  rfl

/-- `uvmcopy` is clean exactly if there is nothing to copy or `kalloc` does
not fail in the first round, neither for the page nor for the page-table
pages that are missing on the way to address 0. -/
theorem uvmcopy_clean_iff (h : Rep C s A) (hold : A.owner old = some (.table old 2 0))
    (hnew : A.owner new = some (.table new 2 0)) (hne : old ≠ new)
    (hparent : ∀ u < pages sz, A.maps old u ≠ none)
    (hchild : ∀ u < trapframePage, A.maps new u = none) (hsupply : Supplied C s (3 * pages sz)) :
    CopiesCleanly C old new sz s ↔
      sz = 0 ∨ none ∉ s.supply.take (1 + missing s 0 2 new) := by
  have hle := h.mapped_below_le fun u hu _ => hparent u hu
  constructor
  · rintro ⟨ok, t, hrun, -⟩
    by_contra hnot
    obtain ⟨hpos, hanswer⟩ := not_or.mp hnot
    obtain ⟨n, hn⟩ : ∃ n, pages sz = n + 1 := by
      refine Nat.exists_eq_succ_of_ne_zero fun hzero => hpos ?_
      simp only [pages, pgsize] at hzero
      omega
    obtain ⟨w, hw⟩ := exists_of_ne_none (hparent 0 (by omega))
    have hstop : wpf (fun _ => True) (uvmcopy C old new sz) (fun _ _ => False) s := by
      rw [uvmcopy_eq, hn]
      exact wpf_uvmcopyLoop_first h hold hnew hw hchild (not_not.mp hanswer)
    exact of_wpf hstop hrun
  · intro hfirst
    have hwp : wp (uvmcopy C old new sz) (fun ok t => IsUntouched C old new s t ∧
        if ok then IsCopy C old new sz s t else IsUndone C new s t) s := by
      rw [uvmcopy_eq]
      refine wp_uvmcopyLoop h hold hnew hne (by simpa using hparent) (fun u hu => by omega)
        (fun u _ hu => hchild u hu) (fun _ hn => ?_)
        (fun t A' ht hchange hroot hmaps => ?_) fun t A' ht hext hcopied => ?_
      · refine hfirst.resolve_left fun hzero => hn ?_
        rw [hzero]
        rfl
      · rw [if_neg Bool.false_ne_true]
        exact ⟨hchange.isUntouched h ht hold hnew hne hchild, hchange.isUndone h ht hroot hmaps⟩
      · rw [if_pos rfl]
        exact ⟨hext.isUntouched h ht hold hnew hne hchild,
          hcopied.isCopy h ht hold (hext.keep hnew) hle⟩
    have hserved : served (uvmcopy C old new sz) (fun _ _ => True) s := by
      rw [uvmcopy_eq]
      refine served_uvmcopyLoop ?_ hsupply
      rw [Nat.zero_add]
      exact hle.trans (by decide)
    obtain ⟨ok, t, hrun, hpost, -⟩ := exists_of_served hwp hserved
    exact ⟨ok, t, hrun, hpost⟩

/-! ### A parent and a child -/

/-- The tables that `fork` works with: that of a process and a new one. -/
def parentAndChild (C : Config) (tf tf' : ℕ) (calls : List Resize) : VmM (ℕ × ℕ × ℕ) := do
  let (old, sz) ← image C tf calls
  let new ← procPagetable C tf'
  pure (old, new, sz)

theorem exists_parentAndChild {tf tf' : ℕ} {calls : List Resize} (hpool : s.used ⊆ C.pool)
    (htf : tf ∈ s.used) (htf' : tf' ∈ s.used)
    (hrun : parentAndChild C tf tf' calls s = .ok (old, new, sz) t) :
    ∃ A, Rep C t A ∧ A.owner old = some (.table old 2 0) ∧ A.owner new = some (.table new 2 0) ∧
      old ≠ new ∧ (∀ u < pages sz, A.maps old u ≠ none) ∧
      ∀ u < trapframePage, A.maps new u = none := by
  have hprog : wpf (fun _ => True) (parentAndChild C tf tf' calls) (fun p t => ∃ A, Rep C t A ∧
      A.owner p.1 = some (.table p.1 2 0) ∧ A.owner p.2.1 = some (.table p.2.1 2 0) ∧
      p.1 ≠ p.2.1 ∧ (∀ u < pages p.2.2, A.maps p.1 u ≠ none) ∧
      ∀ u < trapframePage, A.maps p.2.1 u = none) s := by
    rw [parentAndChild, wpf_bind]
    refine wpf_mono (wpf_image hpool htf) fun p t₁ ⟨A₁, h₁⟩ => ?_
    have hkeep : tf' ∈ t₁.used := by
      refine (h₁.rep.used_iff tf').mpr ?_
      rw [(h₁.change.owner (o := .loose) id).mpr (View.owner_loose.mpr ⟨htf', rfl⟩)]
      rfl
    change wpf _ (procPagetable C tf' >>= fun _ => _) _ t₁
    rw [wpf_bind]
    refine wpf_procPagetable h₁.rep hkeep (fun _ => trivial) fun t₂ A₂ new hnew => ?_
    have hne : p.1 ≠ new := by
      rintro rfl
      have hroot := h₁.root
      rw [hnew.fresh] at hroot
      cases hroot
    have hle := (h₁.sized.pages_le h₁.rep).trans (by decide : 2 ^ 15 ≤ trapframePage)
    refine ⟨A₂, hnew.rep, hnew.extend.keep h₁.root, hnew.root, hne, fun u hu => ?_, hnew.user⟩
    rw [hnew.extend.maps p.1 hne]
    exact (h₁.sized u (lt_of_lt_of_le hu hle)).mpr hu
  exact of_wpf hprog hrun

/-- Two trapframes are handed out; nine pages follow, and then `last`. -/
def twoTrapframes (last : List (Option ℕ)) : Phys where
  mem := fun _ _ => 0
  used := {4096, 8192}
  supply := (List.range 9).map (fun i => some ((i + 3) * 4096)) ++ last

/-- With a page for the copy and two for the child's table, the one page of
the parent is copied. -/
theorem uvmcopy_clean_one_page : ∃ t, parentAndChild sixteenPages 4096 8192 [.uvmalloc 4096]
      (twoTrapframes [some 49152, some 53248, some 57344]) = .ok (12288, 36864, 4096) t ∧
    CopiesCleanly sixteenPages 12288 36864 4096 t := by
  have hrun : ((parentAndChild sixteenPages 4096 8192 [.uvmalloc 4096]
      (twoTrapframes [some 49152, some 53248, some 57344])).toOption.map
      fun p => (p.1, p.2.supply, [49152, 53248, 57344].all fun pg => decide (pg ∉ p.2.used))) =
      some ((12288, 36864, 4096), [some 49152, some 53248, some 57344], true) := by
    decide +kernel
  obtain ⟨⟨p, t⟩, hend, heq⟩ := Option.map_eq_some_iff.mp hrun
  simp only [Prod.mk.injEq] at heq
  obtain ⟨rfl, hsupply, hfresh⟩ := heq
  have htables := Outcome.eq_ok_of_toOption hend
  obtain ⟨A, h, hold, hnew, hne, hparent, hchild⟩ :=
    exists_parentAndChild (by decide) (by decide) (by decide) htables
  refine ⟨t, htables, (uvmcopy_clean_iff h hold hnew hne hparent hchild ?_).mpr (.inr ?_)⟩
  · refine ⟨[some 49152, some 53248, some 57344], [], by rw [hsupply]; rfl, by decide, by decide,
      fun pg hpg => ?_⟩
    have hmem : pg ∈ [49152, 53248, 57344] := by simpa using hpg
    refine ⟨?_, of_decide_eq_true (List.all_eq_true.mp hfresh pg hmem)⟩
    clear hpg
    revert pg
    decide
  · intro hmem
    have := List.mem_of_mem_take hmem
    rw [hsupply] at this
    revert this
    decide

/-- No page for the copy of the first page of the parent. -/
theorem uvmcopy_panics : (do
      let p ← parentAndChild sixteenPages 4096 8192 [.uvmalloc 4096]
      uvmcopy sixteenPages p.1 p.2.1 p.2.2) (twoTrapframes [none]) = .fault .uvmunmapWalk :=
  Outcome.eq_fault_of_error (by decide +kernel)

end Xv6.Vm
