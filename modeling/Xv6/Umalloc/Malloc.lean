import Xv6.Umalloc.FreeList

/-!
What `malloc` returns, and that it returns.

The loop of `malloc` goes once round the circle, from the block after
`freep` to `freep` itself. If no block is large enough it asks `sbrk` for
more and goes round again. The new region is then usually found. The
exception is a region that was joined to the block below it with a sum of
sizes that wraps; but that block now ends below `top`, so a second region
cannot be joined to it, and the third round succeeds.
-/

namespace Xv6.Umalloc

open Lib

variable {base : ℕ} {h h' : Heap} {ring : List ℕ} {live : List (ℕ × ℕ)} {os : Sbrk}
  {nunits prevp p : ℕ}

/-- What a call of `malloc` for `nunits` units may answer. -/
structure Served (base : ℕ) (h : Heap) (live : List (ℕ × ℕ)) (nunits : ℕ) (v : ℕ × Heap) : Prop where
  failed : v.1 = 0 → v.2.failures = h.failures + 1 ∧ ∃ ring, Ready base v.2 ring live
  found : v.1 ≠ 0 → v.2.failures = h.failures ∧
    ∃ ring, Ready base v.2 ring ((v.1 - 16, nunits) :: live)

/-! ### Taking a block -/

theorem Ready.ne_base (hr : Ready base h ring live) (h1 : 1 ≤ nunits) (hn : nunits ≤ h.size p) :
    p ≠ base := by
  rintro rfl
  have := hr.base_size
  omega

/-- A block that is large enough follows its predecessor without
wrap-around. -/
theorem Ready.split (hr : Ready base h ring live) (hprev : prevp ∈ ring) (h1 : 1 ≤ nunits)
    (hn : nunits ≤ h.size (h.ptr prevp)) :
    ∃ pre post, ring = pre ++ prevp :: h.ptr prevp :: post := by
  refine (hr.loop.next_sorted hr.sorted hprev).resolve_right fun hwrap => ?_
  have hle := (hwrap base hr.base_mem).1
  have hge := hr.base_le (hr.loop.next_mem hprev)
  exact hr.ne_base h1 hn (Nat.le_antisymm hle hge)

/-- The whole block is taken. -/
theorem Ready.take {pre post : List ℕ} (hr : Ready base h (pre ++ prevp :: p :: post) live)
    (h1 : 1 ≤ h.size p) :
    Ready base { h with ptr := Function.update h.ptr prevp (h.ptr p), freep := prevp }
      (pre ++ prevp :: post) ((p, h.size p) :: live) := by
  have hsub : List.Sublist (pre ++ prevp :: post) (pre ++ prevp :: p :: post) :=
    (List.Sublist.refl pre).append (.cons_cons prevp (.cons p (.refl post)))
  have hbase : p ≠ base := hr.ne_base h1 (Nat.le_refl _)
  refine ⟨⟨(hr.loop.skip hr.nodup).2, hr.sorted.sublist hsub, ?_, hr.base_size, ?_, ?_, hr.regions,
    hr.top⟩, by simp, fun a ha b hb => hr.gaps a (hsub.subset ha) b (hsub.subset hb)⟩
  · have := hr.base_mem
    simp only [List.mem_append, List.mem_cons] at this ⊢
    rcases this with hb | hb | hb | hb
    · exact .inl hb
    · exact .inr (.inl hb)
    · exact absurd hb.symm hbase
    · exact .inr (.inr hb)
  · have hfront := blocks_front h.size (pre ++ [prevp]) post p live
    rw [List.append_assoc, List.append_assoc] at hfront
    exact (hr.layout.perm hfront).perm (blocks_live h.size _ _ live).symm
  · exact List.forall_mem_cons.mpr ⟨⟨rfl, h1⟩, hr.recorded⟩

/-- The tail of a block is taken. -/
theorem Ready.cut (hr : Ready base h ring live) (hp : p ∈ ring) (hprev : prevp ∈ ring)
    (h1 : 1 ≤ nunits) (hn : nunits < h.size p) :
    let q := p + 16 * (h.size p - nunits)
    Ready base
      { h with
        size := Function.update (Function.update h.size p (h.size p - nunits)) q nunits
        freep := prevp }
      ring ((q, nunits) :: live) := by
  intro q
  have hbase : p ≠ base := hr.ne_base h1 (Nat.le_of_lt hn)
  obtain ⟨pre, post, rfl⟩ := List.append_of_mem hp
  have hlay := (hr.layout.perm (blocks_front h.size pre post p live)).cut hbase h1 hn
  obtain ⟨hapart, -, -⟩ := Layout.cons.mp hlay
  have hnodup := hr.nodup
  rw [List.nodup_middle, List.nodup_cons] at hnodup
  -- no header is where the new one goes
  have hqp : p ≠ q := (hapart _ (List.mem_cons_self ..)).ne.symm
  have hqother : ∀ a ∈ pre ++ post, a ≠ q := fun a ha =>
    (hapart _ (List.mem_cons_of_mem _ (free_mem_blocks ha))).ne.symm
  have hqlive : ∀ b ∈ live, b.1 ≠ q := fun b hb =>
    (hapart _ (List.mem_cons_of_mem _ (mem_blocks.mpr (.inr hb)))).ne.symm
  have hqring : ∀ a ∈ pre ++ p :: post, a ≠ q := by
    intro a ha
    rcases List.mem_append.mp ha with ha | ha
    · exact hqother a (by simp [ha])
    · rcases List.mem_cons.mp ha with rfl | ha
      · exact hqp
      · exact hqother a (by simp [ha])
  have hother : ∀ a, a ≠ p → a ≠ q →
      Function.update (Function.update h.size p (h.size p - nunits)) q nunits a = h.size a := by
    intro a hap haq
    rw [Function.update_of_ne haq, Function.update_of_ne hap]
  have hpsize : Function.update (Function.update h.size p (h.size p - nunits)) q nunits p =
      h.size p - nunits := by
    rw [Function.update_of_ne hqp, Function.update_self]
  refine ⟨⟨hr.loop, hr.sorted, hr.base_mem, ?_, ?_, ?_, hr.regions, hr.top⟩, hprev, ?_⟩
  · exact (hother base hbase.symm (hqring base hr.base_mem)).trans hr.base_size
  · refine Layout.perm ?_ ((blocks_live _ _ _ live).trans
      ((blocks_front _ pre post p live).cons _)).symm
    simp only [hpsize]
    have hrest : ∀ a ∈ pre ++ post, _ = h.size a := fun a ha =>
      hother a (fun hap => hnodup.1 (hap ▸ ha)) (hqother a ha)
    rw [blocks_congr hrest]
    exact hlay
  · refine List.forall_mem_cons.mpr ⟨⟨Function.update_self .., h1⟩, fun b hb => ?_⟩
    simp only [hother b.1 (hr.live_ne hb hp) (hqlive b hb)]
    exact hr.recorded b hb
  · rintro a ha b hb ⟨hne, hab⟩
    simp only at hab
    by_cases hap : a = p
    · subst hap
      rw [hpsize] at hab
      exact hqring b hb hab.symm
    · rw [hother a hap (hqring a ha)] at hab
      exact hr.gaps a ha b hb ⟨hne, hab⟩

theorem Ready.carve (hr : Ready base h ring live) (hprev : prevp ∈ ring) (h1 : 1 ≤ nunits)
    (hn : nunits ≤ h.size (h.ptr prevp)) :
    Served base h live nunits (carve nunits prevp (h.ptr prevp) h) := by
  unfold Umalloc.carve
  by_cases heq : h.size (h.ptr prevp) = nunits
  · obtain ⟨pre, post, hring⟩ := hr.split hprev h1 hn
    subst hring
    simp only [heq, if_true]
    refine ⟨fun h0 => by simp only at h0; omega, fun _ => ⟨rfl, pre ++ prevp :: post, ?_⟩⟩
    have htake := hr.take (by omega)
    rwa [heq] at htake
  · simp only [heq, if_false]
    refine ⟨fun h0 => by simp only at h0; omega, fun _ => ⟨rfl, ring, ?_⟩⟩
    exact hr.cut (hr.loop.next_mem hprev) hprev h1 (by omega)

/-! ### More memory -/

/-- No block reaches up to `top`. -/
def Short (h : Heap) (ring : List ℕ) : Prop := ∀ b ∈ ring, b + 16 * h.size b < h.top

/-- A region from `sbrk`, with its size filled in, is like a block of the
program. -/
theorem Ready.extend {a nu : ℕ} (hr : Ready base h ring live) (ha : h.top ≤ a) (hal : 16 ∣ a)
    (h1 : 1 ≤ nu) (hnu : nu < 2 ^ 32) :
    Ready base
      { h with
        size := Function.update h.size a nu
        top := a + nu * 16
        regions := (a, nu * 16) :: h.regions }
      ring ((a, nu) :: live) := by
  have hring : ∀ c ∈ ring, c ≠ a := by
    intro c hc
    have := hr.finish_le hc
    have := lt_finish (c, h.size c)
    simp only at this
    omega
  have hlive : ∀ b ∈ live, b.1 ≠ a := by
    intro b hb
    have := (hr.layout.placed b (mem_blocks.mpr (.inr hb))).finish_le hr.top
      fun r hr' => (hr.regions r hr').2
    have := lt_finish b
    omega
  have hsize : ∀ c ∈ ring, Function.update h.size a nu c = h.size c :=
    fun c hc => Function.update_of_ne (hring c hc) ..
  refine ⟨⟨hr.loop, hr.sorted, hr.base_mem, (hsize base hr.base_mem).trans hr.base_size, ?_, ?_, ?_,
    ?_⟩, hr.entry, ?_⟩
  · refine Layout.perm ?_ (blocks_live _ _ _ live).symm
    rw [blocks_congr hsize]
    exact hr.layout.fresh hr.top (fun r hr' => (hr.regions r hr').2) ha hal h1 hnu
  · refine List.forall_mem_cons.mpr ⟨⟨Function.update_self .., h1⟩, fun b hb => ?_⟩
    simp only [Function.update_of_ne (hlive b hb)]
    exact hr.recorded b hb
  · have htop := hr.top
    refine List.forall_mem_cons.mpr ⟨⟨by simp only; omega, Nat.le_refl _⟩, fun r hr' => ?_⟩
    have := hr.regions r hr'
    simp only
    omega
  · have htop := hr.top
    simp only
    omega
  · rintro c hc b hb ⟨hne, hcb⟩
    simp only [hsize c hc] at hcb
    exact hr.gaps c hc b hb ⟨hne, hcb⟩

theorem le_atLeast (nu : ℕ) : nu ≤ atLeast nu ∧ 1 ≤ atLeast nu := by
  unfold atLeast
  split <;> omega

theorem atLeast_le {nu : ℕ} (hn : nu ≤ 2 ^ 26 + 1) : atLeast nu ≤ 2 ^ 26 + 1 := by
  unfold atLeast
  split <;> omega

theorem toInt_eq {n : ℕ} (hn : n < 2 ^ 31) : toInt n = n := by
  unfold toInt
  exact Int.bmod_eq_of_le (by omega) (by omega)

/-- For requests of this size the argument of `sbrk` is the product itself. -/
theorem sbrk_units (os : Sbrk) (h : Heap) {nu : ℕ} (hn : nu ≤ 2 ^ 26 + 1) :
    sbrk os (toInt (atLeast nu * 16)) h =
      match os.ask h.top (atLeast nu * 16 : ℕ) with
      | none => some (none, { h with failures := h.failures + 1 })
      | some a => some (some a,
          { h with top := a + atLeast nu * 16, regions := (a, atLeast nu * 16) :: h.regions }) := by
  have hle := atLeast_le hn
  have hpos := (le_atLeast nu).2
  rw [toInt_eq (by omega), sbrk, if_neg (by omega)]
  rfl

theorem morecore_failed (hn : nunits ≤ 2 ^ 26 + 1)
    (hask : os.ask h.top (atLeast nunits * 16 : ℕ) = none) :
    Settles (fun n => morecore os nunits n h) (0, { h with failures := h.failures + 1 }) := by
  have hs := sbrk_units os h hn
  rw [hask] at hs
  simp only [morecore, hs, Option.bind_some]
  exact .pure _

/-- After a successful `sbrk` there is a block that is large enough, or
no block reaches up to `top`; the second cannot happen twice in a row. -/
theorem Ready.morecore {a : ℕ} (hr : Ready base h ring live) (hn : nunits ≤ 2 ^ 26 + 1)
    (hask : os.ask h.top (atLeast nunits * 16 : ℕ) = some a) :
    ∃ h' ring', Settles (fun n => morecore os nunits n h) (h'.freep, h') ∧
      Ready base h' ring' live ∧ h'.failures = h.failures ∧
      ((∃ b ∈ ring', nunits ≤ h'.size b) ∨ ¬ Short h ring ∧ Short h' ring') := by
  obtain ⟨hal, ha⟩ := os.fresh hask
  obtain ⟨hge, hpos⟩ := le_atLeast nunits
  have hle := atLeast_le hn
  obtain ⟨h', ring', hset, hr', -, htop, hfail, hcases⟩ :=
    (hr.extend ha hal hpos (by omega)).free
  refine ⟨h', ring', ?_, hr', hfail, ?_⟩
  · have hs := sbrk_units os h hn
    rw [hask] at hs
    simp only [Umalloc.morecore, hs, Option.bind_some]
    exact hset.bind (.pure _)
  · have hbelow : ∀ c ∈ ring, c + 16 * h.size c ≤ h.top ∧ c < a := by
      intro c hc
      have := hr.finish_le hc
      unfold finish at this
      simp only at this
      omega
    rcases hcases with ⟨hmem, hsize⟩ | ⟨p, hp, ⟨hne, htouch⟩, rfl, hsize⟩ | ⟨q, hq, hlt⟩
    · exact .inl ⟨a, hmem, by omega⟩
    · simp only [Function.update_of_ne hne] at htouch
      have hpsize : h'.size p = (h.size p + atLeast nunits) % 2 ^ 32 := by
        rw [hsize]
        simp only [Function.update_self, Function.update_of_ne hne]
      by_cases hwrap : h.size p + atLeast nunits < 2 ^ 32
      · refine .inl ⟨p, hp, ?_⟩
        rw [hpsize, Nat.mod_eq_of_lt hwrap]
        omega
      · have hpa := hbelow p hp
        refine .inr ⟨fun hshort => ?_, fun c hc => ?_⟩
        · have := hshort p hp
          omega
        · rw [htop]
          simp only
          by_cases hcp : c = p
          · subst hcp
            have hmod : (h.size c + atLeast nunits) % 2 ^ 32 < h.size c + atLeast nunits := by omega
            rw [hpsize]
            omega
          · have hca := hbelow c hc
            have hcne : c ≠ a := Nat.ne_of_lt hca.2
            rw [hsize, Function.update_of_ne hcp]
            simp only [Function.update_of_ne hcne]
            omega
    · have := (hbelow q hq).2
      omega

/-! ### The loop -/

/-- What the loop does when it is back at `freep`. -/
def refill (os : Sbrk) (nunits : ℕ) (fuel : ℕ) (h : Heap) : Option (ℕ × Heap) :=
  (morecore os nunits fuel h).bind fun v =>
    if v.1 = 0 then some (0, v.2) else mallocLoop os nunits fuel v.1 (v.2.ptr v.1) v.2

theorem mallocLoop_succ (fuel : ℕ) : mallocLoop os nunits (fuel + 1) prevp p h =
    if nunits ≤ h.size p then some (carve nunits prevp p h)
    else if p = h.freep then refill os nunits fuel h
    else mallocLoop os nunits fuel p (h.ptr p) h := rfl

/-- One way round: a block is found, or the loop comes to `freep` and all
the blocks on the way were too small. -/
theorem mallocLoop_scan (os : Sbrk) (nunits : ℕ) {x : ℕ} {m : List ℕ}
    (hl : Linked h.ptr x m h.freep) (hm : h.freep ∉ m) :
    (∃ prev ∈ x :: m, nunits ≤ h.size (h.ptr prev) ∧
      Settles (fun n => mallocLoop os nunits n x (h.ptr x) h) (carve nunits prev (h.ptr prev) h)) ∨
    (∀ y ∈ m ++ [h.freep], h.size y < nunits) ∧ ∀ v, Settles (fun n => refill os nunits n h) v →
        Settles (fun n => mallocLoop os nunits n x (h.ptr x) h) v := by
  by_cases hbig : nunits ≤ h.size (h.ptr x)
  · refine .inl ⟨x, List.mem_cons_self .., hbig, .succ rfl ?_⟩
    simp only [mallocLoop_succ, hbig, if_true]
    exact .pure _
  · induction m generalizing x with
    | nil =>
        rw [show h.ptr x = h.freep from hl] at hbig ⊢
        refine .inr ⟨by simpa using hbig, fun v hv => .succ rfl ?_⟩
        simp only [mallocLoop_succ, hbig, if_true, if_false]
        exact hv
    | cons y m ih =>
        obtain ⟨hxy, hrest⟩ := hl
        rw [hxy] at hbig ⊢
        have hy : y ≠ h.freep := fun heq => hm (by simp [heq])
        have hgo : ∀ v, Settles (fun n => mallocLoop os nunits n y (h.ptr y) h) v →
            Settles (fun n => mallocLoop os nunits n x y h) v := by
          intro v hv
          refine .succ rfl ?_
          simp only [mallocLoop_succ, hbig, hy, if_false]
          exact hv
        by_cases hbig' : nunits ≤ h.size (h.ptr y)
        · refine .inl ⟨y, by simp, hbig', hgo _ (.succ rfl ?_)⟩
          simp only [mallocLoop_succ, hbig', if_true]
          exact .pure _
        · rcases ih hrest (fun hmem => hm (List.mem_cons_of_mem y hmem)) hbig' with
            ⟨prev, hprev, hn, hset⟩ | ⟨hsmall, hset⟩
          · exact .inl ⟨prev, List.mem_cons_of_mem x hprev, hn, hgo _ hset⟩
          · refine .inr ⟨?_, fun v hv => hgo v (hset v hv)⟩
            exact List.forall_mem_cons.mpr ⟨by omega, hsmall⟩

/-- A whole round from `freep`. -/
theorem Ready.round (hr : Ready base h ring live) (h1 : 1 ≤ nunits) :
    (∃ v, Settles (fun n => mallocLoop os nunits n h.freep (h.ptr h.freep) h) v ∧
      Served base h live nunits v) ∨ (∀ y ∈ ring, h.size y < nunits) ∧
      ∀ v, Settles (fun n => refill os nunits n h) v →
        Settles (fun n => mallocLoop os nunits n h.freep (h.ptr h.freep) h) v := by
  obtain ⟨pre, post, hring⟩ := List.append_of_mem hr.entry
  have hloop := hr.loop
  rw [hring, Loop.split] at hloop
  have hnodup := hr.nodup
  rw [hring, List.nodup_middle, List.nodup_cons] at hnodup
  have hmem : ∀ a, a ∈ ring ↔ a ∈ h.freep :: (post ++ pre) := by
    intro a
    rw [hring]
    simp only [List.mem_append, List.mem_cons]
    tauto
  have hm : h.freep ∉ post ++ pre := fun hm => hnodup.1 (by simpa [or_comm] using hm)
  rcases mallocLoop_scan os nunits hloop hm with
    ⟨prev, hprev, hn, hset⟩ | ⟨hsmall, hset⟩
  · exact .inl ⟨_, hset, hr.carve ((hmem prev).mpr hprev) h1 hn⟩
  · refine .inr ⟨fun y hy => hsmall y ?_, hset⟩
    have := (hmem y).mp hy
    simp only [List.mem_append, List.mem_cons, List.not_mem_nil, or_false] at this ⊢
    tauto

theorem Ready.freep_ne (hr : Ready base h ring live) (hbase : 0 < base) : h.freep ≠ 0 := by
  have := hr.base_le hr.entry
  omega

/-- The loop after a round in vain, given what it does with more memory. -/
theorem Ready.refill (hr : Ready base h ring live) (hbase : 0 < base) (hn : nunits ≤ 2 ^ 26 + 1)
    (hnext : ∀ h' ring', Ready base h' ring' live →
      ((∃ b ∈ ring', nunits ≤ h'.size b) ∨ ¬ Short h ring ∧ Short h' ring') →
      ∃ v, Settles (fun n => mallocLoop os nunits n h'.freep (h'.ptr h'.freep) h') v ∧
        Served base h' live nunits v) :
    ∃ v, Settles (fun n => refill os nunits n h) v ∧ Served base h live nunits v := by
  cases hask : os.ask h.top (atLeast nunits * 16 : ℕ) with
  | none =>
      refine ⟨_, (morecore_failed hn hask).bind (.pure _), ?_⟩
      refine ⟨fun _ => ⟨rfl, ring, ?_⟩, fun h0 => absurd rfl h0⟩
      exact ⟨hr.congr (fun _ _ => rfl) (fun _ _ => rfl) (fun _ _ => rfl) rfl rfl, hr.entry, hr.gaps⟩
  | some a =>
      obtain ⟨h', ring', hset, hr', hfail, hcases⟩ := hr.morecore hn hask
      obtain ⟨v, hv, hserved⟩ := hnext h' ring' hr' hcases
      refine ⟨v, hset.bind ?_, ?_⟩
      · simp only [hr'.freep_ne hbase, if_false]
        exact hv
      · obtain ⟨hfailed, hfound⟩ := hserved
        rw [hfail] at hfailed hfound
        exact ⟨hfailed, hfound⟩

/-- The loop of `malloc` ends, with a block or after a failure of `sbrk`. -/
theorem Ready.mallocLoop (hr : Ready base h ring live) (hbase : 0 < base) (os : Sbrk)
    (h1 : 1 ≤ nunits) (hn : nunits ≤ 2 ^ 26 + 1) :
    ∃ v, Settles (fun n => mallocLoop os nunits n h.freep (h.ptr h.freep) h) v ∧
      Served base h live nunits v := by
  have hbig : ∀ h' ring', Ready base h' ring' live → (∃ b ∈ ring', nunits ≤ h'.size b) →
      ∃ v, Settles (fun n => Umalloc.mallocLoop os nunits n h'.freep (h'.ptr h'.freep) h') v ∧
        Served base h' live nunits v := by
    rintro h' ring' hr' ⟨b, hb, hnb⟩
    refine (hr'.round h1).resolve_right fun hsmall => ?_
    have := hsmall.1 b hb
    omega
  have hshort : ∀ h' ring', Ready base h' ring' live → Short h' ring' →
      ∃ v, Settles (fun n => Umalloc.mallocLoop os nunits n h'.freep (h'.ptr h'.freep) h') v ∧
        Served base h' live nunits v := by
    intro h' ring' hr' hs
    rcases hr'.round h1 with hdone | ⟨-, hset⟩
    · exact hdone
    · obtain ⟨v, hv, hserved⟩ := hr'.refill hbase hn fun h₂ ring₂ hr₂ hcases =>
        hbig h₂ ring₂ hr₂ (hcases.resolve_right fun hno => hno.1 hs)
      exact ⟨v, hset v hv, hserved⟩
  rcases hr.round h1 with hdone | ⟨-, hset⟩
  · exact hdone
  · obtain ⟨v, hv, hserved⟩ := hr.refill hbase hn fun h' ring' hr' hcases =>
      hcases.elim (hbig h' ring' hr') fun hs => hshort h' ring' hr' hs.2
    exact ⟨v, hset v hv, hserved⟩

end Xv6.Umalloc
