import Xv6.Lib.Fuel
import Xv6.Lib.Loop
import Xv6.Umalloc.Layout

/-!
The free list, and what `free` does to it.

`Woven` says that the list of free blocks, with `base`, is a sorted circle
and that the blocks have their places in memory; `Ready` adds that no two
free blocks are adjacent and that `freep` points into the circle. Joining
a freed block to its neighbours is broken down into three edits of a
woven list: the block is linked in, it swallows its successor if they
touch, and its predecessor swallows it if they touch. Each edit loses at
most one pair of adjacent blocks, and gains none.
-/

namespace Xv6.Umalloc

open Lib

structure Woven (base : ℕ) (h : Heap) (ring : List ℕ) (live : List (ℕ × ℕ)) : Prop where
  loop : Loop h.ptr ring
  sorted : ring.Pairwise (· < ·)
  base_mem : base ∈ ring
  base_size : h.size base = 0
  layout : Layout base h.regions (blocks h.size ring live)
  recorded : ∀ b ∈ live, h.size b.1 = b.2 ∧ 1 ≤ b.2
  regions : ∀ r ∈ h.regions, base + 16 ≤ r.1 ∧ r.1 + r.2 ≤ h.top
  top : base + 16 ≤ h.top

/-- The block at `a` ends where the block at `b` starts. -/
def Touches (size : ℕ → ℕ) (a b : ℕ) : Prop := a ≠ b ∧ a + 16 * size a = b

structure Ready (base : ℕ) (h : Heap) (ring : List ℕ) (live : List (ℕ × ℕ)) : Prop
    extends Woven base h ring live where
  entry : h.freep ∈ ring
  gaps : ∀ a ∈ ring, ∀ b ∈ ring, ¬ Touches h.size a b

namespace Woven

variable {base : ℕ} {h h' : Heap} {ring pre post : List ℕ} {live : List (ℕ × ℕ)} {a p x y : ℕ}

theorem nodup (hw : Woven base h ring live) : ring.Nodup := hw.sorted.imp fun hlt => Nat.ne_of_lt hlt

theorem base_le (hw : Woven base h ring live) (ha : a ∈ ring) : base ≤ a :=
  (hw.layout.placed _ (free_mem_blocks ha)).base_le fun r hr => (hw.regions r hr).1

theorem finish_le (hw : Woven base h ring live) (ha : a ∈ ring) : finish (a, h.size a) ≤ h.top :=
  (hw.layout.placed _ (free_mem_blocks ha)).finish_le hw.top fun r hr => (hw.regions r hr).2

/-- Blocks of the program are not in the list. -/
theorem live_ne (hw : Woven base h ring live) {b : ℕ × ℕ} (hb : b ∈ live) (ha : a ∈ ring) :
    b.1 ≠ a := by
  have hap := (List.pairwise_append.mp hw.layout.apart).2.2
  exact ((hap (a, h.size a) (List.mem_map.mpr ⟨a, ha, rfl⟩) b hb).ne).symm

/-- Free blocks keep their distance. -/
theorem apart (hw : Woven base h ring live) {b : ℕ} (ha : a ∈ ring) (hb : b ∈ ring) (hab : a < b) :
    finish (a, h.size a) ≤ b := by
  obtain ⟨pre, post, rfl⟩ := List.append_of_mem ha
  have hap := (hw.layout.perm (blocks_front h.size pre post a live))
  obtain ⟨hapart, -, -⟩ := Layout.cons.mp hap
  have hmem : b ∈ pre ++ post := by
    simp only [List.mem_append, List.mem_cons] at hb ⊢
    rcases hb with hb | rfl | hb
    · exact .inl hb
    · omega
    · exact .inr hb
  rcases hapart _ (free_mem_blocks hmem) with hle | hle
  · exact hle
  · have := lt_finish (b, h.size b)
    simp only at hle this
    omega

/-- A woven heap with other links and sizes at places that do not matter. -/
theorem congr (hw : Woven base h ring live) (hptr : ∀ a ∈ ring, h'.ptr a = h.ptr a)
    (hsize : ∀ a ∈ ring, h'.size a = h.size a) (hlive : ∀ b ∈ live, h'.size b.1 = h.size b.1)
    (hreg : h'.regions = h.regions) (htop : h'.top = h.top) : Woven base h' ring live where
  loop := hw.loop.congr hptr
  sorted := hw.sorted
  base_mem := hw.base_mem
  base_size := (hsize base hw.base_mem).trans hw.base_size
  layout := by
    rw [hreg, blocks_congr hsize]
    exact hw.layout
  recorded b hb := by
    rw [hlive b hb]
    exact hw.recorded b hb
  regions := by
    rw [hreg, htop]
    exact hw.regions
  top := by
    rw [htop]
    exact hw.top

end Woven

/-! ### Edits of a woven list -/

/-- Link the block `b` in behind `p`. -/
def link (p b : ℕ) (h : Heap) : Heap :=
  { h with ptr := Function.update (Function.update h.ptr b (h.ptr p)) p b }

/-- Let the block `x` swallow its successor. -/
def merge (x : ℕ) (h : Heap) : Heap :=
  { h with
    size := Function.update h.size x ((h.size x + h.size (h.ptr x)) % 2 ^ 32)
    ptr := Function.update h.ptr x (h.ptr (h.ptr x)) }

/-- Link the block `bp` in behind `p`, and let it swallow the block above it
if they touch. -/
def linkUp (p bp : ℕ) (h : Heap) : Heap :=
  if bp + 16 * h.size bp = h.ptr p then merge bp (link p bp h) else link p bp h

/-- The two assignments of `free` as edits. -/
theorem coalesce_eq {h : Heap} {p bp : ℕ} (hlt : p < bp) (hne : h.ptr p ≠ bp) :
    coalesceDown p bp (coalesceUp p bp h) =
      if p + 16 * h.size p = bp then merge p (linkUp p bp h) else linkUp p bp h := by
  have hpb : p ≠ bp := Nat.ne_of_lt hlt
  have hbp : bp ≠ p := hpb.symm
  by_cases hup : bp + 16 * h.size bp = h.ptr p
  · have hqp : h.ptr p ≠ p := by omega
    by_cases hdown : p + 16 * h.size p = bp
    · simp only [linkUp, coalesceUp, coalesceDown, link, merge, hup, hdown, if_true]
      simp only [Function.update_self, Function.update_of_ne hpb, Function.update_of_ne hbp,
        Function.update_of_ne hqp, Function.update_of_ne hne, hdown, if_true]
      congr 1
      ext q
      simp only [Function.update_apply]
      split_ifs <;> rfl
    · simp only [linkUp, coalesceUp, coalesceDown, link, merge, hup, hdown, if_true, if_false]
      simp only [Function.update_self, Function.update_of_ne hpb, Function.update_of_ne hbp,
        Function.update_of_ne hqp, Function.update_of_ne hne, hdown, if_false]
      congr 1
      ext q
      simp only [Function.update_apply]
      split_ifs with h1 h2 <;> first | rfl | omega
  · by_cases hdown : p + 16 * h.size p = bp
    · simp only [linkUp, coalesceUp, coalesceDown, link, merge, hup, hdown, if_true, if_false]
      simp only [Function.update_self, Function.update_of_ne hbp]
      congr 1
      ext q
      simp only [Function.update_apply]
      split_ifs <;> rfl
    · simp only [linkUp, coalesceUp, coalesceDown, link, hup, hdown, if_false]

namespace Woven

variable {base : ℕ} {h : Heap} {ring pre post : List ℕ} {live : List (ℕ × ℕ)} {p x y b z : ℕ}

/-- A block of the program is put into the list, at its place. -/
theorem link (hw : Woven base h (pre ++ p :: post) ((b, z) :: live)) (hpb : p < b)
    (hpost : ∀ c ∈ post, b < c) : Woven base (link p b h) (pre ++ p :: b :: post) live := by
  have hmem : b ∉ pre ++ p :: post := fun hb =>
    hw.live_ne (List.mem_cons_self ..) hb rfl
  have hz : h.size b = z := (hw.recorded (b, z) (List.mem_cons_self ..)).1
  obtain ⟨hpre, hrest, hcross⟩ := List.pairwise_append.mp hw.sorted
  obtain ⟨hp, hpost'⟩ := List.pairwise_cons.mp hrest
  refine ⟨hw.loop.insert hw.nodup hmem, ?_, ?_, hw.base_size, ?_, ?_, hw.regions, hw.top⟩
  · refine List.pairwise_append.mpr ⟨hpre, ?_, ?_⟩
    · exact List.pairwise_cons.mpr ⟨List.forall_mem_cons.mpr ⟨hpb, hp⟩,
        List.pairwise_cons.mpr ⟨hpost, hpost'⟩⟩
    · intro a ha
      have hap := hcross a ha p (List.mem_cons_self ..)
      refine List.forall_mem_cons.mpr ⟨hap, List.forall_mem_cons.mpr ⟨Nat.lt_trans hap hpb, ?_⟩⟩
      exact fun c hc => hcross a ha c (List.mem_cons_of_mem p hc)
  · have := hw.base_mem
    simp only [List.mem_append, List.mem_cons] at this ⊢
    tauto
  · change Layout base h.regions (blocks h.size _ live)
    refine hw.layout.perm ?_
    refine (blocks_live h.size _ (b, z) live).trans ?_
    have hfront := blocks_front h.size (pre ++ [p]) post b live
    rw [List.append_assoc, List.append_assoc, hz] at hfront
    exact hfront.symm
  · exact fun c hc => hw.recorded c (List.mem_cons_of_mem _ hc)

/-- A block that swallows the successor it touches. -/
theorem merge (hw : Woven base h (pre ++ x :: y :: post) live) (hxy : x + 16 * h.size x = y) :
    Woven base (merge x h) (pre ++ x :: post) live := by
  obtain ⟨hnext, hloop⟩ := hw.loop.skip hw.nodup
  have hlt : x < y := (List.pairwise_cons.mp (List.pairwise_append.mp hw.sorted).2.1).1 y (by simp)
  have hxmem : x ∈ pre ++ x :: y :: post := by simp
  have hsub : List.Sublist (pre ++ x :: post) (pre ++ x :: y :: post) :=
    (List.Sublist.refl pre).append (.cons_cons x (.cons y (.refl post)))
  have hbase : x ≠ base := by
    rintro rfl
    have := hw.base_size
    omega
  have hnodup := hw.nodup
  have hother : ∀ a ∈ pre ++ post, a ≠ x := by
    rintro a ha rfl
    rw [List.nodup_middle, List.nodup_cons] at hnodup
    apply hnodup.1
    simp only [List.mem_append, List.mem_cons] at ha ⊢
    tauto
  refine ⟨?_, hw.sorted.sublist hsub, ?_, ?_, ?_, ?_, hw.regions, hw.top⟩
  · change Loop (Function.update h.ptr x (h.ptr (h.ptr x))) _
    rw [hnext]
    exact hloop
  · have hb := hw.base_mem
    have hy := hw.base_le hxmem
    simp only [List.mem_append, List.mem_cons] at hb ⊢
    rcases hb with hb | hb | hb | hb
    · exact .inl hb
    · exact .inr (.inl hb)
    · omega
    · exact .inr (.inr hb)
  · exact (Function.update_of_ne hbase.symm ..).trans hw.base_size
  · -- the two blocks are brought to the front, joined, and put back
    have hbs := (hw.layout.perm (blocks_front h.size pre (y :: post) x live)).perm
      ((blocks_front h.size pre post y live).cons _)
    have hjoin := hbs.join hxy
    refine Layout.perm ?_ (blocks_front _ pre post x live).symm
    simp only [Umalloc.merge, Function.update_self, hnext]
    rw [blocks_congr fun a ha => Function.update_of_ne (hother a ha) ..]
    exact hjoin
  · intro c hc
    change Function.update h.size x _ c.1 = c.2 ∧ 1 ≤ c.2
    rw [Function.update_of_ne (hw.live_ne hc hxmem)]
    exact hw.recorded c hc

/-- The only pairs that touch after a merge touched before. -/
theorem merge_touches (hw : Woven base h (pre ++ x :: y :: post) live)
    (hxy : x + 16 * h.size x = y) {a c : ℕ} (ha : a ∈ pre ++ x :: post)
    (hc : c ∈ pre ++ x :: post) (ht : Touches (Umalloc.merge x h).size a c) :
    a ≠ x ∧ Touches h.size a c ∨ a = x ∧ Touches h.size y c := by
  obtain ⟨hne, hac⟩ := ht
  by_cases hax : a = x
  · subst hax
    refine .inr ⟨rfl, ?_⟩
    obtain ⟨hnext, -⟩ := hw.loop.skip hw.nodup
    have hsize : (Umalloc.merge a h).size a = (h.size a + h.size y) % 2 ^ 32 := by
      simp only [Umalloc.merge, Function.update_self, hnext]
    rw [hsize] at hac
    have hmem : a ∈ pre ++ a :: y :: post := by simp
    have hymem : y ∈ pre ++ a :: y :: post := by simp
    have hcmem : c ∈ pre ++ a :: y :: post := by
      simp only [List.mem_append, List.mem_cons] at hc ⊢
      tauto
    have hyne : y ≠ c := by
      rintro rfl
      have := hw.nodup
      rw [List.nodup_middle, List.nodup_cons] at this
      have hnd := (List.nodup_middle.mp this.2)
      simp only [List.mem_append, List.mem_cons] at hc
      rw [List.nodup_cons, List.mem_append] at hnd
      tauto
    refine ⟨hyne, ?_⟩
    -- a sum that wraps ends inside the two blocks, where no block starts
    have hlt : a < c := by omega
    have hay : a < y := (List.pairwise_cons.mp (List.pairwise_append.mp hw.sorted).2.1).1 y (by simp)
    have hca := hw.apart hmem hcmem hlt
    have hbound := (hw.layout.placed _ (free_mem_blocks hmem)).bounded
    have hbound' := (hw.layout.placed _ (free_mem_blocks hymem)).bounded
    unfold finish at hca
    simp only at hbound hbound' hca
    have hyc : y < c := by omega
    have hcy := hw.apart hymem hcmem hyc
    unfold finish at hcy
    simp only at hcy
    omega
  · refine .inl ⟨hax, hne, ?_⟩
    rwa [show (Umalloc.merge x h).size a = h.size a from Function.update_of_ne hax ..] at hac

end Woven

/-! ### free -/

/-- The loop of `free` ends at the last block below `bp`, wherever it
starts. -/
theorem Woven.findPrev {base : ℕ} {h : Heap} {ring : List ℕ} {live : List (ℕ × ℕ)} {p bp : ℕ}
    (hw : Woven base h ring live) (hp : p ∈ ring) (hlt : p < bp)
    (hmax : ∀ c ∈ ring, c < bp → c ≤ p) (hbp : bp ∉ ring) :
    ∀ a ∈ ring, Settles (fun n => findPrev h.ptr bp n a) p := by
  have hfound : Settles (fun n => Umalloc.findPrev h.ptr bp n p) p := by
    refine Settles.succ rfl ?_
    simp only [Umalloc.findPrev]
    have hmem := hw.loop.next_mem hp
    have hne : h.ptr p ≠ bp := fun heq => hbp (heq ▸ hmem)
    rcases hw.loop.next_order hw.sorted hp with ⟨hup, -⟩ | hwrap
    · have hb : bp < h.ptr p := by
        by_contra hcon
        have := hmax _ hmem (by omega)
        omega
      simp only [hlt, hb, and_self, if_true]
      exact .pure p
    · have hdown := (hwrap p hp).1
      simp only [hlt, hdown, true_or, and_self, if_true, ite_self]
      exact .pure p
  refine hw.loop.reach hp hfound fun a ha hnext => ?_
  by_cases hap : a = p
  · rw [hap]
    exact hfound
  · -- the search goes on past every other block
    refine Settles.succ rfl ?_
    have hgo : ¬ (a < bp ∧ bp < h.ptr a) ∧ ¬ (h.ptr a ≤ a ∧ (a < bp ∨ bp < h.ptr a)) := by
      rcases hw.loop.next_order hw.sorted ha with ⟨hup, hno⟩ | hwrap
      · have := hno p hp
        have := hmax a ha
        omega
      · have := hwrap p hp
        have := hmax a ha
        omega
    simp only [Umalloc.findPrev, hgo.1, hgo.2, if_false]
    exact hnext

section Coalesce

variable {base : ℕ} {h : Heap} {pre post : List ℕ} {live : List (ℕ × ℕ)} {p bp z : ℕ}

/-- What touches a block just linked in: the block below it, and the block
above it. -/
theorem Woven.link_touches (hw : Woven base h (pre ++ p :: post) ((bp, z) :: live)) (hlt : p < bp)
    (hpost : ∀ c ∈ post, bp < c) (hgaps : ∀ a ∈ pre ++ p :: post, ∀ b ∈ pre ++ p :: post,
      ¬ Touches h.size a b) {a c : ℕ} (ha : a ∈ pre ++ p :: bp :: post)
    (hc : c ∈ pre ++ p :: bp :: post) (ht : Touches h.size a c) :
    a = p ∧ c = bp ∨ a = bp ∧ c = h.ptr p := by
  have hw₁ := hw.link hlt hpost
  have hold : ∀ d ∈ pre ++ p :: bp :: post, d = bp ∨ d ∈ pre ++ p :: post := by
    intro d hd
    simp only [List.mem_append, List.mem_cons] at hd ⊢
    tauto
  have hpmem : p ∈ pre ++ p :: bp :: post := by simp
  have hbmem : bp ∈ pre ++ p :: bp :: post := by simp
  obtain ⟨hne, hac⟩ := ht
  rcases hold a ha with rfl | haold
  · -- `bp` itself touches a block above it, the first one
    refine .inr ⟨rfl, ?_⟩
    have hcpost : c ∈ post := by
      have hsort := hw₁.sorted
      rcases List.mem_append.mp hc with hc | hc
      · have := (List.pairwise_append.mp hsort).2.2 c hc a (by simp)
        omega
      · rcases List.mem_cons.mp hc with rfl | hc
        · omega
        · exact (List.mem_cons.mp hc).resolve_left (Ne.symm hne)
    cases post with
    | nil => simp at hcpost
    | cons q post =>
        have hq : h.ptr p = q := (Loop.split.mp hw.loop).1
        rw [hq]
        by_contra hcq
        have hqc : q < c := by
          have hsort := (List.pairwise_append.mp hw.sorted).2.1
          have hsort := (List.pairwise_cons.mp (List.pairwise_cons.mp hsort).2).1
          exact hsort c ((List.mem_cons.mp hcpost).resolve_left hcq)
        have haq := hw₁.apart hbmem (by simp : q ∈ pre ++ p :: a :: q :: post)
          (hpost q (List.mem_cons_self ..))
        have hmax : 16 * h.size a ≤ 16 * max (h.size a) 1 := by omega
        unfold finish at haq
        change a + 16 * max (h.size a) 1 ≤ q at haq
        omega
  · rcases hold c hc with rfl | hcold
    · refine .inl ⟨?_, rfl⟩
      by_contra hap
      have hlt' : a < p := by
        rcases List.mem_append.mp haold with ha' | ha'
        · exact (List.pairwise_append.mp hw.sorted).2.2 a ha' p (by simp)
        · have := hpost a ((List.mem_cons.mp ha').resolve_left hap)
          omega
      have hap' := hw.apart haold (by simp : p ∈ pre ++ p :: post) hlt'
      have hmax : 16 * h.size a ≤ 16 * max (h.size a) 1 := by omega
      unfold finish at hap'
      simp only at hap'
      omega
    · exact absurd ⟨hne, hac⟩ (hgaps a haold c hcold)

/-- The freed block linked in and joined to the block above it. -/
theorem Woven.joinUp (hw : Woven base h (pre ++ p :: post) ((bp, z) :: live)) (hlt : p < bp)
    (hpost : ∀ c ∈ post, bp < c) (hgaps : ∀ a ∈ pre ++ p :: post, ∀ b ∈ pre ++ p :: post,
      ¬ Touches h.size a b) : ∃ post₂, Woven base (linkUp p bp h) (pre ++ p :: bp :: post₂) live ∧
      (∀ a ∈ pre ++ p :: bp :: post₂, ∀ c ∈ pre ++ p :: bp :: post₂,
        Touches (linkUp p bp h).size a c → a = p ∧ c = bp) ∧ (linkUp p bp h).size p = h.size p ∧
      (post₂ = post ∧ (linkUp p bp h).size = h.size ∨ ∃ q ∈ post, bp < q) := by
  have hw₁ := hw.link hlt hpost
  have ht₁ := fun a ha c hc => hw.link_touches hlt hpost hgaps (a := a) (c := c) ha hc
  by_cases hup : bp + 16 * h.size bp = h.ptr p
  · simp only [linkUp, hup, if_true]
    have hz := hw.recorded (bp, z) (List.mem_cons_self ..)
    simp only at hz
    cases post with
    | nil =>
        -- the link of the last block leads down
        have hle : h.ptr p ≤ p := by
          rcases List.mem_append.mp (hw.loop.next_mem (by simp : p ∈ pre ++ [p])) with hm | hm
          · exact Nat.le_of_lt ((List.pairwise_append.mp hw.sorted).2.2 _ hm p (by simp))
          · exact Nat.le_of_eq (List.mem_singleton.mp hm)
        omega
    | cons q post =>
        have hq : h.ptr p = q := (Loop.split.mp hw.loop).1
        rw [hq] at hup
        have hw₁' : Woven base (Umalloc.link p bp h) ((pre ++ [p]) ++ bp :: q :: post) live := by
          simpa using hw₁
        have hlist : (pre ++ [p]) ++ bp :: post = pre ++ p :: bp :: post := by simp
        have hsub : ∀ a ∈ (pre ++ [p]) ++ bp :: post, a ∈ pre ++ p :: bp :: q :: post := by
          intro a ha
          simp only [List.mem_append, List.mem_cons, List.not_mem_nil, or_false] at ha ⊢
          tauto
        refine ⟨post, by simpa using hw₁'.merge hup, fun a ha c hc ht => ?_,
          Function.update_of_ne (Nat.ne_of_lt hlt) .., .inr ⟨q, by simp, hpost q (by simp)⟩⟩
        rw [← hlist] at ha hc
        rcases hw₁'.merge_touches hup ha hc ht with ⟨hne, ht⟩ | ⟨rfl, ht⟩
        · exact (ht₁ a (hsub a ha) c (hsub c hc) ht).resolve_right fun hb => hne hb.1
        · rcases ht₁ q (by simp) c (hsub c hc) ht with ⟨rfl, -⟩ | ⟨rfl, -⟩
          · have := hpost q (by simp)
            omega
          · have := hpost q (by simp)
            omega
  · simp only [linkUp, hup, if_false]
    refine ⟨post, hw₁, fun a ha c hc ht => ?_, rfl, .inl ⟨rfl, rfl⟩⟩
    rcases ht₁ a ha c hc ht with hpb | ⟨rfl, rfl⟩
    · exact hpb
    · exact absurd ht.2 hup

theorem coalesce_frame (p bp : ℕ) (h : Heap) :
    (coalesceDown p bp (coalesceUp p bp h)).regions = h.regions ∧
      (coalesceDown p bp (coalesceUp p bp h)).top = h.top ∧
      (coalesceDown p bp (coalesceUp p bp h)).failures = h.failures := by
  unfold coalesceDown coalesceUp
  split <;> split <;> exact ⟨rfl, rfl, rfl⟩

/-- The freed block joined to both its neighbours. -/
theorem Woven.coalesce (hw : Woven base h (pre ++ p :: post) ((bp, z) :: live)) (hlt : p < bp)
    (hne : h.ptr p ≠ bp) (hpost : ∀ c ∈ post, bp < c)
    (hgaps : ∀ a ∈ pre ++ p :: post, ∀ b ∈ pre ++ p :: post, ¬ Touches h.size a b) :
    ∃ h' ring', coalesceDown p bp (coalesceUp p bp h) = h' ∧ Woven base h' ring' live ∧
      (∀ a ∈ ring', ∀ b ∈ ring', ¬ Touches h'.size a b) ∧ p ∈ ring' ∧ (bp ∈ ring' ∧ h'.size bp = z ∨
        (∃ p' ∈ pre ++ p :: post, Touches h.size p' bp ∧ ring' = pre ++ p :: post ∧
          h'.size = Function.update h.size p' ((h.size p' + z) % 2 ^ 32)) ∨
        ∃ q ∈ pre ++ p :: post, bp < q) := by
  have hz : h.size bp = z := (hw.recorded (bp, z) (List.mem_cons_self ..)).1
  obtain ⟨post₂, hw₂, ht₂, hsize, hsame⟩ := hw.joinUp hlt hpost hgaps
  have heq := coalesce_eq hlt hne
  generalize linkUp p bp h = h₂ at heq hw₂ ht₂ hsize hsame
  have hpb : p ≠ bp := Nat.ne_of_lt hlt
  have habove : ∀ q ∈ post, bp < q → ∃ q ∈ pre ++ p :: post, bp < q :=
    fun q hq hlt => ⟨q, by simp [hq], hlt⟩
  by_cases hdown : p + 16 * h.size p = bp
  · rw [if_pos hdown] at heq
    rw [← hsize] at hdown
    refine ⟨_, pre ++ p :: post₂, heq, hw₂.merge hdown, fun a ha c hc ht => ?_, by simp, ?_⟩
    · have hsub : ∀ d ∈ pre ++ p :: post₂, d ∈ pre ++ p :: bp :: post₂ := by
        intro d hd
        simp only [List.mem_append, List.mem_cons] at hd ⊢
        tauto
      rcases hw₂.merge_touches hdown ha hc ht with ⟨hap, ht⟩ | ⟨-, ht⟩
      · exact hap (ht₂ a (hsub a ha) c (hsub c hc) ht).1
      · exact hpb (ht₂ bp (by simp) c (hsub c hc) ht).1.symm
    · rcases hsame with ⟨rfl, hsame⟩ | ⟨q, hq, hlt⟩
      · refine .inr (.inl ⟨p, by simp, ⟨hpb, by rw [← hsize, hdown]⟩, rfl, ?_⟩)
        have hnext := (hw₂.loop.skip hw₂.nodup).1
        simp only [Umalloc.merge, hnext, hsame, hz]
      · exact .inr (.inr (habove q hq hlt))
  · rw [if_neg hdown] at heq
    rw [← hsize] at hdown
    refine ⟨_, pre ++ p :: bp :: post₂, heq, hw₂, fun a ha c hc ht => ?_, by simp, ?_⟩
    · obtain ⟨rfl, rfl⟩ := ht₂ a ha c hc ht
      exact hdown ht.2
    · rcases hsame with ⟨-, hsame⟩ | ⟨q, hq, hlt⟩
      · exact .inl ⟨by simp, by rw [hsame, hz]⟩
      · exact .inr (.inr (habove q hq hlt))

end Coalesce

/-- A block handed to `free` joins the list. Unless it touches the block
above it, it becomes a block of its own or part of the block below. -/
theorem Ready.free {base : ℕ} {h : Heap} {ring : List ℕ} {live : List (ℕ × ℕ)} {bp z : ℕ}
    (hr : Ready base h ring ((bp, z) :: live)) :
    ∃ h' ring', Settles (fun n => free (bp + 16) n h) h' ∧ Ready base h' ring' live ∧
      h'.regions = h.regions ∧ h'.top = h.top ∧ h'.failures = h.failures ∧
      (bp ∈ ring' ∧ h'.size bp = z ∨ (∃ p ∈ ring, Touches h.size p bp ∧ ring' = ring ∧
          h'.size = Function.update h.size p ((h.size p + z) % 2 ^ 32)) ∨ ∃ q ∈ ring, bp < q) := by
  have hw := hr.toWoven
  have hbp : bp ∉ ring := fun hb => hw.live_ne (List.mem_cons_self ..) hb rfl
  have hz : h.size bp = z := (hw.recorded (bp, z) (List.mem_cons_self ..)).1
  have hbase : base < bp := by
    have hle := (hw.layout.placed (bp, z) (mem_blocks.mpr (.inr (by simp)))).base_le
      fun r hr => (hw.regions r hr).1
    have hne : base ≠ bp := fun heq => hbp (heq ▸ hw.base_mem)
    simp only at hle
    omega
  -- the block below
  obtain ⟨p, hp, hmax⟩ := (ring.toFinset.filter (· < bp)).exists_max_image id
    ⟨base, by simp [hw.base_mem, hbase]⟩
  simp only [Finset.mem_filter, List.mem_toFinset, id] at hp hmax
  obtain ⟨hp, hlt⟩ := hp
  have hmax : ∀ c ∈ ring, c < bp → c ≤ p := fun c hc hcb => hmax c ⟨hc, hcb⟩
  have hne : h.ptr p ≠ bp := fun heq => hbp (heq ▸ hw.loop.next_mem hp)
  have hfind := hw.findPrev hp hlt hmax hbp h.freep hr.entry
  obtain ⟨pre, post, rfl⟩ := List.append_of_mem hp
  have hpost : ∀ c ∈ post, bp < c := by
    intro c hc
    have hpc := (List.pairwise_cons.mp (List.pairwise_append.mp hw.sorted).2.1).1 c hc
    have hcm := hmax c (by simp [hc])
    have hcb : c ≠ bp := fun heq => hbp (heq ▸ by simp [hc])
    omega
  obtain ⟨h', ring', heq, hw', hgaps', hp', hsame⟩ := hw.coalesce hlt hne hpost hr.gaps
  obtain ⟨hreg, htop, hfail⟩ := coalesce_frame p bp h
  rw [heq] at hreg htop hfail
  refine ⟨{ h' with freep := p }, ring', ?_,
    ⟨hw'.congr (fun _ _ => rfl) (fun _ _ => rfl) (fun _ _ => rfl) rfl rfl, hp', hgaps'⟩,
    hreg, htop, hfail, hsame⟩
  rw [← heq]
  exact hfind.bind (.pure _)

end Xv6.Umalloc
