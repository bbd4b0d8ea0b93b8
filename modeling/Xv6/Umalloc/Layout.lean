import Xv6.Umalloc.System

/-!
How the blocks of the allocator lie in memory.

A block is an address and a size in units of 16 bytes. It occupies its
units and in any case the unit of its header: a size is a `uint`, so the
size of two joined blocks may wrap round and record fewer units than the
two had, even none. Nothing that follows needs more than that a joined
block does not claim more memory than its parts.
-/

namespace Xv6.Umalloc

/-- The first address behind a block. -/
def finish (b : ℕ × ℕ) : ℕ := b.1 + 16 * max b.2 1

/-- Two blocks, with their headers, have no byte in common. -/
def Apart (b c : ℕ × ℕ) : Prop := finish b ≤ c.1 ∨ finish c ≤ b.1

/-- The byte at `y` was obtained from `sbrk`. -/
def Obtained (regions : List (ℕ × ℕ)) (y : ℕ) : Prop :=
  ∃ r ∈ regions, r.1 ≤ y ∧ y < r.1 + r.2

/-- The free blocks of the list and the blocks the program holds. -/
def blocks (size : ℕ → ℕ) (ring : List ℕ) (live : List (ℕ × ℕ)) : List (ℕ × ℕ) :=
  ring.map (fun a => (a, size a)) ++ live

/-- A block lies in memory obtained from `sbrk`, or in the static header. -/
structure Placed (base : ℕ) (regions : List (ℕ × ℕ)) (b : ℕ × ℕ) : Prop where
  inside : ∀ y, b.1 ≤ y → y < finish b → Obtained ((base, 16) :: regions) y
  aligned : b.1 ≠ base → 16 ∣ b.1
  bounded : b.2 < 2 ^ 32

/-- The blocks have their places, apart from each other. -/
structure Layout (base : ℕ) (regions bs : List (ℕ × ℕ)) : Prop where
  apart : bs.Pairwise Apart
  placed : ∀ b ∈ bs, Placed base regions b

theorem lt_finish (b : ℕ × ℕ) : b.1 + 16 ≤ finish b := by
  unfold finish
  omega

theorem Apart.symm {b c : ℕ × ℕ} (h : Apart b c) : Apart c b := Or.symm h

theorem Apart.ne {b c : ℕ × ℕ} (h : Apart b c) : b.1 ≠ c.1 := by
  have hb := lt_finish b
  have hc := lt_finish c
  unfold Apart at h
  omega

/-! ### The list of blocks -/

variable {live : List (ℕ × ℕ)} {size : ℕ → ℕ}

theorem mem_blocks {ring : List ℕ} {b : ℕ × ℕ} :
    b ∈ blocks size ring live ↔ (b.1 ∈ ring ∧ b.2 = size b.1) ∨ b ∈ live := by
  simp only [blocks, List.mem_append, List.mem_map]
  constructor
  · rintro (⟨a, ha, rfl⟩ | hb)
    · exact .inl ⟨ha, rfl⟩
    · exact .inr hb
  · rintro (⟨ha, hz⟩ | hb)
    · exact .inl ⟨b.1, ha, by rw [← hz]⟩
    · exact .inr hb

theorem free_mem_blocks {ring : List ℕ} {a : ℕ}
    (ha : a ∈ ring) : (a, size a) ∈ blocks size ring live := mem_blocks.mpr (.inl ⟨ha, rfl⟩)

theorem blocks_congr {size' : ℕ → ℕ} {ring : List ℕ}
    (h : ∀ a ∈ ring, size' a = size a) : blocks size' ring live = blocks size ring live := by
  unfold blocks
  rw [List.map_congr_left fun a ha => by rw [h a ha]]

/-- One free block brought to the front. -/
theorem blocks_front (size : ℕ → ℕ) (pre post : List ℕ) (x : ℕ) (live : List (ℕ × ℕ)) :
    (blocks size (pre ++ x :: post) live).Perm ((x, size x) :: blocks size (pre ++ post) live) := by
  unfold blocks
  rw [List.map_append, List.map_cons, List.map_append, List.append_assoc, List.append_assoc]
  exact List.perm_middle

theorem blocks_live (size : ℕ → ℕ) (ring : List ℕ) (b : ℕ × ℕ) (live : List (ℕ × ℕ)) :
    (blocks size ring (b :: live)).Perm (b :: blocks size ring live) := List.perm_middle

namespace Placed

variable {base top : ℕ} {regions : List (ℕ × ℕ)} {b : ℕ × ℕ} {x y s t : ℕ}

/-- Part of a block. -/
theorem within (h : Placed base regions (x, s)) (hx : x ≤ y)
    (hfin : finish (y, t) ≤ finish (x, s)) (hal : y ≠ base → 16 ∣ y) (ht : t < 2 ^ 32) :
    Placed base regions (y, t) where
  inside v hv hfv := h.inside v (Nat.le_trans hx hv) (Nat.lt_of_lt_of_le hfv hfin)
  aligned := hal
  bounded := ht

theorem finish_le (h : Placed base regions b) (hbase : base + 16 ≤ top)
    (htop : ∀ r ∈ regions, r.1 + r.2 ≤ top) : finish b ≤ top := by
  have hlt := lt_finish b
  obtain ⟨r, hr, -, hr2⟩ := h.inside (finish b - 1) (by omega) (by omega)
  rcases List.mem_cons.mp hr with rfl | hr
  · simp only at hr2
    omega
  · have := htop r hr
    omega

theorem base_le (h : Placed base regions b) (hreg : ∀ r ∈ regions, base + 16 ≤ r.1) :
    base ≤ b.1 := by
  have hlt := lt_finish b
  obtain ⟨r, hr, hr1, -⟩ := h.inside b.1 (Nat.le_refl _) (by omega)
  rcases List.mem_cons.mp hr with rfl | hr
  · exact hr1
  · have := hreg r hr
    omega

end Placed

namespace Layout

variable {base top : ℕ} {regions bs R : List (ℕ × ℕ)} {b : ℕ × ℕ} {x y s t n : ℕ}

theorem perm {bs' : List (ℕ × ℕ)} (h : Layout base regions bs) (hp : bs.Perm bs') :
    Layout base regions bs' where
  apart := (hp.pairwise_iff Apart.symm).mp h.apart
  placed b hb := h.placed b (hp.mem_iff.mpr hb)

theorem cons : Layout base regions (b :: R) ↔
    (∀ c ∈ R, Apart b c) ∧ Placed base regions b ∧ Layout base regions R := by
  constructor
  · rintro ⟨hap, hpl⟩
    obtain ⟨hb, hR⟩ := List.pairwise_cons.mp hap
    exact ⟨hb, hpl b (List.mem_cons_self ..), hR, fun c hc => hpl c (List.mem_cons_of_mem b hc)⟩
  · rintro ⟨hb, hpl, hR⟩
    exact ⟨List.pairwise_cons.mpr ⟨hb, hR.apart⟩, List.forall_mem_cons.mpr ⟨hpl, hR.placed⟩⟩

/-- The first block is replaced by a part of it. -/
theorem within (h : Layout base regions ((x, s) :: R)) (hx : x ≤ y)
    (hfin : finish (y, t) ≤ finish (x, s)) (hal : y ≠ base → 16 ∣ y) (ht : t < 2 ^ 32) :
    Layout base regions ((y, t) :: R) := by
  obtain ⟨hap, hpl, hR⟩ := cons.mp h
  refine cons.mpr ⟨fun b hb => ?_, hpl.within hx hfin hal ht, hR⟩
  rcases hap b hb with hlt | hlt
  · exact .inl (Nat.le_trans hfin hlt)
  · exact .inr (Nat.le_trans hlt hx)

/-- Two adjacent blocks become one. -/
theorem join (h : Layout base regions ((x, s) :: (y, t) :: R)) (hxy : x + 16 * s = y) :
    Layout base regions ((x, (s + t) % 2 ^ 32) :: R) := by
  obtain ⟨hapx, hplx, h'⟩ := cons.mp h
  obtain ⟨hapy, hply, hR⟩ := cons.mp h'
  have hne : x ≠ y := (hapx (y, t) (List.mem_cons_self ..)).ne
  have hmod : (s + t) % 2 ^ 32 ≤ s + t := Nat.mod_le ..
  have hfin : finish (x, (s + t) % 2 ^ 32) ≤ finish (y, t) := by
    unfold finish
    simp only
    omega
  have hx : finish (x, s) = y := by
    unfold finish
    simp only
    omega
  refine cons.mpr ⟨fun b hb => ?_, ⟨fun v hv hfv => ?_, hplx.aligned, ?_⟩, hR⟩
  · have hb16 := lt_finish b
    rcases hapx b (List.mem_cons_of_mem _ hb) with hlt | hlt
    · -- `b` is above `x`, so above `y`
      rcases hapy b hb with hlt' | hlt'
      · exact .inl (Nat.le_trans hfin hlt')
      · rw [hx] at hlt
        simp only at hlt hlt'
        omega
    · exact .inr hlt
  · by_cases hvy : v < y
    · exact hplx.inside v hv (by rw [hx]; exact hvy)
    · exact hply.inside v (Nat.le_of_not_lt hvy) (Nat.lt_of_lt_of_le hfv hfin)
  · exact Nat.mod_lt _ (by decide)

/-- The tail of a block is cut off. -/
theorem cut (h : Layout base regions ((x, s) :: R)) (hx : x ≠ base) (h1 : 1 ≤ n) (hn : n < s) :
    Layout base regions ((x + 16 * (s - n), n) :: (x, s - n) :: R) := by
  obtain ⟨-, hpl, -⟩ := cons.mp h
  have hs : s < 2 ^ 32 := hpl.bounded
  have hal : 16 ∣ x := hpl.aligned hx
  have hhead : Layout base regions ((x, s - n) :: R) :=
    h.within (Nat.le_refl x) (by unfold finish; simp only; omega) (fun _ => hal) (by omega)
  have htail : Layout base regions ((x + 16 * (s - n), n) :: R) :=
    h.within (by omega) (by unfold finish; simp only; omega) (fun _ => by omega) (by omega)
  obtain ⟨hap, hplt, -⟩ := cons.mp htail
  refine cons.mpr ⟨List.forall_mem_cons.mpr ⟨.inr ?_, hap⟩, hplt, hhead⟩
  unfold finish
  simp only
  omega

/-- A region from `sbrk` becomes a block. -/
theorem fresh {a nu : ℕ} (h : Layout base regions bs) (hbase : base + 16 ≤ top)
    (htop : ∀ r ∈ regions, r.1 + r.2 ≤ top) (ha : top ≤ a) (hal : 16 ∣ a) (h1 : 1 ≤ nu)
    (hnu : nu < 2 ^ 32) : Layout base ((a, nu * 16) :: regions) ((a, nu) :: bs) := by
  refine cons.mpr ⟨fun b hb => ?_, ⟨fun v hv hfv => ?_, fun _ => hal, hnu⟩, h.apart, fun b hb => ?_⟩
  · exact .inr (Nat.le_trans ((h.placed b hb).finish_le hbase htop) ha)
  · refine ⟨(a, nu * 16), by simp, hv, ?_⟩
    unfold finish at hfv
    simp only at hfv ⊢
    omega
  · refine ⟨fun v hv hfv => ?_, (h.placed b hb).aligned, (h.placed b hb).bounded⟩
    obtain ⟨r, hr, hr'⟩ := (h.placed b hb).inside v hv hfv
    refine ⟨r, ?_, hr'⟩
    simp only [List.mem_cons] at hr ⊢
    tauto

end Layout

end Xv6.Umalloc
