import Xv6.Buddy.Init
import Xv6.Buddy.Restore

/-!
`bd_init` of `kernel/buddy.c`: the free lists.

Once the allocator's data and the memory past the end are marked, the
leaves from `A` to `C` are left. At each size the blocks inside that range
are those from `left` to `right`, and `bd_initfree` looks at the pairs of
these two blocks only. It finds each free block once unless `left` is even
and the only block inside, when it finds it twice; and it looks past the
last block when the range ends where the heap ends, or starts in the last
half of the heap.
-/

namespace Xv6.Buddy

open Lib Prog Lib.Subdivision

/-! ### The blocks inside a range of leaves -/

/-- The first block of size `k` in the leaves from `A` on. -/
def left (A k : ℕ) : ℕ := (A + (2 ^ k - 1)) / 2 ^ k

/-- The first block of size `k` that is not in the leaves up to `C`. -/
def right (C k : ℕ) : ℕ := C / 2 ^ k

theorem left_succ (A k : ℕ) : left A (k + 1) = (left A k + 1) / 2 := by
  have hpos := Nat.two_pow_pos k
  rw [left, left, ← Nat.add_div_right _ hpos, Nat.div_div_eq_div_mul, pow_succ]
  congr 1
  omega

theorem right_succ (C k : ℕ) : right C (k + 1) = right C k / 2 := by
  rw [right, right, Nat.div_div_eq_div_mul, pow_succ]

/-- The members of the pair of `i` of which the other is not between `l` and
`r`. -/
def pairList (l r i : ℕ) : List ℕ :=
  if (l ≤ i ∧ i < r) ↔ (l ≤ buddy i ∧ buddy i < r) then []
  else if l ≤ i ∧ i < r then [i] else [buddy i]

/-- The blocks that `bd_initfree` puts on the free list of a size. -/
def levelList (l r : ℕ) : List ℕ := (if r ≤ l then [] else pairList l r r) ++ pairList l r l

/-- The only block between `l` and `r` is even, and found twice. -/
def Twice (l r : ℕ) : Prop := l % 2 = 0 ∧ r = l + 1

variable {l r i : ℕ}

theorem pairList_left : pairList l r l = if l < r ∧ (l % 2 = 1 ∨ r = l + 1) then [l] else [] := by
  unfold pairList buddy
  split_ifs <;> first | rfl | omega

theorem pairList_right (h : l < r) : pairList l r r = if r % 2 = 1 then [r - 1] else [] := by
  unfold pairList buddy
  split_ifs <;> first | rfl | omega

theorem levelList_eq (h : l < r) : levelList l r = (if r % 2 = 1 then [r - 1] else []) ++
      if l % 2 = 1 ∨ r = l + 1 then [l] else [] := by
  rw [levelList, if_neg (Nat.not_le_of_lt h), pairList_right h, pairList_left]
  simp only [h, true_and]

theorem levelList_of_le (h : r ≤ l) : levelList l r = [] := by
  rw [levelList, if_pos h, pairList_left, if_neg fun hc => Nat.not_lt_of_le h hc.1]
  rfl

theorem mem_levelList : i ∈ levelList l r ↔ l ≤ i ∧ i < r ∧ ¬(l ≤ buddy i ∧ buddy i < r) := by
  rcases Nat.lt_or_ge l r with h | h
  · rw [levelList_eq h]
    unfold buddy
    split_ifs <;> simp <;> omega
  · rw [levelList_of_le h]
    simp
    omega

theorem nodup_levelList_iff : (levelList l r).Nodup ↔ ¬ Twice l r := by
  unfold Twice
  rcases Nat.lt_or_ge l r with h | h
  · rw [levelList_eq h]
    split_ifs <;> simp <;> omega
  · rw [levelList_of_le h]
    simp
    omega

/-- The blocks of the next size and those listed at this one make up the
blocks of this size. -/
theorem length_levelList (h : ¬ Twice l r) :
    (levelList l r).length + 2 * (r / 2 - (l + 1) / 2) = r - l := by
  unfold Twice at h
  rcases Nat.lt_or_ge l r with hlt | hge
  · rw [levelList_eq hlt]
    split_ifs <;> simp <;> omega
  · rw [levelList_of_le hge]
    simp
    omega

/-! ### The pairs -/

variable {s t : Init} {top A C k : ℕ} {w : Which} {F : String → Prop}

/-- All blocks are marked but those between `left` and `right`. -/
def Outside (A C : ℕ) (_ : Which) (k i : ℕ) : Prop := ¬(left A k ≤ i ∧ i < right C k)

/-- The state while the free lists are made: the arrays do not change. -/
structure Frozen (s t : Init) : Prop where
  bdBase : t.bdBase = s.bdBase
  nsizes : t.nsizes = s.nsizes
  p : t.p = s.p
  array : t.array = s.array
  mem : t.mem = s.mem

theorem Frozen.refl (s : Init) : Frozen s s := ⟨rfl, rfl, rfl, rfl, rfl⟩

theorem Frozen.trans {u : Init} (h : Frozen s t) (h' : Frozen t u) : Frozen s u :=
  ⟨h'.bdBase.trans h.bdBase, h'.nsizes.trans h.nsizes, h'.p.trans h.p, h'.array.trans h.array,
    h'.mem.trans h.mem⟩

theorem Frozen.bits {P : Which → ℕ → ℕ → Prop} (h : Frozen s t) (hs : Bits s top P) :
    Bits t top P := by
  refine ⟨fun w k hk => ?_, ?_⟩
  · rw [h.mem, h.array]
    exact hs.marks w k hk
  · rw [h.array]
    exact hs.apart

theorem buddy_lt (hk : k < top) (hi : i < 2 ^ (top - k)) : buddy i < 2 ^ (top - k) := by
  obtain ⟨d, hd⟩ := Nat.exists_eq_succ_of_ne_zero (Nat.sub_ne_zero_of_lt hk)
  rw [hd, pow_succ] at hi ⊢
  unfold buddy
  split <;> omega

/-- What a read leaves. -/
structure Read (top : ℕ) (s t : Init) : Prop where
  frozen : Frozen s t
  free : t.free = s.free
  inRange : InRange top s → InRange top t

theorem Read.trans {u : Init} (h : Read top s t) (h' : Read top t u) : Read top s u :=
  ⟨h.frozen.trans h'.frozen, h'.free.trans h.free, fun hr => h'.inRange (h.inRange hr)⟩

theorem twp_allocIsset {P : Which → ℕ → ℕ → Prop} (hbits : Bits s top P) (hk : k ≤ top)
    (hi : i < 2 ^ (top - k)) :
    twp F (allocIsset k i) (fun x t => (x = true ↔ P .alloc k i) ∧ Read top s t) s := by
  refine ⟨hbits.marks .alloc k ⟨hk, nofun⟩ i hi, ⟨rfl, rfl, rfl, rfl, rfl⟩, rfl, fun hr x hx => ?_⟩
  rcases List.mem_cons.mp hx with rfl | hx
  · exact ⟨hk, hi⟩
  · exact hr x hx

/-- `bd_initfree_pair` on a pair of blocks of the heap. -/
theorem twp_bdInitfreePair (hbits : Bits s top (Outside A C)) (htop : top ≤ 27) (hk : k < top)
    (hi : i < 2 ^ (top - k)) : twp F (bdInitfreePair k i) (fun a t =>
      a = ((blkSize k * (pairList (left A k) (right C k) i).length : ℕ) : ℤ) ∧
      t.free = Function.update s.free k
        ((pairList (left A k) (right C k) i).map (start s.bdBase k) ++ s.free k) ∧
      Frozen s t ∧ (InRange top s → InRange top t)) s := by
  have hb := buddy_lt hk hi
  have haddr : ∀ j < 2 ^ (top - k), ∀ u : Init, Read top s u →
      addr u.bd k j = start s.bdBase k j := fun j hj u hu => by
    rw [addr_eq (offset_lt htop hk.le hj)]
    exact congrArg (start · k j) hu.frozen.bdBase
  have hsize : cint (blkSize k) = blkSize k := by
    have := offset_lt (i := 1) htop hk.le (Nat.one_lt_two_pow (Nat.sub_ne_zero_of_lt hk))
    exact cint_of_lt (by omega)
  refine twp_bind.mpr (twp_mono (twp_allocIsset hbits hk.le hi) ?_)
  rintro x t ⟨hx, ht⟩
  refine twp_bind.mpr (twp_mono (twp_allocIsset (ht.frozen.bits hbits) hk.le hb) ?_)
  rintro y u ⟨hy, hu⟩
  replace hu := ht.trans hu
  refine twp_ite (fun hne => ?_) fun heq => ?_
  · refine twp_bind.mpr (twp_mono (twp_allocIsset (hu.frozen.bits hbits) hk.le hi) ?_)
    rintro z v ⟨hz, hv⟩
    replace hv := hu.trans hv
    have hzx : z = x := Bool.eq_iff_iff.mpr (hz.trans hx.symm)
    subst hzx
    -- the block that is put on the list
    have hpush : ∀ j, pairList (left A k) (right C k) i = [j] → j < 2 ^ (top - k) →
        let w := { v with free := Function.update v.free k (lstPush (v.free k) (addr v.bd k j)) }
        cint (blkSize k) = ((blkSize k * (pairList (left A k) (right C k) i).length : ℕ) : ℤ) ∧
        w.free = Function.update s.free k
          ((pairList (left A k) (right C k) i).map (start s.bdBase k) ++ s.free k) ∧
        Frozen s w ∧ (InRange top s → InRange top w) := by
      intro j hj hlt
      refine ⟨by rw [hsize, hj]; simp, ?_, ⟨hv.frozen.bdBase, hv.frozen.nsizes, hv.frozen.p,
        hv.frozen.array, hv.frozen.mem⟩, hv.inRange⟩
      simp only [hj, haddr j hlt v hv, hv.free, lstPush, List.map_cons, List.map_nil,
        List.cons_append, List.nil_append]
    refine twp_bind.mpr (twp_get.mpr ?_)
    cases z with
    | true =>
        have hin : ¬(left A k ≤ i ∧ i < right C k) := hx.mp rfl
        have hpair : pairList (left A k) (right C k) i = [buddy i] := by
          refine (if_neg fun hiff => hne ?_).trans (if_neg hin)
          exact (hy.mpr fun hb => hin (hiff.mpr hb)).symm
        simp only [if_true, push, twp_bind, twp_modify, twp_pure]
        exact hpush _ hpair hb
    | false =>
        have hin : left A k ≤ i ∧ i < right C k := not_not.mp fun h => by cases hx.mpr h
        have hpair : pairList (left A k) (right C k) i = [i] := by
          refine (if_neg fun hiff => hne ?_).trans (if_pos hin)
          cases y with
          | false => rfl
          | true => exact absurd (hiff.mp hin) (hy.mp rfl)
        simp only [Bool.false_eq_true, if_false, push, twp_bind, twp_modify, twp_pure]
        exact hpush _ hpair hi
  · obtain rfl : x = y := not_not.mp heq
    have hpair : pairList (left A k) (right C k) i = [] :=
      if_pos (not_iff_not.mp (hx.symm.trans hy))
    rw [hpair]
    exact ⟨by simp, by simp [hu.free], hu.frozen, hu.inRange⟩

/-! ### The loop over the sizes -/

/-- The bytes put on the free lists of the first `m` sizes. -/
def levelBytes (A C m : ℕ) : ℕ :=
  ∑ k ∈ Finset.range m, blkSize k * (levelList (left A k) (right C k)).length

theorem levelBytes_succ (A C m : ℕ) : levelBytes A C (m + 1) =
    levelBytes A C m + blkSize m * (levelList (left A m) (right C m)).length :=
  Finset.sum_range_succ _ _

theorem levelBytes_mono (A C : ℕ) : Monotone (levelBytes A C) :=
  monotone_nat_of_le_succ fun m => by
    rw [levelBytes_succ]
    exact Nat.le_add_right _ _

/-- The free lists of the first `m` sizes have been made. -/
structure Listed (A C top m : ℕ) (s t : Init) : Prop where
  done : ∀ k < m, t.free k = (levelList (left A k) (right C k)).map (start s.bdBase k)
  rest : ∀ k, m ≤ k → t.free k = s.free k
  frozen : Frozen s t
  inRange : InRange top s → InRange top t

theorem Listed.succ {m : ℕ} {u : Init} (h : Listed A C top m s t) (hfrozen : Frozen t u)
    (hrange : InRange top t → InRange top u) (hfree : u.free = Function.update t.free m
      ((levelList (left A m) (right C m)).map (start s.bdBase m))) :
    Listed A C top (m + 1) s u where
  done := by
    intro k hk
    rw [hfree]
    by_cases hkm : k = m
    · rw [hkm, Function.update_self]
    · rw [Function.update_of_ne hkm]
      exact h.done k (by omega)
  rest := by
    intro k hk
    rw [hfree, Function.update_of_ne (by omega)]
    exact h.rest k (by omega)
  frozen := h.frozen.trans hfrozen
  inRange := fun hr => hrange (h.inRange hr)

theorem twp_initfreeLoop (hbits : Bits s top (Outside A C)) (htop : top ≤ 27) (hA : A ≤ 2 ^ 27)
    (hC : C * leafSize < 2 ^ 31) (hleft : ∀ k < top, left A k < 2 ^ (top - k))
    (hright : ∀ k < top, left A k < right C k → right C k < 2 ^ (top - k))
    (hfree : ∀ k < top, s.free k = []) (hsum : levelBytes A C top < 2 ^ 31) {m : ℕ} (hm : m ≤ top) :
    twp F (initfreeLoop (s.bdBase + A * leafSize) (s.bdBase + C * leafSize) m)
      (fun a t => a = (levelBytes A C m : ℤ) ∧ Listed A C top m s t) s := by
  induction m with
  | zero => exact ⟨rfl, nofun, fun _ _ => rfl, Frozen.refl s, id⟩
  | succ m ih =>
      refine twp_bind.mpr (twp_mono (ih (by omega)) ?_)
      rintro a t ⟨rfl, ht⟩
      have hl : blkIndexNext t.bd m (s.bdBase + A * leafSize) = left A m := by
        rw [← ht.frozen.bdBase]
        exact blkIndexNext_leaf (b := t.bd) hA
      have hr : blkIndex t.bd m (s.bdBase + C * leafSize) = right C m := by
        rw [← ht.frozen.bdBase]
        exact blkIndex_leaf (b := t.bd) hC
      refine twp_bind.mpr (twp_get.mpr ?_)
      simp only [hl, hr]
      have htotal : levelBytes A C (m + 1) < 2 ^ 31 := (levelBytes_mono A C hm).trans_lt hsum
      rw [levelBytes_succ, levelList] at htotal
      have hmt : m < top := by omega
      have hempty : t.free m = [] := (ht.rest m le_rfl).trans (hfree m hmt)
      refine twp_bind.mpr (twp_mono
        (twp_bdInitfreePair (ht.frozen.bits hbits) htop hmt (hleft m hmt)) ?_)
      rintro _ u ⟨rfl, hfree₁, hfrozen₁, hrange₁⟩
      rw [hempty, List.append_nil, ht.frozen.bdBase] at hfree₁
      refine twp_ite (fun hle => ?_) fun hgt => ?_
      · rw [if_pos hle, List.nil_append] at htotal
        have hlevel : levelList (left A m) (right C m) = pairList (left A m) (right C m) (left A m) := by
          rw [levelList, if_pos hle, List.nil_append]
        refine twp_pure.mpr ⟨?_, ht.succ hfrozen₁ hrange₁ (by rw [hlevel, hfree₁])⟩
        rw [levelBytes_succ, hlevel, ← Nat.cast_add, cint_of_lt htotal]
      · rw [if_neg hgt, List.length_append, Nat.mul_add] at htotal
        have hlevel : levelList (left A m) (right C m) = pairList (left A m) (right C m) (right C m) ++
            pairList (left A m) (right C m) (left A m) := by
          rw [levelList, if_neg hgt]
        refine twp_bind.mpr (twp_mono (twp_bdInitfreePair
          ((ht.frozen.trans hfrozen₁).bits hbits) htop hmt (hright m hmt (by omega))) ?_)
        rintro _ v ⟨rfl, hfree₂, hfrozen₂, hrange₂⟩
        refine twp_pure.mpr ⟨?_, ht.succ (hfrozen₁.trans hfrozen₂) (fun h => hrange₂ (hrange₁ h)) ?_⟩
        · rw [← Nat.cast_add, cint_of_lt (by omega), ← Nat.cast_add, cint_of_lt (by omega),
            levelBytes_succ, hlevel, List.length_append, Nat.mul_add]
          congr 1
          omega
        · rw [hfree₂, hfree₁, Function.update_self, Function.update_idem, hlevel, List.map_append,
            hfrozen₁.bdBase, ht.frozen.bdBase]

/-! ### The bits that are looked at -/

theorem touched_bdInitfreePair (k i : ℕ) : twp F (bdInitfreePair k i)
      (fun _ t => t.bdBase = s.bdBase ∧ t.nsizes = s.nsizes ∧ (k, i) ∈ t.touched ∧
        s.touched ⊆ t.touched) s := by
  simp only [bdInitfreePair, allocIsset, push, twp_bind, twp_get, twp_modify, twp_pure]
  refine twp_ite (fun _ => ?_) fun _ => ?_
  · simp only [twp_bind, twp_get, twp_modify, twp_pure]
    refine twp_ite (fun _ => ?_) fun _ => ?_
    all_goals
      refine ⟨rfl, rfl, by simp, ?_⟩
      exact fun x hx => by simp [hx]
  · refine ⟨rfl, rfl, by simp, ?_⟩
    exact fun x hx => by simp [hx]

/-- `bd_initfree` looks at the block `left` of each size, and at `right` when
that comes later. -/
theorem touched_initfreeLoop (hA : A ≤ 2 ^ 27) (hC : C * leafSize < 2 ^ 31) (m : ℕ) :
    twp F (initfreeLoop (s.bdBase + A * leafSize) (s.bdBase + C * leafSize) m)
      (fun _ t => t.bdBase = s.bdBase ∧ t.nsizes = s.nsizes ∧ ∀ k < m, (k, left A k) ∈ t.touched ∧
        (left A k < right C k → (k, right C k) ∈ t.touched)) s := by
  induction m with
  | zero => exact ⟨rfl, rfl, nofun⟩
  | succ m ih =>
      refine twp_bind.mpr (twp_mono ih ?_)
      rintro a t ⟨hbase, hsizes, ht⟩
      have hl : blkIndexNext t.bd m (s.bdBase + A * leafSize) = left A m := by
        rw [← hbase]
        exact blkIndexNext_leaf (b := t.bd) hA
      have hr : blkIndex t.bd m (s.bdBase + C * leafSize) = right C m := by
        rw [← hbase]
        exact blkIndex_leaf (b := t.bd) hC
      refine twp_bind.mpr (twp_get.mpr ?_)
      simp only [hl, hr]
      refine twp_bind.mpr (twp_mono (touched_bdInitfreePair m (left A m)) ?_)
      rintro _ u ⟨hbase₁, hsizes₁, hmem₁, hsub₁⟩
      refine twp_ite (fun hle => twp_pure.mpr ⟨hbase₁.trans hbase, hsizes₁.trans hsizes,
        fun k hk => ?_⟩) fun hgt => ?_
      · rcases Nat.lt_succ_iff_lt_or_eq.mp hk with hlt | rfl
        · exact ⟨hsub₁ (ht k hlt).1, fun h => hsub₁ ((ht k hlt).2 h)⟩
        · exact ⟨hmem₁, fun h => absurd hle (Nat.not_le_of_lt h)⟩
      · refine twp_bind.mpr (twp_mono (touched_bdInitfreePair m (right C m)) ?_)
        rintro _ v ⟨hbase₂, hsizes₂, hmem₂, hsub₂⟩
        refine twp_pure.mpr ⟨hbase₂.trans (hbase₁.trans hbase),
          hsizes₂.trans (hsizes₁.trans hsizes), fun k hk => ?_⟩
        rcases Nat.lt_succ_iff_lt_or_eq.mp hk with hlt | rfl
        · exact ⟨hsub₂ (hsub₁ (ht k hlt).1), fun h => hsub₂ (hsub₁ ((ht k hlt).2 h))⟩
        · exact ⟨hsub₂ hmem₁, fun _ => hmem₂⟩

/-! ### The layout -/

/-- The blocks inside the range of leaves. -/
def Inside (A C k i : ℕ) : Prop := left A k ≤ i ∧ i < right C k

theorem Inside.child (h : Inside A C (k + 1) (i / 2)) : Inside A C k i := by
  rw [Inside, left_succ, right_succ] at h
  unfold Inside
  omega

/-- A block is inside when both of its halves are. -/
theorem inside_succ_iff : Inside A C (k + 1) (i / 2) ↔ Inside A C k i ∧ Inside A C k (buddy i) := by
  unfold Inside
  rw [left_succ, right_succ]
  unfold buddy
  split <;> omega

theorem Inside.lt (h : Inside A C k i) (hC : C ≤ 2 ^ top) (hk : k ≤ top) : i < 2 ^ (top - k) := by
  refine h.2.trans_le ?_
  rw [right, Nat.div_le_iff_le_mul_add_pred (Nat.two_pow_pos k)]
  have hpow : 2 ^ top = 2 ^ k * 2 ^ (top - k) := by rw [← pow_add, Nat.add_sub_cancel' hk]
  omega

theorem not_inside_top (hA : 0 < A) (hC : C ≤ 2 ^ top) : ¬ Inside A C top i := by
  rintro ⟨hl, hr⟩
  have hleft : 0 < left A top := by
    rw [left]
    exact Nat.div_pos (by have := Nat.two_pow_pos top; omega) (Nat.two_pow_pos top)
  have hright : right C top ≤ 1 := by
    rw [right, Nat.div_le_iff_le_mul_add_pred (Nat.two_pow_pos top)]
    omega
  omega

theorem half_lt (hk : k < top) (hi : i < 2 ^ (top - k)) : i / 2 < 2 ^ (top - (k + 1)) := by
  obtain ⟨d, hd⟩ := Nat.exists_eq_succ_of_ne_zero (Nat.sub_ne_zero_of_lt hk)
  have hd' : top - (k + 1) = d := by omega
  rw [hd, pow_succ] at hi
  rw [hd']
  omega

/-- The leaves outside the range are in use, and every larger block that is
not inside is split. -/
def freeLayout (A C top : ℕ) : Layout top where
  split := {x | 0 < x.1 ∧ x.1 ≤ top ∧ x.2 < 2 ^ (top - x.1) ∧ ¬ Inside A C x.1 x.2}
  pos := fun h => h.1
  parent := by
    rintro k i ⟨hpos, hk : k ≤ top, hi : i < 2 ^ (top - k), hout⟩
    rcases Nat.lt_or_eq_of_le hk with hlt | rfl
    · refine .inr ⟨hlt, Nat.succ_pos k, hlt, ?_, fun h => hout h.child⟩
      exact half_lt hlt hi
    · exact .inl ⟨rfl, by simpa using hi⟩
  used := {x | x.1 = 0 ∧ x.2 < 2 ^ top ∧ ¬ Inside A C 0 x.2}
  tip_of_used := by
    rintro k i ⟨hk, hi : i < 2 ^ top, hout⟩
    obtain rfl : k = 0 := hk
    refine ⟨?_, fun h => Nat.lt_irrefl 0 h.1⟩
    rcases Nat.eq_zero_or_pos top with rfl | hpos
    · exact .inl ⟨rfl, by simpa using hi⟩
    · refine .inr ⟨hpos, Nat.one_pos, hpos, ?_, fun h => hout h.child⟩
      exact half_lt hpos hi

theorem mem_taken_iff (hk : k ≤ top) (hi : i < 2 ^ (top - k)) :
    (freeLayout A C top).Taken k i ↔ ¬ Inside A C k i := by
  constructor
  · rintro (⟨-, -, -, hout⟩ | ⟨hk, -, hout⟩)
    · exact hout
    · obtain rfl : k = 0 := hk
      exact hout
  · intro hout
    rcases Nat.eq_zero_or_pos k with rfl | hpos
    · exact .inr ⟨rfl, hi, hout⟩
    · exact .inl ⟨hpos, hk, hi, hout⟩

theorem freeLayout_free_iff (hA : 0 < A) (hC : C ≤ 2 ^ top) :
    (freeLayout A C top).Free k i ↔ k < top ∧ Inside A C k i ∧ ¬ Inside A C k (buddy i) := by
  constructor
  · intro hfree
    have hin : Inside A C k i := by
      by_contra hout
      exact (Layout.free_iff_not_taken hfree.tip.1).mp hfree
        ((mem_taken_iff hfree.tip.le hfree.tip.lt).mpr hout)
    rcases hfree.tip.1 with ⟨rfl, rfl⟩ | ⟨hk, -, -, -, hout⟩
    · exact absurd hin (not_inside_top hA hC)
    · exact ⟨hk, hin, fun hb => hout (inside_succ_iff.mpr ⟨hin, hb⟩)⟩
  · rintro ⟨hk, hin, hb⟩
    have hi := hin.lt hC hk.le
    have hnode : (freeLayout A C top).Node k i :=
      .inr ⟨hk, Nat.succ_pos k, hk, half_lt hk hi, fun h => hb (inside_succ_iff.mp h).2⟩
    refine (Layout.free_iff_not_taken hnode).mpr fun htaken => ?_
    exact (mem_taken_iff hk.le hi).mp htaken hin

theorem freeLayout_merged (hA : 0 < A) (hC : C ≤ 2 ^ top) : (freeLayout A C top).Merged := by
  intro k i _ hfree hbuddy
  exact ((freeLayout_free_iff hA hC).mp hfree).2.2 ((freeLayout_free_iff hA hC).mp hbuddy).2.1

/-- The bit arrays and free lists represent the layout. -/
theorem represents_freeLayout (hn : t.nsizes = top + 1) (htop : top ≤ 27)
    (hbits : Bits t top (Outside A C)) (hA : 0 < A) (hC : C ≤ 2 ^ top)
    (hfree : ∀ k < top, t.free k = (levelList (left A k) (right C k)).map (start t.bdBase k))
    (hlast : t.free top = []) (htwice : ∀ k < top, ¬ Twice (left A k) (right C k)) :
    Represents t.bd (freeLayout A C top) where
  nsizes_eq := hn
  top_le := htop
  split := by
    intro k hpos hk i hi
    rw [show bitIsset (t.bd.bdSizes k).split i = true ↔ Outside A C .split k i from
      hbits.marks .split k ⟨hk, fun _ => hpos⟩ i hi]
    exact ⟨fun hout => ⟨hpos, hk, hi, hout⟩, fun hs => hs.2.2.2⟩
  alloc := by
    intro k hk i hi
    rw [mem_taken_iff hk hi]
    exact hbits.marks .alloc k ⟨hk, nofun⟩ i hi
  free := by
    intro k hk
    rcases Nat.lt_or_eq_of_le hk with hlt | rfl
    · change Lists (t.free k) (start t.bdBase k) _
      rw [hfree k hlt]
      refine ⟨(nodup_levelList_iff.mpr (htwice k hlt)).map (start_injective _ _), fun p => ?_⟩
      rw [List.mem_map]
      refine exists_congr fun i => ?_
      rw [mem_levelList, freeLayout_free_iff hA hC]
      simp only [hlt, true_and, Inside, and_assoc]
      tauto
    · change Lists (t.free k) (start t.bdBase k) _
      rw [hlast]
      refine ⟨List.nodup_nil, fun p => ⟨nofun, ?_⟩⟩
      rintro ⟨i, -, hfree⟩
      exact absurd ((freeLayout_free_iff hA hC).mp hfree).1 (Nat.lt_irrefl k)

/-! ### What `bd_init` promises -/

/-- The free lists hold exactly the memory from `p` to `bdEnd`. -/
structure HandsOver (p bdEnd : ℕ) (s : Init) : Prop where
  /-- the index of every bit read or written is below `NBLK` of its size -/
  inRange : InRange s.bd.maxsize s
  nodup : ∀ k < s.nsizes, (s.free k).Nodup
  aligned : ∀ k < s.nsizes, ∀ q ∈ s.free k, s.bdBase ≤ q ∧ blkSize k ∣ q - s.bdBase
  cover : ∀ x, p ≤ x ∧ x < bdEnd ↔ ∃ k < s.nsizes, ∃ q ∈ s.free k, InBlock (q, k) x
  disjoint : ∀ k < s.nsizes, ∀ q ∈ s.free k, ∀ k' < s.nsizes, ∀ q' ∈ s.free k', ∀ x,
    InBlock (q, k) x → InBlock (q', k') x → k = k' ∧ q = q'
  merged : MergedLists s.bd

theorem Inside.leaf {l : ℕ} (h : Inside A C k (l / 2 ^ k)) : A ≤ l ∧ l < C := by
  induction k with
  | zero => simpa [Inside, left, right] using h
  | succ k ih =>
      rw [div_two_pow_succ] at h
      exact ih h.child

theorem handsOver_of_represents (hrep : Represents t.bd (freeLayout A C top)) (hA : 0 < A)
    (hC : C ≤ 2 ^ top) (hrange : InRange top t) :
    HandsOver (t.bdBase + A * leafSize) (t.bdBase + C * leafSize) t := by
  have hn : t.nsizes = top + 1 := hrep.nsizes_eq
  have hmem : ∀ {k q}, k < t.nsizes → (q ∈ t.free k ↔
      ∃ i, q = start t.bdBase k i ∧ (freeLayout A C top).Free k i) :=
    fun hk => (hrep.free (by omega)).mem_iff _
  constructor
  case inRange => rwa [hrep.maxsize_eq]
  case nodup => exact fun k hk => (hrep.free (by omega)).nodup
  case aligned =>
    intro k hk q hq
    obtain ⟨i, rfl, -⟩ := (hmem hk).mp hq
    exact ⟨Nat.le_add_right _ _, i, by rw [start, Nat.add_sub_cancel_left, Nat.mul_comm]⟩
  case cover =>
    intro x
    constructor
    · rintro ⟨hle, hlt⟩
      have hin : A ≤ (x - t.bdBase) / leafSize ∧ (x - t.bdBase) / leafSize < C := by
        rw [Nat.le_div_iff_mul_le (by decide), Nat.div_lt_iff_lt_mul (by decide)]
        omega
      obtain ⟨k, hk, htip⟩ := exists_tip (t := (freeLayout A C top).toSubdivision)
        (hin.2.trans_le hC)
      rcases Layout.used_or_free htip with ⟨hk0, -, hout⟩ | hfree
      · obtain rfl : k = 0 := hk0
        refine absurd ?_ hout
        simpa [Inside, left, right] using hin
      · exact ⟨k, by omega, _, (hmem (by omega)).mpr ⟨_, rfl, hfree⟩,
          inBlock_start.mpr ⟨by omega, rfl⟩⟩
    · rintro ⟨k, hk, q, hq, hx⟩
      obtain ⟨i, rfl, hfree⟩ := (hmem hk).mp hq
      obtain ⟨hle, rfl⟩ := inBlock_start.mp hx
      obtain ⟨h₁, h₂⟩ := ((freeLayout_free_iff hA hC).mp hfree).2.1.leaf
      rw [Nat.le_div_iff_mul_le (by decide)] at h₁
      rw [Nat.div_lt_iff_lt_mul (by decide)] at h₂
      omega
  case disjoint =>
    intro k hk q hq k' hk' q' hq' x hx hx'
    obtain ⟨i, rfl, hfree⟩ := (hmem hk).mp hq
    obtain ⟨i', rfl, hfree'⟩ := (hmem hk').mp hq'
    obtain ⟨-, rfl⟩ := inBlock_start.mp hx
    obtain ⟨-, rfl⟩ := inBlock_start.mp hx'
    obtain rfl := hfree.tip.unique hfree'.tip
    exact ⟨rfl, rfl⟩
  case merged => exact hrep.merged_iff.mpr (freeLayout_merged hA hC)

/-! ### How large the allocator's data is -/

/-- The bytes of a bit array for each of the first `m` powers of two. -/
def powBytes (m : ℕ) : ℕ := ∑ j ∈ Finset.range m, (2 ^ j + 7) / 8

theorem powBytes_succ (m : ℕ) : powBytes (m + 1) = powBytes m + (2 ^ m + 7) / 8 :=
  Finset.sum_range_succ _ _

theorem powBytes_add_four (m : ℕ) : powBytes (m + 4) = 2 ^ (m + 1) + 2 := by
  induction m with
  | zero => decide
  | succ m ih =>
      rw [Nat.add_right_comm m 1 4, powBytes_succ, ih, show m + 4 = m + 1 + 3 by omega,
        pow_add 2 (m + 1) 3, pow_succ 2 (m + 1)]
      omega

theorem arraysBytes_eq (htop : top ≤ 27) : arraysBytes (top + 1) 0 (top + 1) = powBytes (top + 1) ∧
      arraysBytes (top + 1) 1 top = powBytes top := by
  constructor
  · rw [arraysBytes, powBytes, ← Finset.sum_range_reflect]
    refine Finset.sum_congr rfl fun j hj => ?_
    have hj := Finset.mem_range.mp hj
    rw [arrayBytes_eq htop]
    congr 3
    omega
  · rw [arraysBytes, powBytes, ← Finset.sum_range_reflect]
    refine Finset.sum_congr rfl fun j hj => ?_
    have hj := Finset.mem_range.mp hj
    rw [arrayBytes_eq htop]
    congr 3
    omega

/-- The leaves that the allocator's data takes. -/
def metaLeaves (top : ℕ) : ℕ := (sizeofSzInfo * (top + 1) + powBytes (top + 1) + powBytes top + 15) / 16

theorem metaEnd_eq (htop : top ≤ 27) (p : ℕ) :
    metaEnd p (top + 1) = p + (sizeofSzInfo * (top + 1) + powBytes (top + 1) + powBytes top) := by
  obtain ⟨h₁, h₂⟩ := arraysBytes_eq htop
  rw [metaEnd, Nat.add_sub_cancel, h₁, h₂]
  omega

/-- From a kilobyte on the data takes at most a quarter of the heap. -/
theorem metaLeaves_le (m : ℕ) : metaLeaves (m + 6) ≤ 2 ^ (m + 4) := by
  have hsize : sizeofSzInfo * (m + 6 + 1) + powBytes (m + 6 + 1) + powBytes (m + 6) ≤
      2 ^ (m + 8) := by
    rw [show m + 6 + 1 = m + 3 + 4 by omega, show m + 6 = m + 2 + 4 by omega, powBytes_add_four,
      powBytes_add_four, sizeofSzInfo]
    induction m with
    | zero => decide
    | succ m ih =>
        have h₁ : 2 ^ (m + 1 + 3 + 1) = 2 * 2 ^ (m + 3 + 1) := by ring
        have h₂ : 2 ^ (m + 1 + 2 + 1) = 2 * 2 ^ (m + 2 + 1) := by ring
        have h₃ : 2 ^ (m + 1 + 8) = 2 * 2 ^ (m + 8) := by ring
        have h₄ : 32 ≤ 2 ^ (m + 8) / 8 := by
          have := Nat.pow_le_pow_right (show 0 < 2 by decide) (Nat.le_add_left 8 m)
          omega
        have h₅ : 2 ^ (m + 8) = 16 * 2 ^ (m + 3 + 1) := by ring
        have h₆ : 2 ^ (m + 3 + 1) = 2 * 2 ^ (m + 2 + 1) := by ring
        omega
  have hpow : 2 ^ (m + 8) = 16 * 2 ^ (m + 4) := by ring
  rw [metaLeaves]
  omega

/-! ### The run up to `bd_initfree` -/

/-- The allocator's variables before `bd_init`, with anything in memory. -/
def before (mem : ℕ → BitVec 8) : Init where
  bdBase := 0
  nsizes := 0
  p := 0
  mem := mem
  array := fun _ _ => 0
  free := fun _ => []
  touched := []

/-- The data of the allocator and the memory past the end are marked. -/
structure Ready (B top A C : ℕ) (t : Init) : Prop where
  bdBase : t.bdBase = B
  nsizes : t.nsizes = top + 1
  bits : Bits t top (Outside A C)
  free : ∀ k ≤ top, t.free k = []
  inRange : InRange top t

theorem roundup_leafSize {n : ℕ} (hpos : 0 < n) (hn : n + 16 ≤ 2 ^ 64) :
    roundup n leafSize = (n + 15) / 16 * 16 := by
  rw [roundup]
  simp only [leafSize]
  omega

theorem roundup_mod (n : ℕ) : roundup n leafSize % leafSize = 0 := by
  rw [roundup]
  simp only [leafSize]
  omega

/-- `unavailable`: the heap ends `2 ^ top` leaves from its start. -/
theorem unavailable_eq {S H : ℕ} (hH : H = 16 * 2 ^ top) (htop : top ≤ 27) (hS : S ≤ H)
    (hpos : 16 ≤ S) :
    (if (0 : ℤ) < cint (H - S) then cint (roundup (cint ((H : ℤ) - S)).toNat leafSize)
      else cint ((H : ℤ) - S)) = ((H - S / 16 * 16 : ℕ) : ℤ) := by
  have hle : 2 ^ top ≤ 2 ^ 27 := Nat.pow_le_pow_right (by decide) htop
  have hcast : (H : ℤ) - S = ((H - S : ℕ) : ℤ) := by omega
  rw [hcast, cint_of_lt (by omega), Int.toNat_natCast]
  split
  · rw [roundup_leafSize (by omega) (by omega), cint_of_lt (by omega)]
    congr 1
    omega
  · congr 1
    omega

/-- The marks left by the two calls of `bd_mark`. -/
theorem marked_iff (hk : k ≤ top) (hi : i < 2 ^ (top - k)) :
    Outside A C w k i ↔ (False ∨ 0 / 2 ^ k ≤ i ∧ i < (A + (2 ^ k - 1)) / 2 ^ k) ∨
      C / 2 ^ k ≤ i ∧ i < (2 ^ top + (2 ^ k - 1)) / 2 ^ k := by
  have hlast : (2 ^ top + (2 ^ k - 1)) / 2 ^ k = 2 ^ (top - k) := by
    have hpow : 2 ^ top = 2 ^ (top - k) * 2 ^ k := by rw [← pow_add, Nat.sub_add_cancel hk]
    rw [add_pred_div _ (Nat.two_pow_pos k), hpow, Nat.mul_mod_left, if_pos rfl,
      Nat.mul_div_cancel _ (Nat.two_pow_pos k), Nat.add_zero]
  rw [hlast, Outside, left, right, Nat.zero_div]
  simp only [hi, and_true, false_or, Nat.zero_le, true_and]
  omega

/-- `bd_init` up to the making of the free lists. -/
theorem twp_bdInit_of {Q : Unit → Init → Prop} {base stop B : ℕ} {mem : ℕ → BitVec 8}
    (hB : roundup base leafSize = B) (hn : numSizes B stop = top + 1) (htop : top ≤ 27)
    (hheap : stop - B ≤ blkSize top) (hend : metaEnd B (top + 1) ≤ stop)
    (hS : stop - B < 2 ^ 31) (hstop : stop + 16 ≤ 2 ^ 64) (hdata : metaLeaves top * 16 < 2 ^ 31)
    (hrest : ∀ t, Ready B top (metaLeaves top) ((stop - B) / 16) t →
      twp F (initfreeLoop (B + metaLeaves top * leafSize) (B + (stop - B) / 16 * leafSize) top)
        (fun a u => (a = (((stop - B) / 16 * 16 : ℕ) : ℤ) - (metaLeaves top * 16 : ℕ) → Q () u) ∧
          (a ≠ (((stop - B) / 16 * 16 : ℕ) : ℤ) - (metaLeaves top * 16 : ℕ) →
            F "bd_init: free mem")) t) : twp F (bdInit base stop) Q (before mem) := by
  have hsize : blkSize top = 16 * 2 ^ top := by rw [blkSize, Nat.mul_comm]
  have hmeta := metaEnd_eq htop B
  have hmod : B % leafSize = 0 := hB ▸ roundup_mod base
  rw [hmeta] at hend
  refine twp_bind.mpr (twp_mono (twp_placeData (hB.symm ▸ hn) htop) ?_)
  intro _ t ht
  have hbase : t.bdBase = B := ht.bdBase.trans hB
  have hp : t.p = B + metaLeaves top * leafSize := by
    rw [ht.p, hB, hmeta, roundup_leafSize (by simp only [sizeofSzInfo]; omega) (by omega), metaLeaves]
    simp only [leafSize] at hmod ⊢
    omega
  have hA : metaLeaves top ≤ 2 ^ top := by
    rw [metaLeaves]
    omega
  have hmax : ∀ u : Init, u.nsizes = top + 1 → u.bd.heapSize = blkSize top := fun u hu => by
    rw [Bd.heapSize, Bd.maxsize]
    change blkSize (u.nsizes - 1) = _
    rw [hu, Nat.add_sub_cancel]
  have hbytes : cint ((t.p : ℤ) - t.bdBase) = ((metaLeaves top * 16 : ℕ) : ℤ) := by
    rw [hp, hbase, Nat.cast_add, add_sub_cancel_left, cint_of_lt hdata]
  simp only [bdMarkDataStructures, bdMarkUnavailable, twp_bind, twp_get, twp_pure, hbytes]
  have hmark := ht.bits.bdMark (F := F) (a := 0) (c := metaLeaves top) ht.nsizes htop
    (by rwa [hbase]) (by decide) hA
  rw [Nat.zero_mul, Nat.add_zero, hbase, ← hp] at hmark
  rw [hbase]
  refine twp_mono hmark ?_
  rintro _ u ⟨hbits, hsame, hrange⟩
  have hbase' : u.bdBase = B := hsame.bdBase.trans hbase
  have hn' : u.nsizes = top + 1 := hsame.nsizes.trans ht.nsizes
  have hcast : (stop : ℤ) - u.bdBase = ((stop - B : ℕ) : ℤ) := by
    rw [hbase']
    omega
  have hpos : 16 ≤ stop - B := by
    simp only [sizeofSzInfo] at hend
    omega
  rw [hmax u hn', hcast, unavailable_eq hsize htop hheap hpos]
  have hbdEnd : ∀ x : ℕ, x = B → ((x : ℤ) + blkSize top -
      ((blkSize top - (stop - B) / 16 * 16 : ℕ) : ℤ)).toNat = B + (stop - B) / 16 * leafSize := by
    rintro x rfl
    simp only [leafSize]
    omega
  rw [hbdEnd u.bdBase hbase']
  have hmark' := hbits.bdMark (F := F) (a := (stop - B) / 16) (c := 2 ^ top) hn' htop
    (by rwa [hbase']) (by simp only [leafSize]; omega) le_rfl
  rw [hbase', show 2 ^ top * leafSize = blkSize top from rfl] at hmark'
  rw [hbase']
  refine twp_mono hmark' ?_
  rintro _ v ⟨hbits, hsame', hrange'⟩
  have hready : Ready B top (metaLeaves top) ((stop - B) / 16) v := by
    refine ⟨hsame'.bdBase.trans hbase', hsame'.nsizes.trans hn',
      hbits.congr fun w k hk i hi => marked_iff hk.1 hi, fun k hk => ?_, hrange' (hrange ?_)⟩
    · rw [hsame'.free, hsame.free, ht.free k hk]
    · rw [InRange, ht.touched]
      exact nofun
  rw [hmax t ht.nsizes, hbdEnd B rfl, hp]
  simp only [bdInitfree, twp_bind, twp_get]
  rw [show v.bd.maxsize = top by
    change v.nsizes - 1 = top
    rw [hready.nsizes, Nat.add_sub_cancel]]
  refine twp_mono (hrest v hready) ?_
  rintro a x ⟨hok, hbad⟩
  have hsum : ((blkSize top : ℕ) : ℤ) - ((metaLeaves top * 16 : ℕ) : ℤ) -
      ((blkSize top - (stop - B) / 16 * 16 : ℕ) : ℤ) =
      (((stop - B) / 16 * 16 : ℕ) : ℤ) - (metaLeaves top * 16 : ℕ) := by
    omega
  rw [hsum]
  exact twp_ite (fun hne => hbad hne) fun heq => hok (not_not.mp heq)

/-! ### When it works -/

/-- At every size the blocks listed so far and those still inside the range
make up the range. -/
theorem levelBytes_add (h : ∀ k < top, ¬ Twice (left A k) (right C k)) {m : ℕ} (hm : m ≤ top) :
    levelBytes A C m + blkSize m * (right C m - left A m) = 16 * (C - A) := by
  induction m with
  | zero => simp [levelBytes, left, right, blkSize]
  | succ m ih =>
      have hlength := length_levelList (h m (by omega))
      rw [levelBytes_succ, ← ih (by omega), left_succ, right_succ, blkSize_succ, ← hlength]
      ring

theorem levelBytes_top (hA : 0 < A) (hC : C ≤ 2 ^ top)
    (h : ∀ k < top, ¬ Twice (left A k) (right C k)) : levelBytes A C top = 16 * (C - A) := by
  have hadd := levelBytes_add h le_rfl
  have hnone : right C top - left A top = 0 := by
    have := not_inside_top (i := left A top) hA hC
    unfold Inside at this
    omega
  rwa [hnone, Nat.mul_zero, Nat.add_zero] at hadd

/-- The free lists are right when all indices are in range and no block is
found twice. -/
theorem twp_initfreeLoop_handsOver {B : ℕ} (ht : Ready B top A C t) (htop : top ≤ 27) (hA : 0 < A)
    (hAC : A ≤ C) (hC : C < 2 ^ top) (hbytes : C * leafSize < 2 ^ 31)
    (hleft : ∀ k < top, left A k < 2 ^ (top - k))
    (htwice : ∀ k < top, ¬ Twice (left A k) (right C k)) :
    twp F (initfreeLoop (B + A * leafSize) (B + C * leafSize) top) (fun a u =>
      a = ((C * 16 : ℕ) : ℤ) - (A * 16 : ℕ) ∧ u.bdBase = B ∧
        Represents u.bd (freeLayout A C top) ∧ InRange top u) t := by
  have hpow : 2 ^ top ≤ 2 ^ 27 := Nat.pow_le_pow_right (by decide) htop
  have hsum := levelBytes_top hA hC.le htwice
  have hright : ∀ k < top, left A k < right C k → right C k < 2 ^ (top - k) := fun k hk _ => by
    rw [right, Nat.div_lt_iff_lt_mul (Nat.two_pow_pos k), ← pow_add, Nat.sub_add_cancel hk.le]
    exact hC
  have hloop := twp_initfreeLoop (F := F) ht.bits htop (by omega) hbytes hleft hright
    (fun k hk => ht.free k hk.le) (by simp only [leafSize] at hbytes; omega) (le_refl top)
  rw [ht.bdBase] at hloop
  refine twp_mono hloop ?_
  rintro a u ⟨rfl, hu⟩
  have hbase : u.bdBase = t.bdBase := hu.frozen.bdBase
  refine ⟨by rw [hsum]; omega, hbase.trans ht.bdBase, ?_, hu.inRange ht.inRange⟩
  refine represents_freeLayout (hu.frozen.nsizes.trans ht.nsizes) htop (hu.frozen.bits ht.bits) hA
    hC.le (fun k hk => ?_) ((hu.rest top le_rfl).trans (ht.free top le_rfl)) htwice
  rw [hu.done k hk, hbase]

/-- The range starts in the first quarter of the heap, and ends in the second
half. -/
theorem not_twice_of_quarter {e : ℕ} (hA : 0 < A) (hquarter : A ≤ 2 ^ e) (hhalf : 2 ^ (e + 1) ≤ C)
    (hk : k < e + 2) : ¬ Twice (left A k) (right C k) := by
  rintro ⟨heven, heq⟩
  have hpos : 0 < left A k := Nat.div_pos (by have := Nat.two_pow_pos k; omega) (Nat.two_pow_pos k)
  rcases Nat.lt_or_ge e k with hek | hke
  · obtain rfl : k = e + 1 := by omega
    have hone : left A (e + 1) ≤ 1 := by
      rw [left, Nat.div_le_iff_le_mul_add_pred (Nat.two_pow_pos _)]
      rw [pow_succ] at *
      omega
    omega
  · have hl : left A k ≤ 2 ^ (e - k) := add_pred_div_le hquarter hke
    have hr : 2 * 2 ^ (e - k) ≤ right C k := by
      rw [right, Nat.le_div_iff_mul_le (Nat.two_pow_pos k), Nat.mul_assoc, ← pow_add,
        Nat.sub_add_cancel hke, Nat.mul_comm, ← pow_succ]
      exact hhalf
    omega

/-- The bounds of the range for the sizes for which `bd_init` works. -/
structure Works (top C : ℕ) : Prop where
  le : metaLeaves top ≤ C
  left_lt : ∀ k < top, left (metaLeaves top) k < 2 ^ (top - k)
  not_twice : ∀ k < top, ¬ Twice (left (metaLeaves top) k) (right C k)

theorem metaLeaves_pos (top : ℕ) : 0 < metaLeaves top := by
  rw [metaLeaves, sizeofSzInfo]
  omega

theorem works_of_six_le (h : 6 ≤ top) (hC : 2 ^ (top - 1) ≤ C) : Works top C := by
  obtain ⟨m, rfl⟩ := Nat.exists_eq_add_of_le' h
  have hA := metaLeaves_le m
  have hC : 2 ^ (m + 4 + 1) ≤ C := hC
  have hle : 2 ^ (m + 4) ≤ 2 ^ (m + 4 + 1) := Nat.pow_le_pow_right (by decide) (by omega)
  refine ⟨by omega, fun k hk => ?_, fun k hk => ?_⟩
  · have hl : left (metaLeaves (m + 6)) k ≤ 2 ^ (m + 5 - k) :=
      add_pred_div_le (hA.trans hle) (by omega)
    exact hl.trans_lt (Nat.pow_lt_pow_right (by decide) (by omega))
  · exact not_twice_of_quarter (metaLeaves_pos _) hA hC (by omega)

theorem metaLeaves_four : metaLeaves 4 = 11 := by decide

theorem metaLeaves_five : metaLeaves 5 = 13 := by decide

theorem works_five_iff (hlow : 16 ≤ C) (hhigh : C < 32) : Works 5 C ↔ C < 20 := by
  rw [← not_le]
  constructor
  · rintro ⟨-, -, htwice⟩ hC
    rw [metaLeaves_five] at htwice
    have h₂ := htwice 2 (by decide)
    have h₃ := htwice 3 (by decide)
    simp only [Twice, left, right] at h₂ h₃
    omega
  · intro hC
    refine ⟨by rw [metaLeaves_five]; omega, ?_, ?_⟩
    · rw [metaLeaves_five]
      decide
    · rw [metaLeaves_five]
      intro k hk
      interval_cases k <;> simp only [Twice, left, right] <;> omega

/-! ### `bd_init` -/

/-- The memory that `bd_init` is given, from `B` to `stop`, and the heap for
it. -/
structure Given (B stop top : ℕ) : Prop where
  nsizes : numSizes B stop = top + 1
  top_le : top ≤ 27
  le_heap : stop - B ≤ 16 * 2 ^ top
  heap_lt : 16 * 2 ^ top < 2 * (stop - B)
  fits : metaEnd B (top + 1) ≤ stop
  bytes_lt : stop - B < 2 ^ 31
  /-- the last bytes of the address space are not given -/
  stop_le : stop + 16 ≤ 2 ^ 64

variable {base B stop : ℕ} {mem : ℕ → BitVec 8}

theorem exists_given (hfits : metaEnd B (numSizes B stop) ≤ stop) (hlt : stop - B < 2 ^ 31)
    (hstop : stop + 16 ≤ 2 ^ 64) : ∃ top, Given B stop top := by
  have hsizes : 1 ≤ numSizes B stop := by
    rw [numSizes]
    split <;> exact Nat.le_add_left 1 _
  have hle : B + leafSize ≤ stop := by
    refine le_trans ?_ hfits
    rw [metaEnd, sizeofSzInfo]
    simp only [leafSize]
    omega
  obtain ⟨top, hn, htop, hheap, hheap'⟩ := numSizes_spec hle hlt
  rw [blkSize, Nat.mul_comm] at hheap hheap'
  exact ⟨top, hn, htop, hheap, hheap', hn ▸ hfits, hlt, hstop⟩

/-- The allocator's data does not fit in the smallest heaps. -/
theorem Given.four_le (h : Given B stop top) : 4 ≤ top := by
  by_contra hlt
  have hfits := h.fits
  have hle := h.le_heap
  rw [metaEnd_eq h.top_le] at hfits
  have hsmall : ∀ n < 4, 16 * 2 ^ n < sizeofSzInfo * (n + 1) + powBytes (n + 1) + powBytes n := by
    decide
  have := hsmall top (by omega)
  omega

theorem Given.bytes (h : Given B stop top) : metaLeaves top * 16 < 2 ^ 31 := by
  rcases Nat.lt_or_ge top 6 with hlt | hge
  · have hsmall : ∀ n < 6, metaLeaves n * 16 < 2 ^ 31 := by decide
    exact hsmall top hlt
  · obtain ⟨m, rfl⟩ := Nat.exists_eq_add_of_le' hge
    have hA := metaLeaves_le m
    have hpow : 2 ^ (m + 4) ≤ 2 ^ 25 := Nat.pow_le_pow_right (by decide) (by have := h.top_le; omega)
    omega

theorem Given.bdInit {Q : Unit → Init → Prop} (h : Given B stop top)
    (hB : roundup base leafSize = B)
    (hrest : ∀ t, Ready B top (metaLeaves top) ((stop - B) / 16) t →
      twp F (initfreeLoop (B + metaLeaves top * leafSize) (B + (stop - B) / 16 * leafSize) top)
        (fun a u => (a = (((stop - B) / 16 * 16 : ℕ) : ℤ) - (metaLeaves top * 16 : ℕ) → Q () u) ∧
          (a ≠ (((stop - B) / 16 * 16 : ℕ) : ℤ) - (metaLeaves top * 16 : ℕ) →
            F "bd_init: free mem")) t) : twp F (bdInit base stop) Q (before mem) :=
  twp_bdInit_of hB h.nsizes h.top_le (by rw [blkSize, Nat.mul_comm]; exact h.le_heap) h.fits h.bytes_lt
    h.stop_le h.bytes hrest

/-- `bd_init` ends without a panic, and represents the layout. -/
theorem Given.bdInit_works (h : Given B stop top) (hB : roundup base leafSize = B)
    (mem : ℕ → BitVec 8) (hlt : (stop - B) / 16 < 2 ^ top) (hworks : Works top ((stop - B) / 16)) :
    ∃ t, Buddy.bdInit base stop (before mem) = .ok () t ∧ t.bdBase = B ∧
      Represents t.bd (freeLayout (metaLeaves top) ((stop - B) / 16) top) ∧ InRange top t := by
  have hbytes : (stop - B) / 16 * leafSize < 2 ^ 31 := by
    have := h.bytes_lt
    simp only [leafSize]
    omega
  have hrun : twp (fun _ => False) (Buddy.bdInit base stop) (fun _ t => t.bdBase = B ∧
      Represents t.bd (freeLayout (metaLeaves top) ((stop - B) / 16) top) ∧ InRange top t)
      (before mem) := by
    refine h.bdInit hB fun t ht => ?_
    refine twp_mono (twp_initfreeLoop_handsOver ht h.top_le (metaLeaves_pos top) hworks.le hlt hbytes
      hworks.left_lt hworks.not_twice) ?_
    rintro a u ⟨ha, hu⟩
    exact ⟨fun _ => hu, fun hne => hne ha⟩
  obtain ⟨_, t, ht⟩ := exists_of_twp hrun
  exact ⟨t, ht⟩

/-- A bit past the last block is looked at when the range ends with the heap
or starts in its second half. -/
theorem Given.bdInit_out_of_range (h : Given B stop top) (hB : roundup base leafSize = B)
    (mem : ℕ → BitVec 8) (hbad : 2 ^ (top - 1) < metaLeaves top ∨ (stop - B) / 16 = 2 ^ top) :
    twp (fun _ => True) (Buddy.bdInit base stop)
      (fun _ t => t.nsizes = top + 1 ∧ ¬ InRange top t) (before mem) := by
  have hfour := h.four_le
  obtain ⟨n, rfl⟩ : ∃ n, top = n + 1 := ⟨top - 1, by omega⟩
  have hbytes := h.bytes
  have hlt := h.bytes_lt
  have hmeta := metaEnd_eq h.top_le B
  have hA : metaLeaves (n + 1) ≤ 2 ^ (n + 1) := by
    have := h.fits
    have := h.le_heap
    rw [metaLeaves]
    omega
  rw [Nat.add_sub_cancel] at hbad
  refine h.bdInit hB fun t ht => ?_
  have htouched := touched_initfreeLoop (F := fun _ => True) (s := t) (A := metaLeaves (n + 1))
    (C := (stop - B) / 16) (by omega) (by simp only [leafSize]; omega) (n + 1)
  rw [ht.bdBase] at htouched
  refine twp_mono htouched ?_
  rintro a u ⟨-, hsizes, hu⟩
  obtain ⟨hl, hr⟩ := hu n (Nat.lt_succ_self n)
  have hpos := Nat.two_pow_pos n
  rw [pow_succ] at hA hbad
  have hleft : 2 ^ n < metaLeaves (n + 1) → left (metaLeaves (n + 1)) n = 2 := fun hgt => by
    rw [left, Nat.div_eq_iff hpos]
    omega
  have htwo : (n, 2) ∈ u.touched := by
    rcases Nat.lt_or_ge (2 ^ n) (metaLeaves (n + 1)) with hgt | hle
    · rwa [hleft hgt] at hl
    · have hend : (stop - B) / 16 = 2 ^ n * 2 := hbad.resolve_left (by omega)
      have hright : right ((stop - B) / 16) n = 2 := by
        rw [right, hend, Nat.mul_div_cancel_left _ hpos]
      rw [hright] at hr
      refine hr ?_
      have hone : left (metaLeaves (n + 1)) n ≤ 1 := by
        rw [left, Nat.div_le_iff_le_mul_add_pred hpos]
        omega
      omega
  have hout : ¬ InRange (n + 1) u := fun hr => by
    have := (hr _ htwo).2
    simp only [Nat.add_sub_cancel_left, pow_one] at this
    omega
  exact ⟨fun _ => ⟨hsizes.trans ht.nsizes, hout⟩, fun _ => trivial⟩

/-- In the heap of half a kilobyte a block is listed twice unless the range
ends early. -/
theorem Given.bdInit_twice (h : Given B stop 5) (hB : roundup base leafSize = B)
    (mem : ℕ → BitVec 8) (hlt : (stop - B) / 16 < 32) (hworks : ¬ Works 5 ((stop - B) / 16)) :
    twp (fun _ => True) (Buddy.bdInit base stop)
      (fun _ t => t.nsizes = 6 ∧ ∃ k < 6, ¬ (t.free k).Nodup) (before mem) := by
  have hheap := h.heap_lt
  have hhigh : 20 ≤ (stop - B) / 16 := by
    have := (works_five_iff (C := (stop - B) / 16) (by omega) hlt).not.mp hworks
    omega
  refine h.bdInit hB fun t ht => ?_
  rw [metaLeaves_five] at ht ⊢
  have hbytes : levelBytes 13 ((stop - B) / 16) 5 < 2 ^ 31 := by
    generalize (stop - B) / 16 = c at hlt hhigh
    interval_cases c <;> decide
  have hloop := twp_initfreeLoop (F := fun _ => True) ht.bits (by decide) (by decide)
    (by simp only [leafSize]; omega) (by decide) (fun k hk _ => ?_) (fun k hk => ht.free k hk.le) hbytes
    (le_refl 5)
  · rw [ht.bdBase] at hloop
    refine twp_mono hloop ?_
    rintro a u ⟨-, hu⟩
    refine ⟨fun _ => ⟨hu.frozen.nsizes.trans ht.nsizes, ?_⟩, fun _ => trivial⟩
    have hdup : ∀ k < 5, Twice (left 13 k) (right ((stop - B) / 16) k) → ¬ (u.free k).Nodup := by
      intro k hk htwice hnodup
      rw [hu.done k hk, List.nodup_map_iff (start_injective _ _), nodup_levelList_iff] at hnodup
      exact hnodup htwice
    rcases Nat.lt_or_ge ((stop - B) / 16) 24 with hlow | hge
    · refine ⟨2, by decide, hdup 2 (by decide) ?_⟩
      simp only [Twice, left, right]
      omega
    · refine ⟨3, by decide, hdup 3 (by decide) ?_⟩
      simp only [Twice, left, right]
      omega
  · rw [right, Nat.div_lt_iff_lt_mul (Nat.two_pow_pos k), ← pow_add, Nat.sub_add_cancel hk.le]
    exact hlt

/-- The sizes of memory for which `bd_init` works: the heap, rounded up to a
power of two, is not used to its end, and it has at least a kilobyte, or
half of one with little memory in its second half. -/
def GoodSize (S heap : ℕ) : Prop := S < heap ∧ (1024 ≤ heap ∨ heap = 512 ∧ S < 320)

theorem Given.goodSize_iff (h : Given B stop top) :
    GoodSize (stop - B) (blkSize (numSizes B stop - 1)) ↔
      (stop - B) / 16 < 2 ^ top ∧ 5 ≤ top ∧ Works top ((stop - B) / 16) := by
  have hle := h.le_heap
  have hlt := h.heap_lt
  rw [h.nsizes, Nat.add_sub_cancel, blkSize, Nat.mul_comm, GoodSize]
  simp only [leafSize]
  rcases Nat.lt_trichotomy top 5 with hsmall | rfl | hlarge
  · have hpow : 2 ^ top ≤ 2 ^ 4 := Nat.pow_le_pow_right (by decide) (by omega)
    omega
  · simp only [Nat.reducePow, Nat.reduceMul, true_and] at hle hlt ⊢
    rcases Nat.lt_or_ge ((stop - B) / 16) 32 with hC | hC
    · rw [works_five_iff (by omega) hC]
      omega
    · omega
  · have hpow : 2 ^ 6 ≤ 2 ^ top := Nat.pow_le_pow_right (by decide) hlarge
    have hhalf : 2 ^ top = 2 * 2 ^ (top - 1) := by
      rw [← pow_succ', Nat.sub_add_cancel (by omega)]
    have hworks : Works top ((stop - B) / 16) := works_of_six_le hlarge (by omega)
    simp only [hworks, and_true]
    omega

theorem Given.p_eq (h : Given B stop top) (hB : roundup base leafSize = B) :
    roundup (metaEnd B (numSizes B stop)) leafSize = B + metaLeaves top * leafSize := by
  have hfits := h.fits
  have hstop := h.stop_le
  have hmod : B % leafSize = 0 := hB ▸ roundup_mod base
  rw [metaEnd_eq h.top_le, sizeofSzInfo] at hfits
  rw [h.nsizes, metaEnd_eq h.top_le, sizeofSzInfo, roundup_leafSize (by omega) (by omega), metaLeaves,
    sizeofSzInfo]
  simp only [leafSize] at hmod ⊢
  omega

/-- The leaves outside the range are marked. -/
def markedLeaves (A C top : ℕ) : Set ℕ := {i | i < 2 ^ top ∧ ¬(A ≤ i ∧ i < C)}

theorem records_freeLayout (hA : 0 < A) :
    Records (markedLeaves A C top) ⟨t.bd, []⟩ (freeLayout A C top) where
  nodup := List.nodup_nil
  mem_live := by
    refine fun p k => ⟨nofun, ?_⟩
    rintro ⟨i, -, ⟨hk, hi, hout⟩, hm⟩
    refine absurd ⟨hk, hi, fun hin => hout ?_⟩ hm
    simpa [Inside, left, right] using hin
  used_of_marked := by
    rintro i ⟨hi, hout⟩
    refine ⟨rfl, hi, fun hin => hout ?_⟩
    simpa [Inside, left, right] using hin
  first_marked := ⟨Nat.two_pow_pos top, by omega⟩

/-- **The heap from boot on.** After `bd_init`, whatever is called, all but
the leaves of the allocator's data and past the end is divided up between
the callers and the free lists, which stay merged; when nothing is held
any more, all bits and lists are as `bd_init` left them. -/
theorem bdInit_runs (base stop : ℕ) (mem : ℕ → BitVec 8)
    (hfits : metaEnd (roundup base leafSize) (numSizes (roundup base leafSize) stop) ≤ stop)
    (hlt : stop - roundup base leafSize < 2 ^ 31) (hstop : stop + 16 ≤ 2 ^ 64)
    (hgood : GoodSize (stop - roundup base leafSize)
      (blkSize (numSizes (roundup base leafSize) stop - 1))) :
    ∃ t, bdInit base stop (before mem) = .ok () t ∧
      ∀ calls u, run step ⟨t.bd, []⟩ calls = some u →
        Sound (markedLeaves (metaLeaves (numSizes (roundup base leafSize) stop - 1))
          ((stop - roundup base leafSize) / 16) (numSizes (roundup base leafSize) stop - 1)) u ∧
        MergedLists u.bd ∧ (u.live = [] → SameBlocks t.bd u.bd) := by
  obtain ⟨top, h⟩ := exists_given hfits hlt hstop
  obtain ⟨hC, -, hworks⟩ := h.goodSize_iff.mp hgood
  obtain ⟨t, hrun, -, hrep, -⟩ := h.bdInit_works rfl mem hC hworks
  have hrec := @records_freeLayout t top _ ((stop - roundup base leafSize) / 16) (metaLeaves_pos top)
  have hL : (freeLayout _ _ top).Merged := freeLayout_merged (metaLeaves_pos top) hC.le
  refine ⟨t, hrun, fun calls u hu => ?_⟩
  obtain ⟨hbase, L, hrep', hrec', hkeep⟩ := hrec.of_run hrep hu
  rw [h.nsizes, Nat.add_sub_cancel]
  refine ⟨.of_consistent ⟨top, L, hrep', hrec'⟩, hrep'.merged_iff.mpr (hkeep hL), fun hlive => ?_⟩
  have hused := hrec.used_iff hrec' hbase fun blk => by rw [hlive]
  exact hrep.sameBlocks hrep' hbase hused (hL.split_eq (hkeep hL) hused)

theorem bdInit_runs_pages : ∃ t, bdInit 4096 40960 (before fun _ => 0) = .ok () t ∧
    MergedLists t.bd := by
  obtain ⟨t, ht, hall⟩ := bdInit_runs 4096 40960 (fun _ => 0) (by decide +kernel) (by decide +kernel)
    (by norm_num) ⟨by decide +kernel, .inl (by decide +kernel)⟩
  exact ⟨t, ht, (hall [] _ rfl).2.1⟩

/-- **What `bd_init` hands to the allocator.** For memory of less than two
gigabytes in which the allocator's data fits, `bd_init` ends without a
panic, looks at bits of blocks of the heap only, and lists exactly the
memory past its data, once and merged, if and only if the size is good. -/
theorem bdInit_handsOver_iff (base stop : ℕ) (mem : ℕ → BitVec 8)
    (hfits : metaEnd (roundup base leafSize) (numSizes (roundup base leafSize) stop) ≤ stop)
    (hlt : stop - roundup base leafSize < 2 ^ 31) (hstop : stop + 16 ≤ 2 ^ 64) :
    (∃ t, bdInit base stop (before mem) = .ok () t ∧ HandsOver
        (roundup (metaEnd (roundup base leafSize) (numSizes (roundup base leafSize) stop)) leafSize)
        (stop / leafSize * leafSize) t) ↔
      GoodSize (stop - roundup base leafSize)
        (blkSize (numSizes (roundup base leafSize) stop - 1)) := by
  obtain ⟨top, h⟩ := exists_given hfits hlt hstop
  obtain ⟨B, hB⟩ : ∃ B, roundup base leafSize = B := ⟨_, rfl⟩
  have hmod : B % leafSize = 0 := hB ▸ roundup_mod base
  rw [hB] at h ⊢
  rw [h.p_eq hB, h.goodSize_iff]
  have hle := h.le_heap
  have hheap := h.heap_lt
  have hend : stop / leafSize * leafSize = B + (stop - B) / 16 * leafSize := by
    simp only [leafSize] at hmod ⊢
    omega
  rw [hend]
  constructor
  · rintro ⟨t, hrun, ht⟩
    have hrange : ¬(2 ^ (top - 1) < metaLeaves top ∨ (stop - B) / 16 = 2 ^ top) := fun hbad => by
      have hout := of_twp (h.bdInit_out_of_range hB mem hbad) hrun
      have hmax : t.bd.maxsize = top := by
        change t.nsizes - 1 = top
        rw [hout.1, Nat.add_sub_cancel]
      have hin := ht.inRange
      rw [hmax] at hin
      exact hout.2 hin
    have hfive : 5 ≤ top := by
      have hfour := h.four_le
      by_contra hlt
      obtain rfl : top = 4 := by omega
      exact hrange (.inl (by rw [metaLeaves_four]; decide))
    refine ⟨by omega, hfive, ?_⟩
    rcases Nat.lt_or_eq_of_le hfive with hlarge | rfl
    · refine works_of_six_le hlarge ?_
      have hhalf : 2 ^ top = 2 * 2 ^ (top - 1) := by
        rw [← pow_succ', Nat.sub_add_cancel (by omega)]
      omega
    · by_contra hworks
      obtain ⟨hsizes, k, hk, hdup⟩ := of_twp (h.bdInit_twice hB mem (by omega) hworks) hrun
      exact hdup (ht.nodup k (by omega))
  · rintro ⟨hC, -, hworks⟩
    obtain ⟨t, hrun, hbase, hrep, hrange⟩ := h.bdInit_works hB mem hC hworks
    have hover := handsOver_of_represents hrep (metaLeaves_pos top) hC.le hrange
    rw [hbase] at hover
    exact ⟨t, hrun, hover⟩

/-- Nine pages. -/
theorem bdInit_handsOver_pages : ∃ t,
    bdInit 4096 40960 (before fun _ => 0) = .ok () t ∧ HandsOver
      (roundup (metaEnd (roundup 4096 leafSize) (numSizes (roundup 4096 leafSize) 40960)) leafSize)
      (40960 / leafSize * leafSize) t :=
  (bdInit_handsOver_iff 4096 40960 _ (by decide +kernel) (by decide +kernel) (by norm_num)).mpr
    ⟨by decide +kernel, .inl (by decide +kernel)⟩

/-- A kilobyte exactly: the memory ends where the heap ends, and the bits past
the alloc array of size 3 are those of size 4. -/
theorem bdInit_panics :
    metaEnd (roundup 4096 leafSize) (numSizes (roundup 4096 leafSize) 5120) ≤ 5120 ∧
      bdInit 4096 5120 (before fun _ => 0) = .fault "bd_init: free mem" :=
  ⟨by decide +kernel, Outcome.eq_fault_of_error (by decide +kernel)⟩

end Xv6.Buddy
