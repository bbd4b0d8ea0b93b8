import Xv6.Buddy.Heap
import Xv6.Lib.Links

/-!
The free lists in memory (`kernel/list.c`).

A free list is a circle of `struct list`s through the free blocks and the
head `bd_sizes[k].free`; the two words of such a structure are seen through
the fields at its address. The functions of `kernel/list.c` work on these,
and `bd_malloc` and `bd_free` are given once more with them in the place
of the lists of addresses of `Bd`.

A caller may store anything into a block it holds, where there was a node
and will be one again. In every run the circles in memory are the lists.
-/

namespace Xv6.Buddy

open Lib Lib.Subdivision

/-! ### Lists -/

/-- `struct list` at each address. -/
structure Links where
  next : ℕ → ℕ
  prev : ℕ → ℕ

namespace Links

def lstInit (m : Links) (lst : ℕ) : Links where
  next := Function.update m.next lst lst
  prev := Function.update m.prev lst lst

def lstEmpty (m : Links) (lst : ℕ) : Bool := m.next lst = lst

def lstRemove (m : Links) (e : ℕ) : Links :=
  let m₁ : Links := { m with next := Function.update m.next (m.prev e) (m.next e) }
  { m₁ with prev := Function.update m₁.prev (m₁.next e) (m₁.prev e) }

/-- Without a result for the panic on an empty list. -/
def lstPop (m : Links) (lst : ℕ) : Option (ℕ × Links) :=
  if m.next lst = lst then none
  else
    let p := m.next lst
    some (p, m.lstRemove p)

def lstPush (m : Links) (lst p : ℕ) : Links :=
  let m₁ : Links := { m with next := Function.update m.next p (m.next lst) }
  let m₂ : Links := { m₁ with prev := Function.update m₁.prev p lst }
  let m₃ : Links := { m₂ with prev := Function.update m₂.prev (m₂.next lst) p }
  { m₃ with next := Function.update m₃.next lst p }

/-- The lists `l` are in memory, with these heads, and share no node. -/
def Linked (m : Links) (n : ℕ) (head : ℕ → ℕ) (l : ℕ → List ℕ) : Prop :=
  Circles m.next m.prev {k | k < n} head l

variable {m : Links} {n k e p : ℕ} {head : ℕ → ℕ} {l : ℕ → List ℕ}

theorem lstRemove_eq (m : Links) (e : ℕ) : m.lstRemove e =
    ⟨Function.update m.next (m.prev e) (m.next e), Function.update m.prev (m.next e) (m.prev e)⟩ := by
  have hsame : Function.update m.next (m.prev e) (m.next e) e = m.next e := by
    rw [Function.update_apply]
    exact ite_self _
  simp only [lstRemove, hsame]

theorem lstPush_eq (m : Links) (lst p : ℕ) : m.lstPush lst p =
    ⟨Function.update (Function.update m.next p (m.next lst)) lst p,
      Function.update (Function.update m.prev p lst) (m.next lst) p⟩ := by
  have hsame : Function.update m.next p (m.next lst) lst = m.next lst := by
    rw [Function.update_apply]
    exact ite_self _
  simp only [lstPush, hsame]

/-- A list of its head alone. -/
theorem circle_lstInit (m : Links) (lst : ℕ) :
    Circle (m.lstInit lst).next (m.lstInit lst).prev lst [] :=
  ⟨List.nodup_singleton lst, Function.update_self .., Function.update_self ..⟩

namespace Linked

theorem empty_iff (h : m.Linked n head l) (hk : k < n) : m.lstEmpty (head k) = true ↔ l k = [] := by
  rw [lstEmpty, decide_eq_true_iff]
  exact (h.circle k hk).next_eq_self_iff

theorem remove (h : m.Linked n head l) (hk : k < n) (he : e ∈ l k) :
    (m.lstRemove e).Linked n head (Function.update l k ((l k).erase e)) := by
  rw [lstRemove_eq]
  exact Circles.unlink h hk he

theorem push (h : m.Linked n head l) (hk : k < n) (hp : ∀ j < n, p ∉ head j :: l j) :
    (m.lstPush (head k) p).Linked n head (Function.update l k (p :: l k)) := by
  rw [lstPush_eq]
  exact Circles.push h hk hp

theorem pop {rest : List ℕ} (h : m.Linked n head l) (hk : k < n) (hl : l k = p :: rest) :
    ∃ m', m.lstPop (head k) = some (p, m') ∧ m'.Linked n head (Function.update l k rest) := by
  have hcircle := h.circle k hk
  have hnext : m.next (head k) = p := by
    rw [hl] at hcircle
    exact hcircle.chain.1
  have hne : m.next (head k) ≠ head k := fun heq => by
    rw [hcircle.next_eq_self_iff, hl] at heq
    cases heq
  have hrest := h.remove hk (hl ▸ List.mem_cons_self : p ∈ l k)
  rw [hl, List.erase_cons_head] at hrest
  exact ⟨_, by rw [lstPop, if_neg hne, hnext], hrest⟩

/-- Words that belong to no list. -/
theorem store (h : m.Linked n head l) {a x y : ℕ} (ha : ∀ k < n, a ∉ head k :: l k) :
    Linked ⟨Function.update m.next a x, Function.update m.prev a y⟩ n head l where
  circle := fun k hk => by
    have hne : ∀ b ∈ head k :: l k, b ≠ a := fun b hb heq => ha k hk (heq ▸ hb)
    exact (h.circle k hk).congr (fun b hb => Function.update_of_ne (hne b hb) _ _)
      fun b hb => Function.update_of_ne (hne b hb) _ _
  apart := h.apart

end Linked

end Links

/-! ### The allocator -/

/-- The static variables of the allocator, and memory. -/
structure Raw where
  nsizes : ℕ
  /-- The address of the array. -/
  bdSizes : ℕ
  /-- The two bit arrays of each size. -/
  alloc : ℕ → ℕ → BitVec 8
  split : ℕ → ℕ → BitVec 8
  bdBase : ℕ
  mem : Links

namespace Raw

/-- `&bd_sizes[k].free`; a `struct sz_info` has 32 bytes. -/
def free (c : Raw) (k : ℕ) : ℕ := c.bdSizes + 32 * k

/-- The allocator with the free lists as lists. -/
def toBd (c : Raw) (l : ℕ → List ℕ) : Bd where
  nsizes := c.nsizes
  bdSizes := fun k => { free := l k, alloc := c.alloc k, split := c.split k }
  bdBase := c.bdBase

/-- What addresses, indices and sizes are computed from. -/
def bd (c : Raw) : Bd := c.toBd fun _ => []

def setAlloc (c : Raw) (k : ℕ) (array : ℕ → BitVec 8) : Raw :=
  { c with alloc := Function.update c.alloc k array }

def setSplit (c : Raw) (k : ℕ) (array : ℕ → BitVec 8) : Raw :=
  { c with split := Function.update c.split k array }

def lstPush (c : Raw) (k p : ℕ) : Raw := { c with mem := c.mem.lstPush (c.free k) p }

def splitBlock (c : Raw) (k p : ℕ) : Raw :=
  let q := p + blkSize (k - 1)
  let c₁ := c.setSplit k (bitSet (c.split k) (blkIndex c.bd k p))
  let c₂ := c₁.setAlloc (k - 1) (bitSet (c₁.alloc (k - 1)) (blkIndex c.bd (k - 1) p))
  c₂.lstPush (k - 1) q

def splitLoop (p fk : ℕ) (c : Raw) : ℕ → Raw
  | 0 => c
  | d + 1 => splitLoop p fk (c.splitBlock (fk + d + 1) p) d

def bdMalloc (c : Raw) (nbytes : ℕ) : Option (Option ℕ × Raw) := do
  let fk ← firstk nbytes
  match (List.range' fk (c.nsizes - fk)).find? fun k => !c.mem.lstEmpty (c.free k) with
  | none => some (none, c)
  | some k =>
      let (p, mem) ← c.mem.lstPop (c.free k)
      let c₁ := { c with mem := mem }
      let c₂ := c₁.setAlloc k (bitSet (c₁.alloc k) (blkIndex c.bd k p))
      some (some p, splitLoop p fk c₂ (k - fk))

def mergeBlock (c : Raw) (k p buddy : ℕ) : ℕ × Raw :=
  let q := addr c.bd k buddy
  let c₁ := { c with mem := c.mem.lstRemove q }
  let p := if buddy % 2 = 0 then q else p
  (p, c₁.setSplit (k + 1) (bitClear (c₁.split (k + 1)) (blkIndex c.bd (k + 1) p)))

def mergeLoop (c : Raw) : (d k p : ℕ) → Raw
  | 0, k, p => c.lstPush k p
  | d + 1, k, p =>
      let bi := blkIndex c.bd k p
      let buddy := if bi % 2 = 0 then bi + 1 else bi - 1
      let c₁ := c.setAlloc k (bitClear (c.alloc k) bi)
      if bitIsset (c₁.alloc k) buddy then c₁.lstPush k p
      else
        let (p, c₂) := c₁.mergeBlock k p buddy
        mergeLoop c₂ d (k + 1) p

def bdFree (c : Raw) (p : ℕ) : Option Raw := do
  let k ← size c.bd p
  some (c.mergeLoop (c.bd.maxsize - k) k p)

/-! ### The lists in memory are the lists -/

variable {c : Raw} {l : ℕ → List ℕ} {marked : Set ℕ} {top k i p : ℕ} {L L' : Layout top}

theorem toBd_setAlloc (c : Raw) (l : ℕ → List ℕ) (k : ℕ) (array : ℕ → BitVec 8) :
    (c.setAlloc k array).toBd l = (c.toBd l).modify k fun s => { s with alloc := array } := by
  refine congrArg (Bd.mk _ · _) (funext fun j => ?_)
  by_cases hj : j = k
  · subst hj
    simp [setAlloc, toBd]
  · simp [setAlloc, toBd, hj]

theorem toBd_take (c : Raw) (l : ℕ → List ℕ) (mem : Links) (k i : ℕ) (rest : List ℕ) :
    (setAlloc { c with mem := mem } k (bitSet (c.alloc k) i)).toBd (Function.update l k rest) =
      ((c.toBd l).modify k fun s => { s with free := rest }).modify k fun s =>
        { s with alloc := bitSet s.alloc i } := by
  refine congrArg (Bd.mk _ · _) (funext fun j => ?_)
  by_cases hj : j = k
  · subst hj
    simp [setAlloc, toBd]
  · simp [setAlloc, toBd, hj]

/-- The circles around the heads of the free lists. -/
def Linked (c : Raw) (l : ℕ → List ℕ) : Prop := c.mem.Linked c.nsizes c.free l

/-- The array with the heads lies in marked leaves. -/
def Placed (marked : Set ℕ) (c : Raw) : Prop :=
  ∀ k < c.nsizes, ∃ i ∈ marked, c.free k = c.bdBase + i * leafSize

/-- A tip is determined by its address. -/
theorem tip_unique {base j m : ℕ} (ht : L.Tip k i) (ht' : L.Tip j m)
    (heq : start base k i = start base j m) : k = j ∧ i = m := by
  have hleaf : i * 2 ^ k = m * 2 ^ j := by
    have hoff := Nat.add_left_cancel heq
    rw [blkSize, blkSize, ← mul_assoc, ← mul_assoc] at hoff
    exact Nat.eq_of_mul_eq_mul_right (by decide) hoff
  have hk : i * 2 ^ k / 2 ^ k = i := Nat.mul_div_cancel _ (Nat.two_pow_pos k)
  have hj : i * 2 ^ k / 2 ^ j = m := by rw [hleaf, Nat.mul_div_cancel _ (Nat.two_pow_pos j)]
  have hsame : k = j := Tip.unique (l := i * 2 ^ k) (hk.symm ▸ ht) (hj.symm ▸ ht')
  subst hsame
  exact ⟨rfl, hk.symm.trans hj⟩

/-- A block that has just been listed was not listed before, and is no head. -/
theorem fresh_of_listed (hrep : Represents (c.toBd (Function.update l k (p :: l k))) L)
    (hk : k ≤ top) (hmarked : ∀ i ∈ marked, (0, i) ∈ L.used) (hplaced : Placed marked c) :
    ∀ j < c.nsizes, p ∉ c.free j :: l j := by
  have hlists := fun {j : ℕ} (hj : j ≤ top) => hrep.free hj
  simp only [toBd] at hlists
  have hself := hlists hk
  rw [Function.update_self] at hself
  obtain ⟨i, rfl, hfree⟩ := (hself.mem_iff p).mp List.mem_cons_self
  intro j hj hmem
  rcases List.mem_cons.mp hmem with heq | hmem
  · obtain ⟨m, hm, hhead⟩ := hplaced j hj
    have hused := hmarked m hm
    have hstart : start c.bdBase k i = start c.bdBase 0 m := by
      rw [heq, hhead, start, blkSize, pow_zero, one_mul]
    obtain ⟨rfl, rfl⟩ := tip_unique hfree.tip (L.tip_of_used hused) hstart
    exact hfree.not_used hused
  · by_cases hjk : j = k
    · subst hjk
      exact (List.nodup_cons.mp hself.nodup).1 hmem
    · have hj' : j ≤ top := by
        have := hrep.nsizes_eq
        rw [show (c.toBd _).nsizes = c.nsizes from rfl] at this
        omega
      have hother := hlists hj'
      rw [Function.update_of_ne hjk] at hother
      obtain ⟨m, heq, hfree'⟩ := (hother.mem_iff _).mp hmem
      exact hjk (tip_unique hfree.tip hfree'.tip heq).1.symm

theorem Linked.lstPush (h : Linked c l) (hk : k ≤ top)
    (hrep : Represents ((c.lstPush k p).toBd (Function.update l k (p :: l k))) L)
    (hmarked : ∀ i ∈ marked, (0, i) ∈ L.used) (hplaced : Placed marked c) :
    Linked (c.lstPush k p) (Function.update l k (p :: l k)) := by
  have hn : c.nsizes = top + 1 := hrep.nsizes_eq
  have hlt : k < c.nsizes := by omega
  exact Links.Linked.push h hlt (fresh_of_listed (c := c) hrep hk hmarked hplaced)

theorem toBd_splitBlock (c : Raw) (l : ℕ → List ℕ) (k p : ℕ) :
    (c.splitBlock (k + 1) p).toBd (Function.update l k ((p + blkSize k) :: l k)) =
      Buddy.splitBlock (c.toBd l) (k + 1) p := by
  refine congrArg (Bd.mk _ · _) (funext fun j => ?_)
  have hidx : ∀ m, blkIndex c.bd m p = blkIndex (c.toBd l) m p := fun _ => rfl
  rcases eq_or_ne j k with rfl | hjk
  · simp [splitBlock, Raw.lstPush, setAlloc, setSplit, toBd, Buddy.lstPush, hidx]
  · rcases eq_or_ne j (k + 1) with rfl | hjk'
    · simp [splitBlock, Raw.lstPush, setAlloc, setSplit, toBd, hidx]
    · simp [splitBlock, Raw.lstPush, setAlloc, setSplit, toBd, hjk, hjk']

/-- One round of the loop of `bd_malloc`. -/
theorem Linked.splitBlock (h : Linked c l) (hplaced : Placed marked c)
    (hrep : Represents (c.toBd l) L) (hmarked : ∀ i ∈ marked, (0, i) ∈ L.used)
    (hu : (k + 1, i) ∈ L.used) :
    Linked (c.splitBlock (k + 1) (start c.bdBase (k + 1) i)) (Function.update l k
      ((start c.bdBase (k + 1) i + blkSize k) :: l k)) := by
  have hrep' := hrep.splitBlock hu
  have hk := (L.tip_of_used hu).le
  rw [show (c.toBd l).bdBase = c.bdBase from rfl, ← toBd_splitBlock] at hrep'
  refine Linked.lstPush (c := (c.setSplit (k + 1) _).setAlloc k _) h (by omega) hrep' ?_ hplaced
  intro j hj
  exact Layout.mem_used_divide.mpr (.inl ⟨hmarked j hj, nofun⟩)

theorem Linked.splitLoop {fk d : ℕ} (h : Linked c l) (hplaced : Placed marked c)
    (hrep : Represents (c.toBd l) L) (hmarked : ∀ i ∈ marked, (0, i) ∈ L.used)
    (hu : (fk + d, i) ∈ L.used) : ∃ l', (splitLoop (start c.bdBase (fk + d) i) fk c d).toBd l' =
        Buddy.splitLoop (start c.bdBase (fk + d) i) fk (c.toBd l) d ∧
      Linked (splitLoop (start c.bdBase (fk + d) i) fk c d) l' ∧
      Placed marked (splitLoop (start c.bdBase (fk + d) i) fk c d) := by
  induction d generalizing c l L i with
  | zero => exact ⟨l, rfl, h, hplaced⟩
  | succ d ih =>
      have hu : (fk + d + 1, i) ∈ L.used := hu
      have hlink := h.splitBlock hplaced hrep hmarked hu
      have hrep' := hrep.splitBlock hu
      rw [show (c.toBd l).bdBase = c.bdBase from rfl, ← toBd_splitBlock] at hrep'
      obtain ⟨l', heq, hlink'⟩ := ih hlink hplaced hrep'
        (fun j hj => Layout.mem_used_divide.mpr (.inl ⟨hmarked j hj, nofun⟩))
        (Layout.mem_used_divide.mpr (.inr rfl))
      rw [show (c.splitBlock (fk + d + 1) (start c.bdBase (fk + d + 1) i)).bdBase = c.bdBase from rfl,
        ← start_succ, toBd_splitBlock] at heq
      rw [show (c.splitBlock (fk + d + 1) (start c.bdBase (fk + d + 1) i)).bdBase = c.bdBase from rfl,
        ← start_succ] at hlink'
      exact ⟨l', heq, hlink'⟩

theorem Linked.bdMalloc {n : ℕ} (h : Linked c l) (hplaced : Placed marked c)
    (hrep : Represents (c.toBd l) L) (hmarked : ∀ i ∈ marked, (0, i) ∈ L.used) (hn : n ≤ 2 ^ 63) :
    ∃ r c' l', c.bdMalloc n = some (r, c') ∧ Buddy.bdMalloc (c.toBd l) n = some (r, c'.toBd l') ∧
      Linked c' l' ∧ Placed marked c' := by
  obtain ⟨fk, hfk, -⟩ := firstk_eq_some hn
  have hnsizes : c.nsizes = top + 1 := hrep.nsizes_eq
  have hrange : ∀ k ∈ List.range' fk (c.nsizes - fk), k < c.nsizes ∧ ∃ d, k = fk + d := by
    intro k hk
    obtain ⟨d, hd, rfl⟩ := List.mem_range'.mp hk
    exact ⟨by omega, d, by omega⟩
  have hfind : (List.range' fk (c.nsizes - fk)).find? (fun k => !c.mem.lstEmpty (c.free k)) =
      (List.range' fk (c.nsizes - fk)).find? fun k => !(l k).isEmpty := by
    refine List.find?_congr fun k hk => congrArg not (Bool.eq_iff_iff.mpr ?_)
    rw [List.isEmpty_iff]
    exact Links.Linked.empty_iff h (hrange k hk).1
  have habs : (List.range' fk ((c.toBd l).nsizes - fk)).find?
      (fun k => !((c.toBd l).bdSizes k).free.isEmpty) =
      (List.range' fk (c.nsizes - fk)).find? fun k => !(l k).isEmpty := rfl
  rw [Raw.bdMalloc, Buddy.bdMalloc, hfk]
  simp only [Option.bind_eq_bind, Option.bind_some]
  rw [hfind, habs]
  cases hk : (List.range' fk (c.nsizes - fk)).find? fun k => !(l k).isEmpty with
  | none => exact ⟨none, c, l, rfl, rfl, h, hplaced⟩
  | some k =>
      obtain ⟨hlt, d, rfl⟩ := hrange k (List.mem_of_find?_eq_some hk)
      obtain ⟨p, rest, hl⟩ : ∃ p rest, l (fk + d) = p :: rest :=
        List.exists_cons_of_ne_nil (by simpa using List.find?_some hk)
      obtain ⟨mem, hpop, hlink⟩ := Links.Linked.pop h hlt hl
      obtain ⟨i, hp, hfree⟩ := ((hrep.free (by omega : fk + d ≤ top)).mem_iff p).mp
        (hl ▸ List.mem_cons_self : p ∈ l (fk + d))
      rw [show (c.toBd l).bdBase = c.bdBase from rfl] at hp
      subst hp
      have hidx : blkIndex (c.toBd l) (fk + d) (start c.bdBase (fk + d) i) = i :=
        blkIndex_self (b := c.toBd l) (hrep.tip_offset_lt hfree.tip)
      have hrep' := hrep.take hfree hl
      rw [← toBd_take c l mem] at hrep'
      obtain ⟨l', heq, hlink'⟩ := Linked.splitLoop (c := setAlloc { c with mem := mem } _ _) hlink
        hplaced hrep' (fun j hj => Layout.mem_used_take.mpr (.inl (hmarked j hj)))
        (Layout.mem_used_take.mpr (.inr rfl))
      have hidx' : blkIndex c.bd (fk + d) (start c.bdBase (fk + d) i) = i := hidx
      have hlist : ((c.toBd l).bdSizes (fk + d)).free = start c.bdBase (fk + d) i :: rest := hl
      refine ⟨some (start c.bdBase (fk + d) i), _, l', ?_, ?_, hlink'⟩
      · simp only [hpop, Option.bind_some, hidx', Nat.add_sub_cancel_left]
        rfl
      · simp only [hlist, lstPop, Option.bind_some, hidx, Nat.add_sub_cancel_left]
        rw [heq, toBd_take]
        rfl

/-- One round of the loop of `bd_free` that merges. -/
theorem Linked.mergeBlock {buddy q : ℕ} (h : Linked c l) (hk : k < c.nsizes)
    (hq : addr c.bd k buddy = q) (hmem : q ∈ l k) : Buddy.mergeBlock (c.toBd l) k p buddy =
        some ((c.mergeBlock k p buddy).1,
          (c.mergeBlock k p buddy).2.toBd (Function.update l k ((l k).erase q))) ∧
      Linked (c.mergeBlock k p buddy).2 (Function.update l k ((l k).erase q)) := by
  have hq' : addr (c.toBd l) k buddy = q := hq
  have hremove : lstRemove ((c.toBd l).bdSizes k).free q = some ((l k).erase q) := if_pos hmem
  constructor
  · rw [Buddy.mergeBlock, Raw.mergeBlock]
    simp only [hq, hq', hremove, Option.bind_eq_bind, Option.bind_some]
    refine congrArg some (Prod.ext rfl (congrArg (Bd.mk _ · _) (funext fun j => ?_)))
    rcases eq_or_ne j k with rfl | hjk
    · simp [setSplit, toBd]
    · rcases eq_or_ne j (k + 1) with rfl | hjk'
      · simp [setSplit, toBd, bd, blkIndex]
      · simp [setSplit, toBd, hjk, hjk']
  · have hlink := Links.Linked.remove h hk hmem
    rw [← hq] at hlink ⊢
    exact hlink

theorem toBd_drop (c : Raw) (l : ℕ → List ℕ) (k i p : ℕ) :
    ((c.setAlloc k (bitClear (c.alloc k) i)).lstPush k p).toBd (Function.update l k (p :: l k)) =
      ((c.toBd l).modify k fun s => { s with alloc := bitClear s.alloc i }).modify k fun s =>
        { s with free := Buddy.lstPush s.free p } := by
  refine congrArg (Bd.mk _ · _) (funext fun j => ?_)
  by_cases hj : j = k
  · subst hj
    simp [Raw.lstPush, setAlloc, toBd, Buddy.lstPush]
  · simp [Raw.lstPush, setAlloc, toBd, hj]

theorem toBd_clear (c : Raw) (l : ℕ → List ℕ) (k i : ℕ) :
    (c.setAlloc k (bitClear (c.alloc k) i)).toBd l =
      (c.toBd l).modify k fun s => { s with alloc := bitClear s.alloc i } :=
  (toBd_setAlloc ..).trans rfl

theorem Linked.mergeLoop {d : ℕ} (h : Linked c l) (hplaced : Placed marked c)
    (hrep : Represents (c.toBd l) L) (hmarked : ∀ j ∈ marked, (0, j) ∈ L.used)
    (hfirst : 0 ∈ marked) (hd : k + d = top) (hu : (k, i) ∈ L.used) (hi : ¬ (k = 0 ∧ i ∈ marked)) :
    ∃ l', Buddy.mergeLoop (c.toBd l) d k (start c.bdBase k i) =
        some ((c.mergeLoop d k (start c.bdBase k i)).toBd l') ∧
      Linked (c.mergeLoop d k (start c.bdBase k i)) l' ∧
      Placed marked (c.mergeLoop d k (start c.bdBase k i)) := by
  induction d generalizing c l L k i with
  | zero =>
      have hlt := lt_top_of_used hu (hmarked 0 hfirst) fun heq => by
        obtain ⟨rfl, rfl⟩ := Prod.mk.inj heq
        exact hi ⟨rfl, hfirst⟩
      omega
  | succ d ih =>
      have htip := L.tip_of_used hu
      have hk : k < top := by omega
      have hnsizes : c.nsizes = top + 1 := hrep.nsizes_eq
      have hother : ∀ j ∈ marked, (0, j) ≠ (k, i) := fun j hj heq => by
        obtain ⟨rfl, rfl⟩ := Prod.mk.inj heq
        exact hi ⟨rfl, hj⟩
      have hidx : blkIndex (c.toBd l) k (start c.bdBase k i) = i :=
        blkIndex_self (b := c.toBd l) (hrep.tip_offset_lt htip)
      have hidx' : blkIndex c.bd k (start c.bdBase k i) = i := hidx
      have hnode : L.Node k (buddy i) := node_of_parent (by
        rw [buddy_div_two]
        exact htip.1.parent_split hk)
      have hold : bitIsset (c.alloc k) (buddy i) = true ↔ L.Taken k (buddy i) :=
        hrep.alloc hk.le (buddy i) hnode.lt
      have hbit : bitIsset (bitClear (c.alloc k) i) (buddy i) = true ↔ L.Taken k (buddy i) := by
        rw [bitIsset_bitClear]
        simpa [buddy_ne] using hold
      have hset : (c.setAlloc k (bitClear (c.alloc k) i)).alloc k = bitClear (c.alloc k) i :=
        Function.update_self ..
      rw [Buddy.mergeLoop, Raw.mergeLoop]
      simp only [hidx, hidx', ← toBd_clear]
      rw [← buddy.eq_def i, hset, show ((c.setAlloc k (bitClear (c.alloc k) i)).toBd l).bdSizes k =
        ⟨l k, (c.setAlloc k (bitClear (c.alloc k) i)).alloc k, c.split k⟩ from rfl]
      by_cases htaken : L.Taken k (buddy i)
      · simp only [hset, if_pos (hbit.mpr htaken)]
        have hrep' := hrep.drop hu
        rw [show (c.toBd l).bdBase = c.bdBase from rfl, ← toBd_drop] at hrep'
        refine ⟨_, ?_, Linked.lstPush (c := c.setAlloc k _) h hk.le hrep' (fun j hj => ?_) hplaced,
          hplaced⟩
        · rw [toBd_drop, toBd_clear]
        · exact Layout.mem_used_drop.mpr ⟨hmarked j hj, hother j hj⟩
      · simp only [hset, if_neg fun h => htaken (hbit.mp h)]
        have hfree := (Layout.free_iff_not_taken hnode).mpr htaken
        obtain ⟨b', hmerge, -, hrep'⟩ := hrep.mergeBlock hk hu hfree
        have haddr : addr c.bd k (buddy i) = start c.bdBase k (buddy i) :=
          addr_eq (b := c.bd) (hrep.tip_offset_lt hfree.tip)
        have hmem : start c.bdBase k (buddy i) ∈ l k :=
          ((hrep.free hk.le).mem_iff _).mpr ⟨_, rfl, hfree⟩
        have hlt : k < c.nsizes := by omega
        obtain ⟨hsim, hlink⟩ := Linked.mergeBlock (c := c.setAlloc k (bitClear (c.alloc k) i))
          (p := start c.bdBase k i) h hlt haddr hmem
        rw [← toBd_clear, show (c.toBd l).bdBase = c.bdBase from rfl, hsim] at hmerge
        obtain ⟨hparent, rfl⟩ := Prod.mk.inj (Option.some.inj hmerge)
        rw [hsim]
        simp only [Option.bind_eq_bind, Option.bind_some, hparent]
        refine ih hlink hplaced hrep' (fun j hj => ?_) (by omega)
          (Layout.mem_used_join.mpr (.inr rfl)) (by simp)
        exact Layout.mem_used_join.mpr (.inl ⟨hmarked j hj, hother j hj⟩)

theorem Linked.bdFree (h : Linked c l) (hplaced : Placed marked c) (hrep : Represents (c.toBd l) L)
    (hmarked : ∀ j ∈ marked, (0, j) ∈ L.used) (hfirst : 0 ∈ marked) (hu : (k, i) ∈ L.used)
    (hi : ¬ (k = 0 ∧ i ∈ marked)) : ∃ c' l', c.bdFree (start c.bdBase k i) = some c' ∧
      Buddy.bdFree (c.toBd l) (start c.bdBase k i) = some (c'.toBd l') ∧ Linked c' l' ∧
      Placed marked c' := by
  have hk := lt_top_of_used hu (hmarked 0 hfirst) fun heq => by
    obtain ⟨rfl, rfl⟩ := Prod.mk.inj heq
    exact hi ⟨rfl, hfirst⟩
  have hsize : size (c.toBd l) (start c.bdBase k i) = some k := hrep.size hu hk
  have hsize' : size c.bd (start c.bdBase k i) = some k := hsize
  have hmax : (c.toBd l).maxsize = top := hrep.maxsize_eq
  have hmax' : c.bd.maxsize = top := hmax
  obtain ⟨l', hfree, hlink⟩ := h.mergeLoop hplaced hrep hmarked hfirst
    (Nat.add_sub_cancel' hk.le) hu hi
  refine ⟨_, l', ?_, ?_, hlink⟩
  · rw [Raw.bdFree, hsize', hmax']
    rfl
  · rw [Buddy.bdFree, hsize, hmax]
    exact hfree

end Raw

/-! ### Runs -/

/-- The allocator in memory, and the blocks that callers hold. -/
structure RawHeap where
  raw : Raw
  live : List (ℕ × ℕ)

inductive RawCall where
  | call (c : Call)
  /-- A caller stores two words. -/
  | store (a next prev : ℕ)

/-- The call, if it is one of the allocator. -/
def RawCall.call? : RawCall → Option Call
  | .call c => some c
  | .store .. => none

/-- A caller frees only blocks it holds, and stores only into them. -/
def rawStep (s : RawHeap) : RawCall → Option RawHeap
  | .call (.malloc nbytes) =>
      if nbytes ≤ 2 ^ 63 then do
        let fk ← firstk nbytes
        match ← s.raw.bdMalloc nbytes with
        | (none, c) => some { s with raw := c }
        | (some p, c) => some { raw := c, live := (p, fk) :: s.live }
      else none
  | .call (.free p) => do
      let blk ← s.live.find? fun blk => blk.1 = p
      let c ← s.raw.bdFree p
      some { raw := c, live := s.live.erase blk }
  | .store a next prev =>
      if ∃ blk ∈ s.live, blk.1 ≤ a ∧ a < blk.1 + blkSize blk.2 then
        some { s with raw := { s.raw with mem :=
          ⟨Function.update s.raw.mem.next a next, Function.update s.raw.mem.prev a prev⟩ } }
      else none

/-- With its free lists as lists. -/
def RawHeap.toHeap (s : RawHeap) (l : ℕ → List ℕ) : Heap := ⟨s.raw.toBd l, s.live⟩

/-- The lists of a consistent state are in memory. -/
structure InMemory (marked : Set ℕ) (s : RawHeap) (l : ℕ → List ℕ) : Prop where
  consistent : Consistent marked (s.toHeap l)
  linked : s.raw.Linked l
  placed : Raw.Placed marked s.raw

namespace InMemory

variable {marked : Set ℕ} {s t : RawHeap} {l : ℕ → List ℕ}

/-- A call is possible in memory if it is on lists, and does the same. -/
theorem call (h : InMemory marked s l) (c : Call) :
    (rawStep s (.call c) = none ∧ step (s.toHeap l) c = none) ∨
      ∃ t l', rawStep s (.call c) = some t ∧ step (s.toHeap l) c = some (t.toHeap l') ∧
        InMemory marked t l' := by
  obtain ⟨top, L, hrep, hrec⟩ := h.consistent
  cases c with
  | malloc n =>
      by_cases hn : n ≤ 2 ^ 63
      · obtain ⟨fk, hfk, -⟩ := firstk_eq_some hn
        obtain ⟨r, c', l', hraw, hlist, hlink, hplaced⟩ :=
          h.linked.bdMalloc h.placed hrep hrec.used_of_marked hn
        have hlist : Buddy.bdMalloc (s.toHeap l).bd n = some (r, c'.toBd l') := hlist
        refine .inr ?_
        cases r with
        | none =>
            have hstep : step (s.toHeap l) (.malloc n) =
                some (RawHeap.toHeap { s with raw := c' } l') := by
              simp only [step, if_pos hn, hfk, hlist, Option.bind_eq_bind, Option.bind_some]
              rfl
            refine ⟨_, l', ?_, hstep, h.consistent.step hstep, hlink, hplaced⟩
            simp only [rawStep, if_pos hn, hfk, hraw, Option.bind_eq_bind, Option.bind_some]
        | some p =>
            have hstep : step (s.toHeap l) (.malloc n) =
                some (RawHeap.toHeap { raw := c', live := (p, fk) :: s.live } l') := by
              simp only [step, if_pos hn, hfk, hlist, Option.bind_eq_bind, Option.bind_some]
              rfl
            refine ⟨_, l', ?_, hstep, h.consistent.step hstep, hlink, hplaced⟩
            simp only [rawStep, if_pos hn, hfk, hraw, Option.bind_eq_bind, Option.bind_some]
      · exact .inl ⟨if_neg hn, if_neg hn⟩
  | free p =>
      cases hfind : s.live.find? fun blk => blk.1 = p with
      | none =>
          have hfind' : (s.toHeap l).live.find? (fun blk => blk.1 = p) = none := hfind
          refine .inl ⟨?_, ?_⟩
          · simp only [rawStep, hfind, Option.bind_eq_bind, Option.bind_none]
          · simp only [step, hfind', Option.bind_eq_bind, Option.bind_none]
      | some blk =>
          obtain ⟨q, k⟩ := blk
          obtain rfl : q = p := by simpa using List.find?_some hfind
          have hfind' : (s.toHeap l).live.find? (fun blk => blk.1 = q) = some (q, k) := hfind
          obtain ⟨i, hq, hu, hi⟩ := (hrec.mem_live q k).mp (List.mem_of_find?_eq_some hfind)
          obtain ⟨c', l', hraw, hlist, hlink, hplaced⟩ :=
            h.linked.bdFree h.placed hrep hrec.used_of_marked hrec.first_marked hu hi
          rw [show start s.raw.bdBase k i = q from hq.symm] at hraw hlist
          have hlist : Buddy.bdFree (s.toHeap l).bd q = some (c'.toBd l') := hlist
          have hstep : step (s.toHeap l) (.free q) =
              some (RawHeap.toHeap { raw := c', live := s.live.erase (q, k) } l') := by
            simp only [step, hfind', hlist, Option.bind_eq_bind, Option.bind_some]
            rfl
          refine .inr ⟨_, l', ?_, hstep, h.consistent.step hstep, hlink, hplaced⟩
          simp only [rawStep, hfind, hraw, Option.bind_eq_bind, Option.bind_some]

/-- A block that a caller holds has no node of a list in it. -/
theorem store {a next prev : ℕ} (h : InMemory marked s l)
    (hstep : rawStep s (.store a next prev) = some t) :
    InMemory marked t l ∧ t.toHeap l = s.toHeap l := by
  rw [rawStep] at hstep
  split_ifs at hstep with hheld
  cases hstep
  obtain ⟨blk, hblk, hle, hlt⟩ := hheld
  have hsound := Sound.of_consistent h.consistent
  have hin : InBlock blk a := ⟨hle, hlt⟩
  have hcaller : Owns marked (s.toHeap l) blk .caller := hblk
  obtain ⟨hlo, hhi⟩ := hsound.inside .caller blk a hcaller hin
  have howner : ∀ o blk', Owns marked (s.toHeap l) blk' o → InBlock blk' a → o = .caller :=
    fun o blk' ho hin' => congrArg Prod.fst ((hsound.partition a hlo hhi).unique
      (show Owns marked (s.toHeap l) (o, blk').2 (o, blk').1 ∧ InBlock (o, blk').2 a from ⟨ho, hin'⟩)
      (show Owns marked (s.toHeap l) (Owner.caller, blk).2 (Owner.caller, blk).1 ∧
        InBlock (Owner.caller, blk).2 a from ⟨hcaller, hin⟩))
  refine ⟨⟨h.consistent, h.linked.store fun k hk hmem => ?_, h.placed⟩, rfl⟩
  rcases List.mem_cons.mp hmem with heq | hmem
  · obtain ⟨i, hi, hhead⟩ := h.placed k hk
    cases howner .marked (a, 0) ⟨rfl, i, hi, heq.trans hhead⟩
      ⟨le_rfl, Nat.lt_add_of_pos_right (blkSize_pos 0)⟩
  · have hmax : k ≤ (s.toHeap l).bd.maxsize := by
      change k ≤ s.raw.nsizes - 1
      omega
    cases howner .freeList (a, k) ⟨hmax, hmem⟩
      ⟨le_rfl, Nat.lt_add_of_pos_right (blkSize_pos k)⟩

theorem run {calls : List RawCall} (h : InMemory marked s l)
    (hrun : Lib.run rawStep s calls = some t) : ∃ l', InMemory marked t l' ∧
      Lib.run step (s.toHeap l) (calls.filterMap RawCall.call?) = some (t.toHeap l') := by
  induction calls generalizing s l with
  | nil =>
      cases hrun
      exact ⟨l, h, rfl⟩
  | cons c calls ih =>
      obtain ⟨u, hstep, hrest⟩ := run_cons_eq_some.mp hrun
      cases c with
      | call c =>
          rcases h.call c with ⟨hnone, -⟩ | ⟨u', l₁, hraw, hlist, hu⟩
          · rw [hnone] at hstep
            cases hstep
          · obtain rfl := Option.some.inj (hraw.symm.trans hstep)
            obtain ⟨l', ht, hrun'⟩ := ih hu hrest
            exact ⟨l', ht, run_cons_eq_some.mpr ⟨_, hlist, hrun'⟩⟩
      | store a next prev =>
          obtain ⟨hu, heq⟩ := h.store hstep
          obtain ⟨l', ht, hrun'⟩ := ih hu hrest
          rw [heq] at hrun'
          exact ⟨l', ht, hrun'⟩

end InMemory

/-- **The lists in memory are the free lists.** The functions on lists act as
push, pop and removal on one of any number of lists that share no node,
given the node alone for a removal. So in every run of the allocator from a
state whose free lists are in memory they stay there, and the run is one of
the allocator on lists; a call is possible in the one exactly if it is in
the other. -/
theorem free_lists_refined :
    (∀ (m : Links) (lst : ℕ), Circle (m.lstInit lst).next (m.lstInit lst).prev lst []) ∧
    (∀ (m : Links) (n : ℕ) (head : ℕ → ℕ) (l : ℕ → List ℕ), m.Linked n head l → ∀ k < n,
      (m.lstEmpty (head k) = true ↔ l k = []) ∧
      (∀ p, (∀ j < n, p ∉ head j :: l j) →
        (m.lstPush (head k) p).Linked n head (Function.update l k (p :: l k))) ∧
      (∀ p rest, l k = p :: rest → ∃ m', m.lstPop (head k) = some (p, m') ∧
        m'.Linked n head (Function.update l k rest)) ∧
      ∀ e ∈ l k, (m.lstRemove e).Linked n head (Function.update l k ((l k).erase e))) ∧
    ∀ (marked : Set ℕ) (s t : RawHeap) (l : ℕ → List ℕ) (calls : List RawCall),
      InMemory marked s l → run rawStep s calls = some t →
      ∃ l', InMemory marked t l' ∧
        run step (s.toHeap l) (calls.filterMap RawCall.call?) = some (t.toHeap l') ∧
        ∀ c, rawStep t (.call c) = none ↔ step (t.toHeap l') c = none := by
  refine ⟨Links.circle_lstInit, fun m n head l h k hk => ⟨h.empty_iff hk, fun p hp => h.push hk hp,
    fun p rest hl => h.pop hk hl, fun e he => h.remove hk he⟩, fun marked s t l calls h hrun => ?_⟩
  obtain ⟨l', ht, hrun'⟩ := h.run hrun
  refine ⟨l', ht, hrun', fun c => ?_⟩
  rcases ht.call c with ⟨hraw, hlist⟩ | ⟨u, l₁, hraw, hlist, -⟩
  · exact iff_of_true hraw hlist
  · exact iff_of_false (by simp [hraw]) (by simp [hlist])

/-! ### A small heap -/

/-- Eight leaves at address 4096, of which all but the last are marked; the
heads of the lists are in the first seven. -/
def smallRaw : RawHeap where
  raw :=
    { nsizes := 4
      bdSizes := 4096
      bdBase := 4096
      alloc := fun
        | 0 => fun _ => 0x7f
        | 1 => fun _ => 0x0f
        | 2 => fun _ => 0x03
        | _ => fun _ => 0x01
      split := fun
        | 0 => fun _ => 0
        | 1 => fun _ => 0x0f
        | 2 => fun _ => 0x03
        | _ => fun _ => 0x01
      mem :=
        { next := fun a => if a = 4096 then 4208 else if a = 4208 then 4096 else a
          prev := fun a => if a = 4096 then 4208 else if a = 4208 then 4096 else a } }
  live := []

/-- The free lists of `smallRaw`. -/
def smallLists : ℕ → List ℕ
  | 0 => [4208]
  | _ => []

theorem leaves_parent {k i : ℕ} (h : 0 < k ∧ k ≤ 3 ∧ i < 2 ^ (3 - k)) :
    k = 3 ∧ i = 0 ∨ k < 3 ∧ 0 < k + 1 ∧ k + 1 ≤ 3 ∧ i / 2 < 2 ^ (3 - (k + 1)) := by
  obtain ⟨hpos, hle, hi⟩ := h
  interval_cases k <;> omega

theorem leaves_tip {k i : ℕ} (h : k = 0 ∧ i < 7) :
    (k = 3 ∧ i = 0 ∨ k < 3 ∧ 0 < k + 1 ∧ k + 1 ≤ 3 ∧ i / 2 < 2 ^ (3 - (k + 1))) ∧
      ¬ (0 < k ∧ k ≤ 3 ∧ i < 2 ^ (3 - k)) := by
  obtain ⟨rfl, hi⟩ := h
  omega

/-- The layout of `smallRaw`: everything is split. -/
def leavesLayout : Layout 3 where
  split := {x | 0 < x.1 ∧ x.1 ≤ 3 ∧ x.2 < 2 ^ (3 - x.1)}
  pos := fun h => h.1
  parent := leaves_parent
  used := {x | x.1 = 0 ∧ x.2 < 7}
  tip_of_used := leaves_tip

theorem leavesLayout_free_iff {k i : ℕ} : leavesLayout.Free k i ↔ k = 0 ∧ i = 7 := by
  simp only [Layout.Free, Tip, Node, leavesLayout, Set.mem_ofPred_eq]
  rcases Nat.lt_or_ge k 4 with hk | hk
  · interval_cases k <;> omega
  · omega

theorem smallRaw_represents : Represents (smallRaw.raw.toBd smallLists) leavesLayout where
  nsizes_eq := rfl
  top_le := by decide
  split := by
    intro k hpos hk i hi
    interval_cases k <;> interval_cases i <;>
      simp [leavesLayout, smallRaw, Raw.toBd] <;> decide
  alloc := by
    intro k hk i hi
    interval_cases k <;> interval_cases i <;>
      simp [Layout.Taken, leavesLayout, smallRaw, Raw.toBd] <;> decide
  free := by
    intro k hk
    refine ⟨?_, fun p => ?_⟩
    · interval_cases k <;> simp [smallLists, Raw.toBd]
    · simp only [leavesLayout_free_iff]
      interval_cases k <;> simp [smallRaw, smallLists, Raw.toBd, start, blkSize, leafSize]

theorem smallRaw_inMemory : InMemory {i | i < 7} smallRaw smallLists := by
  refine ⟨⟨3, leavesLayout, smallRaw_represents, List.nodup_nil, fun p k => ?_, ?_, ?_⟩, ⟨?_, ?_⟩, ?_⟩
  · refine iff_of_false List.not_mem_nil ?_
    rintro ⟨i, -, hu, hm⟩
    exact hm hu
  · exact fun i hi => ⟨rfl, hi⟩
  · exact Nat.zero_lt_succ 6
  · intro k hk
    have hk : k < 4 := hk
    interval_cases k
    · exact ⟨by decide, by decide, by decide, by decide, by decide⟩
    · exact ⟨by decide, by decide, by decide⟩
    · exact ⟨by decide, by decide, by decide⟩
    · exact ⟨by decide, by decide, by decide⟩
  · intro j hj k hk hne
    have hj : j < 4 := hj
    have hk : k < 4 := hk
    have hall : ∀ j k : Fin 4, j ≠ k → ∀ a ∈ smallRaw.raw.free j :: smallLists j,
        a ∉ smallRaw.raw.free k :: smallLists k := by decide
    exact hall ⟨j, hj⟩ ⟨k, hk⟩ fun heq => hne (Fin.mk.inj heq)
  · intro k hk
    have hk : k < 4 := hk
    exact ⟨2 * k, by simp only [Set.mem_ofPred_eq]; omega, by simp only [Raw.free, smallRaw, leafSize]; omega⟩

theorem free_lists_refined_small :
    ∃ t l, run rawStep smallRaw [.call (.malloc 10), .store 4208 7 7, .call (.free 4208)] = some t ∧
      InMemory {i | i < 7} t l ∧
      run step (smallRaw.toHeap smallLists) [.malloc 10, .free 4208] = some (t.toHeap l) := by
  have hrun := (Option.some_get (by decide +kernel : Option.isSome (run rawStep smallRaw
    [.call (.malloc 10), .store 4208 7 7, .call (.free 4208)]) = true)).symm
  obtain ⟨l, hmem, hlist, -⟩ := free_lists_refined.2.2 _ _ _ _ _ smallRaw_inMemory hrun
  exact ⟨_, l, hrun, hmem, hlist⟩

end Xv6.Buddy
