import Xv6.Bio.Cache
import Xv6.Lib.Counting
import Xv6.Lib.Runs

/-!
The invariant of the buffer cache.

Buffers that `bget` has never returned all carry the label `(0, 0)`, and
`bget` takes the first buffer with the label it looks for, in use or not.
A block is still never cached twice: the buffers that have been returned
carry different labels, and those that have not come after the one with
label `(0, 0)` that has, as only buffers that are released move, and they
move to the front.
-/

set_option linter.unusedSectionVars false

namespace Xv6.Bio

open Lib

variable {P D : Type} {c : Bcache P D} {l : List (Fin nbuf)} {b b' : Fin nbuf}

/-! ### The list of buffers -/

/-- The links run through all buffers in the order of `l`. -/
structure Order (c : Bcache P D) (l : List (Fin nbuf)) : Prop where
  circle : Circle c.next c.prev none (l.map some)
  all : ∀ b, b ∈ l

theorem Order.nodup (h : Order c l) : l.Nodup :=
  (List.nodup_map_iff (Option.some_injective _)).mp (List.nodup_cons.mp h.circle.nodup).2

theorem Order.length_lt (h : Order c l) : (l.map some).length < nbuf + 1 := by
  have := h.nodup.length_le_card
  rw [Fintype.card_fin] at this
  rw [List.length_map]
  omega

theorem find?_map_some (l : List (Fin nbuf)) (test : Fin nbuf → Bool) :
    ((l.map some).find? fun x : Node => x.any test).join = l.find? test := by
  induction l with
  | nil => rfl
  | cons b l ih =>
      rw [List.map_cons, List.find?_cons, List.find?_cons, Option.any_some]
      cases test b with
      | true => rfl
      | false => exact ih

theorem none_notMem_map : (none : Node) ∉ l.map some := by simp

theorem Order.search_next (h : Order c l) (test : Buf P D → Bool) :
    c.search c.next test = some (l.find? fun b => test (c.buf b)) := by
  rw [Bcache.search, h.circle.chain.seek_eq none_notMem_map h.length_lt, Option.map_some,
    find?_map_some]

theorem Order.search_prev (h : Order c l) (test : Buf P D → Bool) :
    c.search c.prev test = some (l.reverse.find? fun b => test (c.buf b)) := by
  have hrev := h.circle.reverse
  rw [← List.map_reverse] at hrev
  have hlen : (l.reverse.map some).length < nbuf + 1 := by
    have := h.length_lt
    rwa [List.length_map, List.length_reverse, ← List.length_map (f := some)]
  rw [Bcache.search, hrev.chain.seek_eq none_notMem_map hlen, Option.map_some, find?_map_some]

theorem Order.setBuf (h : Order c l) (r : Buf P D) : Order (c.setBuf b r) l := ⟨h.circle, h.all⟩

theorem circle_linkFront (h : Circle c.next c.prev none (l.map some)) (hb : b ∉ l) :
    Circle (c.linkFront b).next (c.linkFront b).prev none ((b :: l).map some) := by
  have hpush := h.push (b := some b) (by simpa using hb)
  simpa [Bcache.linkFront, Bcache.setNext, Bcache.setPrev] using hpush

theorem circle_unlink (h : Circle c.next c.prev none (l.map some)) (hb : b ∈ l) (hnodup : l.Nodup) :
    Circle (c.unlink b).next (c.unlink b).prev none ((l.erase b).map some) := by
  obtain ⟨l₁, l₂, rfl⟩ := List.append_of_mem hb
  have hbl : b ∉ l₁ := fun hmem => (List.nodup_append.mp hnodup).2.2 b hmem b (by simp) rfl
  rw [List.erase_append_right _ hbl, List.erase_cons_head, List.map_append]
  rw [List.map_append, List.map_cons] at h
  have hne := h.next_ne
  simpa [Bcache.unlink, Bcache.setNext, Bcache.setPrev, Function.update_of_ne hne.symm] using
    h.unlink

/-- A released buffer moves to the front. -/
theorem Order.front (h : Order c l) (b : Fin nbuf) :
    Order ((c.unlink b).linkFront b) (b :: l.erase b) where
  circle := circle_linkFront (circle_unlink h.circle (h.all b) h.nodup) h.nodup.not_mem_erase
  all := by
    intro b'
    by_cases hb : b' = b
    · simp [hb]
    · exact List.mem_cons_of_mem b ((List.mem_erase_of_ne hb).mpr (h.all b'))

theorem circle_foldl (bs : List (Fin nbuf)) (h : Circle c.next c.prev none (l.map some))
    (hnodup : (bs.reverse ++ l).Nodup) :
    Circle (bs.foldl Bcache.linkFront c).next (bs.foldl Bcache.linkFront c).prev none
      ((bs.reverse ++ l).map some) := by
  induction bs generalizing l c with
  | nil => exact h
  | cons b bs ih =>
      rw [List.reverse_cons, List.append_assoc, List.singleton_append] at hnodup ⊢
      have hb : b ∉ l := (List.nodup_cons.mp (List.nodup_append.mp hnodup).2.1).1
      exact ih (circle_linkFront h hb) hnodup

theorem buf_foldl (bs : List (Fin nbuf)) : (bs.foldl Bcache.linkFront c).buf = c.buf := by
  induction bs generalizing c with
  | nil => rfl
  | cons b bs ih => exact ih

theorem order_binit (data : D) : Order (binit data : Bcache P D) (List.finRange nbuf).reverse where
  circle := by
    have hstart : Circle (zeroed data : Bcache P D).next (zeroed data : Bcache P D).prev none
        (List.map some []) := ⟨List.nodup_singleton _, rfl, rfl⟩
    have hall := circle_foldl (List.finRange nbuf) hstart (by
      rw [List.append_nil, List.nodup_reverse]
      exact List.nodup_finRange nbuf)
    rwa [List.append_nil] at hall
  all := fun b => List.mem_reverse.mpr (List.mem_finRange b)

theorem buf_binit (data : D) (b : Fin nbuf) :
    (binit data : Bcache P D).buf b = (zeroed data).buf b := by
  rw [binit, buf_foldl]

@[simp] theorem buf_setBuf (r : Buf P D) : (c.setBuf b r).buf b' = if b' = b then r else c.buf b' :=
  Function.update_apply ..

/-! ### What `bget` returns -/

/-- The outcomes of `bget`: the first buffer with the label, a buffer that
nobody refers to when there is none, or none at all. -/
inductive Got (c : Bcache P D) (l : List (Fin nbuf)) (dev blockno : ℕ) :
    Option (Fin nbuf × Bcache P D) → Prop where
  | hit (b : Fin nbuf) (hlabel : (c.buf b).label = (dev, blockno))
      (hfirst : ∃ l₁ l₂, l = l₁ ++ b :: l₂ ∧ ∀ a ∈ l₁, (c.buf a).label ≠ (dev, blockno)) :
      Got c l dev blockno
        (some (b, c.setBuf b { c.buf b with refcnt := (c.buf b).refcnt + 1 }))
  | recycled (b : Fin nbuf) (hfree : (c.buf b).refcnt = 0)
      (hnone : ∀ a, (c.buf a).label ≠ (dev, blockno)) :
      Got c l dev blockno (some (b, c.setBuf b
        { c.buf b with dev := dev, blockno := blockno, valid := false, refcnt := 1 }))
  | full (hbusy : ∀ b, (c.buf b).refcnt ≠ 0) : Got c l dev blockno none

theorem Order.bget (h : Order c l) (dev blockno : ℕ) :
    ∃ r, bget c dev blockno = some r ∧ Got c l dev blockno r := by
  rw [Bio.bget, h.search_next, h.search_prev]
  simp only [Option.bind_eq_bind, Option.bind_some]
  cases hfind : l.find? fun b => decide ((c.buf b).label = (dev, blockno)) with
  | some b =>
      obtain ⟨htest, l₁, l₂, hl, hbefore⟩ := List.find?_eq_some_iff_append.mp hfind
      refine ⟨_, rfl, .hit b (of_decide_eq_true htest) ⟨l₁, l₂, hl, fun a ha => ?_⟩⟩
      simpa using hbefore a ha
  | none =>
      have hnone : ∀ a, (c.buf a).label ≠ (dev, blockno) := by
        intro a
        simpa using List.find?_eq_none.mp hfind a (h.all a)
      cases hfree : l.reverse.find? fun b => decide ((c.buf b).refcnt = 0) with
      | some b =>
          have hb : (c.buf b).refcnt = 0 := by simpa using List.find?_some hfree
          exact ⟨_, rfl, .recycled b hb hnone⟩
      | none =>
          refine ⟨_, rfl, .full fun b => ?_⟩
          simpa using List.find?_eq_none.mp hfree b (List.mem_reverse.mpr (h.all b))

/-! ### Labels -/

/-- Buffers in `used` have been returned by `bget`. -/
structure Labels (c : Bcache P D) (l : List (Fin nbuf)) (used : Set (Fin nbuf)) : Prop where
  fresh : ∀ b ∉ used, (c.buf b).label = (0, 0) ∧ (c.buf b).refcnt = 0 ∧ (c.buf b).valid = false
  distinct : ∀ a ∈ used, ∀ b ∈ used, (c.buf a).label = (c.buf b).label → a = b
  after : ∀ a ∈ used, (c.buf a).label = (0, 0) → ∀ b ∉ used, [a, b].Sublist l

variable {used : Set (Fin nbuf)} {r : Buf P D} {dev blockno : ℕ}

theorem Labels.mem_used (h : Labels c l used) (hb : (c.buf b).refcnt ≠ 0) : b ∈ used := by
  by_contra hu
  exact hb (h.fresh b hu).2.1

/-- The label and the place of a buffer in use stay. -/
theorem Labels.setBuf (h : Labels c l used) (hb : b ∈ used)
    (hlabel : r.label = (c.buf b).label) : Labels (c.setBuf b r) l used := by
  have hsame : ∀ a, ((c.setBuf b r).buf a).label = (c.buf a).label := by
    intro a
    rw [buf_setBuf]
    split_ifs with ha
    · rw [ha, hlabel]
    · rfl
  constructor
  case fresh =>
    intro a ha
    rw [buf_setBuf, if_neg]
    · exact h.fresh a ha
    · rintro rfl
      exact ha hb
  case distinct =>
    intro a ha a' ha' he
    rw [hsame, hsame] at he
    exact h.distinct a ha a' ha' he
  case after =>
    intro a ha hzero
    rw [hsame] at hzero
    exact h.after a ha hzero

/-- Moving a buffer in use to the front. -/
theorem Labels.front (h : Labels c l used) (hl : ∀ b, b ∈ l) (hb : b ∈ used) :
    Labels ((c.unlink b).linkFront b) (b :: l.erase b) used where
  fresh := h.fresh
  distinct := h.distinct
  after := by
    intro a ha hzero a' ha'
    have hne : a' ≠ b := fun he => ha' (he ▸ hb)
    by_cases hab : a = b
    · subst hab
      refine List.Sublist.cons_cons a (List.singleton_sublist.mpr ?_)
      exact (List.mem_erase_of_ne hne).mpr (hl a')
    · refine List.Sublist.cons b ?_
      have := (h.after a ha hzero a' ha').erase b
      rwa [List.erase_cons_tail (by simpa using hab),
        List.erase_cons_tail (by simpa using hne)] at this

theorem mem_left_of_sublist {a : Fin nbuf} {l₁ l₂ : List (Fin nbuf)}
    (h : [a, b].Sublist (l₁ ++ b :: l₂)) (hnodup : (l₁ ++ b :: l₂).Nodup) : a ∈ l₁ := by
  obtain ⟨-, hright, hdisjoint⟩ := List.nodup_append.mp hnodup
  have hb₁ : b ∉ l₁ := fun hb => hdisjoint b hb b (by simp) rfl
  have hb₂ : b ∉ l₂ := (List.nodup_cons.mp hright).1
  obtain ⟨k₁, k₂, hk, h₁, h₂⟩ := List.sublist_append_iff.mp h
  match k₁, hk with
  | [], hk =>
      obtain rfl : [a, b] = k₂ := hk
      rcases List.sublist_cons_iff.mp h₂ with h₂ | ⟨k, hk, h₂⟩
      · exact absurd (h₂.subset (by simp)) hb₂
      · cases hk
        exact absurd (h₂.subset (by simp)) hb₂
  | x :: k₁, hk =>
      obtain ⟨rfl, -⟩ := List.cons.inj hk
      exact h₁.subset (by simp)

theorem Labels.hit (h : Labels c l used) (hl : ∀ b, b ∈ l) (hnodup : l.Nodup)
    (hlabel : (c.buf b).label = (dev, blockno))
    (hfirst : ∃ l₁ l₂, l = l₁ ++ b :: l₂ ∧ ∀ a ∈ l₁, (c.buf a).label ≠ (dev, blockno))
    (hr : r.label = (c.buf b).label) : Labels (c.setBuf b r) l (insert b used) := by
  obtain ⟨l₁, l₂, rfl, hbefore⟩ := hfirst
  refine Labels.setBuf ⟨fun a ha => ?_, fun a ha a' ha' he => ?_, fun a ha hzero a' ha' => ?_⟩
    (Set.mem_insert b used) hr
  · exact h.fresh a fun hu => ha (.inr hu)
  · -- a fresh buffer that is found first has no rival
    have hrival : ∀ a ∈ used, (c.buf a).label = (c.buf b).label → b ∈ used := by
      intro a hu he
      by_contra hb
      have hzero : (c.buf a).label = (0, 0) := he.trans (h.fresh b hb).1
      exact hbefore a (mem_left_of_sublist (h.after a hu hzero b hb) hnodup) (he.trans hlabel)
    rcases ha with rfl | ha
    · rcases ha' with rfl | ha'
      · rfl
      · exact h.distinct a (hrival a' ha' he.symm) a' ha' he
    · rcases ha' with rfl | ha'
      · exact h.distinct a ha a' (hrival a ha he) he
      · exact h.distinct a ha a' ha' he
  · obtain ⟨hne, hu⟩ := not_or.mp ha'
    rcases ha with rfl | ha
    · refine List.Sublist.trans ?_ (List.sublist_append_right l₁ _)
      refine List.Sublist.cons_cons a (List.singleton_sublist.mpr ?_)
      rcases List.mem_append.mp (hl a') with hmem | hmem
      · refine absurd ?_ (hbefore a' hmem)
        rw [(h.fresh a' hu).1, ← hzero, hlabel]
      · exact (List.mem_cons.mp hmem).resolve_left hne
    · exact h.after a ha hzero a' hu

theorem Labels.recycled (h : Labels c l used) (hnone : ∀ a, (c.buf a).label ≠ (dev, blockno))
    (hr : r.label = (dev, blockno)) : Labels (c.setBuf b r) l (insert b used) := by
  have hself : ((c.setBuf b r).buf b).label = (dev, blockno) := by
    rw [buf_setBuf, if_pos rfl, hr]
  have hother : ∀ {a}, a ≠ b → (c.setBuf b r).buf a = c.buf a := by
    intro a ha
    rw [buf_setBuf, if_neg ha]
  refine ⟨fun a ha => ?_, fun a ha a' ha' he => ?_, fun a ha hzero a' ha' => ?_⟩
  · obtain ⟨hne, hu⟩ := not_or.mp ha
    rw [hother hne]
    exact h.fresh a hu
  · by_cases hab : a = b
    · by_cases hab' : a' = b
      · rw [hab, hab']
      · subst hab
        rw [hself, hother hab'] at he
        exact absurd he.symm (hnone a')
    · by_cases hab' : a' = b
      · subst hab'
        rw [hself, hother hab] at he
        exact absurd he (hnone a)
      · rw [hother hab, hother hab'] at he
        exact h.distinct a (ha.resolve_left hab) a' (ha'.resolve_left hab') he
  · obtain ⟨hne, hu⟩ := not_or.mp ha'
    by_cases hab : a = b
    · subst hab
      rw [hself] at hzero
      exact absurd ((h.fresh a' hu).1.trans hzero.symm) (hnone a')
    · rw [hother hab] at hzero
      exact h.after a (ha.resolve_left hab) hzero a' hu

/-! ### References -/

/-- The process has a reference to the buffer without its lock. -/
def Pc.Refers (b : Fin nbuf) : Pc → Prop
  | .waiting a | .releasing a => a = b
  | .idle => False

/-- The reference that goes with the lock. -/
def Buf.held (r : Buf P D) : ℕ := if r.lock = none then 0 else 1

/-- The count of a buffer: processes that wait for it or are releasing it,
its holder, and pins. -/
def Counted (pc : P → Pc) (b : Fin nbuf) (r : Buf P D) (pins : ℕ) : Prop :=
  ∃ n, Counts (Pc.Refers b) pc n ∧ r.refcnt = n + r.held + pins

variable [DecidableEq P] {s t : State P D} {p : P}

/-- A process moves from one buffer to none or back; the others do not
notice. -/
theorem Counted.other {pc : P → Pc} {x : Pc} {pins : ℕ} (h : Counted pc b r pins)
    (hx : x.Refers b ↔ (pc p).Refers b) : Counted (Function.update pc p x) b r pins := by
  obtain ⟨n, hn, hr⟩ := h
  exact ⟨n, hn.keep hx, hr⟩

theorem Counted.ne_zero {pc : P → Pc} {pins : ℕ} (h : Counted pc b r pins)
    (hr : (pc p).Refers b ∨ r.lock ≠ none ∨ 0 < pins) : r.refcnt ≠ 0 := by
  obtain ⟨n, hn, hcount⟩ := h
  rcases hr with hp | hlock | hpins
  · have := hn.pos hp
    omega
  · rw [Buf.held, if_neg hlock] at hcount
    omega
  · omega

structure Inv (s : State P D) : Prop where
  order : ∃ l used, Order s.cache l ∧ Labels s.cache l used
  refs : ∀ b, Counted s.pc b (s.buf b) (s.pins b)

theorem inv_init (data : D) : Inv (init data : State P D) where
  order := by
    refine ⟨_, ∅, order_binit data, fun b _ => ?_, fun a ha => ha.elim, fun a ha => ha.elim⟩
    change ((binit data : Bcache P D).buf b).label = _ ∧ _
    simp only [init, buf_binit]
    exact ⟨rfl, rfl, rfl⟩
  refs := by
    intro b
    refine ⟨0, .zero fun p => id, ?_⟩
    change ((binit data : Bcache P D).buf b).refcnt = _ + ((binit data : Bcache P D).buf b).held + 0
    rw [buf_binit]
    rfl

/-- A step that changes one buffer in use, but not its label, one process
and the pins of that buffer. -/
theorem Inv.setBuf {x : Pc} {n : ℕ} (h : Inv s) (hb : (s.buf b).refcnt ≠ 0)
    (hcache : t.cache = s.cache.setBuf b r) (hlabel : r.label = (s.buf b).label)
    (hpc : t.pc = Function.update s.pc p x) (hpins : t.pins = Function.update s.pins b n)
    (hother : ∀ a ≠ b, x.Refers a ↔ (s.pc p).Refers a)
    (hself : Counted (Function.update s.pc p x) b r n) : Inv t := by
  obtain ⟨l, used, horder, hlabels⟩ := h.order
  refine ⟨⟨l, used, hcache ▸ horder.setBuf r,
    hcache ▸ hlabels.setBuf (hlabels.mem_used hb) hlabel⟩, fun a => ?_⟩
  rw [State.buf, hcache, buf_setBuf, hpc, hpins, Function.update_apply]
  split_ifs with ha
  · rw [ha]
    exact hself
  · exact (h.refs a).other (hother a ha)

/-! ### Steps -/

theorem Inv.bget (h : Inv s) (hp : s.pc p = .idle)
    (hget : bget s.cache dev blockno = some (some (b, c))) : Inv (s.move p (.waiting b) c) := by
  obtain ⟨l, used, horder, hlabels⟩ := h.order
  obtain ⟨g, hg, hgot⟩ := horder.bget dev blockno
  rw [hget] at hg
  cases hg
  have hrefers : ∀ a, ¬ (s.pc p).Refers a := fun a => by rw [hp]; exact id
  have hrefs : ∀ {r : Buf P D}, (∀ n, (s.buf b).refcnt = n + (s.buf b).held + s.pins b →
      r.refcnt = n + 1 + r.held + s.pins b) → c = s.cache.setBuf b r →
      ∀ a, Counted (Function.update s.pc p (.waiting b)) a (c.buf a) (s.pins a) := by
    rintro r hr rfl a
    rw [buf_setBuf]
    split_ifs with ha
    · subst ha
      obtain ⟨n, hn, hcount⟩ := h.refs a
      exact ⟨n + 1, hn.enter (hrefers a) rfl, hr n hcount⟩
    · refine (h.refs a).other ⟨fun he => ?_, fun he => absurd he (hrefers a)⟩
      exact absurd he.symm ha
  cases hgot with
  | hit _ hlabel hfirst =>
      refine ⟨⟨l, insert b used, horder.setBuf _,
        hlabels.hit horder.all horder.nodup hlabel hfirst rfl⟩, hrefs (fun n hn => ?_) rfl⟩
      change (s.buf b).refcnt + 1 = n + 1 + (s.buf b).held + s.pins b
      omega
  | recycled _ hfree hnone =>
      refine ⟨⟨l, insert b used, horder.setBuf _, hlabels.recycled hnone rfl⟩,
        hrefs (fun n hn => ?_) rfl⟩
      change 1 = n + 1 + (s.buf b).held + s.pins b
      have hzero : (s.buf b).refcnt = 0 := hfree
      omega

theorem Inv.acquiresleep (h : Inv s) (hp : s.pc p = .waiting b) (hlock : (s.buf b).lock = none) :
    Inv (s.move p .idle (setLock s.cache b (some p))) := by
  have href : (s.pc p).Refers b := by rw [hp]; rfl
  refine h.setBuf (n := s.pins b) ((h.refs b).ne_zero (.inl href)) rfl rfl rfl
    (Function.update_eq_self b s.pins).symm (fun a ha => ?_) ?_
  · rw [hp]
    exact ⟨fun hf => hf.elim, fun he => absurd he.symm ha⟩
  · obtain ⟨n, hn, hcount⟩ := h.refs b
    have hpos := hn.pos href
    refine ⟨n - 1, hn.leave href id, ?_⟩
    rw [Buf.held, if_pos hlock] at hcount
    change (s.buf b).refcnt = n - 1 + 1 + s.pins b
    omega

theorem Inv.releasesleep (h : Inv s) (hp : s.pc p = .idle) (hlock : (s.buf b).lock = some p) :
    Inv (s.move p (.releasing b) (setLock s.cache b none)) := by
  have hlock' : (s.buf b).lock ≠ none := by rw [hlock]; nofun
  refine h.setBuf (n := s.pins b) ((h.refs b).ne_zero (p := p) (.inr (.inl hlock'))) rfl rfl rfl
    (Function.update_eq_self b s.pins).symm (fun a ha => ?_) ?_
  · rw [hp]
    exact ⟨fun he => absurd he.symm ha, fun hf => hf.elim⟩
  · obtain ⟨n, hn, hcount⟩ := h.refs b
    refine ⟨n + 1, hn.enter (by rw [hp]; exact id) rfl, ?_⟩
    rw [Buf.held, if_neg hlock'] at hcount
    change (s.buf b).refcnt = n + 1 + 0 + s.pins b
    omega

theorem Inv.unref (h : Inv s) (hp : s.pc p = .releasing b) :
    Inv (s.move p .idle (unref s.cache b)) := by
  have href : (s.pc p).Refers b := by rw [hp]; rfl
  have hne := (h.refs b).ne_zero (.inl href)
  -- the count goes down, whether or not the buffer moves
  have hdown : Inv (s.move p .idle (s.cache.setBuf b
      { s.buf b with refcnt := (s.buf b).refcnt - 1 })) := by
    refine h.setBuf (n := s.pins b) hne rfl rfl rfl
      (Function.update_eq_self b s.pins).symm (fun a ha => ?_) ?_
    · rw [hp]
      exact ⟨fun hf => hf.elim, fun he => absurd he.symm ha⟩
    · obtain ⟨n, hn, hcount⟩ := h.refs b
      have hpos := hn.pos href
      refine ⟨n - 1, hn.leave href id, ?_⟩
      change (s.buf b).refcnt - 1 = n - 1 + (s.buf b).held + s.pins b
      omega
  unfold Bio.unref
  simp only
  split_ifs
  · obtain ⟨l, used, horder, hlabels⟩ := h.order
    have hb : b ∈ used := hlabels.mem_used hne
    have hlow := hlabels.setBuf hb (r := { s.buf b with refcnt := (s.buf b).refcnt - 1 }) rfl
    exact ⟨⟨b :: l.erase b, used, (horder.setBuf _).front b, hlow.front horder.all hb⟩, hdown.refs⟩
  · exact hdown

theorem Inv.pin (h : Inv s) (hlock : (s.buf b).lock = some p) :
    Inv (s.setPins b (s.pins b + 1) (bpin s.cache b)) := by
  have hlock' : (s.buf b).lock ≠ none := by rw [hlock]; nofun
  refine h.setBuf (p := p) (x := s.pc p) ((h.refs b).ne_zero (p := p) (.inr (.inl hlock'))) rfl rfl
    (Function.update_eq_self p s.pc).symm rfl (fun _ _ => .rfl) ?_
  rw [Function.update_eq_self]
  obtain ⟨n, hn, hcount⟩ := h.refs b
  refine ⟨n, hn, ?_⟩
  change (s.buf b).refcnt + 1 = n + (s.buf b).held + (s.pins b + 1)
  omega

theorem Inv.unpin (h : Inv s) (hlock : (s.buf b).lock = some p) (hpins : 0 < s.pins b) :
    Inv (s.setPins b (s.pins b - 1) (bunpin s.cache b)) := by
  have hlock' : (s.buf b).lock ≠ none := by rw [hlock]; nofun
  refine h.setBuf (p := p) (x := s.pc p) ((h.refs b).ne_zero (p := p) (.inr (.inl hlock'))) rfl rfl
    (Function.update_eq_self p s.pc).symm rfl (fun _ _ => .rfl) ?_
  rw [Function.update_eq_self]
  obtain ⟨n, hn, hcount⟩ := h.refs b
  refine ⟨n, hn, ?_⟩
  change (s.buf b).refcnt - 1 = n + (s.buf b).held + (s.pins b - 1)
  omega

/-- What the steps do. -/
inductive Effect (s : State P D) : Act P → State P D → Prop
  | hit (p : P) (b : Fin nbuf) (hp : s.pc p = .idle) {dev blockno : ℕ}
      (hlabel : (s.buf b).label = (dev, blockno)) :
      Effect s (.bget p dev blockno) (s.move p (.waiting b)
        (s.cache.setBuf b { s.buf b with refcnt := (s.buf b).refcnt + 1 }))
  | recycled (p : P) (b : Fin nbuf) (hp : s.pc p = .idle) (hfree : (s.buf b).refcnt = 0)
      (dev blockno : ℕ) :
      Effect s (.bget p dev blockno) (s.move p (.waiting b) (s.cache.setBuf b
        { s.buf b with dev := dev, blockno := blockno, valid := false, refcnt := 1 }))
  | full (p : P) (dev blockno : ℕ) : Effect s (.bget p dev blockno) { s with panicked := true }
  | acquiresleep (p : P) (b : Fin nbuf) (hp : s.pc p = .waiting b)
      (hlock : (s.buf b).lock = none) :
      Effect s (.acquiresleep p) (s.move p .idle (setLock s.cache b (some p)))
  | releasesleep (p : P) (b : Fin nbuf) (hp : s.pc p = .idle)
      (hlock : (s.buf b).lock = some p) :
      Effect s (.releasesleep p b) (s.move p (.releasing b) (setLock s.cache b none))
  | unref (p : P) (b : Fin nbuf) (hp : s.pc p = .releasing b) :
      Effect s (.unref p) (s.move p .idle (unref s.cache b))
  | bpin (p : P) (b : Fin nbuf) (hlock : (s.buf b).lock = some p) :
      Effect s (.bpin p b) (s.setPins b (s.pins b + 1) (bpin s.cache b))
  | bunpin (p : P) (b : Fin nbuf) (hlock : (s.buf b).lock = some p) (hpins : 0 < s.pins b) :
      Effect s (.bunpin p b) (s.setPins b (s.pins b - 1) (bunpin s.cache b))

variable {a : Act P}

/-- A step has its effect, and keeps the invariant. -/
theorem Inv.step (h : Inv s) (hstep : step s a = some t) : Inv t ∧ Effect s a t := by
  unfold Bio.step at hstep
  obtain ⟨-, hstep⟩ := Option.ite_none_left_eq_some.mp hstep
  cases a with
  | bget p dev blockno =>
      obtain ⟨hp, hstep⟩ := Option.ite_none_right_eq_some.mp hstep
      obtain ⟨g, hg, hstep⟩ := Option.bind_eq_some_iff.mp hstep
      obtain ⟨l, used, horder, -⟩ := h.order
      obtain ⟨g', hg', hgot⟩ := horder.bget dev blockno
      obtain rfl := Option.some.inj (hg.symm.trans hg')
      cases hgot with
      | hit b hlabel hfirst =>
          cases hstep
          exact ⟨h.bget hp hg, .hit p b hp hlabel⟩
      | recycled b hfree hnone =>
          cases hstep
          exact ⟨h.bget hp hg, .recycled p b hp hfree dev blockno⟩
      | full hbusy =>
          cases hstep
          exact ⟨⟨h.order, h.refs⟩, .full p dev blockno⟩
  | acquiresleep p =>
      simp only at hstep
      split at hstep
      next b hp =>
        obtain ⟨hlock, ⟨⟩⟩ := Option.ite_none_right_eq_some.mp hstep
        exact ⟨h.acquiresleep hp hlock, .acquiresleep p b hp hlock⟩
      next => cases hstep
  | releasesleep p b =>
      obtain ⟨⟨hp, hlock⟩, ⟨⟩⟩ := Option.ite_none_right_eq_some.mp hstep
      exact ⟨h.releasesleep hp hlock, .releasesleep p b hp hlock⟩
  | unref p =>
      simp only at hstep
      split at hstep
      next b hp =>
        cases hstep
        exact ⟨h.unref hp, .unref p b hp⟩
      next => cases hstep
  | bpin p b =>
      obtain ⟨⟨-, hlock⟩, ⟨⟩⟩ := Option.ite_none_right_eq_some.mp hstep
      exact ⟨h.pin hlock, .bpin p b hlock⟩
  | bunpin p b =>
      obtain ⟨⟨-, hlock, hpins⟩, ⟨⟩⟩ := Option.ite_none_right_eq_some.mp hstep
      exact ⟨h.unpin hlock hpins, .bunpin p b hlock hpins⟩

/-! ### What the invariant says -/

/-- What a buffer shows of the disk. -/
def Buf.content (r : Buf P D) : (ℕ × ℕ) × Bool × D := (r.label, r.valid, r.data)

theorem content_setBuf (hr : r.content = (c.buf b).content) (b' : Fin nbuf) :
    ((c.setBuf b r).buf b').content = (c.buf b').content := by
  rw [buf_setBuf]
  split_ifs with hb
  · rw [hb, hr]
  · rfl

theorem content_unref (b b' : Fin nbuf) : ((unref c b).buf b').content = (c.buf b').content := by
  unfold unref
  simp only
  split_ifs
  · exact content_setBuf (r := { c.buf b with refcnt := (c.buf b).refcnt - 1 }) rfl b'
  · exact content_setBuf (r := { c.buf b with refcnt := (c.buf b).refcnt - 1 }) rfl b'

/-- Contents change only when `bget` recycles a buffer that nobody refers to,
which then has none. -/
theorem Effect.content (h : Effect s a t) (b : Fin nbuf) :
    (t.buf b).content = (s.buf b).content ∨ (s.buf b).refcnt = 0 ∧ (t.buf b).valid = false := by
  cases h with
  | hit p a hp hlabel =>
      exact .inl (content_setBuf (r := { s.buf a with refcnt := (s.buf a).refcnt + 1 }) rfl b)
  | recycled p a hp hfree dev blockno =>
      by_cases hb : b = a
      · subst hb
        refine .inr ⟨hfree, ?_⟩
        change ((s.cache.setBuf b _).buf b).valid = false
        rw [buf_setBuf, if_pos rfl]
      · left
        change ((s.cache.setBuf a _).buf b).content = _
        rw [buf_setBuf, if_neg hb]
  | full p dev blockno => exact .inl rfl
  | acquiresleep p a hp hlock =>
      exact .inl (content_setBuf (r := { s.buf a with lock := some p }) rfl b)
  | releasesleep p a hp hlock =>
      exact .inl (content_setBuf (r := { s.buf a with lock := none }) rfl b)
  | unref p a hp => exact .inl (content_unref a b)
  | bpin p a hlock =>
      exact .inl (content_setBuf (r := { s.buf a with refcnt := (s.buf a).refcnt + 1 }) rfl b)
  | bunpin p a hlock hpins =>
      exact .inl (content_setBuf (r := { s.buf a with refcnt := (s.buf a).refcnt - 1 }) rfl b)

/-- The process that takes the step. -/
def Act.proc : Act P → P
  | .bget p _ _ | .acquiresleep p | .releasesleep p _ | .unref p | .bpin p _ | .bunpin p _ => p

theorem Effect.pc (h : Effect s a t) {q : P} (hq : q ≠ a.proc) : t.pc q = s.pc q := by
  cases h <;> first | rfl | exact Function.update_of_ne hq ..

theorem lock_setBuf (hr : r.lock = (c.buf b).lock) (b' : Fin nbuf) :
    ((c.setBuf b r).buf b').lock = (c.buf b').lock := by
  rw [buf_setBuf]
  split_ifs with hb
  · rw [hb, hr]
  · rfl

theorem lock_setLock (o : Option P) (b' : Fin nbuf) :
    ((setLock c b o).buf b').lock = if b' = b then o else (c.buf b').lock := by
  unfold setLock
  simp only [buf_setBuf]
  split_ifs <;> rfl

theorem lock_unref (b b' : Fin nbuf) : ((unref c b).buf b').lock = (c.buf b').lock := by
  unfold unref
  simp only
  split_ifs
  · exact lock_setBuf (r := { c.buf b with refcnt := (c.buf b).refcnt - 1 }) rfl b'
  · exact lock_setBuf (r := { c.buf b with refcnt := (c.buf b).refcnt - 1 }) rfl b'

/-- The lock of a buffer stays, or is taken or given back by the process. -/
theorem Effect.lock (h : Effect s a t) (b : Fin nbuf) : (t.buf b).lock = (s.buf b).lock ∨
      (a = .acquiresleep a.proc ∧ s.pc a.proc = .waiting b ∧ (s.buf b).lock = none ∧
        (t.buf b).lock = some a.proc) ∨
      (a = .releasesleep a.proc b ∧ (s.buf b).lock = some a.proc ∧ (t.buf b).lock = none) := by
  cases h with
  | hit p a hp hlabel =>
      exact .inl (lock_setBuf (r := { s.buf a with refcnt := (s.buf a).refcnt + 1 }) rfl b)
  | recycled p a hp hfree dev blockno => exact .inl (lock_setBuf (r :=
      { s.buf a with dev := dev, blockno := blockno, valid := false, refcnt := 1 }) rfl b)
  | full p dev blockno => exact .inl rfl
  | acquiresleep p a hp hlock =>
      have := lock_setLock (c := s.cache) (b := a) (some p) b
      split_ifs at this with hb
      · subst hb
        exact .inr (.inl ⟨rfl, hp, hlock, this⟩)
      · exact .inl this
  | releasesleep p a hp hlock =>
      have := lock_setLock (c := s.cache) (b := a) none b
      split_ifs at this with hb
      · subst hb
        exact .inr (.inr ⟨rfl, hlock, this⟩)
      · exact .inl this
  | unref p a hp => exact .inl (lock_unref a b)
  | bpin p a hlock =>
      exact .inl (lock_setBuf (r := { s.buf a with refcnt := (s.buf a).refcnt + 1 }) rfl b)
  | bunpin p a hlock hpins =>
      exact .inl (lock_setBuf (r := { s.buf a with refcnt := (s.buf a).refcnt - 1 }) rfl b)

/-- Pins are only taken off by `bunpin`. -/
theorem Effect.pins_le (h : Effect s a t) (ha : a ≠ .bunpin a.proc b) : s.pins b ≤ t.pins b := by
  cases h with
  | bpin p a hlock =>
      change s.pins b ≤ Function.update s.pins a (s.pins a + 1) b
      rw [Function.update_apply]
      split_ifs with hb
      · rw [hb]
        exact Nat.le_succ _
      · exact le_rfl
  | bunpin p a hlock hpins =>
      change s.pins b ≤ Function.update s.pins a (s.pins a - 1) b
      rw [Function.update_of_ne]
      rintro rfl
      exact ha rfl
  | _ => exact le_rfl

/-- The buffer that `bget` waits for. -/
theorem Effect.waiting (h : Effect s (.bget p dev blockno) t) (ht : t.panicked = false) :
    ∃ b, t.pc p = .waiting b ∧ (t.buf b).label = (dev, blockno) := by
  cases h with
  | hit _ b hp hlabel =>
      refine ⟨b, Function.update_self .., ?_⟩
      change ((s.cache.setBuf b _).buf b).label = _
      rw [buf_setBuf, if_pos rfl]
      exact hlabel
  | recycled _ b hp hfree =>
      refine ⟨b, Function.update_self .., ?_⟩
      change ((s.cache.setBuf b _).buf b).label = _
      rw [buf_setBuf, if_pos rfl]
      rfl
  | full => cases ht

/-- A block is in one buffer at most of those that are referred to or have
contents. -/
theorem Inv.label_inj (h : Inv s) {a : Fin nbuf}
    (ha : (s.buf a).refcnt ≠ 0 ∨ (s.buf a).valid = true)
    (hb : (s.buf b).refcnt ≠ 0 ∨ (s.buf b).valid = true)
    (hlabel : (s.buf a).label = (s.buf b).label) : a = b := by
  obtain ⟨l, used, -, hlabels⟩ := h.order
  have hused : ∀ {c}, (s.buf c).refcnt ≠ 0 ∨ (s.buf c).valid = true → c ∈ used := by
    intro c hc
    by_contra hu
    obtain ⟨-, hzero, hinvalid⟩ := hlabels.fresh c hu
    rcases hc with hc | hc
    · exact hc hzero
    · rw [hinvalid] at hc
      cases hc
  exact hlabels.distinct a (hused ha) b (hused hb) hlabel

/-- The contents of a buffer that is referred to may change. -/
theorem Inv.setContents (h : Inv s) (hb : (s.buf b).refcnt ≠ 0) (valid : Bool) (data : D) :
    Inv { s with cache := s.cache.setBuf b { s.buf b with valid := valid, data := data } } := by
  obtain ⟨l, used, horder, hlabels⟩ := h.order
  have hlabels' := hlabels.setBuf (hlabels.mem_used hb)
    (r := { s.buf b with valid := valid, data := data }) rfl
  refine ⟨⟨l, used, horder.setBuf _, hlabels'⟩, fun a => ?_⟩
  change Counted s.pc a ((s.cache.setBuf b _).buf a) (s.pins a)
  rw [buf_setBuf]
  split_ifs with ha
  · subst ha
    exact h.refs a
  · exact h.refs a

/-- What holds of the cache in a state. -/
structure Sound (s : State P D) : Prop where
  /-- Following `next` from the head visits every buffer once and returns to
  the head, and following `prev` does so in the other direction. -/
  linked : ∃ l : List (Fin nbuf), l.Nodup ∧ (∀ b, b ∈ l) ∧
    Chain s.cache.next s.cache.prev none (l.map some) none
  refcnt : ∀ b, ∃ others : Finset P,
    (∀ p, p ∈ others ↔ s.pc p = .waiting b ∨ s.pc p = .releasing b) ∧
      (s.buf b).refcnt = others.card + (if (s.buf b).lock = none then 0 else 1) + s.pins b
  unique : ∀ a b, 0 < (s.buf a).refcnt → 0 < (s.buf b).refcnt →
    (s.buf a).dev = (s.buf b).dev → (s.buf a).blockno = (s.buf b).blockno → a = b
  relabel : ∀ a t b, step s a = some t →
    (t.buf b).dev ≠ (s.buf b).dev ∨ (t.buf b).blockno ≠ (s.buf b).blockno →
    (s.buf b).lock = none ∧ (∀ p, s.pc p ≠ .waiting b ∧ s.pc p ≠ .releasing b) ∧ s.pins b = 0

theorem refers_iff {x : Pc} : x.Refers b ↔ x = .waiting b ∨ x = .releasing b := by
  cases x <;> simp [Pc.Refers]

theorem Inv.sound (h : Inv s) : Sound s := by
  obtain ⟨l, used, horder, hlabels⟩ := h.order
  refine ⟨⟨l, horder.nodup, horder.all, horder.circle.chain⟩, fun b => ?_,
    fun a b ha hb hdev hblockno => h.label_inj (.inl (Nat.ne_of_gt ha)) (.inl (Nat.ne_of_gt hb))
      (Prod.ext hdev hblockno), fun a t b hstep hne => ?_⟩
  · obtain ⟨n, ⟨F, hF, rfl⟩, hcount⟩ := h.refs b
    exact ⟨F, fun p => (hF p).trans refers_iff, hcount⟩
  · have hzero : (s.buf b).refcnt = 0 := by
      rcases (h.step hstep).2.content b with he | ⟨hzero, -⟩
      · obtain ⟨hd, hn⟩ := Prod.mk.inj (Prod.mk.inj he).1
        exact (hne.elim (· hd) (· hn)).elim
      · exact hzero
    have hno : ∀ {p}, ¬((s.pc p).Refers b ∨ (s.buf b).lock ≠ none ∨ 0 < s.pins b) :=
      fun hr => (h.refs b).ne_zero hr hzero
    refine ⟨?_, fun p => ?_, ?_⟩
    · by_contra hlock
      obtain ⟨n, hn, hcount⟩ := h.refs b
      rw [Buf.held, if_neg hlock] at hcount
      omega
    · have := hno (p := p)
      rw [not_or, refers_iff, not_or] at this
      exact this.1
    · obtain ⟨n, hn, hcount⟩ := h.refs b
      omega

/-- **The buffer cache.** In every run from `binit` the buffers are linked in
a circle, every reference count is the number of processes that hold or
wait for the buffer plus its pins, no block is in two buffers that are
referred to, and no buffer that is referred to is relabelled. -/
theorem bcache_sound {data : D} {acts : List (Act P)} (hrun : run step (init data) acts = some s) :
    Sound s :=
  (invariant' (fun h hstep => (h.step hstep).1) (inv_init data) hrun).sound

/-- A block is read, pinned and released by one process while another waits
for it. -/
theorem bcache_sound_two : ∃ s : State Bool Unit,
    run step (init ()) [.bget true 0 5, .acquiresleep true, .bget false 0 5, .bpin true 0,
      .releasesleep true 0, .unref true, .acquiresleep false] = some s ∧ Sound s := by
  have hrun := (Option.some_get (by decide +kernel : Option.isSome (run step
    (init () : State Bool Unit) [.bget true 0 5, .acquiresleep true, .bget false 0 5, .bpin true 0,
      .releasesleep true 0, .unref true, .acquiresleep false]) = true)).symm
  exact ⟨_, hrun, bcache_sound hrun⟩

end Xv6.Bio
