import Xv6.Bio.Invariant
import Xv6.Lib.Prog
import Xv6.Log.Disk

/-!
Recovery through the buffer cache (`initlog` of `kernel/log.c`).

When the kernel boots, `initlog` copies the blocks of a committed
transaction from the log to their homes. A single process runs, so a
buffer that is locked would never be given back, and the functions are
sequential programs. Here `refcnt` is the `uint` that it is in the source:
`install_trans` is written for `commit`, where `log_write` has pinned the
home blocks, and unpins them in recovery as well.
-/

namespace Xv6.Recovery

open Lib Prog Bio

/-! ### The model -/

/-- The cache, and the blocks of the disk `dev`. -/
structure Boot where
  cache : Bcache Unit Log.Block
  disk : ℕ → Log.Block

abbrev BootProg : Type → Type := Prog String Boot

/-- The count of `b`, as a `uint`. -/
def setRefcnt (c : Bcache Unit Log.Block) (b : Fin nbuf) (n : ℕ) : Bcache Unit Log.Block :=
  let r := c.buf b
  c.setBuf b { r with refcnt := n % 2 ^ 32 }

/-- One less, as a `uint`. -/
@[irreducible] def dec (n : ℕ) : ℕ := (n + (2 ^ 32 - 1)) % 2 ^ 32

/-- `b->refcnt--` -/
def decRefcnt (c : Bcache Unit Log.Block) (b : Fin nbuf) : Bcache Unit Log.Block :=
  let r := c.buf b
  c.setBuf b { r with refcnt := dec r.refcnt }

def setData (c : Bcache Unit Log.Block) (b : Fin nbuf) (data : Log.Block) :
    Bcache Unit Log.Block :=
  let r := c.buf b
  c.setBuf b { r with data := data, valid := true }

def bread (dev blockno : ℕ) : BootProg (Fin nbuf) := fun s =>
  match bget s.cache dev blockno with
  | none => .stuck
  | some none => .fault "bget: no buffers"
  | some (some (b, c)) =>
      let c := setRefcnt c b (c.buf b).refcnt
      if (c.buf b).lock = none then
        let c := setLock c b (some ())
        let c := if (c.buf b).valid then c else setData c b (s.disk blockno)
        .ok b { s with cache := c }
      else .stuck

def bwrite (b : Fin nbuf) : BootProg Unit := fun s =>
  if (s.cache.buf b).lock = some () then
    .ok () { s with disk :=
      Function.update s.disk (s.cache.buf b).blockno (s.cache.buf b).data }
  else .fault "bwrite"

def brelse (b : Fin nbuf) : BootProg Unit := fun s =>
  if (s.cache.buf b).lock = some () then
    let c := setLock s.cache b none
    let c := decRefcnt c b
    let c := if (c.buf b).refcnt = 0 then (c.unlink b).linkFront b else c
    .ok () { s with cache := c }
  else .fault "brelse"

def unpin (b : Fin nbuf) : BootProg Unit := modify fun s =>
  { s with cache := decRefcnt s.cache b }

def store (b : Fin nbuf) (data : Log.Block) : BootProg Unit := modify fun s =>
  { s with cache := setData s.cache b data }

/-- `install_trans`, from `tail` on. -/
def installTrans (dev start : ℕ) : ℕ → List ℕ → BootProg Unit
  | _, [] => return
  | tail, block :: lh => do
      let lbuf ← bread dev (start + tail + 1)
      let dbuf ← bread dev block
      let s ← get
      store dbuf (s.cache.buf lbuf).data
      bwrite dbuf
      unpin dbuf
      brelse lbuf
      brelse dbuf
      installTrans dev start (tail + 1) lh

def readHead (dev start : ℕ) : BootProg (List ℕ) := do
  let buf ← bread dev start
  let s ← get
  let lh := Log.loadHead (s.cache.buf buf).data
  brelse buf
  return lh

def writeHead (dev start : ℕ) (lh : List ℕ) : BootProg Unit := do
  let buf ← bread dev start
  let s ← get
  store buf (Log.storeHead lh (s.cache.buf buf).data)
  bwrite buf
  brelse buf

def recoverFromLog (dev start : ℕ) : BootProg Unit := do
  let lh ← readHead dev start
  installTrans dev start 0 lh
  writeHead dev start []

/-- The fields of `struct superblock` that are read here, by their words. -/
def readsb (dev : ℕ) : BootProg Log.Block := do
  let bp ← bread dev 1
  let s ← get
  let sb := (s.cache.buf bp).data
  brelse bp
  return sb

def fsMagic : Log.Word := 0x10203040

def magic (sb : Log.Block) : Log.Word := sb 0

def nlog (sb : Log.Block) : ℕ := (sb 4).toNat

def logstart (sb : Log.Block) : ℕ := (sb 5).toNat

def initlog (dev : ℕ) (sb : Log.Block) : BootProg Unit := recoverFromLog dev (logstart sb)

def fsinit (dev : ℕ) : BootProg Unit := do
  let sb ← readsb dev
  if magic sb ≠ fsMagic then fault "invalid file system"
  else initlog dev sb

/-! ### Counts, locks and labels -/

/-- What the buffers are for, with their counts and locks. -/
structure Shape (c : Bcache Unit Log.Block) (count : Fin nbuf → ℕ) (held : Fin nbuf → Option Unit)
    (label : Fin nbuf → ℕ × ℕ) : Prop where
  order : ∃ l, Order c l
  count : ∀ b, (c.buf b).refcnt = count b
  held : ∀ b, (c.buf b).lock = held b
  label : ∀ b, (c.buf b).label = label b

variable {s : Boot} {count : Fin nbuf → ℕ} {held : Fin nbuf → Option Unit}
  {label : Fin nbuf → ℕ × ℕ} {b : Fin nbuf} {dev start blockno : ℕ} {lh : List ℕ}
  {F : String → Prop}

theorem Shape.setBuf {c : Bcache Unit Log.Block} {r : Buf Unit Log.Block} {n : ℕ}
    {o : Option Unit} {x : ℕ × ℕ} (h : Shape c count held label) (hcount : r.refcnt = n)
    (hlock : r.lock = o) (hlabel : r.label = x) :
    Shape (c.setBuf b r) (Function.update count b n) (Function.update held b o)
      (Function.update label b x) := by
  subst hcount hlock hlabel
  obtain ⟨l, hl⟩ := h.order
  refine ⟨⟨l, hl.setBuf r⟩, fun a => ?_, fun a => ?_, fun a => ?_⟩
  all_goals
    by_cases ha : a = b
    · subst ha
      simp [buf_setBuf]
    · simp [buf_setBuf, ha, h.count, h.held, h.label]

theorem setBuf_setBuf (c : Bcache Unit Log.Block) (r r' : Buf Unit Log.Block) :
    (c.setBuf b r).setBuf b r' = c.setBuf b r' := by
  simp [Bcache.setBuf]

/-- The buffer that `bget` returns when nobody uses the block; it panics
when every buffer is in use. -/
theorem Shape.bget {c : Bcache Unit Log.Block} (h : Shape c count held label)
    (hhit : ∀ a, label a = (dev, blockno) → count a = 0) :
    (Bio.bget c dev blockno = some none ∧ ∀ a, count a ≠ 0) ∨
    ∃ b r, Bio.bget c dev blockno = some (some (b, c.setBuf b r)) ∧ count b = 0 ∧ r.refcnt = 1 ∧
      r.lock = held b ∧ r.label = (dev, blockno) ∧ (r.valid = true →
        (c.buf b).valid = true ∧ (c.buf b).label = (dev, blockno) ∧ r.data = (c.buf b).data) := by
  obtain ⟨l, hl⟩ := h.order
  obtain ⟨res, hres, hgot⟩ := hl.bget dev blockno
  cases hgot with
  | hit b hlabel _ =>
      have hzero := hhit b ((h.label b).symm.trans hlabel)
      have hcount := h.count b
      exact .inr ⟨b, _, hres, hzero, by simp only; omega, h.held b, hlabel,
        fun hv => ⟨hv, hlabel, rfl⟩⟩
  | recycled b hzero _ =>
      exact .inr ⟨b, _, hres, (h.count b).symm.trans hzero, rfl, h.held b, rfl,
        fun hv => by cases hv⟩
  | full hbusy => exact .inl ⟨hres, fun a ha => hbusy a ((h.count a).trans ha)⟩

/-- The buffers of `dev` with data have the data of the disk. -/
def Coherent (dev : ℕ) (s : Boot) : Prop :=
  ∀ a blockno, (s.cache.buf a).valid = true → (s.cache.buf a).label = (dev, blockno) →
    (s.cache.buf a).data = s.disk blockno

theorem Shape.bread (h : Shape s.cache count held label)
    (hhit : ∀ a, label a = (dev, blockno) → count a = 0)
    (hfull : (∀ a, count a ≠ 0) → F "bget: no buffers") (hfree : ∀ a, count a = 0 → held a = none) :
    twp F (bread dev blockno) (fun b t => count b = 0 ∧ t.disk = s.disk ∧
      Shape t.cache (Function.update count b 1) (Function.update held b (some ()))
        (Function.update label b (dev, blockno)) ∧
      (Coherent dev s → Coherent dev t ∧ (t.cache.buf b).data = s.disk blockno)) s := by
  obtain ⟨hget, hall⟩ | ⟨b, r, hget, hzero, hcount, hlock, hlabel, hvalid⟩ := h.bget hhit
  · simpa only [twp, Recovery.bread, hget] using hfull hall
  rw [hfree b hzero] at hlock
  let got : Buf Unit Log.Block :=
    { r with
      lock := some ()
      refcnt := r.refcnt % 2 ^ 32
      data := if r.valid then r.data else s.disk blockno
      valid := true }
  have hread : Recovery.bread dev blockno s = .ok b ⟨s.cache.setBuf b got, s.disk⟩ := by
    simp only [Recovery.bread, hget, setRefcnt, setLock, Recovery.setData, setBuf_setBuf, buf_setBuf,
      if_true, hlock, got]
    cases r.valid <;> rfl
  refine twp_of_eq hread ⟨hzero, rfl, ?_, fun hall => ?_⟩
  · exact h.setBuf (congrArg (· % 2 ^ 32) hcount) rfl hlabel
  · have hdata : got.data = s.disk blockno := by
      cases hv : r.valid with
      | true =>
          obtain ⟨hbv, hbl, hbd⟩ := hvalid hv
          simp only [got, hv, if_true, hbd, hall b blockno hbv hbl]
      | false => simp only [got, hv, Bool.false_eq_true, if_false]
    refine ⟨fun a blockno' hv hl => ?_, by simpa [buf_setBuf] using hdata⟩
    by_cases ha : a = b
    · simp only [buf_setBuf, ha, if_true] at hl ⊢
      rw [hdata, show blockno = blockno' from congrArg Prod.snd (hlabel.symm.trans hl)]
    · simp only [buf_setBuf, ha, if_false] at hv hl ⊢
      exact hall a blockno' hv hl

/-- `brelse` gives the lock back and takes one off the count; the count of
an unpinned buffer wraps round. -/
theorem Shape.brelse (h : Shape s.cache count held label) (hheld : held b = some ()) :
    twp F (brelse b) (fun _ t => t.disk = s.disk ∧
      Shape t.cache (Function.update count b (dec (count b))) (Function.update held b none) label ∧
      ∀ dev, Coherent dev s → Coherent dev t) s := by
  have hlock : (s.cache.buf b).lock = some () := (h.held b).trans hheld
  let r : Buf Unit Log.Block :=
    { s.cache.buf b with lock := none, refcnt := dec (s.cache.buf b).refcnt }
  have hshape : Shape (s.cache.setBuf b r) (Function.update count b (dec (count b)))
      (Function.update held b none) label := by
    have hlabel : ((s.cache.buf b).dev, (s.cache.buf b).blockno) = label b := h.label b
    have hset := h.setBuf (b := b) (r := r) (congrArg dec (h.count b)) rfl hlabel
    rwa [Function.update_eq_self] at hset
  let c := if r.refcnt = 0 then ((s.cache.setBuf b r).unlink b).linkFront b else s.cache.setBuf b r
  have hrelse : Recovery.brelse b s = .ok () ⟨c, s.disk⟩ := by
    simp only [Recovery.brelse, hlock, if_true, setLock, decRefcnt, setBuf_setBuf, buf_setBuf, r, c]
  have hbuf : c.buf = (s.cache.setBuf b r).buf := by
    simp only [c]
    split <;> rfl
  refine twp_of_eq hrelse ⟨rfl, ?_, fun dev hall a blockno hv hl => ?_⟩
  · refine ⟨?_, fun a => ?_, fun a => ?_, fun a => ?_⟩
    · obtain ⟨l, hl⟩ := hshape.order
      simp only [c]
      split
      · exact ⟨_, hl.front b⟩
      · exact ⟨l, hl⟩
    · exact hbuf ▸ hshape.count a
    · exact hbuf ▸ hshape.held a
    · exact hbuf ▸ hshape.label a
  · simp only [hbuf, buf_setBuf] at hv hl ⊢
    by_cases ha : a = b
    · simp only [ha, if_true, r] at hv hl ⊢
      have hl' : ((s.cache.buf b).dev, (s.cache.buf b).blockno) = (dev, blockno) := hl
      exact hall b blockno hv hl'
    · simp only [ha, if_false] at hv hl ⊢
      exact hall a blockno hv hl

/-- Stores into the data of a buffer do not matter here. -/
theorem Shape.setData (h : Shape s.cache count held label) (data : Log.Block) :
    Shape (setData s.cache b data) count held label := by
  have hset := h.setBuf (b := b) (r := { s.cache.buf b with data := data, valid := true })
    (h.count b) (h.held b) (h.label b)
  rwa [Function.update_eq_self, Function.update_eq_self, Function.update_eq_self] at hset

theorem Shape.unpin (h : Shape s.cache count held label) :
    Shape (decRefcnt s.cache b) (Function.update count b (dec (count b))) held label := by
  have hlabel : ((s.cache.buf b).dev, (s.cache.buf b).blockno) = label b := h.label b
  have hset := h.setBuf (b := b)
    (r := { s.cache.buf b with refcnt := dec (s.cache.buf b).refcnt })
    (congrArg dec (h.count b)) (h.held b) hlabel
  rwa [Function.update_eq_self, Function.update_eq_self] at hset

theorem Shape.bwrite (h : Shape s.cache count held label) (hheld : held b = some ()) :
    twp F (bwrite b) (fun _ t => t.cache = s.cache) s := by
  have hlock : (s.cache.buf b).lock = some () := (h.held b).trans hheld
  exact twp_of_eq (if_pos hlock) rfl

/-! ### Recovery -/

theorem dec_one : dec 1 = 0 := by
  unfold dec
  omega

theorem dec_zero : dec 0 = 2 ^ 32 - 1 := by
  unfold dec
  omega

/-- No buffer is locked, and those with a count are the ones of the blocks
in `done`, whose count has wrapped round. -/
structure Stuck (dev : ℕ) (done : List ℕ) (count : Fin nbuf → ℕ) (label : Fin nbuf → ℕ × ℕ) :
    Prop where
  card : (Finset.univ.filter fun a => count a ≠ 0).card = done.length
  home : ∀ a, count a ≠ 0 → ∃ block ∈ done, label a = (dev, block)
  wrapped : ∀ block ∈ done, ∃ a, count a = 2 ^ 32 - 1 ∧ label a = (dev, block)

def Idle (dev : ℕ) (done : List ℕ) (c : Bcache Unit Log.Block) : Prop :=
  ∃ count label, Shape c count (fun _ => none) label ∧ Stuck dev done count label

theorem idle_binit (data : Log.Block) : Idle dev [] (binit data) := by
  refine ⟨fun _ => 0, fun _ => (0, 0), ⟨⟨_, order_binit data⟩, ?_, ?_, ?_⟩, by simp, ?_, ?_⟩
  · exact fun a => by rw [buf_binit]; rfl
  · exact fun a => by rw [buf_binit]; rfl
  · exact fun a => by rw [buf_binit]; rfl
  · exact fun a ha => absurd rfl ha
  · exact fun block hblock => absurd hblock List.not_mem_nil

variable {done : List ℕ}

/-- One round: the buffer of the home block is unpinned once too often. -/
theorem Stuck.install {a : Fin nbuf} {x : ℕ × ℕ} (h : Stuck dev done count label)
    (ha : count a = 0) (hb : count b = 0) :
    Stuck dev (done ++ [blockno]) (Function.update count b (2 ^ 32 - 1))
      (Function.update (Function.update label a x) b (dev, blockno)) where
  card := by
    have hfilter : (Finset.univ.filter fun c => Function.update count b (2 ^ 32 - 1) c ≠ 0) =
        insert b (Finset.univ.filter fun c => count c ≠ 0) := by
      ext c
      by_cases hc : c = b
      · simp [hc]
      · simp [hc]
    rw [hfilter, Finset.card_insert_of_notMem (by simp [hb]), h.card]
    simp
  home := by
    intro c hc
    by_cases hcb : c = b
    · exact ⟨blockno, by simp, by simp [hcb]⟩
    · rw [Function.update_of_ne hcb] at hc
      obtain ⟨block, hblock, hl⟩ := h.home c hc
      have hca : c ≠ a := fun hca => hc (hca ▸ ha)
      exact ⟨block, by simp [hblock], by rw [Function.update_of_ne hcb, Function.update_of_ne hca, hl]⟩
  wrapped := by
    intro block hblock
    rcases List.mem_append.mp hblock with hblock | hblock
    · obtain ⟨c, hc, hl⟩ := h.wrapped block hblock
      have hca : c ≠ a := fun hca => by rw [hca, ha] at hc; cases hc
      have hcb : c ≠ b := fun hcb => by rw [hcb, hb] at hc; cases hc
      exact ⟨c, by rw [Function.update_of_ne hcb, hc],
        by rw [Function.update_of_ne hcb, Function.update_of_ne hca, hl]⟩
    · rw [List.mem_singleton.mp hblock]
      exact ⟨b, by simp, by simp⟩

/-- A block that is read and given back leaves its mark only in the labels. -/
theorem Stuck.touch {a : Fin nbuf} {x : ℕ × ℕ} (h : Stuck dev done count label)
    (ha : count a = 0) : Stuck dev done count (Function.update label a x) where
  card := h.card
  home := by
    intro c hc
    have hca : c ≠ a := fun hca => hc (hca ▸ ha)
    rw [Function.update_of_ne hca]
    exact h.home c hc
  wrapped := by
    intro block hblock
    obtain ⟨c, hc, hl⟩ := h.wrapped block hblock
    have hca : c ≠ a := fun hca => by rw [hca, ha] at hc; cases hc
    exact ⟨c, hc, by rw [Function.update_of_ne hca, hl]⟩

/-- Nobody uses a block that has not been installed. -/
theorem Stuck.hit (h : Stuck dev done count label) (hblock : blockno ∉ done) (a : Fin nbuf)
    (hl : label a = (dev, blockno)) : count a = 0 := by
  by_contra ha
  obtain ⟨block, hmem, hl'⟩ := h.home a ha
  have heq : block = blockno := congrArg Prod.snd (hl'.symm.trans hl)
  exact hblock (heq ▸ hmem)

/-- There is an unused buffer beside `a` unless the cache is full. -/
theorem Stuck.full {S : Finset (Fin nbuf)} (h : Stuck dev done count label)
    (hall : ∀ c, c ∉ S → count c ≠ 0) : nbuf ≤ done.length + S.card := by
  have hsub : (Finset.univ : Finset (Fin nbuf)) ⊆ (Finset.univ.filter fun c => count c ≠ 0) ∪ S := by
    intro c _
    by_cases hc : c ∈ S
    · exact Finset.mem_union_right _ hc
    · exact Finset.mem_union_left _ (by simp [hall c hc])
  have hcard := (Finset.card_le_card hsub).trans (Finset.card_union_le _ _)
  rwa [h.card, Finset.card_univ, Fintype.card_fin] at hcard

/-- One buffer is in use besides. -/
def Using (dev : ℕ) (done : List ℕ) (b : Fin nbuf) (c : Bcache Unit Log.Block) : Prop :=
  ∃ count label, count b = 0 ∧ Stuck dev done count label ∧
    Shape c (Function.update count b 1) (Function.update (fun _ => none) b (some ())) label

theorem Idle.bread (h : Idle dev done s.cache) (hblock : blockno ∉ done)
    (hfull : nbuf ≤ done.length → F "bget: no buffers") :
    twp F (bread dev blockno) (fun b t => Using dev done b t.cache ∧ t.disk = s.disk ∧
      (Coherent dev s → Coherent dev t ∧ (t.cache.buf b).data = s.disk blockno)) s := by
  obtain ⟨count, label, hshape, hstuck⟩ := h
  refine twp_mono (hshape.bread (hstuck.hit hblock) (fun hall => hfull ?_) fun _ _ => rfl) ?_
  · simpa using hstuck.full (S := ∅) fun c _ => hall c
  · rintro b t ⟨hzero, hdisk, hshape', hdata⟩
    exact ⟨⟨count, _, hzero, hstuck.touch hzero, hshape'⟩, hdisk, hdata⟩

theorem Using.brelse (h : Using dev done b s.cache) :
    twp F (brelse b) (fun _ t => Idle dev done t.cache ∧ t.disk = s.disk ∧
      (Coherent dev s → Coherent dev t)) s := by
  obtain ⟨count, label, hzero, hstuck, hshape⟩ := h
  refine twp_mono (hshape.brelse (Function.update_self b _ _)) ?_
  rintro _ t ⟨hdisk, hshape', hcoh⟩
  refine ⟨⟨count, label, ?_, hstuck⟩, hdisk, hcoh dev⟩
  rw [Function.update_self, Function.update_idem, Function.update_idem, dec_one, ← hzero,
    Function.update_eq_self, Function.update_eq_self] at hshape'
  exact hshape'

theorem Idle.readHead (h : Idle dev done s.cache) (hcoh : Coherent dev s)
    (hblock : start ∉ done) (hfull : nbuf ≤ done.length → F "bget: no buffers") :
    twp F (readHead dev start) (fun lh t => lh = Log.loadHead (s.disk start) ∧ Idle dev done t.cache)
      s := by
  refine twp_bind.mpr (twp_mono (h.bread hblock hfull) ?_)
  rintro b t ⟨husing, _, hdata⟩
  refine twp_bind.mpr (twp_get.mpr (twp_bind.mpr (twp_mono (husing.brelse) ?_)))
  rintro _ u ⟨hidle, _, _⟩
  exact ⟨congrArg Log.loadHead (hdata hcoh).2, hidle⟩

theorem Idle.writeHead (h : Idle dev done s.cache) (hblock : start ∉ done)
    (hfull : nbuf ≤ done.length → F "bget: no buffers") :
    twp F (writeHead dev start lh) (fun _ t => Idle dev done t.cache) s := by
  refine twp_bind.mpr (twp_mono (h.bread hblock hfull) ?_)
  rintro b t ⟨⟨count, label, hzero, hstuck, hshape⟩, _, _⟩
  refine twp_bind.mpr (twp_get.mpr (twp_bind.mpr (twp_modify.mpr (twp_bind.mpr ?_))))
  refine twp_mono ((hshape.setData _).bwrite (Function.update_self b _ _)) ?_
  intro _ u hcache
  have husing : Using dev done b u.cache := ⟨count, label, hzero, hstuck, hcache ▸ hshape.setData _⟩
  exact twp_mono husing.brelse fun _ _ hidle => hidle.1

/-- One round of `install_trans`. -/
theorem Idle.round {tail : ℕ} {rest : BootProg Unit} {Q : Unit → Boot → Prop}
    (h : Idle dev done s.cache) (hblock : blockno ∉ done) (hlog : start + tail + 1 ∉ done)
    (hne : blockno ≠ start + tail + 1) (hfull : nbuf ≤ done.length + 1 → F "bget: no buffers")
    (hrest : ∀ t, Idle dev (done ++ [blockno]) t.cache → twp F rest Q t) :
    twp F (do
      let lbuf ← Recovery.bread dev (start + tail + 1)
      let dbuf ← Recovery.bread dev blockno
      let s ← get
      store dbuf (s.cache.buf lbuf).data
      Recovery.bwrite dbuf
      Recovery.unpin dbuf
      Recovery.brelse lbuf
      Recovery.brelse dbuf
      rest) Q s := by
  obtain ⟨count, label, hshape, hstuck⟩ := h
  refine twp_bind.mpr (twp_mono (hshape.bread (hstuck.hit hlog) (fun hall => hfull ?_)
    fun _ _ => rfl) ?_)
  · have := hstuck.full (S := ∅) fun c _ => hall c
    rw [Finset.card_empty] at this
    omega
  rintro a t ⟨ha, _, hshape, _⟩
  refine twp_bind.mpr (twp_mono (hshape.bread (fun c hc => ?_) (fun hall => hfull ?_)
    fun c hc => ?_) ?_)
  · have hca : c ≠ a := by
      rintro rfl
      rw [Function.update_self] at hc
      exact hne (congrArg Prod.snd hc).symm
    rw [Function.update_of_ne hca] at hc ⊢
    exact hstuck.hit hblock c hc
  · have := hstuck.full (S := {a}) fun c hc => by
      have := hall c
      rwa [Function.update_of_ne (by simpa using hc)] at this
    rwa [Finset.card_singleton] at this
  · have hca : c ≠ a := by
      rintro rfl
      rw [Function.update_self] at hc
      cases hc
    rw [Function.update_of_ne hca]
  rintro b u ⟨hb, _, hshape, _⟩
  have hba : b ≠ a := by
    rintro rfl
    rw [Function.update_self] at hb
    cases hb
  rw [Function.update_of_ne hba] at hb
  refine twp_bind.mpr (twp_get.mpr (twp_bind.mpr (twp_modify.mpr (twp_bind.mpr ?_))))
  refine twp_mono ((hshape.setData _).bwrite (Function.update_self b _ _)) ?_
  intro _ v hcache
  replace hshape := hshape.setData (b := b) (u.cache.buf a).data
  have hv : v.cache = Recovery.setData u.cache b (u.cache.buf a).data := hcache
  rw [← hv] at hshape
  refine twp_bind.mpr (twp_modify.mpr (twp_bind.mpr ?_))
  refine twp_mono (Shape.brelse (hshape.unpin (b := b)) ?_) ?_
  · rw [Function.update_of_ne hba.symm, Function.update_self]
  rintro _ w ⟨_, hshape, _⟩
  refine twp_bind.mpr (twp_mono (hshape.brelse ?_) ?_)
  · rw [Function.update_of_ne hba, Function.update_self]
  rintro _ x ⟨_, hshape, _⟩
  refine hrest x ⟨_, _, ?_, hstuck.install (x := (dev, start + tail + 1)) ha hb⟩
  convert hshape using 1
  · ext c
    by_cases hcb : c = b
    · subst hcb
      simp [hba, dec_one, dec_zero]
    · by_cases hca : c = a
      · subst hca
        simp [hcb, ha, dec_one]
      · simp [hcb, hca]
  · ext c
    by_cases hcb : c = b
    · simp [hcb]
    · by_cases hca : c = a
      · simp [hca, hba.symm]
      · simp [hcb, hca]

/-- The loop: `done` is installed, `lh` still to do. -/
theorem Idle.installTrans {size : ℕ} (done lh : List ℕ) (s : Boot) (h : Idle dev done s.cache)
    (hnodup : (done ++ lh).Nodup) (hhome : ∀ b ∈ done ++ lh, Log.Home start size b)
    (hlen : (done ++ lh).length + 1 ≤ size)
    (hfull : nbuf ≤ (done ++ lh).length → F "bget: no buffers") :
    twp F (installTrans dev start done.length lh) (fun _ t => Idle dev (done ++ lh) t.cache) s := by
  induction lh generalizing done s with
  | nil =>
      rw [List.append_nil]
      exact twp_pure.mpr h
  | cons blockno lh ih =>
      have happ : done ++ blockno :: lh = (done ++ [blockno]) ++ lh := by simp
      have hlog : start + done.length + 1 ∉ done ++ blockno :: lh := by
        intro hmem
        have := hhome _ hmem
        simp only [Log.Home, List.length_append, List.length_cons] at this hlen
        omega
      refine h.round (fun hmem => ?_) (fun hmem => hlog (List.mem_append_left _ hmem)) (fun heq => ?_)
        (fun hle => hfull ?_) fun t ht => ?_
      · exact (List.nodup_append.mp hnodup).2.2 blockno hmem blockno (by simp) rfl
      · exact hlog (by simp [← heq])
      · simp only [List.length_append, List.length_cons]
        omega
      · rw [happ] at hnodup hhome hlen hfull ⊢
        have := ih (done ++ [blockno]) t ht hnodup hhome hlen hfull
        simpa using this

/-- The header that `read_head` finds names distinct home blocks, as many as
the log has room for. -/
structure ValidHead (disk : ℕ → Log.Block) (lh : List ℕ) : Prop where
  magic : magic (disk 1) = fsMagic
  load : Log.loadHead (disk (logstart (disk 1))) = lh
  nodup : lh.Nodup
  home : ∀ b ∈ lh, Log.Home (logstart (disk 1)) (nlog (disk 1)) b
  length_lt : lh.length + 1 ≤ nlog (disk 1)
  length_le : lh.length ≤ logSize

theorem Idle.readsb (h : Idle dev [] s.cache) (hcoh : Coherent dev s) :
    twp F (readsb dev) (fun sb t => sb = s.disk 1 ∧ t.disk = s.disk ∧ Idle dev [] t.cache ∧
      Coherent dev t) s := by
  refine twp_bind.mpr (twp_mono (h.bread List.not_mem_nil (fun hle => ?_)) ?_)
  · exact absurd hle (by decide)
  rintro b t ⟨husing, hdisk, hdata⟩
  refine twp_bind.mpr (twp_get.mpr (twp_bind.mpr (twp_mono husing.brelse ?_)))
  rintro _ u ⟨hidle, hdisk', hcoh'⟩
  exact ⟨(hdata hcoh).2, hdisk'.trans hdisk, hidle, hcoh' (hdata hcoh).1⟩

/-- Recovery either panics for want of a buffer, which takes as many blocks
as there are buffers, or leaves a buffer with a wrapped count for each
block that it installs. -/
theorem fsinit_idle {disk : ℕ → Log.Block} (dev : ℕ) (h : ValidHead disk lh) (data : Log.Block) :
    twp (fun _ => nbuf ≤ lh.length) (fsinit dev) (fun _ t => Idle dev lh t.cache)
      ⟨binit data, disk⟩ := by
  have hstart : logstart (disk 1) ∉ lh := fun hmem => by
    have := h.home _ hmem
    have := h.length_lt
    simp only [Log.Home] at *
    omega
  have hcoh : Coherent dev ⟨binit data, disk⟩ := fun a blockno hv => by
    simp only [buf_binit] at hv
    cases hv
  refine twp_bind.mpr (twp_mono ((idle_binit data).readsb hcoh) ?_)
  rintro sb t ⟨rfl, hdisk, hidle, hcoh⟩
  rw [if_neg (not_not_intro h.magic)]
  refine twp_bind.mpr (twp_mono (hidle.readHead hcoh List.not_mem_nil fun hle => ?_) ?_)
  · exact absurd hle (by decide)
  rintro lh' u ⟨hlh, hidle⟩
  have hlh' : lh' = lh := by rw [hlh, hdisk, h.load]
  subst hlh'
  have hinstall := hidle.installTrans (F := fun _ => nbuf ≤ lh'.length) [] lh' u h.nodup h.home
    h.length_lt id
  refine twp_bind.mpr (twp_mono hinstall ?_)
  intro _ v hidle
  exact hidle.writeHead hstart id

theorem fsinit_ends {disk : ℕ → Log.Block} (dev : ℕ) (h : ValidHead disk lh) (hlt : lh.length < nbuf)
    (data : Log.Block) : ∃ t, fsinit dev ⟨binit data, disk⟩ = .ok () t ∧ Idle dev lh t.cache := by
  have hends : twp (fun _ => False) (fsinit dev) (fun _ t => Idle dev lh t.cache)
      ⟨binit data, disk⟩ :=
    twp_mono_fault (fsinit_idle dev h data) fun _ hle => absurd hle (Nat.not_le_of_lt hlt)
  obtain ⟨_, t, hrun, hidle⟩ := exists_of_twp hends
  exact ⟨t, hrun, hidle⟩

theorem Idle.refcnt_zero_iff {c : Bcache Unit Log.Block} (h : Idle dev lh c) :
    (∀ b, (c.buf b).refcnt = 0) ↔ lh = [] := by
  obtain ⟨count, label, hshape, hstuck⟩ := h
  refine ⟨fun hzero => ?_, fun hlh b => ?_⟩
  · cases lh with
    | nil => rfl
    | cons block lh =>
        obtain ⟨a, ha, _⟩ := hstuck.wrapped block List.mem_cons_self
        rw [← hshape.count a, hzero a] at ha
        cases ha
  · subst hlh
    by_contra hb
    rw [hshape.count b] at hb
    obtain ⟨block, hblock, _⟩ := hstuck.home b hb
    exact List.not_mem_nil hblock

/-- Recovery leaves the cache without references exactly when there was
nothing to install. -/
theorem fsinit_refcnt_zero_iff (dev : ℕ) (disk : ℕ → Log.Block) (lh : List ℕ) (data : Log.Block)
    (h : ValidHead disk lh) :
    (∃ t, fsinit dev ⟨binit data, disk⟩ = .ok () t ∧ ∀ b, (t.cache.buf b).refcnt = 0) ↔ lh = [] := by
  have hidle := fsinit_idle dev h data
  constructor
  · rintro ⟨t, hrun, hzero⟩
    have hend := of_twp hidle hrun
    exact hend.refcnt_zero_iff.mp hzero
  · rintro rfl
    obtain ⟨t, hrun, hidle⟩ := fsinit_ends dev h (by decide) data
    exact ⟨t, hrun, hidle.refcnt_zero_iff.mpr rfl⟩

/-- A disk with the header `lh` in its log, and nothing else. -/
def logged (lh : List ℕ) : ℕ → Log.Block
  | 1 => fun w => if w = 0 then fsMagic else if w = 4 then 30 else if w = 5 then 2 else 0
  | 2 => Log.storeHead lh fun _ => 0
  | _ => fun _ => 0

theorem fsinit_refcnt_zero_logged_nil :
    ValidHead (logged []) [] ∧ ∃ t, fsinit 1 ⟨binit fun _ => 0, logged []⟩ = .ok () t ∧
      ∀ b, (t.cache.buf b).refcnt = 0 := by
  have hvalid : ValidHead (logged []) [] :=
    ⟨rfl, by decide, List.nodup_nil, by simp, by decide, by decide⟩
  exact ⟨hvalid, (fsinit_refcnt_zero_iff 1 _ _ _ hvalid).mpr rfl⟩

/-- After the recovery of one block its buffer counts `2 ^ 32 - 1`
references. -/
theorem fsinit_refcnt_wraps :
    ValidHead (logged [45]) [45] ∧ ∃ t b, fsinit 1 ⟨binit fun _ => 0, logged [45]⟩ = .ok () t ∧
      (t.cache.buf b).refcnt = 2 ^ 32 - 1 := by
  have hvalid : ValidHead (logged [45]) [45] :=
    ⟨rfl, by decide, by decide, fun b hb => .inr (by rw [List.mem_singleton.mp hb]; decide),
      by decide, by decide⟩
  obtain ⟨t, hrun, count, label, hshape, hstuck⟩ := fsinit_ends 1 hvalid (by decide) fun _ => 0
  obtain ⟨b, hb, _⟩ := hstuck.wrapped 45 (by decide)
  exact ⟨hvalid, t, b, hrun, (hshape.count b).trans hb⟩

end Xv6.Recovery
