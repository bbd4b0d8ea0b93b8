import Xv6.Blocks.System

/-!
What holds of the cache, the log and the disk at every moment.

`Mem` ties the three places that a block can be in: a buffer with contents
has what was last stored in its block, and where the disk does not have
that, some buffer does, and it is pinned or in the hands of a process that
has just changed it.

A process in `commit` is followed through its instructions by a `View`:
the phase, how many blocks are copied to the log and how many are
installed, and what the two buffers hold. `Pre` is what an instruction
needs and `post` what it leaves; `Sat` says that a view is true in a state.
-/

set_option linter.unusedSectionVars false

namespace Xv6.Blocks

open Lib Bio Log

variable {P D : Type} [DecidableEq P] {C : Config D} {s t : State P D} {p q : P} {b : Fin nbuf}
  {x : Block} {d n : ℕ} {v : D}

/-! ### Memory and disk -/

structure Mem (s : State P D) : Prop where
  bio : Bio.Inv s.bio
  data : ∀ b, (s.buf b).valid = true → (s.buf b).data = s.stored (s.buf b).label
  behind : ∀ x, s.disk x ≠ s.stored x → ∃ b, (s.buf b).label = x ∧ (s.buf b).valid = true ∧
    (0 < s.bio.pins b ∨ s.dirty b = true)
  dirty : ∀ b, s.dirty b = true → (s.buf b).lock ≠ none

/-- The block is in a buffer that is pinned. -/
def State.Pinned (s : State P D) (x : Block) : Prop :=
  ∃ b, (s.buf b).label = x ∧ 0 < s.bio.pins b

theorem Mem.ne_zero (h : Mem s) (hb : (s.buf b).lock ≠ none ∨ 0 < s.bio.pins b) :
    (s.buf b).refcnt ≠ 0 := by
  obtain ⟨n, -, hcount⟩ := h.bio.refs b
  rw [State.buf, hcount]
  rcases hb with hlock | hpins
  · rw [Buf.held, if_neg hlock]
    omega
  · omega

theorem Mem.ne_zero_of_dirty (h : Mem s) (hb : 0 < s.bio.pins b ∨ s.dirty b = true) :
    (s.buf b).refcnt ≠ 0 :=
  h.ne_zero (hb.symm.imp_left (h.dirty b))

/-- A buffer that is held and has no contents is for a block that is on
disk. -/
theorem Mem.disk_eq (h : Mem s) (hlock : (s.buf b).lock ≠ none) (hvalid : (s.buf b).valid = false) :
    s.disk (s.buf b).label = s.stored (s.buf b).label := by
  by_contra hne
  obtain ⟨a, hlabel, ha, -⟩ := h.behind _ hne
  obtain rfl := h.bio.label_inj (.inr ha) (.inl (h.ne_zero (.inl hlock))) hlabel
  rw [ha] at hvalid
  cases hvalid

/-- A step of the cache. -/
theorem Mem.bioStep {a : Bio.Act P} (h : Mem s) (hstep : Bio.step s.bio a = some t.bio)
    (hdisk : t.disk = s.disk) (hstored : t.stored = s.stored)
    (hdirty : ∀ b, t.dirty b = true → (t.buf b).lock ≠ none)
    (hbehind : ∀ b, s.disk (s.buf b).label ≠ s.stored (s.buf b).label →
      (0 < s.bio.pins b ∨ s.dirty b = true) → 0 < t.bio.pins b ∨ t.dirty b = true) : Mem t := by
  obtain ⟨hinv, heffect⟩ := h.bio.step hstep
  refine ⟨hinv, fun b hb => ?_, fun x hx => ?_, hdirty⟩
  · rcases heffect.content b with he | ⟨-, hf⟩
    · obtain ⟨hlabel, hrest⟩ := Prod.mk.inj he
      obtain ⟨hvalid, hdata⟩ := Prod.mk.inj hrest
      rw [State.buf, hdata, hlabel, hstored]
      exact h.data b (hvalid.symm.trans hb)
    · rw [State.buf, hf] at hb
      cases hb
  · rw [hdisk, hstored] at hx
    obtain ⟨b, rfl, hb, hkept⟩ := h.behind x hx
    have hne := h.ne_zero_of_dirty hkept
    obtain ⟨hlabel, hrest⟩ := Prod.mk.inj ((heffect.content b).resolve_right fun hc => hne hc.1)
    exact ⟨b, hlabel, (Prod.mk.inj hrest).1.trans hb, hbehind b hx hkept⟩

theorem buf_setData (b' : Fin nbuf) : (s.setData b v).buf b' =
    if b' = b then { s.buf b with valid := true, data := v } else s.buf b' :=
  buf_setBuf ..

theorem Mem.bio_setData (h : Mem s) (hlock : (s.buf b).lock ≠ none) : Bio.Inv (s.setData b v).bio :=
  h.bio.setContents (h.ne_zero (.inl hlock)) true v

/-- The holder of a buffer stores in it. -/
theorem Mem.write (h : Mem s) (hlock : (s.buf b).lock ≠ none) (hbio : t.bio = (s.setData b v).bio)
    (hdisk : t.disk = s.disk) (hstored : t.stored = Function.update s.stored (s.buf b).label v)
    (hdirty : t.dirty = Function.update s.dirty b true) : Mem t := by
  have hbuf : ∀ a, t.buf a = if a = b then { s.buf b with valid := true, data := v } else s.buf a := by
    intro a
    rw [State.buf, hbio]
    exact buf_setData a
  have hlabel : ∀ a, (t.buf a).label = (s.buf a).label := by
    intro a
    rw [hbuf]
    split_ifs with ha
    · rw [ha]
      rfl
    · rfl
  refine ⟨hbio ▸ h.bio_setData hlock, fun a ha => ?_, fun x hx => ?_, fun a ha => ?_⟩
  · rw [hlabel, hstored]
    rw [hbuf] at ha ⊢
    split_ifs at ha ⊢ with hab
    · rw [hab, Function.update_self]
    · rw [Function.update_of_ne]
      · exact h.data a ha
      · exact fun he => hab (h.bio.label_inj (.inr ha) (.inl (h.ne_zero (.inl hlock))) he)
  · rw [hdisk, hstored, Function.update_apply] at hx
    split_ifs at hx with hxb
    · refine ⟨b, (hlabel b).trans hxb.symm, ?_, .inr ?_⟩
      · rw [hbuf, if_pos rfl]
      · rw [hdirty, Function.update_self]
    · obtain ⟨a, ha, hvalid, hkept⟩ := h.behind x hx
      have hab : a ≠ b := by
        rintro rfl
        exact hxb ha.symm
      refine ⟨a, (hlabel a).trans ha, ?_, ?_⟩
      · rw [hbuf, if_neg hab]
        exact hvalid
      · rw [hbio, hdirty, Function.update_of_ne hab]
        exact hkept
  · rw [hbuf]
    split_ifs with hab
    · exact hlock
    · rw [hdirty, Function.update_of_ne hab] at ha
      exact h.dirty a ha

/-- A buffer is read from the disk. -/
theorem Mem.read (h : Mem s) (hlock : (s.buf b).lock ≠ none) (hvalid : (s.buf b).valid = false)
    (hbio : t.bio = (s.setData b (s.disk (s.buf b).label)).bio) (hdisk : t.disk = s.disk)
    (hstored : t.stored = s.stored) (hdirty : t.dirty = s.dirty) : Mem t := by
  have hbuf : ∀ a, t.buf a = if a = b then
      { s.buf b with valid := true, data := s.disk (s.buf b).label } else s.buf a := by
    intro a
    rw [State.buf, hbio]
    exact buf_setData a
  refine ⟨hbio ▸ h.bio_setData hlock, fun a ha => ?_, fun x hx => ?_, fun a ha => ?_⟩
  · rw [hstored]
    rw [hbuf] at ha ⊢
    split_ifs at ha ⊢ with hab
    · exact h.disk_eq hlock hvalid
    · exact h.data a ha
  · rw [hdisk, hstored] at hx
    obtain ⟨a, ha, hva, hkept⟩ := h.behind x hx
    have hab : a ≠ b := by
      rintro rfl
      rw [hva] at hvalid
      cases hvalid
    refine ⟨a, ?_, ?_, ?_⟩
    · rw [hbuf, if_neg hab, ha]
    · rw [hbuf, if_neg hab, hva]
    · rw [hbio, hdirty]
      exact hkept
  · rw [hdirty] at ha
    rw [hbuf]
    split_ifs with hab
    · exact hlock
    · exact h.dirty a ha

/-- A buffer is written to the disk. -/
theorem Mem.bwrite (h : Mem s) (hvalid : (s.buf b).valid = true) (hbio : t.bio = s.bio)
    (hdisk : t.disk = Function.update s.disk (s.buf b).label (s.buf b).data)
    (hstored : t.stored = s.stored) (hdirty : t.dirty = Function.update s.dirty b false) :
    Mem t := by
  refine ⟨hbio ▸ h.bio, fun a ha => ?_, fun x hx => ?_, fun a ha => ?_⟩
  · rw [State.buf, hbio] at ha
    rw [State.buf, hbio, hstored]
    exact h.data a ha
  · rw [hdisk, hstored, Function.update_apply] at hx
    split_ifs at hx with hxb
    · rw [hxb] at hx
      exact absurd (h.data b hvalid) hx
    · obtain ⟨a, ha, hva, hkept⟩ := h.behind x hx
      have hab : a ≠ b := by
        rintro rfl
        exact hxb ha.symm
      rw [hbio, hdirty]
      refine ⟨a, ?_, ?_, ?_⟩
      · rw [State.buf, hbio, ha]
      · rw [State.buf, hbio, hva]
      · rw [Function.update_of_ne hab]
        exact hkept
  · rw [hdirty, Function.update_apply] at ha
    split_ifs at ha with hab
    rw [State.buf, hbio]
    exact h.dirty a ha

/-- A pinned buffer need not be remembered as changed. -/
theorem Mem.unmark (h : Mem s) (hpin : 0 < s.bio.pins b) (hbio : t.bio = s.bio)
    (hdisk : t.disk = s.disk) (hstored : t.stored = s.stored)
    (hdirty : t.dirty = Function.update s.dirty b false) : Mem t := by
  have hbuf : t.buf = s.buf := by
    funext a
    rw [State.buf, hbio]
  refine ⟨hbio ▸ h.bio, fun a ha => ?_, fun x hx => ?_, fun a ha => ?_⟩
  · rw [hbuf] at ha ⊢
    rw [hstored]
    exact h.data a ha
  · rw [hdisk, hstored] at hx
    obtain ⟨a, ha, hva, hkept⟩ := h.behind x hx
    rw [hbuf, hbio, hdirty]
    refine ⟨a, ha, hva, ?_⟩
    by_cases hab : a = b
    · exact .inl (hab ▸ hpin)
    · rw [Function.update_of_ne hab]
      exact hkept
  · rw [hdirty, Function.update_apply] at ha
    split_ifs at ha
    rw [hbuf]
    exact h.dirty a ha

/-- Nothing of memory and disk changes. -/
theorem Mem.congr (h : Mem s) (hbio : t.bio = s.bio) (hdisk : t.disk = s.disk)
    (hstored : t.stored = s.stored) (hdirty : t.dirty = s.dirty) : Mem t := by
  refine ⟨hbio ▸ h.bio, fun a ha => ?_, fun x hx => ?_, fun a ha => ?_⟩
  · rw [State.buf, hbio] at ha
    rw [State.buf, hbio, hstored]
    exact h.data a ha
  · rw [hdisk, hstored] at hx
    obtain ⟨a, ha, hrest⟩ := h.behind x hx
    refine ⟨a, ?_, ?_⟩
    · rw [State.buf, hbio, ha]
    · rw [State.buf, hbio, hdirty]
      exact hrest
  · rw [State.buf, hbio]
    rw [hdirty] at ha
    exact h.dirty a ha

/-! ### The logs -/

structure Logs (C : Config D) (s : State P D) : Prop where
  log : ∀ d, Group.Inv (s.log d)
  home : ∀ d, ∀ n ∈ (s.log d).lh, ¬ C.InLog (d, n)
  pinned : ∀ d, (s.log d).committing = false → ∀ n ∈ (s.log d).lh, s.Pinned (d, n)

/-! ### A process in `commit` -/

inductive HoldState
  /-- as read -/
  | read
  | changed
  /-- written to the disk -/
  | written
  deriving DecidableEq

/-- A buffer of `commit`. -/
structure Hold where
  block : ℕ
  state : HoldState

structure View where
  phase : Group.Phase
  lh : List ℕ
  /-- how many blocks `write_log` has copied -/
  copied : ℕ
  /-- how many blocks `install_trans` has unpinned -/
  installed : ℕ
  lbuf : Option Hold
  dbuf : Option Hold

namespace View

def reg (w : View) : Reg → Option Hold
  | .lbuf => w.lbuf
  | .dbuf => w.dbuf

def setReg (w : View) (r : Reg) (h : Option Hold) : View :=
  match r with
  | .lbuf => { w with lbuf := h }
  | .dbuf => { w with dbuf := h }

/-- The buffer is now in another state. -/
def mark (w : View) (r : Reg) (state : HoldState) : View :=
  w.setReg r ((w.reg r).map fun h => { h with state := state })

/-- No buffer is held. -/
def Free (w : View) : Prop := w.lbuf = none ∧ w.dbuf = none

end View

/-- The view of a process that starts to commit. -/
def View.start (lh : List ℕ) : View := ⟨.writeLog, lh, 0, 0, none, none⟩

/-- The view of a process at the end of `commit`. -/
def View.final : View := ⟨.done, [], 0, 0, none, none⟩

/-- What an instruction needs. -/
def Pre (C : Config D) (d : ℕ) (w : View) : Instr → Prop
  | .commit => w = .start w.lh
  | .writeLog tail => w.Free ∧ w.phase = .writeLog ∧ w.copied = tail ∧ w.installed = 0
  | .writeHead => w.Free ∧ (w.phase = .writeHead ∨ w.phase = .clearHead)
  | .installTrans tail =>
      w.Free ∧ w.phase = .installTrans ∧ w.copied = w.lh.length ∧ w.installed = tail
  | .next => (w.phase = .writeLog ∧ w.lh ≠ []) ∨ w.phase = .writeHead ∨ w.phase = .installTrans ∨
      w.phase = .clearHead
  | .endOp => w.phase = .done ∧ w.lh = []
  | .bread _ n => ∀ r h, w.reg r = some h → h.block ≠ n
  | .memmove .lbuf .dbuf => w.phase = .writeLog ∧ w.installed = 0 ∧
      (∃ h, w.lbuf = some h ∧ h.block = C.start d + w.copied + 1) ∧
      ∃ h, w.dbuf = some h ∧ w.lh[w.copied]? = some h.block
  | .memmove .dbuf .lbuf => ∃ i < w.copied, (∃ h, w.lbuf = some h ∧ h.block = C.start d + i + 1) ∧
      ∃ h, w.dbuf = some h ∧ w.lh[i]? = some h.block
  | .memmove _ _ => False
  | .putHead r => ∃ h, w.reg r = some h ∧ h.block = C.start d
  | .bwrite r => ∃ h, w.reg r = some h
  | .bunpin r => ∃ h, w.reg r = some h ∧ h.state = .written ∧ w.lh[w.installed]? = some h.block
  | .brelse r => ∃ h, w.reg r = some h ∧ h.state ≠ .changed

/-- What an instruction leaves. -/
def post (w : View) : Instr → View
  | .commit | .endOp => .final
  | .writeLog _ => { w with copied := w.lh.length, lbuf := none, dbuf := none }
  | .writeHead => match w.phase with
      | .writeHead => { w with phase := .installTrans, lbuf := none, dbuf := none }
      | _ => { w with phase := .done, lbuf := none, dbuf := none }
  | .installTrans _ => { w with installed := w.lh.length, lbuf := none, dbuf := none }
  | .next => match w.phase with
      | .writeLog => { w with phase := .writeHead }
      | .writeHead => { w with phase := .installTrans }
      | .installTrans => { w with phase := .clearHead, lh := [], copied := 0, installed := 0 }
      | _ => { w with phase := .done }
  | .bread r n => w.setReg r (some ⟨n, .read⟩)
  | .memmove .lbuf _ => { w.mark .lbuf .changed with copied := w.copied + 1 }
  | .memmove .dbuf _ => w.mark .dbuf .changed
  | .putHead r => w.mark r .changed
  | .bwrite r => w.mark r .written
  | .bunpin _ => { w with installed := w.installed + 1 }
  | .brelse r => w.setReg r none

/-- Every instruction finds what it needs. -/
def Safe (C : Config D) (d : ℕ) : View → List Instr → Prop
  | _, [] => True
  | w, i :: rest => Pre C d w i ∧ Safe C d (post w i) rest

variable {w : View} {rest : List Instr} {tail : ℕ}

theorem safe_commit (h : Safe C d w (.commit :: rest)) (hlh : w.lh ≠ []) :
    Safe C d w (commitBody ++ rest) := by
  obtain ⟨hw, hrest⟩ := h
  rw [show w = .start w.lh from hw]
  exact ⟨⟨⟨rfl, rfl⟩, rfl, rfl, rfl⟩, .inl ⟨rfl, hlh⟩, ⟨⟨rfl, rfl⟩, .inl rfl⟩,
    ⟨⟨rfl, rfl⟩, rfl, rfl, rfl⟩, .inr (.inr (.inl rfl)), ⟨⟨rfl, rfl⟩, .inr rfl⟩, hrest⟩

theorem View.reg_eq_some {phase : Group.Phase} {lh : List ℕ} {copied installed : ℕ}
    {lbuf dbuf : Option Hold} {r : Reg} {h : Hold}
    (hr : (View.mk phase lh copied installed lbuf dbuf).reg r = some h) :
    lbuf = some h ∨ dbuf = some h := by
  cases r with
  | lbuf => exact .inl hr
  | dbuf => exact .inr hr

theorem safe_writeHead (h : Safe C d w (.writeHead :: rest)) :
    Safe C d w (writeHeadBody (C.start d) ++ rest) := by
  obtain ⟨phase, lh, copied, installed, lbuf, dbuf⟩ := w
  obtain ⟨⟨⟨hl, hd⟩, hphase⟩, hrest⟩ := h
  simp only at hl hd hphase
  subst hl hd
  have hbread : Pre C d ⟨phase, lh, copied, installed, none, none⟩ (.bread .lbuf (C.start d)) := by
    intro r h hr
    rcases View.reg_eq_some hr with he | he <;> cases he
  rcases hphase with rfl | rfl
  · exact ⟨hbread, ⟨_, rfl, rfl⟩, ⟨_, rfl⟩, .inr (.inl rfl), ⟨_, rfl, nofun⟩, hrest⟩
  · exact ⟨hbread, ⟨_, rfl, rfl⟩, ⟨_, rfl⟩, .inr (.inr (.inr rfl)), ⟨_, rfl, nofun⟩, hrest⟩

theorem safe_writeLog (h : Safe C d w (.writeLog tail :: rest)) (hn : w.lh[tail]? = some n)
    (hne : C.start d + tail + 1 ≠ n) : Safe C d w (writeLogBody (C.start d) tail n ++ rest) := by
  obtain ⟨phase, lh, copied, installed, lbuf, dbuf⟩ := w
  obtain ⟨⟨⟨hl, hd⟩, hphase, hcopied, hinst⟩, hrest⟩ := h
  simp only at hl hd hphase hcopied hinst hn
  subst hl hd hphase hcopied hinst
  refine ⟨fun r h hr => ?_, fun r h hr => ?_, ⟨rfl, rfl, ⟨_, rfl, rfl⟩, ⟨_, rfl, hn⟩⟩, ⟨_, rfl⟩,
    ⟨_, rfl, nofun⟩, ⟨_, rfl, nofun⟩, ⟨⟨rfl, rfl⟩, rfl, rfl, rfl⟩, hrest⟩
  · rcases View.reg_eq_some hr with he | he <;> cases he
  · rcases View.reg_eq_some hr with he | he <;> cases he
    exact hne

theorem safe_installTrans (h : Safe C d w (.installTrans tail :: rest)) (hn : w.lh[tail]? = some n)
    (hne : C.start d + tail + 1 ≠ n) : Safe C d w (installBody (C.start d) tail n ++ rest) := by
  obtain ⟨phase, lh, copied, installed, lbuf, dbuf⟩ := w
  obtain ⟨⟨⟨hl, hd⟩, hphase, hcopied, hinst⟩, hrest⟩ := h
  simp only at hl hd hphase hcopied hinst hn
  subst hl hd hphase hcopied hinst
  have hlt : installed < lh.length := (List.getElem?_eq_some_iff.mp hn).1
  refine ⟨fun r h hr => ?_, fun r h hr => ?_, ⟨installed, hlt, ⟨_, rfl, rfl⟩, ⟨_, rfl, hn⟩⟩,
    ⟨_, rfl⟩, ⟨_, rfl, rfl, hn⟩, ⟨_, rfl, nofun⟩, ⟨_, rfl, nofun⟩, ⟨⟨rfl, rfl⟩, rfl, rfl, rfl⟩, hrest⟩
  · rcases View.reg_eq_some hr with he | he <;> cases he
  · rcases View.reg_eq_some hr with he | he <;> cases he
    exact hne

/-! ### Views and states -/

/-- The process has the buffer. -/
structure Holds (s : State P D) (p : P) (d : ℕ) (b : Fin nbuf) (h : Hold) : Prop where
  lock : (s.buf b).lock = some p
  valid : (s.buf b).valid = true
  label : (s.buf b).label = (d, h.block)
  clean : h.state ≠ .changed → s.dirty b = false
  written : h.state = .written → s.disk (d, h.block) = s.stored (d, h.block)

/-- The view is true of the process. -/
structure Sat (C : Config D) (s : State P D) (p : P) (d : ℕ) (w : View) : Prop where
  phase : (s.log d).pc p = .commit w.phase
  lh : (s.log d).lh = w.lh
  copied : ∀ i n, i < w.copied → w.lh[i]? = some n →
    s.stored (d, C.start d + i + 1) = s.stored (d, n)
  fits : 0 < w.copied → w.lh.length < nlog
  pinned : ∀ i n, w.installed ≤ i → w.lh[i]? = some n → s.Pinned (d, n)
  apart : ∀ h h', w.lbuf = some h → w.dbuf = some h' → h.block ≠ h'.block
  holds : ∀ r h, w.reg r = some h → Holds s p d (s.reg p r) h

/-- What the view of `p` on device `d` rests on stays. -/
structure Steady (p : P) (d : ℕ) (s t : State P D) : Prop where
  log : t.log d = s.log d
  stored : ∀ n, t.stored (d, n) = s.stored (d, n)
  pinned : ∀ n, s.Pinned (d, n) → t.Pinned (d, n)
  reg : t.reg p = s.reg p
  lock : ∀ b, (s.buf b).lock = some p → (t.buf b).lock = some p
  valid : ∀ b, (s.buf b).lock = some p → (s.buf b).valid = true → (t.buf b).valid = true
  label : ∀ b, (s.buf b).lock = some p → (t.buf b).label = (s.buf b).label
  dirty : ∀ b, (s.buf b).lock = some p → t.dirty b = s.dirty b
  disk : ∀ b, (s.buf b).lock = some p → t.disk (s.buf b).label = s.disk (s.buf b).label

theorem Sat.steady (h : Sat C s p d w) (hst : Steady p d s t) : Sat C t p d w where
  phase := by
    rw [hst.log]
    exact h.phase
  lh := by
    rw [hst.log]
    exact h.lh
  copied i n hi hn := by
    rw [hst.stored, hst.stored]
    exact h.copied i n hi hn
  fits := h.fits
  pinned i n hi hn := hst.pinned n (h.pinned i n hi hn)
  apart := h.apart
  holds r hd hr := by
    have hh := h.holds r hd hr
    rw [hst.reg]
    refine ⟨hst.lock _ hh.lock, hst.valid _ hh.lock hh.valid, ?_, fun hc => ?_, fun hw => ?_⟩
    · rw [hst.label _ hh.lock, hh.label]
    · rw [hst.dirty _ hh.lock, hh.clean hc]
    · have := hst.disk _ hh.lock
      rw [hh.label] at this
      rw [this, hst.stored, hh.written hw]

/-! ### The invariant -/

/-- What holds of each process. -/
structure Local (C : Config D) (s : State P D) (p : P) : Prop where
  held : ∀ b, (s.buf b).lock = some p → (s.buf b).valid = true ∨ ∃ x, s.call p = .fill x b
  bread : ∀ x, s.call p = .bread x → ∃ b, s.bio.pc p = .waiting b ∧ (s.buf b).label = x
  fill : ∀ x b, s.call p = .fill x b → s.bio.pc p = .idle ∧ (s.buf b).lock = some p ∧
    (s.buf b).label = x ∧ s.dirty b = false
  logWrite : ∀ b, s.call p = .logWrite b → (s.buf b).lock = some p ∧ (s.buf b).valid = true ∧
    ¬ C.InLog (s.buf b).label ∧ s.job p = none ∧
      ∃ k, (s.log (s.buf b).label.1).pc p = .logging k (s.buf b).label.2
  job : ∀ d code, s.job p = some (d, code) → ∃ w, Sat C s p d w ∧ Safe C d w code
  reading : ∀ d code, s.job p = some (d, code) → s.call p = .none ∨ ∃ r n rest,
    code = .bread r n :: rest ∧ (s.call p = .bread (d, n) ∨ ∃ b, s.call p = .fill (d, n) b)

structure Inv (C : Config D) (s : State P D) : Prop where
  mem : Mem s
  logs : Logs C s
  proc : ∀ p, Local C s p

/-- What a step of `p` may do, as far as the others can tell. -/
structure By (p : P) (s t : State P D) : Prop where
  call : ∀ q ≠ p, t.call q = s.call q
  job : ∀ q ≠ p, t.job q = s.job q
  reg : ∀ q ≠ p, t.reg q = s.reg q
  pc : ∀ q ≠ p, t.bio.pc q = s.bio.pc q
  lock : ∀ b, ∀ q ≠ p, ((t.buf b).lock = some q ↔ (s.buf b).lock = some q)
  label : ∀ b, (s.buf b).refcnt ≠ 0 → (t.buf b).label = (s.buf b).label
  valid : ∀ b, (s.buf b).refcnt ≠ 0 → (s.buf b).valid = true → (t.buf b).valid = true
  dirty : ∀ b, (s.buf b).lock ≠ some p → t.dirty b = s.dirty b
  log : ∀ d, t.log d = s.log d ∨ ∃ a, a.proc = p ∧ Group.step (s.log d) a = some (t.log d)
  disk : ∀ x, t.disk x = s.disk x ∨ ∃ b, (s.buf b).lock = some p ∧ (s.buf b).label = x
  stored : ∀ x, t.stored x = s.stored x ∨ (s.log x.1).pc p ≠ .idle
  pins : ∀ b, s.bio.pins b ≤ t.bio.pins b ∨ (s.log (s.buf b).label.1).pc p ≠ .idle

theorem Inv.steady {phase : Group.Phase} (h : Inv C s) (hby : By p s t) (hq : q ≠ p)
    (hcommit : (s.log d).pc q = .commit phase) : Steady q d s t := by
  have hidle : (s.log d).pc p = .idle := (h.logs.log d).idle hcommit hq.symm
  have hused : ∀ {b}, (s.buf b).lock = some q → (s.buf b).refcnt ≠ 0 := by
    intro b hb
    exact h.mem.ne_zero (.inl (by rw [hb]; nofun))
  have hother : ∀ {b}, (s.buf b).lock = some q → (s.buf b).lock ≠ some p := by
    intro b hb he
    exact hq (Option.some.inj (hb.symm.trans he))
  constructor
  case log =>
    rcases hby.log d with hsame | ⟨a, rfl, hstep⟩
    · exact hsame
    · exact absurd ((h.logs.log d).proc_eq hcommit hstep).symm hq
  case stored => exact fun n => (hby.stored (d, n)).resolve_right fun hne => hne hidle
  case pinned =>
    rintro n ⟨b, hb, hpins⟩
    refine ⟨b, (hby.label b (h.mem.ne_zero (.inr hpins))).trans hb, ?_⟩
    refine hpins.trans_le ((hby.pins b).resolve_right fun hne => hne ?_)
    rw [hb]
    exact hidle
  case reg => exact hby.reg q hq
  case lock => exact fun b hb => (hby.lock b q hq).mpr hb
  case valid => exact fun b hb => hby.valid b (hused hb)
  case label => exact fun b hb => hby.label b (hused hb)
  case dirty => exact fun b hb => hby.dirty b (hother hb)
  case disk =>
    intro b hb
    refine (hby.disk _).resolve_right ?_
    rintro ⟨a, ha, hlabel⟩
    have hane : (s.buf a).refcnt ≠ 0 := h.mem.ne_zero (.inl (by rw [ha]; nofun))
    obtain rfl := h.mem.bio.label_inj (.inl hane) (.inl (hused hb)) hlabel
    exact hother hb ha

theorem Inv.frame (h : Inv C s) (hby : By p s t) (hq : q ≠ p) : Local C t q := by
  have hl := h.proc q
  have hheld : ∀ {b}, (t.buf b).lock = some q → (s.buf b).lock = some q ∧
      (s.buf b).refcnt ≠ 0 := by
    intro b hb
    have hs := (hby.lock b q hq).mp hb
    exact ⟨hs, h.mem.ne_zero (.inl (by rw [hs]; nofun))⟩
  have hne : ∀ {b}, (s.buf b).lock = some q → (s.buf b).lock ≠ some p ∧
      (s.buf b).refcnt ≠ 0 := by
    intro b hb
    refine ⟨fun he => hq (Option.some.inj (hb.symm.trans he)), ?_⟩
    exact h.mem.ne_zero (.inl (by rw [hb]; nofun))
  constructor
  case held =>
    intro b hb
    obtain ⟨hs, hz⟩ := hheld hb
    rw [hby.call q hq]
    exact (hl.held b hs).imp_left (hby.valid b hz)
  case bread =>
    intro x hx
    rw [hby.call q hq] at hx
    obtain ⟨b, hpc, hlabel⟩ := hl.bread x hx
    have hz : (s.buf b).refcnt ≠ 0 := (h.mem.bio.refs b).ne_zero (p := q) (.inl (by rw [hpc]; rfl))
    exact ⟨b, (hby.pc q hq).trans hpc, (hby.label b hz).trans hlabel⟩
  case fill =>
    intro x b hx
    rw [hby.call q hq] at hx
    obtain ⟨hpc, hlock, hlabel, hdirty⟩ := hl.fill x b hx
    obtain ⟨hp, hz⟩ := hne hlock
    exact ⟨(hby.pc q hq).trans hpc, (hby.lock b q hq).mpr hlock, (hby.label b hz).trans hlabel,
      (hby.dirty b hp).trans hdirty⟩
  case logWrite =>
    intro b hb
    rw [hby.call q hq] at hb
    obtain ⟨hlock, hvalid, hhome, hjob, k, hk⟩ := hl.logWrite b hb
    have hz := (hne hlock).2
    rw [hby.label b hz, hby.job q hq]
    refine ⟨(hby.lock b q hq).mpr hlock, hby.valid b hz hvalid, hhome, hjob, k, ?_⟩
    rcases hby.log (s.buf b).label.1 with hsame | ⟨a, rfl, hstep⟩
    · rw [hsame, hk]
    · rw [Group.step_pc hstep hq, hk]
  case job =>
    intro d code hcode
    rw [hby.job q hq] at hcode
    obtain ⟨w, hsat, hsafe⟩ := hl.job d code hcode
    exact ⟨w, hsat.steady (h.steady hby hq hsat.phase), hsafe⟩
  case reading =>
    intro d code hcode
    rw [hby.job q hq] at hcode
    rw [hby.call q hq]
    exact hl.reading d code hcode

/-- A step keeps the invariant, and the labels of buffers that are referred
to. -/
structure Next (C : Config D) (s t : State P D) : Prop where
  inv : Inv C t
  label : ∀ b, (s.buf b).refcnt ≠ 0 → (t.buf b).label = (s.buf b).label

theorem Inv.of_by (h : Inv C s) (hby : By p s t) (hmem : Mem t) (hlogs : Logs C t)
    (hlocal : Local C t p) : Next C s t := by
  refine ⟨⟨hmem, hlogs, fun q => ?_⟩, hby.label⟩
  by_cases hq : q = p
  · rw [hq]
    exact hlocal
  · exact h.frame hby hq

/-! ### What steps leave alone -/

/-- Control of the other processes is not touched. -/
def Others (p : P) (s t : State P D) : Prop :=
  ∀ q ≠ p, t.call q = s.call q ∧ t.job q = s.job q ∧ t.reg q = s.reg q

theorem By.bioStep {a : Bio.Act P} (hinv : Bio.Inv s.bio) (hstep : Bio.step s.bio a = some t.bio)
    (ha : a.proc = p) (hctl : Others p s t) (hdisk : t.disk = s.disk)
    (hstored : t.stored = s.stored) (hdirty : ∀ b, (s.buf b).lock ≠ some p → t.dirty b = s.dirty b)
    (hlog : ∀ d, t.log d = s.log d ∨ ∃ a, a.proc = p ∧ Group.step (s.log d) a = some (t.log d))
    (hpins : ∀ b, a = .bunpin p b → (s.log (s.buf b).label.1).pc p ≠ .idle) : By p s t := by
  obtain ⟨-, heffect⟩ := hinv.step hstep
  have hcontent : ∀ b, (s.buf b).refcnt ≠ 0 → (t.buf b).content = (s.buf b).content :=
    fun b hb => (heffect.content b).resolve_right fun hc => hb hc.1
  subst ha
  constructor
  case call => exact fun q hq => (hctl q hq).1
  case job => exact fun q hq => (hctl q hq).2.1
  case reg => exact fun q hq => (hctl q hq).2.2
  case pc => exact fun q hq => heffect.pc hq
  case lock =>
    intro b q hq
    rcases heffect.lock b with he | ⟨-, -, hs, ht⟩ | ⟨-, hs, ht⟩
    · rw [State.buf, State.buf, he]
    · rw [State.buf, State.buf, hs, ht]
      exact ⟨fun he => absurd (Option.some.inj he).symm hq, nofun⟩
    · rw [State.buf, State.buf, hs, ht]
      exact ⟨nofun, fun he => absurd (Option.some.inj he).symm hq⟩
  case label => exact fun b hb => (Prod.mk.inj (hcontent b hb)).1
  case valid =>
    intro b hb hv
    exact (Prod.mk.inj (Prod.mk.inj (hcontent b hb)).2).1.trans hv
  case dirty => exact hdirty
  case log => exact hlog
  case disk => exact fun x => .inl (by rw [hdisk])
  case stored => exact fun x => .inl (by rw [hstored])
  case pins =>
    intro b
    by_cases hb : a = .bunpin a.proc b
    · exact .inr (hpins b hb)
    · exact .inl (heffect.pins_le hb)

/-- A step that changes at most the contents of a buffer in the cache. -/
theorem By.contents (hctl : Others p s t)
    (hbio : t.bio = s.bio ∨ ∃ b v, (s.buf b).lock = some p ∧ t.bio = (s.setData b v).bio)
    (hdirty : ∀ b, (s.buf b).lock ≠ some p → t.dirty b = s.dirty b)
    (hlog : ∀ d, t.log d = s.log d ∨ ∃ a, a.proc = p ∧ Group.step (s.log d) a = some (t.log d))
    (hdisk : ∀ x, t.disk x = s.disk x ∨ ∃ b, (s.buf b).lock = some p ∧ (s.buf b).label = x)
    (hstored : ∀ x, t.stored x = s.stored x ∨ (s.log x.1).pc p ≠ .idle) : By p s t := by
  have hsame : ∀ a, (t.buf a).lock = (s.buf a).lock ∧ (t.buf a).label = (s.buf a).label ∧
      ((s.buf a).valid = true → (t.buf a).valid = true) := by
    intro a
    rcases hbio with hbio | ⟨b, v, -, hbio⟩
    · rw [State.buf, hbio]
      exact ⟨rfl, rfl, id⟩
    · rw [State.buf, hbio]
      change ((s.setData b v).buf a).lock = _ ∧ ((s.setData b v).buf a).label = _ ∧
        (_ → ((s.setData b v).buf a).valid = true)
      rw [buf_setData]
      split_ifs with hab
      · subst hab
        exact ⟨rfl, rfl, fun _ => rfl⟩
      · exact ⟨rfl, rfl, id⟩
  have hpc : t.bio.pc = s.bio.pc ∧ t.bio.pins = s.bio.pins := by
    rcases hbio with hbio | ⟨b, v, -, hbio⟩
    · rw [hbio]
      exact ⟨rfl, rfl⟩
    · rw [hbio]
      exact ⟨rfl, rfl⟩
  constructor
  case call => exact fun q hq => (hctl q hq).1
  case job => exact fun q hq => (hctl q hq).2.1
  case reg => exact fun q hq => (hctl q hq).2.2
  case pc => exact fun q _ => by rw [hpc.1]
  case lock => exact fun b q _ => by rw [(hsame b).1]
  case label => exact fun b _ => (hsame b).2.1
  case valid => exact fun b _ => (hsame b).2.2
  case dirty => exact hdirty
  case log => exact hlog
  case disk => exact hdisk
  case stored => exact hstored
  case pins => exact fun b => .inl (by rw [hpc.2])

end Xv6.Blocks
