import Xv6.Blocks.Coherence

/-!
The cache and the log stand for one block map.

Every step keeps the invariant of `Xv6.Blocks.Coherence`, as long as
`log_write` is called on home blocks only. So a block that has been read is
in its buffer as it was last stored, also when it has since left the cache,
or has been logged and not yet installed.

That the log area is large enough for `write_log` is not due to the test in
`log_write`, which is made without the lock. Every block of the header is
pinned in a buffer of its own, and `write_log` needs one more for the log
block, so that there are fewer blocks in the header than buffers.
-/

set_option linter.unusedSectionVars false

namespace Xv6.Blocks

open Lib Bio Log

variable {P D : Type} [DecidableEq P] {C : Config D} {s t : State P D} {p q : P} {b : Fin nbuf}
  {x : Block} {d n : ℕ} {v : D} {w : View} {code rest : List Instr}

/-! ### Frames -/

theorem others_of_eq (hcall : t.call = s.call) (hjob : t.job = s.job) (hreg : t.reg = s.reg) :
    Others p s t :=
  fun q _ => ⟨by rw [hcall], by rw [hjob], by rw [hreg]⟩

theorem Others.setCall {c : Call} (h : Others p s t) : Others p s (t.setCall p c) :=
  fun q hq => ⟨(Function.update_of_ne hq ..).trans (h q hq).1, (h q hq).2⟩

theorem Others.setJob {j : Option (ℕ × List Instr)} (h : Others p s t) :
    Others p s (t.setJob p j) :=
  fun q hq => ⟨(h q hq).1, (Function.update_of_ne hq ..).trans (h q hq).2.1, (h q hq).2.2⟩

variable {a : Bio.Act P} {bio : Bio.State P D} {k : Hold} {r : Reg}

theorem Others.setReg (h : Others p s t) : Others p s (t.setReg p r b) :=
  fun q hq => ⟨(h q hq).1, (h q hq).2.1, (Function.update_of_ne hq ..).trans (h q hq).2.2⟩

theorem Logs.congr (h : Logs C s) (hlog : t.log = s.log)
    (hpin : ∀ d n, (s.log d).committing = false → s.Pinned (d, n) → t.Pinned (d, n)) :
    Logs C t where
  log := by
    rw [hlog]
    exact h.log
  home := by
    rw [hlog]
    exact h.home
  pinned := by
    rw [hlog]
    exact fun d hd n hn => hpin d n hd (h.pinned d hd n hn)

variable {l : Group.State P}

/-- A step of a log other than `log_write`. -/
theorem Logs.logStep {a : Group.Act P} (h : Logs C s)
    (hstep : Group.step (s.log d) a = some l) (ha : ∀ p, a ≠ .record p)
    (hdone : (s.log d).pc a.proc = .commit .done → (s.log d).lh = [])
    (hlog : t.log = Function.update s.log d l) (hbio : t.bio = s.bio) : Logs C t := by
  obtain ⟨hlh, hflag⟩ := (h.log d).step_lh hstep ha
  have hpin : ∀ x, s.Pinned x → t.Pinned x := by
    rintro x ⟨b, hb⟩
    refine ⟨b, ?_⟩
    rw [State.buf, hbio]
    exact hb
  refine ⟨fun e => ?_, fun e n hn => ?_, fun e he n hn => ?_⟩
  · rw [hlog, Function.update_apply]
    split_ifs with hed
    · exact (h.log d).step hstep
    · exact h.log e
  · rw [hlog, Function.update_apply] at hn
    split_ifs at hn with hed
    · rw [hed]
      exact h.home d n (hlh n hn)
    · exact h.home e n hn
  · rw [hlog, Function.update_apply] at he hn
    split_ifs at he hn with hed
    · subst hed
      rcases hflag he with hc | hc
      · exact hpin _ (h.pinned e hc n (hlh n hn))
      · have := hlh n hn
        rw [hdone hc] at this
        cases this
    · exact hpin _ (h.pinned e he n hn)

/-- A buffer in use keeps its contents in a step of the cache. -/
theorem Inv.content_eq (h : Inv C s) (hstep : Bio.step s.bio a = some t.bio)
    (hb : (s.buf b).lock ≠ none ∨ 0 < s.bio.pins b) : (t.buf b).content = (s.buf b).content :=
  ((h.mem.bio.step hstep).2.content b).resolve_right fun hc => h.mem.ne_zero hb hc.1

theorem label_of_content {r r' : Buf P D} (h : r.content = r'.content) : r.label = r'.label :=
  (Prod.mk.inj h).1

theorem valid_of_content {r r' : Buf P D} (h : r.content = r'.content) : r.valid = r'.valid :=
  (Prod.mk.inj (Prod.mk.inj h).2).1

/-- A block stays pinned unless it is this one that is unpinned. -/
theorem Inv.pinned_step (h : Inv C s) (hstep : Bio.step s.bio a = some t.bio)
    (hpin : ∀ b, a = .bunpin a.proc b → (s.buf b).label ≠ x) (hx : s.Pinned x) : t.Pinned x := by
  obtain ⟨b, hb, hpos⟩ := hx
  refine ⟨b, (label_of_content (h.content_eq hstep (.inr hpos))).trans hb, hpos.trans_le ?_⟩
  exact (h.mem.bio.step hstep).2.pins_le fun he => hpin b he hb

/-- A step that is about no lock. -/
theorem Inv.lock_eq (h : Inv C s) (hstep : Bio.step s.bio a = some t.bio)
    (hacq : a ≠ .acquiresleep a.proc) (hrel : a ≠ .releasesleep a.proc b) :
    (t.buf b).lock = (s.buf b).lock := by
  rcases (h.mem.bio.step hstep).2.lock b with he | ⟨he, -⟩ | ⟨he, -⟩
  · exact he
  · exact absurd he hacq
  · exact absurd he hrel

/-- A step of the cache by the process itself, which gives nothing back. -/
theorem Inv.steady_self (h : Inv C s) (hstep : Bio.step s.bio a = some t.bio)
    (hrel : ∀ b, a ≠ .releasesleep a.proc b) (hpin : ∀ b, a ≠ .bunpin a.proc b)
    (hlog : t.log = s.log) (hdisk : t.disk = s.disk) (hstored : t.stored = s.stored)
    (hdirty : t.dirty = s.dirty) (hreg : t.reg p = s.reg p) : Steady p d s t := by
  have hcontent : ∀ {b}, (s.buf b).lock = some p → (t.buf b).content = (s.buf b).content :=
    fun hb => h.content_eq hstep (.inl (by rw [hb]; nofun))
  constructor
  case log => rw [hlog]
  case stored => exact fun n => by rw [hstored]
  case pinned => exact fun n => h.pinned_step hstep fun b hb => absurd hb (hpin b)
  case reg => exact hreg
  case lock =>
    intro b hb
    rcases (h.mem.bio.step hstep).2.lock b with he | ⟨-, -, hs, -⟩ | ⟨hs, -⟩
    · exact he.trans hb
    · exact absurd (hs.symm.trans hb) nofun
    · exact absurd hs (hrel b)
  case valid => exact fun b hb => (valid_of_content (hcontent hb)).trans
  case label => exact fun b hb => label_of_content (hcontent hb)
  case dirty => exact fun b _ => by rw [hdirty]
  case disk => exact fun b _ => by rw [hdisk]

theorem Steady.of_eq (hbio : t.bio = s.bio) (hlog : t.log = s.log) (hdisk : t.disk = s.disk)
    (hstored : t.stored = s.stored) (hdirty : t.dirty = s.dirty) (hreg : t.reg p = s.reg p) :
    Steady p d s t := by
  have hbuf : t.buf = s.buf := by
    funext a
    rw [State.buf, hbio]
  refine ⟨by rw [hlog], fun n => by rw [hstored], ?_, hreg, fun a ha => ?_, fun a _ ha => ?_,
    fun a _ => ?_, fun a _ => by rw [hdirty], fun a _ => by rw [hdisk]⟩
  · rintro n ⟨a, ha, hpos⟩
    exact ⟨a, by rw [hbuf, ha], by rwa [hbio]⟩
  · rw [hbuf, ha]
  · rw [hbuf, ha]
  · rw [hbuf]

/-- A buffer is kept in a variable. -/
theorem Sat.setReg (h : Sat C s p d w)
    (hpre : ∀ r h, w.reg r = some h → h.block ≠ k.block) (hk : Holds s p d b k) :
    Sat C (s.setReg p r b) p d (w.setReg r (some k)) := by
  have hreg : ∀ r', (s.setReg p r b).reg p r' = if r' = r then b else s.reg p r' := by
    intro r'
    change Function.update s.reg p _ p r' = _
    rw [Function.update_self, Function.update_apply]
  have hw : ∀ r', (w.setReg r (some k)).reg r' = if r' = r then some k else w.reg r' := by
    intro r'
    cases r <;> cases r' <;> rfl
  have hsame : (w.setReg r (some k)).phase = w.phase ∧ (w.setReg r (some k)).lh = w.lh ∧
      (w.setReg r (some k)).copied = w.copied ∧ (w.setReg r (some k)).installed = w.installed := by
    cases r <;> exact ⟨rfl, rfl, rfl, rfl⟩
  obtain ⟨h1, h2, h3, h4⟩ := hsame
  constructor
  case phase => exact h1 ▸ h.phase
  case lh => exact h2 ▸ h.lh
  case copied => exact h2 ▸ h3 ▸ h.copied
  case fits => exact h2 ▸ h3 ▸ h.fits
  case pinned => exact h2 ▸ h4 ▸ h.pinned
  case apart =>
    intro k₁ k₂ hl hd
    have hl := (hw .lbuf).symm.trans hl
    have hd := (hw .dbuf).symm.trans hd
    split_ifs at hl hd with hr₁ hr₂ hr₂
    · rw [← hr₁] at hr₂
      cases hr₂
    · cases hl
      exact (hpre .dbuf k₂ hd).symm
    · cases hd
      exact hpre .lbuf k₁ hl
    · exact h.apart k₁ k₂ hl hd
  case holds =>
    intro r' k' hr'
    rw [hw] at hr'
    rw [hreg]
    split_ifs at hr' ⊢ with he
    · cases hr'
      exact ⟨hk.lock, hk.valid, hk.label, hk.clean, hk.written⟩
    · have := h.holds r' k' hr'
      exact ⟨this.lock, this.valid, this.label, this.clean, this.written⟩

/-- A process between calls. -/
theorem Local.between (hcall : t.call p = .none)
    (hheld : ∀ b, (t.buf b).lock = some p → (t.buf b).valid = true)
    (hjob : ∀ d code, t.job p = some (d, code) → ∃ w, Sat C t p d w ∧ Safe C d w code) :
    Local C t p where
  held b hb := .inl (hheld b hb)
  bread := by
    rw [hcall]
    nofun
  fill := by
    rw [hcall]
    nofun
  logWrite := by
    rw [hcall]
    nofun
  job := hjob
  reading := fun _ _ _ => .inl hcall

theorem Local.ready (hcall : t.call p = .none) (hjob : t.job p = none)
    (hheld : ∀ b, (t.buf b).lock = some p → (t.buf b).valid = true) : Local C t p := by
  refine .between hcall hheld ?_
  rw [hjob]
  nofun

/-- A process in `commit` between instructions. -/
theorem Local.running (hcall : t.call p = .none) (hjob : t.job p = some (d, code))
    (hsat : Sat C t p d w) (hsafe : Safe C d w code)
    (hheld : ∀ b, (t.buf b).lock = some p → (t.buf b).valid = true) : Local C t p := by
  refine .between hcall hheld fun e c hc => ?_
  rw [hjob] at hc
  cases hc
  exact ⟨w, hsat, hsafe⟩

theorem Local.valid (h : Local C s p) (hcall : s.call p = .none)
    (hb : (s.buf b).lock = some p) : (s.buf b).valid = true := by
  rcases h.held b hb with hv | ⟨x, hx⟩
  · exact hv
  · rw [hcall] at hx
    cases hx

/-! ### `bread` -/

theorem bioStep_eq_some (h : bioStep s a = some t) :
    ∃ bio, Bio.step s.bio a = some bio ∧ t = s.setBio bio := by
  obtain ⟨bio, hbio, rfl⟩ := Option.map_eq_some_iff.mp h
  exact ⟨bio, hbio, rfl⟩

theorem logStep_eq_some {a : Group.Act P} (h : logStep s d a = some t) :
    ∃ l, Group.step (s.log d) a = some l ∧ t = s.setLog d l := by
  obtain ⟨l, hl, rfl⟩ := Option.map_eq_some_iff.mp h
  exact ⟨l, hl, rfl⟩

/-- A step of the cache that unpins nothing; a buffer that is given back has
not been changed. -/
theorem Inv.quiet_bio (h : Inv C s) (hstep : Bio.step s.bio a = some t.bio)
    (ha : a.proc = p) (hrel : ∀ b, a = .releasesleep a.proc b → s.dirty b = false)
    (hpin : ∀ b, a ≠ .bunpin a.proc b) (hctl : Others p s t) (hlog : t.log = s.log)
    (hdisk : t.disk = s.disk) (hstored : t.stored = s.stored) (hdirty : t.dirty = s.dirty)
    (hlocal : Local C t p) : Next C s t := by
  obtain ⟨-, heffect⟩ := h.mem.bio.step hstep
  refine h.of_by (.bioStep h.mem.bio hstep ha hctl hdisk hstored (fun b _ => by rw [hdirty])
    (fun d => .inl (by rw [hlog])) fun b hb => absurd (ha ▸ hb) (hpin b))
    (h.mem.bioStep hstep hdisk hstored (fun b hb => ?_) fun b _ hkept => ?_)
    (h.logs.congr hlog fun d n _ => h.pinned_step hstep fun b hb => absurd hb (hpin b)) hlocal
  · rw [hdirty] at hb
    rcases heffect.lock b with he | ⟨-, -, -, ht⟩ | ⟨hs, -⟩
    · rw [State.buf, he]
      exact h.mem.dirty b hb
    · rw [State.buf, ht]
      simp
    · rw [hrel b hs] at hb
      cases hb
  · rw [hdirty]
    exact hkept.imp_left fun hpos => hpos.trans_le (heffect.pins_le (hpin b))

/-- What a process holds stays valid in such a step. -/
theorem Inv.held_bio (h : Inv C s) (hstep : Bio.step s.bio a = some t.bio)
    (hb : (t.buf b).lock = some p) (hacq : a ≠ .acquiresleep p) (ha : a.proc = p) :
    (s.buf b).lock = some p ∧ (t.buf b).content = (s.buf b).content := by
  subst ha
  have hlock : (s.buf b).lock = some a.proc := by
    rcases (h.mem.bio.step hstep).2.lock b with he | ⟨ha, -⟩ | ⟨-, -, ht⟩
    · exact he.symm.trans hb
    · exact absurd ha hacq
    · exact absurd (ht.symm.trans hb) nofun
  exact ⟨hlock, h.content_eq hstep (.inl (by rw [hlock]; nofun))⟩

/-- Between calls everything that is held is valid. -/
theorem Inv.valid_bio (h : Inv C s) (hcall : s.call p = .none)
    (hstep : Bio.step s.bio a = some t.bio) (hacq : a ≠ .acquiresleep p) (ha : a.proc = p)
    (hb : (t.buf b).lock = some p) : (t.buf b).valid = true := by
  obtain ⟨hs, hc⟩ := h.held_bio hstep hb hacq ha
  exact (valid_of_content hc).trans ((h.proc p).valid hcall hs)

theorem Inv.lookup (h : Inv C s) (hcall : s.call p = .none)
    (hjob : ∀ d code, s.job p = some (d, code) → ∃ r n rest, code = .bread r n :: rest ∧ x = (d, n))
    (hstep : lookup s p x = some t) : Next C s t := by
  obtain ⟨u, hu, hstep⟩ := Option.bind_eq_some_iff.mp hstep
  obtain ⟨bio, hbio, rfl⟩ := bioStep_eq_some hu
  have hheld : ∀ b, (bio.buf b).lock = some p → (bio.buf b).valid = true :=
    fun b => h.valid_bio (t := s.setBio bio) hcall hbio nofun rfl
  have hsat : ∀ {u : State P D} {d code}, u.bio = bio → u.log = s.log → u.disk = s.disk →
      u.stored = s.stored → u.dirty = s.dirty → u.reg = s.reg → s.job p = some (d, code) →
      ∃ w, Sat C u p d w ∧ Safe C d w code := by
    intro u d code hu hlog hdisk hstored hdirty hreg hj
    obtain ⟨w, hsat, hsafe⟩ := (h.proc p).job d code hj
    refine ⟨w, hsat.steady ?_, hsafe⟩
    exact h.steady_self (a := .bget p x.1 x.2) (hu ▸ hbio) nofun nofun hlog hdisk hstored hdirty (by rw [hreg])
  split_ifs at hstep with hpanic
  · cases hstep
    exact h.quiet_bio (p := p) hbio rfl nofun nofun (others_of_eq rfl rfl rfl) rfl rfl rfl rfl
      (.between hcall hheld fun d code hj => hsat rfl rfl rfl rfl rfl rfl hj)
  · cases hstep
    have hc : ((s.setBio bio).setCall p (.bread x)).call p = .bread x := Function.update_self ..
    refine h.quiet_bio (p := p) hbio rfl nofun nofun (others_of_eq rfl rfl rfl).setCall rfl rfl rfl
      rfl ?_
    refine ⟨fun b hb => .inl (hheld b hb), fun y hy => ?_, ?_, ?_,
      fun d code hj => hsat rfl rfl rfl rfl rfl rfl hj, fun d code hj => ?_⟩
    · rw [hc] at hy
      cases hy
      exact ((h.mem.bio.step hbio).2).waiting (Bool.eq_false_iff.mpr hpanic)
    · rw [hc]
      nofun
    · rw [hc]
      nofun
    · obtain ⟨r, n, rest, hcode, rfl⟩ := hjob d code hj
      exact .inr ⟨r, n, rest, hcode, .inl hc⟩

theorem Inv.acquiresleep (h : Inv C s) (hcall : s.call p = .bread x) (hpc : s.bio.pc p = .waiting b) (hbio : Bio.step s.bio (.acquiresleep p) = some bio) :
    Next C s ((s.setBio bio).setCall p (.fill x b)) := by
  have hl := h.proc p
  have hc : ((s.setBio bio).setCall p (.fill x b)).call p = .fill x b := Function.update_self ..
  obtain ⟨-, heffect⟩ := h.mem.bio.step hbio
  -- the lock was free, and is now taken
  have hlock : (s.buf b).lock = none ∧ (bio.buf b).lock = some p ∧ bio.pc p = .idle := by
    cases heffect with
    | acquiresleep _ a hp hlock =>
        obtain rfl : a = b := Pc.waiting.inj (hp.symm.trans hpc)
        refine ⟨hlock, ?_, Function.update_self ..⟩
        exact (lock_setLock (c := s.bio.cache) (some p) a).trans (if_pos rfl)
  have hclean : s.dirty b = false := by
    by_contra hd
    exact h.mem.dirty b (by simpa using hd) hlock.1
  obtain ⟨a, ha, hlabel⟩ := hl.bread x hcall
  obtain rfl : a = b := Pc.waiting.inj (ha.symm.trans hpc)
  have hcontent : (bio.buf a).content = (s.buf a).content :=
    (heffect.content a).resolve_right fun hz =>
      (h.mem.bio.refs a).ne_zero (p := p) (.inl (by rw [hpc]; rfl)) hz.1
  refine h.quiet_bio (p := p) hbio rfl nofun nofun (others_of_eq rfl rfl rfl).setCall rfl rfl rfl
    rfl ⟨fun b hb => ?_, ?_, fun y b hy => ?_, ?_, fun d code hj => ?_, fun d code hj => ?_⟩
  · rcases heffect.lock b with he | ⟨-, hb', -, -⟩ | ⟨hs, -⟩
    · have hs : (s.buf b).lock = some p := he.symm.trans hb
      have hcb := h.content_eq (t := s.setBio bio) hbio (.inl (by rw [hs]; nofun))
      rcases hl.held b hs with hv | ⟨y, hy⟩
      · exact .inl ((valid_of_content hcb).trans hv)
      · rw [hcall] at hy
        cases hy
    · obtain rfl : a = b := Pc.waiting.inj (ha.symm.trans hb')
      exact .inr ⟨x, hc⟩
    · cases hs
  · rw [hc]
    nofun
  · rw [hc] at hy
    cases hy
    exact ⟨hlock.2.2, hlock.2.1, (Prod.mk.inj hcontent).1.trans hlabel, hclean⟩
  · rw [hc]
    nofun
  · obtain ⟨w, hsat, hsafe⟩ := hl.job d code hj
    exact ⟨w, hsat.steady (h.steady_self hbio nofun nofun rfl rfl rfl rfl rfl), hsafe⟩
  · rcases hl.reading d code hj with hno | ⟨r, n, rest, hcode, hread | ⟨b, hread⟩⟩
    · rw [hcall] at hno
      cases hno
    · rw [hcall] at hread
      cases hread
      exact .inr ⟨r, n, rest, hcode, .inr ⟨a, hc⟩⟩
    · rw [hcall] at hread
      cases hread

/-- The end of `bread`: the buffer has what was stored in the block. -/
theorem Inv.fill (h : Inv C s) (hcall : s.call p = .fill x b) :
    Next C s (fill s p b) ∧ (fill s p b).call p = .none ∧
      ((fill s p b).buf b).lock = some p ∧ ((fill s p b).buf b).label = x ∧
        ((fill s p b).buf b).valid = true ∧ (fill s p b).stored = s.stored := by
  have hl := h.proc p
  obtain ⟨-, hlock, hlabel, hclean⟩ := hl.fill x b hcall
  have hlock' : (s.buf b).lock ≠ none := by simp [hlock]
  unfold Blocks.fill
  simp only
  -- the state with the contents, whatever they are
  have hu : ∃ u : State P D, (if (s.buf b).valid then s else s.setData b (s.disk (s.buf b).label)) = u ∧
      Mem u ∧ (u.bio = s.bio ∨ ∃ v, u.bio = (s.setData b v).bio) ∧ (u.buf b).valid = true ∧
      u.log = s.log ∧ u.disk = s.disk ∧ u.stored = s.stored ∧ u.dirty = s.dirty ∧
      u.call = s.call ∧ u.job = s.job ∧ u.reg = s.reg := by
    refine ⟨_, rfl, ?_⟩
    split_ifs with hv
    · exact ⟨h.mem, .inl rfl, hv, rfl, rfl, rfl, rfl, rfl, rfl, rfl⟩
    · refine ⟨h.mem.read hlock' (by simpa using hv) rfl rfl rfl rfl, .inr ⟨_, rfl⟩, ?_, rfl, rfl, rfl,
        rfl, rfl, rfl, rfl⟩
      rw [buf_setData, if_pos rfl]
  obtain ⟨u, hif, hmem, hbio, hvalid, hlog, hdisk, hstored, hdirty, huc, huj, hur⟩ := hu
  rw [hif]
  have hctl : Others p s (u.setCall p .none) := (others_of_eq huc huj hur).setCall
  have hby : ∀ {t : State P D}, Others p s t → t.bio = u.bio → t.log = u.log → t.disk = u.disk →
      t.stored = u.stored → t.dirty = u.dirty → By p s t := by
    intro t ht h1 h2 h3 h4 h5
    refine .contents ht ?_ (fun a _ => by rw [h5, hdirty]) (fun d => .inl (by rw [h2, hlog]))
      (fun y => .inl (by rw [h3, hdisk])) fun y => .inl (by rw [h4, hstored])
    rw [h1]
    refine hbio.imp_right ?_
    rintro ⟨v, hv⟩
    exact ⟨b, v, hlock, hv⟩
  -- locks, labels and contents of the other buffers stay
  have hsame : ∀ a, (u.buf a).lock = (s.buf a).lock ∧ (u.buf a).label = (s.buf a).label ∧
      ((s.buf a).valid = true → (u.buf a).valid = true) ∧ u.bio.pins a = s.bio.pins a := by
    intro a
    rcases hbio with he | ⟨v, he⟩
    · rw [State.buf, he]
      exact ⟨rfl, rfl, id, rfl⟩
    · rw [State.buf, he]
      change ((s.setData b v).buf a).lock = _ ∧ ((s.setData b v).buf a).label = _ ∧
        (_ → ((s.setData b v).buf a).valid = true) ∧ _
      rw [buf_setData]
      split_ifs with hab
      · subst hab
        exact ⟨rfl, rfl, fun _ => rfl, rfl⟩
      · exact ⟨rfl, rfl, id, rfl⟩
  have hheld : ∀ a, (u.buf a).lock = some p → (u.buf a).valid = true := by
    intro a ha
    rcases hl.held a ((hsame a).1.symm.trans ha) with hv | ⟨y, hy⟩
    · exact (hsame a).2.2.1 hv
    · rw [hcall] at hy
      cases hy
      exact hvalid
  have hlogs : ∀ {t : State P D}, t.bio = u.bio → t.log = u.log → Logs C t := by
    intro t h1 h2
    refine h.logs.congr (h2.trans hlog) fun d n _ => ?_
    rintro ⟨a, ha, hpos⟩
    refine ⟨a, ?_, ?_⟩
    · rw [State.buf, h1]
      exact (hsame a).2.1.trans ha
    · rw [h1, (hsame a).2.2.2]
      exact hpos
  have hsteady : ∀ {d}, Steady p d s u := by
    intro d
    refine ⟨by rw [hlog], fun _ => by rw [hstored], ?_, by rw [hur],
      fun a ha => (hsame a).1.trans ha, fun a _ => (hsame a).2.2.1, fun a _ => (hsame a).2.1,
      fun a _ => by rw [hdirty], fun a _ => by rw [hdisk]⟩
    rintro n ⟨a, ha, hpos⟩
    exact ⟨a, (hsame a).2.1.trans ha, (hsame a).2.2.2 ▸ hpos⟩
  have hcall' : ∀ c, (u.setCall p c).call p = c := fun c => Function.update_self ..
  refine ⟨?_, ?_⟩
  · split
    next d r n rest hj =>
      rw [show (u.setCall p .none).job = s.job from huj] at hj
      obtain ⟨w, hsat, hpre, hsafe⟩ := hl.job d _ hj
      have hx : x = (d, n) := by
        rcases hl.reading d _ hj with hno | ⟨r', n', rest', hcode, hread | ⟨a, hread⟩⟩
        · rw [hcall] at hno
          cases hno
        · rw [hcall] at hread
          cases hread
        · rw [hcall] at hread
          cases hread
          cases hcode
          rfl
      subst hx
      have hsat' := hsat.steady (t := u) hsteady
      have hholds : Holds u p d b ⟨n, .read⟩ :=
        ⟨(hsame b).1.trans hlock, hvalid, (hsame b).2.1.trans hlabel, fun _ => by rw [hdirty, hclean],
          (by simp)⟩
      have hsat'' := hsat'.setReg (r := r) (k := ⟨n, .read⟩) hpre hholds
      exact h.of_by (hby hctl.setReg.setJob rfl rfl rfl rfl rfl)
        (hmem.congr rfl rfl rfl rfl) (hlogs rfl rfl)
        (.running (w := post w (.bread r n)) (hcall' _) (Function.update_self ..)
          (hsat''.steady (.of_eq rfl rfl rfl rfl rfl rfl)) hsafe hheld)
    next =>
      refine h.of_by (hby hctl rfl rfl rfl rfl rfl) (hmem.congr rfl rfl rfl rfl) (hlogs rfl rfl)
        (.between (hcall' _) hheld fun d code hj => ?_)
      rw [show (u.setCall p .none).job = s.job from huj] at hj
      obtain ⟨w, hsat, hsafe⟩ := hl.job d code hj
      exact ⟨w, (hsat.steady hsteady).steady (.of_eq rfl rfl rfl rfl rfl rfl), hsafe⟩
  · split
    · exact ⟨hcall' _, (hsame b).1.trans hlock, (hsame b).2.1.trans hlabel, hvalid, hstored⟩
    · exact ⟨hcall' _, (hsame b).1.trans hlock, (hsame b).2.1.trans hlabel, hvalid, hstored⟩

/-! ### Operations -/

theorem Inv.modify (h : Inv C s) (hready : s.Ready p) (hlock : (s.buf b).lock = some p)
    (hop : ((s.log (s.buf b).dev).pc p).op.isSome = true) :
    Next C s (((s.setData b v).setDirty b true).setStored (s.buf b).label v) := by
  have hlock' : (s.buf b).lock ≠ none := by rw [hlock]; nofun
  obtain ⟨hcall, hjob, -⟩ := hready
  refine h.of_by (p := p) (.contents (others_of_eq rfl rfl rfl) (.inr ⟨b, v, hlock, rfl⟩)
    (fun a ha => ?_) (fun _ => .inl rfl) (fun _ => .inl rfl) fun y => ?_)
    (h.mem.write hlock' rfl rfl rfl rfl) (h.logs.congr rfl fun d n _ => ?_)
    (.ready hcall hjob fun a ha => ?_)
  · refine Function.update_of_ne ?_ ..
    rintro rfl
    exact ha hlock
  · by_cases hy : y = (s.buf b).label
    · subst hy
      refine .inr fun hidle => ?_
      rw [show (s.log (s.buf b).dev).pc p = .idle from hidle] at hop
      cases hop
    · exact .inl (Function.update_of_ne hy ..)
  · rintro ⟨a, ha, hpos⟩
    refine ⟨a, ?_, hpos⟩
    change ((s.setData b v).buf a).label = _
    rw [buf_setData]
    split_ifs with hab
    · subst hab
      exact ha
    · exact ha
  · change ((s.setData b v).buf a).lock = some p at ha
    change ((s.setData b v).buf a).valid = true
    rw [buf_setData] at ha ⊢
    split_ifs at ha ⊢ with hab
    · rfl
    · exact (h.proc p).valid hcall ha

/-- A step of a log by a process that is between calls. -/
theorem Inv.logStep {a : Group.Act P} (h : Inv C s)
    (hstep : Group.step (s.log d) a = some l) (ha : a.proc = p) (hrec : ∀ p, a ≠ .record p)
    (hdone : (s.log d).pc p = .commit .done → (s.log d).lh = [])
    (hlog : t.log = Function.update s.log d l) (hbio : t.bio = s.bio) (hdisk : t.disk = s.disk)
    (hstored : t.stored = s.stored) (hdirty : t.dirty = s.dirty) (hctl : Others p s t)
    (hlocal : Local C t p) : Next C s t := by
  subst ha
  refine h.of_by (.contents hctl (.inl hbio) (fun b _ => by rw [hdirty]) (fun e => ?_)
    (fun y => .inl (by rw [hdisk])) fun y => .inl (by rw [hstored]))
    (h.mem.congr hbio hdisk hstored hdirty) (h.logs.logStep hstep hrec hdone hlog hbio) hlocal
  rw [hlog, Function.update_apply]
  split_ifs with he
  · subst he
    exact .inr ⟨a, rfl, hstep⟩
  · exact .inl rfl

theorem Inv.logWrite (h : Inv C s) (hready : s.Ready p) (hlock : (s.buf b).lock = some p)
    (hhome : ¬ C.InLog (s.buf b).label) (hstep : logWrite s p b = some t) : Next C s t := by
  obtain ⟨hcall, hjob, -⟩ := hready
  obtain ⟨u, hu, hstep⟩ := Option.bind_eq_some_iff.mp hstep
  obtain ⟨l, hl, rfl⟩ := logStep_eq_some hu
  have hheld : ∀ a, (s.buf a).lock = some p → (s.buf a).valid = true :=
    fun a => (h.proc p).valid hcall
  have hdone : (s.log (s.buf b).dev).pc p = .commit .done → (s.log (s.buf b).dev).lh = [] := by
    intro hp
    cases Group.effect_of_step hl with
    | logWrite _ k _ hk => exact absurd (hp.symm.trans hk) nofun
  split_ifs at hstep with hpanic
  · cases hstep
    exact h.logStep hl rfl nofun hdone rfl rfl rfl rfl rfl (others_of_eq rfl rfl rfl)
      (.ready hcall hjob hheld)
  · cases hstep
    have hc : ((s.setLog (s.buf b).dev l).setCall p (.logWrite b)).call p = .logWrite b :=
      Function.update_self ..
    refine h.logStep hl (p := p) rfl nofun hdone rfl rfl rfl rfl rfl
      (others_of_eq rfl rfl rfl).setCall ⟨fun a ha => .inl (hheld a ha), ?_, ?_, fun a ha => ?_, ?_, ?_⟩
    · rw [hc]
      nofun
    · rw [hc]
      nofun
    · rw [hc] at ha
      cases ha
      refine ⟨hlock, hheld b hlock, hhome, hjob, ?_⟩
      -- the tests have been passed
      cases Group.effect_of_step hl with
      | logWrite _ k _ hk =>
          refine ⟨k, ?_⟩
          change (Function.update s.log (s.buf b).dev _ (s.buf b).dev).pc p = _
          rw [Function.update_self]
          exact Group.logWrite_pc (Option.not_isSome_iff_eq_none.mp hpanic)
    · rw [show ((s.setLog (s.buf b).dev l).setCall p (.logWrite b)).job = s.job from rfl, hjob]
      nofun
    · rw [show ((s.setLog (s.buf b).dev l).setCall p (.logWrite b)).job = s.job from rfl, hjob]
      nofun

theorem Inv.brelse (h : Inv C s) (hready : s.Ready p)
    (hclean : s.dirty b = false) (hbio : Bio.step s.bio (.releasesleep p b) = some bio) :
    Next C s (s.setBio bio) := by
  obtain ⟨hcall, hjob, -⟩ := hready
  refine h.quiet_bio (p := p) hbio rfl (fun a ha => ?_) nofun (others_of_eq rfl rfl rfl) rfl rfl rfl
    rfl (.ready hcall hjob fun a => h.valid_bio (t := s.setBio bio) hcall hbio nofun rfl)
  cases ha
  exact hclean

theorem Inv.unref (h : Inv C s)
    (hbio : Bio.step s.bio (.unref p) = some bio) : Next C s (s.setBio bio) := by
  obtain ⟨-, heffect⟩ := h.mem.bio.step hbio
  have hl := h.proc p
  have hpc : ∃ b, s.bio.pc p = .releasing b := by
    cases heffect with
    | unref _ b hp => exact ⟨b, hp⟩
  obtain ⟨b₀, hpc⟩ := hpc
  have hlock : ∀ a, (bio.buf a).lock = (s.buf a).lock :=
    fun a => h.lock_eq (t := s.setBio bio) hbio nofun nofun
  have hcontent : ∀ a, (s.buf a).lock = some p → (bio.buf a).content = (s.buf a).content := by
    intro a ha
    exact (h.held_bio (t := s.setBio bio) hbio ((hlock a).trans ha) nofun rfl).2
  refine h.quiet_bio (p := p) hbio rfl nofun nofun (others_of_eq rfl rfl rfl) rfl rfl rfl rfl
    ⟨fun a ha => ?_, fun x hx => ?_, fun x a hx => ?_, fun a ha => ?_, fun d code hj => ?_, hl.reading⟩
  · have hs := (hlock a).symm.trans ha
    exact (hl.held a hs).imp_left (valid_of_content (hcontent a hs)).trans
  · obtain ⟨a, ha, -⟩ := hl.bread x hx
    cases hpc.symm.trans ha
  · cases hpc.symm.trans (hl.fill x a hx).1
  · obtain ⟨hs, hvalid, hrest⟩ := hl.logWrite a ha
    have hc := hcontent a hs
    refine ⟨(hlock a).trans hs, (valid_of_content hc).trans hvalid, ?_⟩
    rw [show (s.setBio bio).buf a = bio.buf a from rfl, (Prod.mk.inj hc).1]
    exact hrest
  · obtain ⟨w, hsat, hsafe⟩ := hl.job d code hj
    exact ⟨w, hsat.steady (h.steady_self hbio nofun nofun rfl rfl rfl rfl rfl), hsafe⟩

theorem Inv.beginOp (h : Inv C s) (hready : s.Ready p)
    (hl : Group.step (s.log d) (.beginOp p) = some l) : Next C s (s.setLog d l) := by
  obtain ⟨hcall, hjob, -⟩ := hready
  refine h.logStep hl rfl nofun (fun hp => ?_) rfl rfl rfl rfl rfl (others_of_eq rfl rfl rfl)
    (.ready hcall hjob fun a => (h.proc p).valid hcall)
  cases Group.effect_of_step hl with
  | beginOp _ hidle hc => exact absurd (hp.symm.trans hidle) nofun

/-- After the search of `log_write` the block is pinned, by this call or by
an earlier one. -/
theorem Inv.pin {u : State P D} (h : Inv C s) (hlock : (s.buf b).lock = some p)
    (hcommit : (s.log (s.buf b).dev).committing = false) (hu : pinNew s p b = some u) :
    Mem u ∧ 0 < u.bio.pins b ∧ By p s u ∧ (∀ a, s.bio.pins a ≤ u.bio.pins a) ∧
      (∀ a, (u.buf a).lock = some p → (s.buf a).lock = some p ∧
        (u.buf a).content = (s.buf a).content) ∧ u.log = s.log ∧ u.job = s.job := by
  have hz : (s.buf b).refcnt ≠ 0 := h.mem.ne_zero (.inl (by rw [hlock]; nofun))
  unfold pinNew at hu
  split_ifs at hu with hmem
  · cases hu
    obtain ⟨a, ha, hpos⟩ := h.logs.pinned _ hcommit _ hmem
    obtain rfl := h.mem.bio.label_inj (.inl (h.mem.ne_zero (.inr hpos))) (.inl hz) ha
    exact ⟨h.mem, hpos, .contents (others_of_eq rfl rfl rfl) (.inl rfl) (fun _ _ => rfl)
      (fun _ => .inl rfl) (fun _ => .inl rfl) (fun _ => .inl rfl), fun _ => le_rfl,
      fun _ ha => ⟨ha, rfl⟩, rfl, rfl⟩
  · obtain ⟨bio, hbio, rfl⟩ := bioStep_eq_some hu
    obtain ⟨-, heffect⟩ := h.mem.bio.step hbio
    have hkeep : ∀ a, (bio.buf a).lock = (s.buf a).lock :=
      fun a => h.lock_eq (t := s.setBio bio) hbio nofun nofun
    refine ⟨?_, ?_, ?_, fun a => heffect.pins_le nofun,
      fun a ha => h.held_bio (t := s.setBio bio) hbio ha nofun rfl, rfl, rfl⟩
    · refine h.mem.bioStep hbio rfl rfl (fun a ha => ?_) fun a _ hkept => ?_
      · rw [show (s.setBio bio).buf a = bio.buf a from rfl, hkeep]
        exact h.mem.dirty a ha
      · exact hkept.imp_left fun hpos => hpos.trans_le (heffect.pins_le nofun)
    · cases heffect with
      | bpin _ _ _ =>
          change 0 < Function.update s.bio.pins b (s.bio.pins b + 1) b
          rw [Function.update_self]
          exact Nat.succ_pos _
    · exact .bioStep h.mem.bio hbio rfl (others_of_eq rfl rfl rfl) rfl rfl (fun _ _ => rfl)
        (fun _ => .inl rfl) nofun

/-- `log_write` under the lock. -/
theorem Inv.record (h : Inv C s) (hcall : s.call p = .logWrite b) (hstep : record s p b = some t) :
    Next C s t := by
  obtain ⟨hlock, hvalid, hhome, hjob, k, hk⟩ := (h.proc p).logWrite b hcall
  have hz : (s.buf b).refcnt ≠ 0 := h.mem.ne_zero (.inl (by rw [hlock]; nofun))
  have hop : ((s.log (s.buf b).dev).pc p).op = some k := congrArg Group.Pc.op hk
  have hcommit := (h.logs.log _).not_committing hop
  obtain ⟨u, hu, hstep⟩ := Option.bind_eq_some_iff.mp hstep
  obtain ⟨u', hu', hstep⟩ := Option.bind_eq_some_iff.mp hstep
  obtain ⟨l, hl, rfl⟩ := logStep_eq_some hu'
  cases hstep
  obtain ⟨hmem, hpin, hby, hpins, hheld, hlog, huj⟩ := h.pin hlock hcommit hu
  rw [hlog] at hl
  have hinv := (h.logs.log _).step hl
  obtain ⟨hlh, hflag⟩ : (∀ n ∈ l.lh, n ∈ (s.log (s.buf b).dev).lh ∨ n = (s.buf b).blockno) ∧
      l.committing = (s.log (s.buf b).dev).committing := by
    cases Group.effect_of_step hl with
    | record _ k' n' hk' =>
        obtain ⟨-, rfl⟩ := Group.Pc.logging.inj (hk.symm.trans hk')
        refine ⟨fun n hn => ?_, rfl⟩
        change n ∈ (if _ then _ else _) at hn
        split_ifs at hn
        · exact .inl hn
        · exact (List.mem_append.mp hn).imp_right List.mem_singleton.mp
  have hpinned : ∀ x, s.Pinned x → u.Pinned x := by
    rintro x ⟨a, ha, hpos⟩
    exact ⟨a, (hby.label a (h.mem.ne_zero (.inr hpos))).trans ha, hpos.trans_le (hpins a)⟩
  refine h.of_by (p := p) ?_ (hmem.unmark hpin rfl rfl rfl rfl) ⟨fun e => ?_, fun e n hn => ?_,
    fun e he n hn => ?_⟩ (.ready (Function.update_self ..) ?_ fun a ha => ?_)
  · refine ⟨fun q hq => (Function.update_of_ne hq ..).trans (hby.call q hq), hby.job, hby.reg, hby.pc,
      hby.lock, hby.label, hby.valid, fun a ha => ?_, fun e => ?_, hby.disk, hby.stored, hby.pins⟩
    · refine (Function.update_of_ne ?_ ..).trans (hby.dirty a ha)
      rintro rfl
      exact ha hlock
    · change Function.update u.log _ l e = _ ∨ _
      rw [hlog, Function.update_apply]
      split_ifs with hed
      · subst hed
        refine .inr ⟨.record p, rfl, ?_⟩
        change _ = some (Function.update u.log _ l _)
        rw [Function.update_self]
        exact hl
      · exact .inl rfl
  · change Group.Inv (Function.update u.log _ l e)
    rw [hlog, Function.update_apply]
    split_ifs
    · exact hinv
    · exact h.logs.log e
  · change n ∈ (Function.update u.log _ l e).lh at hn
    rw [hlog, Function.update_apply] at hn
    split_ifs at hn with hed
    · subst hed
      rcases hlh n hn with hn | rfl
      · exact h.logs.home _ n hn
      · exact hhome
    · exact h.logs.home e n hn
  · change n ∈ (Function.update u.log _ l e).lh at hn
    change (Function.update u.log _ l e).committing = false at he
    rw [hlog, Function.update_apply] at he hn
    split_ifs at he hn with hed
    · subst hed
      rcases hlh n hn with hn | rfl
      · exact hpinned _ (h.logs.pinned _ hcommit n hn)
      · exact ⟨b, hby.label b hz, hpin⟩
    · exact hpinned _ (h.logs.pinned e he n hn)
  · rw [← hjob, ← huj]
    rfl
  · obtain ⟨hs, hc⟩ := hheld a ha
    rcases (h.proc p).held a hs with hv | ⟨y, hy⟩
    · exact (valid_of_content hc).trans hv
    · rw [hcall] at hy
      cases hy

/-- The last operation of a device goes on to commit it. -/
theorem Inv.endOp (h : Inv C s) (hready : s.Ready p) (hstep : endOp s p d = some t) : Next C s t := by
  obtain ⟨hcall, hjob, -⟩ := hready
  obtain ⟨u, hu, hstep⟩ := Option.bind_eq_some_iff.mp hstep
  obtain ⟨l, hl, rfl⟩ := logStep_eq_some hu
  have hheld : ∀ a, (s.buf a).lock = some p → (s.buf a).valid = true :=
    fun a => (h.proc p).valid hcall
  obtain ⟨k, hk, hlh⟩ : ∃ k, (s.log d).pc p = .active k ∧ l.lh = (s.log d).lh := by
    cases Group.effect_of_step hl with
    | endOp _ k hk =>
        refine ⟨k, hk, ?_⟩
        unfold Group.endOp
        simp only
        split_ifs <;> rfl
  have hdone : (s.log d).pc p = .commit .done → (s.log d).lh = [] := by
    intro hp
    cases hp.symm.trans hk
  split_ifs at hstep with hcommit
  · cases hstep
    refine h.logStep hl (p := p) rfl nofun hdone rfl rfl rfl rfl rfl
      (others_of_eq rfl rfl rfl).setJob (.running (w := .start (s.log d).lh) hcall
        (Function.update_self ..) ⟨hcommit, ?_, nofun, nofun, fun i n _ hn => ?_, nofun, ?_⟩
        ⟨rfl, ⟨rfl, rfl⟩, trivial⟩ hheld)
    · change (Function.update s.log d l d).lh = _
      rw [Function.update_self, hlh]
      rfl
    · exact h.logs.pinned d ((h.logs.log d).not_committing (p := p) (k := k) (by rw [hk]; rfl)) n
        (List.mem_of_getElem? hn)
    · intro r k hr
      cases r <;> cases hr
  · cases hstep
    exact h.logStep hl rfl nofun hdone rfl rfl rfl rfl rfl (others_of_eq rfl rfl rfl)
      (.ready hcall hjob hheld)

/-! ### Instructions of `commit` -/

theorem Inv.goto (h : Inv C s) (hcall : s.call p = .none) (hsat : Sat C s p d w)
    (hsafe : Safe C d w code) : Next C s (s.setJob p (some (d, code))) :=
  h.of_by (p := p) (.contents (others_of_eq rfl rfl rfl).setJob (.inl rfl) (fun _ _ => rfl)
    (fun _ => .inl rfl) (fun _ => .inl rfl) (fun _ => .inl rfl)) (h.mem.congr rfl rfl rfl rfl)
    (h.logs.congr rfl fun _ _ _ => id)
    (.running hcall (Function.update_self ..) (hsat.steady (.of_eq rfl rfl rfl rfl rfl rfl)) hsafe
      fun _ => (h.proc p).valid hcall)

/-- The block of a header entry is not the log block it is copied to. -/
theorem Inv.log_ne_home {tail : ℕ} (h : Inv C s) (hsat : Sat C s p d w)
    (hn : w.lh[tail]? = some n) (hfits : tail = 0 ∨ 0 < w.copied) : C.start d + tail + 1 ≠ n := by
  have hlt : tail < w.lh.length := (List.getElem?_eq_some_iff.mp hn).1
  rintro rfl
  refine h.logs.home d _ (hsat.lh ▸ List.mem_of_getElem? hn) ⟨by simp only; omega, ?_⟩
  simp only [nlog, logSize, maxOpBlocks] at *
  rcases hfits with rfl | hpos
  · omega
  · have := hsat.fits hpos
    simp only [nlog, logSize, maxOpBlocks] at this
    omega

theorem Sat.relog {w' : View} (h : Sat C s p d w) (hphase : (t.log d).pc p = .commit w'.phase)
    (hlh : (t.log d).lh = w'.lh) (hl : w'.lbuf = w.lbuf) (hd : w'.dbuf = w.dbuf)
    (hw : (w'.lh = w.lh ∧ w'.copied = w.copied ∧ w'.installed = w.installed) ∨
      (w'.lh = [] ∧ w'.copied = 0)) (hbio : t.bio = s.bio) (hdisk : t.disk = s.disk)
    (hstored : t.stored = s.stored) (hdirty : t.dirty = s.dirty) (hreg : t.reg = s.reg) :
    Sat C t p d w' := by
  have hbuf : t.buf = s.buf := by
    funext a
    rw [State.buf, hbio]
  have hpin : ∀ x, s.Pinned x → t.Pinned x := by
    rintro x ⟨a, ha⟩
    refine ⟨a, ?_⟩
    rw [hbuf, hbio]
    exact ha
  refine ⟨hphase, hlh, ?_, ?_, ?_, ?_, fun r k hr => ?_⟩
  · rw [hstored]
    rcases hw with ⟨h1, h2, -⟩ | ⟨-, h2⟩
    · rw [h1, h2]
      exact h.copied
    · rw [h2]
      simp
  · rcases hw with ⟨h1, h2, -⟩ | ⟨-, h2⟩
    · rw [h1, h2]
      exact h.fits
    · rw [h2]
      simp
  · rcases hw with ⟨h1, -, h3⟩ | ⟨h1, -⟩
    · rw [h1, h3]
      exact fun i n hi hn => hpin _ (h.pinned i n hi hn)
    · rw [h1]
      simp
  · rw [hl, hd]
    exact h.apart
  · have hr' : w.reg r = some k := by
      cases r with
      | lbuf => exact hl.symm.trans hr
      | dbuf => exact hd.symm.trans hr
    have := h.holds r k hr'
    rw [hreg]
    refine ⟨?_, ?_, ?_, ?_, ?_⟩
    · rw [hbuf]
      exact this.lock
    · rw [hbuf]
      exact this.valid
    · rw [hbuf]
      exact this.label
    · rw [hdirty]
      exact this.clean
    · rw [hdisk, hstored]
      exact this.written

/-- The step of the log that ends a phase. -/
theorem Inv.next {u : View} (h : Inv C s) (hcall : s.call p = .none)
    (hsat : Sat C s p d w) (hl : Group.step (s.log d) (.commit p) = some l)
    (hdone : w.phase ≠ .done) (hphase : l.pc p = .commit u.phase) (hlh : l.lh = u.lh)
    (hlb : u.lbuf = w.lbuf) (hdb : u.dbuf = w.dbuf)
    (hw : (u.lh = w.lh ∧ u.copied = w.copied ∧ u.installed = w.installed) ∨
      (u.lh = [] ∧ u.copied = 0)) (hsafe : Safe C d u code) :
    Next C s ((s.setLog d l).setJob p (some (d, code))) := by
  refine h.logStep hl (p := p) rfl nofun (fun hp => ?_) rfl rfl rfl rfl rfl
    (others_of_eq rfl rfl rfl).setJob (.running hcall (Function.update_self ..)
      (hsat.relog ?_ ?_ hlb hdb hw rfl rfl rfl rfl rfl) hsafe fun _ => (h.proc p).valid hcall)
  · exact absurd (Group.Pc.commit.inj (hsat.phase.symm.trans hp)) hdone
  · change (Function.update s.log d l d).pc p = _
    rw [Function.update_self, hphase]
  · change (Function.update s.log d l d).lh = _
    rw [Function.update_self, hlh]

theorem View.reg_mark {r' : Reg} {state : HoldState} (hr : w.reg r = some k) :
    (w.mark r state).reg r' = if r' = r then some { k with state := state } else w.reg r' := by
  unfold View.mark
  rw [hr]
  cases r <;> cases r' <;> rfl

theorem View.mark_fields (r : Reg) (state : HoldState) :
    (w.mark r state).phase = w.phase ∧ (w.mark r state).lh = w.lh ∧
      (w.mark r state).copied = w.copied ∧ (w.mark r state).installed = w.installed := by
  cases r <;> exact ⟨rfl, rfl, rfl, rfl⟩

/-- Two variables hold different blocks. -/
theorem Sat.block_ne {r' : Reg} {k' : Hold} (h : Sat C s p d w) (hr : w.reg r = some k)
    (hr' : w.reg r' = some k') (hne : r' ≠ r) : k'.block ≠ k.block := by
  cases r <;> cases r'
  · exact absurd rfl hne
  · exact (h.apart k k' hr hr').symm
  · exact h.apart k' k hr' hr
  · exact absurd rfl hne

/-- A change to the buffer of one variable, as the view sees it. -/
theorem Sat.mark {state : HoldState} (h : Sat C s p d w)
    (hr : w.reg r = some k) (hlog : t.log = s.log) (hreg : t.reg = s.reg)
    (hpin : ∀ x, s.Pinned x → t.Pinned x)
    (hcopied : ∀ i n, i < w.copied → w.lh[i]? = some n →
      t.stored (d, C.start d + i + 1) = t.stored (d, n))
    (hself : Holds t p d (s.reg p r) { k with state := state })
    (hother : ∀ b k', k'.block ≠ k.block → Holds s p d b k' → Holds t p d b k') :
    Sat C t p d (w.mark r state) := by
  obtain ⟨h1, h2, h3, h4⟩ := View.mark_fields (w := w) r state
  have hblock : ∀ {q k'}, (w.mark r state).reg q = some k' →
      ∃ k'', w.reg q = some k'' ∧ k''.block = k'.block := by
    intro r' k' hr'
    rw [View.reg_mark hr] at hr'
    split_ifs at hr' with he
    · cases hr'
      exact ⟨k, he ▸ hr, rfl⟩
    · exact ⟨k', hr', rfl⟩
  refine ⟨?_, ?_, ?_, ?_, ?_, fun k₁ k₂ hk₁ hk₂ => ?_, fun r' k' hr' => ?_⟩
  · rw [hlog, h1]
    exact h.phase
  · rw [hlog, h2]
    exact h.lh
  · rw [h2, h3]
    exact hcopied
  · rw [h2, h3]
    exact h.fits
  · rw [h2, h4]
    exact fun i n hi hn => hpin _ (h.pinned i n hi hn)
  · obtain ⟨k₁', hl, he₁⟩ := hblock (q := .lbuf) hk₁
    obtain ⟨k₂', hd, he₂⟩ := hblock (q := .dbuf) hk₂
    rw [← he₁, ← he₂]
    exact h.apart k₁' k₂' hl hd
  · rw [View.reg_mark hr] at hr'
    rw [hreg]
    split_ifs at hr' with he
    · subst he
      cases hr'
      exact hself
    · exact hother _ k' (h.block_ne hr hr' he) (h.holds r' k' hr')

theorem copy_stored (C : Config D) (s : State P D) (b : Fin nbuf) (v : D)
    (hv : C.InLog (s.buf b).label ∨ v = s.stored (s.buf b).label) :
    (copy C s b v).stored = Function.update s.stored (s.buf b).label v := by
  unfold copy
  simp only
  split_ifs with hin
  · rfl
  · rw [hv.resolve_left hin, Function.update_eq_self]
    rfl

theorem copy_fields (C : Config D) (s : State P D) (b : Fin nbuf) (v : D) :
    (copy C s b v).bio = (s.setData b v).bio ∧ (copy C s b v).log = s.log ∧
      (copy C s b v).disk = s.disk ∧ (copy C s b v).dirty = Function.update s.dirty b true ∧
      (copy C s b v).call = s.call ∧ (copy C s b v).job = s.job ∧ (copy C s b v).reg = s.reg := by
  unfold copy
  simp only
  split_ifs <;> exact ⟨rfl, rfl, rfl, rfl, rfl, rfl, rfl⟩

/-- The log copies into the buffer of a variable. -/
theorem Inv.copy {w' : View} (h : Inv C s) (hcall : s.call p = .none)
    (hsat : Sat C s p d w) (hr : w.reg r = some k)
    (hv : C.InLog (d, k.block) ∨ v = s.stored (d, k.block))
    (hcopied : ∀ i n, i < w.copied → w.lh[i]? = some n →
      Function.update s.stored (d, k.block) v (d, C.start d + i + 1) =
        Function.update s.stored (d, k.block) v (d, n))
    (hw' : ∀ u : State P D, u.stored = Function.update s.stored (d, k.block) v →
      Sat C u p d (w.mark r .changed) → Sat C u p d w') (hsafe : Safe C d w' rest) :
    Next C s ((copy C s (s.reg p r) v).setJob p (some (d, rest))) := by
  have hk := hsat.holds r k hr
  have hlock' : (s.buf (s.reg p r)).lock ≠ none := by simp [hk.lock]
  obtain ⟨hbio, hlog, hdisk, hdirty, huc, huj, hur⟩ := copy_fields C s (s.reg p r) v
  have hstored := copy_stored C s (s.reg p r) v (by rw [hk.label]; exact hv)
  rw [hk.label] at hstored
  generalize Blocks.copy C s (s.reg p r) v = u at *
  have hbuf : ∀ a, u.buf a = if a = s.reg p r then
      { s.buf (s.reg p r) with valid := true, data := v } else s.buf a := by
    intro a
    rw [State.buf, hbio]
    exact buf_setData a
  have hlabel : ∀ a, (u.buf a).label = (s.buf a).label ∧ (u.buf a).lock = (s.buf a).lock ∧
      ((s.buf a).valid = true → (u.buf a).valid = true) := by
    intro a
    rw [hbuf]
    split_ifs with ha
    · rw [ha]
      exact ⟨rfl, rfl, fun _ => rfl⟩
    · exact ⟨rfl, rfl, id⟩
  have hpin : ∀ x, s.Pinned x → u.Pinned x := by
    rintro x ⟨a, ha, hpos⟩
    refine ⟨a, (hlabel a).1.trans ha, ?_⟩
    rw [hbio]
    exact hpos
  have hmem : Mem u := h.mem.write hlock' hbio hdisk (by rw [hk.label]; exact hstored) hdirty
  have hsat' : Sat C u p d (w.mark r .changed) := by
    refine hsat.mark hr hlog hur hpin ?_ ⟨?_, ?_, ?_, (by simp), (by simp)⟩ fun a k' hne hk' => ?_
    · rw [hstored]
      exact hcopied
    · exact (hlabel _).2.1.trans hk.lock
    · exact (hlabel _).2.2 hk.valid
    · exact (hlabel _).1.trans hk.label
    · have ha : a ≠ s.reg p r := by
        rintro rfl
        exact hne (Prod.mk.inj (hk'.label.symm.trans hk.label)).2
      refine ⟨(hlabel a).2.1.trans hk'.lock, (hlabel a).2.2 hk'.valid, (hlabel a).1.trans hk'.label,
        fun hc => ?_, fun hc => ?_⟩
      · rw [hdirty, Function.update_of_ne ha, hk'.clean hc]
      · rw [hdisk, hstored, Function.update_of_ne, hk'.written hc]
        exact fun he => hne (Prod.mk.inj he).2
  refine h.of_by (p := p) (.contents (others_of_eq huc huj hur).setJob (.inr ⟨_, v, hk.lock, hbio⟩)
    (fun a ha => ?_) (fun e => .inl (congrFun hlog e)) (fun y => .inl (congrFun hdisk y))
    fun y => ?_) (hmem.congr rfl rfl rfl rfl) (h.logs.congr hlog fun e n _ => hpin _)
    (.running (congrFun huc p |>.trans hcall) (Function.update_self ..)
      ((hw' u hstored hsat').steady (.of_eq rfl rfl rfl rfl rfl rfl)) hsafe fun a ha => ?_)
  · refine (congrFun hdirty a).trans (Function.update_of_ne ?_ ..)
    rintro rfl
    exact ha hk.lock
  · change u.stored y = _ ∨ _
    rw [hstored, Function.update_apply]
    split_ifs with hy
    · subst hy
      refine .inr ?_
      rw [hsat.phase]
      simp
    · exact .inl rfl
  · exact (hlabel a).2.2 ((h.proc p).valid hcall ((hlabel a).2.1.symm.trans ha))

theorem Inv.bwrite (h : Inv C s) (hcall : s.call p = .none)
    (hsat : Sat C s p d w) (hr : w.reg r = some k) (hsafe : Safe C d (w.mark r .written) rest) :
    Next C s ((bwrite s (s.reg p r)).setJob p (some (d, rest))) := by
  have hk := hsat.holds r k hr
  have hdata : (s.buf (s.reg p r)).data = s.stored (d, k.block) :=
    hk.label ▸ h.mem.data _ hk.valid
  have hdisk : (Blocks.bwrite s (s.reg p r)).disk =
      Function.update s.disk (d, k.block) (s.stored (d, k.block)) := by
    rw [← hdata, ← hk.label]
    rfl
  have hsat' : Sat C (Blocks.bwrite s (s.reg p r)) p d (w.mark r .written) := by
    refine hsat.mark hr rfl rfl (fun _ => id) hsat.copied ⟨hk.lock, hk.valid, hk.label, fun _ => ?_,
      fun _ => ?_⟩ fun a k' hne hk' => ⟨hk'.lock, hk'.valid, hk'.label, fun hc => ?_, fun hc => ?_⟩
    · exact Function.update_self ..
    · rw [hdisk, Function.update_self]
      rfl
    · refine (Function.update_of_ne ?_ ..).trans (hk'.clean hc)
      rintro rfl
      exact hne (Prod.mk.inj (hk'.label.symm.trans hk.label)).2
    · rw [hdisk, Function.update_of_ne]
      · exact hk'.written hc
      · exact fun he => hne (Prod.mk.inj he).2
  refine h.of_by (p := p) (.contents (others_of_eq rfl rfl rfl).setJob (.inl rfl) (fun a ha => ?_)
    (fun _ => .inl rfl) (fun y => ?_) (fun _ => .inl rfl)) (h.mem.bwrite hk.valid rfl rfl rfl rfl)
    (h.logs.congr rfl fun _ _ _ => id) (.running hcall (Function.update_self ..)
      (hsat'.steady (.of_eq rfl rfl rfl rfl rfl rfl)) hsafe fun _ => (h.proc p).valid hcall)
  · refine Function.update_of_ne ?_ ..
    rintro rfl
    exact ha hk.lock
  · by_cases hy : y = (s.buf (s.reg p r)).label
    · exact .inr ⟨_, hk.lock, hy.symm⟩
    · exact .inl (Function.update_of_ne hy ..)

/-- A view after a step of the cache by the process: the buffers of its
variables are kept, but for the one that is given back. -/
theorem Holds.bioStep (h : Inv C s)
    (hstep : Bio.step s.bio a = some t.bio) (hrel : a ≠ .releasesleep a.proc b)
    (hdisk : t.disk = s.disk) (hstored : t.stored = s.stored) (hdirty : t.dirty = s.dirty)
    (hk : Holds s p d b k) : Holds t p d b k := by
  have hcontent := h.content_eq hstep (.inl (by rw [hk.lock]; nofun))
  refine ⟨?_, (valid_of_content hcontent).trans hk.valid,
    (label_of_content hcontent).trans hk.label, ?_, ?_⟩
  · rcases (h.mem.bio.step hstep).2.lock b with he | ⟨-, -, hs, -⟩ | ⟨he, -⟩
    · exact he.trans hk.lock
    · exact absurd (hs.symm.trans hk.lock) nofun
    · exact absurd he hrel
  · rw [hdirty]
    exact hk.clean
  · rw [hdisk, hstored]
    exact hk.written

theorem Inv.brelse_job (h : Inv C s)
    (hcall : s.call p = .none) (hsat : Sat C s p d w) (hr : w.reg r = some k)
    (hstate : k.state ≠ .changed) (hbio : Bio.step s.bio (.releasesleep p (s.reg p r)) = some bio)
    (hsafe : Safe C d (w.setReg r none) rest) :
    Next C s ((s.setBio bio).setJob p (some (d, rest))) := by
  have hk := hsat.holds r k hr
  have hw : ∀ {q k'}, (w.setReg r none).reg q = some k' → q ≠ r ∧ w.reg q = some k' := by
    intro r' k' hr'
    cases r <;> cases r'
    · cases hr'
    · exact ⟨nofun, hr'⟩
    · exact ⟨nofun, hr'⟩
    · cases hr'
  have hfields : (w.setReg r none).phase = w.phase ∧ (w.setReg r none).lh = w.lh ∧
      (w.setReg r none).copied = w.copied ∧ (w.setReg r none).installed = w.installed := by
    cases r <;> exact ⟨rfl, rfl, rfl, rfl⟩
  obtain ⟨h1, h2, h3, h4⟩ := hfields
  have hsat' : Sat C (s.setBio bio) p d (w.setReg r none) := by
    refine ⟨h1 ▸ hsat.phase, h2 ▸ hsat.lh, h2 ▸ h3 ▸ hsat.copied, h2 ▸ h3 ▸ hsat.fits, ?_,
      fun k₁ k₂ hk₁ hk₂ => hsat.apart k₁ k₂ (hw (q := .lbuf) hk₁).2 (hw (q := .dbuf) hk₂).2,
      fun r' k' hr' => ?_⟩
    · rw [h2, h4]
      exact fun i n hi hn => h.pinned_step hbio nofun (hsat.pinned i n hi hn)
    · obtain ⟨hne, hr'⟩ := hw hr'
      have hk' := hsat.holds r' k' hr'
      refine hk'.bioStep h hbio (fun he => ?_) rfl rfl rfl
      obtain ⟨-, he⟩ := Bio.Act.releasesleep.inj he
      have hlabel : (s.buf (s.reg p r')).label = _ := hk'.label
      rw [show s.reg p r' = s.reg p r from he.symm, hk.label] at hlabel
      exact hsat.block_ne hr hr' hne (Prod.mk.inj hlabel).2.symm
  refine h.quiet_bio (p := p) hbio rfl (fun a ha => ?_) nofun (others_of_eq rfl rfl rfl).setJob rfl
    rfl rfl rfl (.running hcall (Function.update_self ..)
      (hsat'.steady (.of_eq rfl rfl rfl rfl rfl rfl)) hsafe
      fun a => h.valid_bio (t := s.setBio bio) hcall hbio nofun rfl)
  cases ha
  exact hk.clean hstate

theorem Inv.bunpin (h : Inv C s)
    (hcall : s.call p = .none) (hsat : Sat C s p d w) (hr : w.reg r = some k)
    (hstate : k.state = .written) (hn : w.lh[w.installed]? = some k.block)
    (hbio : Bio.step s.bio (.bunpin p (s.reg p r)) = some bio)
    (hsafe : Safe C d { w with installed := w.installed + 1 } rest) :
    Next C s ((s.setBio bio).setJob p (some (d, rest))) := by
  have hk := hsat.holds r k hr
  obtain ⟨-, heffect⟩ := h.mem.bio.step hbio
  have hne : ∀ {a}, a ≠ s.reg p r → s.bio.pins a ≤ bio.pins a := by
    intro a ha
    refine heffect.pins_le fun he => ha ?_
    exact (Bio.Act.bunpin.inj he).2.symm
  -- blocks elsewhere in the header, and those of other devices, stay pinned
  have hpin : ∀ x, x ≠ (d, k.block) → s.Pinned x → (s.setBio bio).Pinned x := by
    intro x hx
    refine h.pinned_step hbio fun a ha => ?_
    cases ha
    exact fun he => hx (he.symm.trans hk.label)
  have hnodup : w.lh.Nodup := hsat.lh ▸ (h.logs.log d).blocks.nodup
  have hsat' : Sat C (s.setBio bio) p d { w with installed := w.installed + 1 } := by
    refine ⟨hsat.phase, hsat.lh, hsat.copied, hsat.fits, fun i n hi hin => ?_, hsat.apart,
      fun r' k' hr' => (hsat.holds r' k' hr').bioStep h hbio nofun rfl rfl rfl⟩
    refine hpin _ (fun he => ?_) (hsat.pinned i n (Nat.le_of_succ_le hi) hin)
    obtain ⟨-, rfl⟩ := Prod.mk.inj he
    have hlt := (List.getElem?_eq_some_iff.mp hn).1
    rw [← (List.getElem?_inj hlt hnodup).mp (hn.trans hin.symm)] at hi
    exact Nat.not_succ_le_self _ hi
  have hlock : ∀ a, (bio.buf a).lock = (s.buf a).lock :=
    fun a => h.lock_eq (t := s.setBio bio) hbio nofun nofun
  have hcommit : (s.log d).committing = true := (h.logs.log d).flags.flag hsat.phase
  refine h.of_by (p := p) (.bioStep h.mem.bio hbio rfl (others_of_eq rfl rfl rfl).setJob rfl rfl
    (fun _ _ => rfl) (fun _ => .inl rfl) fun a ha => ?_) (h.mem.bioStep hbio rfl rfl
    (fun a ha => ?_) fun a hx hkept => ?_) (h.logs.congr rfl fun e n he => ?_)
    (.running hcall (Function.update_self ..) (hsat'.steady (.of_eq rfl rfl rfl rfl rfl rfl)) hsafe
      fun a => h.valid_bio (t := s.setBio bio) hcall hbio nofun rfl)
  · obtain ⟨-, rfl⟩ := Bio.Act.bunpin.inj ha
    rw [hk.label]
    change (s.log d).pc p ≠ _
    rw [hsat.phase]
    nofun
  · change (bio.buf a).lock ≠ none
    rw [hlock]
    exact h.mem.dirty a ha
  · refine hkept.imp_left fun hpos => hpos.trans_le (hne ?_)
    rintro rfl
    rw [hk.label] at hx
    exact hx (hk.written hstate)
  · refine hpin _ fun hx => ?_
    obtain ⟨rfl, -⟩ := Prod.mk.inj hx
    rw [hcommit] at he
    cases he

/-- The header leaves a buffer for a log block. -/
theorem Inv.header_lt (h : Inv C s) (hsat : Sat C s p d w)
    (hinst : w.installed = 0) (hr : w.reg r = some k) (hlog : C.InLog (d, k.block)) :
    w.lh.length < nlog := by
  have hk := hsat.holds r k hr
  have hpin : ∀ n ∈ w.lh, ∃ a, (s.buf a).label = (d, n) ∧ 0 < s.bio.pins a := by
    intro n hn
    obtain ⟨i, hi⟩ := List.getElem?_of_mem hn
    exact hsat.pinned i n (hinst ▸ Nat.zero_le i) hi
  have : Nonempty (Fin nbuf) := ⟨s.reg p r⟩
  choose! f hf using hpin
  have hinj : ∀ n ∈ w.lh, ∀ m ∈ w.lh, f n = f m → n = m := by
    intro n hn m hm he
    have := (hf n hn).1.symm.trans ((congrArg (fun a => (s.buf a).label) he).trans (hf m hm).1)
    exact (Prod.mk.inj this).2
  have hnodup : (s.reg p r :: w.lh.map f).Nodup := by
    refine List.nodup_cons.mpr ⟨fun hmem => ?_, ?_⟩
    · obtain ⟨n, hn, he⟩ := List.mem_map.mp hmem
      refine h.logs.home d n (hsat.lh ▸ hn) ?_
      rw [← (hf n hn).1, he, hk.label]
      exact hlog
    · refine List.Nodup.map_on hinj ?_
      exact hsat.lh ▸ (h.logs.log d).blocks.nodup
  have := hnodup.length_le_card
  rw [List.length_cons, List.length_map, Fintype.card_fin] at this
  exact this

theorem Inv.memmove_log (h : Inv C s) (hcall : s.call p = .none) (hsat : Sat C s p d w)
    (hpre : Pre C d w (.memmove .lbuf .dbuf))
    (hsafe : Safe C d (post w (.memmove .lbuf .dbuf)) rest) :
    Next C s ((Blocks.copy C s (s.reg p .lbuf) (s.buf (s.reg p .dbuf)).data).setJob p (some (d, rest))) := by
  obtain ⟨hphase, hinst, ⟨k, hk, hblock⟩, k', hk', hn⟩ := hpre
  have hdata : (s.buf (s.reg p .dbuf)).data = s.stored (d, k'.block) := by
    have hh := hsat.holds .dbuf k' hk'
    rw [h.mem.data _ hh.valid, hh.label]
  have hhome : ∀ i n, w.lh[i]? = some n → ¬ C.InLog (d, n) :=
    fun i n hi => h.logs.home d n (hsat.lh ▸ List.mem_of_getElem? hi)
  have hlt : w.copied < w.lh.length := (List.getElem?_eq_some_iff.mp hn).1
  -- the log block is in the log area
  have hfits : w.lh.length < nlog := by
    by_cases hzero : w.copied = 0
    · refine h.header_lt hsat hinst (r := .lbuf) hk ⟨by simp only; omega, ?_⟩
      simp only [hblock, hzero, nlog, logSize, maxOpBlocks]
      omega
    · exact hsat.fits (Nat.pos_of_ne_zero hzero)
  have hin : C.InLog (d, k.block) := ⟨by simp only; omega, by simp only; omega⟩
  have hne : ∀ {i n : ℕ}, w.lh[i]? = some n → (d, n) ≠ (d, k.block) := by
    intro i n hi he
    exact hhome i n hi (he ▸ hin)
  rw [hdata]
  refine h.copy hcall hsat (r := .lbuf) hk (.inl hin) (fun i n hi hin' => ?_) (fun u hu hsat' => ?_)
    hsafe
  · rw [Function.update_of_ne (hne hin'), Function.update_of_ne]
    · exact hsat.copied i n hi hin'
    · intro he
      have := (Prod.mk.inj he).2
      omega
  · refine ⟨hsat'.phase, hsat'.lh, fun i n hi hin' => ?_, fun _ => hfits, hsat'.pinned, hsat'.apart,
      hsat'.holds⟩
    rcases Nat.lt_succ_iff_lt_or_eq.mp hi with hi | rfl
    · exact hsat'.copied i n hi hin'
    · obtain rfl := Option.some.inj (hn.symm.trans hin')
      rw [hu, Function.update_of_ne (hne hn), ← hblock, Function.update_self]

theorem Inv.memmove_home (h : Inv C s) (hcall : s.call p = .none) (hsat : Sat C s p d w)
    (hpre : Pre C d w (.memmove .dbuf .lbuf))
    (hsafe : Safe C d (post w (.memmove .dbuf .lbuf)) rest) :
    Next C s ((Blocks.copy C s (s.reg p .dbuf) (s.buf (s.reg p .lbuf)).data).setJob p (some (d, rest))) := by
  obtain ⟨i, hi, ⟨k, hk, hblock⟩, k', hk', hn⟩ := hpre
  have hdata : (s.buf (s.reg p .lbuf)).data = s.stored (d, k'.block) := by
    have hh := hsat.holds .lbuf k hk
    rw [h.mem.data _ hh.valid, hh.label, hblock]
    exact hsat.copied i _ hi hn
  rw [hdata]
  refine h.copy hcall hsat (r := .dbuf) hk' (.inr rfl) ?_ (fun _ _ => id) hsafe
  rw [Function.update_eq_self]
  exact hsat.copied

theorem Inv.putHead (h : Inv C s) (hcall : s.call p = .none) (hsat : Sat C s p d w)
    (hpre : Pre C d w (.putHead r)) (hsafe : Safe C d (post w (.putHead r)) rest) :
    Next C s ((Blocks.copy C s (s.reg p r) v).setJob p (some (d, rest))) := by
  obtain ⟨k, hk, hblock⟩ := hpre
  have hin : C.InLog (d, k.block) := by
    refine ⟨hblock.ge, ?_⟩
    simp only [hblock, nlog, logSize, maxOpBlocks]
    omega
  refine h.copy hcall hsat hk (.inl hin) (fun i n hi hn => ?_) (fun _ _ => id) hsafe
  rw [Function.update_of_ne, Function.update_of_ne]
  · exact hsat.copied i n hi hn
  · intro he
    exact h.logs.home d n (hsat.lh ▸ List.mem_of_getElem? hn) (he ▸ hin)
  · intro he
    have := (Prod.mk.inj he).2
    omega

theorem Inv.exec {i : Instr} (h : Inv C s) (hcall : s.call p = .none)
    (hjob : s.job p = some (d, i :: rest)) (hstep : exec C s p d i rest = some t) : Next C s t := by
  obtain ⟨w, hsat, hpre, hsafe⟩ := (h.proc p).job d _ hjob
  have hphase := hsat.phase
  -- the step of the log that the process takes
  have hcommit : ∀ {l}, Group.step (s.log d) (.commit p) = some l →
      l = Group.commit (s.log d) p w.phase := by
    intro l hl
    cases Group.effect_of_step hl with
    | commit _ phase hp => rw [Group.Pc.commit.inj (hphase.symm.trans hp)]
  cases i with
  | commit =>
      unfold Blocks.exec at hstep
      simp only at hstep
      split_ifs at hstep with hlh
      · obtain ⟨u, hu, rfl⟩ := Option.map_eq_some_iff.mp hstep
        obtain ⟨l, hl, rfl⟩ := logStep_eq_some hu
        have hw : w = .start w.lh := hpre
        have hl' := hcommit hl
        rw [hw, View.start, Group.commit, if_pos hlh] at hl'
        refine h.next (u := .final) hcall hsat hl (by rw [hw]; nofun) ?_ ?_ (by rw [hw]; rfl)
          (by rw [hw]; rfl) (.inr ⟨rfl, rfl⟩) hsafe
        · rw [hl']
          exact Function.update_self ..
        · rw [hl']
          exact hlh
      · cases hstep
        exact h.goto hcall hsat (safe_commit ⟨hpre, hsafe⟩ (hsat.lh ▸ hlh))
  | writeLog tail =>
      unfold Blocks.exec at hstep
      simp only [hsat.lh] at hstep
      obtain ⟨hfree, -, hcopied, hinst⟩ := id hpre
      split at hstep
      next n hn =>
        cases hstep
        refine h.goto hcall hsat (safe_writeLog ⟨hpre, hsafe⟩ hn (h.log_ne_home hsat hn ?_))
        omega
      next hn =>
        cases hstep
        have hle := List.getElem?_eq_none_iff.mp hn
        refine h.goto hcall (w := post w (.writeLog tail)) ⟨hsat.phase, hsat.lh, ?_, ?_, hsat.pinned,
          nofun, fun r k hr => ?_⟩ hsafe
        · exact fun i n hi hin => hsat.copied i n (hcopied ▸ hi.trans_le hle) hin
        · exact fun hpos => hsat.fits (hcopied ▸ hpos.trans_le hle)
        · cases r <;> cases hr
  | writeHead =>
      cases hstep
      exact h.goto hcall hsat (safe_writeHead ⟨hpre, hsafe⟩)
  | installTrans tail =>
      unfold Blocks.exec at hstep
      simp only [hsat.lh] at hstep
      obtain ⟨hfree, -, hcopied, hinst⟩ := id hpre
      split at hstep
      next n hn =>
        cases hstep
        have hlt := (List.getElem?_eq_some_iff.mp hn).1
        refine h.goto hcall hsat (safe_installTrans ⟨hpre, hsafe⟩ hn (h.log_ne_home hsat hn ?_))
        omega
      next hn =>
        cases hstep
        refine h.goto hcall (w := post w (.installTrans tail)) ⟨hsat.phase, hsat.lh, hsat.copied,
          hsat.fits, fun i n hi hin => ?_, nofun, fun r k hr => ?_⟩ hsafe
        · have := (List.getElem?_eq_some_iff.mp hin).1
          exact absurd this (Nat.not_lt.mpr hi)
        · cases r <;> cases hr
  | next =>
      obtain ⟨u, hu, rfl⟩ := Option.map_eq_some_iff.mp hstep
      obtain ⟨l, hl, rfl⟩ := logStep_eq_some hu
      have hl' := hcommit hl
      obtain ⟨phase, lh, copied, installed, lbuf, dbuf⟩ := w
      have hlh : (s.log d).lh = lh := hsat.lh
      simp only [Pre] at hpre
      rcases hpre with ⟨rfl, hne⟩ | rfl | rfl | rfl
      · rw [Group.commit, if_neg (hlh ▸ hne)] at hl'
        subst hl'
        exact h.next (u := ⟨.writeHead, lh, copied, installed, lbuf, dbuf⟩) hcall hsat hl nofun
          (Function.update_self ..) hlh rfl rfl (.inl ⟨rfl, rfl, rfl⟩) hsafe
      · subst hl'
        exact h.next (u := ⟨.installTrans, lh, copied, installed, lbuf, dbuf⟩) hcall hsat hl nofun
          (Function.update_self ..) hlh rfl rfl (.inl ⟨rfl, rfl, rfl⟩) hsafe
      · subst hl'
        exact h.next (u := ⟨.clearHead, [], 0, 0, lbuf, dbuf⟩) hcall hsat hl nofun
          (Function.update_self ..) rfl rfl rfl (.inr ⟨rfl, rfl⟩) hsafe
      · subst hl'
        exact h.next (u := ⟨.done, lh, copied, installed, lbuf, dbuf⟩) hcall hsat hl nofun
          (Function.update_self ..) hlh rfl rfl (.inl ⟨rfl, rfl, rfl⟩) hsafe
  | endOp =>
      obtain ⟨u, hu, rfl⟩ := Option.map_eq_some_iff.mp hstep
      obtain ⟨l, hl, rfl⟩ := logStep_eq_some hu
      exact h.logStep hl (p := p) rfl nofun (fun _ => hsat.lh.trans hpre.2) rfl rfl rfl rfl rfl
        (others_of_eq rfl rfl rfl).setJob (.ready hcall (Function.update_self ..)
          fun _ => (h.proc p).valid hcall)
  | bread r n =>
      refine h.lookup hcall (fun e code hj => ?_) hstep
      rw [hjob] at hj
      cases hj
      exact ⟨r, n, rest, rfl, rfl⟩
  | memmove dst src =>
      cases hstep
      cases dst with
      | lbuf =>
          cases src with
          | lbuf => exact hpre.elim
          | dbuf => exact h.memmove_log hcall hsat hpre hsafe
      | dbuf =>
          cases src with
          | lbuf => exact h.memmove_home hcall hsat hpre hsafe
          | dbuf => exact hpre.elim
  | putHead r =>
      cases hstep
      exact h.putHead hcall hsat hpre hsafe
  | bwrite r =>
      cases hstep
      obtain ⟨k, hk⟩ := hpre
      exact h.bwrite hcall hsat hk hsafe
  | bunpin r =>
      obtain ⟨u, hu, rfl⟩ := Option.map_eq_some_iff.mp hstep
      obtain ⟨bio, hbio, rfl⟩ := bioStep_eq_some hu
      obtain ⟨k, hk, hstate, hn⟩ := hpre
      exact h.bunpin hcall hsat hk hstate hn hbio hsafe
  | brelse r =>
      obtain ⟨u, hu, rfl⟩ := Option.map_eq_some_iff.mp hstep
      obtain ⟨bio, hbio, rfl⟩ := bioStep_eq_some hu
      obtain ⟨k, hk, hstate⟩ := hpre
      exact h.brelse_job hcall hsat hk hstate hbio hsafe

/-! ### Runs -/

/-- `log_write` is called on blocks outside the area of the log. -/
def Home (C : Config D) (s : State P D) : Act P D → Prop
  | .logWrite _ b => ¬ C.InLog (s.buf b).label
  | _ => True

instance (s : State P D) (a : Act P D) : Decidable (Home C s a) := by
  cases a <;> unfold Home <;> infer_instance

theorem Inv.step {a : Act P D} (h : Inv C s) (hhome : Home C s a) (hstep : step C s a = some t) :
    Next C s t := by
  unfold Blocks.step at hstep
  obtain ⟨-, hstep⟩ := Option.ite_none_left_eq_some.mp hstep
  cases a with
  | bread p x =>
      obtain ⟨⟨hcall, hjob, -⟩, hstep⟩ := Option.ite_none_right_eq_some.mp hstep
      refine h.lookup hcall (fun d code hj => ?_) hstep
      rw [hjob] at hj
      cases hj
  | acquiresleep p =>
      simp only at hstep
      split at hstep
      next x b hcall hpc =>
        obtain ⟨u, hu, rfl⟩ := Option.map_eq_some_iff.mp hstep
        obtain ⟨bio, hbio, rfl⟩ := bioStep_eq_some hu
        exact h.acquiresleep hcall hpc hbio
      next => cases hstep
  | fill p =>
      simp only at hstep
      split at hstep
      next x b hcall =>
        cases hstep
        exact (h.fill hcall).1
      next => cases hstep
  | modify p b v =>
      obtain ⟨⟨hready, hlock, hop⟩, hstep⟩ := Option.ite_none_right_eq_some.mp hstep
      cases hstep
      exact h.modify hready hlock hop
  | logWrite p b =>
      obtain ⟨⟨hready, hlock⟩, hstep⟩ := Option.ite_none_right_eq_some.mp hstep
      exact h.logWrite hready hlock hhome hstep
  | record p =>
      simp only at hstep
      split at hstep
      next b hcall => exact h.record hcall hstep
      next => cases hstep
  | brelse p b =>
      obtain ⟨⟨hready, hclean⟩, hstep⟩ := Option.ite_none_right_eq_some.mp hstep
      obtain ⟨bio, hbio, rfl⟩ := bioStep_eq_some hstep
      exact h.brelse hready hclean hbio
  | unref p =>
      obtain ⟨bio, hbio, rfl⟩ := bioStep_eq_some hstep
      exact h.unref hbio
  | beginOp p d =>
      obtain ⟨hready, hstep⟩ := Option.ite_none_right_eq_some.mp hstep
      obtain ⟨l, hl, rfl⟩ := logStep_eq_some hstep
      exact h.beginOp hready hl
  | endOp p d =>
      obtain ⟨hready, hstep⟩ := Option.ite_none_right_eq_some.mp hstep
      exact h.endOp hready hstep
  | exec p =>
      simp only at hstep
      split at hstep
      next d i rest hcall hpc hjob => exact h.exec hcall hjob hstep
      next => cases hstep

/-- A state after a recovery that found nothing in the log: nobody has
begun anything, and what is cached is what is on disk. -/
structure Recovered (s : State P D) : Prop where
  bio : Bio.Inv s.bio
  log : s.log = fun _ => { size := nlog }
  call : ∀ p, s.call p = .none
  job : ∀ p, s.job p = none
  lock : ∀ b, (s.buf b).lock = none
  clean : ∀ b, s.dirty b = false
  cached : ∀ b, (s.buf b).valid = true → (s.buf b).data = s.disk (s.buf b).label
  stored : s.stored = s.disk

/-- The state in which nothing has been read yet. -/
def boot (disk : Block → D) (data : D) : State P D where
  bio := Bio.init data
  log := fun _ => { size := nlog }
  disk := disk
  call := fun _ => .none
  job := fun _ => none
  reg := fun _ _ => 0
  stored := disk
  dirty := fun _ => false
  panicked := false

theorem recovered_boot (disk : Block → D) (data : D) : Recovered (boot disk data : State P D) := by
  have hbuf : ∀ b, (boot disk data : State P D).buf b = (zeroed data).buf b :=
    fun b => buf_binit data b
  refine ⟨Bio.inv_init data, rfl, fun _ => rfl, fun _ => rfl, fun b => ?_, fun _ => rfl,
    fun b hb => ?_, rfl⟩
  · rw [hbuf]
    rfl
  · rw [hbuf] at hb
    cases hb

theorem Recovered.inv (h : Recovered s) : Inv C s where
  mem := by
    refine ⟨h.bio, ?_, fun x hx => ?_, fun b hb => ?_⟩
    · rw [h.stored]
      exact h.cached
    · rw [h.stored] at hx
      exact absurd rfl hx
    · rw [h.clean] at hb
      cases hb
  logs := by
    refine ⟨?_, ?_, ?_⟩
    · rw [h.log]
      exact fun _ => Group.inv_init nlog
    · rw [h.log]
      nofun
    · rw [h.log]
      nofun
  proc p := by
    refine .ready (h.call p) (h.job p) fun b hb => ?_
    rw [h.lock] at hb
    cases hb

/-- What the cache and the log show of the block map `stored`. -/
structure Refines (C : Config D) (s : State P D) : Prop where
  /-- `bread` returns the buffer of the block that was asked for, locked,
  with what was last stored in the block. -/
  bread : ∀ p x b t, s.call p = .fill x b → step C s (.fill p) = some t →
    t.call p = .none ∧ (t.buf b).lock = some p ∧ (t.buf b).label = x ∧ (t.buf b).valid = true ∧
      (t.buf b).data = s.stored x
  /-- It stays so for as long as a process has the buffer. -/
  held : ∀ p b, (s.buf b).lock = some p → (∀ x, s.call p ≠ .fill x b) →
    (s.buf b).data = s.stored (s.buf b).label
  /-- A buffer with contents is taken for another block only when the disk
  has what was last stored in its block. -/
  recycle : ∀ a t b, step C s a = some t → (s.buf b).valid = true →
    (t.buf b).label ≠ (s.buf b).label → s.disk (s.buf b).label = s.stored (s.buf b).label
  /-- `write_log` copies to its log block what was last stored in a block of
  the header. -/
  writeLog : ∀ p d rest, s.job p = some (d, .memmove .lbuf .dbuf :: rest) →
    ∃ tail n, (s.log d).lh[tail]? = some n ∧
      (s.buf (s.reg p .lbuf)).label = (d, C.start d + tail + 1) ∧
        (s.buf (s.reg p .dbuf)).data = s.stored (d, n)

theorem Inv.label_eq {a : Act P D} (h : Inv C s) (hb : (s.buf b).refcnt ≠ 0)
    (hstep : Blocks.step C s a = some t) : (t.buf b).label = (s.buf b).label := by
  by_cases hhome : Home C s a
  · exact (h.step hhome hstep).label b hb
  · -- a call of `log_write` does not touch the cache
    cases a with
    | logWrite p c =>
        unfold Blocks.step at hstep
        obtain ⟨-, hstep⟩ := Option.ite_none_left_eq_some.mp hstep
        obtain ⟨-, hstep⟩ := Option.ite_none_right_eq_some.mp hstep
        obtain ⟨u, hu, hstep⟩ := Option.bind_eq_some_iff.mp hstep
        obtain ⟨l, -, rfl⟩ := logStep_eq_some hu
        split_ifs at hstep <;> cases hstep <;> rfl
    | _ => exact absurd trivial hhome

theorem Inv.refines (h : Inv C s) : Refines C s where
  bread p x b t hcall hstep := by
    unfold Blocks.step at hstep
    obtain ⟨-, hstep⟩ := Option.ite_none_left_eq_some.mp hstep
    simp only [hcall] at hstep
    cases hstep
    obtain ⟨⟨hinv, -⟩, hcall', hlock, hlabel, hvalid, hstored⟩ := h.fill hcall
    refine ⟨hcall', hlock, hlabel, hvalid, ?_⟩
    rw [hinv.mem.data b hvalid, hlabel, hstored]
  held p b hlock hcall := by
    refine h.mem.data b (((h.proc p).held b hlock).resolve_right ?_)
    rintro ⟨x, hx⟩
    exact hcall x hx
  recycle a t b hstep hvalid hlabel := by
    by_contra hne
    obtain ⟨c, hc, hcv, hkept⟩ := h.mem.behind _ hne
    obtain rfl := h.mem.bio.label_inj (.inr hcv) (.inr hvalid) hc
    exact hlabel (h.label_eq (h.mem.ne_zero_of_dirty hkept) hstep)
  writeLog p d rest hjob := by
    obtain ⟨w, hsat, ⟨-, -, ⟨k, hk, hblock⟩, k', hk', hn⟩, -⟩ := (h.proc p).job d _ hjob
    have hl := hsat.holds .lbuf k hk
    have hd := hsat.holds .dbuf k' hk'
    refine ⟨w.copied, k'.block, hsat.lh ▸ hn, hblock ▸ hl.label, ?_⟩
    rw [h.mem.data _ hd.valid, hd.label]

/-- **The buffer cache with the log refines a block map.** From a recovery
that found an empty log, in every run in which `log_write` is called on home
blocks only, `bread` returns what was last stored in the block. -/
theorem blocks_refine {s₀ : State P D} {acts : List (Act P D)} (h₀ : Recovered s₀)
    (hhome : Meets (step C) (Home C) s₀ acts) (hrun : run (step C) s₀ acts = some s) :
    Refines C s :=
  (invariant (fun h hC hstep => (Inv.step h hC hstep).inv) h₀.inv hhome hrun).refines

/-! ### Two transactions -/

/-- A disk of numbers, with the log at block 2. -/
def numbers : Config ℕ where
  start := fun _ => 2
  putHead := fun lh _ => lh.length

/-- One process reads block `n` of device 0, up to the last step of `bread`. -/
def reading (n : ℕ) : List (Act Unit ℕ) := [.bread () (0, n), .acquiresleep ()]

/-- The process stores `v` in block `n`, which is in buffer `b`. -/
def storing (n : ℕ) (b : Fin nbuf) (v : ℕ) : List (Act Unit ℕ) :=
  reading n ++ [.fill (), .modify () b v, .logWrite () b, .record (), .brelse () b, .unref ()]

/-- The steps of a call of `bread` and of a call of `brelse` in `commit`. -/
def jobRead : List (Act Unit ℕ) := [.exec (), .acquiresleep (), .fill ()]

def jobRelease : List (Act Unit ℕ) := [.exec (), .unref ()]

/-- The steps of `commit` for `k` blocks. -/
def committing (k : ℕ) : List (Act Unit ℕ) :=
  let copyRound := .exec () :: jobRead ++ jobRead ++ [.exec (), .exec ()] ++ jobRelease ++ jobRelease
  let head := .exec () :: jobRead ++ [.exec (), .exec (), .exec ()] ++ jobRelease
  let installRound :=
    .exec () :: jobRead ++ jobRead ++ [.exec (), .exec (), .exec ()] ++ jobRelease ++ jobRelease
  .exec () :: (List.replicate k copyRound).flatten ++ [.exec (), .exec ()] ++ head ++
    (List.replicate k installRound).flatten ++ [.exec (), .exec ()] ++ head ++ [.exec ()]

/-- A block is stored and committed, and then read again. -/
theorem blocks_refine_commit : ∃ s : State Unit ℕ, run (step numbers) (boot (fun _ => 0) 0)
    (.beginOp () 0 :: storing 50 0 7 ++ .endOp () 0 :: committing 1 ++ reading 50) = some s ∧
      s.call () = .fill (0, 50) 0 ∧ s.stored (0, 50) = 7 ∧ Refines numbers s := by
  obtain ⟨s, hrun, hs⟩ := (Option.any_eq_true _ _).mp (by decide +kernel :
    (run (step numbers) (boot (fun _ => 0) 0) (.beginOp () 0 :: storing 50 0 7 ++
      .endOp () 0 :: committing 1 ++ reading 50)).any
        (fun s => s.call () = .fill (0, 50) 0 ∧ s.stored (0, 50) = 7) = true)
  obtain ⟨hcall, hstored⟩ := of_decide_eq_true hs
  exact ⟨s, hrun, hcall, hstored, blocks_refine (recovered_boot _ _) (by decide +kernel) hrun⟩

/-- When `log_write` is called on a block of the log, the next commit copies
over it, and from there to another block: the 9 that was stored in block 50
is lost. -/
theorem log_block_logged : ∃ s t : State Unit ℕ, run (step numbers) (boot (fun _ => 0) 0)
    (.beginOp () 0 :: storing 4 0 7 ++ storing 50 1 9 ++ .endOp () 0 :: committing 2 ++ reading 50)
      = some s ∧ s.call () = .fill (0, 50) 1 ∧ step numbers s (.fill ()) = some t ∧
        (t.buf 1).data = 7 ∧ s.stored (0, 50) = 9 := by
  obtain ⟨s, hrun, hs⟩ := (Option.any_eq_true _ _).mp (by decide +kernel :
    (run (step numbers) (boot (fun _ => 0) 0) (.beginOp () 0 :: storing 4 0 7 ++ storing 50 1 9 ++
      .endOp () 0 :: committing 2 ++ reading 50)).any
        (fun s => s.call () = .fill (0, 50) 1 ∧ s.stored (0, 50) = 9 ∧
          (step numbers s (.fill ())).any fun t => (t.buf 1).data = 7) = true)
  obtain ⟨hcall, hstored, ht⟩ := of_decide_eq_true hs
  obtain ⟨t, hstep, hdata⟩ := (Option.any_eq_true _ _).mp ht
  exact ⟨s, t, hrun, hcall, hstep, of_decide_eq_true hdata, hstored⟩

end Xv6.Blocks
