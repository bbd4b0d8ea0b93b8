import Xv6.Fs.Effects

/-!
Open files and what they refer to.

Two accounts have to balance. A file has as many references as there are
descriptors for it, over all processes. An inode has as many as there are
open files and current directories that point to it. `Acct m e L s` says
that the file table agrees with an account of `m f` references to file
`f`, and the inode cache with one of `e i` references to inode `i` besides
those of the files.
-/

namespace Xv6.Fs

open Lib Prog

/-- The inode that an open file points to. -/
def File.target (r : File) : Option InodeId :=
  if 0 < r.ref ∧ (r.type = .inode ∨ r.type = .device) then some r.ip else none

/-- The files that point to an inode, counted. -/
def fileRefs (s : Sys) : InodeId → ℕ := holders fun f => (s.file f).target

/-- The account of inodes: those of the files and `e`. -/
def total (s : Sys) (e : InodeId → ℕ) : InodeId → ℕ := fun i => fileRefs s i + e i

structure Acct (m : FileId → ℕ) (e : InodeId → ℕ) (L : Finset InodeId) (s : Sys) : Prop where
  ref : ∀ f, (s.file f).ref = m f
  closed : ∀ f, m f = 0 → (s.file f).type = .none
  store : Counted (total s e) L s.store

/-- The tables of the processes are the same, and some inodes without links
may have been freed. -/
structure Same (s t : Sys) : Prop where
  ofile : t.ofile = s.ofile
  cwd : t.cwd = s.cwd
  state : t.state = s.state
  disk : Thinned s.store.disk t.store.disk

variable {C : Config} {m : FileId → ℕ} {e e' : InodeId → ℕ} {L L' : Finset InodeId} {s t u : Sys}
  {f : FileId} {ip : InodeId} {p : ProcId}

theorem Same.refl (s : Sys) : Same s s := ⟨rfl, rfl, rfl, .refl _⟩

theorem Same.trans (h : Same s t) (h' : Same t u) : Same s u :=
  ⟨h'.ofile.trans h.ofile, h'.cwd.trans h.cwd, h'.state.trans h.state, h.disk.trans h'.disk⟩

theorem total_bump (s : Sys) (e : InodeId → ℕ) (ip : InodeId) :
    total s (bump e ip) = bump (total s e) ip := by
  funext i
  simp only [total, bump]
  split <;> rfl

theorem wpf_onStore {α : Type} {F : Fault → Prop} {c : FsM α} {Q : α → Sys → Prop} :
    wpf F (onStore c) Q s ↔ wpf F c (fun a t => Q a { s with store := t }) s.store := wpf_zoom

theorem Acct.withStore (h : Acct m e L s) {t : Store} (ht : Counted (total s e') L' t) :
    Acct m e' L' { s with store := t } := ⟨h.ref, h.closed, ht⟩

theorem fileRefs_setFile (s : Sys) (f : FileId) (r : File) :
    fileRefs { s with file := Function.update s.file f r } =
      holders (Function.update (fun f => (s.file f).target) f r.target) := by
  have hcomp : (fun f' => (Function.update s.file f r f').target) =
      Function.update (fun f => (s.file f).target) f r.target := by
    funext f'
    by_cases hf : f' = f
    · subst hf
      simp
    · simp [hf]
  exact congrArg holders hcomp

variable {r : File}

/-- A file changes, and the inodes are accounted for. -/
theorem Acct.setFile (h : Acct m e L s) {k : ℕ} (href : r.ref = k)
    (hclosed : k = 0 → r.type = .none)
    (hstore : Counted (total { s with file := Function.update s.file f r } e') L' s.store) :
    Acct (Function.update m f k) e' L' { s with file := Function.update s.file f r } where
  ref := by
    intro f'
    by_cases hf : f' = f
    · subst hf
      simpa using href
    · simpa [hf] using h.ref f'
  closed := by
    intro f'
    by_cases hf : f' = f
    · subst hf
      simpa using hclosed
    · simpa [hf] using h.closed f'
  store := hstore

/-- The file points to the inode it pointed to. -/
theorem total_setFile_same (hr : r.target = (s.file f).target) :
    total { s with file := Function.update s.file f r } e = total s e := by
  have hsame : fileRefs { s with file := Function.update s.file f r } = fileRefs s := by
    rw [fileRefs_setFile, hr]
    exact congrArg holders (Function.update_eq_self f _)
  funext i
  simp only [total, hsame]

/-- The file takes over a reference to an inode. -/
theorem total_setFile_enter (hs : (s.file f).target = none) (hr : r.target = some ip) :
    total { s with file := Function.update s.file f r } e = total s (bump e ip) := by
  have henter : fileRefs { s with file := Function.update s.file f r } = bump (fileRefs s) ip := by
    rw [fileRefs_setFile, hr]
    exact holders_enter hs
  rw [total_bump]
  funext i
  simp only [total, henter, bump]
  split <;> omega

/-- The file gives up its reference to an inode. -/
theorem total_setFile_leave (hs : (s.file f).target = some ip) (hr : r.target = none) :
    bump (total { s with file := Function.update s.file f r } e) ip = total s e := by
  have hleave : bump (fileRefs { s with file := Function.update s.file f r }) ip = fileRefs s := by
    rw [fileRefs_setFile, hr]
    exact holders_leave hs
  funext i
  have hi := congrFun hleave i
  simp only [total, bump] at hi ⊢
  split_ifs at hi ⊢ <;> omega

theorem update_eq_bump (m : FileId → ℕ) (f : FileId) : Function.update m f (m f + 1) = bump m f := by
  funext f'
  by_cases hf : f' = f
  · subst hf
    simp
  · simp [hf, bump_of_ne m hf]

theorem filealloc_spec (h : Acct m e L s) : spec filealloc (fun r t => match r with
      | none => t = s
      | some f => m f = 0 ∧ Acct (bump m f) e L t ∧ Same s t ∧ (t.file f).type = .none ∧
          ∀ f', f' ≠ f → t.file f' = s.file f') s := by
  simp only [spec, filealloc, wpf_bind, wpf_get]
  split
  case h_1 f hfind =>
    have htest := List.find?_some hfind
    simp only [decide_eq_true_eq] at htest
    have hzero : m f = 0 := by
      have := h.ref f
      omega
    have hnone := h.closed f hzero
    simp only [setFile, wpf_bind, wpf_modify, wpf_pure]
    refine ⟨hzero, ?_, ⟨rfl, rfl, rfl, .refl _⟩, by simpa using hnone,
      fun f' hf => Function.update_of_ne hf ..⟩
    rw [← update_eq_bump]
    refine h.setFile (by simp [hzero]) (fun _ => hnone) ?_
    rw [total_setFile_same (by simp [File.target, hnone])]
    exact h.store
  case h_2 => rfl

theorem filedup_spec (h : Acct m e L s) (hf : 0 < m f) :
    spec (filedup f) (fun _ t => Acct (bump m f) e L t ∧ Same s t) s := by
  have href := h.ref f
  simp only [spec, filedup, wpf_bind, wpf_get]
  refine wpf_ite (fun hbad => by omega) fun _ => ?_
  simp only [setFile, wpf_modify]
  refine ⟨?_, rfl, rfl, rfl, .refl _⟩
  rw [← update_eq_bump]
  refine h.setFile (by simp [href]) (fun h0 => by omega) ?_
  have htarget : File.target { s.file f with ref := (s.file f).ref + 1 } = (s.file f).target := by
    simp only [File.target, show 0 < (s.file f).ref by omega,
      show 0 < (s.file f).ref + 1 by omega]
  rw [total_setFile_same htarget]
  exact h.store

/-- The file was open and loses a reference that was not the last. -/
theorem Acct.unref (h : Acct (bump m f) e L s) (hm : 0 < m f) : Acct m e L
      { s with file := Function.update s.file f { s.file f with ref := (s.file f).ref - 1 } } := by
  have href := h.ref f
  rw [bump_self] at href
  have hupdate : m = Function.update (bump m f) f (m f) := by
    funext f'
    by_cases hf : f' = f
    · subst hf
      simp
    · simp [hf, bump_of_ne m hf]
  have htarget : File.target { s.file f with ref := (s.file f).ref - 1 } = (s.file f).target := by
    simp only [File.target, show 0 < (s.file f).ref by omega,
      show 0 < (s.file f).ref - 1 by omega]
  rw [hupdate]
  refine h.setFile (by simp [href]) (fun h0 => by omega) ?_
  rw [total_setFile_same htarget]
  exact h.store

/-- The file table when the last reference to a file is gone. -/
theorem Acct.close (h : Acct (bump m f) e L s) (hm : m f = 0) (href : r.ref = 0)
    (htype : r.type = .none) (f' : FileId) : (Function.update s.file f r f').ref = m f' ∧
      (m f' = 0 → (Function.update s.file f r f').type = .none) := by
  by_cases hf : f' = f
  · subst hf
    simp [href, htype, hm]
  · have hbump := bump_of_ne m hf
    have hc := h.closed f'
    have hr := h.ref f'
    rw [hbump] at hc hr
    simpa [hf] using ⟨hr, hc⟩

theorem fileclose_spec (h : Acct (bump m f) e L s) :
    spec (fileclose f) (fun _ t => Acct m e L t ∧ Same s t) s := by
  have href := h.ref f
  rw [bump_self] at href
  simp only [spec, fileclose, wpf_bind, wpf_get]
  refine wpf_ite (fun hbad => by omega) fun _ => wpf_ite (fun hmore => ?_) fun hlast => ?_
  · exact ⟨h.unref (by omega), rfl, rfl, rfl, .refl _⟩
  have hclose := h.close (by omega) (r := { s.file f with ref := 0, type := .none }) rfl rfl
  have hnone : File.target { s.file f with ref := 0, type := .none } = none := by
    simp [File.target]
  -- a file that points to no inode
  have hplain : (s.file f).target = none → Acct m e L
      { s with file := Function.update s.file f { s.file f with ref := 0, type := .none } } := by
    intro htarget
    refine ⟨fun f' => (hclose f').1, fun f' => (hclose f').2, ?_⟩
    rw [total_setFile_same (hnone.trans htarget.symm)]
    exact h.store
  simp only [wpf_bind, setFile, wpf_modify, filerelease]
  refine wpf_ite (fun hpipe => ?_) fun _ => wpf_ite (fun hinode => ?_) fun hother => ?_
  · have hacct := hplain (by simp [File.target, hpipe])
    exact ⟨⟨hacct.ref, hacct.closed, hacct.store⟩, rfl, rfl, rfl, .refl _⟩
  · have htarget : (s.file f).target = some (s.file f).ip :=
      if_pos ⟨by omega, hinode⟩
    have hstore := h.store
    rw [← total_setFile_leave htarget hnone] at hstore
    rw [wpf_onStore]
    refine wpf_mono (iput_spec hstore) ?_
    rintro _ t ⟨ht, _, hdt⟩
    exact ⟨⟨fun f' => (hclose f').1, fun f' => (hclose f').2, ht⟩, rfl, rfl, rfl, hdt⟩
  · exact ⟨hplain (by simp [File.target, hother]), rfl, rfl, rfl, .refl _⟩

/-- A file that points to no inode changes its kind. -/
theorem Acct.setKind (h : Acct m e L s) (hm : 0 < m f) (href : r.ref = m f)
    (hs : (s.file f).target = none) (hr : r.target = none) :
    Acct m e L { s with file := Function.update s.file f r } := by
  rw [← Function.update_eq_self f m]
  refine h.setFile href (fun h0 => by omega) ?_
  rw [total_setFile_same (hr.trans hs.symm)]
  exact h.store

theorem target_of_type (h : r.type = .none) : r.target = none := by
  simp [File.target, h]

/-! ### Descriptors -/

theorem argfd_spec (p : ProcId) (fd : ℤ) :
    spec (argfd p fd) (fun r t => t = s ∧ ∀ fd f, r = some (fd, f) → s.ofile (p, fd) = some f)
      s := by
  simp only [spec, argfd, wpf_bind, wpf_get]
  split
  case isTrue hfd =>
    refine ⟨rfl, fun fd' f hr => ?_⟩
    obtain ⟨f', hf', he⟩ := Option.map_eq_some_iff.mp hr
    obtain ⟨rfl, rfl⟩ := Prod.mk.inj he
    exact hf'
  case isFalse => exact ⟨rfl, (by simp)⟩

theorem fdalloc_spec (p : ProcId) (f : FileId) : spec (fdalloc p f) (fun r t => match r with
      | none => t = s | some fd => s.ofile (p, fd) = none ∧
          t = { s with ofile := Function.update s.ofile (p, fd) (some f) }) s := by
  simp only [spec, fdalloc, wpf_bind, wpf_get]
  split
  case h_1 fd hfind =>
    have htest := List.find?_some hfind
    simp only [decide_eq_true_eq] at htest
    exact ⟨htest, rfl⟩
  case h_2 => rfl

/-- What `fileFdalloc` returns and does. -/
def Descriptor (m : FileId → ℕ) (e : InodeId → ℕ) (L : Finset InodeId) (s : Sys) (p : ProcId) :
    Option (FileId × Fin nofile) → Sys → Prop
  | none, t => Acct m e L t ∧ Same s t
  | some (f, fd), t => Acct (bump m f) e L t ∧ (t.file f).type = .none ∧ s.ofile (p, fd) = none ∧
      Same { s with ofile := Function.update s.ofile (p, fd) (some f) } t

theorem fileFdalloc_spec (h : Acct m e L s) : spec (fileFdalloc p) (Descriptor m e L s p) s := by
  simp only [spec, fileFdalloc, wpf_bind]
  refine wpf_mono (filealloc_spec h) fun r t hr => ?_
  cases r with
  | none =>
      obtain rfl := hr
      exact ⟨h, .refl _⟩
  | some f =>
      obtain ⟨_, ht, hsame, htype, _⟩ := hr
      rw [wpf_bind]
      refine wpf_mono (fdalloc_spec p f) fun r u hr => ?_
      cases r with
      | none =>
          obtain rfl := hr
          rw [wpf_bind]
          exact wpf_mono (fileclose_spec ht) fun _ v hv => ⟨hv.1, hsame.trans hv.2⟩
      | some fd =>
          obtain ⟨hfd, rfl⟩ := hr
          refine ⟨⟨ht.ref, ht.closed, ht.store⟩, htype, hsame.ofile ▸ hfd, ?_⟩
          exact ⟨by rw [hsame.ofile], hsame.cwd, hsame.state, hsame.disk⟩

theorem pipealloc_spec {page : Option ℕ} (h : Acct m e L s) : spec (pipealloc page) (fun r t =>
      match r with
      | none => Acct m e L t ∧ Same s t
      | some (f0, f1) => Acct (bump (bump m f0) f1) e L t ∧ Same s t) s := by
  simp only [spec, pipealloc, wpf_bind]
  refine wpf_mono (filealloc_spec h) fun r t hr => ?_
  cases r with
  | none =>
      obtain rfl := hr
      exact ⟨h, .refl _⟩
  | some f0 =>
      obtain ⟨_, ht, hsame, htype0, _⟩ := hr
      rw [wpf_bind]
      refine wpf_mono (filealloc_spec ht) fun r u hr => ?_
      cases r with
      | none =>
          obtain rfl := hr
          rw [wpf_bind]
          exact wpf_mono (fileclose_spec ht) fun _ v hv => ⟨hv.1, hsame.trans hv.2⟩
      | some f1 =>
          obtain ⟨hzero, hu, hsame', htype1, hother⟩ := hr
          have hboth := hsame.trans hsame'
          cases page with
          | none =>
              simp only [wpf_bind]
              rw [bump_comm] at hu
              refine wpf_mono (fileclose_spec hu) fun _ v ⟨hv, hsv⟩ => ?_
              refine wpf_mono (fileclose_spec hv) fun _ w ⟨hw, hsw⟩ => ?_
              exact ⟨hw, (hboth.trans hsv).trans hsw⟩
          | some page =>
              have hne : f0 ≠ f1 := by
                rintro rfl
                simp at hzero
              rw [← hother f0 hne] at htype0
              simp only [setPipe, setFile, wpf_bind, wpf_modify, wpf_get, wpf_pure]
              have h0 := hu.setKind (f := f0) (r := { u.file f0 with
                type := .pipe, readable := true, writable := false, pipe := page })
                ((bump_pos m f0).trans_le (le_bump _ f1 f0)) (hu.ref f0) (target_of_type htype0)
                (by simp [File.target])
              have h1 := h0.setKind (f := f1) (r := { u.file f1 with
                type := .pipe, readable := false, writable := true, pipe := page })
                (bump_pos _ f1) (hu.ref f1) (by simpa [hne.symm] using target_of_type htype1)
                (by simp [File.target])
              rw [Function.update_of_ne hne.symm]
              exact ⟨⟨h1.ref, h1.closed, h1.store⟩, hboth.ofile, hboth.cwd, hboth.state, hboth.disk⟩

end Xv6.Fs
