import Xv6.Fs.Balance

/-!
`read`, `write` and `fstat` on descriptors (`fileread`, `filewrite` and
`filestat` in `kernel/file.c`).

These calls look at the kind of a file and at its `readable` and `writable`
bits, and panic over a kind they do not know. `sys_create_mutex` makes files
of such a kind and leaves the bits as the last user of the slot has set
them. So the panics are out of reach exactly as long as no mutex is made
in a slot with a bit set.

What pipes and devices answer, which copies of user memory fail, and which
entries the bytes make that are written to a directory, is left to the
environment.
-/

namespace Xv6.Fs

open Lib Prog

/-! ### The calls -/

/-- A value given for a `uint`. -/
abbrev uint (x : ℕ) : ℕ := x % 2 ^ 32

/-- An `int` given for a `uint`. -/
def uintOfInt (n : ℤ) : ℕ := (BitVec.ofInt 32 n).toNat

/-- A `uint` given for an `int`. -/
def intOfUint (n : ℕ) : ℤ := (BitVec.ofNat 32 n).toInt

abbrev bsize : ℕ := 1024

/-- `MAXFILE * BSIZE`. -/
abbrev maxFileSize : ℕ := (12 + 256) * bsize

def Dinode.bytes (d : Dinode) : ℕ := if d.type = .dir then 16 * d.data.length else d.size

/-- What `readi` returns; a copy that fails does not change it. -/
def readi (d : Dinode) (off n : ℕ) : ℤ :=
  if d.bytes < off ∨ uint (off + n) < off then -1
  else if d.bytes < uint (off + n) then intOfUint (d.bytes - off)
  else intOfUint n

/-- The offset after the loop of `writei`, which ends early when the copy of
a round fails. Every round makes some progress. -/
def writeiLoop (copied : ℕ → Bool) (n : ℕ) : (fuel : ℕ) → (tot off round : ℕ) → ℕ
  | 0, _, off, _ => off
  | fuel + 1, tot, off, round =>
      if tot < n then
        let m := min (n - tot) (bsize - off % bsize)
        if copied round then writeiLoop copied n fuel (tot + m) (off + m) (round + 1) else off
      else off

/-- The copies of user memory that succeed, and the entries that a
directory then has. -/
structure WriteEnv where
  copied : ℕ → Bool := fun _ => true
  entries : List Dirent := []

/-- The inode after a write that ended at `off`. -/
def Dinode.written (env : WriteEnv) (off : ℕ) (d : Dinode) : Dinode :=
  if d.type = .dir then { d with data := env.entries } else { d with size := max d.size off }

/-- The end of `writei`. -/
def writeiUpdate (env : WriteEnv) (i : InodeId) (off n : ℕ) : FsM Unit :=
  if 0 < n then do
    setCopy i (Dinode.written env off)
    iupdate i
  else pure ()

def writei (env : WriteEnv) (i : InodeId) (off n : ℕ) : FsM ℤ := do
  let r ← inode i
  if r.copy.bytes < off ∨ uint (off + n) < off then pure (-1)
  else if maxFileSize < uint (off + n) then pure (-1)
  else do
    writeiUpdate env i (writeiLoop env.copied n n 0 off 0) n
    pure (intOfUint n)

/-- `f->off += r`, if anything was read or written. -/
def advance (f : FileId) (r : ℤ) : SysM Unit := do
  let s ← Prog.get
  let x := s.file f
  if 0 < r then setFile f { x with off := uint (x.off + r.toNat) } else pure ()

/-- `ret` is what a pipe or a device returns. -/
def fileread (f : FileId) (n : ℤ) (ret : ℤ) : SysM ℤ := do
  let s ← Prog.get
  let x := s.file f
  if !x.readable then pure (-1)
  else
    match x.type with
    | .pipe => pure ret
    | .device => if x.major < 0 ∨ ndev ≤ x.major then pure (-1) else pure ret
    | .inode => do
        onStore (ilock x.ip)
        let i ← onStore (inode x.ip)
        let r := readi i.copy x.off (uintOfInt n)
        advance f r
        onStore (iunlock x.ip)
        pure r
    | _ => Prog.fault .fileread

/-- The most that one transaction of `filewrite` writes. -/
abbrev maxWrite : ℤ := ((maxOpBlocks - 1 - 1 - 2) / 2) * bsize

/-- The loop of `filewrite`; every round writes something or is the last. -/
def filewriteLoop (f : FileId) (n : ℤ) (env : ℕ → WriteEnv) : (fuel : ℕ) → (i : ℤ) → SysM ℤ
  | 0, i => pure i
  | fuel + 1, i =>
      if i < n then do
        let n1 := if maxWrite < n - i then maxWrite else n - i
        let s ← Prog.get
        let x := s.file f
        onStore (ilock x.ip)
        let r ← onStore (writei (env fuel) x.ip x.off (uintOfInt n1))
        advance f r
        onStore (iunlock x.ip)
        if r < 0 then pure i
        else if r ≠ n1 then Prog.fault .shortFilewrite
        else filewriteLoop f n env fuel (i + r)
      else pure i

def filewrite (f : FileId) (n : ℤ) (ret : ℤ) (env : ℕ → WriteEnv) : SysM ℤ := do
  let s ← Prog.get
  let x := s.file f
  if !x.writable then pure (-1)
  else
    match x.type with
    | .pipe => pure ret
    | .device => if x.major < 0 ∨ ndev ≤ x.major then pure (-1) else pure ret
    | .inode => do
        let i ← filewriteLoop f n env n.toNat 0
        pure (if i = n then n else -1)
    | _ => Prog.fault .filewrite

/-- `copied` says whether the result could be copied out. -/
def filestat (f : FileId) (copied : Bool) : SysM ℤ := do
  let s ← Prog.get
  let x := s.file f
  if x.type = .inode ∨ x.type = .device then do
    onStore (ilock x.ip)
    onStore (iunlock x.ip)
    pure (if copied then 0 else -1)
  else pure (-1)

inductive RwEvent where
  | other (ev : Event)
  | sysRead (p : ProcId) (fd n ret : ℤ)
  | sysWrite (p : ProcId) (fd n ret : ℤ) (env : ℕ → WriteEnv)
  | sysFstat (p : ProcId) (fd : ℤ) (copied : Bool)

/-- A call on the file of a descriptor. -/
def onFile (p : ProcId) (fd : ℤ) (c : FileId → SysM ℤ) : SysM Unit := do
  let s ← Prog.get
  if s.state p = .used then do
    match ← argfd p fd with
    | none => pure ()
    | some (_, f) => do discard (c f)
  else Prog.stuck

def rwBody (C : Config) : RwEvent → SysM Unit
  | .other ev => eventBody C ev
  | .sysRead p fd n ret => onFile p fd fun f => fileread f n ret
  | .sysWrite p fd n ret env => onFile p fd fun f => filewrite f n ret env
  | .sysFstat p fd copied => onFile p fd fun f => filestat f copied

def rwStep (C : Config) (s : Sys) (e : RwEvent) : Option Sys :=
  match rwBody C e s with
  | .ok _ t => some t
  | .fault _ => none
  | .stuck => none

/-! ### The kinds of files -/

/-- A kind of file that `fileread` and `filewrite` know. -/
def File.Known (r : File) : Prop := r.type = .pipe ∨ r.type = .inode ∨ r.type = .device

/-- The files that are open were open, of the same kind and with the same
bits, or are of a known kind. -/
def Grows (s t : Sys) : Prop :=
  ∀ f, 0 < (t.file f).ref → (t.file f).Known ∨ 0 < (s.file f).ref ∧
    (t.file f).type = (s.file f).type ∧ (t.file f).readable = (s.file f).readable ∧
    (t.file f).writable = (s.file f).writable

/-- A program that faults or ends with `Q`. -/
abbrev after {α : Type} (c : SysM α) (Q : α → Sys → Prop) (s : Sys) : Prop :=
  wpf (fun _ => True) c Q s

variable {C : Config} {s t u : Sys} {f : FileId} {p : ProcId} {ip : InodeId}

namespace Grows

theorem of_file (h : t.file = s.file) : Grows s t := by
  intro f hf
  rw [h] at hf ⊢
  exact .inr ⟨hf, rfl, rfl, rfl⟩

theorem trans (h : Grows s t) (h' : Grows t u) : Grows s u := by
  intro f hf
  obtain hknown | ⟨ht, htype, hr, hw⟩ := h' f hf
  · exact .inl hknown
  obtain hknown | ⟨hs, htype', hr', hw'⟩ := h f ht
  · refine .inl ?_
    unfold File.Known at hknown ⊢
    rwa [htype]
  · exact .inr ⟨hs, htype.trans htype', hr.trans hr', hw.trans hw'⟩

/-- One file changes. -/
theorem setFile {r : File} (hr : 0 < r.ref → r.Known ∨ 0 < (s.file f).ref ∧
    r.type = (s.file f).type ∧ r.readable = (s.file f).readable ∧
    r.writable = (s.file f).writable) : Grows s { s with file := Function.update s.file f r } := by
  intro f' hf'
  by_cases hf : f' = f
  · subst hf
    simp only [Function.update_self] at hf' ⊢
    exact hr hf'
  · exact .inr (by simpa [hf] using hf')

end Grows

theorem after_onStore {α : Type} (c : FsM α) : after (onStore c) (fun _ t => Grows s t) s := by
  rw [after, wpf_onStore]
  unfold wpf
  split
  · exact .of_file rfl
  · trivial
  · trivial

theorem after_filedup (f : FileId) : after (filedup f) (fun _ t => Grows s t) s := by
  simp only [after, filedup, wpf_bind, wpf_get]
  refine wpf_ite (fun _ => trivial) fun href => ?_
  exact Grows.setFile fun _ => .inr ⟨by omega, rfl, rfl, rfl⟩

theorem after_filerelease (r : File) : after (filerelease r) (fun _ t => t.file = s.file) s := by
  refine wpf_ite (fun _ => rfl) fun _ => wpf_ite (fun _ => ?_) fun _ => rfl
  rw [wpf_onStore]
  unfold wpf
  split
  · rfl
  · trivial
  · trivial

/-- `fileclose` changes no other file. -/
theorem after_fileclose (f : FileId) :
    after (fileclose f) (fun _ t => Grows s t ∧ (t.file f).ref = (s.file f).ref - 1 ∧
      ∀ f', f' ≠ f → t.file f' = s.file f') s := by
  simp only [after, fileclose, wpf_bind, wpf_get]
  refine wpf_ite (fun _ => trivial) fun href => wpf_ite (fun _ => ?_) fun _ => ?_
  · refine ⟨Grows.setFile fun _ => .inr ⟨by omega, rfl, rfl, rfl⟩, ?_, fun f' hf' => ?_⟩
    · simp
    · exact Function.update_of_ne hf' ..
  · simp only [Fs.setFile, wpf_bind, wpf_modify]
    refine wpf_mono (after_filerelease _) fun _ t ht => ⟨?_, ?_, fun f' hf' => ?_⟩
    · exact (Grows.setFile fun href => absurd href (Int.lt_irrefl 0)).trans (.of_file ht)
    · have hzero : (t.file f).ref = 0 := by simp [ht]
      omega
    · simp [ht, hf']

/-- The file that `filealloc` takes. -/
def freeFile (s : Sys) : Option FileId := (List.finRange nfile).find? fun f => (s.file f).ref = 0

/-- The descriptor that `fdalloc` takes. -/
def freeFd (s : Sys) (p : ProcId) : Option (Fin nofile) :=
  (List.finRange nofile).find? fun fd => s.ofile (p, fd) = none

theorem after_filealloc : after filealloc (fun r t => r = freeFile s ∧ match r with
      | none => t = s
      | some f => t = { s with file := Function.update s.file f { s.file f with ref := 1 } }) s := by
  simp only [after, filealloc, wpf_bind, wpf_get]
  split
  case h_1 f hfind => exact ⟨hfind.symm, rfl⟩
  case h_2 hfind => exact ⟨hfind.symm, rfl⟩

theorem after_fdalloc (p : ProcId) (f : FileId) : after (fdalloc p f) (fun r t => r = freeFd s p ∧
      match r with
      | none => t = s
      | some fd => t = { s with ofile := Function.update s.ofile (p, fd) (some f) }) s := by
  simp only [after, fdalloc, wpf_bind, wpf_get]
  split
  case h_1 fd hfind => exact ⟨hfind.symm, rfl⟩
  case h_2 hfind => exact ⟨hfind.symm, rfl⟩

/-- A file that was taken is closed again. -/
theorem after_giveBack (hf : (t.file f).ref = 1) (ht : ∀ f', f' ≠ f → t.file f' = s.file f') :
    after (fileclose f) (fun _ u => Grows s u) t := by
  refine wpf_mono (after_fileclose f) fun _ u ⟨_, hclosed, hother⟩ f' hf' => ?_
  by_cases he : f' = f
  · subst he
    omega
  · rw [hother f' he, ht f' he] at hf' ⊢
    exact .inr ⟨hf', rfl, rfl, rfl⟩

theorem after_fileFdalloc :
    after (fileFdalloc p) (fun r t =>
      match r with
      | none => Grows s t ∧ (freeFile s = none ∨ freeFd s p = none)
      | some (f, fd) => freeFile s = some f ∧ freeFd s p = some fd ∧
          t = { s with
            file := Function.update s.file f { s.file f with ref := 1 }
            ofile := Function.update s.ofile (p, fd) (some f) }) s := by
  simp only [after, fileFdalloc, wpf_bind]
  refine wpf_mono after_filealloc fun r t ⟨hr, ht⟩ => ?_
  cases r with
  | none =>
      obtain rfl := ht
      exact ⟨.of_file rfl, .inl hr.symm⟩
  | some f =>
      obtain rfl := ht
      rw [wpf_bind]
      refine wpf_mono (after_fdalloc p f) fun r u ⟨hr', hu⟩ => ?_
      cases r with
      | none =>
          obtain rfl := hu
          rw [wpf_bind]
          refine wpf_mono (after_giveBack (s := s) (by simp) fun f' hf' =>
            Function.update_of_ne hf' ..) fun _ v hv => ⟨hv, .inr hr'.symm⟩
      | some fd =>
          obtain rfl := hu
          exact ⟨hr.symm, hr'.symm, rfl⟩

theorem ref_freeFile (h : freeFile s = some f) : (s.file f).ref = 0 := by
  simpa using List.find?_some h

theorem after_pipealloc (page : Option ℕ) : after (pipealloc page) (fun _ t => Grows s t) s := by
  simp only [after, pipealloc, wpf_bind]
  refine wpf_mono after_filealloc fun r t ⟨_, ht⟩ => ?_
  cases r with
  | none =>
      obtain rfl := ht
      exact .of_file rfl
  | some f0 =>
      obtain rfl := ht
      rw [wpf_bind]
      refine wpf_mono after_filealloc fun r u ⟨hr, hu⟩ => ?_
      cases r with
      | none =>
          obtain rfl := hu
          rw [wpf_bind]
          exact after_giveBack (by simp) fun f' hf' => Function.update_of_ne hf' ..
      | some f1 =>
          obtain rfl := hu
          have hne : f1 ≠ f0 := by
            rintro rfl
            have := ref_freeFile hr.symm
            simp at this
          cases page with
          | none =>
              simp only [wpf_bind]
              refine wpf_mono (after_fileclose f0) fun _ u ⟨_, hclosed, hother⟩ => ?_
              refine wpf_mono (after_fileclose f1) fun _ v ⟨_, hclosed', hother'⟩ f' hf' => ?_
              rw [hother f1 hne] at hclosed'
              by_cases h1 : f' = f1
              · subst h1
                simp at hclosed'
                omega
              rw [hother' f' h1] at hf' ⊢
              by_cases h0 : f' = f0
              · subst h0
                simp [h1] at hclosed
                omega
              rw [hother f' h0] at hf' ⊢
              exact .inr (by simpa [h0, h1] using hf')
          | some page =>
              simp only [setPipe, Fs.setFile, wpf_bind, wpf_modify, wpf_get, wpf_pure]
              intro f' hf'
              by_cases h1 : f' = f1
              · exact .inl (.inl (by simp [h1]))
              by_cases h0 : f' = f0
              · exact .inl (.inl (by simp [h0, hne.symm]))
              exact .inr (by simpa [h0, h1] using hf')

theorem after_sysPipe (page : Option ℕ) (copied : Bool) :
    after (sysPipe p page copied) (fun _ t => Grows s t) s := by
  have hclose : ∀ {t : Sys} (f0 f1 : FileId), Grows s t →
      after (do fileclose f0; fileclose f1; pure false) (fun _ u => Grows s u) t := by
    intro t f0 f1 ht
    simp only [after, wpf_bind]
    refine wpf_mono (after_fileclose f0) ?_
    rintro _ u ⟨hu, _⟩
    exact wpf_mono (after_fileclose f1) fun _ v hv => (ht.trans hu).trans hv.1
  simp only [after, sysPipe, wpf_bind]
  refine wpf_mono (after_pipealloc page) fun r t ht => ?_
  cases r with
  | none => exact ht
  | some x =>
      rw [wpf_bind]
      refine wpf_mono (after_fdalloc p x.1) ?_
      rintro r u ⟨_, hu⟩
      cases r with
      | none =>
          obtain rfl := hu
          exact hclose x.1 x.2 ht
      | some fd0 =>
          obtain rfl := hu
          rw [wpf_bind]
          refine wpf_mono (after_fdalloc p x.2) ?_
          rintro r v ⟨_, hv⟩
          cases r with
          | none =>
              obtain rfl := hv
              exact hclose x.1 x.2 (ht.trans (.of_file rfl))
          | some fd1 =>
              obtain rfl := hv
              exact wpf_ite (fun _ => ht.trans (.of_file rfl)) fun _ =>
                hclose x.1 x.2 (ht.trans (.of_file rfl))

/-- What the calls that do not make a mutex do to the kinds of files. -/
theorem known_opened {r : File} {d : Dinode} {omode : BitVec 32} : (r.opened ip d omode).Known := by
  unfold File.Known File.opened
  by_cases hd : d.type = .device
  · simp [hd]
  · simp [hd]

theorem after_sysOpen (path : Option Path) (omode : BitVec 32) :
    after (sysOpen C p path omode) (fun _ t => Grows s t) s := by
  cases path with
  | none => exact .of_file rfl
  | some path =>
      simp only [after, sysOpen, wpf_bind, wpf_get]
      refine wpf_mono (after_onStore _) fun r t ht => ?_
      cases r with
      | none => exact ht
      | some ip =>
          simp only [wpf_bind, wpf_onStore, wpf_inode]
          refine wpf_ite (fun _ => ?_) fun _ => ?_
          · rw [wpf_bind]
            exact wpf_mono (after_onStore _) fun _ u hu => ht.trans hu
          rw [wpf_bind]
          refine wpf_mono after_fileFdalloc fun r u hu => ?_
          cases r with
          | none =>
              rw [wpf_bind]
              exact wpf_mono (after_onStore _) fun _ v hv => (ht.trans hu.1).trans hv
          | some x =>
              obtain ⟨hfree, _, rfl⟩ := hu
              simp only [Fs.setFile, wpf_bind, wpf_get, wpf_modify]
              refine wpf_mono (after_onStore _) fun _ v hv => ht.trans (Grows.trans ?_ hv)
              intro f' hf'
              by_cases he : f' = x.1
              · exact .inl (by simp [he, known_opened])
              · exact .inr (by simpa [he] using hf')

theorem after_discard {α : Type} {c : SysM α} {Q : Sys → Prop} (h : after c (fun _ t => Q t) s) :
    after (discard c) (fun _ t => Q t) s := by
  change wpf (fun _ => True) (c >>= fun _ => pure PUnit.unit) (fun _ t => Q t) s
  exact wpf_bind.mpr h

theorem after_argfd (p : ProcId) (fd : ℤ) : after (argfd p fd) (fun _ t => t = s) s := by
  simp only [after, argfd, wpf_bind, wpf_get]
  split
  · rfl
  · rfl

theorem after_sysDup (fd : ℤ) : after (sysDup p fd) (fun _ t => Grows s t) s := by
  simp only [after, sysDup, wpf_bind]
  refine wpf_mono (after_argfd p fd) fun r t ht => ?_
  subst ht
  cases r with
  | none => exact .of_file rfl
  | some x =>
      rw [wpf_bind]
      refine wpf_mono (after_fdalloc p x.2) fun r u ⟨_, hu⟩ => ?_
      cases r with
      | none =>
          obtain rfl := hu
          exact .of_file rfl
      | some fd =>
          obtain rfl := hu
          rw [wpf_bind]
          exact wpf_mono (after_filedup x.2) fun _ v hv => .trans (.of_file rfl) hv

theorem after_sysClose (fd : ℤ) : after (sysClose p fd) (fun _ t => Grows s t) s := by
  simp only [after, sysClose, wpf_bind]
  refine wpf_mono (after_argfd p fd) fun r t ht => ?_
  subst ht
  cases r with
  | none => exact .of_file rfl
  | some x =>
      simp only [setOfile, wpf_bind, wpf_modify]
      exact wpf_mono (after_fileclose x.2) fun _ v ⟨hv, _⟩ => .trans (.of_file rfl) hv

theorem after_iputCwd (p : ProcId) : after (iputCwd p) (fun _ t => Grows s t) s := by
  simp only [after, iputCwd, wpf_bind, wpf_get]
  split
  · exact after_onStore _
  · trivial

theorem after_sysChdir (path : Option Path) : after (sysChdir p path) (fun _ t => Grows s t) s := by
  cases path with
  | none => exact .of_file rfl
  | some path =>
      simp only [after, sysChdir, wpf_bind, wpf_get]
      refine wpf_mono (after_onStore _) fun r t ht => ?_
      cases r with
      | none => exact ht
      | some ip =>
          simp only [wpf_bind]
          refine wpf_mono (after_iputCwd p) fun _ u hu => ?_
          exact (ht.trans hu).trans (.of_file rfl)

theorem after_exit (p : ProcId) : after (exit p) (fun _ t => Grows s t) s := by
  have hround : ∀ fd (l : List (Fin nofile)) t, Grows s t →
      after (exitFd p fd) (fun _ u => Grows s u) t := by
    intro fd l t ht
    simp only [after, exitFd, wpf_bind, wpf_get]
    split
    · rw [wpf_bind]
      refine wpf_mono (after_fileclose _) ?_
      rintro _ u ⟨hu, _⟩
      exact (ht.trans hu).trans (.of_file rfl)
    · exact ht
  refine wpf_ite (fun _ => trivial) fun _ => ?_
  rw [wpf_bind]
  refine wpf_forEach (fun _ t => Grows s t) (.of_file rfl) hround fun t ht => ?_
  rw [wpf_bind]
  exact wpf_mono (after_iputCwd p) fun _ u hu => (ht.trans hu).trans (.of_file rfl)

theorem after_fork (kalloc uvmcopy : Bool) :
    after (fork p kalloc uvmcopy) (fun _ t => Grows s t) s := by
  have hround : ∀ np fd (l : List (Fin nofile)) t, Grows s t →
      after (forkFd p np fd) (fun _ u => Grows s u) t := by
    intro np fd l t ht
    simp only [after, forkFd, wpf_bind, wpf_get]
    split
    · rw [wpf_bind]
      exact wpf_mono (after_filedup _) fun _ u hu => (ht.trans hu).trans (.of_file rfl)
    · exact ht
  simp only [after, fork, wpf_bind, wpf_get]
  split
  · exact .of_file rfl
  · refine wpf_ite (fun _ => .of_file rfl) fun _ => wpf_ite (fun _ => .of_file rfl) fun _ => ?_
    simp only [wpf_bind]
    refine wpf_forEach (fun _ t => Grows s t) (.of_file rfl) (hround _) fun t ht => ?_
    simp only [forkCwd, wpf_bind, wpf_get]
    split
    · rw [wpf_bind]
      exact wpf_mono (after_onStore _) fun _ u hu => (ht.trans hu).trans (.of_file rfl)
    · trivial

theorem after_perform (c : Call) (hc : c ≠ .sysCreateMutex) :
    after (perform C p c) (fun _ t => Grows s t) s := by
  have hnone : Grows s s := .of_file rfl
  cases c with
  | sysOpen path omode => exact after_discard (after_sysOpen path omode)
  | sysCreateMutex => exact absurd rfl hc
  | sysPipe page copied => exact after_discard (after_sysPipe page copied)
  | sysDup fd => exact after_discard (after_sysDup fd)
  | sysClose fd => exact after_discard (after_sysClose fd)
  | sysLink old new =>
      cases old with
      | none => exact hnone
      | some old =>
          cases new with
          | none => exact hnone
          | some new => exact after_discard (after_onStore _)
  | sysUnlink path =>
      cases path with
      | none => exact hnone
      | some path => exact after_discard (after_onStore _)
  | sysMkdir path =>
      cases path with
      | none => exact hnone
      | some path => exact after_discard (after_onStore _)
  | sysMknod path major minor =>
      cases path with
      | none => exact hnone
      | some path => exact after_discard (after_onStore _)
  | sysChdir path => exact after_discard (after_sysChdir path)
  | sysExec path args image stack =>
      cases path with
      | none => exact hnone
      | some path =>
          refine after_discard (wpf_ite (fun _ => ?_) fun _ => hnone)
          exact after_onStore _
  | fork kalloc uvmcopy => exact after_discard (after_fork kalloc uvmcopy)
  | exit => exact after_exit p

theorem after_event (ev : Event) (hev : ∀ p, ev ≠ .call p .sysCreateMutex) :
    after (eventBody C ev) (fun _ t => Grows s t) s := by
  cases ev with
  | call p c =>
      simp only [after, eventBody, wpf_bind, wpf_get]
      refine wpf_ite (fun _ => ?_) fun _ => trivial
      exact after_perform c fun hc => hev p (by rw [hc])
  | freeproc p =>
      simp only [after, eventBody, wpf_bind, wpf_get]
      exact wpf_ite (fun _ => .of_file rfl) fun _ => trivial

/-- A mutex gets the bits that are in the slot. -/
theorem after_sysCreateMutex :
    after (sysCreateMutex p) (fun _ t => Grows s t ∧ (freeFile s = none ∨ freeFd s p = none) ∨
      ∃ f fd, freeFile s = some f ∧ freeFd s p = some fd ∧ t = { s with
        file := Function.update s.file f { s.file f with ref := 1, type := .mutex }
        ofile := Function.update s.ofile (p, fd) (some f) }) s := by
  simp only [after, sysCreateMutex, wpf_bind]
  refine wpf_mono after_fileFdalloc fun r t ht => ?_
  cases r with
  | none => exact .inl ht
  | some x =>
      obtain ⟨hf, hfd, rfl⟩ := ht
      simp only [Fs.setFile, wpf_bind, wpf_get, wpf_modify, wpf_pure]
      refine .inr ⟨x.1, x.2, hf, hfd, ?_⟩
      simp

theorem after_mutex (p : ProcId) :
    after (eventBody C (.call p .sysCreateMutex)) (fun _ t => s.state p = .used ∧
      (Grows s t ∧ (freeFile s = none ∨ freeFd s p = none) ∨
      ∃ f fd, freeFile s = some f ∧ freeFd s p = some fd ∧ t = { s with
        file := Function.update s.file f { s.file f with ref := 1, type := .mutex }
        ofile := Function.update s.ofile (p, fd) (some f) })) s := by
  simp only [after, eventBody, wpf_bind, wpf_get]
  refine wpf_ite (fun hp => ?_) fun _ => trivial
  refine after_discard (wpf_mono after_sysCreateMutex fun _ t ht => ⟨hp, ht⟩)

/-! ### `fileread` and `filewrite` -/

/-- The tables of the processes are the same, and the files keep their
kinds. -/
structure Steady (s t : Sys) : Prop where
  ofile : t.ofile = s.ofile
  cwd : t.cwd = s.cwd
  state : t.state = s.state
  grows : Grows s t

variable {m : FileId → ℕ} {e : InodeId → ℕ} {L : Finset InodeId}

theorem Steady.refl (s : Sys) : Steady s s := ⟨rfl, rfl, rfl, .of_file rfl⟩

theorem Steady.trans (h : Steady s t) (h' : Steady t u) : Steady s u :=
  ⟨h'.ofile.trans h.ofile, h'.cwd.trans h.cwd, h'.state.trans h.state, h.grows.trans h'.grows⟩

theorem Inv.steady (h : Inv s) (hs : Steady s t)
    (ht : Acct (holders s.ofile) (holders s.cwd) ∅ t) : Inv t := by
  refine ⟨⟨?_, ?_⟩, ?_⟩
  · rw [hs.ofile, hs.cwd, hs.state]
    exact h.tables.vacant
  · rw [hs.cwd, hs.state]
    exact h.tables.cwd
  · rw [hs.ofile, hs.cwd]
    exact ht

theorem ilock_sys_spec (h : Acct m e ∅ s) (hip : 0 < total s e ip) :
    spec (onStore (ilock ip)) (fun _ t => Acct m e {ip} t ∧ Steady s t ∧ t.file = s.file ∧
      (t.store.inode ip).valid) s := by
  rw [spec, wpf_onStore]
  refine wpf_mono (ilock_spec h.store hip) ?_
  rintro _ t ⟨ht, _, _, hv⟩
  rw [insert_empty_eq] at ht
  exact ⟨h.withStore ht, ⟨rfl, rfl, rfl, .of_file rfl⟩, rfl, hv⟩

theorem iunlock_sys_spec (h : Acct m e {ip} s) (hip : 0 < total s e ip) :
    spec (onStore (iunlock ip)) (fun _ t => Acct m e ∅ t ∧ Steady s t ∧ t.file = s.file) s := by
  rw [spec, wpf_onStore]
  refine wpf_mono (iunlock_spec h.store hip (by simp)) ?_
  rintro _ t ⟨ht, _, _⟩
  rw [Finset.erase_singleton] at ht
  exact ⟨h.withStore ht, ⟨rfl, rfl, rfl, .of_file rfl⟩, rfl⟩

theorem total_pos (h : (s.file f).target = some ip) : 0 < total s e ip :=
  Nat.lt_of_lt_of_le (holders_pos (i := f) h) (Nat.le_add_right ..)

/-- `advance` changes no more than the offset. -/
theorem advance_spec (h : Acct m e L s) (hm : 0 < m f) (r : ℤ) :
    spec (advance f r) (fun _ t => Acct m e L t ∧ Steady s t ∧
      (t.file f).target = (s.file f).target ∧ (t.file f).ip = (s.file f).ip) s := by
  simp only [spec, advance, wpf_bind, wpf_get]
  refine wpf_ite (fun _ => ?_) fun _ => ⟨h, .refl s, rfl, rfl⟩
  have href := h.ref f
  simp only [Fs.setFile, wpf_modify]
  refine ⟨?_, ⟨rfl, rfl, rfl, Grows.setFile fun hr => .inr ⟨hr, rfl, rfl, rfl⟩⟩,
    by simp [File.target], by simp⟩
  rw [← Function.update_eq_self f m]
  refine h.setFile href (fun h0 => by omega) ?_
  rw [total_setFile_same (by simp [File.target])]
  exact h.store

theorem type_written (env : WriteEnv) (off : ℕ) (d : Dinode) :
    (d.written env off).type = d.type := by
  unfold Dinode.written
  split <;> rfl

/-- `writei` returns -1 or the number of bytes it was asked to write. -/
theorem writei_spec {n : InodeId → ℕ} {s : Store} (env : WriteEnv) (off k : ℕ)
    (h : Counted n L s) (hn : 0 < n ip) (hv : (s.inode ip).valid) :
    spec (writei env ip off k) (fun r t => (r = -1 ∨ r = intOfUint k) ∧ Counted n L t) s := by
  simp only [spec, writei, wpf_bind, wpf_inode]
  refine wpf_ite (fun _ => ⟨.inl rfl, h⟩) fun _ => wpf_ite (fun _ => ⟨.inl rfl, h⟩) fun _ => ?_
  simp only [wpf_bind, writeiUpdate]
  refine wpf_ite (fun _ => ?_) fun _ => ⟨.inr rfl, h⟩
  rw [wpf_bind]
  refine spec_amend h hn hv (fun d hd => ?_) fun t ht _ _ => ⟨.inr rfl, ht⟩
  rwa [type_written]

theorem filestat_spec (h : Inv s) (copied : Bool) (hf : 0 < (s.file f).ref) :
    spec (filestat f copied) (fun _ t => Inv t ∧ Grows s t) s := by
  simp only [spec, filestat, wpf_bind, wpf_get]
  refine wpf_ite (fun hk => ?_) fun _ => ⟨h, .of_file rfl⟩
  have htarget : (s.file f).target = some (s.file f).ip := if_pos ⟨hf, hk⟩
  simp only [wpf_bind]
  refine wpf_mono (ilock_sys_spec h.acct (total_pos htarget)) ?_
  rintro _ t ⟨ht, hs, hfile, _⟩
  refine wpf_mono (iunlock_sys_spec ht (total_pos (f := f) (by rw [hfile, htarget])))
    ?_
  rintro _ u ⟨hu, hs', _⟩
  exact ⟨h.steady (hs.trans hs') hu, (hs.trans hs').grows⟩

/-- A file that can be read and written without a panic. -/
def File.Harmless (r : File) : Prop :=
  r.Known ∨ r.type = .mutex ∧ r.readable = false ∧ r.writable = false

theorem fileread_spec (h : Inv s) (n ret : ℤ) (hm : 0 < holders s.ofile f)
    (hk : (s.file f).Harmless) : spec (fileread f n ret) (fun _ t => Inv t ∧ Grows s t) s := by
  have hsame : Inv s ∧ Grows s s := ⟨h, .of_file rfl⟩
  simp only [spec, fileread, wpf_bind, wpf_get]
  refine wpf_ite (fun _ => hsame) fun hr => ?_
  split
  case h_1 => exact hsame
  case h_2 => exact wpf_ite (fun _ => hsame) fun _ => hsame
  case h_3 htype =>
    have href := h.acct.ref f
    have htarget : (s.file f).target = some (s.file f).ip := if_pos ⟨by omega, .inl htype⟩
    simp only [wpf_bind]
    refine wpf_mono (ilock_sys_spec h.acct (total_pos htarget)) ?_
    rintro _ t ⟨ht, hs, hfile, _⟩
    rw [wpf_onStore, wpf_inode]
    refine wpf_mono (advance_spec ht hm _) ?_
    rintro _ u ⟨hu, hs', htarget', _⟩
    have hpos : 0 < total u (holders s.cwd) (s.file f).ip :=
      total_pos (f := f) (by rw [htarget', hfile, htarget])
    refine wpf_mono (iunlock_sys_spec hu hpos) ?_
    rintro _ v ⟨hv, hs'', _⟩
    have hall := (hs.trans hs').trans hs''
    exact ⟨h.steady hall hv, hall.grows⟩
  case h_4 hpipe hdevice hinode =>
    obtain (hp | hi | hd) | ⟨_, hread, _⟩ := hk
    · exact hpipe hp
    · exact hinode hi
    · exact hdevice hd
    · simp [hread] at hr

theorem intOfUint_uintOfInt {n : ℤ} (h0 : 0 ≤ n) (hn : n < 2 ^ 31) :
    intOfUint (uintOfInt n) = n := by
  unfold intOfUint uintOfInt
  rw [BitVec.ofNat_toNat, BitVec.setWidth_eq, BitVec.toInt_ofInt, Int.bmod_eq_of_le]
  · omega
  · omega

theorem ip_of_target {r : File} (h : r.target = some ip) : r.ip = ip := by
  unfold File.target at h
  split at h
  · exact Option.some.inj h
  · cases h

theorem filewriteLoop_spec (n : ℤ) (env : ℕ → WriteEnv) (fuel : ℕ) (i : ℤ) (h : Acct m e ∅ s)
    (hm : 0 < m f) (htarget : (s.file f).target = some ip) :
    spec (filewriteLoop f n env fuel i) (fun _ t => Acct m e ∅ t ∧ Steady s t) s := by
  induction fuel generalizing i s with
  | zero => exact ⟨h, .refl s⟩
  | succ fuel ih =>
      rw [filewriteLoop]
      refine wpf_ite (fun hi => ?_) fun _ => ⟨h, .refl s⟩
      have hn1 : ∃ n1, n1 = (if maxWrite < n - i then maxWrite else n - i) ∧ 0 < n1 ∧
          n1 < 2 ^ 31 := by
        refine ⟨_, rfl, ?_⟩
        have hmax : maxWrite = 3072 := by decide
        rw [hmax]
        split <;> omega
      obtain ⟨n1, hn1, hpos, hlt⟩ := hn1
      simp only [wpf_bind, wpf_get, ← hn1, ip_of_target htarget]
      refine wpf_mono (ilock_sys_spec h (total_pos htarget)) ?_
      rintro _ t ⟨ht, hs, hfile, hv⟩
      have htotal : 0 < total t e ip := total_pos (f := f) (by rw [hfile, htarget])
      rw [wpf_onStore]
      refine wpf_mono (writei_spec (env fuel) _ _ ht.store htotal hv) ?_
      rintro r u ⟨hr, hu⟩
      rw [intOfUint_uintOfInt (by omega) hlt] at hr
      have hacct : Acct m e {ip} { t with store := u } := ht.withStore hu
      refine wpf_mono (advance_spec hacct hm r) ?_
      rintro _ v ⟨hv', hs', htarget', _⟩
      have htv : (v.file f).target = some ip := by rw [htarget', hfile, htarget]
      refine wpf_mono (iunlock_sys_spec hv' (total_pos htv)) ?_
      rintro _ w ⟨hw, hs'', hfile'⟩
      have hwrite : Steady t { t with store := u } := ⟨rfl, rfl, rfl, .of_file rfl⟩
      have hall : Steady s w := ((hs.trans hwrite).trans hs').trans hs''
      refine wpf_ite (fun _ => ⟨hw, hall⟩) fun hneg => wpf_ite (fun hshort => ?_) fun _ => ?_
      · obtain rfl | rfl := hr
        · exact hneg (by decide)
        · exact hshort rfl
      · refine wpf_mono (ih (i + r) hw (by rw [hfile', htv])) ?_
        rintro _ x ⟨hx, hsx⟩
        exact ⟨hx, hall.trans hsx⟩

theorem filewrite_spec (h : Inv s) (n ret : ℤ) (env : ℕ → WriteEnv)
    (hm : 0 < holders s.ofile f) (hk : (s.file f).Harmless) :
    spec (filewrite f n ret env) (fun _ t => Inv t ∧ Grows s t) s := by
  have hsame : Inv s ∧ Grows s s := ⟨h, .of_file rfl⟩
  simp only [spec, filewrite, wpf_bind, wpf_get]
  refine wpf_ite (fun _ => hsame) fun hw => ?_
  split
  case h_1 => exact hsame
  case h_2 => exact wpf_ite (fun _ => hsame) fun _ => hsame
  case h_3 htype =>
    have href := h.acct.ref f
    have htarget : (s.file f).target = some (s.file f).ip := if_pos ⟨by omega, .inl htype⟩
    rw [wpf_bind]
    refine wpf_mono (filewriteLoop_spec n env _ _ h.acct hm htarget) ?_
    rintro _ t ⟨ht, hs⟩
    exact ⟨h.steady hs ht, hs.grows⟩
  case h_4 hpipe hdevice hinode =>
    obtain (hp | hi | hd) | ⟨_, _, hwrite⟩ := hk
    · exact hpipe hp
    · exact hinode hi
    · exact hdevice hd
    · simp [hwrite] at hw

/-! ### Runs -/

/-- The state between system calls, when no open file is a trap. -/
structure Safe (s : Sys) : Prop where
  inv : Inv s
  harmless : ∀ f, 0 < (s.file f).ref → (s.file f).Harmless

theorem Safe.grows (h : Safe s) (ht : Inv t) (hg : Grows s t) : Safe t := by
  refine ⟨ht, fun f hf => ?_⟩
  obtain hknown | ⟨hs, htype, hr, hw⟩ := hg f hf
  · exact .inl hknown
  · have hs := h.harmless f hs
    unfold File.Harmless File.Known at hs ⊢
    rwa [htype, hr, hw]

/-- A mutex is made in a slot whose bits are clear. -/
def CleanSlot (s : Sys) : RwEvent → Prop
  | .other (.call p .sysCreateMutex) => ∀ f fd, s.state p = .used → freeFile s = some f →
      freeFd s p = some fd → (s.file f).readable = false ∧ (s.file f).writable = false
  | _ => True

theorem onFile_spec (h : Safe s) (p : ProcId) (fd : ℤ) {c : FileId → SysM ℤ}
    (hc : ∀ f, 0 < holders s.ofile f → 0 < (s.file f).ref →
      spec (c f) (fun _ t => Inv t ∧ Grows s t) s) :
    spec (onFile p fd c) (fun _ t => Safe t) s := by
  simp only [spec, onFile, wpf_bind, wpf_get]
  refine wpf_ite (fun _ => ?_) fun _ => trivial
  rw [wpf_bind]
  refine wpf_mono (argfd_spec p fd) ?_
  rintro r t ⟨ht, hr⟩
  subst ht
  cases r with
  | none => exact h
  | some x =>
      have hpos := holders_pos (hr x.1 x.2 rfl)
      have href := h.inv.acct.ref x.2
      exact spec_discard (wpf_mono (hc x.2 hpos (by omega)) fun _ u hu => h.grows hu.1 hu.2)

theorem rw_spec (h : Safe s) (ev : RwEvent) (hclean : CleanSlot s ev) :
    spec (rwBody C ev) (fun _ t => Safe t) s := by
  have hharm := h.harmless
  cases ev with
  | sysRead p fd n ret =>
      exact onFile_spec h p fd fun f hm hf => fileread_spec h.inv n ret hm (hharm f hf)
  | sysWrite p fd n ret env =>
      exact onFile_spec h p fd fun f hm hf => filewrite_spec h.inv n ret env hm (hharm f hf)
  | sysFstat p fd copied =>
      exact onFile_spec h p fd fun f _ hf => filestat_spec h.inv copied hf
  | other ev =>
      have hinv := event_spec (C := C) h.inv ev
      by_cases hev : ∃ p, ev = .call p .sysCreateMutex
      · obtain ⟨p, rfl⟩ := hev
        refine wpf_mono (wpf_and hinv (after_mutex p)) fun _ t ⟨⟨ht, _⟩, hp, hg⟩ => ?_
        obtain ⟨hg, _⟩ | ⟨f, fd, hf, hfd, rfl⟩ := hg
        · exact h.grows ht hg
        refine ⟨ht, fun f' hf' => ?_⟩
        obtain ⟨hr, hw⟩ := hclean f fd hp hf hfd
        by_cases he : f' = f
        · subst he
          exact .inr (by simp [hr, hw])
        · have hharm := hharm f' (by simpa [he] using hf')
          simpa [he] using hharm
      · refine wpf_mono (wpf_and hinv (after_event ev fun p hp => hev ⟨p, hp⟩))
          fun _ t ⟨⟨ht, _⟩, hg⟩ => h.grows ht hg

theorem Safe.step {ev : RwEvent} (h : Safe s) (hclean : CleanSlot s ev)
    (hstep : rwStep C s ev = some t) : Safe t := by
  unfold rwStep at hstep
  split at hstep
  case h_1 hbody =>
    cases hstep
    exact of_wpf (Q := fun _ t => Safe t) (rw_spec h ev hclean) hbody
  all_goals cases hstep

/-- No call ends in a panic of `fileread` or `filewrite`. -/
def NoPanic (C : Config) (s : Sys) : Prop :=
  ∀ ev, rwBody C ev s ≠ .fault .fileread ∧ rwBody C ev s ≠ .fault .filewrite ∧
    rwBody C ev s ≠ .fault .shortFilewrite

theorem Safe.noPanic (h : Safe s) : NoPanic C s := by
  intro ev
  have hforeign : ∀ x, rwBody C ev s = .fault x → x.Foreign := by
    intro x hx
    cases ev with
    | other ev => exact fault_of_wpf (event_spec h.inv ev) hx
    | sysRead p fd n ret => exact fault_of_wpf (rw_spec h (.sysRead p fd n ret) trivial) hx
    | sysWrite p fd n ret env => exact fault_of_wpf (rw_spec h (.sysWrite p fd n ret env) trivial) hx
    | sysFstat p fd copied => exact fault_of_wpf (rw_spec h (.sysFstat p fd copied) trivial) hx
  exact ⟨fun hx => hforeign _ hx, fun hx => hforeign _ hx, fun hx => hforeign _ hx⟩

theorem onFile_fault {fd : Fin nofile} {c : FileId → SysM ℤ} {x : Fault}
    (hp : s.state p = .used) (hfd : s.ofile (p, fd) = some f) (hc : c f s = .fault x) :
    onFile p fd c s = .fault x := by
  have hlt : (0 : ℤ) ≤ ((fd : ℕ) : ℤ) ∧ ((fd : ℕ) : ℤ).toNat < nofile := ⟨by omega, by simp⟩
  have hargfd : argfd p ((fd : ℕ) : ℤ) s = .ok (some (fd, f)) s := by
    simp only [argfd, bind, Prog.bind, Prog.get, Int.toNat_natCast, hfd, Option.map_some]
    rw [dif_pos ⟨Int.natCast_nonneg _, fd.isLt⟩]
    rfl
  change (if s.state p = .used then _ else _ : SysM Unit) s = _
  rw [if_pos hp]
  change Prog.bind (argfd p _) _ s = _
  rw [Prog.bind, hargfd]
  change Prog.bind (c f) _ s = _
  rw [Prog.bind, hc]

/-- A mutex that was made in a slot with a bit set is a trap: one call of its
owner, and the kernel panics. -/
theorem panic_of_trap (fd : Fin nofile) (hp : s.state p = .used) (hfd : s.ofile (p, fd) = some f)
    (htype : (s.file f).type = .mutex)
    (hbits : ¬ ((s.file f).readable = false ∧ (s.file f).writable = false)) : ¬ NoPanic C s := by
  intro hno
  by_cases hr : (s.file f).readable = false
  · have hw : (s.file f).writable = true := by
      rw [← Bool.not_eq_false]
      exact fun hw => hbits ⟨hr, hw⟩
    refine (hno (.sysWrite p fd 0 0 fun _ => {})).2.1 (onFile_fault hp hfd ?_)
    change (if (!(s.file f).writable) = true then _ else _ : SysM ℤ) s = _
    rw [hw, if_neg (by decide), htype]
    rfl
  · rw [Bool.not_eq_false] at hr
    refine (hno (.sysRead p fd 0 0)).1 (onFile_fault hp hfd ?_)
    change (if (!(s.file f).readable) = true then _ else _ : SysM ℤ) s = _
    rw [hr, if_neg (by decide), htype]
    rfl

theorem boot_safe (disk : Key → Dinode) : Safe (boot disk) :=
  ⟨boot_inv disk, fun _ hf => absurd hf (Int.lt_irrefl 0)⟩

/-- A step that makes a mutex in a slot with a bit set leaves a trap. -/
theorem trap_of_not_cleanSlot {ev : RwEvent} (hclean : ¬ CleanSlot s ev)
    (hstep : rwStep C s ev = some t) : ¬ NoPanic C t := by
  obtain ⟨p, rfl⟩ : ∃ p, ev = .other (.call p .sysCreateMutex) := by
    unfold CleanSlot at hclean
    split at hclean
    case h_1 p => exact ⟨p, rfl⟩
    case h_2 => exact absurd trivial hclean
  simp only [CleanSlot, not_forall] at hclean
  obtain ⟨f, fd, hp, hf, hfd, hbits⟩ := hclean
  unfold rwStep at hstep
  split at hstep
  case h_1 hbody =>
    cases hstep
    obtain ⟨_, hmade⟩ := of_wpf (Q := fun _ t => s.state p = .used ∧ _) (after_mutex p) hbody
    obtain ⟨_, hnone | hnone⟩ | ⟨f', fd', hf', hfd', rfl⟩ := hmade
    · simp [hf] at hnone
    · simp [hfd] at hnone
    obtain rfl := Option.some.inj (hf.symm.trans hf')
    exact panic_of_trap (f := f) fd' hp (by simp) (by simp) (by simpa using hbits)
  all_goals cases hstep

/-- The panics of `fileread` and `filewrite` are out of reach all along a run
if and only if no step of it makes a mutex in a slot of the file table that
still has a `readable` or `writable` bit of its last user. -/
theorem noPanic_iff_cleanSlot (disk : Key → Dinode) {evs : List RwEvent}
    (hrun : run (rwStep C) (boot disk) evs = some t) :
    (∀ evs' u, evs' <+: evs → run (rwStep C) (boot disk) evs' = some u → NoPanic C u) ↔
      Meets (rwStep C) CleanSlot (boot disk) evs :=
  forall_prefix_iff_meets Safe.noPanic Safe.step (fun _ => trap_of_not_cleanSlot)
    (boot_safe disk) hrun

/-- A process opens a file, closes it, makes a mutex and reads from it: the
mutex is in the slot of the file and is readable, and the kernel panics. A
write panics in the same state. -/
theorem fileread_panics_on_mutex :
    (run (rwStep smallConfig) (boot emptyDisk)
      [.other (.call 0 (.sysOpen (some ['a']) 0x202)), .other (.call 0 (.sysClose 0)),
        .other (.call 0 .sysCreateMutex)]).any (fun s =>
      rwBody smallConfig (.sysRead 0 0 1 0) s matches .fault .fileread &&
        rwBody smallConfig (.sysWrite 0 0 1 0 fun _ => {}) s matches .fault .filewrite) = true := by
  decide +kernel

/-- A mutex that is made in a slot nothing was in yet is harmless. -/
theorem noPanic_fresh_mutex :
    ∃ s, run (rwStep smallConfig) (boot emptyDisk)
        [.other (.call 0 .sysCreateMutex), .sysRead 0 0 1 0] = some s ∧ NoPanic smallConfig s := by
  obtain ⟨s, hs⟩ := Option.isSome_iff_exists.mp
    (by decide +kernel : (run (rwStep smallConfig) (boot emptyDisk)
      [.other (.call 0 .sysCreateMutex), .sysRead 0 0 1 0]).isSome = true)
  refine ⟨s, hs, (noPanic_iff_cleanSlot emptyDisk hs).mpr ⟨fun f fd _ hf _ => ?_, ?_⟩ _ s
    (List.prefix_refl _) hs⟩
  · exact ⟨rfl, rfl⟩
  · exact fun _ _ => ⟨trivial, fun _ _ => trivial⟩

end Xv6.Fs
