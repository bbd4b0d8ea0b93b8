import Xv6.Fs.Files

/-!
The accounts balance between system calls.

`Inv` says that the references to files are the descriptors of all
processes, that those to inodes are the open files and the current
directories, and that no inode is locked. Every call keeps it, whether it
succeeds or fails, and no call ends in a panic over a count; so it holds
in every state that a run of the system reaches.
-/

namespace Xv6.Fs

open Lib Prog

/-- The tables of processes that do not run are empty, and a process that
runs has a current directory. -/
structure Tables (s : Sys) : Prop where
  vacant : ∀ p, s.state p ≠ .used → (∀ fd, s.ofile (p, fd) = none) ∧ s.cwd p = none
  cwd : ∀ p, s.state p = .used → ∃ i, s.cwd p = some i

/-- The state between system calls. -/
structure Inv (s : Sys) : Prop where
  tables : Tables s
  acct : Acct (holders s.ofile) (holders s.cwd) ∅ s

variable {C : Config} {m : FileId → ℕ} {e e' : InodeId → ℕ} {L L' : Finset InodeId} {s t u : Sys}
  {f : FileId} {ip : InodeId} {p : ProcId}

theorem Tables.same (h : Tables s) (hs : Same s t) : Tables t where
  vacant := by
    rw [hs.ofile, hs.cwd, hs.state]
    exact h.vacant
  cwd := by
    rw [hs.cwd, hs.state]
    exact h.cwd

/-- A process that runs gets or loses a descriptor. -/
theorem Tables.setOfile (h : Tables s) (hp : s.state p = .used) (fd : Fin nofile)
    (o : Option FileId) : Tables { s with ofile := Function.update s.ofile (p, fd) o } where
  vacant := by
    intro q hq
    refine ⟨fun fd' => ?_, (h.vacant q hq).2⟩
    have hne : (q, fd') ≠ (p, fd) := by
      intro he
      rw [(Prod.mk.inj he).1] at hq
      exact hq hp
    simpa [hne] using (h.vacant q hq).1 fd'
  cwd := h.cwd

theorem Inv.same (h : Inv s) (ht : Acct (holders s.ofile) (holders s.cwd) ∅ t) (hs : Same s t) :
    Inv t := by
  refine ⟨h.tables.same hs, ?_⟩
  rw [hs.ofile, hs.cwd]
  exact ht

variable {fd : Fin nofile}

/-- A file that `Inv` does not account for gets a descriptor. -/
theorem Inv.enter (h : Inv s) (hp : s.state p = .used)
    (hfd : s.ofile (p, fd) = none) (ht : Acct (bump (holders s.ofile) f) (holders s.cwd) ∅ t)
    (hs : Same { s with ofile := Function.update s.ofile (p, fd) (some f) } t) : Inv t := by
  refine ⟨(h.tables.setOfile hp fd (some f)).same hs, ?_⟩
  rw [hs.ofile, hs.cwd, holders_enter hfd]
  exact ht

theorem Inv.hasCwd (h : Inv s) (hp : s.state p = .used) :
    HasCwd (total s (holders s.cwd)) (s.cwd p) := by
  obtain ⟨i, hi⟩ := h.tables.cwd p hp
  exact ⟨i, hi, Nat.lt_of_lt_of_le (holders_pos hi) (Nat.le_add_left ..)⟩

/-! ### Calls on descriptors -/

theorem sysDup_spec (h : Inv s) (hp : s.state p = .used) (fd : ℤ) :
    spec (sysDup p fd) (fun _ t => Inv t ∧ Thinned s.store.disk t.store.disk) s := by
  simp only [spec, sysDup, wpf_bind]
  refine wpf_mono (argfd_spec p fd) ?_
  rintro r t ⟨hst, hr⟩
  subst hst
  cases r with
  | none => exact ⟨h, .refl _⟩
  | some x =>
      obtain ⟨fd', f⟩ := x
      have hf := hr fd' f rfl
      rw [wpf_bind]
      refine wpf_mono (fdalloc_spec p f) fun r u hr => ?_
      cases r with
      | none =>
          obtain rfl := hr
          exact ⟨h, .refl _⟩
      | some fd =>
          obtain ⟨hfd, rfl⟩ := hr
          have hacct : Acct (holders t.ofile) (holders t.cwd) ∅
              { t with ofile := Function.update t.ofile (p, fd) (some f) } :=
            ⟨h.acct.ref, h.acct.closed, h.acct.store⟩
          rw [wpf_bind]
          refine wpf_mono (filedup_spec hacct (holders_pos hf)) ?_
          rintro _ v ⟨hv, hs⟩
          exact ⟨h.enter hp hfd hv hs, hs.disk⟩

theorem sysClose_spec (h : Inv s) (hp : s.state p = .used) (fd : ℤ) :
    spec (sysClose p fd) (fun _ t => Inv t ∧ Thinned s.store.disk t.store.disk) s := by
  simp only [spec, sysClose, wpf_bind]
  refine wpf_mono (argfd_spec p fd) ?_
  rintro r t ⟨hst, hr⟩
  subst hst
  cases r with
  | none => exact ⟨h, .refl _⟩
  | some x =>
      obtain ⟨fd', f⟩ := x
      have hacct := h.acct
      rw [← holders_leave (hr fd' f rfl)] at hacct
      simp only [setOfile, wpf_bind, wpf_modify]
      refine wpf_mono (fileclose_spec (s := { t with ofile := _ })
        ⟨hacct.ref, hacct.closed, hacct.store⟩) ?_
      rintro _ v ⟨hv, hs⟩
      refine ⟨⟨?_, ?_⟩, hs.disk⟩
      · exact (h.tables.setOfile hp fd' none).same hs
      · rw [hs.ofile, hs.cwd]
        exact hv

theorem sysCreateMutex_spec (h : Inv s) (hp : s.state p = .used) :
    spec (sysCreateMutex p) (fun _ t => Inv t ∧ Thinned s.store.disk t.store.disk) s := by
  simp only [spec, sysCreateMutex, wpf_bind]
  refine wpf_mono (fileFdalloc_spec h.acct) fun r t hr => ?_
  cases r with
  | none => exact ⟨h.same hr.1 hr.2, hr.2.disk⟩
  | some x =>
      obtain ⟨f, fd⟩ := x
      obtain ⟨ht, htype, hfd, hs⟩ := hr
      simp only [setFile, wpf_bind, wpf_get, wpf_modify, wpf_pure]
      have hmutex := ht.setKind (r := { t.file f with type := .mutex }) (bump_pos _ f)
        (ht.ref f) (target_of_type htype) (by simp [File.target])
      exact ⟨h.enter hp hfd hmutex ⟨hs.ofile, hs.cwd, hs.state, hs.disk⟩, hs.disk⟩

/-- Both ends of a pipe that could not be handed out are closed, with the
descriptors as they were. -/
theorem undoPipe_spec {rf wf : FileId} {o : ProcId × Fin nofile → Option FileId} (h : Inv s)
    (ht : Acct (bump (bump (holders s.ofile) rf) wf) (holders s.cwd) ∅ t) (hst : Same s t)
    (ho : o = s.ofile) : spec (do fileclose rf; fileclose wf; pure false)
      (fun _ u => Inv u ∧ Thinned s.store.disk u.store.disk) { t with ofile := o } := by
  rw [bump_comm] at ht
  have hclose : Acct (bump (bump (holders s.ofile) wf) rf) (holders s.cwd) ∅
      { t with ofile := o } := ⟨ht.ref, ht.closed, ht.store⟩
  have hs : Same s { t with ofile := o } := ⟨ho, hst.cwd, hst.state, hst.disk⟩
  simp only [spec, wpf_bind]
  refine wpf_mono (fileclose_spec hclose) ?_
  rintro _ u ⟨hu, hsu⟩
  refine wpf_mono (fileclose_spec hu) ?_
  rintro _ v ⟨hv, hsv⟩
  have hall := (hs.trans hsu).trans hsv
  exact ⟨h.same hv hall, hall.disk⟩

theorem sysPipe_spec (h : Inv s) (hp : s.state p = .used) (page : Option ℕ) (copied : Bool) :
    spec (sysPipe p page copied) (fun _ t => Inv t ∧ Thinned s.store.disk t.store.disk) s := by
  simp only [spec, sysPipe, wpf_bind]
  refine wpf_mono (pipealloc_spec h.acct) fun r t hr => ?_
  cases r with
  | none => exact ⟨h.same hr.1 hr.2, hr.2.disk⟩
  | some x =>
      obtain ⟨rf, wf⟩ := x
      obtain ⟨ht, hst⟩ := hr
      rw [wpf_bind]
      refine wpf_mono (fdalloc_spec p rf) fun r u hr => ?_
      cases r with
      | none =>
          obtain rfl := hr
          exact undoPipe_spec h ht hst hst.ofile
      | some fd0 =>
          obtain ⟨hfd0, rfl⟩ := hr
          rw [hst.ofile] at hfd0
          rw [wpf_bind]
          refine wpf_mono (fdalloc_spec p wf) fun r v hr => ?_
          cases r with
          | none =>
              obtain rfl := hr
              refine undoPipe_spec (t := t) h ht hst ?_
              simp [hst.ofile, ← hfd0]
          | some fd1 =>
              obtain ⟨hfd1, rfl⟩ := hr
              change Function.update t.ofile (p, fd0) (some rf) (p, fd1) = none at hfd1
              rw [hst.ofile] at hfd1
              have hne : (p, fd1) ≠ (p, fd0) := by
                intro he
                rw [he] at hfd1
                simp at hfd1
              refine wpf_ite (fun _ => ⟨⟨?_, ?_⟩, hst.disk⟩) fun _ => undoPipe_spec (t := t) h ht hst ?_
              · exact ((h.tables.same hst).setOfile (hst.state ▸ hp) fd0 (some rf)).setOfile
                  (hst.state ▸ hp) fd1 (some wf)
              · have hcount : holders (Function.update (Function.update t.ofile (p, fd0) (some rf))
                    (p, fd1) (some wf)) = bump (bump (holders s.ofile) rf) wf := by
                  rw [hst.ofile, holders_enter hfd1, holders_enter hfd0]
                have hcwd : holders t.cwd = holders s.cwd := by rw [hst.cwd]
                simp only [hcount, hcwd]
                exact ⟨ht.ref, ht.closed, ht.store⟩
              · rw [Function.update_of_ne hne] at hfd1
                funext x
                by_cases h1 : x = (p, fd1)
                · subst h1
                  simp [hfd1]
                · by_cases h0 : x = (p, fd0)
                  · subst h0
                    simp [hne.symm, hfd0]
                  · simp [h0, h1, hst.ofile]

/-! ### Calls on paths -/

/-- A call that leaves the files alone. -/
theorem onStore_spec {α : Type} {c : FsM α} {P : (Key → Dinode) → Prop} (h : Inv s)
    (hc : spec c (fun _ t => Counted (total s (holders s.cwd)) ∅ t ∧
      Keeps (total s (holders s.cwd)) s.store t ∧ P t.disk) s.store) :
    spec (onStore c) (fun _ t => Inv t ∧ P t.store.disk) s := by
  rw [spec, wpf_onStore]
  refine wpf_mono hc ?_
  rintro _ t ⟨ht, -, hP⟩
  exact ⟨⟨⟨h.tables.vacant, h.tables.cwd⟩, h.acct.withStore ht⟩, hP⟩

theorem sysLink_spec (h : Inv s) (hp : s.state p = .used) (old new : Path) :
    spec (sysLink p (some old) (some new)) (fun _ t => Inv t ∧
      Links s.store (s.cwd p) new t.store.disk) s :=
  onStore_spec h (link_spec h.acct.store (h.hasCwd hp))

theorem sysUnlink_spec (h : Inv s) (hp : s.state p = .used) (path : Path) :
    spec (sysUnlink p (some path)) (fun _ t => Inv t ∧ Unlinks s.store t.store.disk) s :=
  onStore_spec h (unlink_spec h.acct.store (h.hasCwd hp))

theorem createPut_sys_spec {path : Path} {type : FileType} {major minor : ℤ} (h : Inv s)
    (hp : s.state p = .used) (htype : type ≠ .free) :
    spec (onStore (createPut C (s.cwd p) path type major minor)) (fun _ t => Inv t ∧
      Creates C s.store (s.cwd p) path type major minor t.store.disk) s :=
  onStore_spec h (createPut_spec h.acct.store (h.hasCwd hp) htype)

theorem sysExec_spec (h : Inv s) (hp : s.state p = .used) (path : Option Path)
    (args image stack : Bool) : spec (sysExec p path args image stack) (fun _ t => Inv t ∧
      Thinned s.store.disk t.store.disk) s := by
  unfold sysExec
  split
  · exact ⟨h, .refl _⟩
  · exact wpf_ite (fun _ => onStore_spec h (exec_spec h.acct.store (h.hasCwd hp)))
      fun _ => ⟨h, .refl _⟩

/-- A locked inode is given up. -/
theorem putOpen_spec {α : Type} {a : α} (h : Acct m (bump e ip) {ip} s) :
    spec (do onStore (iunlockput ip); pure a) (fun r t => r = a ∧ Acct m e ∅ t ∧ Same s t) s := by
  simp only [spec, wpf_bind, wpf_onStore]
  have hstore := h.store
  rw [total_bump] at hstore
  refine wpf_mono (iunlockput_spec hstore (by simp)) ?_
  rintro _ t ⟨ht, _, hd⟩
  rw [Finset.erase_singleton] at ht
  exact ⟨rfl, h.withStore ht, rfl, rfl, rfl, hd⟩

theorem target_opened (ip : InodeId) (d : Dinode) (omode : BitVec 32) {r : File}
    (href : 0 < r.ref) :
    (r.opened ip d omode).target = some ip ∧ (r.opened ip d omode).ref = r.ref := by
  simp only [File.opened, File.target]
  by_cases hd : d.type = .device
  · simp [hd, href]
  · simp [hd, href]

/-- The file takes over the reference to the inode, which is unlocked. -/
theorem openFile_spec {r : File} (h : Acct m (bump e ip) {ip} s) (hm : 0 < m f)
    (htype : (s.file f).type = .none) (hr : r.target = some ip ∧ r.ref = (s.file f).ref) :
    spec (do setFile f r; onStore (iunlock ip)) (fun _ t => Acct m e ∅ t ∧ Same s t) s := by
  simp only [spec, setFile, wpf_bind, wpf_modify, wpf_onStore]
  have hopen : Acct m e {ip} { s with file := Function.update s.file f r } := by
    rw [← Function.update_eq_self f m]
    refine h.setFile (hr.2.trans (h.ref f)) (fun h0 => by omega) ?_
    rw [total_setFile_enter (target_of_type htype) hr.1]
    exact h.store
  have hpos : 0 < total { s with file := Function.update s.file f r } e ip := by
    rw [total_setFile_enter (target_of_type htype) hr.1, total_bump]
    exact bump_pos _ ip
  refine wpf_mono (iunlock_spec hopen.store hpos (by simp)) ?_
  rintro _ t ⟨ht, _, hd⟩
  rw [Finset.erase_singleton] at ht
  exact ⟨hopen.withStore ht, rfl, rfl, rfl, hd ▸ .refl _⟩

theorem sysOpen_spec (h : Inv s) (hp : s.state p = .used) (path : Path) (omode : BitVec 32) :
    spec (sysOpen C p (some path) omode) (fun _ t => Inv t ∧
      Creates C s.store (s.cwd p) path .file 0 0 t.store.disk) s := by
  simp only [spec, sysOpen, wpf_bind, wpf_get, wpf_onStore]
  refine wpf_mono (openInode_spec h.acct.store (h.hasCwd hp)) fun r t hr => ?_
  cases r with
  | none =>
      obtain ⟨ht, _, hd⟩ := hr
      exact ⟨⟨⟨h.tables.vacant, h.tables.cwd⟩, h.acct.withStore ht⟩, .inl hd⟩
  | some ip =>
      obtain ⟨ht, _, _, hd⟩ := hr
      have hopen : Acct (holders s.ofile) (bump (holders s.cwd) ip) {ip} { s with store := t } :=
        h.acct.withStore (by rw [total_bump]; exact ht)
      have htables : Tables { s with store := t } := ⟨h.tables.vacant, h.tables.cwd⟩
      simp only [wpf_bind, wpf_onStore, wpf_inode]
      refine wpf_ite (fun _ => ?_) fun _ => ?_
      · refine wpf_mono (putOpen_spec hopen) ?_
        rintro _ u ⟨-, hu, hs⟩
        refine ⟨⟨htables.same hs, ?_⟩, ?_⟩
        · rw [hs.ofile, hs.cwd]
          exact hu
        · exact hd.thin hs.disk
      rw [wpf_bind]
      refine wpf_mono (fileFdalloc_spec hopen) fun r u hr => ?_
      cases r with
      | none =>
          obtain ⟨hu, hs⟩ := hr
          refine wpf_mono (putOpen_spec hu) ?_
          rintro _ v ⟨_, hv, hs'⟩
          have hall := hs.trans hs'
          refine ⟨⟨htables.same hall, ?_⟩, hd.thin hall.disk⟩
          rw [hall.ofile, hall.cwd]
          exact hv
      | some x =>
          obtain ⟨f, fd⟩ := x
          obtain ⟨hu, htype, hfd, hs⟩ := hr
          have href : 0 < (u.file f).ref := by
            have := hu.ref f
            have := bump_pos (holders s.ofile) f
            omega
          rw [wpf_bind, wpf_get]
          have hfile := openFile_spec hu (bump_pos _ f) htype
            (target_opened ip (t.inode ip).copy omode href)
          simp only [spec, wpf_bind] at hfile ⊢
          refine wpf_mono hfile fun _ v hv => wpf_mono hv ?_
          rintro _ w ⟨hw, hs'⟩
          have hall := hs.trans hs'
          refine ⟨⟨(htables.setOfile hp fd (some f)).same hall, ?_⟩, hd.thin hall.disk⟩
          rw [hall.ofile, hall.cwd, holders_enter hfd]
          exact hw

/-! ### Current directories -/

theorem iputCwd_spec {i : InodeId} (h : Acct m (bump e i) L s) (hi : s.cwd p = some i) :
    spec (iputCwd p) (fun _ t => Acct m e L t ∧ Same s t) s := by
  simp only [spec, iputCwd, wpf_bind, wpf_get, hi, wpf_onStore]
  have hstore := h.store
  rw [total_bump] at hstore
  refine wpf_mono (iput_spec hstore) ?_
  rintro _ t ⟨ht, _, hd⟩
  exact ⟨h.withStore ht, rfl, rfl, rfl, hd⟩

theorem sysChdir_spec (h : Inv s) (hp : s.state p = .used) (path : Path) :
    spec (sysChdir p (some path)) (fun _ t => Inv t ∧ Thinned s.store.disk t.store.disk) s := by
  simp only [spec, sysChdir, wpf_bind, wpf_get, wpf_onStore]
  refine wpf_mono (chdirInode_spec h.acct.store (h.hasCwd hp)) fun r t hr => ?_
  cases r with
  | none =>
      obtain ⟨ht, _, hd⟩ := hr
      exact ⟨⟨⟨h.tables.vacant, h.tables.cwd⟩, h.acct.withStore ht⟩, hd⟩
  | some ip =>
      obtain ⟨ht, _, hd⟩ := hr
      obtain ⟨i, hi⟩ := h.tables.cwd p hp
      have hacct : Acct (holders s.ofile) (bump (bump (holders (Function.update s.cwd p none)) ip) i)
          ∅ { s with store := t } := by
        refine h.acct.withStore ?_
        rw [bump_comm, holders_leave hi, total_bump]
        exact ht
      simp only [wpf_bind]
      refine wpf_mono (iputCwd_spec hacct hi) ?_
      rintro _ u ⟨hu, hs⟩
      simp only [setCwd, wpf_modify, wpf_pure]
      refine ⟨⟨⟨fun q hq => ?_, fun q hq => ?_⟩, ?_⟩, hd.trans hs.disk⟩
      · rw [hs.state] at hq
        have hne : q ≠ p := by
          rintro rfl
          exact hq hp
        simpa [hs.ofile, hs.cwd, hne] using h.tables.vacant q hq
      · rw [hs.state] at hq
        by_cases hqp : q = p
        · subst hqp
          exact ⟨ip, Function.update_self ..⟩
        · simpa [hs.cwd, hqp] using h.tables.cwd q hq
      · have hcwd : holders (Function.update u.cwd p (some ip)) =
            bump (holders (Function.update s.cwd p none)) ip := by
          rw [hs.cwd, ← holders_enter (Function.update_self p none s.cwd), Function.update_idem]
        have hofile : holders u.ofile = holders s.ofile := by rw [hs.ofile]
        simp only [hcwd, hofile]
        exact ⟨hu.ref, hu.closed, hu.store⟩

/-! ### `fork` and `exit` -/

/-- The tables of the other processes are the same. -/
structure Beside (p : ProcId) (s t : Sys) : Prop where
  ofile : ∀ q, q ≠ p → ∀ fd, t.ofile (q, fd) = s.ofile (q, fd)
  cwd : t.cwd = s.cwd
  state : t.state = s.state
  disk : Thinned s.store.disk t.store.disk

/-- A round of a loop over the descriptors of `p`. -/
theorem Beside.round {o : Option FileId} (h : Beside p s t) (hs : Same t u) :
    Beside p s { u with ofile := Function.update u.ofile (p, fd) o } where
  ofile := by
    intro q hq fd'
    have hne : (q, fd') ≠ (p, fd) := fun he => hq (Prod.mk.inj he).1
    simpa [hne, hs.ofile] using h.ofile q hq fd'
  cwd := hs.cwd.trans h.cwd
  state := hs.state.trans h.state
  disk := h.disk.trans hs.disk

/-- The loop of `exit`; `l` are the descriptors that are left. -/
def Exiting (p : ProcId) (s : Sys) (l : List (Fin nofile)) (t : Sys) : Prop :=
  Acct (holders t.ofile) (holders t.cwd) ∅ t ∧ Beside p s t ∧ ∀ fd, fd ∉ l → t.ofile (p, fd) = none

theorem exitFd_spec {l : List (Fin nofile)} (h : Exiting p s (fd :: l) t) :
    spec (exitFd p fd) (fun _ u => Exiting p s l u) t := by
  obtain ⟨hacct, hbeside, hdone⟩ := h
  simp only [spec, exitFd, wpf_bind, wpf_get]
  split
  case h_1 f hf =>
    have hacct' := hacct
    rw [← holders_leave hf] at hacct'
    rw [wpf_bind]
    refine wpf_mono (fileclose_spec hacct') ?_
    rintro _ u ⟨hu, hs⟩
    simp only [setOfile, wpf_modify]
    refine ⟨?_, hbeside.round hs, fun fd' hfd' => ?_⟩
    · rw [← hs.ofile, ← hs.cwd] at hu
      exact ⟨hu.ref, hu.closed, hu.store⟩
    · by_cases he : fd' = fd
      · subst he
        exact Function.update_self ..
      · have hne : (p, fd') ≠ (p, fd) := fun h => he (Prod.mk.inj h).2
        simpa [hne, hs.ofile] using hdone fd' (by simp [he, hfd'])
  case h_2 hnone =>
    refine ⟨hacct, hbeside, fun fd' hfd' => ?_⟩
    by_cases he : fd' = fd
    · rw [he, hnone]
    · exact hdone fd' (by simp [he, hfd'])

theorem exit_spec (h : Inv s) (hp : s.state p = .used) :
    spec (exit p) (fun _ t => Inv t ∧ Thinned s.store.disk t.store.disk) s := by
  refine wpf_ite (fun _ => trivial) fun _ => ?_
  rw [wpf_bind]
  have hstart : Exiting p s (List.finRange nofile) s :=
    ⟨h.acct, ⟨fun _ _ _ => rfl, rfl, rfl, .refl _⟩, fun fd hfd => absurd (List.mem_finRange fd) hfd⟩
  refine wpf_forEach (Exiting p s) hstart (fun fd l t ht => exitFd_spec ht) fun t ht => ?_
  obtain ⟨hacct, hbeside, hdone⟩ := ht
  obtain ⟨i, hi⟩ := h.tables.cwd p hp
  rw [← hbeside.cwd] at hi
  rw [← holders_leave hi] at hacct
  simp only [wpf_bind]
  refine wpf_mono (iputCwd_spec hacct hi) ?_
  rintro _ u ⟨hu, hs⟩
  simp only [setCwd, setState, wpf_modify]
  refine ⟨⟨⟨fun q hq => ?_, fun q hq => ?_⟩, ?_⟩, hbeside.disk.trans hs.disk⟩
  · by_cases hqp : q = p
    · subst hqp
      exact ⟨fun fd => by simpa [hs.ofile] using hdone fd (by simp), Function.update_self ..⟩
    · have hq' : s.state q ≠ .used := by simpa [hqp, hs.state, hbeside.state] using hq
      obtain ⟨hv, hc⟩ := h.tables.vacant q hq'
      refine ⟨fun fd => ?_, ?_⟩
      · simpa [hs.ofile, hbeside.ofile q hqp] using hv fd
      · simpa [hqp, hs.cwd, hbeside.cwd] using hc
  · have hqp : q ≠ p := by
      rintro rfl
      simp at hq
    have hq' : s.state q = .used := by simpa [hqp, hs.state, hbeside.state] using hq
    simpa [hqp, hs.cwd, hbeside.cwd] using h.tables.cwd q hq'
  · rw [← hs.ofile, ← hs.cwd] at hu
    exact ⟨hu.ref, hu.closed, hu.store⟩

/-- The loop of `fork`; `l` are the descriptors that are left. -/
def Forking (np : ProcId) (s : Sys) (l : List (Fin nofile)) (t : Sys) : Prop :=
  Acct (holders t.ofile) (holders t.cwd) ∅ t ∧ Beside np s t ∧ l.Nodup ∧
    ∀ fd ∈ l, t.ofile (np, fd) = none

theorem forkFd_spec {np : ProcId} {l : List (Fin nofile)}
    (h : Forking np s (fd :: l) t) : spec (forkFd p np fd) (fun _ u => Forking np s l u) t := by
  obtain ⟨hacct, hbeside, hnodup, hfree⟩ := h
  obtain ⟨hnot, hnodup⟩ := List.nodup_cons.mp hnodup
  simp only [spec, forkFd, wpf_bind, wpf_get]
  split
  case h_1 f hf =>
    rw [wpf_bind]
    refine wpf_mono (filedup_spec hacct (holders_pos hf)) ?_
    rintro _ u ⟨hu, hs⟩
    simp only [setOfile, wpf_modify]
    refine ⟨?_, hbeside.round hs, hnodup, fun fd' hfd' => ?_⟩
    · have hnone : u.ofile (np, fd) = none := by
        rw [hs.ofile]
        exact hfree fd List.mem_cons_self
      simp only [holders_enter hnone]
      rw [← hs.ofile, ← hs.cwd] at hu
      exact ⟨hu.ref, hu.closed, hu.store⟩
    · have hne : (np, fd') ≠ (np, fd) := by
        intro he
        rw [(Prod.mk.inj he).2] at hfd'
        exact hnot hfd'
      simpa [hne, hs.ofile] using hfree fd' (List.mem_cons_of_mem fd hfd')
  case h_2 =>
    exact ⟨hacct, hbeside, hnodup, fun fd' hfd' => hfree fd' (List.mem_cons_of_mem fd hfd')⟩

theorem fork_spec (h : Inv s) (hp : s.state p = .used) (kalloc uvmcopy : Bool) :
    spec (fork p kalloc uvmcopy) (fun _ t => Inv t ∧ Thinned s.store.disk t.store.disk) s := by
  simp only [spec, fork, wpf_bind, wpf_get]
  split
  case h_1 => exact ⟨h, .refl _⟩
  case h_2 np hfind =>
    have hnp : s.state np = .unused := by simpa using List.find?_some hfind
    obtain ⟨hvacant, hnocwd⟩ := h.tables.vacant np (by simp [hnp])
    refine wpf_ite (fun _ => ⟨h, .refl _⟩) fun _ => wpf_ite (fun _ => ?_) fun _ => ?_
    · have hsame : Function.update s.state np .unused = s.state := by
        rw [← hnp, Function.update_eq_self]
      simp only [setState, wpf_bind, wpf_modify, wpf_pure, hsame]
      exact ⟨h, .refl _⟩
    simp only [wpf_bind]
    have hstart : Forking np s (List.finRange nofile) s :=
      ⟨h.acct, ⟨fun _ _ _ => rfl, rfl, rfl, .refl _⟩, List.nodup_finRange nofile,
        fun fd _ => hvacant fd⟩
    refine wpf_forEach (Forking np s) hstart (fun fd l t ht => forkFd_spec ht) fun t ht => ?_
    obtain ⟨hacct, hbeside, _, _⟩ := ht
    obtain ⟨i, hi⟩ := h.tables.cwd p hp
    rw [← hbeside.cwd] at hi
    have hpos : 0 < total t (holders t.cwd) i :=
      Nat.lt_of_lt_of_le (holders_pos hi) (Nat.le_add_left ..)
    simp only [forkCwd, wpf_bind, wpf_get, hi, wpf_onStore]
    refine wpf_mono (idup_spec hacct.store hpos) ?_
    rintro j v ⟨hj, hv, _, hd⟩
    subst hj
    simp only [setCwd, setState, wpf_modify, wpf_pure]
    refine ⟨⟨⟨fun q hq => ?_, fun q hq => ?_⟩, ?_⟩, ?_⟩
    · have hqn : q ≠ np := by
        rintro rfl
        simp at hq
      have hq' : s.state q ≠ .used := by simpa [hqn, hbeside.state] using hq
      obtain ⟨hvq, hcq⟩ := h.tables.vacant q hq'
      exact ⟨fun fd => (hbeside.ofile q hqn fd).trans (hvq fd),
        by simpa [hqn, hbeside.cwd] using hcq⟩
    · by_cases hqn : q = np
      · subst hqn
        exact ⟨j, Function.update_self ..⟩
      · have hq' : s.state q = .used := by simpa [hqn, hbeside.state] using hq
        simpa [hqn, hbeside.cwd] using h.tables.cwd q hq'
    · rw [← hbeside.cwd] at hnocwd
      simp only [holders_enter hnocwd]
      refine ⟨hacct.ref, hacct.closed, ?_⟩
      rw [← total_bump] at hv
      exact hv
    · exact hd ▸ hbeside.disk

/-! ### Runs -/

/-- What an event does to the disk. -/
def Effect (C : Config) (s : Sys) : Event → (Key → Dinode) → Prop
  | .call p (.sysOpen (some path) _) => Creates C s.store (s.cwd p) path .file 0 0
  | .call p (.sysMkdir (some path)) => Creates C s.store (s.cwd p) path .dir 0 0
  | .call p (.sysMknod (some path) major minor) =>
      Creates C s.store (s.cwd p) path .device (short major) (short minor)
  | .call p (.sysLink (some _) (some new)) => Links s.store (s.cwd p) new
  | .call _ (.sysUnlink (some _)) => Unlinks s.store
  | _ => Thinned s.store.disk

theorem spec_discard {α : Type} {c : SysM α} {Q : Sys → Prop} (h : spec c (fun _ t => Q t) s) :
    spec (discard c) (fun _ t => Q t) s := by
  change wpf Fault.Foreign (c >>= fun _ => pure PUnit.unit) (fun _ t => Q t) s
  exact wpf_bind.mpr h

theorem perform_spec (h : Inv s) (hp : s.state p = .used) (c : Call) :
    spec (perform C p c) (fun _ t => Inv t ∧ Effect C s (.call p c) t.store.disk) s := by
  have hnone : Inv s ∧ Thinned s.store.disk s.store.disk := ⟨h, .refl _⟩
  cases c with
  | sysOpen path omode =>
      cases path with
      | none => exact hnone
      | some path => exact spec_discard (sysOpen_spec h hp path omode)
  | sysCreateMutex => exact spec_discard (sysCreateMutex_spec h hp)
  | sysPipe page copied => exact spec_discard (sysPipe_spec h hp page copied)
  | sysDup fd => exact spec_discard (sysDup_spec h hp fd)
  | sysClose fd => exact spec_discard (sysClose_spec h hp fd)
  | sysLink old new =>
      cases old with
      | none => exact hnone
      | some old =>
          cases new with
          | none => exact hnone
          | some new => exact spec_discard (sysLink_spec h hp old new)
  | sysUnlink path =>
      cases path with
      | none => exact hnone
      | some path => exact spec_discard (sysUnlink_spec h hp path)
  | sysMkdir path =>
      cases path with
      | none => exact hnone
      | some path => exact spec_discard (createPut_sys_spec h hp (by decide))
  | sysMknod path major minor =>
      cases path with
      | none => exact hnone
      | some path => exact spec_discard (createPut_sys_spec h hp (by decide))
  | sysChdir path =>
      cases path with
      | none => exact hnone
      | some path => exact spec_discard (sysChdir_spec h hp path)
  | sysExec path args image stack => exact spec_discard (sysExec_spec h hp path args image stack)
  | fork kalloc uvmcopy => exact spec_discard (fork_spec h hp kalloc uvmcopy)
  | exit => exact exit_spec h hp

theorem event_spec (h : Inv s) (ev : Event) :
    spec (eventBody C ev) (fun _ t => Inv t ∧ Effect C s ev t.store.disk) s := by
  cases ev with
  | call p c =>
      simp only [spec, eventBody, wpf_bind, wpf_get]
      exact wpf_ite (fun hp => perform_spec h hp c) fun _ => trivial
  | freeproc p =>
      simp only [spec, eventBody, wpf_bind, wpf_get]
      refine wpf_ite (fun hp => ?_) fun _ => trivial
      refine ⟨⟨⟨fun q hq => ?_, fun q hq => ?_⟩, ?_⟩, .refl _⟩
      · by_cases hqp : q = p
        · subst hqp
          exact h.tables.vacant q (by simp [hp])
        · exact h.tables.vacant q (by simpa [hqp] using hq)
      · have hqp : q ≠ p := by
          rintro rfl
          simp at hq
        exact h.tables.cwd q (by simpa [hqp] using hq)
      · exact ⟨h.acct.ref, h.acct.closed, h.acct.store⟩

theorem Inv.step {ev : Event} (h : Inv s) (hstep : step C s ev = some t) :
    Inv t ∧ Effect C s ev t.store.disk := by
  unfold Fs.step at hstep
  split at hstep
  case h_1 hbody =>
    cases hstep
    exact of_wpf (Q := fun _ t => Inv t ∧ Effect C s ev t.store.disk) (event_spec h ev) hbody
  all_goals cases hstep

theorem boot_inv (disk : Key → Dinode) : Inv (boot disk) := by
  have hfile : fileRefs (boot disk) = fun _ => 0 := holders_none
  have hcwd : holders (boot disk).cwd = bump (fun _ => 0) 0 := by
    rw [boot, holders_enter rfl, holders_none]
  refine ⟨⟨fun p hp => ?_, fun p hp => ?_⟩, fun f => ?_, fun _ _ => rfl, ?_⟩
  · have hne : p ≠ initproc := by
      rintro rfl
      exact hp rfl
    exact ⟨fun _ => rfl, by simp [boot, hne]⟩
  · by_cases hne : p = initproc
    · exact ⟨0, by simp [boot, hne]⟩
    · simp [boot, hne] at hp
  · exact (congrArg Nat.cast (congrFun holders_none f)).symm
  · have htotal : total (boot disk) (holders (boot disk).cwd) = bump (fun _ => 0) 0 := by
      funext i
      simp [total, hfile, hcwd]
    rw [htotal]
    refine ⟨fun i => ?_, fun i j hi hj _ => ?_, fun i => ?_, fun i _ hv => ?_⟩
    · by_cases hi : i = 0
      · subst hi
        rfl
      · simp [boot, hi, bump_of_ne]
    · have hzero : ∀ k : InodeId, 0 < bump (fun _ => 0) 0 k → k = 0 := fun k hk => by
        by_contra hne
        rw [bump_of_ne _ hne] at hk
        exact Nat.lt_irrefl 0 hk
      rw [hzero i hi, hzero j hj]
    · by_cases hi : i = 0
      · subst hi
        simp [boot]
      · simp [boot, hi]
    · by_cases hi : i = 0
      · subst hi
        simp [boot] at hv
      · simp [boot, hi] at hv

/-- A run of the system. -/
theorem inv_of_run {disk : Key → Dinode} {evs : List Event}
    (hrun : run (step C) (boot disk) evs = some s) : Inv s :=
  invariant' (fun h hstep => (h.step hstep).1) (boot_inv disk) hrun

theorem no_fault {ev : Event} {x : Fault} (h : Inv s) (hx : eventBody C ev s = .fault x) :
    x.Foreign := fault_of_wpf (event_spec h ev) hx

/-- In every state between system calls, a file has as many references as
there are descriptors for it. So no descriptor is for a closed file, and
`filedup` and `fileclose` do not panic. -/
theorem file_refs (C : Config) (disk : Key → Dinode) (evs : List Event) (s : Sys)
    (hrun : run (step C) (boot disk) evs = some s) :
    (∀ f, (s.file f).ref = (Finset.univ.filter fun x => s.ofile x = some f).card) ∧
      (∀ x f, s.ofile x = some f → (s.file f).ref ≠ 0) ∧
      ∀ ev, eventBody C ev s ≠ .fault .filedup ∧ eventBody C ev s ≠ .fault .fileclose := by
  have h := inv_of_run hrun
  refine ⟨h.acct.ref, fun x f hx => ?_, fun ev => ⟨fun hf => ?_, fun hf => ?_⟩⟩
  · have hpos := holders_pos hx
    have href := h.acct.ref f
    omega
  · exact no_fault h hf
  · exact no_fault h hf

/-- A disk with nothing but the root directory. -/
def emptyDisk : Key → Dinode := fun k =>
  if k = (rootDev, rootIno) then
    { type := .dir, nlink := 1, data := [⟨1, ['.']⟩, ⟨1, ['.', '.']⟩] }
  else {}

def smallConfig : Config := ⟨10, by decide⟩

/-- A process opens a file, forks and closes; its child duplicates the
descriptor, fails to make a pipe, makes a mutex and exits. -/
theorem file_refs_fork :
    ∃ s, run (step smallConfig) (boot emptyDisk)
        [.call 0 (.sysOpen (some ['a']) 0x202), .call 0 (.fork true true), .call 0 (.sysClose 0),
          .call 1 (.sysDup 0), .call 1 (.sysPipe (some 7) false), .call 1 .sysCreateMutex,
          .call 1 .exit] = some s ∧
      ∀ f, (s.file f).ref = (Finset.univ.filter fun x => s.ofile x = some f).card := by
  obtain ⟨s, hs⟩ := Option.isSome_iff_exists.mp
    (by decide +kernel : (run (step smallConfig) (boot emptyDisk)
      [.call 0 (.sysOpen (some ['a']) 0x202), .call 0 (.fork true true), .call 0 (.sysClose 0),
        .call 1 (.sysDup 0), .call 1 (.sysPipe (some 7) false), .call 1 .sysCreateMutex,
        .call 1 .exit]).isSome = true)
  exact ⟨s, hs, (file_refs _ _ _ s hs).1⟩

/-- In every state between system calls, an inode has as many references as
there are open files and current directories that point to it; no inode is
cached twice, and none is locked. -/
theorem inode_refs (C : Config) (disk : Key → Dinode) (evs : List Event) (s : Sys)
    (hrun : run (step C) (boot disk) evs = some s) :
    (∀ i, (s.store.inode i).ref =
      (Finset.univ.filter fun f => 0 < (s.file f).ref ∧
        ((s.file f).type = .inode ∨ (s.file f).type = .device) ∧ (s.file f).ip = i).card +
      (Finset.univ.filter fun p => s.cwd p = some i).card) ∧
      (∀ i j, 0 < (s.store.inode i).ref → 0 < (s.store.inode j).ref →
        (s.store.inode i).dev = (s.store.inode j).dev →
        (s.store.inode i).inum = (s.store.inode j).inum → i = j) ∧
      ∀ i, (s.store.inode i).lock = false := by
  have h := (inv_of_run hrun).acct.store
  refine ⟨fun i => ?_, fun i j hi hj hdev hinum => ?_, fun i => ?_⟩
  · have htarget : ∀ f, (s.file f).target = some i ↔ 0 < (s.file f).ref ∧
        ((s.file f).type = .inode ∨ (s.file f).type = .device) ∧ (s.file f).ip = i := by
      intro f
      simp only [File.target, Option.ite_none_right_eq_some, Option.some.injEq, and_assoc]
    rw [h.ref i, total, fileRefs, holders, tally, holders, tally]
    simp only [htarget, Int.natCast_add]
  · rw [h.ref i] at hi
    rw [h.ref j] at hj
    exact h.unique i j (by exact_mod_cast hi) (by exact_mod_cast hj) (Prod.ext hdev hinum)
  · have := h.lock i
    simpa using this

/-- A process makes a directory, moves into it and links a file; lookups of
the empty path and of a file that is not there fail. -/
theorem inode_refs_chdir :
    ∃ s, run (step smallConfig) (boot emptyDisk)
        [.call 0 (.sysMkdir (some ['d'])), .call 0 (.sysChdir (some ['d'])),
          .call 0 (.sysOpen (some ['a']) 0x202), .call 0 (.sysLink (some ['a']) (some ['/', 'b'])),
          .call 0 (.sysUnlink (some ['.', '.', '/', 'd', '/', 'a'])), .call 0 (.sysOpen (some []) 0),
          .call 0 (.sysExec (some ['x']) true true true)] = some s ∧
      ∀ i, (s.store.inode i).lock = false := by
  obtain ⟨s, hs⟩ := Option.isSome_iff_exists.mp
    (by decide +kernel : (run (step smallConfig) (boot emptyDisk)
      [.call 0 (.sysMkdir (some ['d'])), .call 0 (.sysChdir (some ['d'])),
        .call 0 (.sysOpen (some ['a']) 0x202), .call 0 (.sysLink (some ['a']) (some ['/', 'b'])),
        .call 0 (.sysUnlink (some ['.', '.', '/', 'd', '/', 'a'])), .call 0 (.sysOpen (some []) 0),
        .call 0 (.sysExec (some ['x']) true true true)]).isSome = true)
  exact ⟨s, hs, (inode_refs _ _ _ s hs).2.2⟩

end Xv6.Fs
