import Xv6.Fs.Calls
import Xv6.Fs.Refs

/-!
What the calls on directories do.

Each function of `sysfile.c` that works on inodes has one rule: the
references and locks it leaves behind, and the changes of the disk. A
change is an update of one or two inodes, and before and after it lookups
may free inodes that have no links.
-/

namespace Xv6.Fs

open Lib Prog

variable {C : Config} {n : InodeId → ℕ} {L : Finset InodeId} {s t : Store} {i dp ip : InodeId}
  {cwd : Option InodeId} {d d' : Key → Dinode}

/-- The process has a current directory, to which the account has a
reference. -/
def HasCwd (n : InodeId → ℕ) (cwd : Option InodeId) : Prop := ∃ i, cwd = some i ∧ 0 < n i

theorem HasCwd.bump (h : HasCwd n cwd) (i : InodeId) : HasCwd (bump n i) cwd := by
  obtain ⟨j, hj, hn⟩ := h
  exact ⟨j, hj, hn.trans_le (le_bump n i j)⟩

/-! ### `create` -/

/-- The inode that `create` makes; a directory starts with `.` and `..`. -/
def newInode (type : FileType) (major minor : ℤ) (inum parent : ℕ) : Dinode where
  type := type
  major := major
  minor := minor
  nlink := 1
  data := if type = .dir then [⟨inum, ['.']⟩, ⟨parent, ['.', '.']⟩] else []

/-- The parent when `create` has made an inode. -/
def Dinode.adopt (d : Dinode) (type : FileType) (name : Name) (inum : ℕ) : Dinode :=
  (if type = .dir then d.incr else d).enter name inum

/-- `create` has made the inode `inum`, under a name that the directory at
`k` did not have. -/
structure Made (C : Config) (k : Key) (name : Name) (type : FileType) (major minor : ℤ)
    (inum : ℕ) (d d' : Key → Dinode) : Prop where
  inum_ne : inum ≠ 0
  inum_lt : inum < C.ninodes
  free : (d (k.1, inum)).type = .free
  dir : (d k).type = .dir
  new : (d k).lookup name = none
  disk : d' = Function.update (Function.update d (k.1, inum)
    (newInode type major minor inum k.2)) k ((d k).adopt type name inum)

theorem enter_dot {e : Dinode} {a : ℕ} (he : e.data = []) :
    (e.enter ['.'] a).data = [⟨a, ['.']⟩] := by
  simp [Dinode.enter, he, emptyPlace, writeEntry]

theorem enter_dotdot {e : Dinode} {a b : ℕ} (ha : a ≠ 0) (he : e.data = [⟨a, ['.']⟩]) :
    e.lookup ['.', '.'] = none ∧
      e.enter ['.', '.'] b = { e with data := [⟨a, ['.']⟩, ⟨b, ['.', '.']⟩] } := by
  constructor
  · simp [Dinode.lookup, he, Dirent.named]
  · simp [Dinode.enter, he, emptyPlace, writeEntry, List.findIdx?_cons, ha]

theorem createDots_spec {kd ki : Key} (h : Counted n L s) (hdp : 0 < n dp) (hip : 0 < n ip)
    (hvd : (s.inode dp).valid) (hvi : (s.inode ip).valid) (hkd : (s.inode dp).key = kd)
    (hki : (s.inode ip).key = ki) (hne : kd ≠ ki) (hzero : ki.2 ≠ 0)
    (hempty : (s.disk ki).data = []) :
    spec (createDots dp ip) (fun _ t => Counted n L t ∧ Keeps n s t ∧
      t.disk = Function.update (Function.update s.disk kd (s.disk kd).incr) ki
        { s.disk ki with data := [⟨ki.2, ['.']⟩, ⟨kd.2, ['.', '.']⟩] }) s := by
  simp only [spec, createDots, wpf_bind]
  refine spec_amend h hdp hvd (fun d hd => hd) fun t ht hkt hdt => ?_
  rw [hkd] at hdt
  have hkit : (t.inode ip).key = ki := (hkt.key ip hip).trans hki
  have hti : t.disk ki = s.disk ki := by rw [hdt, Function.update_of_ne hne.symm]
  rw [wpf_inode]
  refine wpf_mono (dirlink_spec ht hip (hkt.valid ip hip hvi) ['.'] _) ?_
  rintro r u ⟨_, hr⟩
  refine wpf_ite (fun _ => trivial) fun hlinked => ?_
  obtain rfl : r = true := by simpa using hlinked
  obtain ⟨_, hu, hku, hdu⟩ := hr
  rw [hkit, hti, show (t.inode ip).inum = ki.2 from congrArg Prod.snd hkit] at hdu
  have hkeep := hkt.trans hku
  have hkiu : (u.inode ip).key = ki := (hkeep.key ip hip).trans hki
  have hui : u.disk ki = (s.disk ki).enter ['.'] ki.2 := by rw [hdu, Function.update_self]
  obtain ⟨_, henter⟩ := enter_dotdot (b := kd.2) hzero
    (show (u.disk ki).data = _ by rw [hui, enter_dot hempty])
  simp only [wpf_bind, wpf_inode]
  refine wpf_mono (dirlink_spec hu hip (hkeep.valid ip hip hvi) ['.', '.'] _)
    ?_
  rintro r v ⟨_, hr⟩
  refine wpf_ite (fun _ => trivial) fun hlinked => ?_
  obtain rfl : r = true := by simpa using hlinked
  obtain ⟨_, hv, hkv, hdv⟩ := hr
  rw [hkiu, show (u.inode dp).inum = kd.2 from
    congrArg Prod.snd ((hkeep.key dp hdp).trans hkd)] at hdv
  refine ⟨hv, hkeep.trans hkv, ?_⟩
  rw [hdv, henter, hui, hdu, hdt, Function.update_idem]
  rfl

variable {type : FileType} {path : Path}

variable {major minor : ℤ}

theorem createDir_spec {Q : Unit → Store → Prop} {kd ki : Key}
    (h : Counted n L s) (hdp : 0 < n dp) (hip : 0 < n ip)
    (hvd : (s.inode dp).valid) (hvi : (s.inode ip).valid) (hkd : (s.inode dp).key = kd)
    (hki : (s.inode ip).key = ki) (hne : kd ≠ ki) (hzero : ki.2 ≠ 0)
    (hnew : s.disk ki = { type := type, major := major, minor := minor, nlink := 1 })
    (hQ : ∀ t, Counted n L t → Keeps n s t →
      t.disk = Function.update (Function.update s.disk kd
        (if type = .dir then (s.disk kd).incr else s.disk kd)) ki
        (newInode type major minor ki.2 kd.2) → Q () t) :
    spec (createDir type dp ip) Q s := by
  refine wpf_ite (fun hdir => ?_) fun hdir => ?_
  · refine wpf_mono (createDots_spec h hdp hip hvd hvi hkd hki hne hzero (by rw [hnew]))
      fun _ t ⟨ht, hk, hd⟩ => hQ t ht hk ?_
    rw [hd, hnew, newInode, if_pos hdir, if_pos hdir]
  · refine hQ s h (.refl n s) ?_
    rw [newInode, if_neg hdir, if_neg hdir, ← hnew, Function.update_eq_self,
      Function.update_eq_self]

theorem createInode_spec {k : Key} {name : Name}
    (h : Counted (bump n dp) {dp} s) (hv : (s.inode dp).valid) (hk : (s.inode dp).key = k)
    (htype : type ≠ .free) (hnew : (s.disk k).lookup name = none) :
    spec (createInode C dp name type major minor) (fun ip t => Counted (bump n ip) {ip} t ∧
      Keeps n s t ∧ (t.inode ip).valid ∧ ∃ d' inum, (t.inode ip).key = (k.1, inum) ∧
        Made C k name type major minor inum s.disk d' ∧ Thinned d' t.disk) s := by
  obtain ⟨hcopy, hdpfree⟩ := h.loaded dp (bump_pos n dp) hv
  rw [hcopy, hk] at hdpfree
  simp only [spec, createInode, wpf_bind, wpf_inode]
  refine wpf_mono (ialloc_spec C h _ type) ?_
  rintro ip t ⟨ht, hkt, inum, hkey, hzero, hlt, hfree, hdt⟩
  rw [show (s.inode dp).dev = k.1 from congrArg Prod.fst hk] at hkey hfree hdt
  have hne : k ≠ (k.1, inum) := by
    intro he
    rw [← he] at hfree
    exact hdpfree hfree
  have hdp : 0 < bump (bump n dp) ip dp := (bump_pos n dp).trans_le (le_bump _ ip dp)
  have hip : 0 < bump (bump n dp) ip ip := bump_pos _ ip
  have hpos : ∀ j, 0 < n j → 0 < bump (bump n dp) ip j := fun j hj =>
    hj.trans_le ((le_bump n dp j).trans (le_bump _ ip j))
  have hdne : dp ≠ ip := by
    rintro rfl
    rw [hkt.key dp (bump_pos n dp), hk] at hkey
    exact hne hkey
  have hkdp : (t.inode dp).key = k := (hkt.key dp (bump_pos n dp)).trans hk
  refine wpf_mono (ilock_spec ht hip) ?_
  rintro _ u ⟨hu, hku, hdu, hvu⟩
  -- the new inode, with its numbers
  refine spec_amend hu hip hvu (fun d hd => hd) fun v hv' hkv hdv => ?_
  have hkeep : Keeps (bump (bump n dp) ip) t v := hku.trans hkv
  rw [hku.key ip hip, hkey, hdu, hdt, Function.update_self, Function.update_idem] at hdv
  have hdpv : (v.inode dp).key = k := (hkeep.key dp hdp).trans hkdp
  have hipv : (v.inode ip).key = (k.1, inum) := (hkeep.key ip hip).trans hkey
  have hvdp : (v.inode dp).valid := hkeep.valid dp hdp (hkt.valid dp (bump_pos n dp) hv)
  have hvip : (v.inode ip).valid := hkv.valid ip hip hvu
  refine createDir_spec hv' hdp hip hvdp hvip hdpv hipv hne hzero
    (by rw [hdv, Function.update_self]) fun w hw hkw hdw => ?_
  -- the entry in the parent
  have hwk : w.disk k = if type = .dir then (s.disk k).incr else s.disk k := by
    rw [hdw, Function.update_of_ne hne, Function.update_self, hdv, Function.update_of_ne hne]
  refine wpf_mono (dirlink_spec hw hdp (hkw.valid dp hdp hvdp) name _) ?_
  rintro r x ⟨hdir, hr⟩
  refine wpf_ite (fun _ => trivial) fun hlinked => ?_
  obtain rfl : r = true := by simpa using hlinked
  obtain ⟨_, hx, hkx, hdx⟩ := hr
  have hdpw : (w.inode dp).key = k := (hkw.key dp hdp).trans hdpv
  rw [hdpw, show (w.inode ip).inum = inum from
    congrArg Prod.snd ((hkw.key ip hip).trans hipv), hwk] at hdx
  rw [bump_comm] at hx
  rw [wpf_bind]
  refine wpf_mono (iunlockput_spec hx (by simp)) ?_
  rintro _ y ⟨hy, hky, hdy⟩
  have hlocks : (insert ip {dp} : Finset InodeId).erase dp = {ip} := by
    rw [Finset.erase_insert_of_ne hdne.symm]
    simp
  rw [hlocks] at hy
  have hall : Keeps (bump (bump n dp) ip) t x := (hkeep.trans hkw).trans hkx
  have hally : (y.inode ip).key = (k.1, inum) :=
    (hky.key ip (bump_pos n ip)).trans ((hall.key ip hip).trans hkey)
  refine ⟨hy, ?_, ?_, x.disk, inum, hally, ⟨hzero, hlt, hfree, ?_, hnew, ?_⟩, hdy⟩
  · exact (hkt.drop.trans (hall.mono fun j => (le_bump n dp j).trans (le_bump _ ip j))).trans
      hky.drop
  · exact hky.valid ip (bump_pos n ip) (hkx.valid ip hip (hkw.valid ip hip hvip))
  · rw [hdpw, hwk] at hdir
    by_cases hd : type = .dir
    · rwa [if_pos hd] at hdir
    · rwa [if_neg hd] at hdir
  · rw [hdx, hdw, hdv, Function.update_comm hne.symm, Function.update_idem, Function.update_comm hne,
      Function.update_idem]
    rfl

/-- The directory and the name that a new entry for the path is for. -/
def parentOf (s : Store) (cwd : Option InodeId) (path : Path) : Option (Key × Name) :=
  resolve s.disk true path.length (startKey s cwd path) path

/-- The disk after `create`: an inode may have been made. -/
def Creates (C : Config) (s : Store) (cwd : Option InodeId) (path : Path) (type : FileType)
    (major minor : ℤ) (d : Key → Dinode) : Prop :=
  Thinned s.disk d ∨ ∃ d₁ d₂ k name inum, Thinned s.disk d₁ ∧
    parentOf s cwd path = some (k, name) ∧ Made C k name type major minor inum d₁ d₂ ∧
    Thinned d₂ d

theorem Creates.thin (h : Creates C s cwd path type major minor d) (hd : Thinned d d') :
    Creates C s cwd path type major minor d' := by
  obtain h | ⟨d₁, d₂, k, name, inum, h₁, hp, hm, h₂⟩ := h
  · exact .inl (h.trans hd)
  · exact .inr ⟨d₁, d₂, k, name, inum, h₁, hp, hm, h₂.trans hd⟩

/-- What `create` returns and does. -/
def Created (C : Config) (n : InodeId → ℕ) (s : Store) (cwd : Option InodeId) (path : Path)
    (type : FileType) (major minor : ℤ) : Option InodeId → Store → Prop
  | none, t => Counted n ∅ t ∧ Keeps n s t ∧ Thinned s.disk t.disk
  | some ip, t => Counted (bump n ip) {ip} t ∧ Keeps n s t ∧ (t.inode ip).valid ∧
      Creates C s cwd path type major minor t.disk

theorem createFound_spec (h : Counted (bump (bump n dp) ip) {dp} s) :
    spec (createFound dp ip type) (fun r t => Keeps n s t ∧ Thinned s.disk t.disk ∧
      match r with
      | none => Counted n ∅ t
      | some j => Counted (bump n j) {j} t ∧ (t.inode j).valid) s := by
  simp only [spec, createFound, wpf_bind]
  rw [bump_comm] at h
  refine wpf_mono (iunlockput_spec h (by simp)) fun _ t ⟨ht, hkt, hdt⟩ => ?_
  rw [Finset.erase_singleton] at ht
  refine wpf_mono (ilock_spec ht (bump_pos n ip)) fun _ u ⟨hu, hku, hdu, hvu⟩ => ?_
  rw [insert_empty_eq] at hu
  have hkeep := (hkt.trans hku).drop
  rw [wpf_inode]
  refine wpf_ite (fun _ => ?_) fun _ => ?_
  · exact ⟨hkeep, hdu ▸ hdt, hu, hvu⟩
  · rw [wpf_bind]
    refine wpf_mono (iunlockput_spec hu (by simp)) fun _ v ⟨hv, hkv, hdv⟩ => ?_
    rw [Finset.erase_singleton] at hv
    exact ⟨hkeep.trans hkv, hdt.trans (hdu ▸ hdv), hv⟩

theorem create_spec (h : Counted n ∅ s) (hcwd : HasCwd n cwd) (htype : type ≠ .free) :
    spec (create C cwd path type major minor) (Created C n s cwd path type major minor) s := by
  simp only [spec, create, nameiparent, wpf_bind]
  refine wpf_mono (namex_spec h hcwd path true) fun r t hr => ?_
  cases r with
  | none => exact hr.2
  | some x =>
      obtain ⟨dp, name⟩ := x
      obtain ⟨hpar, ht, hkt, hdt⟩ := hr
      simp only [wpf_bind]
      refine wpf_mono (ilock_spec ht (bump_pos n dp)) ?_
      rintro _ u ⟨hu, hku, hdu, hvu⟩
      rw [insert_empty_eq] at hu
      have hkeep := hkt.trans hku.drop
      have hthin : Thinned s.disk u.disk := hdu ▸ hdt
      refine wpf_mono (dirlookup_spec hu (bump_pos n dp) hvu name) ?_
      rintro r v ⟨_, hr⟩
      cases r with
      | none =>
          obtain ⟨rfl, hnone⟩ := hr
          rw [hku.key dp (bump_pos n dp)] at hnone
          simp only [wpf_bind]
          refine wpf_mono (createInode_spec hu hvu (hku.key dp (bump_pos n dp)) htype hnone)
            ?_
          rintro ip w ⟨hw, hkw, hvw, d', inum, hkey, hmade, hdw⟩
          exact ⟨hw, hkeep.trans hkw, hvw,
            .inr ⟨_, d', _, name, inum, hthin, hpar, hmade, hdw⟩⟩
      | some x =>
          obtain ⟨ip, off⟩ := x
          obtain ⟨hv, hkv, hdv, _⟩ := hr
          refine wpf_mono (createFound_spec hv) ?_
          rintro r w ⟨hkw, hdw, hw⟩
          have hkeep' := (hkeep.trans hkv.drop).trans hkw
          have hthin' : Thinned s.disk w.disk := hthin.trans (hdv ▸ hdw)
          cases r with
          | none => exact ⟨hw, hkeep', hthin'⟩
          | some j => exact ⟨hw.1, hkeep', hw.2, .inl hthin'⟩

theorem createPut_spec (h : Counted n ∅ s) (hcwd : HasCwd n cwd) (htype : type ≠ .free) :
    spec (createPut C cwd path type major minor) (fun _ t => Counted n ∅ t ∧ Keeps n s t ∧
      Creates C s cwd path type major minor t.disk) s := by
  simp only [spec, createPut, wpf_bind]
  refine wpf_mono (create_spec h hcwd htype) fun r t hr => ?_
  cases r with
  | none =>
      obtain ⟨ht, hkt, hdt⟩ := hr
      exact ⟨ht, hkt, .inl hdt⟩
  | some ip =>
      obtain ⟨ht, hkt, _, hdt⟩ := hr
      rw [wpf_bind]
      refine wpf_mono (iunlockput_spec ht (by simp)) ?_
      rintro _ u ⟨hu, hku, hdu⟩
      rw [Finset.erase_singleton] at hu
      exact ⟨hu, hkt.trans hku, hdt.thin hdu⟩

/-! ### Paths that exist -/

/-- `namei` and `ilock`, as every call begins that looks for a path. -/
theorem nameiLock_spec {α : Type} {none' : FsM α} {rest : InodeId → FsM α}
    {Q : α → Store → Prop} (h : Counted n ∅ s) (hcwd : HasCwd n cwd)
    (hnone : ∀ t, Counted n ∅ t → Keeps n s t → Thinned s.disk t.disk → spec none' Q t)
    (hrest : ∀ ip t, Counted (bump n ip) {ip} t → Keeps n s t → (t.inode ip).valid →
      Thinned s.disk t.disk → spec (rest ip) Q t) :
    spec (do
      match ← namei cwd path with
      | none => none'
      | some ip => do
          ilock ip
          rest ip) Q s := by
  simp only [spec, wpf_bind]
  refine wpf_mono (namei_spec h hcwd path) fun r t hr => ?_
  cases r with
  | none => exact hnone t hr.1 hr.2.1 hr.2.2
  | some ip =>
      obtain ⟨ht, hkt, hdt⟩ := hr
      rw [wpf_bind]
      refine wpf_mono (ilock_spec ht (bump_pos n ip)) ?_
      rintro _ u ⟨hu, hku, hdu, hvu⟩
      rw [insert_empty_eq] at hu
      exact hrest ip u hu (hkt.trans hku.drop) hvu (hdu ▸ hdt)

/-- The end of a call that gives up a locked inode. -/
theorem putLocked_spec {α : Type} {a : α} {s₀ : Store} (h : Counted (bump n ip) {ip} s)
    (hk : Keeps n s₀ s) (hd : Thinned s₀.disk s.disk) {Q : α → Store → Prop}
    (hQ : ∀ t, Counted n ∅ t → Keeps n s₀ t → Thinned s₀.disk t.disk → Q a t) :
    spec (do iunlockput ip; pure a) Q s := by
  simp only [spec, wpf_bind]
  refine wpf_mono (iunlockput_spec h (by simp)) ?_
  rintro _ t ⟨ht, hkt, hdt⟩
  rw [Finset.erase_singleton] at ht
  exact hQ t ht (hk.trans hkt) (hd.trans hdt)

theorem openInode_spec {omode : BitVec 32} (h : Counted n ∅ s) (hcwd : HasCwd n cwd) :
    spec (openInode C cwd path omode) (Created C n s cwd path .file 0 0) s := by
  unfold openInode
  split
  · exact create_spec h hcwd (by decide)
  · refine nameiLock_spec h hcwd (fun t ht hkt hdt => ⟨ht, hkt, hdt⟩) fun ip t ht hkt hvt hdt => ?_
    simp only [spec, wpf_bind, wpf_inode]
    refine wpf_ite (fun _ => ?_) fun _ => ⟨ht, hkt, hvt, .inl hdt⟩
    exact putLocked_spec ht hkt hdt fun u hu hku hdu => ⟨hu, hku, hdu⟩

theorem chdirInode_spec (h : Counted n ∅ s) (hcwd : HasCwd n cwd) :
    spec (chdirInode cwd path) (Reached n s) s := by
  refine nameiLock_spec h hcwd (fun t ht hkt hdt => ⟨ht, hkt, hdt⟩) fun ip t ht hkt hvt hdt => ?_
  simp only [spec, wpf_bind, wpf_inode]
  refine wpf_ite (fun _ => ?_) fun _ => ?_
  · exact putLocked_spec ht hkt hdt fun u hu hku hdu => ⟨hu, hku, hdu⟩
  · rw [wpf_bind]
    refine wpf_mono (iunlock_spec ht (bump_pos n ip) (by simp)) ?_
    rintro _ u ⟨hu, hku, hdu⟩
    rw [Finset.erase_singleton] at hu
    exact ⟨hu, hkt.trans hku.drop, hdu ▸ hdt⟩

theorem exec_spec {image stack : Bool} (h : Counted n ∅ s) (hcwd : HasCwd n cwd) :
    spec (exec cwd path image stack) (fun _ t => Counted n ∅ t ∧ Keeps n s t ∧
      Thinned s.disk t.disk) s := by
  refine nameiLock_spec h hcwd (fun t ht hkt hdt => ⟨ht, hkt, hdt⟩) fun ip t ht hkt hvt hdt => ?_
  exact wpf_ite (fun _ => putLocked_spec ht hkt hdt fun u hu hku hdu => ⟨hu, hku, hdu⟩)
    fun _ => putLocked_spec ht hkt hdt fun u hu hku hdu => ⟨hu, hku, hdu⟩

/-! ### `unlink` -/

/-- The parent when `sys_unlink` has cleared an entry. -/
def Dinode.disown (d : Dinode) (type : FileType) (off : ℕ) : Dinode :=
  let d := { d with data := writeEntry off ⟨0, []⟩ d.data }
  if type = .dir then d.decr else d

/-- `sys_unlink` has cleared the entry at `off`, which named the inode at
`ki`. -/
structure Cleared (kd ki : Key) (name : Name) (off : ℕ) (d d' : Key → Dinode) : Prop where
  dir : (d kd).type = .dir
  plain : name ≠ ['.'] ∧ name ≠ ['.', '.']
  entry : (d kd).lookup name = some (ki.2, off)
  dev : ki.1 = kd.1
  ne : kd ≠ ki
  nlink : 1 ≤ (d ki).nlink
  empty : (d ki).type = .dir → isdirempty (d ki).data
  disk : d' = Function.update d kd ((d kd).disown (d ki).type off)

/-- The disk after `unlink`: an entry may have been cleared, and the inode it
named has a link less. -/
def Unlinks (s : Store) (d : Key → Dinode) : Prop :=
  Thinned s.disk d ∨ ∃ d₁ d₂ d₃ kd ki name off, Thinned s.disk d₁ ∧
    Cleared kd ki name off d₁ d₂ ∧ Thinned d₂ d₃ ∧
    Thinned (Function.update d₃ ki (d₁ ki).decr) d

theorem Unlinks.of_thinned (h : Unlinks t d) (hd : Thinned s.disk t.disk) : Unlinks s d := by
  obtain h | ⟨d₁, d₂, d₃, kd, ki, name, off, h₁, hc, h₂, h₃⟩ := h
  · exact .inl (hd.trans h)
  · exact .inr ⟨d₁, d₂, d₃, kd, ki, name, off, hd.trans h₁, hc, h₂, h₃⟩

theorem unlinkParent_spec {Q : Unit → Store → Prop} (h : Counted n L s)
    (hn : 0 < n dp) (hv : (s.inode dp).valid)
    (hQ : ∀ t, Counted n L t → Keeps n s t → t.disk = Function.update s.disk (s.inode dp).key
      (if type = .dir then (s.disk (s.inode dp).key).decr else s.disk (s.inode dp).key) → Q () t) :
    spec (unlinkParent type dp) Q s := by
  refine wpf_ite (fun hdir => ?_) fun hdir => ?_
  · rw [wpf_bind]
    exact spec_amend h hn hv (fun d hd => hd) fun t ht hk hd => hQ t ht hk (by rw [hd, if_pos hdir])
  · exact hQ s h (.refl n s) (by rw [if_neg hdir, Function.update_eq_self])

theorem unlinkEntry_spec {name : Name} {off : ℕ} {inum : ℕ}
    (h : Counted (bump (bump n dp) ip) {dp} s) (hv : (s.inode dp).valid)
    (hdir : (s.disk (s.inode dp).key).type = .dir) (hname : name ≠ ['.'] ∧ name ≠ ['.', '.'])
    (hentry : (s.disk (s.inode dp).key).lookup name = some (inum, off))
    (hkey : (s.inode ip).key = ((s.inode dp).key.1, inum)) :
    spec (unlinkEntry dp ip off) (fun _ t => Counted n ∅ t ∧ Keeps n s t ∧ Unlinks s t.disk) s := by
  have hdp : 0 < bump (bump n dp) ip dp := (bump_pos n dp).trans_le (le_bump _ ip dp)
  have hip : 0 < bump (bump n dp) ip ip := bump_pos _ ip
  have hle : ∀ j, n j ≤ bump (bump n dp) ip j := fun j =>
    (le_bump n dp j).trans (le_bump _ ip j)
  have hcomm : bump (bump n dp) ip = bump (bump n ip) dp := bump_comm n dp ip
  generalize hkd : (s.inode dp).key = kd at hdir hentry hkey
  simp only [spec, unlinkEntry, wpf_bind]
  refine wpf_mono (wpf_and (ilock_spec h hip) (ilock_unlocked h hip))
    ?_
  rintro _ t ⟨⟨ht, hkt, hdt, hvt⟩, hnot⟩
  have hne : ip ≠ dp := by simpa using hnot
  have hki : (t.inode ip).key = (kd.1, inum) := (hkt.key ip hip).trans hkey
  have hkd' : (t.inode dp).key = kd := (hkt.key dp hdp).trans hkd
  have hkne : kd ≠ (kd.1, inum) := fun he =>
    hne (ht.unique ip dp hip hdp (by rw [hki, hkd', ← he]))
  have hlocks : (insert ip {dp} : Finset InodeId).erase dp = {ip} := by
    rw [Finset.erase_insert_of_ne hne]
    simp
  have hlocks' : (insert ip {dp} : Finset InodeId).erase ip = {dp} := by
    rw [Finset.erase_insert hnot]
  obtain ⟨hcopy, _⟩ := ht.loaded ip hip hvt
  rw [hki, hdt] at hcopy
  rw [wpf_inode, hcopy]
  refine wpf_ite (fun _ => trivial) fun hnlink => wpf_ite (fun _ => ?_) fun hempty => ?_
  · -- a directory that is not empty
    simp only [wpf_bind]
    refine wpf_mono (iunlockput_spec ht (by simp)) ?_
    rintro _ u ⟨hu, hku, hdu⟩
    rw [hlocks'] at hu
    refine wpf_mono (iunlockput_spec hu (by simp)) ?_
    rintro _ v ⟨hv', hkv, hdv⟩
    rw [Finset.erase_singleton] at hv'
    rw [hdt] at hdu
    exact ⟨hv', ((hkt.mono hle).trans hku.drop).trans hkv, .inl (hdu.trans hdv)⟩
  · simp only [wpf_bind]
    refine spec_amend ht hdp (hkt.valid dp hdp hv) (fun d hd => hd) fun u hu hku hdu => ?_
    rw [hkd', hdt] at hdu
    have hkdu : (u.inode dp).key = kd := (hku.key dp hdp).trans hkd'
    refine unlinkParent_spec hu hdp (hku.valid dp hdp (hkt.valid dp hdp hv)) fun v hv' hkv hdv => ?_
    rw [hkdu, hdu, Function.update_self, Function.update_idem] at hdv
    have hkeep := (hkt.trans hku).trans hkv
    rw [hcomm] at hv'
    refine wpf_mono (iunlockput_spec hv' (by simp)) ?_
    rintro _ w ⟨hw, hkw, hdw⟩
    rw [hlocks] at hw
    have hvw : (w.inode ip).valid :=
      hkw.valid ip (bump_pos n ip) (hkv.valid ip hip (hku.valid ip hip hvt))
    have hkiw : (w.inode ip).key = (kd.1, inum) :=
      (hkw.key ip (bump_pos n ip)).trans ((hkeep.key ip hip).trans hkey)
    refine spec_amend hw (bump_pos n ip) hvw (fun d hd => hd) fun x hx hkx hdx => ?_
    rw [hkiw] at hdx
    refine wpf_mono (iunlockput_spec hx (by simp)) ?_
    rintro _ y ⟨hy, hky, hdy⟩
    rw [Finset.erase_singleton] at hy
    have hw_eq : w.disk (kd.1, inum) = s.disk (kd.1, inum) := by
      obtain he | ⟨hzero, _⟩ := hdw (kd.1, inum)
      · rw [he, hdv, Function.update_of_ne hkne.symm]
      · rw [hdv, Function.update_of_ne hkne.symm] at hzero
        omega
    rw [hw_eq] at hdx
    refine ⟨hy, (((hkeep.mono hle).trans hkw.drop).trans hkx.drop).trans hky, .inr ⟨s.disk, v.disk,
      w.disk, kd, (kd.1, inum), name, off, .refl _, ?_, hdw, hdx ▸ hdy⟩⟩
    refine ⟨hdir, hname, hentry, rfl, hkne, by omega, fun hd => ?_, ?_⟩
    · simpa [hd] using hempty
    · rw [hdv]
      rfl

theorem unlink_spec (h : Counted n ∅ s) (hcwd : HasCwd n cwd) :
    spec (unlink cwd path) (fun _ t => Counted n ∅ t ∧ Keeps n s t ∧ Unlinks s t.disk) s := by
  simp only [spec, unlink, nameiparent, wpf_bind]
  refine wpf_mono (namex_spec h hcwd path true) fun r t hr => ?_
  cases r with
  | none => exact ⟨hr.2.1, hr.2.2.1, .inl hr.2.2.2⟩
  | some x =>
      obtain ⟨dp, name⟩ := x
      obtain ⟨_, ht, hkt, hdt⟩ := hr
      simp only [wpf_bind]
      refine wpf_mono (ilock_spec ht (bump_pos n dp)) ?_
      rintro _ u ⟨hu, hku, hdu, hvu⟩
      rw [insert_empty_eq] at hu
      have hkeep := hkt.trans hku.drop
      have hthin : Thinned s.disk u.disk := hdu ▸ hdt
      refine wpf_ite (fun _ => ?_) fun hname => ?_
      · exact putLocked_spec hu hkeep hthin fun v hv hkv hdv => ⟨hv, hkv, .inl hdv⟩
      rw [not_or] at hname
      rw [wpf_bind]
      refine wpf_mono (dirlookup_spec hu (bump_pos n dp) hvu name) ?_
      rintro r v ⟨hdir, hr⟩
      cases r with
      | none =>
          obtain ⟨rfl, _⟩ := hr
          exact putLocked_spec hu hkeep hthin fun w hw hkw hdw => ⟨hw, hkw, .inl hdw⟩
      | some x =>
          obtain ⟨ip, off⟩ := x
          obtain ⟨hv, hkv, hdv, inum, hentry, hkey⟩ := hr
          have hkd := hkv.key dp (bump_pos n dp)
          refine wpf_mono (unlinkEntry_spec hv (hkv.valid dp (bump_pos n dp) hvu)
            (by rwa [hkd, hdv]) hname (by rwa [hkd, hdv]) (by rwa [hkd])) ?_
          rintro _ w ⟨hw, hkw, hdw⟩
          exact ⟨hw, (hkeep.trans hkv.drop).trans hkw, hdw.of_thinned (hdv ▸ hthin)⟩

/-! ### `link` -/

/-- The disk after `link`. The inode gets a link; then it gets an entry as
well, or loses the link again. -/
def Links (s : Store) (cwd : Option InodeId) (new : Path) (d : Key → Dinode) : Prop :=
  Thinned s.disk d ∨ ∃ d₁ d₂ ki, Thinned s.disk d₁ ∧ (d₁ ki).type ≠ .dir ∧ (d₁ ki).type ≠ .free ∧
    Thinned (Function.update d₁ ki (d₁ ki).incr) d₂ ∧
    ((∃ k name, resolve (Function.update d₁ ki (d₁ ki).incr) true new.length (startKey s cwd new)
          new = some (k, name) ∧ k.1 = ki.1 ∧ (d₂ k).type = .dir ∧ (d₂ k).lookup name = none ∧
        Thinned (Function.update d₂ k ((d₂ k).enter name ki.2)) d) ∨
      Thinned (Function.update d₂ ki (d₂ ki).decr) d)

theorem linkBad_spec (h : Counted (bump n ip) ∅ s) :
    spec (linkBad ip) (fun r t => r = false ∧ Counted n ∅ t ∧ Keeps n s t ∧
      Thinned (Function.update s.disk (s.inode ip).key (s.disk (s.inode ip).key).decr) t.disk)
      s := by
  simp only [spec, linkBad, wpf_bind]
  refine wpf_mono (ilock_spec h (bump_pos n ip)) ?_
  rintro _ t ⟨ht, hkt, hdt, hvt⟩
  rw [insert_empty_eq] at ht
  refine spec_amend ht (bump_pos n ip) hvt (fun d hd => hd) fun u hu hku hdu => ?_
  refine wpf_mono (iunlockput_spec hu (by simp)) ?_
  rintro _ v ⟨hv, hkv, hdv⟩
  rw [Finset.erase_singleton] at hv
  rw [hdt, hkt.key ip (bump_pos n ip)] at hdu
  exact ⟨rfl, hv, (hkt.trans hku).drop.trans hkv, hdu ▸ hdv⟩

theorem linkEntry_spec {name : Name} (h : Counted n L s) (hn : 0 < n dp)
    (hv : (s.inode dp).valid) :
    spec (linkEntry dp ip name) (fun r t =>
      match r with
      | false => Counted n L t ∧ Keeps n s t ∧ Thinned s.disk t.disk
      | true => (s.inode dp).key.1 = (s.inode ip).key.1 ∧
          (s.disk (s.inode dp).key).type = .dir ∧
          Linked n L s (s.inode dp).key name (s.inode ip).key.2 true t) s := by
  simp only [spec, linkEntry, wpf_bind, wpf_inode]
  refine wpf_ite (fun _ => ⟨h, .refl n s, .refl _⟩) fun hdev => ?_
  rw [not_not] at hdev
  refine wpf_mono (dirlink_spec h hn hv name _) ?_
  rintro r t ⟨hdir, hr⟩
  cases r with
  | false => exact hr.2
  | true => exact ⟨hdev, hdir, hr⟩

theorem link_spec {old new : Path} (h : Counted n ∅ s) (hcwd : HasCwd n cwd) :
    spec (link cwd old new) (fun _ t => Counted n ∅ t ∧ Keeps n s t ∧ Links s cwd new t.disk)
      s := by
  refine nameiLock_spec h hcwd (fun t ht hkt hdt => ⟨ht, hkt, .inl hdt⟩)
    fun ip t ht hkt hvt hdt => ?_
  obtain ⟨hcopy, hfree⟩ := ht.loaded ip (bump_pos n ip) hvt
  simp only [spec, wpf_bind, wpf_inode]
  refine wpf_ite (fun _ => ?_) fun hnotdir => ?_
  · exact putLocked_spec ht hkt hdt fun u hu hku hdu => ⟨hu, hku, .inl hdu⟩
  rw [hcopy] at hfree hnotdir
  simp only [wpf_bind]
  refine spec_amend ht (bump_pos n ip) hvt (fun d hd => hd) fun u hu hku hdu => ?_
  refine wpf_mono (iunlock_spec hu (bump_pos n ip) (by simp)) ?_
  rintro _ v ⟨hv, hkv, hdv⟩
  rw [Finset.erase_singleton] at hv
  have hkeep : Keeps n s v := hkt.trans (hku.trans hkv).drop
  have hki : (v.inode ip).key = (t.inode ip).key :=
    ((hku.trans hkv).key ip (bump_pos n ip))
  have hstart : startKey v cwd new = startKey s cwd new := by
    obtain ⟨j, rfl, hj⟩ := hcwd
    simp only [startKey, Option.elim_some, hkeep.key j hj]
  refine wpf_mono (namex_spec hv (hcwd.bump ip) new true) fun r w hr => ?_
  rw [hdv, hdu, hstart] at hr
  cases r with
  | none =>
      obtain ⟨_, hw, hkw, hdw⟩ := hr
      rw [hdv, hdu] at hdw
      refine wpf_mono (linkBad_spec hw) ?_
      rintro _ x ⟨_, hx, hkx, hdx⟩
      rw [hkw.key ip (bump_pos n ip), hki] at hdx
      exact ⟨hx, (hkeep.trans hkw.drop).trans hkx,
        .inr ⟨t.disk, w.disk, _, hdt, hnotdir, hfree, hdw, .inr hdx⟩⟩
  | some x =>
      obtain ⟨dp, name⟩ := x
      obtain ⟨hpar, hw, hkw, hdw⟩ := hr
      rw [hdv, hdu] at hdw
      have hdp := bump_pos (bump n ip) dp
      have hip : 0 < bump (bump n ip) dp ip := (bump_pos n ip).trans_le (le_bump _ dp ip)
      simp only [wpf_bind]
      refine wpf_mono (ilock_spec hw hdp) ?_
      rintro _ x ⟨hx, hkx, hdx, hvx⟩
      rw [insert_empty_eq] at hx
      have hkix : (x.inode ip).key = (t.inode ip).key :=
        (hkx.key ip hip).trans ((hkw.key ip (bump_pos n ip)).trans hki)
      have hkeepx : Keeps n s x := (hkeep.trans hkw.drop).trans hkx.drop.drop
      refine wpf_mono (linkEntry_spec hx hdp hvx) fun r y hr => ?_
      cases r with
      | false =>
          obtain ⟨hy, hky, hdy⟩ := hr
          simp only [Bool.false_eq_true, if_false, wpf_bind]
          refine wpf_mono (iunlockput_spec hy (by simp)) ?_
          rintro _ z ⟨hz, hkz, hdz⟩
          rw [Finset.erase_singleton] at hz
          refine wpf_mono (linkBad_spec hz) ?_
          rintro _ z' ⟨_, hz', hkz', hdz'⟩
          rw [hkz.key ip (bump_pos n ip), hky.key ip hip, hkix] at hdz'
          refine ⟨hz', (((hkeepx.trans hky.drop.drop).trans hkz.drop).trans hkz'), .inr ⟨t.disk,
            z.disk, _, hdt, hnotdir, hfree, ?_, .inr hdz'⟩⟩
          exact hdw.trans ((hdx ▸ hdy).trans hdz)
      | true =>
          obtain ⟨hdev, hdir, hnone, hy, hky, hdy⟩ := hr
          simp only [if_true, wpf_bind]
          refine wpf_mono (iunlockput_spec hy (by simp)) ?_
          rintro _ z ⟨hz, hkz, hdz⟩
          rw [Finset.erase_singleton] at hz
          refine wpf_mono (iput_spec hz) ?_
          rintro _ z' ⟨hz', hkz', hdz'⟩
          rw [hkix, hkx.key dp hdp] at hdev
          rw [hkx.key dp hdp, hdx] at hdir hnone
          rw [hkix, hkx.key dp hdp, hdx] at hdy
          refine ⟨hz', ((hkeepx.trans hky.drop.drop).trans hkz.drop).trans hkz', .inr ⟨t.disk, w.disk,
            _, hdt, hnotdir, hfree, hdw, .inl ⟨_, name, hpar, hdev, hdir, hnone, ?_⟩⟩⟩
          rw [← hdy]
          exact hdz.trans hdz'

end Xv6.Fs
