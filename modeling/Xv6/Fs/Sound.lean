import Xv6.Fs.Path

/-!
Calls that return.

The rules of `Refs` say what a call does if it returns, and leave some panics
open. They cannot be had when the directories are as they should be: what an
entry names is there, what is referenced is there, and an inode without links
is there only as long as somebody holds it. In such a state, with room in the
inode cache, the functions below return, and giving back an inode changes
nothing on disk.

`Holding n m L s` keeps account of a call on the way: `n` is what was
referenced when it started, and `m` what is referenced now.
-/

namespace Xv6.Fs

open Lib Prog

variable {n m : InodeId → ℕ} {L : Finset InodeId} {s t u : Store} {i j dp : InodeId} {k : Key}
  {f : Dinode → Dinode} {F : Fault → Prop} {cwd : Option InodeId}

/-- The directories are as they should be. -/
structure Sound (n : InodeId → ℕ) (s : Store) : Prop where
  settled : ∀ k, ¬ Loose n s k
  entries : ∀ k, (s.disk k).type = .dir → ∀ de ∈ (s.disk k).data, de.inum ≠ 0 →
    (s.disk (k.1, de.inum)).type ≠ .free
  root : (s.disk (rootDev, rootIno)).type = .dir
  held : ∀ i, 0 < n i → (s.disk (s.inode i).key).type ≠ .free

namespace Sound

theorem lookup (h : Sound n s) {name : Name} {x : ℕ × ℕ} (hdir : (s.disk k).type = .dir)
    (hfound : (s.disk k).lookup name = some x) : (s.disk (k.1, x.1)).type ≠ .free := by
  obtain ⟨de, hde, hinum, hne, -⟩ := Dinode.mem_of_lookup hfound
  rw [← hinum]
  exact h.entries k hdir de (List.mem_of_getElem? hde) hne

theorem intact (h : Sound n s) : Intact n s := fun _ _ _ hdir hfound =>
  ⟨h.lookup hdir hfound, h.settled _⟩

theorem start (h : Sound n s) (hcwd : ∃ i, cwd = some i ∧ 0 < n i) (path : Path) :
    Present n s (startKey s cwd path) := by
  refine ⟨?_, h.settled _⟩
  obtain ⟨i, rfl, hi⟩ := hcwd
  rw [startKey]
  split_ifs
  · rw [h.root]
    simp
  · exact h.held i hi

/-- What is reached is there. -/
theorem follow (h : Sound n s) {names : List Name} {k' : Key} (hk : (s.disk k).type ≠ .free)
    (hfollow : Fs.follow s.disk k names = some k') : (s.disk k').type ≠ .free := by
  induction names generalizing k with
  | nil => exact Option.some.inj hfollow ▸ hk
  | cons name names ih =>
      rw [Fs.follow] at hfollow
      split_ifs at hfollow with hdir
      rw [not_not] at hdir
      obtain ⟨x, hx, hrest⟩ := Option.bind_eq_some_iff.mp hfollow
      exact ih (h.lookup hdir hx) hrest

/-- The links of inodes change, and not to 0. -/
theorem of_links (h : Sound n s) (hk : Keeps n s t)
    (htype : ∀ k, (t.disk k).type = (s.disk k).type) (hdata : ∀ k, (t.disk k).data = (s.disk k).data)
    (hlink : ∀ k, (s.disk k).type ≠ .free → (t.disk k).nlink = 0 → (s.disk k).nlink = 0) :
    Sound n t where
  settled := fun k ⟨hfree, hzero, hother⟩ => by
    rw [htype] at hfree
    exact h.settled k ⟨hfree, hlink k hfree hzero, fun j hj => hk.key j hj ▸ hother j hj⟩
  entries := fun k hdir de hde hne => by
    rw [htype] at hdir
    rw [hdata] at hde
    rw [htype]
    exact h.entries k hdir de hde hne
  root := by
    rw [htype]
    exact h.root
  held := fun i hi => by
    rw [htype, hk.key i hi]
    exact h.held i hi

theorem of_disk (h : Sound n s) (hk : Keeps n s t) (hd : t.disk = s.disk) : Sound n t :=
  h.of_links hk (fun _ => by rw [hd]) (fun _ => by rw [hd]) fun _ _ hzero => by rwa [hd] at hzero

end Sound

/-- A loaded inode changes, and its copy on disk. -/
theorem amend_returns {Q : Unit → Store → Prop} (h : Counted m L s) (hm : 0 < m i)
    (hv : (s.inode i).valid) (hf : ∀ d : Dinode, d.type ≠ .free → (f d).type ≠ .free)
    (hQ : ∀ t, Counted m L t → Keeps m s t →
      t.disk = Function.update s.disk (s.inode i).key (f (s.disk (s.inode i).key)) → Q () t) :
    twp F (setCopy i f) (fun _ t => twp F (iupdate i) Q t) s := by
  obtain ⟨hcopy, htype⟩ := h.loaded i hm hv
  have hrun : (setCopy i f >>= fun _ => iupdate i) s = .ok () (s.amend i f) := by
    simp [setCopy, iupdate, Store.amend, Inode.key, bind, Prog.bind, inode, setInode, Prog.modify]
  rw [← twp_bind]
  refine twp_of_eq hrun (hQ _ (h.amend hm (hf _ htype)) keeps_amend ?_)
  rw [Store.amend_disk, hcopy]

/-- The account of a call on the way. -/
structure Holding (n m : InodeId → ℕ) (L : Finset InodeId) (s : Store) : Prop where
  counted : Counted m L s
  le : ∀ i, n i ≤ m i
  sound : Sound n s

/-- Nothing has changed but the inode cache. -/
structure Quiet (m : InodeId → ℕ) (s t : Store) : Prop where
  keeps : Keeps m s t
  disk : t.disk = s.disk

namespace Quiet

theorem trans (h : Quiet m s t) (h' : Quiet m t u) : Quiet m s u :=
  ⟨h.keeps.trans h'.keeps, h'.disk.trans h.disk⟩

theorem drop (h : Quiet (bump m j) s t) : Quiet m s t := ⟨h.keeps.drop, h.disk⟩

end Quiet

theorem le_bump_of_le (hle : ∀ i, n i ≤ m i) (i : InodeId) : ∀ j, n j ≤ bump m i j := fun j =>
  (hle j).trans (le_bump m i j)

namespace Holding

theorem of_quiet {m' : InodeId → ℕ} {L' : Finset InodeId} (h : Holding n m L s) (hq : Quiet m s t)
    (hle : ∀ i, n i ≤ m' i) (hcount : Counted m' L' t) : Holding n m' L' t :=
  ⟨hcount, hle, h.sound.of_disk (hq.keeps.mono h.le) hq.disk⟩

theorem ilock (h : Holding n m L s) (hm : 0 < m i) (hi : i ∉ L)
    (htype : (s.disk (s.inode i).key).type ≠ .free) :
    twp F (Fs.ilock i) (fun _ t => Holding n m (insert i L) t ∧ Quiet m s t ∧ (t.inode i).valid)
      s := by
  obtain ⟨t, hrun⟩ := ilock_ends h.counted hm hi htype
  refine twp_mono (twp_of_ends ⟨(), t, hrun⟩ (ilock_spec h.counted hm))
    fun _ t ⟨ht, hk, hd, hvalid⟩ => ?_
  exact ⟨h.of_quiet ⟨hk, hd⟩ h.le ht, ⟨hk, hd⟩, hvalid⟩

theorem iunlock (h : Holding n m L s) (hm : 0 < m i) (hi : i ∈ L) :
    twp F (Fs.iunlock i) (fun _ t => Holding n m (L.erase i) t ∧ Quiet m s t) s := by
  obtain ⟨t, hrun⟩ := iunlock_ends h.counted hm hi
  refine twp_mono (twp_of_ends ⟨(), t, hrun⟩ (iunlock_spec h.counted hm hi))
    fun _ t ⟨ht, hk, hd⟩ => ?_
  exact ⟨h.of_quiet ⟨hk, hd⟩ h.le ht, ⟨hk, hd⟩⟩

/-- Nothing is freed, as what has no links is held by others. -/
theorem iput (h : Holding n (bump m i) L s) (hle : ∀ j, n j ≤ m j) :
    twp F (Fs.iput i) (fun _ t => Holding n m L t ∧ Quiet m s t) s := by
  have hnot : ¬((s.inode i).ref = 1 ∧ (s.inode i).valid ∧ (s.inode i).copy.nlink = 0) := by
    rintro ⟨hone, hvalid, hnlink⟩
    have href := h.counted.ref i
    rw [bump_self] at href
    obtain ⟨hcopy, htype⟩ := h.counted.loaded i (bump_pos m i) hvalid
    rw [hcopy] at hnlink htype
    refine h.sound.settled _ ⟨htype, hnlink, fun j hj hkey => ?_⟩
    have hmj := hj.trans_le (hle j)
    obtain rfl := h.counted.unique j i (hmj.trans_le (le_bump m i j)) (bump_pos m i) hkey
    omega
  have hrun : ∃ t, Fs.iput i s = .ok () t := by
    simp only [Fs.iput, inode, bind, Prog.bind, if_neg hnot]
    exact ⟨_, rfl⟩
  obtain ⟨t, hrun⟩ := hrun
  refine twp_mono (twp_of_ends ⟨(), t, hrun⟩ (wpf_and (iput_spec h.counted) (iput_disk h.counted)))
    ?_
  rintro _ t ⟨⟨ht, hk, _⟩, hloose⟩
  have hd : t.disk = s.disk := funext fun k => (hloose k).resolve_right fun hbad =>
    h.sound.settled k ⟨hbad.1, hbad.2.1, fun j hj => hbad.2.2 j (hj.trans_le (hle j))⟩
  exact ⟨⟨ht, hle, h.sound.of_disk (hk.mono hle) hd⟩, hk, hd⟩

theorem iunlockput (h : Holding n (bump m i) L s) (hle : ∀ j, n j ≤ m j) (hi : i ∈ L) :
    twp F (Fs.iunlockput i) (fun _ t => Holding n m (L.erase i) t ∧ Quiet m s t) s := by
  rw [Fs.iunlockput, twp_bind]
  refine twp_mono (h.iunlock (bump_pos m i) hi) ?_
  rintro _ t ⟨ht, hq⟩
  refine twp_mono (ht.iput hle) ?_
  rintro _ u ⟨hu, hq'⟩
  exact ⟨hu, hq.drop.trans hq'⟩

/-- What a lookup in a directory returns and does. -/
def Found (n m : InodeId → ℕ) (L : Finset InodeId) (s : Store) (k : Key) (name : Name) :
    Option (InodeId × ℕ) → Store → Prop
  | none, t => t = s ∧ (s.disk k).lookup name = none
  | some (ip, off), t => Holding n (bump m ip) L t ∧ Quiet m s t ∧
      ∃ inum, (s.disk k).lookup name = some (inum, off) ∧ (t.inode ip).key = (k.1, inum)

theorem dirlookup (h : Holding n m L s) (hm : 0 < m dp) (hv : (s.inode dp).valid)
    (htype : (s.disk (s.inode dp).key).type = .dir) (hroom : Room 1 m) (name : Name) :
    twp F (Fs.dirlookup dp name) (Found n m L s (s.inode dp).key name) s := by
  obtain ⟨hcopy, -⟩ := h.counted.loaded dp hm hv
  refine twp_mono (twp_of_ends (dirlookup_ends (by rw [hcopy, htype]) name
    (hroom.exists_free h.counted)) (dirlookup_spec h.counted hm hv name)) fun r t ⟨_, hr⟩ => ?_
  cases r with
  | none => exact hr
  | some x =>
      obtain ⟨ht, hk, hd, hfound⟩ := hr
      exact ⟨h.of_quiet ⟨hk, hd⟩ (le_bump_of_le h.le x.1) ht, ⟨hk, hd⟩, hfound⟩

/-- A loaded inode changes, and its copy on disk. -/
theorem amend {Q : Unit → Store → Prop} (h : Holding n m L s) (hm : 0 < m i)
    (hv : (s.inode i).valid) (hf : ∀ d : Dinode, d.type ≠ .free → (f d).type ≠ .free)
    (hsound : ∀ t, Keeps m s t →
      t.disk = Function.update s.disk (s.inode i).key (f (s.disk (s.inode i).key)) → Sound n t)
    (hQ : ∀ t, Holding n m L t → Keeps m s t →
      t.disk = Function.update s.disk (s.inode i).key (f (s.disk (s.inode i).key)) → Q () t) :
    twp F (setCopy i f) (fun _ t => twp F (iupdate i) Q t) s :=
  amend_returns h.counted hm hv hf fun t ht hk hd => hQ t ⟨ht, h.le, hsound t hk hd⟩ hk hd

/-- Where a path leads, and that nothing changes on the way. -/
theorem namex (h : Holding n m ∅ s) (hcwd : ∃ i, cwd = some i ∧ 0 < n i) (hroom : Room 2 m)
    (path : Path) (parent : Bool) :
    twp F (Fs.namex cwd path parent) (fun r t => Quiet m s t ∧ match r with
      | none => Holding n m ∅ t ∧
          resolve s.disk parent path.length (startKey s cwd path) path = none
      | some (ip, name) => Holding n (bump m ip) ∅ t ∧
          resolve s.disk parent path.length (startKey s cwd path) path =
            some ((t.inode ip).key, name)) s := by
  have hpresent : ∀ k, Present n s k → Present m s k := fun k ⟨htype, hnot⟩ =>
    ⟨htype, fun hloose => hnot ⟨hloose.1, hloose.2.1,
      fun j hj => hloose.2.2 j (hj.trans_le (h.le j))⟩⟩
  have hcwd' : ∃ i, cwd = some i ∧ 0 < m i := by
    obtain ⟨i, hi, hn⟩ := hcwd
    exact ⟨i, hi, hn.trans_le (h.le i)⟩
  obtain ⟨r, t, hrun, hwalk⟩ := namex_ends h.counted hcwd'
    (fun k name x hdir hfound => hpresent _ (h.sound.intact k name x hdir hfound)) hroom path
    (hpresent _ (h.sound.start hcwd path)) parent
  have hd : t.disk = s.disk := funext fun k => (hwalk.disk k).resolve_right fun hbad =>
    h.sound.settled k ⟨hbad.1, hbad.2.1, fun j hj => hbad.2.2 j (hj.trans_le (h.le j))⟩
  have hq : Quiet m s t := ⟨hwalk.keeps, hd⟩
  refine twp_of_eq hrun ⟨hq, ?_⟩
  have hwalked := of_wpf (namex_spec h.counted hcwd' path parent) hrun
  cases r with
  | none => exact ⟨h.of_quiet hq h.le hwalked.2.1, hwalked.1⟩
  | some x => exact ⟨h.of_quiet hq (le_bump_of_le h.le x.1) hwalked.2.1, hwalked.1⟩

theorem namei (h : Holding n m ∅ s) (hcwd : ∃ i, cwd = some i ∧ 0 < n i) (hroom : Room 2 m)
    (path : Path) : twp F (Fs.namei cwd path) (fun r t => Quiet m s t ∧ match r with
      | none => Holding n m ∅ t ∧ follow s.disk (startKey s cwd path) (elements path) = none
      | some ip => Holding n (bump m ip) ∅ t ∧
          follow s.disk (startKey s cwd path) (elements path) = some (t.inode ip).key) s := by
  rw [Fs.namei, twp_bind]
  refine twp_mono (h.namex hcwd hroom path false) ?_
  rintro r t ⟨hq, hr⟩
  rw [resolve_eq_follow le_rfl] at hr
  cases r with
  | none => exact ⟨hq, hr.1, Option.map_eq_none_iff.mp hr.2⟩
  | some x =>
      obtain ⟨k, hk, heq⟩ := Option.map_eq_some_iff.mp hr.2
      exact ⟨hq, hr.1, hk.trans (congrArg some (Prod.mk.inj heq).1)⟩

theorem nameiparent (h : Holding n m ∅ s) (hcwd : ∃ i, cwd = some i ∧ 0 < n i) (hroom : Room 2 m)
    (path : Path) : twp F (Fs.nameiparent cwd path) (fun r t => Quiet m s t ∧ match r with
      | none => Holding n m ∅ t ∧ followParent s.disk (startKey s cwd path) (elements path) = none
      | some (dp, name) => Holding n (bump m dp) ∅ t ∧
          followParent s.disk (startKey s cwd path) (elements path) =
            some ((t.inode dp).key, name)) s := by
  refine twp_mono (h.namex hcwd hroom path true) fun r t ⟨hq, hr⟩ => ?_
  rw [resolve_eq_followParent le_rfl] at hr
  exact ⟨hq, hr⟩

end Holding

end Xv6.Fs
