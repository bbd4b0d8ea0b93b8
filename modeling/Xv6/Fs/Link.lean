import Xv6.Fs.Calls
import Xv6.Fs.Sound

/-!
Hard links: `sys_link` and `sys_unlink` of names of files.

`sys_link` adds a link to the inode before it knows whether there will be an
entry for it, and takes it away again if not. Two things are not looked at:
whether the count, a `short`, can go up, and whether the directory can grow.
-/

namespace Xv6.Fs

open Lib Prog

variable {n m : InodeId → ℕ} {L : Finset InodeId} {s t u : Store} {i ip dp : InodeId} {k ki : Key}
  {F : Fault → Prop} {cwd : Option InodeId} {old new : Path} {name : Name} {inum off : ℕ}

/-! ### Counts and entries -/

theorem short_eq_bmod (x : ℤ) : short x = x.bmod 65536 := by
  rw [short, BitVec.toInt_ofInt]

theorem short_eq {x : ℤ} (h : -2 ^ 15 ≤ x) (h' : x < 2 ^ 15) : short x = x := by
  simp only [short_eq_bmod, Int.bmod]
  omega

theorem short_ne_zero {x : ℤ} (h : 0 < x) (h' : x < 2 ^ 16) : short x ≠ 0 := by
  simp only [short_eq_bmod, Int.bmod]
  omega

/-- A link that is taken away again, even if the count has wrapped around. -/
theorem Dinode.decr_incr {d : Dinode} (h : 0 ≤ d.nlink) (h' : d.nlink < 2 ^ 15) :
    d.incr.decr = d := by
  have hcount : short (short (d.nlink + 1) - 1) = d.nlink := by
    simp only [short_eq_bmod, Int.bmod]
    omega
  rw [Dinode.incr, Dinode.decr, hcount]

theorem emptyPlace_le (data : List Dirent) : emptyPlace data ≤ data.length := by
  rw [emptyPlace]
  cases h : data.findIdx? fun de => de.inum = 0 with
  | none => exact le_rfl
  | some off => exact (List.findIdx?_eq_some_iff_getElem.mp h).1.le

theorem getElem?_writeEntry {de : Dirent} {data : List Dirent} (h : off ≤ data.length) (i : ℕ) :
    (writeEntry off de data)[i]? = if i = off then some de else data[i]? := by
  rw [writeEntry]
  split_ifs with hlt heq heq
  · subst heq
    rw [List.getElem?_set_self hlt]
  · rw [List.getElem?_set_ne (Ne.symm heq)]
  · obtain rfl : off = data.length := by omega
    rw [heq, List.getElem?_concat_length]
  · obtain rfl : off = data.length := by omega
    rcases Nat.lt_or_gt_of_ne heq with hi | hi
    · rw [List.getElem?_append_left hi]
    · rw [List.getElem?_eq_none (by simp; omega), List.getElem?_eq_none (by omega)]

theorem mem_writeEntry {de de' : Dirent} {data : List Dirent} (h : off ≤ data.length)
    (hmem : de' ∈ writeEntry off de data) : de' = de ∨ de' ∈ data := by
  obtain ⟨i, hi⟩ := List.mem_iff_getElem?.mp hmem
  rw [getElem?_writeEntry h] at hi
  split_ifs at hi with heq
  · exact .inl (Option.some.inj hi).symm
  · exact .inr (List.mem_of_getElem? hi)

/-! ### Where the elements lead, when only counts change -/

variable {d : Key → Dinode}

theorem follow_congr {d' : Key → Dinode} (htype : ∀ k, (d' k).type = (d k).type)
    (hdata : ∀ k, (d' k).data = (d k).data) (names : List Name) :
    follow d' k names = follow d k names := by
  induction names generalizing k with
  | nil => rfl
  | cons name names ih =>
      simp only [follow, Dinode.lookup, htype, hdata, ih]

theorem followParent_congr {d' : Key → Dinode} (htype : ∀ k, (d' k).type = (d k).type)
    (hdata : ∀ k, (d' k).data = (d k).data) (names : List Name) :
    followParent d' k names = followParent d k names := by
  simp only [followParent, follow_congr htype hdata, htype]

theorem followParent_eq_some {names : List Name} {x : Key × Name}
    (h : followParent d k names = some x) : (d x.1).type = .dir := by
  obtain ⟨e, -, h⟩ := Option.bind_eq_some_iff.mp h
  obtain ⟨k', -, h⟩ := Option.bind_eq_some_iff.mp h
  split_ifs at h with hdir
  cases h
  exact hdir

/-- `nlink++` and `iupdate`. -/
def moreLinks (d : Key → Dinode) (ki : Key) : Key → Dinode := Function.update d ki (d ki).incr

theorem moreLinks_type (d : Key → Dinode) (ki k : Key) : (moreLinks d ki k).type = (d k).type := by
  rw [moreLinks, Function.update_apply]
  split_ifs with h
  · rw [h]
    rfl
  · rfl

theorem moreLinks_data (d : Key → Dinode) (ki k : Key) : (moreLinks d ki k).data = (d k).data := by
  rw [moreLinks, Function.update_apply]
  split_ifs with h
  · rw [h]
    rfl
  · rfl

theorem moreLinks_self (d : Key → Dinode) (ki : Key) : moreLinks d ki ki = (d ki).incr :=
  Function.update_self ..

theorem moreLinks_of_ne (h : k ≠ ki) : moreLinks d ki k = d k :=
  Function.update_of_ne h ..

/-! ### `link` -/

/-- The path to the old name leads to a file, and there is a directory for the
new one. -/
structure Adds (s : Store) (cwd : Option InodeId) (old new : Path) (ki k : Key) (name : Name) :
    Prop where
  target : follow s.disk (startKey s cwd old) (elements old) = some ki
  file : (s.disk ki).type ≠ .dir
  parent : followParent s.disk (startKey s cwd new) (elements new) = some (k, name)
  dev : k.1 = ki.1
  fresh : (s.disk k).lookup name = none

/-- The disk with a link and an entry more. -/
def linked (d : Key → Dinode) (ki k : Key) (name : Name) : Key → Dinode :=
  Function.update (moreLinks d ki) k ((d k).enter name ki.2)

/-- Counts in the range of a `short`, and not negative. -/
def Counting (s : Store) : Prop := ∀ k, 0 ≤ (s.disk k).nlink ∧ (s.disk k).nlink < 2 ^ 15

theorem sound_moreLinks (h : Sound n s) (hcount : Counting s) (hk : Keeps n s t)
    (hd : t.disk = moreLinks s.disk ki) : Sound n t := by
  refine h.of_links hk (fun k => ?_) (fun k => ?_) fun k _ hzero => ?_
  · rw [hd, moreLinks_type]
  · rw [hd, moreLinks_data]
  · rw [hd] at hzero
    by_cases hki : k = ki
    · subst hki
      rw [moreLinks_self] at hzero
      have hrange := hcount k
      exact absurd hzero (short_ne_zero (by omega) (by omega))
    · rwa [moreLinks_of_ne hki] at hzero

/-- The link is taken away again. -/
theorem linkBad_returns (h : Holding n (bump n ip) ∅ t) (hs : Sound n s) (hcount : Counting s)
    (hk : Keeps n s t) (hd : t.disk = moreLinks s.disk (t.inode ip).key)
    (htype : (s.disk (t.inode ip).key).type ≠ .free) :
    twp F (linkBad ip) (fun r u => r = false ∧ Holding n n ∅ u ∧ Quiet n s u) t := by
  have hip := bump_pos n ip
  rw [linkBad, twp_bind]
  have htype' : (t.disk (t.inode ip).key).type ≠ .free := by
    rw [hd, moreLinks_type]
    exact htype
  refine twp_mono (h.ilock hip (Finset.notMem_empty ip) htype') ?_
  rintro _ t₁ ⟨h₁, hq₁, hv⟩
  have hkey : (t₁.inode ip).key = (t.inode ip).key := hq₁.keeps.key ip hip
  have hback : Function.update t₁.disk (t₁.inode ip).key (t₁.disk (t₁.inode ip).key).decr =
      s.disk := by
    rw [hkey, hq₁.disk, hd, moreLinks_self, Dinode.decr_incr (hcount _).1 (hcount _).2, moreLinks,
      Function.update_idem, Function.update_eq_self]
  simp only [twp_bind]
  refine h₁.amend hip hv (fun _ hd => hd) (fun t₂ hk₂ hd₂ => ?_) fun t₂ h₂ hk₂ hd₂ => ?_
  · exact hs.of_disk ((hk.trans hq₁.keeps.drop).trans hk₂.drop) (hd₂.trans hback)
  rw [insert_empty_eq] at h₂
  refine twp_mono (h₂.iunlockput (fun _ => le_rfl) (Finset.mem_singleton_self ip))
    ?_
  rintro _ t₃ ⟨h₃, hq₃⟩
  rw [Finset.erase_singleton] at h₃
  exact ⟨rfl, h₃, ((hk.trans hq₁.keeps.drop).trans hk₂.drop).trans hq₃.keeps,
    hq₃.disk.trans (hd₂.trans hback)⟩

/-- An entry for an inode that is there. -/
theorem sound_enter (h : Sound n s) (hk : Keeps n s t) (hinum : (s.disk (k.1, inum)).type ≠ .free)
    (hd : t.disk = Function.update s.disk k ((s.disk k).enter name inum)) : Sound n t := by
  have htype : ∀ k', (t.disk k').type = (s.disk k').type := by
    intro k'
    rw [hd, Function.update_apply]
    split_ifs with heq
    · rw [heq]
      rfl
    · rfl
  have hnlink : ∀ k', (t.disk k').nlink = (s.disk k').nlink := by
    intro k'
    rw [hd, Function.update_apply]
    split_ifs with heq
    · rw [heq]
      rfl
    · rfl
  refine ⟨fun k' ⟨hfree, hzero, hother⟩ => ?_, fun k' hdir de hde hne => ?_, ?_, fun i hi => ?_⟩
  · rw [htype] at hfree
    rw [hnlink] at hzero
    exact h.settled k' ⟨hfree, hzero, fun j hj => hk.key j hj ▸ hother j hj⟩
  · rw [htype] at hdir ⊢
    rw [hd, Function.update_apply] at hde
    split_ifs at hde with heq
    · subst heq
      rcases mem_writeEntry (emptyPlace_le _) hde with rfl | hde
      · exact hinum
      · exact h.entries k' hdir de hde hne
    · exact h.entries k' hdir de hde hne
  · rw [htype]
    exact h.root
  · rw [htype, hk.key i hi]
    exact h.held i hi

/-- What `dirlink` returns and does. -/
def Entered (n m : InodeId → ℕ) (L : Finset InodeId) (s : Store) (k : Key) (name : Name)
    (inum : ℕ) : Bool → Store → Prop
  | false, t => (s.disk k).lookup name ≠ none ∧ Holding n m L t ∧ Quiet m s t
  | true, t => (s.disk k).lookup name = none ∧ emptyPlace (s.disk k).data < maxDirents ∧
      Holding n m L t ∧ Keeps m s t ∧
      t.disk = Function.update s.disk k ((s.disk k).enter name inum)

theorem dirlink_returns (h : Holding n m L s) (hm : 0 < m dp) (hv : (s.inode dp).valid)
    (hkey : (s.inode dp).key = k) (htype : (s.disk k).type = .dir) (hroom : Room 1 m)
    (hinum : (s.disk (k.1, inum)).type ≠ .free)
    (hF : (s.disk k).lookup name = none → maxDirents ≤ emptyPlace (s.disk k).data → F .dirlink) :
    twp F (dirlink dp name inum) (Entered n m L s k name inum) s := by
  subst hkey
  rw [dirlink, twp_bind]
  refine twp_mono (h.dirlookup hm hv htype hroom name) fun r t hr => ?_
  cases r with
  | some x =>
      obtain ⟨ht, hq, inum', hfound, -⟩ := hr
      rw [twp_bind]
      refine twp_mono (ht.iput h.le) ?_
      rintro _ u ⟨hu, hq'⟩
      exact ⟨by simp [hfound], hu, hq.trans hq'⟩
  | none =>
      obtain ⟨rfl, hnone⟩ := hr
      obtain ⟨hcopy, -⟩ := h.counted.loaded dp hm hv
      change twp F (if maxDirents ≤ emptyPlace (t.inode dp).copy.data then _ else _) _ t
      rw [hcopy]
      refine twp_ite (fun hfull => hF hnone hfull) fun hroom => ?_
      simp only [twp_bind]
      refine h.amend hm hv (fun _ hd => hd) (fun u hk hd => ?_) fun u hu hk hd => ?_
      · exact sound_enter h.sound (hk.mono h.le) hinum hd
      · exact ⟨hnone, Nat.lt_of_not_le hroom, hu, hk, hd⟩

/-- `dirlink` after a comparison of the devices. -/
theorem linkEntry_returns (h : Holding n m L s) (hm : 0 < m dp) (hv : (s.inode dp).valid)
    (hkey : (s.inode dp).key = k) (hki : (s.inode ip).key = ki) (htype : (s.disk k).type = .dir)
    (hroom : Room 1 m) (hfile : (s.disk ki).type ≠ .free)
    (hF : k.1 = ki.1 → (s.disk k).lookup name = none → maxDirents ≤ emptyPlace (s.disk k).data →
      F .dirlink) : twp F (linkEntry dp ip name) (fun r t => match r with
      | false => (k.1 = ki.1 → (s.disk k).lookup name ≠ none) ∧ Holding n m L t ∧ Quiet m s t
      | true => k.1 = ki.1 ∧ Entered n m L s k name ki.2 true t) s := by
  subst hkey hki
  change twp F (if (s.inode dp).dev ≠ (s.inode ip).dev then _ else _) _ s
  refine twp_ite (fun hdev => ?_) fun hdev => ?_
  · exact ⟨fun heq => absurd heq hdev, h, .refl m s, rfl⟩
  · rw [not_not] at hdev
    have hfile' : (s.disk ((s.inode dp).key.1, (s.inode ip).inum)).type ≠ .free := by
      change (s.disk ((s.inode dp).dev, (s.inode ip).inum)).type ≠ .free
      rw [hdev]
      exact hfile
    refine twp_mono (dirlink_returns h hm hv rfl htype hroom hfile' (hF hdev)) fun r t hr => ?_
    cases r with
    | false => exact ⟨fun _ => hr.1, hr.2⟩
    | true => exact ⟨hdev, hr⟩

theorem startKey_eq (hk : Keeps n s t) (hcwd : ∃ i, cwd = some i ∧ 0 < n i) (path : Path) :
    startKey t cwd path = startKey s cwd path := by
  obtain ⟨i, rfl, hi⟩ := hcwd
  simp only [startKey, Option.elim_some, hk.key i hi]

/-- What `link` returns and does. -/
def LinkPost (n : InodeId → ℕ) (s : Store) (cwd : Option InodeId) (old new : Path) :
    Bool → Store → Prop
  | true, t => Holding n n ∅ t ∧ Keeps n s t ∧ ∃ ki k name, Adds s cwd old new ki k name ∧
      emptyPlace (s.disk k).data < maxDirents ∧ t.disk = linked s.disk ki k name
  | false, t => (∀ ki k name, ¬ Adds s cwd old new ki k name) ∧ Holding n n ∅ t ∧ Quiet n s t

theorem link_returns (h : Holding n n ∅ s) (hcwd : ∃ i, cwd = some i ∧ 0 < n i) (hroom : Room 3 n)
    (hcount : Counting s) : twp (fun e => e = .dirlink ∧ ∃ ki k name, Adds s cwd old new ki k name ∧
        maxDirents ≤ emptyPlace (s.disk k).data)
      (link cwd old new) (LinkPost n s cwd old new) s := by
  have hroom₂ : ∀ i, Room 2 (bump n i) := hroom.bump
  rw [link, twp_bind]
  refine twp_mono (h.namei hcwd (hroom.mono (by decide)) old) ?_
  rintro r t₁ ⟨hq₁, hr⟩
  cases r with
  | none => exact ⟨fun _ _ _ hadds => absurd (hr.2.symm.trans hadds.target) (by simp), hr.1, hq₁⟩
  | some ip =>
  obtain ⟨h₁, htarget⟩ := hr
  have hip := bump_pos n ip
  generalize hki : (t₁.inode ip).key = ki at htarget
  have hfree : (s.disk ki).type ≠ .free := h.sound.follow (h.sound.start hcwd old).1 htarget
  simp only [twp_bind]
  refine twp_mono (h₁.ilock hip (Finset.notMem_empty ip) (by rw [hki, hq₁.disk]; exact hfree))
    ?_
  rintro _ t₂ ⟨h₂, hq₂, hv₂⟩
  rw [insert_empty_eq] at h₂
  have hkey₂ : (t₂.inode ip).key = ki := (hq₂.keeps.key ip hip).trans hki
  obtain ⟨hcopy, -⟩ := h₂.counted.loaded ip hip hv₂
  rw [hkey₂, hq₂.disk, hq₁.disk] at hcopy
  change twp _ (if (t₂.inode ip).copy.type = .dir then _ else _) _ t₂
  rw [hcopy]
  refine twp_ite (fun hdir => ?_) fun hfile => ?_
  · rw [twp_bind]
    refine twp_mono (h₂.iunlockput (fun _ => le_rfl) (Finset.mem_singleton_self ip))
      ?_
    rintro _ t₃ ⟨h₃, hq₃⟩
    rw [Finset.erase_singleton] at h₃
    refine ⟨fun ki' k name hadds => ?_, h₃, (hq₁.trans hq₂.drop).trans hq₃⟩
    obtain rfl := Option.some.inj (htarget.symm.trans hadds.target)
    exact hadds.file hdir
  have hk₂ : Keeps n s t₂ := hq₁.keeps.trans hq₂.keeps.drop
  simp only [twp_bind]
  refine h₂.amend hip hv₂ (fun _ hd => hd) (fun t₃ hk₃ hd₃ => ?_) fun t₃ h₃ hk₃ hd₃ => ?_
  · rw [hkey₂, hq₂.disk, hq₁.disk] at hd₃
    exact sound_moreLinks h.sound hcount (hk₂.trans hk₃.drop) hd₃
  rw [hkey₂, hq₂.disk, hq₁.disk] at hd₃
  refine twp_mono (h₃.iunlock hip (Finset.mem_singleton_self ip)) ?_
  rintro _ t₄ ⟨h₄, hq₄⟩
  rw [Finset.erase_singleton] at h₄
  have hkey₄ : (t₄.inode ip).key = ki := ((hk₃.trans hq₄.keeps).key ip hip).trans hkey₂
  have hd₄ : t₄.disk = moreLinks s.disk ki := hq₄.disk.trans hd₃
  have hk₄ : Keeps n s t₄ := hk₂.trans (hk₃.trans hq₄.keeps).drop
  -- the path to the new name
  have hparent : followParent t₄.disk (startKey t₄ cwd new) (elements new) =
      followParent s.disk (startKey s cwd new) (elements new) := by
    rw [startKey_eq hk₄ hcwd, hd₄]
    exact followParent_congr (moreLinks_type _ _) (moreLinks_data _ _) _
  refine twp_mono (h₄.nameiparent hcwd (hroom₂ ip) new) ?_
  rintro r t₅ ⟨hq₅, hr⟩
  rw [hparent] at hr
  have hkey₅ : (t₅.inode ip).key = ki := (hq₅.keeps.key ip hip).trans hkey₄
  have hd₅ : t₅.disk = moreLinks s.disk ki := hq₅.disk.trans hd₄
  have hk₅ : Keeps n s t₅ := hk₄.trans hq₅.keeps.drop
  cases r with
  | none =>
      refine twp_mono (linkBad_returns hr.1 h.sound hcount hk₅ (by rw [hkey₅, hd₅])
        (by rw [hkey₅]; exact hfree)) ?_
      rintro r u ⟨hfalse, hu, hq⟩
      subst hfalse
      exact ⟨fun _ _ _ hadds => absurd (hr.2.symm.trans hadds.parent) (by simp), hu, hq⟩
  | some x =>
      obtain ⟨dp, name⟩ := x
      obtain ⟨h₅, hto⟩ := hr
      generalize hk : (t₅.inode dp).key = k at hto
      have hdir : (s.disk k).type = .dir := followParent_eq_some hto
      have hne : k ≠ ki := fun heq => hfile (heq ▸ hdir)
      have hdp := bump_pos (bump n ip) dp
      have hip' : 0 < bump (bump n ip) dp ip := hip.trans_le (le_bump _ dp ip)
      have hunique : ∀ ki' k' name', Adds s cwd old new ki' k' name' →
          ki' = ki ∧ k' = k ∧ name' = name := by
        intro ki' k' name' hadds
        obtain rfl := Option.some.inj (htarget.symm.trans hadds.target)
        obtain ⟨rfl, rfl⟩ := Prod.mk.inj (Option.some.inj (hto.symm.trans hadds.parent))
        exact ⟨rfl, rfl, rfl⟩
      simp only [twp_bind]
      have htype₅ : (t₅.disk (t₅.inode dp).key).type ≠ .free := by
        rw [hk, hd₅, moreLinks_type, hdir]
        decide
      refine twp_mono (h₅.ilock hdp (Finset.notMem_empty dp) htype₅) ?_
      rintro _ t₆ ⟨h₆, hq₆, hv₆⟩
      rw [insert_empty_eq] at h₆
      have hd₆ : t₆.disk = moreLinks s.disk ki := hq₆.disk.trans hd₅
      have hsame : t₆.disk k = s.disk k := by rw [hd₆, moreLinks_of_ne hne]
      have hki₆ : (t₆.inode ip).key = ki := (hq₆.keeps.key ip hip').trans hkey₅
      have hk₆ : Keeps n s t₆ := hk₅.trans hq₆.keeps.drop.drop
      refine twp_mono (linkEntry_returns h₆ hdp hv₆ ((hq₆.keeps.key dp hdp).trans hk) hki₆
        (by rw [hsame]; exact hdir) ((hroom₂ ip).bump dp) (by rw [hd₆, moreLinks_type]; exact hfree)
        fun hdev hnone hfull => ?_) fun r t₇ hr => ?_
      · rw [hsame] at hnone hfull
        exact ⟨rfl, ki, k, name, ⟨htarget, hfile, hto, hdev, hnone⟩, hfull⟩
      rw [hsame] at hr
      cases r with
      | false =>
          obtain ⟨hnot, h₇, hq₇⟩ := hr
          simp only [Bool.false_eq_true, if_false, twp_bind]
          refine twp_mono (h₇.iunlockput (le_bump n ip) (Finset.mem_singleton_self dp))
            ?_
          rintro _ t₈ ⟨h₈, hq₈⟩
          rw [Finset.erase_singleton] at h₈
          have hki₈ : (t₈.inode ip).key = ki :=
            (hq₈.keeps.key ip hip).trans ((hq₇.keeps.key ip hip').trans hki₆)
          have hd₈ : t₈.disk = moreLinks s.disk ki := hq₈.disk.trans (hq₇.disk.trans hd₆)
          have hk₈ : Keeps n s t₈ := (hk₆.trans hq₇.keeps.drop.drop).trans hq₈.keeps.drop
          refine twp_mono (linkBad_returns h₈ h.sound hcount hk₈ (by rw [hki₈, hd₈])
            (by rw [hki₈]; exact hfree)) ?_
          rintro r u ⟨hfalse, hu, hq⟩
          subst hfalse
          refine ⟨fun ki' k' name' hadds => ?_, hu, hq⟩
          obtain ⟨rfl, rfl, rfl⟩ := hunique ki' k' name' hadds
          exact hnot hadds.dev hadds.fresh
      | true =>
          obtain ⟨hdev, hnone, hplace, h₇, hk₇, hd₇⟩ := hr
          rw [hsame] at hnone hplace hd₇
          simp only [if_true, twp_bind]
          refine twp_mono (h₇.iunlockput (le_bump n ip) (Finset.mem_singleton_self dp))
            ?_
          rintro _ t₈ ⟨h₈, hq₈⟩
          rw [Finset.erase_singleton] at h₈
          refine twp_mono (h₈.iput fun _ => le_rfl) ?_
          rintro _ t₉ ⟨h₉, hq₉⟩
          refine ⟨h₉, ((hk₆.trans hk₇.drop.drop).trans hq₈.keeps.drop).trans hq₉.keeps, ki, k, name,
            ⟨htarget, hfile, hto, hdev, hnone⟩, hplace, ?_⟩
          rw [hq₉.disk, hq₈.disk, hd₇, hd₆]
          rfl

/-! ### `unlink` of the name of a file -/

/-- The disk without the entry at a place of a directory. -/
def cleared (d : Key → Dinode) (k : Key) (off : ℕ) : Key → Dinode :=
  Function.update d k { d k with data := writeEntry off ⟨0, []⟩ (d k).data }

theorem cleared_type (d : Key → Dinode) (k : Key) (off : ℕ) (k' : Key) :
    (cleared d k off k').type = (d k').type := by
  rw [cleared, Function.update_apply]
  split_ifs with heq
  · rw [heq]
  · rfl

theorem cleared_nlink (d : Key → Dinode) (k : Key) (off : ℕ) (k' : Key) :
    (cleared d k off k').nlink = (d k').nlink := by
  rw [cleared, Function.update_apply]
  split_ifs with heq
  · rw [heq]
  · rfl

theorem mem_cleared {k' : Key} {de : Dirent} (hoff : off ≤ (d k).data.length)
    (hmem : de ∈ (cleared d k off k').data) (hne : de.inum ≠ 0) : de ∈ (d k').data := by
  rw [cleared, Function.update_apply] at hmem
  split_ifs at hmem with heq
  · subst heq
    rcases mem_writeEntry hoff hmem with rfl | hmem
    · exact absurd rfl hne
    · exact hmem
  · exact hmem

theorem sound_cleared (h : Sound n s) (hk : Keeps n s t) (hoff : off ≤ (s.disk k).data.length)
    (hd : t.disk = cleared s.disk k off) : Sound n t where
  settled := fun k' ⟨hfree, hzero, hother⟩ => by
    rw [hd, cleared_type] at hfree
    rw [hd, cleared_nlink] at hzero
    exact h.settled k' ⟨hfree, hzero, fun j hj => hk.key j hj ▸ hother j hj⟩
  entries := fun k' hdir de hde hne => by
    rw [hd, cleared_type] at hdir ⊢
    rw [hd] at hde
    exact h.entries k' hdir de (mem_cleared hoff hde hne) hne
  root := by
    rw [hd, cleared_type]
    exact h.root
  held := fun i hi => by
    rw [hd, cleared_type, hk.key i hi]
    exact h.held i hi

/-- The path leads to an entry that names a file. -/
structure Removes (s : Store) (cwd : Option InodeId) (path : Path) (k ki : Key) (name : Name)
    (off : ℕ) : Prop where
  parent : followParent s.disk (startKey s cwd path) (elements path) = some (k, name)
  entry : (s.disk k).lookup name = some (ki.2, off)
  dev : ki.1 = k.1
  file : (s.disk ki).type ≠ .dir

/-- What the path leads to is no directory. -/
def NoDir (s : Store) (cwd : Option InodeId) (path : Path) : Prop :=
  ∀ k name x, followParent s.disk (startKey s cwd path) (elements path) = some (k, name) →
    (s.disk k).lookup name = some x → (s.disk (k.1, x.1)).type ≠ .dir

/-- What `unlink` returns and does. -/
def UnlinkPost (n : InodeId → ℕ) (s : Store) (cwd : Option InodeId) (path : Path) :
    Bool → Store → Prop
  | false, t => Holding n n ∅ t ∧ Quiet n s t ∧ ∀ k ki name off,
      Removes s cwd path k ki name off → name = ['.'] ∨ name = ['.', '.']
  | true, t => Counted n ∅ t ∧ Keeps n s t ∧ ∃ k ki name off, Removes s cwd path k ki name off ∧
      1 ≤ (s.disk ki).nlink ∧ ¬ Loose n t ki ∧
      (∀ k', k' ≠ ki → t.disk k' = cleared s.disk k off k') ∧
      (t.disk ki = (s.disk ki).decr ∨ (s.disk ki).decr.nlink = 0 ∧
        t.disk ki = (s.disk ki).decr.freed ∧ ∀ j, 0 < n j → (s.inode j).key ≠ ki)

theorem unlinkEntry_returns (h : Holding n (bump (bump n dp) ip) {dp} t) (hs : Quiet n s t)
    (hv : (t.inode dp).valid) (hkd : (t.inode dp).key = k) (hki : (t.inode ip).key = ki)
    {path : Path} (hto : Removes s cwd path k ki name off) (hdir : (s.disk k).type = .dir)
    (hfree : (s.disk ki).type ≠ .free) (hF : (s.disk ki).nlink < 1 → F .unlinkNlink) :
    twp F (unlinkEntry dp ip off) (UnlinkPost n s cwd path) t := by
  have hdp : 0 < bump (bump n dp) ip dp := (bump_pos n dp).trans_le (le_bump _ ip dp)
  have hip : 0 < bump (bump n dp) ip ip := bump_pos _ ip
  have hne : k ≠ ki := fun heq => hto.file (heq ▸ hdir)
  have hne' : ip ≠ dp := by
    rintro rfl
    exact hne (hkd.symm.trans hki)
  have hoff : off ≤ (s.disk k).data.length := by
    obtain ⟨de, hde, -⟩ := Dinode.mem_of_lookup hto.entry
    exact (List.getElem?_eq_some_iff.mp hde).1.le
  rw [unlinkEntry, twp_bind]
  refine twp_mono (h.ilock hip (by simpa using hne') (by rw [hki, hs.disk]; exact hfree))
    ?_
  rintro _ t₁ ⟨h₁, hq₁, hv₁⟩
  have hki₁ : (t₁.inode ip).key = ki := (hq₁.keeps.key ip hip).trans hki
  have hkd₁ : (t₁.inode dp).key = k := (hq₁.keeps.key dp hdp).trans hkd
  have hd₁ : t₁.disk = s.disk := hq₁.disk.trans hs.disk
  obtain ⟨hcopy, -⟩ := h₁.counted.loaded ip hip hv₁
  rw [hki₁, hd₁] at hcopy
  change twp F (if (t₁.inode ip).copy.nlink < 1 then _ else
    if (t₁.inode ip).copy.type = .dir ∧ _ then _ else _) _ t₁
  rw [hcopy]
  refine twp_ite hF fun hlink => ?_
  rw [if_neg fun hbad => hto.file hbad.1]
  simp only [twp_bind]
  -- the entry is cleared
  have hk₁ : Keeps n s t₁ := hs.keeps.trans hq₁.keeps.drop.drop
  refine h₁.amend hdp (hq₁.keeps.valid dp hdp hv) (fun _ hd => hd) (fun t₂ hk₂ hd₂ => ?_)
    fun t₂ h₂ hk₂ hd₂ => ?_
  · rw [hkd₁, hd₁, ← hs.disk] at hd₂
    exact sound_cleared h.sound (hq₁.keeps.trans hk₂).drop.drop (by rw [hs.disk]; exact hoff) hd₂
  rw [hkd₁, hd₁] at hd₂
  rw [unlinkParent, if_neg hto.file, twp_pure]
  rw [bump_comm] at h₂
  refine twp_mono (h₂.iunlockput (le_bump n ip) (by simp)) ?_
  rintro _ t₃ ⟨h₃, hq₃⟩
  rw [show (insert ip {dp} : Finset InodeId).erase dp = {ip} by
    rw [Finset.erase_insert_of_ne hne', Finset.erase_singleton, insert_empty_eq]] at h₃
  have hip₃ := bump_pos n ip
  have hv₃ : (t₃.inode ip).valid := hq₃.keeps.valid ip hip₃ (hk₂.valid ip hip hv₁)
  have hki₃ : (t₃.inode ip).key = ki := (hq₃.keeps.key ip hip₃).trans ((hk₂.key ip hip).trans hki₁)
  have hd₃ : t₃.disk = cleared s.disk k off := hq₃.disk.trans hd₂
  have hat : t₃.disk ki = s.disk ki := by rw [hd₃, cleared, Function.update_of_ne hne.symm]
  -- the file loses its link
  refine amend_returns h₃.counted hip₃ hv₃ (fun _ hd => hd) fun t₄ h₄ hk₄ hd₄ => ?_
  rw [hki₃, hat] at hd₄
  have hki₄ : (t₄.inode ip).key = ki := (hk₄.key ip hip₃).trans hki₃
  have hv₄ : (t₄.inode ip).valid := hk₄.valid ip hip₃ hv₃
  have hmem : ip ∈ ({ip} : Finset InodeId) := Finset.mem_singleton_self ip
  obtain ⟨t₅, hput⟩ := iunlockput_ends h₄ hip₃ hmem
  obtain ⟨h₅, hk₅, hthin⟩ := of_wpf (iunlockput_spec h₄ hmem) hput
  have hloose := of_wpf (iunlockput_disk h₄ hmem) hput
  have hsettled := of_wpf (iunlockput_settles h₄ hmem hv₄) hput
  rw [Finset.erase_singleton] at h₅
  rw [hki₄] at hsettled
  have hk₃ : Keeps n s t₃ := (hk₁.trans hk₂.drop.drop).trans hq₃.keeps.drop
  have hk₄' : Keeps n s t₄ := hk₃.trans hk₄.drop
  refine twp_of_eq hput ⟨h₅, hk₄'.trans hk₅, k, ki, name, off, hto, by omega, hsettled,
    fun k' hk' => ?_, ?_⟩
  · have hsame : t₄.disk k' = cleared s.disk k off k' := by
      rw [hd₄, Function.update_of_ne hk', hd₃]
    refine ((hloose k').resolve_right ?_).trans hsame
    rintro ⟨htype, hnlink, hother⟩
    refine h₃.sound.settled k' ⟨?_, ?_, fun j hj => ?_⟩
    · rwa [hsame, ← hd₃] at htype
    · rwa [hsame, ← hd₃] at hnlink
    · rw [← hk₄.key j (hj.trans_le (le_bump n ip j))]
      exact hother j hj
  · have hfew : t₄.disk ki = (s.disk ki).decr := by rw [hd₄, Function.update_self]
    rcases hloose ki with heq | ⟨-, -, hother⟩
    · exact .inl (heq.trans hfew)
    · refine (hthin ki).imp (·.trans hfew) ?_
      rintro ⟨hzero, hfreed⟩
      rw [hfew] at hzero hfreed
      exact ⟨hzero, hfreed, fun j hj => hk₄'.key j hj ▸ hother j hj⟩

theorem unlink_returns {path : Path} (h : Holding n n ∅ s) (hcwd : ∃ i, cwd = some i ∧ 0 < n i)
    (hroom : Room 3 n) (hdir : NoDir s cwd path) :
    twp (fun e => e = .unlinkNlink ∧ ∃ k ki name off, Removes s cwd path k ki name off ∧
        (s.disk ki).nlink < 1) (unlink cwd path) (UnlinkPost n s cwd path) s := by
  rw [unlink, twp_bind]
  refine twp_mono (h.nameiparent hcwd (hroom.mono (by decide)) path) ?_
  rintro r t₁ ⟨hq₁, hr⟩
  cases r with
  | none =>
      exact ⟨hr.1, hq₁, fun _ _ _ _ hrem => absurd (hr.2.symm.trans hrem.parent) (by simp)⟩
  | some x =>
      obtain ⟨dp, name⟩ := x
      obtain ⟨h₁, hto⟩ := hr
      have hdp := bump_pos n dp
      generalize hk : (t₁.inode dp).key = k at hto
      have htype : (s.disk k).type = .dir := followParent_eq_some hto
      simp only [twp_bind]
      have htype₁ : (t₁.disk (t₁.inode dp).key).type ≠ .free := by
        rw [hk, hq₁.disk, htype]
        decide
      refine twp_mono (h₁.ilock hdp (Finset.notMem_empty dp) htype₁) ?_
      rintro _ t₂ ⟨h₂, hq₂, hv₂⟩
      rw [insert_empty_eq] at h₂
      have hk₂ : (t₂.inode dp).key = k := (hq₂.keeps.key dp hdp).trans hk
      have hq : Quiet n s t₂ := hq₁.trans hq₂.drop
      have hput : ∀ F : Fault → Prop, ((s.disk k).lookup name = none ∨ name = ['.'] ∨
          name = ['.', '.']) →
          twp F (iunlockput dp >>= fun _ => pure false) (UnlinkPost n s cwd path) t₂ := by
        intro F hwhy
        rw [twp_bind]
        refine twp_mono (h₂.iunlockput (fun _ => le_rfl) (Finset.mem_singleton_self dp))
          ?_
        rintro _ t₃ ⟨h₃, hq₃⟩
        rw [Finset.erase_singleton] at h₃
        refine ⟨h₃, hq.trans hq₃, fun k' ki name' off hrem => ?_⟩
        obtain ⟨rfl, rfl⟩ := Prod.mk.inj (Option.some.inj (hto.symm.trans hrem.parent))
        exact hwhy.resolve_left fun hnone => absurd (hnone.symm.trans hrem.entry) (by simp)
      refine twp_ite (fun hdots => hput _ (.inr hdots)) fun _ => ?_
      rw [twp_bind]
      refine twp_mono (h₂.dirlookup hdp hv₂ (by rw [hk₂, hq.disk, htype])
        ((hroom.bump dp).mono (by decide)) name) fun r t₃ hr => ?_
      rw [hk₂] at hr
      cases r with
      | none =>
          obtain ⟨rfl, hnone⟩ := hr
          exact hput _ (.inl (hq.disk ▸ hnone))
      | some x =>
          obtain ⟨ip, off⟩ := x
          obtain ⟨h₃, hq₃, inum, hentry, hkey⟩ := hr
          rw [hq.disk] at hentry
          have hrem : Removes s cwd path k (k.1, inum) name off :=
            ⟨hto, hentry, rfl, hdir k name (inum, off) hto hentry⟩
          exact unlinkEntry_returns h₃ (hq.trans hq₃.drop) (hq₃.keeps.valid dp hdp hv₂)
            ((hq₃.keeps.key dp hdp).trans hk₂) hkey hrem htype (h.sound.lookup htype hentry)
            fun hzero => ⟨rfl, k, (k.1, inum), name, off, hrem, hzero⟩

end Xv6.Fs
