import Xv6.Fs.Link

/-!
Runs of `sys_link` and `sys_unlink`.

A file has no more names than its count says: that is what keeps a count
from reaching 0 too early, and it is kept by every call as long as the count
does not wrap around. The last part of the file is a run of 32767 calls of
`sys_link` over two directories, after which it has.
-/

namespace Xv6.Fs

open Lib Prog

variable {n : InodeId → ℕ} {s t u : Store} {k ki : Key} {cwd : Option InodeId} {old new path : Path}
  {name : Name} {off : ℕ}

/-! ### Names of a file -/

/-- The entry at a place, given by its directory and its position, names the
inode. -/
def Names (d : Key → Dinode) (ki : Key) (p : Key × ℕ) : Prop :=
  (d p.1).type = .dir ∧ ∃ de, (d p.1).data[p.2]? = some de ∧ de.inum ≠ 0 ∧ (p.1.1, de.inum) = ki

/-- A file has at least as many links as names. -/
def Covered (d : Key → Dinode) (ki : Key) : Prop :=
  ∀ P : Finset (Key × ℕ), (∀ p ∈ P, Names d ki p) → (P.card : ℤ) ≤ (d ki).nlink

/-- The state between calls. -/
structure Good (n : InodeId → ℕ) (s : Store) : Prop where
  holding : Holding n n ∅ s
  counting : Counting s
  covered : ∀ ki, (s.disk ki).type ≠ .dir → Covered s.disk ki

/-! ### `link` -/

theorem linked_type (d : Key → Dinode) (ki k : Key) (name : Name) (k' : Key) :
    (linked d ki k name k').type = (d k').type := by
  rw [linked, Function.update_apply]
  split_ifs with heq
  · rw [heq]
    rfl
  · exact moreLinks_type d ki k'

variable {d : Key → Dinode}

theorem linked_data_of_ne {k' : Key} (h : k' ≠ k) : (linked d ki k name k').data = (d k').data := by
  rw [linked, Function.update_of_ne h, moreLinks_data]

theorem linked_data_self : (linked d ki k name k).data =
    writeEntry (emptyPlace (d k).data) ⟨ki.2, name⟩ (d k).data := by
  rw [linked, Function.update_self]
  rfl

theorem linked_nlink (hne : k ≠ ki) (k' : Key) :
    (linked d ki k name k').nlink = if k' = ki then short ((d ki).nlink + 1) else (d k').nlink := by
  by_cases hk : k' = k
  · subst hk
    rw [if_neg hne, linked, Function.update_self]
    rfl
  · rw [linked, Function.update_of_ne hk]
    split_ifs with hki
    · rw [hki, moreLinks_self]
      rfl
    · rw [moreLinks_of_ne hki]

/-- There is one name more. -/
theorem names_linked {ki' : Key} {p : Key × ℕ} (hdev : k.1 = ki.1)
    (h : Names (linked d ki k name) ki' p) :
    (p = (k, emptyPlace (d k).data) ∧ ki' = ki) ∨ Names d ki' p := by
  obtain ⟨hdir, de, hde, hne, hnames⟩ := h
  rw [linked_type] at hdir
  by_cases hk : p.1 = k
  · rw [hk, linked_data_self, getElem?_writeEntry (emptyPlace_le _)] at hde
    split_ifs at hde with hplace
    · cases hde
      refine .inl ⟨Prod.ext hk hplace, ?_⟩
      rw [← hnames, hk, hdev]
    · exact .inr ⟨hdir, de, hk ▸ hde, hne, hnames⟩
  · rw [linked_data_of_ne hk] at hde
    exact .inr ⟨hdir, de, hde, hne, hnames⟩

theorem Good.linked (h : Good n s) (ht : Holding n n ∅ t) (hadds : Adds s cwd old new ki k name)
    (hlt : (s.disk ki).nlink < 32767) (hd : t.disk = linked s.disk ki k name) : Good n t := by
  have hdir : (s.disk k).type = .dir := followParent_eq_some hadds.parent
  have hne : k ≠ ki := fun heq => hadds.file (heq ▸ hdir)
  have hrange := h.counting ki
  have hshort : short ((s.disk ki).nlink + 1) = (s.disk ki).nlink + 1 :=
    short_eq (by omega) (by omega)
  refine ⟨ht, fun k' => ?_, fun ki' hfile P hP => ?_⟩
  · rw [hd, linked_nlink hne]
    split_ifs
    · rw [hshort]
      omega
    · exact h.counting k'
  · rw [hd, linked_type] at hfile
    rw [hd] at hP ⊢
    rw [linked_nlink hne]
    split_ifs with heq
    · subst heq
      have hold : ∀ p ∈ P.erase (k, emptyPlace (s.disk k).data), Names s.disk ki' p := by
        intro p hp
        obtain ⟨hpne, hp⟩ := Finset.mem_erase.mp hp
        exact (names_linked hadds.dev (hP p hp)).resolve_left fun hnew => hpne hnew.1
      have hcard := h.covered ki' hfile _ hold
      have hpred := Finset.pred_card_le_card_erase (s := P) (a := (k, emptyPlace (s.disk k).data))
      rw [hshort]
      omega
    · refine h.covered ki' hfile P fun p hp => ?_
      exact (names_linked hadds.dev (hP p hp)).resolve_left fun hnew => heq hnew.2

/-! ### `unlink` -/

/-- The disk after `unlink` of a name of a file. -/
structure Unlinked (n : InodeId → ℕ) (s t : Store) (k ki : Key) (name : Name) (off : ℕ) : Prop where
  entry : (s.disk k).lookup name = some (ki.2, off)
  dir : (s.disk k).type = .dir
  dev : ki.1 = k.1
  file : (s.disk ki).type ≠ .dir
  nlink : 1 ≤ (s.disk ki).nlink
  settled : ¬ Loose n t ki
  other : ∀ k', k' ≠ ki → t.disk k' = cleared s.disk k off k'
  self : t.disk ki = (s.disk ki).decr ∨ (s.disk ki).decr.nlink = 0 ∧
    t.disk ki = (s.disk ki).decr.freed ∧ ∀ j, 0 < n j → (s.inode j).key ≠ ki

namespace Unlinked

theorem nlink_eq (h : Unlinked n s t k ki name off) (hcount : Counting s) :
    (t.disk ki).nlink = (s.disk ki).nlink - 1 := by
  have hrange := hcount ki
  have hlink := h.nlink
  have hshort : (s.disk ki).decr.nlink = (s.disk ki).nlink - 1 := short_eq (by omega) (by omega)
  rcases h.self with heq | ⟨-, heq, -⟩
  · rw [heq, hshort]
  · rw [heq]
    exact hshort

theorem not_dir (h : Unlinked n s t k ki name off) : (t.disk ki).type ≠ .dir := by
  rcases h.self with heq | ⟨-, heq, -⟩
  · rw [heq]
    exact h.file
  · rw [heq]
    exact nofun

theorem type_eq (h : Unlinked n s t k ki name off) {k' : Key} (hk : k' ≠ ki) :
    (t.disk k').type = (s.disk k').type := by
  rw [h.other k' hk, cleared_type]

/-- There is one name less. -/
theorem names (h : Unlinked n s t k ki name off) {ki' : Key} {p : Key × ℕ}
    (hp : Names t.disk ki' p) : p ≠ (k, off) ∧ Names s.disk ki' p := by
  obtain ⟨hdir, de, hde, hne, hnames⟩ := hp
  have hp1 : p.1 ≠ ki := fun heq => h.not_dir (heq ▸ hdir)
  rw [h.other _ hp1] at hdir hde
  rw [cleared_type] at hdir
  have hoff : off ≤ (s.disk k).data.length := by
    obtain ⟨de', hde', -⟩ := Dinode.mem_of_lookup h.entry
    exact (List.getElem?_eq_some_iff.mp hde').1.le
  by_cases hk : p.1 = k
  · rw [hk, cleared, Function.update_self, getElem?_writeEntry hoff] at hde
    split_ifs at hde with hplace
    · cases hde
      exact absurd rfl hne
    · exact ⟨fun heq => hplace (congrArg Prod.snd heq), hdir, de, hk ▸ hde, hne, hnames⟩
  · rw [cleared, Function.update_of_ne hk] at hde
    exact ⟨fun heq => hk (congrArg Prod.fst heq), hdir, de, hde, hne, hnames⟩

theorem covered (h : Unlinked n s t k ki name off) (hs : Good n s) {ki' : Key}
    (hfile : (t.disk ki').type ≠ .dir) : Covered t.disk ki' := by
  intro P hP
  by_cases hki : ki' = ki
  · subst hki
    obtain ⟨de, hde, hinum, hne, -⟩ := Dinode.mem_of_lookup h.entry
    have hnew : ∀ p ∈ insert (k, off) P, Names s.disk ki' p := by
      intro p hp
      rcases Finset.mem_insert.mp hp with rfl | hp
      · exact ⟨h.dir, de, hde, hne, Prod.ext h.dev.symm hinum⟩
      · exact (h.names (hP p hp)).2
    have hcard := hs.covered ki' h.file _ hnew
    rw [Finset.card_insert_of_notMem fun hmem => (h.names (hP _ hmem)).1 rfl] at hcard
    rw [h.nlink_eq hs.counting]
    push_cast at hcard
    omega
  · rw [h.type_eq hki] at hfile
    rw [h.other ki' hki, cleared_nlink]
    exact hs.covered ki' hfile P fun p hp => (h.names (hP p hp)).2

theorem good (h : Unlinked n s t k ki name off) (hs : Good n s) (hcount : Counted n ∅ t)
    (hk : Keeps n s t) : Good n t := by
  have hrange := hs.counting ki
  have hlink := h.nlink
  refine ⟨⟨hcount, fun _ => le_rfl, ?_⟩, fun k' => ?_, fun ki' => h.covered hs⟩
  · refine ⟨fun k' hloose => ?_, fun k' hdir de hde hne => ?_, ?_, fun i hi => ?_⟩
    · by_cases hki : k' = ki
      · exact h.settled (hki ▸ hloose)
      · obtain ⟨hfree, hzero, hother⟩ := hloose
        rw [h.type_eq hki] at hfree
        rw [h.other k' hki, cleared_nlink] at hzero
        exact hs.holding.sound.settled k' ⟨hfree, hzero, fun j hj => hk.key j hj ▸ hother j hj⟩
    · obtain ⟨idx, hidx⟩ := List.mem_iff_getElem?.mp hde
      have hnames : Names t.disk (k'.1, de.inum) (k', idx) := ⟨hdir, de, hidx, hne, rfl⟩
      obtain ⟨-, hdir', de', hde', hne', hsame⟩ := h.names hnames
      have hthere := hs.holding.sound.entries k' hdir' de' (List.mem_of_getElem? hde') hne'
      rw [show (k'.1, de'.inum) = (k'.1, de.inum) from hsame] at hthere
      by_cases hki : (k'.1, de.inum) = ki
      · -- a name that is left means that the count is not 0
        rcases h.self with heq | ⟨hzero, heq, -⟩
        · rw [hki] at hthere ⊢
          rw [heq]
          exact hthere
        · have hcard := h.covered hs h.not_dir {(k', idx)} fun p hp => by
            rw [Finset.mem_singleton.mp hp, ← hki]
            exact hnames
          rw [heq] at hcard
          rw [Finset.card_singleton] at hcard
          exact absurd (hcard.trans_eq hzero) (by decide)
      · rw [h.type_eq hki]
        exact hthere
    · rw [h.type_eq fun heq => h.file (heq ▸ hs.holding.sound.root)]
      exact hs.holding.sound.root
    · have hthere := hs.holding.sound.held i hi
      rw [hk.key i hi]
      by_cases hki : (s.inode i).key = ki
      · rcases h.self with heq | ⟨-, -, hother⟩
        · rw [hki] at hthere ⊢
          rw [heq]
          exact hthere
        · exact absurd hki (hother i hi)
      · rw [h.type_eq hki]
        exact hthere
  · by_cases hki : k' = ki
    · rw [hki, h.nlink_eq hs.counting]
      omega
    · rw [h.other k' hki, cleared_nlink]
      exact hs.counting k'

end Unlinked

/-! ### Runs -/

/-- What a call that returns 0 has added: a name, and a link that is counted. -/
structure Gains (s t : Store) (ki k : Key) (name : Name) : Prop where
  nlink : (t.disk ki).nlink = (s.disk ki).nlink + 1
  pos : 0 < (t.disk ki).nlink
  fresh : (s.disk k).lookup name = none
  entry : (t.disk k).data = writeEntry (emptyPlace (s.disk k).data) ⟨ki.2, name⟩ (s.disk k).data
  other : ∀ k', k' ≠ k → (t.disk k').data = (s.disk k').data ∧
    (k' ≠ ki → t.disk k' = s.disk k')

/-- The call adds a link with its name, or changes nothing. -/
def LinkMeets (s : Store) (cwd : Option InodeId) (old new : Path) : Prop :=
  ∃ r t, link cwd old new s = .ok r t ∧ (∀ i, (t.inode i).ref = (s.inode i).ref) ∧
    if r then ∃ ki k name, Adds s cwd old new ki k name ∧ Gains s t ki k name
    else t.disk = s.disk

/-- If there will be a new name, the count can go up and the directory has
room. -/
def LinkFits (s : Store) (cwd : Option InodeId) (old new : Path) : Prop :=
  ∀ ki k name, Adds s cwd old new ki k name →
    (s.disk ki).nlink < 32767 ∧ emptyPlace (s.disk k).data < maxDirents

theorem Adds.unique {ki' k' : Key} {name' : Name} (h : Adds s cwd old new ki k name)
    (h' : Adds s cwd old new ki' k' name') : ki' = ki ∧ k' = k ∧ name' = name := by
  obtain rfl := Option.some.inj (h.target.symm.trans h'.target)
  obtain ⟨rfl, rfl⟩ := Prod.mk.inj (Option.some.inj (h.parent.symm.trans h'.parent))
  exact ⟨rfl, rfl, rfl⟩

theorem Adds.ne (h : Adds s cwd old new ki k name) : k ≠ ki := fun heq =>
  h.file (heq ▸ followParent_eq_some h.parent)

/-- With room in the directory the call returns. -/
theorem Good.link_ends (h : Good n s) (hroom : Room 3 n) (hcwd : ∃ i, cwd = some i ∧ 0 < n i)
    (hplace : ∀ ki k name, Adds s cwd old new ki k name → emptyPlace (s.disk k).data < maxDirents) :
    ∃ r t, link cwd old new s = .ok r t ∧ LinkPost n s cwd old new r t := by
  refine exists_of_twp (twp_mono_fault (link_returns h.holding hcwd hroom h.counting) ?_)
  rintro e ⟨-, ki, k, name, hadds, hfull⟩
  exact absurd (hplace ki k name hadds) (Nat.not_lt.mpr hfull)

/-- A name that there is room for is added, whatever the count becomes. -/
theorem Good.link_adds (h : Good n s) (hroom : Room 3 n) (hcwd : ∃ i, cwd = some i ∧ 0 < n i)
    (hadds : Adds s cwd old new ki k name) (hplace : emptyPlace (s.disk k).data < maxDirents) :
    ∃ t, link cwd old new s = .ok true t ∧ Holding n n ∅ t ∧
      t.disk = Fs.linked s.disk ki k name := by
  obtain ⟨r, t, hrun, hpost⟩ := h.link_ends hroom hcwd fun ki' k' name' hadds' => by
    obtain ⟨-, rfl, -⟩ := hadds.unique hadds'
    exact hplace
  cases r with
  | false => exact absurd hadds (hpost.1 ki k name)
  | true =>
      obtain ⟨ht, -, ki', k', name', hadds', -, hd⟩ := hpost
      obtain ⟨rfl, rfl, rfl⟩ := hadds.unique hadds'
      exact ⟨t, hrun, ht, hd⟩

theorem ref_eq (h : Counted n ∅ s) (h' : Counted n ∅ t) (i : InodeId) :
    (t.inode i).ref = (s.inode i).ref := (h'.ref i).trans (h.ref i).symm

/-- One call. -/
theorem Good.link_meets_iff (h : Good n s) (hroom : Room 3 n) (hcwd : ∃ i, cwd = some i ∧ 0 < n i) :
    LinkMeets s cwd old new ↔ LinkFits s cwd old new := by
  have hret : twp _ (link cwd old new) _ s := link_returns h.holding hcwd hroom h.counting
  constructor
  · rintro ⟨r, t, hrun, -, hmeets⟩ ki k name hadds
    have hpost := of_twp hret hrun
    cases r with
    | false => exact absurd hadds (hpost.1 ki k name)
    | true =>
        obtain ⟨-, -, ki', k', name', hadds', hplace, hd⟩ := hpost
        obtain ⟨ki'', k'', name'', hadds'', hgains⟩ := hmeets
        obtain ⟨rfl, rfl, rfl⟩ := hadds.unique hadds'
        obtain ⟨rfl, rfl, rfl⟩ := hadds.unique hadds''
        refine ⟨?_, hplace⟩
        have hpos := hgains.pos
        have hrange := h.counting ki''
        rw [hd, linked_nlink hadds.ne, if_pos rfl] at hpos
        by_contra hbig
        obtain hmax : (s.disk ki'').nlink = 32767 := by omega
        rw [hmax] at hpos
        exact absurd hpos (by decide)
  · intro hfits
    obtain ⟨r, t, hrun, hpost⟩ := h.link_ends hroom hcwd fun ki k name hadds =>
      (hfits ki k name hadds).2
    refine ⟨r, t, hrun, ?_⟩
    cases r with
    | false => exact ⟨ref_eq h.holding.counted hpost.2.1.counted, hpost.2.2.disk⟩
    | true =>
        obtain ⟨ht, -, ki, k, name, hadds, hplace, hd⟩ := hpost
        have hrange := h.counting ki
        have hfit := (hfits ki k name hadds).1
        have hnlink : (t.disk ki).nlink = (s.disk ki).nlink + 1 := by
          rw [hd, linked_nlink hadds.ne, if_pos rfl]
          exact short_eq (by omega) (by omega)
        refine ⟨ref_eq h.holding.counted ht.counted, ki, k, name, hadds, hnlink, by omega, hadds.fresh,
          by rw [hd, linked_data_self], fun k' hk' => ⟨by rw [hd, linked_data_of_ne hk'], fun hki => ?_⟩⟩
        rw [hd, Fs.linked, Function.update_of_ne hk', moreLinks_of_ne hki]

/-- A call of `sys_link`, or one of `sys_unlink`. -/
inductive LinkCall where
  | link (cwd : Option InodeId) (old new : Path)
  | unlink (cwd : Option InodeId) (path : Path)

def LinkCall.run : LinkCall → FsM Bool
  | .link cwd old new => Fs.link cwd old new
  | .unlink cwd path => Fs.unlink cwd path

/-- The process is somewhere, `sys_link` fits, and `sys_unlink` is for the
name of a file. -/
def LinkCall.Fits (n : InodeId → ℕ) (s : Store) : LinkCall → Prop
  | .link cwd old new => (∃ i, cwd = some i ∧ 0 < n i) ∧ LinkFits s cwd old new
  | .unlink cwd path => (∃ i, cwd = some i ∧ 0 < n i) ∧ NoDir s cwd path

/-- A run of calls that fit when they are made. -/
inductive Runs (n : InodeId → ℕ) (s : Store) : Store → Prop
  | nil : Runs n s s
  | call {t u : Store} {c : LinkCall} {r : Bool} : Runs n s t → c.Fits n t → c.run t = .ok r u →
      Runs n s u

theorem Good.unlinked (h : Good n s) (hroom : Room 3 n) (hcwd : ∃ i, cwd = some i ∧ 0 < n i)
    (hdir : NoDir s cwd path) : ∃ r t, unlink cwd path s = .ok r t ∧ Good n t := by
  have hret := unlink_returns h.holding hcwd hroom hdir
  rw [twp] at hret
  cases hrun : unlink cwd path s with
  | stuck =>
      rw [hrun] at hret
      exact hret.elim
  | fault e =>
      rw [hrun] at hret
      obtain ⟨-, k, ki, name, off, hrem, hzero⟩ := hret
      obtain ⟨de, hde, hinum, hne, -⟩ := Dinode.mem_of_lookup hrem.entry
      -- the name itself means that there is a link
      have hcard := h.covered ki hrem.file {(k, off)} fun p hp => by
        rw [Finset.mem_singleton.mp hp]
        exact ⟨followParent_eq_some hrem.parent, de, hde, hne, Prod.ext hrem.dev.symm hinum⟩
      rw [Finset.card_singleton] at hcard
      exact absurd hzero (by push_cast at hcard; omega)
  | ok r t =>
      rw [hrun] at hret
      refine ⟨r, t, rfl, ?_⟩
      cases r with
      | false =>
          obtain ⟨ht, hq, -⟩ := hret
          refine ⟨ht, fun k => ?_, fun ki hfile => ?_⟩
          · rw [hq.disk]
            exact h.counting k
          · rw [hq.disk] at hfile ⊢
            exact h.covered ki hfile
      | true =>
          obtain ⟨hcount, hk, k, ki, name, off, hrem, hlink, hsettled, hother, hself⟩ := hret
          have hun : Unlinked n s t k ki name off :=
            ⟨hrem.entry, followParent_eq_some hrem.parent, hrem.dev, hrem.file, hlink, hsettled,
              hother, hself⟩
          exact hun.good h hcount hk

theorem Good.call {c : LinkCall} {r : Bool} (h : Good n s) (hroom : Room 3 n) (hfits : c.Fits n s)
    (hrun : c.run s = .ok r t) : Good n t := by
  cases c with
  | link cwd old new =>
      have hret : twp _ (link cwd old new) _ s := link_returns h.holding hfits.1 hroom h.counting
      have hpost := of_twp hret hrun
      cases r with
      | true =>
          obtain ⟨ht, -, ki, k, name, hadds, -, hd⟩ := hpost
          exact h.linked ht hadds (hfits.2 ki k name hadds).1 hd
      | false =>
          obtain ⟨-, ht, hq⟩ := hpost
          refine ⟨ht, fun k => ?_, fun ki hfile => ?_⟩
          · rw [hq.disk]
            exact h.counting k
          · rw [hq.disk] at hfile ⊢
            exact h.covered ki hfile
  | unlink cwd path =>
      obtain ⟨r', t', hrun', hgood⟩ := h.unlinked hroom hfits.1 hfits.2
      cases hrun.symm.trans hrun'
      exact hgood

theorem Good.runs (h : Good n s) (hroom : Room 3 n) (hruns : Runs n s t) : Good n t := by
  induction hruns with
  | nil => exact h
  | call _ hfits hrun ih => exact ih.call hroom hfits hrun

/-- After any run of calls that fit, a call of `sys_link` does what it should
exactly if it fits, and `sys_unlink` returns for every name of a file. -/
theorem links_meet_iff (h : Good n s) (hroom : Room 3 n) (hruns : Runs n s t) :
    (∀ cwd old new, (∃ i, cwd = some i ∧ 0 < n i) →
      (LinkMeets t cwd old new ↔ LinkFits t cwd old new)) ∧
    ∀ cwd path, (∃ i, cwd = some i ∧ 0 < n i) → NoDir t cwd path →
      ∃ r u, unlink cwd path t = .ok r u := by
  have hgood := h.runs hroom hruns
  refine ⟨fun cwd old new hcwd => hgood.link_meets_iff hroom hcwd, fun cwd path hcwd hdir => ?_⟩
  obtain ⟨r, u, hrun, -⟩ := hgood.unlinked hroom hcwd hdir
  exact ⟨r, u, hrun⟩

/-! ### A count that wraps around -/

theorem Dinode.lookup_eq_none {d : Dinode} (h : ∀ de ∈ d.data, de.name ≠ name) :
    d.lookup name = none := by
  have hnone : d.data.findIdx? (Dirent.named name) = none := by
    rw [List.findIdx?_eq_none_iff]
    intro de hde
    simp [Dirent.named, h de hde]
  rw [Dinode.lookup, hnone]
  rfl

theorem length_writeEntry_le (off : ℕ) (de : Dirent) (data : List Dirent) :
    (writeEntry off de data).length ≤ data.length + 1 := by
  rw [writeEntry]
  split_ifs
  · rw [List.length_set]
    omega
  · rw [List.length_append, List.length_singleton]

/-- A file in the root directory, and two directories. -/
def fileAndDirs : Store where
  inode := fun i => if i = 0 then { dev := rootDev, inum := rootIno, ref := 1 } else {}
  disk := fun k =>
    if k = (rootDev, rootIno) then
      { type := .dir, nlink := 3
        data := [⟨1, ['.']⟩, ⟨1, ['.', '.']⟩, ⟨2, ['f']⟩, ⟨3, ['a']⟩, ⟨4, ['b']⟩] }
    else if k = (rootDev, 2) then { type := .file, nlink := 1 }
    else if k = (rootDev, 3) then
      { type := .dir, nlink := 1, data := [⟨3, ['.']⟩, ⟨1, ['.', '.']⟩] }
    else if k = (rootDev, 4) then
      { type := .dir, nlink := 1, data := [⟨4, ['.']⟩, ⟨1, ['.', '.']⟩] }
    else {}

/-- The references of a process in the root directory. -/
def atRoot : InodeId → ℕ := bump (fun _ => 0) 0

def letter (d : ℕ) : Char := Char.ofNat (97 + d % 16)

def linkName (i : ℕ) : Name := [letter (i / 4096), letter (i / 256), letter (i / 16), letter i]

/-- The first 16384 names go to one directory, those after them to the other. -/
def linkDir (i : ℕ) : ℕ × Char := if i < 16384 then (3, 'a') else (4, 'b')

def linkPath (i : ℕ) : Path := '/' :: (linkDir i).2 :: '/' :: linkName i

theorem letter_ne_slash (d : ℕ) : letter d ≠ '/' := by
  have hall : ∀ x : Fin 16, Char.ofNat (97 + x) ≠ '/' := by decide
  exact hall ⟨d % 16, Nat.mod_lt _ (by decide)⟩

theorem letter_inj {d d' : ℕ} (h : letter d = letter d') : d % 16 = d' % 16 := by
  have hall : ∀ x y : Fin 16, Char.ofNat (97 + x) = Char.ofNat (97 + y) → x = y := by decide
  exact congrArg Fin.val
    (hall ⟨d % 16, Nat.mod_lt _ (by decide)⟩ ⟨d' % 16, Nat.mod_lt _ (by decide)⟩ h)

theorem linkName_inj {i j : ℕ} (hi : i < 65536) (hj : j < 65536) (h : linkName i = linkName j) :
    i = j := by
  simp only [linkName, List.cons.injEq, and_true] at h
  obtain ⟨h₃, h₂, h₁, h₀⟩ := h
  have h₃ := letter_inj h₃
  have h₂ := letter_inj h₂
  have h₁ := letter_inj h₁
  have h₀ := letter_inj h₀
  omega

theorem elements_linkPath (i : ℕ) : elements (linkPath i) = [[(linkDir i).2], linkName i] := by
  have hdir : (linkDir i).2 ≠ '/' := by
    rw [linkDir]
    split_ifs <;> decide
  have hname : ∀ c ∈ linkName i, c ≠ '/' := by
    intro c hc
    simp only [linkName, List.mem_cons, List.not_mem_nil, or_false] at hc
    rcases hc with rfl | rfl | rfl | rfl <;> exact letter_ne_slash _
  have hlast : elements (linkName i) = [linkName i] := by
    have hrun : elements (linkName i ++ []) = (linkName i).take dirsiz :: elements [] :=
      elements_run (List.cons_ne_nil _ _) hname nofun
    rwa [List.append_nil] at hrun
  have hfirst : elements ([(linkDir i).2] ++ '/' :: linkName i) =
      [(linkDir i).2].take dirsiz :: elements ('/' :: linkName i) :=
    elements_run (List.cons_ne_nil _ _) (by simpa using hdir) (by simp)
  rw [linkPath, elements_slash]
  refine hfirst.trans ?_
  rw [elements_slash, hlast]
  rfl

/-- The disk after so many calls. -/
structure After (i : ℕ) (d : Key → Dinode) : Prop where
  type : ∀ k, (d k).type = (fileAndDirs.disk k).type
  root : (d (rootDev, rootIno)).data = (fileAndDirs.disk (rootDev, rootIno)).data
  nlink : (d (rootDev, 2)).nlink = i + 1
  name : ∀ inum ∈ [3, 4], ∀ de ∈ (d (rootDev, inum)).data,
    de.name ∈ [['.'], ['.', '.']] ∨ ∃ j, j < i ∧ de.name = linkName j
  first : (d (rootDev, 3)).data.length ≤ 2 + min i 16384
  second : (d (rootDev, 4)).data.length ≤ 2 + (i - 16384)

theorem linkDir_mem (i : ℕ) : (linkDir i).1 ∈ [3, 4] := by
  rw [linkDir]
  split_ifs <;> decide

namespace After

variable {i : ℕ}

theorem adds (h : After i s.disk) (hi : i < 65536) :
    Adds s (some 0) ['/', 'f'] (linkPath i) (rootDev, 2) (rootDev, (linkDir i).1) (linkName i) := by
  have hroot : (s.disk (rootDev, rootIno)).type = .dir := (h.type _).trans (by decide)
  have hlook : ∀ name, (s.disk (rootDev, rootIno)).lookup name =
      (fileAndDirs.disk (rootDev, rootIno)).lookup name := fun name => by
    simp only [Dinode.lookup, h.root]
  have hdir : (s.disk (rootDev, (linkDir i).1)).type = .dir := by
    rw [h.type, linkDir]
    split_ifs <;> decide
  have hto : (fileAndDirs.disk (rootDev, rootIno)).lookup [(linkDir i).2] =
      some ((linkDir i).1, (linkDir i).1) := by
    rw [linkDir]
    split_ifs <;> decide
  refine ⟨?_, ?_, ?_, rfl, ?_⟩
  · change follow s.disk (rootDev, rootIno) (elements ['/', 'f']) = _
    rw [show elements ['/', 'f'] = [['f']] by decide]
    simp only [follow, hroot, hlook]
    decide
  · rw [h.type]
    decide
  · change followParent s.disk (rootDev, rootIno) (elements (linkPath i)) = _
    rw [elements_linkPath, followParent_cons (List.cons_ne_nil _ _), hroot, hlook, hto]
    simp [followParent, follow, hdir]
  · refine Dinode.lookup_eq_none fun de hde heq => ?_
    rcases h.name _ (linkDir_mem i) de hde with hdot | ⟨j, hj, hname⟩
    · rw [heq] at hdot
      simp [linkName] at hdot
    · have hsame := linkName_inj hi (by omega) (heq.symm.trans hname)
      omega

theorem room (h : After i s.disk) (hi : i ≤ 32766) :
    emptyPlace (s.disk (rootDev, (linkDir i).1)).data < maxDirents := by
  have hfirst := h.first
  have hsecond := h.second
  refine (emptyPlace_le _).trans_lt ?_
  rw [linkDir]
  split_ifs with hlt
  · calc _ ≤ 2 + min i 16384 := hfirst
      _ < maxDirents := by
          rw [show maxDirents = 17152 by decide]
          omega
  · calc _ ≤ 2 + (i - 16384) := hsecond
      _ < maxDirents := by
          rw [show maxDirents = 17152 by decide]
          omega

theorem next (h : After i d) (hi : i < 32766) :
    After (i + 1) (linked d (rootDev, 2) (rootDev, (linkDir i).1) (linkName i)) := by
  have hne : ∀ inum, inum ∉ [3, 4] → ((rootDev, inum) : Key) ≠ (rootDev, (linkDir i).1) :=
    fun inum hinum heq => hinum ((Prod.mk.inj heq).2 ▸ linkDir_mem i)
  refine ⟨fun k => (linked_type ..).trans (h.type k), ?_, ?_, fun inum hinum de hde => ?_, ?_, ?_⟩
  · rw [linked_data_of_ne (hne 1 (by decide)), h.root]
  · rw [linked_nlink (hne 2 (by decide)).symm, if_pos rfl, h.nlink, short_eq (by omega) (by omega)]
    push_cast
    rfl
  · by_cases hk : inum = (linkDir i).1
    · rw [hk, linked_data_self] at hde
      rcases mem_writeEntry (emptyPlace_le _) hde with rfl | hde
      · exact .inr ⟨i, by omega, rfl⟩
      · refine (h.name _ (linkDir_mem i) de hde).imp id fun ⟨j, hj, hname⟩ => ⟨j, by omega, hname⟩
    · rw [linked_data_of_ne fun heq => hk (congrArg Prod.snd heq)] at hde
      exact (h.name inum hinum de hde).imp id fun ⟨j, hj, hname⟩ => ⟨j, by omega, hname⟩
  · have hfirst := h.first
    by_cases hlt : i < 16384
    · rw [linkDir, if_pos hlt, linked_data_self]
      exact (length_writeEntry_le _ _ (d (rootDev, 3)).data).trans (by omega)
    · rw [linkDir, if_neg hlt, linked_data_of_ne (by decide)]
      exact hfirst.trans (by omega)
  · have hsecond := h.second
    by_cases hlt : i < 16384
    · rw [linkDir, if_pos hlt, linked_data_of_ne (by decide)]
      exact hsecond.trans (by omega)
    · rw [linkDir, if_neg hlt, linked_data_self]
      exact (length_writeEntry_le _ _ (d (rootDev, 4)).data).trans (by omega)

end After

theorem fileAndDirs_disk (k : Key) :
    (∃ inum ∈ [1, 2, 3, 4], k = (rootDev, inum)) ∨ fileAndDirs.disk k = {} := by
  by_cases hk : ∃ inum ∈ [1, 2, 3, 4], k = (rootDev, inum)
  · exact .inl hk
  · have hne : ∀ inum ∈ [1, 2, 3, 4], k ≠ (rootDev, inum) := fun inum hinum heq =>
      hk ⟨inum, hinum, heq⟩
    refine .inr ?_
    simp only [fileAndDirs]
    rw [if_neg (hne 1 (by decide)), if_neg (hne 2 (by decide)), if_neg (hne 3 (by decide)),
      if_neg (hne 4 (by decide))]

theorem atRoot_pos {i : InodeId} (h : 0 < atRoot i) : i = 0 := by
  by_contra hne
  rw [atRoot, bump_of_ne _ hne] at h
  exact lt_irrefl 0 h

theorem room_atRoot : Room 3 atRoot := ⟨{1, 2, 3}, by decide, by decide⟩

theorem good_fileAndDirs : Good atRoot fileAndDirs := by
  have hthere : ∀ inum ∈ [1, 2, 3, 4], (fileAndDirs.disk (rootDev, inum)).type ≠ .free ∧
      1 ≤ (fileAndDirs.disk (rootDev, inum)).nlink ∧
      (fileAndDirs.disk (rootDev, inum)).nlink < 2 ^ 15 ∧
      ∀ de ∈ (fileAndDirs.disk (rootDev, inum)).data, de.inum ∈ [1, 2, 3, 4] := by decide
  have hcount : Counting fileAndDirs := by
    intro k
    rcases fileAndDirs_disk k with ⟨inum, hinum, rfl⟩ | heq
    · obtain ⟨-, hpos, hlt, -⟩ := hthere inum hinum
      exact ⟨by omega, hlt⟩
    · rw [heq]
      decide
  refine ⟨⟨⟨fun i => ?_, fun i j hi hj _ => ?_, fun i => ?_, fun i _ hv => ?_⟩, fun _ => le_rfl,
    fun k ⟨hfree, hzero, _⟩ => ?_, fun k hdir de hde hne => ?_, by decide, fun i hi => ?_⟩, hcount,
    fun ki hfile P hP => ?_⟩
  · by_cases hi : i = 0 <;> simp [fileAndDirs, atRoot, hi, bump_of_ne]
  · rw [atRoot_pos hi, atRoot_pos hj]
  · by_cases hi : i = 0 <;> simp [fileAndDirs, hi]
  · by_cases hi : i = 0 <;> simp [fileAndDirs, hi] at hv
  · rcases fileAndDirs_disk k with ⟨inum, hinum, rfl⟩ | heq
    · have hpos := (hthere inum hinum).2.1
      omega
    · exact hfree (congrArg Dinode.type heq)
  · rcases fileAndDirs_disk k with ⟨inum, hinum, rfl⟩ | heq
    · exact (hthere de.inum ((hthere inum hinum).2.2.2 de hde)).1
    · rw [heq] at hde
      cases hde
  · rw [atRoot_pos hi]
    decide
  · -- only the third entry of the root directory names a file
    have honly : ∀ p, Names fileAndDirs.disk ki p → ki = (rootDev, 2) ∧ p = ((rootDev, 1), 2) := by
      rintro ⟨k, off⟩ ⟨hdir, de, hde, hne, rfl⟩
      rcases fileAndDirs_disk k with ⟨inum, hinum, rfl⟩ | heq
      · have hall : ∀ inum ∈ [1, 2, 3, 4], ∀ off < 5,
            ∀ de ∈ (fileAndDirs.disk (rootDev, inum)).data[off]?,
            (fileAndDirs.disk (rootDev, de.inum)).type ≠ .dir →
              de.inum = 2 ∧ inum = 1 ∧ off = 2 := by decide
        have hlen : ∀ inum ∈ [1, 2, 3, 4],
            (fileAndDirs.disk (rootDev, inum)).data.length ≤ 5 := by decide
        have hoff := (List.getElem?_eq_some_iff.mp hde).1.trans_le (hlen inum hinum)
        obtain ⟨h₁, rfl, rfl⟩ := hall inum hinum off hoff de hde hfile
        exact ⟨Prod.ext rfl h₁, rfl⟩
      · rw [show (fileAndDirs.disk k).type = .free from congrArg Dinode.type heq] at hdir
        cases hdir
    rcases P.eq_empty_or_nonempty with rfl | ⟨p, hp⟩
    · exact (hcount ki).1
    · obtain ⟨rfl, -⟩ := honly p (hP p hp)
      have hcard : P.card ≤ 1 := Finset.card_le_one.mpr fun p hp q hq =>
        (honly p (hP p hp)).2.trans (honly q (hP q hq)).2.symm
      exact (Int.ofNat_le.mpr hcard).trans (by decide)

theorem links_meet_iff_fresh :
    LinkFits fileAndDirs (some 0) ['/', 'f'] (linkPath 0) ∧
      LinkMeets fileAndDirs (some 0) ['/', 'f'] (linkPath 0) := by
  have hiff := (links_meet_iff good_fileAndDirs room_atRoot .nil).1 (some 0) ['/', 'f'] (linkPath 0)
    ⟨0, rfl, by decide⟩
  have hafter : After 0 fileAndDirs.disk :=
    ⟨fun _ => rfl, rfl, by decide, by decide, by decide, by decide⟩
  have hfits : LinkFits fileAndDirs (some 0) ['/', 'f'] (linkPath 0) := by
    intro ki k name hadds
    obtain ⟨rfl, rfl, rfl⟩ := (hafter.adds (by decide)).unique hadds
    exact ⟨by decide, hafter.room (by decide)⟩
  exact ⟨hfits, hiff.mpr hfits⟩

/-- So many links can be made. -/
theorem exists_after {i : ℕ} (hi : i ≤ 32766) :
    ∃ t, Runs atRoot fileAndDirs t ∧ After i t.disk := by
  induction i with
  | zero => exact ⟨fileAndDirs, .nil, fun _ => rfl, rfl, by decide, by decide, by decide, by decide⟩
  | succ i ih =>
      obtain ⟨t, hruns, hafter⟩ := ih (by omega)
      have hadds := hafter.adds (by omega)
      have hroom := hafter.room (by omega)
      have hcwd : ∃ i, some 0 = some i ∧ 0 < atRoot i := ⟨0, rfl, by decide⟩
      obtain ⟨u, hrun, -, hd⟩ :=
        (good_fileAndDirs.runs room_atRoot hruns).link_adds room_atRoot hcwd hadds hroom
      refine ⟨u, .call (c := .link (some 0) ['/', 'f'] (linkPath i)) hruns ⟨hcwd, ?_⟩ hrun, ?_⟩
      · intro ki k name hadds'
        obtain ⟨rfl, rfl, rfl⟩ := hadds.unique hadds'
        rw [hafter.nlink]
        exact ⟨by omega, hroom⟩
      · rw [hd]
        exact hafter.next (by omega)

/-- After 32766 links the next one is made as well, and its count is negative;
the name that the file had before them cannot be removed any more. -/
theorem links_wrap_around :
    ∃ t u, Runs atRoot fileAndDirs t ∧
      link (some 0) ['/', 'f'] (linkPath 32766) t = .ok true u ∧
      (u.disk (rootDev, 2)).nlink = -32768 ∧
      ¬ LinkMeets t (some 0) ['/', 'f'] (linkPath 32766) ∧
      unlink (some 0) ['/', 'f'] u = .fault .unlinkNlink := by
  obtain ⟨t, hruns, hafter⟩ := exists_after le_rfl
  have hgood := good_fileAndDirs.runs room_atRoot hruns
  have hcwd : ∃ i, some 0 = some i ∧ 0 < atRoot i := ⟨0, rfl, by decide⟩
  have hadds := hafter.adds (by decide)
  obtain ⟨u, hrun, hu, hd⟩ := hgood.link_adds room_atRoot hcwd hadds (hafter.room le_rfl)
  have hnlink : (u.disk (rootDev, 2)).nlink = -32768 := by
    rw [hd, linked_nlink hadds.ne, if_pos rfl, hafter.nlink]
    decide
  have htype : ∀ k, (u.disk k).type = (fileAndDirs.disk k).type := fun k => by
    rw [hd, linked_type, hafter.type]
  have hdata : (u.disk (rootDev, rootIno)).data = (fileAndDirs.disk (rootDev, rootIno)).data := by
    rw [hd, linked_data_of_ne, hafter.root]
    exact fun heq => absurd ((Prod.mk.inj heq).2 ▸ linkDir_mem 32766) (by decide)
  have hparent : followParent u.disk (startKey u (some 0) ['/', 'f']) (elements ['/', 'f']) =
      some ((rootDev, rootIno), ['f']) := by
    change followParent u.disk (rootDev, rootIno) (elements ['/', 'f']) = _
    rw [show elements ['/', 'f'] = [['f']] by decide]
    simp only [followParent, List.getLast?_singleton, List.dropLast_singleton, follow,
      Option.bind_some, htype]
    decide
  have hentry : (u.disk (rootDev, rootIno)).lookup ['f'] = some (2, 2) := by
    simp only [Dinode.lookup, hdata]
    decide
  have hrem : Removes u (some 0) ['/', 'f'] (rootDev, rootIno) (rootDev, 2) ['f'] 2 :=
    ⟨hparent, hentry, rfl, by rw [htype]; decide⟩
  have hunique : ∀ k ki name off, Removes u (some 0) ['/', 'f'] k ki name off →
      ki = (rootDev, 2) ∧ name = ['f'] := by
    intro k ki name off h
    obtain ⟨rfl, rfl⟩ := Prod.mk.inj (Option.some.inj (hparent.symm.trans h.parent))
    have hki := (Prod.mk.inj (Option.some.inj (hentry.symm.trans h.entry))).1
    exact ⟨Prod.ext h.dev hki.symm, rfl⟩
  have hnodir : NoDir u (some 0) ['/', 'f'] := by
    intro k name x hp hx
    obtain ⟨rfl, rfl⟩ := Prod.mk.inj (Option.some.inj (hparent.symm.trans hp))
    obtain rfl := Option.some.inj (hentry.symm.trans hx)
    rw [htype]
    decide
  refine ⟨t, u, hruns, hrun, hnlink, ?_, ?_⟩
  · rw [hgood.link_meets_iff room_atRoot hcwd]
    intro hfits
    have hlt := (hfits _ _ _ hadds).1
    rw [hafter.nlink] at hlt
    exact absurd hlt (by decide)
  · have hret := unlink_returns hu hcwd room_atRoot hnodir
    rw [twp] at hret
    cases hend : unlink (some 0) ['/', 'f'] u with
    | stuck =>
        rw [hend] at hret
        exact hret.elim
    | fault e =>
        rw [hend] at hret
        rw [hret.1]
    | ok r v =>
        rw [hend] at hret
        cases r with
        | false => exact absurd (hret.2.2 _ _ _ _ hrem) (by decide)
        | true =>
            obtain ⟨-, -, k, ki, name, off, hrem', hpos, -⟩ := hret
            rw [(hunique k ki name off hrem').1, hnlink] at hpos
            exact absurd hpos (by decide)

end Xv6.Fs
