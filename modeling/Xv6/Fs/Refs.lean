import Xv6.Fs.Inode
import Xv6.Lib.Counting

/-!
What the functions of `fs.c` do to references and locks.

A caller keeps account of the references it knows of and of the locks it
holds: `Counted n L s` says that the inode cache agrees with an account of
`n i` references to entry `i` and of the locks in `L`. Every function has
one rule, which says how the account changes, that entries which stay
referenced stay what they are (`Keeps`), and what becomes of the disk. A
lookup only ever frees inodes without links (`Thinned`).

The rules leave faults open that are a matter of full tables or of what is
on the disk, and exclude those over a reference, a lock or the kind of a
file (`Fault.Foreign`).
-/

namespace Xv6.Fs

open Lib Prog

/-- Faults over a full table or over what is on the disk. -/
def Fault.Foreign : Fault → Prop
  | .ilock | .iunlock | .filedup | .fileclose | .fileread | .filewrite | .shortFilewrite
  | .nullPointer => False
  | _ => True

/-- The program ends with `Q`, or in a foreign fault. -/
abbrev spec {σ α : Type} (c : Prog Fault σ α) (Q : α → σ → Prop) (s : σ) : Prop :=
  wpf Fault.Foreign c Q s

/-- The inode when `iput` has freed it. -/
def Dinode.freed (d : Dinode) : Dinode := { d with type := .free, size := 0, data := [] }

/-- Some inodes without links have been freed. -/
def Thinned (d d' : Key → Dinode) : Prop :=
  ∀ k, d' k = d k ∨ (d k).nlink = 0 ∧ d' k = (d k).freed

namespace Thinned

theorem refl (d : Key → Dinode) : Thinned d d := fun _ => .inl rfl

theorem trans {d₁ d₂ d₃ : Key → Dinode} (h : Thinned d₁ d₂) (h' : Thinned d₂ d₃) :
    Thinned d₁ d₃ := by
  intro k
  obtain he | ⟨hn, he⟩ := h k <;> obtain he' | ⟨hn', he'⟩ := h' k
  · exact .inl (he'.trans he)
  · exact .inr ⟨he ▸ hn', he ▸ he'⟩
  · exact .inr ⟨hn, he'.trans he⟩
  · exact .inr ⟨hn, by rw [he', he]; rfl⟩

theorem eq_of_type {d d' : Key → Dinode} {k : Key} (h : Thinned d d')
    (hk : (d' k).type ≠ .free) : d' k = d k := by
  obtain he | ⟨_, he⟩ := h k
  · exact he
  · exact absurd (congrArg Dinode.type he) hk

end Thinned

/-- Entries that are referenced stay what they are. -/
structure Keeps (n : InodeId → ℕ) (s t : Store) : Prop where
  key : ∀ i, 0 < n i → (t.inode i).key = (s.inode i).key
  valid : ∀ i, 0 < n i → (s.inode i).valid → (t.inode i).valid

/-- The inode cache agrees with an account of references and locks. -/
structure Counted (n : InodeId → ℕ) (L : Finset InodeId) (s : Store) : Prop where
  ref : ∀ i, (s.inode i).ref = n i
  unique : ∀ i j, 0 < n i → 0 < n j → (s.inode i).key = (s.inode j).key → i = j
  lock : ∀ i, (s.inode i).lock = true ↔ i ∈ L
  loaded : ∀ i, 0 < n i → (s.inode i).valid →
    (s.inode i).copy = s.disk (s.inode i).key ∧ (s.inode i).copy.type ≠ .free

variable {n m : InodeId → ℕ} {L : Finset InodeId} {s t u : Store} {i j : InodeId} {k : Key}
  {f : Dinode → Dinode}

namespace Keeps

theorem refl (n : InodeId → ℕ) (s : Store) : Keeps n s s := ⟨fun _ _ => rfl, fun _ _ h => h⟩

theorem trans (h : Keeps n s t) (h' : Keeps n t u) : Keeps n s u where
  key := fun i hi => (h'.key i hi).trans (h.key i hi)
  valid := fun i hi hv => h'.valid i hi (h.valid i hi hv)

theorem mono (h : Keeps n s t) (hm : ∀ i, m i ≤ n i) : Keeps m s t where
  key := fun i hi => h.key i (hi.trans_le (hm i))
  valid := fun i hi => h.valid i (hi.trans_le (hm i))

/-- With a reference given up. -/
theorem drop (h : Keeps (bump n j) s t) : Keeps n s t := h.mono (le_bump n j)

end Keeps

/-! ### The inode cache -/

namespace Store

@[simp] theorem set_inode_self (r : Inode) : (s.set i r).inode i = r := Function.update_self ..

@[simp] theorem set_inode_of_ne (hne : j ≠ i) (r : Inode) : (s.set i r).inode j = s.inode j :=
  Function.update_of_ne hne ..

@[simp] theorem set_set (r r' : Inode) : (s.set i r).set i r' = s.set i r' := by
  simp [Store.set]

@[simp] theorem set_disk (r : Inode) : (s.set i r).disk = s.disk := rfl

@[simp] theorem setDisk_inode (d : Dinode) : (s.setDisk k d).inode = s.inode := rfl

@[simp] theorem setDisk_disk (d : Dinode) : (s.setDisk k d).disk = Function.update s.disk k d := rfl

end Store

variable {F : Fault → Prop} {r : Inode}

@[simp] theorem wpf_inode {Q : Inode → Store → Prop} : wpf F (inode i) Q s ↔ Q (s.inode i) s := .rfl

variable {Q : Unit → Store → Prop}

@[simp] theorem wpf_setInode : wpf F (setInode i r) Q s ↔ Q () (s.set i r) := .rfl

/-- An entry changes and is referenced as often as before. -/
theorem Counted.set (h : Counted n L s) {L' : Finset InodeId}
    (href : r.ref = n i) (hkey : 0 < n i → r.key = (s.inode i).key)
    (hlock : r.lock = true ↔ i ∈ L') (hL : ∀ j, j ≠ i → (j ∈ L' ↔ j ∈ L))
    (hload : 0 < n i → r.valid → r.copy = s.disk r.key ∧ r.copy.type ≠ .free) :
    Counted n L' (s.set i r) where
  ref := by
    intro j
    by_cases hj : j = i
    · subst hj
      simpa using href
    · simpa [hj] using h.ref j
  unique := by
    have hk : ∀ j, 0 < n j → ((s.set i r).inode j).key = (s.inode j).key := by
      intro j hj
      by_cases hji : j = i
      · subst hji
        simpa using hkey hj
      · simp [hji]
    intro j j' hj hj' he
    rw [hk j hj, hk j' hj'] at he
    exact h.unique j j' hj hj' he
  lock := by
    intro j
    by_cases hj : j = i
    · subst hj
      simpa using hlock
    · rw [hL j hj]
      simpa [hj] using h.lock j
  loaded := by
    intro j hj
    by_cases hji : j = i
    · subst hji
      simpa using hload hj
    · simpa [hji] using h.loaded j hj

theorem keeps_set (hkey : 0 < n i → r.key = (s.inode i).key)
    (hvalid : 0 < n i → (s.inode i).valid → r.valid) : Keeps n s (s.set i r) where
  key := by
    intro j hj
    by_cases hji : j = i
    · subst hji
      simpa using hkey hj
    · simp [hji]
  valid := by
    intro j hj
    by_cases hji : j = i
    · subst hji
      simpa using hvalid hj
    · simp [hji]

/-- An entry gets one more reference. -/
theorem Counted.bump (h : Counted n L s) (href : r.ref = n i + 1)
    (hlock : r.lock = (s.inode i).lock)
    (hold : 0 < n i → r.key = (s.inode i).key ∧ r.valid = (s.inode i).valid ∧
      r.copy = (s.inode i).copy)
    (hnew : n i = 0 → r.valid = false ∧ ∀ j, 0 < n j → (s.inode j).key ≠ r.key) :
    Counted (bump n i) L (s.set i r) where
  ref := by
    intro j
    by_cases hj : j = i
    · subst hj
      simp [href]
    · simpa [hj, bump_of_ne n hj] using h.ref j
  unique := by
    intro j j' hj hj' he
    by_cases hji : j = i <;> by_cases hji' : j' = i
    · rw [hji, hji']
    · subst hji
      rw [bump_of_ne n hji'] at hj'
      simp only [Store.set_inode_self, Store.set_inode_of_ne hji'] at he
      obtain h0 | hpos := Nat.eq_zero_or_pos (n j)
      · exact absurd he.symm ((hnew h0).2 j' hj')
      · exact h.unique j j' hpos hj' ((hold hpos).1 ▸ he)
    · subst hji'
      rw [bump_of_ne n hji] at hj
      simp only [Store.set_inode_self, Store.set_inode_of_ne hji] at he
      obtain h0 | hpos := Nat.eq_zero_or_pos (n j')
      · exact absurd he ((hnew h0).2 j hj)
      · exact h.unique j j' hj hpos ((hold hpos).1 ▸ he)
    · rw [bump_of_ne n hji] at hj
      rw [bump_of_ne n hji'] at hj'
      simp only [Store.set_inode_of_ne hji, Store.set_inode_of_ne hji'] at he
      exact h.unique j j' hj hj' he
  lock := by
    intro j
    by_cases hj : j = i
    · subst hj
      simpa [hlock] using h.lock j
    · simpa [hj] using h.lock j
  loaded := by
    intro j hj hv
    by_cases hji : j = i
    · subst hji
      simp only [Store.set_inode_self, Store.set_disk] at hv ⊢
      obtain h0 | hpos := Nat.eq_zero_or_pos (n j)
      · rw [(hnew h0).1] at hv
        exact absurd hv Bool.false_ne_true
      · obtain ⟨hk, hval, hcopy⟩ := hold hpos
        rw [hval] at hv
        rw [hcopy, hk]
        exact h.loaded j hpos hv
    · rw [bump_of_ne n hji] at hj
      simp only [Store.set_inode_of_ne hji, Store.set_disk] at hv ⊢
      exact h.loaded j hj hv

/-- An entry loses a reference. -/
theorem Counted.release (h : Counted (Lib.bump n i) L s) (href : r.ref = n i)
    (hlock : r.lock = (s.inode i).lock)
    (hold : 0 < n i → r.key = (s.inode i).key ∧ r.valid = (s.inode i).valid ∧
      r.copy = (s.inode i).copy) : Counted n L (s.set i r) := by
  have hle := fun j (hj : 0 < n j) => hj.trans_le (le_bump n i j)
  have hkey : ∀ j, 0 < n j → ((s.set i r).inode j).key = (s.inode j).key := by
    intro j hj
    by_cases hji : j = i
    · subst hji
      simpa using (hold hj).1
    · simp [hji]
  refine ⟨fun j => ?_, fun j j' hj hj' he => ?_, fun j => ?_, fun j hj hv => ?_⟩
  · by_cases hj : j = i
    · subst hj
      simpa using href
    · simpa [hj, bump_of_ne n hj] using h.ref j
  · rw [hkey j hj, hkey j' hj'] at he
    exact h.unique j j' (hle j hj) (hle j' hj') he
  · by_cases hj : j = i
    · subst hj
      simpa [hlock] using h.lock j
    · simpa [hj] using h.lock j
  · rw [hkey j hj]
    by_cases hji : j = i
    · subst hji
      obtain ⟨_, hval, hcopy⟩ := hold hj
      simp only [Store.set_inode_self, Store.set_disk] at hv ⊢
      rw [hcopy]
      exact h.loaded j (hle j hj) (hval ▸ hv)
    · simp only [Store.set_inode_of_ne hji, Store.set_disk] at hv ⊢
      exact h.loaded j (hle j hj) hv

/-- An inode that the cache has not loaded changes on disk. -/
theorem Counted.setDisk (h : Counted n L s) {d : Dinode}
    (hk : ∀ j, 0 < n j → (s.inode j).valid → (s.inode j).key ≠ k) :
    Counted n L (s.setDisk k d) where
  ref := h.ref
  unique := h.unique
  lock := h.lock
  loaded := by
    intro j hj hv
    rw [Store.setDisk_inode, Store.setDisk_disk, Function.update_of_ne (hk j hj hv)]
    exact h.loaded j hj hv

theorem find_eq_some {test : Inode → Bool} (h : s.find test = some i) : test (s.inode i) := by
  simpa using List.find?_some h

theorem find_eq_none {test : Inode → Bool} (h : s.find test = none) (i : InodeId) :
    ¬ test (s.inode i) := by
  simpa using List.find?_eq_none.mp h i (List.mem_finRange i)

theorem iget_spec (h : Counted n L s) (dev inum : ℕ) :
    spec (iget dev inum) (fun i t => Counted (bump n i) L t ∧ Keeps n s t ∧ t.disk = s.disk ∧
      (t.inode i).key = (dev, inum)) s := by
  simp only [spec, iget, wpf_bind, wpf_get]
  split
  case h_1 i hfind =>
    have htest := find_eq_some hfind
    simp only [decide_eq_true_eq] at htest
    obtain ⟨hpos, hdev, hinum⟩ := htest
    have hn : 0 < n i := by
      have := h.ref i
      omega
    simp only [wpf_bind, wpf_inode, wpf_setInode, wpf_pure]
    refine ⟨h.bump (by simp [h.ref]) rfl (fun _ => ⟨rfl, rfl, rfl⟩) (fun h0 => by omega),
      keeps_set (fun _ => rfl) (fun _ hv => hv), rfl, ?_⟩
    simp [Inode.key, hdev, hinum]
  case h_2 hnone =>
    have hother : ∀ j, 0 < n j → (s.inode j).key ≠ (dev, inum) := by
      intro j hj he
      have htest := find_eq_none hnone j
      simp only [decide_eq_true_eq] at htest
      refine htest ⟨?_, congrArg Prod.fst he, congrArg Prod.snd he⟩
      have := h.ref j
      omega
    split
    case h_1 i hfind =>
      have hzero : n i = 0 := by
        have htest := find_eq_some hfind
        simp only [decide_eq_true_eq] at htest
        have := h.ref i
        omega
      simp only [wpf_bind, wpf_inode, wpf_setInode, wpf_pure]
      refine ⟨h.bump (by simp [hzero]) rfl (fun hpos => by omega) (fun _ => ⟨rfl, hother⟩),
        keeps_set (fun hpos => by omega) (fun hpos => by omega), rfl, ?_⟩
      simp [Inode.key]
    case h_2 => trivial

theorem idup_spec (h : Counted n L s) (hi : 0 < n i) :
    spec (idup i) (fun j t => j = i ∧ Counted (bump n i) L t ∧ Keeps n s t ∧ t.disk = s.disk)
      s := by
  simp only [spec, idup, wpf_bind, wpf_inode, wpf_setInode, wpf_pure]
  exact ⟨trivial, h.bump (by simp [h.ref]) rfl (fun _ => ⟨rfl, rfl, rfl⟩) (fun h0 => by omega),
    keeps_set (fun _ => rfl) (fun _ hv => hv), rfl⟩

theorem ilock_spec (h : Counted n L s) (hi : 0 < n i) :
    spec (ilock i) (fun _ t => Counted n (insert i L) t ∧ Keeps n s t ∧ t.disk = s.disk ∧
      (t.inode i).valid) s := by
  simp only [spec, ilock, wpf_bind, wpf_inode]
  refine wpf_ite (fun href => ?_) fun _ => wpf_ite (fun _ => trivial) fun _ => wpf_ite ?_ ?_
  · have := h.ref i
    omega
  · intro hv
    rw [wpf_setInode]
    refine ⟨h.set (h.ref i) (fun _ => rfl) (by simp) (fun j hj => by simp [hj])
      (fun hn _ => h.loaded i hn hv), keeps_set (fun _ => rfl) (fun _ hv => hv), rfl, ?_⟩
    simpa using hv
  · intro _
    simp only [wpf_bind, wpf_get, wpf_setInode]
    refine wpf_ite (fun _ => trivial) fun htype => ?_
    exact ⟨h.set (h.ref i) (fun _ => rfl) (by simp) (fun j hj => by simp [hj])
      (fun _ _ => ⟨rfl, htype⟩), keeps_set (fun _ => rfl) (fun _ _ => rfl), rfl, by simp⟩

/-- A process that locks an inode it has locked waits for ever. -/
theorem ilock_unlocked (h : Counted n L s) (hi : 0 < n i) :
    spec (ilock i) (fun _ _ => i ∉ L) s := by
  simp only [spec, ilock, wpf_bind, wpf_inode]
  refine wpf_ite (fun href => ?_) fun _ => wpf_ite (fun _ => trivial) fun hlock => ?_
  · have := h.ref i
    omega
  · rw [h.lock i] at hlock
    refine wpf_ite (fun _ => hlock) fun _ => ?_
    simp only [wpf_bind, wpf_get, wpf_setInode]
    exact wpf_ite (fun _ => trivial) fun _ => hlock

theorem iunlock_spec (h : Counted n L s) (hn : 0 < n i) (hi : i ∈ L) :
    spec (iunlock i) (fun _ t => Counted n (L.erase i) t ∧ Keeps n s t ∧ t.disk = s.disk) s := by
  simp only [spec, iunlock, wpf_bind, wpf_inode]
  refine wpf_ite (fun hbad => ?_) fun _ => ?_
  · have href := h.ref i
    have hlock := (h.lock i).mpr hi
    simp only [hlock, Bool.not_true, Bool.false_eq_true, false_or] at hbad
    omega
  · rw [wpf_setInode]
    exact ⟨h.set (h.ref i) (fun _ => rfl) (by simp) (fun j hj => by simp [hj])
      (fun hn hv => h.loaded i hn hv), keeps_set (fun _ => rfl) (fun _ hv => hv), rfl⟩

/-! ### The disk -/

/-- The inode after a change of its copy and `iupdate`. -/
def Store.amend (s : Store) (i : InodeId) (f : Dinode → Dinode) : Store :=
  let r := s.inode i
  (s.set i { r with copy := f r.copy }).setDisk r.key (f r.copy)

theorem wpf_amend :
    wpf F (setCopy i f) (fun _ t => wpf F (iupdate i) Q t) s ↔ Q () (s.amend i f) := by
  simp [setCopy, iupdate, Store.amend, Inode.key]

theorem Store.amend_disk : (s.amend i f).disk =
    Function.update s.disk (s.inode i).key (f (s.inode i).copy) := rfl

theorem keeps_amend : Keeps n s (s.amend i f) := by
  have hset : Keeps n s (s.set i { s.inode i with copy := f (s.inode i).copy }) :=
    keeps_set (fun _ => rfl) fun _ hv => hv
  exact ⟨hset.key, hset.valid⟩

theorem Counted.amend (h : Counted n L s) (hn : 0 < n i)
    (hf : (f (s.inode i).copy).type ≠ .free) : Counted n L (s.amend i f) where
  ref := by
    intro j
    by_cases hj : j = i
    · subst hj
      simpa [Store.amend] using h.ref j
    · simpa [Store.amend, hj] using h.ref j
  unique := fun j j' hj hj' he => h.unique j j' hj hj'
    (by rwa [keeps_amend.key j hj, keeps_amend.key j' hj'] at he)
  lock := by
    intro j
    by_cases hj : j = i
    · subst hj
      simpa [Store.amend] using h.lock j
    · simpa [Store.amend, hj] using h.lock j
  loaded := by
    intro j hj hv
    rw [keeps_amend.key j hj, Store.amend_disk]
    by_cases hji : j = i
    · subst hji
      simpa [Store.amend] using hf
    · have hk : (s.inode j).key ≠ (s.inode i).key := fun he => hji (h.unique j i hj hn he)
      simp only [Store.amend, Store.setDisk_inode, Store.set_inode_of_ne hji] at hv ⊢
      rw [Function.update_of_ne hk]
      exact h.loaded j hj hv

/-- The rule for a change of a loaded inode and `iupdate`. -/
theorem spec_amend (h : Counted n L s) (hn : 0 < n i)
    (hv : (s.inode i).valid) (hf : ∀ d : Dinode, d.type ≠ .free → (f d).type ≠ .free)
    (hQ : ∀ t, Counted n L t → Keeps n s t →
      t.disk = Function.update s.disk (s.inode i).key (f (s.disk (s.inode i).key)) → Q () t) :
    spec (setCopy i f) (fun _ t => spec (iupdate i) Q t) s := by
  obtain ⟨hcopy, htype⟩ := h.loaded i hn hv
  rw [spec, wpf_amend]
  exact hQ _ (h.amend hn (hf _ htype)) keeps_amend (by rw [Store.amend_disk, hcopy])

/-- What `ifree` leaves behind. -/
theorem wpf_ifree (hF : F .deadlock)
    (hQ : (s.inode i).lock = false → Q () ((s.setDisk (s.inode i).key (s.inode i).copy.freed).set i
      { s.inode i with valid := false, copy := (s.inode i).copy.freed })) :
    wpf F (ifree i) Q s := by
  simp only [ifree, itrunc, wpf_bind, wpf_inode]
  refine wpf_ite (fun _ => hF) fun hlock => ?_
  rw [Bool.not_eq_true] at hlock
  simp only [wpf_bind, wpf_setInode, wpf_amend, wpf_inode]
  have hQ := hQ hlock
  simpa [Store.amend, Store.set, Store.setDisk, Dinode.freed, Inode.key, hlock] using hQ

theorem iput_spec (h : Counted (bump n i) L s) :
    spec (iput i) (fun _ t => Counted n L t ∧ Keeps n s t ∧ Thinned s.disk t.disk) s := by
  have href := h.ref i
  rw [bump_self] at href
  simp only [spec, iput, wpf_bind, wpf_inode]
  refine wpf_ite (fun hfree => ?_) fun _ => ?_
  · obtain ⟨hone, hvalid, hnlink⟩ := hfree
    have hzero : n i = 0 := by omega
    obtain ⟨hcopy, _⟩ := h.loaded i (bump_pos n i) hvalid
    have hne : ∀ j, 0 < n j → (s.inode j).key ≠ (s.inode i).key := by
      intro j hj he
      have := h.unique j i (hj.trans_le (le_bump n i j)) (bump_pos n i) he
      subst this
      omega
    rw [wpf_bind]
    refine wpf_ifree trivial fun _ => ?_
    simp only [wpf_bind, wpf_inode, wpf_setInode, Store.set_inode_self, Store.set_set]
    have hset : ∀ r : Inode, r.ref = n i → r.lock = (s.inode i).lock →
        Counted n L (s.set i r) ∧ Keeps n s (s.set i r) := fun r hr hlock =>
      ⟨h.release hr hlock fun hpos => by omega,
        keeps_set (fun hpos => by omega) fun hpos => by omega⟩
    obtain ⟨hcount, hkeeps⟩ := hset { s.inode i with
      ref := (s.inode i).ref - 1, valid := false, copy := (s.inode i).copy.freed }
      (by simp [href]) rfl
    refine ⟨hcount.setDisk fun j hj _ => ?_, ⟨hkeeps.key, hkeeps.valid⟩, fun k => ?_⟩
    · by_cases hji : j = i
      · subst hji
        omega
      · simpa [hji] using hne j hj
    · by_cases hk : k = (s.inode i).key
      · subst hk
        simp [← hcopy, hnlink]
      · simp [hk]
  · simp only [wpf_bind, wpf_inode, wpf_setInode]
    exact ⟨h.release (by simp [href]) rfl fun _ => ⟨rfl, rfl, rfl⟩,
      keeps_set (fun _ => rfl) (fun _ hv => hv), .refl _⟩

theorem iunlockput_spec (h : Counted (bump n i) L s) (hi : i ∈ L) :
    spec (iunlockput i) (fun _ t => Counted n (L.erase i) t ∧ Keeps n s t ∧
      Thinned s.disk t.disk) s := by
  simp only [spec, iunlockput, wpf_bind]
  refine wpf_mono (iunlock_spec h (bump_pos n i) hi) ?_
  rintro _ t ⟨ht, hk, hd⟩
  refine wpf_mono (iput_spec ht) ?_
  rintro _ u ⟨hu, hk', hd'⟩
  exact ⟨hu, hk.drop.trans hk', hd ▸ hd'⟩

theorem ialloc_spec (C : Config) (h : Counted n L s) (dev : ℕ) (type : FileType) :
    spec (ialloc C dev type) (fun i t => Counted (bump n i) L t ∧ Keeps n s t ∧
      ∃ inum, (t.inode i).key = (dev, inum) ∧ inum ≠ 0 ∧ inum < C.ninodes ∧
        (s.disk (dev, inum)).type = .free ∧
        t.disk = Function.update s.disk (dev, inum) { type := type }) s := by
  simp only [spec, ialloc, wpf_bind, wpf_get]
  split
  case h_1 inum hfind =>
    have htest := List.find?_some hfind
    have hmem := List.mem_of_find?_eq_some hfind
    simp only [decide_eq_true_eq] at htest
    obtain ⟨hpos, hfree⟩ := htest
    simp only [wpf_bind, wpf_modify]
    have hcount : Counted n L (s.setDisk (dev, inum) { type := type }) := by
      refine h.setDisk fun j hj hv he => ?_
      obtain ⟨hcopy, hne⟩ := h.loaded j hj hv
      rw [hcopy, he] at hne
      exact hne hfree
    refine wpf_mono (iget_spec hcount dev inum) ?_
    rintro i t ⟨ht, hk, hd, hkey⟩
    exact ⟨ht, ⟨hk.key, hk.valid⟩, inum, hkey, by omega, List.mem_range.mp hmem, hfree, hd⟩
  case h_2 => trivial

/-! ### Directories -/

/-- The inode number under the name in a directory on disk, and the place of
the entry. -/
def Dinode.lookup (d : Dinode) (name : Name) : Option (ℕ × ℕ) :=
  (d.data.findIdx? (Dirent.named name)).map fun off => (d.data[off]?.elim 0 Dirent.inum, off)

/-- The directory with a new entry. -/
def Dinode.enter (d : Dinode) (name : Name) (inum : ℕ) : Dinode :=
  { d with data := writeEntry (emptyPlace d.data) ⟨inum, name⟩ d.data }

/-- What `dirlookup` returns and does. -/
def LookedUp (n : InodeId → ℕ) (L : Finset InodeId) (s : Store) (k : Key) (name : Name) :
    Option (InodeId × ℕ) → Store → Prop
  | none, t => t = s ∧ (s.disk k).lookup name = none
  | some (ip, off), t => Counted (bump n ip) L t ∧ Keeps n s t ∧ t.disk = s.disk ∧
      ∃ inum, (s.disk k).lookup name = some (inum, off) ∧ (t.inode ip).key = (k.1, inum)

theorem dirlookup_spec {dp : InodeId} (h : Counted n L s) (hn : 0 < n dp)
    (hv : (s.inode dp).valid) (name : Name) :
    spec (dirlookup dp name) (fun r t => (s.disk (s.inode dp).key).type = .dir ∧
      LookedUp n L s (s.inode dp).key name r t) s := by
  obtain ⟨hcopy, _⟩ := h.loaded dp hn hv
  simp only [spec, dirlookup, wpf_bind, wpf_inode, hcopy]
  refine wpf_ite (fun _ => trivial) fun htype => ?_
  rw [not_not] at htype
  split
  case h_1 hnone => exact ⟨htype, rfl, by simp [Dinode.lookup, hnone]⟩
  case h_2 off hfind =>
    rw [wpf_bind]
    refine wpf_mono (iget_spec h _ _) ?_
    rintro ip t ⟨ht, hk, hd, hkey⟩
    exact ⟨htype, ht, hk, hd, _, by simp [Dinode.lookup, hfind], hkey⟩

/-- What `dirlink` returns and does. -/
def Linked (n : InodeId → ℕ) (L : Finset InodeId) (s : Store) (k : Key) (name : Name)
    (inum : ℕ) : Bool → Store → Prop
  | false, t => (s.disk k).lookup name ≠ none ∧ Counted n L t ∧ Keeps n s t ∧
      Thinned s.disk t.disk
  | true, t => (s.disk k).lookup name = none ∧ Counted n L t ∧ Keeps n s t ∧
      t.disk = Function.update s.disk k ((s.disk k).enter name inum)

theorem dirlink_spec {dp : InodeId} (h : Counted n L s) (hn : 0 < n dp)
    (hv : (s.inode dp).valid) (name : Name) (inum : ℕ) :
    spec (dirlink dp name inum) (fun r t => (s.disk (s.inode dp).key).type = .dir ∧
      Linked n L s (s.inode dp).key name inum r t) s := by
  simp only [spec, dirlink, wpf_bind]
  refine wpf_mono (dirlookup_spec h hn hv name) ?_
  rintro r t ⟨htype, hr⟩
  cases r with
  | none =>
      obtain ⟨rfl, hnone⟩ := hr
      simp only [wpf_bind, wpf_inode]
      refine wpf_ite (fun _ => trivial) fun _ => ?_
      simp only [wpf_bind]
      obtain ⟨hcopy, _⟩ := h.loaded dp hn hv
      rw [hcopy]
      refine spec_amend h hn hv (fun d hd => hd) fun u hu hk hd => ?_
      exact ⟨htype, hnone, hu, hk, hd⟩
  | some x =>
      obtain ⟨ht, hk, hd, inum', hfound, _⟩ := hr
      rw [wpf_bind]
      refine wpf_mono (iput_spec ht) ?_
      rintro _ u ⟨hu, hk', hd'⟩
      exact ⟨htype, by simp [hfound], hu, hk.trans hk', hd ▸ hd'⟩

/-! ### Paths -/

/-- What a path means on the disk, read as the loop of `namex` reads it. -/
def resolve (disk : Key → Dinode) (parent : Bool) : (fuel : ℕ) → Key → Path → Option (Key × Name)
  | 0, k, _ => if parent then none else some (k, [])
  | fuel + 1, k, path =>
      match skipelem path with
      | none => if parent then none else some (k, [])
      | some (name, path) =>
          if (disk k).type ≠ .dir then none
          else if parent ∧ path = [] then some (k, name)
          else
            match (disk k).lookup name with
            | none => none
            | some (inum, _) => resolve disk parent fuel (k.1, inum) path

/-- What `namex` returns and does; `r` is what the path means. -/
def Walked (n : InodeId → ℕ) (s : Store) (r : Option (Key × Name)) :
    Option (InodeId × Name) → Store → Prop
  | none, t => r = none ∧ Counted n ∅ t ∧ Keeps n s t ∧ Thinned s.disk t.disk
  | some (ip, name), t => r = some ((t.inode ip).key, name) ∧ Counted (bump n ip) ∅ t ∧
      Keeps n s t ∧ Thinned s.disk t.disk

theorem Walked.of_step {r : Option (Key × Name)} {x : Option (InodeId × Name)}
    (h : Walked n t r x u) (hk : Keeps n s t) (hd : Thinned s.disk t.disk) : Walked n s r x u := by
  cases x with
  | none =>
      obtain ⟨hr, hc, hk', hd'⟩ := h
      exact ⟨hr, hc, hk.trans hk', hd.trans hd'⟩
  | some x =>
      obtain ⟨hr, hc, hk', hd'⟩ := h
      exact ⟨hr, hc, hk.trans hk', hd.trans hd'⟩

theorem namexEnd_spec (h : Counted (bump n i) ∅ s) (parent : Bool) : spec (namexEnd parent i)
      (Walked n s (if parent then none else some ((s.inode i).key, []))) s := by
  unfold namexEnd
  split
  · rw [spec, wpf_bind]
    exact wpf_mono (iput_spec h) fun _ t ht => ⟨rfl, ht⟩
  · exact ⟨rfl, h, .refl n s, .refl _⟩

/-- The result is what the path means on the disk `d` at the start: inodes
that have been freed since are not on the way. -/
theorem namexLoop_spec {d : Key → Dinode} (parent : Bool) (fuel : ℕ) (path : Path)
    (h : Counted (bump n i) ∅ s) (hd : Thinned d s.disk) : spec (namexLoop parent fuel i path)
      (Walked n s (resolve d parent fuel (s.inode i).key path)) s := by
  induction fuel generalizing i s path with
  | zero => exact namexEnd_spec h parent
  | succ fuel ih =>
      rw [namexLoop, resolve]
      cases skipelem path with
      | none => exact namexEnd_spec h parent
      | some x =>
        obtain ⟨name, path⟩ := x
        simp only [spec, wpf_bind]
        refine wpf_mono (ilock_spec h (bump_pos n i)) ?_
        rintro _ t ⟨ht, hkt, hdt, hval⟩
        obtain ⟨hcopy, hfree⟩ := ht.loaded i (bump_pos n i) hval
        have hkey := hkt.key i (bump_pos n i)
        have hdisk : t.disk (s.inode i).key = d (s.inode i).key := by
          rw [hcopy, hkey, hdt] at hfree
          rw [hdt]
          exact hd.eq_of_type hfree
        have hlock : i ∈ insert i (∅ : Finset InodeId) := Finset.mem_insert_self i ∅
        have herase : (insert i (∅ : Finset InodeId)).erase i = ∅ := by simp
        have hthin : Thinned s.disk t.disk := hdt ▸ .refl _
        rw [wpf_inode, hcopy, hkey, ← hdisk]
        by_cases htype : (t.disk (s.inode i).key).type ≠ .dir
        · rw [if_pos htype, if_pos htype, wpf_bind]
          refine wpf_mono (iunlockput_spec ht hlock) ?_
          rintro _ u ⟨hu, hku, hdu⟩
          exact ⟨rfl, herase ▸ hu, hkt.drop.trans hku, hthin.trans hdu⟩
        rw [if_neg htype, if_neg htype]
        by_cases hlast : parent = true ∧ path = []
        · rw [if_pos hlast, if_pos hlast, wpf_bind]
          refine wpf_mono (iunlock_spec ht (bump_pos n i) hlock) ?_
          rintro _ u ⟨hu, hku, hdu⟩
          refine ⟨?_, herase ▸ hu, (hkt.trans hku).drop, hdu ▸ hthin⟩
          rw [hku.key i (bump_pos n i), hkey]
        rw [if_neg hlast, if_neg hlast, wpf_bind]
        refine wpf_mono (dirlookup_spec ht (bump_pos n i) hval name) ?_
        rintro r u ⟨_, hr⟩
        rw [hkey] at hr
        cases r with
        | none =>
            obtain ⟨rfl, hnone⟩ := hr
            simp only [wpf_bind, hnone]
            refine wpf_mono (iunlockput_spec ht hlock) ?_
            rintro _ v ⟨hv, hkv, hdv⟩
            exact ⟨rfl, herase ▸ hv, hkt.drop.trans hkv, hthin.trans hdv⟩
        | some x =>
            obtain ⟨next, off⟩ := x
            obtain ⟨hu, hku, hdu, inum, hfound, hnext⟩ := hr
            simp only [wpf_bind, hfound]
            rw [bump_comm] at hu
            refine wpf_mono (iunlockput_spec hu hlock) ?_
            rintro _ v ⟨hv, hkv, hdv⟩
            rw [herase] at hv
            have hthin' : Thinned s.disk v.disk := hthin.trans (hdu ▸ hdv)
            rw [← hnext, ← hkv.key next (bump_pos n next)]
            refine wpf_mono (ih path hv (hd.trans hthin')) fun x w hw => ?_
            exact hw.of_step ((hkt.drop.trans hku.drop).trans hkv.drop) hthin'

/-- Where a path starts. -/
def startKey (s : Store) (cwd : Option InodeId) (path : Path) : Key :=
  if path.head? = some '/' then (rootDev, rootIno) else cwd.elim (0, 0) fun i => (s.inode i).key

theorem namex_spec {cwd : Option InodeId} (h : Counted n ∅ s)
    (hcwd : ∃ i, cwd = some i ∧ 0 < n i) (path : Path) (parent : Bool) :
    spec (namex cwd path parent)
      (Walked n s (resolve s.disk parent path.length (startKey s cwd path) path)) s := by
  obtain ⟨i, rfl, hi⟩ := hcwd
  have hloop : ∀ j t, Counted (bump n j) ∅ t → Keeps n s t → t.disk = s.disk →
      (t.inode j).key = startKey s (some i) path →
      wpf Fault.Foreign (namexLoop parent path.length j path)
        (Walked n s (resolve s.disk parent path.length (startKey s (some i) path) path)) t := by
    intro j t ht hk hd hkey
    have hthin : Thinned s.disk t.disk := hd ▸ .refl _
    rw [← hkey]
    exact wpf_mono (namexLoop_spec parent path.length path ht hthin) fun x u hu =>
      hu.of_step hk hthin
  simp only [spec, namex, wpf_bind, namexStart]
  split
  case isTrue hroot =>
    refine wpf_mono (iget_spec h rootDev rootIno) ?_
    rintro j t ⟨ht, hk, hd, hkey⟩
    exact hloop j t ht hk hd (by rw [hkey, startKey, if_pos hroot])
  case isFalse hroot =>
    refine wpf_mono (idup_spec h hi) ?_
    rintro j t ⟨hj, ht, hk, hd⟩
    subst hj
    exact hloop j t ht hk hd (by rw [hk.key j hi, startKey, if_neg hroot]; rfl)

/-- What `namei` returns and does. -/
def Reached (n : InodeId → ℕ) (s : Store) : Option InodeId → Store → Prop
  | none, t => Counted n ∅ t ∧ Keeps n s t ∧ Thinned s.disk t.disk
  | some ip, t => Counted (bump n ip) ∅ t ∧ Keeps n s t ∧ Thinned s.disk t.disk

theorem namei_spec {cwd : Option InodeId} (h : Counted n ∅ s)
    (hcwd : ∃ i, cwd = some i ∧ 0 < n i) (path : Path) : spec (namei cwd path) (Reached n s) s := by
  simp only [spec, namei, wpf_bind]
  refine wpf_mono (namex_spec h hcwd path false) fun r t hr => ?_
  cases r with
  | none => exact hr.2
  | some x => exact hr.2

end Xv6.Fs
