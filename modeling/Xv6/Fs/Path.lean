import Xv6.Fs.Refs

/-!
What a path means, said by its elements.

The elements of a path are its runs of characters other than `/`, each cut
to the length of a name. `namex` takes them off the path one at a time with
`skipelem`, and looks up each before it knows the next. The meaning that the
rules of its loop are stated with follows the loop; here it is compared with
looking up the elements in turn.

The loop holds at most two references at a time, and it locks only inodes
that it has a reference to. It ends if two places in the inode cache are
free and no entry on the way is left over from an inode that is gone.
-/

namespace Xv6.Fs

open Lib Prog

/-! ### The elements of a path -/

/-- The runs of characters other than `/`, cut to the length of a name. -/
def elements (path : Path) : List Name :=
  ((List.splitOnP (· = '/') path).filter (· ≠ [])).map (List.take dirsiz)

theorem elements_nil : elements [] = [] := rfl

theorem elements_slash (path : Path) : elements ('/' :: path) = elements path := by
  simp [elements, List.splitOnP_cons_eq_if_modifyHead]

theorem elements_skip_slashes (path : Path) :
    elements (path.dropWhile (· = '/')) = elements path := by
  induction path with
  | nil => rfl
  | cons c path ih =>
      by_cases hc : c = '/'
      · rw [List.dropWhile_cons_of_pos (by simpa using hc), ih, hc, elements_slash]
      · rw [List.dropWhile_cons_of_neg (by simpa using hc)]

/-- A run comes first, and ends at a slash or at the end of the path. -/
theorem elements_run {run rest : Path} (hne : run ≠ []) (hrun : ∀ c ∈ run, c ≠ '/')
    (hrest : ∀ c ∈ rest.head?, c = '/') :
    elements (run ++ rest) = run.take dirsiz :: elements rest := by
  have hrun' : ∀ c ∈ run, decide (c = '/') = false := fun c hc => decide_eq_false (hrun c hc)
  cases rest with
  | nil => simp [elements, List.splitOnP_eq_singleton hrun', hne]
  | cons c rest =>
      obtain rfl := hrest c rfl
      rw [elements_slash]
      simp [elements, List.splitOnP_append_cons_of_forall_mem hrun', hne]

/-- A path without a slash in front starts with its first element. -/
theorem elements_cons {c : Char} (hc : c ≠ '/') (path : Path) :
    elements (c :: path) = ((c :: path).takeWhile (· ≠ '/')).take dirsiz ::
      elements ((c :: path).dropWhile (· ≠ '/')) := by
  conv_lhs => rw [← List.takeWhile_append_dropWhile (p := (· ≠ '/')) (l := c :: path)]
  refine elements_run ?_ (fun d hd => ?_) fun d hd => ?_
  · simp [hc]
  · simpa using List.mem_takeWhile_imp hd
  · have hnot := List.head?_dropWhile_not (· ≠ '/') (c :: path)
    rw [hd] at hnot
    simpa using hnot

variable {disk : Key → Dinode} {path : Path}

theorem elements_eq_nil_iff (h : ∀ c ∈ path.head?, c ≠ '/') : elements path = [] ↔ path = [] := by
  cases path with
  | nil => exact iff_of_true rfl rfl
  | cons c path =>
      rw [elements_cons (h c rfl)]
      exact iff_of_false (List.cons_ne_nil _ _) (List.cons_ne_nil _ _)

/-- What is left after slashes does not start with one. -/
theorem head_skip_slashes (path : Path) : ∀ c ∈ (path.dropWhile (· = '/')).head?, c ≠ '/' := by
  intro c hc
  have hnot := List.head?_dropWhile_not (· = '/') path
  rw [hc] at hnot
  simpa using hnot

theorem skipelem_eq_none (h : skipelem path = none) : elements path = [] := by
  rw [← elements_skip_slashes]
  rw [skipelem] at h
  split at h
  · next hnil => rw [hnil, elements_nil]
  · cases h

theorem skipelem_eq_some {rest : Path} {name : Name} (h : skipelem path = some (name, rest)) :
    elements path = name :: elements rest ∧ (elements rest = [] ↔ rest = []) ∧
      rest.length < path.length := by
  have hhead := head_skip_slashes path
  have hlen := (List.dropWhile_suffix (l := path) (· = '/')).length_le
  rw [skipelem] at h
  rw [← elements_skip_slashes path]
  cases hpath : path.dropWhile (· = '/') with
  | nil =>
      rw [hpath] at h
      cases h
  | cons c tail =>
      rw [hpath] at h hhead hlen
      obtain ⟨rfl, rfl⟩ := Prod.mk.inj (Option.some.inj h)
      have hc : c ≠ '/' := hhead c rfl
      refine ⟨?_, elements_eq_nil_iff (head_skip_slashes _), ?_⟩
      · rw [elements_cons hc, elements_skip_slashes]
      · calc _ ≤ ((c :: tail).dropWhile (· ≠ '/')).length := (List.dropWhile_suffix _).length_le
          _ = (tail.dropWhile (· ≠ '/')).length := by
              rw [List.dropWhile_cons_of_pos (by simpa using hc)]
          _ ≤ tail.length := (List.dropWhile_suffix _).length_le
          _ < path.length := hlen

/-! ### Looking up the elements in turn -/

/-- The inode that is reached by looking up the names one after the other. -/
def follow (disk : Key → Dinode) : Key → List Name → Option Key
  | k, [] => some k
  | k, name :: names =>
      if (disk k).type ≠ .dir then none
      else ((disk k).lookup name).bind fun x => follow disk (k.1, x.1) names

/-- The directory of the last name, and that name. -/
def followParent (disk : Key → Dinode) (k : Key) (names : List Name) : Option (Key × Name) :=
  names.getLast?.bind fun name => (follow disk k names.dropLast).bind fun k' =>
    if (disk k').type = .dir then some (k', name) else none

theorem resolve_eq_follow {fuel : ℕ} {k : Key} (hfuel : path.length ≤ fuel) :
    resolve disk false fuel k path = (follow disk k (elements path)).map (·, []) := by
  induction fuel generalizing k path with
  | zero =>
      obtain rfl := List.length_eq_zero_iff.mp (Nat.le_zero.mp hfuel)
      rfl
  | succ fuel ih =>
      rw [resolve]
      cases hskip : skipelem path with
      | none =>
          rw [skipelem_eq_none hskip]
          rfl
      | some x =>
          obtain ⟨name, rest⟩ := x
          obtain ⟨heq, -, hlt⟩ := skipelem_eq_some hskip
          simp only [heq, follow, Bool.false_eq_true, false_and, if_false]
          split_ifs
          · rfl
          · cases (disk k).lookup name with
            | none => rfl
            | some y => exact ih (by omega)

theorem followParent_cons {k : Key} {name : Name} {names : List Name} (hne : names ≠ []) :
    followParent disk k (name :: names) = if (disk k).type ≠ .dir then none
      else ((disk k).lookup name).bind fun x => followParent disk (k.1, x.1) names := by
  simp only [followParent, List.getLast?_cons_of_ne_nil hne, List.dropLast_cons_of_ne_nil hne, follow]
  split_ifs
  · cases names.getLast? <;> rfl
  · cases (disk k).lookup name with
    | none => cases names.getLast? <;> rfl
    | some y => rfl

theorem resolve_eq_followParent {fuel : ℕ} {k : Key} (hfuel : path.length ≤ fuel) :
    resolve disk true fuel k path = followParent disk k (elements path) := by
  induction fuel generalizing k path with
  | zero =>
      obtain rfl := List.length_eq_zero_iff.mp (Nat.le_zero.mp hfuel)
      rfl
  | succ fuel ih =>
      rw [resolve]
      cases hskip : skipelem path with
      | none =>
          rw [skipelem_eq_none hskip]
          rfl
      | some x =>
          obtain ⟨name, rest⟩ := x
          obtain ⟨heq, hnil, hlt⟩ := skipelem_eq_some hskip
          simp only [heq, true_and]
          by_cases hlast : rest = []
          · rw [hnil.mpr hlast, if_pos hlast]
            simp [followParent, follow]
          · rw [followParent_cons fun h => hlast (hnil.mp h), if_neg hlast]
            split_ifs
            · rfl
            · cases (disk k).lookup name with
              | none => rfl
              | some y => exact ih (by omega)

/-- Looking up the names fails where an inode on the way is no directory or
has no entry of that name. -/
theorem follow_eq_none_iff {k : Key} {names : List Name} :
    follow disk k names = none ↔ ∃ before name after k', names = before ++ name :: after ∧
      follow disk k before = some k' ∧ ((disk k').type ≠ .dir ∨ (disk k').lookup name = none) := by
  induction names generalizing k with
  | nil => simp [follow]
  | cons name names ih =>
      constructor
      · intro h
        by_cases htype : (disk k).type ≠ .dir
        · exact ⟨[], name, names, k, rfl, rfl, .inl htype⟩
        rw [follow, if_neg htype] at h
        cases hfound : (disk k).lookup name with
        | none => exact ⟨[], name, names, k, rfl, rfl, .inr hfound⟩
        | some y =>
            rw [hfound, Option.bind_some] at h
            obtain ⟨before, name', after, k', rfl, hk', hfail⟩ := ih.mp h
            refine ⟨name :: before, name', after, k', rfl, ?_, hfail⟩
            rw [follow, if_neg htype, hfound]
            exact hk'
      · rintro ⟨before, name', after, k', heq, hk', hfail⟩
        rw [follow]
        split_ifs with htype
        · rfl
        cases before with
        | nil =>
            obtain ⟨rfl, rfl⟩ := List.cons.inj heq
            cases hk'
            rw [hfail.resolve_left htype]
            rfl
        | cons name'' before =>
            obtain ⟨rfl, rfl⟩ := List.cons.inj heq
            rw [follow, if_neg htype] at hk'
            cases hfound : (disk k).lookup name with
            | none => rfl
            | some y =>
                rw [hfound] at hk'
                exact ih.mpr ⟨before, name', after, k', rfl, hk', hfail⟩

theorem Dinode.mem_of_lookup {d : Dinode} {name : Name} {x : ℕ × ℕ} (h : d.lookup name = some x) :
    ∃ de, d.data[x.2]? = some de ∧ de.inum = x.1 ∧ de.inum ≠ 0 ∧ de.name = name := by
  obtain ⟨off, hoff, rfl⟩ := Option.map_eq_some_iff.mp h
  obtain ⟨hlt, hnamed, -⟩ := List.findIdx?_eq_some_iff_getElem.mp hoff
  rw [Dirent.named, decide_eq_true_eq] at hnamed
  exact ⟨d.data[off], List.getElem?_eq_getElem hlt, by simp [hlt], hnamed⟩

/-! ### Calls that end -/

variable {n : InodeId → ℕ} {L : Finset InodeId} {s t u : Store} {i j : InodeId} {k : Key}

theorem iget_ends (dev inum : ℕ) (hroom : ∃ j, (s.inode j).ref = 0) :
    ∃ i t, iget dev inum s = .ok i t := by
  obtain ⟨j, hj⟩ := hroom
  cases hold : s.find fun r => 0 < r.ref ∧ r.dev = dev ∧ r.inum = inum with
  | some i => exact ⟨i, _, by simp only [iget, bind, Prog.bind, Prog.get, hold]; rfl⟩
  | none =>
      cases hfree : s.find fun r => r.ref = 0 with
      | some i => exact ⟨i, _, by simp only [iget, bind, Prog.bind, Prog.get, hold, hfree]; rfl⟩
      | none => exact absurd (by simpa using hj) (find_eq_none hfree j)

theorem ilock_ends (h : Counted n L s) (hn : 0 < n i) (hi : i ∉ L)
    (htype : (s.disk (s.inode i).key).type ≠ .free) : ∃ t, ilock i s = .ok () t := by
  have href : ¬ (s.inode i).ref < 1 := by
    rw [h.ref i]
    omega
  have hlock : (s.inode i).lock = false := by
    rw [← Bool.not_eq_true, h.lock i]
    exact hi
  simp only [ilock, inode, bind, Prog.bind, if_neg href, hlock, Bool.false_eq_true, if_false]
  cases (s.inode i).valid with
  | true => exact ⟨_, rfl⟩
  | false =>
      simp only [Bool.false_eq_true, if_false, Prog.bind, Prog.get, setInode, Prog.modify,
        if_neg htype]
      exact ⟨_, rfl⟩

theorem iunlock_ends (h : Counted n L s) (hn : 0 < n i) (hi : i ∈ L) :
    ∃ t, iunlock i s = .ok () t := by
  have hlock := (h.lock i).mpr hi
  have href : ¬ (s.inode i).ref < 1 := by
    rw [h.ref i]
    omega
  simp only [iunlock, inode, bind, Prog.bind, hlock, Bool.not_true, Bool.false_eq_true, false_or,
    if_neg href]
  exact ⟨_, rfl⟩

theorem iput_ends (h : Counted n L s) (hi : i ∉ L) : ∃ t, iput i s = .ok () t := by
  have hlock : (s.inode i).lock = false := by
    rw [← Bool.not_eq_true, h.lock i]
    exact hi
  simp only [iput, inode, bind, Prog.bind]
  split_ifs
  · simp only [ifree, inode, bind, Prog.bind, hlock, Bool.false_eq_true, if_false]
    exact ⟨_, rfl⟩
  · exact ⟨_, rfl⟩

theorem iunlockput_ends (h : Counted n L s) (hn : 0 < n i) (hi : i ∈ L) :
    ∃ t, iunlockput i s = .ok () t := by
  obtain ⟨t, ht⟩ := iunlock_ends h hn hi
  obtain ⟨hcount, -, -⟩ := of_wpf (iunlock_spec h hn hi) ht
  obtain ⟨u, hu⟩ := iput_ends hcount (Finset.notMem_erase i L)
  exact ⟨u, (bind_eq ht).trans hu⟩

theorem dirlookup_ends (htype : (s.inode i).copy.type = .dir) (name : Name)
    (hroom : ∃ j, (s.inode j).ref = 0) : ∃ r t, dirlookup i name s = .ok r t := by
  simp only [dirlookup, inode, bind, Prog.bind, htype, ne_eq, not_true_eq_false, if_false]
  cases (s.inode i).copy.data.findIdx? (Dirent.named name) with
  | none => exact ⟨_, _, rfl⟩
  | some off =>
      obtain ⟨ip, t, ht⟩ := iget_ends (s.inode i).dev ((s.inode i).copy.data[off]?.elim 0 Dirent.inum)
        hroom
      exact ⟨_, _, bind_eq ht⟩

/-- An inode without links that nobody holds. -/
def Loose (n : InodeId → ℕ) (s : Store) (k : Key) : Prop :=
  (s.disk k).type ≠ .free ∧ (s.disk k).nlink = 0 ∧ ∀ j, 0 < n j → (s.inode j).key ≠ k

/-- Only an inode without links that nobody holds is freed. -/
theorem iput_disk (h : Counted (bump n i) L s) :
    spec (iput i) (fun _ t => ∀ k, t.disk k = s.disk k ∨ Loose n s k) s := by
  have href := h.ref i
  rw [bump_self] at href
  simp only [spec, iput, wpf_bind, wpf_inode]
  refine wpf_ite (fun hfree => ?_) fun _ => ?_
  · obtain ⟨hone, hvalid, hnlink⟩ := hfree
    have hzero : n i = 0 := by omega
    obtain ⟨hcopy, htype⟩ := h.loaded i (bump_pos n i) hvalid
    rw [wpf_bind]
    refine wpf_ifree trivial fun _ => ?_
    simp only [wpf_bind, wpf_inode, wpf_setInode]
    intro k
    by_cases hk : k = (s.inode i).key
    · rw [hcopy, ← hk] at htype hnlink
      refine .inr ⟨htype, hnlink, fun j hj he => ?_⟩
      have := h.unique j i (hj.trans_le (le_bump n i j)) (bump_pos n i) (he.trans hk)
      subst this
      omega
    · exact .inl (Function.update_of_ne hk _ _)
  · simp only [wpf_bind, wpf_inode, wpf_setInode]
    exact fun k => .inl rfl

theorem iunlockput_disk (h : Counted (bump n i) L s) (hi : i ∈ L) :
    spec (iunlockput i) (fun _ t => ∀ k, t.disk k = s.disk k ∨ Loose n s k) s := by
  simp only [spec, iunlockput, wpf_bind]
  refine wpf_mono (iunlock_spec h (bump_pos n i) hi) fun _ t ⟨ht, hk, hd⟩ => ?_
  refine wpf_mono (iput_disk ht) fun _ u hu k => ?_
  rw [← hd]
  refine (hu k).imp id fun ⟨htype, hnlink, hother⟩ => ⟨hd ▸ htype, hd ▸ hnlink, fun j hj => ?_⟩
  rw [← hk.key j (hj.trans_le (le_bump n i j))]
  exact hother j hj

/-- Giving back an inode frees it if it has no links and nobody else holds
it. -/
theorem iput_settles (h : Counted (bump n i) L s) (hv : (s.inode i).valid) :
    spec (iput i) (fun _ t => ¬ Loose n t (s.inode i).key) s := by
  have href := h.ref i
  rw [bump_self] at href
  obtain ⟨hcopy, -⟩ := h.loaded i (bump_pos n i) hv
  simp only [spec, iput, wpf_bind, wpf_inode]
  refine wpf_ite (fun _ => ?_) fun hkeep => ?_
  · rw [wpf_bind]
    refine wpf_ifree trivial fun _ => ?_
    simp only [wpf_bind, wpf_inode, wpf_setInode]
    exact fun hleft => hleft.1 (by simp [Dinode.freed])
  · simp only [wpf_bind, wpf_inode, wpf_setInode]
    rintro ⟨-, hnlink, hother⟩
    have hzero : n i = 0 := by
      by_contra hpos
      exact hother i (Nat.pos_of_ne_zero hpos) (by simp [Inode.key])
    exact hkeep ⟨by omega, hv, by rw [hcopy]; exact hnlink⟩

theorem iunlockput_settles (h : Counted (bump n i) L s) (hi : i ∈ L) (hv : (s.inode i).valid) :
    spec (iunlockput i) (fun _ t => ¬ Loose n t (s.inode i).key) s := by
  simp only [spec, iunlockput, wpf_bind]
  refine wpf_mono (iunlock_spec h (bump_pos n i) hi) fun _ t ⟨ht, hk, _⟩ => ?_
  rw [← hk.key i (bump_pos n i)]
  exact iput_settles ht (hk.valid i (bump_pos n i) hv)

/-- So many places of the inode cache are free. -/
def Room (free : ℕ) (n : InodeId → ℕ) : Prop :=
  ∃ F : Finset InodeId, free ≤ F.card ∧ ∀ i ∈ F, n i = 0

theorem Room.mono {free free' : ℕ} (h : Room free n) (hle : free' ≤ free) : Room free' n := by
  obtain ⟨F, hcard, hfree⟩ := h
  exact ⟨F, hle.trans hcard, hfree⟩

theorem Room.bump {free : ℕ} (h : Room (free + 1) n) (i : InodeId) : Room free (bump n i) := by
  obtain ⟨F, hcard, hfree⟩ := h
  refine ⟨F.erase i, ?_, fun j hj => ?_⟩
  · have := Finset.pred_card_le_card_erase (s := F) (a := i)
    omega
  · rw [bump_of_ne n (Finset.ne_of_mem_erase hj)]
    exact hfree j (Finset.mem_of_mem_erase hj)

theorem Room.exists_free {free : ℕ} (hroom : Room (free + 1) n) (h : Counted n L s) :
    ∃ j, (s.inode j).ref = 0 := by
  obtain ⟨F, hcard, hfree⟩ := hroom
  obtain ⟨j, hj⟩ := Finset.card_pos.mp (Nat.zero_lt_of_lt hcard)
  refine ⟨j, ?_⟩
  rw [h.ref j, hfree j hj]
  rfl

/-- An inode that is there, and that a walk does not free. -/
def Present (n : InodeId → ℕ) (s : Store) (k : Key) : Prop :=
  (s.disk k).type ≠ .free ∧ ¬ Loose n s k

/-- The entries of directories name inodes that are there. -/
def Intact (n : InodeId → ℕ) (s : Store) : Prop :=
  ∀ k name x, (s.disk k).type = .dir → (s.disk k).lookup name = some x → Present n s (k.1, x.1)

/-- How the state may have changed since the start of a walk. -/
structure Walking (n : InodeId → ℕ) (s t : Store) : Prop where
  keeps : Keeps n s t
  disk : ∀ k, t.disk k = s.disk k ∨ Loose n s k

namespace Walking

theorem refl (n : InodeId → ℕ) (s : Store) : Walking n s s := ⟨.refl n s, fun _ => .inl rfl⟩

theorem trans (h : Walking n s t) (h' : Walking n t u) : Walking n s u := by
  refine ⟨h.keeps.trans h'.keeps, fun k => ?_⟩
  obtain heq | hloose := h.disk k
  · refine (h'.disk k).imp (·.trans heq) fun ⟨htype, hnlink, hother⟩ => ?_
    rw [heq] at htype hnlink
    exact ⟨htype, hnlink, fun j hj => h.keeps.key j hj ▸ hother j hj⟩
  · exact .inr hloose

theorem of_keeps (hk : Keeps n s t) (hd : t.disk = s.disk) : Walking n s t :=
  ⟨hk, fun k => .inl (by rw [hd])⟩

end Walking

theorem namexEnd_ends (parent : Bool) (h : Counted (bump n i) ∅ s) :
    ∃ r t, namexEnd parent i s = .ok r t ∧ Walking n s t := by
  cases parent with
  | false => exact ⟨_, _, rfl, .refl n s⟩
  | true =>
      obtain ⟨t, ht⟩ := iput_ends h (Finset.notMem_empty i)
      obtain ⟨-, hk, -⟩ := of_wpf (iput_spec h) ht
      exact ⟨none, t, (bind_eq ht).trans rfl, hk, of_wpf (iput_disk h) ht⟩

/-- The rest of a round, when the inode is given back. -/
theorem putLocked_ends (h : Counted (bump n i) {i} s) :
    ∃ t, iunlockput i s = .ok () t ∧ Walking n s t := by
  have hi : i ∈ ({i} : Finset InodeId) := Finset.mem_singleton_self i
  obtain ⟨t, ht⟩ := iunlockput_ends h (bump_pos n i) hi
  obtain ⟨-, hk, -⟩ := of_wpf (iunlockput_spec h hi) ht
  exact ⟨t, ht, hk, of_wpf (iunlockput_disk h hi) ht⟩

theorem namexLoop_ends (hintact : Intact n s) (hroom : Room 2 n) (parent : Bool) (fuel : ℕ)
    (path : Path) (h : Counted (bump n i) ∅ t) (hwalk : Walking n s t)
    (hi : Present n s (t.inode i).key) :
    ∃ r u, namexLoop parent fuel i path t = .ok r u ∧ Walking n s u := by
  induction fuel generalizing i t path with
  | zero =>
      obtain ⟨r, u, hend, hu⟩ := namexEnd_ends parent h
      exact ⟨r, u, hend, hwalk.trans hu⟩
  | succ fuel ih =>
      rw [namexLoop]
      cases skipelem path with
      | none =>
          obtain ⟨r, u, hend, hu⟩ := namexEnd_ends parent h
          exact ⟨r, u, hend, hwalk.trans hu⟩
      | some x =>
        obtain ⟨name, path⟩ := x
        have hdisk : t.disk (t.inode i).key = s.disk (t.inode i).key :=
          (hwalk.disk _).resolve_right hi.2
        obtain ⟨t₁, hlock⟩ := ilock_ends h (bump_pos n i) (Finset.notMem_empty i)
          (by rw [hdisk]; exact hi.1)
        obtain ⟨h₁, hk₁, hd₁, hvalid⟩ := of_wpf (ilock_spec h (bump_pos n i)) hlock
        rw [insert_empty_eq] at h₁
        obtain ⟨hcopy, -⟩ := h₁.loaded i (bump_pos n i) hvalid
        have hkey := hk₁.key i (bump_pos n i)
        have hmem : i ∈ ({i} : Finset InodeId) := Finset.mem_singleton_self i
        have hwalk₁ : Walking n s t₁ := hwalk.trans (.of_keeps hk₁.drop hd₁)
        obtain ⟨t₂, hput, hwalk₂⟩ := putLocked_ends h₁
        simp only [bind_eq hlock]
        change ∃ r u, (if (t₁.inode i).copy.type ≠ .dir then _ else _ : FsM _) t₁ = .ok r u ∧ _
        split_ifs with htype hlast
        · exact ⟨none, t₂, (bind_eq hput).trans rfl, hwalk₁.trans hwalk₂⟩
        · obtain ⟨t₃, hunlock⟩ := iunlock_ends h₁ (bump_pos n i) hmem
          obtain ⟨-, hk₃, hd₃⟩ := of_wpf (iunlock_spec h₁ (bump_pos n i) hmem) hunlock
          exact ⟨some (i, name), t₃, (bind_eq hunlock).trans rfl,
            hwalk₁.trans (.of_keeps hk₃.drop hd₃)⟩
        · rw [not_not] at htype
          obtain ⟨found, t₄, hfind⟩ := dirlookup_ends htype name ((hroom.bump i).exists_free h₁)
          obtain ⟨-, hlook⟩ := of_wpf (dirlookup_spec h₁ (bump_pos n i) hvalid name) hfind
          rw [bind_eq hfind]
          cases found with
          | none =>
              obtain ⟨rfl, -⟩ := hlook
              exact ⟨none, t₂, (bind_eq hput).trans rfl, hwalk₁.trans hwalk₂⟩
          | some x =>
              obtain ⟨next, off⟩ := x
              obtain ⟨h₄, hk₄, hd₄, inum, hfound, hnext⟩ := hlook
              rw [bump_comm] at h₄
              obtain ⟨t₅, hput'⟩ := iunlockput_ends h₄ (bump_pos (bump n next) i) hmem
              obtain ⟨h₅, hk₅, -⟩ := of_wpf (iunlockput_spec h₄ hmem) hput'
              have hloose := of_wpf (iunlockput_disk h₄ hmem) hput'
              have hwalk₅ : Walking n s t₅ := by
                refine (hwalk₁.trans (.of_keeps hk₄.drop hd₄)).trans ⟨hk₅.drop, fun k => ?_⟩
                refine (hloose k).imp id ?_
                rintro ⟨hfree, hnlink, hother⟩
                exact ⟨hfree, hnlink, fun j hj => hother j (hj.trans_le (le_bump n next j))⟩
              have hpresent : Present n s (t₅.inode next).key := by
                rw [hk₅.key next (bump_pos n next), hnext]
                rw [hcopy, hkey, hd₁, hdisk] at htype
                rw [hkey, hd₁, hdisk] at hfound
                rw [hkey]
                exact hintact _ name (inum, off) htype hfound
              rw [Finset.erase_singleton] at h₅
              obtain ⟨r, u, hrest, hu⟩ := ih path h₅ hwalk₅ hpresent
              exact ⟨r, u, (bind_eq hput').trans hrest, hu⟩

theorem namex_ends {cwd : Option InodeId} (h : Counted n ∅ s) (hcwd : ∃ i, cwd = some i ∧ 0 < n i)
    (hintact : Intact n s) (hroom : Room 2 n) (path : Path)
    (hstart : Present n s (startKey s cwd path)) (parent : Bool) :
    ∃ r t, namex cwd path parent s = .ok r t ∧ Walking n s t := by
  obtain ⟨i, rfl, hi⟩ := hcwd
  have hbegin : ∃ j t, namexStart (some i) path s = .ok j t ∧ Counted (bump n j) ∅ t ∧
      Keeps n s t ∧ t.disk = s.disk ∧ (t.inode j).key = startKey s (some i) path := by
    rw [namexStart, startKey]
    split_ifs
    · obtain ⟨j, t, ht⟩ := iget_ends rootDev rootIno (hroom.exists_free h)
      have hspec := of_wpf (iget_spec h rootDev rootIno) ht
      exact ⟨j, t, ht, hspec⟩
    · obtain ⟨j, t, ht⟩ : ∃ j t, idup i s = .ok j t := ⟨_, _, rfl⟩
      obtain ⟨rfl, hc, hk, hd⟩ := of_wpf (idup_spec h hi) ht
      exact ⟨j, t, ht, hc, hk, hd, hk.key j hi⟩
  obtain ⟨j, t, hbegin, hc, hk, hd, hkey⟩ := hbegin
  obtain ⟨r, u, hrest, hu⟩ := namexLoop_ends hintact hroom parent path.length path hc
    (.of_keeps hk hd) (by rw [hkey]; exact hstart)
  exact ⟨r, u, (bind_eq hbegin).trans hrest, hu⟩

/-! ### The calls -/

/-- `namei` and `nameiparent` follow the elements of the path, and they return
if the inode cache has room and the entries name inodes that are there. -/
theorem path_followed {cwd : Option InodeId} (h : Counted n ∅ s)
    (hcwd : ∃ i, cwd = some i ∧ 0 < n i) (path : Path) :
    (∀ r t, namei cwd path s = .ok r t →
      r.map (fun ip => (t.inode ip).key) =
          follow s.disk (startKey s cwd path) (elements path) ∧
        (r = none ↔ ∃ before name after k, elements path = before ++ name :: after ∧
          follow s.disk (startKey s cwd path) before = some k ∧
            ((s.disk k).type ≠ .dir ∨ (s.disk k).lookup name = none))) ∧
    (∀ r t, nameiparent cwd path s = .ok r t →
      r.map (fun x => ((t.inode x.1).key, x.2)) =
        followParent s.disk (startKey s cwd path) (elements path)) ∧
    (Room 2 n → Intact n s → Present n s (startKey s cwd path) →
      (∃ r t, namei cwd path s = .ok r t) ∧ ∃ r t, nameiparent cwd path s = .ok r t) := by
  have hname : ∀ r t, namei cwd path s = .ok r t → r.map (fun ip => (t.inode ip).key) =
      follow s.disk (startKey s cwd path) (elements path) := by
    intro r t hrun
    obtain ⟨x, t', hrun, hpure⟩ := exists_of_bind hrun
    cases hpure
    have hwalked := of_wpf (namex_spec h hcwd path false) hrun
    rw [resolve_eq_follow le_rfl] at hwalked
    cases x with
    | none => exact (Option.map_eq_none_iff.mp hwalked.1).symm
    | some x =>
        obtain ⟨k, hk, heq⟩ := Option.map_eq_some_iff.mp hwalked.1
        rw [hk, (Prod.mk.inj heq).1]
        rfl
  refine ⟨fun r t hrun => ⟨hname r t hrun, ?_⟩, fun r t hrun => ?_, fun hroom hintact hstart => ⟨?_, ?_⟩⟩
  · rw [← follow_eq_none_iff, ← hname r t hrun, Option.map_eq_none_iff]
  · have hwalked := of_wpf (namex_spec h hcwd path true) hrun
    rw [resolve_eq_followParent le_rfl] at hwalked
    cases r with
    | none => exact hwalked.1.symm
    | some x => exact hwalked.1.symm
  · obtain ⟨x, t, hrun, -⟩ := namex_ends h hcwd hintact hroom path hstart false
    exact ⟨_, _, bind_eq hrun⟩
  · obtain ⟨x, t, hrun, -⟩ := namex_ends h hcwd hintact hroom path hstart true
    exact ⟨x, t, hrun⟩

/-- The root holds a directory `a` with a file `bb`, and is referenced once. -/
def twoLevels : Store where
  inode := fun i => if i = 0 then { dev := rootDev, inum := rootIno, ref := 1 } else {}
  disk := fun k =>
    if k = (rootDev, rootIno) then
      { type := .dir, nlink := 1, data := [⟨1, ['.']⟩, ⟨1, ['.', '.']⟩, ⟨2, ['a']⟩] }
    else if k = (rootDev, 2) then
      { type := .dir, nlink := 1, data := [⟨2, ['.']⟩, ⟨1, ['.', '.']⟩, ⟨3, ['b', 'b']⟩] }
    else if k = (rootDev, 3) then { type := .file, nlink := 1 }
    else {}

theorem counted_twoLevels : Counted (bump (fun _ => 0) 0) ∅ twoLevels where
  ref := fun i => by
    by_cases hi : i = 0 <;> simp [twoLevels, hi, bump_of_ne]
  unique := fun i j hi hj _ => by
    have hzero : ∀ i : InodeId, 0 < bump (fun _ => 0) 0 i → i = 0 := by
      intro i hi
      by_contra hne
      rw [bump_of_ne _ hne] at hi
      exact lt_irrefl 0 hi
    rw [hzero i hi, hzero j hj]
  lock := fun i => by
    by_cases hi : i = 0 <;> simp [twoLevels, hi]
  loaded := fun i _ hv => by
    by_cases hi : i = 0 <;> simp [twoLevels, hi] at hv

theorem intact_twoLevels : Intact (bump (fun _ => 0) 0) twoLevels := by
  have hlinks : ∀ inum ∈ [1, 2, 3], (twoLevels.disk (rootDev, inum)).type ≠ .free ∧
      (twoLevels.disk (rootDev, inum)).nlink ≠ 0 := by decide
  have hnames : ∀ inum ∈ [1, 2], ∀ de ∈ (twoLevels.disk (rootDev, inum)).data,
      de.inum ∈ [1, 2, 3] := by decide
  intro k name x htype hfound
  obtain ⟨de, hde, hinum, -⟩ := Dinode.mem_of_lookup hfound
  have hdir : ∃ inum ∈ [1, 2], k = (rootDev, inum) := by
    by_contra hne
    have hroot : k ≠ (rootDev, rootIno) := fun h => hne ⟨1, by decide, h⟩
    have ha : k ≠ (rootDev, 2) := fun h => hne ⟨2, by decide, h⟩
    simp only [twoLevels, if_neg hroot, if_neg ha] at htype
    split at htype <;> cases htype
  obtain ⟨inum, hmem, rfl⟩ := hdir
  have hlink := hlinks de.inum (hnames inum hmem de (List.mem_of_getElem? hde))
  rw [hinum] at hlink
  exact ⟨hlink.1, fun hloose => hlink.2 hloose.2.1⟩

theorem path_followed_slashes :
    elements ['/', '/', 'a', '/', '/', 'b', 'b', '/'] = [['a'], ['b', 'b']] ∧
    (∃ r t, namei (some 0) ['/', '/', 'a', '/', '/', 'b', 'b', '/'] twoLevels = .ok r t ∧
      r.map (fun ip => (t.inode ip).key) = some (rootDev, 3)) ∧
    ∃ r t, nameiparent (some 0) ['/', '/', 'a', '/', '/', 'b', 'b', '/'] twoLevels = .ok r t ∧
      r.map (fun x => ((t.inode x.1).key, x.2)) = some ((rootDev, 2), ['b', 'b']) := by
  obtain ⟨hname, hparent, hends⟩ := path_followed counted_twoLevels ⟨0, rfl, bump_pos _ 0⟩
    ['/', '/', 'a', '/', '/', 'b', 'b', '/']
  obtain ⟨⟨r, t, hrun⟩, r', t', hrun'⟩ := hends ⟨{1, 2}, by decide, by decide⟩
    intact_twoLevels ⟨by decide, fun hloose => absurd hloose.2.1 (by decide)⟩
  refine ⟨by decide, ⟨r, t, hrun, ?_⟩, r', t', hrun', ?_⟩
  · exact (hname r t hrun).1.trans (by decide)
  · exact (hparent r' t' hrun').trans (by decide)

end Xv6.Fs
