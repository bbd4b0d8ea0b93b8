import Xv6.Lib.Ring
import Xv6.Lib.Runs
import Xv6.Virtio.System

/-!
The descriptors of the disk.

A request has three descriptors from the time it is published until its
process frees them, and its first descriptor goes through three queues: the
ring `avail`, the chains that the device has taken, and the ring `used`. With
eight descriptors there are at most two requests at a time, so both rings have
room and comparing their indices modulo `NUM` tells whether a completion is
left.

Each buffer has at most one request, as the callers hold `b->lock`. So the
completion of a request clears the flag its own process waits for.
-/

set_option linter.unusedSectionVars false

namespace Xv6.Virtio

open Lib Lib.Prog

variable {P B : Type} [DecidableEq P] [DecidableEq B] {s t : State P B} {p q : P} {b : B}

/-! ### Allocating descriptors -/

theorem allocDesc_spec : wp allocDesc (fun r t => match r with
      | none => t = s | some i => i < num ∧ s.free i = true ∧ t = s.mark i) s := by
  simp only [allocDesc, wp_bind, wp_get]
  split
  case h_1 i hfind =>
    have hmem := List.mem_of_find?_eq_some hfind
    exact ⟨List.mem_range.mp hmem, List.find?_some hfind, rfl⟩
  case h_2 => rfl

variable {idx : ℕ × ℕ × ℕ} {i : ℕ}

theorem freeDesc_spec (hi : i < num) (hfree : s.free i = false) :
    wp (freeDesc i) (fun _ t => t = s.freeDesc i) s := by
  simp only [freeDesc, wp_bind, wp_get]
  rw [if_neg (by omega), hfree]
  rfl

/-- Nothing but what free descriptors point to and who sleeps changes. -/
def Retry (s t : State P B) : Prop :=
  ∃ desc sleeping, t = { s with desc, sleeping } ∧ ∀ i, s.free i = false → desc i = s.desc i

theorem Retry.free (h : Retry s t) : t.free = s.free := by
  obtain ⟨_, _, rfl, _⟩ := h
  rfl

/-- A descriptor is given back. -/
theorem Retry.freeDesc (h : Retry (s.mark i) t) (hi : s.free i = true) :
    Retry s (t.freeDesc i) := by
  obtain ⟨desc, sleeping, rfl, hdesc⟩ := h
  have hfree : Function.update (s.mark i).free i true = s.free := by
    rw [State.mark, Function.update_idem, ← hi, Function.update_eq_self]
  refine ⟨Function.update desc i { desc i with addr := .null },
    ({ s with sleeping }.wakeup .free).sleeping, ?_, fun j hj => ?_⟩
  · simp only [State.freeDesc, State.wakeup, hfree]
    rfl
  · have hji : j ≠ i := by
      rintro rfl
      simp [hi] at hj
    rw [Function.update_of_ne hji]
    exact hdesc j (by simpa [State.mark, hji] using hj)

theorem mark_comm {j : ℕ} : (s.mark i).mark j = (s.mark j).mark i := by
  by_cases hij : i = j
  · rw [hij]
  · simp only [State.mark]
    rw [Function.update_comm hij]

/-- Three different descriptors that were free are taken, or the free
descriptors are what they were. -/
theorem alloc3Desc_spec : wp alloc3Desc (fun r t => match r with
      | none => Retry s t
      | some (i0, i1, i2) => (i0 < num ∧ i1 < num ∧ i2 < num) ∧ (i1 ≠ i0 ∧ i2 ≠ i0 ∧ i2 ≠ i1) ∧
          (s.free i0 = true ∧ s.free i1 = true ∧ s.free i2 = true) ∧
          t = ((s.mark i0).mark i1).mark i2) s := by
  have hrefl : ∀ s : State P B, Retry s s := fun s => ⟨_, _, rfl, fun _ _ => rfl⟩
  have hmark : ∀ {s : State P B} {i j : ℕ}, (s.mark i).free j = true → j ≠ i ∧ s.free j = true := by
    intro s i j h
    have hne : j ≠ i := by
      rintro rfl
      simp [State.mark] at h
    exact ⟨hne, by simpa [State.mark, hne] using h⟩
  simp only [alloc3Desc, wp_bind]
  refine wp_mono allocDesc_spec fun r t ht => ?_
  cases r with
  | none =>
      obtain rfl := ht
      exact hrefl t
  | some i0 =>
      obtain ⟨h0, hf0, rfl⟩ := ht
      rw [wp_bind]
      refine wp_mono allocDesc_spec fun r t ht => ?_
      cases r with
      | none =>
          obtain rfl := ht
          rw [wp_bind]
          refine wp_mono (freeDesc_spec h0 (by simp [State.mark])) fun _ u hu => ?_
          subst hu
          exact (hrefl _).freeDesc hf0
      | some i1 =>
          obtain ⟨h1, hf1, rfl⟩ := ht
          obtain ⟨hne, hf1⟩ := hmark hf1
          rw [wp_bind]
          refine wp_mono allocDesc_spec fun r t ht => ?_
          cases r with
          | none =>
              obtain rfl := ht
              simp only [wp_bind]
              refine wp_mono (freeDesc_spec h0 (by simp [State.mark, Ne.symm hne])) fun _ u hu => ?_
              subst hu
              have hf1' : (((s.mark i0).mark i1).freeDesc i0).free i1 = false := by
                simp [State.freeDesc, State.wakeup, State.mark, hne]
              refine wp_mono (freeDesc_spec h1 hf1') fun _ u hu => ?_
              subst hu
              rw [mark_comm]
              refine ((hrefl _).freeDesc ?_).freeDesc hf1
              simpa [State.mark, Ne.symm hne] using hf0
          | some i2 =>
              obtain ⟨h2, hf2, rfl⟩ := ht
              obtain ⟨hne1, hf2⟩ := hmark hf2
              obtain ⟨hne0, hf2⟩ := hmark hf2
              exact ⟨⟨h0, h1, h2⟩, ⟨hne, hne0, hne1⟩, ⟨hf0, hf1, hf2⟩, rfl⟩

/-! ### The invariant -/

/-- The buffer and the descriptors of the request that a process has
published. -/
def Pc.flight : Pc B → Option (B × ℕ × ℕ × ℕ)
  | .wait b idx | .waitAcquire b idx => some (b, idx)
  | .idle | .enter _ _ | .alloc _ _ => none

/-- The buffer that a process has called `virtio_disk_rw` for. -/
def Pc.buf : Pc B → Option B
  | .enter b _ | .alloc b _ | .wait b _ | .waitAcquire b _ => some b
  | .idle => none

def members (idx : ℕ × ℕ × ℕ) : List ℕ := [idx.1, idx.2.1, idx.2.2]

/-- The three descriptors of a request. -/
structure Chain (s : State P B) (b : B) (idx : ℕ × ℕ × ℕ) : Prop where
  lt : ∀ i ∈ members idx, i < num
  nodup : (members idx).Nodup
  used : ∀ i ∈ members idx, s.free i = false
  first : (s.desc idx.1).hasNext = true ∧ (s.desc idx.1).next = idx.2.1
  second : (s.desc idx.2.1).hasNext = true ∧ (s.desc idx.2.1).next = idx.2.2
  third : (s.desc idx.2.2).hasNext = false ∧ (s.desc idx.2.2).addr = .status idx.1
  info : s.info idx.1 = { b := some b, status := 0 }

/-- The first descriptors of the requests that are not finished: those in
`avail`, taken and in `used`. -/
def State.pending (s : State P B) (avail used : List ℕ) : List ℕ := avail ++ s.taken ++ used

/-- With `avail` and `used` in the rings, after `n` chains have been taken and
`m` completions have been processed. The requests of the latter are `done`. -/
structure Inv (s : State P B) (avail used : List ℕ) (n m : ℕ) (done : List ℕ) : Prop where
  availRing : Ring num (2 ^ 16) s.avail s.lastAvail s.availIdx n avail
  usedRing : Ring num (2 ^ 16) s.usedElems (u16 m) s.usedId m used
  usedIdx : s.usedIdx = m % num
  nodup : (s.pending avail used).Nodup
  pending : ∀ h, h ∈ s.pending avail used ↔
    ∃ p b i1 i2, (s.pc p).flight = some (b, h, i1, i2) ∧ s.disk b = true
  chain : ∀ p b idx, (s.pc p).flight = some (b, idx) → Chain s b idx
  disjoint : ∀ p q b b' idx idx', p ≠ q → (s.pc p).flight = some (b, idx) →
    (s.pc q).flight = some (b', idx') → (members idx).Disjoint (members idx')
  owner : ∀ p b, (s.pc p).buf = some b → s.bufLock b = some p
  request : ∀ p b idx, (s.pc p).flight = some (b, idx) → s.posted[s.request idx.1]? = some b
  completed : s.completed = done ++ used.map s.request
  cleared : s.cleared.map some = done.map (s.posted[·]?)

theorem inv_init (blockno : B → ℕ) : Inv (init blockno : State P B) [] [] 0 0 [] where
  availRing := ⟨rfl, rfl, Nat.zero_le _, nofun⟩
  usedRing := ⟨rfl, rfl, Nat.zero_le _, nofun⟩
  usedIdx := rfl
  nodup := List.nodup_nil
  pending h := by simp [State.pending, init, Pc.flight]
  chain p b idx h := by simp [init, Pc.flight] at h
  disjoint p q b b' idx idx' _ h := by simp [init, Pc.flight] at h
  owner p b h := by simp [init, Pc.buf] at h
  request p b idx h := by simp [init, Pc.flight] at h
  completed := rfl
  cleared := rfl

theorem buf_of_flight {pc : Pc B} (h : pc.flight = some (b, idx)) : pc.buf = some b := by
  cases pc <;> simp_all [Pc.flight, Pc.buf]

namespace Inv

variable {avail used done : List ℕ} {n m : ℕ}

/-- A buffer has at most one request. -/
theorem buf_unique (h : Inv s avail used n m done) (hp : (s.pc p).buf = some b)
    (hq : (s.pc q).buf = some b) : p = q := by
  have hlock := h.owner p b hp
  rw [h.owner q b hq] at hlock
  exact (Option.some.inj hlock).symm

/-- A descriptor belongs to at most one request. -/
theorem member_unique (h : Inv s avail used n m done) {b' : B} {idx' : ℕ × ℕ × ℕ}
    (hp : (s.pc p).flight = some (b, idx)) (hq : (s.pc q).flight = some (b', idx'))
    (hi : i ∈ members idx) (hi' : i ∈ members idx') : p = q := by
  by_contra hpq
  exact h.disjoint p q b b' idx idx' hpq hp hq hi hi'

/-- There are at most two requests: each has three of the eight
descriptors. -/
theorem length_pending (h : Inv s avail used n m done) : (s.pending avail used).length ≤ 2 := by
  -- the descriptors of a request, read off its first one
  let row (i : ℕ) : List ℕ := [i, (s.desc i).next, (s.desc (s.desc i).next).next]
  have hrow : ∀ i ∈ s.pending avail used, ∃ p b idx, (s.pc p).flight = some (b, idx) ∧
      i = idx.1 ∧ row i = members idx := by
    intro i hi
    obtain ⟨p, b, i1, i2, hp, _⟩ := (h.pending i).mp hi
    have hchain := h.chain p b _ hp
    refine ⟨p, b, (i, i1, i2), hp, rfl, ?_⟩
    simp only [row, members, hchain.first.2, hchain.second.2]
  have hnodup : ((s.pending avail used).flatMap row).Nodup := by
    rw [List.nodup_flatMap]
    refine ⟨fun i hi => ?_, h.nodup.imp_of_mem fun hi hj hij => ?_⟩
    · obtain ⟨p, b, idx, hp, _, hr⟩ := hrow i hi
      rw [hr]
      exact (h.chain p b idx hp).nodup
    · obtain ⟨p, b, idx, hp, rfl, hr⟩ := hrow _ hi
      obtain ⟨q, b', idx', hq, rfl, hr'⟩ := hrow _ hj
      have hpq : p ≠ q := by
        rintro rfl
        rw [hp] at hq
        cases hq
        exact hij rfl
      simp only [Function.onFun, hr, hr']
      exact h.disjoint p q b b' idx idx' hpq hp hq
  have hsub : (s.pending avail used).flatMap row ⊆ List.range num := by
    intro i hi
    obtain ⟨j, hj, hi⟩ := List.mem_flatMap.mp hi
    obtain ⟨p, b, idx, hp, _, hr⟩ := hrow j hj
    exact List.mem_range.mpr ((h.chain p b idx hp).lt i (hr ▸ hi))
  have hlen := (hnodup.subperm hsub).length_le
  have hthree : ((s.pending avail used).flatMap row).length =
      3 * (s.pending avail used).length := by
    rw [List.length_flatMap]
    change (List.map (fun _ => 3) _).sum = _
    rw [List.map_const', List.sum_replicate_nat, Nat.mul_comm]
  rw [hthree, List.length_range] at hlen
  change _ ≤ 8 at hlen
  omega

/-! ### Steps that leave the rings alone -/

end Inv

/-- The part of the state that the requests are in. -/
def State.core (s : State P B) :=
  (s.avail, s.lastAvail, s.availIdx, s.usedElems, s.usedId, s.usedIdx, s.taken, s.disk, s.free,
    s.info, s.posted, s.request, s.completed, s.cleared)

theorem Chain.congr (h : Chain s b idx) (hfree : ∀ i ∈ members idx, t.free i = s.free i)
    (hdesc : ∀ i ∈ members idx, t.desc i = s.desc i) (hinfo : t.info idx.1 = s.info idx.1) :
    Chain t b idx := by
  have h0 := hdesc idx.1 (by simp [members])
  have h1 := hdesc idx.2.1 (by simp [members])
  have h2 := hdesc idx.2.2 (by simp [members])
  exact ⟨h.lt, h.nodup, fun i hi => by rw [hfree i hi]; exact h.used i hi, by rw [h0]; exact h.first,
    by rw [h1]; exact h.second, by rw [h2]; exact h.third, by rw [hinfo]; exact h.info⟩

namespace Inv

variable {avail used done : List ℕ} {n m : ℕ}

theorem same (h : Inv s avail used n m done) (hcore : t.core = s.core)
    (hdesc : ∀ i, s.free i = false → t.desc i = s.desc i)
    (hflight : ∀ p, (t.pc p).flight = (s.pc p).flight)
    (howner : ∀ p b, (t.pc p).buf = some b → t.bufLock b = some p) : Inv t avail used n m done := by
  simp only [State.core, Prod.mk.injEq] at hcore
  obtain ⟨h1, h2, h3, h4, h5, h6, h7, h8, h9, h10, h11, h12, h13, h14⟩ := hcore
  have hpending : t.pending avail used = s.pending avail used := by
    rw [State.pending, State.pending, h7]
  exact
    { availRing := by rw [h1, h2, h3]; exact h.availRing
      usedRing := by rw [h4, h5]; exact h.usedRing
      usedIdx := by rw [h6]; exact h.usedIdx
      nodup := by rw [hpending]; exact h.nodup
      pending := fun i => by simp only [hpending, hflight, h8]; exact h.pending i
      chain := fun p b idx hp => by
        have hchain := h.chain p b idx (hflight p ▸ hp)
        exact hchain.congr (fun i _ => by rw [h9]) (fun i hi => hdesc i (hchain.used i hi))
          (by rw [h10])
      disjoint := fun p q b b' idx idx' hpq hp hq =>
        h.disjoint p q b b' idx idx' hpq (hflight p ▸ hp) (hflight q ▸ hq)
      owner := howner
      request := fun p b idx hp => by rw [h11, h12]; exact h.request p b idx (hflight p ▸ hp)
      completed := by rw [h12, h13]; exact h.completed
      cleared := by rw [h11, h14]; exact h.cleared }

/-- A process moves on without publishing or finishing a request. -/
theorem goto (h : Inv s avail used n m done) (hcore : t.core = s.core) {pc : Pc B}
    (hdesc : ∀ i, s.free i = false → t.desc i = s.desc i)
    (hpc : t.pc = Function.update s.pc p pc) (hlock : t.bufLock = s.bufLock)
    (hflight : pc.flight = (s.pc p).flight)
    (howner : ∀ b, pc.buf = some b → s.bufLock b = some p) : Inv t avail used n m done := by
  refine h.same hcore hdesc (fun q => ?_) fun q b hq => ?_
  · by_cases hqp : q = p
    · subst hqp
      rw [hpc, Function.update_self, hflight]
    · rw [hpc, Function.update_of_ne hqp]
  · rw [hlock]
    by_cases hqp : q = p
    · subst hqp
      rw [hpc, Function.update_self] at hq
      exact howner b hq
    · rw [hpc, Function.update_of_ne hqp] at hq
      exact h.owner q b hq

/-! ### The device -/

/-- A request moves from one queue to another. -/
theorem requeue (h : Inv s avail used n m done) {avail' used' : List ℕ} {n' : ℕ}
    (hpc : t.pc = s.pc) (hdisk : t.disk = s.disk) (hfree : t.free = s.free)
    (hdesc : t.desc = s.desc) (hinfo : t.info = s.info) (hlock : t.bufLock = s.bufLock)
    (hposted : t.posted = s.posted) (hrequest : t.request = s.request)
    (hcleared : t.cleared = s.cleared) (hidx : t.usedIdx = s.usedIdx)
    (havail : Ring num (2 ^ 16) t.avail t.lastAvail t.availIdx n' avail')
    (hused : Ring num (2 ^ 16) t.usedElems (u16 m) t.usedId m used')
    (hperm : (t.pending avail' used').Perm (s.pending avail used))
    (hcompleted : t.completed = done ++ used'.map s.request) : Inv t avail' used' n' m done where
  availRing := havail
  usedRing := hused
  usedIdx := by rw [hidx]; exact h.usedIdx
  nodup := hperm.nodup_iff.mpr h.nodup
  pending i := by
    rw [hperm.mem_iff, hpc, hdisk]
    exact h.pending i
  chain p b idx hp := by
    rw [hpc] at hp
    exact (h.chain p b idx hp).congr (fun _ _ => by rw [hfree]) (fun _ _ => by rw [hdesc])
      (by rw [hinfo])
  disjoint p q b b' idx idx' hpq hp hq := by
    rw [hpc] at hp hq
    exact h.disjoint p q b b' idx idx' hpq hp hq
  owner p b hp := by
    rw [hpc] at hp
    rw [hlock]
    exact h.owner p b hp
  request p b idx hp := by
    rw [hpc] at hp
    rw [hposted, hrequest]
    exact h.request p b idx hp
  completed := by rw [hrequest]; exact hcompleted
  cleared := by rw [hcleared, hposted]; exact h.cleared

theorem num_dvd : num ∣ 2 ^ 16 := by decide

theorem num_lt : num < 2 ^ 16 := by decide

theorem take (h : Inv s avail used n m done) (hne : s.lastAvail ≠ s.availIdx) :
    ∃ avail', Inv s.take avail' used (n + 1) m done := by
  obtain ⟨i, l, rfl⟩ := List.exists_cons_of_ne_nil (mt (h.availRing.empty_iff num_lt).mpr hne)
  refine ⟨l, h.requeue rfl rfl rfl rfl rfl rfl rfl rfl rfl rfl h.availRing.pop h.usedRing ?_
    h.completed⟩
  have hfront : s.avail (s.lastAvail % num) = i := h.availRing.front num_dvd
  simp only [State.pending, State.take, hfront]
  refine List.Perm.append_right used ?_
  rw [← List.append_assoc]
  exact (List.perm_append_singleton i (l ++ s.taken)).trans (List.Perm.refl _)

theorem complete (h : Inv s avail used n m done) (hi : i ∈ s.taken) :
    Inv (s.complete i) avail (used ++ [i]) n m done := by
  obtain ⟨p, b, i1, i2, hp, _⟩ := (h.pending i).mp (by simp [State.pending, hi])
  have hchain := h.chain p b _ hp
  have haddr : s.statusAddr i = .status i := by
    rw [State.statusAddr, hchain.first.2, hchain.second.2]
    exact hchain.third.2
  have hinfo : (s.complete i).info = s.info := by
    simp only [State.complete, haddr]
    rw [show ({ s.info i with status := 0 } : Info B) = s.info i by rw [hchain.info]]
    exact Function.update_eq_self i s.info
  have hroom : used.length < num := by
    have := h.length_pending
    rw [State.pending, List.length_append] at this
    change _ < 8
    omega
  refine h.requeue rfl rfl rfl rfl hinfo rfl rfl rfl rfl rfl h.availRing
    (h.usedRing.push num_dvd hroom) ?_ ?_
  · simp only [State.pending, State.complete]
    have htaken : s.taken.Perm (i :: s.taken.erase i) := List.perm_cons_erase hi
    calc (avail ++ s.taken.erase i ++ (used ++ [i])).Perm
          (avail ++ s.taken.erase i ++ (i :: used)) :=
            (List.perm_append_singleton i used).append_left _
      _ = avail ++ (s.taken.erase i ++ i :: used) := List.append_assoc ..
      _ |>.Perm (avail ++ (i :: (s.taken.erase i ++ used))) :=
            List.perm_middle.append_left avail
      _ |>.Perm (avail ++ (s.taken ++ used)) := (htaken.symm.append_right used).append_left avail
      _ = avail ++ s.taken ++ used := (List.append_assoc ..).symm
  · change s.completed ++ [s.request i] = _
    rw [h.completed, List.map_append, List.append_assoc]
    rfl

/-! ### `virtio_disk_intr` -/

/-- The test of the loop: a completion is left. -/
theorem usedIdx_ne_iff (h : Inv s avail used n m done) :
    s.usedIdx % num ≠ s.usedId % num ↔ used ≠ [] := by
  have hlen := h.length_pending
  rw [State.pending, List.length_append] at hlen
  have hid : s.usedId % num = (m + used.length) % num := by
    rw [h.usedRing.tail_eq, Nat.mod_mod_of_dvd _ num_dvd]
  rw [hid, h.usedIdx, Ne, Ne, ← List.length_eq_zero_iff]
  change ¬ m % 8 % 8 = (m + used.length) % 8 ↔ _
  omega

/-- The request whose completion is next. -/
theorem next_completion (h : Inv s avail (i :: used) n m done) :
    s.usedElems s.usedIdx = i ∧ ∃ p b i1 i2, (s.pc p).flight = some (b, i, i1, i2) ∧
      s.disk b = true ∧ Chain s b (i, i1, i2) := by
  refine ⟨?_, ?_⟩
  · rw [h.usedIdx]
    exact h.usedRing.cell 0 i rfl
  · obtain ⟨p, b, i1, i2, hp, hdisk⟩ := (h.pending i).mp (by simp [State.pending])
    exact ⟨p, b, i1, i2, hp, hdisk, h.chain p b _ hp⟩

/-- The flag of the buffer of the next completion is cleared. -/
theorem clear {i1 i2 : ℕ} (h : Inv s avail (i :: used) n m done)
    (hp : (s.pc p).flight = some (b, i, i1, i2)) :
    Inv (s.clear b) avail used n (m + 1) (done ++ [s.request i]) where
  availRing := h.availRing
  usedRing := by
    have hring := h.usedRing.pop
    rw [Nat.mod_add_mod] at hring
    exact hring
  usedIdx := by
    change (s.usedIdx + 1) % num = _
    rw [h.usedIdx, Nat.mod_add_mod]
  nodup := h.nodup.sublist ((List.sublist_cons_self i used).append_left _)
  pending x := by
    have hne : x ∈ s.pending avail used → x ≠ i := by
      rintro hx rfl
      have hnodup := h.nodup
      rw [State.pending, List.nodup_append] at hnodup
      rcases List.mem_append.mp hx with hx | hx
      · exact hnodup.2.2 x hx x (List.mem_cons_self ..) rfl
      · exact (List.nodup_cons.mp hnodup.2.1).1 hx
    have hmem : x ∈ s.pending avail (i :: used) ↔ x = i ∨ x ∈ s.pending avail used := by
      simp only [State.pending, List.mem_append, List.mem_cons]
      tauto
    change x ∈ s.pending avail used ↔ ∃ q b' j1 j2, (s.pc q).flight = some (b', x, j1, j2) ∧
      Function.update s.disk b false b' = true
    constructor
    · intro hx
      obtain ⟨q, b', j1, j2, hq, hdisk⟩ := (h.pending x).mp (hmem.mpr (.inr hx))
      refine ⟨q, b', j1, j2, hq, ?_⟩
      have hb : b' ≠ b := by
        rintro rfl
        obtain rfl := h.buf_unique (buf_of_flight hp) (buf_of_flight hq)
        rw [hp] at hq
        cases hq
        exact hne hx rfl
      rwa [Function.update_of_ne hb]
    · rintro ⟨q, b', j1, j2, hq, hdisk⟩
      have hb : b' ≠ b := by
        rintro rfl
        simp at hdisk
      rw [Function.update_of_ne hb] at hdisk
      refine (hmem.mp ((h.pending x).mpr ⟨q, b', j1, j2, hq, hdisk⟩)).resolve_left ?_
      rintro rfl
      obtain rfl := h.member_unique hp hq (List.mem_cons_self ..) (List.mem_cons_self ..)
      rw [hp] at hq
      cases hq
      exact hb rfl
  chain q b' idx hq := (h.chain q b' idx hq).congr (fun _ _ => rfl) (fun _ _ => rfl) rfl
  disjoint := h.disjoint
  owner := h.owner
  request := h.request
  completed := by
    change s.completed = _
    rw [h.completed, List.map_cons, List.append_assoc, List.singleton_append]
    rfl
  cleared := by
    change (s.cleared ++ [b]).map some = (done ++ [s.request i]).map (s.posted[·]?)
    rw [List.map_append, List.map_append, h.cleared, List.map_singleton, List.map_singleton,
      h.request p b _ hp]

/-! ### `virtio_disk_rw` -/

/-- The descriptors of a request that was just published. -/
theorem chain_publish {write : Bool} {i0 i1 i2 : ℕ} {pc : Pc B}
    (hlt : i0 < num ∧ i1 < num ∧ i2 < num) (hne : i1 ≠ i0 ∧ i2 ≠ i0 ∧ i2 ≠ i1) :
    Chain (((((s.mark i0).mark i1).mark i2).publish b write i0 i1 i2).goto p pc) b (i0, i1, i2) := by
  obtain ⟨h10, h20, h21⟩ := hne
  refine ⟨by simp [members, hlt], ?_, ?_, ?_, ?_, ?_, ?_⟩
  · simp [members, Ne.symm h10, Ne.symm h20, Ne.symm h21]
  · intro i hi
    simp only [members, List.mem_cons, List.not_mem_nil, or_false] at hi
    obtain rfl | rfl | rfl := hi <;>
      simp [State.goto, State.publish, State.mark, Function.update_apply]
  · simp [State.goto, State.publish, Desc.hasNext, Ne.symm h10, Ne.symm h20]
  · cases write <;> simp [State.goto, State.publish, Desc.hasNext, Ne.symm h21]
  · simp [State.goto, State.publish, Desc.hasNext]
  · simp [State.goto, State.publish]

/-- A request is published. -/
theorem publish {write : Bool} {i0 i1 i2 : ℕ} (h : Inv s avail used n m done)
    (hpc : s.pc p = .alloc b write) (hlt : i0 < num ∧ i1 < num ∧ i2 < num)
    (hne : i1 ≠ i0 ∧ i2 ≠ i0 ∧ i2 ≠ i1)
    (hfree : s.free i0 = true ∧ s.free i1 = true ∧ s.free i2 = true) :
    Inv (((((s.mark i0).mark i1).mark i2).publish b write i0 i1 i2).goto p (.wait b (i0, i1, i2)))
      (avail ++ [i0]) used n m done := by
  have hflight : (s.pc p).flight = none := by rw [hpc]; rfl
  have hbuf : (s.pc p).buf = some b := by rw [hpc]; rfl
  have hnew : ∀ i ∈ members (i0, i1, i2), s.free i = true := by
    simp [members, hfree]
  -- the descriptors of the other requests are not among the new ones
  have hold : ∀ {q b' idx i}, (s.pc q).flight = some (b', idx) → i ∈ members idx →
      i ≠ i0 ∧ i ≠ i1 ∧ i ≠ i2 := by
    intro q b' idx i hq hi
    have hused := (h.chain q b' idx hq).used i hi
    refine ⟨?_, ?_, ?_⟩
    · rintro rfl
      simp [hfree.1] at hused
    · rintro rfl
      simp [hfree.2.1] at hused
    · rintro rfl
      simp [hfree.2.2] at hused
  have hhead : i0 ∉ s.pending avail used := by
    intro hi
    obtain ⟨q, b', j1, j2, hq, _⟩ := (h.pending i0).mp hi
    exact (hold hq (List.mem_cons_self ..)).1 rfl
  have hroom : avail.length < num := by
    have := h.length_pending
    rw [State.pending, List.length_append, List.length_append] at this
    change _ < 8
    omega
  have hperm : ∀ taken : List ℕ, (avail ++ [i0] ++ taken ++ used).Perm
      (i0 :: (avail ++ taken ++ used)) := by
    intro taken
    rw [List.append_assoc, List.append_assoc, List.append_assoc, List.singleton_append]
    exact List.perm_middle
  have hlookup : ∀ {k : ℕ} {b' : B}, s.posted[k]? = some b' → (s.posted ++ [b])[k]? = some b' := by
    intro k b' hk
    rw [List.getElem?_append_left (List.getElem?_eq_some_iff.mp hk).1, hk]
  generalize ht : ((((s.mark i0).mark i1).mark i2).publish b write i0 i1 i2).goto p
    (.wait b (i0, i1, i2)) = t
  have htp : (t.pc p).flight = some (b, i0, i1, i2) := by
    rw [← ht]
    simp [State.goto, Pc.flight]
  have htq : ∀ {q}, q ≠ p → t.pc q = s.pc q := by
    intro q hq
    rw [← ht]
    simp [State.goto, State.publish, State.mark, hq]
  have hfree' : t.free = Function.update (Function.update (Function.update s.free i0 false) i1 false)
      i2 false := by rw [← ht]; rfl
  have hdisk : t.disk = Function.update s.disk b true := by rw [← ht]; rfl
  have hbq : ∀ {q b' idx}, q ≠ p → (s.pc q).flight = some (b', idx) → b' ≠ b := by
    rintro q b' idx hq hflight rfl
    exact hq (h.buf_unique (buf_of_flight hflight) hbuf)
  have htaken : t.taken = s.taken := by rw [← ht]; rfl
  exact
    { availRing := by
        rw [← ht]
        exact h.availRing.push num_dvd hroom
      usedRing := by
        rw [← ht]
        exact h.usedRing
      usedIdx := by
        rw [← ht]
        exact h.usedIdx
      nodup := by
        rw [State.pending, htaken, (hperm s.taken).nodup_iff, List.nodup_cons]
        exact ⟨hhead, h.nodup⟩
      pending := fun x => by
        rw [State.pending, htaken, (hperm s.taken).mem_iff, List.mem_cons, hdisk]
        constructor
        · rintro (rfl | hx)
          · exact ⟨p, b, i1, i2, htp, by simp⟩
          · obtain ⟨q, b', j1, j2, hq, hd⟩ := (h.pending x).mp hx
            have hqp : q ≠ p := by
              rintro rfl
              rw [hflight] at hq
              cases hq
            exact ⟨q, b', j1, j2, by rw [htq hqp, hq], by rwa [Function.update_of_ne (hbq hqp hq)]⟩
        · rintro ⟨q, b', j1, j2, hq, hd⟩
          by_cases hqp : q = p
          · subst hqp
            rw [htp] at hq
            cases hq
            exact .inl rfl
          · rw [htq hqp] at hq
            rw [Function.update_of_ne (hbq hqp hq)] at hd
            exact .inr ((h.pending x).mpr ⟨q, b', j1, j2, hq, hd⟩)
      chain := fun q b' idx hq => by
        by_cases hqp : q = p
        · subst hqp
          rw [htp] at hq
          cases hq
          rw [← ht]
          exact chain_publish hlt hne
        · rw [htq hqp] at hq
          have hidx := fun i hi => hold (i := i) hq hi
          refine (h.chain q b' idx hq).congr (fun i hi => ?_) (fun i hi => ?_) ?_
          · obtain ⟨h0, h1, h2⟩ := hidx i hi
            simp [hfree', h0, h1, h2]
          · obtain ⟨h0, h1, h2⟩ := hidx i hi
            rw [← ht]
            simp [State.goto, State.publish, State.mark, h0, h1, h2]
          · obtain ⟨h0, _⟩ := hidx idx.1 (List.mem_cons_self ..)
            rw [← ht]
            simp [State.goto, State.publish, State.mark, h0]
      disjoint := fun q q' b' b'' idx idx' hqq hq hq' => by
        by_cases hqp : q = p
        · subst hqp
          rw [htp] at hq
          cases hq
          rw [htq (Ne.symm hqq)] at hq'
          intro i hi hi'
          obtain ⟨h0, h1, h2⟩ := hold hq' hi'
          simp [members, h0, h1, h2] at hi
        · rw [htq hqp] at hq
          by_cases hqp' : q' = p
          · subst hqp'
            rw [htp] at hq'
            cases hq'
            intro i hi hi'
            obtain ⟨h0, h1, h2⟩ := hold hq hi
            simp [members, h0, h1, h2] at hi'
          · rw [htq hqp'] at hq'
            exact h.disjoint q q' b' b'' idx idx' hqq hq hq'
      owner := fun q b' hq => by
        have hlock : t.bufLock = s.bufLock := by rw [← ht]; rfl
        rw [hlock]
        by_cases hqp : q = p
        · subst hqp
          rw [buf_of_flight htp] at hq
          cases hq
          exact h.owner q b hbuf
        · rw [htq hqp] at hq
          exact h.owner q b' hq
      request := fun q b' idx hq => by
        have hposted : t.posted = s.posted ++ [b] := by rw [← ht]; rfl
        have hrequest : t.request = Function.update s.request i0 s.posted.length := by rw [← ht]; rfl
        rw [hposted, hrequest]
        by_cases hqp : q = p
        · subst hqp
          rw [htp] at hq
          cases hq
          simp
        · rw [htq hqp] at hq
          rw [Function.update_of_ne (hold hq (List.mem_cons_self ..)).1]
          exact hlookup (h.request q b' idx hq)
      completed := by
        have hcompleted : t.completed = s.completed := by rw [← ht]; rfl
        have hrequest : t.request = Function.update s.request i0 s.posted.length := by rw [← ht]; rfl
        rw [hcompleted, h.completed, hrequest]
        congr 1
        refine List.map_congr_left fun x hx => ?_
        rw [Function.update_of_ne]
        rintro rfl
        exact hhead (List.mem_append_right _ hx)
      cleared := by
        have hposted : t.posted = s.posted ++ [b] := by rw [← ht]; rfl
        have hcleared : t.cleared = s.cleared := by rw [← ht]; rfl
        rw [hcleared, hposted, h.cleared]
        refine List.map_congr_left fun k hk => ?_
        have hsome : s.posted[k]? ∈ s.cleared.map some := by
          rw [h.cleared]
          exact List.mem_map_of_mem hk
        obtain ⟨b', _, hb'⟩ := List.mem_map.mp hsome
        rw [← hb', hlookup hb'.symm] }

end Inv

@[simp] theorem desc_freeDesc {j : ℕ} (hij : j ≠ i) : (s.freeDesc i).desc j = s.desc j := by
  simp [State.freeDesc, State.wakeup, hij]

@[simp] theorem free_freeDesc {j : ℕ} (hij : j ≠ i) : (s.freeDesc i).free j = s.free j := by
  simp [State.freeDesc, State.wakeup, hij]

/-- A round of `free_chain`, which reads the descriptor it has just freed. -/
theorem wp_freeChain {fuel : ℕ} {Q : Unit → State P B → Prop} (hi : i < num)
    (hfree : s.free i = false)
    (hnext : (s.desc i).hasNext = true → wp (freeChain fuel (s.desc i).next) Q (s.freeDesc i))
    (hend : (s.desc i).hasNext = false → Q () (s.freeDesc i)) :
    wp (freeChain (fuel + 1) i) Q s := by
  simp only [freeChain, wp_bind]
  refine wp_mono (freeDesc_spec hi hfree) fun _ t ht => ?_
  subst ht
  have hdesc : ((s.freeDesc i).desc i).hasNext = (s.desc i).hasNext ∧
      ((s.freeDesc i).desc i).next = (s.desc i).next := by
    simp [State.freeDesc, State.wakeup, Desc.hasNext]
  rw [wp_get, hdesc.1, hdesc.2, wp_ite]
  exact ⟨hnext, fun h => hend (by simpa using h)⟩

/-- `free_chain` frees the three descriptors of a request. -/
theorem freeChain_spec (hlt : ∀ i ∈ members idx, i < num)
    (hnodup : (members idx).Nodup) (hused : ∀ i ∈ members idx, s.free i = false)
    (h0 : (s.desc idx.1).hasNext = true ∧ (s.desc idx.1).next = idx.2.1)
    (h1 : (s.desc idx.2.1).hasNext = true ∧ (s.desc idx.2.1).next = idx.2.2)
    (h2 : (s.desc idx.2.2).hasNext = false) : wp (freeChain (num + 1) idx.1)
      (fun _ t => t = ((s.freeDesc idx.1).freeDesc idx.2.1).freeDesc idx.2.2) s := by
  obtain ⟨i0, i1, i2⟩ := idx
  simp only [members, List.nodup_cons, List.mem_cons, List.not_mem_nil, or_false, not_or] at hnodup
  obtain ⟨⟨h01, h02⟩, h12, _⟩ := hnodup
  have h10 := Ne.symm h01
  have h20 := Ne.symm h02
  have h21 := Ne.symm h12
  refine wp_freeChain (hlt i0 (by simp [members])) (hused i0 (by simp [members])) (fun _ => ?_)
    fun h => by simp [h0.1] at h
  rw [h0.2]
  refine wp_freeChain (hlt i1 (by simp [members])) ?_ (fun _ => ?_) fun h => ?_
  · rw [free_freeDesc h10]
    exact hused i1 (by simp [members])
  · rw [desc_freeDesc h10, h1.2]
    refine wp_freeChain (hlt i2 (by simp [members])) ?_ (fun h => ?_) fun _ => rfl
    · rw [free_freeDesc h21, free_freeDesc h20]
      exact hused i2 (by simp [members])
    · rw [desc_freeDesc h21, desc_freeDesc h20, h2] at h
      cases h
  · rw [desc_freeDesc h10, h1.1] at h
    cases h

namespace Inv

variable {avail used done : List ℕ} {n m : ℕ}

/-- The process of a finished request frees its descriptors. -/
theorem finish (h : Inv s avail used n m done)
    (hp : (s.pc p).flight = some (b, idx)) (hdisk : s.disk b = false)
    (hpc : t.pc = Function.update s.pc p .idle) (hfree : ∀ i, i ∉ members idx → t.free i = s.free i)
    (hdesc : ∀ i, i ∉ members idx → t.desc i = s.desc i)
    (hinfo : ∀ i, i ≠ idx.1 → t.info i = s.info i) (hlock : t.bufLock = s.bufLock)
    (hrest : (t.avail, t.lastAvail, t.availIdx, t.usedElems, t.usedId, t.usedIdx, t.taken, t.disk,
      t.posted, t.request, t.completed, t.cleared) = (s.avail, s.lastAvail, s.availIdx, s.usedElems,
      s.usedId, s.usedIdx, s.taken, s.disk, s.posted, s.request, s.completed, s.cleared)) :
    Inv t avail used n m done := by
  simp only [Prod.mk.injEq] at hrest
  obtain ⟨h1, h2, h3, h4, h5, h6, h7, h8, h9, h10, h11, h12⟩ := hrest
  have htp : t.pc p = .idle := by rw [hpc, Function.update_self]
  have htq : ∀ {q}, q ≠ p → t.pc q = s.pc q := fun hq => by rw [hpc, Function.update_of_ne hq]
  have hpending : t.pending avail used = s.pending avail used := by
    rw [State.pending, State.pending, h7]
  -- only other processes have a request now
  have hother : ∀ {q b' idx'}, (t.pc q).flight = some (b', idx') →
      q ≠ p ∧ (s.pc q).flight = some (b', idx') := by
    intro q b' idx' hq
    have hqp : q ≠ p := by
      rintro rfl
      rw [htp] at hq
      cases hq
    exact ⟨hqp, htq hqp ▸ hq⟩
  exact
    { availRing := by rw [h1, h2, h3]; exact h.availRing
      usedRing := by rw [h4, h5]; exact h.usedRing
      usedIdx := by rw [h6]; exact h.usedIdx
      nodup := by rw [hpending]; exact h.nodup
      pending := fun x => by
        rw [hpending, h.pending x, h8]
        constructor
        · rintro ⟨q, b', j1, j2, hq, hd⟩
          have hqp : q ≠ p := by
            rintro rfl
            rw [hp] at hq
            cases hq
            rw [hdisk] at hd
            cases hd
          exact ⟨q, b', j1, j2, by rw [htq hqp, hq], hd⟩
        · rintro ⟨q, b', j1, j2, hq, hd⟩
          exact ⟨q, b', j1, j2, (hother hq).2, hd⟩
      chain := fun q b' idx' hq => by
        obtain ⟨hqp, hq⟩ := hother hq
        have hdisjoint := h.disjoint q p b' b idx' idx hqp hq hp
        refine (h.chain q b' idx' hq).congr (fun i hi => hfree i (hdisjoint hi))
          (fun i hi => hdesc i (hdisjoint hi)) (hinfo _ ?_)
        intro he
        exact hdisjoint (List.mem_cons_self ..) (he ▸ List.mem_cons_self ..)
      disjoint := fun q q' b' b'' idx' idx'' hqq hq hq' =>
        h.disjoint q q' b' b'' idx' idx'' hqq (hother hq).2 (hother hq').2
      owner := fun q b' hq => by
        have hqp : q ≠ p := by
          rintro rfl
          rw [htp] at hq
          cases hq
        rw [htq hqp] at hq
        rw [hlock]
        exact h.owner q b' hq
      request := fun q b' idx' hq => by
        rw [h9, h10]
        exact h.request q b' idx' (hother hq).2
      completed := by rw [h10, h11]; exact h.completed
      cleared := by rw [h9, h12]; exact h.cleared }

end Inv

/-! ### Runs -/

/-- The state between two steps. -/
def Good (s : State P B) : Prop := ∃ avail used n m done, Inv s avail used n m done

theorem Good.same (h : Good s) (hcore : t.core = s.core) (hdesc : t.desc = s.desc)
    (hpc : t.pc = s.pc) (howner : ∀ p b, (t.pc p).buf = some b → t.bufLock b = some p) :
    Good t := by
  obtain ⟨avail, used, n, m, done, h⟩ := h
  exact ⟨avail, used, n, m, done,
    h.same hcore (fun _ _ => by rw [hdesc]) (fun p => by rw [hpc]) howner⟩

theorem wp_acquire {x : Thread P} {Q : Unit → State P B → Prop} (h : Q () { s with lock := some x }) :
    wp (acquire x) Q s := by
  simp only [acquire, wp_bind, wp_get, wp_ite]
  exact ⟨fun _ => h, fun _ => trivial⟩

theorem rwAlloc_good {write : Bool} (h : Good s) (hpc : s.pc p = .alloc b write) :
    wp (rwAlloc p b write) (fun _ t => Good t) s := by
  obtain ⟨avail, used, n, m, done, h⟩ := h
  have howner : s.bufLock b = some p := h.owner p b (by rw [hpc]; rfl)
  simp only [rwAlloc, wp_bind]
  refine wp_mono alloc3Desc_spec fun r t ht => ?_
  obtain _ | ⟨i0, i1, i2⟩ := r
  · obtain ⟨desc, sleeping, rfl, hdesc⟩ := ht
    refine ⟨avail, used, n, m, done, h.goto rfl hdesc rfl rfl (by rw [hpc]; rfl) ?_⟩
    rintro b' ⟨⟩
    exact howner
  · obtain ⟨hlt, hne, hfree, rfl⟩ := ht
    exact ⟨_, used, n, m, done, h.publish hpc hlt hne hfree⟩

theorem rwWait_good (h : Good s) (hpc : s.pc p = .wait b idx) :
    wp (rwWait p b idx) (fun _ t => Good t) s := by
  obtain ⟨avail, used, n, m, done, h⟩ := h
  have hflight : (s.pc p).flight = some (b, idx) := by rw [hpc]; rfl
  simp only [rwWait, wp_bind, wp_get, wp_ite, wp_modify]
  refine ⟨fun _ => ⟨avail, used, n, m, done, ?_⟩, fun hdisk => ?_⟩
  · refine h.goto rfl (fun _ _ => rfl) rfl rfl hflight.symm ?_
    rintro b' ⟨⟩
    exact h.owner p b (buf_of_flight hflight)
  · have hchain := h.chain p b idx hflight
    refine wp_mono (freeChain_spec hchain.lt hchain.nodup hchain.used hchain.first hchain.second
      hchain.third.1) fun _ t ht => ?_
    subst ht
    refine ⟨avail, used, n, m, done, h.finish hflight (by simpa using hdisk) rfl (fun i hi => ?_)
      (fun i hi => ?_) (fun i hi => ?_) rfl rfl⟩
    · simp only [members, List.mem_cons, List.not_mem_nil, or_false, not_or] at hi
      simp [State.goto, hi.1, hi.2.1, hi.2.2]
    · simp only [members, List.mem_cons, List.not_mem_nil, or_false, not_or] at hi
      simp [State.goto, hi.1, hi.2.1, hi.2.2]
    · simp [State.goto, State.freeDesc, State.wakeup, hi]

theorem rwGo_good (h : Good s) : wp (rwGo p) (fun _ t => Good t) s := by
  have howner : ∀ b, (s.pc p).buf = some b → s.bufLock b = some p := by
    obtain ⟨_, _, _, _, _, h⟩ := h
    exact h.owner p
  simp only [rwGo, wp_bind, wp_get]
  split
  case h_1 => trivial
  case h_2 b write hpc =>
    rw [wp_bind]
    refine wp_acquire ?_
    obtain ⟨avail, used, n, m, done, h⟩ := h
    refine ⟨avail, used, n, m, done, h.goto rfl (fun _ _ => rfl) rfl rfl (by rw [hpc]; rfl) ?_⟩
    rw [hpc] at howner
    exact howner
  case h_3 b write hpc => exact rwAlloc_good h hpc
  case h_4 b idx hpc => exact rwWait_good h hpc
  case h_5 b idx hpc =>
    rw [wp_bind]
    refine wp_acquire ?_
    obtain ⟨avail, used, n, m, done, h⟩ := h
    refine ⟨avail, used, n, m, done, h.goto rfl (fun _ _ => rfl) rfl rfl (by rw [hpc]; rfl) ?_⟩
    rw [hpc] at howner
    exact howner

theorem intrLoop_good (h : Good s) : wp intrLoop (fun _ t => Good t) s := by
  obtain ⟨avail, used, n, m, done, h⟩ := h
  simp only [intrLoop, wp_bind, wp_get]
  rw [wp_ite]
  refine ⟨fun hne => ?_, fun _ => ?_⟩
  · obtain ⟨i, used, rfl⟩ := List.exists_cons_of_ne_nil (h.usedIdx_ne_iff.mp hne)
    obtain ⟨helem, p, b, i1, i2, hp, _, hchain⟩ := h.next_completion
    have hlt : i < num := hchain.lt i (List.mem_cons_self ..)
    rw [helem, if_neg (by omega), hchain.info, if_neg (by simp)]
    exact ⟨avail, used, n, m + 1, _, h.clear hp⟩
  · exact ⟨avail, used, n, m, done, h.same rfl (fun _ _ => rfl) (fun _ => rfl) h.owner⟩

theorem body_good (h : Good s) (a : Act P B) : wp (body a) (fun _ t => Good t) s := by
  have howner : ∀ p b, (s.pc p).buf = some b → s.bufLock b = some p := by
    obtain ⟨_, _, _, _, _, h⟩ := h
    exact h.owner
  simp only [body, wp_bind, wp_get]
  cases a with
  | acquiresleep p b =>
      refine wp_ite.mpr ⟨fun hnone => h.same rfl rfl rfl fun q b' hq => ?_, fun _ => trivial⟩
      have hlock := howner q b' hq
      have hb : b' ≠ b := by
        rintro rfl
        rw [hnone.2] at hlock
        cases hlock
      exact (Function.update_of_ne hb ..).trans hlock
  | releasesleep p b =>
      refine wp_ite.mpr ⟨fun hp => h.same rfl rfl rfl fun q b' hq => ?_, fun _ => trivial⟩
      have hb : b' ≠ b := by
        rintro rfl
        have hqp := (howner q b' hq).symm.trans hp.2
        cases hqp
        rw [hp.1] at hq
        cases hq
      exact (Function.update_of_ne hb ..).trans (howner q b' hq)
  | virtioDiskRw p b write =>
      refine wp_ite.mpr ⟨fun hp => ?_, fun _ => trivial⟩
      obtain ⟨hidle, hlock⟩ := hp
      obtain ⟨avail, used, n, m, done, h⟩ := h
      refine ⟨avail, used, n, m, done, h.goto rfl (fun _ _ => rfl) rfl rfl (by rw [hidle]; rfl) ?_⟩
      rintro b' ⟨⟩
      exact hlock
  | go p => exact wp_ite.mpr ⟨fun _ => rwGo_good h, fun _ => trivial⟩
  | kill p => exact h.same rfl rfl rfl howner
  | virtioDiskIntr =>
      rw [wp_bind]
      exact wp_acquire (h.same rfl rfl rfl howner)
  | goIntr => exact wp_ite.mpr ⟨fun _ => intrLoop_good h, fun _ => trivial⟩
  | take =>
      refine wp_ite.mpr ⟨fun hne => ?_, fun _ => trivial⟩
      obtain ⟨avail, used, n, m, done, h⟩ := h
      obtain ⟨avail', h⟩ := h.take hne
      exact ⟨avail', used, n + 1, m, done, h⟩
  | complete i =>
      refine wp_ite.mpr ⟨fun hi => ?_, fun _ => trivial⟩
      obtain ⟨avail, used, n, m, done, h⟩ := h
      exact ⟨avail, used ++ [i], n, m, done, h.complete hi⟩

theorem Good.step {a : Act P B} (h : Good s) (hstep : step s a = some t) : Good t := by
  unfold Virtio.step at hstep
  split at hstep
  case h_1 hbody =>
    cases hstep
    exact of_wp (Q := fun _ t => Good t) (body_good h a) hbody
  all_goals cases hstep

end Xv6.Virtio
