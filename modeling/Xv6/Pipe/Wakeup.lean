import Xv6.Pipe.Fifo

/-!
Sleepers on a pipe.

While the lock is free, a process should sleep on `&pi->nread` only if the
pipe is empty, and on `&pi->nwrite` only if it is full. `pipewrite` breaks
this: when it finds the pipe full and its process killed, or the read end
closed, it returns without waking the readers, although it may have stored
the bytes that made the pipe full in the same call.

The property holds in a run if and only if that exit is only taken while
nobody sleeps on `&pi->nread`.
-/

set_option linter.unusedSectionVars false

namespace Xv6.Pipe

open Lib

variable {P : Type} [DecidableEq P] {s t u : State P} {p q : P} {n : ℤ} {i : ℕ}

/-- Some process is `SLEEPING` on the channel. -/
def State.Sleeper (s : State P) (c : Chan) : Prop := ∃ p, (s.proc p).sleeping = some c

/-- With the lock free, readers sleep only on an empty pipe and writers only
on a full one. -/
def NoLostWakeup (s : State P) : Prop :=
  s.lock = none → (s.Sleeper .nread → s.Empty) ∧ (s.Sleeper .nwrite → s.Full)

/-- The process is about to leave `pipewrite` from a full pipe, waking
nobody. -/
def State.SilentExit (s : State P) (p : P) : Prop :=
  match (s.proc p).pc with
  | .writing n i => i < n ∧ s.Full ∧ (s.readopen = false ∨ (s.proc p).killed)
  | _ => False

/-- The silent exit is taken only while no process sleeps on `&pi->nread`. -/
def Heard (s : State P) : Act P → Prop
  | .move p _ => s.SilentExit p → ¬ s.Sleeper .nread
  | _ => True

instance [Fintype P] (c : Chan) : Decidable (s.Sleeper c) :=
  inferInstanceAs (Decidable (∃ p, (s.proc p).sleeping = some c))

instance : Decidable (s.SilentExit p) := by
  unfold State.SilentExit
  split <;> infer_instance

instance [Fintype P] : ∀ a : Act P, Decidable (Heard s a)
  | .move p _ => inferInstanceAs (Decidable (s.SilentExit p → ¬ s.Sleeper .nread))
  | .write _ _ | .read _ _ | .acquire _ | .close _ _ | .kill _ => isTrue trivial

/-! ### Who sleeps after a step -/

variable {c : Chan}

theorem sleeper_wakeup {d : Chan} : (s.wakeup c).Sleeper d ↔ s.Sleeper d ∧ d ≠ c := by
  simp only [State.Sleeper, State.wakeup, Proc.wake]
  constructor
  · rintro ⟨p, hp⟩
    split_ifs at hp with hc
    refine ⟨⟨p, hp⟩, ?_⟩
    rintro rfl
    exact hc hp
  · rintro ⟨⟨p, hp⟩, hne⟩
    refine ⟨p, ?_⟩
    rw [hp, if_neg fun he => hne (Option.some.inj he)]

theorem sleeper_of_setProc {r : Proc} (h : (s.setProc p r).Sleeper c) :
    s.Sleeper c ∨ r.sleeping = some c := by
  obtain ⟨q, hq⟩ := h
  by_cases hqp : q = p
  · subst hqp
    simp only [State.setProc, Function.update_self] at hq
    exact .inr hq
  · simp only [State.setProc, Function.update_of_ne hqp] at hq
    exact .inl ⟨q, hq⟩

theorem sleeper_goto {pc : Pc} : (s.goto p pc).Sleeper c ↔ s.Sleeper c := by
  have hsame : ∀ q, ((s.goto p pc).proc q).sleeping = (s.proc q).sleeping := by
    intro q
    by_cases hqp : q = p
    · subst hqp
      simp [State.goto, State.setProc]
    · simp [State.goto, State.setProc, hqp]
  simp only [State.Sleeper, hsame]

theorem sleeper_ret {r : ℤ} : (s.ret p r).Sleeper c ↔ s.Sleeper c :=
  sleeper_goto

theorem sleeper_acquire {pc : Pc} : (s.acquire p pc).Sleeper c ↔ s.Sleeper c :=
  sleeper_goto

theorem sleeper_of_sleep {pc : Pc} {d : Chan} (h : (s.sleep p d pc).Sleeper c) :
    s.Sleeper c ∨ c = d := by
  rcases sleeper_of_setProc h with h | h
  · exact .inl h
  · exact .inr (Option.some.inj h).symm

theorem sleeper_of_kill (h : (kill s p).Sleeper c) : s.Sleeper c := by
  rcases sleeper_of_setProc h with h | h
  · exact h
  · cases h

theorem not_empty_of_full (h : s.Full) : ¬ s.Empty := by
  simp only [State.Full, State.Empty, u32, pipesize] at h ⊢
  omega

/-! ### The invariant -/

/-- Processes may sleep through a change of the pipe only as long as the
holder of the lock is in the loop that makes the change; it wakes them
when it leaves the loop. -/
structure Attentive (s : State P) : Prop where
  orderly : Orderly s
  readers : s.Sleeper .nread → s.Empty ∨ ∃ p n i, (s.proc p).pc = .writing n i
  writers : s.Sleeper .nwrite → s.Full ∨ ∃ p n i, (s.proc p).pc = .reading n i

theorem Orderly.eq_holder (h : Orderly s) (hlock : s.lock = some p)
    (hq : (s.proc q).pc.Critical) : q = p :=
  Option.some.inj ((h.locked hq).symm.trans hlock)

theorem Attentive.readers_of (h : Attentive s) (hno : ∀ p n i, (s.proc p).pc ≠ .writing n i) :
    s.Sleeper .nread → s.Empty := by
  intro hs
  rcases h.readers hs with he | ⟨p, n, i, hp⟩
  · exact he
  · exact absurd hp (hno p n i)

theorem Attentive.writers_of (h : Attentive s) (hno : ∀ p n i, (s.proc p).pc ≠ .reading n i) :
    s.Sleeper .nwrite → s.Full := by
  intro hs
  rcases h.writers hs with hf | ⟨p, n, i, hp⟩
  · exact hf
  · exact absurd hp (hno p n i)

theorem Attentive.noLostWakeup (h : Attentive s) : NoLostWakeup s := by
  intro hlock
  have hfree : ∀ p, ¬ (s.proc p).pc.Critical := fun p => h.orderly.none_critical hlock
  exact ⟨h.readers_of fun p n i hp => hfree p (by rw [hp]; trivial),
    h.writers_of fun p n i hp => hfree p (by rw [hp]; trivial)⟩

/-- No other process is in a loop while the holder of the lock is in one. -/
theorem Orderly.ne_of_holder (h : Orderly s) (hlock : s.lock = some p) {c : Pc}
    (hc : c.Critical) (hne : (s.proc p).pc ≠ c) (q : P) : (s.proc q).pc ≠ c := by
  intro hq
  obtain rfl := h.eq_holder hlock (by rw [hq]; exact hc)
  exact hne hq

theorem attentive_init (data : ℕ → UInt8) (killed : P → Bool) : Attentive (init data killed) where
  orderly := .of_none_critical fun _ => id
  readers := by
    rintro ⟨p, hp⟩
    cases hp
  writers := by
    rintro ⟨p, hp⟩
    cases hp

/-! ### Steps -/

theorem Attentive.writeMove (h : Attentive s) (hlock : s.lock = some p)
    (hpc : (s.proc p).pc = .writing n i) {copied : Option UInt8}
    (hheard : Heard s (.move p copied)) : Attentive (writeMove s p n i copied) := by
  have horder := h.orderly.writeMove (n := n) (i := i) hlock copied
  have hwriters : s.Sleeper .nwrite → s.Full := h.writers_of fun q m j =>
    h.orderly.ne_of_holder hlock (c := .reading m j) trivial (by rw [hpc]; nofun) q
  -- every exit but one wakes the readers
  have hquiet : ∀ {t : State P}, Orderly t → t.buffer = s.buffer → ¬ t.Sleeper .nread →
      (t.Sleeper .nwrite → s.Full) → Attentive t := by
    intro t ht hbuf hr hw
    simp only [State.buffer, Prod.mk.injEq] at hbuf
    refine ⟨ht, fun hs => absurd hs hr, fun hs => .inl ?_⟩
    simpa only [State.Full, hbuf.2.1, hbuf.2.2.1] using hw hs
  unfold Pipe.writeMove at horder ⊢
  split_ifs at horder ⊢ with hn hfull hdead
  · refine hquiet horder rfl ?_ fun _ => hfull
    rw [sleeper_ret]
    refine hheard ?_
    rw [State.SilentExit, hpc]
    exact ⟨hn, hfull, hdead⟩
  · refine hquiet horder rfl (fun hs => ?_) fun _ => hfull
    rcases sleeper_of_sleep hs with hs | hs
    · exact (sleeper_wakeup.mp hs).2 rfl
    · cases hs
  · cases copied with
    | none =>
        refine hquiet horder rfl ?_ ?_
        · rw [sleeper_ret, sleeper_wakeup]
          exact fun hs => hs.2 rfl
        · rw [sleeper_ret, sleeper_wakeup]
          exact fun hs => hwriters hs.1
    | some ch =>
        refine ⟨horder, fun _ => .inr ⟨p, n, i + 1, by simp⟩, fun hs => ?_⟩
        rw [sleeper_goto] at hs
        exact absurd (hwriters hs) hfull
  · refine hquiet horder rfl ?_ ?_
    · rw [sleeper_ret, sleeper_wakeup]
      exact fun hs => hs.2 rfl
    · rw [sleeper_ret, sleeper_wakeup]
      exact fun hs => hwriters hs.1

theorem Attentive.readWait (h : Attentive s) (hlock : s.lock = some p)
    (hpc : (s.proc p).pc = .waiting n) : Attentive (readWait s p n) := by
  have horder := h.orderly.readWait (n := n) hlock
  have hwriters : s.Sleeper .nwrite → s.Full := h.writers_of fun q m j =>
    h.orderly.ne_of_holder hlock (c := .reading m j) trivial (by rw [hpc]; nofun) q
  have hreaders : s.Sleeper .nread → s.Empty := h.readers_of fun q m j =>
    h.orderly.ne_of_holder hlock (c := .writing m j) trivial (by rw [hpc]; nofun) q
  rw [Pipe.readWait] at horder ⊢
  split_ifs at horder ⊢ with hempty hkilled
  · exact ⟨horder, fun hs => .inl (hreaders (sleeper_ret.mp hs)),
      fun hs => .inl (hwriters (sleeper_ret.mp hs))⟩
  · refine ⟨horder, fun _ => .inl hempty.1, fun hs => .inl ?_⟩
    rcases sleeper_of_sleep hs with hs | hs
    · exact hwriters hs
    · cases hs
  · exact ⟨horder, fun hs => .inl (hreaders (sleeper_goto.mp hs)),
      fun hs => .inl (hwriters (sleeper_goto.mp hs))⟩

theorem Attentive.readMove (h : Attentive s) (hlock : s.lock = some p)
    (hpc : (s.proc p).pc = .reading n i) (copied : Bool) : Attentive (readMove s p n i copied) := by
  have horder := h.orderly.readMove (n := n) (i := i) hlock copied
  have hreaders : s.Sleeper .nread → s.Empty := h.readers_of fun q m j =>
    h.orderly.ne_of_holder hlock (c := .writing m j) trivial (by rw [hpc]; nofun) q
  rw [Pipe.readMove] at horder ⊢
  split_ifs at horder ⊢ with hn hempty hcopied
  · refine ⟨horder, fun _ => .inl hempty, fun hs => ?_⟩
    rw [sleeper_ret, sleeper_wakeup] at hs
    exact absurd rfl hs.2
  · refine ⟨horder, fun hs => ?_, fun _ => .inr ⟨p, n, i + 1, by simp⟩⟩
    rw [sleeper_goto] at hs
    exact absurd (hreaders hs) hempty
  · refine ⟨horder, fun hs => ?_, fun hs => ?_⟩
    · rw [sleeper_ret, sleeper_wakeup] at hs
      exact absurd (hreaders hs.1) hempty
    · rw [sleeper_ret, sleeper_wakeup] at hs
      exact absurd rfl hs.2
  · refine ⟨horder, fun hs => ?_, fun hs => ?_⟩
    · rw [sleeper_ret, sleeper_wakeup] at hs
      exact .inl (hreaders hs.1)
    · rw [sleeper_ret, sleeper_wakeup] at hs
      exact absurd rfl hs.2

/-- A process that is outside the loops starts a call. -/
theorem Attentive.enter (h : Attentive s) (hp : (s.proc p).pc.isUser) {pc : Pc}
    (hpc : ¬ pc.Critical) : Attentive (s.goto p pc) := by
  have hkeep : ∀ {q pc'}, (s.proc q).pc = pc' → pc'.isUser = false →
      ((s.goto p pc).proc q).pc = pc' := by
    rintro q pc' rfl hq
    rw [pc_goto, if_neg]
    rintro rfl
    rw [hp] at hq
    cases hq
  refine ⟨h.orderly.enter hpc, fun hs => ?_, fun hs => ?_⟩
  · refine (h.readers (sleeper_goto.mp hs)).imp_right ?_
    rintro ⟨q, m, j, hq⟩
    exact ⟨q, m, j, hkeep hq rfl⟩
  · refine (h.writers (sleeper_goto.mp hs)).imp_right ?_
    rintro ⟨q, m, j, hq⟩
    exact ⟨q, m, j, hkeep hq rfl⟩

theorem Attentive.step {a : Act P} (h : Attentive s) (hheard : Heard s a)
    (hstep : step s a = some t) : Attentive t := by
  have horder := h.orderly.step hstep
  cases a with
  | write p n | read p n =>
      obtain ⟨⟨hp, -⟩, ⟨⟩⟩ := Option.ite_none_right_eq_some.mp hstep
      exact h.enter hp id
  | acquire p =>
      obtain ⟨⟨hlock, -⟩, hacq⟩ := Option.ite_none_right_eq_some.mp hstep
      obtain ⟨pc, -, ⟨⟩⟩ := Option.bind_eq_some_iff.mp hacq
      have hquiet := h.noLostWakeup hlock
      exact ⟨horder, fun hs => .inl (hquiet.1 (sleeper_acquire.mp hs)),
        fun hs => .inl (hquiet.2 (sleeper_acquire.mp hs))⟩
  | move p copied =>
      obtain ⟨hlock, hmove⟩ := Option.ite_none_right_eq_some.mp hstep
      rw [move] at hmove
      split at hmove
      next hpc =>
        cases hmove
        exact h.writeMove hlock hpc hheard
      next hpc =>
        cases hmove
        exact h.readWait hlock hpc
      next hpc =>
        cases hmove
        exact h.readMove hlock hpc _
      next => cases hmove
  | close p w =>
      obtain ⟨⟨-, hlock, -⟩, ⟨⟩⟩ := Option.ite_none_right_eq_some.mp hstep
      have hquiet := h.noLostWakeup hlock
      cases w with
      | true =>
          refine ⟨horder, fun hs => ?_, fun hs => .inl ?_⟩
          · exact absurd rfl (sleeper_wakeup.mp hs).2
          · exact hquiet.2 (sleeper_wakeup.mp hs).1
      | false =>
          refine ⟨horder, fun hs => .inl ?_, fun hs => ?_⟩
          · exact hquiet.1 (sleeper_wakeup.mp hs).1
          · exact absurd rfl (sleeper_wakeup.mp hs).2
  | kill p =>
      cases hstep
      refine ⟨horder, fun hs => ?_, fun hs => ?_⟩
      · simp only [pc_kill]
        exact h.readers (sleeper_of_kill hs)
      · simp only [pc_kill]
        exact h.writers (sleeper_of_kill hs)

/-- The exit that wakes nobody leaves a reader asleep in front of a full
pipe. -/
theorem lost_of_not_heard {a : Act P} (hheard : ¬ Heard s a) (hstep : step s a = some t) :
    ¬ NoLostWakeup t := by
  cases a with
  | move p copied =>
      obtain ⟨-, hmove⟩ := Option.ite_none_right_eq_some.mp hstep
      obtain ⟨hexit, hs⟩ := Classical.not_imp.mp hheard
      rw [not_not] at hs
      rw [State.SilentExit] at hexit
      split at hexit
      next n i hpc =>
        obtain ⟨hn, hfull, hdead⟩ := hexit
        rw [move, hpc] at hmove
        unfold writeMove at hmove
        simp only [if_pos hn, if_pos hfull, if_pos hdead] at hmove
        cases hmove
        exact fun h => not_empty_of_full hfull ((h rfl).1 (sleeper_ret.mpr hs))
      next => exact hexit.elim
  | _ => exact absurd trivial hheard

/-- **When wakeups on a pipe are lost.** Throughout a run, readers sleep only
on an empty pipe and writers only on a full one whenever the lock is free,
if and only if `pipewrite` never takes its silent exit while a process
sleeps on `&pi->nread`. -/
theorem noLostWakeup_iff {data : ℕ → UInt8} {killed : P → Bool} {acts : List (Act P)}
    (hrun : run step (init data killed) acts = some t) :
    (∀ as u, as <+: acts → run step (init data killed) as = some u → NoLostWakeup u) ↔
      Meets step Heard (init data killed) acts :=
  forall_prefix_iff_meets (fun h => h.noLostWakeup) (fun h hheard hstep => h.step hheard hstep)
    (fun _ hheard hstep => lost_of_not_heard hheard hstep) (attentive_init data killed) hrun

/-- A reader goes to sleep, and a writer stores a byte and wakes it. -/
theorem noLostWakeup_one_byte : ∃ t : State Bool,
    run step (init (fun _ => 0) fun _ => false) [.read false 1, .acquire false, .move false none,
      .write true 1, .acquire true, .move true (some 7), .move true none] = some t ∧
      NoLostWakeup t := by
  have hrun := (Option.some_get (by decide +kernel : Option.isSome (run step
    (init (fun _ => 0) fun _ => false : State Bool) [.read false 1, .acquire false,
      .move false none, .write true 1, .acquire true, .move true (some 7), .move true none])
        = true)).symm
  exact ⟨_, hrun, (noLostWakeup_iff hrun).mpr (by decide +kernel) _ _ (List.prefix_refl _) hrun⟩

/-- A reader sleeps; a writer with 513 bytes is killed while it fills the
pipe, and leaves when it is full. -/
def killedWriter : List (Act Bool) :=
  [.read false 1, .acquire false, .move false none, .write true 513, .acquire true, .kill true] ++
    List.replicate 512 (.move true (some 1)) ++ [.move true none]

/-- The reader sleeps on in front of the full pipe. -/
theorem killed_writer_wakes_nobody : ∃ t,
    run step (init (fun _ => 0) fun _ => false) killedWriter = some t ∧ t.lock = none ∧
      (t.proc false).sleeping = some .nread ∧ t.Full ∧ ¬ t.Empty ∧ t.writeopen = true := by
  have hrun := (Option.some_get (by decide +kernel : Option.isSome (run step
    (init (fun _ => 0) fun _ => false) killedWriter) = true)).symm
  exact ⟨_, hrun, by decide +kernel⟩

end Xv6.Pipe
