import Xv6.Lib.Ring
import Xv6.Lib.Runs
import Xv6.Pipe.System

/-!
A pipe delivers the bytes stored in it, in order.

The buffer is a ring with free-running counters of 32 bits. As 512 divides
`2 ^ 32`, a counter that wraps goes on with the right cell, and as the
counters are at most 512 apart, comparing them for equality tells an empty
from a full buffer.
-/

set_option linter.unusedSectionVars false

namespace Xv6.Pipe

open Lib

variable {P : Type} [DecidableEq P] {s t u : State P} {p q : P} {n : ℤ} {i : ℕ}

/-! ### What a step does to the buffer -/

/-- The part of the state that holds bytes. -/
def State.buffer (s : State P) : (ℕ → UInt8) × ℕ × ℕ × List UInt8 × List UInt8 :=
  (s.data, s.nread, s.nwrite, s.stored, s.delivered)

@[simp] theorem buffer_goto (pc : Pc) : (s.goto p pc).buffer = s.buffer := rfl

@[simp] theorem buffer_ret (r : ℤ) : (s.ret p r).buffer = s.buffer := rfl

@[simp] theorem buffer_sleep (c : Chan) (pc : Pc) : (s.sleep p c pc).buffer = s.buffer := rfl

@[simp] theorem buffer_wakeup (c : Chan) : (s.wakeup c).buffer = s.buffer := rfl

@[simp] theorem buffer_kill : (kill s p).buffer = s.buffer := rfl

@[simp] theorem buffer_pipeclose (w : Bool) : (pipeclose s w).buffer = s.buffer := by
  cases w <;> rfl

/-- The bytes are left alone, one is stored in a buffer that is not full, or
one is delivered from a buffer that is not empty. -/
inductive Effect (s t : State P) : Prop where
  | same (h : t.buffer = s.buffer)
  | put (ch : UInt8) (hfull : ¬ s.Full) (h : t.buffer = (s.put ch).buffer)
  | deliver (hempty : ¬ s.Empty) (h : t.buffer = s.deliver.buffer)

theorem effect_writeMove (copied : Option UInt8) : Effect s (writeMove s p n i copied) := by
  unfold writeMove
  split_ifs with hn hfull hdead
  · exact .same rfl
  · exact .same rfl
  · cases copied with
    | none => exact .same rfl
    | some ch => exact .put ch hfull rfl
  · exact .same rfl

theorem effect_readWait : Effect s (readWait s p n) := by
  rw [readWait]
  split_ifs <;> exact .same rfl

theorem effect_readMove : Effect s (readMove s p n i true) := by
  rw [readMove]
  split_ifs with hn hempty hcopied
  · exact .same rfl
  · exact .deliver hempty rfl
  · exact absurd rfl hcopied
  · exact .same rfl

/-- Every step whose copies succeed is one of these. -/
theorem effect_step {a : Act P} (ha : ∀ p, a ≠ .move p none) (hstep : step s a = some t) :
    Effect s t := by
  cases a with
  | write p n | read p n | close p w =>
      obtain ⟨-, ⟨⟩⟩ := Option.ite_none_right_eq_some.mp hstep
      exact .same (by simp)
  | acquire p =>
      obtain ⟨-, hacq⟩ := Option.ite_none_right_eq_some.mp hstep
      obtain ⟨pc, -, ⟨⟩⟩ := Option.bind_eq_some_iff.mp hacq
      exact .same rfl
  | move p copied =>
      obtain ⟨-, hmove⟩ := Option.ite_none_right_eq_some.mp hstep
      have hcopied : copied ≠ none := fun h => ha p (by rw [h])
      obtain ⟨ch, rfl⟩ := Option.ne_none_iff_exists'.mp hcopied
      rw [move] at hmove
      split at hmove
      · cases hmove
        exact effect_writeMove _
      · cases hmove
        exact effect_readWait
      · cases hmove
        exact effect_readMove
      · cases hmove
  | kill p =>
      cases hstep
      exact .same rfl

/-! ### The queue -/

/-- The buffer holds the bytes that are stored and not yet delivered. -/
def Queued (s : State P) : Prop :=
  ∃ rest, s.stored = s.delivered ++ rest ∧
    Ring pipesize (2 ^ 32) s.data s.nread s.nwrite s.delivered.length rest

theorem pipesize_dvd : pipesize ∣ 2 ^ 32 := by decide

theorem pipesize_lt : pipesize < 2 ^ 32 := by decide

theorem queued_init (data : ℕ → UInt8) (killed : P → Bool) : Queued (init data killed) :=
  ⟨[], rfl, rfl, rfl, Nat.zero_le _, nofun⟩

theorem Queued.congr (h : Queued s) (hbuf : t.buffer = s.buffer) : Queued t := by
  simp only [State.buffer, Prod.mk.injEq] at hbuf
  obtain ⟨hdata, hnread, hnwrite, hstored, hdelivered⟩ := hbuf
  simpa only [Queued, hdata, hnread, hnwrite, hstored, hdelivered] using h

theorem Queued.put (h : Queued s) (hfull : ¬ s.Full) (ch : UInt8) : Queued (s.put ch) := by
  obtain ⟨rest, hstored, hring⟩ := h
  have hroom : rest.length < pipesize :=
    lt_of_le_of_ne hring.length_le fun he => hfull ((hring.full_iff pipesize_lt).mpr he)
  refine ⟨rest ++ [ch], ?_, hring.push pipesize_dvd hroom⟩
  change s.stored ++ [ch] = s.delivered ++ (rest ++ [ch])
  rw [hstored, List.append_assoc]

theorem Queued.deliver (h : Queued s) (hempty : ¬ s.Empty) : Queued s.deliver := by
  obtain ⟨rest, hstored, hring⟩ := h
  cases rest with
  | nil => exact absurd ((hring.empty_iff pipesize_lt).mpr rfl) hempty
  | cons ch rest =>
      have hfront : s.data (s.nread % pipesize) = ch := hring.front pipesize_dvd
      refine ⟨rest, ?_, ?_⟩
      · change s.stored = s.delivered ++ [s.data (s.nread % pipesize)] ++ rest
        rw [hfront, hstored, List.append_assoc, List.singleton_append]
      · change Ring _ _ s.data (u32 (s.nread + 1)) s.nwrite (s.delivered ++ [_]).length rest
        rw [List.length_append, List.length_singleton]
        exact hring.pop

theorem Queued.effect (h : Queued s) (he : Effect s t) : Queued t := by
  cases he with
  | same hbuf => exact h.congr hbuf
  | put ch hfull hbuf => exact (h.put hfull ch).congr hbuf
  | deliver hempty hbuf => exact (h.deliver hempty).congr hbuf

theorem Queued.delivered_eq (h : Queued s) (hempty : s.Empty) : s.delivered = s.stored := by
  obtain ⟨rest, hstored, hring⟩ := h
  rw [hstored, (hring.empty_iff pipesize_lt).mp hempty, List.append_nil]

/-! ### Ends of file -/

/-- The process holds the lock. -/
def Pc.Critical : Pc → Prop
  | .writing _ _ | .waiting _ | .reading _ _ => True
  | _ => False

/-- A process in a loop holds the lock, and a reader begins to copy only from
a buffer that has bytes or will get no more. -/
structure Orderly (s : State P) : Prop where
  locked : ∀ {p}, (s.proc p).pc.Critical → s.lock = some p
  ready : ∀ {p n}, (s.proc p).pc = .reading n 0 → ¬(s.Empty ∧ s.writeopen)

@[simp] theorem pc_goto (pc : Pc) :
    ((s.goto p pc).proc q).pc = if q = p then pc else (s.proc q).pc := by
  by_cases h : q = p
  · subst h
    simp [State.goto, State.setProc]
  · simp [State.goto, State.setProc, h]

@[simp] theorem pc_acquire (pc : Pc) :
    ((s.acquire p pc).proc q).pc = if q = p then pc else (s.proc q).pc :=
  pc_goto _

@[simp] theorem pc_ret (r : ℤ) :
    ((s.ret p r).proc q).pc = if q = p then .user r else (s.proc q).pc :=
  pc_goto _

@[simp] theorem pc_sleep (c : Chan) (pc : Pc) :
    ((s.sleep p c pc).proc q).pc = if q = p then pc else (s.proc q).pc := by
  by_cases h : q = p
  · subst h
    simp [State.sleep, State.setProc]
  · simp [State.sleep, State.setProc, h]

@[simp] theorem pc_wakeup (c : Chan) : ((s.wakeup c).proc q).pc = (s.proc q).pc := rfl

@[simp] theorem pc_kill : ((kill s p).proc q).pc = (s.proc q).pc := by
  by_cases h : q = p
  · subst h
    simp [kill, State.setProc]
  · simp [kill, State.setProc, h]

theorem Orderly.none_critical (h : Orderly s) (hlock : s.lock = none) :
    ¬ (s.proc p).pc.Critical := by
  intro hp
  rw [h.locked hp] at hlock
  cases hlock

/-- With the lock free no process is in a loop. -/
theorem Orderly.of_none_critical (h : ∀ p, ¬ (s.proc p).pc.Critical) : Orderly s where
  locked hp := absurd hp (h _)
  ready hp := absurd (by rw [hp]; trivial) (h _)

/-- The holder of the lock gives it back. -/
theorem Orderly.leave (h : Orderly s) (hlock : s.lock = some p)
    (hpc : ∀ q, (t.proc q).pc = if q = p then (t.proc p).pc else (s.proc q).pc)
    (hp : ¬ (t.proc p).pc.Critical) : Orderly t := by
  refine .of_none_critical fun q hq => ?_
  rw [hpc] at hq
  split_ifs at hq with hqp
  · exact hp hq
  · have := h.locked hq
    rw [hlock] at this
    exact hqp (Option.some.inj this).symm

/-- The holder of the lock goes on with it. -/
theorem Orderly.stay (h : Orderly s) (hlock : s.lock = some p) (hlock' : t.lock = some p)
    (hpc : ∀ q, (t.proc q).pc = if q = p then (t.proc p).pc else (s.proc q).pc)
    (hready : ∀ n, (t.proc p).pc = .reading n 0 → ¬(t.Empty ∧ t.writeopen)) : Orderly t := by
  have hother : ∀ {q}, q ≠ p → ¬ (t.proc q).pc.Critical := by
    intro q hqp hq
    rw [hpc, if_neg hqp] at hq
    have := h.locked hq
    rw [hlock] at this
    exact hqp (Option.some.inj this).symm
  refine ⟨fun {q} hq => ?_, fun {q m} hq => ?_⟩
  · by_cases hqp : q = p
    · rw [hqp, hlock']
    · exact absurd hq (hother hqp)
  · by_cases hqp : q = p
    · subst hqp
      exact hready m hq
    · exact absurd (by rw [hq]; trivial) (hother hqp)

theorem Orderly.writeMove (h : Orderly s) (hlock : s.lock = some p) (copied : Option UInt8) :
    Orderly (writeMove s p n i copied) := by
  unfold Pipe.writeMove
  split_ifs with hn hfull hdead
  · exact h.leave hlock (by simp) (by simp [Pc.Critical])
  · exact h.leave hlock (by simp) (by simp [Pc.Critical])
  · cases copied with
    | none => exact h.leave hlock (by simp) (by simp [Pc.Critical])
    | some ch => exact h.stay hlock hlock (fun q => by simp; rfl) (by simp)
  · exact h.leave hlock (by simp) (by simp [Pc.Critical])

theorem Orderly.readWait (h : Orderly s) (hlock : s.lock = some p) : Orderly (readWait s p n) := by
  rw [Pipe.readWait]
  split_ifs with hempty hkilled
  · exact h.leave hlock (by simp) (by simp [Pc.Critical])
  · exact h.leave hlock (by simp) (by simp [Pc.Critical])
  · exact h.stay hlock hlock (by simp) fun _ _ => hempty

theorem Orderly.readMove (h : Orderly s) (hlock : s.lock = some p) (copied : Bool) :
    Orderly (readMove s p n i copied) := by
  rw [Pipe.readMove]
  split_ifs with hn hempty hcopied
  · exact h.leave hlock (by simp) (by simp [Pc.Critical])
  · exact h.stay hlock hlock (fun q => by simp; rfl) (by simp)
  · exact h.leave hlock (fun q => by simp; rfl) (by simp [Pc.Critical])
  · exact h.leave hlock (by simp) (by simp [Pc.Critical])

/-- A process outside the loops starts a call. -/
theorem Orderly.enter (h : Orderly s) {pc : Pc} (hpc : ¬ pc.Critical) : Orderly (s.goto p pc) := by
  refine ⟨fun {q} hq => ?_, fun {q m} hq => ?_⟩
  · rw [pc_goto] at hq
    split_ifs at hq with hqp
    · exact absurd hq hpc
    · exact h.locked hq
  · rw [pc_goto] at hq
    split_ifs at hq with hqp
    · exact absurd (by rw [hq]; trivial) hpc
    · exact h.ready hq

theorem Orderly.step {a : Act P} (h : Orderly s) (hstep : step s a = some t) : Orderly t := by
  cases a with
  | write p n | read p n =>
      obtain ⟨-, ⟨⟩⟩ := Option.ite_none_right_eq_some.mp hstep
      exact h.enter (by simp [Pc.Critical])
  | acquire p =>
      obtain ⟨⟨hlock, -⟩, hacq⟩ := Option.ite_none_right_eq_some.mp hstep
      obtain ⟨pc, hpc, ⟨⟩⟩ := Option.bind_eq_some_iff.mp hacq
      have hother : ∀ {q}, ((s.acquire p pc).proc q).pc.Critical → q = p := by
        intro q hq
        rw [pc_acquire] at hq
        split_ifs at hq with hqp
        · exact hqp
        · exact absurd hq (h.none_critical hlock)
      refine ⟨fun hq => by rw [hother hq]; rfl, fun {q m} hq => ?_⟩
      obtain rfl := hother (q := q) (by rw [hq]; trivial)
      rw [pc_acquire, if_pos rfl] at hq
      subst hq
      -- nobody acquires the lock to copy right away
      revert hpc
      cases (s.proc q).pc <;> simp [Pc.locked]
  | move p copied =>
      obtain ⟨hlock, hmove⟩ := Option.ite_none_right_eq_some.mp hstep
      rw [move] at hmove
      split at hmove
      · cases hmove
        exact h.writeMove hlock _
      · cases hmove
        exact h.readWait hlock
      · cases hmove
        exact h.readMove hlock _
      · cases hmove
  | close p w =>
      obtain ⟨⟨-, hlock, -⟩, ⟨⟩⟩ := Option.ite_none_right_eq_some.mp hstep
      refine .of_none_critical fun q => ?_
      have hpc : ((pipeclose s w).proc q).pc = (s.proc q).pc := by cases w <;> rfl
      rw [hpc]
      exact h.none_critical hlock
  | kill p =>
      cases hstep
      refine ⟨fun hq => ?_, fun hq => ?_⟩
      · rw [pc_kill] at hq
        exact h.locked hq
      · rw [pc_kill] at hq
        exact h.ready hq

/-- A reader that gets nothing has met an empty buffer and a closed end. -/
theorem closed_of_read_zero (h : Orderly s) (hq : Queued s) (hn : 0 < n)
    (hpc : (s.proc p).pc = .reading n i) (hret : ((readMove s p n i true).proc p).pc = .user 0) :
    s.writeopen = false ∧ readMove s p n i true = (s.wakeup .nwrite).ret p 0 ∧
      s.delivered = s.stored := by
  rw [readMove] at hret ⊢
  split_ifs at hret ⊢ with hin hempty hcopied
  · rw [pc_ret, if_pos rfl] at hret
    obtain rfl : i = 0 := by simpa using hret
    refine ⟨?_, rfl, hq.delivered_eq hempty⟩
    cases hopen : s.writeopen with
    | false => rfl
    | true => exact absurd ⟨hempty, hopen⟩ (h.ready hpc)
  · rw [pc_goto, if_pos rfl] at hret
    cases hret
  · exact absurd rfl hcopied
  · rw [pc_ret, if_pos rfl] at hret
    obtain rfl : i = 0 := by simpa using hret
    exact absurd hn (by omega)

/-- **A pipe is a queue.** In every run of calls whose copies succeed, the
counters stay within the size of the buffer of each other, however often
they wrap; what readers got is what writers stored, in order, from the
first byte on; and a read of some bytes that returns none finds the write
end closed and every byte delivered. -/
theorem pipe_fifo {data : ℕ → UInt8} {killed : P → Bool} {acts : List (Act P)}
    (hcopies : ∀ p, .move p none ∉ acts) (hrun : run step (init data killed) acts = some t) :
    u32 (t.nwrite + (2 ^ 32 - t.nread)) ≤ pipesize ∧ t.delivered <+: t.stored ∧
      ∀ p n i ch u, 0 < n → (t.proc p).pc = .reading n i → step t (.move p (some ch)) = some u →
        (u.proc p).pc = .user 0 → u.writeopen = false ∧ u.delivered = u.stored := by
  have hmeets : Meets step (fun _ a => ∀ p, a ≠ .move p none) (init data killed) acts :=
    meets_of_forall_mem fun a ha p he => hcopies p (he ▸ ha)
  obtain ⟨hq, hord⟩ := invariant (I := fun s => Queued s ∧ Orderly s)
    (fun h ha hstep => ⟨h.1.effect (effect_step ha hstep), h.2.step hstep⟩)
    ⟨queued_init data killed, .of_none_critical fun _ => id⟩ hmeets hrun
  refine ⟨?_, ?_, fun p n i ch u hn hpc hstep hret => ?_⟩
  · obtain ⟨rest, -, hring⟩ := hq
    exact (hring.distance pipesize_lt).trans_le hring.length_le
  · obtain ⟨rest, hstored, -⟩ := hq
    exact ⟨rest, hstored.symm⟩
  · obtain ⟨-, hmove⟩ := Option.ite_none_right_eq_some.mp hstep
    rw [move, hpc] at hmove
    cases hmove
    obtain ⟨hclosed, hu, hall⟩ := closed_of_read_zero hord hq hn hpc hret
    rw [Option.isSome_some, hu]
    exact ⟨hclosed, hall⟩

/-- A writer stores two bytes, a reader gets one of them. -/
theorem pipe_fifo_two_bytes : ∃ t : State Bool,
    run step (init (fun _ => 0) fun _ => false)
      [.write true 2, .read false 1, .acquire true, .move true (some 7), .move true (some 8),
        .move true (some 0), .acquire false, .move false (some 0), .move false (some 0)] = some t ∧
      u32 (t.nwrite + (2 ^ 32 - t.nread)) ≤ pipesize ∧ t.delivered <+: t.stored := by
  have hrun := (Option.some_get (by decide +kernel : Option.isSome (run step
    (init (fun _ => 0) fun _ => false : State Bool)
      [.write true 2, .read false 1, .acquire true, .move true (some 7), .move true (some 8),
        .move true (some 0), .acquire false, .move false (some 0), .move false (some 0)])
          = true)).symm
  have h := pipe_fifo (by decide) hrun
  exact ⟨_, hrun, h.1, h.2.1⟩

end Xv6.Pipe
