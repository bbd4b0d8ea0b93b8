import Xv6.Log.Disk
import Xv6.Lib.Runs

/-!
Log space: `begin_op`, `log_write` and `end_op` by any number of
processes.

`begin_op` and `end_op` work under `log.lock` and are one step each.
`log_write` looks at `lh.n` before it takes the lock, so it is two steps:
the tests, and the search for the block in the header. A process in
`end_op` that has found no other operation outstanding commits without the
lock; `commit` stands for `write_log` and what follows it up to `lh.n = 0`.

An operation carries the set of the blocks it has passed to `log_write`;
a step that would make it more than `MAXOPBLOCKS` is not enabled.
-/

namespace Xv6.Log

open Lib DiskProg

/-- `sb.logstart` and `sb.nlog` as `mkfs` computes them. -/
abbrev logstart : ℕ := 2

abbrev nlog : ℕ := logSize

/-- Where a process is in its operation. -/
inductive Op
  | idle
  | active (used : Finset ℕ)
  /-- past the tests of `log_write` of `b` -/
  | logging (used : Finset ℕ) (b : ℕ)
  /-- in `end_op`, about to run `commit` -/
  | committing
  /-- in `end_op`, back from `commit` -/
  | committed
  deriving DecidableEq

/-- Counted in `log.outstanding`. -/
def Op.counted : Op → Bool
  | .active _ | .logging _ _ => true
  | _ => false

/-- In `end_op`, with the flag `committing` set. -/
def Op.ending : Op → Bool
  | .committing | .committed => true
  | _ => false

inductive Panic
  | tooBig
  | outsideTrans
  | committing
  deriving DecidableEq

/-- `struct log` with the operations of the processes. `lh` holds the
first `lh.n` entries of `lh.block[]`. -/
structure LogState (P : Type) where
  lh : List ℕ := []
  outstanding : ℕ := 0
  committing : Bool := false
  op : P → Op := fun _ => .idle
  panicked : Option Panic := none

inductive Act (P : Type)
  | beginOp (p : P)
  | logWrite (p : P) (b : ℕ)
  | record (p : P) (b : ℕ)
  | endOp (p : P)
  | commit (p : P)
  | endCommit (p : P)
  deriving DecidableEq

namespace LogState

variable {P : Type} [DecidableEq P]

def setOp (s : LogState P) (p : P) (o : Op) : LogState P :=
  { s with op := Function.update s.op p o }

/-- The step function; a state that has panicked has no step. -/
def step (s : LogState P) (a : Act P) : Option (LogState P) :=
  if s.panicked ≠ none then none else
  match a with
  | .beginOp p =>
      if s.op p = .idle ∧ s.committing = false ∧
          s.lh.length + (s.outstanding + 1) * maxOpBlocks ≤ logSize then
        some ({ s with outstanding := s.outstanding + 1 }.setOp p (.active ∅))
      else none
  | .logWrite p b =>
      match s.op p with
      | .active used =>
          if (insert b used).card ≤ maxOpBlocks then
            if logSize ≤ s.lh.length ∨ nlog - 1 ≤ s.lh.length then
              some { s with panicked := some .tooBig }
            else if s.outstanding < 1 then some { s with panicked := some .outsideTrans }
            else some (s.setOp p (.logging (insert b used) b))
          else none
      | _ => none
  | .record p b =>
      match s.op p with
      | .logging used b' =>
          if b = b' then
            some ({ s with lh := if b ∈ s.lh then s.lh else s.lh ++ [b] }.setOp p (.active used))
          else none
      | _ => none
  | .endOp p =>
      match s.op p with
      | .active _ =>
          if s.committing then some { s with panicked := some .committing }
          else if s.outstanding - 1 = 0 then
            some ({ s with outstanding := s.outstanding - 1, committing := true }.setOp p .committing)
          else some ({ s with outstanding := s.outstanding - 1 }.setOp p .idle)
      | _ => none
  | .commit p =>
      if s.op p = .committing then some ({ s with lh := [] }.setOp p .committed) else none
  | .endCommit p =>
      if s.op p = .committed then some ({ s with committing := false }.setOp p .idle) else none

/-- `log_write` has not found the transaction too big, and a process that
is about to run `commit` will write log blocks only. -/
structure Fits (s : LogState P) : Prop where
  no_panic : s.panicked ≠ some .tooBig
  inside : ∀ p, s.op p = .committing → ∀ cache d, ∀ b ∈ (writeLog logstart s.lh cache).targets d,
    logstart ≤ b ∧ b < logstart + nlog

end LogState

/-- The blocks logged since the last commit, given those at the start. -/
def logged {P : Type} : Finset ℕ → List (Act P) → Finset ℕ
  | l, [] => l
  | l, .record _ b :: as => logged (insert b l) as
  | _, .commit _ :: as => logged ∅ as
  | l, .beginOp _ :: as | l, .logWrite _ _ :: as | l, .endOp _ :: as | l, .endCommit _ :: as =>
      logged l as

namespace LogState

variable {P : Type} [DecidableEq P]

theorem targets_writeLog (lh : List ℕ) (cache : ℕ → Block) (d : Disk) :
    (writeLog logstart lh cache).targets d =
      (List.range' 0 lh.length).map fun tail => logstart + tail + 1 :=
  targets_upTo (fun _ _ => rfl) _ _ _

/-- `write_log` stays inside the log exactly when the header leaves room
for its blocks. -/
theorem inside_iff (lh : List ℕ) (cache : ℕ → Block) (d : Disk) :
    (∀ b ∈ (writeLog logstart lh cache).targets d, logstart ≤ b ∧ b < logstart + nlog) ↔
      lh.length ≤ nlog - 1 := by
  rw [targets_writeLog]
  simp only [List.mem_map, List.mem_range'_1, forall_exists_index, and_imp]
  constructor
  · intro h
    by_contra hlen
    have := h _ (lh.length - 1) (by omega) (by omega) rfl
    omega
  · rintro h _ tail - htail rfl
    omega

/-- `n` processes are in an operation. -/
def Counts (op : P → Op) (n : ℕ) : Prop :=
  ∃ ops : Finset P, (∀ p, p ∈ ops ↔ (op p).counted = true) ∧ ops.card = n

theorem Counts.keep {op : P → Op} {n : ℕ} (h : Counts op n) {p : P} {o : Op}
    (ho : o.counted = (op p).counted) : Counts (Function.update op p o) n := by
  obtain ⟨ops, hops, hcard⟩ := h
  refine ⟨ops, fun q => ?_, hcard⟩
  by_cases hq : q = p
  · subst hq
    rw [hops, Function.update_self, ho]
  · rw [hops, Function.update_of_ne hq]

theorem Counts.enter {op : P → Op} {n : ℕ} (h : Counts op n) {p : P} {o : Op}
    (hp : (op p).counted = false) (ho : o.counted = true) :
    Counts (Function.update op p o) (n + 1) := by
  obtain ⟨ops, hops, hcard⟩ := h
  have hmem : p ∉ ops := fun hm => by simp [(hops p).mp hm] at hp
  refine ⟨insert p ops, fun q => ?_, by rw [Finset.card_insert_of_notMem hmem, hcard]⟩
  by_cases hq : q = p
  · subst hq
    simp [ho]
  · simp [hq, hops]

theorem Counts.leave {op : P → Op} {n : ℕ} (h : Counts op n) {p : P} {o : Op}
    (hp : (op p).counted = true) (ho : o.counted = false) :
    Counts (Function.update op p o) (n - 1) := by
  obtain ⟨ops, hops, hcard⟩ := h
  refine ⟨ops.erase p, fun q => ?_, by rw [Finset.card_erase_of_mem ((hops p).mpr hp), hcard]⟩
  by_cases hq : q = p
  · subst hq
    simp [ho]
  · simp [hq, hops]

/-- What the log keeps true. -/
structure Inv (s : LogState P) : Prop where
  nodup : s.lh.Nodup
  count : Counts s.op s.outstanding
  flag : ∀ p, (s.op p).ending = true → s.committing = true
  one : ∀ p q, (s.op p).ending = true → (s.op q).ending = true → p = q
  alone : s.committing = true → s.outstanding = 0
  no_panic : s.panicked ≠ some .tooBig
  room : ∀ p, s.op p = .committing → s.lh.length ≤ nlog - 1

variable {s t : LogState P}

omit [DecidableEq P] in
theorem Inv.fits (h : s.Inv) : s.Fits where
  no_panic := h.no_panic
  inside p hp cache d := (inside_iff s.lh cache d).mpr (h.room p hp)

/-- A step of a process that stays outside `commit`. -/
theorem Inv.setOp (h : s.Inv) {p : P} {o : Op} {n : ℕ} {lh : List ℕ}
    (hlh : lh.Nodup) (hcount : Counts (Function.update s.op p o) n) (ho : o.ending = false)
    (hflag : s.committing = false) (hpanic : s.panicked ≠ some .tooBig) :
    ({ s with outstanding := n, lh := lh }.setOp p o).Inv := by
  have hnone : ∀ q, ((Function.update s.op p o) q).ending = false := by
    intro q
    by_cases hq : q = p
    · rw [hq, Function.update_self, ho]
    · rw [Function.update_of_ne hq]
      by_contra hend
      simp [h.flag q (Bool.not_eq_false _ ▸ hend)] at hflag
  refine ⟨hlh, hcount, fun q hq => ?_, fun q r hq => ?_, fun hf => ?_, hpanic, fun q hq => ?_⟩
  · exact absurd ((hnone q).symm.trans hq) nofun
  · exact absurd ((hnone q).symm.trans hq) nofun
  · exact absurd (hflag.symm.trans hf) nofun
  · have := hnone q
    change Function.update s.op p o q = .committing at hq
    rw [hq] at this
    cases this

omit [DecidableEq P] in
theorem Inv.panic (h : s.Inv) {m : Panic} (hm : m ≠ .tooBig) : { s with panicked := some m }.Inv :=
  ⟨h.nodup, h.count, h.flag, h.one, h.alone, fun e => hm (Option.some.inj e), h.room⟩

end LogState

open LogState

end Xv6.Log
