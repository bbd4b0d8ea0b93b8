import Xv6.Lib.Counting
import Xv6.Lib.Runs
import Xv6.Log.Reserve

/-!
Group commit: which operations a commit of the log contains.

The functions are those of `Xv6.Log.Reserve`, with `commit` taken apart
into its writes and with operations of any size. Operations are numbered
in the order in which they begin, and each has a record of what it has
passed to `log_write` and of whether it has ended; the operations from
number `since` on began after the last commit.

A process is let into an operation only while nobody commits, and a commit
starts only when the last operation ends. So what is in the header when
`commit` writes it is what the operations since the last commit have
logged, all of it, and nothing else.
-/

set_option linter.unusedSectionVars false

namespace Xv6.Log.Group

open Lib

/-- What an operation has done. -/
structure OpRecord where
  blocks : Finset ℕ
  ended : Bool

/-- Where a process is in `commit`. -/
inductive Phase
  | writeLog
  | writeHead
  | installTrans
  | clearHead
  | done
  deriving DecidableEq

inductive Pc
  | idle
  /-- in operation `k` -/
  | active (k : ℕ)
  /-- in operation `k`, past the tests of `log_write` of `b` -/
  | logging (k b : ℕ)
  /-- in `end_op`, committing -/
  | commit (phase : Phase)
  deriving DecidableEq

/-- The operation that the process is in. -/
def Pc.op : Pc → Option ℕ
  | .active k | .logging k _ => some k
  | _ => none

structure State (P : Type) where
  /-- `log.size` -/
  size : ℕ
  /-- `lh.block[0..n)` -/
  lh : List ℕ := []
  outstanding : ℕ := 0
  committing : Bool := false
  /-- the header on disk -/
  head : List ℕ := []
  panicked : Option Panic := none
  pc : P → Pc := fun _ => .idle
  ops : ℕ → OpRecord := fun _ => { blocks := ∅, ended := false }
  since : ℕ := 0
  next : ℕ := 0

inductive Act (P : Type)
  | beginOp (p : P)
  | logWrite (p : P) (b : ℕ)
  | record (p : P)
  | endOp (p : P)
  /-- the next part of `commit` -/
  | commit (p : P)

variable {P : Type} [DecidableEq P]

/-- Moves the process to `c`. -/
def State.setPc (s : State P) (p : P) (c : Pc) : State P :=
  { s with pc := Function.update s.pc p c }

def State.setOp (s : State P) (k : ℕ) (r : OpRecord) : State P :=
  { s with ops := Function.update s.ops k r }

def beginOp (s : State P) (p : P) : State P :=
  { s with outstanding := s.outstanding + 1, next := s.next + 1 }.setOp s.next
    { blocks := ∅, ended := false } |>.setPc p (.active s.next)

/-- The tests of `log_write`, made without the lock. -/
def logWrite (s : State P) (p : P) (k b : ℕ) : State P :=
  if logSize ≤ s.lh.length ∨ s.size - 1 ≤ s.lh.length then { s with panicked := some .tooBig }
  else if s.outstanding < 1 then { s with panicked := some .outsideTrans }
  else s.setOp k { s.ops k with blocks := insert b (s.ops k).blocks } |>.setPc p (.logging k b)

/-- The rest of `log_write`: the block is absorbed or added. -/
def record (s : State P) (p : P) (k b : ℕ) : State P :=
  { s with lh := if b ∈ s.lh then s.lh else s.lh ++ [b] }.setPc p (.active k)

/-- `end_op` up to the call of `commit`. -/
def endOp (s : State P) (p : P) (k : ℕ) : State P :=
  let s₁ := { s with outstanding := s.outstanding - 1 }.setOp k { s.ops k with ended := true }
  if s₁.committing then { s₁ with panicked := some .committing }
  else if s₁.outstanding = 0 then { s₁ with committing := true }.setPc p (.commit .writeLog)
  else s₁.setPc p .idle

/-- One part of `commit`, and at its end the rest of `end_op`. -/
def commit (s : State P) (p : P) : Phase → State P
  | .writeLog =>
      if s.lh = [] then { s with since := s.next }.setPc p (.commit .done)
      else s.setPc p (.commit .writeHead)
  | .writeHead => { s with head := s.lh }.setPc p (.commit .installTrans)
  | .installTrans => { s with lh := [], since := s.next }.setPc p (.commit .clearHead)
  | .clearHead => { s with head := s.lh }.setPc p (.commit .done)
  | .done => { s with committing := false }.setPc p .idle

/-- The step function; a state that has panicked has no step. -/
def step (s : State P) (a : Act P) : Option (State P) :=
  if s.panicked ≠ none then none else
  match a with
  | .beginOp p =>
      if s.pc p = .idle ∧ s.committing = false ∧
          s.lh.length + (s.outstanding + 1) * maxOpBlocks ≤ logSize then some (beginOp s p)
      else none
  | .logWrite p b =>
      match s.pc p with
      | .active k => some (logWrite s p k b)
      | _ => none
  | .record p =>
      match s.pc p with
      | .logging k b => some (record s p k b)
      | _ => none
  | .endOp p =>
      match s.pc p with
      | .active k => some (endOp s p k)
      | _ => none
  | .commit p =>
      match s.pc p with
      | .commit phase => some (commit s p phase)
      | _ => none

/-! ### The invariant -/

/-- The operation began since the last commit. -/
def State.Recent (s : State P) (k : ℕ) : Prop := s.since ≤ k ∧ k < s.next

/-- The processes in operations, and the operations under way. -/
structure Ops (s : State P) : Prop where
  own : ∀ {p k}, (s.pc p).op = some k → s.Recent k ∧ (s.ops k).ended = false
  unique : ∀ {p q k}, (s.pc p).op = some k → (s.pc q).op = some k → p = q
  running : ∀ {k}, s.Recent k → (s.ops k).ended = false → ∃ p, (s.pc p).op = some k
  count : Counts (fun c => c.op.isSome) s.pc s.outstanding
  since_le : s.since ≤ s.next

/-- The header has what recent operations have logged, but for calls of
`log_write` that are under way. -/
structure Blocks (s : State P) : Prop where
  nodup : s.lh.Nodup
  mem : ∀ b, (∃ k, s.Recent k ∧ b ∈ (s.ops k).blocks) ↔ b ∈ s.lh ∨ ∃ p k, s.pc p = .logging k b

/-- One process at a time commits, while no operation is outstanding. -/
structure Flags (s : State P) : Prop where
  flag : ∀ {p phase}, s.pc p = .commit phase → s.committing = true
  one : ∀ {p q phase phase'}, s.pc p = .commit phase → s.pc q = .commit phase' → p = q
  alone : s.committing = true → s.outstanding = 0
  no_panic : s.panicked ≠ some .committing

structure Inv (s : State P) : Prop where
  ops : Ops s
  blocks : Blocks s
  flags : Flags s

/-- What commits together: no operation is under way, and the header has
exactly the blocks of the operations since the last commit, once each. -/
structure Whole (s : State P) : Prop where
  outstanding : s.outstanding = 0
  quiet : ∀ p, (s.pc p).op = none
  nodup : s.lh.Nodup
  mem_lh : ∀ b, b ∈ s.lh ↔ ∃ k, s.Recent k ∧ b ∈ (s.ops k).blocks
  ended : ∀ k, s.Recent k → (s.ops k).ended = true

variable {s t : State P} {p q : P} {k b : ℕ} {c : Pc}

theorem Inv.quiet (h : Inv s) (hc : s.committing = true) (p : P) : (s.pc p).op = none := by
  have hcount := h.ops.count
  rw [h.flags.alone hc] at hcount
  simpa using hcount.not_good p

theorem Inv.not_logging (h : Inv s) (hc : s.committing = true) : s.pc p ≠ .logging k b := by
  intro hp
  have := h.quiet hc p
  rw [hp] at this
  cases this

theorem Inv.not_committing (h : Inv s) (hp : (s.pc p).op = some k) : s.committing = false := by
  cases hc : s.committing with
  | false => rfl
  | true =>
      rw [h.quiet hc p] at hp
      cases hp

theorem Inv.whole (h : Inv s) (hc : s.committing = true) : Whole s where
  outstanding := h.flags.alone hc
  quiet := h.quiet hc
  nodup := h.blocks.nodup
  mem_lh := by
    intro b
    rw [h.blocks.mem]
    refine ⟨.inl, ?_⟩
    rintro (hb | ⟨p, k, hp⟩)
    · exact hb
    · exact absurd hp (h.not_logging hc)
  ended := by
    intro k hk
    by_contra hend
    obtain ⟨p, hp⟩ := h.ops.running hk (by simpa using hend)
    rw [h.quiet hc p] at hp
    cases hp

theorem inv_init (size : ℕ) : Inv ({ size := size } : State P) where
  ops :=
    { own := nofun
      unique := nofun
      running := fun h => absurd h.2 (Nat.not_lt_zero _)
      count := .zero fun _ => by simp [Pc.op]
      since_le := le_rfl }
  blocks := ⟨List.nodup_nil, fun b => by simp [State.Recent]⟩
  flags := ⟨nofun, nofun, nofun, nofun⟩

/-! ### What steps do to operations -/

/-- The operations are left alone. -/
theorem Ops.congr (h : Ops s) (hop : ∀ p, (t.pc p).op = (s.pc p).op)
    (hsince : t.since = s.since) (hnext : t.next = s.next)
    (hended : ∀ k, (t.ops k).ended = (s.ops k).ended)
    (hout : t.outstanding = s.outstanding) : Ops t where
  own := by
    intro p k hp
    rw [hop] at hp
    rw [State.Recent, hsince, hnext, hended]
    exact h.own hp
  unique := by
    intro p q k hp hq
    rw [hop] at hp hq
    exact h.unique hp hq
  running := by
    intro k hk hend
    rw [State.Recent, hsince, hnext] at hk
    rw [hended] at hend
    obtain ⟨p, hp⟩ := h.running hk hend
    exact ⟨p, (hop p).trans hp⟩
  count := by
    rw [hout]
    exact h.count.congr fun p => by rw [hop]
  since_le := by
    rw [hsince, hnext]
    exact h.since_le

theorem op_setPc (hc : c.op = (s.pc p).op) (q : P) : ((s.setPc p c).pc q).op = (s.pc q).op := by
  change (Function.update s.pc p c q).op = _
  rw [Function.update_apply]
  split_ifs with hq
  · rw [hq, hc]
  · rfl

theorem Ops.beginOp (h : Ops s) (hp : s.pc p = .idle) : Ops (beginOp s p) := by
  have hpc : ∀ q, ((Group.beginOp s p).pc q).op = if q = p then some s.next else (s.pc q).op := by
    intro q
    change (Function.update s.pc p (.active s.next) q).op = _
    rw [Function.update_apply]
    split_ifs <;> rfl
  have hops : ∀ k, k ≠ s.next → (Group.beginOp s p).ops k = s.ops k :=
    fun k hk => Function.update_of_ne hk ..
  have hrecent : ∀ k, (Group.beginOp s p).Recent k ↔ s.Recent k ∨ k = s.next := by
    intro k
    change s.since ≤ k ∧ k < s.next + 1 ↔ (s.since ≤ k ∧ k < s.next) ∨ k = s.next
    have := h.since_le
    omega
  have hold : ∀ {q k}, (s.pc q).op = some k → k ≠ s.next := by
    intro q k hq
    have := (h.own hq).1.2
    omega
  constructor
  case own =>
    intro q k hq
    rw [hpc] at hq
    split_ifs at hq with hqp
    · cases hq
      refine ⟨(hrecent _).mpr (.inr rfl), ?_⟩
      change (Function.update s.ops s.next _ s.next).ended = false
      rw [Function.update_self]
    · rw [hrecent, hops k (hold hq)]
      exact ⟨.inl (h.own hq).1, (h.own hq).2⟩
  case unique =>
    intro q q' k hq hq'
    rw [hpc] at hq hq'
    split_ifs at hq hq' with hqp hqp' hqp'
    · rw [hqp, hqp']
    · exact absurd (Option.some.inj hq).symm (hold hq')
    · exact absurd (Option.some.inj hq').symm (hold hq)
    · exact h.unique hq hq'
  case running =>
    intro k hk hend
    by_cases hkn : k = s.next
    · exact ⟨p, by rw [hpc, if_pos rfl, hkn]⟩
    · rw [hops k hkn] at hend
      obtain ⟨q, hq⟩ := h.running (((hrecent k).mp hk).resolve_right hkn) hend
      refine ⟨q, ?_⟩
      rw [hpc, if_neg, hq]
      rintro rfl
      rw [hp] at hq
      cases hq
  case count => exact h.count.enter (by rw [hp]; simp [Pc.op]) (by simp [Pc.op])
  case since_le => exact h.since_le.trans (Nat.le_succ _)

/-- The operation of `p` ends. -/
theorem Ops.leave (h : Ops s) (hp : (s.pc p).op = some k) (hc : c.op = none)
    (hpc : t.pc = Function.update s.pc p c) (hsince : t.since = s.since) (hnext : t.next = s.next)
    (hops : t.ops = Function.update s.ops k { s.ops k with ended := true })
    (hout : t.outstanding = s.outstanding - 1) : Ops t := by
  have hop : ∀ {q m}, (t.pc q).op = some m ↔ q ≠ p ∧ (s.pc q).op = some m := by
    intro q m
    rw [hpc, Function.update_apply]
    split_ifs with hq
    · simp [hq, hc]
    · simp [hq]
  have hother : ∀ {q m}, q ≠ p → (s.pc q).op = some m → m ≠ k := by
    rintro q m hq hm rfl
    exact hq (h.unique hm hp)
  constructor
  case own =>
    intro q m hq
    obtain ⟨hqp, hq⟩ := hop.mp hq
    rw [State.Recent, hsince, hnext, hops, Function.update_of_ne (hother hqp hq)]
    exact h.own hq
  case unique =>
    intro q q' m hq hq'
    exact h.unique (hop.mp hq).2 (hop.mp hq').2
  case running =>
    intro m hm hend
    rw [hops, Function.update_apply] at hend
    split_ifs at hend with hmk
    rw [State.Recent, hsince, hnext] at hm
    obtain ⟨q, hq⟩ := h.running hm hend
    refine ⟨q, hop.mpr ⟨?_, hq⟩⟩
    rintro rfl
    exact hmk (Option.some.inj (hq.symm.trans hp))
  case count =>
    rw [hpc, hout]
    exact h.count.leave (by rw [hp]; rfl) (by rw [hc]; simp)
  case since_le =>
    rw [hsince, hnext]
    exact h.since_le

/-- A commit leaves no recent operation. -/
theorem Ops.commit (hquiet : ∀ p, (t.pc p).op = none) (hsince : t.since = t.next)
    (hout : t.outstanding = 0) : Ops t where
  own hp := by
    rw [hquiet] at hp
    cases hp
  unique hp := by
    rw [hquiet] at hp
    cases hp
  running hk := by
    have h1 := hk.1
    have h2 := hk.2
    omega
  count := by
    rw [hout]
    exact .zero fun p => by simp [hquiet]
  since_le := hsince.le

/-! ### What steps do to the header -/

theorem Blocks.congr (h : Blocks s) (hlh : t.lh = s.lh)
    (hmem : ∀ b, (∃ k, t.Recent k ∧ b ∈ (t.ops k).blocks) ↔ ∃ k, s.Recent k ∧ b ∈ (s.ops k).blocks)
    (hpc : ∀ p k b, t.pc p = .logging k b ↔ s.pc p = .logging k b) : Blocks t where
  nodup := by
    rw [hlh]
    exact h.nodup
  mem := by
    intro b
    rw [hmem, h.mem, hlh]
    simp only [hpc]

/-- A process that is not in `log_write` moves elsewhere. -/
theorem logging_setPc (hp : ∀ k b, s.pc p ≠ .logging k b) (hc : ∀ k b, c ≠ .logging k b) (q : P)
    (k b : ℕ) : (s.setPc p c).pc q = .logging k b ↔ s.pc q = .logging k b := by
  change Function.update s.pc p c q = _ ↔ _
  rw [Function.update_apply]
  split_ifs with hq
  · subst hq
    exact ⟨fun h => absurd h (hc k b), fun h => absurd h (hp k b)⟩
  · rfl

theorem Blocks.logWrite (h : Blocks s) (hp : s.pc p = .active k) (hk : s.Recent k) :
    Blocks (s.setOp k { s.ops k with blocks := insert b (s.ops k).blocks } |>.setPc p
      (.logging k b)) where
  nodup := h.nodup
  mem := by
    intro a
    -- the new block is logged by the operation, and its call is under way
    have hleft : (∃ m, s.Recent m ∧ a ∈ (Function.update s.ops k
        { s.ops k with blocks := insert b (s.ops k).blocks } m).blocks) ↔
        (∃ m, s.Recent m ∧ a ∈ (s.ops m).blocks) ∨ a = b := by
      constructor
      · rintro ⟨m, hm, ha⟩
        rw [Function.update_apply] at ha
        split_ifs at ha with hmk
        · subst hmk
          rcases Finset.mem_insert.mp ha with rfl | ha
          · exact .inr rfl
          · exact .inl ⟨m, hm, ha⟩
        · exact .inl ⟨m, hm, ha⟩
      · rintro (⟨m, hm, ha⟩ | rfl)
        · refine ⟨m, hm, ?_⟩
          rw [Function.update_apply]
          split_ifs with hmk
          · subst hmk
            exact Finset.mem_insert_of_mem ha
          · exact ha
        · refine ⟨k, hk, ?_⟩
          rw [Function.update_self]
          exact Finset.mem_insert_self ..
    have hright : (∃ q m, Function.update s.pc p (.logging k b) q = .logging m a) ↔
        (∃ q m, s.pc q = .logging m a) ∨ a = b := by
      constructor
      · rintro ⟨q, m, hq⟩
        rw [Function.update_apply] at hq
        split_ifs at hq with hqp
        · cases hq
          exact .inr rfl
        · exact .inl ⟨q, m, hq⟩
      · rintro (⟨q, m, hq⟩ | rfl)
        · refine ⟨q, m, ?_⟩
          rw [Function.update_of_ne, hq]
          rintro rfl
          rw [hp] at hq
          cases hq
        · exact ⟨p, k, Function.update_self ..⟩
    refine hleft.trans ?_
    rw [h.mem, or_assoc, ← hright]
    rfl

theorem Blocks.record (h : Blocks s) (hp : s.pc p = .logging k b) : Blocks (record s p k b) where
  nodup := by
    change (if b ∈ s.lh then s.lh else s.lh ++ [b]).Nodup
    split_ifs with hb
    · exact h.nodup
    · rw [← List.concat_eq_append]
      exact h.nodup.concat hb
  mem := by
    intro a
    have hlh : a ∈ (if b ∈ s.lh then s.lh else s.lh ++ [b]) ↔ a ∈ s.lh ∨ a = b := by
      split_ifs with hb
      · exact ⟨.inl, fun ha => ha.elim id fun he => he ▸ hb⟩
      · simp
    have hcalls : (∃ q m, s.pc q = .logging m a) ↔
        (∃ q m, Function.update s.pc p (.active k) q = .logging m a) ∨
          s.pc p = .logging k a := by
      constructor
      · rintro ⟨q, m, hq⟩
        by_cases hqp : q = p
        · subst hqp
          rw [hp] at hq
          cases hq
          exact .inr hp
        · exact .inl ⟨q, m, by rw [Function.update_of_ne hqp, hq]⟩
      · rintro (⟨q, m, hq⟩ | hq)
        · rw [Function.update_apply] at hq
          split_ifs at hq with hqp
          exact ⟨q, m, hq⟩
        · exact ⟨p, k, hq⟩
    have hself : s.pc p = .logging k a ↔ a = b := by
      rw [hp]
      exact ⟨fun he => by cases he; rfl, fun he => by rw [he]⟩
    change (∃ m, s.Recent m ∧ a ∈ (s.ops m).blocks) ↔
      a ∈ (if b ∈ s.lh then s.lh else s.lh ++ [b]) ∨
        ∃ q m, Function.update s.pc p (.active k) q = .logging m a
    rw [h.mem, hcalls, hself, hlh, or_assoc, or_comm (b := a = b)]

/-! ### Steps -/

/-- The flag stays clear. -/
theorem Flags.clear (h : Flags s) (hs : s.committing = false)
    (hpc : t.pc = Function.update s.pc p c) (hc : ∀ phase, c ≠ .commit phase)
    (ht : t.committing = false) (hpanic : t.panicked = s.panicked) : Flags t := by
  have hnone : ∀ {q phase}, t.pc q ≠ .commit phase := by
    intro q phase hq
    rw [hpc, Function.update_apply] at hq
    split_ifs at hq with hqp
    · exact hc phase hq
    · rw [h.flag hq] at hs
      cases hs
  refine ⟨fun hq => absurd hq hnone, fun hq => absurd hq hnone, fun hf => ?_, ?_⟩
  · rw [ht] at hf
    cases hf
  · rw [hpanic]
    exact h.no_panic

variable {a : Act P} {phase : Phase}

/-- The process that commits goes on. -/
theorem Flags.advance {phase' : Phase} (h : Flags s) (hp : s.pc p = .commit phase)
    (hpc : t.pc = Function.update s.pc p (.commit phase')) (ht : t.committing = s.committing)
    (hout : t.outstanding = s.outstanding) (hpanic : t.panicked = s.panicked) : Flags t := by
  have hself : ∀ {q ph}, t.pc q = .commit ph → q = p := by
    intro q ph hq
    rw [hpc, Function.update_apply] at hq
    split_ifs at hq with hqp
    · exact hqp
    · exact h.one hq hp
  refine ⟨fun _ => ht.trans (h.flag hp), fun hq hq' => (hself hq).trans (hself hq').symm,
    fun hf => ?_, ?_⟩
  · rw [hout]
    exact h.alone (ht ▸ hf)
  · rw [hpanic]
    exact h.no_panic

theorem Inv.panic (h : Inv s) {m : Panic} (hm : m ≠ .committing) :
    Inv { s with panicked := some m } where
  ops := ⟨h.ops.own, h.ops.unique, h.ops.running, h.ops.count, h.ops.since_le⟩
  blocks := ⟨h.blocks.nodup, h.blocks.mem⟩
  flags := ⟨h.flags.flag, h.flags.one, h.flags.alone, fun he => hm (Option.some.inj he)⟩

theorem Inv.beginOp (h : Inv s) (hp : s.pc p = .idle) (hc : s.committing = false) :
    Inv (beginOp s p) where
  ops := h.ops.beginOp hp
  blocks := by
    refine h.blocks.congr rfl (fun b => ?_)
      (logging_setPc (s := s) (by rw [hp]; nofun) nofun)
    -- the new operation has logged nothing
    change (∃ k, (s.since ≤ k ∧ k < s.next + 1) ∧ b ∈ (Function.update s.ops s.next _ k).blocks) ↔ _
    constructor
    · rintro ⟨k, hk, hb⟩
      rw [Function.update_apply] at hb
      split_ifs at hb with hkn
      · exact absurd hb (Finset.notMem_empty b)
      · exact ⟨k, ⟨hk.1, by omega⟩, hb⟩
    · rintro ⟨k, hk, hb⟩
      refine ⟨k, ⟨hk.1, Nat.lt_succ_of_lt hk.2⟩, ?_⟩
      rwa [Function.update_of_ne (Nat.ne_of_lt hk.2)]
  flags := h.flags.clear hc rfl nofun hc rfl

theorem Inv.logWrite (h : Inv s) (hp : s.pc p = .active k) : Inv (logWrite s p k b) := by
  have hop : (s.pc p).op = some k := by rw [hp]; rfl
  have hc := h.not_committing hop
  unfold Group.logWrite
  split_ifs
  · exact h.panic nofun
  · exact h.panic nofun
  · refine ⟨h.ops.congr (op_setPc (s := s) hop.symm) rfl rfl (fun m => ?_) rfl,
      h.blocks.logWrite hp (h.ops.own hop).1, h.flags.clear hc rfl nofun hc rfl⟩
    change (Function.update s.ops k _ m).ended = _
    rw [Function.update_apply]
    split_ifs with hm
    · rw [hm]
    · rfl

theorem Inv.record (h : Inv s) (hp : s.pc p = .logging k b) : Inv (record s p k b) := by
  have hop : (s.pc p).op = some k := by rw [hp]; rfl
  have hc := h.not_committing hop
  exact ⟨h.ops.congr (op_setPc (s := s) hop.symm) rfl rfl (fun _ => rfl) rfl, h.blocks.record hp,
    h.flags.clear hc rfl nofun hc rfl⟩

theorem Inv.endOp (h : Inv s) (hp : s.pc p = .active k) : Inv (endOp s p k) := by
  have hop : (s.pc p).op = some k := by rw [hp]; rfl
  have hc := h.not_committing hop
  have hblocks : ∀ {c : Pc}, (∀ k b, c ≠ .logging k b) → ∀ {t : State P}, t.lh = s.lh →
      t.since = s.since → t.next = s.next → t.pc = Function.update s.pc p c →
      t.ops = Function.update s.ops k { s.ops k with ended := true } → Blocks t := by
    intro c hlog t hlh hsince hnext hpc hops
    refine h.blocks.congr hlh (fun b => ?_) fun q m b => ?_
    · refine exists_congr fun m => ?_
      rw [State.Recent, hsince, hnext, hops, Function.update_apply]
      split_ifs with hm
      · rw [hm]
        rfl
      · rfl
    · rw [hpc]
      exact logging_setPc (by rw [hp]; nofun) hlog q m b
  unfold Group.endOp
  simp only
  split_ifs with hflag hlast
  · rw [show _ = s.committing from rfl, hc] at hflag
    cases hflag
  · refine ⟨h.ops.leave hop (c := .commit .writeLog) rfl rfl rfl rfl rfl rfl,
      hblocks (c := .commit .writeLog) nofun rfl rfl rfl rfl rfl, ?_⟩
    have hself : ∀ {q phase}, Function.update s.pc p (.commit .writeLog) q = .commit phase →
        q = p := by
      intro q phase hq
      rw [Function.update_apply] at hq
      split_ifs at hq with hqp
      · exact hqp
      · rw [h.flags.flag hq] at hc
        cases hc
    exact ⟨fun _ => rfl, fun hq hq' => (hself hq).trans (hself hq').symm, fun _ => hlast,
      h.flags.no_panic⟩
  · exact ⟨h.ops.leave hop (c := .idle) rfl rfl rfl rfl rfl rfl,
      hblocks (c := .idle) nofun rfl rfl rfl rfl rfl, h.flags.clear hc rfl nofun hc rfl⟩

/-- Everything that was logged is committed. -/
theorem Inv.emptied (h : Inv s) (hc : s.committing = true) (hpc : ∀ q, (t.pc q).op = (s.pc q).op) (hlh : t.lh = [])
    (hsince : t.since = t.next) (hout : t.outstanding = s.outstanding) (hflags : Flags t) :
    Inv t := by
  have hquiet : ∀ q, (t.pc q).op = none := fun q => (hpc q).trans (h.quiet hc q)
  refine ⟨.commit hquiet hsince (hout.trans (h.flags.alone hc)), ⟨?_, fun b => ?_⟩, hflags⟩
  · rw [hlh]
    exact List.nodup_nil
  · rw [hlh]
    constructor
    · rintro ⟨k, ⟨h1, h2⟩, -⟩
      omega
    · rintro (hb | ⟨q, k, hq⟩)
      · cases hb
      · have := hquiet q
        rw [hq] at this
        cases this

theorem Inv.commit (h : Inv s) (hp : s.pc p = .commit phase) : Inv (commit s p phase) := by
  have hc := h.flags.flag hp
  have hop : ∀ {c : Pc}, c.op = none → ∀ q, ((s.setPc p c).pc q).op = (s.pc q).op :=
    fun hcop => op_setPc (by rw [hp, hcop]; rfl)
  have hkeep : ∀ {c : Pc}, c.op = none → Ops (s.setPc p c) ∧ Blocks (s.setPc p c) := by
    intro c hcop
    refine ⟨h.ops.congr (hop hcop) rfl rfl (fun _ => rfl) rfl,
      h.blocks.congr rfl (fun _ => .rfl) (logging_setPc (by rw [hp]; nofun) ?_)⟩
    rintro k b rfl
    cases hcop
  cases phase with
  | writeLog =>
      unfold Group.commit
      split_ifs with hlh
      · exact h.emptied hc (hop rfl) hlh rfl rfl (h.flags.advance hp rfl rfl rfl rfl)
      · exact ⟨(hkeep rfl).1, (hkeep rfl).2, h.flags.advance hp rfl rfl rfl rfl⟩
  | writeHead =>
      obtain ⟨hops, hblocks⟩ := hkeep (c := .commit .installTrans) rfl
      exact ⟨⟨hops.own, hops.unique, hops.running, hops.count, hops.since_le⟩,
        ⟨hblocks.nodup, hblocks.mem⟩, h.flags.advance hp rfl rfl rfl rfl⟩
  | installTrans =>
      exact h.emptied hc (hop rfl) rfl rfl rfl (h.flags.advance hp rfl rfl rfl rfl)
  | clearHead =>
      obtain ⟨hops, hblocks⟩ := hkeep (c := .commit .done) rfl
      exact ⟨⟨hops.own, hops.unique, hops.running, hops.count, hops.since_le⟩,
        ⟨hblocks.nodup, hblocks.mem⟩, h.flags.advance hp rfl rfl rfl rfl⟩
  | done =>
      obtain ⟨hops, hblocks⟩ := hkeep (c := .idle) rfl
      refine ⟨⟨hops.own, hops.unique, hops.running, hops.count, hops.since_le⟩,
        ⟨hblocks.nodup, hblocks.mem⟩, ?_⟩
      have hnone : ∀ {q phase}, Function.update s.pc p .idle q ≠ .commit phase := by
        intro q phase hq
        rw [Function.update_apply] at hq
        split_ifs at hq with hqp
        exact hqp (h.flags.one hq hp)
      exact ⟨fun hq => absurd hq hnone, fun hq => absurd hq hnone, nofun, h.flags.no_panic⟩

/-- What the steps do. -/
inductive Effect (s : State P) : Act P → State P → Prop
  | beginOp (p : P) (hp : s.pc p = .idle) (hc : s.committing = false) :
      Effect s (.beginOp p) (beginOp s p)
  | logWrite (p : P) (k b : ℕ) (hp : s.pc p = .active k) :
      Effect s (.logWrite p b) (logWrite s p k b)
  | record (p : P) (k b : ℕ) (hp : s.pc p = .logging k b) : Effect s (.record p) (record s p k b)
  | endOp (p : P) (k : ℕ) (hp : s.pc p = .active k) : Effect s (.endOp p) (endOp s p k)
  | commit (p : P) (phase : Phase) (hp : s.pc p = .commit phase) :
      Effect s (.commit p) (commit s p phase)

theorem effect_of_step (hstep : step s a = some t) : Effect s a t := by
  unfold step at hstep
  obtain ⟨-, hstep⟩ := Option.ite_none_left_eq_some.mp hstep
  cases a with
  | beginOp p =>
      obtain ⟨⟨hp, hc, -⟩, ⟨⟩⟩ := Option.ite_none_right_eq_some.mp hstep
      exact .beginOp p hp hc
  | logWrite p b =>
      simp only at hstep
      split at hstep
      next k hp =>
        cases hstep
        exact .logWrite p k b hp
      next => cases hstep
  | record p =>
      simp only at hstep
      split at hstep
      next k b hp =>
        cases hstep
        exact .record p k b hp
      next => cases hstep
  | endOp p =>
      simp only at hstep
      split at hstep
      next k hp =>
        cases hstep
        exact .endOp p k hp
      next => cases hstep
  | commit p =>
      simp only at hstep
      split at hstep
      next phase hp =>
        cases hstep
        exact .commit p phase hp
      next => cases hstep

theorem Inv.step (h : Inv s) (hstep : step s a = some t) : Inv t := by
  cases effect_of_step hstep with
  | beginOp p hp hc => exact h.beginOp hp hc
  | logWrite p k b hp => exact h.logWrite hp
  | record p k b hp => exact h.record hp
  | endOp p k hp => exact h.endOp hp
  | commit p phase hp => exact h.commit hp

def Act.proc : Act P → P
  | .beginOp p | .logWrite p _ | .record p | .endOp p | .commit p => p

/-- A step of an operation: `log_write` or `end_op`. -/
def Act.ofOp : Act P → Prop
  | .logWrite _ _ | .record _ | .endOp _ => True
  | _ => False

theorem Inv.step_ofOp (h : Inv s) (hc : s.committing = true) (ha : a.ofOp) :
    Group.step s a = none := by
  have hno : ∀ {q : P} {k}, (s.pc q).op ≠ some k := by
    intro q k hq
    rw [h.quiet hc q] at hq
    cases hq
  cases hstep : Group.step s a with
  | none => rfl
  | some t =>
      cases effect_of_step hstep with
      | logWrite q k b hq | endOp q k hq | record q k b hq => exact absurd (by rw [hq]; rfl) hno
      | beginOp q hq hc | commit q phase hq => exact ha.elim

/-- While a process commits, the others have nothing to do with the log. -/
theorem Inv.idle (h : Inv s) (hp : s.pc p = .commit phase) (hq : q ≠ p) : s.pc q = .idle := by
  have hquiet := h.quiet (h.flags.flag hp) q
  cases hpc : s.pc q with
  | idle => rfl
  | active k | logging k b =>
      rw [hpc] at hquiet
      cases hquiet
  | commit phase' => exact absurd (h.flags.one hpc hp) hq

theorem step_pc (hstep : Group.step s a = some t) (hq : q ≠ a.proc) : t.pc q = s.pc q := by
  have hset : ∀ {s' : State P} {c : Pc}, s'.pc = s.pc → (s'.setPc a.proc c).pc q = s.pc q := by
    intro s' c hs'
    rw [← hs']
    exact Function.update_of_ne hq ..
  cases effect_of_step hstep with
  | beginOp p hp hc => exact hset rfl
  | record p k b hp => exact hset rfl
  | logWrite p k b hp =>
      unfold logWrite
      split_ifs
      · rfl
      · rfl
      · exact hset rfl
  | endOp p k hp =>
      unfold endOp
      simp only
      split_ifs
      · rfl
      · exact hset rfl
      · exact hset rfl
  | commit p phase hp =>
      cases phase with
      | writeLog =>
          unfold commit
          split_ifs <;> exact hset rfl
      | _ => exact hset rfl

theorem logWrite_pc (h : (logWrite s p k b).panicked = none) :
    (logWrite s p k b).pc p = .logging k b := by
  unfold logWrite at h ⊢
  split_ifs at h ⊢
  exact Function.update_self ..

/-- While a process commits, only it takes steps. -/
theorem Inv.proc_eq (h : Inv s) (hp : s.pc p = .commit phase)
    (hstep : Group.step s a = some t) : a.proc = p := by
  by_contra hne
  have hidle := h.idle hp hne
  cases effect_of_step hstep with
  | beginOp q hq hc =>
      rw [h.flags.flag hp] at hc
      cases hc
  | logWrite q k b hq | record q k b hq | endOp q k hq | commit q phase' hq =>
      cases hidle.symm.trans hq

/-- Only `log_write` adds to the header, and only the end of a commit clears
the flag. -/
theorem Inv.step_lh (h : Inv s) (hstep : Group.step s a = some t)
    (ha : ∀ p, a ≠ .record p) : (∀ n ∈ t.lh, n ∈ s.lh) ∧
      (t.committing = false → s.committing = false ∨ s.pc a.proc = .commit .done) := by
  cases effect_of_step hstep with
  | beginOp p hp hc => exact ⟨fun _ => id, fun _ => .inl hc⟩
  | record p k b hp => exact absurd rfl (ha p)
  | logWrite p k b hp =>
      unfold Group.logWrite
      split_ifs <;> exact ⟨fun _ => id, .inl⟩
  | endOp p k hp =>
      have hc : s.committing = false := h.not_committing (p := p) (k := k) (by rw [hp]; rfl)
      unfold Group.endOp
      simp only
      split_ifs <;> exact ⟨fun _ => id, fun _ => .inl hc⟩
  | commit p phase hp =>
      cases phase with
      | writeLog =>
          unfold Group.commit
          split_ifs <;> exact ⟨fun _ => id, .inl⟩
      | writeHead | clearHead => exact ⟨fun _ => id, .inl⟩
      | installTrans => exact ⟨fun _ hn => absurd hn List.not_mem_nil, .inl⟩
      | done => exact ⟨fun _ => id, fun _ => .inr hp⟩

/-- **A commit is all or nothing for every operation.** In every run, whenever
`commit` writes the header, no operation is outstanding, and the header
has exactly the blocks of the operations that began since the last commit,
without repetition, all of which have ended. While the flag `committing`
is set no `log_write` and no other `end_op` takes place, so that `end_op`
never finds the flag set. -/
theorem group_commit {size : ℕ} {acts : List (Act P)}
    (hrun : run step { size := size } acts = some s) :
    (∀ p, s.pc p = .commit .writeHead ∨ s.pc p = .commit .clearHead → Whole s) ∧
      (s.committing = true → ∀ a : Act P, a.ofOp → step s a = none) ∧
      s.panicked ≠ some .committing := by
  have h : Inv s := invariant' (fun h hstep => h.step hstep) (inv_init size) hrun
  refine ⟨fun p hp => ?_, fun hc a ha => h.step_ofOp hc ha, h.flags.no_panic⟩
  rcases hp with hp | hp
  · exact h.whole (h.flags.flag hp)
  · exact h.whole (h.flags.flag hp)

/-- Two operations that log a block in common commit together. -/
theorem group_commit_two : ∃ s : State (Fin 2),
    run step { size := 30 } [.beginOp 0, .beginOp 1, .logWrite 0 50, .record 0, .logWrite 1 50,
      .logWrite 0 51, .record 1, .record 0, .endOp 0, .endOp 1, .commit 1] = some s ∧
      s.pc 1 = .commit .writeHead ∧ Whole s := by
  have hrun := (Option.some_get (by decide +kernel : Option.isSome (run step
    ({ size := 30 } : State (Fin 2)) [.beginOp 0, .beginOp 1, .logWrite 0 50, .record 0,
      .logWrite 1 50, .logWrite 0 51, .record 1, .record 0, .endOp 0, .endOp 1, .commit 1])
        = true)).symm
  exact ⟨_, hrun, by decide +kernel, (group_commit hrun).1 1 (.inl (by decide +kernel))⟩

end Xv6.Log.Group
