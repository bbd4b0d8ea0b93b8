import Xv6.Sched.Refine

/-!
The locking discipline of `proc.c` on all CPUs, and the refinement it
buys.

`Machine.Inv` says who holds which lock, that a process runs on one CPU,
that a process off the CPUs is at a point where `swtch` returns, and that
what a thread found in the table is still there when it gets the lock.
Every step keeps it and carries out the critical section it is labelled
with.
-/

namespace Xv6.Sched

open Lib

variable {b : ProcId}

variable {act : Option Act} {d : Cpu}

namespace Machine

/-- The state of the critical sections. -/
def abs (m : Machine) : Sys := seen m.kern m.pc

/-- The CPU runs the process, or is about to switch to it. -/
def On (m : Machine) (c : Cpu) (p : ProcId) : Prop :=
  m.cpu c = .proc p ∨ m.cpu c = .sched (.releasePrioFor p)

/-- What the code keeps true on all CPUs. -/
structure Inv (m : Machine) : Prop where
  base : Sys.Base m.abs
  owned : Owned m.lock m.held
  one : ∀ c d p, m.On c p → m.On d p → c = d
  running : ∀ c p, m.On c p →
    (m.kern.proc p).state = if (m.pc p).leaving then .zombie else .running
  switched : ∀ c p, m.cpu c = .sched (.releasePrioFor p) → (m.pc p).Resumes
  resume : ∀ p, (∀ c, ¬ m.On c p) → (m.kern.proc p).state.live = true → (m.pc p).Resumes
  wf : ∀ p, (m.pc p).Wf
  -- what `pick_highest_priority_runnable_proc` found stays while it waits for the lock
  picked : ∀ c q, m.cpu c = .sched (.acquireProc q) →
    (m.kern.proc q).state = .runnable ∧ ∃ i, q ∈ m.kern.prio i
  orphans : m.abs.Orphans
  exiting : ∀ p, (m.pc p).pos.exiting = true → m.kern.initproc ≠ some p
  scanned : ∀ (p j : ProcId), j.val < (m.pc p).scanned → (m.kern.proc j).parent ≠ some p
  child : ∀ p np, (m.pc p).child = some np → (m.kern.proc np).parent = some p

variable {m : Machine} {c : Cpu} {p : ProcId}

theorem Inv.on_cpu_of_forking (h : m.Inv) {np : ProcId} (hp : (m.pc p).pos = .forking np) :
    ∃ c, m.cpu c = .proc p ∧ .proc np ∈ m.held c := by
  have hpc := Pc.eq_of_pos_forking (h.wf p) hp
  have hnr : ¬ (m.pc p).Resumes := by
    rw [hpc]
    exact id
  have hrun : (m.kern.proc p).state = .running := (h.base.forking p np hp).1
  have hon : ∃ c, m.On c p := by
    by_contra hno
    exact hnr (h.resume p (not_exists.mp hno) (by rw [hrun]; rfl))
  obtain ⟨c, hc | hc⟩ := hon
  · refine ⟨c, hc, ?_⟩
    simp only [held, hc, hpc]
    exact List.mem_singleton.mpr rfl
  · exact absurd (h.switched c p hc) hnr

/-- A slot whose lock nobody else holds is not being built. -/
theorem Inv.lock_eq_false (h : m.Inv) {q : ProcId}
    (hq : ∀ d b, m.cpu d = .proc b → .proc q ∈ m.held d → ∀ np, (m.pc b).pos ≠ .forking np) :
    m.abs.lock q = false := by
  by_contra hl
  rw [Bool.not_eq_false, abs, seen_lock] at hl
  obtain ⟨b, hb⟩ := hl
  obtain ⟨d, hd, hheld⟩ := h.on_cpu_of_forking hb
  exact hq d b hd hheld q hb

/-- A running process may take its next step. -/
theorem Inv.ready (h : m.Inv) (hc : m.cpu c = .proc p) {op : LockOp Lock}
    {lock : Lock → Option Cpu} (hop : op.apply m.lock c = some lock) : Ready m.kern m.pc p op where
  base := h.base
  wf := h.wf p
  run hl := by
    have hstate := h.running c p (.inl hc)
    rw [hl] at hstate
    refine ⟨hstate, ?_, rfl⟩
    by_contra hlock
    have := (h.base.locked p (Bool.not_eq_false _ ▸ hlock)).1
    exact absurd (hstate.symm.trans this) (by decide)
  free q hq := by
    subst hq
    exact h.lock_eq_false fun d b _ hd => absurd hd (h.owned.not_mem_of_acquire hop d)
  held q hq hnf := by
    refine h.lock_eq_false fun d b hd hheld => ?_
    have hmine : .proc q ∈ m.held c := by simpa only [Machine.held, hc] using hq
    obtain rfl := h.owned.unique hmine hheld
    obtain rfl : p = b := CpuState.proc.inj (hc.symm.trans hd)
    exact hnf
  scanned := h.scanned p
  child := h.child p

/-! ### Steps of a thread -/

theorem follows_cases {s t : Sys} (h : s.Follows act t) (ha : act ≠ some .userinit) :
    act = none ∧ t = s ∨ ∃ a, act = some a ∧ s.step a = some t ∧ Sys.Frame s a t := by
  cases act with
  | none => exact .inl ⟨rfl, h⟩
  | some a => exact .inr ⟨a, rfl, h, Sys.step_frame (fun e => ha (congrArg some e)) h⟩

/-- What a step of the thread of `p` leaves as it is. -/
structure ThreadFrame (k : Kern) (p : ProcId) (pc : Pc) (tr : Trans) : Prop where
  running : ∀ b, b ≠ p → (k.proc b).state = .running → (tr.kern.proc b).state = .running
  zombie : ∀ b, (k.proc b).state = .zombie → tr.op ≠ .acquire (.proc b) →
    (tr.kern.proc b).state = .zombie
  self : tr.swtch = false → (k.proc p).state = .running →
    (tr.kern.proc p).state = if tr.pc.leaving then .zombie else .running
  runnable : ∀ b, (k.proc b).state = .runnable → (tr.kern.proc b).state = .runnable
  live : ∀ b, (tr.kern.proc b).state.live = true → (k.proc b).state.live = true ∨
    tr.spawn = some b
  spawn : ∀ np, tr.spawn = some np → (k.proc np).state = .unused
  parent : ∀ b x, (tr.kern.proc b).parent = some x → (k.proc b).parent = some x ∨
    k.initproc = some x ∨ x = p ∧ tr.pc.scanned = 0
  parent_kept : ∀ b x, x ≠ p → (k.proc b).parent = some x → (tr.kern.proc b).parent = some x
  init : tr.kern.initproc = k.initproc
  queued : ∀ b i, b ∈ k.prio i → (∃ j, b ∈ tr.kern.prio j) ∨ .prio ∈ pc.held p

section

variable {k : Kern} {pcs : ProcId → Pc} {pc : Pc} {tr : Trans}

theorem threadFrame_of_skip (hl : tr.Lawful k p pc) (hact : tr.act = none) (hk : tr.kern = k) :
    ThreadFrame k p pc tr where
  running b _ h := by rw [hk, h]
  zombie b h _ := by rw [hk, h]
  self _ h := by
    have : tr.pc.leaving = false := by
      by_contra hlv
      obtain ⟨st, hst⟩ := hl.zombie (Bool.not_eq_false _ ▸ hlv)
      simp [hact] at hst
    simp [hk, h, this]
  runnable b h := by rw [hk, h]
  live b h := .inl (hk ▸ h)
  spawn np h := by simp [hl.spawn np h] at hact
  parent b x h := .inl (hk ▸ h)
  parent_kept b x _ h := by rw [hk, h]
  init := by rw [hk]
  queued b i h := .inl ⟨i, by rw [hk]; exact h⟩

theorem threadFrame_of_step {a : Act} (hl : tr.Lawful k p pc) (ho : (seen k pcs).Orphans)
    (hact : tr.act = some a) (hstep : (seen k pcs).step a = some (seen tr.kern (tr.pcs pcs p)))
    (hf : Sys.Frame (seen k pcs) a (seen tr.kern (tr.pcs pcs p))) : ThreadFrame k p pc tr where
  running b hb h := by
    rcases hf.running b h with h | rfl | ⟨chan, rfl⟩ | ⟨st, rfl, -⟩
    · exact h
    · exact absurd (hl.does _ hact).1 hb
    · exact absurd (hl.does _ hact).1 hb
    · exact absurd (hl.does _ hact).1 hb
  zombie b h hop := by
    rcases hf.zombie b h with h | ⟨x, rfl⟩
    · exact h
    · exact absurd (hl.does _ hact).2 hop
  self hsw h := by
    rcases hlv : tr.pc.leaving with _ | _
    · rcases hf.running p h with h | rfl | ⟨chan, rfl⟩ | ⟨st, rfl, -⟩
      · exact h
      · simp [(hl.does _ hact).2] at hsw
      · simp [(hl.does _ hact).2] at hsw
      · simp [(hl.does _ hact).2] at hlv
    · obtain ⟨st, hst⟩ := hl.zombie hlv
      obtain rfl : a = .exitZombie p st := Option.some.inj (hact.symm.trans hst)
      exact Sys.exitZombie_zombie hstep
  runnable b h := by
    rcases hf.runnable b h with h | rfl | rfl
    · exact h
    · exact (hl.does _ hact).elim
    · exact (hl.does _ hact).elim
  live b h := by
    rcases hf.live b h with h | ⟨x, rfl⟩
    · exact .inl h
    · exact .inr (hl.does _ hact).2.1
  spawn np h := by
    obtain rfl : a = .fork p np := Option.some.inj (hact.symm.trans (hl.spawn np h))
    exact (Option.ite_none_right_eq_some.mp hstep).1.2.1
  parent b x h := by
    rcases hf.parent b x h with h | h | rfl
    · exact .inl h
    · exact .inr (.inl h)
    · obtain ⟨hx, -, hpc⟩ := hl.does _ hact
      exact .inr (.inr ⟨hx, by rw [hpc]; rfl⟩)
  parent_kept b x hx h := by
    rcases hf.parent_kept ho h with h | rfl | rfl
    · exact h
    · exact absurd (hl.does _ hact).1 hx
    · exact absurd (hl.does _ hact) hx
  init := hf.init
  queued b i h := by
    rcases hf.queued b i h with h | rfl
    · exact .inl h
    · exact .inr (hl.does _ hact).2

theorem threadFrame_of_follows (hl : tr.Lawful k p pc) (ho : (seen k pcs).Orphans)
    (hf : (seen k pcs).Follows tr.act (seen tr.kern (tr.pcs pcs p))) : ThreadFrame k p pc tr := by
  rcases follows_cases hf fun h => hl.does _ h with ⟨hact, hs⟩ | ⟨a, hact, hstep, hfr⟩
  · exact threadFrame_of_skip hl hact (congrArg Sys.kern hs)
  · exact threadFrame_of_step hl ho hact hstep hfr

end

theorem base_of_follows {s t : Sys} (hs : Sys.Base s) (h : s.Follows act t) : Sys.Base t := by
  cases act with
  | none => exact h ▸ hs
  | some a => exact (Sys.step_spec hs h).1

theorem exiting_of_follows {s t : Sys} (h : s.Follows act t)
    (hs : ∀ b, (s.pos b).exiting = true → s.kern.initproc ≠ some b)
    (hinit : t.kern.initproc = s.kern.initproc) (b : ProcId) (hb : (t.pos b).exiting = true) :
    t.kern.initproc ≠ some b := by
  rw [hinit]
  cases act with
  | none => exact hs b (h ▸ hb)
  | some a =>
      rcases Sys.step_exiting h hb with hb | ⟨-, hb⟩
      · exact hs b hb
      · exact hb

theorem orphans_of_follows {s t : Sys} (h : s.Follows act t)
    (hne : act ≠ some .userinit) (hs : s.Orphans) : t.Orphans := by
  rcases follows_cases h hne with ⟨-, rfl⟩ | ⟨a, -, -, hf⟩
  · exact hs
  · exact hf.orphans hs

section Thread

variable {tr : Trans} {choice : Choice} {lock : Lock → Option Cpu}

theorem cpu_runThread_of_ne (hd : d ≠ c) : (m.runThread c p tr lock).cpu d = m.cpu d := by
  simp only [runThread]
  split <;> simp [hd]

theorem cpu_runThread_self (hc : m.cpu c = .proc p) : (m.runThread c p tr lock).cpu c =
      if tr.swtch then .sched (.releaseProc p) else .proc p := by
  simp only [runThread]
  split <;> simp_all

theorem on_of_runThread (hc : m.cpu c = .proc p)
    (h : (m.runThread c p tr lock).On d b) : m.On d b ∧ (d = c → b = p ∧ tr.swtch = false) := by
  by_cases hd : d = c
  · subst hd
    unfold On at h
    rw [cpu_runThread_self hc] at h
    cases hsw : tr.swtch with
    | false =>
        simp only [hsw, Bool.false_eq_true, ↓reduceIte, CpuState.proc.injEq, reduceCtorEq,
          or_false] at h
        subst h
        exact ⟨.inl hc, fun _ => ⟨rfl, rfl⟩⟩
    | true => simp [hsw] at h
  · unfold On at h
    rw [cpu_runThread_of_ne hd] at h
    exact ⟨h, fun e => absurd e hd⟩

theorem pc_runThread_of_ne (hb : b ≠ p) (hs : tr.spawn ≠ some b) :
    (m.runThread c p tr lock).pc b = m.pc b := by
  simp only [runThread, Trans.pcs, Function.update_of_ne hb]
  cases hsp : tr.spawn with
  | none => rfl
  | some np => exact Function.update_of_ne (fun e : b = np => hs (e ▸ hsp)) _ _

/-- A thread that is not the running one keeps its program point, or it is
new. -/
theorem pc_runThread_cases (hb : b ≠ p) : (m.runThread c p tr lock).pc b = m.pc b ∨
      (m.runThread c p tr lock).pc b = .yieldRelease .user := by
  by_cases hs : tr.spawn = some b
  · exact .inr (Trans.pcs_spawn hs hb)
  · exact .inl (pc_runThread_of_ne hb hs)

theorem Inv.not_spawn_of_on (h : m.Inv) (hf : ThreadFrame m.kern p (m.pc p) tr) (hd : m.On d b) : tr.spawn ≠ some b := by
  intro hs
  have := (h.running d b hd).symm.trans (hf.spawn b hs)
  split at this <;> cases this

theorem Inv.owned_runThread (h : m.Inv) (hc : m.cpu c = .proc p)
    (hl : tr.Lawful m.kern p (m.pc p)) (hf : ThreadFrame m.kern p (m.pc p) tr)
    (hop : tr.op.apply m.lock c = some lock) : Owned lock (m.runThread c p tr lock).held := by
  have hmc : m.held c = (m.pc p).held p := by simp only [held, hc]
  have hheld : (m.runThread c p tr lock).held =
      Function.update m.held c (if tr.swtch then [.proc p] else tr.pc.held p) := by
    funext d
    by_cases hd : d = c
    · subst hd
      rw [Function.update_self, held, cpu_runThread_self hc]
      cases tr.swtch with
      | false => simp [runThread, Trans.pcs_self]
      | true => rfl
    · rw [Function.update_of_ne hd, held, held, cpu_runThread_of_ne hd]
      cases hcpu : m.cpu d with
      | sched pc => rfl
      | proc b =>
          have hb : b ≠ p := fun e => hd (h.one d c p (.inl (e ▸ hcpu)) (.inl hc))
          simp only [pc_runThread_of_ne hb (h.not_spawn_of_on hf (.inl hcpu))]
  rw [hheld]
  exact h.owned.step hop (hmc ▸ hl.moves)

/-- A CPU that has made its process a zombie still holds its lock. -/
theorem Inv.held_of_leaving (h : m.Inv) (hd : m.On d b)
    (hb : (m.pc b).leaving = true) : .proc b ∈ m.held d := by
  rcases hd with hd | hd
  · simp only [held, hd]
    cases hpc : m.pc b <;> first | (simp [hpc, Pc.leaving] at hb; done) | exact List.mem_cons_self
  · have := h.switched d b hd
    cases hpc : m.pc b <;> simp_all [Pc.leaving, Pc.Resumes]

theorem Inv.running_runThread (h : m.Inv) (hc : m.cpu c = .proc p)
    (hl : tr.Lawful m.kern p (m.pc p)) (hf : ThreadFrame m.kern p (m.pc p) tr)
    (hop : tr.op.apply m.lock c = some lock) (hon : (m.runThread c p tr lock).On d b) :
    (tr.kern.proc b).state =
      if ((m.runThread c p tr lock).pc b).leaving then .zombie else .running := by
  obtain ⟨hd, hdc⟩ := on_of_runThread hc hon
  have hstate := h.running d b hd
  by_cases hb : b = p
  · subst hb
    obtain ⟨-, hsw⟩ := hdc (h.one d c b hd (.inl hc))
    have hnl : (m.pc b).leaving = false := by
      by_contra hlv
      simpa [hsw] using (hl.leave (Bool.not_eq_false _ ▸ hlv)).1
    rw [hnl] at hstate
    simpa only [runThread, Trans.pcs_self] using hf.self hsw hstate
  · rw [pc_runThread_of_ne hb (h.not_spawn_of_on hf hd)]
    cases hlv : (m.pc b).leaving with
    | false =>
        rw [hlv] at hstate
        exact hf.running b hb hstate
    | true =>
        rw [hlv] at hstate
        refine hf.zombie b hstate ?_
        rintro hacq
        rw [hacq] at hop
        exact h.owned.not_mem_of_acquire hop d (h.held_of_leaving hd hlv)

/-- A step of a thread keeps the discipline and carries out its critical
section. -/
theorem Inv.runThread (h : m.Inv) (hc : m.cpu c = .proc p)
    (ht : m.kern.threadStep p (m.pc p) choice = some tr) (hop : tr.op.apply m.lock c = some lock) :
    (m.runThread c p tr lock).Inv ∧ m.abs.Follows tr.act (m.runThread c p tr lock).abs := by
  have hl := Kern.threadStep_lawful (h.wf p) ht
  have hfol : m.abs.Follows tr.act (m.runThread c p tr lock).abs :=
    threadStep_follows (h.ready hc hop) ht
  have hf := threadFrame_of_follows hl h.orphans hfol
  have hself : (m.runThread c p tr lock).pc p = tr.pc := Trans.pcs_self ..
  refine ⟨?_, hfol⟩
  constructor
  case base => exact base_of_follows h.base hfol
  case owned => exact h.owned_runThread hc hl hf hop
  case one =>
    intro d e b hd he
    exact h.one d e b (on_of_runThread hc hd).1 (on_of_runThread hc he).1
  case running =>
    intro d b hd
    exact h.running_runThread hc hl hf hop hd
  case switched =>
    intro d b hd
    have hdc : d ≠ c := by
      rintro rfl
      rw [cpu_runThread_self hc] at hd
      split at hd <;> cases hd
    rw [cpu_runThread_of_ne hdc] at hd
    have hb : b ≠ p := fun e => hdc (h.one d c p (.inr (e ▸ hd)) (.inl hc))
    rw [pc_runThread_of_ne hb (h.not_spawn_of_on hf (.inr hd))]
    exact h.switched d b hd
  case resume =>
    intro b hoff hlive
    by_cases hb : b = p
    · subst hb
      rw [hself]
      have hsw : tr.swtch = true := by
        by_contra hsw
        refine hoff c (.inl ?_)
        rw [cpu_runThread_self hc, if_neg hsw]
      refine (hl.swtch hsw).resolve_right fun hlv => ?_
      -- the process leaves as a zombie
      have hz := h.running c b (.inl hc)
      rw [hlv] at hz
      have hz' : (tr.kern.proc b).state = .zombie := by
        refine hf.zombie b hz ?_
        rintro hacq
        rw [hacq] at hop
        exact h.owned.not_mem_of_acquire hop c (h.held_of_leaving (.inl hc) hlv)
      simp [Machine.runThread, hz', ProcState.live] at hlive
    · rcases hf.live b hlive with hlive | hs
      · have hoff' : ∀ d, ¬ m.On d b := by
          intro d hd
          have hdc : d ≠ c := by
            rintro rfl
            rcases hd with hd | hd
            · exact hb (CpuState.proc.inj (hd.symm.trans hc))
            · simp [hc] at hd
          refine hoff d ?_
          unfold On
          rw [cpu_runThread_of_ne hdc]
          exact hd
        rcases pc_runThread_cases hb with he | he
        · rw [he]
          exact h.resume b hoff' hlive
        · rw [he]
          trivial
      · rw [show (m.runThread c p tr lock).pc b = _ from Trans.pcs_spawn hs hb]
        trivial
  case wf =>
    intro b
    by_cases hb : b = p
    · rw [hb, hself]
      exact hl.wf
    · rcases pc_runThread_cases hb with he | he
      · rw [he]
        exact h.wf b
      · rw [he]
        rfl
  case picked =>
    intro d q hd
    have hdc : d ≠ c := by
      rintro rfl
      rw [cpu_runThread_self hc] at hd
      split at hd <;> cases hd
    rw [cpu_runThread_of_ne hdc] at hd
    obtain ⟨hr, i, hi⟩ := h.picked d q hd
    refine ⟨hf.runnable q hr, (hf.queued q i hi).resolve_right fun hp => hdc ?_⟩
    -- only the holder of `prio_lock` takes a process out of its queue
    refine h.owned.unique (l := .prio) ?_ ?_
    · simp only [held, hd]
      exact List.mem_singleton.mpr rfl
    · simpa only [held, hc] using hp
  case orphans => exact orphans_of_follows hfol (fun e => hl.does _ e) h.orphans
  case exiting => exact exiting_of_follows hfol h.exiting hf.init
  case scanned =>
    intro b j hj hpar
    by_cases hb : b = p
    · subst hb
      rw [hself] at hj
      have hpos : (((m.runThread c b tr lock).pc b).pos).exiting = true := by
        rw [hself]
        exact Pc.exiting_of_scanned (Nat.zero_lt_of_lt hj)
      have hinit : m.kern.initproc ≠ some b :=
        hf.init ▸ exiting_of_follows hfol h.exiting hf.init b hpos
      rcases hl.scanned hinit j hj with hj' | hj'
      · rcases hf.parent j b hpar with hp | hp | ⟨-, hp⟩
        · exact h.scanned b j hj' hp
        · exact hinit hp
        · omega
      · exact hj' hpar
    · rcases pc_runThread_cases hb with he | he <;> rw [he] at hj
      · rcases hf.parent j b hpar with hp | hp | ⟨hp, -⟩
        · exact h.scanned b j hj hp
        · exact h.exiting b (Pc.exiting_of_scanned (Nat.zero_lt_of_lt hj)) hp
        · exact hb hp
      · exact Nat.not_lt_zero _ hj
  case child =>
    intro b np hnp
    by_cases hb : b = p
    · subst hb
      exact hl.child np (hself ▸ hnp)
    · rcases pc_runThread_cases hb with he | he <;> rw [he] at hnp
      · exact hf.parent_kept np b hb (h.child b np hnp)
      · cases hnp

end Thread

/-! ### Steps of a scheduler -/

section Sched

variable {pc : SchedPc} {tr : SchedTrans} {choice : Choice} {lock : Lock → Option Cpu}

/-- What a step of a scheduler leaves as it is. -/
structure SchedFrame (k : Kern) (pc : SchedPc) (tr : SchedTrans) : Prop where
  running : ∀ b, (k.proc b).state = .running → (tr.kern.proc b).state = .running
  zombie : ∀ b, (k.proc b).state = .zombie → (tr.kern.proc b).state = .zombie
  runnable : ∀ b, (k.proc b).state = .runnable → (tr.kern.proc b).state = .runnable ∨
    pc = .acquireProc b
  live : ∀ b, (tr.kern.proc b).state.live = true → (k.proc b).state.live = true
  parent : ∀ b x, (tr.kern.proc b).parent = some x → (k.proc b).parent = some x ∨
    k.initproc = some x
  parent_kept : ∀ b x, (k.proc b).parent = some x → (tr.kern.proc b).parent = some x
  init : tr.kern.initproc = k.initproc
  queued : ∀ b i, b ∈ k.prio i → ∃ j, b ∈ tr.kern.prio j

theorem SchedFrame.of_eq {k : Kern} (hk : tr.kern = k) : SchedFrame k pc tr where
  running b h := by rw [hk, h]
  zombie b h := by rw [hk, h]
  runnable b h := .inl (by rw [hk, h])
  live b h := hk ▸ h
  parent b x h := .inl (hk ▸ h)
  parent_kept b x h := by rw [hk, h]
  init := by rw [hk]
  queued b i h := ⟨i, by rw [hk]; exact h⟩

theorem SchedFrame.of_frame {s t : Sys} {a : Act} (hf : Sys.Frame s a t) (ho : s.Orphans)
    (ht : t.kern = tr.kern)
    (ha : (∃ q, pc = .acquireProc q ∧ a = .dispatchLate q) ∨ ∃ i chan, a = .wakeup i chan) :
    SchedFrame s.kern pc tr := by
  rcases ha with ⟨q, rfl, rfl⟩ | ⟨i, chan, rfl⟩ <;> constructor <;> rw [← ht]
  case inl.running | inr.running => exact fun b h => by simpa using hf.running b h
  case inl.zombie | inr.zombie => exact fun b h => by simpa using hf.zombie b h
  case inl.runnable =>
    intro b h
    rcases hf.runnable b h with h | ⟨⟨⟩⟩ | ⟨⟨⟩⟩
    · exact .inl h
    · exact .inr rfl
  case inr.runnable => exact fun b h => .inl (by simpa using hf.runnable b h)
  case inl.live | inr.live => exact fun b h => by simpa using hf.live b h
  case inl.parent | inr.parent => exact fun b x h => by simpa using hf.parent b x h
  case inl.parent_kept | inr.parent_kept => exact fun b x h => by simpa using hf.parent_kept ho h
  case inl.init | inr.init => exact hf.init
  case inl.queued | inr.queued => exact fun b i h => by simpa using hf.queued b i h

theorem schedStep_follows (h : m.Inv) (hc : m.cpu c = .sched pc)
    (ht : m.kern.schedStep pc choice = some tr) (hop : tr.op.apply m.lock c = some lock) :
    m.abs.Follows tr.act (m.runSched c tr lock).abs := by
  have hfree : ∀ q, tr.op = .acquire (.proc q) → m.abs.lock q = false := by
    intro q hq
    rw [hq] at hop
    exact h.lock_eq_false fun d b _ hd => absurd hd (h.owned.not_mem_of_acquire hop d)
  unfold Kern.schedStep at ht
  split at ht <;> first
    | cases ht; done
    | cases ht
  case h_4 q =>
    obtain ⟨hr, hq⟩ := h.picked c q hc
    exact if_pos ⟨hr, hq, hfree q rfl⟩
  case h_7 i chan => exact if_pos (hfree i rfl)
  all_goals rfl

theorem schedFrame_of_follows {k : Kern} {pcs : ProcId → Pc} (hl : tr.Lawful k pc)
    (ho : (seen k pcs).Orphans) (hf : (seen k pcs).Follows tr.act (seen tr.kern pcs)) :
    SchedFrame k pc tr := by
  rcases hl.act with ⟨-, hk⟩ | ha | ha
  · exact .of_eq hk
  · obtain ⟨q, hpc, hact⟩ := ha
    rw [hact] at hf
    exact .of_frame (Sys.step_frame (a := .dispatchLate q) nofun hf) ho rfl (.inl ⟨q, hpc, rfl⟩)
  · obtain ⟨i, chan, hact⟩ := ha
    rw [hact] at hf
    exact .of_frame (Sys.step_frame (a := .wakeup i chan) nofun hf) ho rfl (.inr ⟨i, chan, rfl⟩)

theorem cpu_runSched_of_ne (hd : d ≠ c) : (m.runSched c tr lock).cpu d = m.cpu d :=
  Function.update_of_ne hd _ _

theorem cpu_runSched_self : (m.runSched c tr lock).cpu c = tr.next := Function.update_self ..

/-- A process gets onto a CPU when its scheduler has locked it. -/
theorem on_of_runSched (hc : m.cpu c = .sched pc) (hl : tr.Lawful m.kern pc) (h : (m.runSched c tr lock).On d b) :
    m.On d b ∨ d = c ∧ pc = .acquireProc b := by
  by_cases hd : d = c
  · subst hd
    unfold On at h
    rw [cpu_runSched_self] at h
    rcases h with h | h
    · rcases hl.moves with ⟨q, rfl, -, hn⟩ | ⟨pc', hn, -⟩
      · obtain rfl : q = b := CpuState.proc.inj (hn.symm.trans h)
        exact .inl (.inr hc)
      · simp [hn] at h
    · exact .inr ⟨rfl, hl.switch b h⟩
  · unfold On at h
    rw [cpu_runSched_of_ne hd] at h
    exact .inl h

theorem on_runSched (hc : m.cpu c = .sched pc) (hl : tr.Lawful m.kern pc)
    (h : m.On d b) : (m.runSched c tr lock).On d b := by
  by_cases hd : d = c
  · subst hd
    rcases h with h | h
    · simp [hc] at h
    · obtain rfl : pc = .releasePrioFor b := by simpa [hc] using h
      rcases hl.moves with ⟨q, hq, -, hn⟩ | ⟨pc', -, -, hne⟩
      · obtain rfl : b = q := by simpa using hq
        exact .inl (cpu_runSched_self.trans hn)
      · exact absurd rfl (hne b)
  · unfold On
    rw [cpu_runSched_of_ne hd]
    exact h

/-- The process that a scheduler is about to lock is on no CPU. -/
theorem Inv.picked_off (h : m.Inv) {q : ProcId} (hc : m.cpu c = .sched (.acquireProc q)) (d : Cpu) :
    ¬ m.On d q := by
  intro hd
  have := (h.running d q hd).symm.trans (h.picked c q hc).1
  split at this <;> cases this

theorem Inv.owned_runSched (h : m.Inv) (hc : m.cpu c = .sched pc) (hl : tr.Lawful m.kern pc)
    (hop : tr.op.apply m.lock c = some lock) : Owned lock (m.runSched c tr lock).held := by
  have hmc : m.held c = pc.held := by simp only [held, hc]
  have hheld : (m.runSched c tr lock).held =
      Function.update m.held c ((m.runSched c tr lock).held c) := by
    funext d
    by_cases hd : d = c
    · rw [hd, Function.update_self]
    · rw [Function.update_of_ne hd, held, held, cpu_runSched_of_ne hd]
      rfl
  rw [hheld]
  refine h.owned.step hop ?_
  rw [hmc]
  rcases hl.moves with ⟨q, rfl, hrel, hn⟩ | ⟨pc', hn, hmv, -⟩
  · rw [held, cpu_runSched_self, hn, hrel]
    simp only [runSched, Pc.held_of_resumes (h.switched c q hc)]
    exact .swap _ _ _
  · rw [held, cpu_runSched_self, hn]
    exact hmv

/-- A step of a scheduler keeps the discipline. -/
theorem Inv.runSched (h : m.Inv) (hc : m.cpu c = .sched pc)
    (ht : m.kern.schedStep pc choice = some tr) (hop : tr.op.apply m.lock c = some lock) :
    (m.runSched c tr lock).Inv ∧ m.abs.Follows tr.act (m.runSched c tr lock).abs := by
  have hl := Kern.schedStep_lawful ht
  have hfol := schedStep_follows h hc ht hop
  have hf := schedFrame_of_follows hl h.orphans hfol
  have hresume : ∀ b, pc = .acquireProc b → (m.pc b).Resumes := by
    rintro b rfl
    refine h.resume b (h.picked_off hc) ?_
    rw [(h.picked c b hc).1]
    rfl
  refine ⟨?_, hfol⟩
  constructor
  case base => exact base_of_follows h.base hfol
  case owned => exact h.owned_runSched hc hl hop
  case one =>
    intro d e b hd he
    rcases on_of_runSched hc hl hd with hd' | ⟨hdc, hpc⟩ <;>
      rcases on_of_runSched hc hl he with he' | ⟨hec, hpc'⟩
    · exact h.one d e b hd' he'
    · exact absurd hd' (h.picked_off (hpc' ▸ hc) d)
    · exact absurd he' (h.picked_off (hpc ▸ hc) e)
    · exact hdc.trans hec.symm
  case running =>
    intro d b hd
    change (tr.kern.proc b).state = if (m.pc b).leaving then .zombie else .running
    rcases on_of_runSched hc hl hd with hd | ⟨-, hpc⟩
    · have hstate := h.running d b hd
      cases hlv : (m.pc b).leaving with
      | false => exact hf.running b (by rw [hstate, hlv]; rfl)
      | true => exact hf.zombie b (by rw [hstate, hlv]; rfl)
    · rw [hl.dispatch b hpc, Pc.leaving_of_resumes (hresume b hpc)]
      simp [Kern.schedule]
  case switched =>
    intro d b hd
    by_cases hdc : d = c
    · subst hdc
      exact hresume b (hl.switch b (cpu_runSched_self.symm.trans hd))
    · rw [cpu_runSched_of_ne hdc] at hd
      exact h.switched d b hd
  case resume =>
    intro b hoff hlive
    exact h.resume b (fun d hd => hoff d (on_runSched hc hl hd)) (hf.live b hlive)
  case wf => exact h.wf
  case picked =>
    intro d q hd
    by_cases hdc : d = c
    · subst hdc
      rw [cpu_runSched_self] at hd
      obtain ⟨hpick, hk⟩ := hl.pick q hd
      change (tr.kern.proc q).state = .runnable ∧ ∃ i, q ∈ tr.kern.prio i
      rw [hk]
      exact ⟨Sys.pick_runnable hpick, Sys.pick_mem hpick⟩
    · rw [cpu_runSched_of_ne hdc] at hd
      obtain ⟨hr, i, hi⟩ := h.picked d q hd
      refine ⟨(hf.runnable q hr).resolve_right fun hpc => hdc ?_, hf.queued q i hi⟩
      -- two schedulers do not hold `prio_lock` at once
      subst hpc
      refine h.owned.unique (l := .prio) ?_ ?_ <;> simp [held, hd, hc, SchedPc.held]
  case orphans =>
    refine orphans_of_follows hfol (fun e => ?_) h.orphans
    rcases hl.act with ⟨ha, -⟩ | ⟨q, -, ha⟩ | ⟨i, chan, ha⟩ <;> simp [ha] at e
  case exiting => exact exiting_of_follows hfol h.exiting hf.init
  case scanned =>
    intro b j hj hpar
    rcases hf.parent j b hpar with hp | hp
    · exact h.scanned b j hj hp
    · exact h.exiting b (Pc.exiting_of_scanned (Nat.zero_lt_of_lt hj)) hp
  case child =>
    intro b np hnp
    exact hf.parent_kept np b (h.child b np hnp)

end Sched

/-- **The machine refines the critical sections.** A step of a CPU keeps
the locking discipline and is a step of `Sys`, or changes nothing there. -/
theorem Inv.step (h : m.Inv) {a : Cpu × Choice} {m' : Machine} (hm : m.step a = some m') :
    m'.Inv ∧ ∃ act, m.abs.Follows act m'.abs ∧
      ∀ pid i, act = some (.nice pid i) → a.2 = .nice pid i := by
  unfold Machine.step at hm
  split at hm
  · rename_i pc hc
    simp only [Option.bind_eq_some_iff, Option.map_eq_some_iff] at hm
    obtain ⟨tr, ht, lock, hop, rfl⟩ := hm
    obtain ⟨hi, hf⟩ := h.runSched hc ht hop
    refine ⟨hi, _, hf, fun pid i ha => ?_⟩
    rcases (Kern.schedStep_lawful ht).act with ⟨hn, -⟩ | ⟨q, -, hn⟩ | ⟨q, chan, hn⟩ <;>
      simp [hn] at ha
  · rename_i p hc
    simp only [Option.bind_eq_some_iff, Option.map_eq_some_iff] at hm
    obtain ⟨tr, ht, lock, hop, rfl⟩ := hm
    obtain ⟨hi, hf⟩ := h.runThread hc ht hop
    refine ⟨hi, _, hf, fun pid i ha => ?_⟩
    have hpc : m.pc p = .user := (Kern.threadStep_lawful (h.wf p) ht).does _ ha
    rw [hpc] at ht
    exact Kern.threadStep_nice ht ha

end Machine

end Xv6.Sched
