import Xv6.Sched.Kin

/-!
Whole runs of the machine.

The machine refines the critical sections along every run, so that what
holds of `Sys` holds on any number of CPUs. A process is `RUNNING` while a
CPU runs it, and no two CPUs run the same one. The processes are a tree:
from each of them the parents lead to init.
-/

namespace Xv6.Sched

open Lib

namespace Sys

variable {s t : Sys} {a : Act} {p q : ProcId}

/-! ### The tree -/

/-- The parents of a process lead to init. -/
inductive Descends (k : Kern) : ProcId → Prop
  | init {i : ProcId} (hi : k.initproc = some i) : Descends k i
  | child {p q : ProcId} (hp : (k.proc p).parent = some q) (hq : Descends k q) : Descends k p

/-- Init is the root, and every process descends from it. -/
structure Tree (s : Sys) : Prop where
  root : ∀ i, s.kern.initproc = some i → (s.kern.proc i).parent = none
  reach : ∀ p, (s.kern.proc p).state ≠ .unused → Descends s.kern p

/-- A process that is not freed keeps its parent, or init takes it. -/
theorem parent_step (ho : s.Orphans) (ha : a ≠ .userinit) (h : s.step a = some t)
    (hp : (s.kern.proc p).parent = some q) (hu : (t.kern.proc p).state ≠ .unused) :
    (t.kern.proc p).parent = some q ∨ (t.kern.proc p).parent = s.kern.initproc := by
  have hne : (s.kern.proc p).state ≠ .unused := fun hs => by simp [ho p hs] at hp
  cases (step_rewrites ha h).slot p <;> simp_all

theorem Descends.step (h : Descends s.kern p) (hk : Kin s) (hk' : Kin t) (ho : s.Orphans)
    (ha : a ≠ .userinit) (hstep : s.step a = some t) (hu : (t.kern.proc p).state ≠ .unused) :
    Descends t.kern p := by
  have hinit := (step_rewrites ha hstep).init
  induction h with
  | init hi => exact .init (hinit.trans hi)
  | child hp hq ih =>
      rcases parent_step ho ha hstep hp hu with hp | hp
      · -- the parent is still a process, as parents are alive, so the chain above it stays
        refine .child hp (ih fun hq => ?_)
        have := hk'.parents _ _ hp
        rw [hq] at this
        cases this
      · obtain ⟨i, hi, -⟩ := hk.init
        exact .child (hp.trans hi) (.init (hinit.trans hi))

theorem Tree.step (h : Tree s) (hk : Kin s) (hk' : Kin t) (ho : s.Orphans) (ha : a ≠ .userinit)
    (hstep : s.step a = some t) : Tree t := by
  have hre := step_rewrites ha hstep
  refine ⟨fun i hi => ?_, fun p hp => ?_⟩
  · rw [hre.init] at hi
    have hroot := h.root i hi
    obtain ⟨j, hj, hlive⟩ := hk.init
    cases hi.symm.trans hj
    cases hre.slot i <;> simp_all [ProcState.live]
  · by_cases hs : (s.kern.proc p).state = .unused
    · -- the slot has just been given to a child
      cases hre.slot p
      case forked x pid i ha' hx hy =>
        subst ha'
        obtain ⟨⟨hx, -⟩, -⟩ := Option.ite_none_right_eq_some.mp hstep
        refine .child (congrArg Proc.parent hy) ?_
        refine (h.reach x (by simp [hx.1])).step hk hk' ho ha hstep ?_
        have := (step_frame ha hstep).running x hx.1
        simp_all
      all_goals simp_all
    · exact (h.reach p hs).step hk hk' ho ha hstep hp

end Sys

namespace Machine

variable {m m' : Machine} {a : Cpu × Choice}

/-- What holds after every run. -/
structure Reached (m : Machine) : Prop where
  inv : m.Inv
  kin : m.abs.Kin
  tree : m.abs.Tree
  sections : ∃ bs, run Sys.step Sys.init (.userinit :: bs) = some m.abs

theorem Reached.step (h : m.Reached) (hm : m.step a = some m') : m'.Reached := by
  obtain ⟨hi, act, hfol, -⟩ := h.inv.step hm
  have hne : act ≠ some .userinit := by
    -- `userinit` runs before there is an init process
    rintro rfl
    obtain ⟨i, hsome, -⟩ := h.kin.init
    cases hsome.symm.trans (Option.ite_none_right_eq_some.mp hfol).1
  have hkin := kin_of_follows h.kin h.inv.orphans h.inv.exiting hfol hne
  obtain ⟨bs, hbs⟩ := h.sections
  rcases follows_cases hfol hne with ⟨-, he⟩ | ⟨b, rfl, hstep, -⟩
  · exact ⟨hi, hkin, he ▸ h.tree, bs, he ▸ hbs⟩
  · have hb : b ≠ .userinit := fun e => hne (e ▸ rfl)
    refine ⟨hi, hkin, h.tree.step h.kin hkin h.inv.orphans hb hstep, bs ++ [b], ?_⟩
    rw [← List.cons_append, run_append_eq_some]
    exact ⟨_, hbs, run_cons_eq_some.mpr ⟨_, hstep, rfl⟩⟩

theorem boot_tree : boot.abs.Tree where
  root i hi := by
    cases hi
    rfl
  reach p hp := by
    by_cases h : p = 0
    · exact .init (h ▸ rfl)
    · exact absurd (by simp [abs, seen, boot, Kern.userinit, Kern.allocproc, procinit, h]) hp

theorem reached_of_run {as : List (Cpu × Choice)} (h : run Machine.step boot as = some m) :
    m.Reached := by
  refine invariant' Reached.step ⟨boot_inv, boot_kin, boot_tree, [], ?_⟩ h
  exact run_cons_eq_some.mpr ⟨_, boot_abs, rfl⟩

end Machine

open Machine

variable {as : List (Cpu × Choice)} {m : Machine}

/-- Init forks on CPU 0, and CPU 1 runs the child. -/
def forkRun : List (Cpu × Choice) :=
  List.replicate 4 (0, .go) ++ (0, .fork) :: List.replicate 6 (0, .go) ++ List.replicate 4 (1, .go)

theorem run_forkRun : (run step boot forkRun).isSome = true := by decide +kernel

def forked : Machine := (run step boot forkRun).get run_forkRun

theorem forked_eq : run step boot forkRun = some forked := (Option.some_get _).symm

/-- **The machine refines the critical sections.** Whatever the CPUs have
done since boot, one lock operation at a time, the process table, the
queues and the positions in `fork` and `exit` are those of a run of whole
critical sections. -/
theorem machine_refines (h : run step boot as = some m) :
    ∃ bs, run Sys.step Sys.init (.userinit :: bs) = some m.abs :=
  (reached_of_run h).sections

theorem machine_refines_fork : ∃ bs, run Sys.step Sys.init (.userinit :: bs) = some forked.abs :=
  machine_refines forked_eq

/-- **No two CPUs run one process.** A process on a CPU is `RUNNING`, or a
zombie on its way to `sched`. A lock is held by the CPU whose code holds it
at this point, and a CPU comes back to `scheduler` with the lock of the
process and no other. -/
theorem cpus_exclude (h : run step boot as = some m) :
    (∀ c d p, m.cpu c = .proc p → m.cpu d = .proc p → c = d) ∧
      (∀ c p, m.cpu c = .proc p →
        (m.kern.proc p).state = if (m.pc p).leaving then .zombie else .running) ∧
      (∀ c l, m.lock l = some c ↔ l ∈ m.held c) ∧
      ∀ c p l, m.cpu c = .sched (.releaseProc p) → (m.lock l = some c ↔ l = .proc p) := by
  have hm := (reached_of_run h).inv
  refine ⟨fun c d p hc hd => hm.one c d p (.inl hc) (.inl hd),
    fun c p hc => hm.running c p (.inl hc), fun c l => hm.owned.mem l c, fun c p l hc => ?_⟩
  rw [hm.owned.mem, held, hc]
  exact List.mem_singleton

theorem cpus_exclude_fork : forked.cpu 1 = .proc 1 ∧ (forked.kern.proc 1).state = .running := by
  have hc : forked.cpu 1 = .proc 1 := by decide +kernel
  exact ⟨hc, ((cpus_exclude forked_eq).2.1 1 1 hc).trans (by decide +kernel)⟩

/-- **The processes are a tree.** On any number of CPUs, init is alive and
has no parent, the parents of every process lead to init, and only
processes have parents, which are alive. -/
theorem family_tree (h : run step boot as = some m) :
    (∃ i, m.kern.initproc = some i ∧ (m.kern.proc i).state.live = true ∧
      (m.kern.proc i).parent = none) ∧
    ∀ p, ((m.kern.proc p).state ≠ .unused → Sys.Descends m.kern p) ∧
      ∀ q, (m.kern.proc p).parent = some q →
        (m.kern.proc q).state.live = true ∧ (m.kern.proc p).state ≠ .unused := by
  obtain ⟨hm, hk, ht, -⟩ := reached_of_run h
  obtain ⟨i, hi, hlive⟩ := hk.init
  refine ⟨⟨i, hi, hlive, ht.root i hi⟩, fun p => ⟨ht.reach p, fun q hq => ⟨hk.parents p q hq, ?_⟩⟩⟩
  intro hu
  cases hq.symm.trans (hm.orphans p hu)

theorem family_tree_fork : Sys.Descends forked.kern 1 :=
  ((family_tree forked_eq).2 1).1 (by decide +kernel)

end Xv6.Sched
