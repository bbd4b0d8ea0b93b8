import Xv6.Sched.Kin
import Xv6.Vm.PageTable

/-!
What `exit` and `wait` pass on.

`Family` puts the data of the two calls beside the machine: the argument
and the result of `wait`, and the memory that `copyout` writes. What a
page table maps is kept as a map from page numbers to pages, and user code
and the other system calls may change it and the memory at any time. The
field `exited` only records the calls of `exit`.

A caller of `sleep` other than `wait` never sleeps on a process.
-/

namespace Xv6.Sched

open Lib Vm

/-! ### User memory -/

structure Memory where
  /-- The page behind a user page of a process. -/
  table : ProcId → ℕ → Option ℕ
  /-- The bytes of a page. -/
  ram : ℕ → ℕ → BitVec 8

namespace Memory

def walkaddr (mem : Memory) (p : ProcId) (va : ℕ) : Option ℕ :=
  if va ≥ maxva then none else mem.table p (va / pgsize)

/-- `memmove` into a page. -/
def move (mem : Memory) (page off : ℕ) (bytes : List (BitVec 8)) : Memory :=
  { mem with ram := Function.update mem.ram page fun k =>
      if off ≤ k ∧ k < off + bytes.length then bytes.getD (k - off) 0 else mem.ram page k }

/-- The loop of `copyout`; the result is whether it succeeds. Each round
copies up to the end of a page, so there are no more rounds than bytes. -/
def copyoutLoop (p : ProcId) : (fuel dstva : ℕ) → List (BitVec 8) → Memory → Bool × Memory
  | _, _, [], mem => (true, mem)
  | 0, _, _, mem => (true, mem)
  | fuel + 1, dstva, src, mem =>
      let va0 := pgrounddown dstva
      match mem.walkaddr p va0 with
      | none => (false, mem)
      | some pa0 =>
          let n := pgsize - (dstva - va0)
          copyoutLoop p fuel (u64 (va0 + pgsize)) (src.drop n)
            (mem.move pa0 (dstva - va0) (src.take n))

def copyout (mem : Memory) (p : ProcId) (dstva : ℕ) (src : List (BitVec 8)) : Bool × Memory :=
  copyoutLoop p src.length dstva src mem

/-- The byte at a user address. -/
def load (mem : Memory) (p : ProcId) (va : ℕ) : Option (BitVec 8) :=
  (mem.walkaddr p (pgrounddown va)).map fun page => mem.ram page (va % pgsize)

/-- The user may access the `n` bytes from `va` on. -/
def Mapped (mem : Memory) (p : ProcId) (va n : ℕ) : Prop :=
  ∀ i < n, (mem.walkaddr p (pgrounddown (va + i))).isSome

instance (mem : Memory) (p : ProcId) (va n : ℕ) : Decidable (mem.Mapped p va n) :=
  inferInstanceAs (Decidable (∀ i < n, _))

/-- `mem'` differs from `mem` in the bytes at the user address `va` only,
which are now `src`. -/
structure Stores (mem : Memory) (p : ProcId) (va : ℕ) (src : List (BitVec 8)) (mem' : Memory) :
    Prop where
  table : mem'.table = mem.table
  bytes : ∀ i < src.length, mem'.load p (va + i) = src[i]?
  rest : ∀ page off, (∀ i < src.length, mem.walkaddr p (pgrounddown (va + i)) = some page →
    off ≠ (va + i) % pgsize) → mem'.ram page off = mem.ram page off

variable {mem : Memory} {p : ProcId} {va fuel : ℕ} {src : List (BitVec 8)}

theorem walkaddr_move (page off : ℕ) (bytes : List (BitVec 8)) :
    (mem.move page off bytes).walkaddr = mem.walkaddr := rfl

theorem sub_pgrounddown (va : ℕ) : va - pgrounddown va = va % pgsize := by
  rw [pgrounddown, pgsize]
  omega

theorem pgrounddown_add {i : ℕ} (hi : va % pgsize + i < pgsize) :
    pgrounddown (va + i) = pgrounddown va ∧ (va + i) % pgsize = va % pgsize + i := by
  simp only [pgrounddown, pgsize] at hi ⊢
  omega

/-- A byte that `memmove` has written. -/
theorem ram_move {page off i : ℕ} (hi : i < src.length) :
    (mem.move page off src).ram page (off + i) = src.getD i 0 := by
  simp [move, hi]

theorem ram_move_of_not {page off page' off' : ℕ}
    (h : page' = page → ∀ i < src.length, off' ≠ off + i) :
    (mem.move page off src).ram page' off' = mem.ram page' off' := by
  by_cases hpage : page' = page
  · subst hpage
    simp only [move, Function.update_self]
    refine if_neg fun hin => ?_
    exact h rfl (off' - off) (by omega) (by omega)
  · simp [move, hpage]

/-- What the first round of `copyout` writes is not touched by the others:
the bytes are at different places of their pages, since there are no more
of them than a page has. -/
theorem Stores.cons {page n : ℕ} {mem' : Memory} (hn : n = pgsize - va % pgsize)
    (hpage : mem.walkaddr p (pgrounddown va) = some page) (hlen : src.length ≤ pgsize)
    (h : (mem.move page (va % pgsize) (src.take n)).Stores p (va + n) (src.drop n) mem') :
    mem.Stores p va src mem' := by
  have hmod : va % pgsize < pgsize := Nat.mod_lt _ (by decide)
  have hwalk : mem'.walkaddr = mem.walkaddr := by
    funext q va
    rw [walkaddr, h.table]
    rfl
  have hdrop : (src.drop n).length = src.length - n := List.length_drop
  refine ⟨h.table, fun i hi => ?_, fun pg off hoff => ?_⟩
  · rcases Nat.lt_or_ge i n with hin | hin
    · obtain ⟨hsame, hidx⟩ := pgrounddown_add (show va % pgsize + i < pgsize by omega)
      have htake : i < (src.take n).length := by
        rw [List.length_take]
        omega
      have hram : mem'.ram page (va % pgsize + i) = (src.take n).getD i 0 := by
        rw [h.rest page _ fun j hj _ => ?_, ram_move htake]
        simp only [pgsize] at hn hmod hlen ⊢
        omega
      rw [load, hsame, hwalk, hpage, Option.map_some, hidx, hram, List.getD_eq_getElem?_getD,
        List.getElem?_take_of_lt hin, List.getElem?_eq_getElem hi]
      rfl
    · have hb := h.bytes (i - n) (by omega)
      rw [List.getElem?_drop, show va + n + (i - n) = va + i by omega,
        show n + (i - n) = i by omega] at hb
      exact hb
  · rw [h.rest pg off fun j hj hpg => ?_, ram_move_of_not fun hpg j hj => ?_]
    · rw [List.length_take] at hj
      obtain ⟨hsame, hidx⟩ := pgrounddown_add (show va % pgsize + j < pgsize by omega)
      rw [← hidx]
      exact hoff j (by omega) (by rw [hsame, hpage, hpg])
    · rw [Nat.add_assoc] at hpg ⊢
      exact hoff (n + j) (by omega) hpg

theorem copyoutLoop_spec (hfuel : src.length ≤ fuel) (hlen : src.length ≤ pgsize)
    (hmap : mem.Mapped p va src.length) :
    ∃ mem', copyoutLoop p fuel va src mem = (true, mem') ∧ mem.Stores p va src mem' := by
  induction fuel generalizing mem va src with
  | zero =>
      obtain rfl := List.length_eq_zero_iff.mp (Nat.le_zero.mp hfuel)
      exact ⟨mem, rfl, rfl, nofun, fun _ _ _ => rfl⟩
  | succ fuel ih =>
      cases hsrc : src with
      | nil => exact ⟨mem, rfl, rfl, nofun, fun _ _ _ => rfl⟩
      | cons b bs =>
          rw [copyoutLoop, ← hsrc]
          · have hpos : 0 < src.length := by simp [hsrc]
            obtain ⟨page, hpage⟩ := Option.isSome_iff_exists.mp (hmap 0 hpos)
            rw [Nat.add_zero] at hpage
            have hlow : pgrounddown va < maxva := by
              unfold walkaddr at hpage
              split_ifs at hpage with hge
              exact Nat.not_le.mp hge
            set n := pgsize - va % pgsize with hn
            have hmod : va % pgsize < pgsize := Nat.mod_lt _ (by decide)
            have hnext : u64 (pgrounddown va + pgsize) = va + n := by
              simp only [u64, maxva, pgrounddown, pgsize] at hlow hn hmod ⊢
              omega
            simp only [hpage, sub_pgrounddown, hnext, ← hn]
            have hdrop : (src.drop n).length = src.length - n := List.length_drop
            have hmap' : (mem.move page (va % pgsize) (src.take n)).Mapped p (va + n)
                (src.drop n).length := by
              intro i hi
              rw [walkaddr_move, Nat.add_assoc]
              exact hmap (n + i) (by omega)
            obtain ⟨mem', hend, hst⟩ := ih (by omega) (by omega) hmap'
            exact ⟨mem', hend, .cons hn hpage hlen hst⟩
          · simp

theorem copyout_spec (hlen : src.length ≤ pgsize) (hmap : mem.Mapped p va src.length) :
    ∃ mem', mem.copyout p va src = (true, mem') ∧ mem.Stores p va src mem' :=
  copyoutLoop_spec le_rfl hlen hmap

end Memory

/-! ### The system -/

/-- The bytes of an `int`, least significant first. -/
def intBytes (x : CInt) : List (BitVec 8) :=
  (List.range 4).map fun i => x.extractLsb' (8 * i) 8

/-- The points from which the scan of `wait` may end without a zombie. -/
def Pc.scans : Pc → Bool
  | .waitAcquire | .waitReleaseChild _ false | .waitResume => true
  | _ => false

structure Family where
  machine : Machine
  memory : Memory
  /-- The argument of the call of `wait`. -/
  addr : ProcId → ℕ
  /-- What the call of `wait` returns. -/
  value : ProcId → CInt
  /-- The pid and the argument at the last call of `exit`. -/
  exited : ProcId → CInt × CInt

inductive Event
  /-- A step of a CPU, with the argument if it is a call of `wait`. -/
  | cpu (c : Cpu) (choice : Choice) (addr : ℕ)
  | memory (mem : Memory)

variable {e : Event}

variable {p : ProcId}

namespace Family

variable (s : Family)

abbrev proc (p : ProcId) : Proc := s.machine.kern.proc p

abbrev pc (p : ProcId) : Pc := s.machine.pc p

/-- `copyout` in `wait`, if there is an address. -/
def copyStatus (p np : ProcId) : Bool × Memory :=
  if s.addr p ≠ 0 then s.memory.copyout p (s.addr p) (intBytes (s.proc np).xstate)
  else (true, s.memory)

/-- `wait` at a zombie child. -/
def found (p np : ProcId) (m : Machine) : Choice → Option Family
  | .go =>
      if (s.copyStatus p np).1 then
        some { s with machine := m, memory := (s.copyStatus p np).2,
                      value := Function.update s.value p (s.proc np).pid }
      else none
  | .badAddress =>
      if (s.copyStatus p np).1 then none
      else
        some { s with machine := m, memory := (s.copyStatus p np).2,
                      value := Function.update s.value p (-1) }
  | _ => none

/-- The data after the call of a function by `p`. -/
def call (p : ProcId) (addr : ℕ) (m : Machine) : Choice → Family
  | .exit status =>
      { s with machine := m, exited := Function.update s.exited p ((s.proc p).pid, status) }
  | .wait => { s with machine := m, addr := Function.update s.addr p addr }
  | _ => { s with machine := m }

/-- The data when the thread of `p` has taken the machine to `m`. -/
def thread (p : ProcId) (choice : Choice) (addr : ℕ) (m : Machine) : Option Family :=
  match s.pc p with
  | .user => some (s.call p addr m choice)
  | .waitAcquireChild np =>
      if (s.proc np).state = .zombie then s.found p np m choice else some { s with machine := m }
  | pc =>
      if pc.scans ∧ m.pc p = .waitRelease then
        some { s with machine := m, value := Function.update s.value p (-1) }
      else some { s with machine := m }

def step : Event → Option Family
  | .cpu c choice addr =>
      if choice.plain then
        (s.machine.step (c, choice)).bind fun m =>
          match s.machine.cpu c with
          | .sched _ => some { s with machine := m }
          | .proc p => s.thread p choice addr m
      else none
  | .memory mem => some { s with memory := mem }

/-- The state when the CPUs enter `scheduler`. -/
def boot (mem : Memory) : Family where
  machine := .boot
  memory := mem
  addr := fun _ => 0
  value := fun _ => 0
  exited := fun _ => (0, 0)

variable {s} {t : Family}

/-! ### Steps -/

/-- What a step of the thread of `p` does to the data. -/
structure Data (s t : Family) (p : ProcId) (choice : Choice) : Prop where
  exit : ∀ status, s.pc p = .user → choice = .exit status →
    t.exited = Function.update s.exited p ((s.proc p).pid, status)
  exited : s.pc p ≠ .user ∨ (∀ status, choice ≠ .exit status) → t.exited = s.exited
  value : ∀ b, b ≠ p → t.value b = s.value b
  returning : (∃ np, s.pc p = .waitReleaseChild np true) ∨ s.pc p = .waitRelease →
    t.value = s.value
  found : ∀ np, s.pc p = .waitAcquireChild np → (s.proc np).state = .zombie → choice = .go →
    s.copyStatus p np = (true, t.memory) ∧ t.value p = (s.proc np).pid

variable {choice : Choice}

theorem Data.of_eq (hpc : ∀ np, s.pc p ≠ .waitAcquireChild np)
    (hexit : s.pc p ≠ .user ∨ ∀ status, choice ≠ .exit status)
    (hexited : t.exited = s.exited) (hvalue : t.value = s.value) : Data s t p choice where
  exit status h h' := hexit.elim (absurd h) fun hno => absurd h' (hno status)
  exited _ := hexited
  value _ _ := congrFun hvalue _
  returning _ := hvalue
  found np h := absurd h (hpc np)

/-- The value is set outside the returning part of `wait`. -/
theorem Data.of_value {v : CInt} (huser : s.pc p ≠ .user)
    (hpc : ∀ np, s.pc p ≠ .waitReleaseChild np true) (hpc' : s.pc p ≠ .waitRelease)
    (hexited : t.exited = s.exited) (hvalue : t.value = Function.update s.value p v)
    (hfound : ∀ np, s.pc p = .waitAcquireChild np → (s.proc np).state = .zombie → choice = .go →
      s.copyStatus p np = (true, t.memory) ∧ v = (s.proc np).pid) : Data s t p choice where
  exit _ h := absurd h huser
  exited _ := hexited
  value b hb := by rw [hvalue, Function.update_of_ne hb]
  returning h := by
    rcases h with ⟨np, h⟩ | h
    · exact absurd h (hpc np)
    · exact absurd h hpc'
  found np h hz hch := by
    obtain ⟨hcopy, hv⟩ := hfound np h hz hch
    exact ⟨hcopy, by rw [hvalue, Function.update_self, hv]⟩

theorem found_spec {np : ProcId} {m : Machine}
    (hpc : s.pc p = .waitAcquireChild np) (h : s.found p np m choice = some t) :
    t.machine = m ∧ Data s t p choice := by
  have huser : s.pc p ≠ .user := by
    rw [hpc]
    nofun
  have hno : ∀ np', s.pc p ≠ .waitReleaseChild np' true := by
    rw [hpc]
    nofun
  have hno' : s.pc p ≠ .waitRelease := by
    rw [hpc]
    nofun
  cases choice <;> simp only [found, Option.ite_none_right_eq_some,
    Option.ite_none_left_eq_some, Option.some.injEq, reduceCtorEq] at h
  case go =>
    obtain ⟨hok, rfl⟩ := h
    refine ⟨rfl, .of_value huser hno hno' rfl rfl fun np' hpc' _ _ => ?_⟩
    obtain rfl : np = np' := Pc.waitAcquireChild.inj (hpc.symm.trans hpc')
    exact ⟨Prod.ext hok rfl, rfl⟩
  case badAddress =>
    obtain ⟨-, rfl⟩ := h
    exact ⟨rfl, .of_value huser hno hno' rfl rfl nofun⟩

theorem thread_spec {addr : ℕ} {m : Machine}
    (h : s.thread p choice addr m = some t) : t.machine = m ∧ Data s t p choice := by
  unfold thread at h
  split at h
  · rename_i hpc
    have hno : ∀ np, s.pc p ≠ .waitAcquireChild np := by
      rw [hpc]
      nofun
    cases h
    cases choice
    case exit status =>
      refine ⟨rfl, ?_, fun h => ?_, fun _ _ => rfl, fun _ => rfl, fun np h => absurd h (hno np)⟩
      · rintro _ - ⟨⟩
        rfl
      · exact h.elim (absurd hpc) fun h => absurd rfl (h status)
    all_goals exact ⟨rfl, .of_eq hno (.inr nofun) rfl rfl⟩
  · rename_i np hpc
    split at h
    · exact found_spec hpc h
    · rename_i hz
      cases h
      refine ⟨rfl, fun _ h => ?_, fun _ => rfl, fun _ _ => rfl, fun _ => rfl, fun np' hpc' hz' => ?_⟩
      · rw [hpc] at h
        cases h
      obtain rfl : np = np' := Pc.waitAcquireChild.inj (hpc.symm.trans hpc')
      exact absurd hz' hz
  · rename_i huser hno
    split at h <;> cases h
    · rename_i hscan
      refine ⟨rfl, .of_value huser (fun np hpc => ?_) (fun hpc => ?_) rfl rfl
        fun np hpc => absurd hpc (hno np)⟩ <;> rw [hpc] at hscan <;> cases hscan.1
    · exact ⟨rfl, .of_eq hno (.inl huser) rfl rfl⟩

/-- A step is one of the machine, with what it does to the data, or one of
the memory. -/
theorem step_cases (h : s.step e = some t) : (∃ mem, t = { s with memory := mem }) ∨
    (∃ c pc choice tr lock, s.machine.cpu c = .sched pc ∧
      s.machine.kern.schedStep pc choice = some tr ∧ tr.op.apply s.machine.lock c = some lock ∧
      t = { s with machine := s.machine.runSched c tr lock }) ∨
    ∃ c p choice tr lock, choice.plain = true ∧ s.machine.cpu c = .proc p ∧
      s.machine.kern.threadStep p (s.pc p) choice = some tr ∧
      tr.op.apply s.machine.lock c = some lock ∧
      t.machine = s.machine.runThread c p tr lock ∧ Data s t p choice := by
  cases e with
  | memory mem => exact .inl ⟨mem, (Option.some.inj h).symm⟩
  | cpu c choice addr =>
      obtain ⟨hplain, h⟩ := Option.ite_none_right_eq_some.mp h
      obtain ⟨m, hm, h⟩ := Option.bind_eq_some_iff.mp h
      unfold Machine.step at hm
      cases hc : s.machine.cpu c with
      | sched pc =>
          simp only [hc, Option.bind_eq_some_iff, Option.map_eq_some_iff] at hm h
          obtain ⟨tr, ht, lock, hop, rfl⟩ := hm
          exact .inr (.inl ⟨c, pc, choice, tr, lock, hc, ht, hop, (Option.some.inj h).symm⟩)
      | proc p =>
          simp only [hc, Option.bind_eq_some_iff, Option.map_eq_some_iff] at hm h
          obtain ⟨tr, ht, lock, hop, rfl⟩ := hm
          exact .inr (.inr ⟨c, p, choice, tr, lock, hplain, hc, ht, hop, thread_spec h⟩)

end Family

/-! ### The argument of `exit` -/

/-- The argument of the call of `exit` that the thread is in. -/
def Pc.status : Pc → Option CInt
  | .yieldAcquire ret | .yieldRelease ret | .wakeupAcquire _ _ ret | .wakeupRelease _ _ ret =>
      ret.status
  | .exitAcquireInit status | .exitReleaseInit status _ | .exitAcquirePrio status
  | .exitAcquireQueued status | .exitReleaseQueued status | .exitReleasePrio status
  | .exitAcquireSelf status | .exitReleaseSelf status _ | .exitAcquireParent status _
  | .exitAcquireLast status _ | .reparentAcquire status _ _ | .reparentRelease status _ _ =>
      some status
  | _ => none

/-- A zombie is made or freed. -/
def Act.reaps : Act → Bool
  | .exitZombie _ _ | .wait _ _ => true
  | _ => false

/-- The argument is kept from the call of `exit` to the end, and `wait` frees
the child it is at. -/
structure Trans.Carries (tr : Trans) (k : Kern) (p : ProcId) (pc : Pc) (choice : Choice) :
    Prop where
  status : ∀ status, tr.pc.status = some status → pc.status = some status ∨
    pc = .user ∧ choice = .exit status
  zombie : ∀ status, tr.act = some (.exitZombie p status) → pc.status = some status
  wait : ∀ x np, tr.act = some (.wait x np) → pc = .waitAcquireChild np ∧ choice = .go ∧
    (k.proc np).state = .zombie ∧ tr.kern = k.freeproc np ∧ tr.pc = .waitReleaseChild np true

namespace Kern

variable {k : Kern} {p : ProcId} {pc : Pc} {choice : Choice} {tr : Trans}

theorem carries_of_status (hpc : ∀ status, tr.pc.status = some status → pc.status = some status)
    (hact : tr.act.any Act.reaps = false) : tr.Carries k p pc choice where
  status _ h := .inl (hpc _ h)
  zombie _ h := by
    rw [h] at hact
    cases hact
  wait _ _ h := by
    rw [h] at hact
    cases hact

theorem carries_of_eq (hpc : tr.pc.status = pc.status) (hact : tr.act.any Act.reaps = false) :
    tr.Carries k p pc choice :=
  carries_of_status (fun _ h => hpc ▸ h) hact

theorem carries_of_none (hpc : tr.pc.status = none) (hact : tr.act.any Act.reaps = false) :
    tr.Carries k p pc choice :=
  carries_of_status (fun _ h => by simp [hpc] at h) hact

theorem carries_reparentScan {op : LockOp Lock} {status : CInt} {q : ProcId} {i : ℕ}
    (hpc : pc.status = some status) : (k.reparentScan op p status q i).Carries k p pc choice := by
  unfold reparentScan
  split
  · exact carries_of_eq hpc.symm rfl
  · refine ⟨nofun, ?_, nofun⟩
    rintro _ ⟨⟩
    exact hpc

theorem carries_waitScan {op : LockOp Lock} {i : ℕ} {b : Bool} :
    (k.waitScan op p i b).Carries k p pc choice := by
  unfold waitScan
  split
  · exact carries_of_none rfl rfl
  · split <;> exact carries_of_none rfl rfl

theorem carries_advance (h : k.advance p pc = some tr) : tr.Carries k p pc choice := by
  cases pc
  case user => cases h
  case exited => cases h
  case allocAcquire => cases h
  case waitAcquireChild => cases h
  case wakeupRelease i chan ret =>
    cases h
    refine carries_of_eq ?_ rfl
    cases nextSlot i <;> rfl
  case killAcquire i pid =>
    simp only [advance] at h
    split at h <;> cases h <;> exact carries_of_none rfl rfl
  case killRelease i pid found =>
    cases found <;> cases h
    · refine carries_of_none ?_ rfl
      cases nextSlot i <;> rfl
    · exact carries_of_none rfl rfl
  case allocRelease i =>
    cases h
    refine carries_of_none ?_ rfl
    cases nextSlot i <;> rfl
  case exitAcquireInit status =>
    obtain ⟨i, -, rfl⟩ := Option.map_eq_some_iff.mp h
    exact carries_of_eq rfl rfl
  case exitAcquireSelf status =>
    obtain ⟨q, -, rfl⟩ := Option.map_eq_some_iff.mp h
    exact carries_of_eq rfl rfl
  case exitAcquireLast status q =>
    cases h
    exact carries_reparentScan rfl
  case reparentRelease status q pp =>
    cases h
    exact carries_reparentScan rfl
  case waitAcquire =>
    cases h
    exact carries_waitScan
  case waitReleaseChild np found =>
    cases found <;> cases h
    · exact carries_waitScan
    · exact carries_of_none rfl rfl
  case waitResume =>
    cases h
    exact carries_waitScan
  all_goals
    cases h
    exact carries_of_eq rfl rfl

theorem threadStep_carries (h : k.threadStep p pc choice = some tr) : tr.Carries k p pc choice := by
  rcases threadStep_cases h with ⟨-, rfl | ⟨chan, rfl⟩⟩ | ⟨rfl, ht⟩ | ⟨i, rfl, ht⟩ | ⟨np, rfl, ht⟩ | ht
  · exact carries_of_eq rfl rfl
  · exact carries_of_eq rfl rfl
  · unfold call at ht
    cases choice <;> simp only [Option.ite_none_left_eq_some, Option.some.injEq, reduceCtorEq] at ht
    case exit status =>
      obtain ⟨-, rfl⟩ := ht
      refine ⟨?_, by rintro _ ⟨⟩, by rintro _ _ ⟨⟩⟩
      rintro _ ⟨⟩
      exact .inr ⟨rfl, rfl⟩
    all_goals
      subst ht
      exact carries_of_none rfl rfl
  · rcases ht with ⟨-, ht⟩ | rfl
    · cases choice <;> simp only [forkInto, Option.some.injEq, reduceCtorEq] at ht
      all_goals
        subst ht
        exact carries_of_none rfl rfl
    · exact carries_of_none rfl rfl
  · rcases ht with ⟨hz, ht⟩ | rfl
    · cases choice <;> simp only [waitZombie, Option.some.injEq, reduceCtorEq] at ht
      · subst ht
        refine ⟨by rintro _ ⟨⟩, by rintro _ ⟨⟩, ?_⟩
        rintro _ _ ⟨⟩
        exact ⟨rfl, rfl, hz, rfl, rfl⟩
      · subst ht
        exact carries_of_none rfl rfl
    · exact carries_of_none rfl rfl
  · exact carries_advance ht

end Kern

/-! ### The invariant -/

theorem used_of_follows {s t : Sys} {act : Option Act} (hfol : s.Follows act t)
    (hne : act ≠ some .userinit) {b : ProcId} (hb : (t.kern.proc b).state ≠ .unused) :
    (s.kern.proc b).state ≠ .unused ∨ ∃ x, act = some (.fork x b) := by
  rcases Machine.follows_cases hfol hne with ⟨-, rfl⟩ | ⟨a, rfl, hstep, hf⟩
  · exact .inl hb
  by_cases hlive : (t.kern.proc b).state.live = true
  · rcases hf.live b hlive with h | ⟨x, rfl⟩
    · left
      intro hu
      rw [hu] at h
      cases h
    · exact .inr ⟨x, rfl⟩
  · left
    have hz : (t.kern.proc b).state = .zombie := by
      cases hs : (t.kern.proc b).state <;> simp_all [ProcState.live]
    rcases (Sys.step_fate (fun he => hne (congrArg some he)) hstep).dies b hz with h | ⟨st, rfl, -⟩
    · rw [h]
      nofun
    · obtain ⟨-, -, hr, -⟩ := Sys.exitZombie_enabled hstep
      rw [hr]
      nofun

theorem pid_of_follows {s t : Sys} {act : Option Act} (hfol : s.Follows act t)
    (hne : act ≠ some .userinit) {b : ProcId} (hb : (s.kern.proc b).state ≠ .unused)
    (hb' : (t.kern.proc b).state ≠ .unused) : (t.kern.proc b).pid = (s.kern.proc b).pid := by
  rcases Machine.follows_cases hfol hne with ⟨-, rfl⟩ | ⟨a, rfl, hstep, -⟩
  · rfl
  · exact (Sys.step_fate (fun he => hne (congrArg some he)) hstep).pid b hb hb'

/-- A zombie is an old one, which is as it was, or has just called `exit`. -/
theorem zombie_of_follows {s t : Sys} {act : Option Act} (hfol : s.Follows act t)
    (hne : act ≠ some .userinit) {b : ProcId} (hb : (t.kern.proc b).state = .zombie) :
    (s.kern.proc b).state = .zombie ∧ (t.kern.proc b).xstate = (s.kern.proc b).xstate ∨
      (s.kern.proc b).state = .running ∧ act = some (.exitZombie b (t.kern.proc b).xstate) := by
  rcases Machine.follows_cases hfol hne with ⟨-, rfl⟩ | ⟨a, rfl, hstep, -⟩
  · exact .inl ⟨hb, rfl⟩
  have hfate := Sys.step_fate (fun he => hne (congrArg some he)) hstep
  rcases hfate.dies b hb with h | ⟨st, rfl, hx⟩
  · exact .inl ⟨h, hfate.xstate b h hb⟩
  · obtain ⟨-, -, hr, -⟩ := Sys.exitZombie_enabled hstep
    exact .inr ⟨hr, by rw [hx]⟩

namespace Family

variable {s t : Family}

/-- The machine misses no zombie, and a zombie has the status that the
process passed to `exit`. -/
structure Inv (s : Family) : Prop where
  machine : s.machine.Inv
  kin : s.machine.abs.Kin
  awake : s.machine.Awake
  status : ∀ b status, (s.pc b).status = some status → (s.proc b).state ≠ .unused →
    s.exited b = ((s.proc b).pid, status)
  zombie : ∀ b, (s.proc b).state = .zombie → s.exited b = ((s.proc b).pid, (s.proc b).xstate)

theorem boot_inv (mem : Memory) : (boot mem).Inv where
  machine := Machine.boot_inv
  kin := Machine.boot_kin
  awake := Machine.boot_awake
  status _ _ h := by cases h
  zombie b hb := by
    have := Machine.boot_kin.zombie b hb
    cases this

theorem Inv.runThread {c : Cpu} {choice : Choice} {tr : Trans}
    {lock : Lock → Option Cpu} (h : s.Inv) (hplain : choice.plain = true)
    (hc : s.machine.cpu c = .proc p) (ht : s.machine.kern.threadStep p (s.pc p) choice = some tr)
    (hop : tr.op.apply s.machine.lock c = some lock)
    (hm : t.machine = s.machine.runThread c p tr lock) (hd : Data s t p choice) : t.Inv := by
  have hl := Kern.threadStep_lawful (h.machine.wf p) ht
  have hne : tr.act ≠ some .userinit := fun he => hl.does _ he
  have hcar := Kern.threadStep_carries ht
  obtain ⟨hinv, hfol⟩ := h.machine.runThread hc ht hop
  have hkin := Machine.kin_of_follows h.kin h.machine.orphans h.machine.exiting hfol hne
  have hawake := h.awake.runThread h.machine h.kin hc hplain ht hop
  rw [← hm] at hinv hkin hawake hfol
  have hself : t.pc p = tr.pc := by
    rw [pc, hm]
    exact Trans.pcs_self ..
  have hrun : s.pc p = .user → (s.proc p).state = .running := by
    intro hpc
    have hstate := h.machine.running c p (.inl hc)
    rwa [show s.machine.pc p = .user from hpc] at hstate
  -- the record of another process, or of one that does not call `exit`, is kept
  have hkept : ∀ b, (b = p → s.pc p ≠ .user) → t.exited b = s.exited b := by
    intro b hb
    by_cases hcall : s.pc p = .user ∧ ∃ status, choice = .exit status
    · obtain ⟨hpc, status, hch⟩ := hcall
      rw [hd.exit status hpc hch, Function.update_of_ne]
      exact fun he => hb he hpc
    · rw [hd.exited]
      by_cases hpc : s.pc p = .user
      · exact .inr fun status hch => hcall ⟨hpc, status, hch⟩
      · exact .inl hpc
  refine ⟨hinv, hkin, hawake, fun b status hb hu => ?_, fun b hb => ?_⟩
  · rcases eq_or_ne b p with rfl | hbp
    · rw [hself] at hb
      have hu' : (s.proc b).state ≠ .unused := by
        intro hu'
        have hstate := h.machine.running c b (.inl hc)
        rw [show (s.machine.kern.proc b).state = .unused from hu'] at hstate
        split at hstate <;> cases hstate
      have hpid : (t.proc b).pid = (s.proc b).pid := pid_of_follows hfol hne hu' hu
      rcases hcar.status status hb with hold | ⟨hpc, hch⟩
      · rw [hkept b fun _ hpc => ?_, hpid]
        · exact h.status b status hold hu'
        · rw [hpc] at hold
          cases hold
      · rw [hd.exit status hpc hch, Function.update_self, hpid]
    · have hpc : t.pc b = s.pc b ∨ t.pc b = .yieldRelease .user := by
        rw [pc, hm]
        exact Machine.pc_runThread_cases hbp
      rcases hpc with hpc | hpc
      · rw [hpc] at hb
        rcases used_of_follows hfol hne hu with hu' | ⟨x, hx⟩
        · rw [hkept b fun he => absurd he hbp,
            show (t.proc b).pid = (s.proc b).pid from pid_of_follows hfol hne hu' hu]
          exact h.status b status hb hu'
        · -- a new process does not start inside `exit`
          obtain ⟨-, hspawn, -⟩ := hl.does _ hx
          rw [← hpc, pc, hm, show (s.machine.runThread c p tr lock).pc b = .yieldRelease .user from
            Trans.pcs_spawn hspawn hbp] at hb
          cases hb
      · rw [hpc] at hb
        cases hb
  · rcases zombie_of_follows hfol hne hb with ⟨hz, hx⟩ | ⟨hr, hact⟩
    · have hu : (s.proc b).state ≠ .unused := by
        rw [show (s.proc b).state = .zombie from hz]
        nofun
      have hu' : (t.proc b).state ≠ .unused := by
        rw [hb]
        nofun
      rw [hkept b fun he hpc => ?_, show (t.proc b).pid = (s.proc b).pid from
        pid_of_follows hfol hne hu hu', show (t.proc b).xstate = (s.proc b).xstate from hx]
      · exact h.zombie b hz
      · subst he
        exact absurd ((hrun hpc).symm.trans hz) (by decide)
    · obtain rfl : b = p := (hl.does _ hact).1
      have hst := hcar.zombie _ hact
      have hu : (s.proc b).state ≠ .unused := by
        rw [show (s.proc b).state = .running from hr]
        nofun
      have hu' : (t.proc b).state ≠ .unused := by
        rw [hb]
        nofun
      rw [hkept b fun _ hpc => ?_, show (t.proc b).pid = (s.proc b).pid from
        pid_of_follows hfol hne hu hu']
      · exact h.status b _ hst hu
      · rw [hpc] at hst
        cases hst

theorem Inv.runSched {c : Cpu} {pc : SchedPc} {choice : Choice} {tr : SchedTrans}
    {lock : Lock → Option Cpu} (h : s.Inv) (hc : s.machine.cpu c = .sched pc)
    (ht : s.machine.kern.schedStep pc choice = some tr)
    (hop : tr.op.apply s.machine.lock c = some lock) :
    ({ s with machine := s.machine.runSched c tr lock } : Family).Inv := by
  have hact := (Kern.schedStep_lawful ht).act
  have hne : ∀ a, tr.act = some a → (∀ b status, a ≠ .exitZombie b status) ∧ a ≠ .userinit ∧
      ∀ x b, a ≠ .fork x b := by
    intro a ha
    rcases hact with ⟨ha', -⟩ | ⟨q, -, ha'⟩ | ⟨i, chan, ha'⟩ <;> rw [ha'] at ha <;> cases ha <;>
      exact ⟨nofun, nofun, nofun⟩
  have hne' : tr.act ≠ some .userinit := fun he => (hne _ he).2.1 rfl
  obtain ⟨hinv, hfol⟩ := h.machine.runSched hc ht hop
  refine ⟨hinv, Machine.kin_of_follows h.kin h.machine.orphans h.machine.exiting hfol hne',
    h.awake.runSched h.machine h.kin hc ht hop, fun b status hb hu => ?_, fun b hb => ?_⟩
  · have hu' : (s.proc b).state ≠ .unused := by
      rcases used_of_follows hfol hne' hu with hu' | ⟨x, hx⟩
      · exact hu'
      · exact absurd rfl ((hne _ hx).2.2 x b)
    rw [show ((s.machine.runSched c tr lock).kern.proc b).pid = (s.proc b).pid from
      pid_of_follows hfol hne' hu' hu]
    exact h.status b status hb hu'
  · rcases zombie_of_follows hfol hne' hb with ⟨hz, hx⟩ | ⟨-, hx⟩
    · have hu : (s.proc b).state ≠ .unused := by
        rw [show (s.proc b).state = .zombie from hz]
        nofun
      have hu' : ((s.machine.runSched c tr lock).kern.proc b).state ≠ .unused := by
        rw [show ((s.machine.runSched c tr lock).kern.proc b).state = .zombie from hb]
        nofun
      rw [show ((s.machine.runSched c tr lock).kern.proc b).pid = (s.proc b).pid from
        pid_of_follows hfol hne' hu hu',
        show ((s.machine.runSched c tr lock).kern.proc b).xstate = (s.proc b).xstate from hx]
      exact h.zombie b hz
    · exact absurd rfl ((hne _ hx).1 b _)

theorem Inv.step (h : s.Inv) (hstep : s.step e = some t) : t.Inv := by
  rcases step_cases hstep with ⟨mem, rfl⟩ | ⟨c, pc, choice, tr, lock, hc, ht, hop, rfl⟩ |
    ⟨c, p, choice, tr, lock, hplain, hc, ht, hop, hm, hd⟩
  · exact ⟨h.machine, h.kin, h.awake, h.status, h.zombie⟩
  · exact h.runSched hc ht hop
  · exact h.runThread hplain hc ht hop hm hd

/-! ### Reaping -/

/-- The thread of `p` has its result in `wait` and is about to return it. -/
def Returns (s : Family) (p : ProcId) : Prop :=
  (∃ c, s.machine.cpu c = .proc p) ∧
    ((∃ np, s.pc p = .waitReleaseChild np true) ∨ s.pc p = .waitRelease)

/-- The zombie `np` is freed by the call of `wait` that `p` is in. -/
structure Reaps (s t : Family) (p np : ProcId) : Prop where
  parent : (s.proc np).parent = some p
  freed : (t.proc np).state = .unused
  call : s.pc p = .waitAcquireChild np
  returns : t.Returns p
  value : t.value p = (s.exited np).1
  /-- The status is at the address, and nothing else is written. -/
  stored : s.addr p ≠ 0 → s.memory.Mapped p (s.addr p) 4 →
    s.memory.Stores p (s.addr p) (intBytes (s.exited np).2) t.memory
  kept : s.addr p = 0 → t.memory = s.memory

theorem Inv.reaps (h : s.Inv) (hstep : s.step e = some t) {np : ProcId}
    (hz : (s.proc np).state = .zombie) (hz' : (t.proc np).state ≠ .zombie) :
    ∃ p, Reaps s t p np := by
  rcases step_cases hstep with ⟨mem, rfl⟩ | ⟨c, pc, choice, tr, lock, hc, ht, hop, rfl⟩ |
    ⟨c, p, choice, tr, lock, hplain, hc, ht, hop, hm, hd⟩
  · exact absurd hz hz'
  · have hl := Kern.schedStep_lawful ht
    have hfol := (h.machine.runSched hc ht hop).2
    exact absurd ((Machine.schedFrame_of_follows hl h.machine.orphans hfol).zombie np hz) hz'
  · have hl := Kern.threadStep_lawful (h.machine.wf p) ht
    have hfol := (h.machine.runThread hc ht hop).2
    have hkern : t.machine.kern = tr.kern := by rw [hm]; rfl
    rcases Machine.follows_cases hfol fun he => hl.does _ he with ⟨-, hs⟩ | ⟨a, hact, -, hf⟩
    · refine absurd ?_ hz'
      rw [proc, hkern]
      exact (congrArg (fun x => (x.kern.proc np).state) hs).trans hz
    rcases hf.zombie np hz with h' | ⟨x, rfl⟩
    · refine absurd ?_ hz'
      rw [proc, hkern]
      exact h'
    obtain ⟨hpc, hch, -, hfree, hpc'⟩ := (Kern.threadStep_carries ht).wait x np hact
    obtain ⟨hcopy, hvalue⟩ := hd.found np hpc hz hch
    have hexited := h.zombie np hz
    refine ⟨p, h.machine.child p np (by rw [show s.machine.pc p = _ from hpc]; rfl), ?_, hpc,
      ⟨⟨c, ?_⟩, .inl ⟨np, ?_⟩⟩, by rw [hvalue, hexited], fun haddr hmap => ?_, fun haddr => ?_⟩
    · rw [proc, hkern, hfree]
      simp [Kern.freeproc]
    · rw [hm, Machine.cpu_runThread_self hc, if_neg]
      intro hsw
      rcases hl.swtch hsw with hr | hr
      · rw [hpc'] at hr
        exact hr
      · rw [show s.machine.pc p = _ from hpc] at hr
        cases hr
    · rw [Family.pc, hm]
      exact (Trans.pcs_self ..).trans hpc'
    · have hlen : (intBytes (s.proc np).xstate).length = 4 := rfl
      obtain ⟨mem, hout, hst⟩ := Memory.copyout_spec (by rw [hlen]; decide)
        (show s.memory.Mapped p (s.addr p) (intBytes (s.proc np).xstate).length from hmap)
      rw [copyStatus, if_pos haddr, hout] at hcopy
      obtain rfl : mem = t.memory := (Prod.ext_iff.mp hcopy).2
      rw [hexited]
      exact hst
    · rw [copyStatus, if_neg (not_not.mpr haddr)] at hcopy
      exact (Prod.ext_iff.mp hcopy).2.symm

/-- The steps that end a call of `wait`. -/
theorem threadStep_returns {k : Kern} {pc : Pc} {choice : Choice} {tr : Trans}
    (h : k.threadStep p pc choice = some tr)
    (hpc : (∃ np, pc = .waitReleaseChild np true) ∨ pc = .waitRelease) :
    tr.swtch = false ∧ (tr.pc = .waitRelease ∨ pc = .waitRelease ∧ tr.pc = .user) := by
  rcases hpc with ⟨np, rfl⟩ | rfl <;>
    rcases Kern.threadStep_cases h with ⟨⟨⟩, -⟩ | ⟨⟨⟩, -⟩ | ⟨i, ⟨⟩, -⟩ | ⟨i, ⟨⟩, -⟩ | ht <;>
    cases ht
  · exact ⟨rfl, .inl rfl⟩
  · exact ⟨rfl, .inr ⟨rfl, rfl⟩⟩

/-- The result is kept until `wait` returns. -/
theorem Inv.returns (h : s.Inv) (hstep : s.step e = some t) (hp : s.Returns p) :
    t.value p = s.value p ∧ (t.Returns p ∨ s.pc p = .waitRelease ∧ t.pc p = .user) := by
  obtain ⟨⟨d, hd⟩, hpc⟩ := hp
  rcases step_cases hstep with ⟨mem, rfl⟩ | ⟨c, pc, choice, tr, lock, hc, ht, hop, rfl⟩ |
    ⟨c, b, choice, tr, lock, hplain, hc, ht, hop, hm, hdata⟩
  · exact ⟨rfl, .inl ⟨⟨d, hd⟩, hpc⟩⟩
  · refine ⟨rfl, .inl ⟨⟨d, ?_⟩, hpc⟩⟩
    rw [← hd]
    refine Machine.cpu_runSched_of_ne ?_
    rintro rfl
    rw [hc] at hd
    cases hd
  · rcases eq_or_ne p b with rfl | hpb
    · obtain ⟨hsw, hnext⟩ := threadStep_returns ht hpc
      have hself : t.pc p = tr.pc := by
        rw [Family.pc, hm]
        exact Trans.pcs_self ..
      refine ⟨congrFun (hdata.returning hpc) p, ?_⟩
      rcases hnext with hnext | ⟨hold, hnext⟩
      · refine .inl ⟨⟨c, ?_⟩, .inr (hself.trans hnext)⟩
        rw [hm, Machine.cpu_runThread_self hc, hsw]
        rfl
      · exact .inr ⟨hold, hself.trans hnext⟩
    · have hl := Kern.threadStep_lawful (h.machine.wf b) ht
      have hf := Machine.threadFrame_of_follows hl h.machine.orphans (h.machine.runThread hc ht hop).2
      have hsame : t.pc p = s.pc p := by
        rw [Family.pc, hm]
        exact Machine.pc_runThread_of_ne hpb (h.machine.not_spawn_of_on hf (.inl hd))
      refine ⟨hdata.value p hpb, .inl ⟨⟨d, ?_⟩, by rwa [hsame]⟩⟩
      rw [hm, Machine.cpu_runThread_of_ne]
      · exact hd
      · rintro rfl
        exact hpb (CpuState.proc.inj (hd.symm.trans hc))

/-- A process becomes a zombie in its own call of `exit`. -/
theorem Inv.dies (h : s.Inv) (hstep : s.step e = some t) {np : ProcId}
    (hz : (s.proc np).state ≠ .zombie) (hz' : (t.proc np).state = .zombie) :
    (s.proc np).state = .running ∧ (s.pc np).status = some (t.proc np).xstate := by
  rcases step_cases hstep with ⟨mem, rfl⟩ | ⟨c, pc, choice, tr, lock, hc, ht, hop, rfl⟩ |
    ⟨c, p, choice, tr, lock, hplain, hc, ht, hop, hm, hd⟩
  · exact absurd hz' hz
  · have hl := Kern.schedStep_lawful ht
    have hfol := (h.machine.runSched hc ht hop).2
    have hno : ∀ a, tr.act = some a → a ≠ .userinit ∧ ∀ b status, a ≠ .exitZombie b status := by
      intro a ha
      rcases hl.act with ⟨ha', -⟩ | ⟨q, -, ha'⟩ | ⟨i, chan, ha'⟩ <;> rw [ha'] at ha <;> cases ha <;>
        exact ⟨nofun, nofun⟩
    rcases zombie_of_follows hfol (fun he => (hno _ he).1 rfl) hz' with ⟨hold, -⟩ | ⟨-, hact⟩
    · exact absurd hold hz
    · exact absurd rfl ((hno _ hact).2 np _)
  · have hl := Kern.threadStep_lawful (h.machine.wf p) ht
    have hfol := (h.machine.runThread hc ht hop).2
    rw [← hm] at hfol
    rcases zombie_of_follows hfol (fun he => hl.does _ he) hz' with ⟨hold, -⟩ | ⟨hr, hact⟩
    · exact absurd hold hz
    · obtain rfl : np = p := (hl.does _ hact).1
      exact ⟨hr, (Kern.threadStep_carries ht).zombie _ hact⟩

/-- **Exit and wait never miss each other.** In every state of every run, a
process other than init that sleeps in `wait` has no zombie child. A zombie
is freed only by the `wait` of its parent; the pid that this call returns
and the status that it stores are those of the call of `exit`, and the
next zombie in the slot has called `exit` after that. -/
theorem exit_wait {mem : Memory} {as : List Event} (hrun : run step (boot mem) as = some s) :
    (∀ p, s.machine.lock (.proc p) = none → s.machine.kern.initproc ≠ some p →
      (s.proc p).state = .sleeping → (s.proc p).chan = .proc p →
      ∀ np, (s.proc np).parent = some p → (s.proc np).state ≠ .zombie) ∧
    ∀ e t, s.step e = some t →
      (∀ np, (s.proc np).state = .zombie → (t.proc np).state ≠ .zombie →
        (∃ p, Reaps s t p np) ∧
        ∀ bs u, run step t bs = some u → (u.proc np).state = .zombie →
          ∃ cs f v w, cs ++ [f] <+: bs ∧ run step t cs = some v ∧ v.step f = some w ∧
            (v.proc np).state = .running ∧ (v.pc np).status = some (w.proc np).xstate ∧
            (w.proc np).state = .zombie) ∧
      ∀ p, s.Returns p →
        t.value p = s.value p ∧ (t.Returns p ∨ s.pc p = .waitRelease ∧ t.pc p = .user) := by
  have hs : s.Inv := invariant' Inv.step (boot_inv mem) hrun
  refine ⟨fun p _ => hs.awake.asleep p, fun e t hstep => ⟨fun np hz hz' => ⟨hs.reaps hstep hz hz', ?_⟩,
    fun p hp => hs.returns hstep hp⟩⟩
  intro bs u hu hzu
  obtain ⟨cs, f, v, w, hpre, hcs, hf, hv, hw⟩ :=
    exists_step_of_run (P := fun x : Family => (x.proc np).state = .zombie) hu hz' hzu
  have hvInv : v.Inv := invariant' Inv.step (hs.step hstep) hcs
  obtain ⟨hr, hst⟩ := hvInv.dies hf hv hw
  exact ⟨cs, f, v, w, hpre, hcs, hf, hr, hst, hw⟩

/-- Init has the user pages 0 and 1. -/
def twoPages : Memory where
  table := fun p v => if p = 0 then [5, 9][v]? else none
  ram := fun _ _ => 0

/-- Init, on CPU 0, forks; the child exits on CPU 1 with status 7, and init
calls `wait` with an address that lies across the two pages. -/
def reapingRun : List Event :=
  List.replicate 4 (.cpu 0 .go 0) ++ .cpu 0 .fork 0 :: List.replicate 6 (.cpu 0 .go 0) ++
    List.replicate 4 (.cpu 1 .go 0) ++ .cpu 1 (.exit 7) 0 :: List.replicate 12 (.cpu 1 .go 0) ++
    [.cpu 0 .wait 4094, .cpu 0 .go 0]

theorem exit_wait_status : ∃ s t, run step (boot twoPages) reapingRun = some s ∧
    s.step (.cpu 0 .go 0) = some t ∧ (∃ p, Reaps s t p 1) ∧ t.memory.load 0 4094 = some 7 := by
  have hcheck : (run step (boot twoPages) reapingRun).any (fun s =>
      (s.step (.cpu 0 .go 0)).any fun t => (s.proc 1).state = .zombie ∧
        (t.proc 1).state ≠ .zombie ∧ t.memory.load 0 4094 = some 7) = true := by
    decide +kernel
  obtain ⟨s, hrun, hs⟩ := (Option.any_eq_true _ _).mp hcheck
  obtain ⟨t, hstep, ht⟩ := (Option.any_eq_true _ _).mp hs
  obtain ⟨hz, hz', hload⟩ := of_decide_eq_true ht
  exact ⟨s, t, hrun, hstep, (((exit_wait hrun).2 _ t hstep).1 1 hz hz').1, hload⟩

end Family

end Xv6.Sched
