import Xv6.Console.System
import Xv6.Lib.Runs

/-!
Which console is active while `consolewrite` sends.

`consolewrite` compares `console_number` under `console_number_lock`, gives
this lock up and only then takes the lock of its console. The switch in
`consoleintr` needs both locks, so it cannot come before the comparison is
over nor while characters are sent, but it can come in between.
-/

set_option linter.unusedSectionVars false

namespace Xv6.Console

open Lib

variable {P : Type} [DecidableEq P] {s t : State P} {p q : P} {op : LockOp Lock}

/-! ### Which locks a thread holds -/

def Pc.held : Pc → List Lock
  | .numberTest _ => [.number]
  | .loop op => [.cons op.cons]
  | .user _ | .numberAcquire _ | .consAcquire _ => []

/-- The locks that the handler holds, with `cons` the value of the global. -/
def Intr.held (cons : ℤ) : Intr → List Lock
  | .idle => []
  | .switchAcquireNumber | .release => [.cons cons]
  | .switchAcquireNew old => [.number, .cons old]
  | .switchReleaseOld old => [.cons cons, .number, .cons old]
  | .switchReleaseNumber => [.number, .cons cons]

def State.held (s : State P) : Thread P → List Lock
  | .proc p => (s.pc p).held
  | .intr => s.intr.held s.cons

structure Locks (s : State P) : Prop where
  owned : Owned s.lock s.held
  cons_eq : s.cons = s.number
  number_nonneg : 0 ≤ s.number
  number_lt : s.number < nbconsoles

theorem locks_init : Locks (init : State P) where
  owned := by
    refine ⟨fun l x => ?_, fun x => ?_⟩
    · cases x <;> simp [init, State.held, Pc.held, Intr.held]
    · cases x <;> simp [init, State.held, Pc.held, Intr.held]
  cons_eq := rfl
  number_nonneg := Int.le_refl 0
  number_lt := by change (0 : ℤ) < 3; decide

/-! ### What a step does -/

/-- A call of `consolewrite` has found its console active and has a character
to send. -/
def Pc.Past (minor : ℤ) (pc : Pc) : Prop :=
  ∃ (n : ℤ) (i : ℕ), i < n ∧ (pc = .consAcquire (.write minor n i) ∨ pc = .loop (.write minor n i))

/-- A process moves on to `pc`. The switching of the consoles is left alone,
and what is sent is sent in the loop of `consolewrite`. -/
structure ProcMove (s t : State P) (p : P) (op : LockOp Lock) (pc : Pc) : Prop where
  pc_eq : t.pc = Function.update s.pc p pc
  moves : op.Moves (s.pc p).held pc.held
  past : ∀ minor, pc.Past minor → (s.pc p).Past minor ∨ s.number = minor - 1
  number : t.number = s.number
  cons : t.cons = s.cons
  intr : t.intr = s.intr
  sent : t.sent = s.sent ∨ ∃ minor c, (s.pc p).Past minor ∧
    t.sent = s.sent ++ [{ minor, c, number := s.number }]

variable {minor : ℤ}

theorem not_past_user {r : ℤ} : ¬ (Pc.user r).Past minor := by
  simp [Pc.Past]

variable {got : List UInt8} {a : Act P}

theorem not_past_read {pc : Pc} {m target n : ℤ}
    (hpc : pc = .consAcquire (.read m target n got) ∨ pc = .loop (.read m target n got)) :
    ¬ pc.Past minor := by
  rintro ⟨n, i, _, h⟩
  obtain rfl | rfl := hpc <;> simp at h

theorem writeLoop_move {n : ℤ} {i : ℕ} {copied : Option UInt8}
    (hpc : s.pc p = .loop (.write minor n i))
    (h : s.writeLoop p minor n i copied = (op, t)) : ∃ pc, ProcMove s t p op pc := by
  have hdone : ProcMove s (s.goto p (.user n)) p (.release (.cons (minor - 1))) (.user n) := by
    refine ⟨rfl, ?_, fun _ h => absurd h not_past_user, rfl, rfl, rfl, .inl rfl⟩
    rw [hpc]
    exact .refl _
  unfold State.writeLoop at h
  dsimp only at h
  split at h
  case isTrue hi =>
    split at h
    · cases h
      exact ⟨_, hdone⟩
    · cases h
      have hpast : (s.pc p).Past minor := ⟨n, i, hi, .inr hpc⟩
      refine ⟨_, rfl, ?_, fun m hm => .inl ?_, rfl, rfl, rfl, .inr ⟨minor, _, hpast, rfl⟩⟩
      · rw [hpc]
        exact .refl _
      · obtain ⟨n', i', _, hm | hm⟩ := hm
        · cases hm
        · cases hm
          exact hpast
  case isFalse =>
    cases h
    exact ⟨_, hdone⟩

/-- `consoleread` returns from its loop. -/
theorem readReturn_move {o o' : Op} {ret : ℤ} {u : State P}
    (hpc : s.pc p = .loop o) (h : u.readReturn p o' got ret = (op, t)) (ho : o'.cons = o.cons)
    (hu : u.pc = s.pc) (hnumber : u.number = s.number) (hcons : u.cons = s.cons)
    (hintr : u.intr = s.intr) (hsent : u.sent = s.sent) : ∃ pc, ProcMove s t p op pc := by
  cases h
  refine ⟨.user ret, by rw [← hu]; rfl, ?_, fun _ h => absurd h not_past_user, hnumber, hcons,
    hintr, .inl hsent⟩
  rw [hpc, ho]
  exact .refl _

theorem readByte_move {target n : ℤ} {copied : Bool}
    (hpc : s.pc p = .loop (.read minor target n got))
    (h : s.readByte p minor target n got copied = (op, t)) : ∃ pc, ProcMove s t p op pc := by
  unfold State.readByte at h
  dsimp only at h
  split at h
  · split at h
    · exact readReturn_move hpc h rfl rfl rfl rfl rfl rfl
    · exact readReturn_move hpc h rfl rfl rfl rfl rfl rfl
  · split at h
    · exact readReturn_move hpc h rfl rfl rfl rfl rfl rfl
    · split at h
      · exact readReturn_move hpc h rfl rfl rfl rfl rfl rfl
      · cases h
        refine ⟨_, rfl, ?_, fun _ h => absurd h (not_past_read (.inr rfl)), rfl, rfl, rfl, .inl rfl⟩
        rw [hpc]
        exact .refl _

theorem readLoop_move {target n : ℤ} {copied : Bool}
    (hpc : s.pc p = .loop (.read minor target n got))
    (h : s.readLoop p minor target n got copied = (op, t)) : ∃ pc, ProcMove s t p op pc := by
  unfold State.readLoop at h
  dsimp only at h
  split at h
  · split at h
    · split at h
      · exact readReturn_move hpc h rfl rfl rfl rfl rfl rfl
      · cases h
        refine ⟨_, rfl, ?_, fun _ h => absurd h (not_past_read (.inl rfl)), rfl, rfl, rfl, .inl rfl⟩
        rw [hpc]
        exact .refl _
    · exact readByte_move hpc h
  · exact readReturn_move hpc h rfl rfl rfl rfl rfl rfl

theorem go_move {copied : Option UInt8} (h : s.go p copied = some (op, t)) :
    ∃ pc, ProcMove s t p op pc := by
  have hquiet : ∀ {o : Op} {minor : ℤ} {pc : Pc}, pc = .numberAcquire o ∨ pc = .numberTest o →
      ¬ pc.Past minor := by
    rintro o minor pc (rfl | rfl) ⟨_, _, _, h | h⟩ <;> cases h
  unfold State.go at h
  split at h
  case h_1 => cases h
  case h_2 o hpc =>
    cases h
    refine ⟨_, rfl, ?_, fun _ h => absurd h (hquiet (.inr rfl)), rfl, rfl, rfl, .inl rfl⟩
    rw [hpc]
    exact .refl _
  case h_3 o hpc =>
    split at h
    · cases h
      refine ⟨_, rfl, ?_, fun _ h => absurd h (hquiet (.inl rfl)), rfl, rfl, rfl, .inl rfl⟩
      rw [hpc]
      exact .refl _
    case isFalse hnumber =>
      cases h
      refine ⟨_, rfl, ?_, fun minor h => .inr ?_, rfl, rfl, rfl, .inl rfl⟩
      · rw [hpc]
        exact .refl _
      · obtain ⟨n, i, _, h | h⟩ := h
        · cases h
          exact not_not.mp hnumber
        · cases h
  case h_4 o hpc =>
    cases h
    refine ⟨_, rfl, ?_, fun minor h => .inl ?_, rfl, rfl, rfl, .inl rfl⟩
    · rw [hpc]
      exact .refl _
    · obtain ⟨n, i, hi, h | h⟩ := h
      · cases h
      · cases h
        exact ⟨n, i, hi, .inl hpc⟩
  case h_5 hpc => exact writeLoop_move hpc (Option.some.inj h)
  case h_6 hpc => exact readLoop_move hpc (Option.some.inj h)

/-- A step of a process. -/
theorem proc_move (ha : a.actor = .proc p) (h : s.move a = some (op, t)) :
    ∃ pc, ProcMove s t p op pc := by
  have hquiet : ∀ {o : Op} {minor : ℤ}, ¬ (Pc.numberAcquire o).Past minor := by
    rintro o minor ⟨_, _, _, h | h⟩ <;> cases h
  cases a with
  | consolewrite p' minor n | consoleread p' minor n =>
      cases ha
      obtain ⟨huser, ⟨⟩⟩ := Option.ite_none_right_eq_some.mp h
      refine ⟨_, rfl, ?_, fun _ h => absurd h hquiet, rfl, rfl, rfl, .inl rfl⟩
      cases hpc : s.pc p with
      | user r => exact .refl _
      | numberAcquire o | numberTest o | consAcquire o | loop o => simp [hpc, Pc.isUser] at huser
  | go p' copied =>
      cases ha
      exact go_move (Option.ite_none_right_eq_some.mp h).2
  | kill p' =>
      cases ha
      cases h
      exact ⟨s.pc p, (Function.update_eq_self p s.pc).symm, .refl _, fun _ => .inl, rfl, rfl, rfl,
        .inl rfl⟩
  | consoleintr c | goIntr => cases ha

/-- A step of the handler: it changes `console_number` only where it takes
`console_number_lock`. -/
structure IntrMove (s t : State P) (op : LockOp Lock) : Prop where
  pc : t.pc = s.pc
  sent : t.sent = s.sent
  moves : op.Moves (s.intr.held s.cons) (t.intr.held t.cons)
  number : t.number = s.number ∧ t.cons = s.cons ∨ s.intr = .switchAcquireNumber ∧
    t.number = s.nextNumber ∧ t.cons = s.nextNumber

theorem intr_move (ha : a.actor = .intr) (h : s.move a = some (op, t)) : IntrMove s t op := by
  cases a with
  | consolewrite | consoleread | go | kill => cases ha
  | consoleintr c =>
      obtain ⟨hidle, ⟨⟩⟩ := Option.ite_none_right_eq_some.mp h
      have hfields : (s.consoleintr c).pc = s.pc ∧ (s.consoleintr c).sent = s.sent ∧
          (s.consoleintr c).number = s.number ∧ (s.consoleintr c).cons = s.cons := by
        unfold State.consoleintr
        dsimp only
        split <;> exact ⟨rfl, rfl, rfl, rfl⟩
      obtain ⟨hpc, hsent, hnumber, hcons⟩ := hfields
      refine ⟨hpc, hsent, ?_, .inl ⟨hnumber, hcons⟩⟩
      have hintr : (s.consoleintr c).intr.held s.cons = [.cons s.cons] := by
        unfold State.consoleintr
        dsimp only
        split <;> rfl
      rw [hcons, hintr, hidle]
      exact .refl _
  | goIntr =>
      change s.goIntr = _ at h
      unfold State.goIntr at h
      split at h
      case h_1 => cases h
      case h_2 hintr =>
        cases h
        refine ⟨rfl, rfl, ?_, .inr ⟨hintr, rfl, rfl⟩⟩
        rw [hintr]
        exact .refl _
      case h_4 old hintr =>
        cases h
        refine ⟨rfl, rfl, ?_, .inl ⟨rfl, rfl⟩⟩
        rw [hintr]
        exact (List.Perm.swap _ _ _).trans ((List.Perm.swap _ _ _).cons _) |>.trans
          (List.Perm.swap _ _ _)
      all_goals
        rename_i hintr
        cases h
        refine ⟨rfl, rfl, ?_, .inl ⟨rfl, rfl⟩⟩
        rw [hintr]
        exact .refl _

/-! ### The invariant -/

theorem Locks.nextNumber (h : Locks s) : s.nextNumber ≠ s.number ∧ 0 ≤ s.nextNumber ∧
    s.nextNumber < nbconsoles := by
  have h0 := h.number_nonneg
  have h3 := h.number_lt
  have hmod : s.nextNumber = (s.number + 1) % 3 := Int.tmod_eq_emod_of_nonneg (by omega)
  rw [hmod]
  change _ ∧ _ ∧ _ < (3 : ℤ)
  change s.number < 3 at h3
  omega

theorem Locks.proc {pc : Pc} {lock : Lock → Option (Thread P)} (h : Locks s)
    (ha : op.apply s.lock (.proc p) = some lock) (hm : ProcMove s t p op pc) :
    Locks { t with lock } where
  owned := by
    have hheld : { t with lock }.held = Function.update s.held (.proc p) pc.held := by
      funext x
      cases x with
      | proc q =>
          by_cases hq : q = p
          · simp [State.held, hm.pc_eq, hq]
          · simp [State.held, hm.pc_eq, hq]
      | intr => simp [State.held, hm.intr, hm.cons]
    rw [hheld]
    exact h.owned.step ha hm.moves
  cons_eq := by
    change t.cons = t.number
    rw [hm.cons, hm.number, h.cons_eq]
  number_nonneg := hm.number ▸ h.number_nonneg
  number_lt := hm.number ▸ h.number_lt

theorem Locks.intr {lock : Lock → Option (Thread P)} (h : Locks s)
    (ha : op.apply s.lock .intr = some lock) (hm : IntrMove s t op) : Locks { t with lock } := by
  have hnext := h.nextNumber
  refine ⟨?_, ?_, ?_, ?_⟩
  · have hheld : { t with lock }.held = Function.update s.held .intr (t.intr.held t.cons) := by
      funext x
      cases x with
      | proc q => simp [State.held, hm.pc]
      | intr => simp [State.held]
    rw [hheld]
    exact h.owned.step ha hm.moves
  · change t.cons = t.number
    obtain ⟨hn, hc⟩ | ⟨_, hn, hc⟩ := hm.number
    · rw [hn, hc, h.cons_eq]
    · rw [hn, hc]
  · change 0 ≤ t.number
    obtain ⟨hn, _⟩ | ⟨_, hn, _⟩ := hm.number
    · exact hn ▸ h.number_nonneg
    · exact hn ▸ hnext.2.1
  · change t.number < nbconsoles
    obtain ⟨hn, _⟩ | ⟨_, hn, _⟩ := hm.number
    · exact hn ▸ h.number_lt
    · exact hn ▸ hnext.2.2

/-- Every call that is past the comparison is on the active console. -/
def OnActive (s : State P) : Prop :=
  ∀ p minor, (s.pc p).Past minor → s.number = minor - 1

structure Inv (s : State P) : Prop where
  locks : Locks s
  active : OnActive s
  sent : ∀ x ∈ s.sent, x.number = x.minor - 1

theorem inv_init : Inv (init : State P) :=
  ⟨locks_init, fun _ _ h => absurd h not_past_user, nofun⟩

/-- No switch comes between the comparison and `acquire(&cons->lock)` of a
`consolewrite` that has a character to send. -/
def QuietSwitch (s : State P) : Act P → Prop
  | .goIntr => s.intr = .switchAcquireNumber → ∀ p minor n (i : ℕ),
      s.pc p = .consAcquire (.write minor n i) → ¬ i < n
  | _ => True

/-- While the console is switched no process is in its loop. -/
theorem Locks.not_past (h : Locks s) (hintr : s.intr = .switchAcquireNumber)
    (hcons : s.number = minor - 1)
    (hquiet : ∀ n (i : ℕ), s.pc p = .consAcquire (.write minor n i) → ¬ i < n) :
    ¬ (s.pc p).Past minor := by
  rintro ⟨n, i, hi, hpc | hpc⟩
  · exact hquiet n i hpc hi
  · have hp : .cons s.cons ∈ s.held (.proc p) := by
      rw [State.held, hpc, h.cons_eq, hcons]
      exact List.mem_singleton_self _
    have hi : .cons s.cons ∈ s.held .intr := by
      rw [State.held, hintr]
      exact List.mem_singleton_self _
    cases h.owned.unique hp hi

theorem step_eq_some (h : step s a = some t) : ∃ op u lock,
    s.move a = some (op, u) ∧ op.apply s.lock a.actor = some lock ∧ t = { u with lock } := by
  obtain ⟨⟨op, u⟩, hmove, h⟩ := Option.bind_eq_some_iff.mp h
  obtain ⟨lock, happly, rfl⟩ := Option.map_eq_some_iff.mp h
  exact ⟨op, u, lock, hmove, happly, rfl⟩

theorem Inv.step (h : Inv s) (hquiet : QuietSwitch s a) (hstep : step s a = some t) : Inv t := by
  obtain ⟨op, u, lock, hmove, happly, rfl⟩ := step_eq_some hstep
  cases hactor : a.actor with
  | proc p =>
      rw [hactor] at happly
      obtain ⟨pc, hm⟩ := proc_move hactor hmove
      refine ⟨h.locks.proc happly hm, fun q minor hq => ?_, fun x hx => ?_⟩
      · change u.number = minor - 1
        rw [hm.number]
        change (u.pc q).Past minor at hq
        rw [hm.pc_eq] at hq
        by_cases hqp : q = p
        · subst hqp
          rw [Function.update_self] at hq
          exact (hm.past minor hq).elim (h.active q minor) id
        · rw [Function.update_of_ne hqp] at hq
          exact h.active q minor hq
      · obtain hs | ⟨minor, c, hpast, hs⟩ := hm.sent
        · exact h.sent x (hs ▸ hx)
        · change x ∈ u.sent at hx
          rw [hs, List.mem_append, List.mem_singleton] at hx
          obtain hx | rfl := hx
          · exact h.sent x hx
          · exact h.active p minor hpast
  | intr =>
      rw [hactor] at happly
      have hm := intr_move hactor hmove
      refine ⟨h.locks.intr happly hm, fun q minor hq => ?_, fun x hx => ?_⟩
      · change (u.pc q).Past minor at hq
        rw [hm.pc] at hq
        have hs := h.active q minor hq
        obtain ⟨hn, _⟩ | ⟨hintr, _⟩ := hm.number
        · exact hn.trans hs
        · refine absurd hq (h.locks.not_past hintr hs fun n i hpc => ?_)
          cases a with
          | goIntr => exact hquiet hintr q minor n i hpc
          | consoleintr c =>
              have hidle := (Option.ite_none_right_eq_some.mp hmove).1
              rw [hintr] at hidle
              cases hidle
          | consolewrite | consoleread | go | kill => cases hactor
      · exact h.sent x (hm.sent ▸ hx)

/-- A switch that comes in between leaves a call past its comparison with
another console active. -/
theorem not_onActive_of_not_quietSwitch (h : Inv s) (hquiet : ¬ QuietSwitch s a)
    (hstep : Console.step s a = some t) : ¬ OnActive t := by
  obtain rfl : a = .goIntr := by
    cases a with
    | goIntr => rfl
    | consolewrite | consoleread | go | kill | consoleintr => exact absurd trivial hquiet
  simp only [QuietSwitch, not_forall, not_not] at hquiet
  obtain ⟨hintr, p, minor, n, i, hpc, hi⟩ := hquiet
  obtain ⟨op, u, lock, hmove, _, rfl⟩ := step_eq_some hstep
  have hm := intr_move rfl hmove
  have hpast : (s.pc p).Past minor := ⟨n, i, hi, .inl hpc⟩
  intro hactive
  have hafter : u.number = minor - 1 := hactive p minor (hm.pc ▸ hpast)
  change s.goIntr = _ at hmove
  simp only [State.goIntr, hintr, Option.some.injEq, Prod.mk.injEq] at hmove
  obtain ⟨_, rfl⟩ := hmove
  exact h.locks.nextNumber.1 (hafter.trans (h.active p minor hpast).symm)

/-- When no switch of a run comes between the comparison and the
`acquire(&cons->lock)` of a `consolewrite`, every character that
`consolewrite` sends is sent while its console is the active one. The
condition is exact for what `consolewrite` relies on: that a call past its
comparison is on the active console. -/
theorem sent_on_active {as : List (Act P)} (hrun : run step init as = some t) :
    (Meets step QuietSwitch init as → ∀ x ∈ t.sent, x.number = x.minor - 1) ∧
      ((∀ bs u, bs <+: as → run step init bs = some u → OnActive u) ↔
        Meets step QuietSwitch init as) :=
  ⟨fun hquiet => (invariant Inv.step inv_init hquiet hrun).sent,
    forall_prefix_iff_meets Inv.active Inv.step not_onActive_of_not_quietSwitch inv_init hrun⟩

/-- A process writes one character to the first console. It has found its
console active when `^S` is typed; the handler switches to the second console
and releases the lock of the first, and then the character is sent. -/
theorem switch_slips_in :
    (run step (init : State Unit)
      [.consolewrite () 1 1, .go () none, .go () none, .consoleintr (ctrl 'S'), .goIntr, .goIntr,
        .goIntr, .go () none, .go () (some 'x'.toUInt8)]).any
      (fun s => s.sent.any fun x => x.number ≠ x.minor - 1) = true := by
  decide +kernel

/-- The process has the lock of its console before `^S` is typed. -/
def writeThenSwitch : List (Act Unit) :=
  [.consolewrite () 1 1, .go () none, .go () none, .go () none, .go () (some 'x'.toUInt8),
    .go () none, .consoleintr (ctrl 'S'), .goIntr, .goIntr, .goIntr, .goIntr, .goIntr]

theorem sent_on_active_before_switch :
    ∃ s, run step init writeThenSwitch = some s ∧ s.sent.length = 1 ∧
      ∀ x ∈ s.sent, x.number = x.minor - 1 := by
  obtain ⟨s, hs⟩ := Option.isSome_iff_exists.mp
    (by decide +kernel : (run step init writeThenSwitch).isSome = true)
  have hlength : (run step init writeThenSwitch).map (·.sent.length) = some 1 := by decide +kernel
  rw [hs] at hlength
  have huser : Meets step (fun s _ => (s.pc ()).isUser = true ∨ s.intr ≠ .switchAcquireNumber)
      init writeThenSwitch := by decide +kernel
  refine ⟨s, hs, Option.some.inj hlength, (sent_on_active hs).1 (meets_mono (fun s a h => ?_) huser)⟩
  cases a with
  | goIntr =>
      intro hintr p minor n i hpc
      simp [hintr, hpc, Pc.isUser] at h
  | consolewrite | consoleread | go | kill | consoleintr => trivial

end Xv6.Console
