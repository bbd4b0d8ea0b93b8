import Xv6.Console.System
import Xv6.Lib.Ring
import Xv6.Lib.Runs

/-!
The line discipline of the consoles.

`Tty` is what a console is meant to be: the lines that were committed, the
line being edited, and how many of the committed bytes readers have taken. A
character is added to the line, takes the last one off it or clears it, and
the line is committed at a newline, at `^D` or when there is no more room.

The code keeps the bytes that are committed and not yet taken, followed by
those of the line being edited, in one ring with three free-running indices.
`Shows` says so, and every step keeps it.
-/

set_option linter.unusedSectionVars false

namespace Xv6.Console

open Lib

/-! ### Lines -/

structure Tty where
  committed : List UInt8 := []
  editing : List UInt8 := []
  taken : ℕ := 0
  deriving DecidableEq

namespace Tty

/-- The bytes that wait for a reader. -/
def pending (T : Tty) : List UInt8 := T.committed.drop T.taken

/-- A character joins the line, which may complete it. -/
def append (T : Tty) (c : UInt8) : Tty :=
  let editing := T.editing ++ [c]
  if c = newline ∨ c = ctrl 'D' ∨ T.pending.length + editing.length = inputBuf then
    { T with committed := T.committed ++ editing, editing := [] }
  else { T with editing }

def key (T : Tty) (c : UInt8) : Tty :=
  if c = ctrl 'P' ∨ c = ctrl 'Q' ∨ c = ctrl 'L' ∨ c = ctrl 'S' then T
  else if c = ctrl 'U' then { T with editing := [] }
  else if c = ctrl 'H' ∨ c = 0x7f then { T with editing := T.editing.dropLast }
  else if c ≠ 0 ∧ T.pending.length + T.editing.length < inputBuf then
    T.append (if c = '\r'.toUInt8 then newline else c)
  else T

def take (T : Tty) : Tty := { T with taken := T.taken + 1 }

def apply (T : Tty) : Input → Tty
  | .key c => T.key c
  | .take => T.take

/-- The console after what was typed and taken. -/
def after (l : List Input) : Tty := l.foldl apply {}

theorem after_append (l : List Input) (x : Input) : after (l ++ [x]) = (after l).apply x := by
  rw [after, List.foldl_append]
  rfl

theorem pending_append {T : Tty} (h : T.taken ≤ T.committed.length) (l : List UInt8) :
    { T with committed := T.committed ++ l, editing := [] }.pending = T.pending ++ l :=
  List.drop_append_of_le_length h

/-- Typing only adds to what is committed. -/
theorem key_committed (T : Tty) (c : UInt8) :
    (T.key c).taken = T.taken ∧ T.committed <+: (T.key c).committed := by
  unfold key append
  dsimp only
  split_ifs <;> first | exact ⟨rfl, List.prefix_refl _⟩ | exact ⟨rfl, List.prefix_append _ _⟩

end Tty

/-! ### The ring -/

/-- The console holds what the lines say. -/
structure Shows (T : Tty) (k : Cons) : Prop where
  ring : Ring inputBuf (2 ^ 32) k.buf k.r k.e T.taken (T.pending ++ T.editing)
  w_eq : k.w = (T.taken + T.pending.length) % 2 ^ 32
  taken_le : T.taken ≤ T.committed.length
  /-- A line with a newline is committed. -/
  line : newline ∉ T.editing

theorem inputBuf_dvd : inputBuf ∣ 2 ^ 32 := by decide

theorem inputBuf_lt : inputBuf < 2 ^ 32 := by decide

theorem shows_init : Shows {} {} :=
  ⟨⟨rfl, rfl, Nat.zero_le _, nofun⟩, rfl, Nat.le_refl _, nofun⟩

variable {l : List UInt8} {target : ℤ}

namespace Shows

variable {T : Tty} {k : Cons} {c : UInt8}

theorem pending_ring (h : Shows T k) : Ring inputBuf (2 ^ 32) k.buf k.r k.w T.taken T.pending :=
  h.w_eq ▸ h.ring.left

theorem editing_ring (h : Shows T k) :
    Ring inputBuf (2 ^ 32) k.buf k.w k.e (T.taken + T.pending.length) T.editing :=
  h.w_eq ▸ h.ring.right

theorem w_eq_e_iff (h : Shows T k) : k.e = k.w ↔ T.editing = [] :=
  eq_comm.trans (h.editing_ring.empty_iff inputBuf_lt)

theorem r_eq_w_iff (h : Shows T k) : k.r = k.w ↔ T.pending = [] :=
  h.pending_ring.empty_iff inputBuf_lt

/-- The distances of the indices are numbers of bytes. -/
theorem distances (h : Shows T k) : u32Sub k.w k.r = T.pending.length ∧
    u32Sub k.e k.w = T.editing.length ∧ u32Sub k.e k.r = T.pending.length + T.editing.length := by
  refine ⟨h.pending_ring.distance inputBuf_lt, h.editing_ring.distance inputBuf_lt, ?_⟩
  rw [← List.length_append]
  exact h.ring.distance inputBuf_lt

/-- `cons->e--` takes the last character off the line. -/
theorem back {a : UInt8} (h : Shows T k) (hl : T.editing = l ++ [a]) :
    Shows { T with editing := l } k.back := by
  have hring := h.ring
  rw [hl, ← List.append_assoc] at hring
  refine ⟨?_, ?_, h.taken_le, fun hmem => h.line ?_⟩
  · rw [Cons.back, Cons.setE_buf, Cons.setE_r, Cons.setE_e]
    exact hring.unpush inputBuf_lt
  · rw [Cons.back, Cons.setE_w]
    exact h.w_eq
  · rw [hl]
    exact List.mem_append_left _ hmem

/-- `^U` clears the line: there is no newline in it. -/
theorem killLine {fuel : ℕ} (h : Shows T k) (hfuel : T.editing.length = fuel) :
    Shows { T with editing := [] } (Cons.killLine fuel k) := by
  induction fuel generalizing T k with
  | zero =>
      rw [List.length_eq_zero_iff] at hfuel
      rw [← hfuel]
      exact h
  | succ fuel ih =>
      obtain ⟨l, a, hl⟩ : ∃ l a, T.editing = l ++ [a] := by
        rcases List.eq_nil_or_concat T.editing with he | ⟨l, a, hl⟩
        · simp [he] at hfuel
        · exact ⟨l, a, by simpa using hl⟩
      have ha : a ≠ newline := by
        rintro rfl
        exact h.line (by simp [hl])
      have hring := h.ring
      rw [hl, ← List.append_assoc] at hring
      have hne : k.e ≠ k.w := by
        rw [Ne, h.w_eq_e_iff, hl]
        simp
      rw [Cons.killLine, if_pos ⟨hne, by rwa [hring.back inputBuf_lt inputBuf_dvd]⟩]
      exact ih (T := { T with editing := l }) (h.back hl) (by simpa [hl] using hfuel)

theorem erase (h : Shows T k) :
    Shows { T with editing := T.editing.dropLast } (if k.e ≠ k.w then k.back else k) := by
  rcases List.eq_nil_or_concat T.editing with he | ⟨l, a, hl⟩
  · rw [if_neg (not_not.mpr (h.w_eq_e_iff.mpr he)), he, List.dropLast_nil, ← he]
    exact h
  · rw [List.concat_eq_append] at hl
    have hne : k.e ≠ k.w := by
      rw [Ne, h.w_eq_e_iff, hl]
      simp
    rw [if_pos hne, hl, List.dropLast_concat]
    exact h.back hl

theorem append (h : Shows T k) (hroom : T.pending.length + T.editing.length < inputBuf) :
    Shows (T.append c) ((k.put c).commit c).1 := by
  have hring : Ring inputBuf (2 ^ 32) (k.put c).buf (k.put c).r (k.put c).e T.taken
      (T.pending ++ (T.editing ++ [c])) := by
    rw [← List.append_assoc]
    exact h.ring.push inputBuf_dvd (by rwa [List.length_append])
  have hfull : (k.put c).e = u32 ((k.put c).r + inputBuf) ↔
      T.pending.length + (T.editing ++ [c]).length = inputBuf := by
    rw [← List.length_append]
    exact hring.full_iff inputBuf_lt
  unfold Tty.append Cons.commit
  simp only [hfull]
  split_ifs with hcommit
  · refine ⟨?_, ?_, ?_, nofun⟩
    · rw [Tty.pending_append h.taken_le, List.append_nil]
      exact hring
    · rw [Tty.pending_append h.taken_le]
      exact hring.tail_eq
    · have := h.taken_le
      simp only [List.length_append]
      omega
  · refine ⟨hring, h.w_eq, h.taken_le, fun hmem => ?_⟩
    rcases List.mem_append.mp hmem with hmem | hmem
    · exact h.line hmem
    · exact hcommit (.inl (List.mem_singleton.mp hmem).symm)

/-- The `switch` of `consoleintr` edits the line. -/
theorem key (h : Shows T k) : Shows (T.key c) (k.key c).1 := by
  unfold Tty.key Cons.key Cons.store
  simp only [h.distances.2.1, h.distances.2.2]
  by_cases hquiet : c = ctrl 'P' ∨ c = ctrl 'Q' ∨ c = ctrl 'L' ∨ c = ctrl 'S'
  · rw [if_pos hquiet, if_pos hquiet]
    exact h
  rw [if_neg hquiet, if_neg hquiet]
  by_cases hkill : c = ctrl 'U'
  · rw [if_pos hkill, if_pos hkill]
    exact h.killLine rfl
  rw [if_neg hkill, if_neg hkill]
  by_cases herase : c = ctrl 'H' ∨ c = 0x7f
  · rw [if_pos herase, if_pos herase]
    exact h.erase
  rw [if_neg herase, if_neg herase]
  by_cases hstore : c ≠ 0 ∧ T.pending.length + T.editing.length < inputBuf
  · rw [if_pos hstore, if_pos hstore]
    exact h.append hstore.2
  rw [if_neg hstore, if_neg hstore]
  exact h

theorem front (h : Shows T k) {a : UInt8} (hl : T.pending = a :: l) : k.front = a := by
  have hring := h.pending_ring
  rw [hl] at hring
  exact hring.front inputBuf_dvd

theorem take (h : Shows T k) {a : UInt8} (hl : T.pending = a :: l) :
    T.take.pending = l ∧ Shows T.take k.take := by
  have hpending : T.take.pending = l := by
    change T.committed.drop (T.taken + 1) = l
    rw [← List.drop_drop]
    change T.pending.drop 1 = l
    rw [hl]
    rfl
  have hring := h.ring
  rw [hl, List.cons_append] at hring
  refine ⟨hpending, ?_, ?_, ?_, h.line⟩
  · rw [hpending]
    exact hring.pop
  · rw [hpending]
    change k.w = (T.taken + 1 + l.length) % 2 ^ 32
    rw [h.w_eq, hl, List.length_cons]
    congr 1
    omega
  · have hlen := congrArg List.length hl
    rw [Tty.pending, List.length_drop, List.length_cons] at hlen
    change T.taken + 1 ≤ T.committed.length
    omega

end Shows

/-! ### What a step does -/

variable {P : Type} [DecidableEq P] {s t u : State P} {p : P} {op : LockOp Lock}

/-- The part of the state that is about input. -/
def State.data (s : State P) : (ℤ → Cons) × (ℤ → List Input) × (ℤ → List UInt8) :=
  (s.console, s.input, s.delivered)

/-- The state when the character is typed. -/
def State.typed (s : State P) (c : UInt8) : State P :=
  (s.setConsole s.cons ((s.console s.cons).key c).1).logInput s.cons (.key c)

/-- The state when a reader has taken a byte. -/
def State.taken (s : State P) (i : ℤ) : State P :=
  (s.setConsole i (s.console i).take).logInput i .take

/-- A character is typed, or a reader finds a byte; `^D` is not delivered. -/
inductive Effect (s t : State P) : Prop
  | same (h : t.data = s.data)
  | key (c : UInt8) (h : t.data = (s.typed c).data)
  | eof (i : ℤ) (hne : (s.console i).r ≠ (s.console i).w)
      (hc : (s.console i).front = ctrl 'D') (h : t.data = (s.taken i).data)
  | deliver (i : ℤ) (hne : (s.console i).r ≠ (s.console i).w)
      (hc : (s.console i).front ≠ ctrl 'D')
      (h : t.data = ((s.taken i).deliver i (s.console i).front).data)

/-- What a read has got so far is in the middle of a line. -/
def Op.Clean : Op → Prop
  | .write _ _ _ => True
  | .read _ _ _ got => newline ∉ got ∧ ctrl 'D' ∉ got

def Pc.Clean : Pc → Prop
  | .user _ => True
  | .numberAcquire op | .numberTest op | .consAcquire op | .loop op => op.Clean

/-- What a read returns is at most one line, and has no `^D` in it. -/
def AtMostOneLine (got : List UInt8) : Prop := newline ∉ got.dropLast ∧ ctrl 'D' ∉ got

/-- A process moves on, with what it does to the input. -/
structure Lined (s t : State P) (p : P) : Prop where
  effect : Effect s t
  pc : ∃ pc, t.pc = Function.update s.pc p pc ∧ ((s.pc p).Clean → pc.Clean)
  reads : t.reads = s.reads ∨
    ∃ i got, t.reads = s.reads ++ [(i, got)] ∧ ((s.pc p).Clean → AtMostOneLine got)

variable {got : List UInt8}

theorem Op.Clean.atMostOneLine {m n : ℤ} (h : (Op.read m target n got).Clean) : AtMostOneLine got :=
  ⟨fun hmem => h.1 ((List.dropLast_sublist got).subset hmem), h.2⟩

/-- The byte that was found ends the line or belongs to it. -/
theorem Op.Clean.append {m n : ℤ} {c : UInt8}
    (h : (Op.read m target n got).Clean) (hc : c ≠ ctrl 'D') :
    AtMostOneLine (got ++ [c]) ∧ ∀ n', c ≠ newline → (Op.read m target n' (got ++ [c])).Clean := by
  have hd : ctrl 'D' ∉ got ++ [c] := by
    simp [h.2, Ne.symm hc]
  refine ⟨⟨by simpa using h.1, hd⟩, fun _ hn => ⟨by simp [h.1, Ne.symm hn], hd⟩⟩

theorem readReturn_lined {o : Op} {ret : ℤ}
    (h : u.readReturn p o got ret = (op, t)) (heffect : Effect s u) (hpc : u.pc = s.pc)
    (hreads : u.reads = s.reads) (hgot : (s.pc p).Clean → AtMostOneLine got) : Lined s t p := by
  cases h
  refine ⟨?_, ⟨.user ret, by rw [← hpc]; rfl, fun _ => trivial⟩,
    .inr ⟨o.cons, got, by rw [← hreads], hgot⟩⟩
  cases heffect with
  | same h => exact .same h
  | key c h => exact .key c h
  | eof i hne hc h => exact .eof i hne hc h
  | deliver i hne hc h => exact .deliver i hne hc h

theorem readByte_lined {m n : ℤ} (hpc : s.pc p = .loop (.read m target n got))
    (hne : (s.console (m - 1)).r ≠ (s.console (m - 1)).w)
    (h : s.readByte p m target n got true = (op, t)) : Lined s t p := by
  have hclean : (s.pc p).Clean → (Op.read m target n got).Clean := fun hs => by rwa [hpc] at hs
  unfold State.readByte at h
  dsimp only at h
  split at h
  case isTrue hc =>
    split at h
    · exact readReturn_lined h (.same rfl) rfl rfl fun hs => (hclean hs).atMostOneLine
    · exact readReturn_lined h (.eof (m - 1) hne hc rfl) rfl rfl fun hs =>
        (hclean hs).atMostOneLine
  case isFalse hc =>
    rw [if_neg (by decide)] at h
    have heffect := Effect.deliver (s := s) (m - 1) hne hc rfl
    split at h
    · exact readReturn_lined h heffect rfl rfl fun hs => ((hclean hs).append hc).1
    case isFalse hn =>
      cases h
      refine ⟨.deliver (m - 1) hne hc rfl, ⟨_, rfl, fun hs => ?_⟩, .inl rfl⟩
      exact ((hclean hs).append hc).2 (n - 1) hn

theorem readLoop_lined {m n : ℤ} (hpc : s.pc p = .loop (.read m target n got))
    (h : s.readLoop p m target n got true = (op, t)) : Lined s t p := by
  have hclean : (s.pc p).Clean → (Op.read m target n got).Clean := fun hs => by rwa [hpc] at hs
  unfold State.readLoop at h
  dsimp only at h
  split at h
  · split at h
    · split at h
      · exact readReturn_lined h (.same rfl) rfl rfl fun hs => (hclean hs).atMostOneLine
      · cases h
        exact ⟨.same rfl, ⟨_, rfl, hclean⟩, .inl rfl⟩
    case isFalse hne => exact readByte_lined hpc hne h
  · exact readReturn_lined h (.same rfl) rfl rfl fun hs => (hclean hs).atMostOneLine

theorem writeLoop_lined {m n : ℤ} {i : ℕ} {copied : Option UInt8}
    (h : s.writeLoop p m n i copied = (op, t)) : Lined s t p := by
  unfold State.writeLoop at h
  dsimp only at h
  split at h
  · split at h
    · cases h
      exact ⟨.same rfl, ⟨_, rfl, fun _ => trivial⟩, .inl rfl⟩
    · cases h
      exact ⟨.same rfl, ⟨_, rfl, fun _ => trivial⟩, .inl rfl⟩
  · cases h
    exact ⟨.same rfl, ⟨_, rfl, fun _ => trivial⟩, .inl rfl⟩

theorem go_lined {copied : Option UInt8}
    (hmapped : copied = none → ∀ m target n got, s.pc p ≠ .loop (.read m target n got))
    (h : s.go p copied = some (op, t)) : Lined s t p := by
  unfold State.go at h
  split at h
  case h_1 => cases h
  case h_3 o hpc =>
    split at h
    · cases h
      exact ⟨.same rfl, ⟨_, rfl, fun hs => by rwa [hpc] at hs⟩, .inl rfl⟩
    · cases h
      exact ⟨.same rfl, ⟨_, rfl, fun hs => by rwa [hpc] at hs⟩, .inl rfl⟩
  case h_5 hpc => exact writeLoop_lined (Option.some.inj h)
  case h_6 m target n got hpc =>
    have hcopied : copied.isSome = true := by
      cases copied with
      | none => exact absurd hpc (hmapped rfl m target n got)
      | some c => rfl
    rw [hcopied] at h
    exact readLoop_lined hpc (Option.some.inj h)
  all_goals
    rename_i hpc
    cases h
    exact ⟨.same rfl, ⟨_, rfl, fun hs => by rwa [hpc] at hs⟩, .inl rfl⟩

/-- The buffers of the readers are mapped: `either_copyout` succeeds. -/
def Mapped (s : State P) : Act P → Prop
  | .go p none => ∀ m target n got, s.pc p ≠ .loop (.read m target n got)
  | _ => True

theorem proc_lined {a : Act P} (ha : a.actor = .proc p) (hmapped : Mapped s a)
    (h : s.move a = some (op, t)) : Lined s t p := by
  cases a with
  | consolewrite p' m n =>
      cases ha
      obtain ⟨_, ⟨⟩⟩ := Option.ite_none_right_eq_some.mp h
      exact ⟨.same rfl, ⟨_, rfl, fun _ => trivial⟩, .inl rfl⟩
  | consoleread p' m n =>
      cases ha
      obtain ⟨_, ⟨⟩⟩ := Option.ite_none_right_eq_some.mp h
      exact ⟨.same rfl, ⟨_, rfl, fun _ => ⟨nofun, nofun⟩⟩, .inl rfl⟩
  | go p' copied =>
      cases ha
      refine go_lined ?_ (Option.ite_none_right_eq_some.mp h).2
      rintro rfl
      exact hmapped
  | kill p' =>
      cases ha
      cases h
      exact ⟨.same rfl, ⟨s.pc p, (Function.update_eq_self p s.pc).symm, id⟩, .inl rfl⟩
  | consoleintr c | goIntr => cases ha

theorem intr_lined {a : Act P} (ha : a.actor = .intr) (h : s.move a = some (op, t)) :
    Effect s t ∧ t.pc = s.pc ∧ t.reads = s.reads := by
  cases a with
  | consolewrite | consoleread | go | kill => cases ha
  | consoleintr c =>
      obtain ⟨_, ⟨⟩⟩ := Option.ite_none_right_eq_some.mp h
      unfold State.consoleintr
      dsimp only
      split
      · exact ⟨.key c rfl, rfl, rfl⟩
      · exact ⟨.key c rfl, rfl, rfl⟩
  | goIntr =>
      change s.goIntr = _ at h
      unfold State.goIntr at h
      split at h <;> cases h <;> exact ⟨.same rfl, rfl, rfl⟩

/-! ### The invariant -/

/-- The bytes that readers have taken, without `^D`. -/
def Tty.read (T : Tty) : List UInt8 := (T.committed.take T.taken).filter (· ≠ ctrl 'D')

structure Lines (s : State P) : Prop where
  shows : ∀ i, Shows (Tty.after (s.input i)) (s.console i)
  delivered : ∀ i, s.delivered i = (Tty.after (s.input i)).read

theorem lines_init : Lines (init : State P) := ⟨fun _ => shows_init, fun _ => rfl⟩

theorem Lines.of_data (h : Lines s) (hdata : t.data = s.data) : Lines t := by
  simp only [State.data, Prod.mk.injEq] at hdata
  obtain ⟨hconsole, hinput, hdelivered⟩ := hdata
  exact ⟨fun i => by rw [hconsole, hinput]; exact h.shows i,
    fun i => by rw [hdelivered, hinput]; exact h.delivered i⟩

theorem read_key {T : Tty} (h : T.taken ≤ T.committed.length) (c : UInt8) :
    (T.key c).read = T.read := by
  obtain ⟨htaken, l, hl⟩ := T.key_committed c
  rw [Tty.read, Tty.read, htaken, ← hl, List.take_append_of_le_length h]

theorem read_take {T : Tty} {a : UInt8} (hl : T.pending = a :: l) :
    T.take.read = T.read ++ [a].filter (· ≠ ctrl 'D') := by
  change (T.committed.take (T.taken + 1)).filter _ = _
  rw [List.take_add, List.filter_append]
  change _ ++ (T.pending.take 1).filter _ = _
  rw [hl]
  rfl

/-- One console changes as its lines do. -/
theorem Lines.update (h : Lines s) {i : ℤ} {k : Cons} {x : Input} (delivered : List UInt8)
    (hshows : Shows ((Tty.after (s.input i)).apply x) k)
    (hdelivered : delivered = ((Tty.after (s.input i)).apply x).read)
    (hdata : t.data = (Function.update s.console i k,
      Function.update s.input i (s.input i ++ [x]), Function.update s.delivered i delivered)) :
    Lines t := by
  simp only [State.data, Prod.mk.injEq] at hdata
  obtain ⟨hc, hi, hd⟩ := hdata
  refine ⟨fun j => ?_, fun j => ?_⟩
  · rw [hc, hi]
    by_cases hj : j = i
    · subst hj
      rwa [Function.update_self, Function.update_self, Tty.after_append]
    · rw [Function.update_of_ne hj, Function.update_of_ne hj]
      exact h.shows j
  · rw [hd, hi]
    by_cases hj : j = i
    · subst hj
      rwa [Function.update_self, Function.update_self, Tty.after_append]
    · rw [Function.update_of_ne hj, Function.update_of_ne hj]
      exact h.delivered j

theorem Lines.effect (h : Lines s) (heffect : Effect s t) : Lines t := by
  cases heffect with
  | same hdata => exact h.of_data hdata
  | key c hdata =>
      have hs := h.shows s.cons
      refine h.update (x := .key c) (s.delivered s.cons) hs.key ?_ ?_
      · rw [h.delivered]
        exact (read_key hs.taken_le c).symm
      · rw [hdata, Function.update_eq_self]
        rfl
  | eof i hne hc hdata =>
      have hs := h.shows i
      obtain ⟨a, l, hl⟩ := List.exists_cons_of_ne_nil (mt hs.r_eq_w_iff.mpr hne)
      refine h.update (x := .take) (s.delivered i) (hs.take hl).2 ?_ ?_
      · rw [hs.front hl] at hc
        change _ = Tty.read (Tty.take _)
        rw [read_take hl, hc, h.delivered]
        simp
      · rw [hdata, Function.update_eq_self]
        rfl
  | deliver i hne hc hdata =>
      have hs := h.shows i
      obtain ⟨a, l, hl⟩ := List.exists_cons_of_ne_nil (mt hs.r_eq_w_iff.mpr hne)
      refine h.update (x := .take) (s.delivered i ++ [(s.console i).front]) (hs.take hl).2
        ?_ hdata
      rw [hs.front hl] at hc ⊢
      change _ = Tty.read (Tty.take _)
      rw [read_take hl, h.delivered]
      simp [hc]

/-- Reads in progress are in the middle of a line, and those that have
returned got at most one. -/
structure Polite (s : State P) : Prop where
  pc : ∀ p, (s.pc p).Clean
  reads : ∀ x ∈ s.reads, AtMostOneLine x.2

theorem polite_init : Polite (init : State P) := ⟨fun _ => trivial, nofun⟩

theorem Polite.lined (h : Polite s) (hl : Lined s t p) : Polite t := by
  refine ⟨fun q => ?_, fun x hx => ?_⟩
  · obtain ⟨pc, hpc, hclean⟩ := hl.pc
    rw [hpc]
    by_cases hq : q = p
    · subst hq
      rw [Function.update_self]
      exact hclean (h.pc q)
    · rw [Function.update_of_ne hq]
      exact h.pc q
  · obtain hr | ⟨i, got, hr, hgot⟩ := hl.reads
    · exact h.reads x (hr ▸ hx)
    · rw [hr, List.mem_append, List.mem_singleton] at hx
      obtain hx | rfl := hx
      · exact h.reads x hx
      · exact hgot (h.pc p)

theorem lines_step {a : Act P} (h : Lines s ∧ Polite s) (hmapped : Mapped s a)
    (hstep : step s a = some t) : Lines t ∧ Polite t := by
  obtain ⟨⟨op, u⟩, hmove, hlock⟩ := Option.bind_eq_some_iff.mp hstep
  obtain ⟨lock, _, rfl⟩ := Option.map_eq_some_iff.mp hlock
  have hu : Lines u ∧ Polite u := by
    cases hactor : a.actor with
    | proc p =>
        have hl := proc_lined hactor hmapped hmove
        exact ⟨h.1.effect hl.effect, h.2.lined hl⟩
    | intr =>
        obtain ⟨heffect, hpc, hreads⟩ := intr_lined hactor hmove
        exact ⟨h.1.effect heffect, fun p => by rw [hpc]; exact h.2.pc p,
          fun x hx => h.2.reads x (hreads ▸ hx)⟩
  exact ⟨hu.1.of_data rfl, hu.2.pc, hu.2.reads⟩

/-! ### Erase and kill -/

theorem killLine_eq (fuel : ℕ) (k : Cons) : (Cons.killLine fuel k).buf = k.buf ∧
    (Cons.killLine fuel k).r = k.r ∧ (Cons.killLine fuel k).w = k.w := by
  induction fuel generalizing k with
  | zero => exact ⟨rfl, rfl, rfl⟩
  | succ fuel ih =>
      rw [Cons.killLine]
      split
      · obtain ⟨hbuf, hr, hw⟩ := ih k.back
        rw [hbuf, hr, hw, Cons.back]
        exact ⟨Cons.setE_buf .., Cons.setE_r .., Cons.setE_w ..⟩
      · exact ⟨rfl, rfl, rfl⟩

theorem key_erase {c : UInt8} (hc : c = ctrl 'U' ∨ c = ctrl 'H' ∨ c = 0x7f) (k : Cons) :
    (k.key c).1.buf = k.buf ∧ (k.key c).1.r = k.r ∧ (k.key c).1.w = k.w := by
  have hquiet : ¬ (c = ctrl 'P' ∨ c = ctrl 'Q' ∨ c = ctrl 'L' ∨ c = ctrl 'S') := by
    obtain rfl | rfl | rfl := hc <;> decide
  rw [Cons.key, if_neg hquiet]
  split
  · exact killLine_eq _ k
  case isFalse hkill =>
    rw [if_pos (hc.resolve_left hkill)]
    dsimp only
    split
    · rw [Cons.back]
      exact ⟨Cons.setE_buf .., Cons.setE_r .., Cons.setE_w ..⟩
    · exact ⟨rfl, rfl, rfl⟩

/-! ### Runs -/

/-- In every reachable state, for every console: the indices are in order and
at most `INPUT_BUF` apart; erase and kill leave the bytes from `r` to `w`
alone; and the bytes that readers got are the first ones of the committed
lines without `^D`. Every read that has returned got at most one line. -/
theorem console_lines (as : List (Act P)) (s : State P) (hrun : run step init as = some s)
    (hmapped : Meets step Mapped init as) :
    (∀ i, u32Sub (s.console i).w (s.console i).r ≤ u32Sub (s.console i).e (s.console i).r ∧
      u32Sub (s.console i).e (s.console i).r ≤ inputBuf ∧
      (∀ c, c = ctrl 'U' ∨ c = ctrl 'H' ∨ c = 0x7f →
        ((s.console i).key c).1.r = (s.console i).r ∧ ((s.console i).key c).1.w = (s.console i).w ∧
        ((s.console i).key c).1.buf = (s.console i).buf) ∧
      s.delivered i <+: (Tty.after (s.input i)).committed.filter (· ≠ ctrl 'D') ∧
      ctrl 'D' ∉ s.delivered i) ∧
      ∀ x ∈ s.reads, newline ∉ x.2.dropLast := by
  obtain ⟨hlines, hpolite⟩ := invariant lines_step ⟨lines_init, polite_init⟩ hmapped hrun
  refine ⟨fun i => ?_, fun x hx => (hpolite.reads x hx).1⟩
  have hshows := hlines.shows i
  obtain ⟨hw, _, he⟩ := hshows.distances
  refine ⟨by omega, ?_, fun c hc => ?_, ?_, ?_⟩
  · rw [he, ← List.length_append]
    exact hshows.ring.length_le
  · obtain ⟨hbuf, hr, hw⟩ := key_erase hc (s.console i)
    exact ⟨hr, hw, hbuf⟩
  · rw [hlines.delivered i]
    exact (List.take_prefix _ _).filter _
  · rw [hlines.delivered i, Tty.read]
    simp

/-- A line is typed, with a character erased, and read. -/
def typeAndRead : List (Act Unit) :=
  [.consoleintr 'a'.toUInt8, .goIntr, .consoleintr 'x'.toUInt8, .goIntr, .consoleintr (ctrl 'H'),
    .goIntr, .consoleintr '\r'.toUInt8, .goIntr, .consoleread () 1 10, .go () none, .go () none,
    .go () none, .go () (some 0), .go () (some 0)]

theorem console_lines_typed :
    ∃ s, run step init typeAndRead = some s ∧ s.delivered 0 = ['a'.toUInt8, newline] ∧
      s.delivered 0 <+: (Tty.after (s.input 0)).committed.filter (· ≠ ctrl 'D') := by
  obtain ⟨s, hs⟩ := Option.isSome_iff_exists.mp
    (by decide +kernel : (run step init typeAndRead).isSome = true)
  have hdelivered : (run step init typeAndRead).map (·.delivered 0) =
      some ['a'.toUInt8, newline] := by decide +kernel
  rw [hs] at hdelivered
  have hmapped : Meets step Mapped init typeAndRead := by
    have hloop : Meets step (fun s a => (match a, s.pc () with
        | .go _ none, .loop _ => false
        | _, _ => true) = true) init typeAndRead := by decide +kernel
    refine meets_mono (fun s a h => ?_) hloop
    unfold Mapped
    split
    · intro m target n got hpc
      simp [hpc] at h
    · trivial
  exact ⟨s, hs, Option.some.inj hdelivered, ((console_lines _ s hs hmapped).1 0).2.2.2.1⟩

end Xv6.Console
