import Mathlib

/-!
Programs that change a state, may end in a fault and may be refused by
their environment.

A program is a function from a state to an outcome: a result and a state,
a fault, or `stuck` when the environment does not offer what the program
asks of it (an answer of a device, a page of an allocator). `wp c Q s` says
that `c` started in `s` does not fault and that a result and a state it
ends with satisfy `Q`. Its rules follow the program text. `wp` says nothing of a
program that is refused; `served c Q s` says that `c` is not, so that both
together say that it ends. `twp F c Q s` says at once that `c` is not
refused and ends with a fault in `F` or as `Q` says.
-/

namespace Xv6.Lib

/-- How a program ends. -/
inductive Outcome (ε σ α : Type) where
  | ok (a : α) (s : σ)
  | fault (e : ε)
  | stuck

/-- The fault that a program ends in. -/
def Outcome.error {ε σ α : Type} : Outcome ε σ α → Option ε
  | .ok _ _ => none
  | .fault e => some e
  | .stuck => none

theorem Outcome.eq_fault_of_error {ε σ α : Type} {o : Outcome ε σ α} {e : ε}
    (h : o.error = some e) : o = .fault e := by
  cases o with
  | fault e' => rw [Option.some.inj h]
  | ok a s => cases h
  | stuck => cases h

/-- The result and the state that a program ends with. -/
def Outcome.toOption {ε σ α : Type} : Outcome ε σ α → Option (α × σ)
  | .ok a s => some (a, s)
  | .fault _ => none
  | .stuck => none

theorem Outcome.eq_ok_of_toOption {ε σ α : Type} {o : Outcome ε σ α} {p : α × σ}
    (h : o.toOption = some p) : o = .ok p.1 p.2 := by
  cases o with
  | ok a s => rw [← Option.some.inj h]
  | fault e => cases h
  | stuck => cases h

def Prog (ε σ α : Type) : Type := σ → Outcome ε σ α

namespace Prog

variable {ε σ τ α β : Type}

protected def pure (a : α) : Prog ε σ α := fun s => .ok a s

protected def bind (c : Prog ε σ α) (f : α → Prog ε σ β) : Prog ε σ β := fun s =>
  match c s with
  | .ok a t => f a t
  | .fault e => .fault e
  | .stuck => .stuck

instance : Monad (Prog ε σ) where
  pure := Prog.pure
  bind := Prog.bind

instance : LawfulMonad (Prog ε σ) := LawfulMonad.mk' _
  (fun c => by
    funext s
    change Prog.bind c Prog.pure s = c s
    rw [Prog.bind]
    cases c s <;> rfl)
  (fun _ _ => rfl)
  (fun c _ _ => by
    funext s
    simp only [bind, Prog.bind]
    cases c s <;> rfl)

def get : Prog ε σ σ := fun s => .ok s s

def modify (f : σ → σ) : Prog ε σ Unit := fun s => .ok () (f s)

def fault (e : ε) : Prog ε σ α := fun _ => .fault e

def stuck : Prog ε σ α := fun _ => .stuck

/-- A program on a part of the state. -/
def zoom (view : τ → σ) (put : τ → σ → τ) (c : Prog ε σ α) : Prog ε τ α := fun t =>
  match c (view t) with
  | .ok a s => .ok a (put t s)
  | .fault e => .fault e
  | .stuck => .stuck

/-- A program on a part of the state, with faults of its own. -/
def embed {ε' : Type} (fault : ε → ε') (view : τ → σ) (put : τ → σ → τ) (c : Prog ε σ α) :
    Prog ε' τ α := fun t =>
  match c (view t) with
  | .ok a s => .ok a (put t s)
  | .fault e => .fault (fault e)
  | .stuck => .stuck

/-- Runs the body for `i = 0, …, n - 1`. -/
def forN : ℕ → (ℕ → Prog ε σ Unit) → Prog ε σ Unit
  | 0, _ => pure ()
  | n + 1, body => do
      forN n body
      body n

/-- Runs the body for each member of the list. -/
def forEach (l : List β) (body : β → Prog ε σ Unit) : Prog ε σ Unit :=
  match l with
  | [] => pure ()
  | b :: l => do
      body b
      forEach l body

/-! ### Weakest preconditions -/

/-- Started in `s`, the program does not fault, and what it ends with
satisfies `Q`. -/
def wp (c : Prog ε σ α) (Q : α → σ → Prop) (s : σ) : Prop :=
  match c s with
  | .ok a t => Q a t
  | .fault _ => False
  | .stuck => True

variable {Q Q' : α → σ → Prop} {c : Prog ε σ α} {s t : σ} {a : α}
  {d : Prog ε σ α} {f : α → Prog ε σ β} {body : ℕ → Prog ε σ Unit} {R : β → σ → Prop}

@[simp] theorem wp_pure : wp (pure a : Prog ε σ α) Q s ↔ Q a s := .rfl

@[simp] theorem wp_bind : wp (c >>= f) R s ↔ wp c (fun a t => wp (f a) R t) s := by
  simp only [wp, bind, Prog.bind]
  cases c s <;> rfl

@[simp] theorem wp_get {R : σ → σ → Prop} : wp (get : Prog ε σ σ) R s ↔ R s s := .rfl

@[simp] theorem wp_modify {f : σ → σ} {R : Unit → σ → Prop} :
    wp (modify f : Prog ε σ Unit) R s ↔ R () (f s) := .rfl

theorem wp_ite {p : Prop} [Decidable p] :
    wp (if p then c else d) Q s ↔ (p → wp c Q s) ∧ (¬ p → wp d Q s) := by
  split <;> simp_all

theorem wp_mono (h : wp c Q s) (hQ : ∀ a t, Q a t → Q' a t) : wp c Q' s := by
  revert h
  simp only [wp]
  cases c s with
  | ok a t => exact hQ a t
  | fault e => exact id
  | stuck => exact id

theorem of_wp (h : wp c Q s) (hc : c s = .ok a t) : Q a t := by
  simpa [wp, hc] using h

/-- The rule for `forN`, with an invariant that depends on the number of
rounds made. -/
theorem wp_forN {n : ℕ} {R : Unit → σ → Prop} (I : ℕ → σ → Prop)
    (h0 : I 0 s) (hbody : ∀ i t, i < n → I i t → wp (body i) (fun _ u => I (i + 1) u) t)
    (hR : ∀ t, I n t → R () t) : wp (forN n body) R s := by
  have hrun : ∀ m ≤ n, wp (forN m body) (fun _ t => I m t) s := by
    intro m hm
    induction m with
    | zero => exact h0
    | succ m ih =>
        rw [forN, wp_bind]
        exact wp_mono (ih (by omega)) fun _ t ht => hbody m t (by omega) ht
  exact wp_mono (hrun n (Nat.le_refl n)) fun _ t ht => hR t ht

/-! ### Programs that may fault

`wpf F c Q s` allows the faults in `F`.
-/

/-- Started in `s`, the program ends, if it ends, with `Q` or in a fault
of `F`. -/
def wpf (F : ε → Prop) (c : Prog ε σ α) (Q : α → σ → Prop) (s : σ) : Prop :=
  match c s with
  | .ok a t => Q a t
  | .fault e => F e
  | .stuck => True

variable {F : ε → Prop}

@[simp] theorem wpf_pure : wpf F (pure a : Prog ε σ α) Q s ↔ Q a s := .rfl

@[simp] theorem wpf_bind : wpf F (c >>= f) R s ↔ wpf F c (fun a t => wpf F (f a) R t) s := by
  simp only [wpf, bind, Prog.bind]
  cases c s <;> rfl

@[simp] theorem wpf_get {R : σ → σ → Prop} : wpf F (get : Prog ε σ σ) R s ↔ R s s := .rfl

@[simp] theorem wpf_modify {f : σ → σ} {R : Unit → σ → Prop} :
    wpf F (modify f : Prog ε σ Unit) R s ↔ R () (f s) := .rfl

theorem wpf_ite {p : Prop} [Decidable p] (hc : p → wpf F c Q s)
    (hd : ¬ p → wpf F d Q s) : wpf F (if p then c else d) Q s := by
  split
  · exact hc ‹p›
  · exact hd ‹¬ p›

theorem wpf_mono (h : wpf F c Q s) (hQ : ∀ a t, Q a t → Q' a t) : wpf F c Q' s := by
  revert h
  simp only [wpf]
  cases c s with
  | ok a t => exact hQ a t
  | fault e => exact id
  | stuck => exact id

theorem wpf_and {G : ε → Prop} (h : wpf F c Q s) (h' : wpf G c Q' s) :
    wpf F c (fun a t => Q a t ∧ Q' a t) s := by
  revert h h'
  simp only [wpf]
  cases c s with
  | ok a t => exact And.intro
  | fault e => exact fun h _ => h
  | stuck => exact fun h _ => h

theorem wpf_zoom {view : τ → σ} {put : τ → σ → τ} {R : α → τ → Prop} {t : τ} :
    wpf F (zoom view put c) R t ↔ wpf F c (fun a s => R a (put t s)) (view t) := by
  simp only [wpf, zoom]
  cases c (view t) <;> rfl

/-- The rule for `forEach`, with an invariant that depends on the members
that remain. -/
theorem wpf_forEach {l : List β} {body : β → Prog ε σ Unit} {R : Unit → σ → Prop}
    (I : List β → σ → Prop) (hl : I l s)
    (hbody : ∀ b l t, I (b :: l) t → wpf F (body b) (fun _ u => I l u) t)
    (hR : ∀ t, I [] t → R () t) : wpf F (forEach l body) R s := by
  induction l generalizing s with
  | nil => exact hR s hl
  | cons b l ih =>
      rw [forEach, wpf_bind]
      exact wpf_mono (hbody b l s hl) fun _ t ht => ih ht

theorem wpf_of_wp (h : wp c Q s) : wpf F c Q s := by
  revert h
  simp only [wp, wpf]
  cases c s with
  | ok a t => exact id
  | fault e => exact False.elim
  | stuck => exact id

theorem bind_eq (h : c s = .ok a t) : (c >>= f) s = f a t := by
  simp only [bind, Prog.bind, h]

theorem bind_eq_fault {e : ε} (h : c s = .fault e) : (c >>= f) s = .fault e := by
  simp only [bind, Prog.bind, h]

/-- A sequence that ends has ended its first part. -/
theorem exists_of_bind {b : β} {u : σ} (h : (c >>= f) s = .ok b u) :
    ∃ a t, c s = .ok a t ∧ f a t = .ok b u := by
  simp only [bind, Prog.bind] at h
  cases hc : c s with
  | ok a t => exact ⟨a, t, rfl, by simpa only [hc] using h⟩
  | fault e => simp [hc] at h
  | stuck => simp [hc] at h

theorem of_wpf (h : wpf F c Q s) (hc : c s = .ok a t) : Q a t := by
  simpa [wpf, hc] using h

theorem fault_of_wpf {e : ε} (h : wpf F c Q s) (hc : c s = .fault e) : F e := by
  simpa [wpf, hc] using h

/-! ### Programs that are not refused -/

/-- Started in `s`, the program is not refused by its environment, and what
it ends with satisfies `Q`. -/
def served (c : Prog ε σ α) (Q : α → σ → Prop) (s : σ) : Prop :=
  match c s with
  | .ok a t => Q a t
  | .fault _ => True
  | .stuck => False

@[simp] theorem served_bind : served (c >>= f) R s ↔ served c (fun a t => served (f a) R t) s := by
  simp only [served, bind, Prog.bind]
  cases c s <;> rfl

@[simp] theorem served_modify {f : σ → σ} {R : Unit → σ → Prop} :
    served (modify f : Prog ε σ Unit) R s ↔ R () (f s) := .rfl

@[simp] theorem served_fault {e : ε} : served (fault e : Prog ε σ α) Q s := trivial

theorem served_ite {p : Prop} [Decidable p] (hc : p → served c Q s)
    (hd : ¬ p → served d Q s) : served (if p then c else d) Q s := by
  split
  · exact hc ‹p›
  · exact hd ‹¬ p›

theorem served_mono (h : served c Q s) (hQ : ∀ a t, Q a t → Q' a t) : served c Q' s := by
  revert h
  simp only [served]
  cases c s with
  | ok a t => exact hQ a t
  | fault e => exact id
  | stuck => exact id

/-- A loop is not refused if none of its rounds is. -/
theorem served_forN {n : ℕ} (hbody : ∀ i t, served (body i) (fun _ _ => True) t) :
    served (forN n body) (fun _ _ => True) s := by
  induction n with
  | zero => trivial
  | succ n ih =>
      rw [forN, served_bind]
      exact served_mono ih fun _ t _ => hbody n t

/-- A program that neither faults nor is refused ends. -/
theorem exists_of_served (h : wp c Q s) (hs : served c Q' s) :
    ∃ a t, c s = .ok a t ∧ Q a t ∧ Q' a t := by
  revert h hs
  simp only [wp, served]
  cases hc : c s with
  | ok a t => exact fun h hs => ⟨a, t, rfl, h, hs⟩
  | fault e => exact fun h _ => h.elim
  | stuck => exact fun _ hs => hs.elim

/-! ### Programs that end -/

/-- Started in `s`, the program ends, with a fault in `F` or as `Q` says. -/
def twp (F : ε → Prop) (c : Prog ε σ α) (Q : α → σ → Prop) (s : σ) : Prop :=
  match c s with
  | .ok a t => Q a t
  | .fault e => F e
  | .stuck => False

section Total

variable {F : ε → Prop}

@[simp] theorem twp_pure : twp F (pure a : Prog ε σ α) Q s ↔ Q a s := .rfl

@[simp] theorem twp_bind : twp F (c >>= f) R s ↔ twp F c (fun a t => twp F (f a) R t) s := by
  simp only [twp, bind, Prog.bind]
  cases c s <;> rfl

@[simp] theorem twp_get {R : σ → σ → Prop} : twp F (get : Prog ε σ σ) R s ↔ R s s := .rfl

@[simp] theorem twp_modify {f : σ → σ} {R : Unit → σ → Prop} :
    twp F (modify f : Prog ε σ Unit) R s ↔ R () (f s) := .rfl

theorem twp_ite {p : Prop} [Decidable p] (hc : p → twp F c Q s)
    (hd : ¬ p → twp F d Q s) : twp F (if p then c else d) Q s := by
  split
  · exact hc ‹p›
  · exact hd ‹¬ p›

theorem twp_mono (h : twp F c Q s) (hQ : ∀ a t, Q a t → Q' a t) : twp F c Q' s := by
  revert h
  simp only [twp]
  cases c s with
  | ok a t => exact hQ a t
  | fault e => exact id
  | stuck => exact id

theorem twp_mono_fault {F' : ε → Prop} (h : twp F c Q s) (hF : ∀ e, F e → F' e) : twp F' c Q s := by
  revert h
  simp only [twp]
  cases c s with
  | ok a t => exact id
  | fault e => exact hF e
  | stuck => exact id

/-- The rule for `forN`, with an invariant that depends on the number of
rounds made. -/
theorem twp_forN {n : ℕ} {R : Unit → σ → Prop} (I : ℕ → σ → Prop)
    (h0 : I 0 s) (hbody : ∀ i t, i < n → I i t → twp F (body i) (fun _ u => I (i + 1) u) t)
    (hR : ∀ t, I n t → R () t) : twp F (forN n body) R s := by
  have hrun : ∀ m ≤ n, twp F (forN m body) (fun _ t => I m t) s := by
    intro m hm
    induction m with
    | zero => exact h0
    | succ m ih =>
        rw [forN, twp_bind]
        exact twp_mono (ih (by omega)) fun _ t ht => hbody m t (by omega) ht
  exact twp_mono (hrun n (Nat.le_refl n)) fun _ t ht => hR t ht

theorem twp_of_eq (h : c s = .ok a t) (hQ : Q a t) : twp F c Q s := by
  simpa only [twp, h] using hQ

theorem twp_of_ends {G : ε → Prop} (hends : ∃ a t, c s = .ok a t) (h : wpf G c Q s) :
    twp F c Q s := by
  obtain ⟨a, t, hrun⟩ := hends
  exact twp_of_eq hrun (of_wpf h hrun)

theorem of_twp (h : twp F c Q s) (hc : c s = .ok a t) : Q a t := by
  simpa only [twp, hc] using h

/-- A program without faults has a result. -/
theorem exists_of_twp (h : twp (fun _ => False) c Q s) : ∃ a t, c s = .ok a t ∧ Q a t := by
  revert h
  simp only [twp]
  cases c s with
  | ok a t => exact fun h => ⟨a, t, rfl, h⟩
  | fault e => exact False.elim
  | stuck => exact False.elim

end Total

attribute [irreducible] forN

end Prog

end Xv6.Lib
