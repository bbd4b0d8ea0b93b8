import Xv6.Lib.Prog

/-!
Loops with fuel.

A loop of the code that may go round any number of times is a function
of the rounds it is allowed, and answers `none` when they do not
suffice. `Settles f a` says that the loop ends with the answer `a`: there
is a number of rounds from which on the answer is `a`, and with fewer
there is none. It is a statement of total correctness, so a loop that
never ends settles on nothing, and it composes: a computation that
passes its fuel to its parts settles when they do.

For programs in the sense of `Prog`, running out of fuel is being stuck;
`Ends c s o` says that `c` started in `s` comes to the outcome `o`, and
`Total F c Q s` that it ends, with a fault in `F` or with a result and a
state that satisfy `Q`.
-/

namespace Xv6.Lib

variable {α β : Type*}

/-- The computation `f` ends, with `a`. -/
def Settles (f : ℕ → Option α) (a : α) : Prop :=
  ∃ N, ∀ n, f n = if N ≤ n then some a else none

namespace Settles

variable {f : ℕ → Option α} {a b : α}

theorem pure (a : α) : Settles (fun _ => some a) a := ⟨0, fun n => by simp⟩

theorem bind {g : α → ℕ → Option β} {b : β} (hf : Settles f a) (hg : Settles (g a) b) :
    Settles (fun n => (f n).bind fun x => g x n) b := by
  obtain ⟨N, hN⟩ := hf
  obtain ⟨M, hM⟩ := hg
  refine ⟨max N M, fun n => ?_⟩
  simp only [hN n]
  by_cases hn : N ≤ n
  · rw [if_pos hn, Option.bind_some, hM n]
    congr 1
    exact propext ⟨fun h => by omega, fun h => by omega⟩
  · rw [if_neg hn, if_neg (by omega), Option.bind_none]

/-- One more round. -/
theorem succ (h0 : f 0 = none) (hf : Settles (fun n => f (n + 1)) a) : Settles f a := by
  obtain ⟨N, hN⟩ := hf
  refine ⟨N + 1, fun n => ?_⟩
  cases n with
  | zero => rw [h0, if_neg (by omega)]
  | succ n =>
      rw [show f (n + 1) = _ from hN n]
      congr 1
      exact propext ⟨fun h => by omega, fun h => by omega⟩

/-- What the computation answers, with whatever fuel, is what it settles on. -/
theorem eq_of_some {n : ℕ} (hf : Settles f a) (hb : f n = some b) : b = a := by
  obtain ⟨N, hN⟩ := hf
  rw [hN n] at hb
  split at hb
  · exact (Option.some.inj hb).symm
  · cases hb

theorem exists_fuel (hf : Settles f a) : ∃ N, ∀ n, N ≤ n → f n = some a := by
  obtain ⟨N, hN⟩ := hf
  exact ⟨N, fun n hn => by rw [hN n, if_pos hn]⟩

theorem unique (hf : Settles f a) (hg : Settles f b) : a = b := by
  obtain ⟨N, hN⟩ := hf.exists_fuel
  exact hg.eq_of_some (hN N (Nat.le_refl N))

end Settles

/-! ### Programs with fuel -/

section Programs

variable {ε σ γ δ : Type}

/-- An outcome, if there is one. -/
def Outcome.reached : Outcome ε σ γ → Option (Outcome ε σ γ)
  | .stuck => none
  | .ok a s => some (.ok a s)
  | .fault e => some (.fault e)

/-- What follows an outcome. -/
def Outcome.andThen (k : γ → Prog ε σ δ) : Outcome ε σ γ → Option (Outcome ε σ δ)
  | .ok a s => (k a s).reached
  | .fault e => some (.fault e)
  | .stuck => none

theorem Outcome.reached_bind (c : Prog ε σ γ) (k : γ → Prog ε σ δ) (s : σ) :
    ((c >>= k) s).reached = (c s).reached.bind (Outcome.andThen k) := by
  simp only [Bind.bind, Prog.bind]
  cases c s <;> rfl

/-- The program ends, with the outcome `o`. -/
def Ends (c : ℕ → Prog ε σ γ) (s : σ) (o : Outcome ε σ γ) : Prop :=
  Settles (fun n => (c n s).reached) o

namespace Ends

variable {c : ℕ → Prog ε σ γ} {k : ℕ → γ → Prog ε σ δ} {s t : σ} {a : γ} {e : ε}
  {o o' : Outcome ε σ γ}

theorem ok {d : Prog ε σ γ} (h : d s = .ok a t) : Ends (fun _ => d) s (.ok a t) := by
  simp only [Ends, h, Outcome.reached]
  exact .pure _

theorem fault {d : Prog ε σ γ} (h : d s = .fault e) : Ends (fun _ => d) s (.fault e) := by
  simp only [Ends, h, Outcome.reached]
  exact .pure _

theorem bind {r : Outcome ε σ δ} (hc : Ends c s (.ok a t)) (hk : Ends (fun n => k n a) t r) :
    Ends (fun n => c n >>= k n) s r := by
  unfold Ends
  simp only [Outcome.reached_bind]
  exact Settles.bind (g := fun (o : Outcome ε σ γ) n => o.andThen (k n)) hc hk

theorem bind_fault (hc : Ends c s (.fault e)) : Ends (fun n => c n >>= k n) s (.fault e) := by
  unfold Ends
  simp only [Outcome.reached_bind]
  exact Settles.bind (g := fun (o : Outcome ε σ γ) n => o.andThen (k n)) hc (.pure _)

/-- One more call. -/
theorem succ (h0 : c 0 s = .stuck) (hc : Ends (fun n => c (n + 1)) s o) : Ends c s o :=
  Settles.succ (by simp only [h0, Outcome.reached]) hc

theorem unique (h : Ends c s o) (h' : Ends c s o') : o = o' := Settles.unique h h'

/-- What comes out with some fuel is what the program ends with. -/
theorem eq_of_ok {n : ℕ} (h : Ends c s o) (hn : c n s = .ok a t) : o = .ok a t :=
  (Settles.eq_of_some h (show (c n s).reached = some (.ok a t) by rw [hn]; rfl)).symm

end Ends

/-- The program ends, with one of the faults in `F` or as `Q` says. -/
def Total (F : ε → Prop) (c : ℕ → Prog ε σ γ) (Q : γ → σ → Prop) (s : σ) : Prop :=
  ∃ o, Ends c s o ∧
    match o with
    | .ok a t => Q a t
    | .fault e => F e
    | .stuck => False

namespace Total

variable {F : ε → Prop} {c : ℕ → Prog ε σ γ} {k : ℕ → γ → Prog ε σ δ} {Q Q' : γ → σ → Prop}
  {R : δ → σ → Prop} {s t : σ} {a : γ} {e : ε}

theorem of_ok (h : Ends c s (.ok a t)) (hQ : Q a t) : Total F c Q s := ⟨_, h, hQ⟩

theorem of_fault (h : Ends c s (.fault e)) (hF : F e) : Total F c Q s := ⟨_, h, hF⟩

theorem mono (h : Total F c Q s) (hQ : ∀ a t, Q a t → Q' a t) : Total F c Q' s := by
  obtain ⟨o, ho, hout⟩ := h
  refine ⟨o, ho, ?_⟩
  cases o with
  | ok a t => exact hQ a t hout
  | fault e => exact hout
  | stuck => exact hout

theorem bind (h : Total F c Q s) (hk : ∀ a t, Q a t → Total F (fun n => k n a) R t) :
    Total F (fun n => c n >>= k n) R s := by
  obtain ⟨o, ho, hout⟩ := h
  cases o with
  | ok a t =>
      obtain ⟨o', ho', hout'⟩ := hk a t hout
      exact ⟨o', ho.bind ho', hout'⟩
  | fault e => exact ⟨_, ho.bind_fault, hout⟩
  | stuck => exact hout.elim

theorem succ (h0 : c 0 s = .stuck) (hc : Total F (fun n => c (n + 1)) Q s) : Total F c Q s := by
  obtain ⟨o, ho, hout⟩ := hc
  exact ⟨o, .succ h0 ho, hout⟩

/-- A program that comes to the same as another one. -/
theorem via {d : ℕ → Prog ε σ γ} (hd : Total F d Q t) (h : ∀ o, Ends d t o → Ends c s o) :
    Total F c Q s := by
  obtain ⟨o, ho, hout⟩ := hd
  exact ⟨o, h o ho, hout⟩

/-- A step known to succeed. -/
theorem step (h : Ends c s (.ok a t)) (hk : Total F (fun n => k n a) R t) :
    Total F (fun n => c n >>= k n) R s := by
  obtain ⟨o, ho, hout⟩ := hk
  exact ⟨o, h.bind ho, hout⟩

end Total

end Programs

end Xv6.Lib
