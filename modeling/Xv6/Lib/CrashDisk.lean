import Mathlib

/-!
Programs over a disk that can crash.

A program reads and writes the cells of a disk, one write at a time, and
is a value that can be evaluated. `crash p w d` is the disk when the power
fails after the first `w` writes of `p`, and `final p d` the one when `p`
has run to its end; what the program kept in memory is lost in the first
case.

`Triple P p Q C` is the usual triple with a crash condition: from a disk
in `P`, the program ends in `Q`, and every disk it leaves when it is cut
off satisfies `C`. The rules follow the constructors, and `Triple.upTo` is
the rule for counting loops.
-/

namespace Xv6.Lib

/-- A program over cells `A` with contents `V` and the result `R`. -/
inductive DiskProg (A V R : Type)
  | ret (r : R)
  | read (a : A) (k : V → DiskProg A V R)
  | write (a : A) (v : V) (k : DiskProg A V R)

namespace DiskProg

variable {A V R S : Type}

def bind : DiskProg A V R → (R → DiskProg A V S) → DiskProg A V S
  | ret r, f => f r
  | read a k, f => read a fun v => (k v).bind f
  | write a v k, f => write a v (k.bind f)

/-- `p` and then `q`. -/
def seq (p : DiskProg A V Unit) (q : DiskProg A V S) : DiskProg A V S := p.bind fun _ => q

/-- The body `f` at `i`, `i + 1`, … , `k` times. -/
def upTo (f : ℕ → DiskProg A V Unit) : (i k : ℕ) → DiskProg A V Unit
  | _, 0 => ret ()
  | i, k + 1 => (f i).seq (upTo f (i + 1) k)

variable [DecidableEq A]

/-- The result of the whole run. -/
def result : DiskProg A V R → (A → V) → R
  | ret r, _ => r
  | read a k, d => (k (d a)).result d
  | write a v k, d => k.result (Function.update d a v)

/-- The disk after the whole run. -/
def final : DiskProg A V R → (A → V) → A → V
  | ret _, d => d
  | read a k, d => (k (d a)).final d
  | write a v k, d => k.final (Function.update d a v)

/-- The number of writes of the whole run. -/
def writes : DiskProg A V R → (A → V) → ℕ
  | ret _, _ => 0
  | read a k, d => (k (d a)).writes d
  | write a v k, d => k.writes (Function.update d a v) + 1

/-- The cells written by the whole run, in order. -/
def targets : DiskProg A V R → (A → V) → List A
  | ret _, _ => []
  | read a k, d => (k (d a)).targets d
  | write a v k, d => a :: k.targets (Function.update d a v)

/-- The disk after the first `w` writes. -/
def crash : DiskProg A V R → ℕ → (A → V) → A → V
  | ret _, _, d => d
  | read a k, w, d => (k (d a)).crash w d
  | write _ _ _, 0, d => d
  | write a v k, w + 1, d => k.crash w (Function.update d a v)

@[simp] theorem crash_zero (p : DiskProg A V R) (d : A → V) : p.crash 0 d = d := by
  induction p generalizing d with
  | ret r => rfl
  | read a k ih => exact ih _ _
  | write a v k ih => rfl

section bind

variable {p : DiskProg A V R} {f : R → DiskProg A V S} {w : ℕ} {d : A → V}

theorem final_bind : (p.bind f).final d = (f (p.result d)).final (p.final d) := by
  induction p generalizing d with
  | ret r => rfl
  | read a k ih => exact ih _
  | write a v k ih => exact ih

theorem result_bind : (p.bind f).result d = (f (p.result d)).result (p.final d) := by
  induction p generalizing d with
  | ret r => rfl
  | read a k ih => exact ih _
  | write a v k ih => exact ih

theorem writes_bind : (p.bind f).writes d = p.writes d + (f (p.result d)).writes (p.final d) := by
  induction p generalizing d with
  | ret r => exact (Nat.zero_add _).symm
  | read a k ih => exact ih _
  | write a v k ih =>
      change (k.bind f).writes _ + 1 = k.writes _ + 1 + _
      rw [ih, Nat.add_right_comm]
      rfl

theorem targets_bind :
    (p.bind f).targets d = p.targets d ++ (f (p.result d)).targets (p.final d) := by
  induction p generalizing d with
  | ret r => rfl
  | read a k ih => exact ih _
  | write a v k ih => exact congrArg (a :: ·) ih

/-- A crash in the first part. -/
theorem crash_bind_of_le (h : w ≤ p.writes d) : (p.bind f).crash w d = p.crash w d := by
  induction p generalizing w d with
  | ret r =>
      obtain rfl : w = 0 := Nat.le_zero.mp h
      exact crash_zero _ d
  | read a k ih => exact ih _ h
  | write a v k ih =>
      cases w with
      | zero => rfl
      | succ w => exact ih (Nat.le_of_succ_le_succ h)

/-- A crash in the second part. -/
theorem crash_bind_of_ge (h : p.writes d ≤ w) :
    (p.bind f).crash w d = (f (p.result d)).crash (w - p.writes d) (p.final d) := by
  induction p generalizing w d with
  | ret r => rfl
  | read a k ih => exact ih _ h
  | write a v k ih =>
      cases w with
      | zero => simp [writes] at h
      | succ w =>
          change (k.bind f).crash w _ = (f _).crash (w + 1 - (k.writes _ + 1)) _
          rw [ih (Nat.le_of_succ_le_succ h), Nat.succ_sub_succ]
          rfl

end bind

/-- A loop whose body writes once writes as often as it runs. -/
theorem writes_upTo {f : ℕ → DiskProg A V Unit} (hf : ∀ i d, (f i).writes d = 1) (i k : ℕ)
    (d : A → V) : (upTo f i k).writes d = k := by
  induction k generalizing i d with
  | zero => rfl
  | succ k ih => rw [upTo, seq, writes_bind, hf, ih, Nat.add_comm]

theorem targets_upTo {f : ℕ → DiskProg A V Unit} {g : ℕ → A} (hf : ∀ i d, (f i).targets d = [g i])
    (i k : ℕ) (d : A → V) : (upTo f i k).targets d = (List.range' i k).map g := by
  induction k generalizing i d with
  | zero => rfl
  | succ k ih => rw [upTo, seq, targets_bind, hf, ih, List.range'_succ]; rfl

/-! ### Triples with a crash condition -/

/-- From `P` the program ends in `Q`, and a crash leaves `C`. -/
def Triple (P : (A → V) → Prop) (p : DiskProg A V R) (Q : R → (A → V) → Prop)
    (C : (A → V) → Prop) : Prop :=
  ∀ d, P d → (∀ w, C (p.crash w d)) ∧ Q (p.result d) (p.final d)

namespace Triple

variable {P P' : (A → V) → Prop} {Q : R → (A → V) → Prop} {C C' : (A → V) → Prop}

theorem ret {r : R} (hC : ∀ d, P d → C d) (hQ : ∀ d, P d → Q r d) : Triple P (.ret r) Q C :=
  fun d hd => ⟨fun _ => hC d hd, hQ d hd⟩

theorem read {a : A} {k : V → DiskProg A V R}
    (h : ∀ v, Triple (fun d => P d ∧ d a = v) (k v) Q C) : Triple P (.read a k) Q C :=
  fun d hd => h (d a) d ⟨hd, rfl⟩

theorem write {a : A} {v : V} {k : DiskProg A V R} {M : (A → V) → Prop} (hC : ∀ d, P d → C d)
    (h : ∀ d, P d → M (Function.update d a v)) (hk : Triple M k Q C) :
    Triple P (.write a v k) Q C := by
  refine fun d hd => ⟨fun w => ?_, (hk _ (h d hd)).2⟩
  cases w with
  | zero => exact hC d hd
  | succ w => exact (hk _ (h d hd)).1 w

theorem bind {p : DiskProg A V R} {f : R → DiskProg A V S} {Q' : S → (A → V) → Prop}
    (hp : Triple P p Q C) (hf : ∀ r, Triple (Q r) (f r) Q' C) : Triple P (p.bind f) Q' C := by
  intro d hd
  obtain ⟨hcrash, hQ⟩ := hp d hd
  refine ⟨fun w => ?_, ?_⟩
  · rcases Nat.le_total w (p.writes d) with hw | hw
    · rw [crash_bind_of_le hw]
      exact hcrash w
    · rw [crash_bind_of_ge hw]
      exact (hf _ _ hQ).1 _
  · rw [result_bind, final_bind]
    exact (hf _ _ hQ).2

theorem seq {p : DiskProg A V Unit} {q : DiskProg A V S} {M : (A → V) → Prop}
    {Q' : S → (A → V) → Prop} (hp : Triple P p (fun _ => M) C) (hq : Triple M q Q' C) :
    Triple P (p.seq q) Q' C :=
  hp.bind fun _ => hq

theorem mono {p : DiskProg A V R} {Q' : R → (A → V) → Prop} (h : Triple P p Q C)
    (hP : ∀ d, P' d → P d) (hQ : ∀ r d, Q r d → Q' r d) (hC : ∀ d, C d → C' d) :
    Triple P' p Q' C' :=
  fun d hd => ⟨fun w => hC _ ((h d (hP d hd)).1 w), hQ _ _ (h d (hP d hd)).2⟩

/-- The loop rule. -/
theorem upTo {f : ℕ → DiskProg A V Unit} {I : ℕ → (A → V) → Prop} {n : ℕ}
    (hC : ∀ i d, I i d → C d) (hf : ∀ i, i < n → Triple (I i) (f i) (fun _ => I (i + 1)) C) :
    Triple (I 0) (DiskProg.upTo f 0 n) (fun _ => I n) C := by
  suffices h : ∀ k i, i + k = n → Triple (I i) (DiskProg.upTo f i k) (fun _ => I n) C from
    h n 0 (Nat.zero_add n)
  intro k
  induction k with
  | zero =>
      rintro i rfl
      exact .ret (hC i) fun _ hd => hd
  | succ k ih =>
      intro i hi
      exact (hf i (by omega)).seq (ih (i + 1) (by omega))

end Triple

end DiskProg

end Xv6.Lib
