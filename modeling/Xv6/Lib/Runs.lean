import Mathlib

/-!
Finite runs of a partial step function.

A system is a function `step : σ → α → Option σ`: the label `α` resolves
every choice of the environment (which process moves, what a device
answers), and `none` says that the label is not enabled in that state. A
run is a list of labels, each enabled where it is taken, so a run is a
computable object and a concrete one can be evaluated.

Safety is proved by `Runs.invariant`: an invariant that holds initially
and survives every step whose label meets a side condition holds in
every state reached by a run all of whose steps meet the condition.
-/

namespace Xv6.Lib

variable {σ α : Type*} (step : σ → α → Option σ)

/-- The state reached from `s` by taking the labels in order. -/
def run : σ → List α → Option σ
  | s, [] => some s
  | s, a :: as => (step s a).bind fun t => run t as

/-- Every step of the run from `s` meets the condition `C`, which may look
at the state before the step. -/
def Meets (C : σ → α → Prop) : σ → List α → Prop
  | _, [] => True
  | s, a :: as => C s a ∧ ∀ t, step s a = some t → Meets C t as

/-- `A` holds in every state of the run from `s`, up to and including the
state in which the label `z` is first taken. -/
def Until (A : σ → Prop) (z : α) : σ → List α → Prop
  | s, [] => A s
  | s, a :: as => A s ∧ (a = z ∨ ∀ t, step s a = some t → Until A z t as)

@[simp] theorem run_nil (s : σ) : run step s [] = some s := rfl

theorem run_cons (s : σ) (a : α) (as : List α) :
    run step s (a :: as) = (step s a).bind fun t => run step t as := rfl

variable {step}

variable {C : σ → α → Prop} {as : List α} {s : σ}

theorem run_cons_eq_some {u : σ} {a : α} : run step s (a :: as) = some u ↔
      ∃ t, step s a = some t ∧ run step t as = some u := by
  rw [run_cons, Option.bind_eq_some_iff]

theorem run_append {bs : List α} :
    run step s (as ++ bs) = (run step s as).bind fun t => run step t bs := by
  induction as generalizing s with
  | nil => rfl
  | cons a as ih =>
      rw [List.cons_append, run_cons, run_cons, Option.bind_assoc]
      congr 1
      funext t
      exact ih

theorem run_append_eq_some {u : σ} {bs : List α} : run step s (as ++ bs) = some u ↔
      ∃ t, run step s as = some t ∧ run step t bs = some u := by
  rw [run_append, Option.bind_eq_some_iff]

/-- On a concrete run, a decidable condition is checked by evaluation. -/
instance Meets.decidable {C : σ → α → Prop} [∀ s a, Decidable (C s a)] :
    ∀ (s : σ) (as : List α), Decidable (Meets step C s as)
  | _, [] => isTrue trivial
  | s, a :: as =>
      match h : step s a with
      | none => decidable_of_iff (C s a) (by simp [Meets, h])
      | some t =>
          have := Meets.decidable (C := C) t as
          decidable_of_iff (C s a ∧ Meets step C t as) (by simp [Meets, h])

instance Until.decidable {A : σ → Prop} {z : α} [∀ s, Decidable (A s)] [DecidableEq α] :
    ∀ (s : σ) (as : List α), Decidable (Until step A z s as)
  | s, [] => inferInstanceAs (Decidable (A s))
  | s, a :: as =>
      match h : step s a with
      | none => decidable_of_iff (A s) (by simp [Until, h])
      | some t =>
          have := Until.decidable (A := A) (z := z) t as
          decidable_of_iff (A s ∧ (a = z ∨ Until step A z t as)) (by simp [Until, h])

theorem meets_append {t : σ} {bs : List α}
    (h : Meets step C s (as ++ bs)) (hrun : run step s as = some t) :
    Meets step C s as ∧ Meets step C t bs := by
  induction as generalizing s with
  | nil =>
      obtain rfl : s = t := Option.some.inj hrun
      exact ⟨trivial, h⟩
  | cons a as ih =>
      obtain ⟨u, hu, hrun⟩ := run_cons_eq_some.mp hrun
      obtain ⟨has, hbs⟩ := ih (h.2 u hu) hrun
      refine ⟨⟨h.1, fun v hv => ?_⟩, hbs⟩
      obtain rfl : u = v := Option.some.inj (hu.symm.trans hv)
      exact has

theorem meets_mono {D : σ → α → Prop} (hCD : ∀ s a, C s a → D s a) (h : Meets step C s as) : Meets step D s as := by
  induction as generalizing s with
  | nil => trivial
  | cons a as ih => exact ⟨hCD s a h.1, fun t ht => ih (h.2 t ht)⟩

/-- The condition, step by step. -/
theorem meets_iff_forall_prefix : Meets step C s as ↔
      ∀ bs a t, bs ++ [a] <+: as → run step s bs = some t → C t a := by
  induction as generalizing s with
  | nil => simp [Meets]
  | cons a as ih =>
      constructor
      · rintro ⟨hC, htail⟩ bs b t hpre hrun
        cases bs with
        | nil =>
            obtain rfl : s = t := Option.some.inj hrun
            obtain ⟨rfl, -⟩ := List.cons_prefix_cons.mp hpre
            exact hC
        | cons c bs =>
            obtain ⟨rfl, hrest⟩ := List.cons_prefix_cons.mp hpre
            obtain ⟨u, hu, hrun'⟩ := run_cons_eq_some.mp hrun
            exact ih.mp (htail u hu) bs b t hrest hrun'
      · intro h
        refine ⟨h [] a s (by simp) rfl, fun u hu => ih.mpr fun bs b t hpre hrun => ?_⟩
        refine h (a :: bs) b t (by simpa using hpre) ?_
        rw [run_cons, hu]
        exact hrun

/-- A condition that every step meets is met by every run. -/
theorem meets_of_forall (hC : ∀ s a, C s a) (s : σ) (as : List α) : Meets step C s as := by
  induction as generalizing s with
  | nil => trivial
  | cons a as ih => exact ⟨hC s a, fun t _ => ih t⟩

/-- A condition on labels, met by every label of the run. -/
theorem meets_of_forall_mem {C : α → Prop} (h : ∀ a ∈ as, C a) :
    Meets step (fun _ a => C a) s as := by
  induction as generalizing s with
  | nil => trivial
  | cons a as ih =>
      exact ⟨h a (List.mem_cons_self ..), fun t _ => ih fun b hb => h b (List.mem_cons_of_mem a hb)⟩

/-- What comes to hold along a run comes to hold in a step of it. -/
theorem exists_step_of_run {P : σ → Prop} {t : σ} (hrun : run step s as = some t)
    (hs : ¬ P s) (ht : P t) : ∃ bs a u v, bs ++ [a] <+: as ∧ run step s bs = some u ∧
      step u a = some v ∧ ¬ P u ∧ P v := by
  induction as generalizing s with
  | nil =>
      obtain rfl : s = t := Option.some.inj hrun
      exact absurd ht hs
  | cons a as ih =>
      obtain ⟨w, hw, hrun⟩ := run_cons_eq_some.mp hrun
      by_cases hPw : P w
      · exact ⟨[], a, s, w, by simp, rfl, hw, hs, hPw⟩
      · obtain ⟨bs, b, u, v, hpre, hbs, hstep, hu, hv⟩ := ih hrun hPw
        refine ⟨a :: bs, b, u, v, ?_, run_cons_eq_some.mpr ⟨w, hw, hbs⟩, hstep, hu, hv⟩
        exact List.cons_prefix_cons.mpr ⟨rfl, hpre⟩

/-- **The invariant rule.** -/
theorem invariant {I : σ → Prop} (hstep : ∀ {s a t}, I s → C s a → step s a = some t → I t)
    {t : σ} (hs : I s) (hC : Meets step C s as) (hrun : run step s as = some t) : I t := by
  induction as generalizing s with
  | nil =>
      obtain rfl : s = t := Option.some.inj hrun
      exact hs
  | cons a as ih =>
      obtain ⟨u, hu, hrun⟩ := run_cons_eq_some.mp hrun
      exact ih (hstep hs hC.1 hu) (hC.2 u hu) hrun

/-- The invariant rule for a system whose every step keeps the invariant. -/
theorem invariant' {I : σ → Prop} (hstep : ∀ {s a t}, I s → step s a = some t → I t)
    {t : σ} (hs : I s) (hrun : run step s as = some t) : I t :=
  invariant (C := fun _ _ => True) (fun h _ => hstep h) hs
    (meets_of_forall (fun _ _ => trivial) s as) hrun

/-- When the steps that meet a condition keep an invariant and the others
break the property at once, the condition is exact: the property holds
all along a run if and only if every step meets the condition. -/
theorem forall_prefix_iff_meets {I P : σ → Prop} (hP : ∀ {s}, I s → P s)
    (hstep : ∀ {s a t}, I s → C s a → step s a = some t → I t)
    (hbad : ∀ {s a t}, I s → ¬ C s a → step s a = some t → ¬ P t)
    {t : σ} (hs : I s) (hrun : run step s as = some t) :
    (∀ bs u, bs <+: as → run step s bs = some u → P u) ↔ Meets step C s as := by
  induction as generalizing s with
  | nil =>
      refine ⟨fun _ => trivial, fun _ bs u hbs hu => ?_⟩
      rw [List.prefix_nil] at hbs
      subst hbs
      obtain rfl : s = u := Option.some.inj hu
      exact hP hs
  | cons a as ih =>
      obtain ⟨u, hu, htail⟩ := run_cons_eq_some.mp hrun
      constructor
      · intro hall
        have hC : C s a := by
          by_contra hC
          refine hbad hs hC hu (hall [a] u (by simp) ?_)
          rw [run_cons, hu]
          rfl
        refine ⟨hC, fun v hv => ?_⟩
        obtain rfl : u = v := Option.some.inj (hu.symm.trans hv)
        refine (ih (hstep hs hC hu) htail).mp fun bs v hbs hv => ?_
        refine hall (a :: bs) v (by simpa using hbs) ?_
        rw [run_cons, hu]
        exact hv
      · rintro ⟨hC, hmeets⟩ bs v hbs hv
        have hu' := hstep hs hC hu
        cases bs with
        | nil =>
            obtain rfl : s = v := Option.some.inj hv
            exact hP hs
        | cons b bs =>
            obtain ⟨rfl, hpre⟩ := List.cons_prefix_cons.mp hbs
            obtain ⟨w, hw, hrest⟩ := run_cons_eq_some.mp hv
            obtain rfl : u = w := Option.some.inj (hu.symm.trans hw)
            exact (ih hu' htail).mpr (hmeets u hu) bs v hpre hrest

end Xv6.Lib
