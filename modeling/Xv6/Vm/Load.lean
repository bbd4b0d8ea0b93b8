import Xv6.Vm.Exec
import Xv6.Vm.Image

/-!
Filling an image: `loadseg`, the loop of `exec` over the program headers,
`uvmclear` and the stack.

All of these write user pages of the table only: the entries above the
user pages do not have the flag `PTE_U`, so `walkaddr` refuses them. What
is said here holds when the functions return; that they do not panic is
another matter.
-/

namespace Xv6.Vm

open Lib Prog

variable {C : Config} {s t u : Phys} {A A' : View} {r v w n i x pa sz va off : ℕ}
  {file : List ℕ}

/-! ### Writing user pages -/

theorem Change.setPage {o : Owner} (hx : A.owner x = some o) (ho : o.Of r) (f : ℕ → ℕ) :
    Change r A A s (s.setPage x f) := by
  refine ⟨fun _ _ => rfl, fun _ => .rfl, fun {y o'} hy ho' => Function.update_of_ne ?_ _ _,
    List.suffix_rfl⟩
  rintro rfl
  rw [hx] at hy
  cases hy
  exact ho' ho

theorem Built.setPage (h : Built C r sz A A' s t) (hpa : A'.owner pa = some (.frame r v))
    (f : ℕ → ℕ) : Built C r sz A A' s (t.setPage pa f) :=
  h.of_maps (h.rep.setPage hpa trivial f) h.root h.sized (.setPage hpa rfl f) fun _ _ => rfl

/-- A user address is in a user page. -/
theorem Built.walkaddr (h : Built C r sz A A' s t) (va : ℕ) :
    wp (walkaddr C r va) (fun a u => u = t ∧ ∀ pa, a = some pa →
      ∃ v, A'.owner pa = some (.frame r v)) t := by
  rw [Vm.walkaddr, wp_ite]
  refine ⟨fun _ => ⟨rfl, nofun⟩, fun hva => ?_⟩
  rw [wp_bind, walk, if_neg hva]
  refine wp_walkFrom h.rep.toTree (by rw [root_div (Nat.not_le.mp hva)]; exact h.root)
    (fun y hy => ?_) fun _ => ⟨rfl, nofun⟩
  simp only [wp_bind, wp_load, wp_ite, wp_pure]
  refine ⟨fun _ => ⟨trivial, nofun⟩, fun hvalid => ⟨fun _ => ⟨trivial, nofun⟩,
    fun huser => ⟨trivial, ?_⟩⟩⟩
  rintro pa ⟨⟩
  have hmap := h.rep.leaf hy (px_lt 0 va)
  rw [if_pos hvalid] at hmap
  refine ⟨_, h.rep.frame_iff.mpr ⟨?_, _, hmap, rfl⟩⟩
  by_contra hkernel
  exact huser (h.kernel (Nat.not_lt.mp hkernel) hmap)

theorem Built.writeBytes (h : Built C r sz A A' s t) (hpa : A'.owner pa = some (.frame r v))
    (off : ℕ) (bytes : List ℕ) :
    wp (writeBytes pa off bytes) (fun _ u => Built C r sz A A' s u) t :=
  h.setPage hpa _

theorem Built.copyout (h : Built C r sz A A' s t) (dstva : ℕ) (src : List ℕ) :
    wp (copyout C r dstva src) (fun _ u => Built C r sz A A' s u) t := by
  rw [Vm.copyout]
  generalize src.length = fuel
  induction fuel generalizing t dstva src with
  | zero => cases src <;> exact h
  | succ fuel ih =>
      cases src with
      | nil => exact h
      | cons b src =>
          rw [copyoutLoop, wp_bind]
          case x_3 => exact List.cons_ne_nil b src
          refine wp_mono (h.walkaddr _) fun a u ⟨hu, ha⟩ => ?_
          subst hu
          cases a with
          | none => exact h
          | some pa =>
              obtain ⟨v, hpa⟩ := ha pa rfl
              change wp (Vm.writeBytes _ _ _ >>= fun _ => _) _ _
              rw [wp_bind]
              exact wp_mono (h.writeBytes hpa _ _) fun _ u hu => ih hu _ _

/-! ### Loading the program -/

theorem Built.loadsegLoop (h : Built C r sz A A' s t) (va offset size n i : ℕ) :
    wpf (fun _ => True) (loadsegLoop C r va file offset size n i)
      (fun _ u => Built C r sz A A' s u) t := by
  induction n generalizing t i with
  | zero => exact h
  | succ n ih =>
      rw [Vm.loadsegLoop, wpf_bind]
      refine wpf_of_wp (wp_mono (h.walkaddr _) fun a u ⟨hu, ha⟩ => ?_)
      subst hu
      cases a with
      | none => trivial
      | some pa =>
          obtain ⟨v, hpa⟩ := ha pa rfl
          change wpf _ (Vm.writeBytes _ _ _ >>= fun _ => _) _ _
          rw [wpf_bind]
          refine wpf_of_wp (wp_mono (h.writeBytes hpa _ _) fun _ u hu => ?_)
          exact wpf_ite (fun _ => hu) fun _ => ih hu _

theorem Built.loadseg (h : Built C r sz A A' s t) (va offset size : ℕ) :
    wpf (fun _ => True) (loadseg C r va file offset size) (fun _ u => Built C r sz A A' s u) t := by
  rw [Vm.loadseg]
  exact wpf_ite (fun _ => trivial) fun _ => h.loadsegLoop _ _ _ _ _

/-- The loop over the program headers. When `uvmalloc` fails in it, the size
that it reports is 0, whatever the table has by then. -/
theorem Built.loadProgram (h : Built C r sz A A' s t) (n off : ℕ) :
    wpf (fun _ => True) (loadProgram C r file n off sz) (fun p u => ∃ A'' sz₀,
      Built C r sz₀ A A'' s u ∧ (p.2 = sz₀ ∨ p.1 = false ∧ p.2 = 0)) t := by
  induction n generalizing t A' off sz with
  | zero => exact ⟨A', sz, h, .inl rfl⟩
  | succ n ih =>
      have hstop : ∃ A'' sz₀, Built C r sz₀ A A'' s t ∧ (sz = sz₀ ∨ false = false ∧ sz = 0) :=
        ⟨A', sz, h, .inl rfl⟩
      rw [Vm.loadProgram]
      refine wpf_ite (fun _ => hstop) fun _ => wpf_ite (fun _ => ih h _) fun _ =>
        wpf_ite (fun _ => hstop) fun _ => wpf_ite (fun _ => hstop) fun _ => ?_
      rw [wpf_bind]
      refine wpf_of_wp (wp_mono (h.uvmalloc _) fun sz' u ⟨A'', hu⟩ => ?_)
      refine wpf_ite (fun hzero => ?_) fun hpos => ?_
      · rcases hu with ⟨-, hu⟩ | ⟨-, hu⟩
        · exact ⟨A'', sz', hu, .inl rfl⟩
        · exact ⟨A'', sz, hu, .inr ⟨rfl, hzero⟩⟩
      obtain ⟨-, hu⟩ := hu.resolve_right fun hfail => hpos hfail.1
      refine wpf_ite (fun _ => ⟨A'', sz', hu, .inl rfl⟩) fun _ => ?_
      rw [wpf_bind]
      refine wpf_mono (hu.loadseg _ _ _) fun ok u' hu' => ?_
      exact wpf_ite (fun _ => ih hu' _) fun _ => ⟨A'', sz', hu', .inl rfl⟩

/-! ### The stack -/

/-- Taking the flag `PTE_U` away leaves the rest of an entry. -/
theorem clear_user_and {m : ℕ} (hm : m &&& (2 ^ 64 - 1 - pteU) = m) :
    (w &&& (2 ^ 64 - 1 - pteU)) &&& m = w &&& m := by
  rw [Nat.and_assoc, Nat.and_comm _ m, hm]

theorem pte2pa_clear_user (hw : w < 2 ^ 64) : pte2pa (w &&& (2 ^ 64 - 1 - pteU)) = pte2pa w := by
  have hshift : (w &&& (2 ^ 64 - 1 - pteU)) >>> 10 = w >>> 10 := by
    apply Nat.eq_of_testBit_eq
    intro j
    rw [Nat.testBit_shiftRight, Nat.testBit_shiftRight, Nat.testBit_and]
    rcases Nat.lt_or_ge (10 + j) 64 with hj | hj
    · have hmask : (2 ^ 64 - 1 - pteU).testBit (10 + j) = true := by
        have hx : (2 ^ 64 - (16 + 1)).testBit (10 + j) = true := by
          rw [Nat.testBit_two_pow_sub_succ (by decide)]
          have h16 : (16 : ℕ) < 2 ^ (10 + j) :=
            lt_of_lt_of_le (by decide : 16 < 2 ^ 10) (Nat.pow_le_pow_right Nat.two_pos (by omega))
          rw [Nat.testBit_lt_two_pow h16, decide_eq_true hj]
          rfl
        exact hx
      rw [hmask, Bool.and_true]
    · have hbig : w < 2 ^ (10 + j) := lt_of_lt_of_le hw (Nat.pow_le_pow_right Nat.two_pos hj)
      rw [Nat.testBit_lt_two_pow hbig, Bool.false_and]
  rw [pte2pa, pte2pa, hshift]

/-- `uvmclear` of a user page. -/
theorem Built.uvmclear (h : Built C r sz A A' s t) (hv : v < pages sz) :
    wp (uvmclear C r (v * pgsize)) (fun _ u => ∃ A'' w, Built C r sz A A'' s u ∧
      A'.maps r v = some w ∧
      (∀ v', A''.maps r v' = if v' = v then some (w &&& (2 ^ 64 - 1 - pteU)) else A'.maps r v') ∧
      ∀ x v', A'.owner x = some (.frame r v') → u.mem x = t.mem x) t := by
  have hvt : v < trapframePage := lt_of_lt_of_le hv h.pages_le
  obtain ⟨w, hw⟩ := exists_of_ne_none ((h.sized v hvt).mpr hv)
  obtain ⟨hleaf, hmax, hlt⟩ := h.rep.maps_leaf hw
  rw [Vm.uvmclear, wp_bind]
  refine wp_walk_mapped h.rep.toTree h.root hmax hw fun y hy hword => ?_
  have hvalid := (h.rep.word_eq hy hw).2
  simp only [wp_bind, wp_load, hword, store, wp_modify]
  set w' := w &&& (2 ^ 64 - 1 - pteU) with hw'
  have hvalid' : w' &&& pteV ≠ 0 := by
    rw [hw', clear_user_and (by decide)]
    exact hvalid
  have hpa : pte2pa w' = pte2pa w := pte2pa_clear_user hlt
  have hidx : v / 512 * 512 + v % 512 = v := by omega
  have hset := h.rep.setLeaf (t := t.set y (v % 512) w') (o := A'.owner) (w := w') hy
    (Nat.mod_lt v (by decide)) (fun _ _ _ _ => .rfl) h.rep.used_iff h.rep.used_pool rfl
    (fun _ => ⟨?_, by rwa [hidx], lt_of_le_of_lt Nat.and_le_left hlt⟩) ?_
  · rw [hidx, if_pos hvalid'] at hset
    refine ⟨_, w, h.of_maps hset h.root (fun u hu => ?_) ⟨fun r' hr' => ?_, fun _ => .rfl,
      fun {x o} hx ho => mem_set_page_of_ne ?_, List.suffix_rfl⟩ fun u hu => ?_, hw, fun v' => ?_,
      fun x v' hx => mem_set_page_of_ne ?_⟩
    · rw [← h.sized u hu]
      change (A'.setMap r v (some w')).maps r u ≠ none ↔ _
      rw [View.maps_setMap]
      split_ifs with huv
      · rw [huv.2, hw]
        simp
      · rfl
    · funext u
      change (A'.setMap r v (some w')).maps r' u = _
      rw [View.maps_setMap, if_neg fun he => hr' he.1]
    · rintro rfl
      rw [hy] at hx
      cases hx
      exact ho rfl
    · change (A'.setMap r v (some w')).maps r u = _
      rw [View.maps_setMap, if_neg (by omega)]
    · change (A'.setMap r v (some w')).maps r v' = _
      rw [View.maps_setMap]
      exact if_congr (and_iff_right rfl) rfl rfl
    · rintro rfl
      rw [hy] at hx
      cases hx
  · rw [hw', clear_user_and (by decide)]
    exact hleaf
  · intro z r' v'
    rw [hidx, if_pos hvalid', View.maps_setMap, h.rep.frame_iff]
    by_cases hrv : r' = r ∧ v' = v
    · obtain ⟨rfl, rfl⟩ := hrv
      simp [hw, hpa]
    · rw [if_neg hrv]

theorem Built.pushArgs (h : Built C r sz A A' s t) (stackbase : ℕ) (argv : List (List ℕ))
    (argc sp : ℕ) :
    wp (pushArgs C r stackbase argv argc sp) (fun _ u => Built C r sz A A' s u) t := by
  induction argv generalizing t argc sp with
  | nil => exact h
  | cons arg argv ih =>
      rw [Vm.pushArgs]
      refine wp_ite.mpr ⟨fun _ => h, fun _ => wp_ite.mpr ⟨fun _ => h, fun _ => ?_⟩⟩
      rw [wp_bind]
      refine wp_mono (h.copyout _ _) fun ok u hu => wp_ite.mpr ⟨fun _ => ?_, fun _ => hu⟩
      rw [wp_bind]
      refine wp_mono (ih hu _ _) fun rest u' hu' => ?_
      cases rest <;> exact hu'

theorem Built.pushStack (h : Built C r sz A A' s t) (argv : List (List ℕ)) (top : ℕ) :
    wp (pushStack C r top argv) (fun _ u => Built C r sz A A' s u) t := by
  rw [Vm.pushStack, wp_bind]
  refine wp_mono (h.pushArgs _ _ _ _) fun place u hu => ?_
  cases place with
  | none => exact hu
  | some place =>
      change wp (if pushSp place.1 ((argv.length + 1) * 8) < top - pgsize then _ else _) _ u
      generalize pushSp place.1 ((argv.length + 1) * 8) = sp, top - pgsize = base
      refine wp_ite.mpr ⟨fun _ => hu, fun _ => ?_⟩
      rw [wp_bind]
      exact wp_mono (hu.copyout _ _) fun ok u' hu' => wp_ite.mpr ⟨fun _ => hu', fun _ => hu'⟩

/-! ### Giving up -/

/-- With its size, a table is given back as a whole. -/
theorem Built.procFreepagetable (h : Built C r sz (View.loose s) A' s t) (hpos : 0 < sz) :
    wpf (fun _ => True) (Vm.procFreepagetable C r sz)
      (fun _ u => u.used = s.used ∧ ∀ x ∈ s.used, u.mem x = s.mem x) t := by
  by_cases htramp : A'.maps r trampolinePage = none
  · rw [Vm.procFreepagetable, wpf_bind, trampolineVa_eq]
    exact wpf_uvmunmap_unmapped h.rep.toTree h.root (by decide) htramp
  · refine wpf_of_wp (wp_procFreepagetable h.rep h.root h.sized hpos htramp (h.trapframe htramp)
      fun u A'' hu hchange hgone => ⟨?_, fun x hx => ?_⟩)
    · exact (h.change.trans hchange).used_eq hu hgone
    · exact (h.change.trans hchange).mem (View.owner_loose.mpr ⟨hx, rfl⟩) id

end Xv6.Vm
