import Xv6.Lib.Fuel
import Xv6.Sh.Lexing

/-!
The loops of the parser: redirections, arguments and ampersands.

For each loop there is a lemma per kind of round, which says what the
round does in terms of the tokens ahead. From these follow, by induction
along the tokens, that the loop ends and what it has parsed then, and, by
induction along a derivation, that it parses whatever can be derived.
-/

namespace Xv6.Sh

open Lib

variable {str : List Char} {s : ℕ} {ts : List Tok} (cmd : Cmd)

/-- The messages of a syntax error. -/
def SyntaxError (e : String) : Prop :=
  e ∈ ["syntax", "missing file for redirection", "syntax - missing )", "too many args"]

theorem not_starts_word {toks : List Char} {w : List Char} (htoks : toks ⊆ symbols) :
    ¬ Starts toks (.word w :: ts) := fun hmem => (symbols_not_word (htoks hmem)).2 rfl

/-! ### Redirections -/

theorem starts_redirect {op : Tok} : Starts ['<', '>'] (op :: ts) ↔ op.redirect.isSome := by
  cases op <;> simp [Starts, Tok.lead, Tok.code, Tok.redirect]

theorem parseredirs_stop (h : Rest str s ts) (hnul : '\x00' ∉ str)
    (hstop : ¬ Starts ['<', '>'] ts) :
    ∃ s', Ends (fun n => parseredirs (bufferOf str) str.length n cmd) s (.ok cmd s') ∧
      Rest str s' ts := by
  obtain ⟨b, s', hpeek, hrest, hb, -⟩ := h.peek hnul ['<', '>'] (by decide)
  rw [(by simpa using mt hb.mp hstop : b = false)] at hpeek
  exact ⟨s', .succ rfl ((Ends.ok hpeek).bind (.ok rfl)), hrest⟩

/-- The two tokens of a redirection. -/
theorem parseredirs_word {op : Tok} {w : List Char} {mode fd : ℕ}
    (h : Rest str s (op :: .word w :: ts)) (hnul : '\x00' ∉ str)
    (hop : op.redirect = some (mode, fd)) : ∃ q eq s', Rest str s' ts ∧ At str (q, eq) w ∧ ∀ o,
      Ends (fun n => parseredirs (bufferOf str) str.length n (.redir cmd q eq mode fd)) s' o →
      Ends (fun n => parseredirs (bufferOf str) str.length n cmd) s o := by
  obtain ⟨b, s₁, hpeek, h₁, hb, -⟩ := h.peek hnul ['<', '>'] (by decide)
  rw [hb.mpr (starts_redirect.mpr (by rw [hop]; rfl))] at hpeek
  obtain ⟨q₂, eq₂, s₂, htok, h₂, -⟩ := h₁.gettoken hnul
  obtain ⟨q, eq, s₃, hfile, h₃, hat⟩ := h₂.gettoken hnul
  refine ⟨q, eq, s₃, h₃, hat w rfl, fun o ho => .succ rfl ?_⟩
  refine (Ends.ok hpeek).bind ((Ends.ok htok).bind ((Ends.ok hfile).bind ?_))
  cases op <;> first | (obtain ⟨rfl, rfl⟩ := Prod.mk.inj (Option.some.inj hop); exact ho) | cases hop

theorem parseredirs_missing {op : Tok} (h : Rest str s (op :: ts)) (hnul : '\x00' ∉ str)
    (hop : op.redirect.isSome) (hts : ∀ w ts', ts ≠ .word w :: ts') :
    Ends (fun n => parseredirs (bufferOf str) str.length n cmd) s
      (.fault "missing file for redirection") := by
  obtain ⟨b, s₁, hpeek, h₁, hb, -⟩ := h.peek hnul ['<', '>'] (by decide)
  rw [hb.mpr (starts_redirect.mpr hop)] at hpeek
  obtain ⟨q₂, eq₂, s₂, htok, h₂, -⟩ := h₁.gettoken hnul
  refine .succ rfl ((Ends.ok hpeek).bind ((Ends.ok htok).bind ?_))
  cases ts with
  | nil =>
      obtain ⟨q, eq, s₃, hfile, -⟩ := h₂.gettoken_nil
      exact (Ends.ok hfile).bind (.fault rfl)
  | cons t ts =>
      obtain ⟨q, eq, s₃, hfile, -⟩ := h₂.gettoken hnul
      refine (Ends.ok hfile).bind ?_
      cases t with
      | word w => exact absurd rfl (hts w ts)
      | _ => exact .fault rfl

theorem parseredirs_sound (h : Rest str s ts) (hnul : '\x00' ∉ str) :
    Total SyntaxError (fun n => parseredirs (bufferOf str) str.length n cmd)
      (fun cmd' s' => ∃ pre post rs, ts = pre ++ post ∧ Redirs pre rs ∧ Rest str s' post ∧
        ∀ t, Matches (At str) cmd t → Matches (At str) cmd' (rs.foldl Tree.wrap t)) s := by
  induction hlen : ts.length using Nat.strong_induction_on generalizing ts s cmd with
  | _ len ih =>
      by_cases hstart : Starts ['<', '>'] ts
      · cases ts with
        | nil => cases hstart
        | cons op ts =>
            have hop := starts_redirect.mp hstart
            by_cases hword : ∃ w ts', ts = .word w :: ts'
            · obtain ⟨w, ts', rfl⟩ := hword
              obtain ⟨⟨mode, fd⟩, hop⟩ := Option.isSome_iff_exists.mp hop
              obtain ⟨q, eq, s', hrest, hat, hgo⟩ := parseredirs_word cmd h hnul hop
              have hlt : ts'.length < len := by
                simp only [List.length_cons] at hlen
                omega
              refine ((ih _ hlt (.redir cmd q eq mode fd) hrest rfl).via hgo).mono ?_
              rintro cmd' s'' ⟨pre, post, rs, rfl, hpre, hpost, hm⟩
              exact ⟨_, post, _, rfl, .cons hop hpre, hpost, fun t ht => hm _ (.redir ht hat)⟩
            · refine .of_fault (parseredirs_missing cmd h hnul hop fun w ts' heq =>
                hword ⟨w, ts', heq⟩) ?_
              simp [SyntaxError]
      · obtain ⟨s', hends, hrest⟩ := parseredirs_stop cmd h hnul hstart
        exact .of_ok hends ⟨[], ts, [], rfl, .nil, hrest, fun t ht => ht⟩

theorem parseredirs_complete {pre post : List Tok} {rs : List Redir} (hpre : Redirs pre rs)
    (hnul : '\x00' ∉ str) (h : Rest str s (pre ++ post)) (hpost : ¬ Starts ['<', '>'] post) :
    ∃ cmd' s', Ends (fun n => parseredirs (bufferOf str) str.length n cmd) s (.ok cmd' s') ∧
      Rest str s' post ∧
      ∀ t, Matches (At str) cmd t → Matches (At str) cmd' (rs.foldl Tree.wrap t) := by
  induction hpre generalizing s cmd with
  | nil =>
      obtain ⟨s', hends, hrest⟩ := parseredirs_stop cmd h hnul hpost
      exact ⟨cmd, s', hends, hrest, fun t ht => ht⟩
  | cons hop _ ih =>
      obtain ⟨q, eq, s₁, hrest, hat, hgo⟩ := parseredirs_word cmd h hnul hop
      obtain ⟨cmd', s', hends, hrest', hm⟩ := ih _ hrest
      exact ⟨cmd', s', hgo _ hends, hrest', fun t ht => hm _ (.redir ht hat)⟩

/-! ### Arguments -/

variable (argc : ℕ) (ret : Cmd)

/-- The symbols that end a simple command. -/
def enders : List Char := ['|', ')', '&', ';']

theorem parseargs_stop (h : Rest str s ts) (hnul : '\x00' ∉ str)
    (hstop : ts = [] ∨ Starts enders ts) :
    ∃ s', Ends (fun n => parseargs (bufferOf str) str.length n argc ret) s (.ok ret s') ∧
      Rest str s' ts := by
  obtain ⟨b, s₁, hpeek, h₁, hb, -⟩ := h.peek hnul enders (by decide)
  by_cases hstart : Starts enders ts
  · rw [hb.mpr hstart] at hpeek
    exact ⟨s₁, .succ rfl ((Ends.ok hpeek).bind (.ok rfl)), h₁⟩
  · obtain rfl := hstop.resolve_right hstart
    rw [(by simpa using mt hb.mp hstart : b = false)] at hpeek
    obtain ⟨q, eq, s₂, htok, h₂⟩ := h₁.gettoken_nil
    exact ⟨s₂, .succ rfl ((Ends.ok hpeek).bind ((Ends.ok htok).bind (.ok rfl))), h₂⟩

/-- A token that cannot be an argument. -/
theorem parseargs_bad {t : Tok} (h : Rest str s (t :: ts)) (hnul : '\x00' ∉ str)
    (hstart : ¬ Starts enders (t :: ts)) (ht : ∀ w, t ≠ .word w) :
    Ends (fun n => parseargs (bufferOf str) str.length n argc ret) s (.fault "syntax") := by
  obtain ⟨b, s₁, hpeek, h₁, hb, -⟩ := h.peek hnul enders (by decide)
  rw [(by simpa using mt hb.mp hstart : b = false)] at hpeek
  obtain ⟨q, eq, s₂, htok, -⟩ := h₁.gettoken hnul
  refine .succ rfl ((Ends.ok hpeek).bind ((Ends.ok htok).bind ?_))
  cases t with
  | word w => exact absurd rfl (ht w)
  | _ => exact .fault rfl

theorem parseargs_many {w : List Char} (h : Rest str s (.word w :: ts)) (hnul : '\x00' ∉ str)
    (hargc : maxargs ≤ argc + 1) :
    Ends (fun n => parseargs (bufferOf str) str.length n argc ret) s (.fault "too many args") := by
  obtain ⟨b, s₁, hpeek, h₁, hb, -⟩ := h.peek hnul enders (by decide)
  rw [(by simpa using mt hb.mp (not_starts_word (by decide)) : b = false)] at hpeek
  obtain ⟨q, eq, s₂, htok, -⟩ := h₁.gettoken hnul
  refine .succ rfl ((Ends.ok hpeek).bind ((Ends.ok htok).bind ?_))
  have h0 : ¬ ('a' = '\x00') := by decide
  simp only [Tok.code, h0, ne_eq, not_true_eq_false, ge_iff_le, hargc, if_true, if_false]
  exact .fault rfl

/-- An argument, up to the redirections behind it. -/
theorem parseargs_word {w : List Char} (h : Rest str s (.word w :: ts)) (hnul : '\x00' ∉ str)
    (hargc : argc + 1 < maxargs) :
    ∃ q eq s', Rest str s' ts ∧ At str (q, eq) w ∧ ∀ o,
      Ends (fun n => do
        let ret ← parseredirs (bufferOf str) str.length n (ret.pushArg q eq)
        parseargs (bufferOf str) str.length n (argc + 1) ret) s' o →
      Ends (fun n => parseargs (bufferOf str) str.length n argc ret) s o := by
  obtain ⟨b, s₁, hpeek, h₁, hb, -⟩ := h.peek hnul enders (by decide)
  rw [(by simpa using mt hb.mp (not_starts_word (by decide)) : b = false)] at hpeek
  obtain ⟨q, eq, s₂, htok, h₂, hat⟩ := h₁.gettoken hnul
  refine ⟨q, eq, s₂, h₂, hat w rfl, fun o ho => .succ rfl ?_⟩
  refine (Ends.ok hpeek).bind ((Ends.ok htok).bind ?_)
  have h0 : ¬ ('a' = '\x00') := by decide
  have hfew : ¬ argc + 1 ≥ maxargs := by omega
  simp only [Tok.code, h0, ne_eq, not_true_eq_false, hfew, if_false]
  exact ho

theorem parseargs_sound (h : Rest str s ts) (hnul : '\x00' ∉ str) (hargc : argc ≤ maxargs - 1) :
    Total SyntaxError (fun n => parseargs (bufferOf str) str.length n argc ret)
      (fun cmd' s' => ∃ pre post rs ws, ts = pre ++ post ∧ Args pre ws rs ∧
        argc + ws.length ≤ maxargs - 1 ∧ Rest str s' post ∧
        ∀ rs₀ ws₀, Matches (At str) ret (simple rs₀ ws₀) →
          Matches (At str) cmd' (simple (rs₀ ++ rs) (ws₀ ++ ws))) s := by
  induction hlen : ts.length using Nat.strong_induction_on generalizing ts s argc ret with
  | _ len ih =>
      by_cases hstop : ts = [] ∨ Starts enders ts
      · obtain ⟨s', hends, hrest⟩ := parseargs_stop argc ret h hnul hstop
        refine .of_ok hends ⟨[], ts, [], [], rfl, .nil, hargc, hrest, fun rs₀ ws₀ hm => ?_⟩
        rwa [List.append_nil, List.append_nil]
      · cases ts with
        | nil => exact absurd (.inl rfl) hstop
        | cons t ts =>
            by_cases hword : ∃ w, t = .word w
            · obtain ⟨w, rfl⟩ := hword
              by_cases hmany : maxargs ≤ argc + 1
              · exact .of_fault (parseargs_many argc ret h hnul hmany) (by simp [SyntaxError])
              · obtain ⟨q, eq, s₁, h₁, hat, hgo⟩ := parseargs_word argc ret h hnul (by omega)
                refine (Total.bind (parseredirs_sound _ h₁ hnul) ?_).via hgo
                rintro ret' s₂ ⟨rts, ts', rs, rfl, hrts, h₂, hm⟩
                have hlt : ts'.length < len := by
                  simp only [List.length_cons, List.length_append] at hlen
                  omega
                refine (ih _ hlt (argc + 1) ret' h₂ (by omega) rfl).mono ?_
                rintro cmd' s₃ ⟨pre, post, rs', ws, rfl, hargs, hle, h₃, hm'⟩
                refine ⟨.word w :: (rts ++ pre), post, rs ++ rs', w :: ws, by simp,
                  .cons hrts hargs, by simp only [List.length_cons]; omega, h₃, ?_⟩
                intro rs₀ ws₀ hret
                have hwrapped := hm _ (hret.pushArg hat)
                rw [simple, ← List.foldl_append] at hwrapped
                simpa using hm' _ _ hwrapped
            · refine .of_fault (parseargs_bad argc ret h hnul (fun hs => hstop (.inr hs))
                fun w hw => hword ⟨w, hw⟩) (by simp [SyntaxError])

/-- Arguments, and what may come behind them, begin with a word or a symbol
that ends the command. -/
theorem not_starts_args {ats post : List Tok} {ws : List (List Char)} {rs : List Redir}
    {toks : List Char} (hargs : Args ats ws rs) (hpost : post = [] ∨ Starts enders post)
    (htoks : toks ⊆ symbols) (hdisj : toks.all (· ∉ enders)) : ¬ Starts toks (ats ++ post) := by
  cases hargs with
  | nil =>
      rcases hpost with rfl | hpost
      · exact id
      · cases post with
        | nil => exact id
        | cons t post => exact fun h => of_decide_eq_true (List.all_eq_true.mp hdisj _ h) hpost
  | cons _ _ => exact not_starts_word htoks

theorem parseargs_complete {pre post : List Tok} {ws : List (List Char)} {rs : List Redir}
    (hargs : Args pre ws rs) (hnul : '\x00' ∉ str) (h : Rest str s (pre ++ post))
    (hpost : post = [] ∨ Starts enders post) (hle : argc + ws.length ≤ maxargs - 1) :
    ∃ cmd' s', Ends (fun n => parseargs (bufferOf str) str.length n argc ret) s (.ok cmd' s') ∧
      Rest str s' post ∧ ∀ rs₀ ws₀, Matches (At str) ret (simple rs₀ ws₀) →
        Matches (At str) cmd' (simple (rs₀ ++ rs) (ws₀ ++ ws)) := by
  induction hargs generalizing s argc ret with
  | nil =>
      obtain ⟨s', hends, hrest⟩ := parseargs_stop argc ret h hnul hpost
      refine ⟨ret, s', hends, hrest, fun rs₀ ws₀ hm => ?_⟩
      rwa [List.append_nil, List.append_nil]
  | @cons w rts ts rs rs' ws hrts hts ih =>
      simp only [List.length_cons] at hle
      rw [List.cons_append, List.append_assoc] at h
      obtain ⟨q, eq, s₁, h₁, hat, hgo⟩ := parseargs_word argc ret h hnul (by unfold maxargs at *; omega)
      obtain ⟨ret', s₂, hends, h₂, hm⟩ :=
        parseredirs_complete (ret.pushArg q eq) hrts hnul h₁
          (not_starts_args hts hpost (by decide) (by decide))
      obtain ⟨cmd', s₃, hends', h₃, hm'⟩ := ih (argc + 1) ret' h₂ (by omega)
      refine ⟨cmd', s₃, hgo _ (hends.bind hends'), h₃, fun rs₀ ws₀ hret => ?_⟩
      have hwrapped := hm _ (hret.pushArg hat)
      rw [simple, ← List.foldl_append] at hwrapped
      simpa using hm' _ _ hwrapped

/-! ### Ampersands -/

theorem parsebacks_ends {n : ℕ} {post : List Tok} (hnul : '\x00' ∉ str)
    (h : Rest str s (List.replicate n .amp ++ post)) (hpost : ¬ Starts ['&'] post) :
    ∃ s', Ends (fun m => parsebacks (bufferOf str) str.length m cmd) s (.ok (Cmd.back^[n] cmd) s') ∧
      Rest str s' post := by
  induction n generalizing s cmd with
  | zero =>
      obtain ⟨b, s₁, hpeek, h₁, hb, -⟩ := h.peek hnul ['&'] (by decide)
      rw [(by simpa using mt hb.mp hpost : b = false)] at hpeek
      exact ⟨s₁, .succ rfl ((Ends.ok hpeek).bind (.ok rfl)), h₁⟩
  | succ n ih =>
      rw [List.replicate_succ, List.cons_append] at h
      obtain ⟨b, s₁, hpeek, h₁, hb, -⟩ := h.peek hnul ['&'] (by decide)
      rw [hb.mpr (List.mem_singleton.mpr rfl)] at hpeek
      obtain ⟨q, eq, s₂, htok, h₂, -⟩ := h₁.gettoken hnul
      obtain ⟨s', hends, h'⟩ := ih (.back cmd) h₂
      exact ⟨s', .succ rfl ((Ends.ok hpeek).bind ((Ends.ok htok).bind hends)), h'⟩

theorem exists_amps (ts : List Tok) :
    ∃ n post, ts = List.replicate n Tok.amp ++ post ∧ ¬ Starts ['&'] post := by
  induction ts with
  | nil => exact ⟨0, [], rfl, id⟩
  | cons t ts ih =>
      by_cases ht : t = .amp
      · obtain ⟨n, post, rfl, hpost⟩ := ih
        exact ⟨n + 1, post, by rw [ht, List.replicate_succ, List.cons_append], hpost⟩
      · refine ⟨0, t :: ts, rfl, ?_⟩
        cases t <;> simp_all [Starts, Tok.lead, Tok.code]

end Xv6.Sh
