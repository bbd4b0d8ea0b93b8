import Xv6.Sh.Loops

/-!
The parser accepts the lines of the grammar and no others.

That it ends, and that what it returns is derived from the tokens it has
consumed, is shown by induction on the number of tokens ahead: a block or
the right side of `|` or `;` has fewer. That it accepts every line of the
grammar is shown by induction on the derivation, for tokens followed by
one that can follow the symbol in a line.
-/

namespace Xv6.Sh

open Lib

variable {str : List Char} {s : ℕ} {ts : List Tok}

/-- The function of the parser for a symbol of the grammar. -/
def parse (str : List Char) : Symbol → ℕ → Prog String ℕ Cmd
  | .line => parseline (bufferOf str) str.length
  | .pipe => parsepipe (bufferOf str) str.length
  | .exec => parseexec (bufferOf str) str.length

/-- The tokens consumed derive from the symbol, and the command is the tree
of the derivation. -/
def Parsed (str : List Char) (k : Symbol) (ts : List Tok) (cmd : Cmd) (s' : ℕ) : Prop :=
  ∃ pre post t, ts = pre ++ post ∧ Derives k pre t ∧ Rest str s' post ∧ Matches (At str) cmd t

/-- Lines with fewer than `N` tokens ahead are parsed. -/
def LinesBelow (str : List Char) (N : ℕ) : Prop :=
  ∀ ts s, ts.length < N → Rest str s ts →
    Total SyntaxError (parse str .line) (Parsed str .line ts) s

/-! ### What is returned is derived -/

/-- A symbol other than `>` is told by its character. -/
theorem starts_symbol {c : Char} {t : Tok} (hc : symbolTok c = some t) (h : Starts [c] ts) :
    ∃ ts', ts = t :: ts' := by
  cases ts with
  | nil => cases h
  | cons u ts =>
      refine ⟨ts, ?_⟩
      rw [← List.mem_singleton.mp h] at hc
      cases u <;> cases hc <;> rfl

theorem parseblock_sound {N : ℕ} (hnul : '\x00' ∉ str) (hlines : LinesBelow str N)
    (h : Rest str s (.lpar :: ts)) (hN : ts.length < N) :
    Total SyntaxError (parseblock (bufferOf str) str.length)
      (Parsed str .exec (.lpar :: ts)) s := by
  obtain ⟨b, s₁, hpeek, h₁, hb, -⟩ := h.peek hnul ['('] (by decide)
  rw [hb.mpr (List.mem_singleton.mpr rfl)] at hpeek
  obtain ⟨q, eq, s₂, htok, h₂, -⟩ := h₁.gettoken hnul
  refine .succ rfl (.step (.ok hpeek) (.step (.ok htok) (.bind (hlines ts s₂ hN h₂) ?_)))
  rintro cmd s₃ ⟨pre, post, t, rfl, hpre, h₃, hm⟩
  obtain ⟨b, s₄, hpeek, h₄, hb, -⟩ := h₃.peek hnul [')'] (by decide)
  by_cases hstart : Starts [')'] post
  · rw [hb.mpr hstart] at hpeek
    obtain ⟨post, rfl⟩ := starts_symbol rfl hstart
    obtain ⟨q, eq, s₅, htok, h₅, -⟩ := h₄.gettoken hnul
    refine .step (.ok hpeek) (.step (.ok htok) ((parseredirs_sound cmd h₅ hnul).mono ?_))
    rintro cmd' s₆ ⟨rts, post, rs, rfl, hrts, h₆, hm'⟩
    exact ⟨.lpar :: (pre ++ .rpar :: rts), post, _, by simp, .block hpre hrts, h₆, hm' t hm⟩
  · rw [(by simpa using mt hb.mp hstart : b = false)] at hpeek
    exact .step (.ok hpeek) (.of_fault (.fault rfl) (by simp [SyntaxError]))

theorem parseexec_sound {N : ℕ} (hnul : '\x00' ∉ str) (hlines : LinesBelow str N)
    (h : Rest str s ts) (hN : ts.length ≤ N) :
    Total SyntaxError (parse str .exec) (Parsed str .exec ts) s := by
  obtain ⟨b, s₁, hpeek, h₁, hb, -⟩ := h.peek hnul ['('] (by decide)
  by_cases hstart : Starts ['('] ts
  · rw [hb.mpr hstart] at hpeek
    obtain ⟨ts, rfl⟩ := starts_symbol rfl hstart
    exact .succ rfl (.step (.ok hpeek) (parseblock_sound hnul hlines h₁ hN))
  · rw [(by simpa using mt hb.mp hstart : b = false)] at hpeek
    refine .succ rfl (.step (.ok hpeek) (.bind (parseredirs_sound (.exec []) h₁ hnul) ?_))
    rintro ret s₂ ⟨rts, ts', rs, rfl, hrts, h₂, hm⟩
    refine (parseargs_sound 0 ret h₂ hnul (by decide)).mono ?_
    rintro cmd s₃ ⟨pre, post, rs', ws, rfl, hargs, hle, h₃, hm'⟩
    refine ⟨rts ++ pre, post, simple (rs ++ rs') ws, by simp, .simple hrts hargs (by omega), h₃, ?_⟩
    exact hm' rs [] (hm (.exec []) (.exec .nil))

theorem parsepipe_sound {N : ℕ} (hnul : '\x00' ∉ str) (hlines : LinesBelow str N)
    (h : Rest str s ts) (hN : ts.length ≤ N) :
    Total SyntaxError (parse str .pipe) (Parsed str .pipe ts) s := by
  induction hlen : ts.length using Nat.strong_induction_on generalizing ts s with
  | _ len ih =>
      refine .succ rfl (.bind (parseexec_sound hnul hlines h hN) ?_)
      rintro cmd s₁ ⟨pre, post, t, rfl, hpre, h₁, hm⟩
      obtain ⟨b, s₂, hpeek, h₂, hb, -⟩ := h₁.peek hnul ['|'] (by decide)
      by_cases hstart : Starts ['|'] post
      · rw [hb.mpr hstart] at hpeek
        obtain ⟨post, rfl⟩ := starts_symbol rfl hstart
        obtain ⟨q, eq, s₃, htok, h₃, -⟩ := h₂.gettoken hnul
        have hlt : post.length < len := by
          simp only [List.length_append, List.length_cons] at hlen
          omega
        refine .step (.ok hpeek) (.step (.ok htok) (.bind (ih _ hlt h₃ (by omega) rfl) ?_))
        rintro right s₄ ⟨pre', post, t', rfl, hpre', h₄, hm'⟩
        exact .of_ok (.ok rfl)
          ⟨pre ++ .bar :: pre', post, _, by simp, .pipe hpre hpre', h₄, .pipe hm hm'⟩
      · rw [(by simpa using mt hb.mp hstart : b = false)] at hpeek
        exact .step (.ok hpeek) (.of_ok (.ok rfl) ⟨pre, post, t, rfl, .exec hpre, h₂, hm⟩)

theorem linesBelow (hnul : '\x00' ∉ str) (N : ℕ) : LinesBelow str N := by
  induction N with
  | zero =>
      intro ts s hN
      omega
  | succ N ih =>
      intro ts s hN h
      refine .succ rfl (.bind (parsepipe_sound hnul ih h (by omega)) ?_)
      rintro cmd s₁ ⟨pre, rest, t, rfl, hpre, h₁, hm⟩
      obtain ⟨n, post, rfl, hpost⟩ := exists_amps rest
      obtain ⟨s₂, hends, h₂⟩ := parsebacks_ends cmd hnul h₁ hpost
      obtain ⟨b, s₃, hpeek, h₃, hb, -⟩ := h₂.peek hnul [';'] (by decide)
      refine .step hends ?_
      by_cases hstart : Starts [';'] post
      · rw [hb.mpr hstart] at hpeek
        obtain ⟨post, rfl⟩ := starts_symbol rfl hstart
        obtain ⟨q, eq, s₄, htok, h₄, -⟩ := h₃.gettoken hnul
        have hlt : post.length < N := by
          simp only [List.length_append, List.length_cons] at hN
          omega
        refine .step (.ok hpeek) (.step (.ok htok) (.bind (ih post s₄ hlt h₄) ?_))
        rintro right s₅ ⟨pre', post, t', rfl, hpre', h₅, hm'⟩
        exact .of_ok (.ok rfl) ⟨pre ++ List.replicate n .amp ++ .semi :: pre', post, _, by simp,
          .list hpre hpre', h₅, .list hm.backs hm'⟩
      · rw [(by simpa using mt hb.mp hstart : b = false)] at hpeek
        exact .step (.ok hpeek) (.of_ok (.ok rfl)
          ⟨pre ++ List.replicate n .amp, post, _, by simp, .line hpre, h₃, hm.backs⟩)

/-! ### What is derived is returned -/

/-- The symbols that may follow in a line. -/
def follow : Symbol → List Char
  | .line => [')']
  | .pipe => [')', '&', ';']
  | .exec => enders

def Follows (k : Symbol) (post : List Tok) : Prop := post = [] ∨ Starts (follow k) post

variable {post : List Tok}

/-- Where a list of tokens may end, it does not go on with other symbols. -/
theorem Follows.not_starts {k : Symbol} {toks : List Char}
    (h : Follows k post) (hdisj : toks.all (· ∉ follow k)) : ¬ Starts toks post := by
  rcases h with rfl | h
  · exact id
  · cases post with
    | nil => exact id
    | cons t post => exact fun h' => of_decide_eq_true (List.all_eq_true.mp hdisj _ h') h

theorem Follows.amps {n : ℕ} (h : Follows .line post) :
    Follows .pipe (List.replicate n .amp ++ post) := by
  cases n with
  | zero =>
      rcases h with rfl | h
      · exact .inl rfl
      · cases post with
        | nil => cases h
        | cons t post =>
            refine .inr (?_ : t.lead ∈ _)
            rw [List.mem_singleton.mp h]
            decide
  | succ n => exact .inr (by decide : Tok.amp.lead ∈ follow .pipe)

theorem Follows.exec (h : Follows .pipe post) : Follows .exec post := by
  refine h.imp_right fun h => ?_
  cases post with
  | nil => cases h
  | cons t post => exact (by decide : follow .pipe ⊆ follow .exec) h

theorem parse_complete {k : Symbol} {pre : List Tok} {t : Tree} (hd : Derives k pre t)
    (hnul : '\x00' ∉ str) (h : Rest str s (pre ++ post)) (hpost : Follows k post) :
    ∃ cmd s', Ends (parse str k) s (.ok cmd s') ∧ Rest str s' post ∧ Matches (At str) cmd t := by
  induction hd generalizing s post with
  | @simple rts ts rs rs' ws hrts hargs hlen =>
      rw [List.append_assoc] at h
      have hredirs : ¬ Starts ['<', '>'] (ts ++ post) :=
        not_starts_args hargs hpost (by decide) (by decide)
      have hparen : ¬ Starts ['('] (rts ++ (ts ++ post)) := by
        cases hrts with
        | nil =>
            exact (not_starts_args hargs hpost (by decide) (by decide) :
              ¬ Starts ['('] (ts ++ post))
        | @cons op _ _ _ _ _ hop _ =>
            intro hmem
            obtain ⟨_, heq⟩ := starts_symbol rfl hmem
            obtain rfl : op = .lpar := (List.cons.inj heq).1
            cases hop
      obtain ⟨b, s₁, hpeek, h₁, hb, -⟩ := h.peek hnul ['('] (by decide)
      rw [(by simpa using mt hb.mp hparen : b = false)] at hpeek
      obtain ⟨ret, s₂, hends, h₂, hm⟩ := parseredirs_complete (.exec []) hrts hnul h₁ hredirs
      obtain ⟨cmd, s₃, hends', h₃, hm'⟩ :=
        parseargs_complete 0 ret hargs hnul h₂ hpost (by omega)
      refine ⟨cmd, s₃, .succ rfl ((Ends.ok hpeek).bind (hends.bind hends')), h₃, ?_⟩
      exact hm' rs [] (hm (.exec []) (.exec .nil))
  | @block ts rts t rs hts hrts ih =>
      simp only [List.cons_append, List.append_assoc] at h
      obtain ⟨b, s₁, hpeek, h₁, hb, -⟩ := h.peek hnul ['('] (by decide)
      rw [hb.mpr (List.mem_singleton.mpr rfl)] at hpeek
      obtain ⟨b, s₂, hpeek', h₂, hb, -⟩ := h₁.peek hnul ['('] (by decide)
      rw [hb.mpr (List.mem_singleton.mpr rfl)] at hpeek'
      obtain ⟨q, eq, s₃, htok, h₃, -⟩ := h₂.gettoken hnul
      obtain ⟨cmd, s₄, hends, h₄, hm⟩ := ih h₃ (.inr (List.mem_singleton.mpr rfl))
      obtain ⟨b, s₅, hpeek'', h₅, hb, -⟩ := h₄.peek hnul [')'] (by decide)
      rw [hb.mpr (List.mem_singleton.mpr rfl)] at hpeek''
      obtain ⟨q, eq, s₆, htok', h₆, -⟩ := h₅.gettoken hnul
      obtain ⟨cmd', s₇, hends', h₇, hm'⟩ :=
        parseredirs_complete cmd hrts hnul h₆ (hpost.not_starts (by decide))
      refine ⟨cmd', s₇, .succ rfl ((Ends.ok hpeek).bind (.succ rfl ?_)), h₇, hm' t hm⟩
      exact (Ends.ok hpeek').bind ((Ends.ok htok).bind (hends.bind
        ((Ends.ok hpeek'').bind ((Ends.ok htok').bind hends'))))
  | exec _ ih =>
      obtain ⟨cmd, s₁, hends, h₁, hm⟩ := ih h hpost.exec
      obtain ⟨b, s₂, hpeek, h₂, hb, -⟩ := h₁.peek hnul ['|'] (by decide)
      rw [(by simpa using mt hb.mp (hpost.not_starts (by decide)) : b = false)] at hpeek
      exact ⟨cmd, s₂, .succ rfl (hends.bind ((Ends.ok hpeek).bind (.ok rfl))), h₂, hm⟩
  | @pipe ts ts' t t' _ _ ih ih' =>
      rw [List.append_assoc, List.cons_append] at h
      obtain ⟨cmd, s₁, hends, h₁, hm⟩ := ih h (.inr (by decide : Tok.bar.lead ∈ follow .exec))
      obtain ⟨b, s₂, hpeek, h₂, hb, -⟩ := h₁.peek hnul ['|'] (by decide)
      rw [hb.mpr (List.mem_singleton.mpr rfl)] at hpeek
      obtain ⟨q, eq, s₃, htok, h₃, -⟩ := h₂.gettoken hnul
      obtain ⟨right, s₄, hends', h₄, hm'⟩ := ih' h₃ hpost
      refine ⟨.pipe cmd right, s₄, .succ rfl ?_, h₄, .pipe hm hm'⟩
      exact hends.bind ((Ends.ok hpeek).bind ((Ends.ok htok).bind (hends'.bind (.ok rfl))))
  | @line ts t n _ ih =>
      rw [List.append_assoc] at h
      obtain ⟨cmd, s₁, hends, h₁, hm⟩ := ih h hpost.amps
      obtain ⟨s₂, hbacks, h₂⟩ := parsebacks_ends cmd hnul h₁ (hpost.not_starts (by decide))
      obtain ⟨b, s₃, hpeek, h₃, hb, -⟩ := h₂.peek hnul [';'] (by decide)
      rw [(by simpa using mt hb.mp (hpost.not_starts (by decide)) : b = false)] at hpeek
      refine ⟨_, s₃, .succ rfl ?_, h₃, hm.backs⟩
      exact hends.bind (hbacks.bind ((Ends.ok hpeek).bind (.ok rfl)))
  | @list ts ts' t t' n _ _ ih ih' =>
      rw [List.append_assoc, List.append_assoc, List.cons_append] at h
      have hsemi : Follows .pipe (.semi :: (ts' ++ post)) :=
        .inr (by decide : Tok.semi.lead ∈ follow .pipe)
      have hamps : Follows .pipe (List.replicate n .amp ++ .semi :: (ts' ++ post)) := by
        cases n with
        | zero => exact hsemi
        | succ n => exact .inr (by decide : Tok.amp.lead ∈ follow .pipe)
      obtain ⟨cmd, s₁, hends, h₁, hm⟩ := ih h hamps
      obtain ⟨s₂, hbacks, h₂⟩ := parsebacks_ends cmd hnul h₁
        (by decide : Tok.semi.lead ∉ ['&'])
      obtain ⟨b, s₃, hpeek, h₃, hb, -⟩ := h₂.peek hnul [';'] (by decide)
      rw [hb.mpr (List.mem_singleton.mpr rfl)] at hpeek
      obtain ⟨q, eq, s₄, htok, h₄, -⟩ := h₃.gettoken hnul
      obtain ⟨right, s₅, hends', h₅, hm'⟩ := ih' h₄ hpost
      refine ⟨_, s₅, .succ rfl ?_, h₅, .list hm.backs hm'⟩
      exact hends.bind (hbacks.bind ((Ends.ok hpeek).bind ((Ends.ok htok).bind
        (hends'.bind (.ok rfl)))))

/-! ### The words of the command -/

theorem At.nul_not_mem {p : ℕ × ℕ} {w : List Char} (hat : At str p w) (hnul : '\x00' ∉ str) :
    '\x00' ∉ w := by
  intro hmem
  obtain ⟨i, hi, hw⟩ := List.getElem_of_mem hmem
  have hlt : p.1 + i < str.length := by
    have := hat.bound
    have := hat.fits
    omega
  have htext := hat.text i hi
  rw [hw, bufferOf_lt hlt] at htext
  exact hnul (htext ▸ List.getElem_mem hlt)

/-- No NUL is stored into a word. -/
theorem At.ne_end {p p' : ℕ × ℕ} {w w' : List Char} (hat : At str p w) (hat' : At str p' w')
    {i : ℕ} (hi : i < w.length) : p.1 + i ≠ p'.2 := by
  intro heq
  have hlt : p'.2 < str.length := by
    have := hat.bound
    have := hat.fits
    omega
  have hstop := hat'.stop hlt
  rw [← heq, hat.text i hi, hat.chars _ (List.getElem_mem hi)] at hstop
  cases hstop

theorem matches_nulterminate {cmd : Cmd} {t : Tree} (hm : Matches (At str) cmd t)
    (hnul : '\x00' ∉ str) :
    Matches (fun p => CString (nulterminate cmd (bufferOf str)) p.1) cmd t := by
  refine hm.imp fun p w hp hat => ⟨hat.nul_not_mem hnul, fun i hi => ?_, ?_⟩
  · rw [nulterminate_apply, if_neg, hat.text i hi]
    intro hmem
    obtain ⟨q, w', hat'⟩ := hm.exists_of_mem_ends hmem
    exact hat.ne_end hat' hi rfl
  · rw [nulterminate_apply, ← hat.fits, if_pos hp]

/-! ### The parser -/

theorem rest_zero (str : List Char) : Rest str 0 (tokens str) := ⟨Nat.zero_le _, rfl⟩

/-- For every string, `parsecmd` ends. If the tokens of the string are a
line of the grammar, it returns the tree of the derivation, which is the
only one, and every word of the command, read in the buffer up to its NUL,
is the text of its token; otherwise it reports a syntax error. -/
theorem parsecmd_exact (hnul : '\x00' ∉ str) :
    (∃ t cmd buf s, Ends (parsecmd str) 0 (.ok (cmd, buf) s) ∧ Derives .line (tokens str) t ∧
      (∀ t', Derives .line (tokens str) t' → t' = t) ∧ Matches (fun p => CString buf p.1) cmd t) ∨
    (∀ t, ¬ Derives .line (tokens str) t) ∧
      ∃ e, Ends (parsecmd str) 0 (.fault e) ∧ SyntaxError e := by
  have hlines := linesBelow hnul _ (tokens str) 0 (Nat.lt_succ_self _) (rest_zero str)
  -- whatever is derived is what the parser returns
  have hcomplete : ∀ t, Derives .line (tokens str) t → ∃ cmd s', Ends (parse str .line) 0
      (.ok cmd s') ∧ Rest str s' [] ∧ Matches (At str) cmd t := by
    intro t ht
    have hrest := rest_zero str
    rw [← List.append_nil (tokens str)] at hrest
    exact parse_complete ht hnul hrest (.inl rfl)
  obtain ⟨o, ho, hout⟩ := hlines
  cases o with
  | stuck => exact hout.elim
  | fault e =>
      refine .inr ⟨fun t ht => ?_, e, ho.bind_fault, hout⟩
      obtain ⟨cmd, s', hends, -⟩ := hcomplete t ht
      cases ho.unique hends
  | ok cmd s₁ =>
      obtain ⟨pre, post, t, hts, hpre, h₁, hm⟩ := hout
      obtain ⟨b, s₂, hpeek, h₂, -, hend⟩ := h₁.peek hnul [] (by simp)
      cases post with
      | nil =>
          rw [List.append_nil] at hts
          subst hts
          refine .inl ⟨t, cmd, _, s₂, ?_, hpre, fun t' ht' => ?_, matches_nulterminate hm hnul⟩
          · refine ho.bind ((Ends.ok hpeek).bind ((Ends.ok rfl).bind ?_))
            simp only [hend.mpr rfl, ne_eq, not_true_eq_false, if_false]
            exact .ok rfl
          · obtain ⟨cmd', s', hends, -, hm'⟩ := hcomplete t' ht'
            obtain ⟨rfl, rfl⟩ := Outcome.ok.inj (hends.unique ho)
            refine Matches.unique ?_ (matches_nulterminate hm' hnul) (matches_nulterminate hm hnul)
            exact fun _ _ _ hv hw => hv.unique hw
      | cons u post =>
          refine .inr ⟨fun t' ht' => ?_, "syntax", ?_, by simp [SyntaxError]⟩
          · obtain ⟨cmd', s', hends, hrest, -⟩ := hcomplete t' ht'
            obtain ⟨rfl, rfl⟩ := Outcome.ok.inj (hends.unique ho)
            have hnil := hrest.tokens
            rw [h₁.tokens] at hnil
            cases hnil
          · refine ho.bind ((Ends.ok hpeek).bind ((Ends.ok rfl).bind ?_))
            have hne : ¬ s₂ = str.length := fun heq => by cases hend.mp heq
            simp only [hne, ne_eq, not_false_eq_true, if_true]
            exact .fault rfl

/-- A line with all the symbols. -/
def sample : List Char := "(a<b|c >> d e)>f & ; g".toList

theorem parsecmd_exact_sample : '\x00' ∉ sample ∧
    ∃ t cmd buf s, Ends (parsecmd sample) 0 (.ok (cmd, buf) s) ∧
      Derives .line (tokens sample) t ∧ Matches (fun p => CString buf p.1) cmd t := by
  have hnul : '\x00' ∉ sample := by decide
  refine ⟨hnul, ?_⟩
  rcases parsecmd_exact hnul with ⟨t, cmd, buf, s, hends, ht, -, hm⟩ | ⟨-, e, hends, -⟩
  · exact ⟨t, cmd, buf, s, hends, ht, hm⟩
  · have hok : (match parsecmd sample 20 0 with
        | .ok _ _ => true
        | _ => false) = true := by decide +kernel
    split at hok
    · rename_i heq
      cases hends.eq_of_ok heq
    · cases hok

end Xv6.Sh
