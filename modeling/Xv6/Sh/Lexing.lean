import Xv6.Sh.Grammar

/-!
What `peek` and `gettoken` see of a string.

The cursor stands for the tokens that are still to come (`Rest`). `peek`
does not change them, and tells whether the first one begins with one of
the given characters; `gettoken` takes the first one off, and returns
where it stands in the buffer.
-/

namespace Xv6.Sh

open Lib

variable {str : List Char} {s : ℕ} {ts : List Tok}

/-- The tokens from the cursor on. -/
structure Rest (str : List Char) (s : ℕ) (ts : List Tok) : Prop where
  le : s ≤ str.length
  tokens : tokens (str.drop s) = ts

/-- The two addresses enclose the word `w`, all of it. -/
structure At (str : List Char) (p : ℕ × ℕ) (w : List Char) : Prop where
  fits : p.2 = p.1 + w.length
  bound : p.2 ≤ str.length
  text : ∀ i (hi : i < w.length), bufferOf str (p.1 + i) = w[i]
  chars : ∀ c ∈ w, isWord c = true
  stop : p.2 < str.length → isWord (bufferOf str p.2) = false

/-- What `gettoken` returns for a token. -/
def Tok.code : Tok → Char
  | .lt => '<'
  | .gt => '>'
  | .gtgt => '+'
  | .bar => '|'
  | .amp => '&'
  | .semi => ';'
  | .lpar => '('
  | .rpar => ')'
  | .word _ => 'a'

/-- The first character of a symbol. -/
def Tok.lead : Tok → Char
  | .gtgt => '>'
  | tok => tok.code

/-- The next token is a symbol that begins with one of the characters. -/
def Starts (toks : List Char) : List Tok → Prop
  | [] => False
  | t :: _ => t.lead ∈ toks

instance (toks : List Char) : DecidablePred (Starts toks)
  | [] => isFalse id
  | t :: _ => inferInstanceAs (Decidable (t.lead ∈ toks))

/-! ### Blanks and runs of characters -/

theorem bufferOf_lt (hs : s < str.length) : bufferOf str s = str[s] := by
  simp [bufferOf, hs]

theorem bufferOf_length : bufferOf str str.length = '\x00' := by
  simp [bufferOf]

theorem skipWhile_eq (p : Char → Bool) (hs : s ≤ str.length) :
    skipWhile p (bufferOf str) (str.length - s) s = s + ((str.drop s).takeWhile p).length := by
  generalize hn : str.length - s = n
  induction n generalizing s with
  | zero =>
      rw [List.drop_eq_nil_of_le (by omega)]
      rfl
  | succ n ih =>
      have hlt : s < str.length := by omega
      rw [skipWhile, bufferOf_lt hlt, List.drop_eq_getElem_cons hlt, List.takeWhile_cons]
      split
      · rw [ih (by omega) (by omega), List.length_cons]
        omega
      · rfl

theorem skipWhile_le (p : Char → Bool) (hs : s ≤ str.length) :
    skipWhile p (bufferOf str) (str.length - s) s ≤ str.length := by
  rw [skipWhile_eq p hs]
  have := (List.takeWhile_sublist p (l := str.drop s)).length_le
  rw [List.length_drop] at this
  omega

theorem drop_skipWhile (p : Char → Bool) (hs : s ≤ str.length) :
    str.drop (skipWhile p (bufferOf str) (str.length - s) s) = (str.drop s).dropWhile p := by
  rw [skipWhile_eq p hs, ← List.drop_drop]
  generalize str.drop s = l
  calc l.drop (l.takeWhile p).length
      = (l.takeWhile p ++ l.dropWhile p).drop (l.takeWhile p).length := by
        rw [List.takeWhile_append_dropWhile]
    _ = l.dropWhile p := List.drop_left

theorem tokens_dropWhile (l : List Char) : tokens (l.dropWhile isBlank) = tokens l := by
  induction l with
  | nil => rfl
  | cons c l ih =>
      rw [List.dropWhile_cons]
      split
      · rename_i hc
        rw [ih, tokens, if_pos hc]
      · rfl

/-- Blanks before a token do not matter. -/
theorem Rest.skip (h : Rest str s ts) :
    Rest str (skipWhile isBlank (bufferOf str) (str.length - s) s) ts where
  le := skipWhile_le isBlank h.le
  tokens := by rw [drop_skipWhile isBlank h.le, tokens_dropWhile, h.tokens]

/-- Where blanks have been skipped, the string is at its end or at a
character that is not blank. -/
theorem skip_stops (hs : s ≤ str.length) (q : ℕ)
    (hq : q = skipWhile isBlank (bufferOf str) (str.length - s) s) :
    q = str.length ∨ ∃ hlt : q < str.length, isBlank str[q] = false := by
  have hle : q ≤ str.length := hq ▸ skipWhile_le isBlank hs
  have hdrop : str.drop q = (str.drop s).dropWhile isBlank := hq ▸ drop_skipWhile isBlank hs
  rcases Nat.lt_or_ge q str.length with hlt | hge
  · refine .inr ⟨hlt, ?_⟩
    have hne : str.drop q ≠ [] := by
      rw [List.drop_eq_getElem_cons hlt]
      exact List.cons_ne_nil _ _
    have hhead := List.head_dropWhile_not isBlank (hdrop ▸ hne)
    simp only [← hdrop, List.head_drop] at hhead
    exact hhead
  · exact .inl (by omega)

/-! ### peek -/

theorem tokens_lead {c : Char} (cs : List Char) (hc : isBlank c = false) :
    ∃ t ts, tokens (c :: cs) = t :: ts ∧ (t.lead = c ∨ isWord c = true ∧ t.lead = 'a') := by
  rw [tokens, if_neg (by simp [hc])]
  split
  · rename_i hgt
    subst hgt
    split
    · exact ⟨_, _, rfl, .inl rfl⟩
    · exact ⟨_, _, rfl, .inl rfl⟩
  · rename_i hgt
    split
    · rename_i t hsym
      refine ⟨_, _, rfl, .inl ?_⟩
      unfold symbolTok at hsym
      split at hsym <;> first | (obtain rfl := Option.some.inj hsym; rfl) | cases hsym
    · rename_i hsym
      refine ⟨_, _, rfl, .inr ⟨?_, rfl⟩⟩
      simp only [isBlank] at hc
      unfold symbolTok at hsym
      split at hsym <;> simp_all [isWord, symbols]

theorem tokens_eq_nil_iff (hs : s ≤ str.length) (q : ℕ)
    (hq : q = skipWhile isBlank (bufferOf str) (str.length - s) s) :
    q = str.length ↔ tokens (str.drop s) = [] := by
  have hdrop : tokens (str.drop q) = tokens (str.drop s) := by
    rw [hq, drop_skipWhile isBlank hs, tokens_dropWhile]
  rw [← hdrop]
  rcases skip_stops hs q hq with rfl | ⟨hlt, hc⟩
  · simp [tokens]
  · obtain ⟨t, ts, ht, -⟩ := tokens_lead (str.drop (q + 1)) hc
    rw [List.drop_eq_getElem_cons hlt, ht]
    simp only [reduceCtorEq, iff_false]
    omega

theorem symbols_not_word {c : Char} (hc : c ∈ symbols) : isWord c = false ∧ c ≠ 'a' := by
  have hall : symbols.all fun c => !isWord c && c != 'a' := by decide
  simpa using List.all_eq_true.mp hall c hc

theorem Rest.peek (h : Rest str s ts) (hnul : '\x00' ∉ str) (toks : List Char)
    (htoks : toks ⊆ symbols) :
    ∃ b s', peek (bufferOf str) str.length toks s = .ok b s' ∧ Rest str s' ts ∧
      (b = true ↔ Starts toks ts) ∧ (s' = str.length ↔ ts = []) := by
  refine ⟨_, _, rfl, h.skip, ?_, ?_⟩
  · rw [decide_eq_true_iff, ← h.tokens]
    have hdrop := drop_skipWhile isBlank h.le
    rcases skip_stops h.le _ rfl with hend | ⟨hlt, hc⟩
    · have hnil := (tokens_eq_nil_iff h.le _ rfl).mp hend
      rw [hnil, hend, bufferOf_length]
      simp [Starts]
    · obtain ⟨t, ts', ht, hlead⟩ := tokens_lead
        (str.drop (skipWhile isBlank (bufferOf str) (str.length - s) s + 1)) hc
      rw [← List.drop_eq_getElem_cons hlt, hdrop, tokens_dropWhile] at ht
      rw [ht, bufferOf_lt hlt]
      have hne : str[skipWhile isBlank (bufferOf str) (str.length - s) s] ≠ '\x00' :=
        fun h0 => hnul (h0 ▸ List.getElem_mem hlt)
      simp only [hne, ne_eq, not_false_eq_true, List.contains_iff_mem, true_and, Starts]
      rcases hlead with hlead | ⟨hword, hlead⟩
      · rw [hlead]
      · have hno : ∀ c ∈ toks, isWord c = false ∧ c ≠ 'a' := fun c hc => symbols_not_word (htoks hc)
        rw [hlead]
        constructor
        · exact fun hmem => absurd hword (by rw [(hno _ hmem).1]; decide)
        · exact fun hmem => absurd rfl (hno _ hmem).2
  · rw [← h.tokens]
    exact tokens_eq_nil_iff h.le _ rfl

/-! ### gettoken -/

theorem symbolTok_spec {c : Char} {t : Tok} (h : symbolTok c = some t) :
    isBlank c = false ∧ c ≠ '>' ∧ t.code = c ∧ ∀ w, t ≠ .word w := by
  unfold symbolTok at h
  split at h
  case h_7 => cases h
  all_goals
    cases h
    exact ⟨by decide, by decide, rfl, fun w => by simp⟩

theorem tokens_symbol {c : Char} {t : Tok} (cs : List Char) (h : symbolTok c = some t) :
    tokens (c :: cs) = t :: tokens cs := by
  obtain ⟨hblank, hgt, -⟩ := symbolTok_spec h
  rw [tokens, if_neg (by simp [hblank]), if_neg hgt, h]

theorem tokens_word {c : Char} (cs : List Char) (hc : isWord c = true) : tokens (c :: cs) =
      .word ((c :: cs).takeWhile isWord) :: tokens ((c :: cs).dropWhile isWord) := by
  have hc' := hc
  simp only [isWord, Bool.and_eq_true, Bool.not_eq_true'] at hc'
  have hgt : c ≠ '>' := by
    rintro rfl
    simp [symbols] at hc'
  have hsym : symbolTok c = none := by
    unfold symbolTok
    split <;> first | rfl | simp [symbols] at hc'
  rw [tokens, if_neg (by rw [isBlank, hc'.1]; decide), if_neg hgt, hsym, List.takeWhile_cons_of_pos hc,
    List.dropWhile_cons_of_pos hc]

/-- A word from `q` up to where its characters end. -/
theorem at_word {q : ℕ} (hq : q ≤ str.length) :
    At str (q, skipWhile isWord (bufferOf str) (str.length - q) q)
      ((str.drop q).takeWhile isWord) := by
  have heq := skipWhile_eq isWord hq
  have hle := skipWhile_le isWord hq
  refine ⟨heq, hle, fun i hi => ?_, fun c hc => List.mem_takeWhile_imp hc, fun hlt => ?_⟩
  · have hlen : q + i < str.length := by
      rw [heq] at hle
      omega
    have hpre := List.takeWhile_prefix isWord (l := str.drop q)
    rw [hpre.getElem hi, List.getElem_drop, bufferOf_lt hlen]
  · have hdrop := drop_skipWhile isWord hq
    have hne : str.drop (skipWhile isWord (bufferOf str) (str.length - q) q) ≠ [] := by
      rw [List.drop_eq_getElem_cons hlt]
      exact List.cons_ne_nil _ _
    have hhead := List.head_dropWhile_not isWord (hdrop ▸ hne)
    simp only [← hdrop, List.head_drop] at hhead
    rw [bufferOf_lt hlt]
    exact hhead

/-- The switch of `gettoken`, at a character that is not blank. -/
theorem switch_spec {q : ℕ} (hnul : '\x00' ∉ str) (hq : q < str.length)
    (hblank : isBlank str[q] = false) :
    ∃ t ts eq, tokens (str.drop q) = t :: ts ∧ switch (bufferOf str) str.length q = (t.code, eq) ∧
      Rest str eq ts ∧ ∀ w, t = .word w → At str (q, eq) w := by
  have hdrop := List.drop_eq_getElem_cons hq
  have hbuf := bufferOf_lt hq
  unfold switch
  split
  case h_1 heq => exact absurd (heq ▸ hbuf ▸ List.getElem_mem hq) hnul
  case h_8 heq =>
    -- one or two `>`
    rw [hbuf] at heq
    have hiff : (str.drop (q + 1)).head? = some '>' ↔ bufferOf str (q + 1) = '>' := by
      rw [List.head?_drop, bufferOf, List.getD_eq_getElem?_getD]
      cases str[q + 1]? with
      | none => simp
      | some c => simp
    rw [hdrop, heq, tokens, if_neg (by decide), if_pos rfl]
    by_cases hgt : bufferOf str (q + 1) = '>'
    · rw [if_pos (hiff.mpr hgt), if_pos hgt]
      refine ⟨_, _, q + 2, rfl, rfl, ⟨?_, by rw [List.tail_drop]⟩, fun w hw => by simp at hw⟩
      by_contra hlen
      rw [show q + 1 = str.length by omega, bufferOf_length] at hgt
      exact absurd hgt (by decide)
    · rw [if_neg (fun h => hgt (hiff.mp h)), if_neg hgt]
      exact ⟨_, _, q + 1, rfl, rfl, ⟨by omega, rfl⟩, fun w hw => by simp at hw⟩
  case h_9 =>
    have hword : isWord str[q] = true := by
      simp only [isBlank] at hblank
      simp_all [isWord, symbols]
    rw [hdrop, tokens_word _ hword, ← hdrop]
    refine ⟨_, _, _, rfl, rfl, ⟨skipWhile_le isWord (by omega), ?_⟩, fun w hw => ?_⟩
    · rw [drop_skipWhile isWord (by omega)]
    · obtain rfl := Tok.word.inj hw
      exact at_word (by omega)
  all_goals
    rename_i heq
    rw [hbuf] at heq
    rw [hdrop, heq, tokens_symbol _ rfl]
    exact ⟨_, _, q + 1, rfl, rfl, ⟨by omega, rfl⟩, fun w hw => by simp at hw⟩

theorem Rest.gettoken {t : Tok} (h : Rest str s (t :: ts)) (hnul : '\x00' ∉ str) :
    ∃ q eq s', Sh.gettoken (bufferOf str) str.length s = .ok (t.code, q, eq) s' ∧ Rest str s' ts ∧
      ∀ w, t = .word w → At str (q, eq) w := by
  have hskip := h.skip
  rcases skip_stops h.le _ rfl with hend | ⟨hlt, hblank⟩
  · have hnil := (tokens_eq_nil_iff h.le _ rfl).mp hend
    rw [h.tokens] at hnil
    cases hnil
  · obtain ⟨t', ts', eq, htok, hsw, hrest, hat⟩ := switch_spec hnul hlt hblank
    rw [hskip.tokens] at htok
    obtain ⟨rfl, rfl⟩ := List.cons.inj htok
    refine ⟨_, eq, _, ?_, hrest.skip, hat⟩
    simp only [Sh.gettoken, hsw]

theorem Rest.gettoken_nil (h : Rest str s []) :
    ∃ q eq s', Sh.gettoken (bufferOf str) str.length s = .ok ('\x00', q, eq) s' ∧ Rest str s' [] := by
  have hend := (tokens_eq_nil_iff h.le _ rfl).mpr h.tokens
  have hrest := h.skip.skip
  rw [hend] at hrest
  refine ⟨str.length, str.length, _, ?_, hrest⟩
  simp only [Sh.gettoken, hend, switch, bufferOf_length]

end Xv6.Sh
