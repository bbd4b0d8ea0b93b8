import Xv6.Sh.Parser

/-!
The language of the shell.

A line is a sequence of tokens, and the tokens of a command line derive
from the grammar

    line   ::= pipe {'&'} [';' line]
    pipe   ::= exec ['|' pipe]
    exec   ::= '(' line ')' redirs | redirs {word redirs}
    redirs ::= {('<' | '>' | '>>') word}

with at most `MAXARGS - 1` words in one `exec`. `Derives` is this grammar
as a relation between sequences of tokens and trees; the words of a tree
are texts, not addresses. `Matches` says that a command of the parser is
such a tree, given what it means for a pair of addresses to stand for a
text.
-/

namespace Xv6.Sh

inductive Tok where
  | lt | gt | gtgt | bar | amp | semi | lpar | rpar
  | word (text : List Char)
  deriving DecidableEq, Repr

/-! ### The tokens of a string -/

/-- The symbols other than `>`, which may be doubled. -/
def symbolTok : Char → Option Tok
  | '<' => some .lt
  | '|' => some .bar
  | '&' => some .amp
  | ';' => some .semi
  | '(' => some .lpar
  | ')' => some .rpar
  | _ => none

/-- Blanks separate tokens; a word is a maximal run of other characters
that are not symbols. -/
def tokens : List Char → List Tok
  | [] => []
  | c :: cs =>
      if isBlank c then tokens cs
      else if c = '>' then
        if cs.head? = some '>' then .gtgt :: tokens cs.tail else .gt :: tokens cs
      else
        match symbolTok c with
        | some tok => tok :: tokens cs
        | none => .word (c :: cs.takeWhile isWord) :: tokens (cs.dropWhile isWord)
termination_by cs => cs.length
decreasing_by
  all_goals
    simp only [List.length_cons]
    first
      | omega
      | exact Nat.lt_succ_of_le (List.tail_sublist _).length_le
      | exact Nat.lt_succ_of_le (List.dropWhile_sublist _).length_le

/-! ### The grammar -/

inductive Tree where
  | exec (words : List (List Char))
  | redir (sub : Tree) (file : List Char) (mode fd : ℕ)
  | pipe (left right : Tree)
  | list (left right : Tree)
  | back (sub : Tree)
  deriving DecidableEq, Repr

structure Redir where
  file : List Char
  mode : ℕ
  fd : ℕ

def Tree.wrap (t : Tree) (r : Redir) : Tree := .redir t r.file r.mode r.fd

/-- How a redirection symbol opens its file, and the descriptor it is for. -/
def Tok.redirect : Tok → Option (ℕ × ℕ)
  | .lt => some (oRdonly, 0)
  | .gt => some (oWronlyCreate, 1)
  | .gtgt => some (oWronlyCreate, 1)
  | _ => none

inductive Redirs : List Tok → List Redir → Prop where
  | nil : Redirs [] []
  | cons {op : Tok} {w : List Char} {mode fd : ℕ} {ts : List Tok} {rs : List Redir}
      (hop : op.redirect = some (mode, fd)) (hts : Redirs ts rs) :
      Redirs (op :: .word w :: ts) (⟨w, mode, fd⟩ :: rs)

/-- `{word redirs}` -/
inductive Args : List Tok → List (List Char) → List Redir → Prop where
  | nil : Args [] [] []
  | cons {w : List Char} {rts ts : List Tok} {rs rs' : List Redir} {ws : List (List Char)}
      (hrts : Redirs rts rs) (hts : Args ts ws rs') :
      Args (.word w :: (rts ++ ts)) (w :: ws) (rs ++ rs')

/-- A simple command: the redirections are applied from the inside out, in
the order in which they stand on the line. -/
def simple (rs : List Redir) (ws : List (List Char)) : Tree := rs.foldl Tree.wrap (.exec ws)

inductive Symbol where
  | line | pipe | exec
  deriving DecidableEq

/-- The symbol of the grammar derives the tokens, and the tree is that of
the derivation. -/
inductive Derives : Symbol → List Tok → Tree → Prop where
  | simple {rts ts : List Tok} {rs rs' : List Redir} {ws : List (List Char)}
      (hrts : Redirs rts rs) (hts : Args ts ws rs') (hlen : ws.length ≤ maxargs - 1) :
      Derives .exec (rts ++ ts) (simple (rs ++ rs') ws)
  | block {ts rts : List Tok} {t : Tree} {rs : List Redir}
      (hts : Derives .line ts t) (hrts : Redirs rts rs) :
      Derives .exec (.lpar :: (ts ++ .rpar :: rts)) (rs.foldl Tree.wrap t)
  | exec {ts : List Tok} {t : Tree} (hts : Derives .exec ts t) : Derives .pipe ts t
  | pipe {ts ts' : List Tok} {t t' : Tree} (hts : Derives .exec ts t)
      (hts' : Derives .pipe ts' t') : Derives .pipe (ts ++ .bar :: ts') (.pipe t t')
  | line {ts : List Tok} {t : Tree} {n : ℕ} (hts : Derives .pipe ts t) :
      Derives .line (ts ++ List.replicate n .amp) (Tree.back^[n] t)
  | list {ts ts' : List Tok} {t t' : Tree} {n : ℕ} (hts : Derives .pipe ts t)
      (hts' : Derives .line ts' t') :
      Derives .line (ts ++ List.replicate n .amp ++ .semi :: ts') (.list (Tree.back^[n] t) t')

/-! ### Commands and trees -/

/-- The command is the tree, when addresses stand for texts according to
`R`. -/
inductive Matches (R : ℕ × ℕ → List Char → Prop) : Cmd → Tree → Prop where
  | exec {argv : List (ℕ × ℕ)} {ws : List (List Char)} (h : List.Forall₂ R argv ws) :
      Matches R (.exec argv) (.exec ws)
  | redir {cmd : Cmd} {t : Tree} {q eq mode fd : ℕ} {w : List Char} (hcmd : Matches R cmd t)
      (hw : R (q, eq) w) : Matches R (.redir cmd q eq mode fd) (.redir t w mode fd)
  | pipe {cmd cmd' : Cmd} {t t' : Tree} (h : Matches R cmd t) (h' : Matches R cmd' t') :
      Matches R (.pipe cmd cmd') (.pipe t t')
  | list {cmd cmd' : Cmd} {t t' : Tree} (h : Matches R cmd t) (h' : Matches R cmd' t') :
      Matches R (.list cmd cmd') (.list t t')
  | back {cmd : Cmd} {t : Tree} (h : Matches R cmd t) : Matches R (.back cmd) (.back t)

/-- The addresses behind the words of a command. -/
def Cmd.ends : Cmd → List ℕ
  | .exec argv => argv.map Prod.snd
  | .redir cmd _ efile _ _ => efile :: cmd.ends
  | .pipe left right => left.ends ++ right.ends
  | .list left right => left.ends ++ right.ends
  | .back cmd => cmd.ends

theorem foldl_nul (argv : List (ℕ × ℕ)) (buf : ℕ → Char) (i : ℕ) :
    argv.foldl (fun buf arg => Function.update buf arg.2 '\x00') buf i =
      if i ∈ argv.map Prod.snd then '\x00' else buf i := by
  induction argv generalizing buf with
  | nil => rfl
  | cons arg argv ih =>
      rw [List.foldl_cons, ih, Function.update_apply]
      simp only [List.map_cons, List.mem_cons, or_comm (a := i = arg.2), ite_or]

/-- `nulterminate` stores a NUL behind every word, and nothing else. -/
theorem nulterminate_apply (cmd : Cmd) (buf : ℕ → Char) (i : ℕ) :
    nulterminate cmd buf i = if i ∈ cmd.ends then '\x00' else buf i := by
  induction cmd generalizing buf with
  | exec argv => exact foldl_nul argv buf i
  | redir cmd q e mode fd ih =>
      simp only [nulterminate, Cmd.ends, Function.update_apply, ih, List.mem_cons, ite_or]
  | pipe left right ih ih' =>
      simp only [nulterminate, Cmd.ends, ih, ih', List.mem_append, or_comm (a := i ∈ left.ends),
        ite_or]
  | list left right ih ih' =>
      simp only [nulterminate, Cmd.ends, ih, ih', List.mem_append, or_comm (a := i ∈ left.ends),
        ite_or]
  | back cmd ih => exact ih buf

/-- The string at `q` in the buffer, read up to its NUL. -/
def CString (buf : ℕ → Char) (q : ℕ) (w : List Char) : Prop :=
  '\x00' ∉ w ∧ (∀ i (hi : i < w.length), buf (q + i) = w[i]) ∧ buf (q + w.length) = '\x00'

theorem CString.unique {buf : ℕ → Char} {q : ℕ} {v w : List Char} (hv : CString buf q v)
    (hw : CString buf q w) : v = w := by
  obtain ⟨hvn, hvc, hve⟩ := hv
  obtain ⟨hwn, hwc, hwe⟩ := hw
  have hlen : v.length = w.length := by
    rcases Nat.lt_trichotomy v.length w.length with hlt | heq | hlt
    · have hc := hwc v.length hlt
      rw [hve] at hc
      exact absurd (hc ▸ List.getElem_mem hlt) hwn
    · exact heq
    · have hc := hvc w.length hlt
      rw [hwe] at hc
      exact absurd (hc ▸ List.getElem_mem hlt) hvn
  refine List.ext_getElem hlen fun i hi hi' => ?_
  rw [← hvc i hi, ← hwc i hi']

namespace Matches

variable {R R' : ℕ × ℕ → List Char → Prop} {cmd : Cmd} {t t' : Tree}

/-- The addresses of a command may be read in another way. -/
theorem imp (h : Matches R cmd t) (hR : ∀ p w, p.2 ∈ cmd.ends → R p w → R' p w) :
    Matches R' cmd t := by
  induction h with
  | @exec argv ws h =>
      refine .exec ?_
      have hargs : ∀ p ∈ argv, ∀ w, R p w → R' p w :=
        fun p hp w => hR p w (List.mem_map.mpr ⟨p, hp, rfl⟩)
      clear hR
      induction h with
      | nil => exact .nil
      | cons hw _ ih =>
          exact .cons (hargs _ (by simp) _ hw) (ih fun p hp => hargs p (List.mem_cons_of_mem _ hp))
  | redir _ hw ih =>
      exact .redir (ih fun p w hp => hR p w (List.mem_cons_of_mem _ hp))
        (hR _ _ (List.mem_cons_self ..) hw)
  | pipe _ _ ih ih' =>
      exact .pipe (ih fun p w hp => hR p w (List.mem_append_left _ hp))
        (ih' fun p w hp => hR p w (List.mem_append_right _ hp))
  | list _ _ ih ih' =>
      exact .list (ih fun p w hp => hR p w (List.mem_append_left _ hp))
        (ih' fun p w hp => hR p w (List.mem_append_right _ hp))
  | back _ ih => exact .back (ih hR)

/-- Every end of a word belongs to a word. -/
theorem exists_of_mem_ends {e : ℕ} (h : Matches R cmd t) (he : e ∈ cmd.ends) :
    ∃ q w, R (q, e) w := by
  induction h with
  | @exec argv ws h =>
      obtain ⟨p, hp, rfl⟩ := List.mem_map.mp he
      clear he
      induction h with
      | nil => cases hp
      | cons hw _ ih =>
          rcases List.mem_cons.mp hp with rfl | hp
          · exact ⟨_, _, hw⟩
          · exact ih hp
  | redir _ hw ih =>
      rcases List.mem_cons.mp he with rfl | he
      · exact ⟨_, _, hw⟩
      · exact ih he
  | pipe _ _ ih ih' => exact (List.mem_append.mp he).elim ih ih'
  | list _ _ ih ih' => exact (List.mem_append.mp he).elim ih ih'
  | back _ ih => exact ih he

theorem unique (hR : ∀ p v w, R p v → R p w → v = w) (h : Matches R cmd t)
    (h' : Matches R cmd t') : t = t' := by
  induction h generalizing t' with
  | @exec argv ws h =>
      cases h' with
      | exec h' =>
          congr 1
          exact List.right_unique_forall₂' (fun p v w => hR p v w) h h'
  | redir _ hw ih =>
      cases h' with
      | redir h' hw' => rw [ih h', hR _ _ _ hw hw']
  | pipe _ _ ih ih' =>
      cases h' with
      | pipe h h' => rw [ih h, ih' h']
  | list _ _ ih ih' =>
      cases h' with
      | list h h' => rw [ih h, ih' h']
  | back _ ih =>
      cases h' with
      | back h => rw [ih h]

theorem backs {n : ℕ} (h : Matches R cmd t) : Matches R (Cmd.back^[n] cmd) (Tree.back^[n] t) := by
  induction n generalizing cmd t with
  | zero => exact h
  | succ n ih => exact ih (.back h)

/-- An argument is added inside the redirections. -/
theorem pushArg {q eq : ℕ} {w : List Char} {rs : List Redir} {ws : List (List Char)}
    (h : Matches R cmd (simple rs ws)) (hw : R (q, eq) w) :
    Matches R (cmd.pushArg q eq) (simple rs (ws ++ [w])) := by
  induction rs using List.reverseRecOn generalizing cmd with
  | nil =>
      cases h with
      | exec h => exact .exec (List.rel_append h (.cons hw .nil))
  | append_singleton rs r ih =>
      simp only [simple, List.foldl_append, List.foldl_cons, List.foldl_nil] at h ⊢
      cases h with
      | redir h hr => exact .redir (ih h) hr

end Matches

end Xv6.Sh
