import Xv6.Grep.Match
import Xv6.Lib.Cells
import Xv6.Lib.Fuel
import Xv6.Strings.Memmove

/-!
The loop of `grep` over its input (`user/grep.c`, with `strchr` of
`user/ulib.c`).

The input goes through a buffer of 1024 bytes. Each round reads behind what
is left from the round before, looks for whole lines, and moves the rest to
the front. A line that does not fit in the buffer with its newline leaves
no room to read: `read` is asked for 0 bytes, and its answer 0 is taken for
the end of the input.

The answer of `read` is the next bytes of the input, at least one and no
more than asked for; `choose` says how many. The loops have fuel.
-/

namespace Xv6.Grep

open Lib Strings

/-! ### The code -/

abbrev newline : Byte := ch '\n'

/-- `sizeof(buf)`. -/
abbrev bufSize : ℕ := 1024

/-- The first place of the character in the string at `s`. -/
def strchr (m : Mem) (c : Byte) : (fuel : ℕ) → (s : Addr) → Option (Option Addr)
  | 0, _ => none
  | fuel + 1, s =>
      if m s = 0 then some none
      else if m s = c then some (some s)
      else strchr m c fuel (s + 1)

/-- The string at `s`, as `match` reads it. -/
def cstring (m : Mem) : (fuel : ℕ) → (s : Addr) → Option (List Byte)
  | 0, _ => none
  | fuel + 1, s => if m s = 0 then some [] else (cstring m fuel (s + 1)).map (m s :: ·)

/-- The bytes that `write` is given. -/
def bytesAt (m : Mem) (p : Addr) (n : ℕ) : List Byte :=
  (List.range n).map fun i => m (p + BitVec.ofNat 64 i)

/-- The inner loop: prints the lines in the buffer from `p` on that match. The
result has the place after the last newline. -/
def lineLoop (pattern : List Byte) :
    (fuel : ℕ) → (p : Addr) → Mem → (out : List Byte) → Option (Addr × Mem × List Byte)
  | 0, _, _, _ => none
  | fuel + 1, p, m, out =>
      (strchr m newline fuel p).bind fun
        | none => some (p, m, out)
        | some q =>
            let m := Function.update m q 0
            (cstring m fuel p).bind fun text =>
              if «match» pattern text then
                let m := Function.update m q newline
                lineLoop pattern fuel (q + 1) m (out ++ bytesAt m p (q + 1 - p).toNat)
              else lineLoop pattern fuel (q + 1) m out

/-- What `read` returns when asked for `n` bytes, and the input after it. -/
def read (choice n : ℕ) (input : List Byte) : List Byte × List Byte :=
  if n = 0 then ([], input) else input.splitAt (max 1 (min choice n))

/-- The outer loop. -/
def grepLoop (pattern : List Byte) (buf : Addr) (choose : ℕ → ℕ) :
    (fuel : ℕ) → (round m : ℕ) → Mem → (input out : List Byte) → Option (List Byte)
  | 0, _, _, _, _, _ => none
  | fuel + 1, round, m, mem, input, out =>
      let (chunk, input) := read (choose round) (bufSize - m - 1) input
      if chunk = [] then some out
      else
        let mem := put mem (buf + BitVec.ofNat 64 m) chunk
        let m := m + chunk.length
        let mem := Function.update mem (buf + BitVec.ofNat 64 m) 0
        (lineLoop pattern fuel buf mem out).bind fun (p, mem, out) =>
          if 0 < m then
            let m := m - (p - buf).toNat
            let mem := (userMemmove buf p (BitVec.ofNat 32 m) mem).2
            grepLoop pattern buf choose fuel (round + 1) m mem input out
          else grepLoop pattern buf choose fuel (round + 1) m mem input out

/-- What `grep` writes. -/
def grep (pattern : List Byte) (buf : Addr) (choose : ℕ → ℕ) (mem : Mem) (input : List Byte)
    (fuel : ℕ) : Option (List Byte) :=
  grepLoop pattern buf choose fuel 0 0 mem input []

/-! ### Lines -/

/-- The lines of the input that end with a newline, without it. -/
def linesOf (input : List Byte) : List (List Byte) := (input.splitOn newline).dropLast

/-- The lines with their newlines. -/
def unlines (lines : List (List Byte)) : List Byte := lines.flatMap (· ++ [newline])

/-- What should be written. -/
def wanted (pattern input : List Byte) : List Byte :=
  unlines ((linesOf input).filter («match» pattern))

/-- The line fits in the buffer, with its newline and a 0. -/
def Short (line : List Byte) : Bool := line.length + 2 ≤ bufSize

/-- What is written: nothing from the first line on that does not fit. -/
def printed (pattern input : List Byte) : List Byte :=
  unlines (((linesOf input).takeWhile Short).filter («match» pattern))

variable {pattern input line tail rest text out : List Byte} {lines : List (List Byte)}

theorem beq_newline (h : newline ∉ line) : ∀ c ∈ line, (c == newline) = false :=
  fun _ hc => beq_eq_false_iff_ne.mpr fun heq => h (heq ▸ hc)

theorem linesOf_eq_nil (h : newline ∉ tail) : linesOf tail = [] := by
  rw [linesOf, List.splitOn, List.splitOnP_eq_singleton (beq_newline h)]
  rfl

theorem linesOf_cons (h : newline ∉ line) :
    linesOf (line ++ newline :: rest) = line :: linesOf rest := by
  have hsplit : (line ++ newline :: rest).splitOn newline = line :: rest.splitOn newline := by
    rw [List.splitOn, List.splitOn]
    exact List.splitOnP_append_cons_of_forall_mem (beq_newline h) _ (beq_self_eq_true _) _
  rw [linesOf, hsplit, List.dropLast_cons_of_ne_nil (by simp [List.splitOn]), linesOf]

/-- Every input is some lines and a rest. -/
theorem exists_lines (input : List Byte) : ∃ lines tail, input = unlines lines ++ tail ∧
    (∀ line ∈ lines, newline ∉ line) ∧ newline ∉ tail := by
  induction input with
  | nil => exact ⟨[], [], rfl, nofun, nofun⟩
  | cons c input ih =>
      obtain ⟨lines, tail, rfl, hlines, htail⟩ := ih
      by_cases hc : c = newline
      · refine ⟨[] :: lines, tail, by rw [hc]; rfl, fun line hline => ?_, htail⟩
        rcases List.mem_cons.mp hline with rfl | hline
        · exact nofun
        · exact hlines line hline
      · cases lines with
        | nil =>
            refine ⟨[], c :: tail, rfl, nofun, fun hmem => ?_⟩
            rcases List.mem_cons.mp hmem with heq | hmem
            · exact hc heq.symm
            · exact htail hmem
        | cons line lines =>
            refine ⟨(c :: line) :: lines, tail, rfl, fun line' hline' => ?_, htail⟩
            rcases List.mem_cons.mp hline' with rfl | hline'
            · intro hmem
              rcases List.mem_cons.mp hmem with heq | hmem
              · exact hc heq.symm
              · exact hlines line (by simp) hmem
            · exact hlines line' (List.mem_cons_of_mem _ hline')

theorem unlines_cons : unlines (line :: lines) ++ rest =
    line ++ newline :: (unlines lines ++ rest) := by
  simp [unlines]

theorem length_unlines_cons :
    (unlines (line :: lines)).length = line.length + 1 + (unlines lines).length := by
  rw [unlines, List.flatMap_cons, List.length_append, List.length_append]
  rfl

theorem length_lt_of_mem (h : line ∈ lines) : line.length < (unlines lines).length := by
  induction lines with
  | nil => cases h
  | cons line' lines ih =>
      rw [length_unlines_cons]
      rcases List.mem_cons.mp h with rfl | h
      · omega
      · exact (ih h).trans_le (Nat.le_add_left _ _)

/-- Lines in front that fit. -/
theorem printed_unlines (hlines : ∀ line ∈ lines, newline ∉ line)
    (hshort : ∀ line ∈ lines, Short line = true) : printed pattern (unlines lines ++ rest) =
      unlines (lines.filter («match» pattern)) ++ printed pattern rest := by
  induction lines with
  | nil => rfl
  | cons line lines ih =>
      have ih := ih (fun l hl => hlines l (List.mem_cons_of_mem _ hl))
        fun l hl => hshort l (List.mem_cons_of_mem _ hl)
      rw [unlines_cons, printed, linesOf_cons (hlines line (by simp)),
        List.takeWhile_cons_of_pos (hshort line (by simp))]
      cases hmatch : «match» pattern line with
      | true =>
          rw [List.filter_cons_of_pos hmatch, List.filter_cons_of_pos hmatch]
          simp only [unlines, List.flatMap_cons, List.append_assoc]
          rw [List.append_cancel_left_eq, List.append_cancel_left_eq]
          exact ih
      | false =>
          rw [List.filter_cons_of_neg (by simp [hmatch]), List.filter_cons_of_neg (by simp [hmatch])]
          exact ih

/-! ### Strings in memory -/

variable {m : Mem} {p q buf : Addr}

theorem settles_strchr (h : Spells m p (line ++ newline :: rest)) (hnul : 0 ∉ line)
    (hline : newline ∉ line) :
    Settles (fun fuel => strchr m newline fuel p) (some (p + BitVec.ofNat 64 line.length)) := by
  induction line generalizing p with
  | nil =>
      obtain ⟨hp, -⟩ := h
      refine Settles.succ rfl ?_
      simp only [strchr, hp, if_neg (by decide : newline ≠ 0), if_true, List.length_nil,
        BitVec.add_zero]
      exact .pure _
  | cons c line ih =>
      obtain ⟨hp, hrest⟩ := h
      simp only [List.mem_cons, not_or] at hnul hline
      refine Settles.succ rfl ?_
      simp only [strchr, hp, if_neg (Ne.symm hnul.1), if_neg (Ne.symm hline.1)]
      rw [List.length_cons, add_ofNat_succ]
      exact ih hrest hnul.2 hline.2

theorem settles_strchr_none (h : Spells m p (tail ++ [0])) (hnul : 0 ∉ tail)
    (htail : newline ∉ tail) : Settles (fun fuel => strchr m newline fuel p) none := by
  induction tail generalizing p with
  | nil =>
      refine Settles.succ rfl ?_
      simp only [strchr, h.1, if_true]
      exact .pure _
  | cons c tail ih =>
      obtain ⟨hp, hrest⟩ := h
      simp only [List.mem_cons, not_or] at hnul htail
      refine Settles.succ rfl ?_
      simp only [strchr, hp, if_neg (Ne.symm hnul.1), if_neg (Ne.symm htail.1)]
      exact ih hrest hnul.2 htail.2

theorem settles_cstring (h : Spells m p (text ++ [0])) (hnul : 0 ∉ text) :
    Settles (fun fuel => cstring m fuel p) text := by
  induction text generalizing p with
  | nil =>
      refine Settles.succ rfl ?_
      simp only [cstring, h.1, if_true]
      exact .pure _
  | cons c text ih =>
      obtain ⟨hp, hrest⟩ := h
      simp only [List.mem_cons, not_or] at hnul
      refine Settles.succ rfl ?_
      simp only [cstring, hp, if_neg (Ne.symm hnul.1), Option.map_eq_bind]
      exact (ih hrest hnul.2).bind (.pure _)

theorem bytesAt_eq (h : Spells m p text) : bytesAt m p text.length = text := by
  refine List.ext_getElem? fun i => ?_
  rw [bytesAt, List.getElem?_map]
  rcases Nat.lt_or_ge i text.length with hi | hi
  · rw [List.getElem?_range hi, Option.map_some, List.getElem?_eq_getElem hi]
    exact congrArg some (spells_iff.mp h i _ (List.getElem?_eq_getElem hi))
  · rw [List.getElem?_eq_none (by simpa using hi), List.getElem?_eq_none hi]
    rfl

/-! ### The loops -/

/-- The line with its newline is what is written. -/
theorem bytesAt_line (h : Spells m p (line ++ newline :: rest)) (hlen : line.length < 2 ^ 63) :
    bytesAt m p (p + BitVec.ofNat 64 line.length + 1 - p).toNat = line ++ [newline] := by
  have hdist : (p + BitVec.ofNat 64 line.length + 1 - p).toNat = (line ++ [newline]).length := by
    rw [add_assoc, add_sub_cancel_left, BitVec.toNat_add, BitVec.toNat_ofNat, List.length_append,
      List.length_singleton, show (1 : BitVec 64).toNat = 1 from rfl]
    omega
  rw [List.append_cons] at h
  rw [hdist]
  exact bytesAt_eq (spells_append.mp h).1

/-- One round: a line is found, and written if it matches. -/
theorem settles_round {after : List Byte} (h : Spells m p (line ++ newline :: after))
    (hnul : 0 ∉ line) (hline : newline ∉ line) (hlen : line.length + after.length < 2 ^ 63) :
    ∃ m', Spells m' (p + BitVec.ofNat 64 line.length + 1) after ∧
      ∀ v, Settles (fun fuel => lineLoop pattern fuel (p + BitVec.ofNat 64 line.length + 1) m'
          (out ++ unlines ([line].filter («match» pattern)))) v →
        Settles (fun fuel => lineLoop pattern fuel p m out) v := by
  have hfind := settles_strchr h hnul hline
  -- the line is cut off with a 0, and put together again if it is to be written
  have hcut := h.set (b := 0) (by omega)
  have hback := hcut.set (b := newline) (by omega)
  have htext := settles_cstring (spells_append.mp (List.append_cons .. ▸ hcut)).1 hnul
  have hwrite := bytesAt_line hback (by omega)
  cases hmatch : «match» pattern line with
  | true =>
      refine ⟨_, (spells_append.mp hback).2.2, fun v hv => Settles.succ rfl ?_⟩
      rw [List.filter_cons_of_pos hmatch, List.filter_nil,
        show unlines [line] = line ++ [newline] from List.append_nil _] at hv
      simp only [lineLoop]
      refine hfind.bind (htext.bind ?_)
      simp only [hmatch, if_true, hwrite]
      exact hv
  | false =>
      refine ⟨_, (spells_append.mp hcut).2.2, fun v hv => Settles.succ rfl ?_⟩
      rw [List.filter_cons_of_neg (by simp [hmatch]), List.filter_nil,
        show out ++ unlines [] = out from List.append_nil out] at hv
      simp only [lineLoop]
      refine hfind.bind (htext.bind ?_)
      simp only [hmatch]
      exact hv

theorem settles_lineLoop (pattern out : List Byte) (hlines : ∀ line ∈ lines, newline ∉ line)
    (htail : newline ∉ tail)
    (hnul : 0 ∉ unlines lines ++ tail) (hlen : (unlines lines ++ tail).length < 2 ^ 62)
    (h : Spells m p (unlines lines ++ tail ++ [0])) :
    ∃ m', Settles (fun fuel => lineLoop pattern fuel p m out)
        (p + BitVec.ofNat 64 (unlines lines).length, m',
          out ++ unlines (lines.filter («match» pattern))) ∧
      Spells m' (p + BitVec.ofNat 64 (unlines lines).length) tail := by
  induction lines generalizing p m out with
  | nil =>
      rw [show p + BitVec.ofNat 64 (unlines []).length = p from add_zero p]
      refine ⟨m, Settles.succ rfl ?_, (spells_append.mp h).1⟩
      simp only [lineLoop]
      refine (settles_strchr_none h hnul htail).bind ?_
      rw [show out ++ unlines ([].filter («match» pattern)) = out from List.append_nil out]
      exact .pure _
  | cons line lines ih =>
      rw [unlines_cons] at hnul hlen h
      rw [List.append_assoc, List.cons_append] at h
      simp only [List.mem_append, List.mem_cons, not_or] at hnul
      simp only [List.length_append, List.length_cons] at hlen
      obtain ⟨hnul₁, -, hnul₂⟩ := hnul
      obtain ⟨m₁, hrest, hround⟩ := settles_round h hnul₁ (hlines line (by simp))
        (by simp only [List.length_append, List.length_singleton]; omega)
      obtain ⟨m', hloop, htail'⟩ := ih _ (fun l hl => hlines l (List.mem_cons_of_mem _ hl))
        (by simpa using hnul₂) (by rw [List.length_append]; omega) hrest
      have hend : p + BitVec.ofNat 64 (unlines (line :: lines)).length =
          p + BitVec.ofNat 64 line.length + 1 + BitVec.ofNat 64 (unlines lines).length := by
        rw [length_unlines_cons, add_ofNat_add, add_ofNat_add]
        rfl
      have hout : unlines ((line :: lines).filter («match» pattern)) =
          unlines ([line].filter («match» pattern)) ++ unlines (lines.filter («match» pattern)) := by
        rw [← List.singleton_append, List.filter_append, unlines, List.flatMap_append]
        rfl
      rw [hend, hout, ← List.append_assoc]
      exact ⟨m', hround _ hloop, htail'⟩

theorem read_cases (choice n : ℕ) (input : List Byte) :
    (read choice n input).1 = [] ∧ (n = 0 ∨ input = []) ∨
      ∃ chunk rest, read choice n input = (chunk, rest) ∧ input = chunk ++ rest ∧ chunk ≠ [] ∧
        chunk.length ≤ n := by
  rw [read]
  split_ifs with hn
  · exact .inl ⟨rfl, .inl hn⟩
  · cases input with
    | nil => exact .inl ⟨by simp, .inr rfl⟩
    | cons c input =>
        obtain ⟨k, hk⟩ : ∃ k, max 1 (min choice n) = k + 1 := ⟨max 1 (min choice n) - 1, by omega⟩
        rw [hk, List.splitAt_eq]
        refine .inr ⟨_, _, rfl, (List.take_append_drop ..).symm, by simp, ?_⟩
        rw [List.length_take]
        omega

/-- A line that fills the buffer is the last thing that is looked at. -/
theorem printed_eq_nil {carry : List Byte} (hcarry : newline ∉ carry)
    (h : bufSize ≤ carry.length + 1 ∨ input = []) : printed pattern (carry ++ input) = [] := by
  have hnone : (linesOf (carry ++ input)).takeWhile Short = [] := by
    obtain ⟨lines, tail, rfl, hlines, htail⟩ := exists_lines input
    cases lines with
    | nil =>
        rw [linesOf_eq_nil, List.takeWhile_nil]
        simpa [unlines] using ⟨hcarry, htail⟩
    | cons line lines =>
        rcases h with hlong | hnil
        · have hline := hlines line (by simp)
          rw [unlines_cons, ← List.append_assoc, linesOf_cons (by simpa using ⟨hcarry, hline⟩),
            List.takeWhile_cons_of_neg]
          simp only [Short, List.length_append, decide_eq_true_eq]
          omega
        · rw [unlines_cons] at hnil
          exact absurd hnil (by simp)
  rw [printed, hnone]
  rfl

/-- The part of a round before the lines are looked for. -/
theorem spells_read {carry chunk : List Byte} (h : Spells m buf carry)
    (hlen : (carry ++ chunk).length < bufSize) :
    Spells (Function.update (put m (buf + BitVec.ofNat 64 carry.length) chunk)
      (buf + BitVec.ofNat 64 (carry.length + chunk.length)) 0) buf (carry ++ chunk ++ [0]) := by
  rw [List.length_append] at hlen
  have hlt : carry.length + chunk.length < 2 ^ 64 := by
    rw [bufSize] at hlen
    omega
  have hput : Spells (put m (buf + BitVec.ofNat 64 carry.length) chunk) buf (carry ++ chunk) := by
    refine spells_append.mpr ⟨h.congr (fun a ha => put_of_not ?_) (by omega),
      spells_put (by omega)⟩
    rw [← sub_sub, BitVec.toNat_sub, BitVec.toNat_ofNat, Nat.mod_eq_of_lt (by omega),
      Nat.mod_eq_of_lt (by omega)]
    omega
  refine spells_append.mpr ⟨hput.update ?_, ?_, trivial⟩
  · rw [add_sub_cancel_left, BitVec.toNat_ofNat, Nat.mod_eq_of_lt hlt, List.length_append]
  · rw [List.length_append, Function.update_self]

/-- What is left in the buffer and what is still to be read are one input. -/
theorem settles_grepLoop (hbuf : buf.toNat + bufSize ≤ 2 ^ 64) {carry : List Byte} {choose : ℕ → ℕ}
    {round : ℕ} (hcarry : newline ∉ carry) (hlen : carry.length < bufSize)
    (hnul : 0 ∉ carry ++ input) (h : Spells m buf carry) :
    Settles (fun fuel => grepLoop pattern buf choose fuel round carry.length m input out)
      (out ++ printed pattern (carry ++ input)) := by
  induction hinput : input.length using Nat.strong_induction_on
    generalizing input carry round m out with
  | _ k ih =>
  subst hinput
  refine Settles.succ rfl ?_
  simp only [grepLoop]
  rcases read_cases (choose round) (bufSize - carry.length - 1) input with
    ⟨hnil, hend⟩ | ⟨chunk, rest, hread, rfl, hne, hle⟩
  · simp only [hnil, if_true]
    rw [printed_eq_nil hcarry (hend.imp_left fun h => by omega), List.append_nil]
    exact .pure _
  · simp only [hread, if_neg hne]
    have hlen' : (carry ++ chunk).length < bufSize := by
      rw [List.length_append]
      omega
    have hpos : 0 < carry.length + chunk.length :=
      Nat.add_pos_right _ (List.length_pos_iff.mpr hne)
    have hmem := spells_read h hlen'
    rw [← List.append_assoc] at hnul ⊢
    rw [List.length_append] at hlen'
    obtain ⟨lines, tail, hlines, hnolines, htail⟩ := exists_lines (carry ++ chunk)
    have hsum := congrArg List.length hlines
    have hsize : bufSize = 1024 := rfl
    rw [hlines] at hnul hmem ⊢
    rw [List.length_append, List.length_append] at hsum
    obtain ⟨m', hloop, hleft⟩ := settles_lineLoop pattern out hnolines htail
      (fun hmem => hnul (List.mem_append_left _ hmem)) (by rw [List.length_append]; omega) hmem
    have hoff : (buf + BitVec.ofNat 64 (unlines lines).length - buf).toNat =
        (unlines lines).length := by
      rw [add_sub_cancel_left, BitVec.toNat_ofNat, Nat.mod_eq_of_lt (by omega)]
    have hcount : (BitVec.ofNat 32 tail.length).toNat = tail.length := by
      rw [BitVec.toNat_ofNat, Nat.mod_eq_of_lt (by omega)]
    have hmove : userMemmove buf (buf + BitVec.ofNat 64 (unlines lines).length)
        (BitVec.ofNat 32 tail.length) m' =
        (buf, copied buf (buf + BitVec.ofNat 64 (unlines lines).length) tail.length m') := by
      rw [userMemmove_eq, hcount]
      · rw [BitVec.toInt_eq_toNat_cond, hcount, if_pos (by omega)]
        exact Int.natCast_nonneg _
      · omega
      · rw [BitVec.toNat_add, BitVec.toNat_ofNat, hcount]
        omega
    refine hloop.bind ?_
    simp only [if_pos hpos]
    rw [hoff, hsum, Nat.add_sub_cancel_left, hmove, List.append_assoc (unlines lines),
      printed_unlines hnolines, ← List.append_assoc]
    · refine ih rest.length ?_ htail (by omega) ?_ (hleft.copied le_rfl (by omega)) rfl
      · rw [List.length_append]
        have := List.length_pos_iff.mpr hne
        omega
      · rw [List.append_assoc] at hnul
        exact fun hmem => hnul (List.mem_append_right _ hmem)
    · intro line hline
      have hlt := length_lt_of_mem hline
      exact decide_eq_true (by omega)

/-- `grep` ends, and what it writes depends on the input only. -/
theorem settles_grep (hbuf : buf.toNat + bufSize ≤ 2 ^ 64) (hnul : 0 ∉ input) (choose : ℕ → ℕ)
    (m : Mem) : Settles (grep pattern buf choose m input) (printed pattern input) := by
  have hloop : Settles (fun fuel => grepLoop pattern buf choose fuel 0 ([] : List Byte).length m
      input []) ([] ++ printed pattern ([] ++ input)) :=
    settles_grepLoop hbuf List.not_mem_nil (by decide) hnul trivial
  exact hloop

theorem unlines_eq_nil : unlines lines = [] ↔ lines = [] := by
  cases lines with
  | nil => exact iff_of_true rfl rfl
  | cons line lines =>
      refine iff_of_false (fun h => ?_) (List.cons_ne_nil _ _)
      have hlen := congrArg List.length h
      rw [length_unlines_cons, List.length_nil] at hlen
      omega

/-- Nothing is missing if no line from the first long one on matches. -/
theorem printed_eq_wanted_iff : printed pattern input = wanted pattern input ↔
    ∀ line ∈ (linesOf input).dropWhile Short, «match» pattern line = false := by
  have hsplit : wanted pattern input = printed pattern input ++
      unlines (((linesOf input).dropWhile Short).filter («match» pattern)) := by
    simp only [wanted, printed, unlines]
    rw [← List.flatMap_append, ← List.filter_append, List.takeWhile_append_dropWhile]
  rw [hsplit, List.self_eq_append_right, unlines_eq_nil, List.filter_eq_nil_iff]
  simp only [Bool.not_eq_true]

/-- **What `grep` prints.** However the input comes, the answer is the same,
and it is the right one exactly if no line matches from the first on that
does not fit in the buffer. -/
theorem grep_prints_iff (hbuf : buf.toNat + bufSize ≤ 2 ^ 64) (hnul : 0 ∉ input) :
    (∃ out, ∀ choose m, Settles (grep pattern buf choose m input) out) ∧
      ((∀ choose m, Settles (grep pattern buf choose m input) (wanted pattern input)) ↔
        ∀ line ∈ (linesOf input).dropWhile Short, «match» pattern line = false) := by
  refine ⟨⟨_, settles_grep hbuf hnul⟩, ?_⟩
  rw [← printed_eq_wanted_iff]
  constructor
  · intro h
    exact (settles_grep hbuf hnul (fun _ => 1) fun _ => 0).unique (h _ _)
  · intro h choose m
    exact h ▸ settles_grep hbuf hnul choose m

/-- Two lines, of which one matches. -/
theorem grep_prints_short :
    Settles (grep [ch 'b', ch '$'] 0x1000 (fun _ => 2) (fun _ => 0)
      [ch 'a', ch 'b', newline, ch 'a', newline]) [ch 'a', ch 'b', newline] :=
  (grep_prints_iff (by decide) (by decide)).2.mpr (by decide) _ _

/-- A line of 1023 characters is lost, and so is everything after it. -/
theorem grep_stops_at_long_line :
    Settles (grep [ch 'a'] 0x1000 (fun _ => 1024) (fun _ => 0)
        (List.replicate 1023 (ch 'a') ++ [newline])) [] ∧
      wanted [ch 'a'] (List.replicate 1023 (ch 'a') ++ [newline]) =
        List.replicate 1023 (ch 'a') ++ [newline] := by
  have hline : newline ∉ List.replicate 1023 (ch 'a') := fun h =>
    absurd (List.eq_of_mem_replicate h) (by decide)
  have hnul : 0 ∉ List.replicate 1023 (ch 'a') ++ [newline] := by
    simp only [List.mem_append, List.mem_replicate, List.mem_singleton]
    decide
  have hlines : linesOf (List.replicate 1023 (ch 'a') ++ [newline]) =
      [List.replicate 1023 (ch 'a')] := linesOf_cons hline
  have hmatch : «match» [ch 'a'] (List.replicate 1023 (ch 'a')) = true := by
    rw [List.replicate_succ]
    rfl
  have hprinted : printed [ch 'a'] (List.replicate 1023 (ch 'a') ++ [newline]) = [] :=
    printed_eq_nil hline (.inl (by rw [List.length_replicate]))
  constructor
  · have hends : Settles (grep [ch 'a'] 0x1000 (fun _ => 1024) (fun _ => 0)
        (List.replicate 1023 (ch 'a') ++ [newline])) _ := settles_grep (by decide) hnul _ _
    rwa [hprinted] at hends
  · rw [wanted, hlines, List.filter_cons_of_pos hmatch]
    exact List.append_nil _

end Xv6.Grep
