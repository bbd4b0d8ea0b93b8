import Xv6.Lib.Prog
import Xv6.Lib.Runs

/-!
The output of user programs (`user/printf.c`, and `close` of `user/ulib.c`).

Characters are collected in a buffer for each descriptor, and given to
`write` at the end of a line, when the buffer is full, by `fflush` and by
`close`. A buffer is allocated when it is first needed and freed by `close`.
The buffers and the numbers of characters in them are in two arrays that
are indexed with the descriptor; an access outside of the arrays is a fault.

`malloc` may return 0. Then the character goes to address 0, and the next
call for the descriptor starts anew, without it.
-/

namespace Xv6.Stdio

open Lib Prog

/-! ### The code -/

abbrev Byte : Type := BitVec 8

/-- `NFILE`, the length of both arrays. -/
def nfile : ℤ := 100

/-- `PUTC_BUF_LEN` -/
def putcBufLen : ℤ := 4096

/-- The character `'\n'`. -/
def newline : Byte := 10

/-- What `malloc` returns, when it is called for the given time and these
blocks are in use: 0, or a block that is not. -/
structure Allocator where
  malloc : (calls : ℕ) → (live : List ℕ) → ℕ
  fresh : ∀ calls live, malloc calls live ≠ 0 → malloc calls live ∉ live

structure Out where
  putcBuf : ℤ → ℕ
  putcIndex : ℤ → ℤ
  /-- The bytes of a block, by their offset. -/
  mem : ℕ → ℤ → Byte
  /-- The blocks in use. -/
  live : List ℕ
  /-- How often `malloc` was called. -/
  calls : ℕ
  /-- The bytes that were passed to `write`, for each descriptor. -/
  written : ℤ → List Byte

/-- An access to `putc_buf` or `putc_index` outside of the array. -/
inductive Fault where
  | index (i : ℤ)
  deriving DecidableEq

abbrev StdioM : Type → Type := Prog Fault Out

def InRange (fd : ℤ) : Prop := 0 ≤ fd ∧ fd < nfile

instance (fd : ℤ) : Decidable (InRange fd) := inferInstanceAs (Decidable (_ ∧ _))

def inBounds (fd : ℤ) : StdioM Unit := if InRange fd then pure () else fault (.index fd)

/-- `putc_buf[fd]` -/
def readBuf (fd : ℤ) : StdioM ℕ := do
  inBounds fd
  pure ((← get).putcBuf fd)

/-- `putc_buf[fd] = p` -/
def writeBuf (fd : ℤ) (p : ℕ) : StdioM Unit := do
  inBounds fd
  modify fun s => { s with putcBuf := Function.update s.putcBuf fd p }

/-- `putc_index[fd]` -/
def readIndex (fd : ℤ) : StdioM ℤ := do
  inBounds fd
  pure ((← get).putcIndex fd)

/-- `putc_index[fd] = i` -/
def writeIndex (fd i : ℤ) : StdioM Unit := do
  inBounds fd
  modify fun s => { s with putcIndex := Function.update s.putcIndex fd i }

def malloc (A : Allocator) : StdioM ℕ := do
  let s ← get
  let p := A.malloc s.calls s.live
  modify fun s => { s with live := if p = 0 then s.live else p :: s.live, calls := s.calls + 1 }
  pure p

def free (p : ℕ) : StdioM Unit := modify fun s => { s with live := s.live.erase p }

/-- `p[i] = c` -/
def storeByte (p : ℕ) (i : ℤ) (c : Byte) : StdioM Unit :=
  modify fun s => { s with mem := Function.update s.mem p (Function.update (s.mem p) i c) }

/-- The first `n` bytes at `p`. -/
def bytesAt (mem : ℕ → ℤ → Byte) (p : ℕ) (n : ℤ) : List Byte :=
  (List.range n.toNat).map fun i : ℕ => mem p i

def write (fd : ℤ) (p : ℕ) (n : ℤ) : StdioM Unit :=
  modify fun s =>
    { s with written := Function.update s.written fd (s.written fd ++ bytesAt s.mem p n) }

def getPutcBuf (A : Allocator) (fd : ℤ) : StdioM ℕ := do
  let buf ← readBuf fd
  if buf ≠ 0 then pure buf
  else do
    let buf ← malloc A
    writeBuf fd buf
    writeIndex fd 0
    pure buf

def putc (A : Allocator) (fd : ℤ) (c : Byte) : StdioM Unit := do
  let buf ← getPutcBuf A fd
  let i ← readIndex fd
  writeIndex fd (i + 1)
  storeByte buf i c
  let n ← readIndex fd
  if c = newline ∨ n = putcBufLen then do
    write fd buf n
    writeIndex fd 0
  else pure ()

def fflush (A : Allocator) (fd : ℤ) : StdioM Unit := do
  let buf ← getPutcBuf A fd
  let n ← readIndex fd
  write fd buf n
  writeIndex fd 0

/-- `close`, up to the system call. -/
def close (A : Allocator) (fd : ℤ) : StdioM Unit := do
  fflush A fd
  let buf ← getPutcBuf A fd
  if buf ≠ 0 then do
    free buf
    writeBuf fd 0
  else pure ()

/-! ### Programs -/

inductive Op where
  | putc (fd : ℤ) (c : Byte)
  | fflush (fd : ℤ)
  | close (fd : ℤ)
  deriving DecidableEq

def Op.fd : Op → ℤ
  | .putc fd _ => fd
  | .fflush fd => fd
  | .close fd => fd

def Op.exec (A : Allocator) : Op → StdioM Unit
  | .putc fd c => Stdio.putc A fd c
  | .fflush fd => Stdio.fflush A fd
  | .close fd => Stdio.close A fd

/-- The output, and what a program has put to each descriptor. -/
structure Session where
  io : Out
  put : ℤ → List Byte
  /-- For this descriptor there was no buffer, and the character was not the end
  of a line. -/
  lost : ℤ → Bool

/-- The character of the call is lost. -/
def Loses (A : Allocator) (s : Out) : Op → Prop
  | .putc fd c => c ≠ newline ∧ s.putcBuf fd = 0 ∧ A.malloc s.calls s.live = 0
  | _ => False

instance (A : Allocator) (s : Out) : ∀ op, Decidable (Loses A s op)
  | .putc _ _ => inferInstanceAs (Decidable (_ ∧ _ ∧ _))
  | .fflush _ => inferInstanceAs (Decidable False)
  | .close _ => inferInstanceAs (Decidable False)

/-- What the call puts to a descriptor. -/
def Op.text : Op → ℤ → List Byte
  | .putc fd c, fd' => if fd' = fd then [c] else []
  | .fflush _, _ => []
  | .close _, _ => []

/-- A call; `none` is a fault. -/
def step (A : Allocator) (s : Session) (op : Op) : Option Session :=
  match op.exec A s.io with
  | .ok _ io => some
      { io := io
        put := fun fd => s.put fd ++ op.text fd
        lost := if Loses A s.io op then Function.update s.lost op.fd true else s.lost }
  | _ => none

def init : Session where
  io :=
    { putcBuf := fun _ => 0
      putcIndex := fun _ => 0
      mem := fun _ _ => 0
      live := []
      calls := 0
      written := fun _ => [] }
  put := fun _ => []
  lost := fun _ => false

variable {A : Allocator} {s t : Out} {fd fd' : ℤ} {c : Byte} {F : Fault → Prop}

/-! ### What the calls do to the state -/

section Access

variable {p : ℕ} {i : ℤ} {R : Unit → Out → Prop}

theorem twp_inBounds (hfd : InRange fd) : twp F (inBounds fd) R s ↔ R () s := by
  rw [inBounds, if_pos hfd, twp_pure]

theorem twp_readBuf (hfd : InRange fd) {Q : ℕ → Out → Prop} :
    twp F (readBuf fd) Q s ↔ Q (s.putcBuf fd) s := by
  simp only [readBuf, twp_bind, twp_inBounds hfd, twp_get, twp_pure]

theorem twp_writeBuf (hfd : InRange fd) : twp F (writeBuf fd p) R s ↔
    R () { s with putcBuf := Function.update s.putcBuf fd p } := by
  simp only [writeBuf, twp_bind, twp_inBounds hfd, twp_modify]

theorem twp_readIndex (hfd : InRange fd) {Q : ℤ → Out → Prop} :
    twp F (readIndex fd) Q s ↔ Q (s.putcIndex fd) s := by
  simp only [readIndex, twp_bind, twp_inBounds hfd, twp_get, twp_pure]

theorem twp_writeIndex (hfd : InRange fd) : twp F (writeIndex fd i) R s ↔
    R () { s with putcIndex := Function.update s.putcIndex fd i } := by
  simp only [writeIndex, twp_bind, twp_inBounds hfd, twp_modify]

end Access

/-- With what `malloc` returns as the buffer. -/
def given (A : Allocator) (fd : ℤ) (s : Out) : Out :=
  let p := A.malloc s.calls s.live
  { s with
    putcBuf := Function.update s.putcBuf fd p
    putcIndex := Function.update s.putcIndex fd 0
    live := if p = 0 then s.live else p :: s.live
    calls := s.calls + 1 }

/-- With a buffer for the descriptor, if there is memory for one. -/
def ensured (A : Allocator) (fd : ℤ) (s : Out) : Out := if s.putcBuf fd ≠ 0 then s else given A fd s

theorem ensured_of_ne (h : s.putcBuf fd ≠ 0) : ensured A fd s = s := if_pos h

theorem ensured_of_eq (h : s.putcBuf fd = 0) : ensured A fd s = given A fd s := if_neg (not_not.mpr h)

theorem given_putcBuf : (given A fd s).putcBuf fd = A.malloc s.calls s.live :=
  Function.update_self ..

/-- With the character in the buffer. -/
def stored (fd : ℤ) (c : Byte) (s : Out) : Out :=
  { s with
    putcIndex := Function.update s.putcIndex fd (s.putcIndex fd + 1)
    mem := Function.update s.mem (s.putcBuf fd)
      (Function.update (s.mem (s.putcBuf fd)) (s.putcIndex fd) c) }

/-- With the buffer given to `write`. -/
def flushed (fd : ℤ) (s : Out) : Out :=
  { s with
    written := Function.update s.written fd
      (s.written fd ++ bytesAt s.mem (s.putcBuf fd) (s.putcIndex fd))
    putcIndex := Function.update s.putcIndex fd 0 }

/-- What `putc` does once it has the buffer. -/
def added (fd : ℤ) (c : Byte) (s : Out) : Out :=
  if c = newline ∨ (stored fd c s).putcIndex fd = putcBufLen then flushed fd (stored fd c s)
  else stored fd c s

/-- Without the buffer. -/
def dropped (fd : ℤ) (s : Out) : Out :=
  if s.putcBuf fd ≠ 0 then
    { s with live := s.live.erase (s.putcBuf fd), putcBuf := Function.update s.putcBuf fd 0 }
  else s

theorem twp_getPutcBuf (hfd : InRange fd) {Q : ℕ → Out → Prop} :
    twp F (getPutcBuf A fd) Q s ↔ Q ((ensured A fd s).putcBuf fd) (ensured A fd s) := by
  simp only [getPutcBuf, twp_bind, twp_readBuf hfd]
  by_cases hbuf : s.putcBuf fd = 0
  · rw [if_neg (not_not.mpr hbuf), ensured_of_eq hbuf, given_putcBuf]
    simp only [malloc, twp_bind, twp_get, twp_modify, twp_pure, twp_writeBuf hfd,
      twp_writeIndex hfd]
    rfl
  · rw [if_pos hbuf, twp_pure, ensured_of_ne hbuf]

variable {R : Unit → Out → Prop}

theorem twp_putc (hfd : InRange fd) :
    twp F (putc A fd c) R s ↔ R () (added fd c (ensured A fd s)) := by
  simp only [putc, twp_bind, twp_getPutcBuf hfd, twp_readIndex hfd, twp_writeIndex hfd, storeByte,
    twp_modify]
  generalize ensured A fd s = u
  change twp F (if c = newline ∨ (stored fd c u).putcIndex fd = putcBufLen then _ else _) R
    (stored fd c u) ↔ _
  rw [added]
  by_cases hfull : c = newline ∨ (stored fd c u).putcIndex fd = putcBufLen
  · rw [if_pos hfull, if_pos hfull]
    simp only [twp_bind, write, twp_modify, twp_writeIndex hfd]
    rfl
  · rw [if_neg hfull, if_neg hfull, twp_pure]

theorem twp_fflush (hfd : InRange fd) :
    twp F (fflush A fd) R s ↔ R () (flushed fd (ensured A fd s)) := by
  simp only [fflush, twp_bind, twp_getPutcBuf hfd, twp_readIndex hfd, write, twp_modify,
    twp_writeIndex hfd]
  rfl

theorem twp_close (hfd : InRange fd) :
    twp F (close A fd) R s ↔ R () (dropped fd (ensured A fd (flushed fd (ensured A fd s)))) := by
  simp only [close, twp_bind, twp_fflush hfd, twp_getPutcBuf hfd]
  generalize ensured A fd (flushed fd (ensured A fd s)) = u
  by_cases hbuf : u.putcBuf fd = 0
  · rw [if_neg (not_not.mpr hbuf), dropped, if_neg (not_not.mpr hbuf), twp_pure]
  · rw [if_pos hbuf, dropped, if_pos hbuf]
    simp only [twp_bind, free, twp_modify, twp_writeBuf hfd]

/-! ### No character is lost or repeated -/

/-- The characters in the buffer. -/
def pending (s : Out) (fd : ℤ) : List Byte :=
  if s.putcBuf fd = 0 then [] else bytesAt s.mem (s.putcBuf fd) (s.putcIndex fd)

/-- The characters that were written or are still in the buffer. -/
def taken (s : Out) (fd : ℤ) : List Byte := s.written fd ++ pending s fd

structure Sound (s : Out) : Prop where
  index : ∀ fd, 0 ≤ s.putcIndex fd ∧ s.putcIndex fd < putcBufLen
  live : ∀ fd, s.putcBuf fd ≠ 0 → s.putcBuf fd ∈ s.live
  apart : ∀ fd fd', s.putcBuf fd ≠ 0 → s.putcBuf fd' = s.putcBuf fd → fd' = fd

/-- Without a buffer there is no character waiting for one. -/
def Clear (s : Out) (fd : ℤ) : Prop := s.putcBuf fd = 0 → s.putcIndex fd = 0

theorem bytesAt_zero (mem : ℕ → ℤ → Byte) (p : ℕ) : bytesAt mem p 0 = [] := rfl

theorem bytesAt_succ (mem : ℕ → ℤ → Byte) (p : ℕ) {i : ℤ} (hi : 0 ≤ i) :
    bytesAt (Function.update mem p (Function.update (mem p) i c)) p (i + 1) =
      bytesAt mem p i ++ [c] := by
  lift i to ℕ using hi
  have hbelow : ∀ j ∈ List.range i, Function.update (mem p) (i : ℤ) c j = mem p j := by
    intro j hj
    have := List.mem_range.mp hj
    exact Function.update_of_ne (by omega) ..
  rw [bytesAt, show ((i : ℤ) + 1).toNat = i + 1 by omega, List.range_succ, List.map_append,
    Function.update_self, List.map_congr_left hbelow]
  simp [bytesAt]

theorem pending_of_index (h : s.putcIndex fd = 0) : pending s fd = [] := by
  rw [pending, h, bytesAt_zero, ite_self]

theorem pending_of_buf (h : s.putcBuf fd = 0) : pending s fd = [] := if_pos h

theorem pending_of_ne (h : s.putcBuf fd ≠ 0) :
    pending s fd = bytesAt s.mem (s.putcBuf fd) (s.putcIndex fd) := if_neg h

theorem pending_of_clear (h : Clear s fd) :
    bytesAt s.mem (s.putcBuf fd) (s.putcIndex fd) = pending s fd := by
  by_cases hbuf : s.putcBuf fd = 0
  · rw [h hbuf, bytesAt_zero, pending_of_buf hbuf]
  · rw [pending_of_ne hbuf]

/-! A buffer. -/

theorem Sound.given (h : Sound s) : Sound (given A fd s) where
  index fd' := by
    by_cases heq : fd' = fd
    · subst heq
      simp only [Stdio.given, Function.update_self, putcBufLen]
      omega
    · simp only [Stdio.given, Function.update_of_ne heq]
      exact h.index fd'
  live fd' hne := by
    by_cases heq : fd' = fd
    · subst heq
      rw [given_putcBuf] at hne ⊢
      simp only [Stdio.given, if_neg hne]
      exact List.mem_cons_self
    · have hold : (Stdio.given A fd s).putcBuf fd' = s.putcBuf fd' := Function.update_of_ne heq ..
      rw [hold] at hne ⊢
      simp only [Stdio.given]
      split_ifs with h0
      · exact h.live fd' hne
      · exact List.mem_cons_of_mem _ (h.live fd' hne)
  apart fd₁ fd₂ hne heq := by
    -- a new buffer is not one of those in use
    have hfresh : ∀ fd', fd' ≠ fd → A.malloc s.calls s.live ≠ 0 →
        s.putcBuf fd' ≠ A.malloc s.calls s.live := by
      intro fd' hfd' h0 hsame
      exact A.fresh _ _ h0 (hsame ▸ h.live fd' (hsame ▸ h0))
    by_cases h₁ : fd₁ = fd <;> by_cases h₂ : fd₂ = fd
    · rw [h₁, h₂]
    · subst h₁
      rw [given_putcBuf] at hne heq
      simp only [Stdio.given, Function.update_of_ne h₂] at heq
      exact absurd heq (hfresh fd₂ h₂ hne)
    · subst h₂
      rw [given_putcBuf] at heq
      simp only [Stdio.given, Function.update_of_ne h₁] at heq hne
      exact absurd heq.symm (hfresh fd₁ h₁ (heq ▸ hne))
    · simp only [Stdio.given, Function.update_of_ne h₁, Function.update_of_ne h₂] at heq hne
      exact h.apart fd₁ fd₂ hne heq

theorem taken_given (hbuf : s.putcBuf fd = 0) : taken (given A fd s) fd' = taken s fd' := by
  by_cases heq : fd' = fd
  · subst heq
    rw [taken, taken, pending_of_buf hbuf, pending_of_index (Function.update_self ..)]
    rfl
  · simp only [taken, pending, given, Function.update_of_ne heq]

theorem Sound.ensured (h : Sound s) : Sound (ensured A fd s) := by
  by_cases hbuf : s.putcBuf fd = 0
  · rw [ensured_of_eq hbuf]
    exact h.given
  · rwa [ensured_of_ne hbuf]

theorem taken_ensured : taken (ensured A fd s) fd' = taken s fd' := by
  by_cases hbuf : s.putcBuf fd = 0
  · rw [ensured_of_eq hbuf, taken_given hbuf]
  · rw [ensured_of_ne hbuf]

theorem written_ensured : (ensured A fd s).written = s.written := by
  rw [ensured]
  split <;> rfl

theorem clear_ensured : Clear (ensured A fd s) fd := by
  by_cases hbuf : s.putcBuf fd = 0
  · rw [ensured_of_eq hbuf]
    exact fun _ => Function.update_self ..
  · rw [ensured_of_ne hbuf]
    exact fun h => absurd h hbuf

theorem ensured_putcBuf_eq_zero : (ensured A fd s).putcBuf fd = 0 ↔
    s.putcBuf fd = 0 ∧ A.malloc s.calls s.live = 0 := by
  by_cases hbuf : s.putcBuf fd = 0
  · rw [ensured_of_eq hbuf, given_putcBuf]
    exact ⟨fun h => ⟨hbuf, h⟩, And.right⟩
  · rw [ensured_of_ne hbuf]
    exact ⟨fun h => absurd h hbuf, And.left⟩

/-! The buffer is written. -/

theorem Sound.flushed (h : Sound s) : Sound (flushed fd s) where
  index fd' := by
    by_cases heq : fd' = fd
    · subst heq
      simp only [Stdio.flushed, Function.update_self, putcBufLen]
      omega
    · simp only [Stdio.flushed, Function.update_of_ne heq]
      exact h.index fd'
  live := h.live
  apart := h.apart

theorem written_flushed (h : Clear s fd) : (flushed fd s).written fd = taken s fd := by
  rw [taken, ← pending_of_clear h]
  exact Function.update_self ..

theorem taken_flushed_of_ne (hne : fd' ≠ fd) : taken (flushed fd s) fd' = taken s fd' := by
  simp only [taken, pending, flushed, Function.update_of_ne hne]

theorem taken_flushed (h : Clear s fd) : taken (flushed fd s) fd' = taken s fd' := by
  by_cases heq : fd' = fd
  · subst heq
    rw [taken, written_flushed h, pending_of_index (Function.update_self ..), List.append_nil]
  · exact taken_flushed_of_ne heq

/-! A character is added. -/

theorem stored_putcIndex : (stored fd c s).putcIndex fd = s.putcIndex fd + 1 :=
  Function.update_self ..

theorem Sound.added (h : Sound s) : Sound (added fd c s) := by
  have hfd := h.index fd
  rw [Stdio.added]
  split_ifs with hfull
  · refine ⟨fun fd' => ?_, h.live, h.apart⟩
    by_cases heq : fd' = fd
    · subst heq
      simp only [Stdio.flushed, Function.update_self, putcBufLen]
      omega
    · simp only [Stdio.flushed, stored, Function.update_of_ne heq]
      exact h.index fd'
  · refine ⟨fun fd' => ?_, h.live, h.apart⟩
    by_cases heq : fd' = fd
    · subst heq
      rw [not_or, stored_putcIndex] at hfull
      rw [stored_putcIndex]
      omega
    · simp only [stored, Function.update_of_ne heq]
      exact h.index fd'

/-- Other descriptors have other buffers. -/
theorem taken_stored_of_ne (h : Sound s) (hne : fd' ≠ fd) :
    taken (stored fd c s) fd' = taken s fd' := by
  by_cases hbuf : s.putcBuf fd' = 0
  · simp only [taken, pending, stored, hbuf, if_true]
  · have hother : s.putcBuf fd' ≠ s.putcBuf fd := fun heq => hne (h.apart fd' fd hbuf heq.symm).symm
    simp only [taken, pending, stored, bytesAt, Function.update_of_ne hne,
      Function.update_of_ne hother]

theorem taken_stored (h : Sound s) (hbuf : s.putcBuf fd ≠ 0) :
    taken (stored fd c s) fd = taken s fd ++ [c] := by
  have hbuf' : (stored fd c s).putcBuf fd ≠ 0 := hbuf
  rw [taken, taken, pending_of_ne hbuf', pending_of_ne hbuf, stored_putcIndex, List.append_assoc,
    ← bytesAt_succ s.mem (s.putcBuf fd) (h.index fd).1]
  rfl

theorem taken_added_of_ne (h : Sound s) (hne : fd' ≠ fd) :
    taken (added fd c s) fd' = taken s fd' := by
  rw [added]
  split_ifs
  · rw [taken_flushed_of_ne hne, taken_stored_of_ne h hne]
  · exact taken_stored_of_ne h hne

theorem taken_added (h : Sound s) (hbuf : s.putcBuf fd ≠ 0) :
    taken (added fd c s) fd = taken s fd ++ [c] := by
  rw [added]
  split_ifs
  · have hclear : Clear (stored fd c s) fd := fun h0 => absurd h0 hbuf
    rw [taken_flushed hclear, taken_stored h hbuf]
  · exact taken_stored h hbuf

/-- Without a buffer the end of a line is written at once. -/
theorem taken_added_newline (hbuf : s.putcBuf fd = 0) (hclear : Clear s fd) :
    taken (added fd newline s) fd = taken s fd ++ [newline] := by
  have hbytes := bytesAt_succ (c := newline) s.mem (s.putcBuf fd) (Int.le_of_eq (hclear hbuf).symm)
  rw [pending_of_clear hclear, pending_of_buf hbuf] at hbytes
  have hwritten : (flushed fd (stored fd newline s)).written fd = s.written fd ++ [newline] := by
    refine (Function.update_self ..).trans ?_
    rw [stored_putcIndex]
    exact congrArg (s.written fd ++ ·) hbytes
  rw [added, if_pos (.inl rfl), taken, taken, pending_of_buf hbuf, hwritten,
    pending_of_index (Function.update_self ..), List.append_nil, List.append_nil]

/-- Without a buffer another character is forgotten. -/
theorem taken_added_lost (hbuf : s.putcBuf fd = 0) (hclear : Clear s fd) (hc : c ≠ newline) :
    taken (added fd c s) fd = taken s fd := by
  have hidx := hclear hbuf
  rw [added, if_neg]
  · have hbuf' : (stored fd c s).putcBuf fd = 0 := hbuf
    rw [taken, taken, pending_of_buf hbuf, pending_of_buf hbuf']
    rfl
  · rw [stored_putcIndex, hidx, not_or]
    exact ⟨hc, by decide⟩

/-! The buffer is freed. -/

theorem Sound.dropped (h : Sound s) : Sound (dropped fd s) := by
  rw [Stdio.dropped]
  split_ifs with hbuf
  · have hother : ∀ fd', Function.update s.putcBuf fd 0 fd' ≠ 0 →
        fd' ≠ fd ∧ Function.update s.putcBuf fd 0 fd' = s.putcBuf fd' := by
      intro fd' hne
      have hfd' : fd' ≠ fd := fun heq => hne (heq ▸ Function.update_self ..)
      exact ⟨hfd', Function.update_of_ne hfd' ..⟩
    refine ⟨h.index, fun fd' hne => ?_, fun fd₁ fd₂ hne heq => ?_⟩
    · obtain ⟨hfd', hold⟩ := hother fd' hne
      simp only [hold] at hne ⊢
      refine (List.mem_erase_of_ne fun heq => hfd' ?_).mpr (h.live fd' hne)
      exact h.apart fd fd' hbuf heq
    · obtain ⟨-, hold₁⟩ := hother fd₁ hne
      obtain ⟨-, hold₂⟩ := hother fd₂ (heq.trans_ne hne)
      simp only [hold₁, hold₂] at heq hne
      exact h.apart fd₁ fd₂ hne heq
  · exact h

theorem taken_dropped (hidx : s.putcIndex fd = 0) : taken (dropped fd s) fd' = taken s fd' := by
  rw [dropped]
  split_ifs with hbuf
  · by_cases heq : fd' = fd
    · subst heq
      rw [taken, taken, pending_of_index hidx, pending_of_index]
      exact hidx
    · simp only [taken, pending, Function.update_of_ne heq]
  · rfl

theorem written_dropped : (dropped fd s).written = s.written := by
  rw [dropped]
  split <;> rfl

/-! ### One call -/

/-- The state after a call. -/
def Op.result (A : Allocator) (s : Out) : Op → Out
  | .putc fd c => added fd c (ensured A fd s)
  | .fflush fd => flushed fd (ensured A fd s)
  | .close fd => dropped fd (ensured A fd (flushed fd (ensured A fd s)))

/-- The call writes what is in the buffer. -/
def Op.Flushes : Op → Prop
  | .putc _ _ => False
  | .fflush _ => True
  | .close _ => True

instance : DecidablePred Op.Flushes
  | .putc _ _ => isFalse id
  | .fflush _ => isTrue trivial
  | .close _ => isTrue trivial

theorem eq_ok_of_twp {m : StdioM Unit} (h : twp (fun _ => False) m (fun _ u => u = t) s) :
    m s = .ok () t := by
  obtain ⟨_, u, hrun, rfl⟩ := exists_of_twp h
  exact hrun

variable {op : Op}

theorem exec_eq (hfd : InRange op.fd) : op.exec A s = .ok () (op.result A s) := by
  cases op with
  | putc fd c => exact eq_ok_of_twp ((twp_putc hfd).mpr rfl)
  | fflush fd => exact eq_ok_of_twp ((twp_fflush hfd).mpr rfl)
  | close fd => exact eq_ok_of_twp ((twp_close hfd).mpr rfl)

theorem getPutcBuf_fault (hfd : ¬ InRange fd) : getPutcBuf A fd s = .fault (.index fd) := by
  simp only [getPutcBuf, readBuf, inBounds, if_neg hfd, bind, Prog.bind, fault]

/-- Every call looks at the array of buffers first. -/
theorem exec_fault (hfd : ¬ InRange op.fd) : op.exec A s = .fault (.index op.fd) := by
  cases op with
  | putc fd c => exact bind_eq_fault (getPutcBuf_fault hfd)
  | fflush fd => exact bind_eq_fault (getPutcBuf_fault hfd)
  | close fd => exact bind_eq_fault (bind_eq_fault (getPutcBuf_fault hfd))

theorem Sound.result (h : Sound s) : Sound (op.result A s) := by
  cases op with
  | putc fd c => exact h.ensured.added
  | fflush fd => exact h.ensured.flushed
  | close fd => exact h.ensured.flushed.ensured.dropped

theorem written_flushed_of_ne (hne : fd' ≠ fd) : (flushed fd s).written fd' = s.written fd' :=
  Function.update_of_ne hne ..

/-- A call writes to its own descriptor only. -/
theorem written_result (hne : fd ≠ op.fd) : (op.result A s).written fd = s.written fd := by
  cases op with
  | putc fd' c =>
      have hne : fd ≠ fd' := hne
      rw [Op.result, added]
      split_ifs
      · rw [written_flushed_of_ne hne]
        exact congrFun written_ensured fd
      · exact congrFun written_ensured fd
  | fflush fd' =>
      have hne : fd ≠ fd' := hne
      rw [Op.result, written_flushed_of_ne hne, written_ensured]
  | close fd' =>
      have hne : fd ≠ fd' := hne
      rw [Op.result, written_dropped, written_ensured, written_flushed_of_ne hne, written_ensured]

/-- A flush writes all there is. -/
theorem written_result_of_flushes (hop : op.Flushes) :
    (op.result A s).written op.fd = taken s op.fd := by
  cases op with
  | putc fd c => exact hop.elim
  | fflush fd => rw [Op.result, Op.fd, written_flushed clear_ensured, taken_ensured]
  | close fd =>
      rw [Op.result, Op.fd, written_dropped, written_ensured, written_flushed clear_ensured,
        taken_ensured]

theorem putcIndex_ensured_flushed : (ensured A fd (flushed fd s)).putcIndex fd = 0 := by
  rw [ensured]
  split
  · exact Function.update_self ..
  · exact Function.update_self ..

theorem taken_putc (h : Sound s) : taken (added fd c (ensured A fd s)) fd =
    taken s fd ++ if Loses A s (.putc fd c) then [] else [c] := by
  have htaken : taken (ensured A fd s) fd = taken s fd := taken_ensured
  rw [← htaken]
  split_ifs with hlost
  · obtain ⟨hc, hbuf⟩ := hlost
    rw [taken_added_lost (ensured_putcBuf_eq_zero.mpr hbuf) clear_ensured hc, List.append_nil]
  · by_cases hbuf : (ensured A fd s).putcBuf fd = 0
    · have hc : c = newline := not_not.mp fun hc => hlost ⟨hc, ensured_putcBuf_eq_zero.mp hbuf⟩
      rw [hc, taken_added_newline hbuf clear_ensured]
    · exact taken_added h.ensured hbuf

/-- What a call adds, unless it loses its character. -/
theorem taken_result (h : Sound s) : taken (op.result A s) fd =
    taken s fd ++ if Loses A s op then [] else op.text fd := by
  cases op with
  | putc fd' c =>
      by_cases heq : fd = fd'
      · subst heq
        rw [Op.result, taken_putc h, Op.text, if_pos rfl]
      · rw [Op.result, taken_added_of_ne h.ensured heq, taken_ensured, Op.text, if_neg heq,
          ite_self, List.append_nil]
  | fflush fd' =>
      rw [Op.result, taken_flushed clear_ensured, taken_ensured, Op.text, ite_self,
        List.append_nil]
  | close fd' =>
      rw [Op.result, taken_dropped putcIndex_ensured_flushed, taken_ensured,
        taken_flushed clear_ensured, taken_ensured, Op.text, ite_self, List.append_nil]

theorem text_of_ne (hne : fd ≠ op.fd) : op.text fd = [] := by
  cases op with
  | putc fd' c => exact if_neg hne
  | fflush fd' | close fd' => rfl

theorem text_of_loses (h : Loses A s op) : op.text op.fd ≠ [] := by
  cases op with
  | putc fd c => rw [Op.text, Op.fd, if_pos rfl]; exact List.cons_ne_nil _ _
  | fflush fd | close fd => exact h.elim

/-! ### Whole programs -/

theorem step_eq_some {s t : Session} : step A s op = some t ↔ InRange op.fd ∧
    t = { io := op.result A s.io
          put := fun fd => s.put fd ++ op.text fd
          lost := if Loses A s.io op then Function.update s.lost op.fd true else s.lost } := by
  rw [step]
  by_cases hfd : InRange op.fd
  · rw [exec_eq hfd, Option.some.injEq, eq_comm]
    exact (and_iff_right hfd).symm
  · rw [exec_fault hfd]
    exact iff_of_false nofun fun h => hfd h.1

/-- What was put is written or in the buffer, except for what was lost. -/
structure Inv (s : Session) : Prop where
  sound : Sound s.io
  exact : ∀ fd, s.lost fd = false → taken s.io fd = s.put fd
  short : ∀ fd, s.lost fd = true → (taken s.io fd).length < (s.put fd).length

theorem Inv.length_le {s : Session} (h : Inv s) (fd : ℤ) :
    (taken s.io fd).length ≤ (s.put fd).length := by
  cases hlost : s.lost fd with
  | false => exact Nat.le_of_eq (congrArg List.length (h.exact fd hlost))
  | true => exact Nat.le_of_lt (h.short fd hlost)

theorem inv_init : Inv init where
  sound := ⟨fun _ => (by decide : (0 : ℤ) ≤ 0 ∧ 0 < putcBufLen), fun _ h => absurd rfl h,
    fun _ _ h => absurd rfl h⟩
  exact _ _ := rfl
  short _ := nofun

theorem Inv.step {s t : Session} (h : Inv s) (hstep : step A s op = some t) : Inv t := by
  obtain ⟨-, rfl⟩ := step_eq_some.mp hstep
  have htaken : ∀ fd, taken (op.result A s.io) fd = _ := fun fd => taken_result h.sound
  by_cases hop : Loses A s.io op
  · simp only [if_pos hop, List.append_nil] at htaken ⊢
    refine ⟨h.sound.result, fun fd hlost => ?_, fun fd hlost => ?_⟩ <;> dsimp only at hlost ⊢
    · have hfd : fd ≠ op.fd := by
        rintro rfl
        rw [Function.update_self] at hlost
        cases hlost
      rw [Function.update_of_ne hfd] at hlost
      rw [htaken, text_of_ne hfd, List.append_nil, h.exact fd hlost]
    · rw [htaken, List.length_append]
      by_cases hfd : fd = op.fd
      · subst hfd
        have hle := h.length_le op.fd
        have hpos := List.length_pos_of_ne_nil (text_of_loses hop)
        omega
      · rw [Function.update_of_ne hfd] at hlost
        exact Nat.lt_add_right _ (h.short fd hlost)
  · simp only [if_neg hop] at htaken ⊢
    refine ⟨h.sound.result, fun fd hlost => ?_, fun fd hlost => ?_⟩ <;> dsimp only at hlost ⊢
    · rw [htaken, h.exact fd hlost]
    · rw [htaken, List.length_append, List.length_append]
      exact Nat.add_lt_add_right (h.short fd hlost) _

/-- The call stays inside the arrays and leaves the indices in range, it
writes to its own descriptor only, and if it flushes the buffer, then all that
was put to the descriptor is written, in order and once. -/
def Exact (A : Allocator) (s : Session) (op : Op) : Prop :=
  ∃ t, step A s op = some t ∧
    (∀ fd, 0 ≤ t.io.putcIndex fd ∧ t.io.putcIndex fd < putcBufLen) ∧
    (∀ fd, fd ≠ op.fd → t.io.written fd = s.io.written fd) ∧
    (op.Flushes → t.io.written op.fd = t.put op.fd)

theorem text_of_flushes (hop : op.Flushes) : op.text fd = [] := by
  cases op with
  | putc fd c => exact hop.elim
  | fflush fd | close fd => rfl

theorem Inv.exact_iff {s : Session} (h : Inv s) :
    Exact A s op ↔ InRange op.fd ∧ (op.Flushes → s.lost op.fd = false) := by
  have hput : op.Flushes → s.put op.fd ++ op.text op.fd = s.put op.fd := by
    intro hop
    rw [text_of_flushes hop, List.append_nil]
  constructor
  · rintro ⟨t, hstep, -, -, hall⟩
    obtain ⟨hfd, rfl⟩ := step_eq_some.mp hstep
    refine ⟨hfd, fun hop => ?_⟩
    by_contra hlost
    have heq := (written_result_of_flushes hop).symm.trans ((hall hop).trans (hput hop))
    have hlt := h.short op.fd (eq_true_of_ne_false hlost)
    rw [heq] at hlt
    exact Nat.lt_irrefl _ hlt
  · rintro ⟨hfd, hlost⟩
    have hstep := (step_eq_some (A := A) (s := s)).mpr ⟨hfd, rfl⟩
    refine ⟨_, hstep, (h.step hstep).sound.index, fun fd hne => written_result hne, fun hop => ?_⟩
    exact (written_result_of_flushes hop).trans ((h.exact op.fd (hlost hop)).trans (hput hop).symm)

/-- A program's output is exact if and only if every descriptor it uses is in
range, and none is flushed or closed after a character other than the end of a line was
put to it for which there was no memory. -/
theorem output_exact_iff (A : Allocator) (ops : List Op) :
    Meets (step A) (Exact A) init ops ↔
      Meets (step A) (fun s op => InRange op.fd ∧ (op.Flushes → s.lost op.fd = false)) init ops := by
  simp only [ meets_iff_forall_prefix]
  refine ⟨fun hall bs op s hpre hrun => ?_, fun hall bs op s hpre hrun => ?_⟩
  · exact (invariant' Inv.step inv_init hrun).exact_iff.mp (hall bs op s hpre hrun)
  · exact (invariant' Inv.step inv_init hrun).exact_iff.mpr (hall bs op s hpre hrun)

/-- Every call gets another block. -/
def ample : Allocator where
  malloc calls live := if calls + 1 ∈ live then 0 else calls + 1
  fresh calls live h := by
    split_ifs at h ⊢ with hmem
    · exact absurd rfl h
    · exact hmem

/-- There is none. -/
def exhausted : Allocator where
  malloc _ _ := 0
  fresh _ _ h := absurd rfl h

/-- Two descriptors, with the end of a line, a flush and a `close`. -/
theorem output_exact_two : Meets (step ample) (Exact ample) init
    [.putc 1 97, .putc 2 98, .putc 1 newline, .fflush 2, .putc 1 99, .close 1, .close 2] :=
  (output_exact_iff _ _).mpr (by decide +kernel)

/-- `close` of a failed `open` reads in front of the array; and without memory a
character is not written. -/
theorem output_lost : (Op.close (-1)).exec ample init.io = .fault (.index (-1)) ∧
    ∃ t, run (step exhausted) init [.putc 1 97, .fflush 1] = some t ∧ t.put 1 = [97] ∧
      t.io.written 1 = [] :=
  ⟨exec_fault (by decide), _, rfl, rfl, rfl⟩

end Xv6.Stdio
