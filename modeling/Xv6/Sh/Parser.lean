import Xv6.Lib.Prog

/-!
The parser of the shell (`user/sh.c`).

The line to be parsed is a NUL-terminated string in a buffer; the
functions of the parser share a cursor into it, which is the state of the
programs below, and `es` is the address of the terminating NUL. A command
refers to its words by two addresses, of the first character and of the
one behind the last; `nulterminate` afterwards stores a NUL at the second.
A call of `panic` prints its message and ends the shell: it is a fault.

`malloc` is taken to succeed. The functions that call each other and the
loops have fuel.
-/

namespace Xv6.Sh

open Lib Prog

def whitespace : List Char := [' ', '\t', '\r', '\n', '\x0b']

def symbols : List Char := ['<', '|', '>', '&', ';', '(', ')']

def maxargs : ℕ := 10

def oRdonly : ℕ := 0x000

/-- `O_WRONLY|O_CREATE` -/
def oWronlyCreate : ℕ := 0x001 ||| 0x200

inductive Cmd where
  | exec (argv : List (ℕ × ℕ))
  | redir (cmd : Cmd) (file efile mode fd : ℕ)
  | pipe (left right : Cmd)
  | list (left right : Cmd)
  | back (cmd : Cmd)
  deriving DecidableEq, Repr

/-- `parseexec` fills in the arguments of its `execcmd` while redirections
are already wrapped around it. -/
def Cmd.pushArg (q eq : ℕ) : Cmd → Cmd
  | .exec argv => .exec (argv ++ [(q, eq)])
  | .redir cmd file efile mode fd => .redir (cmd.pushArg q eq) file efile mode fd
  | cmd => cmd

/-! ### Tokens -/

/-- `while(s < es && p(*s)) s++`, with `es - s` given first. -/
def skipWhile (p : Char → Bool) (buf : ℕ → Char) : ℕ → ℕ → ℕ
  | 0, s => s
  | n + 1, s => if p (buf s) then skipWhile p buf n (s + 1) else s

def isBlank (c : Char) : Bool := whitespace.contains c

def isWord (c : Char) : Bool := !whitespace.contains c && !symbols.contains c

/-- The switch of `gettoken`: what it returns, and the end of the token. -/
def switch (buf : ℕ → Char) (es s : ℕ) : Char × ℕ :=
  match buf s with
  | '\x00' => ('\x00', s)
  | '|' => ('|', s + 1)
  | '(' => ('(', s + 1)
  | ')' => (')', s + 1)
  | ';' => (';', s + 1)
  | '&' => ('&', s + 1)
  | '<' => ('<', s + 1)
  | '>' => if buf (s + 1) = '>' then ('+', s + 2) else ('>', s + 1)
  | _ => ('a', skipWhile isWord buf (es - s) s)

/-- Returns the token with the addresses of its first character and of the
one behind it. -/
def gettoken (buf : ℕ → Char) (es : ℕ) : Prog String ℕ (Char × ℕ × ℕ) := fun s =>
  let q := skipWhile isBlank buf (es - s) s
  let (ret, eq) := switch buf es q
  .ok (ret, q, eq) (skipWhile isBlank buf (es - eq) eq)

def peek (buf : ℕ → Char) (es : ℕ) (toks : List Char) : Prog String ℕ Bool := fun s =>
  let s := skipWhile isBlank buf (es - s) s
  .ok (buf s ≠ '\x00' ∧ toks.contains (buf s)) s

/-! ### Commands -/

variable (buf : ℕ → Char) (es : ℕ)

def parseredirs : ℕ → Cmd → Prog String ℕ Cmd
  | 0, _ => stuck
  | fuel + 1, cmd => do
      if ← peek buf es ['<', '>'] then
        let (tok, _) ← gettoken buf es
        let (next, q, eq) ← gettoken buf es
        if next ≠ 'a' then fault "missing file for redirection"
        else
          parseredirs fuel <|
            match tok with
            | '<' => .redir cmd q eq oRdonly 0
            | '>' => .redir cmd q eq oWronlyCreate 1
            | '+' => .redir cmd q eq oWronlyCreate 1
            | _ => cmd
      else return cmd

/-- The loop of `parseexec`. -/
def parseargs : ℕ → ℕ → Cmd → Prog String ℕ Cmd
  | 0, _, _ => stuck
  | fuel + 1, argc, ret => do
      if ← peek buf es ['|', ')', '&', ';'] then return ret
      else
        let (tok, q, eq) ← gettoken buf es
        if tok = '\x00' then return ret
        else if tok ≠ 'a' then fault "syntax"
        else if argc + 1 ≥ maxargs then fault "too many args"
        else
          let ret ← parseredirs buf es fuel (ret.pushArg q eq)
          parseargs fuel (argc + 1) ret

/-- The loop of `parseline`. -/
def parsebacks : ℕ → Cmd → Prog String ℕ Cmd
  | 0, _ => stuck
  | fuel + 1, cmd => do
      if ← peek buf es ['&'] then
        let _ ← gettoken buf es
        parsebacks fuel (.back cmd)
      else return cmd

mutual

def parseline : ℕ → Prog String ℕ Cmd
  | 0 => stuck
  | fuel + 1 => do
      let cmd ← parsepipe fuel
      let cmd ← parsebacks buf es fuel cmd
      if ← peek buf es [';'] then
        let _ ← gettoken buf es
        let right ← parseline fuel
        return .list cmd right
      else return cmd

def parsepipe : ℕ → Prog String ℕ Cmd
  | 0 => stuck
  | fuel + 1 => do
      let cmd ← parseexec fuel
      if ← peek buf es ['|'] then
        let _ ← gettoken buf es
        let right ← parsepipe fuel
        return .pipe cmd right
      else return cmd

def parseblock : ℕ → Prog String ℕ Cmd
  | 0 => stuck
  | fuel + 1 => do
      if ← peek buf es ['('] then
        let _ ← gettoken buf es
        let cmd ← parseline fuel
        if ← peek buf es [')'] then
          let _ ← gettoken buf es
          parseredirs buf es fuel cmd
        else fault "syntax - missing )"
      else fault "parseblock"

def parseexec : ℕ → Prog String ℕ Cmd
  | 0 => stuck
  | fuel + 1 => do
      if ← peek buf es ['('] then parseblock fuel
      else
        let ret ← parseredirs buf es fuel (.exec [])
        parseargs buf es fuel 0 ret

end

/-- NUL-terminate all the counted strings. -/
def nulterminate : Cmd → (ℕ → Char) → ℕ → Char
  | .exec argv, buf => argv.foldl (fun buf arg => Function.update buf arg.2 '\x00') buf
  | .redir cmd _ efile _ _, buf => Function.update (nulterminate cmd buf) efile '\x00'
  | .pipe left right, buf => nulterminate right (nulterminate left buf)
  | .list left right, buf => nulterminate right (nulterminate left buf)
  | .back cmd, buf => nulterminate cmd buf

/-- The buffer that holds a string. -/
def bufferOf (str : List Char) : ℕ → Char := fun i => str.getD i '\x00'

/-- Returns the command and leaves the buffer with the words terminated. -/
def parsecmd (str : List Char) (fuel : ℕ) : Prog String ℕ (Cmd × (ℕ → Char)) := do
  let buf := bufferOf str
  let es := str.length
  let cmd ← parseline buf es fuel
  let _ ← peek buf es []
  let s ← get
  if s ≠ es then fault "syntax"
  else return (cmd, nulterminate cmd buf)

end Xv6.Sh
