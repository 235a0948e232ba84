import Mathlib.Data.List.Basic

/-!
# The parser of the shell

The parser of `sh.c`. `buf` is the command string up to its NUL; a pointer into it is an offset, and
`es` is `buf.length`. A command keeps the pointers of its words, and `nulterminate` writes a NUL at
the end of each one into the buffer. The loops and the recursion take fuel: to run out of it is an
error of its own, as is an access outside of `argv`. A node is changed through the pointer `cmd`
after it has been put under redirections; that is `setArg`.
-/

namespace Xv6.Sh

def MAXARGS : Nat := 10

def O_RDONLY : Nat := 0x000
def O_WRONLY : Nat := 0x001
def O_CREATE : Nat := 0x200

def nul : Char := Char.ofNat 0

def whitespace : List Char := [' ', '\t', '\r', '\n', Char.ofNat 11]

def symbols : List Char := ['<', '|', '>', '&', ';', '(', ')']

/-- How a call ends when it does not return. -/
inductive Stop
  | panic (msg : String)
  /-- `leftovers: %s` is printed before `panic("syntax")`. -/
  | leftovers (s : List Char)
  /-- An access past `argv[MAXARGS-1]`. -/
  | overrun
  /-- The model has run out of fuel. -/
  | fuel
  deriving DecidableEq

/-- `struct cmd` of each type. The null pointer is `none`. -/
inductive Cmd
  | exec (argv eargv : List (Option Nat))
  | redir (cmd : Cmd) (file efile : Nat) (mode fd : Nat)
  | pipe (left right : Cmd)
  | list (left right : Cmd)
  | back (cmd : Cmd)
  deriving DecidableEq

def execcmd : Cmd := .exec (List.replicate MAXARGS none) (List.replicate MAXARGS none)

/-- `cmd->argv[argc] = q; cmd->eargv[argc] = eq`, where `cmd` is the node under the redirections. -/
def setArg (argc : Nat) (q eq : Option Nat) : Cmd → Except Stop Cmd
  | .exec argv eargv =>
    if argc < MAXARGS then .ok (.exec (argv.set argc q) (eargv.set argc eq)) else .error .overrun
  | .redir cmd file efile mode fd => do
    let cmd ← setArg argc q eq cmd
    return .redir cmd file efile mode fd
  | cmd => .ok cmd

section
variable (buf : List Char)

/-- `*s`. -/
def deref (s : Nat) : Char := buf.getD s nul

/-- `while(s < es && f(*s)) s++`, with `n` for `es - s`. -/
def skipLoop (f : Char → Bool) : Nat → Nat → Nat
  | 0, s => s
  | n + 1, s => if f (deref buf s) then skipLoop f n (s + 1) else s

def skip (f : Char → Bool) (s : Nat) : Nat := skipLoop buf f (buf.length - s) s

def isWhitespace (c : Char) : Bool := whitespace.contains c

def isWordChar (c : Char) : Bool := !whitespace.contains c && !symbols.contains c

/-- What `gettoken` returns, `*q`, `*eq` and `*ps`. -/
structure Token where
  ret : Char
  q : Nat
  eq : Nat
  ps : Nat

/-- The `switch` of `gettoken` at `s`: `ret` and the new `s`. -/
def gettokenSwitch (s : Nat) : Char × Nat :=
  if deref buf s = nul then (nul, s)
  else if ['|', '(', ')', ';', '&', '<'].contains (deref buf s) then (deref buf s, s + 1)
  else if deref buf s = '>' then
    if deref buf (s + 1) = '>' then ('+', s + 2) else ('>', s + 1)
  else ('a', skip buf isWordChar s)

def gettoken (ps : Nat) : Token :=
  let q := skip buf isWhitespace ps
  let (ret, eq) := gettokenSwitch buf q
  ⟨ret, q, eq, skip buf isWhitespace eq⟩

/-- `peek`: whether the next character is one of `toks`, and the new `*ps`. -/
def peek (ps : Nat) (toks : List Char) : Bool × Nat :=
  let s := skip buf isWhitespace ps
  (deref buf s ≠ nul ∧ toks.contains (deref buf s), s)

def parseredirs : Nat → Cmd → Nat → Except Stop (Cmd × Nat)
  | 0, _, _ => .error .fuel
  | n + 1, cmd, ps =>
    let (more, ps) := peek buf ps ['<', '>']
    if more then
      let tok := gettoken buf ps
      let file := gettoken buf tok.ps
      if file.ret ≠ 'a' then .error (.panic "missing file for redirection")
      else
        let cmd' :=
          if tok.ret = '<' then .redir cmd file.q file.eq O_RDONLY 0
          else if tok.ret = '>' then .redir cmd file.q file.eq (O_WRONLY ||| O_CREATE) 1
          else if tok.ret = '+' then .redir cmd file.q file.eq (O_WRONLY ||| O_CREATE) 1
          else cmd
        parseredirs n cmd' file.ps
    else .ok (cmd, ps)

/-- The `while` loop of `parseexec`: the new `ret`, `argc` and `*ps`. -/
def parseargs : Nat → Cmd → Nat → Nat → Except Stop ((Cmd × Nat) × Nat)
  | 0, _, _, _ => .error .fuel
  | n + 1, ret, argc, ps =>
    let (stop, ps) := peek buf ps ['|', ')', '&', ';']
    if stop then .ok ((ret, argc), ps)
    else
      let tok := gettoken buf ps
      if tok.ret = nul then .ok ((ret, argc), tok.ps)
      else if tok.ret ≠ 'a' then .error (.panic "syntax")
      else do
        let ret ← setArg argc (some tok.q) (some tok.eq) ret
        if argc + 1 ≥ MAXARGS then .error (.panic "too many args")
        else
          let (ret, ps) ← parseredirs buf n ret tok.ps
          parseargs n ret (argc + 1) ps

/-- The `while(peek(ps, es, "&"))` loop of `parseline`. -/
def parsebacks : Nat → Cmd → Nat → Except Stop (Cmd × Nat)
  | 0, _, _ => .error .fuel
  | n + 1, cmd, ps =>
    let (more, ps) := peek buf ps ['&']
    if more then parsebacks n (.back cmd) (gettoken buf ps).ps else .ok (cmd, ps)

mutual
def parseline : Nat → Nat → Except Stop (Cmd × Nat)
  | 0, _ => .error .fuel
  | n + 1, ps => do
    let (cmd, ps) ← parsepipe n ps
    let (cmd, ps) ← parsebacks buf n cmd ps
    let (more, ps) := peek buf ps [';']
    if more then
      let (right, ps) ← parseline n (gettoken buf ps).ps
      return (.list cmd right, ps)
    else return (cmd, ps)

def parsepipe : Nat → Nat → Except Stop (Cmd × Nat)
  | 0, _ => .error .fuel
  | n + 1, ps => do
    let (cmd, ps) ← parseexec n ps
    let (more, ps) := peek buf ps ['|']
    if more then
      let (right, ps) ← parsepipe n (gettoken buf ps).ps
      return (.pipe cmd right, ps)
    else return (cmd, ps)

def parseblock : Nat → Nat → Except Stop (Cmd × Nat)
  | 0, _ => .error .fuel
  | n + 1, ps =>
    let (opens, ps) := peek buf ps ['(']
    if opens then do
      let (cmd, ps) ← parseline n (gettoken buf ps).ps
      let (closes, ps) := peek buf ps [')']
      if closes then parseredirs buf n cmd (gettoken buf ps).ps
      else .error (.panic "syntax - missing )")
    else .error (.panic "parseblock")

def parseexec : Nat → Nat → Except Stop (Cmd × Nat)
  | 0, _ => .error .fuel
  | n + 1, ps =>
    let (opens, ps) := peek buf ps ['(']
    if opens then parseblock n ps
    else do
      let (ret, ps) ← parseredirs buf n execcmd ps
      let ((ret, argc), ps) ← parseargs buf n ret 0 ps
      let ret ← setArg argc none none ret
      return (ret, ps)
end

end

/-- The loop of `nulterminate` over `argv`, which ends at the first null pointer. -/
def nulArgs : List (Option Nat) → List (Option Nat) → List Char → Except Stop (List Char)
  | none :: _, _, mem => .ok mem
  | some _ :: argv, some eq :: eargv, mem => nulArgs argv eargv (mem.set eq nul)
  | _, _, _ => .error .overrun

/-- `nulterminate`, on the memory of the command string with its NUL. -/
def nulterminate : Cmd → List Char → Except Stop (List Char)
  | .exec argv eargv, mem => nulArgs argv eargv mem
  | .redir cmd _ efile _ _, mem => do
    let mem ← nulterminate cmd mem
    return mem.set efile nul
  | .pipe left right, mem | .list left right, mem => do
    let mem ← nulterminate left mem
    nulterminate right mem
  | .back cmd, mem => nulterminate cmd mem

/-- `parsecmd`: the command, and the memory that its pointers point into. -/
def parsecmd (fuel : Nat) (buf : List Char) : Except Stop (Cmd × List Char) := do
  let (cmd, s) ← parseline buf fuel 0
  let (_, s) := peek buf s []
  if s ≠ buf.length then .error (.leftovers (buf.drop s))
  else
    let mem ← nulterminate cmd (buf ++ [nul])
    return (cmd, mem)

end Xv6.Sh
