import Xv6.Sh.Parse

/-!
# The grammar of a command line

The tokens of a command string, the derivations of the grammar

    line  ::= pipe '&'* [';' line]
    pipe  ::= exec ['|' pipe]
    exec  ::= '(' line ')' redir*  |  redir* (WORD redir*)*
    redir ::= ('<' | '>' | '>>') WORD

with at most `MAXARGS - 1` words of its own in an `exec`, and what each derivation stands for: the
tokens it derives (`yield`), and the tree that the shell runs (`tree`).
-/

namespace Xv6.Sh

inductive RedirOp
  | lt
  | gt
  | gtgt
  deriving DecidableEq

inductive Tok
  | redir (op : RedirOp)
  | bar
  | amp
  | semi
  | lpar
  | rpar
  | word (w : List Char)
  deriving DecidableEq

/-- The token of a symbol, `>>` apart. -/
def symbolTok : Char → Option Tok
  | '<' => some (.redir .lt)
  | '>' => some (.redir .gt)
  | '|' => some .bar
  | '&' => some .amp
  | ';' => some .semi
  | '(' => some .lpar
  | ')' => some .rpar
  | _ => none

/-- A character of a word is put before the tokens of what follows it: before the word that goes on,
or as the last character of one. -/
def consWord (c : Char) (goesOn : Bool) : List Tok → List Tok
  | .word w :: ts => if goesOn then .word (c :: w) :: ts else .word [c] :: .word w :: ts
  | ts => .word [c] :: ts

/-- The tokens of a string: whitespace separates, `>>` is one token, and a word is as long as it can
be. -/
def tokens : List Char → List Tok
  | [] => []
  | '>' :: '>' :: s => .redir .gtgt :: tokens s
  | c :: s =>
    if isWhitespace c then tokens s
    else
      match symbolTok c with
      | some t => t :: tokens s
      | none => consWord c (s.head?.any isWordChar) (tokens s)

/-- What the shell runs. -/
inductive Tree
  | exec (argv : List (List Char))
  | redir (cmd : Tree) (file : List Char) (mode fd : Nat)
  | pipe (left right : Tree)
  | list (left right : Tree)
  | back (cmd : Tree)
  deriving DecidableEq

/-- The string at a pointer. -/
def cstring (mem : List Char) (p : Nat) : List Char := (mem.drop p).takeWhile (· ≠ nul)

/-- The command as `runcmd` reads it: `argv` ends at the first null pointer. -/
def Cmd.read (mem : List Char) : Cmd → Tree
  | .exec argv _ => .exec ((argv.takeWhile Option.isSome).filterMap fun p => p.map (cstring mem))
  | .redir cmd file _ mode fd => .redir (cmd.read mem) (cstring mem file) mode fd
  | .pipe left right => .pipe (left.read mem) (right.read mem)
  | .list left right => .list (left.read mem) (right.read mem)
  | .back cmd => .back (cmd.read mem)

structure Redir where
  op : RedirOp
  file : List Char
  deriving DecidableEq

mutual
inductive Line
  | last (p : Pipe) (amps : Nat)
  | seq (p : Pipe) (amps : Nat) (l : Line)

inductive Pipe
  | exec (e : Exec)
  | pipe (e : Exec) (p : Pipe)

inductive Exec
  | block (l : Line) (rs : List Redir)
  | simple (rs : List Redir) (args : List (List Char × List Redir))
end

/-! ## The tokens of a derivation -/

def Redir.yield (r : Redir) : List Tok := [.redir r.op, .word r.file]

def redirsYield (rs : List Redir) : List Tok := rs.flatMap Redir.yield

def argsYield (args : List (List Char × List Redir)) : List Tok :=
  args.flatMap fun a => .word a.1 :: redirsYield a.2

mutual
def Line.yield : Line → List Tok
  | .last p amps => p.yield ++ List.replicate amps .amp
  | .seq p amps l => p.yield ++ List.replicate amps .amp ++ .semi :: l.yield

def Pipe.yield : Pipe → List Tok
  | .exec e => e.yield
  | .pipe e p => e.yield ++ .bar :: p.yield

def Exec.yield : Exec → List Tok
  | .block l rs => .lpar :: l.yield ++ .rpar :: redirsYield rs
  | .simple rs args => redirsYield rs ++ argsYield args
end

/-! ## The words fit into `argv` -/

mutual
def Line.Fits : Line → Prop
  | .last p _ => p.Fits
  | .seq p _ l => p.Fits ∧ l.Fits

def Pipe.Fits : Pipe → Prop
  | .exec e => e.Fits
  | .pipe e p => e.Fits ∧ p.Fits

def Exec.Fits : Exec → Prop
  | .block l _ => l.Fits
  | .simple _ args => args.length < MAXARGS
end

/-! ## The tree of a derivation -/

/-- The mode and the file descriptor of a redirection. -/
def RedirOp.open : RedirOp → Nat × Nat
  | .lt => (O_RDONLY, 0)
  | .gt | .gtgt => (O_WRONLY ||| O_CREATE, 1)

/-- A command under redirections, the first innermost. -/
def Tree.redirs (t : Tree) (rs : List Redir) : Tree :=
  rs.foldl (fun t r => .redir t r.file r.op.open.1 r.op.open.2) t

def Tree.backs (t : Tree) : Nat → Tree
  | 0 => t
  | n + 1 => (Tree.back t).backs n

mutual
def Line.tree : Line → Tree
  | .last p amps => p.tree.backs amps
  | .seq p amps l => .list (p.tree.backs amps) l.tree

def Pipe.tree : Pipe → Tree
  | .exec e => e.tree
  | .pipe e p => .pipe e.tree p.tree

def Exec.tree : Exec → Tree
  | .block l rs => l.tree.redirs rs
  | .simple rs args => (Tree.exec (args.map Prod.fst)).redirs (rs ++ args.flatMap Prod.snd)
end

/-! ## Recursive descent over tokens

The functions of the shell over a list of tokens in place of the string, with the derivation as
their
result. -/

def tokRedirs : Nat → List Tok → Except Stop (List Redir × List Tok)
  | 0, _ => .error .fuel
  | n + 1, .redir op :: .word w :: ts => do
    let (rs, ts) ← tokRedirs n ts
    return (⟨op, w⟩ :: rs, ts)
  | _ + 1, .redir _ :: _ => .error (.panic "missing file for redirection")
  | _ + 1, ts => .ok ([], ts)

def tokArgs : Nat → Nat → List Tok → Except Stop (List (List Char × List Redir) × List Tok)
  | 0, _, _ => .error .fuel
  | n + 1, argc, .word w :: ts =>
    if argc + 1 ≥ MAXARGS then .error (.panic "too many args")
    else do
      let (rs, ts) ← tokRedirs n ts
      let (args, ts) ← tokArgs n (argc + 1) ts
      return ((w, rs) :: args, ts)
  | _ + 1, _, .redir _ :: _ | _ + 1, _, .lpar :: _ => .error (.panic "syntax")
  | _ + 1, _, ts => .ok ([], ts)

def tokBacks : Nat → List Tok → Except Stop (Nat × List Tok)
  | 0, _ => .error .fuel
  | n + 1, .amp :: ts => do
    let (k, ts) ← tokBacks n ts
    return (k + 1, ts)
  | _ + 1, ts => .ok (0, ts)

mutual
def tokLine : Nat → List Tok → Except Stop (Line × List Tok)
  | 0, _ => .error .fuel
  | n + 1, ts => do
    let (p, ts) ← tokPipe n ts
    let (k, ts) ← tokBacks n ts
    match ts with
    | .semi :: ts =>
      let (l, ts) ← tokLine n ts
      return (.seq p k l, ts)
    | ts => return (.last p k, ts)

def tokPipe : Nat → List Tok → Except Stop (Pipe × List Tok)
  | 0, _ => .error .fuel
  | n + 1, ts => do
    let (e, ts) ← tokExec n ts
    match ts with
    | .bar :: ts =>
      let (p, ts) ← tokPipe n ts
      return (.pipe e p, ts)
    | ts => return (.exec e, ts)

def tokBlock : Nat → List Tok → Except Stop (Exec × List Tok)
  | 0, _ => .error .fuel
  | n + 1, .lpar :: ts => do
    let (l, ts) ← tokLine n ts
    match ts with
    | .rpar :: ts =>
      let (rs, ts) ← tokRedirs n ts
      return (.block l rs, ts)
    | _ => .error (.panic "syntax - missing )")
  | _ + 1, _ => .error (.panic "parseblock")

def tokExec : Nat → List Tok → Except Stop (Exec × List Tok)
  | 0, _ => .error .fuel
  | n + 1, .lpar :: ts => tokBlock n (.lpar :: ts)
  | n + 1, ts => do
    let (rs, ts) ← tokRedirs n ts
    let (args, ts) ← tokArgs n 0 ts
    return (.simple rs args, ts)
end

end Xv6.Sh
