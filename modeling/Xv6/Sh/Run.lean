import Xv6.Sh.Grammar
import Mathlib.Logic.Function.Basic

/-!
# The shell runs a command

`runcmd` of `sh.c`, on the command as it reads it. A process has its open files, and keeps the
system calls that it has made; `runcmd` never returns, so what it leads to is the last state of the
process, after the processes that it has forked. What the kernel may answer in more than one way is
given by `Kernel`.
-/

namespace Xv6.Sh

def NOFILE : Nat := 16

/-- What a descriptor is open for: a file that the shell has opened, an end of its `n`-th pipe, or
something that was open before. -/
inductive Ofile
  | file (path : List Char) (mode : Nat)
  | pipeRead (n : Nat)
  | pipeWrite (n : Nat)
  | other (n : Nat)
  deriving DecidableEq

/-- A system call, with its result where the shell looks at it. -/
inductive Call
  | close (fd : Nat)
  | open (path : List Char) (mode : Nat) (ret : Option Nat)
  | dup (fd : Nat)
  | pipe (ret : Option (Nat × Nat))
  | fork (ok : Bool)
  | wait
  | exec (argv : List (List Char)) (ok : Bool)
  | printf (fd : Nat) (text : List Char)
  | exit
  deriving DecidableEq

structure Process where
  ofile : Nat → Option Ofile
  calls : List Call

/-- Whether a call of a process succeeds, as far as its own descriptors do not decide that. -/
structure Kernel where
  opens : Process → List Char → Nat → Bool
  pipes : Process → Bool
  forks : Process → Bool
  execs : Process → List (List Char) → Bool

def Process.call (p : Process) (c : Call) : Process := { p with calls := p.calls ++ [c] }

/-- `fdalloc`: the first free descriptor. -/
def Process.fdalloc (p : Process) : Option Nat :=
  (List.range NOFILE).find? fun fd => (p.ofile fd).isNone

def Process.setFile (p : Process) (fd : Nat) (f : Option Ofile) : Process :=
  { p with ofile := Function.update p.ofile fd f }

def Process.close (p : Process) (fd : Nat) : Process := (p.setFile fd none).call (.close fd)

/-- `open`: the descriptor, and the process after the call. -/
def Process.open (K : Kernel) (p : Process) (path : List Char) (mode : Nat) :
    Option Nat × Process :=
  match p.fdalloc with
  | some fd =>
    if K.opens p path mode then
      (some fd, (p.setFile fd (some (.file path mode))).call (.open path mode (some fd)))
    else (none, p.call (.open path mode none))
  | none => (none, p.call (.open path mode none))

def Process.dup (p : Process) (fd : Nat) : Process :=
  match p.fdalloc with
  | some fd' => (p.setFile fd' (p.ofile fd)).call (.dup fd)
  | none => p.call (.dup fd)

/-- `pipe`: the two descriptors, and the process after the call. -/
def Process.pipe (K : Kernel) (p : Process) : Option (Nat × Nat) × Process :=
  let n := p.calls.length
  match p.fdalloc with
  | some fd0 =>
    match (p.setFile fd0 (some (.pipeRead n))).fdalloc with
    | some fd1 =>
      if K.pipes p then
        (some (fd0, fd1), ((p.setFile fd0 (some (.pipeRead n))).setFile fd1 (some (.pipeWrite n))).call
          (.pipe (some (fd0, fd1))))
      else (none, p.call (.pipe none))
    | none => (none, p.call (.pipe none))
  | none => (none, p.call (.pipe none))

def Process.printf (p : Process) (text : String) : Process := p.call (.printf 2 text.toList)

def Process.printfFile (p : Process) (before : String) (file : List Char)
    (after : String) : Process :=
  p.call (.printf 2 (before.toList ++ file ++ after.toList))

def Process.exit (p : Process) : Process := p.call .exit

def Process.panic (p : Process) (s : String) : Process := (p.printf (s ++ "\n")).exit

/-- The child has the open files of its parent, and has made no call. -/
def Process.child (p : Process) : Process := { p with calls := [] }

/-- `fork1` in `p`: its child does `left`, and it goes on with `k`; or it panics. -/
def fork1 (K : Kernel) (p : Process) (left : Process → List Process × Process)
    (k : Process → List Process × Process) : List Process × Process :=
  if K.forks p then
    let (cs, c) := left p.child
    let (ds, q) := k (p.call (.fork true))
    (cs ++ c :: ds, q)
  else ([], (p.call (.fork false)).panic "fork")

/-- `runcmd`: the processes that `p` has forked, and `p` itself. -/
def runcmd (K : Kernel) : Tree → Process → List Process × Process
  | .exec [], p => ([], p.exit)
  | .exec (a :: argv), p =>
    if K.execs p (a :: argv) then ([], p.call (.exec (a :: argv) true))
    else ([], ((p.call (.exec (a :: argv) false)).printfFile "exec " a " failed\n").exit)
  | .redir cmd file mode fd, p =>
    match (p.close fd).open K file mode with
    | (some _, p) => runcmd K cmd p
    | (none, p) => ([], (p.printfFile "open " file " failed\n").exit)
  | .list left right, p =>
    fork1 K p (runcmd K left) fun p => runcmd K right (p.call .wait)
  | .pipe left right, p =>
    match p.pipe K with
    | (none, p) => ([], p.panic "pipe")
    | (some (p0, p1), p) =>
      fork1 K p (fun c => runcmd K left ((((c.close 1).dup p1).close p0).close p1)) fun p =>
        fork1 K p (fun c => runcmd K right ((((c.close 0).dup p0).close p0).close p1)) fun p =>
          ([], ((((p.close p0).close p1).call .wait).call .wait).exit)
  | .back cmd, p => fork1 K p (runcmd K cmd) fun p => ([], p.exit)

end Xv6.Sh
