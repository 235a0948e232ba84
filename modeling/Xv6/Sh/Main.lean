import Xv6.Sh.Parse

/-!
# The main loop of the shell

`getcmd` and `main` of `sh.c`, with `gets` of `ulib.c`. The input is the sequence of characters that
`read(0, &c, 1)` returns, one by one, until it returns less than 1. `forks` says which calls of
`fork` succeed; when one fails, `fork1` panics and the shell exits.
-/

namespace Xv6.Sh

/-- What the main loop passes on. -/
inductive Passed
  | parsecmd (s : List Char)
  | chdir (path : List Char)
  deriving DecidableEq

/-- `sizeof(buf)`. -/
def bufSize : Nat := 100

/-- The loop of `gets`, with room for `n` characters: the string in `buf`, and the input that is
left. -/
def getsLoop : Nat → List Char → List Char × List Char
  | 0, s => ([], s)
  | _ + 1, [] => ([], [])
  | n + 1, c :: s =>
    if c = '\n' ∨ c = '\r' then ([c], s)
    else
      let (l, s) := getsLoop n s
      (c :: l, s)

def gets (max : Nat) (s : List Char) : List Char × List Char := getsLoop (max - 1) s

/-- `getcmd`: the string in `buf`, or `none` if it is empty, which is taken for the end of the
input. -/
def getcmd (s : List Char) : Option (List Char × List Char) :=
  let (buf, s) := gets bufSize s
  if deref buf 0 = nul then none else some (buf, s)

/-- `buf[0] == 'c' && buf[1] == 'd' && buf[2] == ' '`. -/
def isCd (buf : List Char) : Bool := deref buf 0 = 'c' && deref buf 1 = 'd' && deref buf 2 = ' '

/-- `buf + 3`, after `buf[strlen(buf)-1] = 0`. -/
def cdPath (buf : List Char) : List Char := (buf.take (buf.length - 1)).drop 3

/-- The loop of `main`, after `k` calls of `fork`: what it passes on, or `none` if the fuel has run
out. -/
def mainLoop (forks : Nat → Bool) : Nat → Nat → List Char → Option (List Passed)
  | 0, _, _ => none
  | n + 1, k, s =>
    match getcmd s with
    | none => some []
    | some (buf, s) =>
      if isCd buf then (mainLoop forks n k s).map (.chdir (cdPath buf) :: ·)
      else if forks k then (mainLoop forks n (k + 1) s).map (.parsecmd buf :: ·)
      else some []

/-! ## Lines -/

/-- The lines of the input, each with its newline, and what comes after the last newline. -/
def lines : List Char → List (List Char) × List Char
  | [] => ([], [])
  | c :: s =>
    let (ls, t) := lines s
    if c = '\n' then ([c] :: ls, t)
    else
      match ls with
      | l :: ls => ((c :: l) :: ls, t)
      | [] => ([], c :: t)

/-- The strings are passed on one by one, as far as `fork` succeeds. -/
def deliver (forks : Nat → Bool) : Nat → List (List Char) → List Passed
  | _, [] => []
  | k, buf :: ls =>
    if isCd buf then .chdir (cdPath buf) :: deliver forks k ls
    else if forks k then .parsecmd buf :: deliver forks (k + 1) ls
    else []

end Xv6.Sh
