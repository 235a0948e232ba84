import Xv6.Lib.Bytes
import Xv6.Lib.Pattern
import Xv6.User.Ulib

/-!
# `grep`

`grep.c`: the matcher of Kernighan and Pike, and the loop that reads the input. A string is the list
of its bytes before the NUL. `grep` works in place on `buf`, by offsets from its start: each call of
`read` appends a chunk of the input to what is left of the last line, the complete lines are cut off
with NULs and matched, and what comes after the last newline is moved to the front. The input is the
list of the chunks that the calls of `read` return.
-/

namespace Xv6.Grep

open Lib

/-- The byte of a character constant. -/
def chr (c : Char) : UInt8 := UInt8.ofNat c.toNat

/-- `matchstar(c, re, text)`: search for `c*re` at the beginning of `text`, where `here` is
`matchhere(re, ·)`. -/
def matchstar (here : List UInt8 → Bool) (c : UInt8) (text : List UInt8) : Bool :=
  Pattern.scan here (fun t => t == c || c == chr '.') text

/-- `*text != '\0' && (re[0] == '.' || re[0] == *text)`, and then `rest(text + 1)`. -/
def matchchar (c : UInt8) (rest : List UInt8 → Bool) : List UInt8 → Bool
  | [] => false
  | t :: text => (c == chr '.' || c == t) && rest text

/-- Search for `re` at the beginning of `text`. -/
def matchhere : List UInt8 → List UInt8 → Bool
  | [], _ => true
  | [c], text => if c = chr '$' then text.isEmpty else matchchar c (matchhere []) text
  | c :: c' :: re, text =>
    if c' = chr '*' then matchstar (matchhere re) c text else matchchar c (matchhere (c' :: re)) text

/-- `match(re, text)`. -/
def matchRe (re text : List UInt8) : Bool :=
  match re with
  | [] => Pattern.scan (matchhere []) (fun _ => true) text
  | c :: re =>
    if c = chr '^' then matchhere re text
    else Pattern.scan (matchhere (c :: re)) (fun _ => true) text

/-- `sizeof(buf)`. -/
def bufSize : Nat := 1024

abbrev Buf := Nat → UInt8

/-- How a run ends that does not get to the end of the input. -/
inductive Stop
  /-- A chunk that is longer than what `read` was asked for. -/
  | chunk
  /-- An access outside of `buf`. -/
  | overrun
  deriving DecidableEq

/-- The string at `p`. -/
def str (buf : Buf) (p : Nat) : List UInt8 := (readRange buf p (bufSize - p)).takeWhile (· ≠ 0)

/-- One turn of the loop over the lines, with the newline at `q`: `buf`, and what is written. -/
def grepLine (pattern : List UInt8) (buf : Buf) (p q : Nat) : Buf × List (List UInt8) :=
  let buf := Function.update buf q 0
  if matchRe pattern (str buf p) then
    let buf := Function.update buf q (chr '\n')
    (buf, [readRange buf p (q + 1 - p)])
  else (buf, [])

/-- The loop over the lines from `p` on, for at most `n` turns: `buf`, `p` and what is written. -/
def grepLines (pattern : List UInt8) : Nat → Buf → Nat → Except Stop (Buf × Nat × List (List UInt8))
  | 0, _, _ => .error .overrun
  | n + 1, buf, p =>
    match Ulib.strchr buf (chr '\n') (bufSize - p) p with
    | none => .error .overrun
    | some none => .ok (buf, p, [])
    | some (some q) => do
      let (buf, w) := grepLine pattern buf p q
      let (buf, p, ws) ← grepLines pattern n buf (q + 1)
      return (buf, p, w ++ ws)

/-- What follows a `read` that has returned the chunk: `buf`, `m` and what is written. -/
def grepChunk (pattern : List UInt8) (buf : Buf) (m : Nat) (chunk : List UInt8) :
    Except Stop (Buf × Nat × List (List UInt8)) := do
  let buf := writeRange buf m chunk
  let m := m + chunk.length
  let buf := Function.update buf m 0
  let (buf, p, ws) ← grepLines pattern bufSize buf 0
  let m := if p = 0 then 0 else m
  if m > 0 then
    let m := m - p
    return ((Ulib.memmove buf 0 p m).1, m, ws)
  else return (buf, m, ws)

/-- The loop of `grep`: what is written until `read` returns 0, at the end of the input or because
it is asked for 0 bytes. -/
def grepLoop (pattern : List UInt8) : List (List UInt8) → Buf → Nat →
    Except Stop (List (List UInt8))
  | [], _, _ => .ok []
  | chunk :: chunks, buf, m => do
    let max := bufSize - m - 1
    if max = 0 ∨ chunk = [] then return []
    else if chunk.length > max then throw .chunk
    else
      let (buf, m, ws) ← grepChunk pattern buf m chunk
      let ws' ← grepLoop pattern chunks buf m
      return ws ++ ws'

/-- `grep(pattern, fd)`, on an input that is read in these chunks, with `buf` as it is: the calls of
`write(1, ...)`. -/
def grep (pattern : List UInt8) (buf : Buf) (chunks : List (List UInt8)) :
    Except Stop (List (List UInt8)) :=
  grepLoop pattern chunks buf 0

end Xv6.Grep
