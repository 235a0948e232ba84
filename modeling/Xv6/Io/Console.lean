import Xv6.Lib.Ring
import Xv6.Lib.Run

/-!
# Console input

`consoleintr` and `consoleread` of `console.c`. The characters lie in a ring, with three counters
that are `uint`s and wrap: `r` for what has been read, `w` for what readers may read, `e` for what
has been typed. All of it is guarded by `cons.lock`, so a batch of characters that `consoleintr`
gets is one step, and so is `consoleread` from `acquire`, or from its return from `sleep`, to its
next `sleep` or `release`. Any processes (`P`) read at the same time. What is echoed on the screen,
and the process listing of `^P`, are left out.
-/

namespace Xv6.Console

open Lib Function

def inputBuf : Nat := 128

instance : NeZero inputBuf := ⟨by decide⟩

abbrev lf : UInt8 := 10
abbrev cr : UInt8 := 13
abbrev del : UInt8 := 0x7f
/-- `C('D')`, and so on. -/
abbrev ctrlD : UInt8 := 4
abbrev ctrlH : UInt8 := 8
abbrev ctrlP : UInt8 := 16
abbrev ctrlU : UInt8 := 21

structure Input where
  buf : Fin inputBuf → UInt8
  r : BitVec 32
  w : BitVec 32
  e : BitVec 32

/-- The loop of `case C('U')`, for at most `n` turns. -/
def killLine : Nat → Input → Input
  | 0, i => i
  | n + 1, i =>
    if i.e ≠ i.w ∧ i.buf (Ring.cell (i.e - 1)) ≠ lf then killLine n { i with e := i.e - 1 } else i

/-- The loop of `consoleintr` for one character, and whether it calls `wakeup`. -/
def Input.type (i : Input) (c : UInt8) : Input × Bool :=
  if c = ctrlP then (i, false)
  -- `e` goes down to `w` at most
  else if c = ctrlU then (killLine (i.e - i.w).toNat i, false)
  else if c = ctrlH ∨ c = del then (if i.e ≠ i.w then { i with e := i.e - 1 } else i, false)
  else if c ≠ 0 ∧ (i.e - i.r).toNat < inputBuf then
    let c := if c = cr then lf else c
    let i := { i with buf := update i.buf (Ring.cell i.e) c, e := i.e + 1 }
    if c = lf ∨ c = ctrlD ∨ i.e = i.r + BitVec.ofNat 32 inputBuf then ({ i with w := i.e }, true)
    else (i, false)
  else (i, false)

/-- `consoleintr`, for the characters that `getc` returns. -/
def consoleintr (i : Input) : List UInt8 → Input × Bool
  | [] => (i, false)
  | c :: cs =>
    let x := i.type c
    let y := consoleintr x.1 cs
    (y.1, x.2 || y.2)

/-- How a stretch of `consoleread` ends: asleep with `n` bytes to go, or with a result. -/
inductive ReadEnd
  | sleep (n : Nat)
  | ret (v : Int)
  deriving DecidableEq

/-- What a stretch of `consoleread` leaves: the bytes it has stored, and whether it has used up a
`^D`. -/
structure Stretch where
  input : Input
  out : List UInt8
  eof : Bool
  fin : ReadEnd

/-- `consoleread` under the lock, with `n` bytes of `target` to go. -/
def consoleread (killed : Bool) (target : Nat) : Nat → Input → Stretch
  | 0, i => ⟨i, [], false, .ret target⟩
  | n + 1, i =>
    if i.r = i.w then ⟨i, [], false, if killed then .ret (-1) else .sleep (n + 1)⟩
    else
      let c := i.buf (Ring.cell i.r)
      let j := { i with r := i.r + 1 }
      if c = ctrlD then
        -- save ^D for next time, to make sure caller gets a 0-byte result
        if n + 1 < target then ⟨{ j with r := j.r - 1 }, [], false, .ret (target - (n + 1 : Nat))⟩
        else ⟨j, [], true, .ret (target - (n + 1 : Nat))⟩
      else if c = lf then ⟨j, [c], false, .ret (target - n)⟩
      else
        let x := consoleread killed target n j
        { x with out := c :: x.out }

/-- Where a process is: outside of `consoleread`, which has returned `v` last, or asleep or woken up
in it, with `n` bytes of `target` to go. -/
inductive Pc
  | out (v : Int)
  | reading (target n : Nat) (asleep : Bool)

/-- `wakeup(&input.r)`. -/
def Pc.wake : Pc → Pc
  | .reading target n _ => .reading target n false
  | .out v => .out v

structure State (P : Type) where
  input : Input
  pc : P → Pc
  /-- What the last call of the process has stored. -/
  dst : P → List UInt8
  killed : P → Bool

inductive Act (P : Type)
  | intr (cs : List UInt8)
  | read (p : P) (n : Int)
  | resume (p : P)
  | kill (p : P)

/-- A stretch of a call: its process, its `target`, and what it has stored before. -/
structure Part (P : Type) extends Stretch where
  proc : P
  target : Nat
  before : List UInt8

section
variable {P : Type}

/-- The stretch of `consoleread` that a step runs. -/
def State.part (s : State P) : Act P → Option (Part P)
  -- with `n ≤ 0` the loop is not entered, and `target - n` is 0
  | .read p n =>
    match s.pc p with
    | .out _ => some ⟨consoleread (s.killed p) n.toNat n.toNat s.input, p, n.toNat, []⟩
    | _ => none
  | .resume p =>
    match s.pc p with
    | .reading target n false =>
      some ⟨consoleread (s.killed p) target n s.input, p, target, s.dst p⟩
    | _ => none
  | _ => none

variable [DecidableEq P]

def step (s : State P) : Act P → Option (State P)
  | .intr cs =>
    let x := consoleintr s.input cs
    some { s with input := x.1, pc := fun p => if x.2 then (s.pc p).wake else s.pc p }
  | .kill p =>
    some { s with
      killed := update s.killed p true, pc := update s.pc p (s.pc p).wake }
  | a => (s.part a).map fun x =>
    { s with
      input := x.input
      dst := update s.dst x.proc (x.before ++ x.out)
      pc := update s.pc x.proc (match x.fin with
        | .sleep n => .reading x.target n true
        | .ret v => .out v) }

def boot (buf : Fin inputBuf → UInt8) : State P :=
  ⟨⟨buf, 0, 0, 0⟩, fun _ => .out 0, fun _ => [], fun _ => false⟩

end

end Xv6.Console
