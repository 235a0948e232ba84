import Xv6.Kernel.Proc
import Xv6.Sched.Rand

/-!
# The lottery of `scheduler`

One pass of `scheduler`'s loop over a process table: `sumTickets` adds up the tickets of the
runnable processes in a 32-bit `int`, `randomAtMost` draws the winning number and `winnerWalk`
adds the tickets up again until the counter passes it. `lottery` is the pass; its result names the
process that `c->proc = p` dispatches, if any. `Rounds` runs passes over a table that stays fixed
until `rand` has produced a given number of values.
-/

namespace Xv6

/-- The first loop of `scheduler`, over the slots `ps`. -/
def sumTickets (pt : Ptable) : List Slot → Int → Int
  | [], total => total
  | p :: ps, total =>
    sumTickets pt ps (if (pt p).state = .runnable then int32 (total + (pt p).tickets) else total)

/-- The second loop of `scheduler`, over the slots `ps`: the process it stops at. -/
def winnerWalk (pt : Ptable) (winner : Int) : List Slot → Int → Option Slot
  | [], _ => none
  | p :: ps, counter =>
    if (pt p).state ≠ .runnable then winnerWalk pt winner ps counter
    else
      let counter := int32 (counter + (pt p).tickets)
      if counter > winner then some p else winnerWalk pt winner ps counter

/-- The outcome of a pass: the draw (none is made when `total_tickets` is not positive) and the
process dispatched. -/
structure Pass where
  draw : Option Int
  winner : Option Slot
  lfsr : BitVec 16
  fuel : Nat
  deriving DecidableEq, Repr

/-- One pass of `scheduler`'s loop. -/
def lottery (pt : Ptable) (fuel : Nat) (lfsr : BitVec 16) : Option Pass :=
  let totalTickets := sumTickets pt slots 0
  if totalTickets > 0 then
    (randomAtMost (int32 (totalTickets - 1)) fuel lfsr).map fun d =>
      ⟨some d.value, winnerWalk pt d.value slots 0, d.lfsr, d.fuel⟩
  else some ⟨none, none, lfsr, fuel⟩

/-- The passes made from the register `lfsr` over the fixed table `pt` until `rand` has produced
`fuel` values: `stop` is the pass that the last value leaves unfinished. -/
inductive Rounds (pt : Ptable) : Nat → BitVec 16 → List Pass → Prop
  | stop {fuel : Nat} {lfsr : BitVec 16} : lottery pt fuel lfsr = none → Rounds pt fuel lfsr []
  | round {fuel : Nat} {lfsr : BitVec 16} {r : Pass} {rs : List Pass} :
      lottery pt fuel lfsr = some r → Rounds pt r.fuel r.lfsr rs → Rounds pt fuel lfsr (r :: rs)

/-! ## The tickets of a table -/

/-- The runnable slots in table order. -/
def runnable (pt : Ptable) : List Slot := slots.filter fun p => (pt p).state = .runnable

/-- The number of tickets of a process. -/
def tickets (pt : Ptable) (p : Slot) : Nat := (pt p).tickets.toNat

/-- The number of tickets of all runnable processes, as an integer. -/
def ticketSum (pt : Ptable) : Nat := ((runnable pt).map (tickets pt)).sum

/-- Every runnable process holds a number of tickets that `allocproc` or `settickets` can give. -/
def TicketsOk (pt : Ptable) : Prop :=
  ∀ p, (pt p).state = .runnable → 0 < (pt p).tickets ∧ (pt p).tickets ≤ intMax

/-- `p` is the runnable process of lowest index: the owner of ticket `0`. -/
def Lowest (pt : Ptable) (p : Slot) : Prop :=
  (pt p).state = .runnable ∧ ∀ q, (pt q).state = .runnable → p ≤ q

end Xv6
