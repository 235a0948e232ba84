import Xv6.Kernel.Param
import Mathlib.Logic.Function.Iterate

/-!
# The pseudo-random generator (`rand.c`)

`rand` is one step of the 16-bit shift register; it returns the new register. `randomAtMost max`
is the rejection sampler: its `do … while` loop may not end, so it takes the number of values
`rand` may still produce and returns what is left of it (`none`: the loop is still running when
they are used up). `long` and `unsigned long` are 32 bits wide on the i386.
-/

namespace Xv6

/-- The initial value of `lfsr`. -/
def lfsrInit : BitVec 16 := 0xACE1#16

def rand (lfsr : BitVec 16) : BitVec 16 :=
  let bit := ((lfsr >>> 0) ^^^ (lfsr >>> 2) ^^^ (lfsr >>> 3) ^^^ (lfsr >>> 5)) &&& 1#16
  (lfsr >>> 1) ||| (bit <<< 15)

/-- `65536UL - (65536UL % num_bins)`: results from here on are rejected. -/
def rejectFrom (numBins : Nat) : Nat := 65536 - 65536 % numBins

/-- The result of a draw: the number, the register after it, and how many values may still be
produced. -/
structure Draw where
  value : Int
  lfsr : BitVec 16
  fuel : Nat
  deriving DecidableEq, Repr

/-- The loop of `random_at_most`. -/
def drawLoop (numBins : Nat) : Nat → BitVec 16 → Option Draw
  | 0, _ => none
  | fuel + 1, lfsr =>
    let result := rand lfsr
    if result.toNat ≥ rejectFrom numBins then drawLoop numBins fuel result
    else some ⟨(result.toNat % numBins : Nat), result, fuel⟩

def randomAtMost (max : Int) (fuel : Nat) (lfsr : BitVec 16) : Option Draw :=
  if max ≤ 0 then some ⟨0, lfsr, fuel⟩ else drawLoop (max + 1).toNat fuel lfsr

end Xv6
