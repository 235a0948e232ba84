import Mathlib.Dynamics.PeriodicPts.Defs

/-!
# XOR-linear maps on bit vectors

A map `f` with `f (x ^^^ y) = f x ^^^ f y` is determined by its values at the `w` one-bit vectors
(`XorLinear.eq_combine`), and its iterates are XOR-linear too. So a table of `f^[n]` at the one-bit
vectors gives `f^[n]` everywhere (`XorLinear.iterate_eq_combine`), and `f^[m * n]` by repeating the
table `m` times (`XorLinear.iterate_mul_eq`): long iterates are evaluated with short ones.
-/

namespace Lib

variable {w : Nat}

/-- `f` commutes with XOR. -/
def XorLinear (f : BitVec w → BitVec w) : Prop := ∀ x y, f (x ^^^ y) = f x ^^^ f y

/-- The XOR of the vectors `cols` at the positions, counted from `i`, of the bits set in `x`. -/
def combine : List (BitVec w) → Nat → BitVec w → BitVec w
  | [], _, _ => 0#w
  | c :: cs, i, x => (if x.getLsbD i then c else 0#w) ^^^ combine cs (i + 1) x

/-- The one-bit vectors `2 ^ i, …, 2 ^ (i + n - 1)`. -/
def oneBits (w i n : Nat) : List (BitVec w) := (List.range' i n).map (BitVec.twoPow w)

theorem getLsbD_combine_oneBits (x : BitVec w) (j : Nat) :
    ∀ n i, i + n = w →
      (combine (oneBits w i n) i x).getLsbD j = (decide (i ≤ j) && x.getLsbD j)
  | 0, i, h => by
    simp only [oneBits, List.range'_zero, List.map_nil, combine, BitVec.getLsbD_zero]
    by_cases hj : i ≤ j
    · rw [BitVec.getLsbD_of_ge x j (by omega), Bool.and_false]
    · simp [hj]
  | n + 1, i, h => by
    have ih := getLsbD_combine_oneBits x j n (i + 1) (by omega)
    simp only [oneBits, List.range'_succ, List.map_cons, combine] at ih ⊢
    rw [BitVec.getLsbD_xor, ih]
    rcases Nat.lt_trichotomy i j with hij | rfl | hij
    · have h0 : (if x.getLsbD i then BitVec.twoPow w i else 0#w).getLsbD j = false := by
        split <;> simp [BitVec.getLsbD_twoPow]; omega
      simp only [h0, Bool.false_bne, decide_eq_true (show i + 1 ≤ j from hij),
        decide_eq_true hij.le]
    · cases hx : x.getLsbD i <;> simp [BitVec.getLsbD_twoPow]
      omega
    · have h0 : (if x.getLsbD i then BitVec.twoPow w i else 0#w).getLsbD j = false := by
        split <;> simp [BitVec.getLsbD_twoPow]; omega
      simp only [h0, Bool.false_bne, decide_eq_false (show ¬ i + 1 ≤ j by omega),
        decide_eq_false (show ¬ i ≤ j by omega), Bool.false_and]

theorem combine_oneBits (x : BitVec w) : combine (oneBits w 0 w) 0 x = x := by
  apply BitVec.eq_of_getLsbD_eq
  intro j _
  rw [getLsbD_combine_oneBits x j w 0 (by omega)]
  simp

namespace XorLinear

variable {f : BitVec w → BitVec w}
variable {n : Nat} {T : List (BitVec w)}

theorem map_zero (hf : XorLinear f) : f 0#w = 0#w := by
  have h := hf 0#w 0#w
  simpa using h

theorem map_combine (hf : XorLinear f) (x : BitVec w) :
    ∀ cs i, f (combine cs i x) = combine (cs.map f) i x
  | [], _ => hf.map_zero
  | c :: cs, i => by
    simp only [combine, List.map_cons]
    rw [hf, map_combine hf x cs (i + 1)]
    split
    · rfl
    · rw [hf.map_zero]

theorem eq_combine (hf : XorLinear f) (x : BitVec w) :
    f x = combine ((oneBits w 0 w).map f) 0 x := by
  rw [← hf.map_combine, combine_oneBits]

theorem iterate (hf : XorLinear f) (n : Nat) : XorLinear f^[n] := by
  induction n with
  | zero => exact fun _ _ => rfl
  | succ n ih => intro x y; rw [Function.iterate_succ_apply, hf, ih]; rfl

/-- **A table of an iterate**: the values of `f^[n]` at the one-bit vectors give `f^[n]`. -/
theorem iterate_eq_combine (hf : XorLinear f) (hT : (oneBits w 0 w).map f^[n] = T) (x : BitVec w) :
    f^[n] x = combine T 0 x := by
  rw [(hf.iterate n).eq_combine, hT]

theorem iterate_mul_eq (hf : XorLinear f) (hT : (oneBits w 0 w).map f^[n] = T)
    (m : Nat) (x : BitVec w) :
    f^[n * m] x = (combine T 0)^[m] x := by
  rw [Function.iterate_mul, funext (hf.iterate_eq_combine hT)]

end XorLinear

end Lib
