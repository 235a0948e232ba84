import Xv6.Sched.Rand
import Xv6.Lib.Cycle
import Xv6.Lib.XorLinear
import Mathlib.Data.BitVec
import Mathlib.Data.FinEnum
import Mathlib.Tactic.NormNum.Prime

/-!
# The register of `rand` has full period

`rand` is XOR-linear (`rand_xorLinear`) and injective, fixes `0`, and moves the register `1` around
a cycle of length `65535` (`rand_minimalPeriod`): `65535` steps lead back to `1`, and `65535 / p`
steps do not for the primes `p = 3, 5, 17, 257`. The long iterates are evaluated with the table
`rand256` of `256` steps. So the nonzero registers are one cycle: from each of them every other is
reached (`exists_rand_iterate`), and `65535` calls of `rand` return the values `1, …, 65535`, each
once (`rand_values_perm`).
-/

namespace Xv6

open Lib Function

/-! ## Linearity -/

theorem rand_getLsbD (x : BitVec 16) (i : Nat) (hi : i < 16) :
    (rand x).getLsbD i = if i = 15 then
      ((x.getLsbD 0 ^^ x.getLsbD 2) ^^ x.getLsbD 3) ^^ x.getLsbD 5 else x.getLsbD (i + 1) := by
  unfold rand
  simp only [BitVec.getLsbD_or, BitVec.getLsbD_ushiftRight, BitVec.getLsbD_shiftLeft,
    BitVec.getLsbD_and, BitVec.getLsbD_xor]
  split
  · subst i
    simp
  · have h : i < 15 := by omega
    simp [h, Nat.add_comm]

theorem rand_xorLinear : XorLinear rand := by
  intro x y
  apply BitVec.eq_of_getLsbD_eq
  intro i hi
  rw [BitVec.getLsbD_xor, rand_getLsbD _ _ hi, rand_getLsbD _ _ hi, rand_getLsbD _ _ hi]
  split
  · simp only [BitVec.getLsbD_xor]
    cases x.getLsbD 0 <;> cases x.getLsbD 2 <;> cases x.getLsbD 3 <;> cases x.getLsbD 5 <;> simp
  · rw [BitVec.getLsbD_xor]

theorem rand_zero : rand 0#16 = 0#16 := rand_xorLinear.map_zero

/-! ## The cycle of `1` -/

/-- `rand^[16]`, on one bit at a time. -/
def rand16 : List (BitVec 16) :=
  [0x6801#16, 0xd002#16, 0xc805#16, 0xf80b#16, 0xf016#16, 0x882d#16, 0x105a#16, 0x20b4#16,
    0x4168#16, 0x82d0#16, 0x05a0#16, 0x0b40#16, 0x1680#16, 0x2d00#16, 0x5a00#16, 0xb400#16]

/-- `rand^[256]`, on one bit at a time. -/
def rand256 : List (BitVec 16) :=
  [0xa300#16, 0x4601#16, 0x2f02#16, 0xfd05#16, 0xfa0a#16, 0x5714#16, 0xae28#16, 0x5c51#16,
    0xb8a3#16, 0x7146#16, 0xe28c#16, 0xc518#16, 0x8a30#16, 0x1460#16, 0x28c0#16, 0x5180#16]

theorem rand16_eq : (oneBits 16 0 16).map rand^[16] = rand16 := by decide +kernel

theorem rand256_eq : (oneBits 16 0 16).map rand^[256] = rand256 := by
  have h : rand^[256] = (combine rand16 0)^[16] :=
    funext (rand_xorLinear.iterate_mul_eq rand16_eq 16)
  rw [h]
  decide +kernel

theorem rand_iterate_257 (k : Nat) (x : BitVec 16) :
    rand^[257 * k] x = rand^[k] ((combine rand256 0)^[k] x) := by
  rw [← rand_xorLinear.iterate_mul_eq rand256_eq, ← iterate_add_apply]
  congr 1
  omega

theorem rand_iterate_period : rand^[257 * 255] 1#16 = 1#16 := by
  rw [rand_iterate_257]
  decide +kernel

theorem rand_iterate_div (p : Nat) (hp : p.Prime) (hd : p ∣ 257 * 255) :
    rand^[257 * 255 / p] 1#16 ≠ 1#16 := by
  have h : p = 3 ∨ p = 5 ∨ p = 17 ∨ p = 257 := by
    have hprimes : p ∣ 257 * (3 * (5 * 17)) := hd
    simp only [hp.dvd_mul, Nat.prime_dvd_prime_iff_eq hp (by norm_num : Nat.Prime 257),
      Nat.prime_dvd_prime_iff_eq hp (by norm_num : Nat.Prime 3),
      Nat.prime_dvd_prime_iff_eq hp (by norm_num : Nat.Prime 5),
      Nat.prime_dvd_prime_iff_eq hp (by norm_num : Nat.Prime 17)] at hprimes
    omega
  rcases h with rfl | rfl | rfl | rfl
  · rw [show 257 * 255 / 3 = 257 * 85 from rfl, rand_iterate_257]
    decide +kernel
  · rw [show 257 * 255 / 5 = 257 * 51 from rfl, rand_iterate_257]
    decide +kernel
  · rw [show 257 * 255 / 17 = 257 * 15 from rfl, rand_iterate_257]
    decide +kernel
  · rw [show 257 * 255 / 257 = 255 from rfl]
    decide +kernel

/-- The inverse of `rand`: the feedback bit is moved back to the bottom. -/
def unrand (x : BitVec 16) : BitVec 16 :=
  (x <<< 1) ||| (((x >>> 15) ^^^ (x >>> 1) ^^^ (x >>> 2) ^^^ (x >>> 4)) &&& 1#16)

theorem unrand_getLsbD (x : BitVec 16) (i : Nat) (hi : i < 16) :
    (unrand x).getLsbD i = if i = 0 then
      ((x.getLsbD 15 ^^ x.getLsbD 1) ^^ x.getLsbD 2) ^^ x.getLsbD 4 else x.getLsbD (i - 1) := by
  unfold unrand
  simp only [BitVec.getLsbD_or, BitVec.getLsbD_ushiftRight, BitVec.getLsbD_shiftLeft,
    BitVec.getLsbD_and, BitVec.getLsbD_xor]
  split
  · subst i
    simp
  · simp [hi, show ¬ i < 1 by omega, show i ≠ 0 by assumption]

theorem unrand_rand (x : BitVec 16) : unrand (rand x) = x := by
  apply BitVec.eq_of_getLsbD_eq
  intro i hi
  rw [unrand_getLsbD _ _ hi]
  split
  · subst i
    rw [rand_getLsbD _ _ (by omega), rand_getLsbD _ _ (by omega), rand_getLsbD _ _ (by omega),
      rand_getLsbD _ _ (by omega)]
    cases x.getLsbD 0 <;> cases x.getLsbD 2 <;> cases x.getLsbD 3 <;> cases x.getLsbD 5 <;> rfl
  · rw [rand_getLsbD _ _ (by omega), if_neg (by omega), Nat.sub_add_cancel (by omega)]

theorem rand_injective : Injective rand := LeftInverse.injective unrand_rand

theorem card_lfsr : Fintype.card (BitVec 16) = 65536 := by
  rw [Fintype.card_congr BitVec.equivFin.toEquiv, Fintype.card_fin]
  rfl

theorem rand_minimalPeriod : minimalPeriod rand 1#16 = Fintype.card (BitVec 16) - 1 := by
  rw [card_lfsr]
  exact Cycle.minimalPeriod_of_primes rand_iterate_period rand_iterate_div

/-! ## The cycle of every nonzero register -/

theorem rand_iterate_ne_zero {s : BitVec 16} (hs : s ≠ 0#16) (k : Nat) : rand^[k] s ≠ 0#16 :=
  Cycle.iterate_ne rand_injective rand_zero hs k

/-- **The nonzero registers are one cycle.** -/
theorem exists_rand_iterate {s t : BitVec 16} (hs : s ≠ 0#16) (ht : t ≠ 0#16) :
    ∃ k, rand^[k] s = t := by
  have hp := Cycle.minimalPeriod_eq rand_injective rand_zero (by decide) rand_minimalPeriod hs
  obtain ⟨k, -, hk⟩ := Cycle.mem_cycle rand_injective rand_zero hs hp ht
  exact ⟨k, hk⟩

/-- The next `n` values of `rand`. -/
def randValues (n : Nat) (s : BitVec 16) : List Nat :=
  (List.range n).map fun k => (rand^[k + 1] s).toNat

/-- **A full period returns every nonzero value once.** -/
theorem rand_values_perm {s : BitVec 16} (hs : s ≠ 0#16) :
    (randValues 65535 s).Perm (List.range' 1 65535) := by
  have h := Cycle.perm_iterates rand_injective rand_zero (by decide) rand_minimalPeriod hs
  rw [card_lfsr] at h
  apply Multiset.coe_eq_coe.1
  have hmap : (randValues 65535 s : Multiset Nat) =
      (Finset.univ.erase 0#16).val.map BitVec.toNat := by
    rw [← h, Multiset.map_coe, List.map_map]
    rfl
  rw [hmap]
  apply (Multiset.Nodup.ext ?_ ?_).2
  · intro v
    simp only [Multiset.mem_map, Finset.mem_val, Finset.mem_erase, Finset.mem_univ, and_true,
      Multiset.mem_coe, List.mem_range'_1]
    constructor
    · rintro ⟨x, hx, rfl⟩
      have h0 : x.toNat ≠ 0 := fun h0 => hx (BitVec.eq_of_toNat_eq h0)
      have := x.isLt
      omega
    · intro hv
      refine ⟨BitVec.ofNat 16 v, fun h0 => ?_, ?_⟩
      · have := congrArg BitVec.toNat h0
        rw [BitVec.toNat_ofNat, Nat.mod_eq_of_lt (by omega)] at this
        simp at this
        omega
      · rw [BitVec.toNat_ofNat, Nat.mod_eq_of_lt (by omega)]
  · exact Multiset.Nodup.map (fun x y h => BitVec.eq_of_toNat_eq h) (Finset.nodup _)
  · exact Multiset.coe_nodup.2 List.nodup_range'

end Xv6
