import Mathlib.Dynamics.PeriodicPts.Lemmas
import Mathlib.Data.Fintype.Card
import Mathlib.Data.Nat.Prime.Basic

/-!
# Full cycles of a map on a finite type

A map `f` that moves everything but one fixed point `z` around a single cycle: one point `a ≠ z` of
minimal period `card α - 1` is enough (`mem_cycle`), and the minimal period is found from the
proper divisors of a period at the primes only (`minimalPeriod_of_primes`). From every `b ≠ z`
the first `card α - 1` iterates are then all the points other than `z`, each once
(`perm_iterates`).
-/

namespace Lib.Cycle

open Function

section
variable {α : Type*} {f : α → α} {a : α}

theorem minimalPeriod_of_primes {n : Nat} (h : f^[n] a = a)
    (hp : ∀ p, p.Prime → p ∣ n → f^[n / p] a ≠ a) : minimalPeriod f a = n := by
  obtain ⟨k, hk⟩ := IsPeriodicPt.minimalPeriod_dvd (f := f) (x := a) (n := n) h
  by_cases hk1 : k = 1
  · rw [hk, hk1, Nat.mul_one]
  · obtain ⟨p, hpp, j, rfl⟩ := Nat.exists_prime_and_dvd hk1
    have hdiv : n / p = minimalPeriod f a * j := by
      rw [hk, Nat.mul_left_comm]
      exact Nat.mul_div_cancel_left _ hpp.pos
    refine absurd ?_ (hp p hpp ⟨minimalPeriod f a * j, by rw [← Nat.mul_left_comm, ← hk]⟩)
    rw [hdiv]
    exact (isPeriodicPt_minimalPeriod f a).mul_const j

theorem iterate_ne {z : α} (hf : Injective f) (hz : f z = z) (ha : a ≠ z) (n : Nat) :
    f^[n] a ≠ z := by
  intro h
  have hzn : f^[n] z = z := iterate_fixed hz n
  exact ha (hf.iterate n (h.trans hzn.symm))

end

section
variable {α : Type*} [Fintype α] [DecidableEq α] {f : α → α} {a z : α}
  (hf : Injective f) (hz : f z = z) (ha : a ≠ z) (hper : minimalPeriod f a = Fintype.card α - 1)
include hf hz ha hper

theorem image_cycle :
    (Finset.range (Fintype.card α - 1)).image (fun k => f^[k] a) = Finset.univ.erase z := by
  apply Finset.eq_of_subset_of_card_le
  · intro b hb
    obtain ⟨k, -, rfl⟩ := Finset.mem_image.1 hb
    exact Finset.mem_erase.2 ⟨iterate_ne hf hz ha k, Finset.mem_univ _⟩
  · rw [Finset.card_erase_of_mem (Finset.mem_univ z), Finset.card_univ,
      Finset.card_image_of_injOn, Finset.card_range]
    rw [← hper]
    intro i hi j hj hij
    exact iterate_injOn_Iio_minimalPeriod (by simpa using hi) (by simpa using hj) hij

/-- **Every point other than the fixed point is on the cycle.** -/
theorem mem_cycle {b : α} (hb : b ≠ z) : ∃ k < Fintype.card α - 1, f^[k] a = b := by
  have h : b ∈ (Finset.range (Fintype.card α - 1)).image (fun k => f^[k] a) := by
    rw [image_cycle hf hz ha hper]
    exact Finset.mem_erase.2 ⟨hb, Finset.mem_univ _⟩
  obtain ⟨k, hk, hkb⟩ := Finset.mem_image.1 h
  exact ⟨k, Finset.mem_range.1 hk, hkb⟩

theorem minimalPeriod_eq {b : α} (hb : b ≠ z) : minimalPeriod f b = Fintype.card α - 1 := by
  obtain ⟨k, hk, rfl⟩ := mem_cycle hf hz ha hper hb
  rw [minimalPeriod_apply_iterate, hper]
  apply minimalPeriod_pos_iff_mem_periodicPts.1
  omega

/-- **From every point other than the fixed point**, the first `card α - 1` iterates after it are
all the points other than the fixed point, each once. -/
theorem perm_iterates {b : α} (hb : b ≠ z) :
    (((List.range (Fintype.card α - 1)).map fun k => f^[k + 1] b : List α) : Multiset α) =
      (Finset.univ.erase z).val := by
  have hfb : f b ≠ z := iterate_ne hf hz hb 1
  have himg := image_cycle hf hz hfb (minimalPeriod_eq hf hz ha hper hfb)
  have hinj : Set.InjOn (fun k => f^[k] (f b)) (Finset.range (Fintype.card α - 1)) := by
    rw [← minimalPeriod_eq hf hz ha hper hfb]
    intro i hi j hj hij
    exact iterate_injOn_Iio_minimalPeriod (by simpa using hi) (by simpa using hj) hij
  rw [← himg, Finset.image_val_of_injOn hinj]
  rfl

end

end Lib.Cycle
