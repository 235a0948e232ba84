import Mathlib.Algebra.BigOperators.Ring.Finset
import Mathlib.Algebra.Order.BigOperators.Group.Finset

/-!
# Tallies

`tally w f` adds up the weights of the places `f t` of finitely many parties `t`. With weights `0`
and `1` it counts the parties at some places. When one party moves, the tally changes by the weights
of its two places (`tally_update`).
-/

namespace Lib

open Function

variable {T α : Type*} [Fintype T]

/-- The sum of the weights of the places. -/
def tally (w : α → Nat) (f : T → α) : Nat := ∑ t, w (f t)

theorem le_tally (w : α → Nat) (f : T → α) (t : T) : w (f t) ≤ tally w f :=
  Finset.single_le_sum (f := fun t => w (f t)) (fun _ _ => Nat.zero_le _) (Finset.mem_univ t)

theorem tally_eq_zero {w : α → Nat} {f : T → α} : tally w f = 0 ↔ ∀ t, w (f t) = 0 := by
  simp [tally]

theorem tally_mono {w v : α → Nat} {f : T → α} (h : ∀ t, w (f t) ≤ v (f t)) :
    tally w f ≤ tally v f := Finset.sum_le_sum fun t _ => h t

theorem tally_const_mul (k : Nat) (w : α → Nat) (f : T → α) :
    tally (fun a => k * w a) f = k * tally w f := (Finset.mul_sum ..).symm

theorem tally_update [DecidableEq T] (w : α → Nat) (f : T → α) (t : T) (a : α) :
    tally w (update f t a) + w (f t) = tally w f + w a := by
  have h1 : ∀ g : T → α, tally w g = w (g t) + ∑ u ∈ Finset.univ.erase t, w (g u) := fun g =>
    (Finset.add_sum_erase _ (fun u => w (g u)) (Finset.mem_univ t)).symm
  have h2 : ∑ u ∈ Finset.univ.erase t, w (update f t a u) =
      ∑ u ∈ Finset.univ.erase t, w (f u) :=
    Finset.sum_congr rfl fun u hu => by rw [update_of_ne (Finset.ne_of_mem_erase hu)]
  rw [h1 (update f t a), h1 f, h2, update_self]
  omega

end Lib
