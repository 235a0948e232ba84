import Mathlib.Algebra.Order.Ring.Nat
import Mathlib.Data.List.Count
import Mathlib.Data.List.Nodup
import Mathlib.Data.List.Range

/-!
# Picking by running sums

`pick w l r` walks `l` adding up the weights `w` and stops at the first element whose running sum
passes `r`. The numbers below the total weight are split among the elements into blocks of the
elements' weights: `pick` finds one exactly below the total (`pick_of_lt`), and each element owns
as many numbers as its weight (`countP_pick`). `countP_mod` counts residues over whole periods, so
the two together count what a number reduced modulo the total picks.
-/

namespace Lib

variable {α : Type*}

/-- The first element of `l` at which the running sum of weights passes `r`. -/
def pick (w : α → Nat) : List α → Nat → Option α
  | [], _ => none
  | a :: l, r => if r < w a then some a else pick w l (r - w a)

theorem pick_mem {w : α → Nat} : ∀ {l : List α} {r : Nat} {a : α}, pick w l r = some a → a ∈ l
  | b :: l, r, a, h => by
    unfold pick at h
    split at h
    · cases h; exact List.mem_cons_self
    · exact List.mem_cons_of_mem _ (pick_mem h)

theorem pick_of_lt {w : α → Nat} : ∀ {l : List α} {r : Nat}, r < (l.map w).sum →
    ∃ a ∈ l, pick w l r = some a
  | [], _, h => by simp at h
  | b :: l, r, h => by
    unfold pick
    split
    · exact ⟨b, List.mem_cons_self, rfl⟩
    · simp only [List.map_cons, List.sum_cons] at h
      obtain ⟨a, ha, hp⟩ := pick_of_lt (w := w) (l := l) (r := r - w b) (by omega)
      exact ⟨a, List.mem_cons_of_mem _ ha, hp⟩

theorem pick_zero {w : α → Nat} {a : α} {l : List α} (h : 0 < w a) :
    pick w (a :: l) 0 = some a := by
  simp [pick, h]

theorem pick_add {w : α → Nat} {a : α} {l : List α} (r : Nat) :
    pick w (a :: l) (w a + r) = pick w l r := by
  simp [pick]

section
variable [DecidableEq α]

theorem countP_pick_cons (w : α → Nat) (b : α) (l : List α) (a : α) :
    (List.range ((b :: l).map w).sum).countP (fun r => pick w (b :: l) r = some a) =
      (if b = a then w b else 0) +
        (List.range (l.map w).sum).countP (fun r => pick w l r = some a) := by
  rw [List.map_cons, List.sum_cons, List.range_add, List.countP_append, List.countP_map]
  congr 1
  · have hb : ∀ r ∈ List.range (w b),
        (decide (pick w (b :: l) r = some a) = true ↔ decide (b = a) = true) := by
      intro r hr
      simp [pick, List.mem_range.1 hr]
    rw [List.countP_congr hb]
    split <;> simp_all
  · apply List.countP_congr
    intro r _
    simp [pick_add]

/-- **Each element owns as many numbers below the total as its weight.** -/
theorem countP_pick {w : α → Nat} {a : α} : ∀ {l : List α}, l.Nodup →
    (List.range (l.map w).sum).countP (fun r => pick w l r = some a) = if a ∈ l then w a else 0
  | [], _ => by simp
  | b :: l, h => by
    obtain ⟨hb, hl⟩ := List.nodup_cons.1 h
    rw [countP_pick_cons, countP_pick hl]
    by_cases hab : b = a
    · subst hab
      simp [hb]
    · simp [hab, Ne.symm hab]

end

theorem countP_mod (P : Nat → Bool) (T : Nat) : ∀ q : Nat,
    (List.range (T * q)).countP (fun v => P (v % T)) = q * (List.range T).countP P
  | 0 => by simp
  | q + 1 => by
    rw [Nat.mul_succ, List.range_add, List.countP_append, countP_mod P T q, List.countP_map,
      Nat.succ_mul]
    congr 1
    apply List.countP_congr
    intro r hr
    simp [Nat.mod_eq_of_lt (List.mem_range.1 hr)]

end Lib
