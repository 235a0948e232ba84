import Mathlib.Data.List.Basic

/-!
# Texts cut into lines

The lines of a text are its parts that end with the break `b` (`lines`); what comes after the last
break is left over (`leftover`). A text that arrives in two parts has the lines of the first, and
those of what is left over of it with the second (`lines_append`), so the lines can be taken off
part by part.
-/

namespace Lib

variable {α : Type*} [DecidableEq α] {b : α} {l r s t : List α}

/-- The parts of the text that end with `b`, without it. -/
def lines (b : α) (s : List α) : List (List α) := (s.splitOn b).dropLast

/-- What comes after the last `b`. -/
def leftover (b : α) (s : List α) : List α := (s.splitOn b).getLastD []

theorem lines_of_notMem (h : b ∉ s) : lines b s = [] := by
  rw [lines, List.splitOn_eq_singleton h]
  rfl

theorem leftover_of_notMem (h : b ∉ s) : leftover b s = s := by
  rw [leftover, List.splitOn_eq_singleton h]
  rfl

theorem splitOn_cut (h : b ∉ l) (r : List α) : (l ++ b :: r).splitOn b = l :: r.splitOn b := by
  have hl : l.splitOnP (· == b) = [l] := List.splitOn_eq_singleton h
  rw [List.splitOn, List.splitOnP_append_cons l r (by simp), hl]
  rfl

theorem splitOn_ne_nil (s : List α) : s.splitOn b ≠ [] := List.splitOnP_ne_nil _ _

theorem lines_cut (h : b ∉ l) (r : List α) : lines b (l ++ b :: r) = l :: lines b r := by
  rw [lines, splitOn_cut h, List.dropLast_cons_of_ne_nil (splitOn_ne_nil r)]
  rfl

theorem leftover_cut (h : b ∉ l) (r : List α) : leftover b (l ++ b :: r) = leftover b r := by
  unfold leftover
  rw [splitOn_cut h]
  cases hr : r.splitOn b with
  | nil => exact absurd hr (splitOn_ne_nil r)
  | cons x xs => rfl

/-- **Induction by lines**: a text is a line and the text after it, or has no break. -/
theorem lines_induction {P : List α → Prop} (none : ∀ s, b ∉ s → P s)
    (cut : ∀ l r, b ∉ l → P r → P (l ++ b :: r)) (s : List α) : P s := by
  induction hn : s.length using Nat.strongRecOn generalizing s with
  | ind n ih =>
    by_cases hb : b ∈ s
    · obtain ⟨l, r, rfl, hl⟩ := List.eq_append_cons_of_mem hb
      exact cut l r hl (ih _ (by simp [← hn]; omega) r rfl)
    · exact none s hb

theorem leftover_notMem (s : List α) : b ∉ leftover b s := by
  induction s using lines_induction (b := b) with
  | none s h => rwa [leftover_of_notMem h]
  | cut l r h ih => rwa [leftover_cut h]

theorem lines_flatten (s : List α) : ((lines b s).map (· ++ [b])).flatten ++ leftover b s = s := by
  induction s using lines_induction (b := b) with
  | none s h => simp [lines_of_notMem h, leftover_of_notMem h]
  | cut l r h ih => simpa [lines_cut h, leftover_cut h] using ih

/-- **A text in two parts.** -/
theorem lines_append (s t : List α) :
    lines b (s ++ t) = lines b s ++ lines b (leftover b s ++ t) := by
  induction s using lines_induction (b := b) with
  | none s h => simp [lines_of_notMem h, leftover_of_notMem h]
  | cut l r h ih => simp [lines_cut h, leftover_cut h, ih]

theorem lines_append_length (hs : b ∉ s) (ht : b ∈ t) :
    ((lines b (s ++ t)).map (· ++ [b])).flatten.length =
      s.length + ((lines b t).map (· ++ [b])).flatten.length := by
  obtain ⟨l, r, rfl, hl⟩ := List.eq_append_cons_of_mem ht
  have hsl : b ∉ s ++ l := by simp [hs, hl]
  rw [← List.append_assoc, lines_cut hsl, lines_cut hl]
  simp

end Lib
