import Mathlib.Data.List.Basic
import Mathlib.Data.Nat.Find
import Mathlib.Logic.Function.Iterate

/-!
# Lists linked by a successor function

`Linked next xs z`: `next` leads along `xs` from one element to the following, and from the last one
to `z`. A list that is linked back to its first element is circular: from every element of it, every
other one is reached in fewer steps than the list is long (`Linked.reaches`), so a search that stops
at some element ends (`Linked.first`).
-/

namespace Lib

open Function

variable {α : Type*} {next next' : α → α} {a p q z : α} {l r xs : List α}

/-- `next` goes through `xs` and then to `z`. -/
def Linked (next : α → α) : List α → α → Prop
  | [], _ => True
  | a :: l, z => next a = l.headD z ∧ Linked next l z

namespace Linked

theorem append : Linked next (l ++ r) z ↔ Linked next l (r.headD z) ∧ Linked next r z := by
  induction l with
  | nil => simp [Linked]
  | cons a l ih =>
    have hh : (l ++ r).headD z = l.headD (r.headD z) := by cases l <;> rfl
    rw [List.cons_append, Linked, Linked, ih, hh, and_assoc]

theorem congr (h : Linked next l z) (hn : ∀ a ∈ l, next' a = next a) : Linked next' l z := by
  induction l with
  | nil => trivial
  | cons a l ih =>
    exact ⟨(hn a (by simp)).trans h.1, ih h.2 fun b hb => hn b (by simp [hb])⟩

theorem next_eq (h : Linked next (l ++ p :: r) z) : next p = r.headD z := (append.1 h).2.1

theorem split (h : Linked next xs z) (hp : p ∈ xs) (hz : next p ≠ z) :
    ∃ l r, xs = l ++ p :: next p :: r := by
  obtain ⟨l, r, rfl⟩ := List.append_of_mem hp
  cases r with
  | nil => exact absurd h.next_eq hz
  | cons q r => exact ⟨l, r, by rw [h.next_eq]; rfl⟩

theorem iterate (h : Linked next (a :: l) z) (hl : a :: l = xs ++ p :: r) :
    next^[xs.length] a = p := by
  induction xs generalizing a l with
  | nil => exact (List.cons_eq_cons.1 hl).1
  | cons b xs ih =>
    obtain ⟨rfl, rfl⟩ := List.cons_eq_cons.1 hl
    have ha : next a = (xs ++ p :: r).headD z := h.1
    cases xs with
    | nil => exact ha
    | cons c xs =>
      rw [List.length_cons, iterate_succ_apply, ha]
      exact ih (a := c) (l := xs ++ p :: r) h.2 rfl

theorem iterate_end (h : Linked next (p :: l) z) : next^[l.length + 1] p = z := by
  induction l generalizing p with
  | nil => exact h.1
  | cons q l ih =>
    rw [List.length_cons, iterate_succ_apply, show next p = q from h.1]
    exact ih h.2

section
variable (h : Linked next (a :: l) a)
include h

/-- **A circular list**: every element is reached from every other. -/
theorem reaches (hp : p ∈ a :: l) (hq : q ∈ a :: l) :
    ∃ k ≤ l.length, next^[k] p = q := by
  obtain ⟨xs, xs', hx⟩ := List.append_of_mem hp
  obtain ⟨ys, ys', hy⟩ := List.append_of_mem hq
  have hlx := congrArg List.length hx
  have hly := congrArg List.length hy
  simp only [List.length_cons, List.length_append] at hlx hly
  have hxp := h.iterate hx
  have hyq := h.iterate hy
  by_cases hle : xs.length ≤ ys.length
  · refine ⟨ys.length - xs.length, by omega, ?_⟩
    rw [← hxp, ← iterate_add_apply, Nat.sub_add_cancel hle, hyq]
  · -- on to the first element, and from there
    refine ⟨ys.length + (xs'.length + 1), by omega, ?_⟩
    have hend : next^[xs'.length + 1] p = a := by
      rw [hx] at h
      exact iterate_end (append.1 h).2
    rw [iterate_add_apply, hend, hyq]

theorem mem_iterate (hp : p ∈ a :: l) (k : Nat) : next^[k] p ∈ a :: l := by
  induction k with
  | zero => exact hp
  | succ k ih =>
    obtain ⟨xs, r, hx⟩ := List.append_of_mem ih
    rw [iterate_succ_apply']
    rw [hx] at h ⊢
    rw [h.next_eq]
    cases r with
    | nil =>
      rw [← hx]
      simp
    | cons b r => simp

/-- **A search along a circular list** comes to the first element where it stops. -/
theorem first (hp : p ∈ a :: l) {stop : α → Prop} [DecidablePred stop] (hs : ∃ q ∈ a :: l, stop q) :
    ∃ k ≤ l.length, next^[k] p ∈ a :: l ∧ stop (next^[k] p) ∧ ∀ j < k, ¬ stop (next^[j] p) := by
  obtain ⟨q, hq, hstop⟩ := hs
  obtain ⟨k, hk, rfl⟩ := h.reaches hp hq
  have hex : ∃ k, stop (next^[k] p) := ⟨k, hstop⟩
  exact ⟨Nat.find hex, Nat.le_trans (Nat.find_min' hex hstop) hk,
    h.mem_iterate hp _, Nat.find_spec hex, fun j hj => Nat.find_min hex hj⟩

theorem first_after (hp : p ∈ a :: l) {stop : α → Prop} [DecidablePred stop]
    (hs : ∃ q ∈ a :: l, stop q) :
    ∃ k ≤ l.length, next^[k] (next p) ∈ a :: l ∧ stop (next^[k] (next p)) ∧
      ∀ j < k, ¬ stop (next^[j] (next p)) ∧ next^[j] (next p) ≠ p := by
  have hnext : next p ∈ a :: l := h.mem_iterate hp 1
  obtain ⟨k, hk, hmem, hstop, hbefore⟩ := h.first hnext hs
  refine ⟨k, hk, hmem, hstop, fun j hj => ⟨hbefore j hj, fun hback => ?_⟩⟩
  -- from `p` on, the search is where it was `j + 1` steps before
  have hsplit : next^[k] (next p) = next^[k - j - 1] (next p) := by
    have hk : k = (k - j - 1) + (1 + j) := by omega
    conv_lhs => rw [hk, iterate_add_apply, iterate_add_apply, hback]
    rfl
  rw [hsplit] at hstop
  exact hbefore _ (by omega) hstop

theorem returns [DecidableEq α] (hp : p ∈ a :: l) :
    ∃ k ≤ l.length, next^[k] (next p) = p ∧ ∀ j < k, next^[j] (next p) ≠ p := by
  have hnext : next p ∈ a :: l := h.mem_iterate hp 1
  have hex : ∃ q ∈ a :: l, q = p := ⟨p, hp, rfl⟩
  obtain ⟨k, hk, -, hstop, hbefore⟩ := h.first hnext hex
  exact ⟨k, hk, hstop, hbefore⟩

end

end Linked

end Lib
