import Mathlib.Data.List.Basic
import Mathlib.Data.List.Range
import Mathlib.Data.Nat.Cast.Basic
import Mathlib.Data.Int.Cast.Basic
import Mathlib.Tactic.Abel

/-!
# Copying one cell at a time

`moves mem ps` is the memory `mem` after the assignments `*d = *s`, one for each pair `(d, s)` of
`ps` in turn. A cell holds what the last assignment to it read (`moves_at`). When no cell is written
twice, and none is read after it has been written, the order makes no difference: every target holds
what its source held at the start (`moves_mem`). The two loops that copy a range, upwards and
downwards, are such lists of assignments (`copyUp_eq`, `copyDown_eq`).
-/

namespace Lib

open Function

variable {A β : Type*} [DecidableEq A]
variable {mem : A → β} {ps : List (A × A)} {p : A × A}

/-- The memory after the assignments `*d = *s` for the pairs `(d, s)` of `ps`. -/
def moves (mem : A → β) (ps : List (A × A)) : A → β :=
  ps.foldl (fun mem p => update mem p.1 (mem p.2)) mem

@[simp] theorem moves_nil (mem : A → β) : moves mem [] = mem := rfl

@[simp] theorem moves_cons (mem : A → β) (p : A × A) (ps : List (A × A)) :
    moves mem (p :: ps) = moves (update mem p.1 (mem p.2)) ps := rfl

@[simp] theorem moves_append (mem : A → β) (ps qs : List (A × A)) :
    moves mem (ps ++ qs) = moves (moves mem ps) qs := List.foldl_append ..

theorem moves_of_ne {a : A} (h : ∀ p ∈ ps, p.1 ≠ a) :
    moves mem ps a = mem a := by
  induction ps generalizing mem with
  | nil => rfl
  | cons p ps ih =>
    rw [moves_cons, ih fun q hq => h q (List.mem_cons_of_mem _ hq)]
    exact update_of_ne (h p List.mem_cons_self).symm _ _

theorem moves_at {qs : List (A × A)} (h : ∀ q ∈ qs, q.1 ≠ p.1) :
    moves mem (ps ++ p :: qs) p.1 = moves mem ps p.2 := by
  rw [moves_append, moves_cons, moves_of_ne h, update_self]

/-- No cell is written twice, and none is read after it has been written. -/
def Apart (ps : List (A × A)) : Prop := ps.Pairwise fun p q => p.1 ≠ q.1 ∧ p.1 ≠ q.2

/-- **Copying**: every target holds what its source held at the start. -/
theorem moves_mem (hps : Apart ps) (hp : p ∈ ps) :
    moves mem ps p.1 = mem p.2 := by
  obtain ⟨l, r, rfl⟩ := List.append_of_mem hp
  obtain ⟨-, hr, hlr⟩ := List.pairwise_append.1 hps
  rw [moves_at fun q hq => ((List.pairwise_cons.1 hr).1 q hq).1.symm]
  exact moves_of_ne fun q hq => (hlr q hq p List.mem_cons_self).2

/-- `while(n-- > 0) *d++ = *s++;` -/
def copyUp [Add A] [One A] : Nat → (A → β) → A → A → A → β
  | 0, mem, _, _ => mem
  | n + 1, mem, d, s => copyUp n (update mem d (mem s)) (d + 1) (s + 1)

/-- `while(n-- > 0) *--d = *--s;` -/
def copyDown [Sub A] [One A] : Nat → (A → β) → A → A → A → β
  | 0, mem, _, _ => mem
  | n + 1, mem, d, s => copyDown n (update mem (d - 1) (mem (s - 1))) (d - 1) (s - 1)

/-- The cells of the ranges of `n` cells at `d` and at `s`, pair by pair. -/
def pairs [AddCommMonoidWithOne A] (d s : A) (n : Nat) : List (A × A) :=
  (List.range n).map fun i : Nat => (d + (i : A), s + (i : A))

theorem copyUp_eq [AddCommMonoidWithOne A] (mem : A → β) (d s : A) (n : Nat) :
    copyUp n mem d s = moves mem (pairs d s n) := by
  induction n generalizing mem d s with
  | zero => rfl
  | succ n ih =>
    have hshift : pairs d s (n + 1) = (d, s) :: pairs (d + 1) (s + 1) n := by
      have hnext : ∀ (a : A) (i : Nat), a + ((i : A) + 1) = a + 1 + i := fun a i => by
        rw [add_comm (i : A), add_assoc]
      simp [pairs, List.range_succ_eq_map, comp_def, hnext]
    rw [copyUp, ih, hshift, moves_cons]

section
variable [AddCommMonoidWithOne A] {d s : A} {n : Nat}
omit [DecidableEq A]

theorem mem_pairs {p : A × A} : p ∈ pairs d s n ↔ ∃ i < n, p = (d + (i : A), s + (i : A)) := by
  simp [pairs, eq_comm]

theorem pairs_succ : pairs d s (n + 1) = pairs d s n ++ [(d + (n : A), s + (n : A))] := by
  simp [pairs, List.range_succ]

theorem pairs_pairwise {R : A × A → A × A → Prop}
    (h : ∀ i j : Nat, i < j → j < n → R (d + (i : A), s + (i : A)) (d + (j : A), s + (j : A))) :
    (pairs d s n).Pairwise R := by
  rw [List.pairwise_iff_getElem]
  intro i j hi hj hij
  simp only [pairs, List.length_map, List.length_range] at hj
  simpa [pairs] using h i j hij hj

end

theorem copyDown_eq [AddCommGroupWithOne A] (mem : A → β) (d s : A) (n : Nat) :
    copyDown n mem (d + n) (s + n) = moves mem (pairs d s n).reverse := by
  induction n generalizing mem with
  | zero => simp [copyDown, pairs]
  | succ n ih =>
    have hlast : ∀ a : A, a + ((n + 1 : Nat) : A) - 1 = a + n := fun a => by
      rw [Nat.cast_succ, ← add_assoc, add_sub_cancel_right]
    rw [copyDown, hlast, hlast, ih, pairs_succ, List.reverse_append]
    rfl

theorem moves_pairs_at [AddCommMonoidWithOne A] (mem : A → β) {d s : A} {i n : Nat}
    (hd : ∀ i j : Nat, i < j → j < n → d + (j : A) ≠ d + (i : A)) (hi : i < n) :
    moves mem (pairs d s n) (d + (i : A)) = moves mem (pairs d s i) (s + (i : A)) := by
  induction n with
  | zero => exact absurd hi (Nat.not_lt_zero _)
  | succ n ih =>
    rw [pairs_succ]
    rcases Nat.lt_succ_iff_lt_or_eq.1 hi with hi | rfl
    · rw [moves_append, moves_of_ne (by simpa using hd i n hi (Nat.lt_succ_self n)),
        ih (fun i j hij hj => hd i j hij (hj.trans (Nat.lt_succ_self n))) hi]
    · exact moves_at nofun

end Lib
