import Mathlib.Algebra.BigOperators.Group.List.Basic
import Mathlib.Algebra.Order.Group.Multiset
import Mathlib.Algebra.Order.Ring.Nat
import Mathlib.Data.Multiset.AddSub
import Mathlib.Data.Multiset.Range

/-!
# Blocks that tile an area

A block at address `a` consists of cells of width `w`: `a`, `a + w`, and so on (`cells`). A list of
blocks, with their sizes given by address, covers the sum of their cells (`covered`). If that is the
cells of one area, then no two blocks overlap (`covered_apart`), every block is in the area, and the
sizes add up (`covered_card`); to cut a block in two, or to put two together that touch, changes
nothing (`cells_add`).
-/

namespace Lib

variable {w : Nat}

/-- The cells of a block of `n` at `a`. -/
def cells (w a n : Nat) : Multiset Nat := (Multiset.range n).map fun i => a + w * i

theorem mem_cells {a n x : Nat} : x ∈ cells w a n ↔ ∃ i < n, a + w * i = x := by
  simp [cells]

theorem card_cells (a n : Nat) : (cells w a n).card = n := by
  simp [cells]

theorem cells_add (a m n : Nat) : cells w a (m + n) = cells w a m + cells w (a + w * m) n := by
  simp only [cells]
  rw [Multiset.range_add, Multiset.map_add, Multiset.map_map]
  congr 1
  refine Multiset.map_congr rfl fun i _ => ?_
  simp only [Function.comp, Nat.mul_add, Nat.add_assoc]

theorem nodup_cells (hw : 0 < w) (a n : Nat) : (cells w a n).Nodup := by
  refine (Multiset.nodup_range n).map ?_
  intro i j h
  exact Nat.eq_of_mul_eq_mul_left hw (Nat.add_left_cancel h)

/-- The cells of the blocks of a list. -/
def covered (w : Nat) (size : Nat → Nat) (xs : List Nat) : Multiset Nat :=
  (xs.map fun a => cells w a (size a)).sum

section
variable {size size' : Nat → Nat} {xs ys : List Nat} {a b c n : Nat}

@[simp] theorem covered_nil : covered w size [] = 0 := by
  simp [covered]

@[simp] theorem covered_cons :
    covered w size (a :: xs) = cells w a (size a) + covered w size xs := by
  simp [covered]

@[simp] theorem covered_append :
    covered w size (xs ++ ys) = covered w size xs + covered w size ys := by
  simp [covered]

theorem covered_congr (h : ∀ a ∈ xs, size' a = size a) :
    covered w size' xs = covered w size xs := by
  unfold covered
  congr 1
  exact List.map_congr_left fun a ha => by rw [h a ha]

theorem covered_perm (h : xs.Perm ys) : covered w size xs = covered w size ys :=
  (h.map _).sum_eq

theorem covered_card : (covered w size xs).card = (xs.map size).sum := by
  induction xs with
  | nil => rfl
  | cons a xs ih => simp [card_cells, ih]

theorem cells_le_covered (h : a ∈ xs) : cells w a (size a) ≤ covered w size xs := by
  obtain ⟨l, r, rfl⟩ := List.append_of_mem h
  rw [covered_append, covered_cons]
  exact (Multiset.le_add_right _ _).trans (Multiset.le_add_left _ _)

theorem covered_mem (hw : 0 < w) (h : covered w size xs = cells w c n)
    (ha : a ∈ xs) (hs : 0 < size a) :
    ∃ i, a = c + w * i ∧ i + size a ≤ n := by
  have hsub : ∀ x ∈ cells w a (size a), x ∈ cells w c n :=
    fun x hx => h ▸ Multiset.mem_of_le (cells_le_covered ha) hx
  obtain ⟨i, hi, hia⟩ := mem_cells.1 (hsub a (mem_cells.2 ⟨0, hs, rfl⟩))
  obtain ⟨j, hj, hja⟩ := mem_cells.1 (hsub _ (mem_cells.2 ⟨size a - 1, by omega, rfl⟩))
  refine ⟨i, hia.symm, ?_⟩
  -- the last cell of the block
  have hij : w * j = w * (i + (size a - 1)) := by
    rw [Nat.mul_add]
    omega
  have := Nat.eq_of_mul_eq_mul_left hw hij
  omega

/-- **The blocks of a tiling do not overlap.** -/
theorem covered_apart (hw : 0 < w) (h : covered w size xs = cells w c n) :
    xs.Pairwise fun a b => 0 < size a → 0 < size b → a + w * size a ≤ b ∨ b + w * size b ≤ a := by
  have hmem := fun a ha hs => covered_mem (a := a) hw h ha hs
  have hnd : (covered w size xs).Nodup := h ▸ nodup_cells hw c n
  clear h
  induction xs with
  | nil => exact .nil
  | cons a xs ih =>
    rw [covered_cons] at hnd
    refine .cons (fun b hb ha hsb => ?_)
      (ih (fun x hx => hmem x (by simp [hx])) (Multiset.nodup_of_le (Multiset.le_add_left _ _) hnd))
    obtain ⟨i, hi, -⟩ := hmem a (by simp) ha
    obtain ⟨j, hj, -⟩ := hmem b (by simp [hb]) hsb
    have hdis : ∀ x, x ∈ cells w a (size a) → x ∉ cells w b (size b) := fun x hxa hxb =>
      Multiset.disjoint_left.1 (Multiset.nodup_add.1 hnd).2.2 hxa
        (Multiset.mem_of_le (cells_le_covered hb) hxb)
    rcases Nat.le_total i j with hij | hij
    · left
      by_contra hlt
      refine hdis b (mem_cells.2 ⟨j - i, ?_, ?_⟩) (mem_cells.2 ⟨0, hsb, rfl⟩)
      · by_contra hge
        have := Nat.mul_le_mul_left w (show i + size a ≤ j by omega)
        rw [Nat.mul_add] at this
        omega
      · rw [hi, hj, Nat.add_assoc, ← Nat.mul_add, Nat.add_sub_cancel' hij]
    · right
      by_contra hlt
      refine hdis a (mem_cells.2 ⟨0, ha, rfl⟩) (mem_cells.2 ⟨i - j, ?_, ?_⟩)
      · by_contra hge
        have := Nat.mul_le_mul_left w (show j + size b ≤ i by omega)
        rw [Nat.mul_add] at this
        omega
      · rw [hi, hj, Nat.add_assoc, ← Nat.mul_add, Nat.add_sub_cancel' hij]

end

end Lib
