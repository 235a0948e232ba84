import Mathlib.Data.List.Basic
import Mathlib.Logic.Function.Basic

/-!
# Finite maps kept in slots

A table of slots, each free or with a key and a value. While no two slots have the same key, the
table is a finite map: writing a binding into a free slot, or one after the last, adds it to the
map, and clearing a slot takes its binding out.
-/

namespace Lib

open Function

/-- `size` slots; the slots from `size` on do not count. -/
structure Slots (κ β : Type) where
  size : Nat
  slot : Nat → Option (κ × β)

namespace Slots
variable {κ β : Type} {t : Slots κ β} {j : Nat} {k : κ} {v : β}

/-- No two slots have the same key. -/
def Distinct (t : Slots κ β) : Prop :=
  ∀ i j k v w, i < t.size → j < t.size → t.slot i = some (k, v) → t.slot j = some (k, w) → i = j

/-- The binding `e` is put into slot `j`. -/
def set (t : Slots κ β) (j : Nat) (e : κ × β) : Slots κ β :=
  ⟨max t.size (j + 1), update t.slot j (some e)⟩

/-- Slot `j` is cleared. -/
def clear (t : Slots κ β) (j : Nat) : Slots κ β := ⟨t.size, update t.slot j none⟩

/-- Slot `j` can take a binding. -/
def Open (t : Slots κ β) (j : Nat) : Prop := j ≤ t.size ∧ (j < t.size → t.slot j = none)

theorem Open.lt_set (ho : t.Open j) {i : Nat} : i < (t.set j (k, v)).size ↔ i < t.size ∨ i = j := by
  have := ho.1
  show i < max t.size (j + 1) ↔ _
  omega

theorem set_slot_of_ne {i : Nat} (hi : i ≠ j) (e : κ × β) : (t.set j e).slot i = t.slot i :=
  update_of_ne hi _ _

theorem clear_slot {i : Nat} {e : κ × β} :
    (t.clear j).slot i = some e ↔ i ≠ j ∧ t.slot i = some e := by
  by_cases hij : i = j
  · subst hij
    simp [clear]
  · simp [clear, hij]

theorem Distinct.clear (h : t.Distinct) (j : Nat) : (t.clear j).Distinct :=
  fun i i' k w w' hi hi' hs hs' =>
    h i i' k w w' hi hi' (clear_slot.1 hs).2 (clear_slot.1 hs').2

theorem distinct_of_keys (h : ∀ i < t.size, ∀ j < t.size, (t.slot i).isSome →
    (t.slot i).map Prod.fst = (t.slot j).map Prod.fst → i = j) : t.Distinct := by
  intro i j k v w hi hj hs hs'
  refine h i hi j hj (by rw [hs]; rfl) ?_
  rw [hs, hs']
  rfl

variable [DecidableEq κ]

/-- The value of the first slot with the key. -/
def lookup (t : Slots κ β) (k : κ) : Option β :=
  (List.range t.size).findSome? fun j =>
    (t.slot j).bind fun e => if e.1 = k then some e.2 else none

theorem lookup_eq_none : t.lookup k = none ↔ ∀ j v, j < t.size → t.slot j ≠ some (k, v) := by
  simp only [lookup, List.findSome?_eq_none_iff, List.mem_range, Option.bind_eq_none_iff]
  constructor
  · intro h j v hj heq
    simpa using h j hj _ heq
  · intro h j hj e he
    refine if_neg fun hk => ?_
    subst hk
    exact h j e.2 hj he

theorem lookup_of_first (hj : j < t.size) (he : t.slot j = some (k, v))
    (hfirst : ∀ i < j, ∀ w, t.slot i ≠ some (k, w)) : t.lookup k = some v := by
  obtain ⟨n, hn⟩ : ∃ n, t.size = j + (n + 1) := ⟨t.size - j - 1, by omega⟩
  refine List.findSome?_eq_some_iff.2 ⟨List.range j, j, (List.range n).map fun i => j + (i + 1), ?_,
    ?_, ?_⟩
  · rw [hn, List.range_add, List.range_succ_eq_map, List.map_cons, List.map_map]
    rfl
  · simp [he]
  · intro i hi
    refine Option.bind_eq_none_iff.2 fun e hs => if_neg fun hk => ?_
    subst hk
    exact hfirst i (List.mem_range.1 hi) e.2 hs

theorem exists_of_lookup (h : t.lookup k = some v) : ∃ j, j < t.size ∧ t.slot j = some (k, v) := by
  obtain ⟨j, hj, hb⟩ := List.exists_of_findSome?_eq_some h
  obtain ⟨e, he, hif⟩ := Option.bind_eq_some_iff.1 hb
  obtain ⟨hk, hv⟩ : e.1 = k ∧ e.2 = v := by simpa using hif
  subst hk hv
  exact ⟨j, List.mem_range.1 hj, he⟩

theorem lookup_eq_some (h : t.Distinct) :
    t.lookup k = some v ↔ ∃ j, j < t.size ∧ t.slot j = some (k, v) := by
  refine ⟨exists_of_lookup, fun ⟨j, hj, he⟩ => ?_⟩
  cases hl : t.lookup k with
  | none => exact absurd he (lookup_eq_none.1 hl j v hj)
  | some w =>
    -- the slot found is `j`, since it has the same key
    obtain ⟨i, hi, he'⟩ := exists_of_lookup hl
    obtain rfl := h i j k w v hi hj he' he
    rw [he'] at he
    cases he
    rfl

theorem Distinct.set (h : t.Distinct) (ho : t.Open j) (hk : t.lookup k = none) :
    (t.set j (k, v)).Distinct := by
  have hself : (t.set j (k, v)).slot j = some (k, v) := update_self ..
  -- the new key is in no other slot
  have hnew : ∀ i w, i < (t.set j (k, v)).size → (t.set j (k, v)).slot i = some (k, w) → i = j := by
    intro i w hi hs
    by_contra hij
    rw [set_slot_of_ne hij] at hs
    exact lookup_eq_none.1 hk i w ((ho.lt_set.1 hi).resolve_right hij) hs
  intro i i' k' w w' hi hi' hs hs'
  by_cases hij : i = j
  · subst hij
    rw [hself] at hs
    cases hs
    exact (hnew i' w' hi' hs').symm
  · by_cases hij' : i' = j
    · subst hij'
      rw [hself] at hs'
      cases hs'
      exact hnew i w hi hs
    · rw [set_slot_of_ne hij] at hs
      rw [set_slot_of_ne hij'] at hs'
      exact h i i' k' w w' ((ho.lt_set.1 hi).resolve_right hij)
        ((ho.lt_set.1 hi').resolve_right hij') hs hs'

theorem lookup_set (h : t.Distinct) (ho : t.Open j) (hk : t.lookup k = none) :
    (t.set j (k, v)).lookup = update t.lookup k (some v) := by
  funext k'
  by_cases hkk : k' = k
  · subst hkk
    rw [update_self]
    exact (lookup_eq_some (h.set ho hk)).2 ⟨j, ho.lt_set.2 (.inr rfl), update_self ..⟩
  · rw [update_of_ne hkk]
    refine Option.ext fun w => ?_
    rw [lookup_eq_some (h.set ho hk), lookup_eq_some h]
    constructor
    · rintro ⟨i, hi, hs⟩
      have hij : i ≠ j := by
        rintro rfl
        rw [show (t.set i (k, v)).slot i = some (k, v) from update_self ..] at hs
        cases hs
        exact hkk rfl
      rw [set_slot_of_ne hij] at hs
      exact ⟨i, (ho.lt_set.1 hi).resolve_right hij, hs⟩
    · rintro ⟨i, hi, hs⟩
      have hij : i ≠ j := by
        rintro rfl
        rw [ho.2 hi] at hs
        cases hs
      exact ⟨i, ho.lt_set.2 (.inl hi), (set_slot_of_ne hij _).trans hs⟩

theorem lookup_clear (h : t.Distinct) (hj : j < t.size) (he : t.slot j = some (k, v)) :
    (t.clear j).lookup = update t.lookup k none := by
  funext k'
  by_cases hkk : k' = k
  · subst hkk
    rw [update_self]
    refine lookup_eq_none.2 fun i w hi hs => ?_
    obtain ⟨hij, hs⟩ := clear_slot.1 hs
    exact hij (h i j k' w v hi hj hs he)
  · rw [update_of_ne hkk]
    refine Option.ext fun w => ?_
    rw [lookup_eq_some (h.clear j), lookup_eq_some h]
    refine exists_congr fun i => and_congr_right fun _ => ?_
    rw [clear_slot]
    refine and_iff_right_of_imp fun hs hij => ?_
    subst hij
    rw [he] at hs
    cases hs
    exact hkk rfl

end Slots

end Lib
