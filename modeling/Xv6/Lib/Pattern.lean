import Mathlib.Data.List.Basic

/-!
# Patterns as sequences of items

An item matches segments of a text, and may look at what follows the segment (`Den`): one element
with a property, any number of them, or nothing, at the end of the text. A sequence of items matches
a segment that can be cut into segments for them (`seq`). `Here ds text`: some segment at the start
of the text matches. The lemmas `here_*` say so item by item, as a matcher with backtracking tries
it; `scan_iff` is the loop that tries one position after the other.
-/

namespace Lib.Pattern

variable {α : Type*} {P : α → Prop} {text : List α}

/-- What an item matches: a segment, with the text that follows it. -/
abbrev Den (α : Type*) := List α → List α → Prop

/-- One character of `P`. -/
def one (P : α → Prop) : Den α := fun seg _ => ∃ a, seg = [a] ∧ P a

/-- Any number of them. -/
def many (P : α → Prop) : Den α := fun seg _ => ∀ a ∈ seg, P a

/-- Nothing, at the end of the text. -/
def atEnd : Den α := fun seg rest => seg = [] ∧ rest = []

/-- One item after the other. -/
def seq : List (Den α) → Den α
  | [] => fun seg _ => seg = []
  | d :: ds => fun seg rest => ∃ s₁ s₂, seg = s₁ ++ s₂ ∧ d s₁ (s₂ ++ rest) ∧ seq ds s₂ rest

/-- A segment at the start of the text matches. -/
def Here (ds : List (Den α)) (text : List α) : Prop := ∃ seg rest, text = seg ++ rest ∧
    seq ds seg rest

variable {d : Den α} {ds : List (Den α)}

theorem here_nil (text : List α) : Here [] text := ⟨[], text, rfl, rfl⟩

theorem here_cons : Here (d :: ds) text ↔ ∃ s t, text = s ++ t ∧ d s t ∧ Here ds t := by
  constructor
  · rintro ⟨seg, rest, rfl, s₁, s₂, rfl, hd, hs⟩
    exact ⟨s₁, s₂ ++ rest, List.append_assoc .., hd, s₂, rest, rfl, hs⟩
  · rintro ⟨s, t, rfl, hd, seg, rest, rfl, hs⟩
    exact ⟨s ++ seg, rest, (List.append_assoc ..).symm, s, seg, rfl, hd, hs⟩

theorem here_one_nil : ¬ Here (one P :: ds) [] := by
  intro h
  obtain ⟨s, t, hnil, ⟨a, rfl, -⟩, -⟩ := here_cons.1 h
  cases hnil

theorem here_one_cons {a : α} : Here (one P :: ds) (a :: text) ↔ P a ∧ Here ds text := by
  rw [here_cons]
  constructor
  · rintro ⟨s, t, hst, ⟨b, rfl, hb⟩, ht⟩
    obtain ⟨rfl, rfl⟩ := List.cons_eq_cons.1 hst
    exact ⟨hb, ht⟩
  · rintro ⟨ha, ht⟩
    exact ⟨[a], text, rfl, ⟨a, rfl, ha⟩, ht⟩

theorem here_atEnd : Here [atEnd] text ↔ text = [] := by
  rw [here_cons]
  constructor
  · rintro ⟨s, t, rfl, ⟨rfl, rfl⟩, -⟩
    rfl
  · rintro rfl
    exact ⟨[], [], rfl, ⟨rfl, rfl⟩, here_nil _⟩

/-- `again` decides at each element whether to go on to the next position: the loop
`do { if (here(text)) return 1; } while (*text != 0 && again(*text++));` -/
def scan (here : List α → Bool) (again : α → Bool) : List α → Bool
  | [] => here []
  | a :: text => here (a :: text) || (again a && scan here again text)

theorem scan_iff {here : List α → Bool} {again : α → Bool} :
    scan here again text = true ↔
      ∃ pre post, text = pre ++ post ∧ (∀ a ∈ pre, again a = true) ∧ here post = true := by
  induction text with
  | nil => simp [scan]
  | cons a text ih =>
    rw [scan, Bool.or_eq_true, Bool.and_eq_true, ih]
    constructor
    · rintro (h | ⟨ha, pre, post, rfl, hpre, h⟩)
      · exact ⟨[], a :: text, rfl, nofun, h⟩
      · exact ⟨a :: pre, post, rfl, by simpa using ⟨ha, hpre⟩, h⟩
    · rintro ⟨pre, post, hcut, hpre, h⟩
      cases pre with
      | nil => exact .inl (hcut ▸ h)
      | cons b pre =>
        obtain ⟨rfl, rfl⟩ := List.cons_eq_cons.1 hcut
        simp only [List.mem_cons, forall_eq_or_imp] at hpre
        exact .inr ⟨hpre.1, pre, post, rfl, hpre.2, h⟩

end Lib.Pattern
