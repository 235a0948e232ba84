import Mathlib.Logic.Function.Basic
import Mathlib.Data.List.Basic

/-!
# Lists of writes

`writes d ws` is the memory `d` after the single writes `ws`, in order. What a list of writes leaves
at an address depends on the memory before only if the list does not write there (`writes_congr`);
so a list that is interrupted and then run from the start again leaves the same memory as one that
is run once (`writes_redo`).
-/

namespace Lib

open Function

variable {ι β : Type*} [DecidableEq ι]
variable {ws : List (ι × β)} {i : ι}

/-- The memory after the writes `ws`. -/
def writes (d : ι → β) (ws : List (ι × β)) : ι → β :=
  ws.foldl (fun d w => update d w.1 w.2) d

@[simp] theorem writes_nil (d : ι → β) : writes d [] = d := rfl

@[simp] theorem writes_cons (d : ι → β) (w : ι × β) (ws : List (ι × β)) :
    writes d (w :: ws) = writes (update d w.1 w.2) ws := rfl

@[simp] theorem writes_append (d : ι → β) (ws vs : List (ι × β)) :
    writes d (ws ++ vs) = writes (writes d ws) vs := List.foldl_append ..

theorem writes_of_forall_ne (h : ∀ w ∈ ws, w.1 ≠ i) (d : ι → β) :
    writes d ws i = d i := by
  induction ws generalizing d with
  | nil => rfl
  | cons w ws ih =>
    rw [writes_cons, ih (fun v hv => h v (List.mem_cons_of_mem _ hv))]
    exact update_of_ne (h w List.mem_cons_self).symm _ _

theorem writes_congr {d d' : ι → β} (h : (∀ w ∈ ws, w.1 ≠ i) → d i = d' i) :
    writes d ws i = writes d' ws i := by
  induction ws generalizing d d' with
  | nil => exact h nofun
  | cons w ws ih =>
    rw [writes_cons, writes_cons]
    refine ih fun hws => ?_
    rcases eq_or_ne i w.1 with rfl | hi
    · rw [update_self, update_self]
    · rw [update_of_ne hi, update_of_ne hi]
      refine h fun v hv => ?_
      rcases List.mem_cons.1 hv with rfl | hv
      · exact hi.symm
      · exact hws v hv

/-- **Redo**: running the whole list after a part of it. -/
theorem writes_redo (d : ι → β) (ws : List (ι × β)) (k : Nat) :
    writes (writes d (ws.take k)) ws = writes d ws := by
  funext i
  exact writes_congr fun h => writes_of_forall_ne (fun w hw => h w (List.mem_of_mem_take hw)) d

theorem writes_map (d f : ι → β) (is : List ι) (i : ι) :
    writes d (is.map fun i => (i, f i)) i = if i ∈ is then f i else d i := by
  induction is generalizing d with
  | nil => rfl
  | cons j is ih =>
    rw [List.map_cons, writes_cons, ih]
    by_cases hi : i ∈ is
    · rw [if_pos hi, if_pos (List.mem_cons_of_mem _ hi)]
    · rw [if_neg hi]
      rcases eq_or_ne i j with rfl | hij
      · rw [if_pos List.mem_cons_self]
        exact update_self ..
      · rw [if_neg (by simp [hij, hi])]
        exact update_of_ne hij _ _

end Lib
