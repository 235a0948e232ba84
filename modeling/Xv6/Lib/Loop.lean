import Mathlib.Init

/-!
# While loops

`loop cond body n s` is the state in which `while (cond) body` leaves off when it is started in `s`,
if that takes less than `n` turns. Rules for a property that the body keeps: it holds at the end
(`loop_inv`); with a variant, the loop ends (`loop_ends`); if it implies the condition, the loop
never ends (`loop_endless`).
-/

namespace Lib

variable {σ : Type*} {cond : σ → Bool} {body : σ → σ}
variable {I : σ → Prop}

/-- `while (cond) body`, for less than `n` turns. -/
def loop (cond : σ → Bool) (body : σ → σ) : Nat → σ → Option σ
  | 0, _ => none
  | n + 1, s => if cond s then loop cond body n (body s) else some s

theorem loop_inv (hbody : ∀ s, I s → cond s → I (body s)) :
    ∀ {n : Nat} {s s' : σ}, I s → loop cond body n s = some s' → I s'
  | n + 1, s, s', hs, h => by
    rw [loop] at h
    split at h
    · exact loop_inv hbody (hbody s hs ‹_›) h
    · exact Option.some.inj h ▸ hs

/-- **Variant rule**. -/
theorem loop_ends (m : σ → Nat)
    (hbody : ∀ s, I s → cond s → I (body s) ∧ m (body s) < m s) {s : σ} (hs : I s) :
    ∃ n s', loop cond body n s = some s' := by
  induction hm : m s using Nat.strongRecOn generalizing s with
  | ind k ih =>
    by_cases hc : cond s
    · obtain ⟨hI, hlt⟩ := hbody s hs hc
      obtain ⟨n, s', h⟩ := ih _ (hm ▸ hlt) hI rfl
      exact ⟨n + 1, s', by rw [loop, if_pos hc, h]⟩
    · exact ⟨1, s, by rw [loop, if_neg hc]⟩

theorem loop_endless (hbody : ∀ s, I s → cond s ∧ I (body s)) :
    ∀ (n : Nat) {s : σ}, I s → loop cond body n s = none
  | 0, _, _ => rfl
  | n + 1, s, hs => by rw [loop, if_pos (hbody s hs).1, loop_endless hbody n (hbody s hs).2]

end Lib
