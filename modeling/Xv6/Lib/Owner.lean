import Mathlib.Logic.Function.Basic

/-!
# Ownership

`Owns owner holds`: the record `owner` of who has each lock says what the parties' places say
(`holds t l`: party `t` is at a place where it has lock `l`). It is kept when a free lock is taken,
when a lock is given up, and when no place changes what it holds; a lock has at most one holder.
-/

namespace Lib

open Function

variable {T L : Type*}

/-- `owner` records the holder of each lock. -/
def Owns (owner : L → Option T) (holds : T → L → Prop) : Prop :=
  ∀ t l, owner l = some t ↔ holds t l

namespace Owns

variable {owner : L → Option T} {holds holds' : T → L → Prop} {t : T} {l : L}

theorem unique (h : Owns owner holds) {u : T} (ht : holds t l) (hu : holds u l) : t = u := by
  have h1 := (h t l).2 ht
  have h2 := (h u l).2 hu
  rw [h1] at h2
  exact Option.some.inj h2

theorem not_holds (h : Owns owner holds) (hl : owner l = none) (t : T) : ¬ holds t l := by
  intro ht
  rw [(h t l).2 ht] at hl
  cases hl

theorem congr (h : Owns owner holds) (hh : ∀ u m, holds' u m ↔ holds u m) :
    Owns owner holds' := fun u m => (h u m).trans (hh u m).symm

variable [DecidableEq L]

theorem take (h : Owns owner holds) (hl : owner l = none)
    (ht : ∀ m, holds' t m ↔ m = l ∨ holds t m) (hne : ∀ u, u ≠ t → ∀ m, holds' u m ↔ holds u m) :
    Owns (update owner l (some t)) holds' := by
  intro u m
  by_cases hm : m = l
  · subst hm
    rw [update_self, Option.some.injEq]
    constructor
    · rintro rfl
      exact (ht m).2 (.inl rfl)
    · intro hu
      by_contra hut
      exact h.not_holds hl u ((hne u (Ne.symm hut) m).1 hu)
  · rw [update_of_ne hm]
    by_cases hu : u = t
    · subst hu
      rw [h u m, ht m]
      simp [hm]
    · rw [h u m, hne u hu m]

theorem give (h : Owns owner holds) (hl : holds t l)
    (ht : ∀ m, holds' t m ↔ m ≠ l ∧ holds t m) (hne : ∀ u, u ≠ t → ∀ m, holds' u m ↔ holds u m) :
    Owns (update owner l none) holds' := by
  intro u m
  by_cases hm : m = l
  · subst hm
    rw [update_self]
    refine ⟨nofun, fun hu => ?_⟩
    by_cases hut : u = t
    · subst hut
      exact absurd rfl ((ht m).1 hu).1
    · exact absurd (h.unique ((hne u hut m).1 hu) hl) hut
  · rw [update_of_ne hm]
    by_cases hu : u = t
    · subst hu
      rw [h u m, ht m]
      simp [hm]
    · rw [h u m, hne u hu m]

end Owns

/-! ## Several resources -/

section
variable {ι β : Type*} {f g : ι → Option β}

/-- `f i` is what `i` has, if it has anything: no two have the same. -/
def Exclusive (f : ι → Option β) : Prop := ∀ ⦃i j b⦄, f i = some b → f j = some b → i = j

theorem Exclusive.set (h : Exclusive f) (i : ι) (hg : ∀ j ≠ i, g j = f j)
    (hi : ∀ b, g i = some b → ∀ j ≠ i, f j ≠ some b) : Exclusive g := by
  intro j k b hj hk
  by_cases hji : j = i
  · subst hji
    by_contra hne
    rw [hg k fun heq => hne heq.symm] at hk
    exact hi b hj k (fun heq => hne heq.symm) hk
  · rw [hg j hji] at hj
    by_cases hki : k = i
    · subst hki
      exact absurd hj (hi b hk j hji)
    · rw [hg k hki] at hk
      exact h hj hk

end

end Lib
