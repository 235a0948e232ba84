import Xv6.Lib.Owner

/-!
# Allocation ledgers

Resources are given out to holders: `has h` is what the holder `h` has, if anything, `used` says
which resources are marked as taken, and some of these are reserved for no holder. A `Ledger` is in
order if every resource in use that is not reserved has exactly one holder, and no other is with a
holder. It stays in order when a holder takes a resource that is not in use (`take`), and when a
holder gives one back (`drop`).
-/

namespace Lib

open Function

variable {H B : Type*}

/-- What is used and not reserved has exactly one holder. -/
structure Ledger (reserved used : B → Prop) (has : H → Option B) : Prop where
  held : ∀ h b, has h = some b → used b ∧ ¬ reserved b
  excl : Exclusive has
  cover : ∀ b, used b → reserved b ∨ ∃ h, has h = some b
  reserve : ∀ b, reserved b → used b

namespace Ledger

variable {reserved used u : B → Prop} {has has' : H → Option B} {h : H} {b : B}

theorem not_held (l : Ledger reserved used has) (hb : ¬ used b) (h : H) : has h ≠ some b :=
  fun heq => hb (l.held h b heq).1

theorem used_iff (l : Ledger reserved used has) (b : B) :
    used b ↔ reserved b ∨ ∃! h, has h = some b := by
  constructor
  · intro hb
    rcases l.cover b hb with hr | ⟨h, hh⟩
    · exact .inl hr
    · exact .inr ⟨h, hh, fun h' hh' => l.excl hh' hh⟩
  · rintro (hr | ⟨h, hh, -⟩)
    · exact l.reserve b hr
    · exact (l.held h b hh).1

theorem congr (l : Ledger reserved used has) (hu : ∀ b, u b ↔ used b)
    (hh : ∀ h, has' h = has h) : Ledger reserved u has' := by
  have h1 : u = used := funext fun b => propext (hu b)
  have h2 : has' = has := funext hh
  rw [h1, h2]
  exact l

variable [DecidableEq H]

theorem take (l : Ledger reserved used has) (hb : ¬ used b) (hh : has h = none)
    (hu : ∀ x, u x ↔ used x ∨ x = b) :
    Ledger reserved u (update has h (some b)) := by
  have hr : ¬ reserved b := fun hr => hb (l.reserve b hr)
  refine ⟨fun h' x hx => ?_, ?_, fun x hx => ?_, fun x hx => (hu x).2 (.inl (l.reserve x hx))⟩
  · by_cases hh' : h' = h
    · subst hh'
      rw [update_self] at hx
      cases hx
      exact ⟨(hu b).2 (.inr rfl), hr⟩
    · rw [update_of_ne hh'] at hx
      obtain ⟨h1, h2⟩ := l.held h' x hx
      exact ⟨(hu x).2 (.inl h1), h2⟩
  · refine l.excl.set h (fun j hj => update_of_ne hj _ _) fun x hx j _ hj => ?_
    rw [update_self] at hx
    cases hx
    exact l.not_held hb j hj
  · rcases (hu x).1 hx with hx | rfl
    · rcases l.cover x hx with hx' | ⟨h', hh'⟩
      · exact .inl hx'
      · refine .inr ⟨h', ?_⟩
        rwa [update_of_ne]
        rintro rfl
        rw [hh] at hh'
        cases hh'
    · exact .inr ⟨h, update_self ..⟩

theorem drop (l : Ledger reserved used has) (hh : has h = some b) (hu : ∀ x, u x ↔ used x ∧ x ≠ b) :
    Ledger reserved u (update has h none) := by
  obtain ⟨-, hr⟩ := l.held h b hh
  refine ⟨fun h' x hx => ?_, ?_, fun x hx => ?_, fun x hx => (hu x).2 ⟨l.reserve x hx, ?_⟩⟩
  · by_cases hh' : h' = h
    · subst hh'
      rw [update_self] at hx
      cases hx
    · rw [update_of_ne hh'] at hx
      obtain ⟨h1, h2⟩ := l.held h' x hx
      refine ⟨(hu x).2 ⟨h1, ?_⟩, h2⟩
      rintro rfl
      exact hh' (l.excl hx hh)
  · refine l.excl.set h (fun j hj => update_of_ne hj _ _) fun x hx => ?_
    rw [update_self] at hx
    cases hx
  · obtain ⟨hx, hne⟩ := (hu x).1 hx
    rcases l.cover x hx with hx' | ⟨h', hh'⟩
    · exact .inl hx'
    · refine .inr ⟨h', ?_⟩
      rwa [update_of_ne]
      rintro rfl
      rw [hh] at hh'
      exact hne (Option.some.inj hh').symm
  · rintro rfl
    exact hr hx

theorem move {h' : H} (l : Ledger reserved used has) (hh : has h = some b) (hh' : has h' = none) :
    Ledger reserved used (update (update has h none) h' (some b)) := by
  have h1 : Ledger reserved (fun x => used x ∧ x ≠ b) _ := l.drop hh fun _ => Iff.rfl
  have hne : h' ≠ h := by
    rintro rfl
    rw [hh] at hh'
    cases hh'
  refine h1.take (fun hb => hb.2 rfl) (by rwa [update_of_ne hne]) fun x => ?_
  by_cases hx : x = b
  · simp [hx, (l.held h b hh).1]
  · simp [hx]

end Ledger

end Lib
