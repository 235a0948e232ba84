import Xv6.Lib.Hoare

/-!
# Two runs of one program

`Twin P x Q E`: started in two states that are related by `P`, the program `x` of `EStateM ε σ` ends
the same way in both: it returns the same value, in two states related by `Q`, or stops for the same
reason, in two states related by `E`. A read of the state is allowed where both states give the same
value (`reads`). With `P s s` for one state, `Twin` is a Hoare triple for `x` (`Twin.ok`).
-/

namespace Lib

variable {ε σ α β : Type}

/-- Two runs of `x` from related states end alike. -/
def Twin (P : σ → σ → Prop) (x : EStateM ε σ α) (Q : α → σ → σ → Prop) (E : ε → σ → σ → Prop) :
    Prop :=
  ∀ s t, P s t → match x s, x t with
    | .ok a s', .ok b t' => a = b ∧ Q a s' t'
    | .error e s', .error f t' => e = f ∧ E e s' t'
    | _, _ => False

namespace Twin

variable {P P' : σ → σ → Prop} {x : EStateM ε σ α} {f : α → EStateM ε σ β} {Q Q' : α → σ → σ → Prop}
  {R : β → σ → σ → Prop} {E E' : ε → σ → σ → Prop}

theorem ok (h : Twin P x Q E) {s t s' : σ} {a : α} (hst : P s t) (hs : x s = .ok a s') :
    ∃ t', x t = .ok a t' ∧ Q a s' t' := by
  have h1 := h s t hst
  rw [hs] at h1
  cases ht : x t with
  | ok b t' =>
    rw [ht] at h1
    exact ⟨t', by rw [h1.1], h1.2⟩
  | error e t' =>
    rw [ht] at h1
    exact h1.elim

theorem error (h : Twin P x Q E) {s t s' : σ} {e : ε} (hst : P s t) (hs : x s = .error e s') :
    ∃ t', x t = .error e t' ∧ E e s' t' := by
  have h1 := h s t hst
  rw [hs] at h1
  cases ht : x t with
  | ok b t' =>
    rw [ht] at h1
    exact h1.elim
  | error f t' =>
    rw [ht] at h1
    exact ⟨t', by rw [h1.1], h1.2⟩

theorem pure {a : α} (h : ∀ s t, P s t → Q a s t) : Twin P (Pure.pure a : EStateM ε σ α) Q E :=
  fun s t hst => ⟨rfl, h s t hst⟩

theorem bind (hx : Twin P x Q E) (hf : ∀ a, Twin (Q a) (f a) R E) : Twin P (x >>= f) R E := by
  intro s t hst
  show match EStateM.bind x f s, EStateM.bind x f t with
    | .ok a s', .ok b t' => a = b ∧ R a s' t'
    | .error e s', .error f t' => e = f ∧ E e s' t'
    | _, _ => False
  unfold EStateM.bind
  cases hs : x s with
  | ok a s' =>
    obtain ⟨t', ht, hq⟩ := hx.ok hst hs
    rw [ht]
    exact hf a s' t' hq
  | error e s' =>
    obtain ⟨t', ht, hq⟩ := hx.error hst hs
    rw [ht]
    exact ⟨rfl, hq⟩

theorem conseq (h : Twin P x Q E) (hP : ∀ s t, P' s t → P s t) (hQ : ∀ a s t, Q a s t → Q' a s t)
    (hE : ∀ e s t, E e s t → E' e s t) : Twin P' x Q' E' := by
  intro s t hst
  cases hs : x s with
  | ok a s' =>
    obtain ⟨t', ht, hq⟩ := h.ok (hP s t hst) hs
    rw [ht]
    exact ⟨rfl, hQ a s' t' hq⟩
  | error e s' =>
    obtain ⟨t', ht, hq⟩ := h.error (hP s t hst) hs
    rw [ht]
    exact ⟨rfl, hE e s' t' hq⟩

theorem pre (h : Twin P x Q E) (hP : ∀ s t, P' s t → P s t) : Twin P' x Q E :=
  h.conseq hP (fun _ _ _ => id) fun _ _ _ => id

theorem post (h : Twin P x Q E) (hQ : ∀ a s t, Q a s t → Q' a s t) : Twin P x Q' E :=
  h.conseq (fun _ _ => id) hQ fun _ _ _ => id

theorem of_pre {φ : Prop} (hφ : ∀ s t, P s t → φ) (h : φ → Twin P x Q E) : Twin P x Q E :=
  fun s t hst => h (hφ s t hst) s t hst

theorem exists_pre {ι : Type*} {F : ι → σ → σ → Prop} (h : ∀ i, Twin (F i) x Q E) :
    Twin (fun s t => ∃ i, F i s t) x Q E := by
  rintro s t ⟨i, hi⟩
  exact h i s t hi

theorem throw {e : ε} (h : ∀ s t, P s t → E e s t) :
    Twin P (MonadExcept.throw e : EStateM ε σ α) Q E :=
  fun s t hst => ⟨rfl, h s t hst⟩

theorem modify {g : σ → σ} {Q : Unit → σ → σ → Prop} (h : ∀ s t, P s t → Q () (g s) (g t)) :
    Twin P (modify g : EStateM ε σ Unit) Q E :=
  fun s t hst => ⟨rfl, h s t hst⟩

theorem reads {g : σ → α} (h : ∀ s t, P s t → g t = g s) :
    Twin P (fun s => .ok (g s) s) (fun a s t => P s t ∧ a = g s) E :=
  fun s t hst => ⟨(h s t hst).symm, hst, rfl⟩

theorem ite {c : Prop} [Decidable c] {y : EStateM ε σ α} (hx : c → Twin P x Q E)
    (hy : ¬ c → Twin P y Q E) : Twin P (if c then x else y) Q E := by
  split
  · exact hx ‹_›
  · exact hy ‹_›

theorem triple (h : Twin P x Q E) :
    Triple (fun s => P s s) x (fun a s => Q a s s) fun e s => E e s s := by
  intro s hs
  cases hx : x s with
  | ok a s' =>
    obtain ⟨t', ht, hq⟩ := h.ok hs hx
    rw [hx] at ht
    cases ht
    exact hq
  | error e s' =>
    obtain ⟨t', ht, hq⟩ := h.error hs hx
    rw [hx] at ht
    cases ht
    exact hq

end Twin

end Lib
