import Mathlib.Order.Defs.Unbundled
import Mathlib.Tactic.TypeStar

/-!
# Hoare triples for programs that may stop

A program of `EStateM ε σ` changes a state and either returns a value or stops with an `ε`; the
state is kept either way. `Triple P x Q E`: from a state in `P`, `x` returns in a state of `Q` or
stops in a state of `E`. One rule for each way to build a program, in the order a program is read:
`bind` passes the assertion on, `forM` carries an invariant through a loop. `Steady E R x` is the
relational form for a preorder `R`.
-/

namespace Lib

variable {ε σ α β : Type}

theorem bind_ok {x : EStateM ε σ α} {f : α → EStateM ε σ β} {s s' : σ} {a : α}
    (h : x s = .ok a s') :
    (x >>= f) s = f a s' := by
  show EStateM.bind x f s = _
  rw [EStateM.bind, h]

theorem bind_error {x : EStateM ε σ α} {f : α → EStateM ε σ β} {s s' : σ} {e : ε}
    (h : x s = .error e s') : (x >>= f) s = .error e s' := by
  show EStateM.bind x f s = _
  rw [EStateM.bind, h]

/-- From a state in `P`, `x` returns in `Q` or stops in `E`. -/
def Triple (P : σ → Prop) (x : EStateM ε σ α) (Q : α → σ → Prop) (E : ε → σ → Prop) : Prop :=
  ∀ s, P s → match x s with
    | .ok a s' => Q a s'
    | .error e s' => E e s'

namespace Triple

variable {P P' : σ → Prop} {x : EStateM ε σ α} {f : α → EStateM ε σ β} {Q Q' : α → σ → Prop}
  {R : β → σ → Prop} {E E' : ε → σ → Prop}
variable {s s' : σ} {a : α} {e : ε} {φ : Prop}

theorem ok (h : Triple P x Q E) (hs : P s) (hx : x s = .ok a s') : Q a s' := by
  have h1 := h s hs
  rwa [hx] at h1

theorem error (h : Triple P x Q E) (hs : P s) (hx : x s = .error e s') :
    E e s' := by
  have h1 := h s hs
  rwa [hx] at h1

theorem returns (h : Triple P x Q fun _ _ => False) (hs : P s) : ∃ a s', x s = .ok a s' ∧
    Q a s' := by
  cases hx : x s with
  | ok a s' => exact ⟨a, s', rfl, h.ok hs hx⟩
  | error e s' => exact (h.error hs hx).elim

theorem pure (h : ∀ s, P s → Q a s) : Triple P (Pure.pure a : EStateM ε σ α) Q E :=
  fun s hs => h s hs

theorem bind (hx : Triple P x Q E) (hf : ∀ a, Triple (Q a) (f a) R E) :
    Triple P (x >>= f) R E := by
  intro s hs
  have h1 := hx s hs
  show match EStateM.bind x f s with | .ok a s' => R a s' | .error e s' => E e s'
  unfold EStateM.bind
  cases hxs : x s with
  | ok a s' =>
    rw [hxs] at h1
    exact hf a s' h1
  | error e s' =>
    rw [hxs] at h1
    exact h1

section
variable (h : Triple P x Q E)
include h

theorem conseq (hP : ∀ s, P' s → P s) (hQ : ∀ a s, Q a s → Q' a s)
    (hE : ∀ e s, E e s → E' e s) : Triple P' x Q' E' := by
  intro s hs
  have h1 := h s (hP s hs)
  cases hxs : x s with
  | ok a s' =>
    rw [hxs] at h1
    exact hQ a s' h1
  | error e s' =>
    rw [hxs] at h1
    exact hE e s' h1

theorem pre (hP : ∀ s, P' s → P s) : Triple P' x Q E :=
  h.conseq hP (fun _ _ => id) fun _ _ => id

theorem post (hQ : ∀ a s, Q a s → Q' a s) : Triple P x Q' E :=
  h.conseq (fun _ => id) hQ fun _ _ => id

theorem onError (hE : ∀ e s, E e s → E' e s) : Triple P x Q E' :=
  h.conseq (fun _ => id) (fun _ _ => id) hE

theorem and (h' : Triple P' x Q' E') :
    Triple (fun s => P s ∧ P' s) x (fun a s => Q a s ∧ Q' a s) fun e s => E e s ∧ E' e s := by
  intro s hs
  have h1 := h s hs.1
  have h2 := h' s hs.2
  cases hxs : x s with
  | ok a s' =>
    rw [hxs] at h1 h2
    exact ⟨h1, h2⟩
  | error e s' =>
    rw [hxs] at h1 h2
    exact ⟨h1, h2⟩

theorem both (h' : Triple (fun s => P s ∧ P' s) x Q' E') :
    Triple (fun s => P s ∧ P' s) x (fun a s => Q a s ∧ Q' a s) fun e s => E e s ∧ E' e s :=
  (h.and h').pre fun _ hs => ⟨hs.1, hs⟩

end

theorem returns_iff (h : Triple P x (fun a s => Q a s ∧ φ) fun _ _ => ¬ φ) (hs : P s) :
    (∃ a s', x s = .ok a s' ∧ Q a s') ↔ φ := by
  constructor
  · rintro ⟨a, s', hx, -⟩
    exact (h.ok hs hx).2
  · intro hφ
    obtain ⟨a, s', hx, hQ, -⟩ := (h.onError fun _ _ hn => hn hφ).returns hs
    exact ⟨a, s', hx, hQ⟩

theorem trivially : Triple P x (fun _ _ => True) fun _ _ => True := by
  intro s _
  split <;> trivial

theorem of_pre (hφ : ∀ s, P s → φ) (h : φ → Triple P x Q E) : Triple P x Q E :=
  fun s hs => h (hφ s hs) s hs

theorem of_and (h : φ → Triple P x Q E) : Triple (fun s => P s ∧ φ) x Q E :=
  fun s hs => h hs.2 s hs.1

theorem exists_pre {ι : Type*} {F : ι → σ → Prop} (h : ∀ i, Triple (F i) x Q E) :
    Triple (fun s => ∃ i, F i s) x Q E := by
  rintro s ⟨i, hi⟩
  exact h i s hi

theorem of_state (h : ∀ s₀, P s₀ → Triple (fun s => s = s₀) x Q E) : Triple P x Q E :=
  fun s hs => h s hs s rfl

theorem read_bind (hx : x s = .ok a s) (hf : Triple (· = s) (f a) R E) :
    Triple (· = s) (x >>= f) R E := by
  rintro _ rfl
  rw [bind_ok hx]
  exact hf _ rfl

theorem reads {g : σ → α} (hx : ∀ s, P s → x s = .ok (g s) s) :
    Triple P x (fun a s => P s ∧ a = g s) E := by
  intro s hs
  rw [hx s hs]
  exact ⟨hs, rfl⟩

theorem get {Q : σ → σ → Prop} (h : ∀ s, P s → Q s s) :
    Triple P (MonadState.get : EStateM ε σ σ) Q E :=
  fun s hs => h s hs

theorem modify {g : σ → σ} {Q : Unit → σ → Prop} (h : ∀ s, P s → Q () (g s)) :
    Triple P (modify g : EStateM ε σ Unit) Q E :=
  fun s hs => h s hs

theorem set {s₀ : σ} {Q : Unit → σ → Prop} (h : ∀ s, P s → Q () s₀) :
    Triple P (MonadStateOf.set s₀ : EStateM ε σ Unit) Q E :=
  fun s hs => h s hs

theorem throw (h : ∀ s, P s → E e s) : Triple P (MonadExcept.throw e : EStateM ε σ α) Q E :=
  fun s hs => h s hs

theorem or_pre (h : Triple P x Q E) (h' : Triple P' x Q E) :
    Triple (fun s => P s ∨ P' s) x Q E := by
  rintro s (hs | hs)
  · exact h s hs
  · exact h' s hs

theorem ite {c : Prop} [Decidable c] {y : EStateM ε σ α} (hx : c → Triple P x Q E)
    (hy : ¬ c → Triple P y Q E) : Triple P (if c then x else y) Q E := by
  split
  · exact hx ‹_›
  · exact hy ‹_›

theorem forM {g : β → EStateM ε σ PUnit} {I : List β → σ → Prop}
    (h : ∀ b l, Triple (I (b :: l)) (g b) (fun _ => I l) E) :
    ∀ l : List β, Triple (I l) (l.forM g) (fun _ => I []) E
  | [] => pure fun _ hs => hs
  | b :: l => by
    show Triple _ (g b >>= fun _ => l.forM g) _ _
    exact (h b l).bind fun _ => forM h l

end Triple

/-- Where `x` ends, `R` holds between the first state and the last, and it stops with errors of `E`
only. -/
def Steady (E : ε → Prop) (R : σ → σ → Prop) (x : EStateM ε σ α) : Prop :=
  ∀ s₀, Triple (R s₀) x (fun _ => R s₀) fun e s => E e ∧ R s₀ s

namespace Steady

variable {E : ε → Prop} {R : σ → σ → Prop} {x : EStateM ε σ α} {f : α → EStateM ε σ β}

theorem pure {a : α} : Steady E R (Pure.pure a : EStateM ε σ α) := fun _ => .pure fun _ h => h

theorem throw {e : ε} (he : E e) : Steady E R (MonadExcept.throw e : EStateM ε σ α) :=
  fun _ => .throw fun _ h => ⟨he, h⟩

theorem get : Steady E R (MonadState.get : EStateM ε σ σ) := fun _ => .get fun _ h => h

theorem modify [IsTrans σ R] {g : σ → σ} (h : ∀ s, R s (g s)) :
    Steady E R (modify g : EStateM ε σ Unit) :=
  fun _ => .modify fun s hs => IsTrans.trans _ _ _ hs (h s)

theorem bind (hx : Steady E R x) (hf : ∀ a, Steady E R (f a)) : Steady E R (x >>= f) :=
  fun s => (hx s).bind fun a => hf a s

theorem ite {c : Prop} [Decidable c] {y : EStateM ε σ α} (hx : Steady E R x) (hy : Steady E R y) :
    Steady E R (if c then x else y) := by
  split
  · exact hx
  · exact hy

theorem forM {g : β → EStateM ε σ PUnit} (h : ∀ b, Steady E R (g b)) (l : List β) :
    Steady E R (l.forM g) :=
  fun s => Triple.forM (I := fun _ => R s) (fun b _ => h b s) l

theorem frame (h : Steady E R x) {P : σ → Prop} {Q : α → σ → Prop} {F : ε → σ → Prop}
    (hx : Triple P x Q F) (s₀ : σ) :
    Triple (fun s => P s ∧ R s₀ s) x (fun a s => Q a s ∧ R s₀ s) F :=
  (hx.and (h s₀)).onError fun _ _ hs => hs.1

theorem triple (h : Steady E R x) [Std.Refl R] {P : σ → Prop} {Q : α → σ → Prop}
    {F : ε → σ → Prop} (hQ : ∀ s s' a, P s → R s s' → Q a s')
    (hF : ∀ s s' e, P s → R s s' → F e s') : Triple P x Q F :=
  .of_state fun s₀ h₀ => (h s₀).conseq (fun s hs => by rw [hs]; exact Std.Refl.refl s₀)
    (fun a s hs => hQ s₀ s a h₀ hs) fun e s hs => hF s₀ s e h₀ hs.2

theorem mono {R' : σ → σ → Prop} [Std.Refl R] [IsTrans σ R'] (h : Steady E R x)
    (hR : ∀ s s', R s s' → R' s s') : Steady E R' x := fun _ =>
  .of_state fun s₁ h₁ => (h s₁).conseq (fun _ hs => hs ▸ Std.Refl.refl _)
    (fun _ _ hs => IsTrans.trans _ _ _ h₁ (hR _ _ hs)) fun _ _ hs =>
      ⟨hs.1, IsTrans.trans _ _ _ h₁ (hR _ _ hs.2)⟩

end Steady

/-- The same, whatever the error. -/
abbrev Keeps (R : σ → σ → Prop) (x : EStateM ε σ α) : Prop := Steady (fun _ => True) R x

theorem Steady.keeps {E : ε → Prop} {R : σ → σ → Prop} {x : EStateM ε σ α} (h : Steady E R x) :
    Keeps R x :=
  fun s => (h s).onError fun _ _ => .imp_left fun _ => trivial

end Lib
