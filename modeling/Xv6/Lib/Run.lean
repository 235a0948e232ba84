import Mathlib.Algebra.Order.Ring.Nat
import Mathlib.Data.Option.Basic

/-!
# Runs of a partial step function

`step s a` is the state after action `a`, if the action is enabled in `s`. `run` takes a list of
actions, `trace` collects the events of one; `Reach` is "some run leads from one state to the
other". An invariant is shown once per step and holds along every run (`run_inv`, `Reach.inv`),
and so is an invariant of the state and the actions (`run_inv_acts`) or events (`trace_inv`) so far.
`Along` are the runs whose steps all meet a condition.
-/

namespace Lib

-- The actors of a run with one or two of them are numerals of `Fin`.
instance neZeroOne : NeZero 1 := ⟨by decide⟩

instance neZeroTwo : NeZero 2 := ⟨by decide⟩

variable {σ α : Type*}

/-- The state after the actions `as`, if each is enabled in turn. -/
def run (step : σ → α → Option σ) : σ → List α → Option σ
  | s, [] => some s
  | s, a :: as => (step s a).bind fun s' => run step s' as

/-- Some run of `step` leads from `s` to `s'`. -/
def Reach (step : σ → α → Option σ) (s s' : σ) : Prop := ∃ as, run step s as = some s'

/-- The events of a run: `ev s a` are those of action `a` taken in state `s`. -/
def trace {ε : Type*} (step : σ → α → Option σ) (ev : σ → α → List ε) : σ → List α → List ε
  | _, [] => []
  | s, a :: as => ev s a ++ ((step s a).map fun s' => trace step ev s' as).getD []

/-- Every step of the run from `s` with the actions `as` meets `ok`. -/
def Along (step : σ → α → Option σ) (ok : σ → α → Prop) : σ → List α → Prop
  | _, [] => True
  | s, a :: as => ok s a ∧ ∀ s', step s a = some s' → Along step ok s' as

section
variable {step : σ → α → Option σ}

theorem run_cons {s s' : σ} {a : α} {as : List α} :
    run step s (a :: as) = some s' ↔ ∃ s₁, step s a = some s₁ ∧ run step s₁ as = some s' := by
  simp [run, Option.bind_eq_some_iff]

theorem run_append {s s' : σ} : ∀ {as bs : List α},
    run step s (as ++ bs) = some s' ↔ ∃ s₁, run step s as = some s₁ ∧ run step s₁ bs = some s'
  | [], bs => by simp [run]
  | a :: as, bs => by
    rw [List.cons_append, run_cons]
    constructor
    · rintro ⟨s₁, h1, h2⟩
      obtain ⟨s₂, h3, h4⟩ := run_append.1 h2
      exact ⟨s₂, run_cons.2 ⟨s₁, h1, h3⟩, h4⟩
    · rintro ⟨s₂, h1, h2⟩
      obtain ⟨s₁, h3, h4⟩ := run_cons.1 h1
      exact ⟨s₁, h3, run_append.2 ⟨s₂, h4, h2⟩⟩

/-- **Invariant rule for a run**: what every step keeps, every run keeps. -/
theorem run_inv {P : σ → Prop} (hstep : ∀ s a s', P s → step s a = some s' → P s') :
    ∀ {as : List α} {s s' : σ}, P s → run step s as = some s' → P s'
  | [], s, s', hs, h => by cases h; exact hs
  | a :: as, s, s', hs, h => by
    obtain ⟨s₁, h1, h2⟩ := run_cons.1 h
    exact run_inv hstep (hstep s a s₁ hs h1) h2

theorem Along.cons {ok : σ → α → Prop} {s s' : σ} {a : α} {as : List α} (h : step s a = some s')
    (ha : ok s a) (has : Along step ok s' as) : Along step ok s (a :: as) :=
  ⟨ha, fun s₁ h₁ => by cases h.symm.trans h₁; exact has⟩

instance Along.decidable {ok : σ → α → Prop} [∀ s a, Decidable (ok s a)] :
    ∀ (s : σ) (as : List α), Decidable (Along step ok s as)
  | _, [] => isTrue trivial
  | s, a :: as =>
    match h : step s a with
    | none => decidable_of_iff (ok s a) ⟨fun ha => ⟨ha, by simp [h]⟩, fun ha => ha.1⟩
    | some s' =>
      have := @Along.decidable ok _ s' as
      decidable_of_iff (ok s a ∧ Along step ok s' as)
        ⟨fun ha => .cons h ha.1 ha.2, fun ha => ⟨ha.1, ha.2 s' h⟩⟩

/-- **Invariant rule for the runs that meet a condition**: what every step that meets it keeps. -/
theorem run_inv_along {P : σ → Prop} {ok : σ → α → Prop}
    (hstep : ∀ s a s', P s → ok s a → step s a = some s' → P s') :
    ∀ {as : List α} {s s' : σ}, P s → run step s as = some s' → Along step ok s as → P s'
  | [], s, s', hs, h, _ => by cases h; exact hs
  | a :: as, s, s', hs, h, hok => by
    obtain ⟨s₁, h1, h2⟩ := run_cons.1 h
    exact run_inv_along hstep (hstep s a s₁ hs hok.1 h1) h2 (hok.2 s₁ h1)

/-- **Invariant rule for a run and its actions**: a property of the actions so far and the state. -/
theorem run_inv_acts {P : List α → σ → Prop}
    (hstep : ∀ bs s a s', P bs s → step s a = some s' → P (bs ++ [a]) s') :
    ∀ {as : List α} (bs : List α) {s s' : σ}, P bs s → run step s as = some s' → P (bs ++ as) s'
  | [], bs, s, s', hs, h => by
    cases h
    rwa [List.append_nil]
  | a :: as, bs, s, s', hs, h => by
    obtain ⟨s₁, h1, h2⟩ := run_cons.1 h
    rw [List.append_cons]
    exact run_inv_acts hstep (bs ++ [a]) (hstep bs s a s₁ hs h1) h2

section
variable {ε : Type*} {ev : σ → α → List ε}

theorem trace_cons {s s' : σ} {a : α} {as : List α} (h : step s a = some s') :
    trace step ev s (a :: as) = ev s a ++ trace step ev s' as := by
  simp [trace, h]

theorem trace_append {s s' : σ} : ∀ {as bs : List α}, run step s as = some s' →
    trace step ev s (as ++ bs) = trace step ev s as ++ trace step ev s' bs
  | [], bs, h => by
    cases h
    rfl
  | a :: as, bs, h => by
    obtain ⟨s₁, h1, h2⟩ := run_cons.1 h
    rw [List.cons_append, trace_cons h1, trace_cons h1, trace_append h2, List.append_assoc]

/-- **Invariant rule for events**: a property of the events so far and the state that every step
keeps as it adds its own events. -/
theorem trace_inv {P : List ε → σ → Prop}
    (hstep : ∀ es s a s', P es s → step s a = some s' → P (es ++ ev s a) s') :
    ∀ {as : List α} {es : List ε} {s s' : σ}, P es s → run step s as = some s' →
      P (es ++ trace step ev s as) s'
  | [], es, s, s', hs, h => by
    cases h
    simpa [trace] using hs
  | a :: as, es, s, s', hs, h => by
    obtain ⟨s₁, h1, h2⟩ := run_cons.1 h
    rw [trace_cons h1, ← List.append_assoc]
    exact trace_inv hstep (hstep es s a s₁ hs h1) h2

theorem trace_split : ∀ {as : List α} {s s' : σ} {es₁ es₂ : List ε} {e : ε},
    run step s as = some s' → trace step ev s as = es₁ ++ e :: es₂ →
    ∃ as₁ a as₂ s₁ s₂ l₁ l₂, as = as₁ ++ a :: as₂ ∧ run step s as₁ = some s₁ ∧
      step s₁ a = some s₂ ∧ run step s₂ as₂ = some s' ∧ ev s₁ a = l₁ ++ e :: l₂ ∧
      es₁ = trace step ev s as₁ ++ l₁
  | [], s, s', es₁, es₂, e, _, he => by simp [trace] at he
  | a :: as, s, s', es₁, es₂, e, h, he => by
    obtain ⟨s₁, h1, h2⟩ := run_cons.1 h
    rw [trace_cons h1] at he
    rcases List.append_eq_append_iff.1 he with ⟨l, rfl, hl⟩ | ⟨l, hl, ht⟩
    · obtain ⟨as₁, b, as₂, t₁, t₂, l₁, l₂, rfl, hr, hs, hr', hev, rfl⟩ := trace_split h2 hl
      exact ⟨a :: as₁, b, as₂, t₁, t₂, l₁, l₂, rfl, run_cons.2 ⟨s₁, h1, hr⟩, hs, hr', hev,
        by rw [trace_cons h1, List.append_assoc]⟩
    · cases l with
      | nil =>
        have ht' : trace step ev s₁ as = [] ++ e :: es₂ := ht.symm
        obtain ⟨as₁, b, as₂, t₁, t₂, l₁, l₂, rfl, hr, hs, hr', hev, hes⟩ := trace_split h2 ht'
        refine ⟨a :: as₁, b, as₂, t₁, t₂, l₁, l₂, rfl, run_cons.2 ⟨s₁, h1, hr⟩, hs, hr', hev, ?_⟩
        rw [trace_cons h1, List.append_assoc, ← hes, hl, List.append_nil, List.append_nil]
      | cons e' l =>
        obtain ⟨rfl, -⟩ := List.cons_eq_cons.1 ht
        exact ⟨[], a, as, s, s₁, es₁, l, rfl, rfl, h1, h2, hl, rfl⟩

end

theorem Reach.refl (s : σ) : Reach step s s := ⟨[], rfl⟩

theorem Reach.tail {s s₁ s' : σ} {a : α} (h : Reach step s s₁) (ha : step s₁ a = some s') :
    Reach step s s' := by
  obtain ⟨as, has⟩ := h
  exact ⟨as ++ [a], run_append.2 ⟨s₁, has, by simp [run, ha]⟩⟩

/-- **Invariant rule**: what holds at the start and is kept by every step holds in every reachable
state. -/
theorem Reach.inv {P : σ → Prop} (hstep : ∀ s a s', P s → step s a = some s' → P s')
    {s s' : σ} (h : Reach step s s') (hs : P s) : P s' := by
  obtain ⟨as, has⟩ := h
  exact run_inv hstep hs has

end

end Lib
