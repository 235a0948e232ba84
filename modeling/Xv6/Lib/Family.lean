import Mathlib.Data.List.Basic
import Mathlib.Logic.Function.Basic

/-!
# Parents and children

Places of type `ι` that are free, hold a living member of a family, or one that has died and whose
parent has not taken notice yet. Members are born in free places; when one dies, its children go to
`init`, who never dies; a member may wait for the death of a child. `Step` is what can happen, with
the events it makes.

* `Ok`: every parent lives, and nobody waits who has a dead child.
* `Traced`: a member was born to its parent, or to one that has died since, and then its parent is
  `init`; it was not buried since. So whoever is buried was born once for it (`buried_born`).
-/

namespace Lib

open Function

/-- What a place of the family is. -/
inductive Life
  | free | alive | dead
  deriving DecidableEq

/-- Parents, lives and names. -/
structure Family (ι ν : Type*) where
  parent : ι → Option ι
  life : ι → Life
  name : ι → ν
  /-- Waits for the death of a child. -/
  waiting : ι → Prop

/-- What happens in a family: `born p q n` and `buried p q n` are about the child `q` of `p`, named
`n`. -/
inductive FamilyEvent (ι ν : Type*)
  | born (p q : ι) (n : ν)
  | died (p : ι)
  | buried (p q : ι) (n : ν)
  deriving DecidableEq

/-- The event is the birth or the burial of `q`. -/
def FamilyEvent.About {ι ν : Type*} (q : ι) : FamilyEvent ι ν → Prop
  | .born _ x _ | .buried _ x _ => x = q
  | .died _ => False

namespace Family

variable {ι ν : Type*} [DecidableEq ι]

/-- Nothing changes but that sleepers wake and free places get names. -/
structure Rest (f f' : Family ι ν) : Prop where
  parent : f'.parent = f.parent
  life : f'.life = f.life
  name : ∀ q, f.life q ≠ .free → f'.name q = f.name q
  waiting : ∀ p, f'.waiting p → f.waiting p

/-- One step, and the events it is. -/
inductive Step (init : ι) (f f' : Family ι ν) : List (FamilyEvent ι ν) → Prop
  | rest : Rest f f' → Step init f f' []
  /-- `p` begins to wait. -/
  | wait {p : ι} : f'.parent = f.parent → f'.life = f.life → f'.name = f.name →
      (∀ q, f'.waiting q → q = p ∨ f.waiting q) → (∀ q, f.parent q = some p → f.life q ≠ .dead) →
      Step init f f' []
  /-- The free place `q` gets a parent. -/
  | attach {p q : ι} : f.life p = .alive → f.life q = .free →
      f'.parent = update f.parent q (some p) → f'.life = f.life → f'.name = f.name →
      (∀ x, f'.waiting x → f.waiting x) → Step init f f' []
  | born {p q : ι} : f.parent q = some p → f.life q = .free → f'.parent = f.parent →
      f'.life = update f.life q .alive → f'.name = f.name →
      (∀ x, f'.waiting x → f.waiting x) → Step init f f' [.born p q (f.name q)]
  /-- `p` dies; its parent wakes, and `init` does if it inherits a dead child. -/
  | died {p : ι} : p ≠ init → f.life p = .alive →
      (∀ q, f'.parent q = if f.parent q = some p then some init else f.parent q) →
      f'.life = update f.life p .dead → f'.name = f.name →
      (∀ q, f'.waiting q → f.waiting q ∧ f.parent p ≠ some q ∧
        (q = init → ∀ x, f.parent x = some p → f.life x ≠ .dead)) →
      Step init f f' [.died p]
  | buried {p q : ι} : f.parent q = some p → f.life q = .dead →
      f'.parent = update f.parent q none → f'.life = update f.life q .free →
      (∀ x, x ≠ q → f'.name x = f.name x) → (∀ x, f'.waiting x → f.waiting x) →
      Step init f f' [.buried p q (f.name q)]

theorem Step.length_le {init : ι} {f f' : Family ι ν} {ev : List (FamilyEvent ι ν)}
    (h : Step init f f' ev) : ev.length ≤ 1 := by
  cases h <;> simp

/-! ## Living parents -/

/-- Only the living have children, and nobody waits for a dead child. -/
structure Ok (init : ι) (f : Family ι ν) : Prop where
  init_alive : f.life init = .alive
  init_parent : f.parent init = none
  irrefl : ∀ q, f.parent q ≠ some q
  parent : ∀ {q p}, f.parent q = some p → f.life p = .alive
  waiting : ∀ {p}, f.waiting p → ∀ {q}, f.parent q = some p → f.life q ≠ .dead

variable {init : ι} {f f' : Family ι ν} {es ev : List (FamilyEvent ι ν)}

omit [DecidableEq ι] in
theorem Ok.ne_init (h : Ok init f) {q p : ι} (hq : f.parent q = some p) : q ≠ init := by
  rintro rfl
  cases h.init_parent.symm.trans hq

section
omit [DecidableEq ι]

theorem Ok.frame (h : Ok init f) (hpar : f'.parent = f.parent) (hlife : f'.life = f.life)
    (hwait : ∀ p, f'.waiting p → f.waiting p ∨ ∀ q, f.parent q = some p → f.life q ≠ .dead) :
    Ok init f' := by
  refine ⟨?_, ?_, ?_, fun hq => ?_, fun hw q hq => ?_⟩
  · rw [hlife]
    exact h.init_alive
  · rw [hpar]
    exact h.init_parent
  · rw [hpar]
    exact h.irrefl
  · rw [hpar] at hq
    rw [hlife]
    exact h.parent hq
  · rw [hpar] at hq
    rw [hlife]
    rcases hwait _ hw with hw | hn
    · exact h.waiting hw hq
    · exact hn q hq

end

variable {p q : ι} {n : ν}

theorem Ok.attach (h : Ok init f) (hp : f.life p = .alive) (hq : f.life q = .free)
    (hpar : f'.parent = update f.parent q (some p)) (hlife : f'.life = f.life)
    (hwait : ∀ x, f'.waiting x → f.waiting x) : Ok init f' := by
  have hne {x : ι} (hx : f.life x ≠ .free) : x ≠ q := by
    rintro rfl
    exact hx hq
  refine ⟨?_, ?_, fun x => ?_, fun {x y} hx => ?_, fun {w} hw {x} hx => ?_⟩
  · rw [hlife, h.init_alive]
  · rw [hpar, update_of_ne (hne (by rw [h.init_alive]; nofun)), h.init_parent]
  · rw [hpar]
    rcases eq_or_ne x q with rfl | hxq
    · rw [update_self]
      rintro ⟨⟩
      cases hp.symm.trans hq
    · rw [update_of_ne hxq]
      exact h.irrefl x
  · rw [hlife]
    rw [hpar] at hx
    rcases eq_or_ne x q with rfl | hxq
    · rw [update_self] at hx
      cases hx
      exact hp
    · rw [update_of_ne hxq] at hx
      exact h.parent hx
  · rw [hlife]
    rw [hpar] at hx
    rcases eq_or_ne x q with rfl | hxq
    · rw [hq]
      nofun
    · rw [update_of_ne hxq] at hx
      exact h.waiting (hwait w hw) hx

theorem Ok.setLife (h : Ok init f) {l : Life} (hq : f.life q ≠ .alive) (hl : l ≠ .dead)
    (hpar : ∀ x, f'.parent x = f.parent x ∨ f'.parent x = none)
    (hlife : f'.life = update f.life q l) (hwait : ∀ x, f'.waiting x → f.waiting x) :
    Ok init f' := by
  have hne {x : ι} (hx : f.life x = .alive) : x ≠ q := by
    rintro rfl
    exact hq hx
  have hold {x y : ι} (hx : f'.parent x = some y) : f.parent x = some y := by
    rcases hpar x with he | he
    · rwa [he] at hx
    · cases he.symm.trans hx
  refine ⟨?_, ?_, fun x hx => h.irrefl x (hold hx), fun {x y} hx => ?_, fun {w} hw {x} hx => ?_⟩
  · rw [hlife, update_of_ne (hne h.init_alive), h.init_alive]
  · rcases hpar init with he | he
    · rw [he, h.init_parent]
    · exact he
  · have hy := h.parent (hold hx)
    rw [hlife, update_of_ne (hne hy), hy]
  · rw [hlife]
    rcases eq_or_ne x q with rfl | hxq
    · rwa [update_self]
    · rw [update_of_ne hxq]
      exact h.waiting (hwait w hw) (hold hx)

theorem Ok.died (h : Ok init f) (hp : p ≠ init)
    (hpar : ∀ q, f'.parent q = if f.parent q = some p then some init else f.parent q)
    (hlife : f'.life = update f.life p .dead)
    (hwait : ∀ q, f'.waiting q → f.waiting q ∧ f.parent p ≠ some q ∧
      (q = init → ∀ x, f.parent x = some p → f.life x ≠ .dead)) : Ok init f' := by
  refine ⟨?_, ?_, fun q hq => ?_, fun {q x} hq => ?_, fun {w} hw {q} hq => ?_⟩
  · rw [hlife, update_of_ne hp.symm, h.init_alive]
  · rw [hpar, h.init_parent]
    rfl
  · rw [hpar] at hq
    split at hq
    · rename_i hqp
      exact h.ne_init hqp (Option.some.inj hq).symm
    · exact h.irrefl q hq
  · rw [hpar] at hq
    rw [hlife]
    split at hq
    · cases hq
      rw [update_of_ne hp.symm, h.init_alive]
    · rename_i hne
      have hxp : x ≠ p := by
        rintro rfl
        exact hne hq
      rw [update_of_ne hxp]
      exact h.parent hq
  · obtain ⟨hw', hnp, hinit⟩ := hwait w hw
    rw [hpar] at hq
    rw [hlife]
    rcases eq_or_ne q p with rfl | hqp
    · rw [if_neg (h.irrefl q)] at hq
      exact absurd hq hnp
    · rw [update_of_ne hqp]
      split at hq
      · rename_i hqp'
        cases hq
        exact hinit rfl q hqp'
      · exact h.waiting hw' hq

theorem Ok.step (h : Ok init f) (hs : Step init f f' ev) : Ok init f' := by
  cases hs with
  | rest hr => exact h.frame hr.parent hr.life fun p hp => .inl (hr.waiting p hp)
  | wait hpar hlife _ hwait hp =>
    refine h.frame hpar hlife fun q hq => ?_
    rcases hwait q hq with rfl | hq
    · exact .inr hp
    · exact .inl hq
  | attach hp hq hpar hlife _ hwait => exact h.attach hp hq hpar hlife hwait
  | born _ hq hpar hlife _ hwait =>
    exact h.setLife (l := .alive) (by rw [hq]; nofun) nofun (fun x => .inl (by rw [hpar])) hlife
      hwait
  | died hp _ hpar hlife _ hwait => exact h.died hp hpar hlife hwait
  | @buried p q _ hq hpar hlife _ hwait =>
    refine h.setLife (l := .free) (by rw [hq]; nofun) nofun (fun x => ?_) hlife hwait
    rw [hpar]
    rcases eq_or_ne x q with rfl | hxq
    · exact .inr (update_self ..)
    · exact .inl (update_of_ne hxq ..)

theorem Ok.name_init (h : Ok init f) (hs : Step init f f' ev) : f'.name init = f.name init := by
  cases hs with
  | rest hr => exact hr.name init (by rw [h.init_alive]; nofun)
  | wait _ _ hname _ _ | attach _ _ _ _ hname _ | born _ _ _ _ hname _ | died _ _ _ _ hname _ =>
    rw [hname]
  | @buried p q _ hq _ _ hname _ =>
    refine hname init ?_
    rintro rfl
    cases h.init_alive.symm.trans hq

/-! ## Births and burials -/

/-- In the history `es`, a child named `n` was born to `p₀` in place `q`, and is not buried yet; its
parent is `p₀` as long as that one lives, and then `init`. -/
def BornTo (init : ι) (es : List (FamilyEvent ι ν)) (q : ι) (n : ν) (parent : Option ι) : Prop :=
  ∃ p₀ l₁ l₂, es = l₁ ++ .born p₀ q n :: l₂ ∧ (∀ e ∈ l₂, ¬ e.About q) ∧
    (parent = some p₀ ∧ .died p₀ ∉ l₂ ∨ parent = some init ∧ .died p₀ ∈ l₂)

/-- Every member was born. -/
def Traced (init : ι) (es : List (FamilyEvent ι ν)) (f : Family ι ν) : Prop :=
  ∀ q, f.life q ≠ .free → q ≠ init → BornTo init es q (f.name q) (f.parent q)

omit [DecidableEq ι] in
theorem BornTo.concat {parent parent' : Option ι} {e : FamilyEvent ι ν}
    (h : BornTo init es q n parent) (he : ¬ e.About q)
    (hpar : ∀ p₀, parent = some p₀ → e ≠ .died p₀ → parent' = parent)
    (hdied : ∀ p₀, parent = some p₀ → e = .died p₀ → parent' = some init)
    (hinit : parent = some init → parent' = some init) : BornTo init (es ++ [e]) q n parent' := by
  obtain ⟨p₀, l₁, l₂, rfl, hl, hp⟩ := h
  refine ⟨p₀, l₁, l₂ ++ [e], by simp, fun x hx => ?_, ?_⟩
  · rcases List.mem_append.1 hx with hx | hx
    · exact hl x hx
    · rw [List.mem_singleton.1 hx]
      exact he
  · rcases hp with ⟨hp, hd⟩ | ⟨hp, hd⟩
    · by_cases hed : e = .died p₀
      · exact .inr ⟨hdied p₀ hp hed, by simp [hed]⟩
      · refine .inl ⟨(hpar p₀ hp hed).trans hp, ?_⟩
        simp only [List.mem_append, List.mem_singleton, not_or]
        exact ⟨hd, fun h => hed h.symm⟩
    · exact .inr ⟨hinit hp, List.mem_append_left _ hd⟩

omit [DecidableEq ι] in
theorem Traced.rest (h : Traced init es f) (hlife : f'.life = f.life)
    (hname : ∀ q, f.life q ≠ .free → f'.name q = f.name q)
    (hpar : ∀ q, f.life q ≠ .free → f'.parent q = f.parent q) : Traced init es f' := by
  intro q hq hi
  rw [hlife] at hq
  rw [hname q hq, hpar q hq]
  exact h q hq hi

theorem Traced.step (h : Traced init es f) (hs : Step init f f' ev) :
    Traced init (es ++ ev) f' := by
  cases hs with
  | rest hr =>
    rw [List.append_nil]
    exact h.rest hr.life hr.name fun q _ => by rw [hr.parent]
  | wait hpar hlife hname _ _ =>
    rw [List.append_nil]
    exact h.rest hlife (fun q _ => by rw [hname]) fun q _ => by rw [hpar]
  | @attach p q _ hq hpar hlife hname _ =>
    rw [List.append_nil]
    refine h.rest hlife (fun x _ => by rw [hname]) fun x hx => ?_
    have hxq : x ≠ q := by
      rintro rfl
      exact hx hq
    rw [hpar, update_of_ne hxq]
  | @born p q hp _ hpar hlife hname _ =>
    intro x hx hi
    rw [hname, hpar]
    rcases eq_or_ne x q with rfl | hxq
    · exact ⟨p, es, [], rfl, nofun, .inl ⟨hp, nofun⟩⟩
    · rw [hlife, update_of_ne hxq] at hx
      exact (h x hx hi).concat (fun he => hxq he.symm) (fun _ _ _ => rfl) nofun id
  | @died p hp ha hpar hlife hname _ =>
    intro x hx hi
    have hx' : f.life x ≠ .free := by
      rcases eq_or_ne x p with rfl | hxp
      · rw [ha]
        nofun
      · rwa [hlife, update_of_ne hxp] at hx
    rw [hname, hpar]
    refine (h x hx' hi).concat id (fun p₀ hp₀ hne => ?_) (fun p₀ hp₀ he => ?_) fun hinit => ?_
    · exact if_neg fun hxp => hne (by rw [Option.some.inj (hp₀.symm.trans hxp)])
    · cases he
      exact if_pos hp₀
    · rw [if_neg fun hxp => hp (Option.some.inj (hinit.symm.trans hxp)).symm, hinit]
  | @buried p q _ hq hpar hlife hname _ =>
    intro x hx hi
    have hxq : x ≠ q := by
      rintro rfl
      rw [hlife, update_self] at hx
      exact hx rfl
    rw [hlife, update_of_ne hxq] at hx
    rw [hname x hxq, hpar, update_of_ne hxq]
    exact (h x hx hi).concat (fun he => hxq he.symm) (fun _ _ _ => rfl) nofun id

/-- **Whoever is buried was born**, under the name it is buried with, is buried once for it, and by
the parent it was born to, or by `init` if that one has died since. -/
theorem Traced.buried (h : Traced init es f) (ho : Ok init f)
    (hs : Step init f f' [.buried p q n]) :
    ∃ p₀ l₁ l₂, es = l₁ ++ .born p₀ q n :: l₂ ∧ (∀ e ∈ l₂, ¬ e.About q) ∧
      (p = p₀ ∧ .died p₀ ∉ l₂ ∨ p = init ∧ .died p₀ ∈ l₂) := by
  cases hs with
  | buried hp hq _ _ _ _ =>
    have hi : q ≠ init := by
      rintro rfl
      cases ho.init_alive.symm.trans hq
    have hb := h q (by rw [hq]; nofun) hi
    rw [hp] at hb
    simpa only [BornTo, Option.some.injEq] using hb

omit [DecidableEq ι] in
theorem born_between {es₁ l₁ l₂ l : List (FamilyEvent ι ν)} {p₀ : ι} {n₀ : ν}
    (h : l₁ ++ .buried p q n :: l₂ = es₁ ++ .born p₀ q n₀ :: l) (hl : ∀ e ∈ l, ¬ e.About q) :
    .born p₀ q n₀ ∈ l₂ := by
  rcases List.append_eq_append_iff.1 h with ⟨k, rfl, hk⟩ | ⟨k, -, hk⟩
  · cases k with
    | nil => cases hk
    | cons e k =>
      obtain ⟨-, rfl⟩ := List.cons_eq_cons.1 hk
      simp
  · cases k with
    | nil => cases hk
    | cons e k =>
      obtain ⟨-, rfl⟩ := List.cons_eq_cons.1 hk
      exact absurd rfl (hl (.buried p q n) (by simp))

end Family

end Lib
