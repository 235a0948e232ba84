import Xv6.Kernel.Proof.ThreadInv

/-!
# Critical sections as atomic steps

Seen from outside, a thread is in a call or between calls (`Place`), and a critical section is one
step. `step_atomic`: every step of the threads either changes neither the data nor a place, or is
one step of this atomic machine (`Atomic`): a critical section, the entry of a call, or code outside
of the locks. So what the atomic steps keep, the threads keep (`atomic_inv`).
-/

namespace Xv6

open Lib Function

/-- Where a thread is when each call is one step. -/
inductive Place (Call Loc : Type)
  | call (c : Call)
  | loc (l : Loc)
  | dead (msg : String)

section
variable {Lock Obj Call Loc Act : Type}

def Then.place : Then Call Loc → Place Call Loc
  | .sleep c => .call c
  | .leave l => .loc l
  | .panic msg => .dead msg

def Pc.place : Pc Lock Call Loc → Place Call Loc
  | .out l => .loc l
  | .acquire c | .locked c | .sleepRelease c | .sleepSched c | .sched c => .call c
  | .wakeup _ _ next => next.place

def Threads.places (s : Threads Lock Obj Call Loc) : Slot → Place Call Loc :=
  fun t => (s.pc t).place

variable [DecidableEq Lock]

/-- One step of the system whose bodies run at once. -/
inductive Atomic (C : Client Lock Obj Call Loc Act) (o : Lock → Obj) (pl : Slot → Place Call Loc) :
    (Lock → Obj) → (Slot → Place Call Loc) → Prop
  | body {t : Slot} {c : Call} (k : Bool) : pl t = .call c →
      Atomic C o pl (update o (C.lockOf c) (C.body c k (o (C.lockOf c))).obj)
        (update pl t (C.body c k (o (C.lockOf c))).next.place)
  | call {t : Slot} {l : Loc} {a : Act} {c : Call} : pl t = .loc l →
      C.outside l a o = some (.call c) → Atomic C o pl o (update pl t (.call c))
  | code {t : Slot} {l l' : Loc} {a : Act} {o' : Lock → Obj} : pl t = .loc l →
      C.outside l a o = some (.code o' l') → Atomic C o pl o' (update pl t (.loc l'))

variable {C : Client Lock Obj Call Loc Act} {s s' : Threads Lock Obj Call Loc} {a : ThreadAct Act}

omit [DecidableEq Lock] in
theorem places_setPc (s : Threads Lock Obj Call Loc) (t : Slot) (pc' : Pc Lock Call Loc) :
    (s.setPc t pc').places = update s.places t pc'.place := by
  funext u
  by_cases hu : u = t
  · subst hu; simp [Threads.places]
  · simp [hu, Threads.places]

omit [DecidableEq Lock] in
theorem places_stay {t : Slot} {pc' : Pc Lock Call Loc} (hp : pc'.place = (s.pc t).place) :
    (s.setPc t pc').places = s.places := by
  rw [places_setPc, hp]
  exact update_eq_self t s.places

/-- **The threads refine the atomic machine.** -/
theorem step_atomic (h : C.step s a = some s') :
    (s'.obj = s.obj ∧ s'.places = s.places) ∨ Atomic C s.obj s.places s'.obj s'.places := by
  cases step_move h with
  | @body t c sec hr hpc hb =>
    right
    subst hb
    rw [places_setPc]
    exact .body _ (by rw [Threads.places, hpc]; rfl)
  | @call t a l c hr hpc ho =>
    right
    rw [places_setPc]
    exact .call (by rw [Threads.places, hpc]; rfl) ho
  | @code t a l l' obj hr hpc ho =>
    right
    rw [places_setPc]
    exact .code (by rw [Threads.places, hpc]; rfl) ho
  | acquire hr hpc | wake hr hpc | leave hr hpc | sleep hr hpc | release hr hpc | sched hr hpc
  | resume hfree hr hpc => exact .inl ⟨rfl, places_stay (congrArg Pc.place hpc).symm⟩
  | panic | outPanic | dispatch | yield | kill | other => exact .inl ⟨rfl, rfl⟩

/-- **Invariant rule**: what holds at the start and is kept by the atomic steps holds in every
reachable state. -/
theorem atomic_inv {J : (Lock → Obj) → (Slot → Place Call Loc) → Prop}
    (hstep : ∀ o pl o' pl', J o pl → Atomic C o pl o' pl' → J o' pl')
    {s₀ : Threads Lock Obj Call Loc} (h : Reach C.step s₀ s) (h0 : J s₀.obj s₀.places) :
    J s.obj s.places := by
  refine h.inv (P := fun s => J s.obj s.places) (fun s a s' hs hstep' => ?_) h0
  rcases step_atomic hstep' with ⟨ho, hp⟩ | ha
  · rw [ho, hp]
    exact hs
  · exact hstep _ _ _ _ hs ha

theorem step_panicked {msg : String} (h : C.step s a = some s') (hp : s'.panicked = some msg) :
    s.panicked = some msg ∨ (∃ t, s.places t = .dead msg) ∨
      ∃ t l a', s.places t = .loc l ∧ C.outside l a' s.obj = some (.panic msg) := by
  cases step_move h with
  | @panic t l m hr hpc =>
    cases hp
    exact .inr (.inl ⟨t, by rw [Threads.places, hpc]; rfl⟩)
  | @outPanic t a l m hr hpc ho =>
    cases hp
    exact .inr (.inr ⟨t, l, a, by rw [Threads.places, hpc]; rfl, ho⟩)
  | _ => exact .inl hp

end

end Xv6
