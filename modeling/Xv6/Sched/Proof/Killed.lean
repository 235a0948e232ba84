import Xv6.Sched.Calls
import Xv6.Sched.Proof.MachineMove

/-!
# Who is marked as killed

`KilledMove` is what a step can do to `p->killed` of one slot: nothing, the mark of a `kill`, or the
reset of `wait` as it frees the slot. No other code of `proc.c` writes it; in particular `allocproc`
does not.
-/

namespace Xv6

open Lib Function

section
variable {p initproc : Slot}

theorem killed_wakeup1 (ch : Chan) (pt : Ptable) (q : Slot) :
    (wakeup1 ch pt q).killed = (pt q).killed := by
  unfold wakeup1
  split <;> rfl

theorem killed_settickets (pid tickets : Int) (pt : Ptable) (q : Slot) :
    ((settickets pid tickets pt).2 q).killed = (pt q).killed := by
  unfold settickets
  split
  · rfl
  · split
    · exact update_field Proc.killed (by rfl) q
    · rfl

theorem killed_reparent (qs : List Slot) (pt : Ptable) (x : Slot) :
    (reparent p initproc qs pt x).killed = (pt x).killed := by
  induction qs generalizing pt with
  | nil => rfl
  | cons q qs ih =>
    have hup : (update pt q { pt q with parent := some initproc } x).killed =
        (pt x).killed := update_field Proc.killed (by rfl) x
    rw [reparent]
    split
    · dsimp only
      split
      · rw [ih, killed_wakeup1, hup]
      · rw [ih, hup]
    · exact ih pt

theorem killed_wakeParent (pt : Ptable) (p q : Slot) :
    (wakeParent pt p q).killed = (pt q).killed := by
  cases hp : (pt p).parent with
  | none => rw [wakeParent, hp]
  | some x =>
    rw [wakeParent, hp]
    exact killed_wakeup1 _ pt q

end

section
variable {Cpu : Type} {s s' : Machine Cpu} {a : MachineAct Cpu} {q : Slot}
variable {pt : Ptable} {r : Proc}

/-- What a step does to the mark of slot `q`, whose record is then `r`. -/
inductive KilledMove (s : Machine Cpu) (a : MachineAct Cpu) (q : Slot) (r : Proc) : Prop
  | keep : r.killed = (s.pt q).killed →
      (r.state = .unused → (s.pt q).state = .unused ∨ a.inFork = true) → KilledMove s a q r
  | kill {pid : Int} : a = .kill pid →
      (slots.find? fun p => (s.pt p).pid = pid) = some q → r = killProc (s.pt q) →
      KilledMove s a q r
  | reap : (s.pt q).state = .zombie → r.killed = false → KilledMove s a q r

theorem KilledMove.calm (hc : Calm s.pt pt) (hk : (pt q).killed = (s.pt q).killed) :
    KilledMove s a q (pt q) :=
  .keep hk fun hu => .inl ((hc.state (by decide) (by decide)).1 hu)

theorem KilledMove.refl (s : Machine Cpu) (a : MachineAct Cpu) (q : Slot) :
    KilledMove s a q (s.pt q) := .calm (Calm.refl s.pt) rfl

theorem KilledMove.set {p : Slot} (hc : Calm s.pt pt)
    (hk : ∀ q, (pt q).killed = (s.pt q).killed) (hr : KilledMove s a p r) :
    KilledMove s a q (update pt p r q) := by
  rcases eq_or_ne q p with rfl | hq
  · rwa [update_self]
  · rw [update_of_ne hq]
    exact .calm hc (hk q)

theorem KilledMove.update {p : Slot} (hc : Calm s.pt pt)
    (hk : ∀ q, (pt q).killed = (s.pt q).killed) (hr : r.killed = (s.pt p).killed)
    (hu : r.state = .unused → (s.pt p).state = .unused ∨ a.inFork = true) :
    KilledMove s a q (update pt p r q) := .set hc hk (.keep hr hu)

variable [DecidableEq Cpu] {c : Cpu} {p : Slot}

theorem waitScan_killed {pt : Ptable} (hc : Calm s.pt pt)
    (hk : ∀ q, (pt q).killed = (s.pt q).killed) :
    KilledMove s a q ((Machine.waitScan { s with pt } c p).pt q) := by
  unfold Machine.waitScan
  split
  · rename_i x hx
    have hz := (hc.state (by decide) (by decide)).1 (zombieChild_zombie hx)
    exact .set hc hk (.reap hz rfl)
  · split
    · exact .calm hc (hk q)
    · exact .update hc hk (hk p) nofun

theorem exit_killed : KilledMove s a q ((s.exit c p).pt q) := by
  have hk (x : Slot) : (reparent p s.initproc slots (wakeParent s.pt p) x).killed =
      (s.pt x).killed := by
    rw [killed_reparent, killed_wakeParent]
  unfold Machine.exit
  split
  · exact .refl s a q
  · exact .update ((calm_wakeParent s.pt p).trans (calm_reparent _ _ _ _)) hk (hk p) nofun

theorem resume_killed : KilledMove s a q ((s.resume c p).pt q) := by
  have hc : Calm s.pt (update s.pt p { s.pt p with chan := none }) :=
    Calm.update rfl (.inl rfl)
  have hk (x : Slot) : (update s.pt p { s.pt p with chan := none } x).killed =
      (s.pt x).killed := update_field Proc.killed (by rfl) x
  unfold Machine.resume
  split
  · exact .refl s a q
  · exact .refl s a q
  · exact .calm hc (hk q)
  · exact waitScan_killed hc hk

omit [DecidableEq Cpu] in
theorem kill_killed (pid : Int) : KilledMove s (.kill pid) q ((kill pid s.pt).2 q) := by
  unfold kill
  split
  · rename_i p hp
    exact .set (Calm.refl s.pt) (fun _ => rfl) (.kill rfl hp rfl)
  · exact .refl s _ q

theorem step_killed (hs : s.step a = some s') (q : Slot) : KilledMove s a q (s'.pt q) := by
  have hrefl := Calm.refl s.pt
  cases a with
  | schedule c fuel =>
    obtain ⟨-, hs⟩ := Option.ite_none_right_eq_some.1 hs
    obtain ⟨r, -, rfl⟩ := Option.map_eq_some_iff.1 hs
    unfold Machine.schedule
    split
    · exact .update hrefl (fun _ => rfl) rfl nofun
    · exact .refl s _ q
  | resume c =>
    obtain ⟨-, hs⟩ := Option.ite_none_right_eq_some.1 hs
    obtain ⟨p, -, rfl⟩ := Option.map_eq_some_iff.1 hs
    exact resume_killed
  | back c =>
    obtain ⟨-, hs⟩ := Option.ite_none_right_eq_some.1 hs
    cases hs
    exact .refl s _ q
  | yield c =>
    obtain ⟨p, -, -, -, hf⟩ := onProc_some hs
    cases hf
    exact .update hrefl (fun _ => rfl) rfl nofun
  | sleep c chan =>
    obtain ⟨p, -, -, -, -, hf⟩ := onProc_ite_some hs
    cases hf
    exact .update hrefl (fun _ => rfl) rfl nofun
  | wakeup chan =>
    obtain ⟨-, hs⟩ := Option.ite_none_right_eq_some.1 hs
    cases hs
    exact .calm (calm_wakeup1 chan s.pt) (killed_wakeup1 chan s.pt q)
  | kill pid =>
    obtain ⟨-, hs⟩ := Option.ite_none_right_eq_some.1 hs
    cases hs
    exact kill_killed pid
  | settickets pid tickets =>
    obtain ⟨-, hs⟩ := Option.ite_none_right_eq_some.1 hs
    cases hs
    exact .calm (calm_settickets pid tickets s.pt) (killed_settickets pid tickets s.pt q)
  | allocproc c =>
    obtain ⟨p, -, -, -, -, hf⟩ := onProc_ite_some hs
    split at hf <;> cases hf
    · exact .update hrefl (fun _ => rfl) rfl nofun
    · exact .refl _ _ q
  | forkFail c | forkParent c | forkDone c =>
    obtain ⟨p, -, -, -, hf⟩ := onProc_some hs
    split at hf <;> cases hf
    exact .update hrefl (fun _ => rfl) rfl fun _ => .inr rfl
  | exit c =>
    obtain ⟨p, -, -, -, -, hf⟩ := onProc_ite_some hs
    cases hf
    exact exit_killed
  | wait c =>
    obtain ⟨p, -, -, -, -, hf⟩ := onProc_ite_some hs
    cases hf
    exact waitScan_killed hrefl fun _ => rfl

end

end Xv6
