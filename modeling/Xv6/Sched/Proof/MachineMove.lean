import Xv6.Sched.Machine
import Xv6.Sched.Proof.LotteryPass
import Xv6.Lib.Run

/-!
# Steps of processes and processors

`MachineMove` is the inversion of `Machine.step`: the fourteen actions make twelve kinds of change.
Most critical sections leave the processes alone but for waking sleepers (`Calm`).
-/

namespace Xv6

open Lib Function

variable {pt : Ptable} {p q : Slot} {c : Cpu}
variable {r : Proc} {pt' : Ptable} {st : ProcState}

/-! ## Process tables -/

/-- The table changes at most by wakeups. -/
def Calm (pt pt' : Ptable) : Prop :=
  ∀ q, (pt' q).pid = (pt q).pid ∧ ((pt' q).state = (pt q).state ∨
    (pt q).state = .sleeping ∧ (pt' q).state = .runnable)

theorem Calm.refl (pt : Ptable) : Calm pt pt := fun _ => ⟨rfl, .inl rfl⟩

theorem Calm.trans {pt₁ pt₂ : Ptable} (h1 : Calm pt pt₁) (h2 : Calm pt₁ pt₂) : Calm pt pt₂ := by
  intro q
  obtain ⟨hp1, hs1⟩ := h1 q
  obtain ⟨hp2, hs2⟩ := h2 q
  refine ⟨hp2.trans hp1, ?_⟩
  rcases hs1 with hs1 | ⟨hs1, hr1⟩
  · rw [← hs1]
    exact hs2
  · rcases hs2 with hs2 | ⟨hs2, -⟩
    · exact .inr ⟨hs1, hs2.trans hr1⟩
    · rw [hr1] at hs2
      cases hs2

theorem Calm.update (hp : r.pid = (pt p).pid)
    (hs : r.state = (pt p).state ∨ (pt p).state = .sleeping ∧ r.state = .runnable) :
    Calm pt (update pt p r) := by
  intro q
  rcases eq_or_ne q p with rfl | hq
  · rw [update_self]
    exact ⟨hp, hs⟩
  · rw [update_of_ne hq]
    exact ⟨rfl, .inl rfl⟩

theorem Calm.state (h : Calm pt pt') (hsl : st ≠ .sleeping)
    (hru : st ≠ .runnable) : (pt' q).state = st ↔ (pt q).state = st := by
  rcases (h q).2 with hs | ⟨hs, hr⟩
  · rw [hs]
  · rw [hs, hr]
    exact ⟨fun h => absurd h.symm hru, fun h => absurd h.symm hsl⟩

theorem Calm.running (h : Calm pt pt') (q : Slot) :
    (pt' q).state = .running ↔ (pt q).state = .running :=
  h.state (by decide) (by decide)

theorem state_update (h : r.state = st ↔ (pt p).state = st) (q : Slot) :
    (update pt p r q).state = st ↔ (pt q).state = st := by
  rcases eq_or_ne q p with rfl | hq
  · rw [update_self, h]
  · rw [update_of_ne hq]

theorem calm_wakeup1 (ch : Chan) (pt : Ptable) : Calm pt (wakeup1 ch pt) := by
  intro q
  unfold wakeup1
  split
  · rename_i h
    exact ⟨rfl, .inr ⟨h.1, rfl⟩⟩
  · exact ⟨rfl, .inl rfl⟩

theorem calm_kill (pid : Int) (pt : Ptable) : Calm pt (kill pid pt).2 := by
  unfold kill
  split
  · refine Calm.update rfl ?_
    unfold killProc
    dsimp only
    split
    · rename_i h
      exact .inr ⟨h, rfl⟩
    · exact .inl rfl
  · exact Calm.refl pt

theorem calm_settickets (pid tickets : Int) (pt : Ptable) :
    Calm pt (settickets pid tickets pt).2 := by
  unfold settickets
  split
  · exact Calm.refl pt
  · split
    · exact Calm.update rfl (.inl rfl)
    · exact Calm.refl pt

theorem calm_wakeParent (pt : Ptable) (p : Slot) : Calm pt (wakeParent pt p) := by
  unfold wakeParent
  split
  · exact calm_wakeup1 _ pt
  · exact Calm.refl pt

theorem calm_reparent (p initproc : Slot) (qs : List Slot) (pt : Ptable) :
    Calm pt (reparent p initproc qs pt) := by
  induction qs generalizing pt with
  | nil => exact Calm.refl pt
  | cons q qs ih =>
    rw [reparent]
    split
    · have hup : Calm pt (update pt q { pt q with parent := some initproc }) :=
        Calm.update rfl (.inl rfl)
      dsimp only
      split
      · exact hup.trans ((calm_wakeup1 _ _).trans (ih _))
      · exact hup.trans (ih _)
    · exact ih pt

theorem findUnused_unused {np : Slot} (h : findUnused pt = some np) :
    (pt np).state = .unused := by
  simpa using List.find?_some h

theorem zombieChild_zombie (h : zombieChild pt p = some q) :
    (pt q).state = .zombie := by
  have := List.find?_some h
  simp only [decide_eq_true_eq] at this
  exact this.2

theorem lottery_winner {fuel : Nat} {lfsr : BitVec 16} {r : Pass}
    (h : lottery pt fuel lfsr = some r) (hp : r.winner = some p) : (pt p).state = .runnable := by
  unfold lottery at h
  dsimp only at h
  split at h
  · obtain ⟨d, -, rfl⟩ := Option.map_eq_some_iff.1 h
    exact winnerWalk_runnable hp
  · cases h
    cases hp

section
variable {Cpu : Type} {s s' : Machine Cpu} {a : MachineAct Cpu} {c : Cpu} {p : Slot}
variable {g : Prop} {f : Slot → Option (Machine Cpu)}

theorem setProc_self (s : Machine Cpu) (p : Slot) (r : Proc) : (s.setProc p r).pt p = r :=
  update_self ..

theorem setProc_of_ne (h : q ≠ p) (r : Proc) : (s.setProc p r).pt q = s.pt q :=
  update_of_ne h ..

theorem onProc_some [Decidable g] (h : (if g then s.onProc c f else none) = some s') :
    ∃ p, g ∧ s.ctl c = .run ∧ s.proc c = some p ∧ f p = some s' := by
  obtain ⟨hg, h⟩ := Option.ite_none_right_eq_some.1 h
  obtain ⟨hc, h⟩ := Option.ite_none_right_eq_some.1 h
  obtain ⟨p, hp, hf⟩ := Option.bind_eq_some_iff.1 h
  exact ⟨p, hg, hc, hp, hf⟩

theorem onProc_ite_some [Decidable g] {k : Slot → Prop} [DecidablePred k]
    (h : (if g then s.onProc c (fun p => if k p then f p else none) else none) = some s') :
    ∃ p, g ∧ s.ctl c = .run ∧ s.proc c = some p ∧ k p ∧ f p = some s' := by
  obtain ⟨p, hg, hc, hp, hf⟩ := onProc_some h
  exact ⟨p, hg, hc, hp, Option.ite_none_right_eq_some.1 hf⟩

variable [DecidableEq Cpu]

/-! ## What a step does -/

/-- Processor `c` runs process `p`, with `ptable.lock` free or its own. -/
structure On (s : Machine Cpu) (c : Cpu) (p : Slot) : Prop where
  proc : s.proc c = some p
  ctl : s.ctl c = .run ∧ s.lock = none ∨ s.ctl c = .resume

/-- The action runs the scan of `wait`. -/
def MachineAct.inWait (s : Machine Cpu) : MachineAct Cpu → Prop
  | .wait _ => True
  | .resume c => ∃ p, s.proc c = some p ∧ s.ctx p = .wait
  | _ => False

/-- The steps of the machine, with what the code has checked. -/
inductive MachineMove (s : Machine Cpu) : MachineAct Cpu → Machine Cpu → Prop
  | pass {c : Cpu} {fuel : Nat} {lfsr : BitVec 16} :
      MachineMove s (.schedule c fuel) { s with lfsr }
  | dispatch {c : Cpu} {fuel : Nat} {p : Slot} {lfsr : BitVec 16} : s.lock = none →
      s.ctl c = .scheduler → (s.pt p).state = .runnable →
      MachineMove s (.schedule c fuel) { s.setProc p { s.pt p with state := .running } with
        lfsr, lock := some c, ctl := update s.ctl c .resume,
        proc := update s.proc c (some p) }
  | back {c : Cpu} : s.ctl c = .back →
      MachineMove s (.back c) ({ s with proc := update s.proc c none }.release c .scheduler)
  | leave {a : MachineAct Cpu} {c : Cpu} {p : Slot} {pt : Ptable} : On s c p → Calm s.pt pt →
      MachineMove s a ({ s with pt }.release c .run)
  | reap {a : MachineAct Cpu} {c : Cpu} {p q : Slot} {pt : Ptable} : On s c p → Calm s.pt pt →
      (pt q).state = .zombie → a.inWait s →
      MachineMove s a (({ s with pt }.setProc q (reap (pt q))).release c .run)
  | sched {a : MachineAct Cpu} {c : Cpu} {p : Slot} {pt : Ptable} {r : Proc} {x : Ctx} : On s c p →
      Calm s.pt pt → r.pid = (pt p).pid →
      r.state = .runnable ∨ r.state = .sleeping ∨ r.state = .zombie →
      MachineMove s a ({ s with pt }.sched c p r x)
  | calm {a : MachineAct Cpu} {pt : Ptable} : Calm s.pt pt → MachineMove s a { s with pt }
  | alloc {c : Cpu} {p np : Slot} : s.ctl c = .run → s.proc c = some p → s.fork p = .none →
      findUnused s.pt = some np →
      MachineMove s (.allocproc c) { s.setProc np (embryoProc (s.pt np) s.nextpid) with
        nextpid := int32 (s.nextpid + 1), ctx := update s.ctx np .forkret,
        fork := update s.fork p (.alloc np) }
  | forkFail {c : Cpu} {p np : Slot} : s.fork p = .alloc np →
      MachineMove s (.forkFail c) { s.setProc np { s.pt np with state := .unused } with
        fork := update s.fork p .none }
  | forkParent {c : Cpu} {p np : Slot} : s.fork p = .alloc np →
      MachineMove s (.forkParent c) { s.setProc np { s.pt np with parent := some p } with
        fork := update s.fork p (.parent np) }
  | forkDone {c : Cpu} {p np : Slot} : s.fork p = .parent np →
      MachineMove s (.forkDone c) { s.setProc np { s.pt np with state := .runnable } with
        fork := update s.fork p .none }
  | panic {c : Cpu} {msg : String} : MachineMove s (.exit c) { s with panicked := some msg }

theorem waitScan_move (hon : On s c p) (hc : Calm s.pt pt) (ha : a.inWait s) :
    MachineMove s a (Machine.waitScan { s with pt } c p) := by
  unfold Machine.waitScan
  split
  · rename_i q hq
    exact .reap hon hc (zombieChild_zombie hq) ha
  · split
    · exact .leave hon hc
    · exact .sched hon hc rfl (.inr (.inl rfl))

theorem resume_move (hc : s.ctl c = .resume) (hp : s.proc c = some p) :
    MachineMove s (.resume c) (s.resume c p) := by
  have hon : On s c p := ⟨hp, .inr hc⟩
  have hclear : Calm s.pt (update s.pt p { s.pt p with chan := none }) :=
    Calm.update rfl (.inl rfl)
  unfold Machine.resume
  split
  · exact .leave hon (Calm.refl s.pt)
  · exact .leave hon (Calm.refl s.pt)
  · exact .leave hon hclear
  · rename_i hx
    exact waitScan_move hon hclear ⟨p, hp, hx⟩

theorem schedule_move {fuel : Nat} {r : Pass} (hl : s.lock = none) (hc : s.ctl c = .scheduler)
    (hr : lottery s.pt fuel s.lfsr = some r) :
    MachineMove s (.schedule c fuel) (s.schedule c r) := by
  unfold Machine.schedule
  split
  · rename_i p hp
    exact .dispatch hl hc (lottery_winner hr hp)
  · exact .pass

theorem exit_move (hon : On s c p) : MachineMove s (.exit c) (s.exit c p) := by
  unfold Machine.exit
  split
  · exact .panic
  · exact .sched hon ((calm_wakeParent s.pt p).trans (calm_reparent _ _ _ _)) rfl (.inr (.inr rfl))

/-- **Inversion** of `Machine.step`. -/
theorem machine_move (h : s.step a = some s') : MachineMove s a s' := by
  cases a with
  | schedule c fuel =>
    obtain ⟨hg, h⟩ := Option.ite_none_right_eq_some.1 h
    obtain ⟨r, hr, rfl⟩ := Option.map_eq_some_iff.1 h
    exact schedule_move hg.2.1 hg.2.2 hr
  | resume c =>
    obtain ⟨hg, h⟩ := Option.ite_none_right_eq_some.1 h
    obtain ⟨p, hp, rfl⟩ := Option.map_eq_some_iff.1 h
    exact resume_move hg.2 hp
  | back c =>
    obtain ⟨hg, h⟩ := Option.ite_none_right_eq_some.1 h
    cases h
    exact .back hg.2
  | yield c =>
    obtain ⟨p, hg, hc, hp, hf⟩ := onProc_some h
    cases hf
    exact .sched ⟨hp, .inl ⟨hc, hg.2⟩⟩ (Calm.refl s.pt) rfl (.inl rfl)
  | sleep c chan =>
    obtain ⟨p, hg, hc, hp, -, hf⟩ := onProc_ite_some h
    cases hf
    exact .sched ⟨hp, .inl ⟨hc, hg.2⟩⟩ (Calm.refl s.pt) rfl (.inr (.inl rfl))
  | wakeup chan =>
    obtain ⟨-, h⟩ := Option.ite_none_right_eq_some.1 h
    cases h
    exact .calm (calm_wakeup1 chan s.pt)
  | kill pid =>
    obtain ⟨-, h⟩ := Option.ite_none_right_eq_some.1 h
    cases h
    exact .calm (calm_kill pid s.pt)
  | settickets pid tickets =>
    obtain ⟨-, h⟩ := Option.ite_none_right_eq_some.1 h
    cases h
    exact .calm (calm_settickets pid tickets s.pt)
  | allocproc c =>
    obtain ⟨p, -, hc, hp, hfork, hf⟩ := onProc_ite_some h
    split at hf
    · rename_i np hnp
      cases hf
      exact .alloc hc hp hfork hnp
    · cases hf
      exact .calm (Calm.refl s.pt)
  | forkFail c =>
    obtain ⟨p, -, -, -, hf⟩ := onProc_some h
    split at hf
    · cases hf
      exact .forkFail ‹_›
    · cases hf
  | forkParent c =>
    obtain ⟨p, -, -, -, hf⟩ := onProc_some h
    split at hf
    · cases hf
      exact .forkParent ‹_›
    · cases hf
  | forkDone c =>
    obtain ⟨p, -, -, -, hf⟩ := onProc_some h
    split at hf
    · cases hf
      exact .forkDone ‹_›
    · cases hf
  | exit c =>
    obtain ⟨p, hg, hc, hp, -, hf⟩ := onProc_ite_some h
    cases hf
    exact exit_move ⟨hp, .inl ⟨hc, hg.2⟩⟩
  | wait c =>
    obtain ⟨p, hg, hc, hp, -, hf⟩ := onProc_ite_some h
    cases hf
    exact waitScan_move ⟨hp, .inl ⟨hc, hg.2⟩⟩ (Calm.refl s.pt) trivial

end

end Xv6
