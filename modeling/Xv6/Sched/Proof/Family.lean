import Xv6.Sched.Proof.ProcLife
import Xv6.Lib.Family

/-!
# Exit and wait

The processes of the machine form a family (`Machine.family`): `EMBRYO` and `UNUSED` slots are free
places, `ZOMBIE`s are the dead, pids the names. `machine_family`: each step of the machine is a step
of the family, with the births, deaths and burials of `Machine.events`: a `fork` that returns, an
`exit`, a `wait` that returns a pid. What is used of the machine is `WaitInv`: who sleeps in `wait`
does so on its own slot, and the child of a `fork` in progress has its parent set.
-/

namespace Xv6

open Lib Function

variable {r : Proc} {pt : Ptable} {p q x : Slot}

def ProcState.life : ProcState → Life
  | .unused | .embryo => .free
  | .sleeping | .runnable | .running => .alive
  | .zombie => .dead

theorem life_dead {st : ProcState} : st.life = .dead ↔ st = .zombie := by
  cases st <;> decide

abbrev ProcEvent := FamilyEvent Slot Int

section
variable {Cpu : Type}

/-- Asleep in `wait`. -/
def Machine.InWait (s : Machine Cpu) (p : Slot) : Prop :=
  s.ctx p = .wait ∧ (s.pt p).state = .sleeping

/-- The processes as a family. -/
def Machine.family (s : Machine Cpu) : Family Slot Int where
  parent q := (s.pt q).parent
  life q := (s.pt q).state.life
  name q := (s.pt q).pid
  waiting := s.InWait

/-- What a scan of `wait` in `p` comes to: a child is reaped and its pid returned. -/
def scanEvents (pt : Ptable) (p : Slot) : List ProcEvent :=
  match zombieChild pt p with
  | some q => [.buried p q (pt q).pid]
  | none => []

/-- The scan of `wait` ends with -1. -/
def scanFails (pt : Ptable) (p : Slot) : Bool :=
  (zombieChild pt p).isNone && (!havekids pt p || (pt p).killed)

/-- The table on which `wait` goes on after `sleep`, which has cleared `p->chan`. -/
def awake (pt : Ptable) (p : Slot) : Ptable := update pt p { pt p with chan := none }

/-- What an action does to the family. -/
def Machine.events (s : Machine Cpu) : MachineAct Cpu → List ProcEvent
  | .forkDone c =>
    match s.proc c with
    | some p =>
      match s.fork p with
      | .parent np => [.born p np (s.pt np).pid]
      | _ => []
    | none => []
  | .exit c =>
    match s.proc c with
    | some p => if p = s.initproc then [] else [.died p]
    | none => []
  | .wait c =>
    match s.proc c with
    | some p => scanEvents s.pt p
    | none => []
  | .resume c =>
    match s.proc c with
    | some p => if s.ctx p = .wait then scanEvents (awake s.pt p) p else []
    | none => []
  | _ => []

/-- Who waits sleeps on its own slot, and a child has its parent. -/
structure WaitInv (s : Machine Cpu) : Prop where
  chan : ∀ {p}, s.InWait p → (s.pt p).chan = some (.proc p)
  fork : ∀ {p np}, s.fork p = .parent np → (s.pt np).parent = some p

/-! ## Process tables -/

/-- A process goes on, under its pid. -/
structure Same (r r' : Proc) : Prop where
  life : r'.state.life = r.state.life
  pid : r'.pid = r.pid
  /-- Nobody falls asleep. -/
  asleep : r'.state = .sleeping → r.state = .sleeping ∧ r'.chan = r.chan

/-- `Same`, with the same parent. -/
structure Kin (r r' : Proc) : Prop extends Same r r' where
  parent : r'.parent = r.parent

theorem Same.trans {r₁ r₂ : Proc} (h1 : Same r r₁) (h2 : Same r₁ r₂) : Same r r₂ where
  life := h2.life.trans h1.life
  pid := h2.pid.trans h1.pid
  asleep h := by
    obtain ⟨h', hc⟩ := h2.asleep h
    obtain ⟨h'', hc'⟩ := h1.asleep h'
    exact ⟨h'', hc.trans hc'⟩

theorem Kin.of_eq {r' : Proc} (hs : r'.state = r.state) (hp : r'.pid = r.pid)
    (hc : r'.chan = r.chan) (hpar : r'.parent = r.parent) : Kin r r' :=
  ⟨⟨by rw [hs], hp, fun h => ⟨hs ▸ h, hc⟩⟩, hpar⟩

theorem Kin.refl (r : Proc) : Kin r r := .of_eq rfl rfl rfl rfl

theorem kin_update (h : Kin (pt p) r) (q : Slot) :
    Kin (pt q) (update pt p r q) := by
  rcases eq_or_ne q p with rfl | hq
  · rwa [update_self]
  · rw [update_of_ne hq]
    exact Kin.refl _

theorem kin_wakeup1 (ch : Chan) (pt : Ptable) (q : Slot) : Kin (pt q) (wakeup1 ch pt q) := by
  unfold wakeup1
  split
  · rename_i h
    exact ⟨⟨by rw [h.1]; rfl, rfl, nofun⟩, rfl⟩
  · exact Kin.refl _

theorem kin_killProc (r : Proc) : Kin r (killProc r) := by
  unfold killProc
  split
  · rename_i h
    exact ⟨⟨by rw [h]; rfl, rfl, nofun⟩, rfl⟩
  · exact .of_eq rfl rfl rfl rfl

theorem kin_kill (pid : Int) (pt : Ptable) (q : Slot) : Kin (pt q) ((kill pid pt).2 q) := by
  unfold kill
  split
  · exact kin_update (kin_killProc _) q
  · exact Kin.refl _

theorem kin_settickets (pid tickets : Int) (pt : Ptable) (q : Slot) :
    Kin (pt q) ((settickets pid tickets pt).2 q) := by
  unfold settickets
  split
  · exact Kin.refl _
  · split
    · refine kin_update ?_ q
      exact .of_eq rfl rfl rfl rfl
    · exact Kin.refl _

theorem kin_wakeParent (pt : Ptable) (p q : Slot) : Kin (pt q) (wakeParent pt p q) := by
  cases hp : (pt p).parent with
  | none =>
    rw [wakeParent, hp]
    exact Kin.refl _
  | some x =>
    rw [wakeParent, hp]
    exact kin_wakeup1 _ pt q

theorem wakeParent_parent (hq : (pt p).parent = some q)
    (hs : (wakeParent pt p q).state = .sleeping) :
    (wakeParent pt p q).chan ≠ some (.proc q) := by
  simp only [wakeParent, hq] at hs ⊢
  rw [wakeup1_chan]
  exact (wakeup1_sleeping hs).2

section
variable {p initproc : Slot}

theorem same_reparent (qs : List Slot) (pt : Ptable) (x : Slot) :
    Same (pt x) (reparent p initproc qs pt x) := by
  induction qs generalizing pt with
  | nil => exact (Kin.refl _).toSame
  | cons q qs ih =>
    rw [reparent]
    split
    · have hup : Same (pt x) (update pt q { pt q with parent := some initproc } x) := by
        rcases eq_or_ne x q with rfl | hx
        · rw [update_self]
          exact ⟨rfl, rfl, fun h => ⟨h, rfl⟩⟩
        · rw [update_of_ne hx]
          exact (Kin.refl _).toSame
      dsimp only
      split
      · exact hup.trans ((kin_wakeup1 _ _ x).toSame.trans (ih _))
      · exact hup.trans (ih _)
    · exact ih pt

theorem reparent_parent (hne : p ≠ initproc) (qs : List Slot) (pt : Ptable) (x : Slot) :
    (reparent p initproc qs pt x).parent =
      if x ∈ qs ∧ (pt x).parent = some p then some initproc else (pt x).parent := by
  induction qs generalizing pt with
  | nil => simp [reparent]
  | cons q qs ih =>
    have hinit : some initproc ≠ some p := fun h => hne (Option.some.inj h).symm
    rw [reparent]
    split
    · rename_i hq
      have hpar : ∀ pt' : Ptable, (∀ y, (pt' y).parent =
          (update pt q { pt q with parent := some initproc } y).parent) →
          (reparent p initproc qs pt' x).parent =
            if x ∈ q :: qs ∧ (pt x).parent = some p then some initproc else (pt x).parent := by
        intro pt' hpt'
        rw [ih, hpt']
        rcases eq_or_ne x q with rfl | hx
        · simp [hq, hinit]
        · simp [hx]
      dsimp only
      split
      · exact hpar _ fun y => (kin_wakeup1 _ _ y).parent
      · exact hpar _ fun _ => rfl
    · rename_i hq
      rw [ih]
      rcases eq_or_ne x q with rfl | hx
      · simp [hq]
      · simp [hx]

theorem reparent_asleep (qs : List Slot) (pt : Ptable)
    (hs : (reparent p initproc qs pt x).state = .sleeping)
    (hc : (reparent p initproc qs pt x).chan = some (.proc initproc)) (hq : q ∈ qs)
    (hp : (pt q).parent = some p) : (pt q).state ≠ .zombie := by
  induction qs generalizing pt with
  | nil => cases hq
  | cons y qs ih =>
    rw [reparent] at hs hc
    by_cases hy : (pt y).parent = some p
    · rw [if_pos hy] at hs hc
      dsimp only at hs hc
      rw [update_self] at hs hc
      intro hz
      rcases eq_or_ne q y with rfl | hqy
      · -- `wakeup1(initproc)` has woken every such sleeper
        rw [if_pos hz] at hs hc
        obtain ⟨hs', hc'⟩ := (same_reparent qs _ x).asleep hs
        exact (wakeup1_sleeping hs').2 (by rw [← wakeup1_chan, ← hc', hc])
      · have hq' := (List.mem_cons.1 hq).resolve_left hqy
        split at hs
        · rename_i hyz
          rw [if_pos hyz] at hc
          refine ih _ hs hc hq' ?_ ?_
          · rw [(kin_wakeup1 _ _ q).parent, update_of_ne hqy, hp]
          · rw [← life_dead, (kin_wakeup1 _ _ q).life, update_of_ne hqy, hz]
            rfl
        · rename_i hyz
          rw [if_neg hyz] at hc
          refine ih _ hs hc hq' ?_ ?_
          · rw [update_of_ne hqy, hp]
          · rw [update_of_ne hqy, hz]
    · rw [if_neg hy] at hs hc
      have hqy : q ≠ y := by
        rintro rfl
        exact hy hp
      exact ih pt hs hc ((List.mem_cons.1 hq).resolve_left hqy) hp

end

/-! ## Steps -/

variable {s s' : Machine Cpu}

section
variable {q : Slot} {r : Proc} (h : s'.pt = update s.pt q r)
include h

theorem family_parent : s'.family.parent = update s.family.parent q r.parent := by
  simp only [Machine.family, h]
  exact comp_update Proc.parent s.pt q r

theorem family_life : s'.family.life = update s.family.life q r.state.life := by
  simp only [Machine.family, h]
  exact comp_update (fun r : Proc => r.state.life) s.pt q r

theorem family_name : s'.family.name = update s.family.name q r.pid := by
  simp only [Machine.family, h]
  exact comp_update Proc.pid s.pt q r

theorem inWait_of_ne (hx : x ≠ q) (hctx : s'.ctx x = s.ctx x) (hw : s'.InWait x) :
    s.InWait x ∧ (s'.pt x).chan = (s.pt x).chan := by
  obtain ⟨hc, hs⟩ := hw
  rw [h, update_of_ne hx] at hs ⊢
  exact ⟨⟨hctx ▸ hc, hs⟩, rfl⟩

theorem inWait_update (hr : r.state ≠ .sleeping) (hctx : ∀ x, x ≠ q → s'.ctx x = s.ctx x)
    (hw : s'.InWait x) : s.InWait x ∧ (s'.pt x).chan = (s.pt x).chan := by
  refine inWait_of_ne h ?_ (hctx x ?_) hw <;>
  · rintro rfl
    have hs := hw.2
    rw [h, update_self] at hs
    exact hr hs

end

theorem running_alive (h : (s.pt p).state = .running) : s.family.life p = .alive :=
  congrArg ProcState.life h

/-- A step of the machine is one of the family. -/
structure FamilyStep (s : Machine Cpu) (ev : List ProcEvent) (s' : Machine Cpu) : Prop where
  step : Family.Step s.initproc s.family s'.family ev
  inv : WaitInv s'
  initproc : s'.initproc = s.initproc

theorem WaitInv.frame (hw : WaitInv s)
    (hwait : ∀ q, s'.InWait q → s.InWait q ∧ (s'.pt q).chan = (s.pt q).chan)
    (hfork : ∀ x np, s'.fork x = .parent np → s.fork x = .parent np ∧
      (s'.pt np).parent = (s.pt np).parent) : WaitInv s' := by
  refine ⟨fun {q} hq => ?_, fun {x np} hx => ?_⟩
  · obtain ⟨hq', hc⟩ := hwait q hq
    rw [hc]
    exact hw.chan hq'
  · obtain ⟨hx', hp⟩ := hfork x np hx
    rw [hp]
    exact hw.fork hx'

namespace FamilyStep

theorem rest (hw : WaitInv s) (hi : s'.initproc = s.initproc)
    (hpar : s'.family.parent = s.family.parent) (hlife : s'.family.life = s.family.life)
    (hpid : ∀ q, s.family.life q ≠ .free → (s'.pt q).pid = (s.pt q).pid)
    (hwait : ∀ q, s'.InWait q → s.InWait q ∧ (s'.pt q).chan = (s.pt q).chan)
    (hfork : ∀ x np, s'.fork x = .parent np → s.fork x = .parent np) : FamilyStep s [] s' where
  step := .rest ⟨hpar, hlife, hpid, fun q hq => (hwait q hq).1⟩
  inv := hw.frame hwait fun x np hx => ⟨hfork x np hx, congrFun hpar np⟩
  initproc := hi

theorem kin (hw : WaitInv s) (hi : s'.initproc = s.initproc) (hk : ∀ q, Kin (s.pt q) (s'.pt q))
    (hctx : s'.ctx = s.ctx) (hfork : s'.fork = s.fork) : FamilyStep s [] s' := by
  refine rest hw hi (funext fun q => (hk q).parent) (funext fun q => (hk q).life)
    (fun q _ => (hk q).pid) (fun q hq => ?_) fun x np hx => by rwa [hfork] at hx
  obtain ⟨hs, hc⟩ := (hk q).asleep hq.2
  exact ⟨⟨hctx ▸ hq.1, hs⟩, hc⟩

end FamilyStep

variable [DecidableEq Cpu] {a : MachineAct Cpu} {c : Cpu} {p : Slot}

theorem sched_family {x : Ctx} (hw : WaitInv s) (hrun : (s.pt p).state = .running)
    (hpar : r.parent = (s.pt p).parent) (hpid : r.pid = (s.pt p).pid)
    (hlife : r.state.life = .alive) (hx : x ≠ .wait) : FamilyStep s [] (s.sched c p r x) := by
  have hpt : (s.sched c p r x).pt = update s.pt p r := rfl
  have hlife' : r.state.life = s.family.life p := hlife.trans (running_alive hrun).symm
  refine .rest hw rfl ?_ ?_ (fun q _ => ?_) (fun q hq => ?_) fun _ _ => id
  · rw [family_parent hpt, hpar]
    exact update_eq_self p s.family.parent
  · rw [family_life hpt, hlife']
    exact update_eq_self p s.family.life
  · rcases eq_or_ne q p with rfl | hq
    · rw [hpt, update_self, hpid]
    · rw [hpt, update_of_ne hq]
  · have hqp : q ≠ p := by
      rintro rfl
      exact hx ((update_self ..).symm.trans hq.1)
    exact inWait_of_ne hpt hqp (update_of_ne hqp ..) hq

theorem zombieChild_none (h : zombieChild pt p = none) (hq : (pt q).parent = some p) :
    (pt q).state ≠ .zombie := by
  have := List.find?_eq_none.1 h q (mem_slots q)
  simpa [hq] using this

theorem zombieChild_parent (h : zombieChild pt p = some q) :
    (pt q).parent = some p := by
  have := List.find?_some h
  simp only [decide_eq_true_eq] at this
  exact this.1

theorem reap_family (hw : WaitInv s) (hf : ForkInv s) (hpar : (s.pt q).parent = some p)
    (hz : (s.pt q).state = .zombie) :
    FamilyStep s [.buried p q (s.pt q).pid] ((s.setProc q (reap (s.pt q))).release c .run) := by
  have hpt : ((s.setProc q (reap (s.pt q))).release c .run).pt =
      update s.pt q (reap (s.pt q)) := rfl
  have hwait (x : Slot) := inWait_update (x := x) hpt nofun fun _ _ => rfl
  refine ⟨.buried hpar (life_dead.2 hz) (family_parent hpt) (family_life hpt) (fun x hx => ?_)
    fun x hx => (hwait x hx).1, hw.frame hwait fun x np hx => ⟨hx, ?_⟩, rfl⟩
  · rw [family_name hpt, update_of_ne hx]
  · have hnp : np ≠ q := by
      rintro rfl
      cases hz.symm.trans (hf.embryo (congrArg Fork.child hx))
    rw [hpt, update_of_ne hnp]

theorem waitSleep_family (hw : WaitInv s) (hrun : (s.pt p).state = .running)
    (hz : zombieChild s.pt p = none) :
    FamilyStep s [] (s.sched c p { s.pt p with chan := some (.proc p), state := .sleeping } .wait) := by
  generalize hr : ({ s.pt p with chan := some (.proc p), state := .sleeping } : Proc) = r
  have hpt : (s.sched c p r .wait).pt = update s.pt p r := rfl
  have hne {q : Slot} (hq : q ≠ p) (h : (s.sched c p r .wait).InWait q) :=
    inWait_of_ne hpt hq (update_of_ne hq ..) h
  have hpar : (s.sched c p r .wait).family.parent = s.family.parent := by
    rw [family_parent hpt, ← hr]
    exact update_eq_self p s.family.parent
  refine ⟨.wait (p := p) hpar ?_ ?_ (fun q hq => ?_) (fun q hq hd => ?_), ?_, rfl⟩
  · have hlife : r.state.life = s.family.life p := by
      rw [running_alive hrun, ← hr]
      rfl
    rw [family_life hpt, hlife]
    exact update_eq_self p s.family.life
  · rw [family_name hpt, ← hr]
    exact update_eq_self p s.family.name
  · by_cases hqp : q = p
    · exact .inl hqp
    · exact .inr (hne hqp hq).1
  · exact zombieChild_none hz hq (life_dead.1 hd)
  · refine ⟨fun {q} hq => ?_, fun {x np} hx => (congrFun hpar np).trans (hw.fork hx)⟩
    by_cases hqp : q = p
    · rw [hqp, hpt, update_self, ← hr]
    · obtain ⟨hq', hc⟩ := hne hqp hq
      rw [hc]
      exact hw.chan hq'

theorem waitScan_family (hw : WaitInv s) (hf : ForkInv s) (hrun : (s.pt p).state = .running) :
    FamilyStep s (scanEvents s.pt p) (s.waitScan c p) := by
  unfold scanEvents Machine.waitScan
  cases hz : zombieChild s.pt p with
  | some q => exact reap_family hw hf (zombieChild_parent hz) (zombieChild_zombie hz)
  | none =>
    dsimp only
    split
    · exact .kin hw rfl (fun q => Kin.refl _) rfl rfl
    · exact waitSleep_family hw hrun hz

/-- The table after the loop of `exit`. -/
def exitTable (s : Machine Cpu) (p : Slot) : Ptable :=
  reparent p s.initproc slots (wakeParent s.pt p)

section
omit [DecidableEq Cpu]

theorem exitTable_same (s : Machine Cpu) (p q : Slot) : Same (s.pt q) (exitTable s p q) :=
  (kin_wakeParent s.pt p q).toSame.trans (same_reparent _ _ q)

theorem exitTable_parent (hp : p ≠ s.initproc) (q : Slot) : (exitTable s p q).parent =
    if (s.pt q).parent = some p then some s.initproc else (s.pt q).parent := by
  rw [exitTable, reparent_parent hp, (kin_wakeParent s.pt p q).parent]
  simp [mem_slots]

theorem exitTable_asleep (hw : WaitInv s) (hc : s.ctx q = .wait)
    (hs : (exitTable s p q).state = .sleeping) :
    s.InWait q ∧ (exitTable s p q).chan = (s.pt q).chan ∧ (s.pt p).parent ≠ some q ∧
      (q = s.initproc → ∀ x, (s.pt x).parent = some p → (s.pt x).state.life ≠ .dead) := by
  obtain ⟨hs', hchan⟩ := (exitTable_same s p q).asleep hs
  have hproc := hw.chan ⟨hc, hs'⟩
  have hsame : Same (wakeParent s.pt p q) (exitTable s p q) := same_reparent slots _ q
  obtain ⟨hs₁, hchan₁⟩ := hsame.asleep hs
  refine ⟨⟨hc, hs'⟩, hchan, fun hpar => ?_, ?_⟩
  · exact wakeParent_parent hpar hs₁ (hchan₁.symm.trans (hchan.trans hproc))
  · rintro rfl x hx hd
    have hk := kin_wakeParent s.pt p x
    refine reparent_asleep slots (wakeParent s.pt p) hs (hchan.trans hproc) (mem_slots x)
      (hk.parent.trans hx) ?_
    rw [← life_dead, hk.life, hd]

end

theorem exit_family (hw : WaitInv s) (hrun : (s.pt p).state = .running) (hp : p ≠ s.initproc)
    (hf : s.fork p = .none) : FamilyStep s [.died p] (s.exit c p) := by
  have hexit : s.exit c p = ({ s with pt := exitTable s p } : Machine Cpu).sched c p
      { exitTable s p p with state := .zombie } (s.ctx p) := if_neg hp
  rw [hexit]
  generalize hr : ({ exitTable s p p with state := .zombie } : Proc) = r
  generalize hs' : ({ s with pt := exitTable s p } : Machine Cpu).sched c p r (s.ctx p) = s'
  have hpt : s'.pt = update ({ s with pt := exitTable s p } : Machine Cpu).pt p r := by
    rw [← hs']
    rfl
  have hctx : s'.ctx = s.ctx := by
    rw [← hs']
    exact update_eq_self ..
  have hpar (q : Slot) : (s'.pt q).parent =
      if (s.pt q).parent = some p then some s.initproc else (s.pt q).parent := by
    rw [← exitTable_parent hp]
    have := family_parent hpt
    rw [← hr] at this
    exact (congrFun this q).trans (congrFun (update_eq_self p _) q)
  have hwait (q : Slot) (hq : s'.InWait q) := by
    have hqp : q ≠ p := by
      rintro rfl
      have hs := hq.2
      rw [hpt, update_self, ← hr] at hs
      cases hs
    have hs := hq.2
    rw [hpt, update_of_ne hqp] at hs
    obtain ⟨h1, h2, h3⟩ := exitTable_asleep hw (hctx ▸ hq.1) hs
    exact (⟨h1, by rw [hpt, update_of_ne hqp]; exact h2, h3⟩ :
      s.InWait q ∧ (s'.pt q).chan = (s.pt q).chan ∧ _)
  refine ⟨.died hp (running_alive hrun) hpar ?_ ?_ fun q hq => ?_, ?_, by rw [← hs']; rfl⟩
  · rw [family_life hpt, ← hr]
    exact congrArg (update · p Life.dead) (funext fun q => (exitTable_same s p q).life)
  · rw [family_name hpt, ← hr]
    exact (update_eq_self p _).trans (funext fun q => (exitTable_same s p q).pid)
  · exact ⟨(hwait q hq).1, (hwait q hq).2.2⟩
  · refine hw.frame (fun q hq => ⟨(hwait q hq).1, (hwait q hq).2.1⟩) fun x np hx => ?_
    have hx' : s.fork x = .parent np := by rwa [← hs'] at hx
    refine ⟨hx', ?_⟩
    rw [hpar, if_neg]
    intro hnp
    cases (hw.fork hx').symm.trans hnp
    rw [hf] at hx'
    cases hx'

/-! ### The parts of `fork` -/

section
omit [DecidableEq Cpu]
variable {np : Slot}

theorem free_family (hw : WaitInv s) (hpt : s'.pt = update s.pt np r)
    (hfree : s.family.life np = .free) (hr : r.state.life = .free)
    (hpar : r.parent = (s.pt np).parent) (hi : s'.initproc = s.initproc)
    (hctx : ∀ x, x ≠ np → s'.ctx x = s.ctx x)
    (hfork : ∀ x m, s'.fork x = .parent m → s.fork x = .parent m) : FamilyStep s [] s' := by
  have hns : r.state ≠ .sleeping := by
    intro h
    rw [h] at hr
    cases hr
  refine .rest hw hi ?_ ?_ (fun q hq => ?_) (fun q hq => inWait_update hpt hns hctx hq) hfork
  · rw [family_parent hpt, hpar]
    exact update_eq_self np s.family.parent
  · rw [family_life hpt, hr, ← hfree]
    exact update_eq_self np s.family.life
  · have hqn : q ≠ np := by
      rintro rfl
      exact hq hfree
    rw [hpt, update_of_ne hqn]

theorem forkParent_family (hw : WaitInv s) (hf : ForkInv s) (hrun : (s.pt p).state = .running)
    (hfork : s.fork p = .alloc np) :
    FamilyStep s [] { s.setProc np { s.pt np with parent := some p } with
      fork := update s.fork p (.parent np) } := by
  have hchild := congrArg Fork.child hfork
  have hemb := hf.embryo hchild
  generalize hs' : ({ s.setProc np { s.pt np with parent := some p } with
    fork := update s.fork p (.parent np) } : Machine Cpu) = s'
  have hpt : s'.pt = update s.pt np { s.pt np with parent := some p } := by
    rw [← hs']
    rfl
  have hwait (x : Slot) (hx : s'.InWait x) : s.InWait x ∧ (s'.pt x).chan = (s.pt x).chan := by
    refine inWait_update hpt ?_ (fun _ _ => by rw [← hs']; rfl) hx
    rw [hemb]
    nofun
  refine ⟨.attach (running_alive hrun) (congrArg ProcState.life hemb) (family_parent hpt) ?_ ?_
    fun x hx => (hwait x hx).1, ⟨fun {x} hx => ?_, fun {x m} hx => ?_⟩, by rw [← hs']; rfl⟩
  · rw [family_life hpt]
    exact update_eq_self np s.family.life
  · rw [family_name hpt]
    exact update_eq_self np s.family.name
  · obtain ⟨hx', hc⟩ := hwait x hx
    rw [hc]
    exact hw.chan hx'
  · rw [← hs'] at hx
    rcases eq_or_ne x p with rfl | hxp
    · cases (update_self x (Fork.parent np) s.fork).symm.trans hx
      rw [hpt, update_self]
    · have hx' := (update_of_ne hxp ..).symm.trans hx
      have hm : m ≠ np := by
        rintro rfl
        exact hxp (hf.excl (congrArg Fork.child hx') hchild)
      rw [hpt, update_of_ne hm]
      exact hw.fork hx'

theorem forkDone_family (hw : WaitInv s) (hf : ForkInv s) (hfork : s.fork p = .parent np) :
    FamilyStep s [.born p np (s.pt np).pid] { s.setProc np { s.pt np with state := .runnable } with
      fork := update s.fork p .none } := by
  have hemb := hf.embryo (congrArg Fork.child hfork)
  generalize hs' : ({ s.setProc np { s.pt np with state := .runnable } with
    fork := update s.fork p .none } : Machine Cpu) = s'
  have hpt : s'.pt = update s.pt np { s.pt np with state := .runnable } := by
    rw [← hs']
    rfl
  have hwait (x : Slot) (hx : s'.InWait x) : s.InWait x ∧ (s'.pt x).chan = (s.pt x).chan :=
    inWait_update hpt nofun (fun _ _ => by rw [← hs']; rfl) hx
  have hpar : s'.family.parent = s.family.parent := by
    rw [family_parent hpt]
    exact update_eq_self np s.family.parent
  refine ⟨.born (hw.fork hfork) (congrArg ProcState.life hemb) hpar (family_life hpt) ?_
    fun x hx => (hwait x hx).1, hw.frame hwait fun x m hx => ⟨?_, congrFun hpar m⟩,
    by rw [← hs']; rfl⟩
  · rw [family_name hpt]
    exact update_eq_self np s.family.name
  · rw [← hs'] at hx
    rcases eq_or_ne x p with rfl | hxp
    · cases (update_self x Fork.none s.fork).symm.trans hx
    · exact (update_of_ne hxp ..).symm.trans hx

end

/-! ### The machine -/

theorem awake_field {α : Type} (f : Proc → α) (hf : ∀ r : Proc, f { r with chan := none } = f r)
    (pt : Ptable) (p q : Slot) : f (awake pt p q) = f (pt q) := update_field f (hf (pt p)) q

omit [DecidableEq Cpu] in
theorem family_congr (hpar : ∀ q, (s'.pt q).parent = (s.pt q).parent)
    (hst : ∀ q, (s'.pt q).state = (s.pt q).state) (hpid : ∀ q, (s'.pt q).pid = (s.pt q).pid)
    (hctx : s'.ctx = s.ctx) : s'.family = s.family := by
  simp only [Machine.family, hpar, hst, hpid]
  congr 1
  funext q
  simp only [Machine.InWait, hst, hctx]

theorem resume_family (hw : WaitInv s) (hf : ForkInv s) (hrun : (s.pt p).state = .running) :
    FamilyStep s (if s.ctx p = .wait then scanEvents (awake s.pt p) p else []) (s.resume c p) := by
  have hk (q : Slot) : Kin (s.pt q) (awake s.pt p q) := by
    refine kin_update (r := { s.pt p with chan := none }) ?_ q
    exact ⟨⟨rfl, rfl, fun h => by cases hrun.symm.trans h⟩, rfl⟩
  unfold Machine.resume
  cases hx : s.ctx p with
  | forkret | yield => exact .kin hw rfl (fun q => Kin.refl _) rfl rfl
  | sleep => exact .kin hw rfl hk rfl rfl
  | wait =>
    have hawake : FamilyStep s [] { s with pt := awake s.pt p } := .kin hw rfl hk rfl rfl
    have hst (q : Slot) : (awake s.pt p q).state = (s.pt q).state :=
      awake_field Proc.state (fun _ => rfl) s.pt p q
    have hf' : ForkInv { s with pt := awake s.pt p } := hf.frame rfl fun q hq => (hst q).trans hq
    have hfam : ({ s with pt := awake s.pt p } : Machine Cpu).family = s.family :=
      family_congr (awake_field Proc.parent (fun _ => rfl) s.pt p) hst
        (awake_field Proc.pid (fun _ => rfl) s.pt p) rfl
    have hscan := waitScan_family (c := c) hawake.inv hf' ((hst p).trans hrun)
    exact ⟨hfam ▸ hscan.step, hscan.inv, hscan.initproc⟩

/-- **The machine refines the family.** -/
theorem machine_family (hw : WaitInv s) (hi : MachineInv s) (h : s.step a = some s') :
    FamilyStep s (s.events a) s' := by
  have hrefl : FamilyStep s [] s := .kin hw rfl (fun q => Kin.refl _) rfl rfl
  cases a with
  | schedule c fuel =>
    obtain ⟨hg, h⟩ := Option.ite_none_right_eq_some.1 h
    obtain ⟨r, hr, rfl⟩ := Option.map_eq_some_iff.1 h
    unfold Machine.schedule
    split
    · rename_i p hp
      have hrn := lottery_winner hr hp
      refine .kin hw rfl (kin_update ⟨⟨?_, rfl, nofun⟩, rfl⟩) rfl rfl
      rw [hrn]
      rfl
    · exact .kin hw rfl (fun q => Kin.refl _) rfl rfl
  | resume c =>
    obtain ⟨hg, h⟩ := Option.ite_none_right_eq_some.1 h
    obtain ⟨p, hp, rfl⟩ := Option.map_eq_some_iff.1 h
    simp only [Machine.events, hp]
    exact resume_family hw hi.fork (On.running ⟨hp, .inr hg.2⟩ hi.cpu)
  | back c =>
    obtain ⟨hg, h⟩ := Option.ite_none_right_eq_some.1 h
    cases h
    exact .kin hw rfl (fun q => Kin.refl _) rfl rfl
  | yield c =>
    obtain ⟨p, hg, hc, hp, hf⟩ := onProc_some h
    cases hf
    exact sched_family hw (On.running ⟨hp, .inl ⟨hc, hg.2⟩⟩ hi.cpu) rfl rfl rfl nofun
  | sleep c chan =>
    obtain ⟨p, hg, hc, hp, -, hf⟩ := onProc_ite_some h
    cases hf
    exact sched_family hw (On.running ⟨hp, .inl ⟨hc, hg.2⟩⟩ hi.cpu) rfl rfl rfl nofun
  | wakeup chan =>
    obtain ⟨-, h⟩ := Option.ite_none_right_eq_some.1 h
    cases h
    exact .kin hw rfl (kin_wakeup1 chan s.pt) rfl rfl
  | kill pid =>
    obtain ⟨-, h⟩ := Option.ite_none_right_eq_some.1 h
    cases h
    exact .kin hw rfl (kin_kill pid s.pt) rfl rfl
  | settickets pid tickets =>
    obtain ⟨-, h⟩ := Option.ite_none_right_eq_some.1 h
    cases h
    exact .kin hw rfl (kin_settickets pid tickets s.pt) rfl rfl
  | allocproc c =>
    obtain ⟨p, -, hc, hp, hfork, hf⟩ := onProc_ite_some h
    split at hf
    · rename_i np hnp
      cases hf
      refine free_family hw rfl (congrArg ProcState.life (findUnused_unused hnp)) rfl rfl rfl
        (fun x hx => update_of_ne hx ..) fun x m hx => ?_
      rcases eq_or_ne x p with rfl | hxp
      · cases (update_self x (Fork.alloc np) s.fork).symm.trans hx
      · exact (update_of_ne hxp ..).symm.trans hx
    · cases hf
      exact hrefl
  | forkFail c =>
    obtain ⟨p, -, -, -, hf⟩ := onProc_some h
    split at hf
    · rename_i np hfork
      cases hf
      have hemb := hi.fork.embryo (congrArg Fork.child hfork)
      refine free_family hw rfl (congrArg ProcState.life hemb) rfl rfl rfl (fun _ _ => rfl)
        fun x m hx => ?_
      rcases eq_or_ne x p with rfl | hxp
      · cases (update_self x Fork.none s.fork).symm.trans hx
      · exact (update_of_ne hxp ..).symm.trans hx
    · cases hf
  | forkParent c =>
    obtain ⟨p, -, hc, hp, hf⟩ := onProc_some h
    split at hf
    · rename_i np hfork
      cases hf
      refine forkParent_family hw hi.fork (hi.cpu.running_of_proc hp ?_) hfork
      rw [hc]
      nofun
    · cases hf
  | forkDone c =>
    obtain ⟨p, -, -, hp, hf⟩ := onProc_some h
    split at hf
    · rename_i np hfork
      cases hf
      simp only [Machine.events, hp, hfork]
      exact forkDone_family hw hi.fork hfork
    · cases hf
  | exit c =>
    obtain ⟨p, hg, hc, hp, hfork, hf⟩ := onProc_ite_some h
    cases hf
    simp only [Machine.events, hp]
    split
    · rename_i hinit
      rw [Machine.exit, if_pos hinit]
      exact .kin hw rfl (fun q => Kin.refl _) rfl rfl
    · rename_i hinit
      exact exit_family hw (On.running ⟨hp, .inl ⟨hc, hg.2⟩⟩ hi.cpu) hinit hfork
  | wait c =>
    obtain ⟨p, hg, hc, hp, -, hf⟩ := onProc_ite_some h
    cases hf
    simp only [Machine.events, hp]
    exact waitScan_family hw hi.fork (On.running ⟨hp, .inl ⟨hc, hg.2⟩⟩ hi.cpu)

end

end Xv6
