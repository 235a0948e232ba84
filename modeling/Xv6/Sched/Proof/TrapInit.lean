import Xv6.Sched.Trap
import Xv6.Sched.Proof.Killed
import Xv6.Sched.Proof.ExitWait

/-!
# `initproc` and `kill`

`trap` makes a process exit if it is marked as killed, and `exit` panics in `initproc`. Nothing
marks `initproc` but a `kill` with its pid, which is 1 for ever (`InitInv.machine`); `kill` does not
refuse it. So `initproc` never exits in the runs without a call `kill(1)` (`init_never_exits`), and
one such call makes it exit. A process that is marked does not return to user space
(`killed_never_returns`).
-/

namespace Xv6

open Lib

section
variable {Cpu : Type} [DecidableEq Cpu]

/-! ## Steps of the machine -/

section
variable {s s' : Machine Cpu} {a : MachineAct Cpu}

theorem step_panics (hs : s.step a = some s') :
    s'.panicked = s.panicked ∨ ∃ c, a = .exit c ∧ s.proc c = some s.initproc := by
  cases a with
  | exit c =>
    obtain ⟨p, -, -, hp, -, hf⟩ := onProc_ite_some hs
    cases hf
    by_cases hi : p = s.initproc
    · exact .inr ⟨c, rfl, by rw [hp, hi]⟩
    · left
      rw [Machine.exit, if_neg hi]
      rfl
  | _ => cases machine_move hs <;> exact .inl rfl

/-- `initproc` is in use under the pid 1 and not killed, and nothing has panicked. -/
structure InitInv (s : Machine Cpu) : Prop where
  family : ∃ es, FamilyInv es s
  pid : (s.pt s.initproc).pid = 1
  killed : (s.pt s.initproc).killed = false
  panicked : s.panicked = none

omit [DecidableEq Cpu] in
theorem initInv_boot : InitInv (@Machine.boot Cpu) :=
  ⟨⟨[], familyInv_boot⟩, rfl, rfl, rfl⟩

theorem InitInv.machine (h : InitInv s) (hs : s.step a = some s')
    (hkill : ∀ pid, a = .kill pid → pid ≠ 1)
    (hexit : ∀ c, a = .exit c → s.proc c ≠ some s.initproc) : InitInv s' := by
  obtain ⟨es, hf⟩ := h.family
  have hstep := machine_family hf.wait hf.machine hs
  refine ⟨⟨_, hf.step hs⟩, ?_, ?_, ?_⟩
  · rw [hstep.initproc]
    exact (hf.ok.name_init hstep.step).trans h.pid
  · rw [hstep.initproc]
    cases step_killed hs s.initproc with
    | keep hk _ => exact hk.trans h.killed
    | kill ha hfind _ =>
      have hpid := List.find?_some hfind
      rw [decide_eq_true_eq, h.pid] at hpid
      exact absurd hpid.symm (hkill _ ha)
    | reap _ hk => exact hk
  · rcases step_panics hs with hp | ⟨c, ha, hc⟩
    · exact hp.trans h.panicked
    · exact absurd hc (hexit c ha)

omit [DecidableEq Cpu] in
theorem InitInv.fault {p : Slot} (h : InitInv s) (hp : p ≠ s.initproc) :
    InitInv (s.setProc p { s.pt p with killed := true }) := by
  obtain ⟨es, hf⟩ := h.family
  have hst (q : Slot) : ((s.setProc p { s.pt p with killed := true }).pt q).state =
      (s.pt q).state := update_field Proc.state (by rfl) q
  have hfam : (s.setProc p { s.pt p with killed := true }).family = s.family :=
    family_congr (update_field Proc.parent (by rfl)) hst (update_field Proc.pid (by rfl)) rfl
  refine ⟨⟨es, ?_⟩, ?_, ?_, h.panicked⟩
  · refine ⟨⟨hf.machine.cpu.frame rfl rfl rfl fun q => by rw [hst q], hf.machine.fork.frame rfl
      fun q => (hst q).trans⟩, hf.wait.frame (fun q hq => ?_) fun x np hx => ⟨hx, ?_⟩, hf.initproc,
      ?_, ?_⟩
    · exact ⟨⟨hq.1, (hst q).symm.trans hq.2⟩, update_field Proc.chan (by rfl) q⟩
    · exact update_field Proc.parent (by rfl) np
    · rw [hfam]
      exact hf.ok
    · rw [hfam]
      exact hf.traced
  · exact (update_field Proc.pid (by rfl) s.initproc).trans h.pid
  · exact (congrArg Proc.killed (setProc_of_ne hp.symm _)).trans h.killed

end

/-! ## Traps -/

variable {s s' : Traps Cpu} {a : TrapAct Cpu} {q : Slot}
variable {c : Cpu} {m : Mode} {p : Slot}

omit [DecidableEq Cpu] in
theorem onMode_some {f : Slot → Option (Traps Cpu)}
    (h : s.onMode c m f = some s') : ∃ p, s.proc c = some p ∧ s.mode p = m ∧ f p = some s' := by
  obtain ⟨-, h⟩ := Option.ite_none_right_eq_some.1 h
  obtain ⟨p, hp, h⟩ := Option.bind_eq_some_iff.1 h
  exact ⟨p, hp, Option.ite_none_right_eq_some.1 h⟩

theorem InitInv.exit (h : InitInv s.toMachine) (hp : s.proc c = some p)
    (hi : p ≠ s.initproc) (hs : s.lift (.exit c) = some s') : InitInv s'.toMachine := by
  obtain ⟨m, hm, rfl⟩ := Option.map_eq_some_iff.1 hs
  refine h.machine hm nofun fun d hd => ?_
  cases hd
  rw [hp]
  exact fun heq => hi (Option.some.inj heq)

theorem InitInv.checkKilled (h : InitInv s.toMachine)
    (hp : s.proc c = some p) (hs : s.checkKilled c p m = some s') : InitInv s'.toMachine := by
  unfold Traps.checkKilled at hs
  split at hs
  · rename_i hk
    refine h.exit hp ?_ hs
    rintro rfl
    rw [h.killed] at hk
    cases hk
  · cases hs
    exact h

theorem InitInv.step (h : InitInv s.toMachine) (ha : ∀ c, a ≠ .call c (.kill 1))
    (hs : s.step a = some s') : InitInv s'.toMachine := by
  cases a with
  | kernel a =>
    obtain ⟨hk, hs⟩ := Option.ite_none_right_eq_some.1 hs
    obtain ⟨m, hm, rfl⟩ := Option.map_eq_some_iff.1 hs
    refine h.machine hm (fun pid heq => ?_) fun c heq => ?_ <;>
    · rw [heq] at hk
      cases hk
  | syscall c | iret c =>
    obtain ⟨p, hp, -, hs⟩ := onMode_some hs
    exact h.checkKilled hp hs
  | call c a =>
    obtain ⟨p, hp, -, hs⟩ := onMode_some hs
    obtain ⟨⟨hon, hinit⟩, hs⟩ := Option.ite_none_right_eq_some.1 hs
    obtain ⟨m, hm, rfl⟩ := Option.map_eq_some_iff.1 hs
    refine h.machine hm (fun pid heq hpid => ?_) fun d heq hd => ?_
    · rw [heq, hpid] at ha
      exact ha c rfl
    · -- `initproc` does not call `exit` itself
      rw [heq] at hon hinit
      have hdc : d = c := of_decide_eq_true hon
      rw [hdc, hp] at hd
      cases hinit (Option.some.inj hd)
  | sysret c =>
    obtain ⟨p, hp, -, hs⟩ := onMode_some hs
    obtain ⟨-, hs⟩ := Option.ite_none_right_eq_some.1 hs
    exact h.checkKilled hp hs
  | interrupt c =>
    obtain ⟨p, hp, -, hs⟩ := onMode_some hs
    cases hs
    exact h
  | tick c =>
    obtain ⟨p, hp, -, hs⟩ := onMode_some hs
    split at hs
    · rename_i hk
      refine h.exit hp ?_ hs
      rintro rfl
      rw [h.killed] at hk
      cases hk
    · obtain ⟨m, hm, rfl⟩ := Option.map_eq_some_iff.1 hs
      exact h.machine hm nofun nofun
  | fault c =>
    obtain ⟨p, hp, -, hs⟩ := onMode_some hs
    obtain ⟨hi, hs⟩ := Option.ite_none_left_eq_some.1 hs
    exact InitInv.exit (s := { s with toMachine := s.setProc p _ }) (h.fault hi) hp hi hs

/-- **`initproc` never exits** in a run in which no process calls `kill(1)`, whatever else the
processes other than `initproc` do. -/
theorem init_never_exits (as : List (TrapAct Cpu)) (s : Traps Cpu)
    (h : run Traps.step Traps.boot as = some s) (hkill : ∀ c, .call c (.kill 1) ∉ as) :
    s.panicked ≠ some "init exiting" := by
  have hinv : (∀ c, .call c (.kill 1) ∉ as) → InitInv s.toMachine := by
    refine run_inv_acts (P := fun as s => (∀ c, .call c (.kill 1) ∉ as) → InitInv s.toMachine)
      (fun bs s a s' hi hs hbs => ?_) [] (fun _ => initInv_boot) h
    simp only [List.mem_append, List.mem_singleton, not_or] at hbs
    exact (hi fun c => (hbs c).1).step (fun c heq => (hbs c).2 heq.symm) hs
  rw [(hinv hkill).panicked]
  nofun

/-! ## A killed process -/

/-- `q` is marked as killed, and `exit` has not freed it. -/
structure Doomed (s : Machine Cpu) (q : Slot) : Prop where
  killed : (s.pt q).killed = true
  alive : (s.pt q).state ≠ .zombie

/-- From `m` to `m'` with no return to user space and no system call. -/
def Mode.Stays (m m' : Mode) : Prop := m' = m ∨ m = .user ∧ m' = .intr

theorem Doomed.machine {s s' : Machine Cpu} {a : MachineAct Cpu} (h : Doomed s q)
    (hs : s.step a = some s') :
    (s'.pt q).killed = true := by
  cases step_killed hs q with
  | keep hk _ => exact hk.trans h.killed
  | kill _ _ hr => rw [hr]; rfl
  | reap hz _ => exact absurd hz h.alive

theorem Doomed.lift {a : MachineAct Cpu} (h : Doomed s.toMachine q) (hs : s.lift a = some s') :
    (s'.pt q).killed = true ∧ s'.mode = s.mode := by
  obtain ⟨m, hm, rfl⟩ := Option.map_eq_some_iff.1 hs
  exact ⟨h.machine hm, rfl⟩

theorem Doomed.checkKilled (h : Doomed s.toMachine q)
    (hs : s.checkKilled c p m = some s') : (s'.pt q).killed = true ∧ s'.mode q = s.mode q := by
  unfold Traps.checkKilled at hs
  split at hs
  · exact (h.lift hs).imp_right (congrFun · q)
  · next hp =>
    cases hs
    refine ⟨h.killed, Function.update_of_ne ?_ _ _⟩
    rintro rfl
    exact hp h.killed

omit [DecidableEq Cpu] in
theorem newMode_of_used (hu : (s.pt q).state ≠ .unused) (a : MachineAct Cpu) :
    s.newMode a q = s.mode q := by
  cases a with
  | allocproc c =>
    unfold Traps.newMode
    cases hf : findUnused s.pt with
    | none => rfl
    | some np =>
      refine Function.update_of_ne ?_ _ _
      rintro rfl
      exact hu (by simpa using List.find?_some hf)
  | _ => rfl

theorem Doomed.step {a : TrapAct Cpu} (h : Doomed s.toMachine q) (hu : (s.pt q).state ≠ .unused)
    (hs : s.step a = some s') : (s'.pt q).killed = true ∧ (s.mode q).Stays (s'.mode q) := by
  have hlift {t : Traps Cpu} {a : MachineAct Cpu} (ht : Doomed t.toMachine q) (hm : t.mode = s.mode)
      (hs : t.lift a = some s') : (s'.pt q).killed = true ∧ (s.mode q).Stays (s'.mode q) :=
    (ht.lift hs).imp_right fun h => .inl (congrFun (h.trans hm) q)
  cases a with
  | kernel a => exact hlift h rfl (Option.ite_none_right_eq_some.1 hs).2
  | syscall c | iret c =>
    obtain ⟨p, -, -, hs⟩ := onMode_some hs
    exact (h.checkKilled hs).imp_right .inl
  | sysret c =>
    obtain ⟨p, -, -, hs⟩ := onMode_some hs
    exact (h.checkKilled (Option.ite_none_right_eq_some.1 hs).2).imp_right .inl
  | call c a =>
    obtain ⟨p, -, -, hs⟩ := onMode_some hs
    obtain ⟨m, hm, rfl⟩ := Option.map_eq_some_iff.1 (Option.ite_none_right_eq_some.1 hs).2
    exact ⟨h.machine hm, .inl (newMode_of_used hu a)⟩
  | interrupt c =>
    obtain ⟨p, -, hm, hs⟩ := onMode_some hs
    cases hs
    refine ⟨h.killed, ?_⟩
    by_cases hp : q = p
    · subst hp
      exact .inr ⟨hm, Function.update_self ..⟩
    · exact .inl (Function.update_of_ne hp _ _)
  | tick c =>
    obtain ⟨p, -, -, hs⟩ := onMode_some hs
    split at hs <;> exact hlift h rfl hs
  | fault c =>
    obtain ⟨p, -, -, hs⟩ := onMode_some hs
    refine hlift (t := { s with toMachine := s.setProc p _ }) ⟨?_, ?_⟩ rfl
      (Option.ite_none_left_eq_some.1 hs).2
    · by_cases hp : q = p
      · subst hp
        simp [Machine.setProc]
      · exact (congrArg Proc.killed (setProc_of_ne hp _)).trans h.killed
    · exact fun hz => h.alive ((update_field Proc.state (by rfl) q).symm.trans hz)

/-- **A killed process does not get back to user space.** Until it is a zombie, a process that is
marked as killed stays marked, and in any run it stays in its system call or interrupt, or in user
space up to the next trap; that is no system call. -/
theorem killed_never_returns {as : List (TrapAct Cpu)} (hk : (s.pt q).killed = true)
    (h : run Traps.step s as = some s')
    (hq : Along Traps.step (fun t _ => (t.pt q).state ≠ .zombie ∧ (t.pt q).state ≠ .unused) s as) :
    (s'.pt q).killed = true ∧ (s.mode q).Stays (s'.mode q) := by
  refine run_inv_along (P := fun t => (t.pt q).killed = true ∧ (s.mode q).Stays (t.mode q)) ?_
    ⟨hk, .inl rfl⟩ h hq
  rintro t a t' ⟨hk, hm⟩ ⟨hz, hu⟩ ht
  refine (Doomed.step ⟨hk, hz⟩ hu ht).imp_right fun hm' => ?_
  rcases hm' with hm' | ⟨h1, h2⟩
  · rwa [hm']
  · exact .inr ⟨hm.elim (· ▸ h1) And.left, h2⟩

end

/-- `initproc` makes a system call and forks, and then waits; its child runs and makes a system
call. -/
def initWaits : List (TrapAct (Fin 1)) :=
  [.kernel (.schedule 0 20), .kernel (.resume 0), .syscall 0, .call 0 (.allocproc 0),
    .call 0 (.forkParent 0), .call 0 (.forkDone 0), .sysret 0, .syscall 0, .call 0 (.wait 0),
    .kernel (.back 0), .kernel (.schedule 0 20), .kernel (.resume 0), .syscall 0]

theorem init_never_exits_waits : ∃ s, run Traps.step Traps.boot initWaits = some s ∧
    (s.pt 0).state = .sleeping ∧ s.panicked ≠ some "init exiting" := by
  have h : (run Traps.step Traps.boot initWaits).map (fun s => (s.pt 0).state) =
    some .sleeping := by
    decide +kernel
  obtain ⟨s, hs, hv⟩ := Option.map_eq_some_iff.1 h
  exact ⟨s, hs, hv, init_never_exits initWaits s hs (by simp [initWaits])⟩

/-- The child calls `kill(1)` and gives up the processor: `initproc` wakes, its `wait` returns, and
`trap` makes it exit. -/
theorem init_never_exits_fails : ∃ s, run Traps.step Traps.boot (initWaits ++ [.call 0 (.kill 1),
      .call 0 (.sleep 0 .ticks), .kernel (.back 0), .kernel (.schedule 0 20), .kernel (.resume 0),
      .sysret 0]) = some s ∧ s.panicked = some "init exiting" := by
  have h : (run Traps.step Traps.boot (initWaits ++ [.call 0 (.kill 1),
      .call 0 (.sleep 0 .ticks), .kernel (.back 0), .kernel (.schedule 0 20), .kernel (.resume 0),
      .sysret 0])).map (fun s => s.panicked) = some (some "init exiting") := by decide +kernel
  exact Option.map_eq_some_iff.1 h

/-- The child kills itself, and the timer takes the processor from it before its system call
returns. -/
theorem killed_never_returns_child :
    ∃ s s', run Traps.step Traps.boot (initWaits ++ [.call 0 (.kill 2)]) = some s ∧
    run Traps.step s [.call 0 (.yield 0), .kernel (.back 0)] = some s' ∧
      s.mode 1 = .syscall ∧ s'.mode 1 = .syscall := by
  have h : ((run Traps.step Traps.boot (initWaits ++ [.call 0 (.kill 2)])).bind fun s =>
      (run Traps.step s [.call 0 (.yield 0), .kernel (.back 0)]).map fun _ =>
        (s.pt 1).killed && s.mode 1 = .syscall && Along Traps.step
          (fun t _ => (t.pt 1).state ≠ .zombie ∧
          (t.pt 1).state ≠ .unused) s [.call 0 (.yield 0), .kernel (.back 0)]) =
          some true := by decide +kernel
  obtain ⟨s, hs, h⟩ := Option.bind_eq_some_iff.1 h
  obtain ⟨s', hs', h⟩ := Option.map_eq_some_iff.1 h
  simp only [Bool.and_eq_true, decide_eq_true_eq] at h
  obtain ⟨-, hm | ⟨hm, -⟩⟩ := killed_never_returns h.1.1 hs' h.2
  · exact ⟨s, s', hs, hs', h.1.2, hm.trans h.1.2⟩
  · cases hm.symm.trans h.1.2

end Xv6
