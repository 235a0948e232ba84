import Xv6.Sched.Proof.MachineInv

/-!
# The life of a process

`ProcMove` is what one step of the machine can do to one slot of `ptable.proc`: keep its pid and
move its state along the diagram `ProcState.Next`, give it to a new process (`allocproc`), or free
it (`wait`). From it and `step_nextpid`, the pids of the used slots are distinct as long as
`nextpid` has not wrapped around (`PidInv`).
-/

namespace Xv6

open Lib Function

/-- The changes of `p->state` in the life of a process, up to its exit. -/
inductive ProcState.Next : ProcState → ProcState → Prop
  | forkFail : Next .embryo .unused
  | forkDone : Next .embryo .runnable
  | wakeup : Next .sleeping .runnable
  | dispatch : Next .runnable .running
  | yield : Next .running .runnable
  | sleep : Next .running .sleeping
  | exit : Next .running .zombie

section
variable {Cpu : Type} {s s' : Machine Cpu} {a : MachineAct Cpu}
variable {pt : Ptable} {p : Slot} {n : Nat}

def MachineAct.isAlloc : MachineAct Cpu → Bool
  | .allocproc _ => true
  | _ => false

/-- What a step does to one process. -/
inductive ProcMove (s : Machine Cpu) (a : MachineAct Cpu) (s' : Machine Cpu) (p : Slot) : Prop
  | keep : (s'.pt p).pid = (s.pt p).pid →
      (s'.pt p).state = (s.pt p).state ∨ (s.pt p).state.Next (s'.pt p).state → ProcMove s a s' p
  | alloc : a.isAlloc → findUnused s.pt = some p → (s'.pt p).state = .embryo →
      (s'.pt p).pid = s.nextpid → s'.nextpid = int32 (s.nextpid + 1) → ProcMove s a s' p
  | reap : a.inWait s → (s.pt p).state = .zombie → (s'.pt p).state = .unused → ProcMove s a s' p

theorem ProcMove.calm (hc : Calm s.pt pt) (hp : s'.pt p = pt p) :
    ProcMove s a s' p := by
  obtain ⟨hpid, hst⟩ := hc p
  rw [← hp] at hpid hst
  refine .keep hpid (hst.imp_right ?_)
  rintro ⟨hsl, hru⟩
  rw [hsl, hru]
  exact .wakeup

theorem ProcMove.setProc {r : Proc} (hc : Calm s.pt pt)
    (hpt : s'.pt = update pt p r) (hp : s'.pt p = r → ProcMove s a s' p) (q : Slot) :
    ProcMove s a s' q := by
  rcases eq_or_ne q p with rfl | hq
  · exact hp (by rw [hpt, update_self])
  · exact .calm hc (by rw [hpt, update_of_ne hq])

theorem ProcMove.zombie (h : ProcMove s a s' p) (hz : (s.pt p).state = .zombie)
    (hz' : (s'.pt p).state ≠ .zombie) : (s'.pt p).state = .unused ∧ a.inWait s := by
  cases h with
  | keep _ hst =>
    rcases hst with hst | hst
    · exact absurd (hst.trans hz) hz'
    · rw [hz] at hst
      cases hst
  | alloc _ hp => cases hz.symm.trans (findUnused_unused hp)
  | reap ha _ hu => exact ⟨hu, ha⟩

/-! ## Pids -/

/-- The pids after at most `n` calls of `allocproc`, the one of `userinit` included. -/
structure PidInv (n : Nat) (s : Machine Cpu) : Prop where
  pos : 0 ≤ s.nextpid
  le : s.nextpid ≤ n + 1
  lt : ∀ {p}, (s.pt p).state ≠ .unused → (s.pt p).pid < s.nextpid
  inj : ∀ {p q}, (s.pt p).state ≠ .unused → (s.pt q).state ≠ .unused →
    (s.pt p).pid = (s.pt q).pid → p = q

theorem ProcMove.pid (h : ProcMove s a s' p) (hp : (s'.pt p).state ≠ .unused) :
    (s.pt p).state ≠ .unused ∧ (s'.pt p).pid = (s.pt p).pid ∨
      findUnused s.pt = some p ∧ (s'.pt p).pid = s.nextpid ∧
        a.isAlloc ∧ s'.nextpid = int32 (s.nextpid + 1) := by
  cases h with
  | keep hpid hst =>
    refine .inl ⟨fun hu => ?_, hpid⟩
    rcases hst with hst | hst
    · exact hp (hst.trans hu)
    · rw [hu] at hst
      cases hst
  | alloc ha hu _ hpid hnext => exact .inr ⟨hu, hpid, ha, hnext⟩
  | reap _ _ hu => exact absurd hu hp

theorem pidInv_boot : PidInv 1 (@Machine.boot Cpu) := by
  have h0 {p : Slot} (hp : ((@Machine.boot Cpu).pt p).state ≠ .unused) : p = 0 := by
    rw [boot_state] at hp
    by_contra hne
    exact hp (if_neg hne)
  refine ⟨(by decide : (0 : Int) ≤ 2), (by decide : (2 : Int) ≤ 1 + 1), fun hp => ?_,
    fun hp hq _ => (h0 hp).trans (h0 hq).symm⟩
  cases h0 hp
  exact (by decide : (1 : Int) < 2)

theorem PidInv.alloc (hi : PidInv n s)
    (hn : n + (if a.isAlloc then 1 else 0) < 2 ^ 31 - 1) (ha : a.isAlloc) :
    int32 (s.nextpid + 1) = s.nextpid + 1 := by
  have hpos := hi.pos
  have hle := hi.le
  rw [if_pos ha] at hn
  exact int32_of_range (by omega) (by unfold intMax; omega)

/-- The calls of `allocproc` in a run from `boot`, the one of `userinit` included. -/
def allocCalls (as : List (MachineAct Cpu)) : Nat := 1 + as.countP MachineAct.isAlloc

theorem allocCalls_concat (as : List (MachineAct Cpu)) (a : MachineAct Cpu) :
    allocCalls (as ++ [a]) = allocCalls as + if a.isAlloc then 1 else 0 := by
  rw [allocCalls, allocCalls, List.countP_append, List.countP_singleton, Nat.add_assoc]

variable [DecidableEq Cpu]

theorem step_proc (h : MachineInv s) (hm : MachineMove s a s') (q : Slot) : ProcMove s a s' q := by
  have hrefl := Calm.refl s.pt
  cases hm with
  | pass => exact .calm hrefl rfl
  | dispatch _ _ hp =>
    refine .setProc hrefl rfl (fun heq => .keep (by rw [heq]) (.inr ?_)) q
    rw [heq, hp]
    exact .dispatch
  | back _ => exact .calm hrefl rfl
  | leave _ hc => exact .calm hc rfl
  | reap _ hc hz ha =>
    refine .setProc hc rfl (fun heq => .reap ha ?_ (by rw [heq]; rfl)) q
    exact (hc.state (by decide) (by decide)).1 hz
  | sched hon hc hpid hr =>
    refine .setProc hc rfl (fun heq => .keep (by rw [heq, hpid, (hc _).1]) (.inr ?_)) q
    rw [heq, hon.running h.cpu]
    rcases hr with hr | hr | hr <;> rw [hr]
    · exact .yield
    · exact .sleep
    · exact .exit
  | calm hc => exact .calm hc rfl
  | alloc _ _ _ hnp =>
    refine .setProc hrefl rfl (fun heq => .alloc rfl hnp ?_ ?_ rfl) q <;> rw [heq] <;> rfl
  | forkFail hfork =>
    refine .setProc hrefl rfl (fun heq => .keep (by rw [heq]) (.inr ?_)) q
    rw [heq, h.fork.embryo (congrArg Fork.child hfork)]
    exact .forkFail
  | forkParent _ =>
    exact .setProc hrefl rfl (fun heq => .keep (by rw [heq]) (.inl (by rw [heq]))) q
  | forkDone hfork =>
    refine .setProc hrefl rfl (fun heq => .keep (by rw [heq]) (.inr ?_)) q
    rw [heq, h.fork.embryo (congrArg Fork.child hfork)]
    exact .forkDone
  | panic => exact .calm hrefl rfl

theorem dispatch_runnable (hm : MachineMove s a s') {c : Cpu} (hp : s.proc c ≠ some p)
    (hp' : s'.proc c = some p) : (s.pt p).state = .runnable := by
  cases hm with
  | @dispatch d _ q _ _ _ hq =>
    rcases eq_or_ne c d with rfl | hc
    · cases (update_self c (some q) s.proc).symm.trans hp'
      exact hq
    · exact absurd ((update_of_ne hc ..).symm.trans hp') hp
  | @back d _ =>
    rcases eq_or_ne c d with rfl | hc
    · have hnone : update s.proc c none c = none := update_self ..
      cases hnone.symm.trans hp'
    · exact absurd ((update_of_ne hc ..).symm.trans hp') hp
  | _ => exact absurd hp' hp

theorem step_nextpid (hm : MachineMove s a s') : s'.nextpid = s.nextpid ∨
    a.isAlloc ∧ s'.nextpid = int32 (s.nextpid + 1) := by
  cases hm with
  | alloc => exact .inr ⟨rfl, rfl⟩
  | _ => exact .inl rfl

theorem PidInv.nextpid (hi : PidInv n s) (hm : MachineMove s a s')
    (hn : n + (if a.isAlloc then 1 else 0) < 2 ^ 31 - 1) : s.nextpid ≤ s'.nextpid ∧
      s'.nextpid ≤ ((n + if a.isAlloc then 1 else 0 : Nat) : Int) + 1 := by
  have hle := hi.le
  rcases step_nextpid hm with heq | ⟨ha, heq⟩
  · omega
  · rw [hi.alloc hn ha] at heq
    rw [if_pos ha]
    omega

theorem PidInv.step (hi : PidInv n s) (h : MachineInv s) (hm : MachineMove s a s')
    (hn : n + (if a.isAlloc then 1 else 0) < 2 ^ 31 - 1) :
    PidInv (n + if a.isAlloc then 1 else 0) s' := by
  have hpos := hi.pos
  have hinc := hi.alloc hn
  have hnext := hi.nextpid hm hn
  refine ⟨by omega, hnext.2, fun {p} hp => ?_, fun {p q} hp hq heq => ?_⟩
  · rcases (step_proc h hm p).pid hp with ⟨hu, hpid⟩ | ⟨-, hpid, ha, hnew⟩
    · have := hi.lt hu
      omega
    · rw [hinc ha] at hnew
      omega
  · rcases (step_proc h hm p).pid hp with ⟨hup, hpp⟩ | ⟨hfp, hpp, -⟩ <;>
      rcases (step_proc h hm q).pid hq with ⟨huq, hpq⟩ | ⟨hfq, hpq, -⟩
    · exact hi.inj hup huq (by omega)
    · have := hi.lt hup
      omega
    · have := hi.lt huq
      omega
    · exact Option.some.inj (hfp.symm.trans hfq)

theorem pidInv_run {as : List (MachineAct Cpu)} (h : run Machine.step Machine.boot as = some s)
    (hn : allocCalls as < 2 ^ 31 - 1) : PidInv (allocCalls as) s := by
  have hinv : MachineInv s ∧ (allocCalls as < 2 ^ 31 - 1 → PidInv (allocCalls as) s) := by
    refine run_inv_acts (P := fun as s => MachineInv s ∧
      (allocCalls as < 2 ^ 31 - 1 → PidInv (allocCalls as) s)) ?_ []
      ⟨machineInv_boot, fun _ => pidInv_boot⟩ h
    intro bs s a s' ⟨hi, hpid⟩ hs
    refine ⟨hi.step (machine_move hs), fun hn => ?_⟩
    rw [allocCalls_concat] at hn ⊢
    exact (hpid (by omega)).step hi (machine_move hs) hn
  exact hinv.2 hn

/-! ## The scheduling invariant -/

/-- **Scheduling invariant.** In every run of any number of processors from `boot`: with
`ptable.lock` free, a process is running exactly if one processor has it as `c->proc`; no two
processors share a process; an exited process stays one until `wait` frees its slot; only a runnable
process is dispatched; and before `nextpid` wraps around, used slots have distinct pids. -/
theorem sched_invariant (as : List (MachineAct Cpu)) (s : Machine Cpu)
    (h : run Machine.step Machine.boot as = some s) :
    (s.lock = none → ∀ p, (s.pt p).state = .running ↔ ∃! c, s.proc c = some p) ∧
    (∀ c d p, s.proc c = some p → s.proc d = some p → c = d) ∧
    (∀ a s' p, s.step a = some s' → (s.pt p).state = .zombie → (s'.pt p).state ≠ .zombie →
      (s'.pt p).state = .unused ∧ a.inWait s) ∧
    (∀ a s' c p, s.step a = some s' → s.proc c ≠ some p → s'.proc c = some p →
      (s.pt p).state = .runnable) ∧
    (allocCalls as < 2 ^ 31 - 1 → ∀ p q, (s.pt p).state ≠ .unused → (s.pt q).state ≠ .unused →
      p ≠ q → (s.pt p).pid ≠ (s.pt q).pid) := by
  have hi := machineInv_reach ⟨as, h⟩
  refine ⟨fun hl p => hi.cpu.running_iff hl, fun c d p => @hi.cpu.uniq c d p, ?_, ?_, ?_⟩
  · intro a s' p hs
    exact (step_proc hi (machine_move hs) p).zombie
  · intro a s' c p hs
    exact dispatch_runnable (machine_move hs)
  · intro hn p q hp hq hne heq
    exact hne ((pidInv_run h hn).inj hp hq heq)

end

/-- `initproc` forks on one processor; its child runs and exits on another. -/
def lifeActs : List (MachineAct (Fin 2)) :=
  [.schedule 0 20, .resume 0, .allocproc 0, .forkParent 0, .forkDone 0, .schedule 1 20, .resume 1,
    .exit 1, .back 1]

theorem sched_invariant_reaped : ∃ s s', run Machine.step Machine.boot lifeActs = some s ∧
    s.lock = none ∧ (s.pt 0).state = .running ∧ (s.pt 1).state = .zombie ∧
    s.step (.wait 0) = some s' ∧ (s'.pt 1).state = .unused ∧
    (∃! c, s.proc c = some 0) ∧ MachineAct.inWait s (.wait 0) ∧ (s.pt 0).pid ≠ (s.pt 1).pid := by
  have h : (run Machine.step Machine.boot (lifeActs ++ [.wait 0])).map
      (fun s' => (s'.pt 1).state) = some .unused := by decide +kernel
  obtain ⟨s', hs', hu⟩ := Option.map_eq_some_iff.1 h
  obtain ⟨s, hs, hw⟩ := run_append.1 hs'
  have hst : (run Machine.step Machine.boot lifeActs).map
      (fun s => (s.lock, (s.pt 0).state, (s.pt 1).state)) = some (none, .running, .zombie) := by
    decide +kernel
  rw [hs] at hst
  simp only [Option.map_some, Option.some.injEq, Prod.mk.injEq] at hst
  obtain ⟨hl, h0, h1⟩ := hst
  obtain ⟨s₁, hstep, hnil⟩ := run_cons.1 hw
  cases hnil
  obtain ⟨hrun, -, hz, -, hpid⟩ := sched_invariant lifeActs s hs
  refine ⟨s, s', hs, hl, h0, h1, hstep, hu, (hrun hl 0).1 h0, ?_, ?_⟩
  · exact (hz _ s' 1 hstep h1 (by rw [hu]; decide)).2
  · exact hpid (by decide) 0 1 (by rw [h0]; decide) (by rw [h1]; decide) (by decide)

end Xv6
