import Xv6.Sched.Proof.MachineMove
import Xv6.Lib.Owner

/-!
# Invariants of processes and processors

`CpuInv` says what `c->proc` is at every place of a processor: a process is running exactly if one
processor has it, except in the two halves of a switch, where `ptable.lock` is held. `ForkInv` says
that the new process of a `fork` in progress is an embryo of its own, so that the unlocked error
paths of `fork` reset nothing else. `ProcMove` is the diagram of the process states. `PidInv` counts
the calls of `allocproc`. The results are put together in `sched_invariant`.
-/

namespace Xv6

open Lib Function

section
variable {Cpu : Type} {s s' : Machine Cpu} {c : Cpu} {p : Slot}

/-! ## Processors -/

/-- What a CPU is doing agrees with its process and the lock. -/
def CpuOk (s : Machine Cpu) (c : Cpu) : Prop :=
  match s.ctl c with
  | .scheduler => s.proc c = none
  | .run => ∃ p, s.proc c = some p ∧ (s.pt p).state = .running
  | .resume => s.lock = some c ∧ ∃ p, s.proc c = some p ∧ (s.pt p).state = .running
  | .back => s.lock = some c ∧ ∃ p, s.proc c = some p ∧ (s.pt p).state ≠ .running

theorem cpuOk_scheduler (hk : s.ctl c = .scheduler) : CpuOk s c ↔ s.proc c = none := by
  rw [CpuOk, hk]

theorem cpuOk_run (hk : s.ctl c = .run) :
    CpuOk s c ↔ ∃ p, s.proc c = some p ∧ (s.pt p).state = .running := by
  rw [CpuOk, hk]

theorem cpuOk_resume (hk : s.ctl c = .resume) :
    CpuOk s c ↔ s.lock = some c ∧ ∃ p, s.proc c = some p ∧ (s.pt p).state = .running := by
  rw [CpuOk, hk]

theorem cpuOk_back (hk : s.ctl c = .back) :
    CpuOk s c ↔ s.lock = some c ∧ ∃ p, s.proc c = some p ∧ (s.pt p).state ≠ .running := by
  rw [CpuOk, hk]

/-- A running process is on one CPU, and a CPU runs a running process. -/
structure CpuInv (s : Machine Cpu) : Prop where
  ok : ∀ c, CpuOk s c
  uniq : Exclusive s.proc
  running : ∀ {p}, (s.pt p).state = .running → ∃ c, s.proc c = some p

theorem CpuInv.frame (h : CpuInv s) (hctl : s'.ctl = s.ctl) (hproc : s'.proc = s.proc)
    (hlock : s'.lock = s.lock) (hrun : ∀ p, (s'.pt p).state = .running ↔
      (s.pt p).state = .running) :
    CpuInv s' where
  ok c := by
    have := h.ok c
    unfold CpuOk at this ⊢
    simpa only [hctl, hproc, hlock, hrun, ne_eq] using this
  uniq := by
    rw [hproc]
    exact h.uniq
  running {p} hp := by
    rw [hproc]
    exact h.running ((hrun p).1 hp)

theorem CpuInv.move (h : CpuInv s) {c : Cpu} (hctl : ∀ d ≠ c, s'.ctl d = s.ctl d)
    (hproc : ∀ d ≠ c, s'.proc d = s.proc d) (hlock : ∀ d ≠ c, s.lock ≠ some d) (hok : CpuOk s' c)
    (hrun : ∀ p, s.proc c ≠ some p → s'.proc c ≠ some p →
      ((s'.pt p).state = .running ↔ (s.pt p).state = .running))
    (hnew : ∀ d ≠ c, ∀ p, s'.proc c = some p → s.proc d ≠ some p)
    (hold : ∀ p, (s'.pt p).state = .running → s.proc c = some p → s'.proc c = some p) :
    CpuInv s' where
  ok d := by
    rcases eq_or_ne d c with rfl | hd
    · exact hok
    · have hdok := h.ok d
      unfold CpuOk at hdok ⊢
      rw [hctl d hd, hproc d hd]
      cases hk : s.ctl d <;> rw [hk] at hdok <;> dsimp only at hdok ⊢
      case scheduler => exact hdok
      case run =>
        obtain ⟨p, hp, hst⟩ := hdok
        have hpc : s.proc c ≠ some p := fun hpc => hd (h.uniq hp hpc)
        exact ⟨p, hp, (hrun p hpc fun hpc' => hnew d hd p hpc' hp).2 hst⟩
      case resume => exact absurd hdok.1 (hlock d hd)
      case back => exact absurd hdok.1 (hlock d hd)
  uniq := h.uniq.set c hproc fun p hp d hd => hnew d hd p hp
  running {p} hp := by
    by_cases hpc : s'.proc c = some p
    · exact ⟨c, hpc⟩
    · have hpc' : s.proc c ≠ some p := fun hp' => hpc (hold p hp hp')
      obtain ⟨d, hd⟩ := h.running ((hrun p hpc' hpc).1 hp)
      have hdc : d ≠ c := by
        rintro rfl
        exact hpc' hd
      exact ⟨d, (hproc d hdc).trans hd⟩

theorem CpuInv.running_of_proc (h : CpuInv s) (hp : s.proc c = some p) (hk : s.ctl c ≠ .back) :
    (s.pt p).state = .running := by
  have hok := h.ok c
  unfold CpuOk at hok
  split at hok
  · cases hp.symm.trans hok
  · obtain ⟨q, hq, hst⟩ := hok
    cases hp.symm.trans hq
    exact hst
  · obtain ⟨-, q, hq, hst⟩ := hok
    cases hp.symm.trans hq
    exact hst
  · rename_i hb
    exact absurd hb hk

theorem CpuInv.lock_of_ctl (h : CpuInv s) (hk : s.ctl c = .resume ∨ s.ctl c = .back) :
    s.lock = some c := by
  rcases hk with hk | hk
  · exact ((cpuOk_resume hk).1 (h.ok c)).1
  · exact ((cpuOk_back hk).1 (h.ok c)).1

theorem On.running (hon : On s c p) (h : CpuInv s) : (s.pt p).state = .running := by
  apply h.running_of_proc hon.proc
  rcases hon.ctl with ⟨hc, -⟩ | hc <;> rw [hc] <;> decide

theorem On.lock (hon : On s c p) (h : CpuInv s) {d : Cpu} (hd : d ≠ c) : s.lock ≠ some d := by
  rcases hon.ctl with ⟨-, hl⟩ | hc
  · rw [hl]
    nofun
  · rw [h.lock_of_ctl (.inl hc)]
    exact fun heq => hd (Option.some.inj heq).symm

theorem CpuInv.running_iff (h : CpuInv s) (hl : s.lock = none) :
    (s.pt p).state = .running ↔ ∃! c, s.proc c = some p := by
  constructor
  · intro hp
    obtain ⟨c, hc⟩ := h.running hp
    exact ⟨c, hc, fun d hd => h.uniq hd hc⟩
  · rintro ⟨c, hc, -⟩
    refine h.running_of_proc hc fun hk => ?_
    cases hl.symm.trans (h.lock_of_ctl (.inr hk))

end

section
variable {Cpu : Type} {s s' : Machine Cpu} {a : MachineAct Cpu}

/-! ## Embryos -/

/-- A child that `fork` is making is an embryo, with one maker. -/
structure ForkInv (s : Machine Cpu) : Prop where
  embryo : ∀ {p np}, (s.fork p).child = some np → (s.pt np).state = .embryo
  excl : Exclusive fun p => (s.fork p).child

theorem ForkInv.frame (h : ForkInv s) (hfork : s'.fork = s.fork)
    (hemb : ∀ p, (s.pt p).state = .embryo → (s'.pt p).state = .embryo) : ForkInv s' where
  embryo := by
    rw [hfork]
    exact fun hp => hemb _ (h.embryo hp)
  excl := by
    rw [hfork]
    exact h.excl

theorem ForkInv.set (h : ForkInv s) {p : Slot} {f : Fork} (hfork : s'.fork = update s.fork p f)
    (hnew : ∀ np, f.child = some np →
      (s'.pt np).state = .embryo ∧ ∀ q ≠ p, (s.fork q).child ≠ some np)
    (hoth : ∀ q ≠ p, ∀ np, (s.fork q).child = some np → s'.pt np = s.pt np) : ForkInv s' where
  embryo {q np} hq := by
    rw [hfork] at hq
    rcases eq_or_ne q p with rfl | hqp
    · rw [update_self] at hq
      exact (hnew np hq).1
    · rw [update_of_ne hqp] at hq
      rw [hoth q hqp np hq]
      exact h.embryo hq
  excl := by
    refine h.excl.set p (fun q hq => ?_) fun np hnp => (hnew np ?_).2
    · rw [hfork, update_of_ne hq]
    · rwa [hfork, update_self] at hnp

theorem ForkInv.update (hf : ForkInv s) {p np q m : Slot} (hp : (s.fork p).child = some np)
    (hq : q ≠ p) (hm : (s.fork q).child = some m) (r : Proc) : (s.setProc np r).pt m = s.pt m := by
  apply setProc_of_ne
  rintro rfl
  exact hq (hf.excl hm hp)

/-- The invariant of the machine. -/
structure MachineInv (s : Machine Cpu) : Prop where
  cpu : CpuInv s
  fork : ForkInv s

theorem boot_state (p : Slot) :
    ((@Machine.boot Cpu).pt p).state = if p = 0 then .runnable else .unused := by
  unfold Machine.boot
  dsimp only
  split
  · subst p
    rw [update_self]
  · rename_i hp
    rw [update_of_ne hp]

theorem machineInv_boot : MachineInv (@Machine.boot Cpu) where
  cpu := by
    refine ⟨fun c => rfl, nofun, fun {p} hp => ?_⟩
    rw [boot_state] at hp
    split at hp <;> cases hp
  fork := ⟨nofun, nofun⟩

variable [DecidableEq Cpu]

/-! ## What a step keeps -/

theorem CpuInv.leave (h : CpuInv s) {c : Cpu} {p : Slot} {pt : Ptable} (hon : On s c p)
    (hrun : ∀ q, (pt q).state = .running ↔ (s.pt q).state = .running) :
    CpuInv ({ s with pt }.release c .run) := by
  refine h.move (fun d hd => update_of_ne hd ..) (fun d _ => rfl)
    (fun d hd => hon.lock h hd) ?_ (fun q _ _ => hrun q) ?_ fun q _ hq => hq
  · exact (cpuOk_run (update_self ..)).2 ⟨p, hon.proc, (hrun p).2 (hon.running h)⟩
  · exact fun d hd q hq hq' => hd (h.uniq hq' hq)

theorem CpuInv.sched (h : CpuInv s) {c : Cpu} {p : Slot} {pt : Ptable} {r : Proc} {x : Ctx}
    (hon : On s c p) (hc : Calm s.pt pt) (hr : r.state ≠ .running) :
    CpuInv ({ s with pt }.sched c p r x) := by
  have hp : ({ s with pt }.sched c p r x).pt p = r := update_self ..
  refine h.move (fun d hd => update_of_ne hd ..) (fun d _ => rfl)
    (fun d hd => hon.lock h hd) ?_ (fun q hq _ => ?_) ?_ fun q _ hq => hq
  · exact (cpuOk_back (update_self ..)).2 ⟨rfl, p, hon.proc, by rwa [hp]⟩
  · have hqp : q ≠ p := by
      rintro rfl
      exact hq hon.proc
    have : ({ s with pt }.sched c p r x).pt q = pt q := update_of_ne hqp ..
    rw [this]
    exact hc.running q
  · exact fun d hd q hq hq' => hd (h.uniq hq' hq)

theorem CpuInv.back (h : CpuInv s) {c : Cpu} (hc : s.ctl c = .back) :
    CpuInv ({ s with proc := update s.proc c none }.release c .scheduler) := by
  have hl := h.lock_of_ctl (.inr hc)
  have hnone : update s.proc c none c = none := update_self ..
  refine h.move (fun d hd => update_of_ne hd ..) (fun d hd => update_of_ne hd ..)
    (fun d hd => ?_) ?_ (fun q _ _ => Iff.rfl) (fun d _ q hq => ?_) fun q hq hqc => ?_
  · rw [hl]
    exact fun heq => hd (Option.some.inj heq).symm
  · exact (cpuOk_scheduler (update_self ..)).2 hnone
  · cases hnone.symm.trans hq
  · -- the process that gave up the processor had changed its state before
    obtain ⟨-, p, hp, hst⟩ := (cpuOk_back hc).1 (h.ok c)
    cases hp.symm.trans hqc
    exact absurd hq hst

theorem CpuInv.dispatch (h : CpuInv s) {c : Cpu} {p : Slot} {lfsr : BitVec 16}
    (hl : s.lock = none) (hc : s.ctl c = .scheduler) (hp : (s.pt p).state = .runnable) :
    CpuInv { s.setProc p { s.pt p with state := .running } with
      lfsr, lock := some c, ctl := update s.ctl c .resume,
      proc := update s.proc c (some p) } := by
  have hnone := (cpuOk_scheduler hc).1 (h.ok c)
  have hproc : update s.proc c (some p) c = some p := update_self ..
  refine h.move (fun d hd => update_of_ne hd ..) (fun d hd => update_of_ne hd ..)
    (fun d _ => ?_) ?_ (fun q _ hq => ?_) (fun d _ q hq hqd => ?_) fun q _ hqc => ?_
  · rw [hl]
    nofun
  · refine (cpuOk_resume (update_self ..)).2 ⟨rfl, p, hproc, ?_⟩
    dsimp only
    rw [setProc_self]
  · have hqp : q ≠ p := by
      rintro rfl
      exact hq hproc
    dsimp only
    rw [setProc_of_ne hqp]
  · -- a process on another processor runs, as no processor is in a switch
    cases hproc.symm.trans hq
    have := (h.running_iff hl).2 ⟨d, hqd, fun e he => h.uniq he hqd⟩
    rw [hp] at this
    cases this
  · cases hnone.symm.trans hqc

theorem CpuInv.step (h : CpuInv s) (hf : ForkInv s) (hm : MachineMove s a s') : CpuInv s' := by
  have hset {np : Slot} {r : Proc} (hnp : (s.pt np).state ≠ .running) (hr : r.state ≠ .running) :=
    state_update (iff_of_false hr hnp)
  cases hm with
  | pass => exact h.frame rfl rfl rfl fun _ => Iff.rfl
  | dispatch hl hc hp => exact h.dispatch hl hc hp
  | back hc => exact h.back hc
  | leave hon hc => exact h.leave hon hc.running
  | reap hon hc hz _ =>
    refine h.leave hon fun q => Iff.trans (state_update ?_ q) (hc.running q)
    rw [hz]
    exact iff_of_false nofun nofun
  | sched hon hc _ hr =>
    refine h.sched hon hc ?_
    rcases hr with hr | hr | hr <;> rw [hr] <;> decide
  | calm hc => exact h.frame rfl rfl rfl hc.running
  | alloc _ _ _ hnp =>
    exact h.frame rfl rfl rfl (hset (by rw [findUnused_unused hnp]; decide) nofun)
  | forkFail hfork | forkDone hfork =>
    have hemb := hf.embryo (congrArg Fork.child hfork)
    exact h.frame rfl rfl rfl (hset (by rw [hemb]; decide) nofun)
  | forkParent hfork =>
    have hemb := hf.embryo (congrArg Fork.child hfork)
    exact h.frame rfl rfl rfl (hset (by rw [hemb]; decide) (by dsimp only; rw [hemb]; decide))
  | panic => exact h.frame rfl rfl rfl fun _ => Iff.rfl

theorem ForkInv.step (hf : ForkInv s) (h : CpuInv s) (hm : MachineMove s a s') : ForkInv s' := by
  have hcalm {pt : Ptable} (hc : Calm s.pt pt) (q : Slot) :
      (pt q).state = .embryo ↔ (s.pt q).state = .embryo := hc.state (by decide) (by decide)
  cases hm with
  | pass => exact hf.frame rfl fun _ => id
  | dispatch _ _ hp =>
    refine hf.frame rfl fun q hq => (state_update ?_ q).2 hq
    rw [hp]
    exact iff_of_false nofun nofun
  | back _ => exact hf.frame rfl fun _ => id
  | leave _ hc => exact hf.frame rfl fun q => (hcalm hc q).2
  | reap _ hc hz _ =>
    refine hf.frame rfl fun q hq => (state_update ?_ q).2 ((hcalm hc q).2 hq)
    rw [hz]
    exact iff_of_false nofun nofun
  | sched hon hc _ hr =>
    refine hf.frame rfl fun q hq => (state_update ?_ q).2 ((hcalm hc q).2 hq)
    rw [hcalm hc, hon.running h]
    rcases hr with hr | hr | hr <;> rw [hr] <;> exact iff_of_false nofun nofun
  | calm hc => exact hf.frame rfl fun q => (hcalm hc q).2
  | @alloc c p np _ _ _ hnp =>
    have hne {q m : Slot} (hm : (s.fork q).child = some m) : m ≠ np := by
      rintro rfl
      cases (hf.embryo hm).symm.trans (findUnused_unused hnp)
    refine hf.set rfl (fun m hm => ?_) fun q _ m hm => setProc_of_ne (hne hm) _
    cases hm
    exact ⟨by dsimp only; rw [setProc_self]; rfl, fun q _ hq => hne hq rfl⟩
  | forkFail hfork | forkDone hfork =>
    have hchild := congrArg Fork.child hfork
    exact hf.set rfl nofun fun q hq m hm => hf.update hchild hq hm _
  | forkParent hfork =>
    have hchild := congrArg Fork.child hfork
    refine hf.set rfl (fun m hm => ?_) fun q hq m hm => hf.update hchild hq hm _
    cases hm
    refine ⟨?_, fun q hq hqm => hq (hf.excl hqm hchild)⟩
    dsimp only
    rw [setProc_self]
    exact hf.embryo hchild
  | panic => exact hf.frame rfl fun _ => id

theorem MachineInv.step (h : MachineInv s) (hm : MachineMove s a s') : MachineInv s' :=
  ⟨h.cpu.step h.fork hm, h.fork.step h.cpu hm⟩

theorem machineInv_reach (h : Reach Machine.step Machine.boot s) : MachineInv s :=
  h.inv (fun _ _ _ hi hs => hi.step (machine_move hs)) machineInv_boot

end

end Xv6
