import Xv6.Sched.Proof.Family

/-!
# Every child is waited for once

Along every run of the machine from `boot`, the processes are a family whose members were all born
in the run (`family_run`), and before `nextpid` wraps around no pid is returned by two calls of
`wait` (`reaped_run`). Together: `exit_wait_accounting`.
-/

namespace Xv6

open Lib

section
variable {Cpu : Type} [DecidableEq Cpu] {s s' : Machine Cpu} {a : MachineAct Cpu}
variable {p q : Slot} {es : List ProcEvent} {as : List (MachineAct Cpu)} {k : Nat}

/-- The action makes `wait` of `p` return -1. -/
def Machine.WaitFails (s : Machine Cpu) (p : Slot) : MachineAct Cpu → Prop
  | .wait c => s.proc c = some p ∧ scanFails s.pt p
  | .resume c => s.proc c = some p ∧ s.ctx p = .wait ∧ scanFails (awake s.pt p) p
  | _ => False

omit [DecidableEq Cpu] in
theorem waitFails_no_child (h : s.WaitFails p a) (hk : (s.pt p).killed = false)
    (q : Slot) : (s.pt q).parent ≠ some p := by
  have hscan {pt : Ptable} (hf : scanFails pt p) (hk : (pt p).killed = false) :
      (pt q).parent ≠ some p := by
    intro hq
    have hkids : havekids pt p = true := List.any_eq_true.2 ⟨q, mem_slots q, by simp [hq]⟩
    simp [scanFails, hkids, hk] at hf
  cases a with
  | wait c => exact hscan h.2 hk
  | resume c =>
    have hp := hscan h.2.2 ((awake_field Proc.killed (fun _ => rfl) s.pt p p).trans hk)
    rwa [awake_field Proc.parent fun _ => rfl] at hp
  | _ => exact h.elim

/-! ## Every run -/

/-- The machine is a family that the events `es` have led to. -/
structure FamilyInv (es : List ProcEvent) (s : Machine Cpu) : Prop where
  machine : MachineInv s
  wait : WaitInv s
  initproc : s.initproc = 0
  ok : Family.Ok s.initproc s.family
  traced : Family.Traced s.initproc es s.family

omit [DecidableEq Cpu] in
theorem boot_parent (p : Slot) : ((@Machine.boot Cpu).pt p).parent = none := by
  unfold Machine.boot
  dsimp only
  rcases eq_or_ne p 0 with rfl | hp
  · rw [Function.update_self]
    rfl
  · rw [Function.update_of_ne hp]

omit [DecidableEq Cpu] in
theorem familyInv_boot : FamilyInv [] (@Machine.boot Cpu) where
  machine := machineInv_boot
  wait := ⟨fun {p} hp => (nomatch hp.1), nofun⟩
  initproc := rfl
  ok := by
    refine ⟨?_, @boot_parent Cpu 0, fun q hq => ?_, fun {q p} hq => ?_, fun {p} hp => ?_⟩
    · exact congrArg ProcState.life (@boot_state Cpu 0)
    · cases (boot_parent q).symm.trans hq
    · cases (boot_parent q).symm.trans hq
    · exact nomatch hp.1
  traced q hq hi := by
    have hst : ((@Machine.boot Cpu).pt q).state = .unused := (boot_state q).trans (if_neg hi)
    exact absurd (congrArg ProcState.life hst) hq

theorem FamilyInv.step (h : FamilyInv es s) (hs : s.step a = some s') :
    FamilyInv (es ++ s.events a) s' := by
  obtain ⟨hstep, hinv, hinit⟩ := machine_family h.wait h.machine hs
  refine ⟨h.machine.step (machine_move hs), hinv, hinit.trans h.initproc, ?_, ?_⟩
  · rw [hinit]
    exact h.ok.step hstep
  · rw [hinit]
    exact h.traced.step hstep

theorem family_run (h : run Machine.step Machine.boot as = some s) :
    FamilyInv (trace Machine.step Machine.events Machine.boot as) s := by
  have hinv : FamilyInv ([] ++ trace Machine.step Machine.events Machine.boot as) s :=
    trace_inv (fun _ _ _ _ hi hs => hi.step hs) familyInv_boot h
  exact hinv

/-! ## Pids -/

/-- The pids that `wait` has returned, in order. -/
def reapedPids (es : List ProcEvent) : List Int :=
  es.filterMap fun e => match e with
    | .buried _ _ pid => some pid
    | _ => none

/-- The pids that `wait` has returned are distinct, and no used slot has one of them. -/
structure ReapedInv (es : List ProcEvent) (s : Machine Cpu) : Prop where
  nodup : (reapedPids es).Nodup
  lt : ∀ n ∈ reapedPids es, n < s.nextpid
  fresh : ∀ n ∈ reapedPids es, ∀ {q}, (s.pt q).state ≠ .unused → (s.pt q).pid ≠ n

theorem reapedPids_append (es ev : List ProcEvent) :
    reapedPids (es ++ ev) = reapedPids es ++ reapedPids ev := List.filterMap_append

omit [DecidableEq Cpu] in
theorem ReapedInv.congr {es' : List ProcEvent} (h : ReapedInv es s)
    (he : reapedPids es' = reapedPids es) : ReapedInv es' s := by
  refine ⟨?_, ?_, ?_⟩ <;> rw [he]
  · exact h.nodup
  · exact h.lt
  · exact h.fresh

theorem fresh_step {n : Int} (h : MachineInv s) (hm : MachineMove s a s') (hlt : n < s.nextpid)
    (hn : ∀ {q}, (s.pt q).state ≠ .unused → (s'.pt q).state ≠ .unused → (s.pt q).pid ≠ n)
    (hq : (s'.pt q).state ≠ .unused) : (s'.pt q).pid ≠ n := by
  rcases (step_proc h hm q).pid hq with ⟨hu, hpid⟩ | ⟨-, hpid, -⟩
  · rw [hpid]
    exact hn hu hq
  · rw [hpid]
    exact (ne_of_lt hlt).symm

theorem reaped_fresh (hp : PidInv k s) (h : MachineInv s)
    (hm : MachineMove s a s') (hz : (s.pt q).state = .zombie) (hz' : (s'.pt q).state ≠ .zombie)
    {x : Slot} (hx : (s'.pt x).state ≠ .unused) : (s'.pt x).pid ≠ (s.pt q).pid := by
  have hq : (s.pt q).state ≠ .unused := by
    rw [hz]
    nofun
  refine fresh_step h hm (hp.lt hq) (fun {y} hy hy' heq => ?_) hx
  obtain rfl := hp.inj hy hq heq
  exact hy' ((step_proc h hm y).zombie hz hz').1

theorem ReapedInv.step (hr : ReapedInv es s) (hp : PidInv k s)
    (h : FamilyInv es s) (hs : s.step a = some s')
    (hk : k + (if a.isAlloc then 1 else 0) < 2 ^ 31 - 1) : ReapedInv (es ++ s.events a) s' := by
  have hm := machine_move hs
  have hnext := (hp.nextpid hm hk).1
  have hlt (n : Int) (hn : n ∈ reapedPids es) : n < s'.nextpid :=
    Int.lt_of_lt_of_le (hr.lt n hn) hnext
  have hfresh (n : Int) (hn : n ∈ reapedPids es) {q : Slot} (hq : (s'.pt q).state ≠ .unused) :
      (s'.pt q).pid ≠ n :=
    fresh_step h.machine hm (hr.lt n hn) (fun hu _ => hr.fresh n hn hu) hq
  have hnil : ReapedInv es s' := ⟨hr.nodup, hlt, hfresh⟩
  obtain ⟨hstep, -, -⟩ := machine_family h.wait h.machine hs
  generalize s.events a = ev at hstep ⊢
  cases hstep with
  | rest | wait | attach | born | died =>
    refine hnil.congr ?_
    rw [reapedPids_append]
    exact List.append_nil _
  | @buried p q hpar hdead hpar' hlife _ _ =>
    have hz : (s.pt q).state = .zombie := life_dead.1 hdead
    have hz' : (s'.pt q).state ≠ .zombie := by
      intro hz'
      have hfree : (s'.pt q).state.life = .free := by
        have := congrFun hlife q
        rwa [Function.update_self] at this
      rw [hz'] at hfree
      cases hfree
    have hq : (s.pt q).state ≠ .unused := by
      rw [hz]
      nofun
    have hone : reapedPids [.buried p q (s.family.name q)] = [(s.pt q).pid] := rfl
    refine ⟨?_, fun n hn => ?_, fun n hn x hx => ?_⟩
    · rw [reapedPids_append, hone, List.nodup_append]
      refine ⟨hr.nodup, List.nodup_singleton _, fun n hn m hm => ?_⟩
      rw [List.mem_singleton.1 hm]
      exact (hr.fresh n hn hq).symm
    · rw [reapedPids_append, hone, List.mem_append, List.mem_singleton] at hn
      rcases hn with hn | rfl
      · exact hlt n hn
      · exact Int.lt_of_lt_of_le (hp.lt hq) hnext
    · rw [reapedPids_append, hone, List.mem_append, List.mem_singleton] at hn
      rcases hn with hn | rfl
      · exact hfresh n hn hx
      · exact reaped_fresh hp h.machine hm hz hz' hx

theorem reaped_run (h : run Machine.step Machine.boot as = some s)
    (hn : allocCalls as < 2 ^ 31 - 1) :
    (reapedPids (trace Machine.step Machine.events Machine.boot as)).Nodup := by
  have hinv : run Machine.step Machine.boot as = some s ∧ (allocCalls as < 2 ^ 31 - 1 →
      ReapedInv (trace Machine.step Machine.events Machine.boot as) s) := by
    refine run_inv_acts (P := fun as s => run Machine.step Machine.boot as = some s ∧
      (allocCalls as < 2 ^ 31 - 1 →
        ReapedInv (trace Machine.step Machine.events Machine.boot as) s)) ?_ [] ?_ h
    · rintro bs s a s' ⟨hr, hinv⟩ hs
      refine ⟨run_append.2 ⟨s, hr, by simp [run, hs]⟩, fun hn => ?_⟩
      rw [allocCalls_concat] at hn
      have hlt : allocCalls bs < 2 ^ 31 - 1 := by omega
      rw [trace_append hr, trace_cons hs]
      exact (List.append_nil (s.events a)).symm ▸
        (hinv hlt).step (pidInv_run hr hlt) (family_run hr) hs hn
    · exact ⟨rfl, fun _ => ⟨List.nodup_nil, by simp [trace, reapedPids], by simp [trace, reapedPids]⟩⟩
  exact (hinv.2 hn).nodup

/-! ## Accounting -/

theorem buried_run (h : run Machine.step Machine.boot as = some s)
    {es₁ es₂ : List ProcEvent} {pid : Int}
    (he : trace Machine.step Machine.events Machine.boot as = es₁ ++ .buried p q pid :: es₂) :
    ∃ p₀ l₁ l₂, es₁ = l₁ ++ .born p₀ q pid :: l₂ ∧ (∀ e ∈ l₂, ¬ e.About q) ∧
      (p = p₀ ∧ .died p₀ ∉ l₂ ∨ p = s.initproc ∧ .died p₀ ∈ l₂) := by
  obtain ⟨as₁, a, as₂, s₁, s₂, l₁, l₂, -, hr, hs, -, hev, rfl⟩ := trace_split h he
  have hi := family_run hr
  have hstep := (machine_family hi.wait hi.machine hs).step
  have hlen := hstep.length_le
  rw [hev, List.length_append, List.length_cons] at hlen
  obtain rfl : l₁ = [] := List.length_eq_zero_iff.1 (by omega)
  obtain rfl : l₂ = [] := List.length_eq_zero_iff.1 (by omega)
  rw [hev] at hstep
  rw [List.append_nil, (family_run h).initproc, ← hi.initproc]
  exact hi.traced.buried hi.ok hstep

/-- **Exit and wait.** In every run of any number of processors from `boot`: a `wait` that returns a
pid returns that of a child which was forked under it and not waited for since, to its parent, or to
`initproc` if the parent has exited since; so between two of them for one slot there is a `fork`,
and before `nextpid` wraps around no pid is returned twice. Every process but `initproc` has a
parent that is a process and has not exited. A `wait` returns `-1` to a process that is not killed
only if it has no child, and with `ptable.lock` free nobody is asleep in `wait` who has an exited
child. -/
theorem exit_wait_accounting (as : List (MachineAct Cpu)) (s : Machine Cpu)
    (h : run Machine.step Machine.boot as = some s) :
    let es := trace Machine.step Machine.events Machine.boot as
    (∀ es₁ p q pid es₂, es = es₁ ++ .buried p q pid :: es₂ →
      ∃ p₀ l₁ l₂, es₁ = l₁ ++ .born p₀ q pid :: l₂ ∧ (∀ e ∈ l₂, ¬ e.About q) ∧
        (p = p₀ ∧ .died p₀ ∉ l₂ ∨ p = s.initproc ∧ .died p₀ ∈ l₂)) ∧
    (∀ l₁ p q pid l₂ p' pid' l₃,
      es = l₁ ++ .buried p q pid :: l₂ ++ .buried p' q pid' :: l₃ → ∃ p₀, .born p₀ q pid' ∈ l₂) ∧
    (allocCalls as < 2 ^ 31 - 1 → (reapedPids es).Nodup) ∧
    (∀ q, (s.pt q).state ≠ .unused → (s.pt q).state ≠ .embryo → q ≠ s.initproc →
      ∃ p, (s.pt q).parent = some p ∧ (s.pt p).state ≠ .unused ∧ (s.pt p).state ≠ .embryo ∧
        (s.pt p).state ≠ .zombie) ∧
    (∀ a p, s.WaitFails p a → (s.pt p).killed = false → ∀ q, (s.pt q).parent ≠ some p) ∧
    (s.lock = none → ∀ p q, s.ctx p = .wait → (s.pt p).state = .sleeping →
      (s.pt q).parent = some p → (s.pt q).state ≠ .zombie) := by
  intro es
  have hi := family_run h
  refine ⟨fun es₁ p q pid es₂ he => buried_run h he, ?_, reaped_run h, fun q hu hem hq => ?_,
    fun a p => waitFails_no_child, fun _ p q hc hs hq hz => ?_⟩
  · intro l₁ p q pid l₂ p' pid' l₃ he
    obtain ⟨p₀, k₁, k₂, hk, hnot, -⟩ := buried_run h he
    exact ⟨p₀, Family.born_between hk hnot⟩
  · have hlife : s.family.life q ≠ .free := by
      intro hfree
      revert hfree hu hem
      simp only [Machine.family]
      cases (s.pt q).state <;> simp [ProcState.life]
    obtain ⟨p, hp⟩ : ∃ p, (s.pt q).parent = some p := by
      obtain ⟨p₀, -, -, -, -, ⟨hp, -⟩ | ⟨hp, -⟩⟩ := hi.traced q hlife hq
      · exact ⟨p₀, hp⟩
      · exact ⟨s.initproc, hp⟩
    have halive : (s.pt p).state.life = .alive := hi.ok.parent hp
    refine ⟨p, hp, ?_, ?_, ?_⟩ <;>
    · intro hst
      rw [hst] at halive
      cases halive
  · exact hi.ok.waiting ⟨hc, hs⟩ hq (life_dead.2 hz)

end

/-- `initproc` forks, its child forks and exits; the grandchild exits on another processor, and
`initproc` waits for both. -/
def orphanActs : List (MachineAct (Fin 2)) :=
  [.schedule 0 20, .resume 0, .allocproc 0, .forkParent 0, .forkDone 0,
    .schedule 1 20, .resume 1, .allocproc 1, .forkParent 1, .forkDone 1, .exit 1, .back 1,
    .schedule 1 20, .resume 1, .exit 1, .back 1, .wait 0, .wait 0]

theorem exit_wait_accounting_orphan :
    ∃ s, run Machine.step Machine.boot orphanActs = some s ∧
      trace Machine.step Machine.events Machine.boot orphanActs =
        [.born 0 1 2, .born 1 2 3, .died 1, .died 2, .buried 0 1 2, .buried 0 2 3] ∧
      ∃ p₀ l₁ l₂, [.born 0 1 2, .born 1 2 3, .died 1, .died 2, .buried 0 1 2] =
        l₁ ++ FamilyEvent.born p₀ (2 : Slot) (3 : Int) :: l₂ := by
  have hs : (run Machine.step Machine.boot orphanActs).isSome := by decide +kernel
  obtain ⟨s, hs⟩ := Option.isSome_iff_exists.1 hs
  have htrace : trace Machine.step Machine.events Machine.boot orphanActs =
      [.born 0 1 2, .born 1 2 3, .died 1, .died 2, .buried 0 1 2, .buried 0 2 3] := by
    decide +kernel
  obtain ⟨p₀, l₁, l₂, hl, -⟩ := (exit_wait_accounting orphanActs s hs).1
    [.born 0 1 2, .born 1 2 3, .died 1, .died 2, .buried 0 1 2] 0 2 3 [] htrace
  exact ⟨s, hs, htrace, p₀, l₁, l₂, hl⟩

end Xv6
