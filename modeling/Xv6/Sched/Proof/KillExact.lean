import Xv6.Sched.Proof.Killed

/-!
# Which slot `kill` and `settickets` change

Both scan for the first slot with the pid, whatever its state (`onPid`). A free slot has the pid
`0`, or, after a `fork` that failed, the pid that `fork` had given out. `onPid_exact`: a call does
what it says exactly if the slot it finds is in use, or it changes nothing there and another slot is
meant.

`allocproc` does not reset `p->killed`, so a mark on a free slot is inherited by the next child. In
the runs without such a mark the free slots are clean (`free_clean`) and every child starts so.
-/

namespace Xv6

open Lib Function

/-! ## One call -/

/-- The scan of `kill` and `settickets`: change the first slot with the pid. -/
def onPid (f : Proc → Proc) (pid : Int) (pt : Ptable) : Int × Ptable :=
  match slots.find? fun p => (pt p).pid = pid with
  | some p => (0, update pt p (f (pt p)))
  | none => (-1, pt)

theorem settickets_eq_onPid {pid tickets : Int} (h : 0 < tickets) (pt : Ptable) :
    settickets pid tickets pt = onPid (fun r => { r with tickets }) pid pt := by
  rw [settickets, if_neg (by omega)]
  rfl

/-- `p` is in use under `pid`. -/
def HasPid (pt : Ptable) (pid : Int) (p : Slot) : Prop :=
  (pt p).state ≠ .unused ∧ (pt p).pid = pid

instance (pt : Ptable) (pid : Int) (p : Slot) : Decidable (HasPid pt pid p) :=
  inferInstanceAs (Decidable (_ ∧ _))

/-- What a call that is given a pid is to do: `0` and a change of a slot in use with the pid, if
there is one, and else `-1` and nothing. -/
structure CallExact (pt : Ptable) (pid : Int) (r : Int × Ptable) : Prop where
  hit : (∃ p, HasPid pt pid p) → r.1 = 0 ∧ ∃ p, HasPid pt pid p ∧ ∀ q, q ≠ p → r.2 q = pt q
  miss : (¬ ∃ p, HasPid pt pid p) → r.1 = -1 ∧ r.2 = pt

/-- The slot the scan finds is in use, or it is changed to what it was and a slot in use has the
pid too. -/
def FindsUsed (f : Proc → Proc) (pt : Ptable) (pid : Int) : Prop :=
  ∀ p, (slots.find? fun p => (pt p).pid = pid) = some p →
    (pt p).state ≠ .unused ∨ f (pt p) = pt p ∧ ∃ q, HasPid pt pid q

instance (f : Proc → Proc) (pt : Ptable) (pid : Int) : Decidable (FindsUsed f pt pid) :=
  inferInstanceAs (Decidable (∀ _, _ → _))

theorem onPid_exact (f : Proc → Proc) (pt : Ptable) (pid : Int) :
    CallExact pt pid (onPid f pid pt) ↔ FindsUsed f pt pid := by
  unfold onPid FindsUsed
  cases hfind : slots.find? fun p => (pt p).pid = pid with
  | none =>
    have hno : ¬ ∃ p, HasPid pt pid p := by
      rintro ⟨p, -, hp⟩
      have := List.find?_eq_none.1 hfind p (mem_slots p)
      simp [hp] at this
    exact ⟨fun _ => nofun, fun _ => ⟨fun h => absurd h hno, fun _ => ⟨rfl, rfl⟩⟩⟩
  | some p =>
    have hpid : (pt p).pid = pid := by simpa using List.find?_some hfind
    simp only [Option.some.injEq, forall_eq']
    constructor
    · intro h
      by_cases hu : (pt p).state = .unused
      · by_cases hex : ∃ q, HasPid pt pid q
        · obtain ⟨-, q, hq, hsame⟩ := h.hit hex
          have hpq : p ≠ q := by
            rintro rfl
            exact hq.1 hu
          have hp := hsame p hpq
          dsimp only at hp
          rw [update_self] at hp
          exact .inr ⟨hp, hex⟩
        · cases (h.miss hex).1
      · exact .inl hu
    · rintro (hu | ⟨hf, q, hq⟩)
      · exact ⟨fun _ => ⟨rfl, p, ⟨hu, hpid⟩, fun q hq => update_of_ne hq ..⟩,
          fun hno => absurd ⟨p, hu, hpid⟩ hno⟩
      · refine ⟨fun _ => ⟨rfl, q, hq, fun x _ => ?_⟩, fun hno => absurd ⟨q, hq⟩ hno⟩
        dsimp only
        rw [hf, update_eq_self]

/-! ## Free slots -/

/-- No free slot is marked as killed. -/
def FreeClean (pt : Ptable) : Prop := ∀ q, (pt q).state = .unused → (pt q).killed = false

theorem FreeClean.update {pt : Ptable} (h : FreeClean pt) {p : Slot} {r : Proc}
    (hr : r.state = .unused → r.killed = false) : FreeClean (update pt p r) := by
  intro q hq
  rcases eq_or_ne q p with rfl | hqp
  · rw [update_self] at hq ⊢
    exact hr hq
  · rw [update_of_ne hqp] at hq ⊢
    exact h q hq

section
variable {Cpu : Type} [DecidableEq Cpu] {s s' : Machine Cpu} {a : MachineAct Cpu}

theorem FreeClean.step (h : FreeClean s.pt) (ha : a.inFork = false)
    (hkill : ∀ pid, a = .kill pid → FindsUsed killProc s.pt pid) (hs : s.step a = some s') :
    FreeClean s'.pt := by
  intro q hq
  cases step_killed hs q with
  | keep hk hu =>
    rw [hk]
    exact h q ((hu hq).resolve_right (by rw [ha]; nofun))
  | @kill pid heq hfind hr =>
    have hu : (s.pt q).state = .unused := by
      rw [hr] at hq
      unfold killProc at hq
      split at hq
      · cases hq
      · exact hq
    -- a free slot that is changed to what it was would have been marked before
    rcases hkill pid heq q hfind with hn | ⟨hsame, -⟩
    · exact absurd hu hn
    · rw [hr, hsame]
      exact h q hu
  | reap _ hk => exact hk

/-! ## `fork` -/

theorem forkCall_some {c : Cpu} {ok : Bool} {np : Slot} (hs : s.forkCall c ok = some s')
    (hnp : findUnused s.pt = some np) :
    ∃ p, s'.pt = update s.pt np (if ok then
      { embryoProc (s.pt np) s.nextpid with parent := some p, state := .runnable }
      else { embryoProc (s.pt np) s.nextpid with state := .unused }) := by
  obtain ⟨s₁, h₁, hs⟩ := Option.bind_eq_some_iff.1 hs
  obtain ⟨p, -, hc, hp, -, h₁⟩ := onProc_ite_some h₁
  rw [hnp] at h₁ hs
  cases h₁
  refine ⟨p, ?_⟩
  cases ok with
  | false =>
    obtain ⟨p', -, -, hp', hs⟩ := onProc_some hs
    cases hp.symm.trans hp'
    simp only [update_self] at hs
    cases hs
    simp [Machine.setProc]
  | true =>
    obtain ⟨s₂, h₂, hs⟩ := Option.bind_eq_some_iff.1 hs
    obtain ⟨p', -, -, hp', h₂⟩ := onProc_some h₂
    cases hp.symm.trans hp'
    simp only [update_self] at h₂
    cases h₂
    obtain ⟨p', -, -, hp', hs⟩ := onProc_some hs
    cases hp.symm.trans hp'
    simp only [update_self] at hs
    cases hs
    simp [Machine.setProc]

theorem forkCall_none {c : Cpu} {ok : Bool} (hs : s.forkCall c ok = some s')
    (hnp : findUnused s.pt = none) : s' = s := by
  obtain ⟨s₁, h₁, hs⟩ := Option.bind_eq_some_iff.1 hs
  obtain ⟨p, -, hc, hp, -, h₁⟩ := onProc_ite_some h₁
  rw [hnp] at h₁ hs
  cases h₁
  cases hs
  rfl

/-- If the call is a `kill`, it finds a slot in use. -/
def KillsUsed (s : Machine Cpu) : KernelCall Cpu → Prop
  | .other (.kill pid) => FindsUsed killProc s.pt pid
  | _ => True

theorem FreeClean.call {k : KernelCall Cpu} (h : FreeClean s.pt) (hk : KillsUsed s k)
    (hs : s.call k = some s') : FreeClean s'.pt := by
  cases k with
  | fork c ok =>
    cases hnp : findUnused s.pt with
    | none =>
      rw [forkCall_none hs hnp]
      exact h
    | some np =>
      obtain ⟨p, hpt⟩ := forkCall_some hs hnp
      have hclean := h np (findUnused_unused hnp)
      rw [hpt]
      refine h.update fun _ => ?_
      cases ok <;> exact hclean
  | other a =>
    obtain ⟨ha, hs⟩ := Option.ite_none_left_eq_some.1 hs
    refine h.step (by simpa using ha) (fun pid heq => ?_) hs
    rw [heq] at hk
    exact hk

omit [DecidableEq Cpu] in
theorem freeClean_boot : FreeClean (@Machine.boot Cpu).pt := by
  have hfree : FreeClean fun _ => {} := fun _ _ => rfl
  exact hfree.update nofun

/-- **`kill`, `settickets` and `fork`.** In every state that calls lead to: `kill`, and `settickets`
with a positive number, change exactly the slot in use with the pid, or return `-1` and change
nothing, if and only if the first slot with the pid is in use (or the call leaves it as it is and
another one in use has the pid). If every `kill` so far was such a one, a `fork` that succeeds makes
a child that is not killed and has 10 tickets. -/
theorem kill_settickets_exact (calls : List (KernelCall Cpu)) (s : Machine Cpu)
    (h : run Machine.call Machine.boot calls = some s) :
    (∀ pid, CallExact s.pt pid (kill pid s.pt) ↔ FindsUsed killProc s.pt pid) ∧
    (∀ pid tickets, 0 < tickets → (CallExact s.pt pid (settickets pid tickets s.pt) ↔
      FindsUsed (fun r => { r with tickets }) s.pt pid)) ∧
    (Along Machine.call KillsUsed Machine.boot calls → ∀ c np s', findUnused s.pt = some np →
      s.call (.fork c true) = some s' → (s'.pt np).state = .runnable ∧
        (s'.pt np).killed = false ∧ (s'.pt np).tickets = 10) := by
  refine ⟨fun pid => onPid_exact killProc s.pt pid, fun pid tickets ht => ?_, ?_⟩
  · rw [settickets_eq_onPid ht]
    exact onPid_exact _ s.pt pid
  · intro hok c np s' hnp hs
    have hclean : FreeClean s.pt := run_inv_along (P := fun s : Machine Cpu => FreeClean s.pt)
      (fun s k s' hc hk hs => hc.call hk hs) freeClean_boot h hok
    obtain ⟨p, hpt⟩ := forkCall_some hs hnp
    rw [hpt, update_self]
    exact ⟨rfl, hclean np (findUnused_unused hnp), rfl⟩

end

def initCalls : List (KernelCall (Fin 1)) := [.other (.schedule 0 20), .other (.resume 0)]

def killInitCalls : List (KernelCall (Fin 1)) := initCalls ++ [.other (.kill 1)]

/-- After `kill(1)`, which finds `initproc`, a `fork` makes a child that is not killed. -/
theorem kill_settickets_exact_used :
    ∃ s s', run Machine.call Machine.boot killInitCalls = some s ∧
      s.call (.fork 0 true) = some s' ∧ (s.pt 0).killed = true ∧ (s'.pt 1).killed = false := by
  have hrun : (run Machine.call Machine.boot (killInitCalls ++ [.fork 0 true])).isSome := by
    decide +kernel
  obtain ⟨s', hs'⟩ := Option.isSome_iff_exists.1 hrun
  obtain ⟨s, hs, hfork⟩ := run_append.1 hs'
  obtain ⟨s₁, hcall, hnil⟩ := run_cons.1 hfork
  cases hnil
  have hfacts : (run Machine.call Machine.boot killInitCalls).map
      (fun s => (findUnused s.pt, (s.pt 0).killed)) = some (some 1, true) := by decide +kernel
  rw [hs] at hfacts
  simp only [Option.map_some, Option.some.injEq, Prod.mk.injEq] at hfacts
  have hfinds : (run Machine.call Machine.boot initCalls).map
      (fun s => decide (FindsUsed killProc s.pt 1)) = some true := by decide +kernel
  have hok : Along Machine.call KillsUsed Machine.boot killInitCalls := by
    refine ⟨trivial, fun s₁ h₁ => ⟨trivial, fun s₂ h₂ => ⟨?_, fun _ _ => trivial⟩⟩⟩
    have h₃ : run Machine.call Machine.boot initCalls = some s₂ :=
      run_cons.2 ⟨s₁, h₁, run_cons.2 ⟨s₂, h₂, rfl⟩⟩
    rw [h₃] at hfinds
    have hfu : FindsUsed killProc s₂.pt 1 := of_decide_eq_true (Option.some.inj hfinds)
    exact hfu
  exact ⟨s, s', hs, hcall, hfacts.2,
    ((kill_settickets_exact _ s hs).2.2 hok 0 1 s' hfacts.1 hcall).2.1⟩

/-- `kill(0)` finds a free slot: it returns `0`, though no process has the pid, and marks the slot;
the child that the next `fork` puts there starts killed. -/
theorem kill_settickets_exact_fails :
    ∃ s s', run Machine.call Machine.boot initCalls = some s ∧
      (kill 0 s.pt).1 = 0 ∧ (¬ ∃ p, HasPid s.pt 0 p) ∧ ¬ CallExact s.pt 0 (kill 0 s.pt) ∧
      run Machine.call s [.other (.kill 0), .fork 0 true] = some s' ∧
      (s'.pt 1).state = .runnable ∧ (s'.pt 1).killed = true := by
  have h' : (run Machine.call Machine.boot (initCalls ++ [.other (.kill 0), .fork 0 true])).map
      (fun s => ((s.pt 1).state, (s.pt 1).killed)) = some (.runnable, true) := by decide +kernel
  obtain ⟨s', hs', hv'⟩ := Option.map_eq_some_iff.1 h'
  obtain ⟨s, hs, hrun⟩ := run_append.1 hs'
  have h : (run Machine.call Machine.boot initCalls).map
      (fun s => ((kill 0 s.pt).1, decide (∃ p, HasPid s.pt 0 p))) = some (0, false) := by
    decide +kernel
  rw [hs] at h
  simp only [Option.map_some, Option.some.injEq, Prod.mk.injEq, decide_eq_false_iff_not] at h
  simp only [Prod.mk.injEq] at hv'
  refine ⟨s, s', hs, h.1, h.2, fun hex => ?_, hrun, hv'.1, hv'.2⟩
  cases h.1.symm.trans (hex.miss h.2).1

end Xv6
