import Xv6.Log.Ops
import Xv6.Kernel.Proof.Atomic
import Xv6.Lib.Tally

/-!
# The admission protocol of the log

`LogMove` is the inversion of the atomic steps of the log, one constructor per thing a process can
do. `OpsInv`: `outstanding` counts the operations in progress, `committing` is set exactly while one
process is between the two critical sections of its `end_op`, no operation is in progress then, and
the log is empty when neither operations nor a commit are. With the wakeups (`log_wakes`) this is
`log_admission`.
-/

namespace Xv6

open Lib Function

variable {o : Unit → LogState} {c : LogCall} {l : LogLoc} {a : LogAct} {p' : LogPlace} {size : Int}
  {limit : Nat}

abbrev LogPlace := Place LogCall LogLoc

/-- `begin_op` has to sleep. -/
def LogState.waits (o : LogState) : Prop :=
  o.committing = true ∨ o.n + (o.outstanding + 1) * maxOpBlocks > logSize

theorem LogState.not_waits {o : LogState} : ¬ o.waits ↔ o.committing = false ∧
    o.n + (o.outstanding + 1) * maxOpBlocks ≤ logSize := by
  rw [LogState.waits, not_or, Bool.not_eq_true, not_lt]

/-! ## What a step does -/

section
variable {size : Int} {limit : Nat}

/-- The steps of the log, with the place of the process that takes it. -/
inductive LogMove (size : Int) (limit : Nat) (o : LogState) (p : LogPlace) :
    LogState → LogPlace → Prop
  | wait : p = .call .beginOp → o.waits → LogMove size limit o p o (.call .beginOp)
  | begin : p = .call .beginOp → ¬ o.waits →
      LogMove size limit o p { o with outstanding := o.outstanding + 1 } (.loc (.inOp ∅))
  | write {b : Nat} {ws : Finset Nat} : p = .call (.logWrite b ws) →
      LogMove size limit o p
        { o with block := if b ∈ o.block then o.block else o.block ++ [b] }
        (.loc (.inOp (insert b ws)))
  | endPanic : p = .call .endOp → o.committing = true →
      LogMove size limit o p { o with outstanding := o.outstanding - 1 } (.dead "log.committing")
  | endLast : p = .call .endOp → o.committing = false → o.outstanding - 1 = 0 →
      LogMove size limit o p { o with outstanding := o.outstanding - 1, committing := true }
        (.loc .mustCommit)
  | endOther : p = .call .endOp → o.committing = false → o.outstanding - 1 ≠ 0 →
      LogMove size limit o p { o with outstanding := o.outstanding - 1 } (.loc .idle)
  | endCommit : p = .call .endCommit →
      LogMove size limit o p { o with committing := false } (.loc .idle)
  | callBegin : p = .loc .idle → LogMove size limit o p o (.call .beginOp)
  | callWrite {b : Nat} {ws : Finset Nat} : p = .loc (.inOp ws) → (insert b ws).card ≤ limit →
      LogMove size limit o p o (.call (.logWrite b ws))
  | callEnd {ws : Finset Nat} : p = .loc (.inOp ws) → LogMove size limit o p o (.call .endOp)
  | commit : p = .loc .mustCommit → LogMove size limit o p { o with block := [] } (.loc .committed)
  | callEndCommit : p = .loc .committed → LogMove size limit o p o (.call .endCommit)

theorem body_move {o : LogState} :
    LogMove size limit o (.call c) (c.body o).obj (c.body o).next.place := by
  cases c with
  | beginOp =>
    simp only [LogCall.body, beginOpBody]
    split
    · rename_i hc
      exact .wait rfl (.inl hc)
    · rename_i hc
      split
      · rename_i hn
        exact .wait rfl (.inr hn)
      · rename_i hn
        exact .begin rfl (by rintro (h | h) <;> contradiction)
  | logWrite b ws => exact .write rfl
  | endOp =>
    simp only [LogCall.body, endOpBody]
    split
    · rename_i hc
      exact .endPanic rfl hc
    · rename_i hc
      split
      · rename_i h0
        exact .endLast rfl (by simpa using hc) h0
      · rename_i h0
        exact .endOther rfl (by simpa using hc) h0
  | endCommit => exact .endCommit rfl

theorem outside_cases {r : Outside Unit LogState LogCall LogLoc}
    (h : logOutside size limit l a o = some r) :
    (l = .idle ∧ r = .call .beginOp) ∨
    (∃ ws b, l = .inOp ws ∧ (insert b ws).card ≤ limit ∧ r = logWriteEnter size b ws (o ())) ∨
    (∃ ws, l = .inOp ws ∧ r = .call .endOp) ∨
    (l = .mustCommit ∧ r = .code (fun _ => { o () with block := [] }) .committed) ∨
    (l = .committed ∧ r = .call .endCommit) := by
  unfold logOutside at h
  split at h
  · cases h
    exact .inl ⟨rfl, rfl⟩
  · split at h
    · rename_i hcard
      cases h
      exact .inr (.inl ⟨_, _, rfl, hcard, rfl⟩)
    · cases h
  · cases h
    exact .inr (.inr (.inl ⟨_, rfl, rfl⟩))
  · cases h
    exact .inr (.inr (.inr (.inl ⟨rfl, rfl⟩)))
  · cases h
    exact .inr (.inr (.inr (.inr ⟨rfl, rfl⟩)))
  · cases h

theorem logWriteEnter_cases (size : Int) (b : Nat) (ws : Finset Nat) (o : LogState) :
    ((o.n ≥ logSize ∨ o.n ≥ size - 1) ∧
      logWriteEnter size b ws o = .panic "too big a transaction") ∨
    (o.outstanding < 1 ∧ logWriteEnter size b ws o = .panic "log_write outside of trans") ∨
    logWriteEnter size b ws o = .call (.logWrite b ws) := by
  unfold logWriteEnter
  split
  · rename_i h
    exact .inl ⟨h, rfl⟩
  · split
    · rename_i h
      exact .inr (.inl ⟨h, rfl⟩)
    · exact .inr (.inr rfl)

theorem call_move (h : logOutside size limit l a o = some (.call c)) :
    LogMove size limit (o ()) (.loc l) (o ()) (.call c) := by
  rcases outside_cases h with ⟨rfl, hr⟩ | ⟨ws, b, rfl, hcard, hr⟩ | ⟨ws, rfl, hr⟩ | ⟨rfl, hr⟩ |
    ⟨rfl, hr⟩
  · cases hr
    exact .callBegin rfl
  · rcases logWriteEnter_cases size b ws (o ()) with ⟨-, he⟩ | ⟨-, he⟩ | he <;> rw [he] at hr <;>
      cases hr
    exact .callWrite rfl hcard
  · cases hr
    exact .callEnd rfl
  · cases hr
  · cases hr
    exact .callEndCommit rfl

theorem code_move {l' : LogLoc} {o' : Unit → LogState}
    (h : logOutside size limit l a o = some (.code o' l')) :
    l = .mustCommit ∧ l' = .committed ∧ o' () = { o () with block := [] } := by
  rcases outside_cases h with ⟨-, hr⟩ | ⟨ws, b, -, -, hr⟩ | ⟨ws, -, hr⟩ | ⟨rfl, hr⟩ | ⟨-, hr⟩
  · cases hr
  · rcases logWriteEnter_cases size b ws (o ()) with ⟨-, he⟩ | ⟨-, he⟩ | he <;> rw [he] at hr <;>
      cases hr
  · cases hr
  · cases hr
    exact ⟨rfl, rfl, rfl⟩
  · cases hr

theorem panic_move {msg : String} (h : logOutside size limit l a o = some (.panic msg)) :
    ∃ ws, l = .inOp ws ∧
      (msg = "too big a transaction" ∧ ((o ()).n ≥ logSize ∨ (o ()).n ≥ size - 1) ∨
        (o ()).outstanding < 1) := by
  rcases outside_cases h with ⟨-, hr⟩ | ⟨ws, b, rfl, -, hr⟩ | ⟨ws, -, hr⟩ | ⟨-, hr⟩ | ⟨-, hr⟩
  · cases hr
  · refine ⟨ws, rfl, ?_⟩
    rcases logWriteEnter_cases size b ws (o ()) with ⟨hn, he⟩ | ⟨hout, he⟩ | he <;>
      rw [he] at hr <;> cases hr
    · exact .inl ⟨rfl, hn⟩
    · exact .inr hout
  · cases hr
  · cases hr
  · cases hr

/-- **Inversion**: an atomic step of the log is a `LogMove` of one process. -/
theorem log_move {o' : Unit → LogState} {pl pl' : Slot → LogPlace}
    (h : Atomic (logOps size limit) o pl o' pl') :
    ∃ t p', pl' = update pl t p' ∧ LogMove size limit (o ()) (pl t) (o' ()) p' := by
  cases h with
  | @body t c k hpl =>
    refine ⟨t, _, rfl, ?_⟩
    rw [hpl]
    exact body_move
  | @call t l a c hpl ho =>
    refine ⟨t, _, rfl, ?_⟩
    rw [hpl]
    exact call_move ho
  | @code t l l' a o' hpl ho =>
    obtain ⟨rfl, rfl, hobj⟩ := code_move ho
    refine ⟨t, _, rfl, ?_⟩
    rw [hpl, hobj]
    exact .commit rfl

end

/-! ## The invariant -/

/-- One if the place is between the increment of `begin_op` and the decrement of `end_op`. -/
def LogPlace.inOp : LogPlace → Nat
  | .loc (.inOp _) | .call (.logWrite _ _) | .call .endOp => 1
  | _ => 0

/-- One if the place is between the two critical sections of an `end_op` that commits. -/
def LogPlace.commits : LogPlace → Nat
  | .loc .mustCommit | .loc .committed | .call .endCommit => 1
  | _ => 0

/-- After `commit` has emptied the log. -/
def LogPlace.cleared : LogPlace → Bool
  | .loc .committed | .call .endCommit => true
  | _ => false

/-- `outstanding` and `committing` say what the threads are doing. -/
structure OpsInv (o : LogState) (pl : Slot → LogPlace) : Prop where
  outstanding : o.outstanding = tally LogPlace.inOp pl
  committing : tally LogPlace.commits pl = if o.committing then 1 else 0
  quiet : o.committing = true → o.outstanding = 0
  cleared : ∀ t, (pl t).cleared = true → o.block = []
  empty : o.committing = false → o.outstanding = 0 → o.block = []
  alive : ∀ t msg, pl t ≠ .dead msg

namespace OpsInv

variable {o : LogState} {pl : Slot → LogPlace} {t : Slot}

theorem busy (h : OpsInv o pl) (ht : (pl t).inOp = 1) :
    0 < o.outstanding ∧ o.committing = false ∧ ∀ u, (pl u).cleared = false := by
  have hle := le_tally LogPlace.inOp pl t
  have hpos : 0 < o.outstanding := by
    rw [h.outstanding]
    omega
  have hc : o.committing = false := by
    by_contra hc
    have := h.quiet (by simpa using hc)
    omega
  refine ⟨hpos, hc, fun u => ?_⟩
  by_contra hu
  have hu1 : (pl u).commits = 1 := by
    revert hu
    cases pl u with
    | loc l => cases l <;> simp [LogPlace.cleared, LogPlace.commits]
    | call c => cases c <;> simp [LogPlace.cleared, LogPlace.commits]
    | dead => simp [LogPlace.cleared]
  have hle := le_tally LogPlace.commits pl u
  rw [h.committing, hc, hu1] at hle
  simp at hle

theorem committer (h : OpsInv o pl) (ht : (pl t).commits = 1) :
    o.committing = true ∧ o.outstanding = 0 := by
  have hle := le_tally LogPlace.commits pl t
  have hc : o.committing = true := by
    by_contra hc
    rw [h.committing, if_neg hc] at hle
    omega
  exact ⟨hc, h.quiet hc⟩

theorem init (proc : Ptable) : OpsInv ((logBoot proc).obj ()) (logBoot proc).places :=
  ⟨(congrArg Nat.cast (tally_eq_zero.2 fun _ => rfl)).symm, tally_eq_zero.2 fun _ => rfl, nofun,
    nofun, fun _ _ => rfl, nofun⟩

theorem set {o' : LogState} (h : OpsInv o pl)
    (hout : o'.outstanding + (pl t).inOp = o.outstanding + p'.inOp)
    (hcom : (if o'.committing then 1 else 0) + (pl t).commits =
      (if o.committing then 1 else 0) + p'.commits)
    (hquiet : o'.committing = true → o'.outstanding = 0)
    (hcleared : ∀ u, (update pl t p' u).cleared = true → o'.block = [])
    (hempty : o'.committing = false → o'.outstanding = 0 → o'.block = [])
    (halive : ∀ msg, p' ≠ .dead msg) : OpsInv o' (update pl t p') := by
  have h1 := tally_update LogPlace.inOp pl t p'
  have h2 := tally_update LogPlace.commits pl t p'
  have h3 := h.outstanding
  have h4 := h.committing
  refine ⟨by omega, by omega, hquiet, hcleared, hempty, ?_⟩
  exact (forall_update_iff pl fun _ p => ∀ msg, p ≠ .dead msg).2 ⟨halive, fun u _ => h.alive u⟩

theorem cleared_update {b : List Nat} (h : ∀ u, (pl u).cleared = true → b = [])
    (hp : p'.cleared = true → b = []) (u : Slot)
    (hu : (update pl t p' u).cleared = true) : b = [] :=
  (forall_update_iff pl fun _ p => p.cleared = true → b = []).2 ⟨hp, fun u _ => h u⟩ u hu

/-- **Every step keeps the invariant.** -/
theorem step {o' : LogState} (h : OpsInv o pl) (hm : LogMove size limit o (pl t) o' p') :
    OpsInv o' (update pl t p') := by
  cases hm with
  | wait hp _ =>
    exact h.set (by rw [hp]) (by rw [hp]) h.quiet (cleared_update h.cleared nofun) h.empty nofun
  | callBegin hp | callWrite hp _ | callEnd hp =>
    exact h.set (by rw [hp]; rfl) (by rw [hp]; rfl) h.quiet (cleared_update h.cleared nofun)
      h.empty nofun
  | callEndCommit hp =>
    exact h.set (by rw [hp]; rfl) (by rw [hp]; rfl) h.quiet
      (cleared_update h.cleared fun _ => h.cleared t (by rw [hp]; rfl)) h.empty nofun
  | begin hp hw =>
    have hc := (LogState.not_waits.1 hw).1
    have hout := h.outstanding
    refine h.set (by rw [hp]; simp [LogPlace.inOp]) (by rw [hp]; rfl) ?_
      (cleared_update h.cleared nofun) ?_ nofun
    · rw [hc]
      nofun
    · intro _ h0
      dsimp only at h0
      omega
  | write hp =>
    obtain ⟨hpos, hc, hcl⟩ := h.busy (t := t) (by rw [hp]; rfl)
    refine h.set (by rw [hp]; rfl) (by rw [hp]; rfl) h.quiet ?_ (fun _ h0 => ?_) nofun
    · exact cleared_update (fun u hu => by rw [hcl u] at hu; cases hu) nofun
    · dsimp only at h0
      omega
  | endPanic hp hc =>
    have := (h.busy (t := t) (by rw [hp]; rfl)).2.1
    rw [this] at hc
    cases hc
  | endLast hp hc h0 =>
    obtain ⟨-, -, hcl⟩ := h.busy (t := t) (by rw [hp]; rfl)
    refine h.set ?_ ?_ (fun _ => h0) ?_ nofun nofun
    · rw [hp]
      simp [LogPlace.inOp]
    · rw [hp, hc]
      rfl
    · exact cleared_update (fun u hu => by rw [hcl u] at hu; cases hu) nofun
  | endOther hp hc h0 =>
    refine h.set ?_ (by rw [hp]; rfl) ?_ (cleared_update h.cleared nofun)
      (fun _ h0' => absurd h0' h0) nofun
    · rw [hp]
      simp [LogPlace.inOp]
    · rw [hc]
      nofun
  | endCommit hp =>
    obtain ⟨hc, h0⟩ := h.committer (t := t) (by rw [hp]; rfl)
    refine h.set (by rw [hp]; rfl) ?_ nofun (cleared_update h.cleared nofun)
      (fun _ _ => h.cleared t (by rw [hp]; rfl)) nofun
    rw [hp, hc]
    rfl
  | commit hp =>
    exact h.set (by rw [hp]; rfl) (by rw [hp]; rfl) h.quiet (fun _ _ => rfl) (fun _ _ => rfl) nofun

end OpsInv

variable {s s' : LogThreads} {c' : LogCall}

theorem OpsInv.threads {a : ThreadAct LogAct} (hi : OpsInv (s.obj ()) s.places)
    (h : (logOps size limit).step s a = some s') :
    OpsInv (s'.obj ()) s'.places := by
  rcases step_atomic h with ⟨ho, hpl⟩ | ha
  · rw [ho, hpl]
    exact hi
  · obtain ⟨t, p', hpl, hm⟩ := log_move ha
    rw [hpl]
    exact hi.step hm

theorem OpsInv.panicked {a : ThreadAct LogAct} {msg : String}
    (hi : OpsInv (s.obj ()) s.places) (h : (logOps size limit).step s a = some s')
    (hp : s'.panicked = some msg) :
    s.panicked = some msg ∨ (msg = "too big a transaction" ∧
      (∃ t ws, s.places t = .loc (.inOp ws)) ∧
      ((s.obj ()).n ≥ logSize ∨ (s.obj ()).n ≥ size - 1)) := by
  rcases step_panicked h hp with h1 | ⟨t, ht⟩ | ⟨t, l, a', hl, ho⟩
  · exact .inl h1
  · exact absurd ht (hi.alive t msg)
  · obtain ⟨ws, rfl, ⟨hmsg, hn⟩ | hout⟩ := panic_move ho
    · exact .inr ⟨hmsg, ⟨t, ws, hl⟩, hn⟩
    · have := (hi.busy (t := t) (by rw [hl]; rfl)).1
      omega

/-! ## Sleepers -/

/-- The condition under which a call sleeps. -/
def LogCall.waits : LogCall → LogState → Prop
  | .beginOp, o => o.waits
  | _, _ => False

theorem body_sleep {o : LogState} (h : (c.body o).next = .sleep c') :
    c'.waits (c.body o).obj := by
  have hm : LogMove 0 0 o (.call c) (c.body o).obj (c.body o).next.place := body_move
  rw [h] at hm
  generalize (c.body o).obj = o' at hm ⊢
  cases hm with
  | wait _ hw => exact hw
  | callBegin hp | callWrite hp | callEnd hp | callEndCommit hp => cases hp

theorem body_wake {o : LogState} (hw : c'.waits o) (hn : ¬ c'.waits (c.body o).obj) :
    Chan.log ∈ (c.body o).wakes := by
  cases c' with
  | beginOp =>
    cases c with
    | beginOp =>
      -- whoever is admitted had not to wait
      simp only [LogCall.body, beginOpBody] at hn ⊢
      split at hn
      · exact absurd hw hn
      · rename_i hc
        split at hn
        · exact absurd hw hn
        · rename_i hs
          exact absurd hw (by rintro (h | h) <;> contradiction)
    | logWrite b ws =>
      refine absurd (hw.imp id fun h => ?_) hn
      have hle : o.n ≤ (logWriteBody b ws o).obj.n := by
        simp only [logWriteBody, LogState.n]
        split <;> simp
      change (logWriteBody b ws o).obj.n + (o.outstanding + 1) * maxOpBlocks > logSize
      omega
    | endOp =>
      simp only [LogCall.body, endOpBody] at hn ⊢
      split at hn
      · rename_i hc
        exact absurd (.inl hc) hn
      · rename_i hc
        split at hn
        · exact absurd (.inl rfl) hn
        · rename_i h0
          rw [if_neg hc, if_neg h0]
          exact List.mem_singleton_self _
    | endCommit => exact List.mem_singleton_self _
  | logWrite | endOp | endCommit => exact hw.elim

theorem log_wakes (size : Int) (limit : Nat) :
    Wakes (logOps size limit) LogCall.waits fun s => OpsInv (s.obj ()) s.places where
  sleeps _ _ _ _ h := body_sleep h
  wakes _ _ _ _ _ hw hn := body_wake hw hn
  code s t a l l' obj hI hpc ho c hw := by
    -- `commit` clears the log with `committing` set
    obtain ⟨rfl, rfl, hobj⟩ := code_move ho
    have hc := (hI.committer (t := t) (by rw [Threads.places, hpc]; rfl)).1
    cases c with
    | beginOp =>
      change LogState.waits (obj ())
      rw [hobj]
      exact .inl hc
    | logWrite | endOp | endCommit => exact hw

/-! ## The protocol -/

/-- Between `begin_op` and `end_op`. -/
def InOp (pc : Pc Unit LogCall LogLoc) : Prop := LogPlace.inOp pc.place = 1

instance : DecidablePred InOp := fun _ => inferInstanceAs (Decidable (_ = 1))

theorem inOp_le_one (p : LogPlace) : p.inOp = 0 ∨ p.inOp = 1 := by
  unfold LogPlace.inOp
  split <;> simp

theorem tally_inOp (s : LogThreads) :
    tally LogPlace.inOp s.places = (Finset.univ.filter fun t => InOp (s.pc t)).card := by
  rw [Finset.card_filter, tally]
  refine Finset.sum_congr rfl fun t _ => ?_
  unfold InOp Threads.places
  rcases inOp_le_one (s.pc t).place with h | h <;> simp [h]

/-- **The admission protocol**, for any processes and any interleaving: a commit excludes operations
in progress and the panic in `end_op` is not reached, `outstanding` counts the operations in
progress, and with the lock free nobody sleeps in `begin_op` who could be admitted. -/
theorem log_admission (size : Int) (limit : Nat) (proc : Ptable) (s : LogThreads)
    (h : Reach (logOps size limit).step (logBoot proc) s) :
    ((s.obj ()).committing = true → (s.obj ()).outstanding = 0 ∧ ∀ t, ¬ InOp (s.pc t)) ∧
    s.panicked ≠ some "log.committing" ∧
    (s.obj ()).outstanding = (Finset.univ.filter fun t => InOp (s.pc t)).card ∧
    (s.lock () = none → ∀ t, (s.proc t).state = .sleeping → s.pc t = .sched .beginOp →
      ¬ ((s.obj ()).committing = false ∧
        (s.obj ()).n + ((s.obj ()).outstanding + 1) * maxOpBlocks ≤ logSize)) := by
  obtain ⟨hi, hl, hw, hpanic⟩ := h.inv (P := fun s => OpsInv (s.obj ()) s.places ∧
      LockInv (logOps size limit) s ∧ WakeInv (logOps size limit) LogCall.waits s ∧
      s.panicked ≠ some "log.committing")
    (fun s a s' hs hstep => ⟨hs.1.threads hstep, hs.2.1.step hstep,
      hs.2.2.1.step (log_wakes size limit) hs.1 hs.2.1 hstep, fun hp =>
        (hs.1.panicked hstep hp).elim hs.2.2.2 fun h => absurd h.1 (by decide)⟩)
    ⟨OpsInv.init proc, LockInv.init _ _ _, WakeInv.init _ _ _, nofun⟩
  refine ⟨fun hc => ⟨hi.quiet hc, fun t ht => ?_⟩, hpanic, ?_, fun hfree t hs hpc hfits => ?_⟩
  · have := (hi.busy (t := t) ht).2.1
    rw [hc] at this
    cases this
  · rw [hi.outstanding, tally_inOp]
  · have hwait : (s.obj ()).waits :=
      no_lost_wakeup (c := LogCall.beginOp) hl hw hfree (.inr ⟨hpc, hs⟩)
    exact LogState.not_waits.2 hfits hwait

def runningProcs (n : Nat) : Ptable := fun p =>
  if p < n then { state := .running, pid := p + 1 } else {}

def beginActs (t : Slot) : List (ThreadAct LogAct) := .outside t .beginOp ::
    List.replicate 3 (.run t)

/-- Three processes begin an operation, a fourth has to wait in `begin_op`. -/
def fourthActs : List (ThreadAct LogAct) :=
  beginActs 0 ++ beginActs 1 ++ beginActs 2 ++ .outside 3 .beginOp :: List.replicate 5 (.run 3)

theorem log_admission_fourth :
    ∃ s, run (logOps nlog maxOpBlocks).step (logBoot (runningProcs 4)) fourthActs = some s ∧
      (s.obj ()).outstanding = 3 ∧ 3 = (Finset.univ.filter fun t => InOp (s.pc t)).card ∧
      (s.proc 3).state = .sleeping ∧ ¬ ((s.obj ()).committing = false ∧
        (s.obj ()).n + ((s.obj ()).outstanding + 1) * maxOpBlocks ≤ logSize) := by
  refine ⟨_, rfl, rfl, ?_, rfl, ?_⟩
  · exact Int.ofNat.inj (log_admission nlog maxOpBlocks (runningProcs 4) _ ⟨fourthActs, rfl⟩).2.2.1
  · exact (log_admission nlog maxOpBlocks (runningProcs 4) _ ⟨fourthActs, rfl⟩).2.2.2 rfl 3 rfl rfl

end Xv6
