import Xv6.Io.IdeError
import Xv6.Io.Proof.IdeQueue

/-!
# Disk errors are not noticed

As long as no drive reports an error, the driver is the one of `Xv6.Ide`, and `iderw` leaves a
buffer equal to its block. A request that fails is completed like any other: the buffer is marked as
valid and not dirty, with the data that it had.
-/

namespace Xv6.Ide

open Lib

variable {P B D : Type} [DecidableEq P] [DecidableEq B] {havedisk1 : Bool} {s s' : Faulty P B D}
  {a : FaultyAct P B D} {as : List (FaultyAct P B D)}

/-- The drive reports no error. -/
def FaultyAct.Fine : FaultyAct P B D → Prop
  | .act _ => True
  | .finish r _ => idewait true r = 0

/-- The step of the driver without errors. -/
def FaultyAct.base : FaultyAct P B D → Act P B D
  | .act a => a
  | .finish _ _ => .finish

omit [DecidableEq P] in
theorem ideintr_fine (h : idewait true s.status = 0) : s.ideintr = Ide.ideintr s.toState := by
  have hc : ∀ b, s.complete b = s.toState.complete b := fun b => by
    unfold Faulty.complete State.complete
    cases b.dirty <;> simp [h]
  unfold Faulty.ideintr Ide.ideintr
  cases hq : s.queue <;> simp only [hc, hq]

theorem step_fine (hst : idewait true s.status = 0) (ha : a.Fine)
    (hs : Faulty.step havedisk1 s a = some s') :
    Ide.step havedisk1 s.toState a.base = some s'.toState ∧ idewait true s'.status = 0 := by
  cases a with
  | finish r x =>
    have hx : ∀ c : Cmd D, c.withStatus r x = c := fun c => by
      cases c <;> simp [Cmd.withStatus, show idewait true r = 0 from ha]
    simp only [Faulty.step, hx] at hs
    split at hs
    · next c hc =>
      obtain ⟨⟨hp, hi, -⟩, hs⟩ := Option.ite_none_right_eq_some.1 hs
      cases hs
      exact ⟨by simp [FaultyAct.base, Ide.step, hp, hi, hc], ha⟩
    · cases hs
  | act a =>
    cases a with
    | finish => cases hs
    | intr =>
      obtain ⟨⟨hp, hi⟩, hs⟩ := Option.ite_none_right_eq_some.1 hs
      cases hs
      exact ⟨by simp [FaultyAct.base, Ide.step, hp, hi, ideintr_fine hst], hst⟩
    | _ =>
      obtain ⟨c, hc, rfl⟩ := Option.map_eq_some_iff.1 hs
      exact ⟨hc, hst⟩

theorem run_fine : ∀ {as : List (FaultyAct P B D)} {s : Faulty P B D}, idewait true s.status = 0 →
    (∀ a ∈ as, a.Fine) → run (Faulty.step havedisk1) s as = some s' →
    idewait true s'.status = 0 ∧
      run (Ide.step havedisk1) s.toState (as.map FaultyAct.base) = some s'.toState ∧
      (Along (Faulty.step havedisk1) (fun s _ => Apart s.toState) s as →
        Along (Ide.step havedisk1) (fun s _ => Apart s) s.toState (as.map FaultyAct.base))
  | [], s, hst, _, h => by
    cases h
    exact ⟨hst, rfl, fun _ => trivial⟩
  | a :: as, s, hst, ha, h => by
    obtain ⟨s₁, hs, h⟩ := run_cons.1 h
    obtain ⟨hs₁, hst₁⟩ := step_fine hst (ha a (List.mem_cons_self ..)) hs
    obtain ⟨hst', hr, hal⟩ := run_fine hst₁ (fun b hb => ha b (List.mem_cons_of_mem _ hb)) h
    exact ⟨hst', run_cons.2 ⟨_, hs₁, hr⟩, fun hok => .cons hs₁ hok.1 (hal (hok.2 _ hs))⟩

/-- **Disk errors.** In every state that any number of processes and the interrupts can reach without a
panic:

* an interrupt for a request that has failed sets `B_VALID` and clears `B_DIRTY`, for a read as for a
  write, and the buffer has the data that it had;
* if no drive has reported an error, and no two locked buffers were for the same block, a process leaves
  `iderw` with its buffer valid, not dirty, and equal to its block. -/
theorem iderw_data (havedisk1 : Bool) (buf : B → Buf D) (disk : Nat × Nat → D)
    (as : List (FaultyAct P B D)) (s : Faulty P B D)
    (h : run (Faulty.step havedisk1) (Faulty.init buf disk) as = some s) (hp : s.panicked = none) :
    (∀ s' r rest, Faulty.step havedisk1 s (.act .intr) = some s' → s.queue = r :: rest →
      idewait true s.status < 0 → (s'.buf r.buf).valid = true ∧ (s'.buf r.buf).dirty = false ∧
        (s'.buf r.buf).data = (s.buf r.buf).data) ∧
    ((∀ a ∈ as, a.Fine) →
      Along (Faulty.step havedisk1) (fun s _ => Apart s.toState) (Faulty.init buf disk) as →
      ∀ a s' p r w, Faulty.step havedisk1 s (.act a) = some s' → s.pc p = .waiting r w →
        s'.pc p = .idle → (s'.buf r.buf).valid = true ∧ (s'.buf r.buf).dirty = false ∧
          (s'.buf r.buf).data = s'.disk (s'.buf r.buf).addr) := by
  refine ⟨fun s' r rest hs hq herr => ?_, fun hfine hok a s' p r w hs hw hret => ?_⟩
  · obtain ⟨-, hs⟩ := Option.ite_none_right_eq_some.1 hs
    cases hs
    have hbuf : s.ideintr.buf = Function.update s.buf r.buf (s.complete (s.buf r.buf)) := by
      unfold Faulty.ideintr
      rw [hq]
      exact startHead_buf.1
    dsimp only
    rw [hbuf, Function.update_self]
    refine ⟨rfl, rfl, if_neg fun h => ?_⟩
    omega
  · have h0 : idewait true ideDrdy = 0 := by decide
    obtain ⟨hst, hr, hal⟩ := run_fine (s := Faulty.init buf disk) h0 hfine h
    obtain ⟨hs, -⟩ := step_fine (a := .act a) hst trivial hs
    obtain ⟨-, hd, hnot, hb, hdisk⟩ := (step_move hs).2.returns (run_ide_inv hr hp) hw hret
    obtain ⟨hv, hd⟩ : (s.buf r.buf).valid = true ∧ (s.buf r.buf).dirty = false := by
      simpa [Buf.done] using hd
    rw [hb, hdisk]
    exact ⟨hv, hd, run_agrees hr hp (hal hok) p r w hw hnot⟩

instance {n : Nat} (s : State P (Fin n) D) : Decidable (Apart s) :=
  inferInstanceAs (Decidable (∀ b b', s.lock b ≠ none → s.lock b' ≠ none →
    (s.buf b').addr = (s.buf b).addr → b' = b))

/-- Process 0 reads block 5 of drive 1 into buffer 0, and the drive ends with the status `r`. -/
def readFive (r : UInt8) : List (FaultyAct (Fin 2) (Fin 2) Nat) :=
  [.act (.lock 0 0), .act (.set 0 ⟨false, false, 1, 5, 0⟩), .act (.iderw 0 0),
    .finish r 0, .act .intr]

/-- Process 1 writes 9 to block 6. In case of an error the block is not written. -/
def writeSix (r : UInt8) : List (FaultyAct (Fin 2) (Fin 2) Nat) :=
  [.act (.lock 1 1), .act (.set 1 ⟨true, true, 1, 6, 9⟩), .act (.iderw 1 1),
    .finish r 7, .act .intr, .act (.check 1)]

/-- The blocks of the drives are all 7. -/
abbrev sevens : Faulty (Fin 2) (Fin 2) Nat :=
  Faulty.init (fun _ => ⟨false, false, 0, 0, 0⟩) fun _ => 7

/-- The drive reports no error, and `iderw` returns with 7. -/
theorem iderw_data_read :
    ∃ s, run (Faulty.step true) sevens (readFive 0x40) = some s ∧
    s.pc 0 = .waiting ⟨0, 0, 0⟩ false ∧
      ∀ s', Faulty.step true s (.act (.check 0)) = some s' → s'.pc 0 = .idle →
        (s'.buf 0).data = s'.disk (s'.buf 0).addr := by
  have h : (run (Faulty.step true) sevens (readFive 0x40)).map (fun s => (s.pc 0, s.panicked)) =
      some (.waiting ⟨0, 0, 0⟩ false, none) := by decide +kernel
  obtain ⟨s, hs, hd⟩ := Option.map_eq_some_iff.1 h
  obtain ⟨h1, h2⟩ := Prod.mk.inj hd
  refine ⟨s, hs, h1, fun s' hs' hret => ?_⟩
  exact ((iderw_data true _ _ _ s hs h2).2 (by simp [readFive, FaultyAct.Fine]; decide)
    (by decide +kernel) _ s' 0 _ _ hs' h1 hret).2.2

/-- With `IDE_ERR`, `iderw` returns from the read with a buffer that is valid and holds what it held
before, and from the write with a buffer that is not dirty any more, though the block is as it
was. -/
theorem disk_errors_unnoticed :
    (∃ s, run (Faulty.step true) sevens (readFive 0x41 ++ [.act (.check 0)]) = some s ∧
      s.pc 0 = .idle ∧ (s.buf 0).valid = true ∧ (s.buf 0).data = 0 ∧ s.disk (s.buf 0).addr = 7) ∧
    ∃ s, run (Faulty.step true) sevens (writeSix 0x41) = some s ∧
      s.pc 1 = .idle ∧ (s.buf 1).dirty = false ∧ (s.buf 1).data = 9 ∧
      s.disk (s.buf 1).addr = 7 := by
  constructor
  · have h : (run (Faulty.step true) sevens (readFive 0x41 ++ [.act (.check 0)])).map (fun s =>
        (s.pc 0, (s.buf 0).valid, (s.buf 0).data, s.disk (s.buf 0).addr)) =
        some (.idle, true, 0, 7) := by decide +kernel
    obtain ⟨s, hs, hd⟩ := Option.map_eq_some_iff.1 h
    simp only [Prod.mk.injEq] at hd
    exact ⟨s, hs, hd⟩
  · have h : (run (Faulty.step true) sevens (writeSix 0x41)).map (fun s =>
        (s.pc 1, (s.buf 1).dirty, (s.buf 1).data, s.disk (s.buf 1).addr)) =
        some (.idle, false, 9, 7) := by decide +kernel
    obtain ⟨s, hs, hd⟩ := Option.map_eq_some_iff.1 h
    simp only [Prod.mk.injEq] at hd
    exact ⟨s, hs, hd⟩

end Xv6.Ide
