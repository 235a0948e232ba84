import Xv6.Ipc.Proof.PipeStream

/-!
# Waiting on a pipe

`piperead` and `pipeclose` wake the sleepers whose waiting they end, and so does a `pipewrite` that
is done or goes to sleep. A `pipewrite` that finds the pipe full and gives up, because it was killed
or the read end is closed, returns without `wakeup(&p->nread)`, also when it stored bytes since it
took the lock (`GivesUp`). If a reader is asleep then, it stays asleep with bytes in the pipe.

`pipe_sleepers`: no wakeup is lost in the runs without such a step, and each such step loses one.
-/

namespace Xv6

open Lib

variable {pi : Pipe} {p : Nat} {n : Int} {q : List UInt8} {k : Bool} {s : PipeThreads}
  {a : ThreadAct PipeAct}

/-- The condition under which a call sleeps. -/
def PipeCall.waits : PipeCall → Pipe → Prop
  | .write _ _ _, pi => pi.full = true ∧ pi.readopen ≠ 0
  | .read _ _, pi => pi.empty = true ∧ pi.writeopen ≠ 0
  | .close _ _, _ => False

/-- Thread `t` is in a `pipewrite` on `p`, about to store some bytes but not all it has left, and to
give up then. -/
def GivesUp (s : PipeThreads) (t : Slot) (p : Nat) : Prop :=
  ∃ n rest, s.pc t = .locked (.write p n rest) ∧ (s.obj p).full = false ∧
    pipeSize < ((s.obj p).nwrite - (s.obj p).nread).toNat + rest.length ∧
    ((s.obj p).readopen = 0 ∨ (s.proc t).killed = true)

/-- A `pipewrite` does not give up after a store while a reader is asleep. -/
def NoReaderLeft (s : PipeThreads) (a : ThreadAct PipeAct) : Prop :=
  ∀ t p, a = .run t → GivesUp s t p → ∀ u n, ¬ Asleep s u (.read p n)

/-! ## Critical sections -/

theorem storeAll_of_full (h : pi.full = true) (rest : List UInt8) :
    (pi.storeAll rest).1 = pi := by
  cases rest with
  | nil => rfl
  | cons b bs => rw [Pipe.storeAll, if_pos h]

theorem pipe_sleeps (c : PipeCall) (k : Bool) (pi : Pipe) (c' : PipeCall)
    (h : (c.body k pi).next = .sleep c') : c'.waits (c.body k pi).obj := by
  cases c with
  | write p n rest =>
    rcases pipewriteBody_cases p n rest k pi with ⟨-, hb⟩ | ⟨-, -, hb⟩ | ⟨hne, hg, hb⟩ <;>
      simp only [PipeCall.body, hb] at h ⊢ <;> cases h
    refine ⟨Pipe.storeAll_full rest hne, ?_⟩
    rw [(Pipe.storeAll_frame rest pi).1]
    exact fun h0 => hg (.inl h0)
  | read p n =>
    rcases pipereadBody_cases p n k pi with ⟨he, hw, hb | hb⟩ | ⟨-, hb⟩ <;>
      simp only [PipeCall.body, hb] at h ⊢ <;> cases h
    exact ⟨he, hw⟩
  | close p writable => cases writable <;> cases h

theorem pipewrite_gaveUp {rest : List UInt8} (h : pi.Holds q)
    (hlen : pipeSize < q.length + rest.length) (hg : pi.readopen = 0 ∨ k = true) :
    pipewriteBody p n rest k pi = ⟨(pi.storeAll rest).1, [], .leave ⟨-1, []⟩⟩ ∧
      (pi.storeAll rest).1.empty = false := by
  obtain ⟨st, hst, hq⟩ := Pipe.storeAll_spec rest h
  have hne : (pi.storeAll rest).2 ≠ [] := by
    intro h0
    have hle := hq.le
    rw [h0, List.append_nil] at hst
    rw [List.length_append, ← hst] at hle
    omega
  have hfull := (Pipe.full_iff hq).1 (Pipe.storeAll_full rest hne)
  refine ⟨?_, ?_⟩
  · rcases pipewriteBody_cases p n rest k pi with ⟨h0, -⟩ | ⟨-, -, hb⟩ | ⟨-, hg', -⟩
    · exact absurd h0 hne
    · exact hb
    · exact absurd hg hg'
  · rw [Bool.eq_false_iff, ne_eq, Pipe.empty_iff hq]
    intro h0
    rw [h0] at hfull
    exact absurd hfull (by decide)

theorem pipe_wakes {c c' : PipeCall} (h : pi.Holds q)
    (hp : c'.pipe = c.pipe) (hw : c'.waits pi) (hn : ¬ c'.waits (c.body k pi).obj) :
    c'.chan ∈ (c.body k pi).wakes ∨
      ∃ p n n' rest, c = .write p n rest ∧ c' = .read p n' ∧ q = [] ∧ pipeSize < rest.length ∧
        (pi.readopen = 0 ∨ k = true) := by
  cases c with
  | write p n rest =>
    rw [PipeCall.body, pipewriteBody_obj] at hn
    cases c' with
    | write p' n' rest' =>
      rw [storeAll_of_full hw.1] at hn
      exact absurd hw hn
    | close p' w => exact hw.elim
    | read p' n' =>
      obtain rfl : p' = p := hp
      rcases pipewriteBody_cases p' n rest k pi with ⟨-, hb⟩ | ⟨hne, hg, -⟩ | ⟨-, -, hb⟩
      · exact .inl (by rw [PipeCall.body, hb]; exact List.mem_singleton_self _)
      · -- the pipe was empty, so that a whole `PIPESIZE` was stored before it was full
        right
        obtain rfl := (Pipe.empty_iff h).1 hw.1
        refine ⟨p', n, n', rest, rfl, rfl, rfl, ?_, hg⟩
        obtain ⟨st, hst, hq⟩ := Pipe.storeAll_spec rest h
        have hfull := (Pipe.full_iff hq).1 (Pipe.storeAll_full rest hne)
        have hpos := List.length_pos_iff.2 hne
        rw [hst, List.length_append]
        rw [List.nil_append] at hfull
        omega
      · exact .inl (by rw [PipeCall.body, hb]; exact List.mem_singleton_self _)
  | read p n =>
    left
    rcases pipereadBody_cases p n k pi with ⟨-, -, hb | hb⟩ | ⟨hr, hb⟩
    · rw [PipeCall.body, hb] at hn
      exact absurd hw hn
    · rw [PipeCall.body, hb] at hn
      exact absurd hw hn
    · rw [PipeCall.body, hb]
      cases c' with
      | write p' n' rest' =>
        obtain rfl : p' = p := hp
        exact List.mem_singleton_self _
      | read p' n' => exact absurd hw hr
      | close p' w => exact hw.elim
  | close p writable =>
    left
    cases c' with
    | write p' n' rest' =>
      obtain rfl : p' = p := hp
      cases writable
      · exact List.mem_singleton_self _
      · exact absurd hw hn
    | read p' n' =>
      obtain rfl : p' = p := hp
      cases writable
      · exact absurd hw hn
      · exact List.mem_singleton_self _
    | close p' w => exact hw.elim

/-! ## Every run -/

theorem pipe_wakesAt (hring : ∀ p, ∃ q, (s.obj p).Holds q) (hok : NoReaderLeft s a) :
    WakesAt pipes PipeCall.waits s a where
  sleeps := pipe_sleeps
  wakes t c u c' ha hpc hs hl hw hn := by
    obtain ⟨q, hq⟩ := hring c.pipe
    rcases pipe_wakes hq hl hw hn with h | ⟨p, n, n', rest, rfl, rfl, rfl, hlen, hg⟩
    · exact h
    · change (s.obj p).Holds [] at hq
      refine absurd hs (hok t p ha ⟨n, rest, hpc, ?_, ?_, hg⟩ u n')
      · rw [Bool.eq_false_iff, ne_eq, Pipe.full_iff hq]
        decide
      · rw [hq.dist_toNat Pipe.size_lt]
        exact Nat.lt_of_lt_of_le hlen (Nat.le_add_left _ _)
  code t a' l l' obj _ ho := (pipe_not_code ho).elim

theorem givesUp_loses {s₁ : PipeThreads} {t u : Slot} (hq : (s.obj p).Holds q) (hg : GivesUp s t p)
    (hu : Asleep s u (.read p n)) (h : pipes.step s (.run t) = some s₁) :
    ∃ s₂, pipes.step s₁ (.run t) = some s₂ ∧ s₂.lock p = none ∧ Asleep s₂ u (.read p n) ∧
      (s₂.obj p).empty = false := by
  obtain ⟨m, rest, hpc, -, hlen, hr⟩ := hg
  rw [hq.dist_toNat Pipe.size_lt] at hlen
  obtain ⟨hb, hempty⟩ := pipewrite_gaveUp (p := p) (n := m) hq hlen hr
  obtain ⟨hrun, h⟩ := Option.ite_none_right_eq_some.1 h
  have hut : u ≠ t := by
    rintro rfl
    rw [Asleep, hpc] at hu
    rcases hu with hu | ⟨hu, -⟩ <;> cases hu
  obtain rfl : { s with obj := Function.update s.obj p ((s.obj p).storeAll rest).1 }.setPc t
      (.wakeup p [] (.leave ⟨-1, []⟩)) = s₁ := by
    simpa [runThread, hpc, pipes, PipeCall.pipe, PipeCall.body, hb] using h
  refine ⟨_, by simp [Client.step, runThread, hrun, Threads.setPc]; rfl, ?_, ?_, ?_⟩
  · simp [Threads.setLock]
  · simpa [Asleep, Threads.setPc, Threads.setLock, hut] using hu
  · simpa [Threads.setPc, Threads.setLock] using hempty

/-- **Waiting on a pipe.** In the runs in which no `pipewrite` gives up after a store while a reader
is asleep: with the lock of a pipe free, nobody sleeps on `&p->nread` with bytes in the pipe or the
write end closed, or on `&p->nwrite` with room in the pipe or the read end closed. A step that does
give up so leaves, after its `release`, a reader asleep with bytes in the pipe. -/
theorem pipe_sleepers (proc : Ptable) (data : Nat → Fin pipeSize → UInt8) (s : PipeThreads)
    (as : List (ThreadAct PipeAct)) (h : run pipes.step (pipeBoot proc data) as = some s)
    (hok : Along pipes.step NoReaderLeft (pipeBoot proc data) as) :
    (∀ p, s.lock p = none → ∀ t, (s.proc t).state = .sleeping →
      (∀ n, s.pc t = .sched (.read p n) →
        (s.obj p).nread = (s.obj p).nwrite ∧ (s.obj p).writeopen ≠ 0) ∧
      ∀ n rest, s.pc t = .sched (.write p n rest) →
        (s.obj p).nwrite = (s.obj p).nread + 512 ∧ (s.obj p).readopen ≠ 0) ∧
    ∀ t s₁, pipes.step s (.run t) = some s₁ → ¬ NoReaderLeft s (.run t) →
      ∃ s₂, pipes.step s₁ (.run t) = some s₂ ∧ ∃ p u n, s₂.lock p = none ∧
        Asleep s₂ u (.read p n) ∧ (s₂.obj p).nread ≠ (s₂.obj p).nwrite := by
  have hring : ∀ {s}, Reach pipes.step (pipeBoot proc data) s → ∀ p, ∃ q, (s.obj p).Holds q := by
    rintro s ⟨as, has⟩ p
    obtain ⟨q, -, hq⟩ := stream_run has p
    exact ⟨q, hq⟩
  obtain ⟨hreach, hi, hw⟩ := run_inv_along (P := fun s => Reach pipes.step (pipeBoot proc data) s ∧
      LockInv pipes s ∧ WakeInv pipes PipeCall.waits s)
    (fun s a s' hs hok h => ⟨hs.1.tail h, hs.2.1.step h,
      hs.2.2.step_of (pipe_wakesAt (hring hs.1) hok) hs.2.1 h⟩)
    ⟨.refl _, LockInv.init _ _ _, WakeInv.init _ _ _⟩ h hok
  refine ⟨fun p hfree t hs => ⟨fun n hpc => ?_, fun n rest hpc => ?_⟩, fun t s₁ h₁ hn => ?_⟩
  · have hwait : (PipeCall.read p n).waits (s.obj p) :=
      no_lost_wakeup (c := PipeCall.read p n) hi hw hfree (.inr ⟨hpc, hs⟩)
    exact ⟨of_decide_eq_true hwait.1, hwait.2⟩
  · have hwait : (PipeCall.write p n rest).waits (s.obj p) :=
      no_lost_wakeup (c := PipeCall.write p n rest) hi hw hfree (.inr ⟨hpc, hs⟩)
    exact ⟨of_decide_eq_true hwait.1, hwait.2⟩
  · simp only [NoReaderLeft, not_forall, not_not] at hn
    obtain ⟨t', p, ha, hg, u, n, hu⟩ := hn
    cases ha
    obtain ⟨q, hq⟩ := hring hreach p
    obtain ⟨s₂, h₂, hfree, hs, he⟩ := givesUp_loses hq hg hu h₁
    exact ⟨s₂, h₂, p, u, n, hfree, hs, of_decide_eq_false he⟩

def readerActs : List (ThreadAct PipeAct) :=
  .outside 1 (.read 0 1) :: List.replicate 5 (.run 1)

theorem noReaderLeft_of_pc (h : ∀ t, a = .run t → ∀ p n rest, s.pc t ≠ .locked (.write p n rest)) :
    NoReaderLeft s a := by
  rintro t p rfl ⟨n, rest, hpc, -⟩
  exact absurd hpc (h t rfl p n rest)

/-- Process 1 asleep in `piperead` on pipe 0, which is empty. -/
theorem pipe_sleepers_waiting :
    ∃ s, run pipes.step (pipeBoot pairProcs fun _ _ => 0) readerActs = some s ∧
      s.lock 0 = none ∧ (s.proc 1).state = .sleeping ∧ s.pc 1 = .sched (.read 0 1) ∧
      (s.obj 0).nread = (s.obj 0).nwrite ∧ (s.obj 0).writeopen ≠ 0 := by
  have hok : Along pipes.step NoReaderLeft (pipeBoot pairProcs fun _ _ => 0) readerActs := by
    refine .cons rfl (noReaderLeft_of_pc nofun) ?_
    repeat' refine .cons rfl (noReaderLeft_of_pc fun t ht => by cases ht; nofun) ?_
    trivial
  exact ⟨_, rfl, rfl, rfl, rfl, ((pipe_sleepers pairProcs (fun _ _ => 0) _ readerActs rfl hok).1 0
    rfl 1 rfl).1 1 rfl⟩

def killedWriterActs : List (ThreadAct PipeAct) :=
  [.outside 0 (.write 0 (fun _ => 0) 513), .kill 1, .run 0, .run 0, .run 0]

/-- Process 1 sleeps in `piperead`; the killed process 0 stores 512 bytes, finds the pipe full and
returns, and process 1 sleeps on. -/
theorem pipe_sleepers_fails :
    ∃ s, run pipes.step (pipeBoot pairProcs fun _ _ => 0)
    (readerActs ++ killedWriterActs) = some s ∧
      s.lock 0 = none ∧ (s.proc 1).state = .sleeping ∧ s.pc 1 = .sched (.read 0 1) ∧
      (s.obj 0).nread ≠ (s.obj 0).nwrite := by
  have h : (run pipes.step (pipeBoot pairProcs fun _ _ => 0) (readerActs ++ killedWriterActs)).map
      (fun s => (s.lock 0, (s.proc 1).state, s.pc 1, (s.obj 0).nread, (s.obj 0).nwrite)) =
      some (none, .sleeping, .sched (.read 0 1), 0, 512) := by decide +kernel
  obtain ⟨s, hs, hv⟩ := Option.map_eq_some_iff.1 h
  simp only [Prod.mk.injEq] at hv
  obtain ⟨h1, h2, h3, h4, h5⟩ := hv
  exact ⟨s, hs, h1, h2, h3, by rw [h4, h5]; decide⟩

end Xv6
