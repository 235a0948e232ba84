import Xv6.Ipc.Proof.MailboxFifo

/-!
# Waiting on a mailbox

`mailbox_wakes`: `ksend` sleeps only on a full mailbox and `krecv` only on an empty one, and each
wakes the channel when it changes `full`; so no wakeup is lost (`mailbox_no_lost_wakeup`).

The wait loops do not look at `p->killed`. A thread in the loop of a call stays in it until it
stores or removes a message (`inLoop_run`): a killed process that was blocked in `ksend` or `krecv`
cannot return from the call in any other way (`killed_not_returns`).
-/

namespace Xv6

open Lib

variable {s s' : MailboxThreads} {t : Slot} {c : MailboxCall}

/-! ## No lost wakeup -/

/-- The condition under which a call sleeps. -/
def MailboxCall.waits : MailboxCall → Mailbox → Prop
  | .ksend _ _, mb => mb.full ≠ 0
  | .krecv _ _ _, mb => mb.full = 0

theorem body_cases (c : MailboxCall) (mb : Mailbox) :
    (c.waits mb ∧ c.body mb = ⟨mb, [], .sleep c⟩) ∨
    (¬ c.waits mb ∧ (c.body mb).obj.full ≠ mb.full ∧ (c.body mb).wakes = [.mailbox c.chan] ∧
      ∃ r, (c.body mb).next = .leave r) := by
  cases c with
  | ksend i m =>
    simp only [MailboxCall.waits, MailboxCall.body, ksendBody, MailboxCall.chan]
    split
    · rename_i h
      exact .inl ⟨h, rfl⟩
    · rename_i h
      refine .inr ⟨h, ?_, rfl, _, rfl⟩
      dsimp only
      omega
  | krecv i maxlen pos =>
    simp only [MailboxCall.waits, MailboxCall.body, krecvBody, MailboxCall.chan]
    split
    · rename_i h
      exact .inl ⟨h, rfl⟩
    · rename_i h
      exact .inr ⟨h, Ne.symm h, rfl, _, rfl⟩

theorem mailbox_wakes : Wakes mailboxes MailboxCall.waits fun _ => True where
  sleeps c _ mb c' h := by
    change (c.body mb).next = _ at h
    change c'.waits (c.body mb).obj
    rcases body_cases c mb with ⟨hw, hb⟩ | ⟨-, -, -, r, hr⟩
    · rw [hb] at h ⊢
      cases h
      exact hw
    · rw [hr] at h
      cases h
  wakes c _ mb c' hl hw hn := by
    change ¬ c'.waits (c.body mb).obj at hn
    change Chan.mailbox c'.chan ∈ (c.body mb).wakes
    have hl' : c'.chan = c.chan := hl
    rcases body_cases c mb with ⟨-, hb⟩ | ⟨-, -, hwake, -⟩
    · rw [hb] at hn
      exact absurd hw hn
    · rw [hwake, hl']
      exact List.mem_singleton_self _
  code s t a l l' obj _ _ ho c hw := by
    rwa [mailbox_code ho]

/-- **No lost wakeup on a mailbox**: while its lock is free, nobody sleeps in `krecv` on a full
mailbox or in `ksend` on an empty one. -/
theorem mailbox_no_lost_wakeup (proc : Ptable) (mbs : Fin numMailboxes → Mailbox)
    (s : MailboxThreads) (h : Reach mailboxes.step (mailboxBoot proc mbs) s)
    (i : Fin numMailboxes) (hfree : s.lock i = none) (t : Slot)
    (hs : (s.proc t).state = .sleeping) :
    (∀ maxlen pos, s.pc t = .sched (.krecv i maxlen pos) → (s.obj i).full = 0) ∧
    ∀ m, s.pc t = .sched (.ksend i m) → (s.obj i).full = 1 := by
  obtain ⟨hi, hw⟩ := h.inv (P := fun s => LockInv mailboxes s ∧
      WakeInv mailboxes MailboxCall.waits s)
    (fun s a s' hs h => ⟨hs.1.step h, hs.2.step mailbox_wakes trivial hs.1 h⟩)
    ⟨LockInv.init _ _ _, WakeInv.init _ _ _⟩
  obtain ⟨as, has⟩ := h
  refine ⟨fun maxlen pos hpc => ?_, fun m hpc => ?_⟩
  · exact no_lost_wakeup (c := MailboxCall.krecv i maxlen pos) hi hw hfree (.inr ⟨hpc, hs⟩)
  · have h0 : (s.obj i).full ≠ 0 :=
      no_lost_wakeup (c := MailboxCall.ksend i m) hi hw hfree (.inr ⟨hpc, hs⟩)
    obtain ⟨_, q, -, -, hq⟩ := fifo_run has i
    rcases hq.cases with ⟨-, hq0⟩ | ⟨_, -, hq1, -⟩
    · exact absurd hq0 h0
    · exact hq1

def recvOne : MailboxCall := .krecv 0 1 (by decide)

/-- Process 1 asleep in `krecv` on mailbox 0. -/
theorem mailbox_no_lost_wakeup_waiting :
    ∃ s, run mailboxes.step (mailboxBoot pairProcs zeroBoxes) waitActs = some s ∧
      s.lock 0 = none ∧ (s.proc 1).state = .sleeping ∧ s.pc 1 = .sched recvOne ∧
      (s.obj 0).full = 0 :=
  ⟨_, rfl, rfl, rfl, rfl, (mailbox_no_lost_wakeup pairProcs zeroBoxes _ ⟨waitActs, rfl⟩ 0 rfl 1
    rfl).1 1 (by decide) rfl⟩

/-! ## A killed process in a wait loop -/

/-- Asleep in a call. -/
def Blocked (s : MailboxThreads) (t : Slot) (c : MailboxCall) : Prop :=
  s.pc t = .sched c ∧ (s.proc t).state = .sleeping

/-- What a wait loop that checks `p->killed` gives a process `t` in the call `c`, from the state `s`
its `kill` leaves: the call can return with no critical section of `t` changing a mailbox, and until
it returns `t` is not asleep in it again. -/
structure ReturnsKilled (s : MailboxThreads) (t : Slot) (c : MailboxCall) : Prop where
  returns : ∃ as s', run mailboxes.step s as = some s' ∧ (∃ r, s'.pc t = .out r) ∧
    ∀ e ∈ trace mailboxes.step mailboxes.sections s as, e.slot = t → e.sec.obj = e.before
  awake : ∀ as s', run mailboxes.step s as = some s' →
    (∀ e ∈ trace mailboxes.step mailboxes.sections s as, e.slot = t → ∀ r, e.sec.next ≠ .leave r) →
    ¬ Blocked s' t c

/-- In the `while` loop of the call. -/
inductive InLoop (c : MailboxCall) : Pc (Fin numMailboxes) MailboxCall Ret → Prop
  | acquire : InLoop c (.acquire c)
  | locked : InLoop c (.locked c)
  | sleep : InLoop c (.wakeup c.chan [] (.sleep c))
  | release : InLoop c (.sleepRelease c)
  | asleep : InLoop c (.sleepSched c)
  | sched : InLoop c (.sched c)

/-- Thread `t` changed the `full` of its mailbox in a critical section of the call `c`. -/
def Touched (es : List MailboxEntry) (t : Slot) (c : MailboxCall) : Prop :=
  ∃ e ∈ es, e.slot = t ∧ e.call = c ∧ e.sec.obj.full ≠ e.before.full

theorem inLoop_step {a : ThreadAct MailboxAct} (hl : InLoop c (s.pc t))
    (h : mailboxes.step s a = some s') :
    InLoop c (s'.pc t) ∨ Touched (mailboxes.sections s a) t c := by
  by_cases ha : a.actor = some t
  · -- the thread's own step: along the loop, or out of it through a changed mailbox
    cases step_move h with
    | acquire hr hpc | sleep hr hpc | release hr hpc | sched hr hpc | resume hfree hr hpc =>
      cases ha
      left
      rw [hpc] at hl
      rw [Threads.setPc_pc, if_pos rfl]
      cases hl
      constructor
    | body hr hpc hb =>
      cases ha
      rw [hpc] at hl
      cases hl
      rcases body_cases c (s.obj c.chan) with ⟨-, hsec⟩ | ⟨-, hfull, -⟩
      · left
        rw [Threads.setPc_pc, if_pos rfl, ← hb]
        change InLoop c (.wakeup c.chan (c.body (s.obj c.chan)).wakes (c.body (s.obj c.chan)).next)
        rw [hsec]
        exact .sleep
      · right
        refine ⟨⟨t, c, s.obj c.chan, c.body (s.obj c.chan)⟩, ?_, rfl, rfl, hfull⟩
        simp only [Client.sections, hpc]
        exact List.mem_singleton_self _
    | wake hr hpc | leave hr hpc | call hr hpc | code hr hpc =>
      cases ha
      rw [hpc] at hl
      cases hl
    | _ => exact .inl hl
  · left
    rw [step_pc_of_ne h ha]
    exact hl

theorem inLoop_run {as : List (ThreadAct MailboxAct)} (hl : InLoop c (s.pc t))
    (h : run mailboxes.step s as = some s') :
    InLoop c (s'.pc t) ∨ Touched (trace mailboxes.step mailboxes.sections s as) t c := by
  have hinv : InLoop c (s'.pc t) ∨
      Touched ([] ++ trace mailboxes.step mailboxes.sections s as) t c := by
    refine trace_inv (P := fun es s => InLoop c (s.pc t) ∨ Touched es t c) ?_ (.inl hl) h
    rintro es s a s' (hl | ⟨e, he, hp⟩) hs
    · rcases inLoop_step hl hs with hl' | ⟨e, he, hp⟩
      · exact .inl hl'
      · exact .inr ⟨e, List.mem_append_right _ he, hp⟩
    · exact .inr ⟨e, List.mem_append_left _ he, hp⟩
  exact hinv

/-- **A killed process is not let out of a mailbox**: no process blocked in `ksend` or `krecv` gets
what a wait loop with a check of `p->killed` gives it. Whenever the call returns, it has stored or
removed a message. -/
theorem killed_not_returns (proc : Ptable) (mbs : Fin numMailboxes → Mailbox)
    (s s₁ : MailboxThreads) (_h : Reach mailboxes.step (mailboxBoot proc mbs) s) (t : Slot)
    (c : MailboxCall) (hb : Blocked s t c) (pid : Int) (hk : mailboxes.step s (.kill pid) = some s₁)
    (_hmark : (s₁.proc t).killed = true) :
    (∀ as s' r, run mailboxes.step s₁ as = some s' → s'.pc t = .out r →
      Touched (trace mailboxes.step mailboxes.sections s₁ as) t c) ∧ ¬ ReturnsKilled s₁ t c := by
  have hl : InLoop c (s₁.pc t) := by
    rw [step_pc_of_ne hk nofun, hb.1]
    exact .sched
  have htouch : ∀ as s' r, run mailboxes.step s₁ as = some s' → s'.pc t = .out r →
      Touched (trace mailboxes.step mailboxes.sections s₁ as) t c := by
    intro as s' r hrun hout
    rcases inLoop_run hl hrun with hl' | ht
    · rw [hout] at hl'
      cases hl'
    · exact ht
  refine ⟨htouch, fun hr => ?_⟩
  obtain ⟨as, s', hrun, ⟨r, hout⟩, hsame⟩ := hr.returns
  obtain ⟨e, he, hslot, -, hfull⟩ := htouch as s' r hrun hout
  exact hfull (by rw [hsame e he hslot])

/-- Process 1 is killed while it waits in `krecv`. -/
theorem killed_not_returns_waiting :
    ∃ s s₁, run mailboxes.step (mailboxBoot pairProcs zeroBoxes) waitActs = some s ∧
      Blocked s 1 recvOne ∧ mailboxes.step s (.kill 2) = some s₁ ∧ (s₁.proc 1).killed = true ∧
      ¬ ReturnsKilled s₁ 1 recvOne :=
  ⟨_, _, rfl, ⟨rfl, rfl⟩, rfl, rfl, (killed_not_returns pairProcs zeroBoxes _ _ ⟨waitActs, rfl⟩ 1
    recvOne ⟨rfl, rfl⟩ 2 rfl rfl).2⟩

/-- Process 1 waits in `krecv` and is killed; it runs, and is asleep in `krecv` again. When process
0 sends a message, the killed process removes it. -/
theorem killed_returns_fails :
    ∃ s s₁ s₂ s₃, run mailboxes.step (mailboxBoot pairProcs zeroBoxes) waitActs = some s ∧
      Blocked s 1 recvOne ∧ mailboxes.step s (.kill 2) = some s₁ ∧ (s₁.proc 1).killed = true ∧
      run mailboxes.step s₁ (.dispatch 1 :: List.replicate 5 (.run 1)) = some s₂ ∧
      Blocked s₂ 1 recvOne ∧ (s₂.proc 1).killed = true ∧
      run mailboxes.step s₂ sendActs = some s₃ ∧
      recvs 0 (trace mailboxes.step mailboxes.sections s₂ sendActs) = [(1, ⟨1, [104]⟩)] ∧
      ¬ ReturnsKilled s₁ 1 recvOne := by
  refine ⟨_, _, _, _, rfl, ⟨rfl, rfl⟩, rfl, rfl, rfl, ⟨rfl, rfl⟩, rfl, rfl, rfl, fun hr => ?_⟩
  refine hr.awake (.dispatch 1 :: List.replicate 5 (.run 1)) _ rfl (fun e he _ r => ?_) ⟨rfl, rfl⟩
  rw [List.mem_singleton.1 he]
  nofun

end Xv6
