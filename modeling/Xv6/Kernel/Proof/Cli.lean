import Xv6.Kernel.Spinlock
import Xv6.Lib.Hoare

/-!
# One CPU and the thread that runs on it

What each function of `spinlock.c` does to its CPU, as one equation where it does not panic; then
`CliInv`: `ncli` is the depth of the thread that runs, interrupts are off where it is positive, and
`intena` is the flag that the outermost `pushcli` of the thread found. One lemma for each way in
which the thread goes on, or another takes its place.
-/

namespace Xv6

open Function

section
variable {L : Type}
variable {s : Core L}

/-! ## The functions of `spinlock.c` -/

theorem mycpu_eq (hf : s.cpu.flIf = false) : mycpu s = .ok s.cpu s := by
  have h : readeflags s = .ok false s := by rw [← hf]; rfl
  exact Lib.bind_ok h

theorem mycpu_error (hf : s.cpu.flIf = true) :
    mycpu s = .error "mycpu called with interrupts enabled\n" s := by
  have h : readeflags s = .ok true s := by rw [← hf]; rfl
  exact Lib.bind_ok h

theorem pushcliFrom_eq (eflags : Bool) (s : Core L) :
    pushcliFrom eflags s = .ok ()
      { s with cpu := ⟨s.cpu.ncli + 1, if s.cpu.ncli = 0 then eflags else s.cpu.intena, false⟩ } := by
  have hc : cli s = .ok () { s with cpu := { s.cpu with flIf := false } } := rfl
  rw [pushcliFrom, Lib.bind_ok hc, Lib.bind_ok (mycpu_eq rfl)]
  by_cases h : s.cpu.ncli = 0
  · simp only [h, if_true]
    rfl
  · simp only [h, if_false]
    rfl

theorem popcli_eq (hf : s.cpu.flIf = false) (hn : 1 ≤ s.cpu.ncli) :
    popcli s = .ok () { s with
      cpu := ⟨s.cpu.ncli - 1, s.cpu.intena, decide (s.cpu.ncli = 1) && s.cpu.intena⟩ } := by
  have hr : readeflags s = .ok false s := by rw [← hf]; rfl
  have hm : modifyCpu (fun c => { c with ncli := c.ncli - 1 }) s =
    .ok () ⟨⟨s.cpu.ncli - 1, s.cpu.intena, s.cpu.flIf⟩, s.lock⟩ := rfl
  have hc := mycpu_eq (s := ⟨⟨s.cpu.ncli - 1, s.cpu.intena, s.cpu.flIf⟩, s.lock⟩) hf
  rw [popcli, Lib.bind_ok hr]
  simp only [Bool.false_eq_true, if_false]
  rw [Lib.bind_ok hm, Lib.bind_ok hc, if_neg (by show ¬ s.cpu.ncli - 1 < 0; omega)]
  by_cases h : s.cpu.ncli = 1 ∧ s.cpu.intena
  · rw [if_pos ⟨by show s.cpu.ncli - 1 = 0; omega, h.2⟩]
    rw [h.2, decide_eq_true h.1]
    rfl
  · rw [if_neg (fun hc => h ⟨by have : s.cpu.ncli - 1 = 0 := hc.1; omega, hc.2⟩)]
    have hb : (decide (s.cpu.ncli = 1) && s.cpu.intena) = s.cpu.flIf := by
      rw [hf, Bool.and_eq_false_iff]
      by_cases h1 : s.cpu.ncli = 1
      · exact .inr (by simpa [h1] using h)
      · exact .inl (by simpa using h1)
    rw [hb]
    rfl

theorem pushpop_eq (hn : 0 ≤ s.cpu.ncli) (h : 0 < s.cpu.ncli → s.cpu.flIf = false) :
    ∃ i, pushpop s = .ok () { s with cpu := { s.cpu with intena := i } } ∧
      (0 < s.cpu.ncli → i = s.cpu.intena) := by
  refine ⟨if s.cpu.ncli = 0 then s.cpu.flIf else s.cpu.intena, ?_, fun hp => if_neg (by omega)⟩
  have hpush : pushcli s = _ := pushcliFrom_eq s.cpu.flIf s
  rw [pushpop, Lib.bind_ok hpush, popcli_eq rfl (by show 1 ≤ s.cpu.ncli + 1; omega)]
  rcases eq_or_ne s.cpu.ncli 0 with h0 | h0
  · simp [h0]
  · have hf := h (by omega)
    simp only [hf, h0, if_false, Int.add_sub_cancel]
    have hd : decide (s.cpu.ncli + 1 = 1) = false := decide_eq_false (by omega)
    rw [hd, Bool.false_and]

theorem pushpop_off (hf : s.cpu.flIf = false) (hn : 1 ≤ s.cpu.ncli) :
    pushpop s = .ok () s := by
  obtain ⟨i, h, hi⟩ := pushpop_eq (s := s) (by omega) fun _ => hf
  rw [h, hi (by omega)]

/-- `holding` on CPU `me`. -/
def Spinlock.HeldBy (l : Spinlock) (me : Nat) : Prop := l.locked ≠ 0 ∧ l.cpu = some me

instance (l : Spinlock) (me : Nat) : Decidable (l.HeldBy me) := inferInstanceAs (Decidable (_ ∧ _))

variable {me : Nat} {lk : L}

theorem holding_of_pushpop {s s' : Core L} (h : pushpop s = .ok () s') :
    holding me lk s = .ok (decide ((s.lock lk).HeldBy me)) s' := by
  have hpush : pushcli s = _ := pushcliFrom_eq s.cpu.flIf s
  rw [pushpop, Lib.bind_ok hpush] at h
  rw [holding, Lib.bind_ok hpush]
  exact (Lib.bind_ok rfl).trans (Lib.bind_ok h)

theorem holding_off {s : Core L} (hf : s.cpu.flIf = false) (hn : 1 ≤ s.cpu.ncli) :
    holding me lk s = .ok (decide ((s.lock lk).HeldBy me)) s :=
  holding_of_pushpop (pushpop_off hf hn)

theorem acquireFrom_ok {eflags : Bool} {s r : Core L} (hn : 0 ≤ s.cpu.ncli)
    (h : acquireFrom me eflags lk s = .ok () r) : pushcliFrom eflags s = .ok () r := by
  have hp := pushcliFrom_eq eflags s
  rw [acquireFrom, Lib.bind_ok hp,
    Lib.bind_ok (holding_off rfl (by show 1 ≤ s.cpu.ncli + 1; omega))] at h
  by_cases hl : (s.lock lk).HeldBy me
  · rw [if_pos (decide_eq_true hl)] at h
    cases h
  · rw [if_neg (by simpa using hl)] at h
    rw [hp]
    exact h

theorem schedSave_ok {ptable : L} {state : ProcState} {s r : Core L} {i : Bool}
    (hn : 0 ≤ s.cpu.ncli) (hf : 0 < s.cpu.ncli → s.cpu.flIf = false)
    (h : schedSave me ptable state s = .ok i r) :
    r = s ∧ i = s.cpu.intena ∧ s.cpu.ncli = 1 ∧ (s.lock ptable).HeldBy me := by
  obtain ⟨⟨n, i₀, f⟩, l⟩ := s
  obtain ⟨j, hp, hj⟩ := pushpop_eq hn hf
  obtain ⟨k, hp', hk⟩ := pushpop_eq (s := ⟨⟨n, j, f⟩, l⟩) hn hf
  rw [schedSave, Lib.bind_ok hp, Lib.bind_ok (holding_of_pushpop hp')] at h
  by_cases hl : (l ptable).HeldBy me
  · simp only [hl, decide_true, if_true] at h
    -- with interrupts on or at another depth than 1, a check fails
    cases f with
    | true =>
      rw [Lib.bind_error (mycpu_error rfl)] at h
      cases h
    | false =>
      rw [Lib.bind_ok (mycpu_eq rfl)] at h
      by_cases h1 : n = 1
      · have hj' : j = i₀ := hj (by simp [h1])
        have hk' : k = j := hk (by simp [h1])
        subst hk' hj' h1
        simp only [ne_eq, not_true_eq_false, if_false] at h
        by_cases hst : state = .running
        · rw [if_pos hst] at h
          cases h
        · rw [if_neg hst] at h
          cases h
          exact ⟨rfl, rfl, rfl, hl⟩
      · rw [if_pos h1] at h
        cases h
  · simp only [hl] at h
    cases h

section
variable [DecidableEq L]

theorem modifyLock_eq (f : Spinlock → Spinlock) (s : Core L) :
    modifyLock lk f s = .ok () ⟨s.cpu, update s.lock lk (f (s.lock lk))⟩ := rfl

theorem release_eq {s : Core L} (hf : s.cpu.flIf = false) (hn : 1 ≤ s.cpu.ncli)
    (hl : (s.lock lk).HeldBy me) :
    release me lk s = .ok () ⟨⟨s.cpu.ncli - 1, s.cpu.intena, decide (s.cpu.ncli = 1) && s.cpu.intena⟩,
      update s.lock lk ⟨0, none⟩⟩ := by
  have hh : holding me lk s = _ := holding_off hf hn
  rw [decide_eq_true hl] at hh
  have hp := popcli_eq (s := ⟨s.cpu, update s.lock lk ⟨0, none⟩⟩) hf hn
  rw [release, Lib.bind_ok hh]
  simp only [if_true]
  rw [Lib.bind_ok (modifyLock_eq _ _), Lib.bind_ok (modifyLock_eq _ _)]
  simp only [update_idem, update_self]
  exact hp

theorem acquireXchg_eq (me : Nat) (lk : L) {s : Core L} (hf : s.cpu.flIf = false) :
    ((s.lock lk).locked ≠ 0 ∧ acquireXchg me lk s =
      .ok false ⟨s.cpu, update s.lock lk { s.lock lk with locked := 1 }⟩) ∨
    ((s.lock lk).locked = 0 ∧ acquireXchg me lk s =
      .ok true ⟨s.cpu, update s.lock lk ⟨1, some me⟩⟩) := by
  by_cases h : (s.lock lk).locked = 0
  · refine .inr ⟨h, ?_⟩
    have hc := mycpu_eq (s := ⟨s.cpu, update s.lock lk { s.lock lk with locked := 1 }⟩) hf
    refine (Lib.bind_ok rfl).trans ((Lib.bind_ok rfl).trans ?_)
    rw [if_neg (by simpa using h)]
    refine (Lib.bind_ok hc).trans ((Lib.bind_ok rfl).trans ?_)
    simp [pure, EStateM.pure]
  · refine .inl ⟨h, ?_⟩
    refine (Lib.bind_ok rfl).trans ((Lib.bind_ok rfl).trans ?_)
    rw [if_pos h]
    rfl

end

/-! ## Threads -/

/-- Where an interrupt can come. -/
def KPc.Interruptible : KPc L → Prop
  | .flags eflags _ => eflags = true
  | .spin _ _ | .locked | .back => False
  | .code | .top | .enabled => True

/-- In the scheduler, before it has `ptable.lock`. -/
def KPc.idle : KPc L → Bool
  | .top | .enabled | .flags _ .scheduler | .spin .scheduler _ => true
  | _ => false

/-- The pushes and locks that each place allows. -/
structure KThread.Fits (ptable : L) (k : KThread L) : Prop where
  frames : ∀ f ∈ k.frames, f.Interruptible
  idle : k.pc.idle = true → k.pushes = 0 ∧ k.held = []
  locked : k.pc = .locked ∨ k.pc = .back → k.pushes = 0 ∧ k.held = [ptable]
  spin : ∀ call lk, k.pc = .spin call lk → call.lock ptable = some lk
  nodup : k.held.Nodup

/-- `ncli` counts the pushes, and interrupts are off while it is not 0. -/
structure CliInv (ptable : L) (hw : Cpu) (k : KThread L) : Prop where
  fits : k.Fits ptable
  ncli : hw.ncli = k.depth
  off : 0 < k.depth → hw.flIf = false
  flags : ∀ eflags call, k.pc = .flags eflags call → hw.flIf = eflags
  intena : 0 < k.depth → k.pc ≠ .back → hw.intena = k.outer

/-- A context to switch to, which holds `ptable.lock` alone. -/
def Context.Ok (ptable : L) : Context L → Prop
  | .forkret => True
  | .sched intena th => th.Fits ptable ∧ th.pc = .code ∧ th.pushes = 0 ∧ th.held = [ptable] ∧
      intena = th.outer

/-- The locks that the running threads have are the ones marked as theirs. -/
structure Owned (held : Nat → List L) (lock : L → Spinlock) : Prop where
  held_iff : ∀ c lk, lk ∈ held c ↔ (lock lk).HeldBy c
  marked : ∀ lk, (lock lk).locked ≠ 0 → (lock lk).cpu ≠ none

/-- `CliInv` on every CPU, and each lock has the holder that its fields name. -/
structure SmpInv (ptable : L) (s : Smp L) : Prop where
  cpu : ∀ c, CliInv ptable (s.cpu c).hw (s.cpu c).cur
  scheduler : ∀ c k, (s.cpu c).scheduler = some k → k.Fits ptable ∧ k.pc = .locked
  context : ∀ p x, s.context p = some x → x.Ok ptable
  owned : Owned (fun c => (s.cpu c).cur.held) s.lock

/-! ## One CPU and its thread -/

section
variable {ptable : L} {hw : Cpu} {k k' : KThread L}
variable {call : PushCall L}

theorem KThread.Fits.of_code (hf : ∀ f ∈ k.frames, f.Interruptible) (hpc : k.pc = .code)
    (hn : k.held.Nodup) : k.Fits ptable where
  frames := hf
  idle h := by rw [hpc] at h; cases h
  locked h := by rw [hpc] at h; rcases h with h | h <;> cases h
  spin call lk h := by rw [hpc] at h; cases h
  nodup := hn

theorem KThread.Fits.depth_locked (h : k.Fits ptable) (hpc : k.pc = .locked ∨ k.pc = .back) :
    k.depth = 1 := by
  obtain ⟨hp, hh⟩ := h.locked hpc
  rcases hpc with hpc | hpc <;> simp [KThread.depth, hp, hh, hpc, KPc.spinning]

section
variable (h : CliInv ptable hw k)
include h

theorem CliInv.flags_read (hpc : k.pc = .code ∧ call ≠ .scheduler ∨ k.pc = .enabled) :
    CliInv ptable hw { k with pc := .flags hw.flIf call } := by
  have hd : ({ k with pc := .flags hw.flIf call } : KThread L).depth = k.depth := by
    rcases hpc with ⟨hpc, -⟩ | hpc <;> simp [KThread.depth, hpc, KPc.spinning]
  have hb : k.pc ≠ .back := by
    rcases hpc with ⟨hpc, -⟩ | hpc <;> simp [hpc]
  refine ⟨⟨h.fits.frames, fun hi => ?_, fun hl => ?_, fun c lk hs => ?_, h.fits.nodup⟩,
    ?_, ?_, ?_, ?_⟩
  · rcases hpc with ⟨-, hc⟩ | hpc
    · cases call <;> simp_all [KPc.idle]
    · exact h.fits.idle (by rw [hpc]; rfl)
  · simp at hl
  · cases hs
  · rw [hd, h.ncli]
  · rw [hd]
    exact h.off
  · intro e c he
    cases he
    rfl
  · rw [hd]
    exact fun hp _ => h.intena hp hb

theorem CliInv.pushed {eflags : Bool} (hpc : k.pc = .flags eflags call)
    (hk : k'.Fits ptable) (hd : k'.depth = k.depth + 1)
    (ho : k'.outer = (k.noting hw.flIf).outer) (hpc' : ∀ e c, k'.pc ≠ .flags e c) :
    CliInv ptable ⟨hw.ncli + 1, if hw.ncli = 0 then eflags else hw.intena, false⟩ k' := by
  refine ⟨hk, ?_, fun _ => rfl, fun e c he => absurd he (hpc' e c), fun _ _ => ?_⟩
  · rw [hd, h.ncli]
    rfl
  · show (if hw.ncli = 0 then eflags else hw.intena) = k'.outer
    rw [ho, KThread.noting, h.ncli, h.flags eflags call hpc]
    by_cases h0 : k.depth = 0
    · simp [h0]
    · simp only [Int.natCast_eq_zero, h0, if_false]
      exact h.intena (by omega) (by simp [hpc])

theorem CliInv.popped (hk : k'.Fits ptable) (hd : k.depth = k'.depth + 1)
    (ho : k'.outer = k.outer) (hb : 0 < k'.depth → k.pc ≠ .back)
    (hpc' : ∀ e c, k'.pc ≠ .flags e c) :
    CliInv ptable ⟨hw.ncli - 1, hw.intena, decide (hw.ncli = 1) && hw.intena⟩ k' := by
  have hn : hw.ncli = k'.depth + 1 := by rw [h.ncli, hd]; rfl
  refine ⟨hk, ?_, fun hp => ?_, fun e c he => absurd he (hpc' e c), fun hp _ => ?_⟩
  · show hw.ncli - 1 = k'.depth
    omega
  · have h1 : hw.ncli ≠ 1 := by omega
    simp [h1]
  · rw [ho]
    exact h.intena (by omega) (hb hp)

theorem CliInv.depth_of_on (hf : hw.flIf = true) : k.depth = 0 := by
  by_contra h0
  have := h.off (by omega)
  simp [hf] at this

theorem CliInv.interrupted (hf : hw.flIf = true) :
    CliInv ptable { hw with flIf := false } { k with pc := .code, frames := k.pc :: k.frames } := by
  have h0 := h.depth_of_on hf
  have hi : k.pc.Interruptible := by
    cases hpc : k.pc with
    | flags e c => exact (h.flags e c hpc).symm.trans hf
    | spin c lk => simp [KThread.depth, hpc, KPc.spinning] at h0
    | locked => have := h.fits.depth_locked (.inl hpc); omega
    | back => have := h.fits.depth_locked (.inr hpc); omega
    | _ => trivial
  have hd : ({ k with pc := .code, frames := k.pc :: k.frames } : KThread L).depth = 0 := by
    simp only [KThread.depth] at h0 ⊢
    simp only [KPc.spinning, Bool.toNat_false]
    omega
  refine ⟨.of_code ?_ rfl h.fits.nodup, ?_, fun _ => rfl, fun e c he => (nomatch he), fun hp => ?_⟩
  · intro f hf
    rcases List.mem_cons.1 hf with rfl | hf
    · exact hi
    · exact h.fits.frames f hf
  · rw [hd]
    exact h.ncli.trans (by rw [h0])
  · omega

theorem CliInv.returned (hpc : k.pc = .code) {f : KPc L} {fs : List (KPc L)}
    (hf : k.frames = f :: fs) (hp : k.pushes = 0) (hh : k.held = []) :
    CliInv ptable { hw with flIf := true } { k with pc := f, frames := fs } := by
  have hi := h.fits.frames f (by simp [hf])
  have hd : ({ k with pc := f, frames := fs } : KThread L).depth = 0 := by
    cases f <;> simp_all [KThread.depth, KPc.spinning, KPc.Interruptible]
  have hk : k.depth = 0 := by simp [KThread.depth, hpc, hp, hh, KPc.spinning]
  refine ⟨⟨fun g hg => h.fits.frames g (by simp [hf, hg]), fun _ => ⟨hp, hh⟩, fun hl => ?_,
    fun c lk hs => ?_, h.fits.nodup⟩, ?_, ?_, fun e c he => ?_, ?_⟩
  · rcases hl with rfl | rfl <;> cases hi
  · subst hs
    cases hi
  · rw [hd]
    exact h.ncli.trans (by rw [hk])
  · omega
  · subst he
    exact hi.symm
  · omega

theorem CliInv.enabled (hpc : k.pc = .top) :
    CliInv ptable { hw with flIf := true } { k with pc := .enabled } := by
  obtain ⟨hp, hh⟩ := h.fits.idle (by rw [hpc]; rfl)
  have hd : ({ k with pc := .enabled } : KThread L).depth = 0 := by
    simp [KThread.depth, hp, hh, KPc.spinning]
  have hk : k.depth = 0 := by simp [KThread.depth, hpc, hp, hh, KPc.spinning]
  refine ⟨⟨h.fits.frames, fun _ => ⟨hp, hh⟩, fun hl => ?_, fun c lk hs => (nomatch hs), h.fits.nodup⟩,
    ?_, ?_, fun e c he => (nomatch he), ?_⟩
  · simp at hl
  · rw [hd]
    exact h.ncli.trans (by rw [hk])
  · omega
  · omega

theorem CliInv.locked {lk : L} (hpc : k.pc = .spin call lk)
    (hl : lk ∉ k.held) : CliInv ptable hw { k with pc := call.ret, held := lk :: k.held } := by
  have hd : ({ k with pc := call.ret, held := lk :: k.held } : KThread L).depth = k.depth := by
    cases call <;> simp [KThread.depth, hpc, KPc.spinning, PushCall.ret, Nat.add_assoc]
  have hcall := h.fits.spin call lk hpc
  have hfits : ({ k with pc := call.ret, held := lk :: k.held } : KThread L).Fits ptable := by
    refine ⟨h.fits.frames, fun hi => ?_, fun hl' => ?_, fun c l hs => ?_,
      List.nodup_cons.2 ⟨hl, h.fits.nodup⟩⟩
    · cases call <;> cases hi
    · cases call with
      | scheduler =>
        obtain ⟨hp, hh⟩ := h.fits.idle (by rw [hpc]; rfl)
        cases hcall
        exact ⟨hp, by rw [hh]⟩
      | pushcli | acquire => simp [PushCall.ret] at hl'
    · cases call <;> cases hs
  refine ⟨hfits, by rw [hd, h.ncli], by rw [hd]; exact h.off, fun e c he => ?_, fun hp _ => ?_⟩
  · cases call <;> cases he
  · rw [hd] at hp
    exact h.intena hp (by simp [hpc])

theorem CliInv.saved (hpc : k.pc = .code) (hn : hw.ncli = 1)
    (hl : ptable ∈ k.held) : (Context.sched hw.intena k).Ok ptable := by
  have hd : k.depth = 1 := by have := h.ncli; omega
  have hlen : k.pushes + k.held.length = 1 := by
    simpa [KThread.depth, hpc, KPc.spinning] using hd
  have hpos : 0 < k.held.length := List.length_pos_of_mem hl
  obtain ⟨x, hx⟩ := List.length_eq_one_iff.1 (show k.held.length = 1 by omega)
  have hxp : ptable = x := by simpa [hx] using hl
  exact ⟨h.fits, hpc, by omega, by rw [hx, hxp], h.intena (by omega) (by simp [hpc])⟩

theorem CliInv.back (hn : hw.ncli = 1) {sch : KThread L}
    (hs : sch.Fits ptable) (hpc : sch.pc = .locked) :
    CliInv ptable hw { sch with pc := .back } := by
  obtain ⟨hp, hh⟩ := hs.locked (.inl hpc)
  have hd : ({ sch with pc := .back } : KThread L).depth = 1 := by
    simp [KThread.depth, hp, hh, KPc.spinning]
  refine ⟨⟨hs.frames, fun hi => (nomatch hi), fun _ => ⟨hp, hh⟩, fun c lk he => (nomatch he),
    hs.nodup⟩, ?_, ?_, fun e c he => (nomatch he), fun _ hb => absurd rfl hb⟩
  · rw [hd, hn]
    rfl
  · intro _
    have := h.ncli
    exact h.off (by omega)

theorem CliInv.resumed (hpc : k.pc = .locked) {th : KThread L} {intena : Bool}
    (ht : (Context.sched intena th).Ok ptable) : CliInv ptable { hw with intena } th := by
  obtain ⟨hf, hc, hp, hh, hi⟩ := ht
  have hd : th.depth = 1 := by simp [KThread.depth, hp, hh, hc, KPc.spinning]
  have hk := h.fits.depth_locked (.inl hpc)
  refine ⟨hf, ?_, fun _ => h.off (by omega), fun e c he => ?_, fun _ _ => hi⟩
  · rw [hd]
    exact h.ncli.trans (by rw [hk])
  · rw [hc] at he
    cases he

theorem CliInv.forkret (hpc : k.pc = .locked) :
    CliInv ptable hw { pc := .code, held := [ptable], outer := k.outer } := by
  have hk := h.fits.depth_locked (.inl hpc)
  refine ⟨.of_code (by simp) rfl (by simp), ?_, fun _ => h.off (by omega),
    fun e c he => (nomatch he), fun _ _ => h.intena (by omega) (by simp [hpc])⟩
  exact h.ncli.trans (by rw [hk]; rfl)

end

end

end

end Xv6
