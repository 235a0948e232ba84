import Xv6.Kernel.Proof.Cli
import Xv6.Lib.Run

/-!
# Interrupts are off while `ncli > 0`, and come back as they were

Every CPU and its thread meet `CliInv`. A thread leaves a CPU in `sched` at depth 1, where the
scheduler that goes on is at depth 1 too, and `intena` goes with it on its stack; so the invariant
holds again on the CPU where it comes back. Only the scheduler, when it goes on after `swtch`, finds
the `intena` of another thread.
-/

namespace Xv6

open Function

section
variable {L : Type}

section
variable [DecidableEq L] {ptable : L} {held : Nat → List L} {lock : L → Spinlock} {c : Nat} {lk : L}

omit [DecidableEq L] in
theorem Owned.excl (h : Owned held lock) {d : Nat} (hc : lk ∈ held c) (hd : lk ∈ held d) : c = d :=
  Option.some.inj (((h.held_iff c lk).1 hc).2.symm.trans ((h.held_iff d lk).1 hd).2)

theorem Owned.set (h : Owned held lock) {held' : Nat → List L} {l' : Spinlock}
    (hl : l'.locked ≠ 0 → l'.cpu ≠ none) (hh : ∀ c' l, l ∈ held' c' ↔
      (update lock lk l' l).HeldBy c') :
    Owned held' (update lock lk l') := by
  refine ⟨hh, fun l => ?_⟩
  rcases eq_or_ne l lk with rfl | hne
  · simpa using hl
  · simpa [update_of_ne hne] using h.marked l

theorem Owned.take (h : Owned held lock) (hl : (lock lk).locked = 0) :
    Owned (update held c (lk :: held c)) (update lock lk ⟨1, some c⟩) := by
  refine h.set (by simp) fun c' l => ?_
  have hfree : ∀ d, lk ∉ held d := fun d hd => ((h.held_iff d lk).1 hd).1 hl
  rcases eq_or_ne l lk with rfl | hne
  · rw [update_self]
    rcases eq_or_ne c' c with rfl | hc
    · simp [Spinlock.HeldBy]
    · simp [update_of_ne hc, Spinlock.HeldBy, hfree, hc.symm]
  · rw [update_of_ne hne, ← h.held_iff c' l]
    rcases eq_or_ne c' c with rfl | hc
    · simp [hne]
    · rw [update_of_ne hc]

theorem Owned.give (h : Owned held lock) (hl : lk ∈ held c) (hn : (held c).Nodup) :
    Owned (update held c ((held c).erase lk)) (update lock lk ⟨0, none⟩) := by
  refine h.set (by simp) fun c' l => ?_
  rcases eq_or_ne l lk with rfl | hne
  · rw [update_self]
    rcases eq_or_ne c' c with rfl | hc
    · simp [Spinlock.HeldBy, hn.mem_erase_iff]
    · -- the lock is marked as that of `c` only
      have hc' : l ∉ held c' := fun hd => hc (h.excl hd hl)
      simp [update_of_ne hc, Spinlock.HeldBy, hc']
  · rw [update_of_ne hne, ← h.held_iff c' l]
    rcases eq_or_ne c' c with rfl | hc
    · simp [List.mem_erase_of_ne hne]
    · rw [update_of_ne hc]

theorem Owned.spun (h : Owned held lock) (hl : (lock lk).locked ≠ 0) :
    Owned held (update lock lk { lock lk with locked := 1 }) := by
  refine h.set (fun _ => h.marked lk hl) fun c' l => ?_
  rw [h.held_iff c' l]
  rcases eq_or_ne l lk with rfl | hne
  · simp [Spinlock.HeldBy, hl]
  · rw [update_of_ne hne]

end

variable {α : Type} {x : CoreM L α} {a : α} {r : Core L}

/-- CPU `c` goes on as `k`. -/
def Smp.goto (s : Smp L) (c : Nat) (r : Core L) (k : KThread L) : Smp L :=
  { s with cpu := update s.cpu c { s.cpu c with hw := r.cpu, cur := k }, lock := r.lock }

theorem on_eq_some {s s' : Smp L} {c : Nat} (h : s.on c x = some (a, s')) :
    ∃ r, x ⟨(s.cpu c).hw, s.lock⟩ = .ok a r ∧ s' = s.goto c r (s.cpu c).cur := by
  unfold Smp.on at h
  split at h
  · rename_i b r hx
    cases h
    exact ⟨r, hx, rfl⟩
  · cases h

theorem on_of_ok {s : Smp L} {c : Nat} (h : x ⟨(s.cpu c).hw, s.lock⟩ = .ok a r) : s.on c x = some
    (a, s.goto c r (s.cpu c).cur) := by
  unfold Smp.on
  rw [h]
  rfl

@[simp] theorem goto_setCur {s : Smp L} {c : Nat} {k k' : KThread L} :
    (s.goto c r k).setCur c k' = s.goto c r k' := by
  simp [Smp.goto, Smp.setCur]

theorem on_setCur {s : Smp L} {c : Nat} (h : x ⟨(s.cpu c).hw, s.lock⟩ = .ok a r) (k : KThread L) :
    (s.on c x).map (fun q => q.2.setCur c k) = some (s.goto c r k) := by
  rw [on_of_ok h, Option.map_some, goto_setCur]

section
variable {ptable : L} {s s' : Smp L} {c : Nat}
variable {r : Core L} {k : KThread L} {p : Slot}

theorem SmpInv.set (h : SmpInv ptable s) {x : CpuState L} {lock : L → Spinlock}
    {state : Slot → ProcState} {context : Slot → Option (Context L)} (hx : CliInv ptable x.hw x.cur)
    (hsch : ∀ k, x.scheduler = some k → k.Fits ptable ∧ k.pc = .locked)
    (hctx : ∀ p y, context p = some y → y.Ok ptable)
    (ho : Owned (update (fun d => (s.cpu d).cur.held) c x.cur.held) lock) :
    SmpInv ptable { cpu := update s.cpu c x, lock, state, context } := by
  refine ⟨fun d => ?_, fun d sch hs => ?_, hctx, ?_⟩
  · rcases eq_or_ne d c with rfl | hd
    · simpa using hx
    · simpa [update_of_ne hd] using h.cpu d
  · rcases eq_or_ne d c with rfl | hd
    · exact hsch sch (by simpa using hs)
    · exact h.scheduler d sch (by simpa [update_of_ne hd] using hs)
  · refine cast (congrArg (Owned · lock) ?_) ho
    funext d
    rcases eq_or_ne d c with rfl | hd
    · simp
    · simp [update_of_ne hd]

theorem SmpInv.goto (h : SmpInv ptable s) (hk : CliInv ptable r.cpu k)
    (ho : Owned (update (fun d => (s.cpu d).cur.held) c k.held) r.lock) :
    SmpInv ptable (s.goto c r k) :=
  h.set hk (h.scheduler c) h.context ho

theorem SmpInv.same_held (h : SmpInv ptable s) {held : List L} (hh : held = (s.cpu c).cur.held) :
    Owned (update (fun d => (s.cpu d).cur.held) c held) s.lock := by
  rw [hh, update_eq_self]
  exact h.owned

theorem SmpInv.goto_same (h : SmpInv ptable s) (hk : CliInv ptable r.cpu k)
    (hh : k.held = (s.cpu c).cur.held) (hl : r.lock = s.lock) :
    SmpInv ptable (s.goto c r k) :=
  h.goto hk (by rw [hl]; exact h.same_held hh)

theorem goto_self (s : Smp L) (c : Nat) : s.goto c ⟨(s.cpu c).hw, s.lock⟩ (s.cpu c).cur = s := by
  simp [Smp.goto]

theorem SmpInv.context_update (h : SmpInv ptable s) {ctx : Option (Context L)}
    (hctx : ∀ x, ctx = some x → x.Ok ptable) :
    ∀ q y, update s.context p ctx q = some y → y.Ok ptable := by
  intro q y hy
  rcases eq_or_ne q p with rfl | hq
  · exact hctx y (by simpa using hy)
  · exact h.context q y (by simpa [update_of_ne hq] using hy)

theorem setCur_eq (s : Smp L) (c : Nat) (k : KThread L) :
    s.setCur c k = s.goto c ⟨(s.cpu c).hw, s.lock⟩ k := rfl

theorem setCur_setFlag (s : Smp L) (c : Nat) (k : KThread L) (f : Bool) :
    (s.setCur c k).setFlag c f = s.goto c ⟨{ (s.cpu c).hw with flIf := f }, s.lock⟩ k := by
  simp [Smp.setCur, Smp.setFlag, Smp.goto]

section
variable (h : SmpInv ptable s)
include h

theorem smpInv_cli {eflags : Bool} {call : PushCall L} (hpc : (s.cpu c).cur.pc = .flags eflags call)
    (hs : stepCli ptable s c (s.cpu c).cur eflags call = some s') : SmpInv ptable s' := by
  have hc := h.cpu c
  have hfits := hc.fits
  unfold stepCli at hs
  cases hcall : call.lock ptable with
  | none =>
    simp only [hcall, Option.map_eq_some_iff] at hs
    obtain ⟨⟨a, s₁⟩, hon, rfl⟩ := hs
    obtain ⟨r, hx, rfl⟩ := on_eq_some hon
    rw [pushcliFrom_eq] at hx
    cases hx
    rw [goto_setCur]
    refine h.goto_same (hc.pushed hpc (.of_code hfits.frames rfl hfits.nodup) ?_ rfl ?_) rfl rfl
    · simp [KThread.depth, hpc, KPc.spinning, KThread.noting]
      omega
    · intro e c' he
      cases he
  | some lk =>
    simp only [hcall, Option.map_eq_some_iff] at hs
    obtain ⟨⟨a, s₁⟩, hon, rfl⟩ := hs
    obtain ⟨r, hx, rfl⟩ := on_eq_some hon
    have hx' := acquireFrom_ok (by show 0 ≤ (s.cpu c).hw.ncli; rw [hc.ncli]; omega) hx
    rw [pushcliFrom_eq] at hx'
    cases hx'
    rw [goto_setCur]
    refine h.goto_same (hc.pushed hpc ⟨hfits.frames, fun hi => ?_, fun hl => ?_, fun c' l hsp => ?_,
      hfits.nodup⟩ ?_ rfl ?_) rfl rfl
    · cases call with
      | scheduler => exact hfits.idle (by rw [hpc]; rfl)
      | pushcli | acquire => cases hi
    · rcases hl with hl | hl <;> cases hl
    · cases hsp
      exact hcall
    · simp [KThread.depth, hpc, KPc.spinning, KThread.noting]
    · intro e c' he
      cases he

theorem smpInv_sched {state : ProcState} (hpc : (s.cpu c).cur.pc = .code)
    (hs : stepSched ptable s c (s.cpu c).cur state = some s') : SmpInv ptable s' := by
  have hc := h.cpu c
  unfold stepSched at hs
  split at hs
  · rename_i p sch hp hsch
    simp only [Option.map_eq_some_iff] at hs
    obtain ⟨⟨i, s₁⟩, hon, rfl⟩ := hs
    obtain ⟨r, hx, rfl⟩ := on_eq_some hon
    obtain ⟨rfl, rfl, hn, hl⟩ := schedSave_ok (by show 0 ≤ (s.cpu c).hw.ncli; rw [hc.ncli]; omega)
      (fun hpos => hc.off (by have := hc.ncli; simp only at hpos; omega)) hx
    rw [goto_self]
    obtain ⟨hfits, hlocked⟩ := h.scheduler c sch hsch
    have hk : ptable ∈ (s.cpu c).cur.held := (h.owned.held_iff c ptable).2 hl
    have hok := hc.saved hpc hn hk
    refine h.set (hc.back hn hfits hlocked) (fun k hk => (nomatch hk))
      (h.context_update fun x hx => ?_) (h.same_held ?_)
    · cases hx
      exact hok
    · exact (hfits.locked (.inl hlocked)).2.trans hok.2.2.2.1.symm
  · cases hs

theorem smpInv_dispatch (hpc : (s.cpu c).cur.pc = .locked)
    (hs : stepDispatch ptable s c (s.cpu c).cur p = some s') : SmpInv ptable s' := by
  have hc := h.cpu c
  have hd := hc.fits.depth_locked (.inl hpc)
  have hheld := (hc.fits.locked (.inl hpc)).2
  have hoff : (s.cpu c).hw.flIf = false := hc.off (by omega)
  have hn : 1 ≤ (s.cpu c).hw.ncli := by have := hc.ncli; omega
  have hctx : ∀ q y, update s.context p none q = some y → y.Ok ptable :=
    h.context_update fun x hx => (nomatch hx)
  unfold stepDispatch at hs
  rw [on_of_ok (pushpop_off (s := ⟨(s.cpu c).hw, s.lock⟩) hoff hn), goto_self] at hs
  split at hs
  · simp only [Option.bind_some] at hs
    split at hs
    · rename_i intena th hth
      have hok := h.context p _ hth
      have hr : schedRestore intena ⟨((s.swtchIn c p th).cpu c).hw, (s.swtchIn c p th).lock⟩ =
          .ok () ⟨{ (s.cpu c).hw with intena }, s.lock⟩ := by
        simp only [Smp.swtchIn, update_self]
        exact (Lib.bind_ok (mycpu_eq hoff)).trans rfl
      rw [on_of_ok hr] at hs
      have he : (s.swtchIn c p th).goto c ⟨{ (s.cpu c).hw with intena }, s.lock⟩
          ((s.swtchIn c p th).cpu c).cur =
        { cpu := update s.cpu c ⟨{ (s.cpu c).hw with intena }, some p, th, some (s.cpu c).cur⟩
          lock := s.lock
          state := update s.state p .running
          context := update s.context p none } := by
        simp [Smp.goto, Smp.swtchIn]
      cases hs
      rw [he]
      exact h.set (hc.resumed hpc hok) (fun k hk => by cases hk; exact ⟨hc.fits, hpc⟩) hctx
        (h.same_held (hok.2.2.2.1.trans hheld.symm))
    · cases hs
      exact h.set (hc.forkret hpc) (fun k hk => by cases hk; exact ⟨hc.fits, hpc⟩) hctx
        (h.same_held hheld.symm)
    · cases hs
  · cases hs

theorem SmpInv.popcli (hp : 0 < (s.cpu c).cur.pushes) :
    popcli ⟨(s.cpu c).hw, s.lock⟩ = .ok () ⟨⟨(s.cpu c).hw.ncli - 1, (s.cpu c).hw.intena,
      decide ((s.cpu c).hw.ncli = 1) && (s.cpu c).hw.intena⟩, s.lock⟩ := by
  have hc := h.cpu c
  have hd : 0 < (s.cpu c).cur.depth := by
    unfold KThread.depth
    omega
  have hn := hc.ncli
  exact popcli_eq (hc.off hd) (by show 1 ≤ (s.cpu c).hw.ncli; omega)

theorem smpInv_popcli (hpc : (s.cpu c).cur.pc = .code) (hp : 0 < (s.cpu c).cur.pushes)
    (hs : (s.on c popcli).map (fun r =>
      r.2.setCur c { (s.cpu c).cur with pushes := (s.cpu c).cur.pushes - 1 }) = some s') :
    SmpInv ptable s' := by
  have hc := h.cpu c
  rw [on_setCur (h.popcli hp)] at hs
  cases hs
  refine h.goto_same (hc.popped (.of_code hc.fits.frames hpc hc.fits.nodup) ?_ rfl ?_ ?_) rfl rfl
  · simp only [KThread.depth]
    omega
  · simp [hpc]
  · simp [hpc]

theorem smpInv_assign (p : Slot) (state : ProcState) :
    SmpInv ptable { s with
      state := update s.state p state
      context := update s.context p (Context.assign state (s.context p)) } := by
  refine ⟨h.cpu, h.scheduler, h.context_update fun x hx => ?_, h.owned⟩
  cases state with
  | embryo => cases hx; trivial
  | unused => cases hx
  | _ => exact h.context p x hx

end

theorem smpInv_boot (ready : Slot → Bool) : SmpInv ptable (smpBoot ready) := by
  refine ⟨fun c => ?_, fun c k hk => ?_, fun p x hx => ?_,
    fun c lk => ?_, fun lk hl => absurd rfl hl⟩
  · exact ⟨⟨by simp [smpBoot], fun _ => ⟨rfl, rfl⟩, fun hl => by simp [smpBoot] at hl,
      fun call lk he => by simp [smpBoot] at he, by simp [smpBoot]⟩, rfl, fun _ => rfl,
      fun e call he => by simp [smpBoot] at he, fun _ _ => rfl⟩
  · cases hk
  · simp only [smpBoot] at hx
    split at hx
    · cases hx
      trivial
    · cases hx
  · simp [smpBoot, Spinlock.HeldBy]

section
variable [DecidableEq L]

theorem smpInv_xchg (h : SmpInv ptable s) {call : PushCall L} {lk : L}
    (hpc : (s.cpu c).cur.pc = .spin call lk) (hs : stepXchg s c (s.cpu c).cur call lk = some s') :
    SmpInv ptable s' := by
  have hc := h.cpu c
  have hoff : (s.cpu c).hw.flIf = false := hc.off (by simp [KThread.depth, hpc, KPc.spinning])
  simp only [stepXchg, Option.map_eq_some_iff] at hs
  obtain ⟨⟨a, s₁⟩, hon, rfl⟩ := hs
  obtain ⟨r, hx, rfl⟩ := on_eq_some hon
  rcases acquireXchg_eq c lk (s := ⟨(s.cpu c).hw, s.lock⟩) hoff with ⟨hl, he⟩ | ⟨hl, he⟩
  · cases he.symm.trans hx
    simp only [Bool.false_eq_true, if_false]
    refine h.goto hc ?_
    rw [update_eq_self]
    exact h.owned.spun hl
  · cases he.symm.trans hx
    simp only [if_true, goto_setCur]
    have hfree : lk ∉ (s.cpu c).cur.held := fun hm => ((h.owned.held_iff c lk).1 hm).1 hl
    exact h.goto (hc.locked hpc hfree) (h.owned.take hl)

theorem SmpInv.release (h : SmpInv ptable s) {lk : L} (hl : lk ∈ (s.cpu c).cur.held) :
    release c lk ⟨(s.cpu c).hw, s.lock⟩ = .ok ()
      ⟨⟨(s.cpu c).hw.ncli - 1, (s.cpu c).hw.intena,
        decide ((s.cpu c).hw.ncli = 1) && (s.cpu c).hw.intena⟩, update s.lock lk ⟨0, none⟩⟩ := by
  have hc := h.cpu c
  have hd : 0 < (s.cpu c).cur.depth := by
    have := List.length_pos_of_mem hl
    unfold KThread.depth
    omega
  have hn := hc.ncli
  exact release_eq (hc.off hd) (by show 1 ≤ (s.cpu c).hw.ncli; omega) ((h.owned.held_iff c lk).1 hl)

theorem depth_erase {k : KThread L} {lk : L} (hl : lk ∈ k.held) (pc : KPc L)
    (hpc : pc.spinning = k.pc.spinning) :
    k.depth = ({ k with pc, held := k.held.erase lk } : KThread L).depth + 1 := by
  have hlen := List.length_erase_of_mem hl
  have hpos := List.length_pos_of_mem hl
  simp only [KThread.depth, hpc, hlen]
  omega

theorem smpInv_release (h : SmpInv ptable s) {lk : L} (hl : lk ∈ (s.cpu c).cur.held) {pc : KPc L}
    (hfits : ({ (s.cpu c).cur with pc, held := (s.cpu c).cur.held.erase lk } : KThread L).Fits ptable)
    (hpc : pc = .code ∨ pc = .top) (hb : (s.cpu c).cur.pc = .back → pc = .top)
    (hsp : (s.cpu c).cur.pc.spinning = false)
    (hs : (s.on c (release c lk)).map (fun r =>
      r.2.setCur c { (s.cpu c).cur with pc, held := (s.cpu c).cur.held.erase lk }) = some s') :
    SmpInv ptable s' := by
  have hc := h.cpu c
  rw [on_setCur (h.release hl)] at hs
  cases hs
  have hsp' : pc.spinning = (s.cpu c).cur.pc.spinning := by
    rw [hsp]
    rcases hpc with rfl | rfl <;> rfl
  refine h.goto (hc.popped hfits (depth_erase hl pc hsp') rfl ?_ ?_) (h.owned.give hl hc.fits.nodup)
  · intro hpos hback
    -- from `back` the scheduler goes to `top`, at depth 0
    obtain rfl := hb hback
    have hp : (s.cpu c).cur.pushes = 0 := (hfits.idle rfl).1
    have hh : (s.cpu c).cur.held.erase lk = [] := (hfits.idle rfl).2
    simp [KThread.depth, hp, hh, KPc.spinning] at hpos
  · intro e c' he
    rcases hpc with rfl | rfl <;> cases he

theorem smpInv_unlock (h : SmpInv ptable s)
    (hpc : (s.cpu c).cur.pc = .locked ∨ (s.cpu c).cur.pc = .back)
    (hs : (s.on c (release c ptable)).map (fun r => r.2.setCur c
      { (s.cpu c).cur with pc := .top, held := (s.cpu c).cur.held.erase ptable }) = some s') :
    SmpInv ptable s' := by
  have hfits := (h.cpu c).fits
  obtain ⟨hp, hh⟩ := hfits.locked hpc
  refine smpInv_release h (by simp [hh]) ⟨hfits.frames, fun _ => ⟨hp, by simp [hh]⟩, fun hl => ?_,
    fun c' l he => ?_, hfits.nodup.erase _⟩ (.inr rfl) (fun _ => rfl) ?_ hs
  · rcases hl with hl | hl <;> cases hl
  · cases he
  · rcases hpc with hpc | hpc <;> rw [hpc] <;> rfl

theorem smpInv_step {a : Nat × SmpAct L} (h : SmpInv ptable s) (hs : smpStep ptable s a = some s') :
    SmpInv ptable s' := by
  obtain ⟨c, act⟩ := a
  have hc := h.cpu c
  simp only [smpStep, setCur_setFlag] at hs
  split at hs
  case h_1 _ _ hpc =>
    cases hs
    rw [setCur_eq]
    exact h.goto_same (hc.flags_read (.inl ⟨hpc, by simp⟩)) rfl rfl
  case h_2 _ _ lk hpc =>
    cases hs
    rw [setCur_eq]
    exact h.goto_same (hc.flags_read (.inl ⟨hpc, by simp⟩)) rfl rfl
  case h_3 _ _ hpc =>
    cases hs
    rw [setCur_eq]
    exact h.goto_same (hc.flags_read (.inr hpc)) rfl rfl
  case h_4 _ _ eflags call hpc => exact smpInv_cli h hpc hs
  case h_5 _ _ call lk hpc => exact smpInv_xchg h hpc hs
  case h_6 _ _ hpc =>
    split at hs
    · exact smpInv_popcli h hpc ‹_› hs
    · cases hs
  case h_7 _ _ lk hpc =>
    split at hs
    · refine smpInv_release h ‹_› (.of_code hc.fits.frames hpc (hc.fits.nodup.erase _)) (.inl hpc)
        (fun hb => ?_) (by rw [hpc]; rfl) hs
      rw [hpc] at hb
      cases hb
    · cases hs
  case h_8 _ _ state hpc => exact smpInv_sched h hpc hs
  case h_9 _ _ p state hpc =>
    split at hs
    · cases hs
      exact smpInv_assign h p state
    · cases hs
  case h_10 _ _ =>
    split at hs
    · cases hs
      exact h.goto_same (hc.interrupted ‹_›) rfl rfl
    · cases hs
  case h_11 _ _ hpc =>
    split at hs
    · rename_i f fs hf
      split at hs
      · rename_i hb
        cases hs
        exact h.goto_same (hc.returned hpc hf hb.1 hb.2) rfl rfl
      · cases hs
    · cases hs
  case h_12 _ _ hpc =>
    rw [on_setCur (show sti ⟨(s.cpu c).hw, s.lock⟩ = .ok () _ from rfl)] at hs
    cases hs
    exact h.goto_same (hc.enabled hpc) rfl rfl
  case h_13 _ _ p hpc => exact smpInv_dispatch h hpc hs
  case h_14 _ _ hpc => exact smpInv_unlock h (.inl hpc) hs
  case h_15 _ _ hpc => exact smpInv_unlock h (.inr hpc) hs
  case h_16 => cases hs

theorem smpInv_reach {ready : Slot → Bool} (h : Lib.Reach (smpStep ptable) (smpBoot ready) s) :
    SmpInv ptable s :=
  h.inv (fun _ _ _ => smpInv_step) (smpInv_boot ready)

/-- An action that matches an earlier push or `acquire`. -/
def SmpAct.undoes (k : KThread L) : SmpAct L → Bool
  | .popcli => 0 < k.pushes
  | .release lk => lk ∈ k.held
  | _ => false

/-- **Interrupts**, on any number of CPUs and in any interleaving of their threads: they are off
where `ncli` is positive; `pushcli` finds them as its `readeflags` did; and the outermost `popcli`
or `release` of a thread does not panic, and leaves the CPU on which the thread is by then with the
flag that its outermost `pushcli` found. -/
theorem popcli_restores_interrupts {ready : Slot → Bool}
    (h : Lib.Reach (smpStep ptable) (smpBoot ready) s) (c : Nat) :
    (0 < (s.cpu c).hw.ncli → (s.cpu c).hw.flIf = false) ∧
    (∀ eflags call, (s.cpu c).cur.pc = .flags eflags call → (s.cpu c).hw.flIf = eflags) ∧
    ((s.cpu c).cur.pc = .code → ∀ act : SmpAct L, act.undoes (s.cpu c).cur = true →
      (s.cpu c).cur.depth = 1 → ∃ s', smpStep ptable s (c, act) = some s' ∧
        (s'.cpu c).cur.depth = 0 ∧ (s'.cpu c).hw.flIf = (s.cpu c).cur.outer) := by
  have hinv := smpInv_reach h
  have hc := hinv.cpu c
  refine ⟨fun hn => hc.off (by have := hc.ncli; omega), hc.flags, fun hpc act hu hd => ?_⟩
  have hn : (s.cpu c).hw.ncli = 1 := by rw [hc.ncli, hd]; rfl
  have hi : (s.cpu c).hw.intena = (s.cpu c).cur.outer := hc.intena (by omega) (by simp [hpc])
  cases act with
  | popcli =>
    have hp : 0 < (s.cpu c).cur.pushes := by simpa [SmpAct.undoes] using hu
    have hs : smpStep ptable s (c, .popcli) = (s.on c Xv6.popcli).map fun r =>
        r.2.setCur c { (s.cpu c).cur with pushes := (s.cpu c).cur.pushes - 1 } := by
      simp only [smpStep, hpc, if_pos hp]
    refine ⟨_, hs.trans (on_setCur (hinv.popcli hp) _), ?_, ?_⟩
    · simp only [Smp.goto, Function.update_self, KThread.depth] at hd ⊢
      omega
    · simp [Smp.goto, hn, hi]
  | release lk =>
    have hl : lk ∈ (s.cpu c).cur.held := by simpa [SmpAct.undoes] using hu
    have hs : smpStep ptable s (c, .release lk) = (s.on c (Xv6.release c lk)).map fun r =>
        r.2.setCur c { (s.cpu c).cur with held := (s.cpu c).cur.held.erase lk } := by
      simp only [smpStep, hpc, if_pos hl]
    refine ⟨_, hs.trans (on_setCur (hinv.release hl) _), ?_, ?_⟩
    · have := depth_erase hl (s.cpu c).cur.pc rfl
      simp only [Smp.goto, Function.update_self]
      simp only [hpc] at this ⊢
      omega
    · simp [Smp.goto, hn, hi]
  | _ => cases hu

theorem SmpInv.freed (h : SmpInv ptable s) {a : Nat × SmpAct L} {lk : L}
    (hl : lk ∈ (s.cpu c).cur.held) (k : KThread L)
    (ha : smpStep ptable s a = (s.on c (Xv6.release c lk)).map fun r => r.2.setCur c k) :
    ∃ s', smpStep ptable s a = some s' ∧ ∀ d, lk ∉ (s'.cpu d).cur.held := by
  rw [on_setCur (h.release hl)] at ha
  refine ⟨_, ha, fun d hd => ((smpInv_step h ha).owned.held_iff d lk).1 hd |>.1 ?_⟩
  simp [Smp.goto]

/-- **Spin-locks**, in the same runs: a lock is set exactly if a CPU has it, and only one has it,
with interrupts off. Its `release`, in a thread or in the scheduler, does not panic, after which no
CPU has it; and one `xchg` takes a free lock. -/
theorem spinlock_exclusion {ready : Slot → Bool}
    (h : Lib.Reach (smpStep ptable) (smpBoot ready) s) (lk : L) :
    ((s.lock lk).locked ≠ 0 ↔ ∃ c, lk ∈ (s.cpu c).cur.held) ∧
    (∀ c d, lk ∈ (s.cpu c).cur.held → lk ∈ (s.cpu d).cur.held → c = d) ∧
    (∀ c, lk ∈ (s.cpu c).cur.held → (s.cpu c).hw.flIf = false ∧
      ((s.cpu c).cur.pc = .code →
        ∃ s', smpStep ptable s (c, .release lk) = some s' ∧ ∀ d, lk ∉ (s'.cpu d).cur.held) ∧
      ((s.cpu c).cur.pc = .locked ∨ (s.cpu c).cur.pc = .back →
        ∃ s', smpStep ptable s (c, .unlock) = some s' ∧ ∀ d, lk ∉ (s'.cpu d).cur.held)) ∧
    ∀ c call, (s.cpu c).cur.pc = .spin call lk → (s.lock lk).locked = 0 →
      ∃ s', smpStep ptable s (c, .xchg) = some s' ∧ lk ∈ (s'.cpu c).cur.held := by
  have hinv := smpInv_reach h
  have ho := hinv.owned
  refine ⟨⟨fun hl => ?_, ?_⟩, fun c d => ho.excl, fun c hc => ⟨?_, fun hpc => ?_, fun hpc => ?_⟩,
    fun c call hpc hl => ?_⟩
  · obtain ⟨c, hc⟩ := Option.ne_none_iff_exists'.1 (ho.marked lk hl)
    exact ⟨c, (ho.held_iff c lk).2 ⟨hl, hc⟩⟩
  · rintro ⟨c, hc⟩
    exact ((ho.held_iff c lk).1 hc).1
  · have := List.length_pos_of_mem hc
    exact (hinv.cpu c).off (by unfold KThread.depth; omega)
  · refine hinv.freed hc { (s.cpu c).cur with held := (s.cpu c).cur.held.erase lk } ?_
    simp only [smpStep, hpc, if_pos hc]
  · -- the scheduler has `ptable.lock` and no other
    have hheld := ((hinv.cpu c).fits.locked hpc).2
    obtain rfl : lk = ptable := by simpa [hheld] using hc
    refine hinv.freed hc { (s.cpu c).cur with pc := .top, held := (s.cpu c).cur.held.erase lk } ?_
    rcases hpc with hpc | hpc <;> simp only [smpStep, hpc]
  · have hoff : (s.cpu c).hw.flIf = false :=
      (hinv.cpu c).off (by simp [KThread.depth, hpc, KPc.spinning])
    rcases acquireXchg_eq c lk (s := ⟨(s.cpu c).hw, s.lock⟩) hoff with ⟨hl', -⟩ | ⟨-, he⟩
    · exact absurd hl hl'
    · simp only [smpStep, hpc, stepXchg, on_of_ok he, Option.map_some, if_true]
      exact ⟨_, rfl, by simp [Smp.setCur]⟩

end

end

end

def acquireActs (c : Nat) (call : PushCall Bool) : List (Nat × SmpAct Bool) :=
  [(c, .call call), (c, .cli), (c, .xchg)]

/-- Process 0 sleeps on CPU 0 as in `sleep(chan, lk)` (`true` is `lk`, `false` is `ptable.lock`), an
interrupt on CPU 1 wakes it, and it comes back from `sched` there. -/
def sleepAndMigrate : List (Nat × SmpAct Bool) :=
  (0, .sti) :: acquireActs 0 .scheduler ++ (0, .dispatch 0) :: (0, .release false) ::
  acquireActs 0 (.acquire true) ++ acquireActs 0 (.acquire false) ++
  (0, .release true) :: (0, .sched .sleeping) :: (0, .unlock) ::
  (1, .sti) :: (1, .interrupt) :: acquireActs 1 (.acquire false) ++
  (1, .assign 0 .runnable) :: (1, .release false) :: (1, .iret) ::
  acquireActs 1 .scheduler ++ [(1, .dispatch 0)]

theorem popcli_restores_interrupts_migrated :
    ∃ s, Lib.Reach (smpStep false) (smpBoot (· = 0)) s ∧ (s.cpu 1).proc = some 0 ∧
      (s.cpu 1).hw.flIf = false ∧
      ∃ s', smpStep false s (1, .release false) = some s' ∧ (s'.cpu 1).hw.flIf = true := by
  have hrun : (Lib.run (smpStep false) (smpBoot (· = 0)) sleepAndMigrate).map (fun s =>
      ((s.cpu 1).proc, (s.cpu 1).hw.flIf, (s.cpu 1).cur.pc, (s.cpu 1).cur.held, (s.cpu 1).cur.depth,
        (s.cpu 1).cur.outer)) = some (some 0, false, .code, [false], 1, true) := by rfl
  obtain ⟨s, hs, hf⟩ := Option.map_eq_some_iff.1 hrun
  simp only [Prod.mk.injEq] at hf
  obtain ⟨hproc, hflag, hpc, hheld, hdepth, houter⟩ := hf
  have hreach : Lib.Reach (smpStep false) (smpBoot (· = 0)) s := ⟨_, hs⟩
  obtain ⟨s', hstep, -, hfl⟩ := (popcli_restores_interrupts hreach 1).2.2 hpc (.release false)
    (by simp [SmpAct.undoes, hheld]) hdepth
  exact ⟨s, hreach, hproc, hflag, s', hstep, hfl.trans houter⟩

/-- In the same run, CPU 1 has `ptable.lock` at the end. -/
theorem spinlock_exclusion_migrated : ∃ s, Lib.Reach (smpStep false) (smpBoot (· = 0)) s ∧
    (s.lock false).locked ≠ 0 ∧ ∀ c, false ∈ (s.cpu c).cur.held → c = 1 := by
  have hrun : (Lib.run (smpStep false) (smpBoot (· = 0)) sleepAndMigrate).map (fun s =>
      (s.cpu 1).cur.held) = some [false] := by rfl
  obtain ⟨s, hs, hf⟩ := Option.map_eq_some_iff.1 hrun
  obtain ⟨h1, h2, -⟩ := spinlock_exclusion ⟨_, hs⟩ false
  exact ⟨s, ⟨_, hs⟩, h1.2 ⟨1, by simp [hf]⟩, fun c hc => h2 c 1 hc (by simp [hf])⟩

end Xv6
