import Xv6.Kernel.Sleeplock
import Xv6.Kernel.Proof.Atomic

/-!
# Sleep-locks: exclusion, and no lost wakeup

A thread has a sleep-lock from the critical section of `acquiresleep` that sets `lk->locked` to that
of its `releasesleep`. `HeldInv` ties the fields of each lock to the thread that has it; the
critical sections keep it, whoever is woken when. `sleeplock_wakes` is what the wait loop owes its
sleepers.
-/

namespace Xv6

open Lib Function

variable {s s' : SleeplockThreads} {t : Slot} {a : ThreadAct (Int × SleeplockOp)}

/-! ## Who has a lock -/

/-- The sleep-locks held at a place. -/
def Place.held : Place SleeplockCall Holding → List Nat
  | .call c => c.held
  | .loc h => h.held
  | .dead _ => []

/-- The fields of a sleep-lock with the given owner. -/
def fieldsFor (pid : Slot → Int) : Option Slot → Sleeplock
  | some t => ⟨1, pid t⟩
  | none => ⟨0, 0⟩

/-- The fields of the locks are those for the threads that have them. -/
structure HeldInv (o : Nat → Sleeplock) (pl : Slot → Place SleeplockCall Holding) (pid : Slot → Int)
    (owner : Nat → Option Slot) : Prop where
  owns : Owns owner fun t lk => lk ∈ (pl t).held
  fields : ∀ lk, o lk = fieldsFor pid (owner lk)
  nodup : ∀ t, (pl t).held.Nodup
  acquire : ∀ t lk p l, pl t = .call (.acquiresleep lk p l) → p = pid t
  release : ∀ t lk l, pl t = .call (.releasesleep lk l) → lk ∈ l

namespace HeldInv

variable {o : Nat → Sleeplock} {pl : Slot → Place SleeplockCall Holding} {pid : Slot → Int}
  {owner : Nat → Option Slot} {t : Slot} {p : Place SleeplockCall Holding}
variable {o' : Nat → Sleeplock} {lk : Nat} {b : Bool} {c : SleeplockCall} {l : Holding}

theorem init (pid : Slot → Int) :
    HeldInv (fun _ => initsleeplock) (fun _ => .loc ⟨[], false⟩) pid fun _ => none :=
  ⟨fun _ _ => ⟨nofun, nofun⟩, fun _ => rfl, fun _ => List.nodup_nil, nofun, nofun⟩

section
variable (h : HeldInv o pl pid owner)
include h

theorem congr {pl' : Slot → Place SleeplockCall Holding}
    (ho : o' = o) (hp : pl' = pl) : HeldInv o' pl' pid owner := by
  rw [ho, hp]
  exact h

theorem move {owner' : Nat → Option Slot}
    (howns : Owns owner' fun u lk => lk ∈ (update pl t p u).held)
    (hfields : ∀ lk, o' lk = fieldsFor pid (owner' lk)) (hnodup : p.held.Nodup)
    (hacq : ∀ lk q l, p = .call (.acquiresleep lk q l) → q = pid t)
    (hrel : ∀ lk l, p = .call (.releasesleep lk l) → lk ∈ l) :
    HeldInv o' (update pl t p) pid owner' := by
  refine ⟨howns, hfields, fun u => ?_, fun u lk q l hu => ?_, fun u lk l hu => ?_⟩
  · by_cases hut : u = t
    · subst hut
      rwa [update_self]
    · rw [update_of_ne hut]
      exact h.nodup u
  · by_cases hut : u = t
    · subst hut
      rw [update_self] at hu
      exact hacq lk q l hu
    · rw [update_of_ne hut] at hu
      exact h.acquire u lk q l hu
  · by_cases hut : u = t
    · subst hut
      rw [update_self] at hu
      exact hrel lk l hu
    · rw [update_of_ne hut] at hu
      exact h.release u lk l hu

theorem goto (hheld : p.held = (pl t).held)
    (hacq : ∀ lk q l, p = .call (.acquiresleep lk q l) → q = pid t)
    (hrel : ∀ lk l, p = .call (.releasesleep lk l) → lk ∈ l) :
    HeldInv o (update pl t p) pid owner := by
  refine h.move (h.owns.congr fun u lk => ?_) h.fields (hheld ▸ h.nodup t) hacq hrel
  by_cases hut : u = t
  · subst hut
    rw [update_self, hheld]
  · rw [update_of_ne hut]

theorem take (hfree : (o lk).locked = 0) :
    HeldInv (update o lk ⟨1, pid t⟩) (update pl t (.loc ⟨lk :: (pl t).held, b⟩)) pid
      (update owner lk (some t)) := by
  have hnone : owner lk = none := by
    cases ho : owner lk with
    | none => rfl
    | some u =>
      rw [h.fields lk, ho] at hfree
      cases hfree
  refine h.move (h.owns.take hnone (fun m => ?_) fun u hu m => ?_) (fun m => ?_) ?_ nofun nofun
  · rw [update_self]
    exact List.mem_cons
  · rw [update_of_ne hu]
  · by_cases hm : m = lk
    · subst hm
      rw [update_self, update_self]
      rfl
    · rw [update_of_ne hm, update_of_ne hm]
      exact h.fields m
  · exact List.nodup_cons.2 ⟨h.owns.not_holds hnone t, h.nodup t⟩

theorem give (hlk : lk ∈ (pl t).held) :
    HeldInv (update o lk ⟨0, 0⟩) (update pl t (.loc ⟨(pl t).held.erase lk, b⟩)) pid
      (update owner lk none) := by
  refine h.move (h.owns.give hlk (fun m => ?_) fun u hu m => ?_) (fun m => ?_) ?_ nofun nofun
  · rw [update_self]
    exact (h.nodup t).mem_erase_iff
  · rw [update_of_ne hu]
  · by_cases hm : m = lk
    · subst hm
      rw [update_self, update_self]
      rfl
    · rw [update_of_ne hm, update_of_ne hm]
      exact h.fields m
  · exact (h.nodup t).erase lk

theorem body (hc : pl t = .call c) :
    ∃ owner', HeldInv (update o c.lock (c.body (o c.lock)).obj)
      (update pl t (c.body (o c.lock)).next.place) pid owner' := by
  have hheld : (pl t).held = c.held := by
    rw [hc]
    rfl
  have hstay : ∀ {p : Place SleeplockCall Holding}, p.held = (pl t).held →
      (∀ lk q l, p = .call (.acquiresleep lk q l) → q = pid t) →
      (∀ lk l, p = .call (.releasesleep lk l) → lk ∈ l) →
      HeldInv (update o c.lock (o c.lock)) (update pl t p) pid owner := by
    intro p hp hacq hrel
    rw [update_eq_self]
    exact h.goto hp hacq hrel
  cases c with
  | acquiresleep lk q l =>
    obtain rfl := h.acquire t lk q l hc
    by_cases hl : (o lk).locked = 0
    · have hb : (SleeplockCall.acquiresleep lk (pid t) l).body (o lk) = ⟨⟨1, pid t⟩, [],
        .leave ⟨lk :: l, false⟩⟩ :=
        if_neg (not_not.2 hl)
      have h1 := h.take (t := t) (b := false) hl
      rw [hheld] at h1
      exact ⟨_, by rw [SleeplockCall.lock, hb]; exact h1⟩
    · have hb : (SleeplockCall.acquiresleep lk (pid t) l).body (o lk) =
          ⟨o lk, [], .sleep (.acquiresleep lk (pid t) l)⟩ := if_pos hl
      refine ⟨owner, ?_⟩
      rw [SleeplockCall.lock, hb]
      refine hstay hheld.symm (fun lk' q' l' he => ?_) fun _ _ he => by cases he
      cases he
      rfl
  | releasesleep lk l =>
    have hlk : lk ∈ (pl t).held := by
      rw [hheld]
      exact h.release t lk l hc
    have h1 := h.give (b := false) hlk
    rw [hheld] at h1
    exact ⟨_, h1⟩
  | holdingsleep lk q l => exact ⟨owner, hstay hheld.symm (fun _ _ _ he => by cases he)
    fun _ _ he => by cases he⟩

theorem enter {op : SleeplockOp} (hl : pl t = .loc l)
    (hc : op.call (pid t) l = some c) : HeldInv o (update pl t (.call c)) pid owner := by
  have hheld : (pl t).held = l.held := by
    rw [hl]
    rfl
  cases op with
  | acquiresleep lk =>
    cases hc
    refine h.goto hheld.symm (fun lk' q l' he => ?_) nofun
    cases he
    rfl
  | releasesleep lk =>
    obtain ⟨hlk, hc⟩ := Option.ite_none_right_eq_some.1 hc
    cases hc
    refine h.goto hheld.symm nofun fun lk' l' he => ?_
    cases he
    exact hlk
  | holdingsleep lk =>
    cases hc
    exact h.goto hheld.symm nofun nofun

theorem rename (hl : pl t = .loc l) {pid' : Slot → Int}
    (hpid : ∀ u, u ≠ t → pid' u = pid u) (ht : l.held = [] ∨ pid' t = pid t) :
    HeldInv o pl pid' owner := by
  refine ⟨h.owns, fun lk => ?_, h.nodup, fun u lk q l' hu => ?_, h.release⟩
  · rw [h.fields lk]
    cases ho : owner lk with
    | none => rfl
    | some u =>
      have hu : pid' u = pid u := by
        by_cases hut : u = t
        · subst hut
          refine ht.resolve_left fun h0 => ?_
          have hmem : lk ∈ (pl u).held := (h.owns u lk).1 ho
          rw [hl] at hmem
          exact absurd (h0 ▸ hmem : lk ∈ []) List.not_mem_nil
        · exact hpid u hut
      simp only [fieldsFor, hu]
  · have hut : u ≠ t := by
      intro he
      rw [he, hl] at hu
      cases hu
    rw [hpid u hut]
    exact h.acquire u lk q l' hu

end

end HeldInv

/-! ## Steps -/

/-- The actions of code that follows the rules of sleep-locks. -/
def SleeplockThreads.Allows (s : SleeplockThreads) : ThreadAct (Int × SleeplockOp) → Prop
  | .outside t a => a.1 = (s.proc t).pid
  | .other t r => ∃ h, s.pc t = .out h ∧ h.allows (s.proc t) r = true
  | _ => True

theorem sleeplockStep_client {a : ThreadAct SleeplockOp} (h : sleeplockStep s a = some s') :
    ∃ b, sleeplocks.step s b = some s' ∧ s.Allows b := by
  cases a with
  | run t => exact ⟨.run t, h, trivial⟩
  | outside t op => exact ⟨.outside t ((s.proc t).pid, op), h, rfl⟩
  | dispatch t => exact ⟨.dispatch t, h, trivial⟩
  | yield t => exact ⟨.yield t, h, trivial⟩
  | kill pid => exact ⟨.kill pid, h, trivial⟩
  | other t r =>
    cases hpc : s.pc t with
    | out l =>
      simp only [sleeplockStep, hpc] at h
      obtain ⟨hal, h⟩ := Option.ite_none_right_eq_some.1 h
      exact ⟨.other t r, h, l, hpc, hal⟩
    | _ => simp [sleeplockStep, hpc] at h

theorem pid_setProc {r : Proc} (h : r.pid = (s.proc t).pid) (u : Slot) :
    ((s.setProc t r).proc u).pid = (s.proc u).pid := update_field Proc.pid h u

theorem step_pid (h : sleeplocks.step s a = some s') (hno : ∀ t r, a ≠ .other t r) (u : Slot) :
    (s'.proc u).pid = (s.proc u).pid := by
  cases step_move h with
  | wake hr hpc hfree =>
    show (wakeup1 _ s.proc u).pid = _
    unfold wakeup1
    split <;> rfl
  | @kill pid hfree =>
    show ((kill pid s.proc).2 u).pid = _
    unfold kill
    split
    · next p _ => exact update_field Proc.pid (r := killProc (s.proc p)) rfl u
    · rfl
  | sched | resume | dispatch | yield => exact pid_setProc (by rfl) u
  | @other t l r hpc => exact absurd rfl (hno t r)
  | acquire | body | leave | sleep | panic | release | call | code | outPanic => rfl

theorem heldInv_step (h : sleeplocks.step s a = some s') (hal : s.Allows a)
    (hi : ∃ owner, HeldInv s.obj s.places (fun t => (s.proc t).pid) owner) :
    ∃ owner, HeldInv s'.obj s'.places (fun t => (s'.proc t).pid) owner := by
  obtain ⟨owner, hi⟩ := hi
  by_cases hoth : ∃ t r, a = .other t r
  · obtain ⟨t, r, rfl⟩ := hoth
    obtain ⟨l, hl, hr⟩ := hal
    simp only [Holding.allows, Bool.and_eq_true, Bool.or_eq_true,
      List.isEmpty_iff, beq_iff_eq] at hr
    cases step_move h with
    | other hpc =>
      refine ⟨owner, hi.rename (t := t) (l := l) (by rw [Threads.places, hl]; rfl)
        (fun u hu => ?_) ?_⟩
      · show (update s.proc t r u).pid = _
        rw [update_of_ne hu]
      · show _ ∨ (update s.proc t r t).pid = _
        rw [update_self]
        exact hr.1
  have hpid : (fun t => (s'.proc t).pid) = fun t => (s.proc t).pid :=
    funext fun u => step_pid h (fun t r he => hoth ⟨t, r, he⟩) u
  rw [hpid]
  cases step_move h with
  | @body t c sec hr hpc hb =>
    subst hb
    rw [places_setPc]
    exact hi.body (t := t) (c := c) (by rw [Threads.places, hpc]; rfl)
  | @call t a l c hr hpc ho =>
    rw [places_setPc]
    obtain ⟨c', hc', he⟩ := Option.map_eq_some_iff.1 ho
    cases he
    refine ⟨owner, hi.enter (by rw [Threads.places, hpc]; rfl)
      (?_ : a.2.call (s.proc t).pid l = some _)⟩
    rw [← hal]
    exact hc'
  | @code t a l l' obj hr hpc ho =>
    obtain ⟨c', -, he⟩ := Option.map_eq_some_iff.1 ho
    cases he
  | acquire hr hpc | wake hr hpc | leave hr hpc | sleep hr hpc | release hr hpc | sched hr hpc
  | resume hfree hr hpc =>
    exact ⟨owner, hi.congr rfl (places_stay (congrArg Pc.place hpc).symm)⟩
  | panic | outPanic | dispatch | yield | kill | other => exact ⟨owner, hi⟩

/-! ## Sleepers -/

/-- The condition under which a call sleeps. -/
def SleeplockCall.waits : SleeplockCall → Sleeplock → Prop
  | .acquiresleep _ _ _, l => l.locked ≠ 0
  | .releasesleep _ _, _ | .holdingsleep _ _ _, _ => False

theorem sleeplock_wakes : Wakes sleeplocks SleeplockCall.waits fun _ => True where
  sleeps c _ l c' h := by
    change (c.body l).next = _ at h
    change c'.waits (c.body l).obj
    cases c with
    | acquiresleep lk q held =>
      by_cases hl : l.locked = 0
      · have hb : (SleeplockCall.acquiresleep lk q held).body l =
          ⟨⟨1, q⟩, [], .leave ⟨lk :: held, false⟩⟩ :=
          if_neg (not_not.2 hl)
        rw [hb] at h
        cases h
      · have hb : (SleeplockCall.acquiresleep lk q held).body l =
          ⟨l, [], .sleep (.acquiresleep lk q held)⟩ :=
          if_pos hl
        rw [hb] at h ⊢
        cases h
        exact hl
    | releasesleep | holdingsleep => cases h
  wakes c _ l c' hlock hw hn := by
    change ¬ c'.waits (c.body l).obj at hn
    change Chan.sleeplock c'.lock ∈ (c.body l).wakes
    have hlock' : c'.lock = c.lock := hlock
    cases c with
    | acquiresleep lk q held =>
      cases c' with
      | acquiresleep lk' q' held' =>
        have hb : (SleeplockCall.acquiresleep lk q held).body l =
          ⟨l, [], .sleep (.acquiresleep lk q held)⟩ :=
          if_pos hw
        rw [hb] at hn
        exact absurd hw hn
      | releasesleep | holdingsleep => exact hw.elim
    | releasesleep lk held =>
      rw [hlock']
      exact List.mem_singleton_self _
    | holdingsleep lk q held => exact absurd hw hn
  code s t a l l' obj _ _ ho c hw := by
    obtain ⟨c', -, he⟩ := Option.map_eq_some_iff.1 ho
    cases he

/-- A process on the channel of a sleep-lock is switched out in a call on it. -/
def OnChan (s : SleeplockThreads) : Prop :=
  ∀ t lk, (s.proc t).chan = some (.sleeplock lk) → ∃ c, s.pc t = .sched c ∧ c.lock = lk

theorem OnChan.goto {p : Pc Nat SleeplockCall Holding} (h : OnChan s)
    (hpc : s'.pc = update s.pc t p) (hchan : ∀ u, (s'.proc u).chan = (s.proc u).chan)
    (ht : ∀ c, s.pc t ≠ .sched c) : OnChan s' := by
  intro u lk hu
  rw [hchan] at hu
  obtain ⟨c, hc, hl⟩ := h u lk hu
  refine ⟨c, ?_, hl⟩
  rw [hpc, update_of_ne, hc]
  intro he
  exact ht c (he ▸ hc)

theorem OnChan.set {r : Proc} (h : OnChan s) (hproc : s'.proc = update s.proc t r)
    (hpc : ∀ u, u ≠ t → s'.pc u = s.pc u)
    (ht : ∀ lk, r.chan = some (.sleeplock lk) → ∃ c, s'.pc t = .sched c ∧ c.lock = lk) :
    OnChan s' := by
  intro u lk hu
  rw [hproc] at hu
  by_cases hut : u = t
  · subst hut
    rw [update_self] at hu
    exact ht lk hu
  · rw [update_of_ne hut] at hu
    rw [hpc u hut]
    exact h u lk hu

theorem onChan_step (h : sleeplocks.step s a = some s') (hal : s.Allows a) (hi : OnChan s) :
    OnChan s' := by
  cases step_move h with
  | acquire hr hpc | body hr hpc | leave hr hpc | sleep hr hpc | release hr hpc | call hr hpc
  | code hr hpc =>
    exact hi.goto rfl (fun _ => rfl) (by rw [hpc]; nofun)
  | wake hr hpc => exact hi.goto rfl (fun u => wakeup1_chan _ _ u) (by rw [hpc]; nofun)
  | panic | outPanic => exact hi
  | @sched t c hr hpc =>
    refine hi.set rfl (fun u hu => update_of_ne hu _ _) fun lk hlk => ⟨c, by simp, ?_⟩
    cases hlk
    rfl
  | resume hfree hr hpc => exact hi.set rfl (fun u hu => update_of_ne hu _ _) nofun
  | @dispatch t hfree hr hpc => exact hi.set rfl (fun _ _ => rfl) fun lk hlk => hi t lk hlk
  | @yield t hfree hr hpc => exact hi.set rfl (fun _ _ => rfl) fun lk hlk => hi t lk hlk
  | @kill pid hfree =>
    simp only [kill]
    split
    · next p _ => exact hi.set (t := p) rfl (fun _ _ => rfl) fun lk hlk => hi p lk hlk
    · exact hi
  | @other t l r hpc =>
    refine hi.set rfl (fun _ _ => rfl) fun lk hlk => ?_
    obtain ⟨l', -, hr⟩ := hal
    simp [Holding.allows, Proc.onSleeplock, hlk] at hr

/-- The invariant of threads that use sleep-locks. -/
structure SleeplockInv (s : SleeplockThreads) : Prop where
  lock : LockInv sleeplocks s
  wake : WakeInv sleeplocks SleeplockCall.waits s
  held : ∃ owner, HeldInv s.obj s.places (fun t => (s.proc t).pid) owner
  chan : OnChan s

theorem sleeplockInv_reach {proc : Ptable} (h0 : ∀ t, (proc t).onSleeplock = false)
    (h : Reach sleeplockStep (sleeplockBoot proc) s) : SleeplockInv s := by
  refine h.inv (P := SleeplockInv) (fun s a s' hi hstep => ?_) ⟨.init _ _ _, .init _ _ _,
    ⟨_, .init _⟩, ?_⟩
  · obtain ⟨b, hb, hal⟩ := sleeplockStep_client hstep
    exact ⟨hi.lock.step hb, hi.wake.step sleeplock_wakes trivial hi.lock hb,
      heldInv_step hb hal hi.held, onChan_step hb hal hi.chan⟩
  · intro t lk hlk
    have hf := h0 t
    have hlk' : (proc t).chan = some (.sleeplock lk) := hlk
    simp [Proc.onSleeplock, hlk'] at hf

/-- Thread `t` is between the critical section of `acquiresleep` in which it took the lock and that
of its `releasesleep`. -/
def SleeplockThreads.Has (s : SleeplockThreads) (t : Slot) (lk : Nat) : Prop :=
  lk ∈ (s.places t).held

/-- **Sleep-locks exclude**: at most one process has a lock, the fields are set and have its pid
while it has it and only then, and while the spinlock is free nobody sleeps on a lock that is not
taken. -/
theorem sleeplock_exclusion (proc : Ptable) (h0 : ∀ t, (proc t).onSleeplock = false)
    (s : SleeplockThreads) (h : Reach sleeplockStep (sleeplockBoot proc) s) (lk : Nat) :
    (∀ t u, s.Has t lk → s.Has u lk → t = u) ∧
    (∀ pid, s.obj lk = ⟨1, pid⟩ ↔ ∃ t, s.Has t lk ∧ (s.proc t).pid = pid) ∧
    ((s.obj lk).locked ≠ 0 → ∃ t, s.Has t lk) ∧
    (s.lock lk = none → ∀ t, (s.proc t).state = .sleeping → (s.proc t).chan = some (.sleeplock lk) →
      (s.obj lk).locked = 1) := by
  have hi := sleeplockInv_reach h0 h
  obtain ⟨owner, hheld⟩ := hi.held
  have hsome : (s.obj lk).locked ≠ 0 → ∃ t, owner lk = some t := by
    intro hl
    refine Option.ne_none_iff_exists'.1 fun hn => hl ?_
    rw [hheld.fields lk, hn]
    rfl
  refine ⟨fun t u ht hu => hheld.owns.unique ht hu,
    fun pid => ⟨fun ho => ?_, fun ⟨t, ht, hp⟩ => ?_⟩, fun hl => ?_, fun hfree t hs hc => ?_⟩
  · obtain ⟨t, ht⟩ := hsome (by rw [ho]; nofun)
    refine ⟨t, (hheld.owns t lk).1 ht, ?_⟩
    have hf := hheld.fields lk
    rw [ht, ho] at hf
    exact (congrArg Sleeplock.pid hf).symm
  · rw [hheld.fields lk, (hheld.owns t lk).2 ht, ← hp]
    rfl
  · obtain ⟨t, ht⟩ := hsome hl
    exact ⟨t, (hheld.owns t lk).1 ht⟩
  · obtain ⟨c, hpc, rfl⟩ := hi.chan t lk hc
    have hw : c.waits (s.obj c.lock) := no_lost_wakeup hi.lock hi.wake hfree (.inr ⟨hpc, hs⟩)
    cases c with
    | acquiresleep lk q l =>
      obtain ⟨u, hu⟩ := hsome hw
      rw [hheld.fields, hu]
      rfl
    | releasesleep => exact hw.elim
    | holdingsleep => exact hw.elim

def sleeplockActs : List (ThreadAct SleeplockOp) :=
  [.outside 0 (.acquiresleep 5), .run 0, .run 0, .run 0, .outside 1 (.acquiresleep 5),
    .run 1, .run 1, .run 1, .run 1, .run 1]

theorem sleeplock_exclusion_waiting :
    ∃ s, run sleeplockStep (sleeplockBoot pairProcs) sleeplockActs = some s ∧
    (s.proc 1).state = .sleeping ∧ (s.obj 5).locked = 1 ∧ ∃ t, s.Has t 5 ∧ (s.proc t).pid = 1 := by
  have h0 : ∀ t, (pairProcs t).onSleeplock = false := by decide
  obtain ⟨-, hiff, -, hsleep⟩ := sleeplock_exclusion pairProcs h0 _ ⟨sleeplockActs, rfl⟩ 5
  exact ⟨_, rfl, rfl, hsleep rfl 1 rfl rfl, (hiff 1).1 rfl⟩

end Xv6
