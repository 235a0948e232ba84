import Xv6.Kernel.Thread
import Xv6.Lib.Owner

/-!
# Invariants of kernel threads

`Move` is the inversion of `Client.step`: one constructor per thing a step can do, with its guards.
On it rest the two invariants that every client shares:

* `LockInv`: a lock is held by the thread that is at a place under it, and `ptable.lock` by the one
  that is in `sleep` between taking it and `sched`; so no two threads are under one lock.
* `WakeInv`: a thread that is asleep in a call, or on its way there past the release of the lock,
  still has to wait, or the holder of the lock has a wakeup of its channel still to do. This is why
  `sleep` takes `ptable.lock` before it releases `lk`: the wakeup comes after the thread is asleep.

`no_lost_wakeup`: in every reachable state in which a lock is free, a thread asleep in a call of
that lock has to wait. What is asked of the client is in `Wakes`: a call sleeps only when it has to
wait, and a critical section that ends the waiting of a call wakes the call's channel.
-/

namespace Xv6

open Lib Function

variable {Lock Obj Call Loc Act : Type} {C : Client Lock Obj Call Loc Act}
  {s s' : Threads Lock Obj Call Loc} {a : ThreadAct Act} {t : Slot}

@[simp] theorem Threads.setPc_pc (s : Threads Lock Obj Call Loc) (t u : Slot)
    (pc : Pc Lock Call Loc) :
    (s.setPc t pc).pc u = if u = t then pc else s.pc u := by
  simp [Threads.setPc, update_apply]

section
variable [DecidableEq Lock]

/-! ## What a step does -/

/-- The steps of `run`, one by one. -/
inductive Move (C : Client Lock Obj Call Loc Act) (s : Threads Lock Obj Call Loc) :
    ThreadAct Act → Threads Lock Obj Call Loc → Prop
  | acquire {t : Slot} {c : Call} : (s.proc t).state = .running → s.pc t = .acquire c →
      s.lock (C.lockOf c) = none →
      Move C s (.run t) ((s.setLock (C.lockOf c) (some t)).setPc t (.locked c))
  | body {t : Slot} {c : Call} {sec : Section Obj Call Loc} : (s.proc t).state = .running →
      s.pc t = .locked c → C.body c (s.proc t).killed (s.obj (C.lockOf c)) = sec →
      Move C s (.run t) ({ s with obj := update s.obj (C.lockOf c) sec.obj }.setPc t
        (.wakeup (C.lockOf c) sec.wakes sec.next))
  | wake {t : Slot} {l : Lock} {ch : Chan} {chs : List Chan} {next : Then Call Loc} :
      (s.proc t).state = .running → s.pc t = .wakeup l (ch :: chs) next → s.ptable = none →
      Move C s (.run t) ({ s with proc := wakeup1 ch s.proc }.setPc t (.wakeup l chs next))
  | leave {t : Slot} {l : Lock} {loc : Loc} : (s.proc t).state = .running →
      s.pc t = .wakeup l [] (.leave loc) →
      Move C s (.run t) ((s.setLock l none).setPc t (.out loc))
  | sleep {t : Slot} {l : Lock} {c : Call} : (s.proc t).state = .running →
      s.pc t = .wakeup l [] (.sleep c) → s.ptable = none →
      Move C s (.run t) ({ s with ptable := some t }.setPc t (.sleepRelease c))
  | panic {t : Slot} {l : Lock} {msg : String} : (s.proc t).state = .running →
      s.pc t = .wakeup l [] (.panic msg) → Move C s (.run t) { s with panicked := some msg }
  | release {t : Slot} {c : Call} : (s.proc t).state = .running → s.pc t = .sleepRelease c →
      Move C s (.run t) ((s.setLock (C.lockOf c) none).setPc t (.sleepSched c))
  | sched {t : Slot} {c : Call} : (s.proc t).state = .running → s.pc t = .sleepSched c →
      Move C s (.run t) (({ s with ptable := none }.setProc t
        { s.proc t with chan := some (C.chanOf c), state := .sleeping }).setPc t (.sched c))
  | call {t : Slot} {a : Act} {l : Loc} {c : Call} : (s.proc t).state = .running →
      s.pc t = .out l → C.outside l a s.obj = some (.call c) →
      Move C s (.outside t a) (s.setPc t (.acquire c))
  | code {t : Slot} {a : Act} {l l' : Loc} {obj : Lock → Obj} : (s.proc t).state = .running →
      s.pc t = .out l → C.outside l a s.obj = some (.code obj l') →
      Move C s (.outside t a) ({ s with obj }.setPc t (.out l'))
  | outPanic {t : Slot} {a : Act} {l : Loc} {msg : String} : (s.proc t).state = .running →
      s.pc t = .out l → C.outside l a s.obj = some (.panic msg) →
      Move C s (.outside t a) { s with panicked := some msg }
  | resume {t : Slot} {c : Call} : s.ptable = none → (s.proc t).state = .runnable →
      s.pc t = .sched c →
      Move C s (.dispatch t)
        ((s.setProc t { s.proc t with state := .running, chan := none }).setPc t (.acquire c))
  | dispatch {t : Slot} : s.ptable = none → (s.proc t).state = .runnable →
      (∀ c, s.pc t ≠ .sched c) →
      Move C s (.dispatch t) (s.setProc t { s.proc t with state := .running })
  | yield {t : Slot} : s.ptable = none → (s.proc t).state = .running →
      (s.pc t).interruptible = true →
      Move C s (.yield t) (s.setProc t { s.proc t with preempted := false, state := .runnable })
  | kill {pid : Int} : s.ptable = none → Move C s (.kill pid) { s with proc := (kill pid s.proc).2 }
  | other {t : Slot} {l : Loc} {r : Proc} : s.pc t = .out l →
      Move C s (.other t r) (s.setProc t r)

theorem runThread_move (hr : (s.proc t).state = .running) (h : runThread C s t = some s') :
    Move C s (.run t) s' := by
  unfold runThread at h
  split at h
  · cases h
  · cases h
  · rename_i c hpc
    obtain ⟨hl, h⟩ := Option.ite_none_right_eq_some.1 h
    cases h
    exact .acquire hr hpc hl
  · rename_i c hpc
    cases h
    exact .body hr hpc rfl
  · rename_i l ch chs next hpc
    obtain ⟨hp, h⟩ := Option.ite_none_right_eq_some.1 h
    cases h
    exact .wake hr hpc hp
  · rename_i l loc hpc
    cases h
    exact .leave hr hpc
  · rename_i l c hpc
    obtain ⟨hp, h⟩ := Option.ite_none_right_eq_some.1 h
    cases h
    exact .sleep hr hpc hp
  · rename_i l msg hpc
    cases h
    exact .panic hr hpc
  · rename_i c hpc
    cases h
    exact .release hr hpc
  · rename_i c hpc
    cases h
    exact .sched hr hpc

theorem step_move (h : C.step s a = some s') : Move C s a s' := by
  cases a with
  | run t =>
    obtain ⟨hg, h⟩ := Option.ite_none_right_eq_some.1 h
    exact runThread_move hg.2 h
  | outside t a =>
    obtain ⟨hg, h⟩ := Option.ite_none_right_eq_some.1 h
    split at h
    · rename_i l hpc
      split at h
      · rename_i c ho
        cases h
        exact .call hg.2 hpc ho
      · rename_i obj l' ho
        cases h
        exact .code hg.2 hpc ho
      · rename_i msg ho
        cases h
        exact .outPanic hg.2 hpc ho
      · cases h
    · cases h
  | dispatch t =>
    obtain ⟨hg, h⟩ := Option.ite_none_right_eq_some.1 h
    cases h
    unfold dispatchThread
    split
    · rename_i c hpc
      exact .resume hg.2.1 hg.2.2 hpc
    · rename_i hpc
      exact .dispatch hg.2.1 hg.2.2 hpc
  | yield t =>
    obtain ⟨hg, h⟩ := Option.ite_none_right_eq_some.1 h
    cases h
    exact .yield hg.2.1 hg.2.2.1 hg.2.2.2
  | kill pid =>
    obtain ⟨hg, h⟩ := Option.ite_none_right_eq_some.1 h
    cases h
    exact .kill hg.2
  | other t r =>
    simp only [Client.step] at h
    split at h
    · rename_i l hpc
      cases h
      exact .other hpc
    · cases h

theorem step_obj (h : C.step s a = some s') :
    (s'.obj = s.obj ∧ C.sections s a = []) ∨
    (∃ t c sec, C.body c (s.proc t).killed (s.obj (C.lockOf c)) = sec ∧
      s'.obj = update s.obj (C.lockOf c) sec.obj ∧
      C.sections s a = [⟨t, c, s.obj (C.lockOf c), sec⟩]) ∨
    (∃ t a' l l', s.pc t = .out l ∧ C.outside l a' s.obj = some (.code s'.obj l') ∧
      C.sections s a = []) := by
  cases step_move h with
  | body hr hpc hb => exact .inr (.inl ⟨_, _, _, hb, rfl, by simp [Client.sections, hpc, hb]⟩)
  | code hr hpc ho => exact .inr (.inr ⟨_, _, _, _, hpc, ho, rfl⟩)
  | acquire hr hpc | wake hr hpc | leave hr hpc | sleep hr hpc | panic hr hpc | release hr hpc
  | sched hr hpc => exact .inl ⟨rfl, by simp [Client.sections, hpc]⟩
  | _ => exact .inl ⟨rfl, rfl⟩

theorem step_pc_of_ne (h : C.step s a = some s') (ha : a.actor ≠ some t) : s'.pc t = s.pc t := by
  have hne : ∀ u, some u ≠ some t → t ≠ u := fun u hu he => hu (by rw [he])
  cases step_move h with
  | panic | outPanic | dispatch | yield | kill | other => rfl
  | acquire | body | wake | leave | sleep | release | sched | call | code | resume =>
    exact update_of_ne (hne _ ha) _ _

end

/-! ## The locks -/

/-- The lock of the object held at a `pc`. -/
def Client.holds (C : Client Lock Obj Call Loc Act) : Pc Lock Call Loc → Option Lock
  | .locked c | .sleepRelease c => some (C.lockOf c)
  | .wakeup l _ _ => some l
  | _ => none

/-- In `sleep`, with `ptable.lock`. -/
def Pc.inSleep : Pc Lock Call Loc → Bool
  | .sleepRelease _ | .sleepSched _ => true
  | _ => false

/-- The locks are held by those whose `pc` says so. -/
structure LockInv (C : Client Lock Obj Call Loc Act) (s : Threads Lock Obj Call Loc) : Prop where
  lock : Owns s.lock fun t l => C.holds (s.pc t) = some l
  ptable : Owns (fun _ : Unit => s.ptable) fun t _ => (s.pc t).inSleep = true
  sleepLock : ∀ t l chs c, s.pc t = .wakeup l chs (.sleep c) → C.lockOf c = l

namespace LockInv

theorem init (proc : Ptable) (obj : Lock → Obj) (l : Loc) : LockInv C (Threads.init proc obj l) :=
  ⟨fun _ _ => by simp [Threads.init, Client.holds], fun _ _ => by simp [Threads.init, Pc.inSleep],
    nofun⟩

theorem congr (hi : LockInv C s) (hlock : s'.lock = s.lock) (hptable : s'.ptable = s.ptable)
    (hpc : s'.pc = s.pc) : LockInv C s' := by
  refine ⟨?_, ?_, ?_⟩
  · rw [hlock, hpc]
    exact hi.lock
  · rw [hptable, hpc]
    exact hi.ptable
  · rw [hpc]
    exact hi.sleepLock

section
variable (t) (pc' : Pc Lock Call Loc)

theorem holds_of_ne {u : Slot} (hu : u ≠ t) (l : Lock) :
    C.holds ((s.setPc t pc').pc u) = some l ↔ C.holds (s.pc u) = some l := by
  rw [Threads.setPc_pc, if_neg hu]

theorem inSleep_of_ne {u : Slot} (hu : u ≠ t) :
    ((s.setPc t pc').pc u).inSleep = true ↔ (s.pc u).inSleep = true := by
  rw [Threads.setPc_pc, if_neg hu]

variable (hi : LockInv C s)
include hi

theorem lock_goto (hh : C.holds pc' = C.holds (s.pc t)) :
    Owns s.lock fun u l => C.holds ((s.setPc t pc').pc u) = some l := by
  refine hi.lock.congr fun u m => ?_
  by_cases h : u = t
  · subst h; simp [hh]
  · exact holds_of_ne t pc' h m

theorem ptable_goto (hin : pc'.inSleep = (s.pc t).inSleep) :
    Owns (fun _ : Unit => s.ptable) fun u _ => ((s.setPc t pc').pc u).inSleep = true := by
  refine hi.ptable.congr fun u _ => ?_
  by_cases h : u = t
  · subst h; simp [hin]
  · exact inSleep_of_ne t pc' h

theorem ptable_take (hfree : s.ptable = none) (hin : pc'.inSleep = true) :
    Owns (fun _ : Unit => some t) fun u _ => ((s.setPc t pc').pc u).inSleep = true := by
  have h := hi.ptable.take (l := ()) (t := t) hfree (fun m => by simp [hin])
    fun u hu _ => inSleep_of_ne t pc' hu
  rwa [update_eq_const_of_subsingleton] at h

theorem ptable_give (ht : (s.pc t).inSleep = true) (hin : pc'.inSleep = false) :
    Owns (fun _ : Unit => none) fun u _ => ((s.setPc t pc').pc u).inSleep = true := by
  have h := hi.ptable.give (l := ()) (t := t) ht (fun m => by simp [hin])
    fun u hu _ => inSleep_of_ne t pc' hu
  rwa [update_eq_const_of_subsingleton] at h

theorem sleepLock_goto (hsl : ∀ l chs c, pc' = .wakeup l chs (.sleep c) → C.lockOf c = l)
    (u : Slot) (l : Lock) (chs : List Chan) (c : Call)
    (hu : (s.setPc t pc').pc u = .wakeup l chs (.sleep c)) : C.lockOf c = l := by
  by_cases h : u = t
  · subst h; exact hsl l chs c (by simpa using hu)
  · exact hi.sleepLock u l chs c (by simpa [h] using hu)

theorem goto (hh : C.holds pc' = C.holds (s.pc t)) (hin : pc'.inSleep = (s.pc t).inSleep)
    (hsl : ∀ l chs c, pc' = .wakeup l chs (.sleep c) → C.lockOf c = l) :
    LockInv C (s.setPc t pc') :=
  ⟨hi.lock_goto t pc' hh, hi.ptable_goto t pc' hin, hi.sleepLock_goto t pc' hsl⟩

end

variable [DecidableEq Lock]

theorem give_goto {l : Lock} (hi : LockInv C s) (pc' : Pc Lock Call Loc)
    (ht : C.holds (s.pc t) = some l) (hh : C.holds pc' = none) :
    Owns (update s.lock l none) fun u m => C.holds ((s.setPc t pc').pc u) = some m := by
  refine hi.lock.give ht (fun m => ?_) fun u hu => holds_of_ne t pc' hu
  rw [Threads.setPc_pc, if_pos rfl, hh, ht, Option.some.injEq]
  exact ⟨nofun, fun h => absurd h.2.symm h.1⟩

theorem step (hi : LockInv C s) (h : C.step s a = some s') :
    LockInv C s' := by
  cases step_move h with
  | @acquire t c hr hpc hfree =>
    refine ⟨hi.lock.take hfree (fun m => ?_) fun u hu => holds_of_ne t (.locked c) hu,
      hi.ptable_goto t (.locked c) (by rw [hpc]; rfl), hi.sleepLock_goto t (.locked c) nofun⟩
    simp [hpc, Client.holds, eq_comm]
  | @body t c sec hr hpc hb =>
    have hgoto := hi.goto t (.wakeup (C.lockOf c) sec.wakes sec.next) (by rw [hpc]; rfl)
      (by rw [hpc]; rfl) fun l chs c' h => by
        injection h with hl _ hn
        rw [← hl]
        exact C.sleep_lockOf _ _ _ _ (hb ▸ hn)
    exact hgoto.congr rfl rfl rfl
  | @wake t l ch chs next hr hpc hfree =>
    have hgoto := hi.goto t (.wakeup l chs next) (by rw [hpc]; rfl) (by rw [hpc]; rfl)
      fun m chs' c h => by
        cases h
        exact hi.sleepLock t l (ch :: chs) c hpc
    exact hgoto.congr rfl rfl rfl
  | @leave t l loc hr hpc =>
    exact ⟨hi.give_goto (.out loc) (by rw [hpc]; rfl) rfl,
      hi.ptable_goto t (.out loc) (by rw [hpc]; rfl), hi.sleepLock_goto t (.out loc) nofun⟩
  | @sleep t l c hr hpc hfree =>
    have hl := hi.sleepLock t l [] c hpc
    exact ⟨hi.lock_goto t (.sleepRelease c) (by rw [hpc, Client.holds, hl]; rfl),
      hi.ptable_take t (.sleepRelease c) hfree rfl, hi.sleepLock_goto t (.sleepRelease c) nofun⟩
  | panic hr hpc => exact hi.congr rfl rfl rfl
  | @release t c hr hpc =>
    exact ⟨hi.give_goto (.sleepSched c) (by rw [hpc]; rfl) rfl,
      hi.ptable_goto t (.sleepSched c) (by rw [hpc]; rfl),
      hi.sleepLock_goto t (.sleepSched c) nofun⟩
  | @sched t c hr hpc =>
    exact ⟨hi.lock_goto t (.sched c) (by rw [hpc]; rfl),
      hi.ptable_give t (.sched c) (by rw [hpc]; rfl) rfl, hi.sleepLock_goto t (.sched c) nofun⟩
  | @call t a l c hr hpc ho =>
    exact hi.goto t (.acquire c) (by rw [hpc]; rfl) (by rw [hpc]; rfl) nofun
  | @code t a l l' obj hr hpc ho =>
    exact (hi.goto t (.out l') (by rw [hpc]; rfl) (by rw [hpc]; rfl) nofun).congr rfl rfl rfl
  | outPanic hr hpc ho => exact hi.congr rfl rfl rfl
  | @resume t c hfree hr hpc =>
    exact (hi.goto t (.acquire c) (by rw [hpc]; rfl) (by rw [hpc]; rfl) nofun).congr rfl rfl rfl
  | dispatch | yield | kill | other => exact hi.congr rfl rfl rfl

end LockInv

/-! ## Sleepers and wakeups -/

/-- The call that is going to sleep. -/
def Pc.toSleep : Pc Lock Call Loc → Option Call
  | .wakeup _ _ (.sleep c) | .sleepRelease c => some c
  | _ => none

/-- `t` sleeps in the call `c`, or has only `ptable.lock` left on its way there. -/
def Asleep (s : Threads Lock Obj Call Loc) (t : Slot) (c : Call) : Prop :=
  s.pc t = .sleepSched c ∨ s.pc t = .sched c ∧ (s.proc t).state = .sleeping

/-- A wakeup of the channel of `c` is still to be done by the holder of its lock. -/
def Due (C : Client Lock Obj Call Loc Act) (s : Threads Lock Obj Call Loc) (c : Call) : Prop :=
  ∃ u chs next, s.pc u = .wakeup (C.lockOf c) chs next ∧ C.chanOf c ∈ chs

/-- What a client owes its sleepers: `waits c o` says that the call `c` has to wait when the data
is `o`, `I` is an invariant of the client. -/
structure Wakes (C : Client Lock Obj Call Loc Act) (waits : Call → Obj → Prop)
    (I : Threads Lock Obj Call Loc → Prop) : Prop where
  sleeps : ∀ c k o c', (C.body c k o).next = .sleep c' → waits c' (C.body c k o).obj
  wakes : ∀ c k o c', C.lockOf c' = C.lockOf c → waits c' o → ¬ waits c' (C.body c k o).obj →
    C.chanOf c' ∈ (C.body c k o).wakes
  code : ∀ s t a l l' obj, I s → s.pc t = .out l → C.outside l a s.obj = some (.code obj l') →
    ∀ c, waits c (s.obj (C.lockOf c)) → waits c (obj (C.lockOf c))

/-- The same for one step: only the sleepers there are have to be woken. -/
structure WakesAt (C : Client Lock Obj Call Loc Act) (waits : Call → Obj → Prop)
    (s : Threads Lock Obj Call Loc) (a : ThreadAct Act) : Prop where
  sleeps : ∀ c k o c', (C.body c k o).next = .sleep c' → waits c' (C.body c k o).obj
  wakes : ∀ t c u c', a = .run t → s.pc t = .locked c → Asleep s u c' →
    C.lockOf c' = C.lockOf c → waits c' (s.obj (C.lockOf c)) →
    ¬ waits c' (C.body c (s.proc t).killed (s.obj (C.lockOf c))).obj →
    C.chanOf c' ∈ (C.body c (s.proc t).killed (s.obj (C.lockOf c))).wakes
  code : ∀ t a' l l' obj, s.pc t = .out l → C.outside l a' s.obj = some (.code obj l') →
    ∀ c, waits c (s.obj (C.lockOf c)) → waits c (obj (C.lockOf c))

/-- No wakeup is lost: who sleeps still has to wait, or is about to be woken. -/
structure WakeInv (C : Client Lock Obj Call Loc Act) (waits : Call → Obj → Prop)
    (s : Threads Lock Obj Call Loc) : Prop where
  toSleep : ∀ t c, (s.pc t).toSleep = some c → waits c (s.obj (C.lockOf c))
  asleep : ∀ t c, Asleep s t c → waits c (s.obj (C.lockOf c)) ∨ Due C s c
  chan : ∀ t c, s.pc t = .sched c → (s.proc t).state = .sleeping →
    (s.proc t).chan = some (C.chanOf c)

variable {waits : Call → Obj → Prop} {I : Threads Lock Obj Call Loc → Prop} {pc' : Pc Lock Call Loc}

theorem Wakes.at (W : Wakes C waits I) (hI : I s) (a : ThreadAct Act) : WakesAt C waits s a :=
  ⟨W.sleeps, fun _ c _ c' _ _ _ => W.wakes c _ _ c', fun t a' l l' obj => W.code s t a' l l' obj hI⟩

theorem LockInv.holds_of_toSleep (hi : LockInv C s) {u : Slot} {c : Call}
    (h : (s.pc u).toSleep = some c) : C.holds (s.pc u) = some (C.lockOf c) := by
  have hsl := hi.sleepLock u
  revert h hsl
  cases s.pc u with
  | wakeup l chs next => cases next <;> simp +contextual [Pc.toSleep, Client.holds]
  | _ => simp +contextual [Pc.toSleep, Client.holds]

namespace WakeInv

theorem init (proc : Ptable) (obj : Lock → Obj) (l : Loc) :
    WakeInv C waits (Threads.init proc obj l) :=
  ⟨nofun, fun _ _ h => (h.elim nofun fun h => nomatch h.1 : False).elim, nofun⟩

section
variable (hw : WakeInv C waits s)
include hw

theorem frame (hpc : s'.pc = s.pc) (hobj : s'.obj = s.obj)
    (hproc : ∀ u c, s.pc u = .sched c → (s'.proc u).state = .sleeping →
      (s'.proc u) = s.proc u) : WakeInv C waits s' := by
  refine ⟨fun u c h => ?_, fun u c h => ?_, fun u c h hs => ?_⟩
  · rw [hpc] at h
    rw [hobj]
    exact hw.toSleep u c h
  · have hs : Asleep s u c := by
      rcases h with h | ⟨h, hs⟩
      · exact .inl (hpc ▸ h)
      · rw [hpc] at h
        exact .inr ⟨h, hproc u c h hs ▸ hs⟩
    rw [hobj, Due, hpc]
    exact hw.asleep u c hs
  · rw [hpc] at h
    have hp := hproc u c h hs
    rw [hp] at hs ⊢
    exact hw.chan u c h hs

theorem goto (hpc : s'.pc = update s.pc t pc') (hproc : ∀ u, u ≠ t → s'.proc u = s.proc u)
    (hobj : ∀ c, waits c (s.obj (C.lockOf c)) → waits c (s'.obj (C.lockOf c)))
    (hdue : ∀ l ch chs next, s.pc t ≠ .wakeup l (ch :: chs) next)
    (hto : ∀ c, pc'.toSleep = some c → (s.pc t).toSleep = some c)
    (hrel : ∀ c, pc' = .sleepSched c → waits c (s.obj (C.lockOf c)) ∨ Due C s c)
    (hsched : ∀ c, pc' = .sched c → (waits c (s.obj (C.lockOf c)) ∨ Due C s c) ∧
      (s'.proc t).chan = some (C.chanOf c)) : WakeInv C waits s' := by
  have hself : s'.pc t = pc' := by rw [hpc, update_self]
  have hne : ∀ u, u ≠ t → s'.pc u = s.pc u := fun u hu => by rw [hpc, update_of_ne hu]
  refine ⟨fun u c h => hobj c (hw.toSleep u c ?_), fun u c h => ?_, fun u c h hs => ?_⟩
  · rcases eq_or_ne u t with rfl | hu
    · exact hto c (hself ▸ h)
    · exact hne u hu ▸ h
  · have hold : waits c (s.obj (C.lockOf c)) ∨ Due C s c := by
      rcases eq_or_ne u t with rfl | hu
      · rw [Asleep, hself] at h
        exact h.elim (hrel c) fun h => (hsched c h.1).1
      · rw [Asleep, hne u hu, hproc u hu] at h
        exact hw.asleep u c h
    rcases hold with h1 | ⟨v, chs, next, hv, hm⟩
    · exact .inl (hobj c h1)
    · have hvt : v ≠ t := by
        rintro rfl
        obtain ⟨ch, chs', rfl⟩ := List.exists_cons_of_ne_nil (List.ne_nil_of_mem hm)
        exact hdue _ _ _ _ hv
      exact .inr ⟨v, chs, next, hne v hvt ▸ hv, hm⟩
  · rcases eq_or_ne u t with rfl | hu
    · exact (hsched c (hself ▸ h)).2
    · rw [hne u hu] at h
      rw [hproc u hu] at hs ⊢
      exact hw.chan u c h hs

end

theorem wake {l : Lock} {ch : Chan} {chs : List Chan} {next : Then Call Loc} (hi : LockInv C s)
    (hw : WakeInv C waits s) (hpc : s.pc t = .wakeup l (ch :: chs) next) (hfree : s.ptable = none) :
    WakeInv C waits ({ s with proc := wakeup1 ch s.proc }.setPc t (.wakeup l chs next)) := by
  refine ⟨fun u c h => ?_, fun u c h => ?_, fun u c h hs => ?_⟩
  · refine hw.toSleep u c ?_
    rw [Threads.setPc_pc] at h
    split at h
    · subst u
      rw [hpc]
      cases next <;> exact h
    · exact h
  · have hut : u ≠ t := by
      rintro rfl
      simp [Asleep] at h
    simp only [Asleep, Threads.setPc_pc, if_neg hut] at h
    rcases h with h | ⟨h, hs⟩
    · exact absurd (by rw [h]; rfl) (hi.ptable.not_holds (l := ()) hfree u)
    · obtain ⟨hs0, hch⟩ := wakeup1_sleeping hs
      have hchan := hw.chan u c h hs0
      rcases hw.asleep u c (.inr ⟨h, hs0⟩) with hwait | ⟨v, chs', next', hv, hm⟩
      · exact .inl hwait
      · right
        by_cases hvt : v = t
        · subst hvt
          rw [hpc] at hv
          cases hv
          have hne : C.chanOf c ≠ ch := fun h => hch (h ▸ hchan)
          exact ⟨v, chs, next, by simp, (List.mem_cons.1 hm).resolve_left hne⟩
        · exact ⟨v, chs', next', by simpa [hvt] using hv, hm⟩
  · have hut : u ≠ t := by
      rintro rfl
      simp at h
    simp only [Threads.setPc] at hs ⊢
    rw [wakeup1_chan]
    exact hw.chan u c (by simpa [hut] using h) (wakeup1_sleeping hs).1

variable [DecidableEq Lock]

theorem body {c : Call} {sec : Section Obj Call Loc}
    (W : WakesAt C waits s (.run t : ThreadAct Act)) (hi : LockInv C s) (hw : WakeInv C waits s)
    (hpc : s.pc t = .locked c) (hb : C.body c (s.proc t).killed (s.obj (C.lockOf c)) = sec) :
    WakeInv C waits ({ s with obj := update s.obj (C.lockOf c) sec.obj }.setPc t
      (.wakeup (C.lockOf c) sec.wakes sec.next)) := by
  subst hb
  have hother : ∀ u c', C.holds (s.pc u) = some (C.lockOf c') → u ≠ t →
      C.lockOf c' ≠ C.lockOf c := fun u c' hu hut hl =>
    hut (hi.lock.unique hu (by rw [hpc, hl]; rfl))
  refine ⟨fun u c' h => ?_, fun u c' h => ?_, fun u c' h hs => ?_⟩
  · rw [Threads.setPc_pc] at h
    split at h
    · have hn : (C.body c (s.proc t).killed (s.obj (C.lockOf c))).next = .sleep c' := by
        revert h
        cases (C.body c (s.proc t).killed (s.obj (C.lockOf c))).next <;> simp [Pc.toSleep]
      simp only [Threads.setPc, C.sleep_lockOf _ _ _ _ hn, update_self]
      exact W.sleeps _ _ _ _ hn
    · rename_i hu
      have hl := hother u c' (hi.holds_of_toSleep h) hu
      simp only [Threads.setPc, update_of_ne hl]
      exact hw.toSleep u c' h
  · have hut : u ≠ t := by
      rintro rfl
      simp [Asleep] at h
    have hs : Asleep s u c' := by simpa [Asleep, hut, Threads.setPc] using h
    rcases hw.asleep u c' hs with hwait | ⟨v, chs, next, hv, hm⟩
    · by_cases hl : C.lockOf c' = C.lockOf c
      · by_cases hnew : waits c' (C.body c (s.proc t).killed (s.obj (C.lockOf c))).obj
        · left
          simpa [Threads.setPc, hl] using hnew
        · right
          refine ⟨t, _, (C.body c (s.proc t).killed (s.obj (C.lockOf c))).next, ?_,
            W.wakes t c u c' rfl hpc hs hl (hl ▸ hwait) hnew⟩
          rw [Threads.setPc_pc, if_pos rfl, hl]
      · left
        simpa [Threads.setPc, hl] using hwait
    · have hvt : v ≠ t := by
        rintro rfl
        rw [hpc] at hv
        cases hv
      exact .inr ⟨v, chs, next, by simpa [hvt] using hv, hm⟩
  · have hut : u ≠ t := by
      rintro rfl
      simp at h
    exact hw.chan u c' (by simpa [hut] using h) hs

theorem step_of (W : WakesAt C waits s a) (hi : LockInv C s)
    (hw : WakeInv C waits s) (h : C.step s a = some s') : WakeInv C waits s' := by
  cases step_move h with
  | acquire hr hpc _ | leave hr hpc | call hr hpc _ =>
    exact hw.goto rfl (fun _ _ => rfl) (fun _ => id) (by rw [hpc]; nofun) nofun nofun nofun
  | body hr hpc hb => exact hw.body W hi hpc hb
  | wake hr hpc hfree => exact hw.wake hi hpc hfree
  | sleep hr hpc hfree =>
    exact hw.goto rfl (fun _ _ => rfl) (fun _ => id) (by rw [hpc]; nofun)
      (by rw [hpc]; exact fun _ => id) nofun nofun
  | panic hr hpc => exact hw.frame rfl rfl fun _ _ _ _ => rfl
  | @release t c hr hpc =>
    refine hw.goto rfl (fun _ _ => rfl) (fun _ => id) (by rw [hpc]; nofun) nofun (fun c' hc => ?_)
      nofun
    cases hc
    exact .inl (hw.toSleep t c (by rw [hpc]; rfl))
  | @sched t c hr hpc =>
    refine hw.goto rfl (fun u hu => update_of_ne hu _ _) (fun _ => id)
      (by rw [hpc]; nofun) nofun nofun fun c' hc => ?_
    cases hc
    exact ⟨hw.asleep t c (.inl hpc), by simp [Threads.setPc, Threads.setProc]⟩
  | code hr hpc ho =>
    exact hw.goto rfl (fun _ _ => rfl) (W.code _ _ _ _ _ hpc ho) (by rw [hpc]; nofun) nofun nofun
      nofun
  | outPanic hr hpc ho => exact hw.frame rfl rfl fun _ _ _ _ => rfl
  | resume hfree hr hpc =>
    exact hw.goto rfl (fun u hu => update_of_ne hu _ _) (fun _ => id) (by rw [hpc]; nofun)
      nofun nofun nofun
  | dispatch hfree hr hpc =>
    refine hw.frame rfl rfl fun u c hu _ => update_of_ne ?_ _ _
    rintro rfl
    exact hpc c hu
  | kill hfree => exact hw.frame rfl rfl fun u c _ hs => kill_sleeping hs
  | yield _ _ hpc | other hpc =>
    refine hw.frame rfl rfl fun u c hu _ => update_of_ne ?_ _ _
    rintro rfl
    rw [hu] at hpc
    cases hpc

theorem step (W : Wakes C waits I) (hI : I s) (hi : LockInv C s)
    (hw : WakeInv C waits s) (h : C.step s a = some s') : WakeInv C waits s' :=
  hw.step_of (W.at hI a) hi h

end WakeInv

/-- **No lost wakeup**: with its lock free, a thread that sleeps in a call has to wait. -/
theorem no_lost_wakeup {c : Call} (hi : LockInv C s) (hw : WakeInv C waits s)
    (hfree : s.lock (C.lockOf c) = none) (ht : Asleep s t c) : waits c (s.obj (C.lockOf c)) := by
  rcases hw.asleep t c ht with h | ⟨u, chs, next, hu, -⟩
  · exact h
  · exact absurd (by rw [hu]; rfl) (hi.lock.not_holds hfree u)

end Xv6
