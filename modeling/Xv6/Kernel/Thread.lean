import Xv6.Kernel.Proc
import Xv6.Lib.Run

/-!
# Kernel threads under `sleep` and `wakeup`

The mailboxes, the log, the pipes and the sleep-locks all use `sleep` and `wakeup` in one way:
data guarded by a spinlock, calls that take the lock, check a condition, and either `sleep` and
check again or change the data, `wakeup` the sleepers and release. A `Client` is such a use: the
code run under the lock (`body`) and outside of it (`outside`). `step` runs any number of
processes over it, one slot of the process table each, interleaved as the locks allow:

* `acquire(lk)` waits until the lock is free; `body` runs with the lock held;
* `wakeup(chan)` takes `ptable.lock` with `lk` held, and `wakeup1` wakes every sleeper;
* `sleep(chan, lk)` is cut where other processors can act in between: it takes `ptable.lock`
  (`sleepRelease`), only then releases `lk` (`sleepSched`), sets `p->chan` and `SLEEPING` and calls
  `sched`, which gives `ptable.lock` up (`sched`);
* the scheduler dispatches any runnable process; a process that was in `sleep` clears `p->chan`,
  releases `ptable.lock` and takes `lk` again;
* `kill` and timer interrupts (`yield`) happen whenever `ptable.lock` is free, and a process that
  is in no call of the client may do anything else the kernel lets it do (`other`).
-/

namespace Xv6

/-- How a critical section ends. -/
inductive Then (Call Loc : Type)
  /-- `sleep` on the call's channel, and go on as the call `c`. -/
  | sleep (c : Call)
  /-- Release the lock and go on at `l`. -/
  | leave (l : Loc)
  | panic (msg : String)
  deriving DecidableEq

/-- A critical section: the data it leaves, the channels it wakes, how it ends. -/
structure Section (Obj Call Loc : Type) where
  obj : Obj
  wakes : List Chan
  next : Then Call Loc

/-- What a thread does outside of the locks. -/
inductive Outside (Lock Obj Call Loc : Type)
  /-- Enter a call, which acquires its lock. -/
  | call (c : Call)
  /-- Code that touches the data without the lock. -/
  | code (obj : Lock → Obj) (l : Loc)
  | panic (msg : String)

/-- What a call returned: its value, and the bytes copied to the caller's buffer. -/
structure Ret where
  value : Int
  buf : List UInt8
  deriving DecidableEq

/-- A use of `sleep` and `wakeup`: `Call` are the calls that hold a lock (and may sleep), `Loc` the
places of a thread outside of the locks, `Act` the choices it has there. -/
structure Client (Lock Obj Call Loc Act : Type) where
  lockOf : Call → Lock
  chanOf : Call → Chan
  /-- The code under the lock, from the check of the wait condition on, with `p->killed`. -/
  body : Call → Bool → Obj → Section Obj Call Loc
  outside : Loc → Act → (Lock → Obj) → Option (Outside Lock Obj Call Loc)
  /-- `sleep` takes the lock again that it released. -/
  sleep_lockOf : ∀ c k o c', (body c k o).next = .sleep c' → lockOf c' = lockOf c

/-- Where a thread is. -/
inductive Pc (Lock Call Loc : Type)
  | out (l : Loc)
  | acquire (c : Call)
  | locked (c : Call)
  /-- Under `lk`, the data changed, the channels `chs` still to be woken. -/
  | wakeup (lk : Lock) (chs : List Chan) (next : Then Call Loc)
  /-- In `sleep`, with `lk` and `ptable.lock`. -/
  | sleepRelease (c : Call)
  /-- In `sleep`, with `ptable.lock`. -/
  | sleepSched (c : Call)
  /-- Switched out in `sleep`. -/
  | sched (c : Call)
  deriving DecidableEq

structure Threads (Lock Obj Call Loc : Type) where
  proc : Ptable
  pc : Slot → Pc Lock Call Loc
  obj : Lock → Obj
  /-- The holder of each lock, and of `ptable.lock`. -/
  lock : Lock → Option Slot
  ptable : Option Slot
  panicked : Option String

inductive ThreadAct (Act : Type)
  | run (t : Slot)
  | outside (t : Slot) (a : Act)
  | dispatch (t : Slot)
  | yield (t : Slot)
  | kill (pid : Int)
  | other (t : Slot) (r : Proc)

/-- The thread that acts. -/
def ThreadAct.actor {Act : Type} : ThreadAct Act → Option Slot
  | .run t | .outside t _ | .dispatch t | .yield t | .other t _ => some t
  | .kill _ => none

section
variable {Lock Obj Call Loc Act : Type} [DecidableEq Lock]

namespace Threads

def setPc (s : Threads Lock Obj Call Loc) (t : Slot) (pc : Pc Lock Call Loc) :
    Threads Lock Obj Call Loc := { s with pc := Function.update s.pc t pc }

def setProc (s : Threads Lock Obj Call Loc) (t : Slot) (r : Proc) : Threads Lock Obj Call Loc :=
  { s with proc := Function.update s.proc t r }

def setLock (s : Threads Lock Obj Call Loc) (l : Lock) (o : Option Slot) :
    Threads Lock Obj Call Loc := { s with lock := Function.update s.lock l o }

end Threads

open Threads

/-- The next step of thread `t`, which is running and inside a call. -/
def runThread (C : Client Lock Obj Call Loc Act) (s : Threads Lock Obj Call Loc) (t : Slot) :
    Option (Threads Lock Obj Call Loc) :=
  match s.pc t with
  | .out _ | .sched _ => none
  | .acquire c =>
    -- the spin of `acquire`
    if s.lock (C.lockOf c) = none then some ((s.setLock (C.lockOf c) (some t)).setPc t (.locked c))
    else none
  | .locked c =>
    let l := C.lockOf c
    let sec := C.body c (s.proc t).killed (s.obj l)
    some ({ s with obj := Function.update s.obj l sec.obj }.setPc t (.wakeup l sec.wakes sec.next))
  | .wakeup l (ch :: chs) next =>
    if s.ptable = none then some ({ s with proc := wakeup1 ch s.proc }.setPc t (.wakeup l chs next))
    else none
  | .wakeup l [] (.leave loc) => some ((s.setLock l none).setPc t (.out loc))
  | .wakeup _ [] (.sleep c) =>
    if s.ptable = none then some ({ s with ptable := some t }.setPc t (.sleepRelease c)) else none
  | .wakeup _ [] (.panic msg) => some { s with panicked := some msg }
  | .sleepRelease c => some ((s.setLock (C.lockOf c) none).setPc t (.sleepSched c))
  | .sleepSched c =>
    some (({ s with ptable := none }.setProc t
      { s.proc t with chan := some (C.chanOf c), state := .sleeping }).setPc t (.sched c))

/-- The scheduler switches to `t`, which goes on where it called `sched` or was interrupted. -/
def dispatchThread (s : Threads Lock Obj Call Loc) (t : Slot) : Threads Lock Obj Call Loc :=
  match s.pc t with
  | .sched c =>
    (s.setProc t { s.proc t with state := .running, chan := none }).setPc t (.acquire c)
  | _ => s.setProc t { s.proc t with state := .running }

/-- A timer interrupt does not come with a spinlock held. -/
def Pc.interruptible : Pc Lock Call Loc → Bool
  | .out _ | .acquire _ => true
  | _ => false

def Client.step (C : Client Lock Obj Call Loc Act) (s : Threads Lock Obj Call Loc) :
    ThreadAct Act → Option (Threads Lock Obj Call Loc)
  | .run t =>
    if s.panicked = none ∧ (s.proc t).state = .running then runThread C s t else none
  | .outside t a =>
    if s.panicked = none ∧ (s.proc t).state = .running then
      match s.pc t with
      | .out l =>
        match C.outside l a s.obj with
        | some (.call c) => some (s.setPc t (.acquire c))
        | some (.code obj l') => some ({ s with obj }.setPc t (.out l'))
        | some (.panic msg) => some { s with panicked := some msg }
        | none => none
      | _ => none
    else none
  | .dispatch t =>
    if s.panicked = none ∧ s.ptable = none ∧ (s.proc t).state = .runnable then
      some (dispatchThread s t)
    else none
  | .yield t =>
    if s.panicked = none ∧ s.ptable = none ∧ (s.proc t).state = .running ∧
        (s.pc t).interruptible then
      some (s.setProc t { s.proc t with preempted := false, state := .runnable })
    else none
  | .kill pid =>
    if s.panicked = none ∧ s.ptable = none then some { s with proc := (kill pid s.proc).2 }
    else none
  | .other t r =>
    match s.pc t with
    | .out _ => some (s.setProc t r)
    | _ => none

/-- A critical section that was run: by which thread, in which call, on which data. -/
structure Entry (Obj Call Loc : Type) where
  slot : Slot
  call : Call
  before : Obj
  sec : Section Obj Call Loc

/-- The critical section run by a step, if any. -/
def Client.sections (C : Client Lock Obj Call Loc Act) (s : Threads Lock Obj Call Loc) :
    ThreadAct Act → List (Entry Obj Call Loc)
  | .run t =>
    match s.pc t with
    | .locked c =>
      let o := s.obj (C.lockOf c)
      [⟨t, c, o, C.body c (s.proc t).killed o⟩]
    | _ => []
  | _ => []

/-- All threads outside of the calls at `l`, the locks free. -/
def Threads.init (proc : Ptable) (obj : Lock → Obj) (l : Loc) : Threads Lock Obj Call Loc :=
  ⟨proc, fun _ => .out l, obj, fun _ => none, none, none⟩

end

/-- Two running processes. -/
def pairProcs : Ptable := fun p =>
  if p = 0 then { state := .running, pid := 1 } else if p = 1 then { state := .running, pid := 2 }
  else {}

end Xv6
