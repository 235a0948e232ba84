import Xv6.Sched.Lottery

/-!
# Processes and processors

The process table under several processors, from `proc.c`. A processor (`Ctl`) is in the loop of
`scheduler` without the lock, or runs the kernel thread of its process `c->proc`, or is in one of
the two halves of a switch, with `ptable.lock` held across `swtch`: `resume`, where the process goes
on after `sched` (or starts in `forkret`) and has yet to release the lock, and `back`, where the
scheduler goes on after `swtch` and has yet to clear `c->proc`. A critical section without a switch
is one step; so is each half of one with a switch.

A process that is switched out goes on at its `Ctx`. `wait` sleeps with `ptable.lock` itself and so
goes on with its scan under the lock. `fork` is cut after `allocproc`, after `np->parent = curproc`
and at its end (`Fork`); its error paths reset `np->state` without the lock.
-/

namespace Xv6

open Function

inductive Ctl
  | scheduler
  | run
  | resume
  | back
  deriving DecidableEq, Repr

/-- Where `swtch` goes on in a process. -/
inductive Ctx
  | forkret
  | yield
  /-- In a `sleep` that released another lock. -/
  | sleep
  /-- In the `sleep` of `wait`. -/
  | wait
  deriving DecidableEq, Repr

/-- How far a process is in `fork`. -/
inductive Fork
  | none
  | alloc (np : Slot)
  | parent (np : Slot)
  deriving DecidableEq, Repr

/-- The new process of a `fork` in progress. -/
def Fork.child : Fork → Option Slot
  | .none => Option.none
  | .alloc np | .parent np => some np

structure Machine (Cpu : Type) where
  pt : Ptable
  /-- `c->proc`. -/
  proc : Cpu → Option Slot
  ctl : Cpu → Ctl
  /-- The processor that holds `ptable.lock`. -/
  lock : Option Cpu
  ctx : Slot → Ctx
  fork : Slot → Fork
  nextpid : Int
  lfsr : BitVec 16
  initproc : Slot
  panicked : Option String

inductive MachineAct (Cpu : Type)
  /-- A pass of the loop of `scheduler`, with at most `fuel` calls of `rand`. -/
  | schedule (c : Cpu) (fuel : Nat)
  | resume (c : Cpu)
  | back (c : Cpu)
  | yield (c : Cpu)
  | sleep (c : Cpu) (chan : Chan)
  | wakeup (chan : Chan)
  | kill (pid : Int)
  | settickets (pid tickets : Int)
  | allocproc (c : Cpu)
  /-- `kalloc` or `copyuvm` fails in `fork`. -/
  | forkFail (c : Cpu)
  | forkParent (c : Cpu)
  | forkDone (c : Cpu)
  | exit (c : Cpu)
  | wait (c : Cpu)

/-! ## `exit` and `wait` -/

/-- `wakeup1(p->parent)`; nobody sleeps on the null pointer. -/
def wakeParent (pt : Ptable) (p : Slot) : Ptable :=
  match (pt p).parent with
  | some q => wakeup1 (.proc q) pt
  | none => pt

/-- The loop of `exit` over the slots `qs`: children of `p` go to `initproc`. -/
def reparent (p initproc : Slot) : List Slot → Ptable → Ptable
  | [], pt => pt
  | q :: qs, pt =>
    if (pt q).parent = some p then
      let pt := update pt q { pt q with parent := some initproc }
      reparent p initproc qs (if (pt q).state = .zombie then wakeup1 (.proc initproc) pt else pt)
    else reparent p initproc qs pt

/-- The scan of `wait`: the first exited child of `p`. -/
def zombieChild (pt : Ptable) (p : Slot) : Option Slot :=
  slots.find? fun q => (pt q).parent = some p ∧ (pt q).state = .zombie

def havekids (pt : Ptable) (p : Slot) : Bool := slots.any fun q => (pt q).parent = some p

/-- What `wait` does to the child it found. -/
def reap (r : Proc) : Proc := { r with pid := 0, parent := none, killed := false, state := .unused }

section
variable {Cpu : Type} [DecidableEq Cpu]

namespace Machine

def setProc (s : Machine Cpu) (p : Slot) (r : Proc) : Machine Cpu :=
  { s with pt := update s.pt p r }

/-- Processor `c` releases `ptable.lock` and is at `k`. -/
def release (s : Machine Cpu) (c : Cpu) (k : Ctl) : Machine Cpu :=
  { s with lock := none, ctl := update s.ctl c k }

/-- Process `p` on `c` calls `sched` with `ptable.lock` held, its record now `r`. -/
def sched (s : Machine Cpu) (c : Cpu) (p : Slot) (r : Proc) (x : Ctx) : Machine Cpu :=
  { s.setProc p r with
    lock := some c, ctl := update s.ctl c .back, ctx := update s.ctx p x }

/-- The loop of `wait`, from the start of its scan on, in process `p` on `c` with the lock. -/
def waitScan (s : Machine Cpu) (c : Cpu) (p : Slot) : Machine Cpu :=
  match zombieChild s.pt p with
  | some q => (s.setProc q (reap (s.pt q))).release c .run
  | none =>
    if !havekids s.pt p || (s.pt p).killed then s.release c .run
    else s.sched c p { s.pt p with chan := some (.proc p), state := .sleeping } .wait

/-- A pass of the loop of `scheduler` on `c`, up to the `swtch` or the `release`. -/
def schedule (s : Machine Cpu) (c : Cpu) (r : Pass) : Machine Cpu :=
  match r.winner with
  | some p =>
    { s.setProc p { s.pt p with state := .running } with
      lfsr := r.lfsr, lock := some c, ctl := update s.ctl c .resume,
      proc := update s.proc c (some p) }
  | none => { s with lfsr := r.lfsr }

/-- Process `p` goes on after its `sched`, on `c`. -/
def resume (s : Machine Cpu) (c : Cpu) (p : Slot) : Machine Cpu :=
  match s.ctx p with
  | .forkret | .yield => s.release c .run
  | .sleep => (s.setProc p { s.pt p with chan := none }).release c .run
  | .wait => (s.setProc p { s.pt p with chan := none }).waitScan c p

/-- `exit`, in process `p` on `c`. -/
def exit (s : Machine Cpu) (c : Cpu) (p : Slot) : Machine Cpu :=
  if p = s.initproc then { s with panicked := some "init exiting" }
  else
    let s := { s with pt := reparent p s.initproc slots (wakeParent s.pt p) }
    s.sched c p { s.pt p with state := .zombie } (s.ctx p)

/-- A step of the process that runs on `c`. -/
def onProc (s : Machine Cpu) (c : Cpu) (f : Slot → Option (Machine Cpu)) : Option (Machine Cpu) :=
  if s.ctl c = .run then (s.proc c).bind f else none

def step (s : Machine Cpu) : MachineAct Cpu → Option (Machine Cpu)
  | .schedule c fuel =>
    if s.panicked = none ∧ s.lock = none ∧ s.ctl c = .scheduler then
      (lottery s.pt fuel s.lfsr).map (s.schedule c)
    else none
  | .resume c =>
    if s.panicked = none ∧ s.ctl c = .resume then (s.proc c).map (s.resume c) else none
  | .back c =>
    if s.panicked = none ∧ s.ctl c = .back then
      some ({ s with proc := update s.proc c none }.release c .scheduler)
    else none
  | .yield c =>
    if s.panicked = none ∧ s.lock = none then
      s.onProc c fun p =>
        some (s.sched c p { s.pt p with preempted := false, state := .runnable } .yield)
    else none
  | .sleep c chan =>
    if s.panicked = none ∧ s.lock = none then
      s.onProc c fun p =>
        if s.fork p = .none then
          some (s.sched c p { s.pt p with chan := some chan, state := .sleeping } .sleep)
        else none
    else none
  | .wakeup chan =>
    if s.panicked = none ∧ s.lock = none then some { s with pt := wakeup1 chan s.pt } else none
  | .kill pid =>
    if s.panicked = none ∧ s.lock = none then some { s with pt := (kill pid s.pt).2 } else none
  | .settickets pid tickets =>
    if s.panicked = none ∧ s.lock = none then some { s with pt := (settickets pid tickets s.pt).2 }
    else none
  | .allocproc c =>
    if s.panicked = none ∧ s.lock = none then
      s.onProc c fun p =>
        if s.fork p = .none then
          match findUnused s.pt with
          | some np =>
            some { s.setProc np (embryoProc (s.pt np) s.nextpid) with
              nextpid := int32 (s.nextpid + 1), ctx := update s.ctx np .forkret,
              fork := update s.fork p (.alloc np) }
          | none => some s
        else none
    else none
  | .forkFail c =>
    if s.panicked = none then
      s.onProc c fun p =>
        match s.fork p with
        | .alloc np =>
          some { s.setProc np { s.pt np with state := .unused } with
            fork := update s.fork p .none }
        | _ => none
    else none
  | .forkParent c =>
    if s.panicked = none then
      s.onProc c fun p =>
        match s.fork p with
        | .alloc np =>
          some { s.setProc np { s.pt np with parent := some p } with
            fork := update s.fork p (.parent np) }
        | _ => none
    else none
  | .forkDone c =>
    if s.panicked = none ∧ s.lock = none then
      s.onProc c fun p =>
        match s.fork p with
        | .parent np =>
          some { s.setProc np { s.pt np with state := .runnable } with
            fork := update s.fork p .none }
        | _ => none
    else none
  | .exit c =>
    if s.panicked = none ∧ s.lock = none then
      s.onProc c fun p => if s.fork p = .none then some (s.exit c p) else none
    else none
  | .wait c =>
    if s.panicked = none ∧ s.lock = none then
      s.onProc c fun p => if s.fork p = .none then some (s.waitScan c p) else none
    else none

/-- After `userinit`: `initproc` is runnable, every processor is in `scheduler`. -/
def boot : Machine Cpu where
  pt := update (fun _ => {}) 0 { embryoProc {} 1 with state := .runnable }
  proc _ := none
  ctl _ := .scheduler
  lock := none
  ctx _ := .forkret
  fork _ := .none
  nextpid := 2
  lfsr := lfsrInit
  initproc := 0
  panicked := none

end Machine

end

end Xv6
