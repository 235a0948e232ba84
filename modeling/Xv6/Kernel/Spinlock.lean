import Xv6.Kernel.Proc

/-!
# Spinlocks and the interrupt flag

`spinlock.c`, `mycpu` and `myproc`, `sched` and the loop of `scheduler`, on any number of CPUs.
`ncli` and `intena` are fields of the CPU, the interrupt flag is a bit of its `eflags`, and a kernel
thread may leave one CPU in `sched` and come back on another. A function of `spinlock.c` runs on one
CPU with its interrupts off, so it is one step of the machine, except where they may be on or where
another CPU must act first: `pushcli` is cut after `readeflags`, and `acquire` after each `xchg`. A
panic has no next state.
-/

namespace Xv6

open Function (update)

/-- `struct cpu`, and `FL_IF` in the `eflags` of the CPU. `intena` is tested against 0 only. -/
structure Cpu where
  ncli : Int := 0
  intena : Bool := false
  flIf : Bool := false
  deriving DecidableEq

structure Spinlock where
  locked : Nat := 0
  cpu : Option Nat := none
  deriving DecidableEq

/-- What the code that runs on one CPU reads and writes: its `struct cpu`, and the locks. -/
structure Core (L : Type) where
  cpu : Cpu
  lock : L → Spinlock

section
variable {L : Type}

/-- Code on one CPU; the error is the argument of `panic`. -/
abbrev CoreM (L : Type) := EStateM String (Core L)

/-- `readeflags() & FL_IF`. -/
def readeflags : CoreM L Bool := return (← get).cpu.flIf

def modifyCpu (f : Cpu → Cpu) : CoreM L Unit := modify fun s => { s with cpu := f s.cpu }

def cli : CoreM L Unit := modifyCpu fun c => { c with flIf := false }

def sti : CoreM L Unit := modifyCpu fun c => { c with flIf := true }

/-- `mycpu`. The APIC id of the CPU that runs is always found. -/
def mycpu : CoreM L Cpu := do
  if ← readeflags then throw "mycpu called with interrupts enabled\n"
  return (← get).cpu

/-- `pushcli` after `eflags = readeflags()`. -/
def pushcliFrom (eflags : Bool) : CoreM L Unit := do
  cli
  if (← mycpu).ncli = 0 then modifyCpu fun c => { c with intena := eflags }
  modifyCpu fun c => { c with ncli := c.ncli + 1 }

def pushcli : CoreM L Unit := do
  let eflags ← readeflags
  pushcliFrom eflags

def popcli : CoreM L Unit := do
  if ← readeflags then throw "popcli - interruptible"
  modifyCpu fun c => { c with ncli := c.ncli - 1 }
  let c ← mycpu
  if c.ncli < 0 then throw "popcli"
  if c.ncli = 0 ∧ c.intena then sti

/-- `myproc` and `switchuvm`: what they do between `pushcli` and `popcli` is not about
interrupts. -/
def pushpop : CoreM L Unit := do
  pushcli
  popcli

section
variable [DecidableEq L] (me : Nat)

def modifyLock (lk : L) (f : Spinlock → Spinlock) : CoreM L Unit :=
  modify fun s => { s with lock := update s.lock lk (f (s.lock lk)) }

/-- `holding`, on CPU `me`. -/
def holding (lk : L) : CoreM L Bool := do
  pushcli
  let l := (← get).lock lk
  let r := l.locked ≠ 0 ∧ l.cpu = some me
  popcli
  return r

/-- `acquire` after `readeflags`, up to its loop. -/
def acquireFrom (eflags : Bool) (lk : L) : CoreM L Unit := do
  pushcliFrom eflags
  if ← holding me lk then throw "acquire"

/-- One `xchg` of the loop of `acquire`, and what follows the loop if it is the last. -/
def acquireXchg (lk : L) : CoreM L Bool := do
  let old := ((← get).lock lk).locked
  modifyLock lk fun l => { l with locked := 1 }
  if old ≠ 0 then return false
  let _ ← mycpu
  modifyLock lk fun l => { l with cpu := some me }
  return true

def release (lk : L) : CoreM L Unit := do
  unless ← holding me lk do throw "release"
  modifyLock lk fun l => { l with cpu := none }
  modifyLock lk fun l => { l with locked := 0 }
  popcli

/-- `sched` up to `swtch`, for a process that is in `state`: the value of `intena`. -/
def schedSave (ptable : L) (state : ProcState) : CoreM L Bool := do
  pushpop
  unless ← holding me ptable do throw "sched ptable.lock"
  if (← mycpu).ncli ≠ 1 then throw "sched locks"
  if state = .running then throw "sched running"
  if ← readeflags then throw "sched interruptible"
  return (← mycpu).intena

end

/-- `sched` after `swtch`. -/
def schedRestore (intena : Bool) : CoreM L Unit := do
  let _ ← mycpu
  modifyCpu fun c => { c with intena }

end

/-- Who called `pushcli`: the code of the thread, `acquire` in it, or the `acquire(&ptable.lock)` of
`scheduler`. -/
inductive PushCall (L : Type)
  | pushcli
  | acquire (lk : L)
  | scheduler
  deriving DecidableEq

/-- Where a kernel thread is. -/
inductive KPc (L : Type)
  /-- Outside of the functions above. -/
  | code
  /-- In `pushcli`, after `readeflags`. -/
  | flags (eflags : Bool) (call : PushCall L)
  /-- In the loop of `acquire(lk)`. -/
  | spin (call : PushCall L) (lk : L)
  /-- `scheduler`: before `sti`, before `acquire`, before `swtch` or `release`, after `swtch`. -/
  | top
  | enabled
  | locked
  | back
  deriving DecidableEq

/-- A kernel thread. `frames` are the positions of the code under the interrupts that it handles.
The last three fields are the history of its calls: `pushes` counts the calls of `pushcli` without
their `popcli`, `held` lists the locks acquired and not released, and `outer` is the interrupt flag
at the outermost `pushcli`. -/
structure KThread (L : Type) where
  pc : KPc L
  frames : List (KPc L) := []
  pushes : Nat := 0
  held : List L := []
  outer : Bool := false
  deriving DecidableEq

/-- `p->context`: a new process returns to `forkret`, any other to `sched`, which has `intena` on
its stack. -/
inductive Context (L : Type)
  | forkret
  | sched (intena : Bool) (th : KThread L)

/-- A CPU: `c->proc`, the thread that runs, and `c->scheduler` while that is not the scheduler. -/
structure CpuState (L : Type) where
  hw : Cpu := {}
  proc : Option Slot := none
  cur : KThread L
  scheduler : Option (KThread L) := none

/-- All CPUs, the locks, and `state` and `context` of the processes. -/
structure Smp (L : Type) where
  cpu : Nat → CpuState L
  lock : L → Spinlock
  state : Slot → ProcState
  context : Slot → Option (Context L)

/-- What a CPU may do next. -/
inductive SmpAct (L : Type)
  /-- `pushcli` up to `readeflags`. -/
  | call (call : PushCall L)
  /-- The rest of `pushcli`, with the check of `acquire`. -/
  | cli
  /-- One `xchg` of `acquire`. -/
  | xchg
  | popcli
  | release (lk : L)
  /-- `p->state = state; sched()`. -/
  | sched (state : ProcState)
  /-- An assignment to the state of another process. -/
  | assign (p : Slot) (state : ProcState)
  /-- An interrupt, and the return from it. -/
  | interrupt
  | iret
  /-- `scheduler`: its `sti`, `swtch` to a process, and `release(&ptable.lock)`. -/
  | sti
  | dispatch (p : Slot)
  | unlock

section
variable {L : Type}

def PushCall.lock (ptable : L) : PushCall L → Option L
  | .pushcli => none
  | .acquire lk => some lk
  | .scheduler => some ptable

/-- Where `acquire` returns to. -/
def PushCall.ret : PushCall L → KPc L
  | .scheduler => .locked
  | _ => .code

def KPc.spinning : KPc L → Bool
  | .spin _ _ => true
  | _ => false

/-- The calls of `pushcli`, those of `acquire` included, that the thread has not undone. -/
def KThread.depth (k : KThread L) : Nat := k.pushes + k.held.length + k.pc.spinning.toNat

/-- The thread is about to run `cli` of `pushcli`, with the flag as it is. -/
def KThread.noting (k : KThread L) (flIf : Bool) : KThread L :=
  { k with outer := if k.depth = 0 then flIf else k.outer }

/-- The assignments to `p->state` of `allocproc`, `fork`, `wakeup1`, `kill` and `wait`. -/
def ProcState.assignable : ProcState → ProcState → Bool
  | .unused, .embryo | .embryo, .runnable | .embryo, .unused | .sleeping, .runnable
  | .zombie, .unused => true
  | _, _ => false

/-- A failed `allocproc` or `fork` gives its slot back without the lock. -/
def ProcState.needsLock : ProcState → ProcState → Bool
  | .embryo, .unused => false
  | _, _ => true

/-- `p->context` after the assignment: `allocproc` builds a stack that returns to `forkret`. -/
def Context.assign (state : ProcState) (ctx : Option (Context L)) : Option (Context L) :=
  match state with
  | .embryo => some .forkret
  | .unused => none
  | _ => ctx

namespace Smp
variable (s : Smp L) (c : Nat)

/-- Run code on CPU `c`. -/
def on {α : Type} (x : CoreM L α) : Option (α × Smp L) :=
  match x ⟨(s.cpu c).hw, s.lock⟩ with
  | .ok a r =>
    some (a, { s with cpu := update s.cpu c { s.cpu c with hw := r.cpu }, lock := r.lock })
  | .error _ _ => none

/-- The thread that runs on CPU `c` goes on as `k`. -/
def setCur (k : KThread L) : Smp L :=
  { s with cpu := update s.cpu c { s.cpu c with cur := k } }

def setFlag (flIf : Bool) : Smp L :=
  { s with cpu := update s.cpu c { s.cpu c with hw := { (s.cpu c).hw with flIf } } }

/-- `swtch` from the process to the scheduler, and its `c->proc = 0`. -/
def swtchOut (p : Slot) (state : ProcState) (ctx : Context L) (sch : KThread L) : Smp L :=
  { s with
    cpu := update s.cpu c
      { s.cpu c with proc := none, cur := { sch with pc := .back }, scheduler := none }
    state := update s.state p state
    context := update s.context p (some ctx) }

/-- `swtch` from the scheduler to the process. -/
def swtchIn (p : Slot) (k : KThread L) : Smp L :=
  { s with
    cpu := update s.cpu c { s.cpu c with proc := some p, cur := k, scheduler := some (s.cpu c).cur }
    state := update s.state p .running
    context := update s.context p none }

end Smp

variable [DecidableEq L] (ptable : L)

/-- The rest of `pushcli`. -/
def stepCli (s : Smp L) (c : Nat) (k : KThread L) (eflags : Bool) (call : PushCall L) :
    Option (Smp L) :=
  let k' := k.noting (s.cpu c).hw.flIf
  match call.lock ptable with
  | none => (s.on c (pushcliFrom eflags)).map fun r =>
      r.2.setCur c { k' with pc := .code, pushes := k.pushes + 1 }
  | some lk => (s.on c (acquireFrom c eflags lk)).map fun r =>
    r.2.setCur c { k' with pc := .spin call lk }

/-- The loop of `acquire`. -/
def stepXchg (s : Smp L) (c : Nat) (k : KThread L) (call : PushCall L) (lk : L) : Option (Smp L) :=
  (s.on c (acquireXchg c lk)).map fun r =>
    if r.1 then r.2.setCur c { k with pc := call.ret, held := lk :: k.held } else r.2

/-- `sched`, in a process. -/
def stepSched (s : Smp L) (c : Nat) (k : KThread L) (state : ProcState) : Option (Smp L) :=
  match (s.cpu c).proc, (s.cpu c).scheduler with
  | some p, some sch => (s.on c (schedSave c ptable state)).map fun r =>
      r.2.swtchOut c p state (.sched r.1 k) sch
  | _, _ => none

/-- The scheduler has picked a runnable process. A new one holds `ptable.lock` from the
scheduler. -/
def stepDispatch (s : Smp L) (c : Nat) (k : KThread L) (p : Slot) : Option (Smp L) :=
  if s.state p = .runnable then
    (s.on c pushpop).bind fun r =>
      match s.context p with
      | some (.sched intena th) => ((r.2.swtchIn c p th).on c (schedRestore intena)).map Prod.snd
      | some .forkret => some (r.2.swtchIn c p { pc := .code, held := [ptable], outer := k.outer })
      | none => none
  else none

/-- One step of CPU `c`. A thread makes balanced calls: it undoes only what it has done, and returns
from an interrupt with nothing left to undo. -/
def smpStep (s : Smp L) : Nat × SmpAct L → Option (Smp L)
  | (c, act) =>
    let k := (s.cpu c).cur
    match act, k.pc with
    | .call .pushcli, .code =>
      some (s.setCur c { k with pc := .flags (s.cpu c).hw.flIf .pushcli })
    | .call (.acquire lk), .code =>
      some (s.setCur c { k with pc := .flags (s.cpu c).hw.flIf (.acquire lk) })
    | .call .scheduler, .enabled =>
      some (s.setCur c { k with pc := .flags (s.cpu c).hw.flIf .scheduler })
    | .cli, .flags eflags call => stepCli ptable s c k eflags call
    | .xchg, .spin call lk => stepXchg s c k call lk
    | .popcli, .code =>
      if 0 < k.pushes then
        (s.on c popcli).map fun r => r.2.setCur c { k with pushes := k.pushes - 1 }
      else none
    | .release lk, .code =>
      if lk ∈ k.held then
        (s.on c (release c lk)).map fun r => r.2.setCur c { k with held := k.held.erase lk }
      else none
    | .sched state, .code => stepSched ptable s c k state
    | .assign p state, .code =>
      if (s.state p).assignable state ∧ ((s.state p).needsLock state → ptable ∈ k.held) then
        some { s with
          state := update s.state p state
          context := update s.context p (Context.assign state (s.context p)) }
      else none
    | .interrupt, pc =>
      if (s.cpu c).hw.flIf then
        some ((s.setCur c { k with pc := .code, frames := pc :: k.frames }).setFlag c false)
      else none
    | .iret, .code =>
      match k.frames with
      | pc :: frames =>
        if k.pushes = 0 ∧ k.held = [] then
          some ((s.setCur c { k with pc, frames }).setFlag c true)
        else none
      | [] => none
    | .sti, .top => (s.on c sti).map fun r => r.2.setCur c { k with pc := .enabled }
    | .dispatch p, .locked => stepDispatch ptable s c k p
    | .unlock, .locked | .unlock, .back =>
      (s.on c (release c ptable)).map fun r =>
        r.2.setCur c { k with pc := .top, held := k.held.erase ptable }
    | _, _ => none

/-- Every CPU enters `scheduler` with its interrupts off. `userinit` has made some process. -/
def smpBoot (ready : Slot → Bool) : Smp L where
  cpu _ := { cur := { pc := .top } }
  lock _ := {}
  state p := if ready p then .runnable else .unused
  context p := if ready p then some .forkret else none

end

end Xv6
