import Xv6.Sched.Machine

/-!
# Traps

`trap.c` over the machine of processes and processors: a process is in user space, in a system call,
or in an interrupt that came in user space (`Mode`). `trap` looks at `p->killed` before a system
call and after it, and around the `yield` of an interrupt from user space, and calls `exit` if it is
set. An interrupt that comes in the kernel only makes a process `yield`. A fault in user space marks
the process itself as killed.

The processes other than `initproc` make any system calls with any arguments. `initproc` runs its
loop: its system calls are `fork`, which does not fail, `wait`, and the output of its messages, for
which it may sleep.
-/

namespace Xv6

inductive Mode
  | user
  | syscall
  | intr
  deriving DecidableEq, Repr

structure Traps (Cpu : Type) extends Machine Cpu where
  mode : Slot → Mode

inductive TrapAct (Cpu : Type)
  /-- A step of the scheduler, or the `wakeup` of a device interrupt. -/
  | kernel (a : MachineAct Cpu)
  /-- `T_SYSCALL`. -/
  | syscall (c : Cpu)
  /-- A step of the system call that the process on `c` is in. -/
  | call (c : Cpu) (a : MachineAct Cpu)
  /-- `syscall()` returns. -/
  | sysret (c : Cpu)
  /-- An interrupt in user space. -/
  | interrupt (c : Cpu)
  /-- It was the timer. -/
  | tick (c : Cpu)
  /-- `trap` returns from an interrupt. -/
  | iret (c : Cpu)
  /-- A fault in user space. -/
  | fault (c : Cpu)

namespace MachineAct

variable {Cpu : Type}

/-- Not the step of a process. -/
def inKernel : MachineAct Cpu → Bool
  | .schedule .. | .resume _ | .back _ | .wakeup _ => true
  | _ => false

/-- A step of the process on `c`. -/
def onCpu [DecidableEq Cpu] (c : Cpu) : MachineAct Cpu → Bool
  | .schedule .. | .resume _ | .back _ => false
  | .yield d | .sleep d _ | .allocproc d | .forkFail d | .forkParent d | .forkDone d | .exit d
  | .wait d => d = c
  | .wakeup _ | .kill _ | .settickets .. => true

/-- A step of the system calls of `initproc`. -/
def ofInit : MachineAct Cpu → Bool
  | .yield _ | .sleep .. | .wakeup _ | .allocproc _ | .forkParent _ | .forkDone _ | .wait _ => true
  | _ => false

end MachineAct

section
variable {Cpu : Type} [DecidableEq Cpu]

namespace Traps

def setMode (s : Traps Cpu) (p : Slot) (m : Mode) : Traps Cpu :=
  { s with mode := Function.update s.mode p m }

/-- A step of the machine. -/
def lift (s : Traps Cpu) (a : MachineAct Cpu) : Option (Traps Cpu) :=
  (s.step a).map fun m => { s with toMachine := m }

/-- `if(myproc()->killed) exit();`, and else on in mode `m`. -/
def checkKilled (s : Traps Cpu) (c : Cpu) (p : Slot) (m : Mode) : Option (Traps Cpu) :=
  if (s.pt p).killed then s.lift (.exit c) else some (s.setMode p m)

/-- A step of the process on `c`, which is in mode `m`. -/
def onMode (s : Traps Cpu) (c : Cpu) (m : Mode) (f : Slot → Option (Traps Cpu)) :
    Option (Traps Cpu) :=
  if s.panicked = none ∧ s.ctl c = .run then
    (s.proc c).bind fun p => if s.mode p = m then f p else none
  else none

/-- The modes after `a`: the child of `allocproc` will start in user space. -/
def newMode (s : Traps Cpu) : MachineAct Cpu → Slot → Mode
  | .allocproc _ =>
    match findUnused s.pt with
    | some np => Function.update s.mode np .user
    | none => s.mode
  | _ => s.mode

def step (s : Traps Cpu) : TrapAct Cpu → Option (Traps Cpu)
  | .kernel a => if a.inKernel then s.lift a else none
  | .syscall c => s.onMode c .user fun p => s.checkKilled c p .syscall
  | .call c a =>
    s.onMode c .syscall fun p =>
      if a.onCpu c ∧ (p = s.initproc → a.ofInit) then
        (s.toMachine.step a).map fun m => { toMachine := m, mode := s.newMode a }
      else none
  | .sysret c =>
    s.onMode c .syscall fun p => if s.fork p = .none then s.checkKilled c p .user else none
  | .interrupt c => s.onMode c .user fun p => some (s.setMode p .intr)
  | .tick c =>
    s.onMode c .intr fun p =>
      if (s.pt p).killed then s.lift (.exit c) else s.lift (.yield c)
  | .iret c => s.onMode c .intr fun p => s.checkKilled c p .user
  | .fault c =>
    s.onMode c .user fun p =>
      if p = s.initproc then none
      else lift { s with toMachine := s.setProc p { s.pt p with killed := true } } (.exit c)

/-- After `userinit`. -/
def boot : Traps Cpu := { toMachine := Machine.boot, mode := fun _ => .user }

end Traps

end

end Xv6
