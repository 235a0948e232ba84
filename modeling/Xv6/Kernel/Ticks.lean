import Xv6.Kernel.Proc
import Xv6.Lib.Run

/-!
# Sleeping for a number of ticks

`sys_sleep` of `sysproc.c` and the timer interrupt of `trap.c`. `ticks` is a `uint` that counts up
and wraps; the argument of `sys_sleep` is an `int`. `tickslock` is held from the test of the loop to
the `sleep` and around the counting, so each is one step here: entering the call or returning from
`sleep`, a process tests the condition and goes to sleep on `&ticks`, or returns. Only the timer of
CPU 0 counts.
-/

namespace Xv6.Ticks

/-- Where a process is. -/
inductive Pc
  /-- Outside of `sys_sleep`; what its last call returned. -/
  | out (ret : Int)
  /-- In the loop of `sys_sleep(n)`. -/
  | loop (n : Int) (ticks0 : BitVec 32)
  deriving DecidableEq

structure State where
  ticks : BitVec 32
  proc : Ptable
  pc : Slot → Pc

def State.setProc (s : State) (p : Slot) (r : Proc) : State :=
  { s with proc := Function.update s.proc p r }

def State.setPc (s : State) (p : Slot) (pc : Pc) : State :=
  { s with pc := Function.update s.pc p pc }

/-- `ticks - ticks0 < n`, which compares unsigned numbers. -/
def waits (ticks ticks0 : BitVec 32) (n : Int) : Bool := ticks - ticks0 < BitVec.ofInt 32 n

/-- The test of the loop, and what follows it: `sleep`, or a return. -/
def test (s : State) (p : Slot) (n : Int) (ticks0 : BitVec 32) : State :=
  if waits s.ticks ticks0 n then
    if (s.proc p).killed then s.setPc p (.out (-1))
    else (s.setProc p { s.proc p with chan := some .ticks, state := .sleeping }).setPc p
      (.loop n ticks0)
  else s.setPc p (.out 0)

inductive Act
  | sysSleep (p : Slot) (n : Int)
  /-- `T_IRQ0 + IRQ_TIMER` on a CPU. -/
  | timer (cpuid : Nat)
  | dispatch (p : Slot)
  /-- A process back from `sleep` has taken `tickslock` again. -/
  | run (p : Slot)
  | yield (p : Slot)
  | kill (pid : Int)
  /-- What a process does outside of `sys_sleep`. -/
  | other (p : Slot) (r : Proc)
  deriving DecidableEq

def step (s : State) : Act → Option State
  | .sysSleep p n =>
    match s.pc p with
    | .out _ => if (s.proc p).state = .running then some (test s p n s.ticks) else none
    | .loop .. => none
  | .timer cpuid =>
    if cpuid = 0 then some { s with ticks := s.ticks + 1, proc := wakeup1 .ticks s.proc }
    else some s
  | .dispatch p =>
    if (s.proc p).state = .runnable then
      match s.pc p with
      | .out _ => some (s.setProc p { s.proc p with state := .running })
      | .loop .. => some (s.setProc p { s.proc p with state := .running, chan := none })
    else none
  | .run p =>
    match s.pc p with
    | .out _ => none
    | .loop n ticks0 => if (s.proc p).state = .running then some (test s p n ticks0) else none
  | .yield p =>
    if (s.proc p).state = .running then
      some (s.setProc p { s.proc p with preempted := false, state := .runnable })
    else none
  | .kill pid => some { s with proc := (kill pid s.proc).2 }
  | .other p r =>
    match s.pc p with
    | .out _ => some (s.setProc p r)
    | .loop .. => none

/-- The number of ticks. -/
def ticksIn (as : List Act) : Nat := as.count (.timer 0)

end Xv6.Ticks
