import Xv6.Sched.Machine

/-!
# Calls run to completion

The machine with `fork` in one piece: a call of `fork` is `allocproc`, then either the copy of the
process and `np->state = RUNNABLE`, or, when `kalloc` or `copyuvm` fails, the reset of `np->state`.
The other calls are as they are, so that a process asleep in `wait` still lets others run.
-/

namespace Xv6

inductive KernelCall (Cpu : Type)
  /-- `fork`, with `ok` if the memory for it is there. -/
  | fork (c : Cpu) (ok : Bool)
  | other (a : MachineAct Cpu)

def MachineAct.inFork {Cpu : Type} : MachineAct Cpu → Bool
  | .allocproc _ | .forkFail _ | .forkParent _ | .forkDone _ => true
  | _ => false

section
variable {Cpu : Type} [DecidableEq Cpu]

namespace Machine

/-- `fork`, in the process on `c`. -/
def forkCall (s : Machine Cpu) (c : Cpu) (ok : Bool) : Option (Machine Cpu) :=
  (s.step (.allocproc c)).bind fun s₁ =>
    match findUnused s.pt with
    | none => some s₁
    | some _ =>
      if ok then (s₁.step (.forkParent c)).bind fun s₂ => s₂.step (.forkDone c)
      else s₁.step (.forkFail c)

def call (s : Machine Cpu) : KernelCall Cpu → Option (Machine Cpu)
  | .fork c ok => s.forkCall c ok
  | .other a => if a.inFork then none else s.step a

end Machine

end

end Xv6
