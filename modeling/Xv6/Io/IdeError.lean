import Xv6.Io.Ide

/-!
# Disk errors

`ide.c` with drives that can fail. A drive ends its command with a status, which `idewait` reads.
With `IDE_DF` or `IDE_ERR` in it, a read has delivered nothing, and a sector that was to be written
holds anything. The rest of the driver is as in `Xv6.Ide`.
-/

namespace Xv6.Ide

variable {P B D : Type}

def ideBsy : UInt8 := 0x80
def ideDrdy : UInt8 := 0x40
def ideDf : UInt8 := 0x20
def ideErr : UInt8 := 0x01

/-- `idewait`, when its loop has ended on the status `r`. -/
def idewait (checkerr : Bool) (r : UInt8) : Int :=
  if checkerr = true ∧ r &&& (ideDf ||| ideErr) ≠ 0 then -1 else 0

/-- The driver, and the status of the drives. -/
structure Faulty (P B D : Type) extends State P B D where
  status : UInt8

inductive FaultyAct (P B D : Type)
  | act (a : Act P B D)
  /-- A drive ends its command with the status `r`. In case of an error, `x` is what it has
  written. -/
  | finish (r : UInt8) (x : D)

/-- The command that a drive has carried out. -/
def Cmd.withStatus (c : Cmd D) (r : UInt8) (x : D) : Cmd D :=
  match c with
  | .read a => .read a
  | .write a y => .write a (if idewait true r < 0 then x else y)

/-- The buffer after the interrupt. The result of `idewait` decides on `insl`, and not on the flags;
of a write it is not asked for. -/
def Faulty.complete (s : Faulty P B D) (b : Buf D) : Buf D :=
  { b with
    data := if b.dirty = false ∧ idewait true s.status ≥ 0 then s.insl b.data else b.data
    valid := true
    dirty := false }

section
variable [DecidableEq P] [DecidableEq B]

def Faulty.ideintr (s : Faulty P B D) : State P B D :=
  match s.queue with
  | [] => { s.toState with irq := false, active := none }
  | r :: rest =>
    startHead { s.toState with
      irq := false
      active := none
      queue := rest
      buf := Function.update s.buf r.buf (s.complete (s.buf r.buf))
      pc := wakeup r.buf s.pc
      completed := s.completed ++ [r] }

def Faulty.step (havedisk1 : Bool) (s : Faulty P B D) : FaultyAct P B D → Option (Faulty P B D)
  | .act .finish => none
  | .act .intr =>
    if s.panicked = none ∧ s.irq = true then some { s with toState := s.ideintr } else none
  | .act a => (Ide.step havedisk1 s.toState a).map fun c => { s with toState := c }
  | .finish r x =>
    match s.active with
    | some c =>
      if s.panicked = none ∧ s.irq = false ∧ r &&& (ideBsy ||| ideDrdy) = ideDrdy then
        some { s with disk := (c.withStatus r x).carryOut s.disk, irq := true, status := r }
      else none
    | none => none

/-- Nothing requested yet, and the drives are ready. -/
def Faulty.init (buf : B → Buf D) (disk : Nat × Nat → D) : Faulty P B D :=
  { Ide.init buf disk with status := ideDrdy }

end

end Xv6.Ide
