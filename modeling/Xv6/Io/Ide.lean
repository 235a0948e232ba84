import Xv6.Fs.Disk
import Xv6.Lib.Run

/-!
# The disk driver

`ide.c`: the queue of requests, `idestart`, `ideintr` and `iderw`, with the drives that carry the
requests out. Any number of processes (`P`) use any number of buffers (`B`), whose data are of type
`D`. All of the driver's data is guarded by `idelock`, so a stretch of code with the lock held is
one step; `iderw` gives the lock up only in `sleep`. The steps:

* a process takes or gives up the sleep-lock of a buffer; while no process is in `iderw` with a
  buffer, its contents, flags and block number may change in any way (`set`);
* `iderw` up to its first `sleep`, and each check of the flags after it has been woken (`check`);
* a drive carries out the command it was given and raises an interrupt (`finish`), and `ideintr`
  runs (`intr`).

The state also records the requests that were appended to the queue, started and completed, each
with a number of its own. No step reads these.
-/

namespace Xv6.Ide

open Function

variable {P B D : Type}

/-- The fields of `struct buf` that the driver uses; `valid` and `dirty` are `B_VALID` and
`B_DIRTY`. -/
structure Buf (D : Type) where
  valid : Bool
  dirty : Bool
  dev : Nat
  blockno : Nat
  data : D

/-- The drive and the sector that `idestart` addresses. -/
def Buf.addr (b : Buf D) : Nat × Nat := (b.dev % 2, b.blockno)

/-- `(b->flags & (B_VALID|B_DIRTY)) == B_VALID`. -/
def Buf.done (b : Buf D) : Bool := b.valid && !b.dirty

/-- A command given to the drives: what `outb` and `outsl` have sent. -/
inductive Cmd (D : Type)
  | read (addr : Nat × Nat)
  | write (addr : Nat × Nat) (data : D)

/-- The command for a buffer. -/
def Buf.cmd (b : Buf D) : Cmd D := if b.dirty then .write b.addr b.data else .read b.addr

/-- A call of `iderw`. -/
structure Req (P B : Type) where
  id : Nat
  proc : P
  buf : B
  deriving DecidableEq

/-- Where a process is. -/
inductive Pc (P B : Type)
  | idle
  /-- In the loop of `iderw`, asleep or woken up. -/
  | waiting (r : Req P B) (asleep : Bool)
  deriving DecidableEq

structure State (P B D : Type) where
  buf : B → Buf D
  /-- The holder of `b->lock`. -/
  lock : B → Option P
  pc : P → Pc P B
  /-- `idequeue`, and the buffers behind it by `qnext`. -/
  queue : List (Req P B)
  /-- The command the drives have been given. -/
  active : Option (Cmd D)
  /-- It has been carried out, and the interrupt is pending. -/
  irq : Bool
  disk : Nat × Nat → D
  panicked : Option String
  appended : List (Req P B)
  started : List (Req P B)
  completed : List (Req P B)

inductive Act (P B D : Type)
  | lock (p : P) (b : B)
  | unlock (p : P) (b : B)
  | set (b : B) (x : Buf D)
  | iderw (p : P) (b : B)
  | check (p : P)
  | finish
  | intr

/-- Start the request. -/
def idestart (s : State P B D) (r : Req P B) : State P B D :=
  if (s.buf r.buf).blockno ≥ Fs.fsSize then { s with panicked := some "incorrect blockno" }
  else { s with active := some (s.buf r.buf).cmd, started := s.started ++ [r] }

/-- Start the request at the head of the queue, if there is one. -/
def startHead (s : State P B D) : State P B D :=
  match s.queue with
  | [] => s
  | r :: _ => idestart s r

/-- What a drive does to its sectors. -/
def Cmd.carryOut (c : Cmd D) (disk : Nat × Nat → D) : Nat × Nat → D :=
  match c with
  | .read _ => disk
  | .write a x => update disk a x

/-- What `insl` gets from the drives. -/
def State.insl (s : State P B D) (old : D) : D :=
  match s.active with
  | some (.read a) => s.disk a
  | _ => old

section
variable [DecidableEq P] [DecidableEq B]

/-- `wakeup(b)`. -/
def wakeup (b : B) (pc : P → Pc P B) : P → Pc P B := fun p =>
  match pc p with
  | .waiting r a => .waiting r (if r.buf = b then false else a)
  | .idle => .idle

/-- The buffer after the interrupt: read data if needed, set `B_VALID`, clear `B_DIRTY`. -/
def State.complete (s : State P B D) (b : Buf D) : Buf D :=
  { b with data := if b.dirty then b.data else s.insl b.data, valid := true, dirty := false }

def ideintr (s : State P B D) : State P B D :=
  match s.queue with
  | [] => { s with irq := false, active := none }
  | r :: rest =>
    startHead { s with
      irq := false
      active := none
      queue := rest
      buf := update s.buf r.buf (s.complete (s.buf r.buf))
      pc := wakeup r.buf s.pc
      completed := s.completed ++ [r] }

/-- `iderw` from `acquire` to its first `sleep`. -/
def enqueue (s : State P B D) (r : Req P B) : State P B D :=
  let s' := { s with
    queue := s.queue ++ [r]
    appended := s.appended ++ [r]
    pc := update s.pc r.proc (.waiting r true) }
  -- start disk if necessary
  if s.queue = [] then startHead s' else s'

/-- Code that uses the buffer may run: no process is in `iderw` with it. -/
def State.Quiet (s : State P B D) (b : B) : Prop := ∀ p ∈ s.lock b, s.pc p = .idle

instance (s : State P B D) (b : B) : Decidable (s.Quiet b) :=
  inferInstanceAs (Decidable (∀ p ∈ s.lock b, s.pc p = .idle))

def step (havedisk1 : Bool) (s : State P B D) (a : Act P B D) : Option (State P B D) :=
  if s.panicked ≠ none then none
  else
    match a with
    | .lock p b =>
      if s.pc p = .idle ∧ s.lock b = none then
        some { s with lock := update s.lock b (some p) }
      else none
    | .unlock p b =>
      if s.pc p = .idle ∧ s.lock b = some p then
        some { s with lock := update s.lock b none }
      else none
    | .set b x => if s.Quiet b then some { s with buf := update s.buf b x } else none
    | .iderw p b =>
      if s.pc p ≠ .idle then none
      else if s.lock b ≠ some p then some { s with panicked := some "iderw: buf not locked" }
      else if (s.buf b).done then some { s with panicked := some "iderw: nothing to do" }
      else if (s.buf b).dev ≠ 0 ∧ havedisk1 = false then
        some { s with panicked := some "iderw: ide disk 1 not present" }
      else some (enqueue s ⟨s.appended.length, p, b⟩)
    | .check p =>
      match s.pc p with
      | .waiting r false =>
        some { s with
          pc := update s.pc p (if (s.buf r.buf).done then .idle else .waiting r true) }
      | _ => none
    | .finish =>
      match s.active with
      | some c => if s.irq then none else some { s with disk := c.carryOut s.disk, irq := true }
      | none => none
    | .intr => if s.irq then some (ideintr s) else none

/-- Nothing requested yet. -/
def init (buf : B → Buf D) (disk : Nat × Nat → D) : State P B D :=
  ⟨buf, fun _ => none, fun _ => .idle, [], none, false, disk, none, [], [], []⟩

end

end Xv6.Ide
