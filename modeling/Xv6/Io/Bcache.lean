import Xv6.Lib.Run
import Mathlib.Data.List.FinRange
import Mathlib.Logic.Function.Basic

/-!
# The buffer cache

`bio.c`, used by any processes (`P`) in any order. A stretch of code with `bcache.lock` held is one
step, and so is the taking of a sleep-lock; between the steps other processes run. `iderw` is one
step too, taken when the request is completed: `Xv6.Ide` is the driver itself. There are two drives,
so a device is `0` or `1`.

A process changes the data of a buffer it holds in any way, and follows it with `log_write` or
`bwrite` before `brelse`. `commit` is made of the same calls: it reads log blocks and home blocks,
copies one to the other and writes it with `bwrite`. Of `log_write` the step keeps what it does to
the buffer.

`last k` is the data left by the last process that changed block `k`, at first that of the disk. It
is a record; no step reads it.
-/

namespace Xv6.Bcache

open Function

/-- `NBUF`: size of the disk block cache, `MAXOPBLOCKS * 3`. -/
abbrev nbuf : Nat := 30

/-- The device and the number of a block. -/
abbrev Key := Fin 2 × Nat

/-- `struct buf`: `lock` is the process that holds the sleep-lock. -/
structure Buf (P D : Type) where
  key : Key
  valid : Bool
  dirty : Bool
  refcnt : Nat
  lock : Option P
  data : D

/-- Where a process is. -/
inductive Pc
  | run
  /-- In `bget` for block `k`, at `acquiresleep(&b->lock)`. -/
  | locking (b : Fin nbuf) (k : Key)
  /-- In `bread` of block `k`, in `iderw`. -/
  | reading (b : Fin nbuf) (k : Key)
  /-- In `bwrite`, in `iderw`. -/
  | writing (b : Fin nbuf)
  /-- In `brelse`, after `releasesleep`. -/
  | releasing (b : Fin nbuf)
  deriving DecidableEq

structure State (P D : Type) where
  buf : Fin nbuf → Buf P D
  /-- The list of all buffers from `bcache.head.next` on. -/
  lru : List (Fin nbuf)
  disk : Key → D
  pc : P → Pc
  /-- The buffers that `bread` has returned to a process and that it has not released. -/
  held : P → List (Fin nbuf)
  /-- The holder has changed the data, and not yet called `log_write` or `bwrite`. -/
  changed : Fin nbuf → Bool
  last : Key → D
  panicked : Option String

inductive Act (P D : Type)
  | bget (p : P) (k : Key)
  | acquire (p : P)
  | iderw (p : P)
  | change (p : P) (b : Fin nbuf) (x : D)
  | logWrite (p : P) (b : Fin nbuf)
  | bwrite (p : P) (b : Fin nbuf)
  | brelse (p : P) (b : Fin nbuf)
  | decref (p : P)

section
variable {P D : Type} [DecidableEq P]

namespace State

def setBuf (s : State P D) (b : Fin nbuf) (x : Buf P D) : State P D :=
  { s with buf := update s.buf b x }

def setPc (s : State P D) (p : P) (c : Pc) : State P D := { s with pc := update s.pc p c }

def setHeld (s : State P D) (p : P) (l : List (Fin nbuf)) : State P D :=
  { s with held := update s.held p l }

def setChanged (s : State P D) (b : Fin nbuf) (x : Bool) : State P D :=
  { s with changed := update s.changed b x }

end State

/-- `bget` up to the release of `bcache.lock`. -/
def bget (s : State P D) (p : P) (k : Key) : State P D :=
  -- is the block already cached?
  match s.lru.find? fun b => (s.buf b).key = k with
  | some b =>
    (s.setBuf b { s.buf b with refcnt := (s.buf b).refcnt + 1 }).setPc p (.locking b k)
  | none =>
    -- not cached; recycle an unused buffer
    match s.lru.reverse.find? fun b => (s.buf b).refcnt = 0 ∧ (s.buf b).dirty = false with
    | some b =>
      (s.setBuf b { s.buf b with key := k, valid := false, dirty := false, refcnt := 1 }).setPc p
        (.locking b k)
    | none => { s with panicked := some "bget: no buffers" }

/-- `acquiresleep(&b->lock)` at the end of `bget`, and the check of `B_VALID` in `bread`. -/
def lockBuf (s : State P D) (p : P) (b : Fin nbuf) (k : Key) : State P D :=
  let s' := s.setBuf b { s.buf b with lock := some p }
  if (s.buf b).valid then (s'.setHeld p (b :: s.held p)).setPc p .run else s'.setPc p (.reading b k)

/-- `iderw`: write the buffer if `B_DIRTY` is set, else read it. -/
def iderw (s : State P D) (b : Fin nbuf) : State P D :=
  if (s.buf b).dirty then
    { s.setBuf b { s.buf b with valid := true, dirty := false } with
      disk := update s.disk (s.buf b).key (s.buf b).data }
  else s.setBuf b { s.buf b with valid := true, data := s.disk (s.buf b).key }

/-- `brelse` from `acquire(&bcache.lock)` on. -/
def decref (s : State P D) (p : P) (b : Fin nbuf) : State P D :=
  let s' := (s.setBuf b { s.buf b with refcnt := (s.buf b).refcnt - 1 }).setPc p .run
  -- no one is waiting for it: move to the head of the list
  if (s.buf b).refcnt - 1 = 0 then { s' with lru := b :: s.lru.erase b } else s'

def step (s : State P D) (a : Act P D) : Option (State P D) :=
  if s.panicked ≠ none then none
  else
    match a with
    | .bget p k => if s.pc p = .run then some (bget s p k) else none
    | .acquire p =>
      match s.pc p with
      | .locking b k => if (s.buf b).lock = none then some (lockBuf s p b k) else none
      | _ => none
    | .iderw p =>
      match s.pc p with
      | .reading b _ => some (((iderw s b).setHeld p (b :: s.held p)).setPc p .run)
      | .writing b => some (((iderw s b).setChanged b false).setPc p .run)
      | _ => none
    | .change p b x =>
      if s.pc p = .run ∧ b ∈ s.held p then
        some { (s.setBuf b { s.buf b with data := x }).setChanged b true with
          last := update s.last (s.buf b).key x }
      else none
    | .logWrite p b =>
      if s.pc p = .run ∧ b ∈ s.held p then
        some ((s.setBuf b { s.buf b with dirty := true }).setChanged b false)
      else none
    | .bwrite p b =>
      if s.pc p ≠ .run then none
      else if (s.buf b).lock ≠ some p then some { s with panicked := some "bwrite" }
      else some ((s.setBuf b { s.buf b with dirty := true }).setPc p (.writing b))
    | .brelse p b =>
      if s.pc p ≠ .run then none
      else if (s.buf b).lock ≠ some p then some { s with panicked := some "brelse" }
      else if s.changed b then none
      else some (((s.setBuf b { s.buf b with lock := none }).setHeld p
        ((s.held p).erase b)).setPc p (.releasing b))
    | .decref p =>
      match s.pc p with
      | .releasing b => some (decref s p b)
      | _ => none

/-- After `binit`, which puts each buffer at the head of the list in turn. -/
def init (disk : Key → D) (junk : D) : State P D where
  buf _ := ⟨(0, 0), false, false, 0, none, junk⟩
  lru := (List.finRange nbuf).reverse
  disk := disk
  pc _ := .run
  held _ := []
  changed _ := false
  last := disk
  panicked := none

end

end Xv6.Bcache
