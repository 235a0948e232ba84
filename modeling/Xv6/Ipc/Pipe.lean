import Xv6.Kernel.Thread
import Xv6.Lib.Ring

/-!
# Pipes

`pipe.c`: a ring of `PIPESIZE` bytes with the counters `nread` and `nwrite`, which are `uint`s that
run freely and wrap. `pipewrite` stores byte by byte; when the pipe is full it gives up if the read
end is closed or the process was killed, and else wakes the readers and sleeps on `&p->nwrite`, to
go on with the bytes that are left. `piperead` sleeps on `&p->nread` while the pipe is empty and its
write end open, and then takes what there is, up to `n` bytes. `pipeclose` closes one end and wakes
the sleepers of the other.

As a `Client`, the code from the `acquire` (or the return from `sleep`) to the next `sleep` or
`release` is one critical section. A `Nat` names a pipe from its `pipealloc` on; the page of a pipe
with both ends closed is freed, and a pipe made later in that page has another name.
-/

namespace Xv6

def pipeSize : Nat := 512

instance : NeZero pipeSize := ⟨by decide⟩

/-- `struct pipe`, without its lock: `data`, `nread` and `nwrite` are the ring. -/
structure Pipe extends Lib.Ring 32 pipeSize UInt8 where
  readopen : Int
  writeopen : Int

namespace Pipe

/-- `p->data[p->nwrite++ % PIPESIZE] = b`. -/
def store (p : Pipe) (b : UInt8) : Pipe := { p with toRing := p.toRing.put b }

/-- `p->nread++`. -/
def advance (p : Pipe) : Pipe := { p with toRing := p.toRing.drop }

/-- `p->nwrite == p->nread + PIPESIZE`. -/
def full (p : Pipe) : Bool := p.nwrite = p.nread + BitVec.ofNat 32 pipeSize

/-- `p->nread == p->nwrite`. -/
def empty (p : Pipe) : Bool := p.nread = p.nwrite

/-- The `for` loop of `pipewrite`, up to a byte that finds the pipe full: the bytes left over. -/
def storeAll : List UInt8 → Pipe → Pipe × List UInt8
  | [], p => (p, [])
  | b :: bs, p => if p.full then (p, b :: bs) else storeAll bs (p.store b)

/-- The `for` loop of `piperead`: the bytes copied to `addr`. -/
def copyOut : Nat → Pipe → Pipe × List UInt8
  | 0, p => (p, [])
  | n + 1, p =>
    if p.empty then (p, [])
    else
      let (p', bs) := copyOut n p.advance
      (p', p.front :: bs)

end Pipe

inductive PipeCall
  /-- `pipewrite(p, addr, n)` with the bytes `rest` of `addr` still to be stored. -/
  | write (p : Nat) (n : Int) (rest : List UInt8)
  | read (p : Nat) (n : Int)
  | close (p : Nat) (writable : Bool)
  deriving DecidableEq

def PipeCall.pipe : PipeCall → Nat
  | .write p _ _ | .read p _ | .close p _ => p

/-- `pipewrite` under the lock. -/
def pipewriteBody (p : Nat) (n : Int) (rest : List UInt8) (killed : Bool) (pi : Pipe) :
    Section Pipe PipeCall Ret :=
  match pi.storeAll rest with
  | (pi', []) => ⟨pi', [.nread p], .leave ⟨n, []⟩⟩
  | (pi', b :: bs) =>
    -- no `wakeup(&p->nread)` on this way out
    if pi'.readopen = 0 ∨ killed then ⟨pi', [], .leave ⟨-1, []⟩⟩
    else ⟨pi', [.nread p], .sleep (.write p n (b :: bs))⟩

/-- `piperead` under the lock. -/
def pipereadBody (p : Nat) (n : Int) (killed : Bool) (pi : Pipe) : Section Pipe PipeCall Ret :=
  if pi.empty ∧ pi.writeopen ≠ 0 then
    if killed then ⟨pi, [], .leave ⟨-1, []⟩⟩ else ⟨pi, [], .sleep (.read p n)⟩
  else
    let (pi', bs) := pi.copyOut n.toNat
    ⟨pi', [.nwrite p], .leave ⟨bs.length, bs⟩⟩

/-- `pipeclose` under the lock. -/
def pipecloseBody (p : Nat) (writable : Bool) (pi : Pipe) : Section Pipe PipeCall Ret :=
  if writable then ⟨{ pi with writeopen := 0 }, [.nread p], .leave ⟨0, []⟩⟩
  else ⟨{ pi with readopen := 0 }, [.nwrite p], .leave ⟨0, []⟩⟩

def PipeCall.body : PipeCall → Bool → Pipe → Section Pipe PipeCall Ret
  | .write p n rest => pipewriteBody p n rest
  | .read p n => pipereadBody p n
  | .close p writable => fun _ => pipecloseBody p writable

/-- The calls, with the memory at `addr`. -/
inductive PipeAct
  | write (p : Nat) (addr : Nat → UInt8) (n : Int)
  | read (p : Nat) (n : Int)
  | close (p : Nat) (writable : Bool)

def pipeEnter : PipeAct → PipeCall
  | .write p addr n => .write p n ((List.range n.toNat).map addr)
  | .read p n => .read p n
  | .close p writable => .close p writable

/-- `sleep` is called on `&p->nwrite` by `pipewrite` and on `&p->nread` by `piperead`. -/
def PipeCall.chan : PipeCall → Chan
  | .write p _ _ => .nwrite p
  | .read p _ | .close p _ => .nread p

/-- The pipes as a client of `sleep` and `wakeup`. -/
def pipes : Client Nat Pipe PipeCall Ret PipeAct where
  lockOf := PipeCall.pipe
  chanOf := PipeCall.chan
  body := PipeCall.body
  outside _ a _ := some (.call (pipeEnter a))
  sleep_lockOf c k pi c' h := by
    cases c with
    | write p n rest =>
      simp only [PipeCall.body, pipewriteBody] at h
      split at h
      · cases h
      · split at h <;> cases h
        rfl
    | read p n =>
      simp only [PipeCall.body, pipereadBody] at h
      split at h
      · split at h <;> cases h
        rfl
      · cases h
    | close p writable =>
      simp only [PipeCall.body, pipecloseBody] at h
      split at h <;> cases h

abbrev PipeThreads := Threads Nat Pipe PipeCall Ret

abbrev PipeEntry := Entry Pipe PipeCall Ret

/-- `pipealloc`: both ends open, the counters zero; `data` keeps what the page holds. -/
def pipealloc (data : Fin pipeSize → UInt8) : Pipe := ⟨⟨data, 0, 0⟩, 1, 1⟩

/-- Any process table, no process in a call, each pipe as `pipealloc` leaves it. -/
def pipeBoot (proc : Ptable) (data : Nat → Fin pipeSize → UInt8) : PipeThreads :=
  Threads.init proc (fun p => pipealloc (data p)) ⟨0, []⟩

end Xv6
