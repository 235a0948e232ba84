import Xv6.Fs.File
import Xv6.Lib.Run

/-!
# Writes through one open file

Processes that share a `struct file` call `filewrite` on it at the same time. A turn of its loop
holds the lock of the inode while it looks at `f->off`, writes and moves `f->off`, so turns of
different calls come one after the other, in any order. A call is named by `i`; `src i` are its
bytes and `ctx i` is the process that makes it.
-/

namespace Xv6.Fs

/-- `n1`: how many bytes the next turn writes. -/
def turnLength (left : List UInt8) : Nat := min left.length maxWrite

/-- A turn of the loop of `filewrite`, from `begin_op` to `end_op`: what `writei` returns. -/
def filewriteTurn (c : Ctx) (f : Fin nfile) (left : List UInt8) : M Int := do
  let x ← getFile f
  ilock c x.ip
  let r ← writei c x.ip (left.take (turnLength left)) x.off
  advance f r
  iunlock c x.ip
  return r

/-- How far a call is. -/
inductive Progress
  /-- Before the tests of `f->writable` and `f->type`. -/
  | start
  /-- At the head of the loop, with the bytes that are left. -/
  | writing (left : List UInt8)
  | returned (r : Int)
  deriving DecidableEq

structure Writers (ι : Type) where
  fs : State
  call : ι → Progress

/-- The bytes that a turn of the call `who` has put at `off`. -/
structure Chunk (ι : Type) where
  who : ι
  off : Nat
  bytes : List UInt8

section
variable {ι : Type} [DecidableEq ι]

def Writers.set (s : Writers ι) (i : ι) (p : Progress) : Writers ι :=
  { s with call := Function.update s.call i p }

/-- The call `i` goes on: it enters the loop, or makes a turn, or returns. -/
def Writers.step (ctx : ι → Ctx) (f : Fin nfile) (src : ι → List UInt8) (s : Writers ι) (i : ι) :
    Option (Writers ι) :=
  match s.call i with
  | .start =>
    if (s.fs.ftable f).writable = false then some (s.set i (.returned (-1)))
    else
      match (s.fs.ftable f).type with
      | .inode => some (s.set i (.writing (src i)))
      | _ => none
  | .writing left =>
    if left.length = 0 then some (s.set i (.returned (src i).length))
    else
      match filewriteTurn (ctx i) f left s.fs with
      | .ok r fs =>
        let s := { s with fs }
        -- a `break`, with bytes left
        if r < 0 then some (s.set i (.returned (-1)))
        else if r ≠ turnLength left then none
        else some (s.set i (.writing (left.drop (turnLength left))))
      | .error _ _ => none
  | .returned _ => none

/-- The bytes that a step puts into the file, with the value of `f->off` that it starts from. -/
def Writers.chunks (ctx : ι → Ctx) (f : Fin nfile) (s : Writers ι) (i : ι) : List (Chunk ι) :=
  match s.call i with
  | .writing left =>
    if left.length = 0 then []
    else
      match filewriteTurn (ctx i) f left s.fs with
      | .ok r _ => if r < 0 then [] else [⟨i, (s.fs.ftable f).off, left.take (turnLength left)⟩]
      | .error _ _ => []
  | _ => []

end

end Xv6.Fs
