import Xv6.Io.Bcache
import Xv6.Lib.Dlist

/-!
# The list of the buffer cache

The cache of `Xv6.Bcache` with its list as it is in `bio.c`: `next` and `prev` pointers in the
buffers and in `bcache.head`. `binit` makes the list, `bget` goes along it, forwards for the block
and backwards for a buffer to recycle, and `brelse` moves a buffer that nobody uses any more to its
front. Everything else is as in `Xv6.Bcache`, whose list of buffers is not used here.
-/

namespace Xv6.Bcache

open Lib

structure PtrState (P D : Type) where
  /-- The rest of the cache. -/
  core : State P D
  /-- `next` and `prev`; `none` is `&bcache.head`. -/
  links : Dlist (Fin nbuf)

section
variable {P D : Type} [DecidableEq P]

namespace PtrState

/-- The loops of `bget` have at most this many turns. -/
def turns : Nat := nbuf + 1

/-- `bget` up to the release of `bcache.lock`, if its loops end. -/
def bget (s : PtrState P D) (p : P) (k : Key) : Option (PtrState P D) := do
  let c := s.core
  -- is the block already cached?
  match ← Dlist.find s.links.next (fun b => (c.buf b).key = k) turns (s.links.next none) with
  | some b =>
    let c := c.setBuf b { c.buf b with refcnt := (c.buf b).refcnt + 1 }
    return { s with core := c.setPc p (.locking b k) }
  | none =>
    -- not cached; recycle an unused buffer
    match ← Dlist.find s.links.prev (fun b => (c.buf b).refcnt = 0 ∧ (c.buf b).dirty = false) turns
      (s.links.prev none) with
    | some b =>
      let c := c.setBuf b { c.buf b with key := k, valid := false, dirty := false, refcnt := 1 }
      return { s with core := c.setPc p (.locking b k) }
    | none => return { s with core := { c with panicked := some "bget: no buffers" } }

/-- `brelse` from `acquire(&bcache.lock)` on. -/
def decref (s : PtrState P D) (p : P) (b : Fin nbuf) : PtrState P D :=
  let c := s.core
  let c' := (c.setBuf b { c.buf b with refcnt := (c.buf b).refcnt - 1 }).setPc p .run
  if (c.buf b).refcnt - 1 = 0 then ⟨c', (s.links.unlink b).pushFront b⟩ else { s with core := c' }

def step (s : PtrState P D) (a : Act P D) : Option (PtrState P D) :=
  if s.core.panicked ≠ none then none
  else
    match a with
    | .bget p k => if s.core.pc p = .run then s.bget p k else none
    | .decref p =>
      match s.core.pc p with
      | .releasing b => some (s.decref p b)
      | _ => none
    | a => (Bcache.step s.core a).map fun c => { s with core := c }

/-- The list that `binit` makes. -/
def binit : Dlist (Fin nbuf) := (List.finRange nbuf).foldl Dlist.pushFront Dlist.empty

def init (disk : Key → D) (junk : D) : PtrState P D := ⟨Bcache.init disk junk, binit⟩

/-- The buffer whose `refcnt` a step makes 0. -/
def released (s : PtrState P D) : Act P D → List (Fin nbuf)
  | .decref p =>
    match s.core.pc p with
    | .releasing b => if (s.core.buf b).refcnt - 1 = 0 then [b] else []
    | _ => []
  | _ => []

end PtrState

end

end Xv6.Bcache
