import Xv6.Kernel.Thread
import Mathlib.Data.Finset.Card

/-!
# Operations on the log

The part of `log.c` that lets file system calls share a transaction: `begin_op` admits an operation
when no commit is going on and the log has room for `MAXOPBLOCKS` blocks of every operation in
progress, `log_write` records a block, `end_op` commits when the last operation ends. As a `Client`
there is one lock, `log.lock`, and one channel, `&log`; a thread in an operation carries the set of
the blocks it has written in it. `log_write` makes its two checks before it takes the lock, and
`commit` runs without the lock; of `commit` only the reset `log.lh.n = 0` is seen here, its disk
writes are those of `Xv6.Log.Commit`.
-/

namespace Xv6

/-- The fields of `struct log` under `log.lock`: `block` holds
`lh.block[0], …, lh.block[lh.n-1]`. -/
structure LogState where
  block : List Nat
  outstanding : Int
  committing : Bool

/-- `log.lh.n`. -/
def LogState.n (o : LogState) : Int := o.block.length

inductive LogCall
  | beginOp
  | logWrite (blockno : Nat) (ws : Finset Nat)
  | endOp
  /-- The second critical section of `end_op`, after the commit. -/
  | endCommit

inductive LogLoc
  | idle
  /-- Between `begin_op` and `end_op`, with the blocks written so far. -/
  | inOp (ws : Finset Nat)
  /-- In `end_op`, with `do_commit` set. -/
  | mustCommit
  | committed

inductive LogAct
  | beginOp
  | logWrite (blockno : Nat)
  | endOp
  | commit
  | endCommit

abbrev LogSection := Section LogState LogCall LogLoc

def beginOpBody (o : LogState) : LogSection :=
  if o.committing then ⟨o, [], .sleep .beginOp⟩
  else if o.n + (o.outstanding + 1) * maxOpBlocks > logSize then ⟨o, [], .sleep .beginOp⟩
  else ⟨{ o with outstanding := o.outstanding + 1 }, [], .leave (.inOp ∅)⟩

/-- `log_write` under the lock: a block that is in the log already is absorbed. -/
def logWriteBody (blockno : Nat) (ws : Finset Nat) (o : LogState) : LogSection :=
  ⟨{ o with block := if blockno ∈ o.block then o.block else o.block ++ [blockno] }, [],
    .leave (.inOp (insert blockno ws))⟩

def endOpBody (o : LogState) : LogSection :=
  let o := { o with outstanding := o.outstanding - 1 }
  if o.committing then ⟨o, [], .panic "log.committing"⟩
  else if o.outstanding = 0 then ⟨{ o with committing := true }, [], .leave .mustCommit⟩
  else ⟨o, [.log], .leave .idle⟩

def endCommitBody (o : LogState) : LogSection :=
  ⟨{ o with committing := false }, [.log], .leave .idle⟩

def LogCall.body : LogCall → LogState → LogSection
  | .beginOp => beginOpBody
  | .logWrite b ws => logWriteBody b ws
  | .endOp => endOpBody
  | .endCommit => endCommitBody

/-- The checks of `log_write` before it takes the lock. -/
def logWriteEnter (size : Int) (b : Nat) (ws : Finset Nat) (o : LogState) :
    Outside Unit LogState LogCall LogLoc :=
  if o.n ≥ logSize ∨ o.n ≥ size - 1 then .panic "too big a transaction"
  else if o.outstanding < 1 then .panic "log_write outside of trans"
  else .call (.logWrite b ws)

/-- What a thread does outside of the lock. File system calls write between `begin_op` and `end_op`
only, and no more than `limit` blocks. -/
def logOutside (size : Int) (limit : Nat) :
    LogLoc → LogAct → (Unit → LogState) → Option (Outside Unit LogState LogCall LogLoc)
  | .idle, .beginOp, _ => some (.call .beginOp)
  | .inOp ws, .logWrite b, o =>
    if (insert b ws).card ≤ limit then some (logWriteEnter size b ws (o ())) else none
  | .inOp _, .endOp, _ => some (.call .endOp)
  | .mustCommit, .commit, o => some (.code (fun _ => { o () with block := [] }) .committed)
  | .committed, .endCommit, _ => some (.call .endCommit)
  | _, _, _ => none

/-- The log as a client of `sleep` and `wakeup`; `size` is `log.size`, `limit` the number of
distinct blocks an operation may write. -/
def logOps (size : Int) (limit : Nat) : Client Unit LogState LogCall LogLoc LogAct where
  lockOf _ := ()
  chanOf _ := .log
  body c _ o := c.body o
  outside := logOutside size limit
  sleep_lockOf _ _ _ _ _ := rfl

abbrev LogThreads := Threads Unit LogState LogCall LogLoc

/-- After `initlog`: the log is empty, no operation is in progress. -/
def logBoot (proc : Ptable) : LogThreads := Threads.init proc (fun _ => ⟨[], 0, false⟩) .idle

end Xv6
