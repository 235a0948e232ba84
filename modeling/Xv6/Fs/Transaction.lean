import Xv6.Fs.Disk
import Xv6.Log.Ops

/-!
# An operation alone in the log

The functions of `fs.c` note the blocks that they pass to `log_write`. Here these go, in their
order, through the `log_write` of `log.c`, which panics when a transaction gets too big.
-/

namespace Xv6.Fs

/-- The blocks passed to `log_write`, the first first. -/
def logWrites (es : List (Event × Core)) : List Nat :=
  es.reverse.filterMap fun m => match m.1 with
    | .logWrite b => some b
    | _ => none

/-- `log_write` on one block after the other; `size` is `log.size`. -/
def logAll (size : Int) : List Nat → LogState → Except String LogState
  | [], o => .ok o
  | b :: bs, o =>
    match logWriteEnter size b ∅ o with
    | .panic msg => .error msg
    | _ => logAll size bs (logWriteBody b ∅ o).obj

/-- Where a call has come to. -/
def stateOf {α : Type} : EStateM.Result Stop State α → State
  | .ok _ s => s
  | .error _ s => s

/-- `x` between `begin_op` and `end_op`, with no other operation in the log. A panic of `log_write`
comes before whatever `x` would have done next. -/
def inOp {α : Type} (c : Ctx) (x : M α) : M α := fun s =>
  let hist := (stateOf (x s)).hist
  match logAll c.sb.nlog (logWrites (hist.take (hist.length - s.hist.length))) ⟨[], 1, false⟩ with
  | .ok _ => x s
  | .error msg => .error (.panic msg) (stateOf (x s))

end Xv6.Fs
