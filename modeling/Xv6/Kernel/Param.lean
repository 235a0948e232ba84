import Mathlib.Algebra.Order.Ring.Nat

/-!
# Constants and machine integers

The constants of `param.h`, `fs.h`, `mailbox.h` and `mkfs.c` that the models use, and C's 32-bit
`int` arithmetic: an `int` is an `Int`, and every addition that the code performs on one is
followed by `int32` (two's complement wrap-around).
-/

namespace Xv6

/-- `NPROC`: maximum number of processes. -/
abbrev nproc : Nat := 64

instance : NeZero nproc := ⟨by decide⟩

/-- `MAXOPBLOCKS`: maximum number of blocks any file-system operation writes. -/
def maxOpBlocks : Nat := 10

/-- `LOGSIZE`: maximum data blocks in the on-disk log. -/
def logSize : Nat := maxOpBlocks * 3

/-- `nlog` of `mkfs.c`: the number of log blocks, the header included, in the images it makes. -/
def nlog : Nat := logSize

abbrev numMailboxes : Nat := 16

/-- `MAILBOX_MSGSIZE`: maximum bytes per message. -/
abbrev mailboxMsgSize : Nat := 128

/-- The value of a 32-bit `int` after wrap-around. -/
def int32 (x : Int) : Int := (x + 2147483648) % 4294967296 - 2147483648

def intMax : Int := 2147483647

theorem int32_of_range {x : Int} (h0 : -2147483648 ≤ x) (h1 : x ≤ intMax) : int32 x = x := by
  unfold int32 intMax at *
  omega

theorem int32_add_int32 (x y : Int) : int32 (int32 x + y) = int32 (x + y) := by
  unfold int32
  omega

end Xv6
