import Xv6.Kernel.Param
import Mathlib.Logic.Function.Basic

/-!
# Commit and recovery

The part of `log.c` that writes to the disk: `write_log`, `write_head`, `install_trans`, `commit`
and `recover_from_log`. A block is `BSIZE / 4` words; the header block holds `n` in its first word
and `block[i]` in the words after it. The kernel reads a block from the buffer cache if it is there
and from the disk otherwise (`bread`), and a `bwrite` changes both. `Io` also keeps the list of the
single-block writes made so far: a crash leaves the disk after some first writes of that list.
-/

namespace Xv6

/-- `BSIZE / sizeof(uint)`. -/
abbrev wordsPerBlock : Nat := 128

abbrev Block := Fin wordsPerBlock → Nat

/-- Word `i` of a block. -/
def word (b : Block) (i : Nat) : Nat := if h : i < wordsPerBlock then b ⟨i, h⟩ else 0

abbrev Disk := Nat → Block

/-- `log.start` and `log.size`: the header block and the log blocks after it. -/
structure LogArea where
  start : Nat
  size : Nat

def LogArea.Mem (L : LogArea) (b : Nat) : Prop := L.start ≤ b ∧ b < L.start + L.size

instance (L : LogArea) (b : Nat) : Decidable (L.Mem b) := inferInstanceAs (Decidable (_ ∧ _))

/-- The disk, the buffer cache and the writes made. -/
structure Io where
  disk : Disk
  cache : Nat → Option Block
  done : List (Nat × Block)

def bread (s : Io) (b : Nat) : Block := (s.cache b).getD (s.disk b)

def bwrite (s : Io) (b : Nat) (x : Block) : Io :=
  ⟨Function.update s.disk b x, Function.update s.cache b (some x), s.done ++ [(b, x)]⟩

/-- The loop of `write_log` from `tail` on, over the rest of `lh.block`. -/
def writeLogFrom (L : LogArea) : Nat → List Nat → Io → Io
  | _, [], s => s
  | tail, b :: bs, s => writeLogFrom L (tail + 1) bs (bwrite s (L.start + tail + 1) (bread s b))

/-- Copy modified blocks from the cache to the log. -/
def writeLog (L : LogArea) (lh : List Nat) (s : Io) : Io := writeLogFrom L 0 lh s

/-- The loop of `install_trans` from `tail` on. -/
def installTransFrom (L : LogArea) : Nat → List Nat → Io → Io
  | _, [], s => s
  | tail, b :: bs, s => installTransFrom L (tail + 1) bs (bwrite s b (bread s (L.start + tail + 1)))

/-- Copy committed blocks from the log to their home location. -/
def installTrans (L : LogArea) (lh : List Nat) (s : Io) : Io := installTransFrom L 0 lh s

/-- The header block with the in-memory header `lh`; the words after `block[n-1]` stay. -/
def putHead (lh : List Nat) (hb : Block) : Block := fun w =>
  if w.val = 0 then lh.length else lh.getD (w.val - 1) (hb w)

/-- The header in a header block. -/
def getHead (hb : Block) : List Nat := (List.range (word hb 0)).map fun i => word hb (i + 1)

def readHead (L : LogArea) (s : Io) : List Nat := getHead (bread s L.start)

def writeHead (L : LogArea) (lh : List Nat) (s : Io) : Io :=
  bwrite s L.start (putHead lh (bread s L.start))

/-- `commit`, with the in-memory header `lh`. -/
def commit (L : LogArea) (lh : List Nat) (s : Io) : Io :=
  if lh.length > 0 then
    let s := writeLog L lh s
    let s := writeHead L lh s
    let s := installTrans L lh s
    writeHead L [] s
  else s

/-- The kernel after a boot from the disk `d`. -/
def boot (d : Disk) : Io := ⟨d, fun _ => none, []⟩

def recoverFromLog (L : LogArea) (s : Io) : Io :=
  let lh := readHead L s
  let s := installTrans L lh s
  writeHead L [] s

end Xv6
