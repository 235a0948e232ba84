import Mathlib.Data.BitVec
import Xv6.Kernel.Param
import Xv6.Kernel.String
import Xv6.Lib.Loop

/-!
# The multiprocessor tables

`mp.c`, over memory by 32-bit kernel addresses: the search for the floating pointer structure, the
checks of `mpconfig`, and `mpinit`, whose loop goes over the entries of the configuration table. A
pointer is a 32-bit word, and so are its sums and comparisons.
-/

namespace Xv6.Mp

open Lib
open Kernel (Mem)

/-- `NCPU`: maximum number of CPUs. -/
abbrev ncpuMax : Nat := 8

abbrev Ptr := BitVec 32

def p2v (a : BitVec 32) : Ptr := a + 0x80000000

/-- A `ushort` in memory. -/
def ushort (mem : Mem) (p : Ptr) : Nat := (mem p).toNat + 2 ^ 8 * (mem (p + 1)).toNat

/-- A `uint` in memory. -/
def uint (mem : Mem) (p : Ptr) : BitVec 32 :=
  BitVec.ofNat 32 (ushort mem p + 2 ^ 16 * ushort mem (p + 2))

/-- The `n` bytes from `p` on. -/
def bytes (mem : Mem) (p : Ptr) (n : Nat) : List UInt8 :=
  (List.range n).map fun i => mem (p + BitVec.ofNat 32 i)

def sum (mem : Mem) (addr : Ptr) (len : Nat) : UInt8 := (bytes mem addr len).foldl (· + ·) 0

/-- Look for an MP structure in the `len` bytes at `a`: it has 16 bytes, `len` is a multiple of
that, and its signature is `_MP_`. -/
def mpsearch1 (mem : Mem) (a : BitVec 32) (len : Nat) : Option Ptr :=
  ((List.range (len / 16)).map fun i => p2v a + BitVec.ofNat 32 (16 * i)).find? fun p =>
    bytes mem p 4 = [0x5f, 0x4d, 0x50, 0x5f] ∧ sum mem p 16 = 0

def mpsearch (mem : Mem) : Option Ptr :=
  let bda := p2v 0x400
  let p := BitVec.ofNat 32 ((2 ^ 8 * (mem (bda + 0x0F)).toNat + (mem (bda + 0x0E)).toNat) * 2 ^ 4)
  let found :=
    if p ≠ 0 then mpsearch1 mem p 1024
    else
      let p := BitVec.ofNat 32 ((2 ^ 8 * (mem (bda + 0x14)).toNat + (mem (bda + 0x13)).toNat) * 1024)
      mpsearch1 mem (p - 1024) 1024
  match found with
  | some mp => some mp
  | none => mpsearch1 mem 0xF0000 0x10000

/-- `conf->length`. -/
def confLength (mem : Mem) (conf : Ptr) : Nat := ushort mem (conf + 4)

/-- `mpconfig`: the floating pointer structure and the configuration table. -/
def mpconfig (mem : Mem) : Option (Ptr × Ptr) := do
  let mp ← mpsearch mem
  -- `mp->physaddr`
  let physaddr := uint mem (mp + 4)
  if physaddr = 0 then none
  else
    let conf := p2v physaddr
    -- `PCMP`
    if bytes mem conf 4 ≠ [0x50, 0x43, 0x4d, 0x50] then none
    -- `conf->version`
    else if mem (conf + 6) ≠ 1 ∧ mem (conf + 6) ≠ 4 then none
    else if sum mem conf (confLength mem conf) ≠ 0 then none
    else some (mp, conf)

/-- The variables of `mpinit`, and the statics that it sets. -/
structure Scan where
  p : Ptr
  ismp : Bool
  ncpu : Nat
  /-- `cpus[].apicid`. -/
  apicid : Fin ncpuMax → UInt8
  ioapicid : UInt8

/-- `case MPPROC`. -/
def mpproc (mem : Mem) (s : Scan) : Scan :=
  if h : s.ncpu < ncpuMax then
    { s with
      apicid := Function.update s.apicid ⟨s.ncpu, h⟩ (mem (s.p + 1))
      ncpu := s.ncpu + 1
      p := s.p + 20 }
  else { s with p := s.p + 20 }

/-- The body of the loop over the entries: the switch on the type of the entry at `p`. -/
def entry (mem : Mem) (s : Scan) : Scan :=
  match (mem s.p).toNat with
  | 0 => mpproc mem s
  | 2 => { s with ioapicid := mem (s.p + 1), p := s.p + 8 }
  | 1 | 3 | 4 => { s with p := s.p + 8 }
  -- `break` leaves the switch and not the loop
  | _ => { s with ismp := false }

/-- `e`, the end of the table. -/
def tableEnd (mem : Mem) (conf : Ptr) : Ptr := conf + BitVec.ofNat 32 (confLength mem conf)

/-- The loop over the entries, for less than `n` turns. -/
def entries (mem : Mem) (e : Ptr) (n : Nat) (s : Scan) : Option Scan :=
  loop (fun s => s.p < e) (entry mem) n s

/-- How `mpinit` ends: with a panic, or returning, with the IMCR set if the machine has one. -/
inductive Ended
  | panic (msg : String)
  | returned (lapic : BitVec 32) (imcr : Bool)
  deriving DecidableEq

/-- Before `mpinit`: no CPU found yet. -/
def start (p : Ptr) : Scan := ⟨p, true, 0, fun _ => 0, 0⟩

/-- `mpinit`, if its loop takes less than `n` turns: what it has found, and how it ends. -/
def mpinit (mem : Mem) (n : Nat) : Option (Scan × Ended) :=
  match mpconfig mem with
  | none => some (start 0, .panic "Expect to run on an SMP")
  | some (mp, conf) => do
    -- `conf->lapicaddr`
    let lapic := uint mem (conf + 36)
    let s ← entries mem (tableEnd mem conf) n (start (conf + 44))
    if !s.ismp then some (s, .panic "Didn't find a suitable machine")
    -- `mp->imcrp`
    else some (s, .returned lapic (mem (mp + 12) ≠ 0))

end Xv6.Mp
