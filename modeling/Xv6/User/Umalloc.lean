import Xv6.Vm.Memory

/-!
# The user-level allocator

`umalloc.c`. A header is the 8 bytes at its address; the null pointer is 0, and `p + n` of the
source is `p + hdr * n`. What `sbrk` answers is a parameter: it grants what it is asked for or fails
(`grow`), or it is what the kernel makes of its signed argument (`sysSbrk`). The loops take fuel. A
program calls `malloc` and `free`, frees only what it has, and writes what it likes into its blocks.
-/

namespace Xv6.Umalloc

/-- `sizeof(Header)`. -/
def hdr : Nat := 8

structure Header where
  ptr : Nat
  size : Nat
  deriving DecidableEq

/-- Where the static `base` is, and the break before the first `sbrk`: `base` is in the memory that
the program starts with. -/
structure Layout where
  base : Nat
  start : Nat
  base_pos : 0 < base
  below : base + hdr ≤ start

/-- The memory by the addresses of headers, `freep`, and the break. -/
structure Heap where
  mem : Nat → Header
  freep : Nat
  brk : Nat

abbrev Mem := Nat → Header

def setPtr (m : Mem) (a p : Nat) : Mem := Function.update m a { m a with ptr := p }

def setSize (m : Mem) (a n : Nat) : Mem := Function.update m a { m a with size := n }

/-- The loop of `free`. -/
def freeSearch (m : Mem) (bp : Nat) : Nat → Nat → Option Nat
  | 0, _ => none
  | n + 1, p =>
    if bp > p ∧ bp < (m p).ptr then some p
    else if p ≥ (m p).ptr ∧ (bp > p ∨ bp < (m p).ptr) then some p
    else freeSearch m bp n (m p).ptr

/-- The block at `bp` before its place in the list: it takes in the next free block if it touches
it. -/
def joinNext (m : Mem) (p bp : Nat) : Mem :=
  if bp + hdr * (m bp).size = (m p).ptr then
    let m := setSize m bp ((m bp).size + (m (m p).ptr).size)
    setPtr m bp (m (m p).ptr).ptr
  else setPtr m bp (m p).ptr

/-- The block at `bp` after `p` in the list: `p` takes it in if it touches it. -/
def joinPrev (m : Mem) (p bp : Nat) : Mem :=
  if p + hdr * (m p).size = bp then
    let m := setSize m p ((m p).size + (m bp).size)
    setPtr m p (m bp).ptr
  else setPtr m p bp

/-- How a call ends when it does not return. -/
inductive Stop
  /-- The model has run out of fuel. -/
  | fuel
  /-- The process touches a page that is not there. -/
  | fault
  deriving DecidableEq

def free (fuel ap : Nat) (h : Heap) : Except Stop Heap :=
  let bp := ap - hdr
  match freeSearch h.mem bp fuel h.freep with
  | none => .error .fuel
  | some p => .ok { h with mem := joinPrev (joinNext h.mem p bp) p bp, freep := p }

/-- What `sbrk` answers: `(char*)-1`; nothing, since the pages of the process are gone; or the old
break. -/
inductive Answer
  | failed
  | gone
  | at (p : Nat) (h : Heap)

/-- `sbrk`, on its signed argument. -/
abbrev Sbrk := Int → Heap → Answer

/-- A `uint` as the `int` that `sbrk` takes. -/
def toInt32 (n : Nat) : Int := if n < 2 ^ 31 then n else (n : Int) - 2 ^ 32

/-- The pages of a process with this break are there up to the end of the last one. -/
def pgroundup (sz : Nat) : Nat := (sz + 4095) / 4096 * 4096

/-- `morecore`: `freep`, or the null pointer. -/
def morecore (sbrk : Sbrk) (fuel nu : Nat) (h : Heap) : Except Stop (Nat × Heap) :=
  let nu := if nu < 4096 then 4096 else nu
  match sbrk (toInt32 (nu * hdr % 2 ^ 32)) h with
  | .failed => .ok (0, h)
  | .gone => .error .fault
  | .at p h =>
    -- the store to `hp->s.size`
    if p + hdr ≤ pgroundup h.brk then do
      let h ← free fuel (p + hdr) { h with mem := setSize h.mem p nu }
      return (h.freep, h)
    else .error .fault

/-- The block at `p`, or its end, is taken. -/
def take (nunits prevp p : Nat) (h : Heap) : Nat × Heap :=
  if (h.mem p).size = nunits then
    (p + hdr, { h with mem := setPtr h.mem prevp (h.mem p).ptr, freep := prevp })
  else
    let m := setSize h.mem p ((h.mem p).size - nunits)
    let q := p + hdr * (m p).size
    (q + hdr, { h with mem := setSize m q nunits, freep := prevp })

/-- The loop of `malloc`, with `fuel` for the loop of `free` in `morecore`. -/
def mallocLoop (sbrk : Sbrk) (fuel nunits : Nat) : Nat → Heap → Nat → Nat → Except Stop (Nat × Heap)
  | 0, _, _, _ => .error .fuel
  | n + 1, h, prevp, p =>
    if (h.mem p).size ≥ nunits then .ok (take nunits prevp p h)
    else if p = h.freep then do
      let (p, h) ← morecore sbrk fuel nunits h
      if p = 0 then return (0, h)
      else mallocLoop sbrk fuel nunits n h p (h.mem p).ptr
    else mallocLoop sbrk fuel nunits n h p (h.mem p).ptr

/-- `nunits`, in `uint` arithmetic. -/
def unitsFor (nbytes : Nat) : Nat := (nbytes + hdr - 1) % 2 ^ 32 / hdr + 1

/-- The first call of `malloc` makes the list of `base` alone. -/
def initFree (Y : Layout) (h : Heap) : Heap :=
  if h.freep = 0 then
    { h with mem := Function.update h.mem Y.base ⟨Y.base, 0⟩, freep := Y.base }
  else h

def malloc (Y : Layout) (sbrk : Sbrk) (fuel nbytes : Nat) (h : Heap) : Except Stop (Nat × Heap) :=
  let h := initFree Y h
  mallocLoop sbrk fuel (unitsFor nbytes) fuel h h.freep (h.mem h.freep).ptr

/-! ## `sbrk` -/

/-- `sys_sbrk` with `growproc`, as far as the allocator sees it: `grant` says whether `allocuvm`
finds the memory. A sum of 0 frees the pages of the process, and is then taken for an error. -/
def sysSbrk (grant : Bool) : Sbrk := fun n h =>
  let newsz := ((h.brk + n) % Vm.u32).toNat
  if n > 0 then
    if newsz ≥ Vm.kernbase then .failed
    else if newsz < h.brk then .at h.brk h
    else if grant then
      .at h.brk { h with
        mem := fun a => if pgroundup h.brk ≤ a ∧ a < newsz then ⟨0, 0⟩ else h.mem a
        brk := newsz }
    else .failed
  else if n < 0 then
    if newsz ≥ h.brk then .at h.brk h
    else if newsz = 0 then .gone
    else .at h.brk { h with brk := newsz }
  else .at h.brk h

/-- `sbrk` that grants `n` bytes, all zero, or not; and never beyond the addresses of a pointer. -/
def grow (grant : Bool) : Sbrk := fun n h =>
  if grant ∧ 0 < n ∧ h.brk + n.toNat < 2 ^ 32 then
    .at h.brk { h with
      mem := fun a => if h.brk ≤ a ∧ a < h.brk + n.toNat then ⟨0, 0⟩ else h.mem a
      brk := h.brk + n.toNat }
  else .failed

/-! ## A program -/

/-- A program: the heap, and the blocks it has, by the addresses of their headers. -/
structure Prog where
  heap : Heap
  live : List Nat

/-- What it may do. -/
inductive ProgAct
  | malloc (nbytes : Nat) (grant : Bool)
  | free (ap : Nat)
  | write (a : Nat) (v : Header)

/-- A request is smaller than this, so that `sbrk` gets a positive number. -/
def maxBytes : Nat := 2 ^ 31 - 4096 * 8 - 16

/-- The address is in one of the blocks, after the header. -/
def Prog.inside (s : Prog) (a : Nat) : Prop :=
  ∃ bp ∈ s.live, ∃ i < (s.heap.mem bp).size, 0 < i ∧ a = bp + hdr * i

instance (s : Prog) (a : Nat) : Decidable (s.inside a) :=
  inferInstanceAs (Decidable (∃ bp ∈ s.live, ∃ i < (s.heap.mem bp).size, 0 < i ∧ a = bp + hdr * i))

/-- The blocks after `malloc` has returned `ap`. -/
def Prog.got (live : List Nat) (ap : Nat) : List Nat := if ap = 0 then live else (ap - hdr) :: live

def progStep (Y : Layout) (fuel : Nat) (s : Prog) : ProgAct → Option Prog
  | .malloc nbytes grant =>
    if nbytes < maxBytes then
      match malloc Y (grow grant) fuel nbytes s.heap with
      | .ok (ap, h) => some ⟨h, Prog.got s.live ap⟩
      | .error _ => none
    else none
  | .free ap =>
    if hdr ≤ ap ∧ ap - hdr ∈ s.live then
      match free fuel ap s.heap with
      | .ok h => some ⟨h, s.live.erase (ap - hdr)⟩
      | .error _ => none
    else none
  | .write a v =>
    if s.inside a then some { s with heap := { s.heap with mem := Function.update s.heap.mem a v } }
    else none

/-- The start of the program. -/
def progStart (Y : Layout) (m : Mem) : Prog := ⟨⟨m, 0, Y.start⟩, []⟩

end Xv6.Umalloc
