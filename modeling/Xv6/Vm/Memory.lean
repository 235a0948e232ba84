import Mathlib.Algebra.Order.Ring.Nat
import Mathlib.Order.Fin.Basic

/-!
# Physical memory and the page allocator

Physical memory is a function from page numbers to pages of 1024 words; a pointer `P2V(pa)` to a
page is the number of the page. The free list of `kalloc.c` is a list of page numbers; the word
`r->next` that links it is also written into the free page. `kalloc` fails when the list is empty,
and also when `oom` says so: other code of the kernel may have taken the page.

A program of `M` changes the memory and returns, or stops: in a `panic`, or in a fault of the
kernel.
-/

namespace Xv6.Vm

/-- Bytes mapped by a page. -/
abbrev pgsize : Nat := 4096

/-- First kernel virtual address. -/
abbrev kernbase : Nat := 0x80000000

/-- Start of extended memory. -/
abbrev extmem : Nat := 0x100000

/-- Top physical memory. -/
abbrev phystop : Nat := 0xE000000

/-- Other devices are at high addresses. -/
abbrev devspace : Nat := 0xFE000000

/-- Address where the kernel is linked. -/
abbrev kernlink : Nat := kernbase + extmem

/-- Number of values of a `uint`. -/
abbrev u32 : Nat := 0x100000000

/-- The number of a physical page. -/
abbrev Ppn := BitVec 20

abbrev Word := BitVec 32

instance neZeroPage : NeZero 1024 := ⟨by decide⟩

abbrev Page := Fin 1024 → Word

/-- The addresses `data` and `end` that the linker gives (kernel.ld). -/
structure Layout where
  data : Nat
  stop : Nat
  aligned : data % pgsize = 0
  text : kernlink < data
  lt : data < stop
  fits : stop ≤ kernbase + phystop

/-- The pages that `kfree` accepts: `v >= end && V2P(v) < PHYSTOP`. -/
def Layout.Managed (L : Layout) (v : Ppn) : Prop :=
  L.stop ≤ kernbase + v.toNat * pgsize ∧ v.toNat * pgsize < phystop

instance (L : Layout) (v : Ppn) : Decidable (L.Managed v) := by
  unfold Layout.Managed
  infer_instance

structure Mem where
  page : Ppn → Page
  free : List Ppn
  oom : List Bool

abbrev M := EStateM String Mem

def panic {α : Type} (msg : String) : M α := throw msg

/-- A page of which each word is `w`. -/
def Page.const (w : Word) : Page := fun _ => w

/-- Byte `o` of a page. -/
def Page.byte (pg : Page) (o : Nat) : BitVec 8 :=
  (pg (Fin.ofNat 1024 (o / 4))).extractLsb' (8 * (o % 4)) 8

/-- The page with the bytes `bs` from offset `off` on. -/
def Page.copyIn (pg : Page) (off : Nat) (bs : List (BitVec 8)) : Page := fun i =>
  let b (j : Nat) : BitVec 8 :=
    if off ≤ 4 * i + j then bs.getD (4 * i + j - off) (pg.byte (4 * i + j)) else pg.byte (4 * i + j)
  (b 3 ++ b 2 ++ b 1 ++ b 0 : BitVec 32)

def Mem.setPage (s : Mem) (p : Ppn) (pg : Page) : Mem :=
  { s with page := Function.update s.page p pg }

/-- Word `i` of page `p`. -/
def rd (p : Ppn) (i : Fin 1024) : M Word := fun s => .ok (s.page p i) s

def wr (p : Ppn) (i : Fin 1024) (w : Word) : M Unit :=
  modify fun s => s.setPage p (Function.update (s.page p) i w)

def memset (p : Ppn) (w : Word) : M Unit := modify fun s => s.setPage p (Page.const w)

/-- `memmove` of a whole page. -/
def movePage (dst src : Ppn) : M Unit := modify fun s => s.setPage dst (s.page src)

/-- `memmove` of bytes into a page. -/
def moveBytes (dst : Ppn) (off : Nat) (bs : List (BitVec 8)) : M Unit :=
  modify fun s => s.setPage dst ((s.page dst).copyIn off bs)

/-- `P2V` of a page, as it stands in `r->next`. -/
def link : Option Ppn → Word
  | none => 0
  | some p => BitVec.ofNat 32 (kernbase + p.toNat * pgsize)

/-- The contents of a page after `kfree`: junk, and the link. -/
def freed (l : List Ppn) : Page := Function.update (Page.const 0x01010101) 0 (link l.head?)

def kfree (L : Layout) (v : Ppn) : M Unit :=
  if L.Managed v then
    modify fun s => { s.setPage v (freed s.free) with free := v :: s.free }
  else
    panic "kfree"

def kalloc : M (Option Ppn) := fun s =>
  match s.oom.head?, s.free with
  | some true, _ | _, [] => .ok none { s with oom := s.oom.tail }
  | _, r :: l => .ok (some r) { s with free := l, oom := s.oom.tail }

/-- `freerange`, for `n` pages from `p` on. -/
def freerange (L : Layout) : Nat → Ppn → M Unit
  | 0, _ => pure ()
  | n + 1, p => do
    kfree L p
    freerange L n (p + 1)

/-- The number of the first page after the kernel: `V2P(PGROUNDUP(end)) / PGSIZE`. -/
def Layout.firstPage (L : Layout) : Nat := (L.stop - kernbase + (pgsize - 1)) / pgsize

/-- `kinit1` and `kinit2`: all pages from `end` to `PHYSTOP`. -/
def kinit (L : Layout) : M Unit :=
  freerange L (phystop / pgsize - L.firstPage) (BitVec.ofNat 20 L.firstPage)

end Xv6.Vm
