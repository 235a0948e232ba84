import Xv6.Vm.Memory

/-!
# Page tables (vm.c)

A page directory is given by the number of its page; a pointer to a table entry is the number of the
page of the table and the index. Virtual addresses are `uint`s. `perm` and the flags are the low
twelve bits of an entry.
-/

namespace Xv6.Vm

abbrev pteP : BitVec 12 := 0x001
abbrev pteW : BitVec 12 := 0x002
abbrev pteU : BitVec 12 := 0x004

/-- `PTE_ADDR`, as the number of the page. -/
def pteAddr (w : Word) : Ppn := w.extractLsb' 12 20

def pteFlags (w : Word) : BitVec 12 := w.extractLsb' 0 12

/-- The entry `pa | flags`. -/
def pte (pa : Ppn) (flags : BitVec 12) : Word := pa ++ flags

/-- `*pte & PTE_P`. -/
def present (w : Word) : Bool := w.getLsbD 0

/-- `*pte & PTE_U`. -/
def user (w : Word) : Bool := w.getLsbD 2

/-- Page directory index. -/
def pdx (va : Nat) : Fin 1024 := Fin.ofNat 1024 (va / 2 ^ 22)

/-- Page table index. -/
def ptx (va : Nat) : Fin 1024 := Fin.ofNat 1024 (va / 2 ^ 12)

def pgroundup (sz : Nat) : Nat := (sz + (pgsize - 1)) / pgsize * pgsize % u32

def pgrounddown (a : Nat) : Nat := a / pgsize * pgsize

def walkpgdir (pgdir : Ppn) (va : Nat) (alloc : Bool) : M (Option (Ppn × Fin 1024)) := do
  let pde ← rd pgdir (pdx va)
  if present pde then
    return some (pteAddr pde, ptx va)
  else if !alloc then
    return none
  else
    match ← kalloc with
    | none => return none
    | some pgtab =>
      memset pgtab 0
      wr pgdir (pdx va) (pte pgtab (pteP ||| pteW ||| pteU))
      return some (pgtab, ptx va)

/-- The loop of `mappages` from `a` on, with `n` pages after this one. -/
def mapLoop (pgdir : Ppn) (perm : BitVec 12) : Nat → Nat → Ppn → M Int
  | n, a, pa => do
    match ← walkpgdir pgdir a true with
    | none => return -1
    | some (pgtab, i) =>
      let w ← rd pgtab i
      if present w then
        panic "remap"
      else
        wr pgtab i (pte pa (perm ||| pteP))
        match n with
        | 0 => return 0
        | n + 1 => mapLoop pgdir perm n (a + pgsize) (pa + 1)

def mappages (pgdir : Ppn) (va size : Nat) (pa : Ppn) (perm : BitVec 12) : M Int :=
  let a := pgrounddown va
  let last := pgrounddown ((va + size - 1) % u32)
  mapLoop pgdir perm ((last + u32 - a) % u32 / pgsize) a pa

structure Kmap where
  virt : Nat
  physStart : Nat
  physEnd : Nat
  perm : BitVec 12

/-- The kernel's mappings, which are present in every page table. -/
def kmap (L : Layout) : List Kmap :=
  [⟨kernbase, 0, extmem, pteW⟩, ⟨kernlink, kernlink - kernbase, L.data - kernbase, 0⟩,
    ⟨L.data, L.data - kernbase, phystop, pteW⟩, ⟨devspace, devspace, 0, pteW⟩]

/-- The loop of `deallocuvm` from `a` on, for at most `n` turns. -/
def deallocLoop (L : Layout) (pgdir : Ppn) (oldsz : Nat) : Nat → Nat → M Unit
  | 0, _ => pure ()
  | n + 1, a =>
    if a < oldsz then do
      match ← walkpgdir pgdir a false with
      | none => deallocLoop L pgdir oldsz n (((pdx a).val + 1) * 2 ^ 22 % u32)
      | some (pgtab, i) =>
        let w ← rd pgtab i
        if present w then
          if pteAddr w = 0 then
            panic "kfree"
          else
            kfree L (pteAddr w)
            wr pgtab i 0
            deallocLoop L pgdir oldsz n (a + pgsize)
        else
          deallocLoop L pgdir oldsz n (a + pgsize)
    else
      pure ()

def deallocuvm (L : Layout) (pgdir : Ppn) (oldsz newsz : Nat) : M Nat :=
  if newsz ≥ oldsz then
    return oldsz
  else do
    deallocLoop L pgdir oldsz (u32 / pgsize) (pgroundup newsz)
    return newsz

/-- `freevm`'s loop over the directory, with `n` entries left. -/
def freeTables (L : Layout) (pgdir : Ppn) : Nat → M Unit
  | 0 => pure ()
  | n + 1 => do
    let pde ← rd pgdir (Fin.ofNat 1024 (1023 - n))
    if present pde then
      kfree L (pteAddr pde)
    freeTables L pgdir n

def freevm (L : Layout) (pgdir : Ppn) : M Unit := do
  let _ ← deallocuvm L pgdir kernbase 0
  freeTables L pgdir 1024
  kfree L pgdir

/-- `setupkvm`'s loop over the kernel's mappings. -/
def mapKernel (L : Layout) (pgdir : Ppn) : List Kmap → M (Option Ppn)
  | [] => return some pgdir
  | k :: ks => do
    if (← mappages pgdir k.virt ((k.physEnd + u32 - k.physStart) % u32)
        (BitVec.ofNat 20 (k.physStart / pgsize)) k.perm) < 0 then
      freevm L pgdir
      return none
    else
      mapKernel L pgdir ks

def setupkvm (L : Layout) : M (Option Ppn) := do
  match ← kalloc with
  | none => return none
  | some pgdir =>
    memset pgdir 0
    if kernbase + phystop > devspace then
      panic "PHYSTOP too high"
    else
      mapKernel L pgdir (kmap L)

/-- The loop of `allocuvm` from `a` on, for `n` pages. -/
def allocLoop (L : Layout) (pgdir : Ppn) (oldsz newsz : Nat) : Nat → Nat → M Nat
  | 0, _ => return newsz
  | n + 1, a => do
    match ← kalloc with
    | none =>
      let _ ← deallocuvm L pgdir newsz oldsz
      return 0
    | some mem =>
      memset mem 0
      if (← mappages pgdir a pgsize mem (pteW ||| pteU)) < 0 then
        let _ ← deallocuvm L pgdir newsz oldsz
        kfree L mem
        return 0
      else
        allocLoop L pgdir oldsz newsz n (a + pgsize)

def allocuvm (L : Layout) (pgdir : Ppn) (oldsz newsz : Nat) : M Nat :=
  if newsz ≥ kernbase then
    return 0
  else if newsz < oldsz then
    return oldsz
  else
    let a := pgroundup oldsz
    allocLoop L pgdir oldsz newsz ((newsz + (pgsize - 1) - a) / pgsize) a

/-- The loop of `copyuvm` from `i` on, for `n` pages. -/
def copyLoop (L : Layout) (pgdir d : Ppn) : Nat → Nat → M (Option Ppn)
  | 0, _ => return some d
  | n + 1, i => do
    match ← walkpgdir pgdir i false with
    | none => panic "copyuvm: pte should exist"
    | some (pgtab, j) =>
      let w ← rd pgtab j
      if !present w then
        panic "copyuvm: page not present"
      else
        match ← kalloc with
        | none =>
          freevm L d
          return none
        | some mem =>
          movePage mem (pteAddr w)
          if (← mappages d i pgsize mem (pteFlags w)) < 0 then
            kfree L mem
            freevm L d
            return none
          else
            copyLoop L pgdir d n (i + pgsize)

def copyuvm (L : Layout) (pgdir : Ppn) (sz : Nat) : M (Option Ppn) := do
  match ← setupkvm L with
  | none => return none
  | some d => copyLoop L pgdir d ((sz + (pgsize - 1)) / pgsize) 0

/-- Load the initcode into address 0 of `pgdir`. What `kalloc` and `mappages` return is not checked:
a null pointer is followed in the first case, and in the second the first process has no memory,
faults at its first instruction and exits. The kernel does not survive either. -/
def inituvm (pgdir : Ppn) (init : List (BitVec 8)) : M Unit :=
  if init.length ≥ pgsize then
    panic "inituvm: more than a page"
  else do
    match ← kalloc with
    | none => panic "trap"
    | some mem =>
      memset mem 0
      if (← mappages pgdir 0 pgsize mem (pteW ||| pteU)) < 0 then
        panic "init exiting"
      else
        moveBytes mem 0 init

/-- Clear `PTE_U` on a page. -/
def clearpteu (pgdir : Ppn) (uva : Nat) : M Unit := do
  match ← walkpgdir pgdir uva false with
  | none => panic "clearpteu"
  | some (pgtab, i) =>
    let w ← rd pgtab i
    wr pgtab i (w &&& ~~~(pte 0 pteU))

/-- `readi` on a file with the bytes `file`: the bytes it delivers, if it does not return -1. -/
def readi (file : List (BitVec 8)) (off n : Nat) : Option (List (BitVec 8)) :=
  if off > file.length ∨ (off + n) % u32 < off then none else some ((file.drop off).take n)

/-- The loop of `loaduvm` from `i` on, for `n` pages. -/
def loadLoop (pgdir : Ppn) (addr : Nat) (file : List (BitVec 8)) (offset sz : Nat) :
    Nat → Nat → M Int
  | 0, _ => return 0
  | n + 1, i => do
    match ← walkpgdir pgdir ((addr + i) % u32) false with
    | none => panic "loaduvm: address should exist"
    | some (pgtab, j) =>
      let w ← rd pgtab j
      let m := if sz - i < pgsize then sz - i else pgsize
      match readi file ((offset + i) % u32) m with
      | none => return -1
      | some bs =>
        moveBytes (pteAddr w) 0 bs
        if bs.length ≠ m then
          return -1
        else
          loadLoop pgdir addr file offset sz n (i + pgsize)

/-- Load a program segment into `pgdir`. -/
def loaduvm (pgdir : Ppn) (addr : Nat) (file : List (BitVec 8)) (offset sz : Nat) : M Int :=
  if addr % pgsize ≠ 0 then
    panic "loaduvm: addr must be page aligned"
  else
    loadLoop pgdir addr file offset sz ((sz + (pgsize - 1)) / pgsize) 0

/-- Map user virtual address to the kernel's address of the page. If there is no table, a null
pointer is followed. -/
def uva2ka (pgdir : Ppn) (uva : Nat) : M (Option Ppn) := do
  match ← walkpgdir pgdir uva false with
  | none => panic "trap"
  | some (pgtab, i) =>
    let w ← rd pgtab i
    if !present w then
      return none
    else if !user w then
      return none
    else
      return some (pteAddr w)

/-- The loop of `copyout`, for at most `n` pages. -/
def copyoutLoop (pgdir : Ppn) : Nat → Nat → List (BitVec 8) → M Int
  | 0, _, _ => return 0
  | n + 1, va, buf =>
    if buf.length = 0 then
      return 0
    else do
      let va0 := pgrounddown va
      match ← uva2ka pgdir va0 with
      | none => return -1
      | some pa0 =>
        let m := pgsize - (va - va0)
        moveBytes pa0 (va - va0) (buf.take m)
        copyoutLoop pgdir n ((va0 + pgsize) % u32) (buf.drop m)

/-- Copy the bytes `p` to user address `va` in page table `pgdir`. -/
def copyout (pgdir : Ppn) (va : Nat) (p : List (BitVec 8)) : M Int :=
  copyoutLoop pgdir (p.length + 1) va p

end Xv6.Vm
