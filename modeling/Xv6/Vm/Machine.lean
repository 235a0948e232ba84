import Xv6.Vm.Uvm
import Xv6.Kernel.Param

/-!
# Processes and their address spaces

The calls of vm.c as `userinit`, `growproc`, `fork`, `exec` and `wait` make them, in any order by
any processes. `exec` builds its image in several steps, one for each segment, the stack and each
argument, and other processes may run between two of them; the new directory belongs to the process
until it is committed or freed. Kernel stacks and pipes also take their pages from `kalloc`. `store`
is a store by the process itself.

A step is `none` if it is not possible in the state, and if the kernel stops in it.
-/

namespace Xv6.Vm

abbrev maxarg : Nat := 32

abbrev Bytes := List (BitVec 8)

/-- The number in the `n` bytes from `off` on. -/
def leAt (bs : Bytes) (off : Nat) : Nat → Nat
  | 0 => 0
  | n + 1 => (bs.getD off 0).toNat + 256 * leAt bs (off + 1) n

/-- The bytes of a word. -/
def wordBytes (v : Nat) : Bytes :=
  [BitVec.ofNat 8 v, BitVec.ofNat 8 (v / 2 ^ 8), BitVec.ofNat 8 (v / 2 ^ 16),
    BitVec.ofNat 8 (v / 2 ^ 24)]

/-- Where a process is in `exec`. -/
inductive Stage
  /-- At program header `i`, at offset `off` of the file, with the size so far. -/
  | load (i off sz : Nat)
  | stack (sz : Nat)
  /-- At `argv[argc]`; `ustack` are the addresses of the arguments before. -/
  | args (sz argc sp : Nat) (ustack : List Nat)
  | commit (sz : Nat)
  | bad

structure Exec where
  pgdir : Ppn
  file : Bytes
  argv : List Bytes
  stage : Stage

/-- One program header of `exec`'s loop. -/
def loadSegment (L : Layout) (pgdir : Ppn) (file ph : Bytes) (i off sz : Nat) : M Stage :=
  let vaddr := leAt ph 8 4
  let filesz := leAt ph 16 4
  let memsz := leAt ph 20 4
  if leAt ph 0 4 ≠ 1 then
    return .load (i + 1) (off + 32) sz
  else if memsz < filesz then
    return .bad
  else if (vaddr + memsz) % u32 < vaddr then
    return .bad
  else do
    let sz ← allocuvm L pgdir sz ((vaddr + memsz) % u32)
    if sz = 0 then
      return .bad
    else if vaddr % pgsize ≠ 0 then
      return .bad
    else if (← loaduvm pgdir vaddr file (leAt ph 4 4) filesz) < 0 then
      return .bad
    else
      return .load (i + 1) (off + 32) sz

/-- Two pages at the next page boundary: the first inaccessible, the second the user stack. -/
def makeStack (L : Layout) (pgdir : Ppn) (sz : Nat) : M Stage := do
  let sz := pgroundup sz
  let sz ← allocuvm L pgdir sz ((sz + 2 * pgsize) % u32)
  if sz = 0 then
    return .bad
  else
    clearpteu pgdir (sz - 2 * pgsize)
    return .args sz 0 sz []

/-- Push `argv[argc]`, or the rest of the stack after the last one. -/
def pushArg (pgdir : Ppn) (argv : List Bytes) (sz argc sp : Nat) (ustack : List Nat) : M Stage :=
  match argv[argc]? with
  | some arg =>
    if argc ≥ maxarg then
      return .bad
    else do
      let sp := (sp + u32 - (arg.length + 1) % u32) % u32 / 4 * 4
      if (← copyout pgdir sp (arg ++ [0])) < 0 then
        return .bad
      else
        return .args sz (argc + 1) sp (ustack ++ [sp])
  | none => do
    let words := [0xffffffff, argc, (sp + u32 - (argc + 1) * 4) % u32] ++ ustack ++ [0]
    let sp := (sp + u32 - (3 + argc + 1) * 4) % u32
    if (← copyout pgdir sp (words.flatMap wordBytes)) < 0 then
      return .bad
    else
      return .commit sz

/-- `exec` up to its next stage. -/
def Exec.next (L : Layout) (e : Exec) : M Stage :=
  match e.stage with
  | .load i off sz =>
    if i ≥ leAt e.file 44 2 then
      return .stack sz
    else
      match readi e.file (off % u32) 32 with
      | none => return .bad
      | some ph => if ph.length ≠ 32 then return .bad else loadSegment L e.pgdir e.file ph i off sz
  | .stack sz => makeStack L e.pgdir sz
  | .args sz argc sp ustack => pushArg e.pgdir e.argv sz argc sp ustack
  | .commit sz => return .commit sz
  | .bad => return .bad

/-- The byte at a user address, as the kernel reads it. -/
def loadByte (pgdir : Ppn) (va : Nat) : M (BitVec 8) := do
  match ← walkpgdir pgdir va false with
  | none => panic "trap"
  | some (pgtab, i) =>
    let w ← rd pgtab i
    if !present w then
      panic "trap"
    else
      fun s => .ok ((s.page (pteAddr w)).byte (va % pgsize)) s

/-- `fetchstr`'s loop, with `n` bytes left below `sz`. -/
def fetchstr (pgdir : Ppn) : Nat → Nat → Bytes → M (Option Bytes)
  | 0, _, _ => return none
  | n + 1, va, bs => do
    let b ← loadByte pgdir va
    if b = 0 then
      return some bs
    else
      fetchstr pgdir n (va + 1) (bs ++ [b])

/-- The argument strings that `sys_exec` collects. -/
def fetchArgs (pgdir : Ppn) (sz : Nat) : List Nat → M (Option (List Bytes))
  | [] => return some []
  | va :: vas => do
    match ← fetchstr pgdir (sz - va) va [] with
    | none => return none
    | some arg =>
      match ← fetchArgs pgdir sz vas with
      | none => return none
      | some args => return some (arg :: args)

/-- `exec` up to its first program header. -/
def execStart (L : Layout) (pgdir : Ppn) (sz : Nat) (file : Bytes) (uargv : List Nat) :
    M (Option Exec) := do
  match ← fetchArgs pgdir sz uargv with
  | none => return none
  | some argv =>
    if file.length < 52 then
      return none
    else if leAt file 0 4 ≠ 0x464C457F then
      return none
    else
      match ← setupkvm L with
      | none => return none
      | some d => return some ⟨d, file, argv, .load 0 (leAt file 28 4) 0⟩

structure Proc where
  pgdir : Ppn
  sz : Nat
  kstack : Ppn
  zombie : Bool
  exec : Option Exec

structure State where
  mem : Mem
  proc : Fin nproc → Option Proc
  pipe : Nat → Option Ppn

inductive Act
  | userinit (p : Fin nproc) (init : Bytes)
  | growproc (p : Fin nproc) (n : Int)
  | fork (p np : Fin nproc)
  | sysExec (p : Fin nproc) (file : Bytes) (uargv : List Nat)
  | exec (p : Fin nproc)
  | exit (p : Fin nproc)
  | wait (p : Fin nproc)
  | pipealloc (k : Nat)
  | pipeclose (k : Nat)
  | store (p : Fin nproc) (va : Nat) (b : BitVec 8)

/-- A call, and the calls of `kalloc` in it that fail for reasons of their own. -/
structure Call where
  act : Act
  oom : List Bool

/-- The value and the memory that a program leaves, if it returns. -/
def result {α : Type} (x : M α) (m : Mem) : Option (α × Mem) :=
  match x m with
  | .ok a m' => some (a, m')
  | .error _ _ => none

/-- `allocproc` and the rest of `userinit`: the kernel stack and the directory. -/
def userinit (L : Layout) (init : Bytes) : M Proc := do
  match ← kalloc with
  | none => panic "trap"
  | some kstack =>
    match ← setupkvm L with
    | none => panic "userinit: out of memory?"
    | some pgdir =>
      inituvm pgdir init
      return ⟨pgdir, pgsize, kstack, false, none⟩

/-- `growproc(n)`: the value it returns, and `curproc->sz` afterwards. -/
def growproc (L : Layout) (pgdir : Ppn) (sz : Nat) (n : Int) : M (Int × Nat) := do
  if n > 0 then
    let sz' ← allocuvm L pgdir sz ((sz + n) % u32).toNat
    if sz' = 0 then return (-1, sz) else return (0, sz')
  else if n < 0 then
    let sz' ← deallocuvm L pgdir sz ((sz + n) % u32).toNat
    if sz' = 0 then return (-1, sz) else return (0, sz')
  else
    return (0, sz)

/-- The child's kernel stack and directory, if `fork` succeeds. -/
def fork (L : Layout) (pgdir : Ppn) (sz : Nat) : M (Option Proc) := do
  match ← kalloc with
  | none => return none
  | some kstack =>
    match ← copyuvm L pgdir sz with
    | none =>
      kfree L kstack
      return none
    | some d => return some ⟨d, sz, kstack, false, none⟩

/-- What `wait` frees of a zombie. -/
def reap (L : Layout) (kstack pgdir : Ppn) : M Unit := do
  kfree L kstack
  freevm L pgdir

/-- A store by the process, if its page table allows it. -/
def store (pgdir : Ppn) (va : Nat) (b : BitVec 8) : M Unit := do
  match ← walkpgdir pgdir va false with
  | none => return ()
  | some (pgtab, i) =>
    let w ← rd pgtab i
    if present w && user w && w.getLsbD 1 then
      moveBytes (pteAddr w) (va % pgsize) [b]
    else
      return ()

def State.setProc (s : State) (p : Fin nproc) (pr : Option Proc) (m : Mem) : State :=
  { s with mem := m, proc := Function.update s.proc p pr }

/-- A process that can make a system call. -/
def State.running (s : State) (p : Fin nproc) : Option Proc :=
  (s.proc p).filter fun pr => !pr.zombie && pr.exec.isNone

def step (L : Layout) (s : State) (c : Call) : Option State :=
  let m := { s.mem with oom := c.oom }
  match c.act with
  | .userinit p init =>
    match s.proc p with
    | some _ => none
    | none => (result (userinit L init) m).map fun (pr, m) => s.setProc p (some pr) m
  | .growproc p n =>
    (s.running p).bind fun pr =>
      (result (growproc L pr.pgdir pr.sz n) m).map fun (r, m) =>
        s.setProc p (some { pr with sz := r.2 }) m
  | .fork p np =>
    (s.running p).bind fun pr =>
      match s.proc np with
      | some _ => none
      | none => (result (fork L pr.pgdir pr.sz) m).map fun (child, m) => s.setProc np child m
  | .sysExec p file uargv =>
    (s.running p).bind fun pr =>
      (result (execStart L pr.pgdir pr.sz file uargv) m).map fun (e, m) =>
        s.setProc p (some { pr with exec := e }) m
  | .exec p =>
    (s.proc p).bind fun pr =>
      pr.exec.bind fun e =>
        match e.stage with
        | .commit sz =>
          (result (freevm L pr.pgdir) m).map fun (_, m) =>
            s.setProc p (some { pr with pgdir := e.pgdir, sz := sz, exec := none }) m
        | .bad =>
          (result (freevm L e.pgdir) m).map fun (_, m) =>
            s.setProc p (some { pr with exec := none }) m
        | _ =>
          (result (e.next L) m).map fun (st, m) =>
            s.setProc p (some { pr with exec := some { e with stage := st } }) m
  | .exit p =>
    (s.running p).bind fun pr => some (s.setProc p (some { pr with zombie := true }) m)
  | .wait p =>
    (s.proc p).bind fun pr =>
      if pr.zombie then (result (reap L pr.kstack pr.pgdir) m).map fun (_, m) => s.setProc p none m
      else none
  | .pipealloc k =>
    match s.pipe k with
    | some _ => none
    | none => (result kalloc m).map fun (r, m) =>
        { s with mem := m, pipe := Function.update s.pipe k r }
  | .pipeclose k =>
    (s.pipe k).bind fun v =>
      (result (kfree L v) m).map fun (_, m) =>
        { s with mem := m, pipe := Function.update s.pipe k none }
  | .store p va b =>
    (s.running p).bind fun pr =>
      (result (store pr.pgdir (va % u32) b) m).map fun (_, m) => { s with mem := m }

/-- The machine after `kinit`: no process, and all pages are free. -/
def boot (L : Layout) (page : Ppn → Page) : Option State :=
  (result (kinit L) ⟨page, [], []⟩).map fun (_, m) => ⟨m, fun _ => none, fun _ => none⟩

end Xv6.Vm
