import Xv6.Vm.Machine

/-!
# exec as one call (exec.c)

The stages of `Machine.lean` in the order of the source, with what `exec` does besides: the
transaction of the log, the lock and the reference of the executable's inode, the trap frame and the
name of the process. `file` holds the bytes of the executable, if `namei` finds it. The function
stops where a call panics or follows a null pointer.
-/

namespace Xv6.Vm

/-- The process that calls `exec`, and what it has of the file system. -/
structure Kern where
  mem : Mem
  pgdir : Ppn
  sz : Nat
  name : Bytes
  eip : Nat
  esp : Nat
  /-- `ip->ref` of the executable. -/
  ref : Nat
  /-- The process holds `ip->lock`. -/
  locked : Bool
  /-- The transactions that the process has begun. -/
  ops : Nat

abbrev K := EStateM String Kern

/-- A call of vm.c. -/
def vm {α : Type} (x : M α) : K α := fun k =>
  match x k.mem with
  | .ok a m => .ok a { k with mem := m }
  | .error e m => .error e { k with mem := m }

def beginOp : K Unit := modify fun k => { k with ops := k.ops + 1 }

def endOp : K Unit := modify fun k => { k with ops := k.ops - 1 }

/-- `namei` returns a new reference, if it finds the file. -/
def namei (file : Option Bytes) : K (Option Bytes) := do
  if file.isSome then
    modify fun k => { k with ref := k.ref + 1 }
  return file

def ilock : K Unit := do
  if (← get).ref < 1 then
    throw "ilock"
  else
    modify fun k => { k with locked := true }

def iunlockput : K Unit := do
  let k ← get
  if !k.locked || k.ref < 1 then
    throw "iunlock"
  else
    modify fun k => { k with locked := false, ref := k.ref - 1 }

/-- The loop over the program headers from `i` on, with `n` headers left: the size of the image. -/
def loadSegments (L : Layout) (pgdir : Ppn) (file : Bytes) : Nat → Nat → Nat → Nat → M (Option Nat)
  | 0, _, _, sz => return some sz
  | n + 1, i, off, sz =>
    match readi file (off % u32) 32 with
    | none => return none
    | some ph =>
      if ph.length ≠ 32 then
        return none
      else do
        match ← loadSegment L pgdir file ph i off sz with
        | .load i off sz => loadSegments L pgdir file n i off sz
        | _ => return none

/-- The loop over `argv` from `argc` on, with `n` strings left, and the words after it: the stack
pointer. -/
def pushArgs (pgdir : Ppn) (argv : List Bytes) (sz : Nat) : Nat → Nat → Nat →
    List Nat → M (Option Nat)
  | 0, argc, sp, ustack => do
    match ← pushArg pgdir argv sz argc sp ustack with
    | .commit _ => return some ((sp + u32 - (3 + argc + 1) * 4) % u32)
    | _ => return none
  | n + 1, argc, sp, ustack => do
    match ← pushArg pgdir argv sz argc sp ustack with
    | .args _ argc sp ustack => pushArgs pgdir argv sz n argc sp ustack
    | _ => return none

/-- The exit with an error: `pgdir` and `ip` are what is to be given back. -/
def execBad (L : Layout) (pgdir : Option Ppn) (ip : Bool) : K Unit := do
  match pgdir with
  | none => pure ()
  | some d => vm (freevm L d)
  if ip then
    iunlockput
    endOp

/-- `exec` up to the arguments: the new directory and its size, or `none` after a return of -1. -/
def execLoad (L : Layout) (file : Option Bytes) : K (Option (Ppn × Nat)) := do
  beginOp
  match ← namei file with
  | none =>
    endOp
    return none
  | some file =>
    ilock
    if file.length < 52 then
      execBad L none true
      return none
    else if leAt file 0 4 ≠ 0x464C457F then
      execBad L none true
      return none
    else
      match ← vm (setupkvm L) with
      | none =>
        execBad L none true
        return none
      | some pgdir =>
        match ← vm (loadSegments L pgdir file (leAt file 44 2) 0 (leAt file 28 4) 0) with
        | none =>
          execBad L (some pgdir) true
          return none
        | some sz =>
          iunlockput
          endOp
          match ← vm (makeStack L pgdir sz) with
          | .args sz _ _ _ => return some (pgdir, sz)
          | _ =>
            execBad L (some pgdir) false
            return none

/-- What is left of the path after the last slash, if `last` was left of what stood before. -/
def lastElem (last : Bytes) : Bytes → Bytes
  | [] => last
  | c :: s => lastElem (if c = 0x2f then s else last) s

def exec (L : Layout) (path : Bytes) (file : Option Bytes) (argv : List Bytes) : K Int := do
  match ← execLoad L file with
  | none => return -1
  | some (pgdir, sz) =>
    match ← vm (pushArgs pgdir argv sz argv.length 0 sz []) with
    | none =>
      execBad L (some pgdir) false
      return -1
    | some sp =>
      let oldpgdir := (← get).pgdir
      modify fun k => { k with
        name := (lastElem path path).take 15
        pgdir := pgdir
        sz := sz
        eip := leAt (file.getD []) 24 4
        esp := sp }
      vm (freevm L oldpgdir)
      return 0

end Xv6.Vm
