import Xv6.Fs.File
import Xv6.Lib.Run

/-!
# File-system system calls

`sysfile.c`, with the parts of `fork` and `exit` that touch files, and `exec`. A pointer argument
that `argstr` or `argptr` refuses is `none`. Of `exec` the model keeps what it does to inodes: it
looks the path up, locks the inode, reads some ranges of it (the ELF header, the program headers and
the segments, as far as it gets), and puts the inode back.

`Call.step` runs one call to its end; `hist` then holds what that call did.
-/

namespace Xv6.Fs

open Function

def modProc (c : Ctx) (f : Files → Files) : M Unit :=
  modify fun s => { s with procs := update s.procs c.me (f (s.procs c.me)) }

/-- `argfd`: the descriptor and the file. -/
def argfd (c : Ctx) (fd : Int) : M (Option (Fin nofile × Fin nfile)) := do
  let s ← get
  if h : 0 ≤ fd ∧ fd < nofile then
    let k : Fin nofile := ⟨fd.toNat, by omega⟩
    return ((s.procs c.me).ofile k).map fun f => (k, f)
  else return none

/-- Allocate a file descriptor for the given file. -/
def fdalloc (c : Ctx) (f : Fin nfile) : M (Option (Fin nofile)) := do
  let s ← get
  match (List.finRange nofile).find? fun fd => ((s.procs c.me).ofile fd).isNone with
  | some fd =>
    modProc c fun x => { x with ofile := update x.ofile fd (some f) }
    return some fd
  | none => return none

def sysDup (c : Ctx) (fd : Int) : M Int := do
  match ← argfd c fd with
  | none => return -1
  | some (_, f) =>
    match ← fdalloc c f with
    | none => return -1
    | some fd =>
      let _ ← filedup f
      return fd.val

/-- `n` is `none` if `argptr` refuses the buffer. -/
def sysRead (c : Ctx) (fd : Int) (n : Option Nat) : M Int := do
  match ← argfd c fd, n with
  | some (_, f), some n => return (← fileread c f n).1
  | _, _ => return -1

def sysWrite (c : Ctx) (fd : Int) (src : Option (List UInt8)) : M Int := do
  match ← argfd c fd, src with
  | some (_, f), some src => filewrite c f src
  | _, _ => return -1

def sysClose (c : Ctx) (fd : Int) : M Int := do
  match ← argfd c fd with
  | none => return -1
  | some (fd, f) =>
    modProc c fun x => { x with ofile := update x.ofile fd none }
    fileclose c f
    return 0

/-- `st` says if `argptr` accepts the buffer. -/
def sysFstat (c : Ctx) (fd : Int) (st : Bool) : M Int := do
  match ← argfd c fd, st with
  | some (_, f), true => return (← filestat c f).1
  | _, _ => return -1

/-- `ip->nlink++; iupdate(ip);` and `ip->nlink--; iupdate(ip);`. -/
def setNlink (c : Ctx) (ip : Fin ninode) (f : BitVec 16 → BitVec 16) : M Unit :=
  setFields c ip fun i => { i with nlink := f i.nlink }

/-- The end of `sys_link` at `bad`. -/
def linkBad (c : Ctx) (ip : Fin ninode) : M Int := do
  ilock c ip
  setNlink c ip (· - 1)
  iunlockput c ip
  return -1

/-- Create the path `new` as a link to the same inode as `old`. -/
def sysLink (c : Ctx) (old new : Option (List UInt8)) : M Int := do
  match old, new with
  | some old, some new =>
    match ← namei c old with
    | none => return -1
    | some ip =>
      ilock c ip
      let i ← getInode ip
      if i.type = some .dir then
        iunlockput c ip
        return -1
      else
        setNlink c ip (· + 1)
        iunlock c ip
        match ← nameiparent c new with
        | none => linkBad c ip
        | some (dp, name) =>
          ilock c dp
          let r ← dirlink c dp name i.inum
          if r < 0 then
            iunlockput c dp
            linkBad c ip
          else
            iunlockput c dp
            iput c ip
            return 0
  | _, _ => return -1

/-- The loop of `isdirempty` from `off` on. -/
def isdiremptyFrom (c : Ctx) (dp : Fin ninode) (size : Nat) : Nat → Nat → M Bool
  | 0, _ => return true
  | turns + 1, off => do
    if off < size then
      let (r, bs) ← readi c dp off deSize
      if r ≠ deSize then panic "isdirempty: readi"
      else if (Dirent.ofBytes bs).inum ≠ 0 then return false
      else isdiremptyFrom c dp size turns (off + deSize)
    else return true

/-- Is the directory `dp` empty except for `"."` and `".."`? -/
def isdirempty (c : Ctx) (dp : Fin ninode) : M Bool := do
  let d ← getInode dp
  isdiremptyFrom c dp d.size d.size (2 * deSize)

/-- `sys_unlink` from the write that removes the entry at `off` on; `dp` and `ip` are locked. -/
def unlinkEntry (c : Ctx) (dp ip : Fin ninode) (off : Nat) : M Int := do
  let r ← writei c dp (List.replicate deSize 0) off
  if r ≠ deSize then panic "unlink: writei"
  else
    let i ← getInode ip
    (if i.type = some .dir then setNlink c dp (· - 1) else pure ())
    iunlockput c dp
    setNlink c ip (· - 1)
    iunlockput c ip
    return 0

def sysUnlink (c : Ctx) (path : Option (List UInt8)) : M Int := do
  match path with
  | none => return -1
  | some path =>
    match ← nameiparent c path with
    | none => return -1
    | some (dp, name) =>
      ilock c dp
      -- cannot unlink "." or ".."
      if namecmp name dot = 0 ∨ namecmp name dotdot = 0 then
        iunlockput c dp
        return -1
      else
        match ← dirlookup c dp name with
        | none =>
          iunlockput c dp
          return -1
        | some (ip, off) =>
          ilock c ip
          let i ← getInode ip
          if i.nlink.toInt < 1 then panic "unlink: nlink < 1"
          else
            let empty ← (if i.type = some .dir then isdirempty c ip else pure true)
            if empty = false then
              iunlockput c ip
              iunlockput c dp
              return -1
            else unlinkEntry c dp ip off

/-- `dirlink` in `create`, which panics if it fails. -/
def mustLink (c : Ctx) (dp : Fin ninode) (name : List UInt8) (inum : Nat) (msg : String) :
    M Unit := do
  let r ← dirlink c dp name inum
  if r < 0 then panic msg else return ()

/-- The part of `create` for a directory: create . and .. entries. -/
def createDots (c : Ctx) (dp ip : Fin ninode) : M Unit := do
  setNlink c dp (· + 1)  -- for ".."
  let i ← getInode ip
  mustLink c ip dot i.inum "create dots"
  let d ← getInode dp
  mustLink c ip dotdot d.inum "create dots"

/-- `create` from `ialloc` on: the directory `dp` is locked and has no entry `name`. -/
def createNew (c : Ctx) (dp : Fin ninode) (name : List UInt8) (type : FileType)
    (major minor : BitVec 16) : M (Fin ninode) := do
  let ip ← ialloc c type
  ilock c ip
  setFields c ip fun i => { i with major := major, minor := minor, nlink := 1 }
  (if type = .dir then createDots c dp ip else pure ())
  let i ← getInode ip
  mustLink c dp name i.inum "create: dirlink"
  iunlockput c dp
  return ip

def create (c : Ctx) (path : List UInt8) (type : FileType) (major minor : BitVec 16) :
    M (Option (Fin ninode)) := do
  match ← nameiparent c path with
  | none => return none
  | some (dp, name) =>
    ilock c dp
    match ← dirlookup c dp name with
    | some (ip, _) =>
      iunlockput c dp
      ilock c ip
      let i ← getInode ip
      if type = .file ∧ i.type = some .file then return some ip
      else
        iunlockput c ip
        return none
    | none => return some (← createNew c dp name type major minor)

/-- `O_WRONLY`, `O_RDWR`, `O_CREATE`. -/
abbrev oWronly : BitVec 32 := 0x001
abbrev oRdwr : BitVec 32 := 0x002
abbrev oCreate : BitVec 32 := 0x200

/-- `sys_open` from `filealloc` on, with the inode locked. -/
def openFile (c : Ctx) (ip : Fin ninode) (omode : BitVec 32) : M Int := do
  match ← filealloc with
  | none =>
    iunlockput c ip
    return -1
  | some f =>
    match ← fdalloc c f with
    | none =>
      fileclose c f
      iunlockput c ip
      return -1
    | some fd =>
      iunlock c ip
      modFile f fun x => { x with
        type := .inode, ip := ip, off := 0, readable := omode &&& oWronly = 0,
        writable := omode &&& oWronly ≠ 0 ∨ omode &&& oRdwr ≠ 0 }
      return fd.val

def sysOpen (c : Ctx) (path : Option (List UInt8)) (omode : BitVec 32) : M Int := do
  match path with
  | none => return -1
  | some path =>
    if omode &&& oCreate ≠ 0 then
      match ← create c path .file 0 0 with
      | none => return -1
      | some ip => openFile c ip omode
    else
      match ← namei c path with
      | none => return -1
      | some ip =>
        ilock c ip
        let i ← getInode ip
        if i.type = some .dir ∧ omode ≠ 0 then
          iunlockput c ip
          return -1
        else openFile c ip omode

/-- `sys_mkdir` and `sys_mknod`, once the arguments are fetched. -/
def makeNode (c : Ctx) (path : Option (List UInt8)) (type : FileType) (major minor : BitVec 16) :
    M Int := do
  match path with
  | none => return -1
  | some path =>
    match ← create c path type major minor with
    | none => return -1
    | some ip =>
      iunlockput c ip
      return 0

def sysMkdir (c : Ctx) (path : Option (List UInt8)) : M Int := makeNode c path .dir 0 0

def sysMknod (c : Ctx) (path : Option (List UInt8)) (major minor : BitVec 16) : M Int :=
  makeNode c path .dev major minor

def sysChdir (c : Ctx) (path : Option (List UInt8)) : M Int := do
  match path with
  | none => return -1
  | some path =>
    match ← namei c path with
    | none => return -1
    | some ip =>
      ilock c ip
      let i ← getInode ip
      if i.type ≠ some .dir then
        iunlockput c ip
        return -1
      else
        iunlock c ip
        let s ← get
        match (s.procs c.me).cwd with
        | none => throw .fault
        | some cwd =>
          iput c cwd
          modProc c fun x => { x with cwd := some ip }
          return 0

/-- `exec` reads the ranges `reads` before it is done with the inode, and returns `r`. -/
def sysExec (c : Ctx) (path : Option (List UInt8)) (reads : List (Nat × Nat)) (r : Int) :
    M Int := do
  match path with
  | none => return -1
  | some path =>
    match ← namei c path with
    | none => return -1
    | some ip =>
      ilock c ip
      reads.forM fun x => do
        let _ ← readi c ip x.1 x.2
      iunlockput c ip
      return r

def sysPipe (c : Ctx) (fd : Bool) : M Int := do
  if fd = false then return -1
  else
    match ← pipealloc c with
    | none => return -1
    | some (rf, wf) =>
      match ← fdalloc c rf with
      | none =>
        fileclose c rf
        fileclose c wf
        return -1
      | some fd0 =>
        match ← fdalloc c wf with
        | none =>
          modProc c fun x => { x with ofile := update x.ofile fd0 none }
          fileclose c rf
          fileclose c wf
          return -1
        | some _ => return 0

/-- The loop of `fork` over the descriptors, at `fd`: `np` is the new process. -/
def forkFd (c : Ctx) (np : Fin nproc) (fd : Fin nofile) : M Unit := do
  let s ← get
  match (s.procs c.me).ofile fd with
  | none => pure ()
  | some f =>
    let f ← filedup f
    modProc { c with me := np } fun x => { x with ofile := update x.ofile fd (some f) }

/-- `fork`; `np` is `none` if no process can be made. -/
def sysFork (c : Ctx) (np : Option (Fin nproc)) : M Int := do
  match np with
  | none => return -1
  | some np =>
    (List.finRange nofile).forM (forkFd c np)
    let s ← get
    match (s.procs c.me).cwd with
    | none => throw .fault
    | some cwd =>
      let cwd ← idup cwd
      modProc { c with me := np } fun x => { x with cwd := some cwd }
      return np.val

/-- The loop of `exit` over the descriptors, at `fd`. -/
def exitFd (c : Ctx) (fd : Fin nofile) : M Unit := do
  let s ← get
  match (s.procs c.me).ofile fd with
  | none => pure ()
  | some f =>
    fileclose c f
    modProc c fun x => { x with ofile := update x.ofile fd none }

/-- `exit`, up to `curproc->cwd = 0`. -/
def sysExit (c : Ctx) : M Int := do
  if c.me = c.initproc then panic "init exiting"
  else
    (List.finRange nofile).forM (exitFd c)
    let s ← get
    match (s.procs c.me).cwd with
    | none => throw .fault
    | some cwd =>
      iput c cwd
      modProc c fun x => { x with cwd := none }
      return 0

inductive Syscall
  | dup (fd : Int)
  | read (fd : Int) (n : Option Nat)
  | write (fd : Int) (src : Option (List UInt8))
  | close (fd : Int)
  | fstat (fd : Int) (st : Bool)
  | link (old new : Option (List UInt8))
  | unlink (path : Option (List UInt8))
  | open_ (path : Option (List UInt8)) (omode : BitVec 32)
  | mkdir (path : Option (List UInt8))
  | mknod (path : Option (List UInt8)) (major minor : BitVec 16)
  | chdir (path : Option (List UInt8))
  | exec (path : Option (List UInt8)) (reads : List (Nat × Nat)) (r : Int)
  | pipe (fd : Bool)
  | fork (np : Option (Fin nproc))
  | exit

def Syscall.prog (c : Ctx) : Syscall → M Int
  | .dup fd => sysDup c fd
  | .read fd n => sysRead c fd n
  | .write fd src => sysWrite c fd src
  | .close fd => sysClose c fd
  | .fstat fd st => sysFstat c fd st
  | .link old new => sysLink c old new
  | .unlink path => sysUnlink c path
  | .open_ path omode => sysOpen c path omode
  | .mkdir path => sysMkdir c path
  | .mknod path major minor => sysMknod c path major minor
  | .chdir path => sysChdir c path
  | .exec path reads r => sysExec c path reads r
  | .pipe fd => sysPipe c fd
  | .fork np => sysFork c np
  | .exit => sysExit c

/-- A process slot that no live process uses: `exit` leaves it so. -/
def Files.Unused (x : Files) : Prop := x.cwd = none ∧ ∀ fd, x.ofile fd = none

instance (x : Files) : Decidable x.Unused := inferInstanceAs (Decidable (_ ∧ _))

/-- The slot that `allocproc` has found for a new process. -/
def Syscall.child : Syscall → Option (Fin nproc)
  | .fork np => np
  | _ => none

/-- A system call, with the process that makes it and what the rest of the kernel does meanwhile. -/
structure Call where
  ctx : Ctx
  sys : Syscall

/-- The process is live, and a new process takes an unused slot. -/
def Call.Enabled (a : Call) (s : State) : Prop :=
  (s.procs a.ctx.me).cwd ≠ none ∧ ∀ q ∈ a.sys.child, q ≠ a.ctx.me ∧ (s.procs q).Unused

instance (a : Call) (s : State) : Decidable (a.Enabled s) := inferInstanceAs (Decidable (_ ∧ _))

/-- The run of a call. -/
def Call.exec (a : Call) (s : State) : EStateM.Result Stop State Int :=
  a.sys.prog a.ctx { s with hist := [] }

/-- The disk at boot. -/
structure Image where
  bitmap : Nat → Bool
  dinode : Nat → Dinode
  block : Nat → Block

/-- After `userinit`, with its `namei("/")`: the first process has the root as working directory. -/
def boot (im : Image) (init : Fin nproc) : State where
  bitmap := im.bitmap
  dinode := im.dinode
  block := im.block
  icache k := { Dinode.zero with
    inum := if k = 0 then rootIno else 0, ref := if k = 0 then 1 else 0, lock := none
    valid := false }
  ftable _ := ⟨.none, 0, false, false, 0, 0, 0⟩
  procs p := ⟨if p = init then some 0 else none, fun _ => none⟩
  hist := []

/-- One call, if it returns: `sb` and `init` are set at boot. -/
def step (sb : Superblock) (init : Fin nproc) (s : State) (a : Call) : Option State :=
  if a.ctx.sb = sb ∧ a.ctx.initproc = init ∧ a.Enabled s then
    match a.exec s with
    | .ok _ s' => some s'
    | .error _ _ => none
  else none

theorem step_eq_some {sb : Superblock} {init : Fin nproc} {s s' : State} {a : Call} :
    step sb init s a = some s' ↔ a.ctx.sb = sb ∧ a.ctx.initproc = init ∧ a.Enabled s ∧
      ∃ r, a.exec s = .ok r s' := by
  unfold step
  split
  · next h =>
    cases hx : a.exec s with
    | ok r s₁ => simp [h]
    | error e s₁ => simp
  · next h =>
    refine ⟨nofun, fun ⟨h1, h2, h3, _⟩ => absurd ⟨h1, h2, h3⟩ h⟩

end Xv6.Fs
