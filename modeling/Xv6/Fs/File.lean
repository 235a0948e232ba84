import Xv6.Fs.Dir

/-!
# The file table

`filealloc`, `filedup`, `fileclose`, `filestat`, `fileread`, `filewrite` of `file.c`, and
`pipealloc` of `pipe.c`. A file pointer is the index of an entry of the table. The contents of pipes
are in `Xv6.Ipc.Pipe`; here a pipe is a number, and what `piperead` and `pipewrite` return is part
of `Ctx`.
-/

namespace Xv6.Fs

def getFile (f : Fin nfile) : M File := do
  let s ← get
  return s.ftable f

def modFile (f : Fin nfile) (g : File → File) : M Unit :=
  modify fun s => { s with ftable := Function.update s.ftable f (g (s.ftable f)) }

/-- Allocate a file structure. -/
def filealloc : M (Option (Fin nfile)) := do
  let s ← get
  match (List.finRange nfile).find? fun f => (s.ftable f).ref == 0 with
  | some f =>
    modFile f fun x => { x with ref := 1 }
    return some f
  | none => return none

/-- Increment ref count for file `f`. -/
def filedup (f : Fin nfile) : M (Fin nfile) := do
  let x ← getFile f
  if x.ref < 1 then panic "filedup"
  else
    modFile f fun x => { x with ref := x.ref + 1 }
    return f

/-- Close file `f`. (Decrement ref count, close when reaches 0.) A pipe's end is closed by
`pipeclose`, which changes neither the file table nor the inodes. -/
def fileclose (c : Ctx) (f : Fin nfile) : M Unit := do
  let ff ← getFile f
  if ff.ref < 1 then panic "fileclose"
  else if ff.ref - 1 > 0 then modFile f fun x => { x with ref := x.ref - 1 }
  else
    modFile f fun x => { x with ref := 0, type := .none }
    match ff.type with
    | .inode => iput c ff.ip
    | _ => return ()

structure Stat where
  ino : Nat
  type : Option FileType
  nlink : BitVec 16
  size : Nat

/-- Copy stat information from inode. -/
def stati (ip : Fin ninode) : M Stat := do
  let i ← getInode ip
  return ⟨i.inum, i.type, i.nlink, i.size⟩

/-- Get metadata about file `f`. -/
def filestat (c : Ctx) (f : Fin nfile) : M (Int × Option Stat) := do
  let x ← getFile f
  if x.type = .inode then
    ilock c x.ip
    let st ← stati x.ip
    iunlock c x.ip
    return (0, some st)
  else return (-1, none)

/-- `if(r > 0) f->off += r;`. -/
def advance (f : Fin nfile) (r : Int) : M Unit :=
  if r > 0 then modFile f fun x => { x with off := x.off + r.toNat } else pure ()

/-- Read from file `f`. -/
def fileread (c : Ctx) (f : Fin nfile) (n : Nat) : M (Int × List UInt8) := do
  let x ← getFile f
  if x.readable = false then return (-1, [])
  else
    match x.type with
    | .pipe => return (c.piperead x.pipe n, [])
    | .inode =>
      ilock c x.ip
      let (r, bs) ← readi c x.ip x.off n
      advance f r
      iunlock c x.ip
      return (r, bs)
    | .none => panic "fileread"

/-- `((MAXOPBLOCKS-1-1-2) / 2) * 512`. -/
abbrev maxWrite : Nat := ((10 - 1 - 1 - 2) / 2) * 512

/-- The loop of `filewrite`: the bytes `src` are left to write. The result says if all were. -/
def filewriteLoop (c : Ctx) (f : Fin nfile) : Nat → List UInt8 → M Bool
  | 0, src => return src.length = 0
  | turns + 1, src => do
    if src.length = 0 then return true
    else
      -- write a few blocks at a time to avoid exceeding the maximum log transaction size
      let n1 := min src.length maxWrite
      let x ← getFile f
      ilock c x.ip
      let r ← writei c x.ip (src.take n1) x.off
      advance f r
      iunlock c x.ip
      if r < 0 then return false
      else if r ≠ n1 then panic "short filewrite"
      else filewriteLoop c f turns (src.drop n1)

/-- Write to file `f`. -/
def filewrite (c : Ctx) (f : Fin nfile) (src : List UInt8) : M Int := do
  let x ← getFile f
  if x.writable = false then return -1
  else
    match x.type with
    | .pipe => return c.pipewrite x.pipe src
    | .inode =>
      let all ← filewriteLoop c f src.length src
      return if all then src.length else -1
    | .none => panic "filewrite"

/-- `(*f)->type = FD_PIPE` and the assignments after it. -/
def File.toPipe (x : File) (writable : Bool) (pipe : Nat) : File :=
  { x with type := .pipe, readable := !writable, writable := writable, pipe := pipe }

/-- `pipealloc`: the read end and the write end. -/
def pipealloc (c : Ctx) : M (Option (Fin nfile × Fin nfile)) := do
  match ← filealloc with
  | none => return none
  | some f0 =>
    match ← filealloc with
    | none =>
      fileclose c f0
      return none
    | some f1 =>
      match c.kalloc with
      | none =>
        fileclose c f0
        fileclose c f1
        return none
      | some p =>
        modFile f0 fun x => x.toPipe false p
        modFile f1 fun x => x.toPipe true p
        return some (f0, f1)

end Xv6.Fs
