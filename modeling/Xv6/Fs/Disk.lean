import Xv6.Kernel.Param
import Xv6.Lib.Bytes
import Mathlib.Data.List.FinRange

/-!
# The disk and the block allocator

The state of the file system (`fs.c`, `file.c`, the `ofile` and `cwd` fields of `proc.h`) and the
layer of blocks: `balloc`, `bzero`, `bfree`.

A system call is a program that reads and changes the state and may stop before it returns: by a
panic, or by waiting for a lock that the running process itself holds. The disk is held as its
areas: the inodes, the bits of the bitmap, and the bytes of the data blocks, each as the kernel sees
it through the buffer cache. A corrupt image could make the code use a block of one area as one of
another; there the model stops with `Stop.fault`.

`hist` is a record of what the running call has done, each time with the state at that moment. No
function reads it.
-/

namespace Xv6.Fs

abbrev bsize : Nat := 512

instance : NeZero bsize := ⟨by decide⟩

abbrev ndirect : Nat := 12

instance (priority := 2000) : NeZero (ndirect + 1) := ⟨by decide⟩

/-- `NINDIRECT`: `BSIZE / sizeof(uint)`. -/
abbrev nindirect : Nat := 128

instance : NeZero nindirect := ⟨by decide⟩

abbrev maxFile : Nat := ndirect + nindirect

/-- `IPB`: inodes per block, `BSIZE / sizeof(struct dinode)`. -/
abbrev ipb : Nat := 8

/-- `BPB`: bitmap bits per block. -/
abbrev bpb : Nat := bsize * 8

/-- `FSSIZE`: size of the disk in blocks. -/
abbrev fsSize : Nat := 1000

abbrev rootIno : Nat := 1

/-- `NINODE`: maximum number of active inodes. -/
abbrev ninode : Nat := 50

instance : NeZero ninode := ⟨by decide⟩

/-- `NFILE`: open files per system. -/
abbrev nfile : Nat := 100

/-- `NOFILE`: open files per process. -/
abbrev nofile : Nat := 16

/-- `NDEV`: maximum major device number. -/
abbrev ndev : Nat := 10

structure Superblock where
  size : Nat
  ninodes : Nat
  nlog : Nat
  logstart : Nat
  inodestart : Nat
  bmapstart : Nat
  deriving DecidableEq

namespace Superblock

/-- `IBLOCK(i, sb)`. -/
def iblock (sb : Superblock) (i : Nat) : Nat := i / ipb + sb.inodestart

/-- `BBLOCK(b, sb)`. -/
def bblock (sb : Superblock) (b : Nat) : Nat := b / bpb + sb.bmapstart

/-- The block is in the log, the inodes or the bitmap. -/
def Area (sb : Superblock) (b : Nat) : Prop :=
  (sb.logstart ≤ b ∧ b < sb.logstart + sb.nlog) ∨
    (sb.inodestart ≤ b ∧ b < sb.inodestart + (sb.ninodes / ipb + 1)) ∨
    (sb.bmapstart ≤ b ∧ b < sb.bmapstart + (sb.size / bpb + 1))

instance (sb : Superblock) (b : Nat) : Decidable (sb.Area b) :=
  inferInstanceAs (Decidable (_ ∨ _ ∨ _))

/-- The block is the boot block, the super block, or in the log, the inodes or the bitmap. -/
def Meta (sb : Superblock) (b : Nat) : Prop := b < 2 ∨ sb.Area b

instance (sb : Superblock) (b : Nat) : Decidable (sb.Meta b) := inferInstanceAs (Decidable (_ ∨ _))

/-- The block holds the data of files. -/
def Data (sb : Superblock) (b : Nat) : Prop := ¬ sb.Meta b ∧ b < sb.size

instance (sb : Superblock) (b : Nat) : Decidable (sb.Data b) := inferInstanceAs (Decidable (_ ∧ _))

/-- The block is one whose bytes the model holds as they are: the boot block and the super block
too. -/
def Plain (sb : Superblock) (b : Nat) : Prop := ¬ sb.Area b ∧ b < sb.size

instance (sb : Superblock) (b : Nat) : Decidable (sb.Plain b) := inferInstanceAs (Decidable (_ ∧ _))

theorem Data.plain {sb : Superblock} {b : Nat} (h : sb.Data b) : sb.Plain b :=
  ⟨fun ha => h.1 (.inr ha), h.2⟩

end Superblock

/-- `T_DIR`, `T_FILE`, `T_DEV`. -/
inductive FileType
  | dir
  | file
  | dev
  deriving DecidableEq

/-- `struct dinode`; a `type` of `0` is `none`. -/
structure Dinode where
  type : Option FileType
  major : BitVec 16
  minor : BitVec 16
  nlink : BitVec 16
  size : Nat
  addrs : Fin (ndirect + 1) → Nat

/-- `memset(dip, 0, sizeof(*dip))`. -/
def Dinode.zero : Dinode := ⟨none, 0, 0, 0, 0, fun _ => 0⟩

/-- `struct inode`: `lock` is the process that holds the sleep-lock. -/
structure Inode extends Dinode where
  inum : Nat
  ref : Int
  lock : Option (Fin nproc)
  valid : Bool

/-- `FD_NONE`, `FD_PIPE`, `FD_INODE`. -/
inductive FdType
  | none
  | pipe
  | inode
  deriving DecidableEq

structure File where
  type : FdType
  ref : Int
  readable : Bool
  writable : Bool
  pipe : Nat
  ip : Fin ninode
  off : Nat

/-- The fields `cwd` and `ofile` of `struct proc`. -/
structure Files where
  cwd : Option (Fin ninode)
  ofile : Fin nofile → Option (Fin nfile)

abbrev Block := Fin bsize → UInt8

namespace Block

/-- The byte at an offset. -/
def byte (b : Block) (k : Nat) : UInt8 := b (Fin.ofNat bsize k)

/-- The bytes `off` to `off + m - 1`. -/
def read (b : Block) (off m : Nat) : List UInt8 := Lib.readRange b.byte off m

/-- `memmove(b + off, src, n)`. -/
def write (b : Block) (off : Nat) (src : List UInt8) : Block := fun x =>
  Lib.writeRange b.byte off src x

/-- `((uint*)b)[j]`. -/
def word (b : Block) (j : Nat) : Nat := Lib.leNat (b.read (4 * j) 4)

/-- `((uint*)b)[j] = v`. -/
def setWord (b : Block) (j v : Nat) : Block := b.write (4 * j) (Lib.leBytes 4 v)

end Block

/-- What the kernel and the disk hold. -/
structure Core where
  bitmap : Nat → Bool
  dinode : Nat → Dinode
  block : Nat → Block
  icache : Fin ninode → Inode
  ftable : Fin nfile → File
  procs : Fin nproc → Files

/-- What is recorded of a call. -/
inductive Event
  /-- `acquiresleep` is called on the lock of a cache entry. -/
  | acquire (ip : Fin ninode)
  /-- `ialloc` marks an inode as allocated. -/
  | alloc (inum : Nat)
  /-- `iput` sets the type of an inode to `0`. -/
  | free (inum : Nat)
  /-- `log_write` is called on a block. -/
  | logWrite (b : Nat)
  deriving DecidableEq

/-- The state, with what the running call has done, the latest first. -/
structure State extends Core where
  hist : List (Event × Core)

inductive Stop
  | panic (msg : String)
  /-- The process waits for a lock that it holds. -/
  | deadlock
  /-- The process waits for a lock that another one holds, until that one goes on. -/
  | waits
  /-- A block, inode number or pointer outside of what the model holds. -/
  | fault
  deriving DecidableEq

abbrev M := EStateM Stop State

/-- `devsw[major]`: what the driver returns for `n` bytes. It is not told `off`, which only keeps
the transfers of one call apart. -/
structure Devsw where
  read : Option (Nat → Nat → Int)
  write : Option (Nat → Nat → Int)

/-- The running process, and what the rest of the kernel does during a call. -/
structure Ctx where
  sb : Superblock
  me : Fin nproc
  initproc : Fin nproc
  devsw : Nat → Devsw
  piperead : Nat → Nat → Int
  pipewrite : Nat → List UInt8 → Int
  /-- The page `kalloc` returns. -/
  kalloc : Option Nat

def panic {α : Type} (msg : String) : M α := throw (.panic msg)

def note (e : Event) : M Unit := modify fun s => { s with hist := (e, s.toCore) :: s.hist }

/-- `log_write`, which is noted; what the log says to it is in `Xv6.Fs.Transaction`. -/
def logWrite (b : Nat) : M Unit := note (.logWrite b)

/-- `bread` of a block of bytes. The log, the inodes and the bitmap are not held as bytes, and a
block number of theirs in a file or in a free bit stops the call. -/
def bread (c : Ctx) (b : Nat) : M Block := do
  if c.sb.Plain b then
    let s ← get
    return s.block b
  else throw .fault

/-- A change of a buffer's data, with its `log_write`. -/
def setBlock (b : Nat) (x : Block) : M Unit := do
  modify fun s => { s with block := Function.update s.block b x }
  logWrite b

def setBit (c : Ctx) (b : Nat) (v : Bool) : M Unit := do
  modify fun s => { s with bitmap := Function.update s.bitmap b v }
  logWrite (c.sb.bblock b)

/-- Zero a block. -/
def bzero (c : Ctx) (bno : Nat) : M Unit := do
  let _ ← bread c bno
  setBlock bno fun _ => 0

/-- Allocate a zeroed disk block. The loops over the bitmap blocks and over the bits of each are one
search in the order of the block numbers. -/
def balloc (c : Ctx) : M Nat := do
  let s ← get
  match (List.range c.sb.size).find? fun b => !s.bitmap b with
  | some b =>
    setBit c b true
    bzero c b
    return b
  | none => panic "balloc: out of blocks"

/-- Free a disk block. -/
def bfree (c : Ctx) (b : Nat) : M Unit := do
  if b < c.sb.size then
    let s ← get
    if s.bitmap b = false then panic "freeing free block"
    else setBit c b false
  else throw .fault

end Xv6.Fs
