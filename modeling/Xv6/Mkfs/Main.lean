import Xv6.Mkfs.Format

/-!
# The program `mkfs`

`mkfs.c`: from a list of files it writes the image of a file system whose root directory has an
entry for each of them. The image is a file of sectors; a sector behind its end cannot be read. The
program stops with a message (`perror` and `exit(1)`, or a failed `assert`) or returns.

A file that is given is its name and what `read` returned for it, call by call. The files can be
opened: `mkfs` exits at the first that cannot.
-/

namespace Xv6.Fs.Mkfs

open Lib

abbrev ninodes : Nat := 200

abbrev nbitmap : Nat := fsSize / (bsize * 8) + 1

abbrev ninodeblocks : Nat := ninodes / ipb + 1

/-- Number of meta blocks (boot, sb, nlog, inode, bitmap). -/
abbrev nmeta : Nat := 2 + nlog + ninodeblocks + nbitmap

/-- Number of data blocks. -/
abbrev nblocks : Nat := fsSize - nmeta

def sb : Superblock where
  size := fsSize
  ninodes := ninodes
  nlog := nlog
  logstart := 2
  inodestart := 2 + nlog
  bmapstart := 2 + nlog + ninodeblocks

/-- The bytes of `sb`. -/
def sbBytes : List UInt8 :=
  [sb.size, nblocks, sb.ninodes, sb.nlog, sb.logstart, sb.inodestart,
    sb.bmapstart].flatMap (leBytes 4)

/-- The file `fsfd` with its number of sectors, and the two counters. -/
structure Disk where
  sect : Sectors
  len : Nat
  freeinode : Nat
  freeblock : Nat

abbrev M := EStateM String Disk

def wsect (sec : Nat) (buf : Block) : M Unit :=
  modify fun d => { d with sect := Function.update d.sect sec buf, len := max d.len (sec + 1) }

def rsect (sec : Nat) : M Block := do
  let d ← get
  if sec < d.len then return d.sect sec else throw "read"

def winode (inum : Nat) (ip : Dinode) : M Unit := do
  let buf ← rsect (sb.iblock inum)
  wsect (sb.iblock inum) (buf.write (dinodeSize * (inum % ipb)) ip.bytes)

def rinode (inum : Nat) : M Dinode := do
  let buf ← rsect (sb.iblock inum)
  return .ofBytes (buf.read (dinodeSize * (inum % ipb)) dinodeSize)

def ialloc (type : FileType) : M Nat := do
  let d ← get
  set { d with freeinode := d.freeinode + 1 }
  winode d.freeinode { Dinode.zero with type := some type, nlink := 1 }
  return d.freeinode

/-- `buf[i/8] = buf[i/8] | (0x1 << (i%8))` for all `i` below `used`, from a zeroed buffer. -/
def bitmapBlock (used : Nat) : Block :=
  (List.range used).foldl (fun buf i => Function.update buf (Fin.ofNat bsize (i / 8))
    (buf (Fin.ofNat bsize (i / 8)) ||| UInt8.ofNat (2 ^ (i % 8)))) fun _ => 0

def balloc (used : Nat) : M Unit := do
  if used < bsize * 8 then wsect sb.bmapstart (bitmapBlock used) else throw "used < BSIZE*8"

/-- `freeblock++`. -/
def nextBlock : M Nat := do
  let d ← get
  set { d with freeblock := d.freeblock + 1 }
  return d.freeblock

/-- `if(xint(din.addrs[k]) == 0) din.addrs[k] = xint(freeblock++);`. -/
def takeSlot (din : Dinode) (k : Fin (ndirect + 1)) : M Dinode := do
  if din.addrs k = 0 then
    let x ← nextBlock
    return { din with addrs := Function.update din.addrs k x }
  else return din

/-- The block `x` of a turn of the loop of `iappend`. -/
def appendBlock (din : Dinode) (fbn : Nat) : M (Dinode × Nat) := do
  if h : fbn < ndirect then
    let din ← takeSlot din (Fin.castSucc ⟨fbn, h⟩)
    return (din, din.addrs (Fin.castSucc ⟨fbn, h⟩))
  else
    let din ← takeSlot din (Fin.last ndirect)
    let indirect ← rsect (din.addrs (Fin.last ndirect))
    if indirect.word (fbn - ndirect) = 0 then
      let x ← nextBlock
      wsect (din.addrs (Fin.last ndirect)) (indirect.setWord (fbn - ndirect) x)
      return (din, x)
    else return (din, indirect.word (fbn - ndirect))

/-- The loop of `iappend`. Each turn takes at least one of the bytes `p`. -/
def appendLoop : Nat → Dinode → Nat → List UInt8 → M (Dinode × Nat)
  | 0, din, off, _ => return (din, off)
  | turns + 1, din, off, p => do
    if p.length = 0 then return (din, off)
    else if off / bsize < maxFile then
      let (din, x) ← appendBlock din (off / bsize)
      let n1 := min p.length ((off / bsize + 1) * bsize - off)
      let buf ← rsect x
      wsect x (buf.write (off - off / bsize * bsize) (p.take n1))
      appendLoop turns din (off + n1) (p.drop n1)
    else throw "fbn < MAXFILE"

def iappend (inum : Nat) (p : List UInt8) : M Unit := do
  let din ← rinode inum
  let (din, off) ← appendLoop p.length din din.size p
  winode inum { din with size := off }

/-- An input file: `argv[i]`, and the bytes that the calls of `read` give. -/
structure Source where
  name : List UInt8
  chunks : List (List UInt8)
  name_ne : ∀ b ∈ name, b ≠ 0

namespace Source

/-- The name in the image: one leading `_` is skipped. -/
def target (f : Source) : List UInt8 := if f.name.head? = some 95 then f.name.tail else f.name

/-- The contents of the file. -/
def data (f : Source) : List UInt8 := f.chunks.flatten

end Source

/-- The body of the loop of `main` over the files. -/
def addFile (f : Source) : M Unit := do
  if slash ∈ f.name then throw "index(argv[i], '/') == 0"
  else
    let inum ← ialloc .file
    iappend rootIno (Dirent.bytes ⟨inum, strncpy f.target dirsiz⟩)
    f.chunks.forM (iappend inum)

/-- Fix size of root inode dir. -/
def fixRoot (rootino : Nat) : M Unit := do
  let din ← rinode rootino
  winode rootino { din with size := (din.size / bsize + 1) * bsize }

/-- `for(i = 0; i < n; i++) wsect(i, zeroes);`. -/
@[irreducible]
def zeroSects (n : Nat) : M Unit := (List.range n).forM fun i => wsect i fun _ => 0

def main (files : List Source) : M Unit := do
  zeroSects fsSize
  wsect 1 (Block.write (fun _ => 0) 0 sbBytes)
  let rootino ← ialloc .dir
  if rootino = rootIno then
    iappend rootino (Dirent.bytes ⟨rootino, strncpy dot dirsiz⟩)
    iappend rootino (Dirent.bytes ⟨rootino, strncpy dotdot dirsiz⟩)
    files.forM addFile
    fixRoot rootino
    let d ← get
    balloc d.freeblock
  else throw "rootino == ROOTINO"

/-- The image file is created, or truncated. -/
def start : Disk := ⟨fun _ _ => 0, 0, 1, nmeta⟩

/-- What `mkfs` leaves, if it exits with `0`. -/
def mkfs (files : List Source) : Option Disk :=
  match main files start with
  | .ok _ d => some d
  | .error _ _ => none

end Xv6.Fs.Mkfs
