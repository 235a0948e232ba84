import Xv6.Fs.Disk

/-!
# Inodes

`ialloc`, `iupdate`, `iget`, `idup`, `ilock`, `iunlock`, `iput` and the contents of an inode:
`bmap`, `itrunc`, `readi`, `writei`. An inode pointer is the index of a cache entry. There is one
device, so `dev` is left out; `begin_op` and `end_op` do nothing here, since calls run one at a
time.

`readi` and `writei` go on as long as there are bytes left; each turn of their loops takes at least
one, so as many turns as bytes are enough.
-/

namespace Xv6.Fs

/-- The entry of an inode pointer. -/
def getInode (ip : Fin ninode) : M Inode := do
  let s ← get
  return s.icache ip

def modInode (ip : Fin ninode) (f : Inode → Inode) : M Unit :=
  modify fun s => { s with icache := Function.update s.icache ip (f (s.icache ip)) }

/-- The on-disk inode `inum`, in block `IBLOCK(inum, sb)`. -/
def getDinode (c : Ctx) (inum : Nat) : M Dinode := do
  if inum < c.sb.ninodes then
    let s ← get
    return s.dinode inum
  else throw .fault

def setDinode (c : Ctx) (inum : Nat) (d : Dinode) : M Unit := do
  modify fun s => { s with dinode := Function.update s.dinode inum d }
  logWrite (c.sb.iblock inum)

/-- `acquiresleep(&ip->lock)`. Calls run one at a time, and a call that has to wait stops here. -/
def acquiresleep (c : Ctx) (ip : Fin ninode) : M Unit := do
  note (.acquire ip)
  let i ← getInode ip
  if i.lock = some c.me then throw .deadlock
  else if i.lock.isSome then throw .waits
  else modInode ip fun i => { i with lock := some c.me }

def releasesleep (ip : Fin ninode) : M Unit := modInode ip fun i => { i with lock := none }

/-- Copy a modified in-memory inode to disk. -/
def iupdate (c : Ctx) (ip : Fin ninode) : M Unit := do
  let i ← getInode ip
  let _ ← getDinode c i.inum
  setDinode c i.inum i.toDinode

/-- Assignments to fields of `*ip`, and the `iupdate(ip)` after them. -/
def setFields (c : Ctx) (ip : Fin ninode) (f : Inode → Inode) : M Unit := do
  modInode ip f
  iupdate c ip

/-- Find the inode with number `inum` and return the in-memory copy. -/
def iget (inum : Nat) : M (Fin ninode) := do
  let s ← get
  match (List.finRange ninode).find? fun k => 0 < (s.icache k).ref && (s.icache k).inum == inum with
  | some ip =>
    modInode ip fun i => { i with ref := i.ref + 1 }
    return ip
  | none =>
    -- recycle the first entry without references
    match (List.finRange ninode).find? fun k => (s.icache k).ref == 0 with
    | some ip =>
      modInode ip fun i => { i with inum := inum, ref := 1, valid := false }
      return ip
    | none => panic "iget: no inodes"

/-- Increment reference count for `ip`. -/
def idup (ip : Fin ninode) : M (Fin ninode) := do
  modInode ip fun i => { i with ref := i.ref + 1 }
  return ip

/-- Allocate an inode. -/
def ialloc (c : Ctx) (type : FileType) : M (Fin ninode) := do
  let s ← get
  match (List.range' 1 (c.sb.ninodes - 1)).find? fun inum => (s.dinode inum).type.isNone with
  | some inum =>
    setDinode c inum { Dinode.zero with type := some type }
    note (.alloc inum)
    iget inum
  | none => panic "ialloc: no inodes"

/-- Lock the given inode. Reads the inode from disk if necessary. -/
def ilock (c : Ctx) (ip : Fin ninode) : M Unit := do
  let i ← getInode ip
  if i.ref < 1 then panic "ilock"
  else
    acquiresleep c ip
    if i.valid then return ()
    else
      let d ← getDinode c i.inum
      modInode ip fun i => { i with toDinode := d, valid := true }
      if d.type.isNone then panic "ilock: no type" else return ()

/-- Unlock the given inode. -/
def iunlock (c : Ctx) (ip : Fin ninode) : M Unit := do
  let i ← getInode ip
  if i.lock ≠ some c.me ∨ i.ref < 1 then panic "iunlock"
  else releasesleep ip

/-- `if(ip->addrs[k]){ bfree(ip->dev, ip->addrs[k]); ip->addrs[k] = 0; }`. -/
def freeSlot (c : Ctx) (ip : Fin ninode) (k : Fin (ndirect + 1)) : M Unit := do
  let i ← getInode ip
  if i.addrs k = 0 then return ()
  else
    bfree c (i.addrs k)
    modInode ip fun i => { i with addrs := Function.update i.addrs k 0 }

/-- The part of `itrunc` for the indirect block. -/
def freeIndirect (c : Ctx) (ip : Fin ninode) : M Unit := do
  let i ← getInode ip
  if i.addrs (Fin.last ndirect) = 0 then return ()
  else
    let bp ← bread c (i.addrs (Fin.last ndirect))
    (List.range nindirect).forM fun j => if bp.word j = 0 then pure () else bfree c (bp.word j)
    freeSlot c ip (Fin.last ndirect)

/-- Truncate inode (discard contents). -/
def itrunc (c : Ctx) (ip : Fin ninode) : M Unit := do
  (List.finRange ndirect).forM fun k => freeSlot c ip k.castSucc
  freeIndirect c ip
  setFields c ip fun i => { i with size := 0 }

/-- The part of `iput` for an inode that has no links and no other references: truncate and free. -/
def ifree (c : Ctx) (ip : Fin ninode) : M Unit := do
  itrunc c ip
  let i ← getInode ip
  note (.free i.inum)
  setFields c ip fun i => { i with type := none }
  modInode ip fun i => { i with valid := false }

/-- Drop a reference to an in-memory inode. -/
def iput (c : Ctx) (ip : Fin ninode) : M Unit := do
  acquiresleep c ip
  let i ← getInode ip
  (if i.valid ∧ i.nlink = 0 ∧ i.ref = 1 then ifree c ip else pure ())
  releasesleep ip
  modInode ip fun i => { i with ref := i.ref - 1 }

/-- Common idiom: unlock, then put. -/
def iunlockput (c : Ctx) (ip : Fin ninode) : M Unit := do
  iunlock c ip
  iput c ip

/-- `if((addr = ip->addrs[k]) == 0) ip->addrs[k] = addr = balloc(ip->dev);`. -/
def slotBlock (c : Ctx) (ip : Fin ninode) (k : Fin (ndirect + 1)) : M Nat := do
  let i ← getInode ip
  if i.addrs k = 0 then
    let addr ← balloc c
    modInode ip fun i => { i with addrs := Function.update i.addrs k addr }
    return addr
  else return i.addrs k

/-- Return the disk block address of the nth block in inode `ip`. -/
def bmap (c : Ctx) (ip : Fin ninode) (bn : Nat) : M Nat := do
  if h : bn < ndirect then slotBlock c ip (Fin.castSucc ⟨bn, h⟩)
  else if bn - ndirect < nindirect then
    -- load indirect block, allocating if necessary
    let addr ← slotBlock c ip (Fin.last ndirect)
    let bp ← bread c addr
    if bp.word (bn - ndirect) = 0 then
      let a ← balloc c
      setBlock addr (bp.setWord (bn - ndirect) a)
      return a
    else return bp.word (bn - ndirect)
  else panic "bmap: out of range"

/-- The loop of `readi`: the `n` bytes from `off` on. -/
def readLoop (c : Ctx) (ip : Fin ninode) : Nat → Nat → Nat → M (List UInt8)
  | 0, _, _ => return []
  | turns + 1, off, n => do
    if n = 0 then return []
    else
      let addr ← bmap c ip (off / bsize)
      let bp ← bread c addr
      let m := min n (bsize - off % bsize)
      let rest ← readLoop c ip turns (off + m) (n - m)
      return bp.read (off % bsize) m ++ rest

/-- Read data from inode: the value returned, and the bytes that are copied to `dst`. -/
def readi (c : Ctx) (ip : Fin ninode) (off n : Nat) : M (Int × List UInt8) := do
  let i ← getInode ip
  if i.type = some .dev then
    -- a negative `short` has a `toNat` above `NDEV`
    if i.major.toNat < ndev then
      match (c.devsw i.major.toNat).read with
      | some read => return (read off n, [])
      | none => return (-1, [])
    else return (-1, [])
  else if off > i.size ∨ (off + n) % 2 ^ 32 < off then return (-1, [])
  else
    let n := if off + n > i.size then i.size - off else n
    let bs ← readLoop c ip n off n
    return (n, bs)

/-- The loop of `writei`: the bytes `src` go to `off` and the bytes after it. -/
def writeLoop (c : Ctx) (ip : Fin ninode) : Nat → Nat → List UInt8 → M Unit
  | 0, _, _ => return ()
  | turns + 1, off, src => do
    if src.length = 0 then return ()
    else
      let addr ← bmap c ip (off / bsize)
      let bp ← bread c addr
      let m := min src.length (bsize - off % bsize)
      setBlock addr (bp.write (off % bsize) (src.take m))
      writeLoop c ip turns (off + m) (src.drop m)

/-- Write the bytes `src` to inode. -/
def writei (c : Ctx) (ip : Fin ninode) (src : List UInt8) (off : Nat) : M Int := do
  let n := src.length
  let i ← getInode ip
  if i.type = some .dev then
    if i.major.toNat < ndev then
      match (c.devsw i.major.toNat).write with
      | some write => return write off n
      | none => return -1
    else return -1
  else if off > i.size ∨ (off + n) % 2 ^ 32 < off then return -1
  else if off + n > maxFile * bsize then return -1
  else
    writeLoop c ip n off src
    (if n > 0 ∧ off + n > i.size then setFields c ip fun i => { i with size := off + n }
    else pure ())
    return n

end Xv6.Fs
