import Xv6.Fs.Image

/-!
# The bytes on disk

How `struct superblock`, `struct dinode` and the bitmap lie in the sectors of a disk image (`fs.h`),
and what the kernel makes of an image: `readsb`, and the areas that the model of the file system
holds, each read as `ilock`, `balloc` and `bread` read it.
-/

namespace Xv6.Fs

open Lib

/-- The sectors of a disk image. -/
abbrev Sectors := Nat → Block

/-- The value of `type`. -/
def typeCode : Option FileType → Nat
  | none => 0
  | some .dir => 1
  | some .file => 2
  | some .dev => 3

/-- The type with this value; `mkfs` writes no other values. -/
def ofTypeCode : Nat → Option FileType
  | 1 => some .dir
  | 2 => some .file
  | 3 => some .dev
  | _ => none

/-- `sizeof(struct dinode)`. -/
abbrev dinodeSize : Nat := 64

/-- The bytes of an inode. -/
def Dinode.bytes (d : Dinode) : List UInt8 :=
  leBytes 2 (typeCode d.type) ++ (leBytes 2 d.major.toNat ++ (leBytes 2 d.minor.toNat ++
    (leBytes 2 d.nlink.toNat ++ (leBytes 4 d.size ++
      (List.finRange (ndirect + 1)).flatMap fun k => leBytes 4 (d.addrs k)))))

/-- The inode with the bytes `bs`. -/
def Dinode.ofBytes (bs : List UInt8) : Dinode where
  type := ofTypeCode (leNat (bs.take 2))
  major := .ofNat 16 (leNat ((bs.drop 2).take 2))
  minor := .ofNat 16 (leNat ((bs.drop 4).take 2))
  nlink := .ofNat 16 (leNat ((bs.drop 6).take 2))
  size := leNat ((bs.drop 8).take 4)
  addrs k := leNat ((bs.drop (12 + 4 * k)).take 4)

/-- `(struct dinode*)bp->data + inum%IPB` in block `IBLOCK(inum, sb)`. -/
def dinodeAt (x : Sectors) (sb : Superblock) (inum : Nat) : Dinode :=
  .ofBytes ((x (sb.iblock inum)).read (dinodeSize * (inum % ipb)) dinodeSize)

/-- `bp->data[bi/8] & (1 << (bi % 8))` in block `BBLOCK(b, sb)`. -/
def bitAt (x : Sectors) (sb : Superblock) (b : Nat) : Bool :=
  ((x (sb.bblock b)).byte (b % bpb / 8)).toNat.testBit (b % bpb % 8)

/-- Read the super block. The second word is `nblocks`, which the kernel does not use. -/
def readsb (x : Sectors) : Superblock :=
  ⟨(x 1).word 0, (x 1).word 2, (x 1).word 3, (x 1).word 4, (x 1).word 5, (x 1).word 6⟩

/-- The areas of the disk as the kernel sees them. -/
def kernelImage (x : Sectors) : Image where
  bitmap := bitAt x (readsb x)
  dinode i := if i < (readsb x).ninodes then dinodeAt x (readsb x) i else Dinode.zero
  block b := if (readsb x).Data b then x b else fun _ => 0

end Xv6.Fs
