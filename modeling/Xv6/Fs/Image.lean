import Xv6.Fs.Syscalls

/-!
# The image of an empty file system

The image that `mkfs` makes from no files: the layout of its super block, and a root directory whose
only entries are `"."` and `".."`.
-/

namespace Xv6.Fs

/-- The super block of `mkfs`: 2 blocks, 30 of the log, 26 of inodes, 1 of the bitmap. -/
def mkfsSb : Superblock := ⟨fsSize, 200, nlog, 2, 32, 58⟩

/-- The root directory's first block. -/
def rootBlock : Block :=
  Block.write (Block.write (fun _ => 0) 0 (Dirent.bytes ⟨rootIno, strncpy dot dirsiz⟩)) deSize
    (Dirent.bytes ⟨rootIno, strncpy dotdot dirsiz⟩)

def emptyImage : Image where
  bitmap b := b < 60
  dinode i :=
    if i = rootIno then ⟨some .dir, 0, 0, 1, bsize, fun k => if k = 0 then 59 else 0⟩
    else Dinode.zero
  block b := if b = 59 then rootBlock else fun _ => 0

/-- A call by process `me`, with no devices and no pipes. -/
def plainCall (me : Fin nproc) (a : Syscall) : Call :=
  ⟨⟨mkfsSb, me, 0, fun _ => ⟨none, none⟩, fun _ _ => -1, fun _ _ => -1, none⟩, a⟩

end Xv6.Fs
