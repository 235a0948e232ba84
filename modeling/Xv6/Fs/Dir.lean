import Xv6.Fs.Inode

/-!
# Directories and paths

`strncmp` and `strncpy` of `string.c`, the directory entries of `fs.h`, `dirlookup`, `dirlink`,
`skipelem` and `namex`. A C string is the list of its bytes; what lies behind the end of the list
reads as `0`. A directory entry is 16 bytes of the directory's contents: the inode number, lowest
byte first, and the name.
-/

namespace Xv6.Fs

abbrev dirsiz : Nat := 14

/-- `sizeof(struct dirent)`. -/
abbrev deSize : Nat := 2 + dirsiz

/-- `strncmp(p, q, n)`. -/
def strncmp : Nat → List UInt8 → List UInt8 → Int
  | 0, _, _ => 0
  | n + 1, p, q =>
    if p.headD 0 ≠ 0 ∧ p.headD 0 = q.headD 0 then strncmp n p.tail q.tail
    else (p.headD 0).toNat - (q.headD 0).toNat

/-- The `n` bytes at `s` after `strncpy(s, t, n)`. -/
def strncpy : List UInt8 → Nat → List UInt8
  | _, 0 => []
  | t, n + 1 => if t.headD 0 = 0 then List.replicate (n + 1) 0 else t.headD 0 :: strncpy t.tail n

def namecmp (s t : List UInt8) : Int := strncmp dirsiz s t

/-- The string `"."`. -/
def dot : List UInt8 := [46]

/-- The string `".."`. -/
def dotdot : List UInt8 := [46, 46]

structure Dirent where
  inum : Nat
  name : List UInt8
  deriving DecidableEq

/-- The bytes of an entry; `inum` is a `ushort`. -/
def Dirent.bytes (de : Dirent) : List UInt8 := Lib.leBytes 2 de.inum ++ de.name

/-- The entry with the bytes `bs`. -/
def Dirent.ofBytes (bs : List UInt8) : Dirent := ⟨Lib.leNat (bs.take 2), bs.drop 2⟩

/-- The loop of `dirlookup` from `off` on. -/
def dirlookupFrom (c : Ctx) (dp : Fin ninode) (name : List UInt8) (size : Nat) :
    Nat → Nat → M (Option (Fin ninode × Nat))
  | 0, _ => return none
  | turns + 1, off => do
    if off < size then
      let (r, bs) ← readi c dp off deSize
      if r ≠ deSize then panic "dirlookup read"
      else
        let de := Dirent.ofBytes bs
        if de.inum ≠ 0 ∧ namecmp name de.name = 0 then
          -- entry matches path element
          let ip ← iget de.inum
          return some (ip, off)
        else dirlookupFrom c dp name size turns (off + deSize)
    else return none

/-- Look for a directory entry in a directory. If found, also the byte offset of entry. -/
def dirlookup (c : Ctx) (dp : Fin ninode) (name : List UInt8) :
    M (Option (Fin ninode × Nat)) := do
  let d ← getInode dp
  if d.type ≠ some .dir then panic "dirlookup not DIR"
  else dirlookupFrom c dp name d.size d.size 0

/-- The loop of `dirlink` that looks for an empty entry, from `off` on. -/
def emptyFrom (c : Ctx) (dp : Fin ninode) (size : Nat) : Nat → Nat → M Nat
  | 0, off => return off
  | turns + 1, off => do
    if off < size then
      let (r, bs) ← readi c dp off deSize
      if r ≠ deSize then panic "dirlink read"
      else if (Dirent.ofBytes bs).inum = 0 then return off
      else emptyFrom c dp size turns (off + deSize)
    else return off

/-- Write a new directory entry (name, inum) into the directory `dp`. -/
def dirlink (c : Ctx) (dp : Fin ninode) (name : List UInt8) (inum : Nat) : M Int := do
  match ← dirlookup c dp name with
  | some (ip, _) =>
    iput c ip
    return -1
  | none =>
    let d ← getInode dp
    let off ← emptyFrom c dp d.size d.size 0
    let r ← writei c dp (Dirent.bytes ⟨inum, strncpy name dirsiz⟩) off
    if r ≠ deSize then panic "dirlink" else return 0

/-- The byte `'/'`. -/
abbrev slash : UInt8 := 47

/-- Copy the next path element from `path` into the buffer `name`; the rest of the path. An element
of `DIRSIZ` bytes or more fills the buffer, a shorter one is terminated. -/
def skipelem (path name : List UInt8) : Option (List UInt8 × List UInt8) :=
  match path.dropWhile (· = slash) with
  | [] => none
  | path =>
    let s := path.takeWhile (· ≠ slash)
    let rest := (path.dropWhile (· ≠ slash)).dropWhile (· = slash)
    if s.length ≥ dirsiz then some (rest, s.take dirsiz)
    else some (rest, s ++ 0 :: name.drop (s.length + 1))

/-- The loop of `namex`. Every turn takes an element off the path. -/
def namexFrom (c : Ctx) (nameiparent : Bool) :
    Nat → Fin ninode → List UInt8 → List UInt8 → M (Option (Fin ninode × List UInt8))
  | 0, _, _, _ => return none
  | turns + 1, ip, path, name =>
    match skipelem path name with
    | none => do
      if nameiparent then
        iput c ip
        return none
      else return some (ip, name)
    | some (path, name) => do
      ilock c ip
      let i ← getInode ip
      if i.type ≠ some .dir then
        iunlockput c ip
        return none
      else if nameiparent ∧ path = [] then
        -- stop one level early
        iunlock c ip
        return some (ip, name)
      else
        match ← dirlookup c ip name with
        | none =>
          iunlockput c ip
          return none
        | some (next, _) =>
          iunlockput c ip
          namexFrom c nameiparent turns next path name

/-- Look up and return the inode for a path name, and the buffer `name`. -/
def namex (c : Ctx) (path : List UInt8) (nameiparent : Bool) :
    M (Option (Fin ninode × List UInt8)) := do
  let name := List.replicate dirsiz 0
  if path.head? = some slash then
    let ip ← iget rootIno
    namexFrom c nameiparent (path.length + 1) ip path name
  else
    let s ← get
    match (s.procs c.me).cwd with
    | some cwd =>
      let ip ← idup cwd
      namexFrom c nameiparent (path.length + 1) ip path name
    | none => throw .fault

def namei (c : Ctx) (path : List UInt8) : M (Option (Fin ninode)) := do
  let r ← namex c path false
  return r.map Prod.fst

def nameiparent (c : Ctx) (path : List UInt8) : M (Option (Fin ninode × List UInt8)) :=
  namex c path true

end Xv6.Fs
