import Xv6.Fs.Proof.RefCounts
import Xv6.Fs.Proof.Cache

/-!
# The room in the inode cache

`iget` panics when every entry of the cache is in use, for other inodes. The entries in use are
those of open files and working directories, and those that the call holds itself
(`Syscall.entries`). If before the call that many entries are free, `iget` finds one
(`iget_finds_entry`). The limits that the code checks, `NOFILE`, `NFILE` and `NPROC`, do not ensure
that (`iget_no_inodes`): a working directory is a reference too, and there may be more processes
than entries.
-/

namespace Xv6.Fs

open Lib

abbrev noInodes : Stop := .panic "iget: no inodes"

theorem Calm.room {α : Type} {x : M α} {P W : State → Prop} (h : Calm SameFiles x)
    (hW : ∀ s s', SameFiles s s' → W s → W s') :
    Triple (fun s => P s ∧ W s) x (fun _ => W) fun e _ => e ≠ noInodes :=
  .of_state fun s hs => (h s).conseq (fun _ heq => heq ▸ ⟨rfl, rfl⟩)
    (fun _ s' h' => hW s s' h' hs.2) fun _ _ he => he.1

theorem roomLock (c : Ctx) {W : State → Prop} (hW : ∀ s s', SameFiles s s' → W s → W s') :
    LockGuard c W fun e _ => e ≠ noInodes where
  panic _ _ h _ heq := h (by simp [Stop.panic.inj heq, inodePanics])
  idup _ _ _ := (Calm.room (modInode_files.bind fun _ => .pure) hW).pre fun _ h => ⟨h.1, h.2.1⟩
  ilock _ _ _ := ilock_files.room hW
  iunlock _ _ ip := (keeps_files (keeps_iunlock c ip)).room hW
  iput _ _ _ := iput_quiet.files.room hW

/-- Once the path has been walked along, a call needs no room. -/
theorem roomGuard (c : Ctx) : Guard c False (fun _ => True) fun e _ => e ≠ noInodes where
  toLockGuard := roomLock c fun _ _ _ _ => trivial
  tables _ _ _ _ _ := trivial
  readi _ _ ip off n := (keeps_files (keeps_readi c ip off n)).room fun _ _ _ _ => trivial
  writei _ _ _ src off :=
    ((writei_quiet src off).files.room fun _ _ _ _ => trivial).pre fun _ h => ⟨h.1, h.2.1⟩

/-! ## The functions that call `iget` -/

/-- With `n` more entries, the cache has room for the inodes of open files and working
directories. -/
def Spare (n : Nat) (s : State) : Prop :=
  (Finset.univ.filter fun k => 0 < fileRefs s.ftable k + cwdRefs s.procs k).card + n ≤ ninode

section
variable {b : Begun} {vs : List (Fin ninode)} {tmp : Multiset (Fin ninode)}
  {tf : Multiset (Fin nfile)} {pt : Fin nproc → Files} {n : Nat} {α : Type} {x : M α}

theorem Spare.same (s s' : State) (h : SameFiles s s') (hs : Spare n s) : Spare n s' := by
  unfold Spare
  rw [h.1, h.2]
  exact hs

theorem RefInv.exists_idle {s : State} (h : RefInv b vs tmp tf pt pt s) (hs : Spare n s)
    (hn : tmp.card < n) : ∃ k, (s.icache k).ref = 0 := by
  by_contra hall
  have hsub : Finset.univ ⊆
      (Finset.univ.filter fun k => 0 < fileRefs s.ftable k + cwdRefs s.procs k) ∪ tmp.toFinset := by
    intro k _
    rw [Finset.mem_union, Finset.mem_filter, Multiset.mem_toFinset, ← Multiset.count_pos, h.procs]
    have h1 := h.inode k
    have h2 : (s.icache k).ref ≠ 0 := fun h0 => hall ⟨k, h0⟩
    simp only [Finset.mem_univ, true_and]
    omega
  have hcard := (Finset.card_le_card hsub).trans (Finset.card_union_le _ _)
  have htmp := Multiset.toFinset_card_le tmp
  rw [Finset.card_univ, Fintype.card_fin] at hcard
  unfold Spare at hs
  omega

theorem keeps_room (h : Calm Same x) : Triple (Inv (Spare n) b vs tmp tf pt pt) x
    (fun _ => Inv (Spare n) b vs tmp tf pt pt) fun e _ => e ≠ noInodes :=
  ((keeps_refs h).both ((keeps_files h).room Spare.same)).onError fun _ _ he => he.2

theorem iget_room (hn : tmp.card < n) (inum : Nat) :
    Triple (Inv (Spare n) b vs tmp tf pt pt) (iget inum) (fun _ => Spare n)
    fun e _ => e ≠ noInodes := by
  refine .of_state fun s ⟨h, hs⟩ => ?_
  obtain ⟨k, hk⟩ := h.exists_idle hs hn
  refine ((iget_spec s inum).and (iget_full s inum)).conseq (fun _ h => ⟨h, h⟩) ?_
    fun _ _ he => absurd hk (he.2 k).1
  rintro ip s' ⟨hg, -⟩
  cases hg with
  | old | new => exact hs

theorem dirlookup_room (hn : tmp.card < n) (c : Ctx) (dp : Fin ninode) (name : List UInt8) :
    Triple (Inv (Spare n) b vs tmp tf pt pt) (dirlookup c dp name) (fun _ => Spare n)
      fun e _ => e ≠ noInodes := by
  have hfrom : ∀ size turns off, Triple (Inv (Spare n) b vs tmp tf pt pt)
      (dirlookupFrom c dp name size turns off) (fun _ => Spare n) fun e _ => e ≠ noInodes := by
    intro size turns
    induction turns with
    | zero => exact fun _ => .pure fun _ h => h.2
    | succ turns ih =>
      intro off
      refine .ite (fun _ => (keeps_room (keeps_readi c dp off _)).bind fun x => ?_)
        fun _ => .pure fun _ h => h.2
      refine .ite (fun _ => .throw fun _ _ => by simp) fun _ => .ite (fun _ => ?_) fun _ => ih _
      exact (iget_room hn _).bind fun ip => .pure fun _ h => h
  exact (keeps_room (keeps_getInode dp)).bind fun _ =>
    .ite (fun _ => .throw fun _ _ => by simp) fun _ => hfrom _ _ _

theorem ialloc_room (hn : tmp.card < n) (c : Ctx) (type : FileType) :
    Triple (Inv (Spare n) b vs tmp tf pt pt) (ialloc c type) (fun _ => Spare n)
      fun e _ => e ≠ noInodes := by
  refine .of_state fun s h => .read_bind rfl ?_
  split
  · next inum hf =>
    have h0 : (s.dinode inum).type = none := by simpa using List.find?_some hf
    refine .bind (Q := fun _ => Inv (Spare n) b vs tmp tf pt pt) ?_ fun _ =>
      (keeps_room (keeps_note (e := .alloc inum) nofun)).bind fun _ => iget_room hn inum
    refine .bind (Q := fun _ => Inv (Spare n) b vs tmp tf pt pt) (.modify ?_)
      fun _ => keeps_room (keeps_logWrite _)
    rintro _ rfl
    exact ⟨h.1.alloc h0 (Option.some_ne_none _), h.2⟩
  · exact .throw fun _ _ => by simp

theorem dirlink_room (hn : tmp.card < n) (c : Ctx) (dp : Fin ninode)
    (name : List UInt8) (inum : Nat) :
    Triple (Inv (Spare n) b vs tmp tf pt pt) (dirlink c dp name inum) (fun _ => Spare n)
      fun e _ => e ≠ noInodes := by
  refine (dirlookup_room hn c dp name).bind fun r =>
    .pre (Calm.room (P := fun _ => True) ?_ Spare.same) fun _ h => ⟨trivial, h⟩
  cases r with
  | some r => exact iput_quiet.files.bind fun _ => .pure
  | none =>
    exact (keeps_getInode dp).bind fun _ =>
      (keeps_files (keeps_emptyFrom c dp _ _ _)).bind fun off =>
      (writei_quiet _ off).files.bind fun _ => .ite (keeps_panic (by decide)) .pure

theorem roomMakers (c : Ctx) (n : Nat) : MakerGuard c False n (Spare n)
    fun e _ => e ≠ noInodes where
  toLockGuard := roomLock c Spare.same
  root hn := iget_room hn _
  dirlookup dp name _ hn := dirlookup_room hn c dp name
  inum _ _ _ _ _ _ _ h := h.elim
  setFields _ _ _ _ _ hf := (setFields_quiet hf.type).files.room Spare.same
  ialloc type hn := ialloc_room hn c type
  dirlink dp name inum _ hn _ := dirlink_room hn c dp name inum
  isdirempty _ _ dp _ :=
    ((keeps_files (keeps_isdirempty c dp)).room Spare.same).pre fun _ h => ⟨h.1, h.2.1⟩
  erase _ _ _ off _ _ := (writei_quiet _ off).files.room Spare.same

end

/-- The entries of the cache that are in use. -/
def inUse (s : State) : Finset (Fin ninode) := Finset.univ.filter fun k => 0 < (s.icache k).ref

theorem RefsOk.spare {s : State} (h : RefsOk s) {n : Nat} (hn : (inUse s).card + n ≤ ninode) :
    Spare n { s with hist := [] } := by
  have heq : inUse s = Finset.univ.filter fun k => 0 < fileRefs s.ftable k + cwdRefs s.procs k := by
    refine Finset.filter_congr fun k _ => ?_
    rw [h.inode k]
    omega
  rwa [heq] at hn

/-- **Room in the inode cache.** In every state between calls, whatever the image and the calls
before it, and for every call that can be made there: if as many entries of the cache are not in use
as the call may hold at once, it does not stop because `iget` finds no entry. -/
theorem iget_finds_entry (sb : Superblock) (init : Fin nproc) (im : Image)
    (as : List Call) (s : State) (h : run (step sb init) (boot im init) as = some s)
    (a : Call) (ha : a.Enabled s) (hn : (inUse s).card + a.sys.entries ≤ ninode) :
    ∀ s', a.exec s ≠ .error noInodes s' := by
  have hs := run_refsOk h
  obtain ⟨-, herr⟩ := (roomMakers a.ctx a.sys.entries).exec (roomGuard a.ctx) (fun _ _ => trivial)
    (Nat.le_refl _) hs (hs.spare hn) ha
  exact fun s' hx => (herr _ s' hx).2 rfl

/-- From the empty file system, after `mkdir a`, `chdir a` meets the condition and does not
panic. -/
theorem iget_finds_entry_chdir :
    ∃ s, run (step mkfsSb 0) (boot emptyImage 0) [plainCall 0 (.mkdir (some [97]))] = some s ∧
      (inUse s).card = 1 ∧
      ∀ s', (plainCall 0 (.chdir (some [97]))).exec s ≠ .error noInodes s' := by
  have h : (run (step mkfsSb 0) (boot emptyImage 0) [plainCall 0 (.mkdir (some [97]))]).map
      (fun s => ((inUse s).card, decide ((plainCall 0 (.chdir (some [97]))).Enabled s))) =
      some (1, true) := by
    decide +kernel
  obtain ⟨s, hs, heq⟩ := Option.map_eq_some_iff.1 h
  obtain ⟨hc, ha⟩ := Prod.mk.inj heq
  refine ⟨s, hs, hc, iget_finds_entry mkfsSb 0 emptyImage _ s hs _ (of_decide_eq_true ha) ?_⟩
  rw [hc]
  decide

/-! ## A chain of directories -/

/-- A file system with the directories `/a`, `/a/a` and so on: inode `i` is the directory at depth
`i - 1`, with one block. -/
def chainImage : Image where
  bitmap b := b < 110
  dinode i :=
    if 1 ≤ i ∧ i ≤ 50 then ⟨some .dir, 0, 0, 2, 3 * deSize, fun k => if k = 0 then 58 + i else 0⟩
    else if i = 51 then ⟨some .dir, 0, 0, 1, 2 * deSize, fun k => if k = 0 then 58 + i else 0⟩
    else Dinode.zero
  block b k :=
    (Dirent.bytes ⟨b - 58, strncpy dot dirsiz⟩ ++ (Dirent.bytes ⟨max 1 (b - 59),
      strncpy dotdot dirsiz⟩ ++
      if b < 109 then Dirent.bytes ⟨b - 57, strncpy [97] dirsiz⟩ else [])).getD k 0

/-- Process 0 makes a process that stays in the working directory, and goes one directory down. -/
def forkDown (p : Nat) : List Call :=
  [plainCall 0 (.fork (some (Fin.ofNat nproc (p + 1)))), plainCall 0 (.chdir (some [97]))]

/-- Of `NPROC` processes, 50 have different working directories, with no file open; then one more
`chdir` panics, with the processes and files well below their limits. -/
theorem iget_no_inodes :
    ∃ s s', run (step mkfsSb 0) (boot chainImage 0) ((List.range 49).flatMap forkDown) = some s ∧
      (plainCall 0 (.chdir (some [97]))).exec s = .error noInodes s' := by
  have h : ((run (step mkfsSb 0) (boot chainImage 0) ((List.range 49).flatMap forkDown)).map fun s =>
      match (plainCall 0 (.chdir (some [97]))).exec s with
      | .error (.panic m) _ => m == "iget: no inodes"
      | _ => false) = some true := by decide +kernel
  obtain ⟨s, hs, hx⟩ := Option.map_eq_some_iff.1 h
  refine ⟨s, ?_⟩
  split at hx
  · next m s' he =>
    rw [beq_iff_eq] at hx
    exact ⟨s', hs, by rw [he, hx]⟩
  · cases hx

end Xv6.Fs
