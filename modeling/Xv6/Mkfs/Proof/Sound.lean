import Xv6.Mkfs.Proof.Image
import Xv6.Fs.Proof.Entries

/-!
# When the image is sound

What the kernel relies on (`Sound`): the inode numbers are in the inode area, the blocks are on the
disk and accounted for by the bitmap, no inode has a size without blocks, and no two entries of the
root directory have the same name. `mkfs` does not check all of it: among the lists of files on
which it exits successfully, the image is sound for those with at most 198 files, whose number is
not `30` modulo `32`, with names that are still different when cut to 14 bytes (`mkfs_sound_iff`).

With more files, the inode numbers run out of the table. With `30` modulo `32`, the root directory
fills its last block, and the rounding of its size adds a block that it does not have.
-/

namespace Xv6.Fs.Mkfs

open Lib

/-- The image as the kernel reads it. -/
def kernelVol (x : Sectors) : Vol :=
  ⟨(kernelImage x).dinode, (kernelImage x).bitmap, (kernelImage x).block⟩

/-- The image meets the kernel's expectations. -/
structure Sound (d : Disk) : Prop where
  super : readsb d.sect = sb
  inode : ∀ i, 0 < i → i < d.freeinode →
    i < sb.ninodes ∧ sb.inodestart ≤ sb.iblock i ∧ sb.iblock i < sb.bmapstart
  block : d.freeblock ≤ fsSize ∧ ∀ h b, (kernelVol d.sect).has sb h = some b → b < fsSize
  bitmap : ∀ b < sb.size, (kernelVol d.sect).bm b = true ↔
    sb.Meta b ∨ ∃ h, (kernelVol d.sect).has sb h = some b
  sized : ∀ i, (kernelVol d.sect).Live sb i → ∀ bn, bn * bsize < ((kernelVol d.sect).nd i).size →
    bn < maxFile ∧ (kernelVol d.sect).addr i (blockSlot bn) ≠ 0
  names : ∀ j j', j < j' → deSize * (j' + 1) ≤ ((kernelVol d.sect).nd rootIno).size →
    ((kernelVol d.sect).dirent rootIno j).inum ≠ 0 →
    ((kernelVol d.sect).dirent rootIno j').inum ≠ 0 →
    ((kernelVol d.sect).dirent rootIno j).name ≠ ((kernelVol d.sect).dirent rootIno j').name

/-- The names as they stand on disk. -/
def storedNames (files : List Source) : List (List UInt8) :=
  (dot :: dotdot :: files.map Source.target).map fun name => strncpy name dirsiz

/-- The condition under which the image is sound. -/
structure Suitable (files : List Source) : Prop where
  count : files.length ≤ 198
  round : (files.length + 2) % 32 ≠ 0
  names : (storedNames files).Nodup

theorem entries_names (files : List Source) :
    (entries files).map Dirent.name = storedNames files := by
  have hmap : (files.mapIdx fun i f => (⟨i + 2, strncpy f.target dirsiz⟩ : Dirent)).map Dirent.name =
      files.map fun f => strncpy f.target dirsiz :=
    List.ext_getElem (by simp) fun i h1 h2 => by simp
  simp [entries, storedNames, hmap]

/-! ## More files than inodes -/

/-- The action allocates `n` inodes. -/
def Allocs {α : Type} (x : M α) (n : Nat) : Prop :=
  ∀ k, Triple (fun d => d.freeinode = k) x (fun _ d => d.freeinode = k + n) fun _ _ => True

namespace Allocs

variable {α β : Type} {x : M α} {f : α → M β} {n m : Nat}

theorem pure {a : α} : Allocs (Pure.pure a : M α) 0 := fun _ => .pure fun _ h => h

theorem seq (hx : Allocs x n) (hf : ∀ a, Allocs (f a) m) : Allocs (x >>= f) (n + m) := fun k =>
  (hx k).bind fun a => by
    rw [← Nat.add_assoc]
    exact hf a _

theorem bind (hx : Allocs x 0) (hf : ∀ a, Allocs (f a) m) : Allocs (x >>= f) m := by
  have := hx.seq hf
  rwa [Nat.zero_add] at this

theorem throw {e : String} : Allocs (MonadExcept.throw e : M α) n :=
  fun _ => .throw fun _ _ => trivial

theorem ite {c : Prop} [Decidable c] {y : M α} (hx : Allocs x n) (hy : Allocs y n) :
    Allocs (if c then x else y) n := by
  split
  · exact hx
  · exact hy

theorem forM {g : β → M PUnit} (h : ∀ b, Allocs (g b) n) :
    ∀ l : List β, Allocs (l.forM g) (l.length * n)
  | [] => by
    rw [List.length_nil, Nat.zero_mul]
    exact .pure
  | b :: l => by
    rw [List.length_cons, Nat.add_mul, Nat.one_mul, Nat.add_comm]
    exact (h b).seq fun _ => forM h l

end Allocs

theorem wsect_allocs (r : Nat) (buf : Block) : Allocs (wsect r buf) 0 :=
  fun _ => .modify fun _ h => h

theorem rsect_allocs (r : Nat) : Allocs (rsect r) 0 :=
  .bind (fun _ => .get fun _ h => h) fun _ => .ite .pure .throw

theorem winode_allocs (i : Nat) (ip : Dinode) : Allocs (winode i ip) 0 :=
  (rsect_allocs _).bind fun _ => wsect_allocs _ _

theorem rinode_allocs (i : Nat) : Allocs (rinode i) 0 := (rsect_allocs _).bind fun _ => .pure

theorem ialloc_allocs (type : FileType) : Allocs (ialloc type) 1 := fun k => by
  refine .bind (Q := fun a d => a = d ∧ d.freeinode = k) (.get fun _ h => ⟨rfl, h⟩) fun a => ?_
  refine .bind (Q := fun _ d => d.freeinode = k + 1) (.set ?_) fun _ =>
    ((winode_allocs _ _).bind fun _ => .pure) _
  rintro d ⟨rfl, h⟩
  exact congrArg (· + 1) h

theorem nextBlock_allocs : Allocs nextBlock 0 := fun _ =>
  nextBlock_spec.post fun _ _ ⟨_, h, _, hd⟩ => hd ▸ h

theorem takeSlot_allocs (din : Dinode) (k : Fin (ndirect + 1)) : Allocs (takeSlot din k) 0 :=
  .ite (nextBlock_allocs.bind fun _ => .pure) .pure

theorem appendBlock_allocs (din : Dinode) (fbn : Nat) : Allocs (appendBlock din fbn) 0 := by
  unfold appendBlock
  split
  · exact (takeSlot_allocs _ _).bind fun _ => .pure
  · refine (takeSlot_allocs _ _).bind fun _ => (rsect_allocs _).bind fun _ => .ite ?_ .pure
    exact nextBlock_allocs.bind fun _ => (wsect_allocs _ _).bind fun _ => .pure

theorem appendLoop_allocs : ∀ turns din off (p : List UInt8), Allocs (appendLoop turns din off p) 0
  | 0, _, _, _ => .pure
  | turns + 1, din, off, p => by
    refine .ite .pure (.ite ((appendBlock_allocs _ _).bind fun ⟨din', x⟩ => ?_) .throw)
    exact (rsect_allocs _).bind fun _ => (wsect_allocs _ _).bind fun _ =>
      appendLoop_allocs turns _ _ _

theorem iappend_allocs (i : Nat) (p : List UInt8) : Allocs (iappend i p) 0 :=
  (rinode_allocs _).bind fun _ => (appendLoop_allocs _ _ _ _).bind fun ⟨_, _⟩ => winode_allocs _ _

theorem addFile_allocs (f : Source) : Allocs (addFile f) 1 := by
  refine .ite .throw ((ialloc_allocs _).seq (m := 0) fun inum => (iappend_allocs _ _).bind
    fun _ => ?_)
  have := Allocs.forM (iappend_allocs inum) f.chunks
  rwa [Nat.mul_zero] at this

theorem zeroSects_allocs (n : Nat) : Allocs (zeroSects n) 0 := by
  unfold zeroSects
  have := Allocs.forM (fun i => wsect_allocs i fun _ => 0) (List.range n)
  rwa [Nat.mul_zero] at this

theorem main_allocs (files : List Source) : Allocs (main files) (1 + files.length) := by
  have hfiles : Allocs (files.forM addFile) files.length := by
    have := Allocs.forM addFile_allocs files
    rwa [Nat.mul_one] at this
  have hend : ∀ rootino, Allocs (do
      fixRoot rootino
      let d ← get
      balloc d.freeblock) 0 := fun _ =>
    Allocs.bind ((rinode_allocs _).bind fun _ => winode_allocs _ _) fun _ =>
      .bind (fun _ => .get fun _ h => h) fun _ => .ite (wsect_allocs _ _) .throw
  refine (zeroSects_allocs _).bind fun _ => (wsect_allocs _ _).bind fun _ =>
    (ialloc_allocs _).seq fun _ => .ite ?_ .throw
  exact (iappend_allocs _ _).bind fun _ => (iappend_allocs _ _).bind fun _ =>
    hfiles.seq fun _ => hend _

theorem mkfs_freeinode {files : List Source} {d : Disk} (h : mkfs files = some d) :
    d.freeinode = files.length + 2 := by
  unfold mkfs at h
  split at h
  · next hrun =>
    cases h
    have := (main_allocs files 1).ok rfl hrun
    omega
  · cases h

/-! ## The entries of the root directory -/

theorem readRange_getD (l : List UInt8) {off m : Nat} (h : off + m ≤ l.length) :
    readRange (fun x => l.getD x 0) off m = (l.drop off).take m := by
  refine List.ext_getElem (by simp; omega) fun k h1 h2 => ?_
  simp only [readRange_length] at h1
  simp [readRange, List.getD_eq_getElem?_getD,
    List.getElem?_eq_getElem (show off + k < l.length by omega)]

section
variable {files : List Source} {d : Disk}

theorem entries_inum {de : Dirent} (hm : de ∈ entries files) : 0 < de.inum ∧
    de.inum < files.length + 2 := by
  rcases List.mem_cons.1 hm with rfl | hm
  · exact ⟨by decide, Nat.le_add_left _ _⟩
  rcases List.mem_cons.1 hm with rfl | hm
  · exact ⟨by decide, Nat.le_add_left _ _⟩
  obtain ⟨i, hi, rfl⟩ := List.mem_mapIdx.1 hm
  exact ⟨Nat.succ_pos _, Nat.add_lt_add_right hi 2⟩

theorem Holds.dirent {v : Vol} (h : Holds v (files.length + 2) (contents files))
    (hn : files.length ≤ 198) {j : Nat} (hj : j < (entries files).length) :
    v.dirent rootIno j = (entries files)[j] := by
  have hlen := root_length files
  rw [entries_length] at hj
  have hread : readRange (v.byte rootIno) (deSize * j) deSize =
    Dirent.bytes (entries files)[j] := by
    rw [funext (h.byte rootIno (by decide) (by simp only [rootIno]; omega)), readRange_getD]
    · exact take_drop_flatMap Dirent.bytes (entries files) j _ fun _ => bytes_length
    · rw [hlen, ← Nat.mul_add_one]
      exact Nat.mul_le_mul_left _ (by omega)
  rw [Vol.dirent, hread]
  rw [Dirent.ofBytes_bytes,
    Nat.mod_eq_of_lt ((entries_inum (List.getElem_mem _)).2.trans_le (by omega))]

theorem Holds.dirent_zero {v : Vol} (h : Holds v (files.length + 2) (contents files)) {j : Nat}
    (hj : files.length + 2 ≤ j) : (v.dirent rootIno j).inum = 0 := by
  have hlen := root_length files
  have hz : ∀ k, v.byte rootIno (deSize * j + k) = 0 := fun k => by
    rw [h.byte rootIno (by decide) (by simp only [rootIno]; omega)]
    refine List.getD_eq_default _ _ (hlen.trans_le ?_)
    exact (Nat.mul_le_mul_left _ hj).trans (Nat.le_add_right _ _)
  unfold Vol.dirent Dirent.ofBytes
  rw [show readRange (v.byte rootIno) (deSize * j) deSize = List.replicate deSize 0 from ?_]
  · rfl
  · refine List.ext_getElem (by simp) fun k h1 h2 => ?_
    simp [readRange, hz]

/-! ## The finished image -/

section
variable (h : Done files d)
include h

theorem Done.nd : (kernelVol d.sect).nd = d.nd := by
  funext i
  show (if i < (readsb d.sect).ninodes then dinodeAt d.sect (readsb d.sect) i else Dinode.zero) = _
  rw [h.super]
  rfl

theorem Done.blk : (kernelVol d.sect).blk = d.blk := by
  funext b
  show (if (readsb d.sect).Data b then d.sect b else fun _ => 0) = _
  rw [h.super]
  rfl

theorem Done.bm {b : Nat} (hb : b < sb.size) :
    (kernelVol d.sect).bm b = d.vol.bm b := by
  show bitAt d.sect (readsb d.sect) b = _
  rw [h.super]
  exact h.bits b (hb.trans (by decide))

theorem Done.kernel :
    Holds (kernelVol d.sect) (files.length + 2) (contents files) := by
  have haddr : ∀ i k, (kernelVol d.sect).addr i k = d.vol.addr i k := fun i =>
    Vol.addr_congr (by rw [h.nd]; rfl) fun _ => by rw [h.blk]; rfl
  refine ⟨?_, fun i => ?_, fun i h0 hi x => ?_, fun i h0 hi => ?_⟩
  · refine Ledger.congr h.holds.own (fun b => ?_) fun ⟨i, k⟩ => ?_
    · unfold Vol.Used
      exact and_congr_left fun hb => by rw [h.bm hb]
    · exact Vol.has_congr (by unfold Vol.Live; rw [h.nd]; rfl) (haddr i k)
  · rw [h.nd]
    exact h.holds.type i
  · rw [← h.holds.byte i h0 hi x]
    exact Vol.byte_congr (haddr i _) fun _ _ => by rw [h.blk]; rfl
  · have ht := h.holds.tight i h0 hi
    exact ⟨fun bn hbn => by rw [haddr]; exact ht.slot bn hbn, by rw [haddr]; exact ht.indirect⟩

theorem Done.root_sized_iff :
    (∀ bn, bn * bsize < ((kernelVol d.sect).nd rootIno).size →
      bn < maxFile ∧ (kernelVol d.sect).addr rootIno (blockSlot bn) ≠ 0) ↔
      (files.length + 2) % 32 ≠ 0 := by
  have ht := h.kernel.tight rootIno (by decide) (by simp only [rootIno]; omega)
  have hlen : (contents files rootIno).length = deSize * (files.length + 2) := root_length files
  have hle := h.le
  rw [h.nd, h.rootSize]
  rw [hlen] at ht ⊢
  simp only [deSize, dirsiz, ninodes] at *
  constructor
  · intro hall hmod
    obtain ⟨h1, h2⟩ := hall ((2 + 14) * (files.length + 2) / bsize) (by simp only [bsize]; omega)
    have h3 := (ht.slot _ h1).1 h2
    simp only [bsize] at h3
    omega
  · intro hmod bn hbn
    have hlt : bn < maxFile := by
      simp only [maxFile, ndirect, nindirect, bsize] at *
      omega
    refine ⟨hlt, (ht.slot bn hlt).2 ?_⟩
    simp only [bsize] at *
    omega

theorem Done.file_sized {i : Nat} (h1 : 1 < i) (hi : i < files.length + 2) (bn : Nat)
    (hbn : bn * bsize < ((kernelVol d.sect).nd i).size) :
    bn < maxFile ∧ (kernelVol d.sect).addr i (blockSlot bn) ≠ 0 := by
  have ht := h.kernel.tight i (by omega) hi
  have hsmall := h.small i (by omega) hi
  rw [h.nd, h.size i h1 hi] at hbn
  have hlt : bn < maxFile := Nat.lt_of_mul_lt_mul_right (hbn.trans_le hsmall)
  exact ⟨hlt, (ht.slot bn hlt).2 hbn⟩

theorem Done.names_iff :
    (∀ j j', j < j' → deSize * (j' + 1) ≤ ((kernelVol d.sect).nd rootIno).size →
      ((kernelVol d.sect).dirent rootIno j).inum ≠ 0 →
      ((kernelVol d.sect).dirent rootIno j').inum ≠ 0 →
      ((kernelVol d.sect).dirent rootIno j).name ≠ ((kernelVol d.sect).dirent rootIno j').name) ↔
      (storedNames files).Nodup := by
  have hn : files.length ≤ 198 := by
    have := h.le
    simp only [ninodes] at this
    omega
  have hrec := fun j (hj : j < (entries files).length) => h.kernel.dirent hn hj
  have hpos := fun j (hj : j < (entries files).length) =>
    (entries_inum (List.getElem_mem hj)).1.ne'
  have hsize : ∀ j, j < (entries files).length →
      deSize * (j + 1) ≤ ((kernelVol d.sect).nd rootIno).size := fun j hj => by
    have hlen : (contents files rootIno).length = deSize * (files.length + 2) := root_length files
    rw [entries_length] at hj
    rw [h.nd, h.rootSize, hlen]
    simp only [deSize, dirsiz, bsize]
    omega
  rw [← entries_names, List.Nodup, List.pairwise_map, List.pairwise_iff_getElem]
  constructor
  · intro hall j j' hj hj' hlt
    have := hall j j' hlt (hsize j' hj')
    rw [hrec j hj, hrec j' hj'] at this
    exact this (hpos j hj) (hpos j' hj')
  · intro hall j j' hlt _ _ h0'
    have hj' : j' < (entries files).length := by
      rw [entries_length]
      by_contra hge
      exact h0' (h.kernel.dirent_zero (Nat.le_of_not_lt hge))
    rw [hrec j (hlt.trans hj'), hrec j' hj']
    exact hall j j' (hlt.trans hj') hj' hlt

theorem Done.sound_iff :
    Sound d ↔ (files.length + 2) % 32 ≠ 0 ∧ (storedNames files).Nodup := by
  constructor
  · intro hs
    refine ⟨h.root_sized_iff.1 (hs.sized rootIno ?_), h.names_iff.1 hs.names⟩
    exact h.kernel.live h.le (by decide) (by simp only [rootIno]; omega)
  · rintro ⟨hround, hnames⟩
    have hown := h.kernel.own
    refine ⟨h.super, fun i h0 hi => ?_, ⟨h.hi, fun k b hb => ?_⟩, fun b hb => ?_, fun i hl => ?_,
      h.names_iff.2 hnames⟩
    · have hlt : i < sb.ninodes := (h.inode ▸ hi).trans_le h.le
      exact ⟨hlt, Nat.le_add_left _ _, iblock_lt hlt⟩
    · exact (Ledger.held hown k b hb).1.2
    · constructor
      · intro hbm
        exact (Ledger.cover hown b ⟨hbm, hb⟩).imp_left And.left
      · rintro (hm | ⟨k, hk⟩)
        · exact (Ledger.reserve hown b ⟨hm, hb⟩).1
        · exact (Ledger.held hown k b hk).1.1
    · have hi : i < files.length + 2 := Nat.lt_of_not_le fun hge => h.kernel.not_live hge hl
      have h0 : i ≠ 0 := by
        rintro rfl
        refine hl.2 ?_
        rw [h.kernel.type, typeOf, if_pos (.inl rfl)]
      by_cases h1 : i = rootIno
      · subst h1
        exact h.root_sized_iff.2 hround
      · exact h.file_sized (by simp only [rootIno] at h1; omega) hi

end

end

/-- **The image is sound** exactly for the suitable lists of files. -/
theorem mkfs_sound_iff {files : List Source} {d : Disk} (h : mkfs files = some d) :
    Sound d ↔ Suitable files := by
  by_cases hn : files.length ≤ 198
  · rw [(mkfs_done hn h).sound_iff]
    exact ⟨fun hs => ⟨hn, hs.1, hs.2⟩, fun hs => ⟨hs.round, hs.names⟩⟩
  · refine ⟨fun hs => absurd ?_ (Nat.lt_irrefl ninodes), fun hs => absurd hs.count hn⟩
    -- inode number 200 is given out
    refine (hs.inode ninodes (by decide) ?_).1
    rw [mkfs_freeinode h]
    simp only [ninodes]
    omega

def catFile : Source := ⟨[95, 99, 97, 116], [[1, 2, 3]], by decide +kernel⟩

theorem fits_catFile : Fits [catFile] := ⟨by decide, by decide, by decide⟩

theorem mkfs_sound_catFile : ∃ d, mkfs [catFile] = some d ∧ Sound d := by
  obtain ⟨d, h, -⟩ := mkfs_of_fits (by decide) fits_catFile
  exact ⟨d, h, (mkfs_sound_iff h).2 ⟨by decide, by decide, by decide⟩⟩

def thirtyFiles : List Source :=
  (List.finRange 30).map fun i : Fin 30 =>
    ⟨[UInt8.ofNat (97 + i.val)], [], by revert i; decide +kernel⟩

/-- The root directory has 32 entries in one block, and a size of two blocks. -/
theorem mkfs_thirtyFiles_not_sound : ∃ d, mkfs thirtyFiles = some d ∧ ¬ Sound d := by
  have hfit : Fits thirtyFiles := ⟨by decide, by decide, by decide +kernel⟩
  obtain ⟨d, h, hd⟩ := mkfs_of_fits (by decide) hfit
  exact ⟨d, h, fun hs => (hd.sound_iff.1 hs).1 (by decide)⟩

end Xv6.Fs.Mkfs
