import Xv6.Mkfs.Proof.Build
import Xv6.Fs.Proof.Names

/-!
# The image of a list of files

`contents files` is what the inodes are to hold: the root directory its entries (`entries`), inode
`i + 2` the bytes of file `i`. With at most 198 files `main` leaves an image that holds them
(`Done`) or stops, and it stops only if the files do not fit (`main_spec`).
-/

namespace Xv6.Fs.Mkfs

open Lib Function

variable {files : List Source} {E : String → Disk → Prop} {d : Disk}

/-- The entries of the root directory. -/
def entries (files : List Source) : List Dirent :=
  ⟨rootIno, strncpy dot dirsiz⟩ :: ⟨rootIno, strncpy dotdot dirsiz⟩ ::
    files.mapIdx fun i f => ⟨i + 2, strncpy f.target dirsiz⟩

/-- What inode `i` holds. -/
def contents (files : List Source) : Nat → List UInt8
  | 0 => []
  | 1 => (entries files).flatMap Dirent.bytes
  | i + 2 => (files[i]?.map Source.data).getD []

/-- The files have names without `/`, are not too long, and their blocks are below `FSSIZE`. -/
structure Fits (files : List Source) : Prop where
  slash : ∀ f ∈ files, slash ∉ f.name
  size : ∀ f ∈ files, f.data.length ≤ maxFile * bsize
  room : total (contents files) (files.length + 2) ≤ fsSize

theorem entries_append (l l' : List Source) :
    entries (l ++ l') = entries l ++
      l'.mapIdx fun i f => ⟨i + l.length + 2, strncpy f.target dirsiz⟩ := by
  unfold entries
  rw [List.mapIdx_append]
  rfl

theorem name_length {de : Dirent} (h : de ∈ entries files) :
    de.name.length = dirsiz := by
  rcases List.mem_cons.1 h with rfl | h
  · exact strncpy_length ..
  rcases List.mem_cons.1 h with rfl | h
  · exact strncpy_length ..
  obtain ⟨i, hi, rfl⟩ := List.mem_mapIdx.1 h
  exact strncpy_length ..

theorem bytes_length {de : Dirent} (h : de ∈ entries files) :
    de.bytes.length = deSize := by
  rw [Dirent.bytes, List.length_append, leBytes_length, name_length h]

theorem entries_length (files : List Source) : (entries files).length = files.length + 2 := by
  simp [entries]

theorem root_length (files : List Source) :
    (contents files 1).length = deSize * (files.length + 2) := by
  show ((entries files).flatMap Dirent.bytes).length = _
  rw [List.length_flatMap, List.map_congr_left fun de h => bytes_length h, List.map_const',
    List.sum_replicate_nat, entries_length, Nat.mul_comm]

theorem contents_length_le (l l' : List Source) (i : Nat) :
    (contents l i).length ≤ (contents (l ++ l') i).length := by
  match i with
  | 0 => exact Nat.le_refl _
  | 1 =>
    rw [root_length, root_length, List.length_append]
    exact Nat.mul_le_mul_left _ (by omega)
  | i + 2 =>
    show ((l[i]?.map Source.data).getD []).length ≤ (((l ++ l')[i]?.map Source.data).getD []).length
    by_cases hi : i < l.length
    · rw [List.getElem?_append_left hi]
    · rw [List.getElem?_eq_none (by omega)]
      exact Nat.zero_le _

theorem contents_concat (l : List Source) (f : Source) :
    contents (l ++ [f]) = update
      (update (contents l) 1
        (contents l 1 ++ Dirent.bytes ⟨l.length + 2, strncpy f.target dirsiz⟩))
      (l.length + 2) f.data := by
  funext i
  match i with
  | 0 => rw [update_of_ne (by omega), update_of_ne (by omega)]; rfl
  | 1 =>
    rw [update_of_ne (by omega), update_self]
    show (entries (l ++ [f])).flatMap Dirent.bytes = (entries l).flatMap Dirent.bytes ++ _
    rw [entries_append, List.flatMap_append]
    simp
  | i + 2 =>
    by_cases hi : i = l.length
    · subst hi
      rw [update_self]
      simp [contents]
    · rw [update_of_ne (by omega), update_of_ne (by omega)]
      show ((l ++ [f])[i]?.map Source.data).getD [] = (l[i]?.map Source.data).getD []
      by_cases hlt : i < l.length
      · rw [List.getElem?_append_left hlt]
      · rw [List.getElem?_eq_none (by simp; omega), List.getElem?_eq_none (by omega)]

theorem contents_new (l : List Source) : contents l (l.length + 2) = [] := by
  simp [contents]

/-! ## The loop over the files -/

section
variable {φ : Prop}

theorem chunks_spec {c : Nat → List UInt8} {m inum : Nat} (h0 : 0 < inum) (hi : inum < m)
    (chunks : List (List UInt8)) (hc : c inum = [])
    (hφ : maxFile * bsize < chunks.flatten.length ∨
      fsSize < total (update c inum chunks.flatten) m → φ) :
    Triple (Built c m) (chunks.forM (iappend inum))
      (fun _ => Built (update c inum chunks.flatten) m) (fun _ _ => φ) := by
  have hforM := Triple.forM (g := iappend inum) (E := fun _ _ => φ)
    (I := fun l d => ∃ done, done ++ l.flatten = chunks.flatten ∧
      Built (update c inum done) m d) ?_ chunks
  · refine hforM.conseq (fun d h => ⟨[], rfl, ?_⟩) (fun _ d h => ?_) fun _ _ => id
    · rwa [← hc, update_eq_self]
    · obtain ⟨done, hdone, h⟩ := h
      rw [← hdone, List.flatten_nil, List.append_nil]
      exact h
  · intro p l
    refine .exists_pre fun done => .of_pre (fun _ h => h.1) fun hdone => .pre ?_ fun _ h => h.2
    have hself : update c inum done inum = done := update_self ..
    have hle : (done ++ p).length ≤ chunks.flatten.length := by
      rw [← hdone, List.flatten_cons, ← List.append_assoc]
      exact (List.prefix_append _ _).length_le
    have hspec := iappend_spec (c := update c inum done) (φ := φ) h0 hi p ?_
    · rw [hself, update_idem] at hspec
      refine hspec.post fun _ d h => ⟨done ++ p, ?_, h⟩
      rw [← hdone, List.flatten_cons, List.append_assoc]
    · rw [hself, update_idem]
      rintro (h | h)
      · exact hφ (.inl (h.trans_le hle))
      · refine hφ (.inr (h.trans_le (total_mono (fun i => ?_) (Nat.le_refl m))))
        by_cases hii : i = inum
        · subst hii
          simpa using hle
        · simp [hii]

theorem addFile_spec {done : List Source} {f : Source} (hn : done.length < 198)
    (hφ : slash ∈ f.name ∨ maxFile * bsize < f.data.length ∨
      fsSize < total (contents (done ++ [f])) (done.length + 3) → φ) :
    Triple (Built (contents done) (done.length + 2)) (addFile f)
      (fun _ => Built (contents (done ++ [f])) (done.length + 3)) (fun _ _ => φ) := by
  refine .ite (fun hs => .throw fun _ _ => hφ (.inl hs)) fun _ => ?_
  refine (ialloc_spec (by simp only [ninodes]; omega) (contents_new done)
    (if_neg (by simp only [rootIno]; omega)).symm).bind fun inum => .of_pre (fun _ h => h.1) ?_
  rintro rfl
  rw [contents_concat] at hφ ⊢
  generalize hroot : contents done 1 ++ Dirent.bytes ⟨done.length + 2,
    strncpy f.target dirsiz⟩ = root at hφ ⊢
  have hlen : root.length = deSize * (done.length + 3) := by
    rw [← hroot, List.length_append, root_length, Dirent.bytes, List.length_append, leBytes_length,
      strncpy_length]
    simp only [deSize, dirsiz]
    omega
  have hnew : update (contents done) 1 root (done.length + 2) = [] := by
    rw [update_of_ne (by omega), contents_new]
  refine .bind (.pre (Q := fun _ => Built (update (contents done) 1 root) (done.length + 3))
    ?_ fun _ h => h.2) fun _ => chunks_spec (by omega) (by omega) f.chunks hnew fun h => hφ (.inr h)
  have hspec := @iappend_spec (contents done) (done.length + 3) 1 φ
    (by decide) (by omega) (Dirent.bytes ⟨done.length + 2, strncpy f.target dirsiz⟩) ?_
  · rwa [hroot] at hspec
  · rw [hroot]
    rintro (h | h)
    · simp only [maxFile, ndirect, nindirect, bsize, deSize, dirsiz] at hlen h
      omega
    · refine hφ (.inr (.inr (h.trans_le (total_mono (fun i => ?_) (Nat.le_refl _)))))
      by_cases hii : i = done.length + 2
      · rw [hii, hnew]
        exact Nat.zero_le _
      · rw [update_of_ne hii]

theorem files_spec (hn : files.length ≤ 198) :
    Triple (Built (contents []) 2) (files.forM addFile)
      (fun _ => Built (contents files) (files.length + 2)) (fun _ _ => ¬ Fits files) := by
  have hforM := Triple.forM (g := addFile) (E := fun _ _ => ¬ Fits files)
    (I := fun l d => ∃ done, done ++ l = files ∧ Built (contents done) (done.length + 2) d) ?_ files
  · refine hforM.conseq (fun d h => ⟨[], rfl, h⟩) (fun _ d h => ?_) fun _ _ => id
    obtain ⟨done, rfl, h⟩ := h
    rwa [List.append_nil]
  · intro f l
    refine .exists_pre fun done => .of_pre (fun _ h => h.1) fun hdone => .pre ?_ fun _ h => h.2
    have hmem : f ∈ files := hdone ▸ by simp
    have hsplit : files = done ++ [f] ++ l := by simp [← hdone]
    have hlen : files.length = done.length + 1 + l.length := by
      rw [hsplit, List.length_append, List.length_append]
      rfl
    refine (addFile_spec (by omega) ?_).post fun _ d h => ⟨done ++ [f], hsplit.symm, ?_⟩
    · rintro (h | h | h) hfit
      · exact hfit.slash f hmem h
      · exact absurd (hfit.size f hmem) (Nat.not_le_of_lt h)
      · have hle : total (contents (done ++ [f])) (done.length + 3) ≤
            total (contents files) (files.length + 2) := by
          rw [hsplit]
          exact total_mono (contents_length_le _ _) (by simp)
        exact absurd (hle.trans hfit.room) (Nat.not_le_of_lt h)
    · rwa [List.length_append]

end

/-! ## Before and after the loop -/

theorem zero_spec (m : Nat) :
    Triple (fun d => d = start) (zeroSects m)
      (fun _ d => d = { start with len := m }) E := by
  unfold zeroSects
  have hforM := Triple.forM (g := fun i => wsect i fun _ => 0) (E := E)
    (I := fun l d => ∃ n, l = List.range' n (m - n) ∧ n ≤ m ∧
      d = { start with len := n }) ?_ (List.range m)
  · refine hforM.conseq (fun d h => ⟨0, List.range_eq_range', Nat.zero_le _, h⟩) ?_ fun _ _ => id
    rintro _ d ⟨n, hl, hn, hd⟩
    have h0 := List.range'_eq_nil_iff.1 hl.symm
    obtain rfl : n = m := by omega
    exact hd
  · intro i l
    refine .modify ?_
    rintro d ⟨n, hl, hn, rfl⟩
    obtain ⟨rfl, hpos, rfl⟩ := List.range'_eq_cons_iff.1 hl.symm
    refine ⟨n + 1, by rw [Nat.sub_sub], by omega, ?_⟩
    have hz : update start.sect n (fun _ => 0) = start.sect := update_eq_self ..
    show { start with
      sect := update start.sect n (fun _ => 0), len := max n (n + 1) : Disk } = _
    rw [hz, Nat.max_eq_right (Nat.le_succ n)]

theorem dinodeAt_zero {x : Sectors} {i : Nat} (h : x (sb.iblock i) = fun _ => 0) :
    (dinodeAt x sb i).type = none := by
  unfold dinodeAt
  rw [h]
  rfl

theorem built_start (d : Disk) (hd : d = { start with
    sect := update start.sect 1 (Block.write (fun _ => 0) 0 sbBytes), len := fsSize }) :
    Built (fun _ => []) 1 d := by
  have hsect : ∀ b, b ≠ 1 → d.sect b = fun _ => 0 := fun b hb => by
    rw [hd]
    exact update_of_ne hb _ _
  have hfb : d.freeblock = nmeta := by rw [hd]; rfl
  have hnone : ∀ i, (d.nd i).type = none := fun i => by
    unfold Disk.nd
    split
    · next hi => exact dinodeAt_zero (hsect _ (iblock_bounds hi).1.ne')
    · rfl
  have hlive : ∀ i, ¬ d.vol.Live sb i := fun i h => h.2 (hnone i)
  have hhas : ∀ h, d.vol.has sb h = none := fun ⟨i, k⟩ => Vol.has_of_not_live (hlive i)
  refine ⟨⟨by rw [hd], hfb.ge, by rw [hfb]; decide, fun b hb => hsect b ?_, ?_⟩, by rw [hd]; rfl,
    by decide, by decide, ⟨⟨?_, ?_, ?_, ?_⟩, fun i => ?_, ?_, ?_⟩, ?_, ?_, ?_⟩
  · rw [hfb] at hb
    exact ((show 1 < nmeta by decide).trans_le hb).ne'
  · rw [hd]
    exact update_self (1 : Nat) _ start.sect
  · intro h b hb
    rw [hhas] at hb
    cases hb
  · intro h h' b hb
    rw [hhas] at hb
    cases hb
  · rintro b ⟨hb, hs⟩
    have hlt : b < d.freeblock := of_decide_eq_true hb
    refine .inl ⟨Classical.not_not.1 fun hm => ?_, hs⟩
    exact absurd (data_iff.1 ⟨hm, hs⟩).1 (Nat.not_le_of_lt (hfb ▸ hlt))
  · rintro b ⟨hm, hs⟩
    refine ⟨decide_eq_true ?_, hs⟩
    rw [hfb]
    exact Nat.lt_of_not_le fun hle => (data_iff.2 ⟨hle, hs⟩).1 hm
  · rw [typeOf, if_pos (by omega)]
    exact hnone i
  · intros
    omega
  · intros
    omega
  · intros
    omega
  · intros
    omega
  · exact hfb

/-- The image that `main` leaves. -/
structure Done (files : List Source) (d : Disk) : Prop where
  super : readsb d.sect = sb
  bits : ∀ b < bsize * 8, bitAt d.sect sb b = decide (b < d.freeblock)
  hi : d.freeblock ≤ fsSize
  inode : d.freeinode = files.length + 2
  le : files.length + 2 ≤ ninodes
  holds : Holds d.vol (files.length + 2) (contents files)
  rootSize : (d.nd rootIno).size = ((contents files rootIno).length / bsize + 1) * bsize
  size : ∀ i, 1 < i → i < files.length + 2 → (d.nd i).size = (contents files i).length
  small : ∀ i, 0 < i → i < files.length + 2 → (contents files i).length ≤ maxFile * bsize

/-- The size of the root at the end. -/
def rounded (d : Dinode) : Dinode := { d with size := (d.size / bsize + 1) * bsize }

theorem fixRoot_spec (hr : Room d) (hs : (rounded (d.nd rootIno)).Small) :
    Triple (fun s => s = d) (fixRoot rootIno)
    (fun _ => Winode rootIno (rounded (d.nd rootIno)) d) E := by
  have hlt : rootIno < sb.ninodes := by decide
  refine (rinode_spec hr hlt).bind fun din => .of_pre (fun _ h => h.2) ?_
  rintro rfl
  exact (winode_spec hr hlt hs).pre fun _ h => h.1

theorem balloc_spec (hr : Room d) :
    Triple (fun s => s = d) (balloc d.freeblock) (fun _ d' =>
      d'.vol = d.vol ∧ d'.freeblock = d.freeblock ∧ d'.freeinode = d.freeinode ∧
      d'.sect 1 = d.sect 1 ∧ d'.sect sb.bmapstart = bitmapBlock d.freeblock) E := by
  have hused : d.freeblock < bsize * 8 := hr.hi.trans_lt (by decide)
  have hbm : ¬ sb.Data sb.bmapstart := fun hd => absurd (data_iff.1 hd).1 (by decide)
  unfold balloc
  rw [if_pos hused]
  refine .modify ?_
  rintro _ rfl
  rename Disk => d
  refine ⟨?_, rfl, rfl, ?_, ?_⟩
  · unfold Disk.vol
    congr 1
    · funext i
      unfold Disk.nd
      split
      · next hi => exact dinodeAt_of_ne (iblock_lt hi).ne
      · rfl
    · funext b
      unfold Disk.blk
      split
      · next hb =>
        have hne : b ≠ sb.bmapstart := fun heq => hbm (heq ▸ hb)
        exact update_of_ne hne _ _
      · rfl
  · dsimp only
    rw [update_of_ne (by decide)]
  · dsimp only
    rw [update_self]

theorem finish_spec :
    Triple (Built (contents files) (files.length + 2))
      (do
        fixRoot rootIno
        let d ← get
        balloc d.freeblock) (fun _ => Done files) E := by
  refine .of_state fun d h => ?_
  have h1 : rootIno < files.length + 2 := by simp only [rootIno]; omega
  have hlive := h.holds.live h.le (show 0 < rootIno by decide) h1
  have hlen := h.small rootIno (by decide) h1
  have hsize := h.size rootIno (by decide) h1
  have hsmall : (rounded (d.nd rootIno)).Small := by
    refine ⟨?_, fun k => addrs_lt h.holds.own hlive k⟩
    show ((d.nd rootIno).size / bsize + 1) * bsize < 2 ^ 32
    rw [hsize]
    simp only [maxFile, ndirect, nindirect, bsize] at *
    omega
  refine (fixRoot_spec h.room hsmall).bind fun _ => .of_state fun d₁ hw =>
    .bind (Q := fun a s => s = d₁ ∧ a = d₁) (.get fun _ h => ⟨h, h⟩) fun a =>
      .of_pre (fun _ h => h.2) ?_
  rintro rfl
  refine ((balloc_spec hw.room).pre fun _ h => h.1).post ?_
  rintro _ d₂ ⟨hvol, hfb, hfi, hsup, hmap⟩
  have hnd : d₂.nd = update d.nd rootIno (rounded (d.nd rootIno)) :=
    (congrArg Vol.nd hvol).trans hw.nd
  have halike : Vol.Alike d.vol d₂.vol := by
    rw [hvol, hw.vol]
    refine ⟨rfl, rfl, fun j => ?_⟩
    by_cases hj : j = rootIno
    · subst hj
      simp only [update_self]
      exact ⟨rfl, rfl⟩
    · simp only [update_of_ne hj]
      exact ⟨rfl, rfl⟩
  have hupd : update (contents files) rootIno (contents files rootIno ++ []) =
      contents files := by
    rw [List.append_nil, update_eq_self]
  refine ⟨readsb_super (hsup.trans hw.room.super), fun b hb => ?_, hfb ▸ hw.room.hi,
    hfi.trans (hw.inode.trans h.inode), h.le, ?_, ?_, fun i hi him => ?_, h.small⟩
  · rw [hfb]
    exact bitAt_bitmapBlock hmap (hw.room.hi.trans (by decide)) hb
  · have happ : Appended rootIno (contents files rootIno).length [] d.vol d.vol :=
      ⟨.nil h.holds.own, h.holds.tight rootIno (by decide) h1, .inl rfl, fun _ _ _ _ => rfl⟩
    have := h.holds.appended h.le (by decide) h1 happ halike
    rwa [hupd] at this
  · rw [hnd, update_self]
    show ((d.nd rootIno).size / bsize + 1) * bsize = _
    rw [hsize]
  · rw [hnd, update_of_ne (by simp only [rootIno]; omega)]
    exact h.size i (by omega) him

/-- **With at most 198 files** `mkfs` finishes the image, or stops because the files do not fit. -/
theorem main_spec (hn : files.length ≤ 198) :
    Triple (fun d => d = start) (main files) (fun _ => Done files) (fun _ _ => ¬ Fits files) := by
  unfold main
  refine (zero_spec fsSize).bind fun _ => .bind (Q := fun _ => Built (fun _ => []) 1)
    (.modify fun d h => built_start _ ?_) fun _ => ?_
  · rw [h]
    rfl
  refine (ialloc_spec (by decide) rfl rfl).bind fun r => .of_pre (fun _ h => h.1) ?_
  rintro rfl
  refine .pre ?_ fun _ h => h.2
  rw [if_pos rfl]
  have hempty : ∀ (c : Nat → List UInt8) p, (c 1 ++ p).length ≤ 32 →
      Triple (Built c 2) (iappend 1 p) (fun _ => Built (update c 1 (c 1 ++ p)) 2)
        (fun _ _ => ¬ Fits files) := fun c p hp => by
    refine iappend_spec (by decide) (by decide) p ?_
    rintro (h | h)
    · simp only [maxFile, ndirect, nindirect, bsize] at h
      omega
    · have hsum : total (update c 1 (c 1 ++ p)) 2 = nmeta + blocks (c 1 ++ p).length := by
        simp [total]
      have hb : blocks (c 1 ++ p).length ≤ 1 := (blocks_mono hp).trans (by decide)
      have : nmeta + 1 ≤ fsSize := by decide
      omega
  refine (hempty _ _ (by decide)).bind fun _ => (hempty _ _ (by decide)).bind fun _ =>
    .bind ((files_spec hn).pre fun d h => ?_) fun _ => finish_spec
  have heq : contents [] = update (update (fun _ => []) 1
      ([] ++ Dirent.bytes ⟨1, strncpy dot dirsiz⟩)) 1
        (update (fun _ => []) 1 ([] ++ Dirent.bytes ⟨1, strncpy dot dirsiz⟩) 1 ++
          Dirent.bytes ⟨1, strncpy dotdot dirsiz⟩) := by
    funext i
    match i with
    | 0 | 1 => rfl
    | i + 2 => simp [contents]
  rw [heq]
  exact h

theorem mkfs_done (hn : files.length ≤ 198) (h : mkfs files = some d) : Done files d := by
  unfold mkfs at h
  split at h
  · next hrun =>
    cases h
    exact (main_spec hn).ok rfl hrun
  · cases h

theorem mkfs_of_fits (hn : files.length ≤ 198) (hf : Fits files) :
    ∃ d, mkfs files = some d ∧ Done files d := by
  have h := main_spec hn start rfl
  unfold mkfs
  split at h
  · next hrun =>
    rw [hrun]
    exact ⟨_, rfl, h⟩
  · exact absurd hf h

end Xv6.Fs.Mkfs
