import Xv6.Fs.Proof.FileBytes
import Xv6.Fs.Proof.Makers
import Xv6.Fs.Proof.Names
import Xv6.Fs.Proof.RefCounts

/-!
# Blocks have one owner

`VolInv` along runs of system calls: every call that returns leaves the blocks owned as they should
be, and no call frees a block that is free. If also no inode number in a directory is too large, no
call leaves the disk areas that the model holds.
-/

namespace Xv6.Fs

open Lib

section
variable {c : Ctx} {ρ : Prop} {vs : List (Fin ninode)} {tmp : Multiset (Fin ninode)} {s s' : State}
  {ip dp : Fin ninode}
variable {e : Stop} {inum : Nat} {name : List UInt8}

/-- No block is freed twice; with `ρ` no block out of range is used. -/
def VolStop (ρ : Prop) (e : Stop) (_ : State) : Prop :=
  e ≠ .panic "freeing free block" ∧ (ρ → e ≠ .fault)

theorem VolStop.of_panic {msg : String} (h : msg ≠ "freeing free block") :
    VolStop ρ (.panic msg) s := ⟨fun heq => h (Stop.panic.inj heq), fun _ => nofun⟩

theorem VolStop.of_lock (h : e = .deadlock ∨ e = .waits) : VolStop ρ e s := by
  rcases h with rfl | rfl
  · exact ⟨nofun, fun _ => nofun⟩
  · exact ⟨nofun, fun _ => nofun⟩

theorem VolStop.of_short (h : OutOfBlocks e s) : VolStop ρ e s :=
  h ▸ .of_panic (by decide)

theorem Refs.ready (h : Refs vs tmp s) (hv : VolInv c.sb ρ s) (hip : ip ∈ vs) : Ready c.sb s ip :=
  hv.ready (h.held hip).1 (h.held hip).2

theorem Refs.got (h : Refs vs tmp s) (hv : VolInv c.sb ρ s) (hg : Got s inum ip s')
    (hin : ρ → inum < c.sb.ninodes) : VolInv c.sb ρ s' := hv.got hg h.files hin

theorem Refs.put (h : Refs vs (ip ::ₘ tmp) s) (hv : VolInv c.sb ρ s) (hp : Put c.sb s ip s') :
    VolInv c.sb ρ s' := by
  have hr := h.mem_pos (Multiset.mem_cons_self ip tmp)
  exact hv.put hp hr (h.alone hr) fun h1 f hf => ⟨h.last h1 f hf, h.files f hf⟩

theorem iput_vol :
    Triple (fun s => Refs vs (ip ::ₘ tmp) s ∧ VolInv c.sb ρ s) (iput c ip)
      (fun _ => VolInv c.sb ρ) (VolStop ρ) := by
  refine .of_state fun s ⟨h, hv⟩ => (iput_spec c ip s fun _ =>
    ⟨hv.own, hv.sync ip (h.mem_pos (Multiset.mem_cons_self ip tmp))⟩).conseq (fun _ => id)
      (fun _ _ hp => h.put hv hp.1) ?_
  exact fun _ _ hb => .of_lock hb.1

theorem ilock_vol :
    Triple (fun s => Refs vs tmp s ∧ VolInv c.sb ρ s) (ilock c ip) (fun _ => VolInv c.sb ρ)
      (VolStop ρ) := by
  refine .of_state fun s ⟨h, hv⟩ => ?_
  by_cases hr : 0 < (s.icache ip).ref
  · refine (ilock_spec c ip s (hv.sync ip hr)).conseq (fun _ => id) ?_ ?_
    · rintro _ s' ⟨rfl, -, -, hl⟩
      exact hv.locked c.me hl
    · rintro e s' hstop
      cases hstop with
      | ref _ => exact .of_panic (by decide)
      | held hb => exact .of_lock hb.1
      | range _ hge => exact ⟨nofun, fun hρ => absurd ((hv.range hρ).inum ip hr) hge⟩
      | type _ _ _ => exact .of_panic (by decide)
  · -- the check at the start of `ilock`
    refine .read_bind rfl ?_
    rw [if_pos (by omega)]
    exact .throw fun _ _ => .of_panic (by decide)

theorem VolInv.found (hv : VolInv c.sb ρ s) (h : Refs vs tmp s) (hr : Ready c.sb s dp)
    (hd : (s.icache dp).type = some .dir) {r : Option (Fin ninode × Nat)}
    (hf : Found s dp name r s') : VolInv c.sb ρ s' := by
  cases hf with
  | none _ => exact hv
  | some hj _ _ hg =>
    refine h.got hv hg fun hρ => (hv.range hρ).dirent _ _ hr.live ?_ ?_
    · rw [hr.sync]
      exact hd
    · rw [hr.sync]
      exact hj

theorem LookupStop.volStop (h : LookupStop s dp name e) :
    VolStop ρ e s' := by
  cases h <;> exact .of_panic (by decide)

theorem VolInv.record (hv : VolInv c.sb ρ s) (h : Refs vs tmp s) (hip : dp ∈ vs) {j : Nat}
    {src : List UInt8} (hw : Wrote c.sb dp (deSize * j) src s s') (hlen : src.length = deSize)
    (hoff : deSize * j ≤ (s.icache dp).size) (hmax : deSize * j + src.length ≤ maxFile * bsize)
    (hsrc : ρ → (Dirent.ofBytes src).inum < c.sb.ninodes) : VolInv c.sb ρ s' := by
  have hr := h.ready hv hip
  refine hv.wrote hw hr (h.alone (h.held hip).1) hoff hmax fun hρ hd n hn => ?_
  rw [hw.dirent hlen]
  by_cases hnj : n = j
  · rw [hnj, Function.update_self]
    exact hsrc hρ
  · rw [Function.update_of_ne hnj]
    refine (hv.range hρ).dirent _ n hr.live ?_ ?_
    · rw [hr.sync]
      exact hd
    · -- no other record is new
      rw [hr.sync]
      rw [hlen] at hn
      simp only [deSize, dirsiz] at *
      omega

theorem dirlink_vol {b : Begun} {tf : Multiset (Fin nfile)} {pr pt : Fin nproc → Files}
    (hdp : dp ∈ vs) (hin : ρ → inum < c.sb.ninodes) :
    Triple (Inv (VolInv c.sb ρ) b vs tmp tf pr pt) (dirlink c dp name inum)
      (fun _ => VolInv c.sb ρ) (VolStop ρ) := by
  refine .of_state fun s ⟨href, hv⟩ => ?_
  have h := href.refs
  have hr := h.ready hv hdp
  refine .bind (Q := fun r s' => (Found s dp name r s' ∧ (s.icache dp).type = some .dir) ∧
    RefInv b vs (found r tmp) tf pr pt s') ?_ fun r => ?_
  · refine ((dirlookup_spec hr name).and (dirlookup_refs c dp name)).conseq
      (fun s' hs => ⟨hs, hs ▸ href⟩) (fun _ _ => id) fun _ _ he => he.1.1.volStop
  rcases r with _ | ⟨ip, off⟩
  · refine .of_pre (fun _ hs => hs.1.2) fun hd => .pre (P := fun s' => s' = s) ?_ ?_
    · refine .read_bind rfl ?_
      refine .bind (.conseq (emptyFrom_spec hr hd _ 0 (by omega) nofun nofun) (fun _ => id)
        (fun _ _ => id) ?_) fun off => .of_pre (fun _ h => h.2) ?_
      · rintro e s' ⟨⟨rfl, -⟩, -⟩
        exact .of_panic (by decide)
      rintro ⟨j, rfl, -⟩
      refine .bind (.conseq (hr.writei hv.small _ _)
        (fun _ h => h.1) (fun _ _ => id) fun _ _ => .of_short) fun r => .ite
          (fun _ => .throw fun _ _ => .of_panic (by decide)) fun _ => .pure ?_
      rintro s' (⟨rfl, -⟩ | ⟨hw, -, hoff, hmax⟩)
      · exact hv
      · refine hv.record h hdp hw (Dirent.length_link ..) hoff hmax fun hρ => ?_
        rw [Dirent.ofBytes_bytes]
        exact (Nat.mod_le ..).trans_lt (hin hρ)
    · rintro s' ⟨⟨hf, -⟩, -⟩
      cases hf
      rfl
  · exact .bind (.pre iput_vol fun s' hs => ⟨hs.2.refs, hv.found h hr hs.1.2 hs.1.1⟩) fun _ =>
      .pure fun _ h => h

theorem volLock (c : Ctx) (ρ : Prop) : LockGuard c (VolInv c.sb ρ) (VolStop ρ) where
  panic _ _ h _ := .of_panic fun he => h (by simp [he, inodePanics])
  idup _ _ ip := by
    refine .bind (Q := fun _ => VolInv c.sb ρ) (.modify ?_) fun _ => .pure fun _ h => h
    rintro s ⟨h, hv, hr⟩
    exact h.got hv (.old hr rfl) fun hρ => (hv.range hρ).inum ip hr
  ilock _ _ _ := ilock_vol
  iunlock _ _ ip := by
    refine .of_state fun s ⟨_, hv⟩ => (iunlock_spec c ip s).conseq (fun _ => id) ?_ ?_
    · rintro _ s' ⟨rfl, -, -⟩
      exact hv.setLock none
    · rintro e s' ⟨⟨rfl, -⟩, -⟩
      exact .of_panic (by decide)
  iput _ _ _ := iput_vol

theorem volGuard (c : Ctx) (ρ : Prop) : Guard c ρ (VolInv c.sb ρ) (VolStop ρ) where
  toLockGuard := volLock c ρ
  tables _ _ _ h hf := h.tables hf
  readi _ _ ip off n := .of_state fun s ⟨h, hv⟩ =>
    ((h.ready hv (List.mem_cons_self ..)).readi off n).post fun _ _ hs => hs.1 ▸ hv
  writei _ _ ip src off := by
    refine .of_state fun s ⟨h, hv, hf⟩ => ?_
    have hr := h.ready hv (List.mem_cons_self ..)
    refine (hr.writei hv.small src off).conseq (fun _ => id) ?_ fun _ _ => .of_short
    rintro _ s' (⟨rfl, -⟩ | ⟨hw, -, hoff, hmax⟩)
    · exact hv
    · refine hv.wrote hw hr (h.alone (h.held (List.mem_cons_self ..)).1) hoff hmax fun hρ hd => ?_
      -- a file that is open for writing is not a directory
      obtain ⟨f, hwf, rfl⟩ := hf hρ
      have hplain := ((hv.range hρ).file f hwf).2
      rw [hr.sync] at hplain
      exact absurd hd hplain

theorem volMakers (c : Ctx) (ρ : Prop) (n : Nat) :
    MakerGuard c ρ n (VolInv c.sb ρ) (VolStop ρ) where
  toLockGuard := volLock c ρ
  root _ := by
    refine .of_state fun s ⟨h, hv⟩ => (iget_spec s rootIno).conseq (fun _ => id)
      (fun _ _ hg => h.refs.got hv hg fun hρ => (hv.range hρ).root) ?_
    rintro e s' ⟨rfl, -⟩
    exact .of_panic (by decide)
  dirlookup dp name hdp _ := by
    refine .of_state fun s ⟨h, hv⟩ => ?_
    have hr := h.refs.ready hv hdp
    exact (dirlookup_spec hr name).conseq (fun _ => id) (fun _ _ hf => hv.found h.refs hr hf.2 hf.1)
      fun _ _ he => he.1.volStop
  inum _ _ _ _ h hv hip hρ := (hv.range hρ).inum _ (h.held hip).1
  setFields _ _ ip f hip hf := by
    refine .of_state fun s ⟨h, hv⟩ => ?_
    have hr := h.ready hv hip
    obtain ⟨major, minor, nlink, heq⟩ := hf (s.icache ip)
    refine (setFields_spec c ip f s).conseq (fun _ => id) ?_ ?_
    · rintro _ s' ⟨rfl, -⟩
      exact hv.written hr (h.alone (h.held hip).1) ⟨major, minor, nlink, heq⟩
    · rintro e s' ⟨⟨-, hge⟩, -⟩
      rw [heq] at hge
      exact absurd hr.live.1 hge
  ialloc type _ := by
    refine .of_state fun s ⟨h, hv⟩ => (ialloc_spec type s).conseq (fun _ => id) ?_ ?_
    · rintro ip s' ⟨inum, s₁, hm, hg⟩
      refine (hv.marked hm).got hg (fun f => ?_) fun _ => hm.lt
      rw [hm.core]
      exact h.refs.files f
    · rintro e s' (rfl | rfl)
      · exact .of_panic (by decide)
      · exact .of_panic (by decide)
  dirlink dp name inum hdp _ := dirlink_vol hdp
  isdirempty _ _ dp hdp := by
    refine .of_state fun s ⟨h, hv, hd⟩ =>
      ((isdirempty_spec (h.ready hv hdp) hd).conseq (fun _ => id) (fun _ _ hs => hs.1 ▸ hv) ?_)
    rintro e s' ⟨rfl, -⟩
    exact .of_panic (by decide)
  erase _ _ dp off hdp hoff := by
    obtain ⟨j, rfl⟩ := hoff
    refine .of_state fun s ⟨h, hv⟩ => ?_
    have hr := h.ready hv hdp
    refine (hr.writei hv.small _ _).conseq (fun _ => id) ?_ fun _ _ => .of_short
    rintro _ s' (⟨rfl, -⟩ | ⟨hw, -, hoff, hmax⟩)
    · exact hv
    · refine hv.record h hdp hw List.length_replicate hoff hmax fun hρ => ?_
      rw [show (Dirent.ofBytes (List.replicate deSize 0)).inum = 0 from by decide]
      exact Nat.zero_lt_of_lt (hv.range hρ).root


end

/-! ## Runs -/

/-- Blocks have one owner, as the bitmap says. A holder is a slot of `addrs[]` of an allocated inode
or an entry of its indirect block. -/
structure OneHolder (sb : Superblock) (s : Core) : Prop where
  /-- The bit of a block is set if it is used by the file system itself or has a holder. -/
  bit : ∀ b, b < sb.size → (s.bitmap b = true ↔ sb.Meta b ∨ ∃! h, s.vol.has sb h = some b)
  /-- No block has two holders. -/
  holder : ∀ h h' b, s.vol.has sb h = some b → s.vol.has sb h' = some b → h = h'
  /-- The blocks below the size of an inode are there. -/
  sized : Sized sb s

/-- Blocks are owned as they should be. -/
structure BlocksOk (sb : Superblock) (s : Core) : Prop extends OneHolder sb s where
  /-- Holders hold blocks of the data area. -/
  data : ∀ h b, s.vol.has sb h = some b → sb.Data b

section
variable {sb : Superblock} {ρ : Prop} {s s' : State}

theorem blocksOk_iff {s : Core} : BlocksOk sb s ↔ s.vol.Own sb ∧ Sized sb s := by
  constructor
  · refine fun h => ⟨⟨fun x b hb => ?_, fun x x' b => h.holder x x' b, fun b hb => ?_,
      fun b hb => ?_⟩, h.sized⟩
    · have hd := h.data x b hb
      refine ⟨⟨(h.bit b hd.2).2 (.inr ⟨x, hb, fun x' hb' => h.holder x' x b hb' hb⟩), hd.2⟩, ?_⟩
      exact fun hr => hd.1 hr.1
    · rcases (h.bit b hb.2).1 hb.1 with hm | ⟨x, hx, -⟩
      · exact .inl ⟨hm, hb.2⟩
      · exact .inr ⟨x, hx⟩
    · exact ⟨(h.bit b hb.2).2 (.inl hb.1), hb.2⟩
  · rintro ⟨hown, hsized⟩
    refine ⟨⟨fun b hlt => ⟨fun hb => ?_, ?_⟩, fun x x' b hb hb' => hown.excl hb hb', hsized⟩,
      fun x b hb => ?_⟩
    · rcases hown.cover b ⟨hb, hlt⟩ with hr | ⟨x, hx⟩
      · exact .inl hr.1
      · exact .inr ⟨x, hx, fun x' hx' => hown.excl hx' hx⟩
    · rintro (hm | ⟨x, hx, -⟩)
      · exact (hown.reserve b ⟨hm, hlt⟩).1
      · exact (hown.held x b hx).1.1
    · obtain ⟨hu, hr⟩ := hown.held x b hb
      exact ⟨fun hm => hr ⟨hm, hu.2⟩, hu.2⟩

theorem exec_vol {a : Call} (hr : RefsOk s) (h : VolInv a.ctx.sb ρ s) (ha : a.Enabled s) :
    (∀ r s', a.exec s = .ok r s' → RefsOk s' ∧ VolInv a.ctx.sb ρ s') ∧
      ∀ e s', a.exec s = .error e s' → VolStop ρ e s' := by
  obtain ⟨hok, herr⟩ := (volMakers a.ctx ρ _).exec (volGuard a.ctx ρ)
    (fun _ => id) (Nat.le_refl _) hr ⟨h.small, h.own, h.sized, h.sync, h.range⟩ ha
  exact ⟨fun r s' hx => ⟨(hok r s' hx).1.1, (hok r s' hx).2⟩, fun e s' hx => (herr e s' hx).2⟩

theorem boot_volInv {im : Image} {init : Fin nproc} (hsb : sb.size ≤ 2 ^ 32)
    (h : BlocksOk sb (boot im init).toCore) :
    VolInv sb (InRange sb (boot im init).toCore) (boot im init) :=
  ⟨hsb, (blocksOk_iff.1 h).1, h.sized, nofun, id⟩

theorem run_vol {init : Fin nproc} {im : Image} {as : List Call} (hsb : sb.size ≤ 2 ^ 32)
    (him : BlocksOk sb (boot im init).toCore) (h : run (step sb init) (boot im init) as = some s) :
    RefsOk s ∧ VolInv sb (InRange sb (boot im init).toCore) s := by
  refine run_inv (P := fun s => RefsOk s ∧ VolInv sb (InRange sb (boot im init).toCore) s)
    (fun s a s' hs ha => ?_) ⟨boot_refsOk im init, boot_volInv hsb him⟩ h
  obtain ⟨rfl, -, hen, r, hx⟩ := step_eq_some.1 ha
  exact (exec_vol hs.1 hs.2 hen).1 r s' hx

theorem run_blocksOk {init : Fin nproc} {im : Image} {as : List Call} (hsb : sb.size ≤ 2 ^ 32)
    (him : BlocksOk sb (boot im init).toCore) (hin : InRange sb (boot im init).toCore)
    (h : run (step sb init) (boot im init) as = some s) :
    BlocksOk sb s.toCore ∧ ∀ a : Call, a.ctx.sb = sb → a.Enabled s → ∀ e s',
      a.exec s = .error e s' → e ≠ .panic "freeing free block" ∧ e ≠ .fault := by
  obtain ⟨hr, hv⟩ := run_vol hsb him h
  refine ⟨blocksOk_iff.2 ⟨hv.own, hv.sized⟩, ?_⟩
  rintro a rfl ha e s' hx
  exact ((exec_vol hr hv ha).2 e s' hx).imp_right fun h => h hin

end

/-- **Block ownership.** The blocks of the image are owned as they should be, by files that hold
only data blocks, and no inode number in a directory of the image is too large; block numbers are
32-bit numbers. Then the blocks are owned so after any run of system calls, and a further call does
not stop with the panic of `bfree`, nor does it leave the areas of the disk. -/
theorem block_ownership (sb : Superblock) (init : Fin nproc) (im : Image) (hsb : sb.size ≤ 2 ^ 32)
    (him : BlocksOk sb (boot im init).toCore) (hin : InRange sb (boot im init).toCore)
    (as : List Call) (s : State) (h : run (step sb init) (boot im init) as = some s) :
    BlocksOk sb s.toCore ∧ ∀ a : Call, a.ctx.sb = sb → a.Enabled s → ∀ e s',
      a.exec s = .error e s' → e ≠ .panic "freeing free block" ∧ e ≠ .fault :=
  run_blocksOk hsb him hin h

theorem emptyImage_root {i : Nat} (h : (emptyImage.dinode i).type ≠ none) : i = rootIno := by
  by_contra hne
  exact h (by simp [emptyImage, hne, Dinode.zero])

theorem emptyImage_blocksOk : BlocksOk mkfsSb (boot emptyImage 0).toCore := by
  refine blocksOk_iff.2 ⟨emptyImage_own, fun i hl bn hbn => ?_⟩
  obtain rfl := emptyImage_root hl.2
  exact rootLocked_ready.sized bn hbn

theorem emptyImage_inRange : InRange mkfsSb (boot emptyImage 0).toCore := by
  refine ⟨by decide, by decide +kernel, fun d j hl _ hj => ?_,
    fun f hf => absurd hf.1 (Int.lt_irrefl 0)⟩
  obtain rfl := emptyImage_root hl.2
  have hlt : j < 32 := by
    change 16 * (j + 1) ≤ 512 at hj
    omega
  exact (by decide +kernel : ∀ j < 32, ((boot emptyImage 0).vol.dirent rootIno j).inum < 200) j hlt

/-- A file is made and removed while it is open: its first block is still its own. -/
theorem block_ownership_unlinked :
    ∃ s, run (step mkfsSb 0) (boot emptyImage 0)
        [plainCall 0 (.open_ (some [120]) (oCreate ||| oRdwr)), plainCall 0 (.write 0 (some [7])),
          plainCall 0 (.unlink (some [120]))] = some s ∧
      (s.vol.addr 2 (.addr 0) = 60 ∧ s.bitmap 60 = true) ∧ BlocksOk mkfsSb s.toCore := by
  have h : (run (step mkfsSb 0) (boot emptyImage 0)
      [plainCall 0 (.open_ (some [120]) (oCreate ||| oRdwr)), plainCall 0 (.write 0 (some [7])),
        plainCall 0 (.unlink (some [120]))]).map
      (fun s => (s.vol.addr 2 (.addr 0), s.bitmap 60)) = some (60, true) := by decide +kernel
  obtain ⟨s, hs, hd⟩ := Option.map_eq_some_iff.1 h
  exact ⟨s, hs, Prod.mk.inj hd,
    (block_ownership mkfsSb 0 emptyImage (by decide) emptyImage_blocksOk emptyImage_inRange _ s hs).1⟩

/-- A file `x` that has a block of the bitmap for its own. -/
def bitmapFile : Image where
  bitmap := emptyImage.bitmap
  dinode i :=
    if i = 2 then ⟨some .file, 0, 0, 1, 1, fun k => if k = 0 then 58 else 0⟩ else emptyImage.dinode i
  block b :=
    if b = 59 then rootBlock.write (2 * deSize) (Dirent.bytes ⟨2, strncpy [120] dirsiz⟩)
    else fun _ => 0

theorem bitmapFile_addrs (i : Nat) (k : Fin (ndirect + 1)) : (bitmapFile.dinode i).addrs k =
    if k = 0 then if i = 2 then 58 else if i = rootIno then 59 else 0 else 0 := by
  by_cases hi : i = 2
  · simp [bitmapFile, hi]
  · simp [bitmapFile, hi, emptyImage_addrs]

theorem bitmapFile_oneHolder : OneHolder mkfsSb (boot bitmapFile 0).toCore := by
  have hhas : ∀ h b, (boot bitmapFile 0).vol.has mkfsSb h = some b →
      h = (2, .addr 0) ∧ b = 58 ∨ h = (rootIno, .addr 0) ∧ b = 59 := by
    rintro ⟨i, k⟩ b hb
    obtain ⟨rfl, rfl, h0⟩ := Vol.has_first (bitmapFile_addrs i) hb
    by_cases hi : i = 2
    · exact .inl ⟨by rw [hi], if_pos hi⟩
    rw [if_neg hi] at h0 ⊢
    by_cases hi' : i = rootIno
    · exact .inr ⟨by rw [hi'], if_pos hi'⟩
    · exact absurd (if_neg hi') h0
  have hbit : ∀ b, (boot bitmapFile 0).bitmap b = true ↔ b < 60 := fun b => decide_eq_true_iff
  refine ⟨fun b _ => ?_, fun h h' b hb hb' => ?_, fun i hl bn hbn => ?_⟩
  · rw [hbit, mkfsSb_meta]
    refine ⟨fun hlt => ?_, ?_⟩
    · by_cases h59 : b = 59
      · refine .inr ⟨(rootIno, .addr 0), h59 ▸ rfl, fun h' hb' => ?_⟩
        rcases hhas h' b hb' with ⟨-, h58⟩ | ⟨h', -⟩
        · omega
        · exact h'
      · exact .inl (by omega)
    · rintro (hlt | ⟨h, hb, -⟩)
      · omega
      · rcases hhas h b hb with ⟨-, h58⟩ | ⟨-, h59⟩
        · omega
        · omega
  · rcases hhas h b hb with ⟨rfl, h1⟩ | ⟨rfl, h1⟩
    · rcases hhas h' b hb' with ⟨rfl, -⟩ | ⟨-, h2⟩
      · rfl
      · omega
    · rcases hhas h' b hb' with ⟨-, h2⟩ | ⟨rfl, -⟩
      · omega
      · rfl
  · by_cases hi : i = 2
    · subst hi
      obtain rfl : bn = 0 := by
        change bn * 512 < 1 at hbn
        omega
      exact ⟨by decide, by decide⟩
    · have hd : (boot bitmapFile 0).dinode i = emptyImage.dinode i := if_neg hi
      obtain rfl := emptyImage_root (i := i) (hd ▸ hl.2)
      exact rootLocked_ready.sized bn hbn

/-- The bitmap and the owners agree, but after `x` is removed the block of the bitmap is free. -/
theorem block_ownership_fails : ∃ im as s, OneHolder mkfsSb (boot im 0).toCore ∧
    run (step mkfsSb 0) (boot im 0) as = some s ∧ ¬ OneHolder mkfsSb s.toCore := by
  have h : (run (step mkfsSb 0) (boot bitmapFile 0) [plainCall 0 (.unlink (some [120]))]).map
      (fun s => s.bitmap 58) = some false := by decide +kernel
  obtain ⟨s, hs, hbit⟩ := Option.map_eq_some_iff.1 h
  refine ⟨bitmapFile, _, s, bitmapFile_oneHolder, hs, fun ho => ?_⟩
  have := (ho.bit 58 (by decide)).2 (.inl ((mkfsSb_meta 58).2 (by decide)))
  rw [hbit] at this
  cases this

/-- **One entry for an inode.** After any run of system calls from such an image, no inode has two
entries of the cache in use, and a valid entry holds what is on disk, of an inode that is not
free. -/
theorem inode_cache_coherent (sb : Superblock) (init : Fin nproc) (im : Image)
    (hsb : sb.size ≤ 2 ^ 32) (him : BlocksOk sb (boot im init).toCore) (as : List Call) (s : State)
    (h : run (step sb init) (boot im init) as = some s) :
    (∀ k k', 0 < (s.icache k).ref → 0 < (s.icache k').ref →
      (s.icache k).inum = (s.icache k').inum → k = k') ∧
      ∀ k, 0 < (s.icache k).ref → (s.icache k).valid = true →
        s.dinode (s.icache k).inum = (s.icache k).toDinode ∧ (s.icache k).type ≠ none := by
  obtain ⟨hr, hv⟩ := run_vol hsb him h
  refine ⟨hr.uniq, fun k hk hvalid => ?_⟩
  obtain ⟨hsync, htype, -⟩ := hv.sync k hk hvalid
  exact ⟨hsync, htype⟩

theorem inode_cache_coherent_open :
    ∃ s, run (step mkfsSb 0) (boot emptyImage 0)
        [plainCall 0 (.open_ (some [120]) (oCreate ||| oRdwr))] = some s ∧
      s.dinode (s.icache 1).inum = (s.icache 1).toDinode := by
  have h : (run (step mkfsSb 0) (boot emptyImage 0)
      [plainCall 0 (.open_ (some [120]) (oCreate ||| oRdwr))]).map
      (fun s => ((s.icache 1).ref, (s.icache 1).valid)) = some (1, true) := by decide +kernel
  obtain ⟨s, hs, hd⟩ := Option.map_eq_some_iff.1 h
  obtain ⟨href, hvalid⟩ := Prod.mk.inj hd
  have hc := inode_cache_coherent mkfsSb 0 emptyImage (by decide) emptyImage_blocksOk _ s hs
  exact ⟨s, hs, (hc.2 1 (by omega) hvalid).1⟩

end Xv6.Fs
