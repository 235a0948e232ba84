import Xv6.Fs.Proof.BlockOwner
import Xv6.Mkfs.Proof.Sound

/-!
# The kernel reads what `mkfs` wrote

A kernel that boots from an image of `mkfs` looks a name up in the root directory and reads from the
inode it finds (`fetch`). What it gets is the file of that name. The size of the root directory may
be one block too large, so the lookup is followed only up to the record that it returns.
-/

namespace Xv6.Fs

open Lib

section
variable {c : Ctx} {ip dp : Fin ninode} {s : State} {E : Stop → State → Prop}

theorem iget_ok {inum : Nat} (hk : ∃ k, (s.icache k).ref = 0) :
    Triple (· = s) (iget inum) (fun ip s' => Got s inum ip s') fun _ _ => False := by
  refine ((iget_spec s inum).and (iget_full s inum)).conseq (fun _ h => ⟨h, h⟩)
    (fun _ _ h => h.1) ?_
  rintro e s' ⟨-, h⟩
  obtain ⟨k, hk⟩ := hk
  exact (h k).1 hk

theorem dirlookupFrom_hit {name : List UInt8} {size j : Nat} {rec : Nat → Dirent}
    (hk : ∃ k, (s.icache k).ref = 0)
    (hread : ∀ i ≤ j, Triple (· = s) (readi c dp (deSize * i) deSize)
      (fun r s' => s' = s ∧ r.1 = deSize ∧ Dirent.ofBytes r.2 = rec i) fun _ _ => False)
    (hno : ∀ i < j, namecmp name (rec i).name ≠ 0)
    (hj : (rec j).inum ≠ 0 ∧ namecmp name (rec j).name = 0) (hsize : deSize * j < size) :
    ∀ turns i, i ≤ j → j < i + turns →
      Triple (· = s) (dirlookupFrom c dp name size turns (deSize * i))
        (fun r s' => ∃ ip, r = some (ip, deSize * j) ∧ Got s (rec j).inum ip s') fun _ _ => False
  | 0, i, hi, hlt => absurd hlt (by omega)
  | turns + 1, i, hi, hlt => by
    have hoff : deSize * i < size := (Nat.mul_le_mul_left _ hi).trans_lt hsize
    refine .ite (fun _ => ?_) fun h => absurd hoff h
    refine (hread i hi).bind fun ⟨r, bs⟩ => .of_and fun ⟨hr, hrec⟩ => ?_
    dsimp only at hr hrec ⊢
    rw [if_neg (by simp [hr]), hrec]
    by_cases hij : i = j
    · subst hij
      rw [if_pos hj]
      exact (iget_ok hk).bind fun ip => .pure fun s' hg => ⟨ip, rfl, hg⟩
    · rw [if_neg fun h => hno i (by omega) h.2]
      have := dirlookupFrom_hit hk hread hno hj hsize turns (i + 1) (by omega) (by omega)
      rwa [Nat.mul_add_one] at this

end

/-! ## Names -/

theorem strncmp_strncpy {n : Nat} {t t' : List UInt8} (h : ∀ b ∈ t, b ≠ 0) (h' : ∀ b ∈ t', b ≠ 0)
    (hl : t.length ≤ n) (hl' : t'.length ≤ n) : strncmp n t (strncpy t' n) = 0 ↔ t = t' := by
  rw [strncmp_eq_zero, cutAt_strncpy, cutAt_eq_self h hl, cutAt_eq_self h' hl']

end Xv6.Fs

namespace Xv6.Fs.Mkfs

open Lib

/-- Look up `name` in the root directory and read `n` bytes from `off` on: the size of the file, and
what `readi` returns. -/
def fetch (c : Ctx) (name : List UInt8) (off n : Nat) : Fs.M (Option (Nat × Int × List UInt8)) := do
  let dp ← iget rootIno
  ilock c dp
  match ← dirlookup c dp name with
  | none => return none
  | some (ip, _) =>
    ilock c ip
    let i ← getInode ip
    let r ← readi c ip off n
    return some (i.size, r)

/-- The files fit into an image, under names the kernel can find. -/
structure Valid (files : List Source) : Prop where
  count : files.length ≤ 198
  slash : ∀ f ∈ files, slash ∉ f.name
  name : ∀ f ∈ files, 0 < f.target.length ∧ f.target.length ≤ dirsiz ∧ f.target ≠ dot ∧
    f.target ≠ dotdot
  distinct : (files.map Source.target).Nodup
  size : ∀ f ∈ files, f.data.length ≤ maxFile * bsize
  room : nmeta + (blocks (deSize * (files.length + 2)) +
    (files.map fun f => blocks f.data.length).sum) ≤ fsSize

theorem sum_files (g : List UInt8 → Nat) : ∀ files : List Source,
    ∑ i ∈ Finset.range files.length, g ((files[i]?.map Source.data).getD []) =
      (files.map fun f => g f.data).sum
  | [] => rfl
  | f :: files => by
    rw [List.length_cons, Finset.sum_range_succ', List.map_cons, List.sum_cons, Nat.add_comm]
    congr 1
    exact sum_files g files

theorem total_contents (files : List Source) :
    total (contents files) (files.length + 2) = nmeta + (blocks (deSize * (files.length + 2)) +
      (files.map fun f => blocks f.data.length).sum) := by
  unfold total
  rw [Finset.sum_eq_sum_Ico_succ_bot (by omega), root_length, ← sum_files fun l => blocks l.length,
    Finset.sum_Ico_eq_sum_range]
  congr 2
  refine Finset.sum_congr (by congr 1) fun i _ => ?_
  rw [Nat.add_comm (1 + 1) i]
  rfl

theorem Valid.fits {files : List Source} (h : Valid files) : Fits files :=
  ⟨h.slash, h.size, (total_contents files).trans_le h.room⟩

theorem Source.target_ne (f : Source) : ∀ b ∈ f.target, b ≠ 0 := fun b hb => by
  unfold Source.target at hb
  split at hb
  · exact f.name_ne b (List.mem_of_mem_tail hb)
  · exact f.name_ne b hb

theorem Valid.namecmp {files : List Source} (h : Valid files) {i j : Nat} (hi : i < files.length)
    (hj : j < (entries files).length) :
    namecmp files[i].target (entries files)[j].name = 0 ↔ j = i + 2 := by
  have hname := h.name _ (List.getElem_mem hi)
  have hne := files[i].target_ne
  match j, hj with
  | 0, _ =>
    have := @strncmp_strncpy dirsiz _ dot hne (by decide +kernel) hname.2.1 (by decide)
    exact ⟨fun heq => absurd (this.1 heq) hname.2.2.1, fun heq => by omega⟩
  | 1, _ =>
    have := @strncmp_strncpy dirsiz _ dotdot hne (by decide +kernel) hname.2.1 (by decide)
    exact ⟨fun heq => absurd (this.1 heq) hname.2.2.2, fun heq => by omega⟩
  | k + 2, hj =>
    have hk : k < files.length := by
      rw [entries_length] at hj
      omega
    have hentry : (entries files)[k + 2].name = strncpy files[k].target dirsiz := by
      simp [entries]
    have hname' := h.name _ (List.getElem_mem hk)
    have := strncmp_strncpy (n := dirsiz) hne files[k].target_ne hname.2.1 hname'.2.1
    rw [hentry]
    refine this.trans ⟨fun heq => ?_, fun heq => ?_⟩
    · have hinj := (List.nodup_iff_injective_getElem.1 h.distinct)
      have : i = k := by
        have := @hinj ⟨i, by simpa using hi⟩ ⟨k, by simpa using hk⟩ (by simpa using heq)
        simpa using this
      omega
    · obtain rfl : k = i := by omega
      rfl

/-! ## The kernel's calls -/

section
variable {files : List Source} {d : Disk} {c : Ctx}
variable {x : Sectors} {i : Nat} {K : Set (Fin ninode)}

/-- An entry of the cache that `iget` has just taken for inode `i`, and nothing else is in the cache
but the entries `K`. -/
structure Taken (x : Sectors) (i : Nat) (K : Set (Fin ninode)) (ip : Fin ninode)
    (s : State) : Prop where
  vol : s.vol = kernelVol x
  inum : (s.icache ip).inum = i
  ref : 0 < (s.icache ip).ref
  lock : (s.icache ip).lock = none
  valid : (s.icache ip).valid = false
  idle : ∀ k ∉ K, k ≠ ip → (s.icache k).ref = 0 ∧ (s.icache k).lock = none

/-- Entry `ip` has inode `i` loaded, and no entry outside `K` is in use. -/
structure Open (x : Sectors) (i : Nat) (K : Set (Fin ninode)) (ip : Fin ninode)
    (s : State) : Prop where
  vol : s.vol = kernelVol x
  inum : (s.icache ip).inum = i
  ref : 0 < (s.icache ip).ref
  load : (s.icache ip).toDinode = s.dinode i
  idle : ∀ k ∉ K, k ≠ ip → (s.icache k).ref = 0 ∧ (s.icache k).lock = none

theorem Taken.ilock {ip : Fin ninode} {s : State}
    (h : Taken x i K ip s) (hl : (kernelVol x).Live c.sb i) :
    Triple (· = s) (ilock c ip) (fun _ => Open x i K ip) fun _ _ => False := by
  have hlive : s.vol.Live c.sb (s.icache ip).inum := by
    rw [h.vol, h.inum]
    exact hl
  refine (ilock_spec c ip s fun hv => absurd hv (by rw [h.valid]; nofun)).conseq (fun _ => id) ?_ ?_
  · rintro _ _ ⟨rfl, -⟩
    refine ⟨h.vol, ?_, ?_, ?_, fun k hk hne => ?_⟩
    · simp [State.locked, State.setInode, Inode.load, Inode.setLock, h.inum]
    · simp [State.locked, State.setInode, Inode.load, Inode.setLock, h.ref]
    · simp [State.locked, State.setInode, Inode.load, Inode.setLock, h.inum]
    · have := h.idle k hk hne
      simpa [State.locked, State.setInode, hne] using this
  · rintro e s' hstop
    cases hstop with
    | ref hr => exact absurd h.ref (by omega)
    | held hb => exact hb.2 h.lock
    | range _ hge => exact hge hlive.1
    | type _ _ ht => exact hlive.2 ht

theorem Taken.of_got {ip : Fin ninode} {s s' : State}
    (h : Got s i ip s') (hvol : s.vol = kernelVol x)
    (hK : ∀ k ∈ K, 0 < (s.icache k).ref ∧ (s.icache k).inum ≠ i)
    (hidle : ∀ k ∉ K, (s.icache k).ref = 0 ∧ (s.icache k).lock = none) : Taken x i K ip s' := by
  cases h with
  | old hr hi =>
    by_cases hk : ip ∈ K
    · exact absurd hi (hK ip hk).2
    · exact absurd (hidle ip hk).1 hr.ne'
  | new hno hr =>
    have hk : ip ∉ K := fun hk => absurd hr (hK ip hk).1.ne'
    refine ⟨hvol, ?_, ?_, ?_, ?_, fun k hk' hne => ?_⟩
    · simp [Inode.recycle]
    · simp [Inode.recycle]
    · simpa [State.setInode, Inode.recycle] using (hidle ip hk).2
    · simp [Inode.recycle]
    · simpa [State.setInode, hne] using hidle k hk'

theorem iget_root (x : Sectors) (init : Fin nproc) :
    Triple (fun s => s = boot (kernelImage x) init) (iget rootIno) (Taken x rootIno ∅)
    fun _ _ => False := by
  refine (iget_ok ⟨1, rfl⟩).post fun ip s h => ?_
  have href : ∀ k : Fin ninode, k ≠ 0 →
    ((boot (kernelImage x) init).icache k).ref = 0 := fun k hk =>
    if_neg hk
  cases h with
  | old hr hi =>
    obtain rfl : ip = 0 := by
      by_contra hne
      exact absurd (href ip hne) hr.ne'
    refine ⟨rfl, ?_, ?_, ?_, ?_, fun k _ hne => ?_⟩
    · simp [Inode.setRef, boot]
    · simp [Inode.setRef, boot]
    · simp [Inode.setRef, boot]
    · simp [Inode.setRef, boot]
    · simp [boot, hne]
  | new hno hr => exact absurd rfl (hno 0 (show (0 : Int) < 1 by decide))

theorem Done.readDirent {s : State} {dp : Fin ninode} (h : Done files d) (hc : c.sb = sb)
    (ho : Open d.sect rootIno ∅ dp s) {j : Nat} (hj : j < files.length + 2) :
    Triple (· = s) (readi c dp (deSize * j) deSize)
      (fun r s' => s' = s ∧ r.1 = deSize ∧
        Dirent.ofBytes r.2 = (kernelVol d.sect).dirent rootIno j) fun _ _ => False := by
  have hlive := h.kernel.live h.le (show 0 < rootIno by decide) (by simp only [rootIno]; omega)
  have ht := h.kernel.tight rootIno (by decide) (by simp only [rootIno]; omega)
  have hlen : (contents files rootIno).length = deSize * (files.length + 2) := root_length files
  have hle : deSize * (j + 1) ≤ deSize * (files.length + 2) := Nat.mul_le_mul_left _ (by omega)
  have hmax := h.le
  have hnd : s.dinode = (kernelVol d.sect).nd := congrArg Vol.nd ho.vol
  have hsize : (s.icache dp).size = (deSize * (files.length + 2) / bsize + 1) * bsize := by
    rw [ho.load, hnd, h.nd, h.rootSize, hlen]
  have hvol : s.volAt dp = kernelVol d.sect :=
    (Core.volAt_eq (by rw [ho.inum, ho.load])).trans ho.vol
  refine (readi_spec (s := s) ?_ ?_ _ _ fun x hx1 hx2 _ => ?_).post ?_
  · rw [hvol, hc]
    exact h.kernel.own
  · rw [hvol, ho.inum, hc]
    exact hlive
  · rw [hvol, ho.inum]
    have hx : x < deSize * (files.length + 2) := by
      rw [Nat.mul_add_one] at hle
      omega
    have hbn : x / bsize < maxFile := by
      simp only [deSize, dirsiz, bsize, ninodes, maxFile, ndirect, nindirect] at *
      omega
    refine ⟨hbn, (ht.slot _ hbn).2 ?_⟩
    rw [hlen]
    simp only [bsize]
    omega
  · rintro r s' ⟨rfl, hr⟩
    simp only [deSize, dirsiz, bsize, ninodes] at hsize hmax
    have hmin : min deSize ((s'.icache dp).size - deSize * j) = deSize := by
      simp only [deSize, dirsiz]
      omega
    have htype : (s'.icache dp).type ≠ some .dev := by
      rw [ho.load, hnd, h.kernel.type, typeOf, if_neg (by simp only [rootIno]; omega)]
      decide
    rw [hr htype (by simp only [deSize, dirsiz]; omega) (by simp only [deSize, dirsiz]; omega),
      hmin, hvol, ho.inum]
    exact ⟨rfl, rfl, rfl⟩

theorem Done.dirlookup {s : State} {dp : Fin ninode} (h : Done files d) (hv : Valid files)
    (hc : c.sb = sb) (ho : Open d.sect rootIno ∅ dp s) (hi : i < files.length) :
    Triple (· = s) (dirlookup c dp files[i].target)
      (fun r s' => ∃ ip, r = some (ip, deSize * (i + 2)) ∧ Got s (i + 2) ip s')
      fun _ _ => False := by
  have hlen : (contents files rootIno).length = deSize * (files.length + 2) := root_length files
  have hnd : s.dinode = (kernelVol d.sect).nd := congrArg Vol.nd ho.vol
  have hsize : (s.icache dp).size = (deSize * (files.length + 2) / bsize + 1) * bsize := by
    rw [ho.load, hnd, h.nd, h.rootSize, hlen]
  have hdir : (s.icache dp).type = some .dir := by
    rw [ho.load, hnd, h.kernel.type, typeOf, if_neg (by simp only [rootIno]; omega), if_pos rfl]
  have hrec : ∀ j (hj : j < (entries files).length),
      (kernelVol d.sect).dirent rootIno j = (entries files)[j] := fun j hj =>
    h.kernel.dirent hv.count hj
  have hself : i + 2 < (entries files).length := by
    rw [entries_length]
    omega
  have hinum : ((kernelVol d.sect).dirent rootIno (i + 2)).inum = i + 2 := by
    rw [hrec _ hself]
    simp [entries]
  refine .read_bind rfl ?_
  rw [if_neg (by simp [hdir])]
  have hfree : ∃ k, (s.icache k).ref = 0 := by
    by_cases hk : (0 : Fin ninode) = dp
    · exact ⟨1, (ho.idle 1 (by simp) (by rw [← hk]; decide)).1⟩
    · exact ⟨0, (ho.idle 0 (by simp) hk).1⟩
  have hhit := @dirlookupFrom_hit c dp s files[i].target
    (s.icache dp).size (i + 2) ((kernelVol d.sect).dirent rootIno) hfree
    (fun j hj => h.readDirent hc ho (by omega)) (fun j hj => ?_) ⟨by rw [hinum]; omega, ?_⟩ ?_
    (s.icache dp).size 0 (Nat.zero_le _) ?_
  · rw [hinum] at hhit
    exact hhit
  · have hj' : j < (entries files).length := by omega
    rw [hrec j hj']
    exact fun heq => absurd ((hv.namecmp hi hj').1 heq) (by omega)
  · rw [hrec _ hself]
    exact (hv.namecmp hi hself).2 rfl
  · rw [hsize]
    simp only [deSize, dirsiz, bsize]
    omega
  · rw [hsize]
    simp only [deSize, dirsiz, bsize]
    omega

theorem contents_file (hi : i < files.length) : contents files (i + 2) = files[i].data := by
  simp [contents, hi]

theorem Done.fetch (h : Done files d) (hv : Valid files) (hc : c.sb = sb) (init : Fin nproc)
    (hi : i < files.length) {off n : Nat} (hoff : off ≤ files[i].data.length)
    (h32 : off + n < 2 ^ 32) :
    Triple (fun s => s = boot (kernelImage d.sect) init) (Mkfs.fetch c files[i].target off n)
      (fun r _ => r = some (files[i].data.length, ↑(min n (files[i].data.length - off)),
        (files[i].data.drop off).take n)) fun _ _ => False := by
  have hroot := h.kernel.live h.le (show 0 < rootIno by decide) (by simp only [rootIno]; omega)
  have hfile := h.kernel.live h.le (show 0 < i + 2 by omega) (by omega)
  have hsize : ((kernelVol d.sect).nd (i + 2)).size = files[i].data.length := by
    rw [h.nd, h.size (i + 2) (by omega) (by omega), contents_file hi]
  refine (iget_root d.sect init).bind fun dp => .of_state fun s₁ h₁ => ?_
  refine (h₁.ilock (by rw [hc]; exact hroot)).bind fun _ => .of_state fun s₂ h₂ => ?_
  refine (h.dirlookup hv hc h₂ hi).bind fun r => .exists_pre fun ip => .of_pre (fun _ h => h.1) ?_
  rintro rfl
  refine .of_state ?_
  rintro s₃ ⟨-, hg⟩
  have h₃ : Taken d.sect (i + 2) {dp} ip s₃ := by
    refine .of_got hg h₂.vol ?_ fun k hk => h₂.idle k (by simp) hk
    rintro k rfl
    exact ⟨h₂.ref, by rw [h₂.inum]; simp only [rootIno]; omega⟩
  refine (h₃.ilock (by rw [hc]; exact hfile)).bind fun _ => .of_state fun s₄ h₄ => ?_
  have hnd : s₄.dinode = (kernelVol d.sect).nd := congrArg Vol.nd h₄.vol
  have hready : Ready c.sb s₄ ip := by
    rw [hc]
    refine ⟨h₄.vol ▸ h.kernel.own, ?_, by rw [h₄.inum, h₄.load], fun bn hbn => ?_⟩
    · rw [h₄.vol, h₄.inum]
      exact hfile
    · rw [h₄.vol, h₄.inum]
      refine h.file_sized (by omega) (by omega) bn ?_
      rwa [h₄.load, hnd] at hbn
  have hsize₄ : (s₄.icache ip).size = files[i].data.length := by rw [h₄.load, hnd, hsize]
  have htype : (s₄.icache ip).type ≠ some .dev := by
    rw [h₄.load, hnd, h.kernel.type, typeOf, if_neg (by omega),
      if_neg (by simp only [rootIno]; omega)]
    decide
  refine .read_bind rfl ?_
  refine (hready.readi off n).bind fun r => .pure ?_
  rintro s₅ ⟨-, hr⟩
  have hbyte : s₄.vol.byte (s₄.icache ip).inum = fun x => files[i].data.getD x 0 := by
    rw [h₄.vol, h₄.inum, ← contents_file hi]
    exact funext (h.kernel.byte (i + 2) (by omega) (by omega))
  rw [hsize₄] at hr ⊢
  rw [hr htype hoff h32, hbyte, readRange_getD _ (by omega), ← List.length_drop,
    ← List.take_eq_take_min]

end

/-- **The kernel reads back what `mkfs` wrote**: `mkfs` exits successfully on a valid list of files,
the kernel finds its super block in the image, and under the name of each file it finds the bytes of
that file. -/
theorem mkfs_readback (files : List Source) (hv : Valid files) :
    ∃ d, mkfs files = some d ∧ readsb d.sect = sb ∧
      ∀ f ∈ files, ∀ (c : Ctx) (init : Fin nproc), c.sb = readsb d.sect →
        ∀ off n, off ≤ f.data.length → off + n < 2 ^ 32 →
          ∃ s, fetch c f.target off n (boot (kernelImage d.sect) init) =
            .ok (some (f.data.length, ↑(min n (f.data.length - off)), (f.data.drop off).take n)) s := by
  obtain ⟨d, hd, h⟩ := mkfs_of_fits hv.count hv.fits
  refine ⟨d, hd, h.super, fun f hf c init hc off n hoff h32 => ?_⟩
  obtain ⟨i, hi, rfl⟩ := List.getElem_of_mem hf
  have hrun := h.fetch hv (hc.trans h.super) init hi hoff h32 _ rfl
  split at hrun
  · next r s hr =>
    rw [hr, hrun]
    exact ⟨s, rfl⟩
  · exact hrun.elim

theorem valid_catFile : Valid [catFile] :=
  ⟨by decide, by decide, by decide, by decide, by decide, by decide⟩

theorem mkfs_readback_catFile : Valid [catFile] ∧ ∃ d, mkfs [catFile] = some d ∧
    ∀ (c : Ctx) (init : Fin nproc), c.sb = readsb d.sect →
      ∃ s, fetch c [99, 97, 116] 0 512 (boot (kernelImage d.sect) init) =
        .ok (some (3, 3, [1, 2, 3])) s := by
  refine ⟨valid_catFile, ?_⟩
  obtain ⟨d, hd, -, h⟩ := mkfs_readback [catFile] valid_catFile
  exact ⟨d, hd, fun c init hc => h catFile (by simp) c init hc 0 512 (by decide) (by decide)⟩

theorem Done.inRange {files : List Source} {d : Disk} (h : Done files d) (init : Fin nproc) :
    InRange sb (boot (kernelImage d.sect) init).toCore := by
  have hle : files.length + 2 ≤ 200 := h.le
  refine ⟨by decide, fun k hk => ?_, fun i j _ ht _ => ?_, fun f hf => absurd hf.1 (Int.lt_irrefl 0)⟩
  · show (if k = 0 then rootIno else 0) < 200
    split <;> decide
  · obtain rfl : i = rootIno := by
      by_contra hne
      have hi := (h.kernel.type i).symm.trans ht
      unfold typeOf at hi
      rw [if_neg hne] at hi
      split at hi <;> cases hi
    show ((kernelVol d.sect).dirent rootIno j).inum < 200
    by_cases hj : j < (entries files).length
    · rw [h.kernel.dirent (by omega) hj]
      exact (entries_inum (List.getElem_mem hj)).2.trans_le hle
    · rw [entries_length] at hj
      rw [h.kernel.dirent_zero (by omega)]
      decide

/-- **A kernel on an image of `mkfs`.** For a suitable list of files, any run of system calls on the
image keeps the blocks owned as they should be, and a further call does not stop with the panic of
`bfree` and stays within the areas of the disk. -/
theorem mkfs_runs {files : List Source} {d : Disk} (hf : Suitable files) (hd : mkfs files = some d)
    (init : Fin nproc) (as : List Call) (s : State)
    (h : run (step sb init) (boot (kernelImage d.sect) init) as = some s) :
    BlocksOk sb s.toCore ∧ ∀ a : Call, a.ctx.sb = sb → a.Enabled s → ∀ e s',
      a.exec s = .error e s' → e ≠ .panic "freeing free block" ∧ e ≠ .fault := by
  have hdone := mkfs_done hf.count hd
  have him : BlocksOk sb (boot (kernelImage d.sect) init).toCore :=
    blocksOk_iff.2 ⟨hdone.kernel.own, (hdone.sound_iff.2 ⟨hf.round, hf.names⟩).sized⟩
  exact run_blocksOk (by decide) him (hdone.inRange init) h

/-- A file is made and gets a block. -/
def makeX : List Call :=
  [plainCall 0 (.open_ (some [120]) (oCreate ||| oRdwr)), plainCall 0 (.write 0 (some [7]))]

/-- It is removed and closed. -/
def removeX : List Call := [plainCall 0 (.unlink (some [120])), plainCall 0 (.close 0)]

theorem makeX_removeX : ((mkfs []).bind fun d =>
    (run (step sb 0) (boot (kernelImage d.sect) 0) makeX).map fun s =>
      (s.bitmap 60, (run (step sb 0) s removeX).map fun s => s.bitmap 60)) =
        some (true, some false) := by
  obtain ⟨_, _, h0, rfl⟩ := (zero_spec (E := fun _ _ => False) fsSize).returns rfl
  unfold mkfs main
  rw [bind_ok h0]
  decide +kernel

/-- On an image without files, a file is made, and its block is its own until it is removed. -/
theorem mkfs_runs_noFiles : ∃ d s s', mkfs [] = some d ∧
    run (step sb 0) (boot (kernelImage d.sect) 0) makeX = some s ∧ s.bitmap 60 = true ∧
      run (step sb 0) s removeX = some s' ∧ s'.bitmap 60 = false ∧ BlocksOk sb s'.toCore := by
  obtain ⟨d, hd, h⟩ := Option.bind_eq_some_iff.1 makeX_removeX
  obtain ⟨s, hs, h⟩ := Option.map_eq_some_iff.1 h
  obtain ⟨h60, h⟩ := Prod.mk.inj h
  obtain ⟨s', hs', h60'⟩ := Option.map_eq_some_iff.1 h
  refine ⟨d, s, s', hd, hs, h60, hs', h60', ?_⟩
  exact (mkfs_runs ⟨by decide, by decide, by decide⟩ hd 0 (makeX ++ removeX) s'
    (run_append.2 ⟨s, hs, hs'⟩)).1

end Xv6.Fs.Mkfs
