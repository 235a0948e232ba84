import Xv6.Mkfs.Proof.Append
import Mathlib.Algebra.BigOperators.Intervals

/-!
# What `mkfs` builds

The purpose of `mkfs`, without blocks and sectors: inode `i` holds the bytes `c i`. `Holds v m c`
says that a volume with the inodes below `m` does, and `Built c m d` that the image does so far.
`ialloc` adds an empty file and `iappend` appends to one; from this follows what the loop over the
input files builds (`contents`). With at most 198 files, `main` stops only if the files do not fit.
-/

namespace Xv6.Fs.Mkfs

open Lib Function

variable {E : String → Disk → Prop} {ip : Dinode}

/-- The type of inode `i` when `m` is the next one. -/
def typeOf (m i : Nat) : Option FileType :=
  if i = 0 ∨ m ≤ i then none else if i = rootIno then some .dir else some .file

/-- The inodes below `m` hold the bytes `c`, and nothing else is in use. -/
structure Holds (v : Vol) (m : Nat) (c : Nat → List UInt8) : Prop where
  own : v.Own sb
  type : ∀ i, (v.nd i).type = typeOf m i
  byte : ∀ i, 0 < i → i < m → ∀ x, v.byte i x = (c i).getD x 0
  tight : ∀ i, 0 < i → i < m → Tight v i (c i).length

/-- The blocks that the file system and the files of the inodes below `m` take. -/
def total (c : Nat → List UInt8) (m : Nat) : Nat :=
  nmeta + ∑ i ∈ Finset.Ico 1 m, blocks (c i).length

/-- The inodes below `m` hold `c`, in as many blocks as that takes. -/
structure Built (c : Nat → List UInt8) (m : Nat) (d : Disk) : Prop where
  room : Room d
  inode : d.freeinode = m
  pos : 0 < m
  le : m ≤ ninodes
  holds : Holds d.vol m c
  size : ∀ i, 0 < i → i < m → (d.nd i).size = (c i).length
  small : ∀ i, 0 < i → i < m → (c i).length ≤ maxFile * bsize
  count : d.freeblock = total c m

section
variable {c c' : Nat → List UInt8} {m m' i inum : Nat} {v v' : Vol} {d d' : Disk} {φ : Prop}

theorem total_mono (h : ∀ i, (c i).length ≤ (c' i).length) (hm : m ≤ m') :
    total c m ≤ total c' m' := by
  refine Nat.add_le_add_left ?_ nmeta
  calc ∑ i ∈ Finset.Ico 1 m, blocks (c i).length ≤ ∑ i ∈ Finset.Ico 1 m, blocks (c' i).length :=
        Finset.sum_le_sum fun i _ => blocks_mono (h i)
    _ ≤ ∑ i ∈ Finset.Ico 1 m', blocks (c' i).length :=
        Finset.sum_le_sum_of_subset (Finset.Ico_subset_Ico_right hm)

theorem total_split (h0 : 0 < i) (hi : i < m) (p : List UInt8) :
    total (update c i p) m =
      nmeta + ∑ j ∈ (Finset.Ico 1 m).erase i, blocks (c j).length + blocks p.length := by
  unfold total
  rw [← Finset.add_sum_erase _ _ (Finset.mem_Ico.2 ⟨h0, hi⟩), update_self]
  have hsum : ∑ j ∈ (Finset.Ico 1 m).erase i, blocks (update c i p j).length =
      ∑ j ∈ (Finset.Ico 1 m).erase i, blocks (c j).length :=
    Finset.sum_congr rfl fun j hj => by rw [update_of_ne (Finset.ne_of_mem_erase hj)]
  rw [hsum]
  omega

theorem Holds.live (h : Holds v m c) (hm : m ≤ ninodes) (h0 : 0 < i) (hi : i < m) :
    v.Live sb i := by
  refine ⟨hi.trans_le hm, ?_⟩
  rw [h.type, typeOf, if_neg (by omega)]
  split <;> nofun

theorem Holds.not_live (h : Holds v m c) (hi : m ≤ i) : ¬ v.Live sb i := fun hl => hl.2 <| by
  rw [h.type, typeOf, if_pos (.inr hi)]

theorem addrs_lt (hv : v.Own sb) (hi : v.Live sb i) (k : Fin (ndirect + 1)) :
    (v.nd i).addrs k < 2 ^ 32 := by
  by_cases h0 : v.addr i (.addr k) = 0
  · have h1 : (v.nd i).addrs k = 0 := h0
    rw [h1]
    decide
  · exact (hv.data hi h0).1.2.trans (by decide)

/-! ## Reading and writing inodes -/

/-- `winode` changes one inode only. -/
structure Winode (inum : Nat) (ip : Dinode) (d d' : Disk) : Prop where
  room : Room d'
  nd : d'.nd = update d.nd inum ip
  blk : d'.blk = d.blk
  block : d'.freeblock = d.freeblock
  inode : d'.freeinode = d.freeinode

theorem iblock_bounds (hi : i < sb.ninodes) : 1 < sb.iblock i ∧ sb.iblock i < nmeta := by
  refine ⟨?_, (iblock_lt hi).trans (by decide)⟩
  have h : 1 < sb.inodestart := by decide
  exact h.trans_le (Nat.le_add_left _ _)

theorem rsect_spec {r : Nat} (hr : r < d.len) :
    Triple (fun s => s = d) (rsect r) (fun buf s => s = d ∧ buf = d.sect r) E := by
  refine .bind (Q := fun a s => s = d ∧ a = d) (.get fun s h => ⟨h, h⟩) fun a =>
    .of_pre (fun _ h => h.2) ?_
  rintro rfl
  rw [if_pos hr]
  exact .pure fun s h => ⟨h.1, rfl⟩

theorem Room.iblock_lt (hr : Room d) (hi : inum < sb.ninodes) : sb.iblock inum < d.len := by
  rw [hr.len]
  exact (iblock_bounds hi).2.trans (by decide)

theorem winode_spec (hr : Room d) (hi : inum < sb.ninodes) (hs : ip.Small) :
    Triple (fun s => s = d) (winode inum ip) (fun _ => Winode inum ip d) E := by
  obtain ⟨h1, h2⟩ := iblock_bounds hi
  have hlt := hr.iblock_lt hi
  refine (rsect_spec hlt).bind fun buf => .modify ?_
  rintro _ ⟨rfl, rfl⟩
  refine ⟨⟨?_, hr.lo, hr.hi, fun b hb => ?_, ?_⟩, ?_, ?_, rfl, rfl⟩
  · exact (Nat.max_eq_left hlt).trans hr.len
  · have hne : b ≠ sb.iblock inum := (h2.trans_le (hr.lo.trans hb)).ne'
    exact (update_of_ne hne _ _).trans (hr.zero b hb)
  · dsimp only
    rw [update_of_ne h1.ne]
    exact hr.super
  · funext j
    unfold Disk.nd
    rw [dinodeAt_update hs]
    by_cases hj : j = inum
    · subst hj
      rw [update_self, if_pos hi, if_pos rfl]
    · rw [update_of_ne hj, if_neg hj]
  · funext b
    unfold Disk.blk
    split
    · next hb =>
      have hne : b ≠ sb.iblock inum := fun h => not_data_iblock hi (h ▸ hb)
      exact update_of_ne hne _ _
    · rfl

theorem rinode_spec (hr : Room d) (hi : inum < sb.ninodes) :
    Triple (fun s => s = d) (rinode inum) (fun din s => s = d ∧ din = d.nd inum) E := by
  refine (rsect_spec (hr.iblock_lt hi)).bind fun buf => .pure ?_
  rintro _ ⟨rfl, rfl⟩
  refine ⟨rfl, ?_⟩
  unfold Disk.nd
  rw [if_pos hi]
  rfl

/-! ## `ialloc` -/

theorem typeOf_succ (m i : Nat) :
    typeOf (m + 1) i = if i = m ∧ i ≠ 0 then (if m = rootIno then some .dir else some .file)
      else typeOf m i := by
  unfold typeOf
  by_cases h0 : i = 0
  · simp [h0]
  · by_cases hm : i = m
    · subst hm
      simp [h0]
    · have : m + 1 ≤ i ↔ m ≤ i := by omega
      simp [h0, hm, this]

theorem Winode.vol (h : Winode inum ip d d') :
    d'.vol = ⟨update d.nd inum ip, d.vol.bm, d.vol.blk⟩ := by
  unfold Disk.vol
  rw [h.nd, h.blk, h.block]

theorem Holds.newNode (h : Holds v m c) (hc : c m = [])
    (ht : ip.type = some (if m = rootIno then .dir else .file)) (ha : ip.addrs = fun _ => 0)
    (hv : v' = ⟨update v.nd m ip, v.bm, v.blk⟩) (hm : 0 < m) : Holds v' (m + 1) c := by
  have hself : v'.nd m = ip := by
    rw [hv]
    exact update_self ..
  have hother : ∀ j, j ≠ m → v'.nd j = v.nd j := fun j hj => by
    rw [hv]
    exact update_of_ne hj _ _
  have hblk : v'.blk = v.blk := by rw [hv]
  have h0 : ∀ k, v'.addr m k = 0 := Vol.addr_eq_zero (by rw [hself, ha])
  have haddr : ∀ j, j ≠ m → ∀ k, v'.addr j k = v.addr j k := fun j hj =>
    Vol.addr_congr (by rw [hother j hj]) fun _ => by rw [hblk]
  refine ⟨?_, fun i => ?_, fun i hi him x => ?_, fun i hi him => ?_⟩
  · exact h.own.setNode (i := m) (by rw [hv]) hblk hother
      (fun k => Vol.has_of_not_live (h.not_live (Nat.le_refl m))) fun k => Vol.has_eq_none (h0 k)
  · rw [typeOf_succ]
    by_cases hi : i = m
    · subst hi
      rw [if_pos (And.intro rfl hm.ne'), hself, ht]
      split <;> rfl
    · rw [hother i hi, h.type, if_neg fun h' => hi h'.1]
  · by_cases hi' : i = m
    · subst hi'
      unfold Vol.byte
      rw [if_neg fun h' => h'.2 (h0 _), hc]
      rfl
    · rw [← h.byte i hi (by omega) x]
      exact Vol.byte_congr (haddr i hi' _) fun _ _ => by rw [hblk]
  · by_cases hi' : i = m
    · subst hi'
      rw [hc]
      exact ⟨fun bn _ => by simp [h0], by simp [h0]⟩
    · have ht := h.tight i hi (by omega)
      exact ⟨fun bn hbn => by rw [haddr i hi']; exact ht.slot bn hbn,
        by rw [haddr i hi']; exact ht.indirect⟩

theorem ialloc_spec {type : FileType} (hm : m < ninodes) (hc : c m = [])
    (ht : type = if m = rootIno then .dir else .file) :
    Triple (Built c m) (ialloc type) (fun r d => r = m ∧ Built c (m + 1) d) E := by
  refine .of_state fun d h => .bind (Q := fun a s => s = d ∧ a = d)
    (.get fun _ h => ⟨h, h⟩) fun a =>
    .of_pre (fun _ h => h.2) ?_
  rintro rfl
  rename Disk => d
  have hr : Room { d with freeinode := d.freeinode + 1 } :=
    ⟨h.room.len, h.room.lo, h.room.hi, h.room.zero, h.room.super⟩
  refine .bind (Q := fun _ s => s = { d with freeinode := d.freeinode + 1 }) (.set fun _ _ => rfl)
    fun _ => ?_
  rw [h.inode]
  refine (winode_spec (h.inode ▸ hr) hm ⟨show (0 : Nat) <
    _ by decide, fun _ => show (0 : Nat) < _ by decide⟩).bind fun _ => .pure fun d' hw => ⟨rfl, ?_⟩
  have hvol : d'.vol = ⟨update d.vol.nd m
      { Dinode.zero with type := some type, nlink := 1 }, d.vol.bm, d.vol.blk⟩ := hw.vol
  have hnd : ∀ i, i ≠ m → d'.nd i = d.nd i := fun i hi => by
    rw [hw.nd]
    exact update_of_ne hi _ _
  refine ⟨hw.room, hw.inode, Nat.succ_pos m, hm, ?_, fun i hi him => ?_, fun i hi him => ?_, ?_⟩
  · exact h.holds.newNode hc (congrArg some ht) rfl hvol h.pos
  · by_cases hi' : i = m
    · subst hi'
      rw [hw.nd, update_self, hc]
      rfl
    · rw [hnd i hi']
      exact h.size i hi (by omega)
  · by_cases hi' : i = m
    · subst hi'
      rw [hc]
      exact Nat.zero_le _
    · exact h.small i hi (by omega)
  · rw [hw.block]
    refine h.count.trans ?_
    unfold total
    rw [Finset.sum_Ico_succ_top h.pos, hc]
    rfl

/-! ## `iappend` -/

theorem writeRange_getD (l p : List UInt8) (x : Nat) :
    writeRange (fun x => l.getD x 0) l.length p x = (l ++ p).getD x 0 := by
  by_cases h1 : x < l.length
  · rw [writeRange_of_lt h1, List.getD_append _ _ _ _ h1]
  · rw [List.getD_append_right _ _ _ _ (by omega)]
    by_cases h2 : x < l.length + p.length
    · obtain ⟨k, rfl⟩ := Nat.exists_eq_add_of_le (Nat.le_of_not_lt h1)
      rw [writeRange_add (by omega), Nat.add_sub_cancel_left, List.getD_eq_getElem]
    · rw [writeRange_of_ge (by omega), List.getD_eq_default _ _ (by omega),
        List.getD_eq_default _ _ (by omega)]

theorem Holds.appended (h : Holds v m c) (hm : m ≤ ninodes) (h0 : 0 < inum) (hi : inum < m)
    {p : List UInt8} {v₁ : Vol} (ha : Appended inum (c inum).length p v v₁) (hv : Vol.Alike v₁ v') :
    Holds v' m (update c inum (c inum ++ p)) := by
  have hev := ha.filled.evolves
  refine ⟨hv.own hev.own, fun i => ?_, fun i hi0 him x => ?_, fun i hi0 him => ?_⟩
  · rw [(hv.nd i).1, ← h.type]
    by_cases hii : i = inum
    · subst hii
      rw [hev.self]
    · rw [hev.others i hii]
  · rw [hv.byte]
    by_cases hii : i = inum
    · subst hii
      rw [ha.filled.byte, update_self, funext (h.byte i hi0 him)]
      exact writeRange_getD ..
    · rw [hev.byte i x hii (h.live hm hi0 him), update_of_ne hii]
      exact h.byte i hi0 him x
  · by_cases hii : i = inum
    · subst hii
      rw [update_self, List.length_append]
      exact ⟨fun bn hbn => by rw [hv.addr]; exact ha.tight.slot bn hbn,
        by rw [hv.addr]; exact ha.tight.indirect⟩
    · have ht := h.tight i hi0 him
      have hk := fun k => (hv.addr i k).trans (ha.other i hii (h.live hm hi0 him) k)
      rw [update_of_ne hii]
      exact ⟨fun bn hbn => by rw [hk]; exact ht.slot bn hbn, by rw [hk]; exact ht.indirect⟩

theorem iappend_spec (h0 : 0 < inum) (hi : inum < m) (p : List UInt8)
    (hφ : maxFile * bsize < (c inum ++ p).length ∨
      fsSize < total (update c inum (c inum ++ p)) m → φ) :
    Triple (Built c m) (iappend inum p)
      (fun _ => Built (update c inum (c inum ++ p)) m) (fun _ _ => φ) := by
  refine .of_state fun d h => ?_
  have hlt : inum < sb.ninodes := hi.trans_le h.le
  have hlive := h.holds.live h.le h0 hi
  rw [List.length_append, total_split h0 hi, List.length_append] at hφ
  generalize hbase : nmeta + ∑ j ∈ (Finset.Ico 1 m).erase inum, blocks (c j).length = base at hφ
  have hcount : d.freeblock = base + blocks (c inum).length := by
    rw [h.count, ← hbase, ← total_split h0 hi (c inum), update_eq_self]
  have hat : At d.nd m inum (base + blocks (c inum).length) (d.nd inum) d.vol d :=
    ⟨d.volAt_self inum, h.room, rfl, h.inode, hcount⟩
  refine (rinode_spec h.room hlt).bind fun din => .of_pre (fun _ h => h.2) ?_
  rintro rfl
  have hloop := @appendLoop_at d.nd m inum φ base p.length (c inum).length p d.vol (d.nd inum)
    h.holds.own hlive (Nat.le_refl _) (h.holds.tight inum h0 hi) hφ
  rw [h.size inum h0 hi]
  refine .bind (hloop.pre ?_) fun ⟨din', off⟩ => .of_state ?_
  · rintro s ⟨rfl, -⟩
    exact hat
  rintro d₁ ⟨rfl, v₁, hat₁, ha⟩
  have hv₁ := ha.filled.evolves.own
  have hlive₁ := ha.filled.evolves.live.2 hlive
  have hsmall : (c inum).length + p.length ≤ maxFile * bsize := by
    rcases ha.fits with rfl | hle
    · exact h.small inum h0 hi
    · exact hle
  have hdin : ({ din' with size := (c inum).length + p.length } : Dinode).Small := by
    refine ⟨hsmall.trans_lt (by decide), fun k => ?_⟩
    have hk := addrs_lt hv₁ hlive₁ k
    rwa [hat₁.nd_self] at hk
  refine (winode_spec hat₁.room hlt hdin).post fun _ d₂ hw => ?_
  have hnd₁ : d₁.nd = d.nd := hat₁.node
  have halike : Vol.Alike v₁ d₂.vol := by
    rw [hw.vol, ← hat₁.vol]
    refine ⟨rfl, rfl, fun j => ?_⟩
    by_cases hj : j = inum
    · subst hj
      simp [Disk.volAt]
    · simp [Disk.volAt, hj]
  refine ⟨hw.room, hw.inode.trans hat₁.inode, h.pos, h.le,
    h.holds.appended h.le h0 hi ha halike, fun i hi0 him => ?_, fun i hi0 him => ?_, ?_⟩
  · rw [hw.nd]
    by_cases hii : i = inum
    · subst hii
      simp
    · rw [update_of_ne hii, update_of_ne hii, hnd₁]
      exact h.size i hi0 him
  · by_cases hii : i = inum
    · subst hii
      rwa [update_self, List.length_append]
    · rw [update_of_ne hii]
      exact h.small i hi0 him
  · rw [total_split h0 hi, hbase, List.length_append, hw.block, hat₁.block]

end

end Xv6.Fs.Mkfs
