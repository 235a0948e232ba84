import Xv6.Mkfs.Proof.Format

/-!
# `iappend`

`mkfs` gives out the blocks in the order of their numbers and keeps no bitmap until the end. Its
image is read here as a volume in which the blocks below `freeblock` are taken (`Disk.vol`). Every
block that `iappend` takes is then one that a slot grows by, and the blocks stay accounted for
(`Own`); a file of `n` bytes has exactly `blocks n` of them (`Tight`). The program stops in
`iappend` only if the file becomes too long, or if there are not enough blocks.
-/

namespace Xv6.Fs.Mkfs

open Lib Function

variable {b i m r : Nat} {k : Slot} {E : String → Disk → Prop}

theorem data_iff : sb.Data b ↔ nmeta ≤ b ∧ b < fsSize := by
  simp only [Superblock.Data, Superblock.Meta, Superblock.Area, sb, nmeta, nlog, ninodeblocks,
    nbitmap, ninodes, ipb, fsSize, bsize, bpb]
  omega

theorem iblock_lt (h : i < sb.ninodes) : sb.iblock i < sb.bmapstart := by
  simp only [Superblock.iblock, sb, nlog, ninodeblocks, ninodes, ipb] at *
  omega

theorem not_data_iblock (h : i < sb.ninodes) : ¬ sb.Data (sb.iblock i) := fun hd =>
  absurd (data_iff.1 hd).1 (Nat.not_le_of_lt ((iblock_lt h).trans (by decide)))

namespace Disk

/-- The data blocks of the image. -/
def blk (d : Disk) (b : Nat) : Block := if sb.Data b then d.sect b else fun _ => 0

/-- Its inodes. -/
def nd (d : Disk) (i : Nat) : Dinode := if i < sb.ninodes then dinodeAt d.sect sb i else Dinode.zero

/-- The volume in which inode `inum` is `din`. -/
def volAt (d : Disk) (inum : Nat) (din : Dinode) : Vol :=
  ⟨update d.nd inum din, fun b => decide (b < d.freeblock), d.blk⟩

/-- The volume so far; blocks below `freeblock` are in use. -/
def vol (d : Disk) : Vol := ⟨d.nd, fun b => decide (b < d.freeblock), d.blk⟩

theorem volAt_self (d : Disk) (inum : Nat) : d.volAt inum (d.nd inum) = d.vol := by
  unfold volAt vol
  rw [update_eq_self]

theorem nd_write {d d' : Disk} {buf : Block} (hb : sb.Data b) (h : d'.sect = update d.sect b buf) :
    d'.nd = d.nd := by
  funext j
  unfold nd
  split
  · next hj =>
    rw [h]
    exact dinodeAt_of_ne fun heq => not_data_iblock hj (heq ▸ hb)
  · rfl

end Disk

/-- The counters are in range, and what they have not given out is zeroed. -/
structure Room (d : Disk) : Prop where
  len : d.len = fsSize
  lo : nmeta ≤ d.freeblock
  hi : d.freeblock ≤ fsSize
  zero : ∀ b, d.freeblock ≤ b → d.sect b = fun _ => 0
  super : d.sect 1 = Block.write (fun _ => 0) 0 sbBytes

/-- The blocks of a file of `n` bytes, the indirect one included. -/
def blocks (n : Nat) : Nat := (n + (bsize - 1)) / bsize + if ndirect * bsize < n then 1 else 0

/-- Inode `i` has exactly the blocks for `n` bytes. -/
structure Tight (v : Vol) (i n : Nat) : Prop where
  slot : ∀ bn < maxFile, v.addr i (blockSlot bn) ≠ 0 ↔ bn * bsize < n
  indirect : v.addr i .indirect ≠ 0 ↔ ndirect * bsize < n

/-- The blocks to allocate for block `fbn`. -/
def need (v : Vol) (i fbn : Nat) : Nat :=
  (if ndirect ≤ fbn ∧ v.addr i .indirect = 0 then 1 else 0) +
    if v.addr i (blockSlot fbn) = 0 then 1 else 0

/-- Block `fbn` is there, and no slot but its own was filled. -/
structure Placed (i : Nat) (v v' : Vol) (fbn r : Nat) : Prop where
  mapped : Mapped sb i v v' (blockSlot fbn) r
  slot : ∀ k, v'.addr i k ≠ 0 ↔
    v.addr i k ≠ 0 ∨ k = blockSlot fbn ∨ ndirect ≤ fbn ∧ k = .indirect
  other : ∀ j, j ≠ i → v.Live sb j → ∀ k, v'.addr j k = v.addr j k

theorem blocks_mono {n : Nat} (h : m ≤ n) : blocks m ≤ blocks n := by
  unfold blocks
  have := Nat.div_le_div_right (c := bsize) (Nat.add_le_add_right h (bsize - 1))
  split <;> split <;> omega

theorem Tight.need {v : Vol} {off : Nat} (h : Tight v i off) (hbn : off / bsize < maxFile)
    (hm : 0 < m) (hmb : off % bsize + m ≤ bsize) :
    blocks off + need v i (off / bsize) = blocks (off + m) := by
  have h1 : v.addr i (blockSlot (off / bsize)) = 0 ↔ ¬ off / bsize * bsize < off :=
    not_not.symm.trans (not_congr (h.slot _ hbn))
  have h2 : v.addr i .indirect = 0 ↔ ¬ ndirect * bsize < off :=
    not_not.symm.trans (not_congr h.indirect)
  have h3 := Nat.div_add_mod off bsize
  simp only [Mkfs.need, blocks, h1, h2, bsize, ndirect] at *
  split_ifs <;> omega

theorem Tight.placed {v v' : Vol} {off : Nat} (h : Tight v i off)
    (hp : Placed i v v' (off / bsize) r) (hbn : off / bsize < maxFile) (hm : 0 < m)
    (hmb : off % bsize + m ≤ bsize) : Tight v' i (off + m) := by
  have h3 := Nat.div_add_mod off bsize
  refine ⟨fun bn hlt => ?_, ?_⟩
  · have hinj : blockSlot bn = blockSlot (off / bsize) ↔ bn = off / bsize :=
      ⟨blockSlot_inj hlt hbn, fun h => by rw [h]⟩
    rw [hp.slot, h.slot bn hlt, hinj]
    simp only [blockSlot_ne_indirect, and_false, or_false]
    simp only [bsize] at *
    omega
  · have hne : (.indirect : Slot) ≠ blockSlot (off / bsize) := (blockSlot_ne_indirect _).symm
    rw [hp.slot, h.indirect]
    simp only [hne, false_or, and_true]
    simp only [bsize, ndirect] at *
    omega

section
variable {nd : Nat → Dinode} {fi inum : Nat} {φ : Prop} {fb : Nat} {din : Dinode} {v : Vol}

/-- Where `iappend` is: `din` is not yet written back. -/
structure At (nd : Nat → Dinode) (fi inum fb : Nat) (din : Dinode) (v : Vol) (d : Disk) : Prop where
  vol : d.volAt inum din = v
  room : Room d
  node : d.nd = nd
  inode : d.freeinode = fi
  block : d.freeblock = fb

namespace At

section
variable (h : At nd fi inum fb din v d)
include h

theorem nd_self : v.nd inum = din := by
  rw [← h.vol]
  exact update_self ..

theorem bm (b : Nat) : v.bm b = decide (b < fb) := by
  rw [← h.vol, ← h.block]
  rfl

theorem blk (hb : sb.Data b) : v.blk b = d.sect b := by
  rw [← h.vol]
  exact if_pos hb

theorem addr (k : Fin (ndirect + 1)) :
    v.addr inum (.addr k) = din.addrs k := by
  unfold Vol.addr
  rw [h.nd_self]

theorem growable (hv : v.Own sb) (hi : v.Live sb inum) (hlt : fb < fsSize) (hk : v.addr inum k = 0)
    (he : ∀ j, k = .entry j → v.addr inum .indirect ≠ 0) : v.Growable sb inum k fb := by
  have hlo : nmeta ≤ fb := h.block ▸ h.room.lo
  refine ⟨hv, hi, ?_, data_iff.2 ⟨hlo, hlt⟩, hlt.trans (by decide), hk, he⟩
  rw [h.bm]
  exact decide_eq_false (Nat.lt_irrefl fb)

theorem fresh_bm :
    (fun b => decide (b < fb + 1)) = update v.bm fb true := by
  funext b
  by_cases hb : b = fb
  · subst hb
    simp
  · rw [update_of_ne hb, h.bm]
    exact decide_eq_decide.2 (by omega)

theorem fresh_blk : update v.blk fb (fun _ => 0) = v.blk := by
  refine (eq_update_self_iff.2 ?_).symm
  rw [← h.vol]
  show d.blk fb = _
  unfold Disk.blk
  split
  · exact h.room.zero fb (h.block ▸ Nat.le_refl _)
  · rfl

theorem room_next (hlt : fb < fsSize) :
    Room { d with freeblock := d.freeblock + 1 } :=
  ⟨h.room.len, Nat.le_succ_of_le h.room.lo, by rw [h.block]; exact hlt,
    fun b hb => h.room.zero b (Nat.le_of_succ_le hb), h.room.super⟩

theorem growSlot (hlt : fb < fsSize) (k : Fin (ndirect + 1)) :
    At nd fi inum (fb + 1) { din with addrs := update din.addrs k fb }
      (v.grow inum (.addr k) fb) { d with freeblock := d.freeblock + 1 } := by
  refine ⟨?_, h.room_next hlt, h.node, h.inode, congrArg (· + 1) h.block⟩
  have hnd : update v.nd inum
      { din with addrs := update din.addrs k fb } =
        update d.nd inum
          { din with addrs := update din.addrs k fb } := by
    rw [← h.vol]
    exact update_idem ..
  unfold Vol.grow Vol.setSlot Vol.fresh Disk.volAt
  simp only [h.nd_self, hnd, ← h.fresh_bm, h.fresh_blk, h.block]
  rw [← h.vol]
  rfl

theorem write (hb : sb.Data b) (hlt : b < fb) (buf : Block) :
    At nd fi inum fb din ⟨v.nd, v.bm, update v.blk b buf⟩
      { d with sect := update d.sect b buf, len := max d.len (b + 1) } := by
  obtain ⟨hlo, hhi⟩ := data_iff.1 hb
  have hnd : Disk.nd { d with sect := update d.sect b buf, len := max d.len (b + 1) } = d.nd :=
    Disk.nd_write hb rfl
  refine ⟨?_, ⟨?_, h.room.lo, h.room.hi, fun b' hb' => ?_, ?_⟩, hnd.trans h.node, h.inode, h.block⟩
  · unfold Disk.volAt
    rw [hnd, ← h.vol]
    unfold Disk.volAt
    congr 1
    funext b'
    by_cases hbb : b' = b
    · subst hbb
      simp [Disk.blk, hb]
    · simp [Disk.blk, hbb]
  · show max d.len (b + 1) = fsSize
    rw [h.room.len]
    exact Nat.max_eq_left hhi
  · have hb'' : fb ≤ b' := h.block ▸ hb'
    exact (update_of_ne (by omega) _ _).trans (h.room.zero b' hb')
  · have h1 : 1 < nmeta := by decide
    exact (update_of_ne (by omega) _ _).trans h.room.super

theorem growEntry (hv : v.Own sb) (hi : v.Live sb inum)
    (hlt : fb < fsSize) (j : Fin nindirect) (h0 : v.addr inum .indirect ≠ 0) :
    At nd fi inum (fb + 1) din (v.grow inum (.entry j) fb)
      { d with
        sect := update d.sect (v.addr inum .indirect)
          ((d.sect (v.addr inum .indirect)).setWord j fb)
        len := max d.len (v.addr inum .indirect + 1)
        freeblock := d.freeblock + 1 } := by
  obtain ⟨hdata, hbm⟩ := hv.data hi h0
  rw [h.bm, decide_eq_true_eq] at hbm
  have hnext : At nd fi inum (fb + 1) din ⟨v.nd, update v.bm fb true, v.blk⟩
      { d with freeblock := d.freeblock + 1 } := by
    refine ⟨?_, h.room_next hlt, h.node, h.inode, congrArg (· + 1) h.block⟩
    rw [← h.fresh_bm, ← h.block, ← h.vol]
    rfl
  have hw := hnext.write hdata (Nat.lt_succ_of_lt hbm)
    ((d.sect (v.addr inum .indirect)).setWord j fb)
  have hgrow : v.grow inum (.entry j) fb = ⟨v.nd, update v.bm fb true,
      update v.blk (v.addr inum .indirect)
        ((d.sect (v.addr inum .indirect)).setWord j fb)⟩ := by
    unfold Vol.grow Vol.setSlot Vol.fresh
    rw [h.fresh_blk, ← h.blk hdata]
    rfl
  rw [hgrow]
  exact hw

end

end At

/-! ## The program -/

/-- The image is full. -/
def Over (r : Nat) (d : Disk) : Prop := d.len = fsSize ∧ fsSize ≤ r

theorem rsect_over {α : Type} {f : Block → M α} {Q : α → Disk → Prop} (hφ : φ) :
    Triple (Over r) (rsect r >>= f) Q (fun _ _ => φ) := by
  refine .bind (Q := fun _ _ => False) (.bind (Q := fun a d => d.len = fsSize ∧ a = d ∧ fsSize ≤ r)
    (.get fun d h => ⟨h.1, rfl, h.2⟩) fun a => .ite (fun hlt => .of_pre (φ := False) ?_ nofun)
      fun _ => .throw fun _ _ => hφ) fun _ _ h => h.elim
  rintro d ⟨h1, rfl, h2⟩
  omega

theorem rsect_at (hr : sb.Data r) :
    Triple (At nd fi inum fb din v) (rsect r)
      (fun buf d => At nd fi inum fb din v d ∧ buf = d.sect r) E := by
  refine .bind (Q := fun a d => At nd fi inum fb din v d ∧ a = d) (.get fun d h => ⟨h, rfl⟩)
    fun a => .of_pre (φ := a.len = fsSize) ?_ fun hlen => ?_
  · rintro d ⟨h, rfl⟩
    exact h.room.len
  · rw [if_pos (hlen ▸ (data_iff.1 hr).2)]
    exact .pure fun d h => ⟨h.1, by rw [h.2]⟩

theorem wsect_at (hr : sb.Data r) (hlt : r < fb) (buf : Block) :
    Triple (At nd fi inum fb din v) (wsect r buf)
      (fun _ => At nd fi inum fb din ⟨v.nd, v.bm, update v.blk r buf⟩) E :=
  .modify fun _ h => h.write hr hlt buf

/-- What `takeSlot` and `appendBlock` do: they find or take a block, or run out of them. -/
def Takes (nd : Nat → Dinode) (fi inum : Nat) (φ : Prop) (fb : Nat) (din : Dinode) (r : Nat)
    (G : Vol → Prop) (d : Disk) : Prop :=
  (∃ v', At nd fi inum fb din v' d ∧ G v') ∨ (Over r d ∧ φ)

/-- One slot is filled. -/
structure Filled1 (i : Nat) (v v' : Vol) (k : Slot) (r : Nat) : Prop where
  mapped : Mapped sb i v v' k r
  slot : ∀ k', v'.addr i k' ≠ 0 ↔ v.addr i k' ≠ 0 ∨ k' = k
  other : ∀ j, j ≠ i → v.Live sb j → ∀ k', v'.addr j k' = v.addr j k'

theorem Filled1.same (hv : v.Own sb) (h : v.addr i k ≠ 0) :
    Filled1 i v v k (v.addr i k) := by
  refine ⟨.same hv h, fun k' => ⟨.inl, ?_⟩, fun _ _ _ _ => rfl⟩
  rintro (h' | rfl)
  · exact h'
  · exact h

theorem Filled1.new {a : Nat} (h : v.Growable sb i k a) :
    Filled1 i v (v.grow i k a) k a := by
  refine ⟨.new h, fun k' => ?_, fun j hj hl k' => ?_⟩
  · rw [Vol.grow_addr h h.live]
    by_cases hk : k' = k
    · simp [hk, Vol.data_ne_zero h.data]
    · simp [hk]
  · rw [Vol.grow_addr h hl, if_neg fun h' => hj h'.1]

theorem nextBlock_spec {P : Disk → Prop} :
    Triple P nextBlock (fun x d' => ∃ d, P d ∧ x = d.freeblock ∧
      d' = { d with freeblock := d.freeblock + 1 }) E :=
  fun d h => ⟨d, h, rfl, rfl⟩

theorem takeSlot_at (hv : v.Own sb) (hi : v.Live sb inum) (k : Fin (ndirect + 1))
    (hφ : fsSize < fb + (if v.addr inum (.addr k) = 0 then 1 else 0) → φ) :
    Triple (At nd fi inum fb din v) (takeSlot din k)
      (fun din' => Takes nd fi inum φ (fb + if v.addr inum (.addr k) = 0 then 1 else 0) din'
        (din'.addrs k) fun v' => Filled1 inum v v' (.addr k) (din'.addrs k)) (fun _ _ => φ) := by
  refine .of_pre (φ := v.addr inum (.addr k) = din.addrs k) (fun _ h => h.addr k) fun haddr => ?_
  refine .ite (fun h0 => ?_) fun h0 => .pure fun d h => .inl ⟨v, ?_, ?_⟩
  · rw [if_pos (haddr.trans h0)] at hφ ⊢
    refine nextBlock_spec.bind fun x => .pure ?_
    rintro _ ⟨d, h, rfl, rfl⟩
    have hself : update din.addrs k d.freeblock k = fb := by
      rw [update_self, h.block]
    by_cases hlt : fb < fsSize
    · refine .inl ⟨v.grow inum (.addr k) fb, ?_, ?_⟩
      · rw [h.block]
        have := h.growSlot hlt k
        rwa [h.block] at this
      · show Filled1 inum v _ _ (update din.addrs k d.freeblock k)
        rw [hself]
        exact .new (h.growable hv hi hlt (haddr.trans h0) nofun)
    · refine .inr ⟨⟨h.room.len, ?_⟩, hφ (by omega)⟩
      show fsSize ≤ update din.addrs k d.freeblock k
      omega
  · rw [if_neg (haddr ▸ h0)]
    exact h
  · rw [← haddr] at h0 ⊢
    exact .same hv h0

theorem Placed.entry {r' fbn : Nat} {v' v'' : Vol} (hd : ¬ fbn < ndirect)
    (h : Filled1 i v v' .indirect r) (h' : Filled1 i v' v'' (blockSlot fbn) r') :
    Placed i v v'' fbn r' := by
  have he : blockSlot fbn = .entry (Fin.ofNat nindirect (fbn - ndirect)) := dif_neg hd
  refine ⟨?_, fun k => ?_, fun j hj hl k =>
    (h'.other j hj (h.mapped.evolves.live.2 hl) k).trans (h.other j hj hl k)⟩
  · rw [he]
    exact h.mapped.entry (he ▸ h'.mapped)
  · rw [h'.slot, h.slot]
    simp only [Nat.le_of_not_lt hd, true_and]
    tauto

theorem appendBlock_at (hv : v.Own sb) (hi : v.Live sb inum) {fbn : Nat} (hbn : fbn < maxFile)
    (hφ : fsSize < fb + need v inum fbn → φ) :
    Triple (At nd fi inum fb din v) (appendBlock din fbn)
      (fun r => Takes nd fi inum φ (fb + need v inum fbn) r.1 r.2
        fun v' => Placed inum v v' fbn r.2) (fun _ _ => φ) := by
  unfold appendBlock
  by_cases hd : fbn < ndirect
  · have hslot : blockSlot fbn = .addr (Fin.castSucc ⟨fbn, hd⟩) := dif_pos hd
    have hneed : need v inum fbn =
        if v.addr inum (.addr (Fin.castSucc ⟨fbn, hd⟩)) = 0 then 1 else 0 := by
      unfold need
      rw [if_neg fun h => absurd h.1 (Nat.not_le_of_lt hd), hslot, Nat.zero_add]
    rw [dif_pos hd, hneed]
    refine (takeSlot_at hv hi _ (hneed ▸ hφ)).bind fun din' => .pure fun d h => ?_
    rcases h with ⟨v', h, hf⟩ | h
    · refine .inl ⟨v', h, hslot ▸ hf.mapped, fun k => ?_, hf.other⟩
      rw [hf.slot, hslot]
      simp [Nat.not_le_of_lt hd]
    · exact .inr h
  · have hlt : fbn - ndirect < nindirect := by
      simp only [maxFile, ndirect, nindirect] at *
      omega
    have hmod : (Fin.ofNat nindirect (fbn - ndirect)).val = fbn - ndirect := Nat.mod_eq_of_lt hlt
    have hslot : blockSlot fbn = .entry (Fin.ofNat nindirect (fbn - ndirect)) := dif_neg hd
    generalize hn1 : (if v.addr inum .indirect = 0 then 1 else 0) = n1
    generalize hn2 : (if v.addr inum (blockSlot fbn) = 0 then 1 else 0) = n2
    have hneed : need v inum fbn = n1 + n2 := by
      unfold need
      simp only [Nat.le_of_not_lt hd, true_and, hn1, hn2]
    rw [dif_neg hd, hneed]
    rw [hneed] at hφ
    refine (takeSlot_at hv hi (Fin.last ndirect) (fun h => hφ (by rw [hn1] at h; omega))).bind
      fun din' => ?_
    rw [hn1]
    refine .or_pre (.exists_pre fun v₁ => .of_and fun hf => ?_)
      (.of_pre (fun _ h => h.2) fun hφ' => (rsect_over hφ').pre fun _ h => h.1)
    have hi₁ := hf.mapped.evolves.live.2 hi
    have hv₁ := hf.mapped.evolves.own
    have h0 : v₁.addr inum .indirect ≠ 0 := hf.mapped.addr ▸ hf.mapped.pos
    have hdata := (hv₁.data hi₁ h0).1
    have haddr : din'.addrs (Fin.last ndirect) = v₁.addr inum .indirect := hf.mapped.addr.symm
    -- the entry is empty before and after
    have hentry : v₁.addr inum (blockSlot fbn) = 0 ↔ v.addr inum (blockSlot fbn) = 0 := by
      have := hf.slot (blockSlot fbn)
      simp only [blockSlot_ne_indirect, or_false] at this
      exact not_iff_not.1 this
    rw [haddr]
    refine (rsect_at hdata).bind fun buf => .of_state fun d ⟨h, hbuf⟩ => ?_
    have hword : v₁.addr inum (blockSlot fbn) = buf.word (fbn - ndirect) := by
      rw [hslot, Vol.addr_entry, if_neg h0, h.blk hdata, hmod, hbuf]
    rw [← hword]
    refine .ite (fun hz => ?_) fun hz => .pure ?_
    · rw [if_pos (hentry.1 hz)] at hn2
      subst hn2
      rintro d' rfl
      show Takes _ _ _ _ _ din' d'.freeblock _ { d' with
        sect := update d'.sect (v₁.addr inum .indirect) (buf.setWord (fbn - ndirect) d'.freeblock)
        len := max d'.len (v₁.addr inum .indirect + 1)
        freeblock := d'.freeblock + 1 }
      by_cases hlt' : fb + n1 < fsSize
      · refine .inl ⟨v₁.grow inum (blockSlot fbn) (fb + n1), ?_, ?_⟩
        · have := h.growEntry hv₁ hi₁ hlt' (Fin.ofNat nindirect (fbn - ndirect)) h0
          rw [hmod] at this
          rw [hslot, hbuf, h.block]
          rwa [h.block] at this
        · rw [h.block]
          exact .entry hd hf (.new (h.growable hv₁ hi₁ hlt' hz fun _ _ => h0))
      · refine .inr ⟨⟨?_, ?_⟩, hφ (by omega)⟩
        · show max d'.len _ = fsSize
          rw [h.room.len]
          exact Nat.max_eq_left (data_iff.1 hdata).2
        · rw [h.block]
          omega
    · rintro _ rfl
      rw [if_neg fun h => hz (hentry.2 h)] at hn2
      subst hn2
      exact .inl ⟨v₁, h, .entry hd hf (.same hv₁ hz)⟩

/-- What `iappend` has done. -/
structure Appended (i off : Nat) (p : List UInt8) (v v' : Vol) : Prop where
  filled : Filled sb i off p v v'
  tight : Tight v' i (off + p.length)
  fits : p = [] ∨ off + p.length ≤ maxFile * bsize
  other : ∀ j, j ≠ i → v.Live sb j → ∀ k, v'.addr j k = v.addr j k

theorem appendLoop_at {base : Nat} : ∀ turns off (p : List UInt8) (v : Vol) din, v.Own sb →
    v.Live sb inum → p.length ≤ turns → Tight v inum off →
    (maxFile * bsize < off + p.length ∨ fsSize < base + blocks (off + p.length) → φ) →
      Triple (At nd fi inum (base + blocks off) din v) (appendLoop turns din off p)
        (fun r d => r.2 = off + p.length ∧
          ∃ v', At nd fi inum (base + blocks (off + p.length)) r.1 v' d ∧ Appended inum off p v v')
        (fun _ _ => φ)
  | 0, off, p, v, din, hv, _, hn, ht, _ => by
    obtain rfl : p = [] := List.length_eq_zero_iff.1 (by omega)
    exact .pure fun _ h => ⟨rfl, v, h, .nil hv, ht, .inl rfl, fun _ _ _ _ => rfl⟩
  | turns + 1, off, p, v, din, hv, hi, hn, ht, hφ => by
    refine .ite (fun h0 => ?_) fun h0 => .ite (fun hbn => ?_) fun hbn => .throw
      fun _ _ => hφ (.inl ?_)
    · obtain rfl : p = [] := List.length_eq_zero_iff.1 h0
      exact .pure fun _ h => ⟨rfl, v, h, .nil hv, ht, .inl rfl, fun _ _ _ _ => rfl⟩
    · have hdiv : off - off / bsize * bsize = off % bsize := by
        simp only [bsize]
        omega
      have hlen : (off / bsize + 1) * bsize - off = bsize - off % bsize := by
        simp only [bsize]
        omega
      have hmod := Nat.mod_lt off (show 0 < bsize by decide)
      rw [hdiv, hlen]
      generalize hm : min p.length (bsize - off % bsize) = m
      have hm0 : 0 < m := by omega
      have hmb : off % bsize + m ≤ bsize := by omega
      have hneed := ht.need hbn hm0 hmb
      have hle : blocks (off + m) ≤ blocks (off + p.length) := blocks_mono (by omega)
      refine (appendBlock_at hv hi hbn fun h => hφ (.inr (by omega))).bind fun ⟨din', x⟩ => ?_
      rw [Nat.add_assoc, hneed]
      refine .or_pre (.exists_pre fun v₁ => .of_and fun hp => ?_)
        (.of_pre (fun _ h => h.2) fun hφ' => (rsect_over hφ').pre fun _ h => h.1)
      have hi₁ := hp.mapped.evolves.live.2 hi
      have hv₁ := hp.mapped.evolves.own
      have hx : v₁.addr inum (blockSlot (off / bsize)) = x := hp.mapped.addr
      have h0₁ : v₁.addr inum (blockSlot (off / bsize)) ≠ 0 := hx ▸ hp.mapped.pos
      obtain ⟨hdata, hbm⟩ := hv₁.data hi₁ h0₁
      rw [hx] at hdata hbm
      refine (rsect_at hdata).bind fun buf => .of_pre
        (φ := buf = v₁.blk x ∧ x < base + blocks (off + m)) ?_ ?_
      · rintro d ⟨h, rfl⟩
        rw [h.bm, decide_eq_true_eq] at hbm
        exact ⟨(h.blk hdata).symm, hbm⟩
      rintro ⟨rfl, hlt⟩
      refine ((wsect_at hdata hlt _).pre fun _ h => h.1).bind fun _ => ?_
      have hst := Vol.Evolves.store (off % bsize) (p.take m) hv₁ hi₁ (blockSlot_ne_indirect _) h0₁
      have htight : Tight (v₁.store x (off % bsize) (p.take m)) inum (off + m) := by
        have h1 := ht.placed hp hbn hm0 hmb
        have h2 : ∀ k, (v₁.store x (off % bsize) (p.take m)).addr inum k = v₁.addr inum k := by
          rw [← hx]
          exact Vol.store_addr hv₁ hi₁ (blockSlot_ne_indirect _) h0₁ hi₁
        exact ⟨fun bn hbn => by rw [h2]; exact h1.slot bn hbn, by rw [h2]; exact h1.indirect⟩
      rw [hx] at hst
      have hsum : off + m + (p.length - m) = off + p.length := by omega
      have ih := appendLoop_at turns (off + m) (p.drop m) _ din' hst.own (hst.live.2 hi₁)
        (by rw [List.length_drop]; omega) htight (by rw [List.length_drop, hsum]; exact hφ)
      rw [List.length_drop, hsum] at ih
      refine ih.post fun r d ⟨hr, v₂, h, ha⟩ => ⟨hr, v₂, h, ?_, ?_, .inr ?_, fun j hj hl k => ?_⟩
      · exact .cons hi hbn (by omega) hm0 hmb hp.mapped ha.filled
      · have := ha.tight
        rwa [List.length_drop, hsum] at this
      · rcases ha.fits with hnil | hle
        · have hpm : p.length ≤ m := List.drop_eq_nil_iff.1 hnil
          simp only [maxFile, ndirect, nindirect, bsize] at *
          omega
        · rwa [List.length_drop, hsum] at hle
      · have hl₁ := hp.mapped.evolves.live.2 hl
        rw [ha.other j hj (hst.live.2 hl₁), ← hp.other j hj hl, ← hx]
        exact Vol.store_addr hv₁ hi₁ (blockSlot_ne_indirect _) h0₁ hl₁ k
    · simp only [maxFile, ndirect, nindirect, bsize] at *
      omega

end

end Xv6.Fs.Mkfs
