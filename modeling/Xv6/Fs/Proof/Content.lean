import Xv6.Fs.Proof.Refs
import Xv6.Fs.Proof.Volume

/-!
# Contents of inodes

What `balloc`, `bmap`, `readi`, `writei` and `itrunc` do to the volume. While a call works on the
inode of a cache entry `ip`, the entry is ahead of the disk; the volume at that moment (`volAt`) has
the entry's fields in place of those on disk.
-/

namespace Xv6.Fs

open Lib Function

variable {s s' : State} {b i off : Nat} {sb : Superblock} {v' w : Vol} {T : Finset Slot}
  {src : List UInt8} {A : Fin (ndirect + 1) → Nat}

/-- The disk. -/
def Core.vol (s : Core) : Vol := ⟨s.dinode, s.bitmap, s.block⟩

/-- The disk, with the fields of the entry `ip` in place of those on disk. -/
def Core.volAt (s : Core) (ip : Fin ninode) : Vol :=
  ⟨update s.dinode (s.icache ip).inum (s.icache ip).toDinode, s.bitmap, s.block⟩

/-- Since `s` no lock was taken and no inode allocated. -/
def Logged (s s' : State) : Prop :=
  ∃ es, s'.hist = es ++ s.hist ∧ ∀ m ∈ es, (∀ k, m.1 ≠ .acquire k) ∧ ∀ i, m.1 ≠ .alloc i

theorem Logged.one {m : Event × Core} (h : s'.hist = m :: s.hist) (hk : ∀ k, m.1 ≠ .acquire k)
    (hi : ∀ i, m.1 ≠ .alloc i) : Logged s s' :=
  ⟨[m], h, by simpa using ⟨hk, hi⟩⟩

theorem Logged.refl (s : State) : Logged s s := ⟨[], rfl, nofun⟩

theorem Logged.trans {s'' : State} (h : Logged s s') (h' : Logged s' s'') : Logged s s'' := by
  obtain ⟨es, he, hl⟩ := h
  obtain ⟨es', he', hl'⟩ := h'
  refine ⟨es' ++ es, by rw [he', he, List.append_assoc], fun m hm => ?_⟩
  rcases List.mem_append.1 hm with hm | hm
  · exact hl' m hm
  · exact hl m hm

/-- Since `s₀` only the volume, which is now `v`, and the `addrs[]` of the entry of inode `i`
changed. -/
structure At (ip : Fin ninode) (i : Nat) (s₀ : State) (v : Vol) (s : State) : Prop where
  number : (s₀.icache ip).inum = i
  vol : s.volAt ip = v
  entry : s.icache = update s₀.icache ip { s₀.icache ip with addrs := (s.icache ip).addrs }
  dinode : s.dinode = s₀.dinode
  ftable : s.ftable = s₀.ftable
  procs : s.procs = s₀.procs
  hist : Logged s₀ s

namespace At

variable {ip : Fin ninode} {s₀ s : State} {v : Vol}

theorem start (s : State) (ip : Fin ninode) : At ip (s.icache ip).inum s (s.volAt ip) s :=
  ⟨rfl, rfl, by simp, rfl, rfl, rfl, .refl s⟩

section
variable (h : At ip i s₀ v s)
include h

theorem self :
    s.icache ip = { s₀.icache ip with addrs := (s.icache ip).addrs } := by
  have := congrFun h.entry ip
  rwa [update_self] at this

theorem inum : (s.icache ip).inum = i := by
  rw [h.self]
  exact h.number

theorem addrs (k : Fin (ndirect + 1)) :
    (s.icache ip).addrs k = v.addr i (.addr k) := by
  rw [← h.vol, ← h.inum]
  simp [Core.volAt, Vol.addr]

theorem nd : v.nd i = (s.icache ip).toDinode := by
  rw [← h.vol, ← h.inum]
  simp [Core.volAt]

theorem bitmap : s.bitmap = v.bm := by rw [← h.vol]; rfl

theorem block : s.block = v.blk := by rw [← h.vol]; rfl

end

end At

/-- The disk is full. -/
def OutOfBlocks (e : Stop) (_ : State) : Prop := e = .panic "balloc: out of blocks"

section
variable {c : Ctx} {ip : Fin ninode} {s₀ : State} {v : Vol} {E : Stop → State → Prop}
variable {k : Fin (ndirect + 1)} {a bn : Nat}

theorem logWrite_at (b : Nat) : Triple (At ip i s₀ v) (logWrite b) (fun _ => At ip i s₀ v) E :=
  .modify fun s h => ⟨h.number, h.vol, h.entry, h.dinode, h.ftable, h.procs,
    h.hist.trans (.one (m := (.logWrite b, s.toCore)) rfl nofun nofun)⟩

theorem setBit_at (b : Nat) (x : Bool) :
    Triple (At ip i s₀ v) (setBit c b x)
      (fun _ => At ip i s₀ ⟨v.nd, update v.bm b x, v.blk⟩) E := by
  refine .bind (Q := fun _ => At ip i s₀ ⟨v.nd, update v.bm b x, v.blk⟩) (.modify ?_)
    fun _ => logWrite_at _
  rintro s ⟨h0, rfl, h1, h2, h3, h4, h5⟩
  exact ⟨h0, rfl, h1, h2, h3, h4, h5⟩

theorem setBlock_at (b : Nat) (x : Block) :
    Triple (At ip i s₀ v) (setBlock b x)
      (fun _ => At ip i s₀ ⟨v.nd, v.bm, update v.blk b x⟩) E := by
  refine .bind (Q := fun _ => At ip i s₀ ⟨v.nd, v.bm, update v.blk b x⟩) (.modify ?_)
    fun _ => logWrite_at _
  rintro s ⟨h0, rfl, h1, h2, h3, h4, h5⟩
  exact ⟨h0, rfl, h1, h2, h3, h4, h5⟩

theorem bread_spec {P : State → Prop} (hb : c.sb.Plain b) :
    Triple P (bread c b) (fun x s => P s ∧ x = s.block b) E := by
  unfold bread
  rw [if_pos hb]
  exact .bind (Q := fun a s => P s ∧ a = s) (.get fun _ h => ⟨h, rfl⟩)
    fun _ => .pure fun _ h => ⟨h.1, by rw [h.2]⟩

theorem bread_at (hb : c.sb.Data b) :
    Triple (At ip i s₀ v) (bread c b) (fun x s => At ip i s₀ v s ∧ x = v.blk b) E :=
  (bread_spec hb.plain).post fun x s h => ⟨h.1, by rw [h.2, h.1.block]⟩

theorem balloc_at (hv : v.Own c.sb) :
    Triple (At ip i s₀ v) (balloc c)
      (fun a s => At ip i s₀ (v.fresh a) s ∧ v.bm a = false ∧ c.sb.Data a)
      fun e s => OutOfBlocks e s ∧ v.free c.sb = ∅ := by
  refine .bind (Q := fun a s => At ip i s₀ v s ∧ a.bitmap = v.bm)
    (.get fun s h => ⟨h, h.bitmap⟩) fun s₁ => .of_and fun hbm => ?_
  split
  · next a hf =>
    have hfree : v.bm a = false := by
      have := List.find?_some hf
      rw [hbm] at this
      simpa using this
    have hlt : a < c.sb.size := List.mem_range.1 (List.mem_of_find?_eq_some hf)
    have hdata := hv.free_data hfree hlt
    refine (setBit_at a true).bind fun _ => ?_
    refine .bind (Q := fun _ => At ip i s₀ (v.fresh a)) ?_ fun _ =>
      .pure fun _ h => ⟨h, hfree, hdata⟩
    exact .bind (.post (bread_at hdata) fun _ _ h => h.1) fun _ => setBlock_at a _
  · next hf =>
    refine .throw fun _ _ => ⟨rfl, Finset.filter_eq_empty_iff.2 fun b hb => ?_⟩
    have := List.find?_eq_none.1 hf b (List.mem_range.2 (Finset.mem_range.1 hb))
    rw [hbm] at this
    simpa using this

theorem setAddr_at (k : Fin (ndirect + 1)) (a : Nat) :
    Triple (At ip i s₀ v) (modInode ip fun i => { i with addrs := update i.addrs k a })
      (fun _ => At ip i s₀ (v.setSlot i (.addr k) a)) E := by
  refine .modify fun s h => ?_
  have hnd := h.nd
  have hinum := h.inum
  refine ⟨h.number, ?_, ?_, h.dinode, h.ftable, h.procs, h.hist⟩
  · rw [← h.vol] at hnd ⊢
    unfold Core.volAt Vol.setSlot
    dsimp only
    rw [update_self, ← hinum]
    simp
  · dsimp only
    rw [update_self, h.entry, update_idem, update_self]

/-! ## `bmap` -/

theorem getInode_at :
    Triple (At ip i s₀ v) (getInode ip)
      (fun x s => At ip i s₀ v s ∧ ∀ k, x.addrs k = v.addr i (.addr k)) E :=
  (getInode_spec ip).post fun x s h => ⟨h.1, fun k => by rw [h.2, h.1.addrs]⟩

/-- The inode has the block `r` in its slot `k` now, and its contents are what they were. -/
structure Mapped (sb : Superblock) (i : Nat) (v v' : Vol) (k : Slot) (r : Nat) : Prop where
  evolves : v.Evolves sb i v'
  byte : ∀ x, v'.byte i x = v.byte i x
  addr : v'.addr i k = r
  pos : r ≠ 0
  old : v.addr i k ≠ 0 → v' = v

theorem Mapped.same {k : Slot} (hv : v.Own sb) (h : v.addr i k ≠ 0) :
    Mapped sb i v v k (v.addr i k) := ⟨.refl hv, fun _ => rfl, rfl, h, fun _ => rfl⟩

theorem Mapped.new {k : Slot} (h : v.Growable sb i k a) :
    Mapped sb i v (v.grow i k a) k a :=
  ⟨.grow h, Vol.grow_byte h h.live, by rw [Vol.grow_addr h h.live, if_pos ⟨rfl, rfl⟩],
    Vol.data_ne_zero h.data, fun h' => absurd h.empty h'⟩

theorem Mapped.entry {r r' : Nat} {e : Fin nindirect} {v'' : Vol} (h : Mapped sb i v v' .indirect r)
    (h' : Mapped sb i v' v'' (.entry e) r') :
    Mapped sb i v v'' (.entry e) r' := by
  refine ⟨h.evolves.trans h'.evolves, fun x => (h'.byte x).trans (h.byte x), h'.addr, h'.pos,
    fun h0 => ?_⟩
  obtain rfl : v' = v := h.old fun hz => h0 (by rw [Vol.addr_entry, if_pos hz])
  exact h'.old h0

/-- Where the room for the slots `T` was enough, it is enough for what is left to fill. -/
def Roomy (sb : Superblock) (i : Nat) (T : Finset Slot) (v v' : Vol) : Prop :=
  v.Enough sb i T → v'.Enough sb i T

/-- The volume has run out of blocks, for want of room for the slots `T`. -/
def Short (sb : Superblock) (i : Nat) (T : Finset Slot) (v : Vol) (e : Stop) (s : State) : Prop :=
  OutOfBlocks e s ∧ ¬ v.Enough sb i T

theorem Short.mono {e : Stop} (hr : Roomy sb i T v v') (h : Short sb i T v' e s) :
    Short sb i T v e s :=
  ⟨h.1, fun he => h.2 (hr he)⟩

theorem slotBlock_at (hv : v.Own c.sb) (hi : v.Live c.sb i)
    (hsb : c.sb.size ≤ 2 ^ 32) (k : Fin (ndirect + 1)) (hT : .addr k ∈ T) :
    Triple (At ip i s₀ v) (slotBlock c ip k)
      (fun r s => ∃ v', At ip i s₀ v' s ∧ Mapped c.sb i v v' (.addr k) r ∧
        Roomy c.sb i T v v')
      (Short c.sb i T v) := by
  refine getInode_at.bind fun x => .of_pre (fun _ h => h.2 k) fun hk => .pre ?_ fun _ h => h.1
  refine .ite (fun h0 => ?_) fun h0 => .pure fun s h => ⟨v, h, ?_, id⟩
  · rw [hk] at h0
    refine .bind ((balloc_at hv).onError fun _ _ h =>
      ⟨h.1, Vol.not_enough hT h0 h.2⟩) fun a => .of_and fun ⟨hfree, hdata⟩ => ?_
    have hg : v.Growable c.sb i (.addr k) a :=
      ⟨hv, hi, hfree, hdata, hdata.2.trans_le hsb, h0, nofun⟩
    exact (setAddr_at k a).bind fun _ => .pure fun s h => ⟨_, h, .new hg, .grow hg hT⟩
  · rw [hk] at h0 ⊢
    exact .same hv h0

theorem bmap_at (hv : v.Own c.sb) (hi : v.Live c.sb i) (hsb : c.sb.size ≤ 2 ^ 32)
    (hbn : bn < maxFile) (hT : slotsFor bn ⊆ T) :
    Triple (At ip i s₀ v) (bmap c ip bn)
      (fun r s => ∃ v', At ip i s₀ v' s ∧ Mapped c.sb i v v' (blockSlot bn) r ∧
        Roomy c.sb i T v v')
      (Short c.sb i T v) := by
  unfold slotsFor at hT
  unfold bmap
  unfold blockSlot at hT ⊢
  split
  · next hd =>
    rw [if_pos hd, dif_pos hd, Finset.singleton_subset_iff] at hT
    exact slotBlock_at hv hi hsb _ hT
  · next hd =>
    rw [if_neg hd, dif_neg hd, Finset.insert_subset_iff, Finset.singleton_subset_iff] at hT
    have hlt : bn - ndirect < nindirect := by
      simp only [maxFile, ndirect, nindirect] at *
      omega
    have hmod : (Fin.ofNat nindirect (bn - ndirect)).val = bn - ndirect := Nat.mod_eq_of_lt hlt
    rw [if_pos hlt]
    refine (slotBlock_at hv hi hsb _ hT.1).bind fun a => .exists_pre fun v' =>
      .of_and fun ⟨hm, hroom⟩ => ?_
    have hi' := hm.evolves.live.2 hi
    have hpos : v'.addr i .indirect ≠ 0 := hm.addr.symm ▸ hm.pos
    have hdata := (hm.evolves.own.data hi' hpos).1
    rw [hm.addr] at hdata
    refine (bread_at hdata).bind fun bp => .of_and fun hbp => ?_
    have hword : v'.addr i (.entry (Fin.ofNat nindirect (bn - ndirect))) =
        bp.word (bn - ndirect) := by
      rw [Vol.addr_entry, if_neg hpos, hm.addr, hbp, hmod]
    refine .ite (fun h0 => ?_) fun h0 => .pure fun s h => ⟨v', h, hm.entry ?_, hroom⟩
    · rw [← hword] at h0
      refine .bind ((balloc_at hm.evolves.own).onError fun _ _ h =>
        Short.mono hroom ⟨h.1, Vol.not_enough hT.2 h0 h.2⟩) fun b => .of_and
          fun ⟨hfree, hdata'⟩ => ?_
      have hg : v'.Growable c.sb i (.entry (Fin.ofNat nindirect (bn - ndirect))) b :=
        ⟨hm.evolves.own, hi', hfree, hdata', hdata'.2.trans_le hsb, h0, fun _ _ => hpos⟩
      refine (setBlock_at a _).bind fun _ => .pure fun s h => ⟨_, h, ?_⟩
      have hne : a ≠ b := fun heq => hg.own.addr_ne hi' hfree hpos (hm.addr.trans heq)
      have heq : (⟨(v'.fresh b).nd, (v'.fresh b).bm,
          update (v'.fresh b).blk a (bp.setWord (bn - ndirect) b)⟩ : Vol) =
          v'.grow i (.entry (Fin.ofNat nindirect (bn - ndirect))) b := by
        have h1 : (v'.fresh b).addr i .indirect = a := hm.addr
        have h2 : (v'.fresh b).blk a = bp := by
          rw [hbp]
          exact update_of_ne hne _ _
        unfold Vol.grow Vol.setSlot
        dsimp only
        rw [h1, h2, hmod]
      rw [heq]
      exact ⟨hm.entry (.new hg), fun he => .grow hg hT.2 (hroom he)⟩
    · rw [← hword]
      exact .same hm.evolves.own (hword ▸ h0)

theorem slotBlock_spec (hk : (s.volAt ip).addr (s.icache ip).inum (.addr k) ≠ 0) :
    Triple (· = s) (slotBlock c ip k)
      (fun r s' => s' = s ∧ r = (s.volAt ip).addr (s.icache ip).inum (.addr k)) E := by
  refine (getInode_spec ip).bind fun i => .of_pre
    (φ := i.addrs k = (s.volAt ip).addr (s.icache ip).inum (.addr k)) ?_ fun heq => ?_
  · rintro _ ⟨rfl, rfl⟩
    exact (At.start _ ip).addrs k
  · rw [if_neg (heq ▸ hk)]
    exact .pure fun s' h => ⟨h.1, heq⟩

theorem bmap_mapped (hbn : bn < maxFile)
    (h0 : (s.volAt ip).addr (s.icache ip).inum (blockSlot bn) ≠ 0) :
    Triple (· = s) (bmap c ip bn)
      (fun r s' => s' = s ∧ r = (s.volAt ip).addr (s.icache ip).inum (blockSlot bn))
      fun _ s' => s' = s ∧ (s.volAt ip).addr (s.icache ip).inum .indirect ≠ 0 ∧
        ¬ c.sb.Plain ((s.volAt ip).addr (s.icache ip).inum .indirect) := by
  unfold bmap
  unfold blockSlot at h0 ⊢
  split
  · next hd =>
    rw [dif_pos hd] at h0
    exact slotBlock_spec h0
  · next hd =>
    rw [dif_neg hd] at h0
    have hlt : bn - ndirect < nindirect := by
      simp only [maxFile, ndirect, nindirect] at *
      omega
    have hmod : (Fin.ofNat nindirect (bn - ndirect)).val = bn - ndirect := Nat.mod_eq_of_lt hlt
    have hpos : (s.volAt ip).addr (s.icache ip).inum .indirect ≠ 0 := fun h =>
      h0 (by rw [Vol.addr_entry, if_pos h])
    rw [Vol.addr_entry, if_neg hpos, hmod] at h0 ⊢
    rw [if_pos hlt]
    refine (slotBlock_spec hpos).bind fun a => .of_pre (fun _ h => h.2) ?_
    rintro rfl
    by_cases hdata : c.sb.Plain ((s.volAt ip).addr (s.icache ip).inum .indirect)
    · refine (bread_spec hdata).bind fun bp => .of_pre
        (φ := bp = (s.volAt ip).blk ((s.volAt ip).addr (s.icache ip).inum .indirect)) ?_ ?_
      · rintro _ ⟨⟨rfl, -⟩, rfl⟩
        rfl
      · rintro rfl
        rw [if_neg h0]
        exact .pure fun _ h => ⟨h.1.1, rfl⟩
    · unfold bread
      rw [if_neg hdata]
      exact .bind (Q := fun _ _ => False) (.throw fun _ h => ⟨h.1, hpos, hdata⟩) fun _ _ h => h.elim

theorem bmap_spec (hv : (s.volAt ip).Own c.sb) (hi : (s.volAt ip).Live c.sb (s.icache ip).inum)
    (hbn : bn < maxFile) (h0 : (s.volAt ip).addr (s.icache ip).inum (blockSlot bn) ≠ 0) :
    Triple (· = s) (bmap c ip bn)
      (fun r s' => s' = s ∧ r = (s.volAt ip).addr (s.icache ip).inum (blockSlot bn)) E :=
  (bmap_mapped hbn h0).onError fun _ _ h =>
    absurd (hv.data hi h.2.1).1.plain h.2.2

/-! ## `readi` -/

theorem readLoop_spec (hv : (s.volAt ip).Own c.sb)
    (hi : (s.volAt ip).Live c.sb (s.icache ip).inum) :
    ∀ turns off n, n ≤ turns →
      (∀ x, off ≤ x → x < off + n → x / bsize < maxFile ∧
        (s.volAt ip).addr (s.icache ip).inum (blockSlot (x / bsize)) ≠ 0) →
      Triple (· = s) (readLoop c ip turns off n)
        (fun r s' => s' = s ∧ r = readRange ((s.volAt ip).byte (s.icache ip).inum) off n) E
  | 0, off, n, hn, _ => by
    obtain rfl : n = 0 := by omega
    exact .pure fun _ h => ⟨h, rfl⟩
  | turns + 1, off, n, hn, hx => by
    refine .ite (fun h0 => .pure fun _ h => ⟨h, by rw [h0]; rfl⟩) fun h0 => ?_
    obtain ⟨hbn, ha⟩ := hx off (Nat.le_refl _) (by omega)
    refine (bmap_spec hv hi hbn ha).bind fun a => .of_pre (fun _ h => h.2) ?_
    rintro rfl
    refine (bread_spec (hv.data hi ha).1.plain).bind fun bp => .of_pre
      (φ := bp = (s.volAt ip).blk ((s.volAt ip).addr (s.icache ip).inum (blockSlot (off / bsize))))
      ?_ ?_
    · rintro _ ⟨⟨rfl, -⟩, rfl⟩
      rfl
    · rintro rfl
      have hmod := Nat.mod_lt off (show 0 < bsize by decide)
      generalize hm : min n (bsize - off % bsize) = m
      have hm0 : 0 < m := by omega
      refine .bind (.pre (readLoop_spec hv hi turns (off + m) (n - m) (by omega)
        fun x h1 h2 => hx x (by omega) (by omega)) fun _ h => h.1.1) fun rest => .pure ?_
      rintro _ ⟨rfl, rfl⟩
      refine ⟨rfl, ?_⟩
      rw [Vol.read_blk hbn ha (by omega), readRange_append, Nat.add_sub_cancel' (by omega)]

theorem readi_spec (hv : (s.volAt ip).Own c.sb) (hi : (s.volAt ip).Live c.sb (s.icache ip).inum)
    (off n : Nat) (hx : ∀ x, off ≤ x → x < off + n → x < (s.icache ip).size → x / bsize < maxFile ∧
      (s.volAt ip).addr (s.icache ip).inum (blockSlot (x / bsize)) ≠ 0) :
    Triple (· = s) (readi c ip off n)
      (fun r s' => s' = s ∧ ((s.icache ip).type ≠ some .dev → off ≤ (s.icache ip).size →
        off + n < 2 ^ 32 → r = (↑(min n ((s.icache ip).size - off)),
          readRange ((s.volAt ip).byte (s.icache ip).inum) off
            (min n ((s.icache ip).size - off))))) E := by
  refine (getInode_spec ip).bind fun i => .of_pre (φ := i = s.icache ip) ?_ ?_
  · rintro _ ⟨rfl, rfl⟩
    rfl
  rintro rfl
  refine .pre ?_ fun _ h => h.1
  refine .ite (fun hd => .ite (fun _ => ?_) fun _ => .pure fun _ h => ⟨h, fun h' => absurd hd h'⟩)
    fun _ => .ite (fun hb => .pure fun _ h => ⟨h, fun _ h1 h2 => ?_⟩) fun hb => ?_
  · split <;> exact .pure fun _ h => ⟨h, fun h' => absurd hd h'⟩
  · rw [Nat.mod_eq_of_lt h2] at hb
    omega
  · have hm : (if off + n > (s.icache ip).size then (s.icache ip).size - off else n) =
        min n ((s.icache ip).size - off) := by
      split <;> omega
    rw [hm]
    exact (readLoop_spec hv hi _ off _ (Nat.le_refl _)
      fun x h1 h2 => hx x h1 (by omega) (by omega)).bind
      fun bs => .pure fun _ h => ⟨h.1, fun _ _ _ => by rw [h.2]⟩

/-! ## `writei` -/

/-- `v'` is `v` with the bytes `src` at `off` in inode `i`. -/
structure Filled (sb : Superblock) (i off : Nat) (src : List UInt8) (v v' : Vol) : Prop where
  evolves : v.Evolves sb i v'
  byte : ∀ x, v'.byte i x = writeRange (v.byte i) off src x
  mapped : ∀ x, off ≤ x → x < off + src.length → v'.addr i (blockSlot (x / bsize)) ≠ 0
  old : (∀ x, off ≤ x → x < off + src.length → v.addr i (blockSlot (x / bsize)) ≠ 0) →
    v'.nd = v.nd

theorem Filled.nil (hv : v.Own sb) : Filled sb i off [] v v := by
  refine ⟨.refl hv, fun x => ?_, fun x h1 h2 => absurd h2 (by simpa using h1), fun _ => rfl⟩
  by_cases hx : x < off
  · exact (writeRange_of_lt hx).symm
  · exact (writeRange_of_ge (by simpa using hx)).symm

theorem Filled.cons {r m : Nat} {v₁ v₂ : Vol} (hi : v.Live sb i) (hbn : off / bsize < maxFile)
    (hm : m ≤ src.length) (hm0 : 0 < m) (hmb : off % bsize + m ≤ bsize)
    (h₁ : Mapped sb i v v₁ (blockSlot (off / bsize)) r)
    (h₂ : Filled sb i (off + m) (src.drop m) (v₁.store r (off % bsize) (src.take m)) v₂) :
    Filled sb i off src v v₂ := by
  have hown := h₁.evolves.own
  have hi₁ := h₁.evolves.live.2 hi
  have hk := blockSlot_ne_indirect (off / bsize)
  have h0 : v₁.addr i (blockSlot (off / bsize)) ≠ 0 := h₁.addr ▸ h₁.pos
  have hlen : (src.take m).length = m := by simp [hm]
  rw [← h₁.addr] at h₂
  have hev := h₁.evolves.trans ((Vol.Evolves.store _ _ hown hi₁ hk h0).trans h₂.evolves)
  -- the offsets that this turn writes lie in one block
  have hsame : ∀ x, off ≤ x → x < off + m → x / bsize = off / bsize := fun x h1 h2 => by
    refine (Nat.div_mod_unique (c := x - off + off % bsize) (show 0 < bsize by decide)).2 ⟨?_, ?_⟩ |>.1
    · have := Nat.mod_add_div off bsize
      omega
    · omega
  refine ⟨hev, fun x => ?_, fun x h1 h2 => ?_, fun hx => ?_⟩
  · rw [h₂.byte]
    have hstore : ∀ y, (v₁.store (v₁.addr i (blockSlot (off / bsize))) (off % bsize)
        (src.take m)).byte i y = writeRange (v.byte i) off (src.take m) y := fun y => by
      have hoff : off / bsize * bsize + off % bsize = off := by
        rw [Nat.mul_comm]
        exact Nat.div_add_mod off bsize
      rw [Vol.store_byte hown hi₁ hbn h0 (by omega), funext h₁.byte, hoff]
    have := @writeRange_append (v.byte i) off (src.take m) (src.drop m)
    rw [hlen, List.take_append_drop] at this
    rw [funext hstore, this]
  · by_cases hx : x < off + m
    · rw [hsame x h1 hx, h₂.evolves.keep i _ hi₁]
      · rw [Vol.store_addr hown hi₁ hk h0 hi₁]
        exact h0
      · rw [Vol.store_addr hown hi₁ hk h0 hi₁]
        exact h0
    · exact h₂.mapped x (by omega) (by rw [List.length_drop]; omega)
  · have hv₁ := h₁.old (hx off (Nat.le_refl _) (by omega))
    rw [h₂.old fun x h1 h2 => ?_]
    · show v₁.nd = v.nd
      rw [hv₁]
    · rw [Vol.store_addr hown hi₁ hk h0 hi₁, hv₁]
      exact hx x (by omega) (by rw [List.length_drop] at h2; omega)

theorem writeLoop_at (hsb : c.sb.size ≤ 2 ^ 32) : ∀ turns off src (v : Vol),
    v.Own c.sb → v.Live c.sb i → src.length ≤ turns →
      off + src.length ≤ maxFile * bsize → rangeSlots off src.length ⊆ T →
      Triple (At ip i s₀ v) (writeLoop c ip turns off src)
        (fun _ s => ∃ v', At ip i s₀ v' s ∧ Filled c.sb i off src v v') (Short c.sb i T v)
  | 0, off, src, v, hv, _, hn, _, _ => by
    obtain rfl : src = [] := List.length_eq_zero_iff.1 (by omega)
    exact .pure fun _ h => ⟨v, h, .nil hv⟩
  | turns + 1, off, src, v, hv, hi, hn, hmax, hT => by
    refine .ite (fun h0 => ?_) fun h0 => ?_
    · obtain rfl : src = [] := List.length_eq_zero_iff.1 h0
      exact .pure fun _ h => ⟨v, h, .nil hv⟩
    have hbn : off / bsize < maxFile := Nat.div_lt_of_lt_mul (by rw [Nat.mul_comm]; omega)
    have hmod := Nat.mod_lt off (show 0 < bsize by decide)
    have hoff := Nat.div_mul_le_self off bsize
    refine (bmap_at hv hi hsb hbn ((slotsFor_subset hbn (Nat.le_refl _) (by omega)).trans hT)).bind
      fun r => .exists_pre fun v₁ => .of_and fun ⟨hm, hroom⟩ => ?_
    have hi₁ := hm.evolves.live.2 hi
    have h0₁ : v₁.addr i (blockSlot (off / bsize)) ≠ 0 := hm.addr ▸ hm.pos
    have hdata := (hm.evolves.own.data hi₁ h0₁).1
    rw [hm.addr] at hdata
    refine (bread_at hdata).bind fun bp => .of_and fun hbp => ?_
    subst hbp
    generalize hlen : min src.length (bsize - off % bsize) = m
    refine (setBlock_at r _).bind fun _ => ?_
    have hk := blockSlot_ne_indirect (off / bsize)
    have hst := Vol.Evolves.store (off % bsize) (src.take m) hm.evolves.own hi₁ hk h0₁
    have haddr := @Vol.store_addr (off % bsize)
      (src.take m) _ v₁ _ _ _ hm.evolves.own hi₁ hk h0₁ hi₁
    rw [hm.addr] at hst haddr
    refine (writeLoop_at hsb turns (off + m) (src.drop m) _ hst.own (hst.live.2 hi₁)
      (by rw [List.length_drop]; omega) (by rw [List.length_drop]; omega) ?_).conseq (fun _ => id)
        ?_ fun _ _ => Short.mono fun he => .congr haddr rfl (hroom he)
    · rw [List.length_drop]
      exact (rangeSlots_subset (by omega) (by omega)).trans hT
    · rintro _ s ⟨v₂, h, hf⟩
      exact ⟨v₂, h, .cons hi hbn (by omega) (by omega) (by omega) hm hf⟩

/-- What a `writei` that wrote its bytes has done: the entry and the disk are the same again. -/
structure Wrote (sb : Superblock) (ip : Fin ninode) (off : Nat) (src : List UInt8) (s s' : State) :
    Prop where
  own : s'.vol.Own sb
  others : ∀ j, j ≠ (s.icache ip).inum → s'.dinode j = s.dinode j
  self : s'.dinode (s.icache ip).inum = { s.dinode (s.icache ip).inum with
    size := max (s.icache ip).size (off + src.length)
    addrs := (s'.dinode (s.icache ip).inum).addrs }
  entry : s'.icache = update s.icache ip
    { s.icache ip with toDinode := s'.dinode (s.icache ip).inum }
  keep : ∀ j k, s.vol.Live sb j → s.vol.addr j k ≠ 0 → s'.vol.addr j k = s.vol.addr j k
  mapped : ∀ x, off ≤ x → x < off + src.length →
    s'.vol.addr (s.icache ip).inum (blockSlot (x / bsize)) ≠ 0
  byte : ∀ x, s'.vol.byte (s.icache ip).inum x =
    writeRange (s.vol.byte (s.icache ip).inum) off src x
  byte_of_ne : ∀ j x, j ≠ (s.icache ip).inum → s.vol.Live sb j → s'.vol.byte j x = s.vol.byte j x
  ftable : s'.ftable = s.ftable
  procs : s'.procs = s.procs
  hist : Logged s s'

theorem Filled.wrote {s₁ : State} {z : Nat} (hf : Filled sb (s.icache ip).inum off src s.vol v')
    (h : At ip (s.icache ip).inum s v' s₁)
    (hsync : s.dinode (s.icache ip).inum = (s.icache ip).toDinode)
    (hi : s'.icache = update s₁.icache ip { s₁.icache ip with size := z })
    (hd : s'.dinode = update s₁.dinode (s.icache ip).inum
      { (s₁.icache ip).toDinode with size := z })
    (hz : z = max (s.icache ip).size (off + src.length)) (hb : s'.bitmap = s₁.bitmap)
    (hk : s'.block = s₁.block) (hft : s'.ftable = s₁.ftable) (hp : s'.procs = s₁.procs)
    (hl : Logged s₁ s') : Wrote sb ip off src s s' := by
  have hself := h.self
  have hsd : s'.dinode (s.icache ip).inum = { (s₁.icache ip).toDinode with size := z } := by
    rw [hd, update_self]
  have hothers : ∀ j, j ≠ (s.icache ip).inum → s'.dinode j = s.dinode j := fun j hj => by
    rw [hd, update_of_ne hj, h.dinode]
  have hlike : v'.Alike s'.vol := by
    refine ⟨hb.trans h.bitmap, hk.trans h.block, fun j => ?_⟩
    by_cases hj : j = (s.icache ip).inum
    · subst hj
      rw [h.nd, show s'.vol.nd _ = _ from hsd]
      exact ⟨rfl, rfl⟩
    · rw [hf.evolves.others j hj, show s'.vol.nd j = _ from hothers j hj]
      exact ⟨rfl, rfl⟩
  refine ⟨hlike.own hf.evolves.own, hothers, ?_, ?_, fun j k hj h0 => ?_, fun x h1 h2 => ?_,
    fun x => ?_, fun j x hj hl => ?_, hft.trans h.ftable, hp.trans h.procs, h.hist.trans hl⟩
  · rw [hsd, hself, hsync, hz]
  · rw [hi, hsd, h.entry, update_idem, update_self]
  · rw [hlike.addr]
    exact hf.evolves.keep j k hj h0
  · rw [hlike.addr]
    exact hf.mapped x h1 h2
  · rw [hlike.byte]
    exact hf.byte x
  · rw [hlike.byte]
    exact hf.evolves.byte j x hj hl

theorem Core.volAt_eq {s : Core} (h : s.dinode (s.icache ip).inum = (s.icache ip).toDinode) :
    s.volAt ip = s.vol := by
  unfold volAt vol
  rw [← h, update_eq_self]

/-- `writei` refuses to write. -/
def BadWrite (size off n : Nat) : Prop :=
  off > size ∨ (off + n) % 2 ^ 32 < off ∨ off + n > maxFile * bsize

theorem writei_bad (hd : (s.icache ip).type ≠ some .dev)
    (hbad : BadWrite (s.icache ip).size off src.length) :
    Triple (· = s) (writei c ip src off) (fun r s' => s' = s ∧ r = -1) E := by
  refine .read_bind rfl ?_
  refine .ite (fun h => absurd h hd) fun _ => .ite (fun _ => .pure fun _ h => ⟨h, rfl⟩) fun hb =>
    .ite (fun _ => .pure fun _ h => ⟨h, rfl⟩) fun hmax => ?_
  rcases hbad with h | h | h
  · exact absurd (.inl h) hb
  · exact absurd (.inr h) hb
  · exact absurd h hmax

theorem writei_good (hv : s.vol.Own c.sb) (hi : s.vol.Live c.sb (s.icache ip).inum)
    (hsb : c.sb.size ≤ 2 ^ 32) (hsync : s.dinode (s.icache ip).inum = (s.icache ip).toDinode)
    (hsize : ∀ bn, bn * bsize < (s.icache ip).size → bn < maxFile ∧
      s.vol.addr (s.icache ip).inum (blockSlot bn) ≠ 0) (hd : (s.icache ip).type ≠ some .dev)
    (hok : ¬ BadWrite (s.icache ip).size off src.length) :
    Triple (· = s) (writei c ip src off)
      (fun r s' => Wrote c.sb ip off src s s' ∧ r = src.length)
      (Short c.sb (s.icache ip).inum (rangeSlots off src.length) s.vol) := by
  unfold BadWrite at hok
  refine .read_bind rfl ?_
  refine .ite (fun h => absurd h hd) fun _ =>
    .ite (fun hb => absurd (hb.elim .inl fun h => .inr (.inl h)) hok) fun _ =>
      .ite (fun hmax => absurd (.inr (.inr hmax)) hok) fun hmax => ?_
  have hvol := Core.volAt_eq hsync
  rw [← hvol] at hv hi ⊢
  have hloop : Triple (At ip _ s (s.volAt ip)) _ _ _ :=
    writeLoop_at hsb src.length off src _ hv hi (Nat.le_refl _) (by omega) subset_rfl
  refine .bind (hloop.pre fun _ h => by rw [h]; exact At.start s ip)
    fun _ => .exists_pre fun v' => .of_state fun s₁ ⟨h, hf⟩ => ?_
  rw [hvol] at hf
  have hsz : (s₁.icache ip).size = (s.icache ip).size := by rw [h.self]
  refine .bind (Q := fun _ s' => Wrote c.sb ip off src s s') (.ite (fun hg => ?_) fun hg => ?_)
    fun _ => .pure fun s' hw => ⟨hw, rfl⟩
  · -- the file grows: `iupdate` writes the entry
    refine (setFields_spec c ip _ s₁).conseq (fun _ => id) ?_ ?_
    · rintro _ s' ⟨rfl, -⟩
      refine hf.wrote (z := off + src.length) h hsync rfl ?_ (by omega) rfl rfl rfl rfl
        (.one rfl nofun nofun)
      rw [State.written_dinode, h.inum]
    · rintro e s' ⟨⟨-, hge⟩, -⟩
      exact absurd hi.1 (h.inum ▸ hge)
  · -- all blocks were there, so the entry is still what is on disk
    have hold : v'.nd = s.vol.nd := hf.old fun x h1 h2 => (hsize (x / bsize) (by
      have := Nat.div_mul_le_self x bsize
      omega)).2
    refine .pure fun s' hs => ?_
    subst hs
    have h1 : (s'.icache ip).toDinode = s'.dinode (s.icache ip).inum := by
      rw [← h.nd, hold, h.dinode]
      rfl
    refine hf.wrote (z := (s.icache ip).size) h hsync ?_ ?_ ?_ rfl rfl rfl rfl (.refl _)
    · rw [← hsz]
      exact (update_eq_self ..).symm
    · have h2 : { (s'.icache ip).toDinode with size := (s.icache ip).size } =
          s'.dinode (s.icache ip).inum := by
        rw [← h1, ← hsz]
      rw [h2, update_eq_self]
    · omega

theorem writei_dev (hd : (s.icache ip).type = some .dev) (src : List UInt8) (off : Nat) :
    Triple (· = s) (writei c ip src off) (fun _ s' => s' = s) E := by
  refine .read_bind rfl ?_
  refine .ite (fun _ => .ite (fun _ => ?_) fun _ => .pure fun _ h => h) fun h => absurd hd h
  split
  · exact .pure fun _ h => h
  · exact .pure fun _ h => h

/-- A call may work on the contents of the entry `ip`: it has been read, its inode is allocated, and
the blocks below its size are there. -/
structure Ready (sb : Superblock) (s : State) (ip : Fin ninode) : Prop where
  own : s.vol.Own sb
  live : s.vol.Live sb (s.icache ip).inum
  sync : s.dinode (s.icache ip).inum = (s.icache ip).toDinode
  sized : ∀ bn, bn * bsize < (s.icache ip).size → bn < maxFile ∧
    s.vol.addr (s.icache ip).inum (blockSlot bn) ≠ 0

theorem Ready.writei (h : Ready c.sb s ip) (hsb : c.sb.size ≤ 2 ^ 32)
    (src : List UInt8) (off : Nat) :
    Triple (· = s) (Fs.writei c ip src off)
      (fun r s' => s' = s ∧ ((s.icache ip).type = some .dev ∨ r = -1) ∨
        Wrote c.sb ip off src s s' ∧ r = src.length ∧ off ≤ (s.icache ip).size ∧
          off + src.length ≤ maxFile * bsize)
      OutOfBlocks := by
  by_cases hd : (s.icache ip).type = some .dev
  · exact (writei_dev hd src off).post fun _ _ h => .inl ⟨h, .inl hd⟩
  by_cases hbad : BadWrite (s.icache ip).size off src.length
  · exact (writei_bad hd hbad).post fun _ _ h => .inl ⟨h.1, .inr h.2⟩
  · refine (writei_good h.own h.live hsb h.sync h.sized hd hbad).conseq (fun _ => id)
      (fun _ _ h => .inr ?_) fun _ _ h => h.1
    unfold BadWrite at hbad
    exact ⟨h.1, h.2, by omega, by omega⟩

/-! ## `itrunc` -/

theorem bfree_at (hb : c.sb.Data b) (hbm : v.bm b = true) :
    Triple (At ip i s₀ v) (bfree c b) (fun _ => At ip i s₀ (v.dropBit b)) E := by
  unfold bfree
  rw [if_pos hb.2]
  refine .bind (Q := fun a s => At ip i s₀ v s ∧ a.bitmap = v.bm) (.get fun s h => ⟨h, h.bitmap⟩)
    fun s₁ => .of_and fun hs => ?_
  rw [hs, hbm, if_neg nofun]
  exact setBit_at b false

/-- `w` is `v` with the `addrs[]` of inode `i` replaced, bitmap apart. -/
def Readdressed (i : Nat) (A : Fin (ndirect + 1) → Nat) (v w : Vol) : Prop :=
  w.blk = v.blk ∧ w.nd = update v.nd i { v.nd i with addrs := A }

theorem Readdressed.live {j : Nat} (h : Readdressed i A v w) : w.Live sb j ↔ v.Live sb j := by
  unfold Vol.Live
  rw [h.2]
  by_cases hj : j = i
  · subst hj
    simp
  · simp [hj]

theorem Readdressed.addr (h : Readdressed i A v w) (k : Fin (ndirect + 1)) :
    w.addr i (.addr k) = A k := by
  simp [Vol.addr, h.2]

theorem Readdressed.clear (h : Readdressed i A v w) (k : Fin (ndirect + 1)) :
    Readdressed i (update A k 0) v ((w.dropBit a).clear i k) := by
  refine ⟨h.1, ?_⟩
  simp [Vol.clear, Vol.dropBit, h.2]

theorem freeSlot_at {D F : Set Slot} (hv : v.OwnBut c.sb i D) (hi : v.Live c.sb i)
    (hk : .addr k ∉ D) (h0 : v.addr i (.addr k) ≠ 0)
    (hD : ∀ x, x ∈ insert (.addr k) D ↔
      x = .addr k ∨ x ∈ F ∨ k = Fin.last ndirect ∧ ∃ e, x = .entry e) :
    Triple (At ip i s₀ v) (freeSlot c ip k)
      (fun _ s => At ip i s₀ ((v.dropBit (v.addr i (.addr k))).clear
          i k) s ∧
        ((v.dropBit (v.addr i (.addr k))).clear i k).OwnBut
          c.sb i F) E := by
  obtain ⟨hdata, hbm⟩ := hv.held hi hk h0
  refine getInode_at.bind fun x => .of_pre (fun _ h => h.2 k) fun heq => .pre ?_ fun _ h => h.1
  rw [heq, if_neg h0]
  refine (bfree_at hdata hbm).bind fun _ => (setAddr_at k 0).post fun _ s h => ⟨h, ?_⟩
  exact (hv.dropBit hi hk h0).clear hD

theorem freeDirect_at (hv : v.Own c.sb) (hi : v.Live c.sb i) :
    Triple (At ip i s₀ v) ((List.finRange ndirect).forM fun k => freeSlot c ip k.castSucc)
      (fun _ s => ∃ w A, At ip i s₀ w s ∧ w.Own c.sb ∧ Readdressed i A v w ∧
        A (Fin.last ndirect) = v.addr i .indirect ∧
        ∀ k : Fin ndirect, A k.castSucc = 0) E := by
  have hloop := Triple.forM (E := E) (g := fun k : Fin ndirect => freeSlot c ip k.castSucc)
    (I := fun l s => ∃ w A, At ip i s₀ w s ∧ w.Own c.sb ∧ Readdressed i A v w ∧
      A (Fin.last ndirect) = v.addr i .indirect ∧
      ∀ k : Fin ndirect, k ∉ l → A k.castSucc = 0) (fun k l => ?_) (List.finRange ndirect)
  · refine hloop.conseq (fun s h => ⟨v, (v.nd i).addrs, h, hv, ⟨rfl, ?_⟩, rfl,
      fun k hk => absurd (List.mem_finRange k) hk⟩) ?_ fun _ _ => id
    · exact (update_eq_self ..).symm
    · rintro _ s ⟨w, A, h1, h2, h3, h4, h5⟩
      exact ⟨w, A, h1, h2, h3, h4, fun k => h5 k (List.not_mem_nil)⟩
  · refine .exists_pre fun w => .exists_pre fun A => .of_and fun ⟨hw, hre, hlast, hl⟩ => ?_
    by_cases h0 : A k.castSucc = 0
    · refine getInode_at.bind fun x => .of_pre (fun _ h => h.2 k.castSucc) fun heq =>
        .pre ?_ fun _ h => h.1
      rw [heq, hre.addr, if_pos h0]
      refine .pure fun s h => ⟨w, A, h, hw, hre, hlast, fun k' hk' => ?_⟩
      by_cases hkk : k' = k
      · rw [hkk]
        exact h0
      · exact hl k' fun hm => (List.mem_cons.1 hm).elim hkk hk'
    · refine (freeSlot_at (D := ∅) (F := ∅) (Vol.ownBut_empty.2 hw) (hre.live.2 hi) id
        (hre.addr _ ▸ h0) fun x => ?_).post fun _ s h => ?_
      · simp [Fin.ext_iff, k.isLt.ne]
      · refine ⟨_, _, h.1, Vol.ownBut_empty.1 h.2, hre.clear _, ?_, fun k' hk' => ?_⟩
        · rw [update_of_ne (Fin.castSucc_lt_last k).ne']
          exact hlast
        · by_cases hkk : k' = k
          · rw [hkk, update_self]
          · rw [update_of_ne fun heq => hkk (Fin.castSucc_injective _ heq)]
            exact hl k' fun hm => (List.mem_cons.1 hm).elim hkk hk'

theorem freeEntries_at (hv : v.Own c.sb) (hi : v.Live c.sb i)
    (h0 : v.addr i .indirect ≠ 0) {bp : Block} (hbp : bp = v.blk (v.addr i .indirect)) :
    Triple (At ip i s₀ v)
      ((List.range nindirect).forM fun j =>
        if bp.word j = 0 then pure () else bfree c (bp.word j))
      (fun _ s => ∃ w, At ip i s₀ w s ∧ w.nd = v.nd ∧ w.blk = v.blk ∧
        w.OwnBut c.sb i {k | ∃ e, k = .entry e}) E := by
  have hloop := Triple.forM (E := E)
    (g := fun j => if bp.word j = 0 then pure () else bfree c (bp.word j))
    (I := fun l s => (l.Nodup ∧ ∀ j ∈ l, j < nindirect) ∧ ∃ w, At ip i s₀ w s ∧ w.nd = v.nd ∧
      w.blk = v.blk ∧ w.OwnBut c.sb i {k | ∃ e, k = .entry e ∧ e.val ∉ l})
    (fun j l => ?_) (List.range nindirect)
  · refine hloop.conseq (fun s h => ⟨⟨List.nodup_range, fun j hj => List.mem_range.1 hj⟩, v, h, rfl,
      rfl, ?_⟩) ?_ fun _ _ => id
    · have : {k | ∃ e : Fin nindirect, k = Slot.entry e ∧ e.val ∉ List.range nindirect} = ∅ := by
        ext k
        simp
      rw [this]
      exact Vol.ownBut_empty.2 hv
    · rintro _ s ⟨-, w, h1, h2, h3, h4⟩
      exact ⟨w, h1, h2, h3, by simpa using h4⟩
  · refine .of_pre (fun _ h => h.1) fun ⟨hnd, hlt⟩ => .pre ?_ fun _ h => h.2
    obtain ⟨hj, hnd'⟩ := List.nodup_cons.1 hnd
    have hrest : l.Nodup ∧ ∀ j ∈ l, j < nindirect :=
      ⟨hnd', fun k hk => hlt k (List.mem_cons_of_mem _ hk)⟩
    refine .exists_pre fun w => .of_and fun ⟨hwn, hwb, hw⟩ => ?_
    have haddr : w.addr i .indirect = v.addr i .indirect := by
      unfold Vol.addr
      rw [hwn]
    have hword : w.addr i (.entry ⟨j, hlt j (List.mem_cons_self ..)⟩) =
        bp.word j := by
      rw [Vol.addr_entry, haddr, if_neg h0, hwb, hbp]
    have hset : {k | ∃ e : Fin nindirect, k = Slot.entry e ∧ e.val ∉ l} =
        insert (.entry ⟨j, hlt j (List.mem_cons_self ..)⟩)
          {k | ∃ e : Fin nindirect, k = Slot.entry e ∧ e.val ∉ j :: l} := by
      ext k
      constructor
      · rintro ⟨e, rfl, he⟩
        by_cases hej : e.val = j
        · exact .inl (by simp [Fin.ext_iff, hej])
        · exact .inr ⟨e, rfl, fun hm => (List.mem_cons.1 hm).elim hej he⟩
      · rintro (rfl | ⟨e, rfl, he⟩)
        · exact ⟨_, rfl, hj⟩
        · exact ⟨e, rfl, fun hm => he (List.mem_cons_of_mem _ hm)⟩
    have hnot : Slot.entry ⟨j, hlt j (List.mem_cons_self ..)⟩ ∉
        {k | ∃ e : Fin nindirect, k = Slot.entry e ∧ e.val ∉ j :: l} := by
      rintro ⟨e, heq, he⟩
      cases heq
      exact he (List.mem_cons_self ..)
    have hi' : w.Live c.sb i := by
      unfold Vol.Live
      rw [hwn]
      exact hi
    rw [hset]
    refine .ite (fun hz => .pure fun s h => ⟨hrest, w, h, hwn, hwb, ?_⟩) fun hz => ?_
    · exact hw.addEmpty (hword.trans hz)
    · rw [← hword] at hz ⊢
      obtain ⟨hdata, hbm⟩ := hw.held hi' hnot hz
      exact (bfree_at hdata hbm).post fun _ s h => ⟨hrest, _, h, hwn, hwb, hw.dropBit hi' hnot hz⟩

theorem freeIndirect_at (hv : v.Own c.sb) (hi : v.Live c.sb i) :
    Triple (At ip i s₀ v) (freeIndirect c ip)
      (fun _ s => ∃ w, At ip i s₀ w s ∧ w.Own c.sb ∧ Readdressed i
        (update (v.nd i).addrs (Fin.last ndirect) 0) v w) E := by
  refine getInode_at.bind fun x => .of_pre (fun _ h => h.2 (Fin.last ndirect)) fun heq =>
    .pre ?_ fun _ h => h.1
  have hself : Readdressed i (v.nd i).addrs v v :=
    ⟨rfl, (update_eq_self ..).symm⟩
  refine .ite (fun h0 => .pure fun s h => ⟨v, h, hv, ?_⟩) fun h0 => ?_
  · have : update (v.nd i).addrs (Fin.last ndirect) 0 =
        (v.nd i).addrs := by
      rw [← h0, heq]
      exact update_eq_self ..
    rw [this]
    exact hself
  · rw [heq] at h0 ⊢
    refine (bread_at (hv.data hi h0).1).bind fun bp => .of_and fun hbp => ?_
    refine (freeEntries_at hv hi h0 hbp).bind fun _ => .exists_pre fun w =>
      .of_and fun ⟨hwn, hwb, hw⟩ => ?_
    have haddr : w.addr i .indirect = v.addr i .indirect := by
      unfold Vol.addr
      rw [hwn]
    have hi' : w.Live c.sb i := by
      unfold Vol.Live
      rw [hwn]
      exact hi
    refine (freeSlot_at (F := ∅) hw hi' (by rintro ⟨e, he⟩; cases he) (haddr ▸ h0)
      fun x => ?_).post fun _ s h => ⟨_, h.1, Vol.ownBut_empty.1 h.2, ?_⟩
    · simp
    · refine Readdressed.clear ⟨hwb, ?_⟩ _
      rw [hwn]
      exact (update_eq_self ..).symm

/-- What `itrunc` has done. -/
structure Truncated (sb : Superblock) (ip : Fin ninode) (s s' : State) : Prop where
  own : s'.vol.Own sb
  entry : s'.icache = update s.icache ip { s.icache ip with size := 0, addrs := fun _ => 0 }
  dinode : s'.dinode = update s.dinode (s.icache ip).inum
    { (s.icache ip).toDinode with size := 0, addrs := fun _ => 0 }
  block : s'.block = s.block
  ftable : s'.ftable = s.ftable
  procs : s'.procs = s.procs
  hist : Logged s s'

theorem itrunc_spec (hv : s.vol.Own c.sb) (hi : s.vol.Live c.sb (s.icache ip).inum)
    (hsync : s.dinode (s.icache ip).inum = (s.icache ip).toDinode) :
    Triple (· = s) (itrunc c ip) (fun _ s' => Truncated c.sb ip s s') E := by
  have hvol := Core.volAt_eq hsync
  refine .bind (.pre (@freeDirect_at _ c ip s (s.volAt ip) _ (hvol ▸ hv)
    (hvol ▸ hi)) fun _ h => by rw [h]; exact At.start s ip) fun _ => .exists_pre fun w =>
      .exists_pre fun A => .of_and fun ⟨hw, hre, _, hA⟩ => ?_
  refine (freeIndirect_at hw (hre.live.2 (hvol ▸ hi))).bind fun _ => .exists_pre fun w' =>
    .of_state fun s₁ ⟨h, hw', hre'⟩ => ?_
  have hAw : (w.nd (s.icache ip).inum).addrs = A := by
    rw [hre.2]
    simp
  have hzero : (s₁.icache ip).addrs = fun _ => 0 := by
    funext k
    rw [h.addrs, hre'.addr, hAw]
    refine Fin.lastCases (update_self ..) (fun k => ?_) k
    rw [update_of_ne (Fin.castSucc_lt_last k).ne]
    exact hA k
  have hself := h.self
  rw [hzero] at hself
  refine (setFields_spec c ip _ s₁).conseq (fun _ => id) ?_ ?_
  · rintro _ s' ⟨rfl, -⟩
    have hd : (s₁.written c ip { s₁.icache ip with size := 0 }).dinode =
        update s.dinode (s.icache ip).inum
          { (s.icache ip).toDinode with size := 0, addrs := fun _ => 0 } := by
      rw [State.written_dinode, hself, h.dinode]
    refine ⟨?_, ?_, hd, ?_, h.ftable, h.procs, h.hist.trans (.one rfl nofun nofun)⟩
    · refine Vol.Alike.own ⟨h.bitmap, h.block, fun j => ?_⟩ hw'
      by_cases hj : j = (s.icache ip).inum
      · subst hj
        rw [h.nd, show Vol.nd _ _ = _ from congrFun hd _, update_self, hself]
        exact ⟨rfl, rfl⟩
      · rw [show Vol.nd _ _ = _ from congrFun hd _, update_of_ne hj, hre'.2, hre.2, hvol,
          update_of_ne hj, update_of_ne hj]
        exact ⟨rfl, rfl⟩
    · rw [State.written_icache, hself, h.entry, update_idem]
    · show s₁.block = s.block
      rw [h.block, hre'.1, hre.1, hvol]
      rfl
  · rintro e s' ⟨⟨-, hge⟩, -⟩
    exact absurd hi.1 (h.inum ▸ hge)

end

end Xv6.Fs
