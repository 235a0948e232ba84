import Xv6.Fs.Inode
import Xv6.Lib.Ledger
import Mathlib.Data.Finset.Card
import Mathlib.Data.Finset.Union

/-!
# Volumes: who holds which block

A volume is the disk as the file system sees it: the inodes, the bitmap and the data blocks. A block
is held by a slot of an allocated inode, one of `addrs[]` or one entry of its indirect block. `Own`:
the bitmap and the holders are a ledger in order, with the blocks of the file system itself
reserved. The contents of an inode are a function from offsets to bytes; what no block holds reads
as `0`.

The steps of `bmap`, `writei` and `itrunc` on a volume: a slot gets a fresh block (`grow`), bytes of
a block are overwritten (`store`), a slot gives its block back (`clear`).
-/

namespace Xv6.Fs

open Lib Function

variable {x j bn off n : Nat} {T : Finset Slot} {src : List UInt8}

namespace Block

theorem byte_write (b : Block) (off : Nat) (src : List UInt8) (hx : x < bsize) :
    (b.write off src).byte x = writeRange b.byte off src x := by
  unfold byte write
  rw [Fin.val_ofNat, Nat.mod_eq_of_lt hx]
  rfl

theorem word_zero (j : Nat) : word (fun _ => 0) j = 0 := by
  simp [word, read, readRange, byte, List.range_succ, leNat]

theorem entry_lt {k : Nat} (hj : j < nindirect) (hk : k < 4) : 4 * j + k < bsize := by
  simp only [nindirect, bsize] at *
  omega

theorem word_setWord_self (b : Block) {v : Nat} (hj : j < nindirect) (hv : v < 2 ^ 32) :
    (b.setWord j v).word j = v := by
  have h1 : (b.setWord j v).read (4 * j) 4 = leBytes 4 v := by
    have h2 : (b.setWord j v).read (4 * j) 4 =
        readRange (writeRange b.byte (4 * j) (leBytes 4 v)) (4 * j) 4 :=
      readRange_congr fun k hk => byte_write _ _ _ (entry_lt hj hk)
    have h3 := @readRange_writeRange b.byte (4 * j) (leBytes 4 v)
    rw [leBytes_length] at h3
    rw [h2, h3]
  rw [word, h1, leNat_leBytes (by omega)]

theorem word_setWord_of_ne (b : Block) {j' : Nat} (v : Nat) (hj' : j' < nindirect) (h : j' ≠ j) :
    (b.setWord j v).word j' = b.word j' := by
  have h1 : (b.setWord j v).read (4 * j') 4 = b.read (4 * j') 4 := by
    refine readRange_congr fun k hk => ?_
    unfold setWord
    rw [byte_write _ _ _ (entry_lt hj' hk)]
    rcases Nat.lt_or_ge j' j with hlt | hge
    · exact writeRange_of_lt (by omega)
    · exact writeRange_of_ge (by rw [leBytes_length]; omega)
  rw [word, h1, word]

end Block

/-- A place that can hold a block: a slot of `addrs[]`, or an entry of the indirect block. -/
inductive Slot
  | addr (k : Fin (ndirect + 1))
  | entry (j : Fin nindirect)
  deriving DecidableEq

/-- The slot of the indirect block. -/
abbrev Slot.indirect : Slot := .addr (Fin.last ndirect)

/-- The slot of the block with number `bn` in a file, `bn < MAXFILE`. -/
def blockSlot (bn : Nat) : Slot :=
  if h : bn < ndirect then .addr (Fin.castSucc ⟨bn, h⟩) else .entry (Fin.ofNat nindirect (bn - ndirect))

theorem blockSlot_ne_indirect (bn : Nat) : blockSlot bn ≠ .indirect := by
  unfold blockSlot
  split
  · intro h
    have := congrArg Fin.val (Slot.addr.inj h)
    simp at this
    omega
  · nofun

theorem blockSlot_inj {bn' : Nat} (h : bn < maxFile) (h' : bn' < maxFile)
    (heq : blockSlot bn = blockSlot bn') : bn = bn' := by
  simp only [maxFile, ndirect, nindirect] at h h'
  unfold blockSlot at heq
  split at heq <;> split at heq
  · have := congrArg Fin.val (Slot.addr.inj heq)
    simpa using this
  · cases heq
  · cases heq
  · have := congrArg Fin.val (Slot.entry.inj heq)
    simp only [Fin.val_ofNat, ndirect, nindirect] at this
    rw [Nat.mod_eq_of_lt (by omega), Nat.mod_eq_of_lt (by omega)] at this
    simp only [ndirect] at *
    omega

/-- The slots that `bmap` fills for block `bn`. -/
def slotsFor (bn : Nat) : Finset Slot :=
  if bn < ndirect then {blockSlot bn} else {.indirect, blockSlot bn}

/-- The slots for `n` bytes at `off`. -/
def rangeSlots (off n : Nat) : Finset Slot :=
  ((Finset.range maxFile).filter fun bn => off / bsize ≤ bn ∧ bn * bsize < off + n).biUnion slotsFor

theorem slotsFor_subset (hbn : bn < maxFile) (h1 : off / bsize ≤ bn) (h2 : bn * bsize < off + n) :
    slotsFor bn ⊆ rangeSlots off n :=
  Finset.subset_biUnion_of_mem slotsFor (Finset.mem_filter.2 ⟨Finset.mem_range.2 hbn, h1, h2⟩)

theorem rangeSlots_subset {off' n' : Nat} (h1 : off ≤ off') (h2 : off' + n' ≤ off + n) :
    rangeSlots off' n' ⊆ rangeSlots off n := by
  refine Finset.biUnion_subset_biUnion_of_subset_left _ fun bn hbn => ?_
  obtain ⟨hlt, h3, h4⟩ := Finset.mem_filter.1 hbn
  exact Finset.mem_filter.2 ⟨hlt, (Nat.div_le_div_right h1).trans h3, h4.trans_le h2⟩

/-- The inodes, the bitmap and the blocks of a disk. -/
structure Vol where
  nd : Nat → Dinode
  bm : Nat → Bool
  blk : Nat → Block

namespace Vol

/-- The block in a slot of inode `i`, or 0. -/
def addr (v : Vol) (i : Nat) : Slot → Nat
  | .addr k => (v.nd i).addrs k
  | .entry j =>
    if (v.nd i).addrs (Fin.last ndirect) = 0 then 0
    else (v.blk ((v.nd i).addrs (Fin.last ndirect))).word j

/-- Byte `x` of inode `i`. -/
def byte (v : Vol) (i x : Nat) : UInt8 :=
  if x / bsize < maxFile ∧ v.addr i (blockSlot (x / bsize)) ≠ 0 then
    (v.blk (v.addr i (blockSlot (x / bsize)))).byte (x % bsize)
  else 0

/-- Inode `i` is allocated. -/
def Live (sb : Superblock) (v : Vol) (i : Nat) : Prop := i < sb.ninodes ∧ (v.nd i).type ≠ none

instance (sb : Superblock) (v : Vol) (i : Nat) : Decidable (Live sb v i) :=
  inferInstanceAs (Decidable (_ ∧ _))

/-- The block that a slot holds. -/
def has (sb : Superblock) (v : Vol) (h : Nat × Slot) : Option Nat :=
  if v.Live sb h.1 ∧ v.addr h.1 h.2 ≠ 0 then some (v.addr h.1 h.2) else none

/-- A block of the file system itself. -/
def Reserved (sb : Superblock) (b : Nat) : Prop := sb.Meta b ∧ b < sb.size

/-- A block marked in the bitmap. -/
def Used (sb : Superblock) (bm : Nat → Bool) (b : Nat) : Prop := bm b = true ∧ b < sb.size

/-- A block is marked exactly if it is reserved or in a slot, and it is in one slot only. -/
def Own (sb : Superblock) (v : Vol) : Prop := Ledger (Reserved sb) (Used sb v.bm) (v.has sb)

section
variable {sb : Superblock} {v v' : Vol} {i i' j a b : Nat} {k k' : Slot}

theorem has_eq_some : v.has sb (i, k) = some a ↔ v.Live sb i ∧ v.addr i k = a ∧ a ≠ 0 := by
  unfold has
  split
  · next h =>
    simp only [Option.some.injEq]
    exact ⟨fun heq => ⟨h.1, heq, heq ▸ h.2⟩, fun h' => h'.2.1⟩
  · next h =>
    refine ⟨nofun, fun h' => absurd ⟨h'.1, ?_⟩ h⟩
    show v.addr i k ≠ 0
    rw [h'.2.1]
    exact h'.2.2

theorem has_eq_none (h : v.addr i k = 0) : v.has sb (i, k) = none := if_neg fun h' => h'.2 h

theorem has_of_not_live (h : ¬ v.Live sb i) : v.has sb (i, k) = none := if_neg fun h' => h h'.1

theorem has_congr (hl : v'.Live sb i ↔ v.Live sb i) (ha : v'.addr i k = v.addr i k) :
    v'.has sb (i, k) = v.has sb (i, k) := by
  unfold has
  rw [ha]
  exact if_congr (and_congr_left' hl) rfl rfl

theorem has_self (hi : v.Live sb i) (h : v.addr i k ≠ 0) : v.has sb (i, k) = some (v.addr i k) :=
  has_eq_some.2 ⟨hi, rfl, h⟩

theorem Own.data (h : v.Own sb) (hi : v.Live sb i) (hk : v.addr i k ≠ 0) :
    sb.Data (v.addr i k) ∧ v.bm (v.addr i k) = true := by
  obtain ⟨⟨h1, h2⟩, h3⟩ := Ledger.held h _ _ (has_self hi hk)
  exact ⟨⟨fun hm => h3 ⟨hm, h2⟩, h2⟩, h1⟩

theorem Own.inj (h : v.Own sb) (hi : v.Live sb i) (hi' : v.Live sb i') (hk : v.addr i k ≠ 0)
    (heq : v.addr i' k' = v.addr i k) : i' = i ∧ k' = k := by
  have h1 := has_self hi hk
  have h2 : v.has sb (i', k') = some (v.addr i k) := has_eq_some.2 ⟨hi', heq, hk⟩
  exact Prod.mk.inj (Ledger.excl h h2 h1)

theorem Own.addr_ne (h : v.Own sb) (hi : v.Live sb i) (ha : v.bm a = false)
    (h0 : v.addr i k ≠ 0) : v.addr i k ≠ a := by
  intro heq
  have := (h.data hi h0).2
  rw [heq, ha] at this
  cases this

theorem Own.free_data (h : v.Own sb) (ha : v.bm a = false) (hs : a < sb.size) : sb.Data a := by
  refine ⟨fun hm => ?_, hs⟩
  have := (Ledger.reserve h a ⟨hm, hs⟩).1
  rw [ha] at this
  cases this

theorem data_ne_zero (h : sb.Data a) : a ≠ 0 := by
  rintro rfl
  exact h.1 (.inl (by decide))

theorem addr_entry (v : Vol) (i : Nat) (e : Fin nindirect) :
    v.addr i (.entry e) =
      if v.addr i .indirect = 0 then 0 else (v.blk (v.addr i .indirect)).word e := rfl

theorem addr_ne_of_slotsFor (h : v.addr i (blockSlot bn) ≠ 0) (hk : k ∈ slotsFor bn) :
    v.addr i k ≠ 0 := by
  unfold slotsFor at hk
  split at hk
  · rwa [Finset.mem_singleton.1 hk]
  · next hd =>
    rcases Finset.mem_insert.1 hk with rfl | hk
    · intro h0
      unfold blockSlot at h
      rw [dif_neg hd, addr_entry, if_pos h0] at h
      exact h rfl
    · rwa [Finset.mem_singleton.1 hk]

theorem entry_congr (ha : v'.addr i .indirect = v.addr i .indirect)
    (hb : v.addr i .indirect ≠ 0 → v'.blk (v.addr i .indirect) = v.blk (v.addr i .indirect))
    (e : Fin nindirect) : v'.addr i (.entry e) = v.addr i (.entry e) := by
  rw [addr_entry, addr_entry, ha]
  split
  · rfl
  · next h => rw [hb h]

theorem addr_congr (hn : (v'.nd i).addrs = (v.nd i).addrs)
    (hb : v.addr i .indirect ≠ 0 → v'.blk (v.addr i .indirect) = v.blk (v.addr i .indirect))
    (k : Slot) : v'.addr i k = v.addr i k := by
  have ha : ∀ k, v'.addr i (.addr k) = v.addr i (.addr k) := fun k => by
    unfold addr
    rw [hn]
  cases k with
  | addr k => exact ha k
  | entry e => exact entry_congr (ha _) hb e

theorem byte_congr (ha : v'.addr i (blockSlot (x / bsize)) = v.addr i (blockSlot (x / bsize)))
    (hb : x / bsize < maxFile → v.addr i (blockSlot (x / bsize)) ≠ 0 →
      v'.blk (v.addr i (blockSlot (x / bsize))) = v.blk (v.addr i (blockSlot (x / bsize)))) :
    v'.byte i x = v.byte i x := by
  unfold byte
  rw [ha]
  split
  · next h => rw [hb h.1 h.2]
  · rfl

/-- Two volumes that differ at most in the sizes and the numbers of links of inodes. -/
structure Alike (v v' : Vol) : Prop where
  bm : v'.bm = v.bm
  blk : v'.blk = v.blk
  nd : ∀ j, (v'.nd j).type = (v.nd j).type ∧ (v'.nd j).addrs = (v.nd j).addrs

namespace Alike

theorem addr (h : Alike v v') (j : Nat) (k : Slot) : v'.addr j k = v.addr j k :=
  addr_congr (h.nd j).2 (fun _ => by rw [h.blk]) k

theorem byte (h : Alike v v') (j x : Nat) : v'.byte j x = v.byte j x :=
  byte_congr (h.addr j _) fun _ _ => by rw [h.blk]

theorem live (h : Alike v v') : v'.Live sb j ↔ v.Live sb j := by
  unfold Live
  rw [(h.nd j).1]

theorem own (h : Alike v v') (hv : v.Own sb) : v'.Own sb := by
  refine Ledger.congr hv (fun b => by rw [h.bm]) ?_
  rintro ⟨j, k⟩
  exact has_congr h.live (h.addr j k)

end Alike

theorem Own.setNode (h : v.Own sb) (hbm : v'.bm = v.bm) (hblk : v'.blk = v.blk)
    (hn : ∀ j, j ≠ i → v'.nd j = v.nd j) (h0 : ∀ k, v.has sb (i, k) = none)
    (h0' : ∀ k, v'.has sb (i, k) = none) : v'.Own sb := by
  refine Ledger.congr h (fun b => by rw [hbm]) ?_
  rintro ⟨j, k⟩
  by_cases hj : j = i
  · rw [hj, h0, h0']
  · have ha : v'.addr j k = v.addr j k := addr_congr (by rw [hn j hj]) (fun _ => by rw [hblk]) k
    exact has_congr (by unfold Live; rw [hn j hj]) ha

theorem addr_eq_zero (h : (v.nd i).addrs = fun _ => 0) (k : Slot) : v.addr i k = 0 := by
  have ha : ∀ k, v.addr i (.addr k) = 0 := fun k => by
    unfold addr
    rw [h]
  cases k with
  | addr k => exact ha k
  | entry e => rw [addr_entry, if_pos (ha _)]

theorem byte_add (hbn : off / bsize < maxFile) (h0 : v.addr i (blockSlot (off / bsize)) ≠ 0)
    (hn : off % bsize + n < bsize) :
    v.byte i (off + n) = (v.blk (v.addr i (blockSlot (off / bsize)))).byte (off % bsize + n) := by
  obtain ⟨h1, h2⟩ := (Nat.div_mod_unique (a := off + n) (d := off / bsize) (c := off % bsize + n)
    (show 0 < bsize by decide)).2 ⟨by have := Nat.mod_add_div off bsize; omega, hn⟩
  unfold byte
  rw [h1, h2, if_pos ⟨hbn, h0⟩]

theorem read_blk {m : Nat} (hbn : off / bsize < maxFile)
    (h0 : v.addr i (blockSlot (off / bsize)) ≠ 0) (hm : off % bsize + m ≤ bsize) :
    (v.blk (v.addr i (blockSlot (off / bsize)))).read (off % bsize) m =
      readRange (v.byte i) off m :=
  List.map_congr_left fun n hn =>
    (byte_add hbn h0 (by have := List.mem_range.1 hn; omega)).symm

/-! ## A slot gets a fresh block -/

/-- `balloc` has returned `a`. -/
def fresh (v : Vol) (a : Nat) : Vol :=
  ⟨v.nd, update v.bm a true, update v.blk a fun _ => 0⟩

/-- The block number `a` is written into a slot. -/
def setSlot (v : Vol) (i : Nat) (k : Slot) (a : Nat) : Vol :=
  match k with
  | .addr k =>
    ⟨update v.nd i { v.nd i with addrs := update (v.nd i).addrs k a }, v.bm, v.blk⟩
  | .entry j =>
    ⟨v.nd, v.bm, update v.blk (v.addr i .indirect) ((v.blk (v.addr i .indirect)).setWord j a)⟩

/-- A new block is put into a slot. -/
def grow (v : Vol) (i : Nat) (k : Slot) (a : Nat) : Vol := (v.fresh a).setSlot i k a

/-- The block `a` is free, and the slot is empty; an entry needs an indirect block. -/
structure Growable (sb : Superblock) (v : Vol) (i : Nat) (k : Slot) (a : Nat) : Prop where
  own : v.Own sb
  live : v.Live sb i
  free : v.bm a = false
  data : sb.Data a
  small : a < 2 ^ 32
  empty : v.addr i k = 0
  entry : ∀ j, k = .entry j → v.addr i .indirect ≠ 0

theorem grow_nd (v : Vol) (i : Nat) (k : Slot) (a : Nat) :
    (v.grow i k a).nd i = { v.nd i with addrs := ((v.grow i k a).nd i).addrs } ∧
      ∀ j, j ≠ i → (v.grow i k a).nd j = v.nd j := by
  cases k with
  | addr k =>
    refine ⟨?_, fun j hj => update_of_ne hj _ _⟩
    simp [grow, setSlot, fresh]
  | entry j => exact ⟨rfl, fun _ _ => rfl⟩

theorem live_grow : (v.grow i k a).Live sb j ↔ v.Live sb j := by
  obtain ⟨h1, h2⟩ := grow_nd v i k a
  unfold Live
  by_cases hj : j = i
  · subst hj
    rw [h1]
  · rw [h2 j hj]

theorem grow_addr (h : Growable sb v i k a) (hj : v.Live sb j) (k' : Slot) :
    (v.grow i k a).addr j k' = if j = i ∧ k' = k then a else v.addr j k' := by
  have ha : a ≠ 0 := data_ne_zero h.data
  -- the indirect blocks that are there keep their contents
  have hblk : ∀ i', v.Live sb i' → v.addr i' .indirect ≠ 0 →
      (v.fresh a).blk (v.addr i' .indirect) = v.blk (v.addr i' .indirect) := fun i' hi' h0 =>
    update_of_ne (h.own.addr_ne hi' h.free h0) _ _
  cases k with
  | addr k =>
    by_cases hji : j = i
    · subst hji
      cases k' with
      | addr k' =>
        by_cases hk : k' = k
        · subst hk
          simp [grow, setSlot, addr, fresh]
        · simp [grow, setSlot, addr, fresh, hk]
      | entry e =>
        rw [if_neg (by simp)]
        by_cases hk : k = Fin.last ndirect
        · -- a fresh indirect block has no entries
          subst hk
          have h1 : (v.nd j).addrs (Fin.last ndirect) = 0 := h.empty
          simp [grow, setSlot, addr, fresh, ha, h1, Block.word_zero]
        · have h1 : (v.grow j (.addr k) a).addr j .indirect = v.addr j .indirect := by
            simp [grow, setSlot, addr, fresh, Ne.symm hk]
          exact entry_congr h1 (hblk j hj) e
    · rw [if_neg (fun h => hji h.1)]
      exact addr_congr (congrArg Dinode.addrs ((grow_nd v i (.addr k) a).2 j hji)) (hblk j hj) k'
  | entry e =>
    have h0 := h.entry e rfl
    have hind : (v.grow i (.entry e) a).addr i .indirect = v.addr i .indirect := rfl
    have hself : (v.grow i (.entry e) a).blk (v.addr i .indirect) =
        (v.blk (v.addr i .indirect)).setWord e a := by
      rw [← hblk i h.live h0]
      exact update_self ..
    by_cases hji : j = i
    · subst hji
      cases k' with
      | addr k' =>
        rw [if_neg (by simp)]
        rfl
      | entry e' =>
        rw [addr_entry, hind, hself, if_neg h0]
        by_cases he : e' = e
        · subst he
          rw [if_pos ⟨rfl, rfl⟩]
          exact Block.word_setWord_self _ e'.isLt h.small
        · rw [if_neg (by simpa using he), addr_entry, if_neg h0]
          exact Block.word_setWord_of_ne _ _ e'.isLt fun heq => he (Fin.ext heq)
    · rw [if_neg (fun h => hji h.1)]
      refine addr_congr (congrArg Dinode.addrs ((grow_nd v i (.entry e) a).2 j hji))
        (fun hj0 => ?_) k'
      -- the indirect block of another inode is another block
      have hne : v.addr j .indirect ≠ v.addr i .indirect := fun heq =>
        hji (h.own.inj h.live hj h0 heq).1
      exact (update_of_ne hne _ _).trans (hblk j hj hj0)

theorem grow_blk (h : Growable sb v i k a) (hj : v.Live sb j) (hk : k' ≠ .indirect)
    (h0 : v.addr j k' ≠ 0) : (v.grow i k a).blk (v.addr j k') = v.blk (v.addr j k') := by
  have h1 : (v.fresh a).blk (v.addr j k') = v.blk (v.addr j k') :=
    update_of_ne (h.own.addr_ne hj h.free h0) _ _
  cases k with
  | addr k => exact h1
  | entry e =>
    have hne : v.addr j k' ≠ v.addr i .indirect := fun heq =>
      hk (h.own.inj h.live hj (h.entry e rfl) heq).2
    exact (update_of_ne hne _ _).trans h1

theorem grow_byte (h : Growable sb v i k a) (hj : v.Live sb j) (x : Nat) :
    (v.grow i k a).byte j x = v.byte j x := by
  by_cases hs : j = i ∧ blockSlot (x / bsize) = k
  · obtain ⟨rfl, rfl⟩ := hs
    have h1 := grow_addr h hj (blockSlot (x / bsize))
    rw [if_pos ⟨rfl, rfl⟩] at h1
    have h2 : (v.grow j (blockSlot (x / bsize)) a).blk a = fun _ => 0 := by
      cases hk : blockSlot (x / bsize) with
      | addr k => exact update_self ..
      | entry e =>
        have hne : a ≠ v.addr j .indirect := fun heq =>
          h.own.addr_ne hj h.free (h.entry e hk) heq.symm
        exact (update_of_ne hne _ _).trans (update_self ..)
    unfold byte
    rw [h1, h2, h.empty]
    simp [Block.byte]
  · have h1 := grow_addr h hj (blockSlot (x / bsize))
    rw [if_neg hs] at h1
    exact byte_congr h1 fun _ => grow_blk h hj (blockSlot_ne_indirect _)

theorem grow_own (h : Growable sb v i k a) : (v.grow i k a).Own sb := by
  have hfree : ¬ Used sb v.bm a := fun hu => Bool.false_ne_true (h.free.symm.trans hu.1)
  refine (Ledger.take h.own hfree (has_eq_none h.empty) (u := Used sb (v.grow i k a).bm)
    fun x => ?_).congr (fun _ => Iff.rfl) ?_
  · have hbm : (v.grow i k a).bm = update v.bm a true := by cases k <;> rfl
    unfold Used
    rw [hbm]
    by_cases hx : x = a
    · subst hx
      simp [h.data.2]
    · simp [hx]
  · rintro ⟨j, k'⟩
    have hjk : (j, k') = (i, k) ↔ j = i ∧ k' = k := Prod.mk.injEq .. ▸ Iff.rfl
    by_cases hj : v.Live sb j
    · by_cases hs : j = i ∧ k' = k
      · rw [hjk.2 hs, update_self]
        have h1 := grow_addr h h.live k
        rw [if_pos ⟨rfl, rfl⟩] at h1
        exact has_eq_some.2 ⟨live_grow.2 h.live, h1, data_ne_zero h.data⟩
      · rw [update_of_ne fun heq => hs (hjk.1 heq)]
        have h1 := grow_addr h hj k'
        rw [if_neg hs] at h1
        exact has_congr live_grow h1
    · have hne : (j, k') ≠ (i, k) := fun heq => hj ((hjk.1 heq).1 ▸ h.live)
      rw [update_of_ne hne, has_of_not_live hj, has_of_not_live fun h' => hj (live_grow.1 h')]

/-! ## Room for more blocks -/

/-- The blocks that `balloc` may return. -/
def free (sb : Superblock) (v : Vol) : Finset Nat := (Finset.range sb.size).filter
    fun b => v.bm b = false

/-- There are blocks for the empty ones of the slots `T`. -/
def Enough (sb : Superblock) (i : Nat) (T : Finset Slot) (v : Vol) : Prop :=
  (T.filter fun k => v.addr i k = 0).card ≤ (v.free sb).card

theorem Enough.congr (ha : ∀ k, v'.addr i k = v.addr i k) (hb : v'.bm = v.bm)
    (h : Enough sb i T v) :
    Enough sb i T v' := by
  unfold Enough free at *
  simpa only [ha, hb] using h

theorem Enough.grow (hg : Growable sb v i k a) (hk : k ∈ T) (h : Enough sb i T v) :
    Enough sb i T (v.grow i k a) := by
  have hslots : (T.filter fun k' => (v.grow i k a).addr i k' = 0) =
      (T.filter fun k' => v.addr i k' = 0).erase k := by
    ext k'
    by_cases hkk : k' = k
    · simp [hkk, grow_addr hg hg.live, data_ne_zero hg.data]
    · simp [hkk, grow_addr hg hg.live]
  have hfree : (v.grow i k a).free sb = (v.free sb).erase a := by
    have hbm : (v.grow i k a).bm = update v.bm a true := by cases k <;> rfl
    ext b
    by_cases hb : b = a
    · simp [free, hbm, hb]
    · simp [free, hbm, hb]
  have hk0 : k ∈ T.filter fun k' => v.addr i k' = 0 := Finset.mem_filter.2 ⟨hk, hg.empty⟩
  have ha : a ∈ v.free sb := Finset.mem_filter.2 ⟨Finset.mem_range.2 hg.data.2, hg.free⟩
  unfold Enough at *
  rw [hslots, hfree, Finset.card_erase_of_mem hk0, Finset.card_erase_of_mem ha]
  exact Nat.sub_le_sub_right h 1

theorem not_enough (hk : k ∈ T) (h0 : v.addr i k = 0) (hf : v.free sb = ∅) :
    ¬ Enough sb i T v := by
  intro h
  unfold Enough at h
  rw [hf, Finset.card_empty, Nat.le_zero, Finset.card_eq_zero] at h
  have hk0 : k ∈ T.filter fun k' => v.addr i k' = 0 := Finset.mem_filter.2 ⟨hk, h0⟩
  rw [h] at hk0
  exact Finset.notMem_empty k hk0

/-! ## Bytes of a block are overwritten -/

/-- Bytes are written into block `a`. -/
def store (v : Vol) (a off : Nat) (src : List UInt8) : Vol :=
  ⟨v.nd, v.bm, update v.blk a ((v.blk a).write off src)⟩

theorem store_addr (h : v.Own sb) (hi : v.Live sb i) (hk : k ≠ .indirect) (h0 : v.addr i k ≠ 0)
    (hj : v.Live sb j) (k' : Slot) :
    (v.store (v.addr i k) off src).addr j k' = v.addr j k' := by
  have hne : ∀ k', k' = .indirect → v.addr j k' ≠ v.addr i k := fun k' hk' heq =>
    hk ((h.inj hi hj h0 heq).2.symm.trans hk')
  refine addr_congr (show ((v.store _ off src).nd j).addrs = (v.nd j).addrs from rfl)
    (fun _ => ?_) k'
  exact update_of_ne (hne _ rfl) _ _

theorem store_own (h : v.Own sb) (hi : v.Live sb i) (hk : k ≠ .indirect) (h0 : v.addr i k ≠ 0) :
    (v.store (v.addr i k) off src).Own sb := by
  refine Ledger.congr h (fun _ => Iff.rfl) ?_
  rintro ⟨j, k'⟩
  by_cases hj : v.Live sb j
  · exact has_congr Iff.rfl (store_addr h hi hk h0 hj k')
  · rw [has_of_not_live hj]
    exact has_of_not_live hj

theorem store_byte_of_ne (h : v.Own sb) (hi : v.Live sb i) (hk : k ≠ .indirect)
    (h0 : v.addr i k ≠ 0) (hj : v.Live sb j)
    (hne : j ≠ i ∨ (x / bsize < maxFile → blockSlot (x / bsize) ≠ k)) :
    (v.store (v.addr i k) off src).byte j x = v.byte j x := by
  refine byte_congr (store_addr h hi hk h0 hj _) fun hx _ =>
    update_of_ne (fun heq => ?_) _ _
  obtain ⟨h1, h2⟩ := h.inj hi hj h0 heq
  rcases hne with hne | hne
  · exact hne h1
  · exact hne hx h2

theorem store_byte (h : v.Own sb) (hi : v.Live sb i) (hbn : bn < maxFile)
    (h0 : v.addr i (blockSlot bn) ≠ 0) (hs : off + src.length ≤ bsize) (x : Nat) :
    (v.store (v.addr i (blockSlot bn)) off src).byte i x =
      writeRange (v.byte i) (bn * bsize + off) src x := by
  have hk := blockSlot_ne_indirect bn
  have hx := Nat.div_add_mod x bsize
  have hm := Nat.mod_lt x (show 0 < bsize by decide)
  by_cases hxb : x / bsize = bn
  · subst hxb
    have h1 : ∀ w : Vol, w.addr i (blockSlot (x / bsize)) = v.addr i (blockSlot (x / bsize)) →
        w.byte i x = (w.blk (v.addr i (blockSlot (x / bsize)))).byte (x % bsize) := fun w hw => by
      unfold byte
      rw [hw, if_pos ⟨hbn, h0⟩]
    rw [h1 _ (store_addr h hi hk h0 hi _)]
    have h2 : (v.store (v.addr i (blockSlot (x / bsize))) off src).blk
        (v.addr i (blockSlot (x / bsize))) =
          (v.blk (v.addr i (blockSlot (x / bsize)))).write off src := update_self ..
    rw [h2, Block.byte_write _ _ _ hm]
    have h3 : x / bsize * bsize = bsize * (x / bsize) := Nat.mul_comm _ _
    unfold writeRange
    rw [← h1 v rfl]
    have h4 : x - (x / bsize * bsize + off) = x % bsize - off := by omega
    rw [h4]
    refine if_congr ?_ rfl rfl
    omega
  · rw [store_byte_of_ne h hi hk h0 hi]
    · have h3 : bn * bsize = bsize * bn := Nat.mul_comm _ _
      rcases Nat.lt_or_gt_of_ne hxb with hlt | hgt
      · have h4 : bsize * (x / bsize + 1) ≤ bsize * bn := Nat.mul_le_mul_left _ hlt
        rw [Nat.mul_add] at h4
        exact (writeRange_of_lt (by omega)).symm
      · have h4 : bsize * (bn + 1) ≤ bsize * (x / bsize) := Nat.mul_le_mul_left _ hgt
        rw [Nat.mul_add] at h4
        exact (writeRange_of_ge (by omega)).symm
    · exact .inr fun hxm heq => hxb (blockSlot_inj hxm hbn heq)

/-! ## What writing to an inode does to the volume -/

/-- Work on inode `i` leaves the blocks there are and the other inodes. -/
structure Evolves (sb : Superblock) (i : Nat) (v v' : Vol) : Prop where
  own : v'.Own sb
  others : ∀ j, j ≠ i → v'.nd j = v.nd j
  self : v'.nd i = { v.nd i with addrs := (v'.nd i).addrs }
  keep : ∀ j k, v.Live sb j → v.addr j k ≠ 0 → v'.addr j k = v.addr j k
  byte : ∀ j x, j ≠ i → v.Live sb j → v'.byte j x = v.byte j x

namespace Evolves

theorem refl (h : v.Own sb) : Evolves sb i v v :=
  ⟨h, fun _ _ => rfl, rfl, fun _ _ _ _ => rfl, fun _ _ _ _ => rfl⟩

theorem live (h : Evolves sb i v v') : v'.Live sb j ↔ v.Live sb j := by
  unfold Live
  by_cases hj : j = i
  · subst hj
    rw [h.self]
  · rw [h.others j hj]

theorem trans {v'' : Vol} (h : Evolves sb i v v') (h' : Evolves sb i v' v'') :
    Evolves sb i v v'' := by
  refine ⟨h'.own, fun j hj => (h'.others j hj).trans (h.others j hj), ?_, fun j k hj h0 => ?_,
    fun j x hj hl => (h'.byte j x hj (h.live.2 hl)).trans (h.byte j x hj hl)⟩
  · rw [h'.self, h.self]
  · have h1 := h.keep j k hj h0
    rw [h'.keep j k (h.live.2 hj) (by rwa [h1]), h1]

theorem grow (h : Growable sb v i k a) : Evolves sb i v (v.grow i k a) := by
  obtain ⟨h1, h2⟩ := grow_nd v i k a
  refine ⟨grow_own h, h2, h1, fun j k' hj h0 => ?_, fun j x _ hj => grow_byte h hj x⟩
  rw [grow_addr h hj, if_neg]
  rintro ⟨rfl, rfl⟩
  exact h0 h.empty

theorem store (off : Nat) (src : List UInt8) (h : v.Own sb) (hi : v.Live sb i) (hk : k ≠ .indirect)
    (h0 : v.addr i k ≠ 0) : Evolves sb i v (v.store (v.addr i k) off src) :=
  ⟨store_own h hi hk h0, fun _ _ => rfl, rfl, fun _ k' hj _ => store_addr h hi hk h0 hj k',
    fun _ _ hne hj => store_byte_of_ne h hi hk h0 hj (.inl hne)⟩

end Evolves

/-! ## Slots give their blocks back -/

/-- The holders, without the slots `D` of inode `i`, whose blocks are free again. -/
noncomputable def hasBut (sb : Superblock) (v : Vol) (i : Nat) (D : Set Slot) (h : Nat × Slot) :
    Option Nat :=
  open Classical in if h.1 = i ∧ h.2 ∈ D then none else v.has sb h

/-- `Own`, where the slots `D` of inode `i` no longer hold their blocks. -/
def OwnBut (sb : Superblock) (v : Vol) (i : Nat) (D : Set Slot) : Prop :=
  Ledger (Reserved sb) (Used sb v.bm) (v.hasBut sb i D)

/-- Block `a` is marked free. -/
def dropBit (v : Vol) (a : Nat) : Vol := ⟨v.nd, update v.bm a false, v.blk⟩

/-- A slot is emptied. -/
def clear (v : Vol) (i : Nat) (k : Fin (ndirect + 1)) : Vol :=
  ⟨update v.nd i { v.nd i with addrs := update (v.nd i).addrs k 0 }, v.bm, v.blk⟩

variable {D : Set Slot}

theorem ownBut_empty : v.OwnBut sb i ∅ ↔ v.Own sb := by
  have h : v.hasBut sb i ∅ = v.has sb := funext fun _ => if_neg fun h => h.2
  rw [OwnBut, h, Own]

theorem hasBut_of_mem (h : k ∈ D) : v.hasBut sb i D (i, k) = none := if_pos ⟨rfl, h⟩

theorem hasBut_of_ne (h : j ≠ i ∨ k ∉ D) : v.hasBut sb i D (j, k) = v.has sb (j, k) :=
  if_neg fun h' => h.elim (fun h => h h'.1) fun h => h h'.2

theorem hasBut_eq_some (hi : v.Live sb i) (hk : k ∉ D) (h0 : v.addr i k ≠ 0) :
    v.hasBut sb i D (i, k) = some (v.addr i k) :=
  (hasBut_of_ne (.inr hk)).trans (has_self hi h0)

theorem OwnBut.held (h : v.OwnBut sb i D) (hi : v.Live sb i) (hk : k ∉ D) (h0 : v.addr i k ≠ 0) :
    sb.Data (v.addr i k) ∧ v.bm (v.addr i k) = true := by
  obtain ⟨⟨h1, h2⟩, h3⟩ := Ledger.held h _ _ (hasBut_eq_some hi hk h0)
  exact ⟨⟨fun hm => h3 ⟨hm, h2⟩, h2⟩, h1⟩

theorem OwnBut.addEmpty (h : v.OwnBut sb i D) (h0 : v.addr i k = 0) :
    v.OwnBut sb i (insert k D) := by
  refine Ledger.congr h (fun _ => Iff.rfl) ?_
  rintro ⟨j, k'⟩
  by_cases hj : j = i
  · subst hj
    by_cases hD : k' ∈ D
    · rw [hasBut_of_mem hD, hasBut_of_mem (Set.mem_insert_of_mem _ hD)]
    · rw [hasBut_of_ne (.inr hD)]
      by_cases hk : k' = k
      · subst hk
        rw [hasBut_of_mem (Set.mem_insert ..), has_eq_none h0]
      · rw [hasBut_of_ne (.inr fun h' => hD (h'.resolve_left hk))]
  · rw [hasBut_of_ne (.inl hj), hasBut_of_ne (.inl hj)]

theorem OwnBut.dropBit (h : v.OwnBut sb i D) (hi : v.Live sb i) (hk : k ∉ D) (h0 : v.addr i k ≠ 0) :
    (v.dropBit (v.addr i k)).OwnBut sb i (insert k D) := by
  refine (Ledger.drop h (hasBut_eq_some hi hk h0)
    (u := Used sb (v.dropBit (v.addr i k)).bm) fun x => ?_).congr (fun _ => Iff.rfl) ?_
  · unfold Used Vol.dropBit
    by_cases hx : x = v.addr i k
    · simp [hx]
    · simp [hx]
  · rintro ⟨j, k'⟩
    by_cases hj : j = i
    · subst hj
      by_cases hk' : k' = k
      · subst hk'
        rw [update_self]
        exact hasBut_of_mem (Set.mem_insert ..)
      · rw [update_of_ne fun heq => hk' (Prod.mk.inj heq).2]
        by_cases hD : k' ∈ D
        · rw [hasBut_of_mem hD, hasBut_of_mem (Set.mem_insert_of_mem _ hD)]
        · rw [hasBut_of_ne (.inr hD), hasBut_of_ne (.inr fun h' => hD (h'.resolve_left hk'))]
          rfl
    · rw [update_of_ne fun heq => hj (Prod.mk.inj heq).1, hasBut_of_ne (.inl hj),
        hasBut_of_ne (.inl hj)]
      rfl

theorem live_clear {n : Fin (ndirect + 1)} : (v.clear i n).Live sb j ↔ v.Live sb j := by
  unfold Live clear
  by_cases hj : j = i
  · subst hj
    simp
  · simp [hj]

theorem OwnBut.clear {n : Fin (ndirect + 1)} {D' : Set Slot} (h : v.OwnBut sb i D)
    (hD : ∀ k, k ∈ D ↔ k = .addr n ∨ k ∈ D' ∨ n = Fin.last ndirect ∧ ∃ e, k = .entry e) :
    (v.clear i n).OwnBut sb i D' := by
  refine Ledger.congr h (fun _ => Iff.rfl) ?_
  rintro ⟨j, k⟩
  by_cases hj : j = i
  · subst hj
    have hself : (v.clear j n).addr j (.addr n) = 0 := by simp [Vol.clear, addr]
    have ha : ∀ m, m ≠ n → (v.clear j n).addr j (.addr m) = v.addr j (.addr m) := fun m hm => by
      simp [Vol.clear, addr, hm]
    by_cases hk : k ∈ D
    · rw [hasBut_of_mem hk]
      by_cases hk' : k ∈ D'
      · exact hasBut_of_mem hk'
      · rw [hasBut_of_ne (.inr hk')]
        refine has_eq_none ?_
        rcases (hD k).1 hk with rfl | hk'' | ⟨rfl, e, rfl⟩
        · exact hself
        · exact absurd hk'' hk'
        · rw [addr_entry, if_pos hself]
    · have hk' : k ∉ D' := fun h' => hk ((hD k).2 (.inr (.inl h')))
      rw [hasBut_of_ne (.inr hk), hasBut_of_ne (.inr hk')]
      refine has_congr live_clear ?_
      cases k with
      | addr m => exact ha m fun heq => hk ((hD _).2 (.inl (by rw [heq])))
      | entry e =>
        have hn : n ≠ Fin.last ndirect := fun heq => hk ((hD _).2 (.inr (.inr ⟨heq, e, rfl⟩)))
        exact entry_congr (ha _ hn.symm) (fun _ => rfl) e
  · rw [hasBut_of_ne (.inl hj), hasBut_of_ne (.inl hj)]
    have hnd : (v.clear i n).nd j = v.nd j := update_of_ne hj _ _
    exact has_congr live_clear (addr_congr (congrArg Dinode.addrs hnd) (fun _ => rfl) k)

end

end Vol

end Xv6.Fs
