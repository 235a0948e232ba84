import Xv6.Mkfs.Main
import Xv6.Fs.Proof.Content

/-!
# Reading back what is written

Each field that `mkfs` writes is read back by the kernel: an inode in its place of the inode area
(`dinodeAt_update`), the bits of the bitmap (`bitAt_bitmapBlock`), the super block
(`readsb_update`).
-/

namespace Xv6.Fs

open Lib Function

namespace Block

variable {b : Block} {off off' m : Nat} {src : List UInt8}

theorem read_write_self (h : off + src.length ≤ bsize) :
    (b.write off src).read off src.length = src := by
  refine Eq.trans (readRange_congr fun k hk => ?_) (@readRange_writeRange b.byte _ _)
  exact byte_write b off src (by omega)

theorem read_write_of_disjoint (hm : off' + m ≤ bsize) (h : off' + m ≤ off ∨
    off + src.length ≤ off') :
    (b.write off src).read off' m = b.read off' m := by
  refine readRange_congr fun k hk => ?_
  rw [byte_write b off src (by omega)]
  rcases h with h | h
  · exact writeRange_of_lt (by omega)
  · exact writeRange_of_ge (by omega)

end Block

/-! ## Inodes -/

/-- The fields fit in 32 bits. -/
structure Dinode.Small (d : Dinode) : Prop where
  size : d.size < 2 ^ 32
  addrs : ∀ k, d.addrs k < 2 ^ 32

theorem ofTypeCode_typeCode : ∀ t, ofTypeCode (typeCode t) = t
  | none | some .dir | some .file | some .dev => rfl

theorem typeCode_lt (t : Option FileType) : typeCode t < 256 ^ 2 := by
  rcases t with _ | _ | _ | _ <;> decide

theorem take_drop_flatMap {α : Type} {w : Nat} (f : α → List UInt8) :
    ∀ (l : List α) (j : Nat) (h : j < l.length), (∀ a ∈ l, (f a).length = w) →
      ((l.flatMap f).drop (w * j)).take w = f l[j]
  | a :: l, 0, _, hf => by
    simp only [List.flatMap_cons, Nat.mul_zero, List.drop_zero, List.getElem_cons_zero]
    exact List.take_left' (hf a (.head l))
  | a :: l, j + 1, h, hf => by
    have hdrop : ((a :: l).flatMap f).drop (w * (j + 1)) = (l.flatMap f).drop (w * j) := by
      rw [List.flatMap_cons, Nat.mul_add, Nat.mul_one, Nat.add_comm, ← List.drop_drop,
        List.drop_left' (hf a (.head l))]
    rw [hdrop, take_drop_flatMap f l j (by simpa using h) fun b hb => hf b (.tail a hb)]
    rfl

namespace Dinode

@[simp]
theorem bytes_length (d : Dinode) : d.bytes.length = dinodeSize := by
  simp [bytes, List.length_flatMap, dinodeSize, ndirect]

theorem ofBytes_bytes {d : Dinode} (h : d.Small) : ofBytes d.bytes = d := by
  obtain ⟨type, major, minor, nlink, size, addrs⟩ := d
  have hnum : ∀ x : BitVec 16, BitVec.ofNat 16 (leNat (leBytes 2 x.toNat)) = x := fun x => by
    rw [leNat_leBytes x.isLt, BitVec.ofNat_toNat, BitVec.setWidth_eq]
  unfold bytes ofBytes
  simp (disch := omega) only [take_leBytes, drop_leBytes, Nat.reduceSub, List.drop_zero, hnum]
  congr 1
  · rw [leNat_leBytes (typeCode_lt type), ofTypeCode_typeCode]
  · exact leNat_leBytes (n := 4) h.size
  · funext k
    have hk := take_drop_flatMap (fun k => leBytes 4 (addrs k)) (List.finRange (ndirect + 1)) k
      (by rw [List.length_finRange]; exact k.isLt) fun k _ => leBytes_length 4 _
    rw [show 12 + 4 * k.val - 2 - 2 - 2 - 2 - 4 = 4 * k by omega, hk, List.getElem_finRange,
      leNat_leBytes (h.addrs _)]
    rfl

end Dinode

theorem dinode_fits (i : Nat) : dinodeSize * (i % ipb) + dinodeSize ≤ bsize := by
  have h := Nat.mod_lt i (show 0 < ipb by decide)
  simp only [dinodeSize, bsize, ipb] at *
  omega

section
variable {x : Sectors} {sb : Superblock} {i j : Nat} {d : Dinode}

theorem dinodeAt_update (h : d.Small) :
    dinodeAt (update x (sb.iblock i)
      ((x (sb.iblock i)).write (dinodeSize * (i % ipb)) d.bytes)) sb j =
        if j = i then d else dinodeAt x sb j := by
  unfold dinodeAt
  by_cases hb : sb.iblock j = sb.iblock i
  · have hdiv : j / ipb = i / ipb := by simpa [Superblock.iblock] using hb
    rw [hb, update_self]
    by_cases hji : j = i
    · subst hji
      have hread : ((x (sb.iblock j)).write (dinodeSize * (j % ipb)) d.bytes).read
          (dinodeSize * (j % ipb)) dinodeSize = d.bytes := by
        have h1 := @Block.read_write_self (x (sb.iblock j)) (dinodeSize * (j % ipb))
          d.bytes (by rw [Dinode.bytes_length]; exact dinode_fits j)
        rwa [Dinode.bytes_length] at h1
      rw [if_pos rfl, hread, Dinode.ofBytes_bytes h]
    · have hmod : j % ipb ≠ i % ipb := fun hm => hji <| by
        rw [← Nat.div_add_mod j ipb, ← Nat.div_add_mod i ipb, hdiv, hm]
      rw [if_neg hji, Block.read_write_of_disjoint (dinode_fits j)]
      rw [Dinode.bytes_length]
      simp only [dinodeSize]
      omega
  · have hji : j ≠ i := fun h => hb (by rw [h])
    rw [if_neg hji, update_of_ne hb]

theorem dinodeAt_of_ne {b : Nat} {buf : Block} (h : sb.iblock j ≠ b) :
    dinodeAt (update x b buf) sb j = dinodeAt x sb j := by
  unfold dinodeAt
  rw [update_of_ne h]

end

end Xv6.Fs

namespace Xv6.Fs.Mkfs

open Lib Function

/-! ## The bitmap -/

theorem toNat_bit (i : Nat) : (UInt8.ofNat (2 ^ (i % 8))).toNat = 2 ^ (i % 8) := by
  have h := Nat.mod_lt i (show 0 < 8 by decide)
  exact UInt8.toNat_ofNat_of_lt' (Nat.pow_lt_pow_right (by decide) h)

theorem testBit_bitmapBlock : ∀ used, used ≤ bsize * 8 → ∀ b < bsize * 8,
    ((bitmapBlock used).byte (b / 8)).toNat.testBit (b % 8) = decide (b < used)
  | 0, _, b, _ => by simp [bitmapBlock, Block.byte]
  | used + 1, h, b, hb => by
    have ih := testBit_bitmapBlock used (by omega) b hb
    have hstep : bitmapBlock (used + 1) =
        update (bitmapBlock used) (Fin.ofNat bsize (used / 8))
          (bitmapBlock used (Fin.ofNat bsize (used / 8)) ||| UInt8.ofNat (2 ^ (used % 8))) := by
      rw [bitmapBlock, List.range_succ, List.foldl_append]
      rfl
    have hb8 : b / 8 < bsize := by omega
    have hu8 : used / 8 < bsize := by omega
    unfold Block.byte at ih ⊢
    rw [hstep]
    by_cases hk : b / 8 = used / 8
    · rw [hk, update_self, UInt8.toNat_or, Nat.testBit_or, toNat_bit, Nat.testBit_two_pow, ← hk, ih]
      by_cases hm : used % 8 = b % 8
      · have : b < used + 1 := by omega
        simp [hm, this]
      · have : b < used + 1 ↔ b < used := by omega
        simp [hm, this]
    · have hne : Fin.ofNat bsize (b / 8) ≠ Fin.ofNat bsize (used / 8) := fun heq => hk <| by
        have := congrArg Fin.val heq
        rwa [Fin.val_ofNat, Fin.val_ofNat, Nat.mod_eq_of_lt hb8, Nat.mod_eq_of_lt hu8] at this
      have : b < used + 1 ↔ b < used := by omega
      rw [update_of_ne hne, ih]
      simp [this]

theorem bitAt_bitmapBlock {x : Sectors} {used b : Nat} (hx : x sb.bmapstart = bitmapBlock used)
    (hu : used ≤ bsize * 8) (hb : b < bsize * 8) : bitAt x sb b = decide (b < used) := by
  have h1 : b % bpb = b := Nat.mod_eq_of_lt hb
  have h2 : sb.bblock b = sb.bmapstart := by
    rw [Superblock.bblock, Nat.div_eq_of_lt hb, Nat.zero_add]
  rw [bitAt, h1, h2, hx]
  exact testBit_bitmapBlock used hu b hb

/-! ## The super block -/

theorem readsb_super {x : Sectors} (h : x 1 = Block.write (fun _ => 0) 0 sbBytes) :
    readsb x = sb := by
  have hword : ∀ (j : Nat) (hj : j < 7), (x 1).word j =
      [sb.size, nblocks, sb.ninodes, sb.nlog, sb.logstart, sb.inodestart, sb.bmapstart][j] := by
    intro j hj
    rw [h]
    revert j
    decide
  simp only [readsb, hword 0 (by decide), hword 2 (by decide), hword 3 (by decide),
    hword 4 (by decide), hword 5 (by decide), hword 6 (by decide)]
  rfl

end Xv6.Fs.Mkfs
