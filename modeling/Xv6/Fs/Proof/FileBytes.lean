import Xv6.Fs.Proof.VolInv
import Xv6.Fs.Image

/-!
# The contents of files

The contents of an inode as a list of as many bytes as its size says. `writei` replaces the bytes
from `off` on, and makes the list longer if it has to; `readi` returns a part of the list. Both keep
every block below the size allocated, so that the next call finds the file in order again.
-/

namespace Xv6.Fs

open Lib

/-- The bytes of inode `i`. -/
def Core.contents (s : Core) (i : Nat) : List UInt8 := readRange (s.vol.byte i) 0 (s.dinode i).size

/-- `readi` refuses to read. -/
def BadRead (size off n : Nat) : Prop := off > size ∨ (off + n) % 2 ^ 32 < off

section
variable {c : Ctx} {ip : Fin ninode} {s : State} {E : Stop → State → Prop}
variable {off n : Nat} {src : List UInt8} {s' : State}

theorem readi_bad (hd : (s.icache ip).type ≠ some .dev) (hbad : BadRead (s.icache ip).size off n) :
    Triple (· = s) (readi c ip off n) (fun r s' => s' = s ∧ r = (-1, [])) E := by
  refine .read_bind rfl ?_
  exact .ite (fun h => absurd h hd) fun _ => .ite (fun _ => .pure fun _ h => ⟨h, rfl⟩)
    fun h => absurd hbad h

theorem wraps_iff (hoff : off < 2 ^ 32) (hn : n < 2 ^ 32) :
    (off + n) % 2 ^ 32 < off ↔ 2 ^ 32 ≤ off + n := by
  omega

theorem Ready.contents_length (h : Ready c.sb s ip) :
    (s.contents (s.icache ip).inum).length = (s.icache ip).size := by
  unfold Core.contents
  rw [readRange_length, h.sync]

theorem Ready.readi_contents (h : Ready c.sb s ip) (hd : (s.icache ip).type ≠ some .dev)
    (hoff : off < 2 ^ 32) (hn : n < 2 ^ 32) (hok : ¬ BadRead (s.icache ip).size off n) :
    Triple (· = s) (Fs.readi c ip off n)
      (fun r s' => s' = s ∧ r.1 = r.2.length ∧
        r.2 = ((s.contents (s.icache ip).inum).drop off).take n) E := by
  unfold BadRead at hok
  rw [wraps_iff hoff hn] at hok
  refine (h.readi off n).post fun r s' ⟨hs, hr⟩ => ⟨hs, ?_⟩
  obtain rfl := hr hd (by omega) (by omega)
  refine ⟨by simp, ?_⟩
  unfold Core.contents
  rw [readRange_drop, Nat.zero_add, h.sync]
  by_cases hle : n ≤ (s.icache ip).size - off
  · rw [Nat.min_eq_left hle, readRange_take hle]
  · rw [Nat.min_eq_right (by omega), List.take_of_length_le (by rw [readRange_length]; omega)]

theorem Wrote.contents (hw : Wrote c.sb ip off src s s')
    (h : Ready c.sb s ip) (hoff : off ≤ (s.icache ip).size) :
    s'.contents (s.icache ip).inum = splice (s.contents (s.icache ip).inum) off src := by
  unfold Core.contents
  rw [hw.self, show s'.vol.byte _ = _ from funext hw.byte, h.sync, readRange_splice hoff]

theorem Wrote.contents_of_ne {j : Nat} (hw : Wrote c.sb ip off src s s')
    (hj : j ≠ (s.icache ip).inum) (hl : s.vol.Live c.sb j) :
    s'.contents j = s.contents j := by
  unfold Core.contents
  rw [hw.others j hj, show s'.vol.byte j = _ from funext fun x => hw.byte_of_ne j x hj hl]

/-- The ranges that `writei` refuses: it starts after the end, wraps around or is too long for a
file. -/
def Refused (size off n : Nat) : Prop := off > size ∨ 2 ^ 32 ≤ off + n ∨ off + n > maxFile * bsize

/-- What `writei` promises of the result `r` and of the state `s'` after it. -/
structure WriteOk (sb : Superblock) (s : State) (ip : Fin ninode) (src : List UInt8)
    (off : Nat) (r : Int) (s' : State) : Prop where
  refused : r = -1 ∧ s' = s ↔ Refused (s.icache ip).size off src.length
  value : ¬ (r = -1 ∧ s' = s) → r = src.length
  contents : ¬ (r = -1 ∧ s' = s) →
    s'.contents (s.icache ip).inum = splice (s.contents (s.icache ip).inum) off src
  others : ∀ j, j ≠ (s.icache ip).inum → s.vol.Live sb j → s'.contents j = s.contents j
  ready : Ready sb s' ip

theorem Ready.writei_contents (h : Ready c.sb s ip) (hsb : c.sb.size ≤ 2 ^ 32)
    (hd : (s.icache ip).type ≠ some .dev) (hoff : off < 2 ^ 32) (hlen : src.length < 2 ^ 32)
    (henough : s.vol.Enough c.sb (s.icache ip).inum (rangeSlots off src.length)) :
    ∃ r s', Fs.writei c ip src off s = .ok r s' ∧ WriteOk c.sb s ip src off r s' := by
  by_cases hbad : BadWrite (s.icache ip).size off src.length
  · obtain ⟨r, s', hx, rfl, rfl⟩ := (writei_bad (c := c) hd hbad).returns rfl
    unfold BadWrite at hbad
    rw [wraps_iff hoff hlen] at hbad
    exact ⟨-1, s', hx, iff_of_true ⟨rfl, rfl⟩ hbad, fun hn => absurd ⟨rfl, rfl⟩ hn,
      fun hn => absurd ⟨rfl, rfl⟩ hn, fun _ _ _ => rfl, h⟩
  · have hgood := writei_good h.own h.live hsb h.sync h.sized hd hbad
    obtain ⟨r, s', hx, hw, rfl⟩ :=
      (hgood.conseq (fun _ => id) (fun _ _ => id) fun _ _ he => he.2 henough).returns rfl
    unfold BadWrite at hbad
    rw [wraps_iff hoff hlen] at hbad
    refine ⟨_, s', hx, iff_of_false (fun hr => ?_) hbad, fun _ => rfl,
      fun _ => hw.contents h (by omega),
      fun j => hw.contents_of_ne, hw.ready h (by omega) (by omega)⟩
    have := hr.1
    omega

theorem Ready.readi_bytes (h : Ready c.sb s ip) (hd : (s.icache ip).type ≠ some .dev)
    (hoff : off < 2 ^ 32)
    (hn : n < 2 ^ 32) : ∃ r bs, Fs.readi c ip off n s = .ok (r, bs) s ∧
      (r = -1 ↔ off > (s.icache ip).size ∨ 2 ^ 32 ≤ off + n) ∧
      (r ≠ -1 → r = bs.length ∧ bs = ((s.contents (s.icache ip).inum).drop off).take n) := by
  by_cases hbad : BadRead (s.icache ip).size off n
  · obtain ⟨r, s', hx, rfl, rfl⟩ := (readi_bad (c := c) hd hbad).returns rfl
    unfold BadRead at hbad
    rw [wraps_iff hoff hn] at hbad
    exact ⟨-1, [], hx, iff_of_true rfl hbad, fun hr => absurd rfl hr⟩
  · obtain ⟨⟨r, bs⟩, s', hx, rfl, hr, hbs⟩ := (h.readi_contents hd hoff hn hbad).returns rfl
    unfold BadRead at hbad
    rw [wraps_iff hoff hn] at hbad
    refine ⟨r, bs, hx, iff_of_false (fun h1 => ?_) hbad, fun _ => ⟨hr, hbs⟩⟩
    have h2 : r = bs.length := hr
    omega

end

/-! ## The empty file system is in order -/

/-- An inode that has at most its first block. -/
theorem Vol.addr_first {v : Vol} {i b : Nat} (h : ∀ k, (v.nd i).addrs k = if k = 0 then b else 0)
    (k : Slot) :
    v.addr i k = if k = .addr 0 then b else 0 := by
  have ha : ∀ k, v.addr i (.addr k) = if k = 0 then b else 0 := h
  cases k with
  | addr k => simpa using ha k
  | entry e =>
    rw [Vol.addr_entry, if_pos]
    · simp
    · rw [ha]
      simp [Fin.ext_iff, ndirect]

theorem Vol.has_first {sb : Superblock} {v : Vol} {i b b' : Nat} {k : Slot}
    (h : ∀ k, (v.nd i).addrs k = if k = 0 then b else 0) (hb : v.has sb (i, k) = some b') :
    k = .addr 0 ∧ b' = b ∧ b ≠ 0 := by
  obtain ⟨-, ha, h0⟩ := Vol.has_eq_some.1 hb
  rw [Vol.addr_first h] at ha
  split at ha
  · next hk =>
    subst ha
    exact ⟨hk, rfl, h0⟩
  · exact absurd ha.symm h0

theorem emptyImage_addrs (i : Nat) (k : Fin (ndirect + 1)) :
    (emptyImage.dinode i).addrs k = if k = 0 then if i = rootIno then 59 else 0 else 0 := by
  by_cases hi : i = rootIno
  · simp [emptyImage, hi]
  · simp [emptyImage, hi, Dinode.zero]

theorem mkfsSb_meta (b : Nat) : mkfsSb.Meta b ↔ b < 59 := by
  unfold Superblock.Meta Superblock.Area
  simp only [mkfsSb, nlog, logSize, maxOpBlocks, ipb, bpb, fsSize, bsize]
  omega

/-- A volume whose only block of a file is that of the root directory. -/
theorem own_of_root {v : Vol} (hbm : v.bm = emptyImage.bitmap) (hroot : v.Live mkfsSb rootIno)
    (h : ∀ i k, (v.nd i).addrs k = if k = 0 then if i = rootIno then 59 else 0 else 0) :
    v.Own mkfsSb := by
  have hhas : ∀ x b, v.has mkfsSb x = some b → x = (rootIno, .addr 0) ∧ b = 59 := by
    rintro ⟨i, k⟩ b hb
    obtain ⟨rfl, rfl, h0⟩ := Vol.has_first (h i) hb
    by_cases hi : i = rootIno
    · exact ⟨by rw [hi], if_pos hi⟩
    · exact absurd (if_neg hi) h0
  have hused : ∀ b, Vol.Used mkfsSb v.bm b ↔ b < 60 := fun b => by
    unfold Vol.Used
    simp only [hbm, emptyImage, decide_eq_true_eq, mkfsSb, fsSize]
    omega
  have hres : ∀ b, Vol.Reserved mkfsSb b ↔ b < 59 := fun b => by
    unfold Vol.Reserved
    rw [mkfsSb_meta]
    simp only [mkfsSb, fsSize]
    omega
  refine ⟨fun h b hb => ?_, fun h h' b hb hb' => ?_, fun b hb => ?_, fun b hb => ?_⟩
  · obtain ⟨-, rfl⟩ := hhas h b hb
    rw [hused, hres]
    omega
  · rw [(hhas h b hb).1, (hhas h' b hb').1]
  · rw [hused] at hb
    rw [hres]
    by_cases h59 : b = 59
    · refine .inr ⟨(rootIno, .addr 0), Vol.has_eq_some.2 ⟨hroot, h59 ▸ h rootIno 0, by omega⟩⟩
    · exact .inl (by omega)
  · rw [hres] at hb
    rw [hused]
    omega

theorem emptyImage_own : (boot emptyImage 0).vol.Own mkfsSb :=
  own_of_root rfl (by decide) emptyImage_addrs

/-- The empty file system with the root directory locked by process 0. -/
def rootLocked : State := (boot emptyImage 0).locked 0 0

abbrev rootCtx : Ctx := (plainCall 0 (.mkdir none)).ctx

theorem rootLocked_ready : Ready mkfsSb rootLocked 0 := by
  refine ⟨emptyImage_own, by decide, rfl, fun bn hbn => ?_⟩
  have hsize : (rootLocked.icache 0).size = bsize := rfl
  obtain rfl : bn = 0 := by
    rw [hsize] at hbn
    simp only [bsize] at hbn
    omega
  exact ⟨by decide, by decide⟩

end Xv6.Fs
