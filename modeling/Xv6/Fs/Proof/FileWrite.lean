import Xv6.Fs.Proof.WriteBound

/-!
# Files are byte arrays

`writei` and `readi` as operations on lists of bytes, in a transaction of their own. The log is
smaller than a file may be, and a write of more blocks than it has room for is a panic of
`log_write`.
-/

namespace Xv6.Fs

open Lib

section
variable {size : Int} {k : Nat}

theorem logWriteEnter_eq (o : LogState) (b : Nat) (ho : 1 ≤ o.outstanding) :
    logWriteEnter size b ∅ o = if o.n ≥ logSize ∨ o.n ≥ size - 1 then .panic "too big a transaction"
      else .call (.logWrite b ∅) := by
  unfold logWriteEnter
  rw [if_neg (show ¬ o.outstanding < 1 by omega)]

/-- A transaction of few blocks is not too big, however often each is written. -/
theorem logAll_ok (hk : k < logSize) (hs : (k : Int) < size - 1) : ∀ (bs : List Nat) (o : LogState),
    1 ≤ o.outstanding → o.block.Nodup → (o.block ++ bs).toFinset.card ≤ k →
    ∃ o', logAll size bs o = .ok o'
  | [], o, _, _, _ => ⟨o, rfl⟩
  | b :: bs, o, ho, hnd, hc => by
    have hlen : o.block.length ≤ k := by
      rw [← List.toFinset_card_of_nodup hnd]
      refine (Finset.card_le_card ?_).trans hc
      rw [List.toFinset_append]
      exact Finset.subset_union_left
    have hn : o.n = o.block.length := rfl
    rw [logAll, logWriteEnter_eq o b ho, if_neg (by omega)]
    refine logAll_ok hk hs bs _ ho ?_ ?_
    · unfold logWriteBody
      dsimp only
      split
      · exact hnd
      · next hb => exact List.nodup_append_comm.1 (List.nodup_cons.2 ⟨hb, hnd⟩)
    · refine (Finset.card_le_card fun x => ?_).trans hc
      unfold logWriteBody
      dsimp only
      split <;> simp only [List.mem_toFinset, List.mem_append, List.mem_cons] <;> tauto

theorem logAll_error {msg : String} : ∀ (bs : List Nat) (o : LogState), 1 ≤ o.outstanding →
    logAll size bs o = .error msg → msg = "too big a transaction"
  | b :: bs, o, ho, h => by
    rw [logAll, logWriteEnter_eq o b ho] at h
    split at h
    · next hp =>
      split at hp
      · cases hp
        cases h
        rfl
      · cases hp
    · exact logAll_error bs (logWriteBody b ∅ o).obj ho h

end

section
variable {c : Ctx} {ip : Fin ninode} {s s' : State}

/-- The log has room for a write of `n` bytes at `off`: for each block of the range and its block of
the bitmap, for the indirect block and its block of the bitmap, and for the block of the inode. -/
def LogRoom (sb : Superblock) (off n : Nat) : Prop :=
  2 * ((off % bsize + n + bsize - 1) / bsize) + 3 < min logSize (sb.nlog - 1)

theorem writei_logs_range {src : List UInt8} {off N : Nat} (hboot : s.bitmap 0 = true)
    (hN : off % bsize + src.length ≤ bsize * N) : Triple (· = s) (writei c ip src off)
      (fun _ => Logs (2 * N + 3) s) fun _ => Logs (2 * N + 3) s := by
  refine writei_logs fun turns =>
    (writeLoop_seen turns off src N ((s.icache ip).addrs (Fin.last ndirect)) ∅
    (.inr hN) (Nat.zero_add _).le).pre fun s' hs => ?_
  rw [hs]
  exact (Seen.start hboot).mono (Finset.empty_subset _)

/-- Files are byte arrays, for an inode that is in order and 32-bit offsets and counts. With a free
block for each slot that the bytes need and that is empty, and room in the log, `writei` returns: it
refuses and changes nothing if the range starts after the end, wraps around or is too long for a
file, and otherwise it replaces the bytes of the range, in this inode only. Without room in the log
a panic is possible, and nothing else. `readi` changes nothing; it refuses the same ranges but for
the last kind, and otherwise returns the bytes of the range that are there. -/
theorem file_bytes (h : Ready c.sb s ip) (h0 : 0 < c.sb.size) (hsb : c.sb.size ≤ 2 ^ 32)
    (hd : (s.icache ip).type ≠ some .dev) :
    (∀ src off, off < 2 ^ 32 → src.length < 2 ^ 32 →
      s.vol.Enough c.sb (s.icache ip).inum (rangeSlots off src.length) →
      (∃ r s', inOp c (writei c ip src off) s = .ok r s' ∧ WriteOk c.sb s ip src off r s') ∨
      (∃ s', inOp c (writei c ip src off) s = .error (.panic "too big a transaction") s') ∧
        ¬ LogRoom c.sb off src.length ∧ ¬ Refused (s.icache ip).size off src.length) ∧
    ∀ off n, off < 2 ^ 32 → n < 2 ^ 32 →
      ∃ r bs, readi c ip off n s = .ok (r, bs) s ∧
        (r = -1 ↔ off > (s.icache ip).size ∨ 2 ^ 32 ≤ off + n) ∧
        (r ≠ -1 → r = bs.length ∧ bs = ((s.contents (s.icache ip).inum).drop off).take n) := by
  refine ⟨fun src off hoff hlen henough => ?_, fun off n hoff hn => h.readi_bytes hd hoff hn⟩
  obtain ⟨r, s', hx, hok⟩ := h.writei_contents hsb hd hoff hlen henough
  have hboot : s.bitmap 0 = true := by
    by_contra hb
    exact (h.own.free_data (Bool.eq_false_iff.2 hb) h0).1 (.inl (by decide))
  have hN : off % bsize + src.length ≤ bsize * ((off % bsize + src.length + bsize - 1) / bsize) := by
    simp only [bsize]
    omega
  obtain ⟨es, hes, hcard⟩ := (writei_logs_range hboot hN).ok rfl hx
  have htake : s'.hist.take (s'.hist.length - s.hist.length) = es := by
    rw [hes, List.length_append, Nat.add_sub_cancel, List.take_left]
  cases hl : logAll c.sb.nlog (logWrites es) ⟨[], 1, false⟩ with
  | ok o =>
    exact .inl ⟨r, s', by simp only [inOp, hx, stateOf, htake, hl], hok⟩
  | error msg =>
    obtain rfl := logAll_error _ _ (by decide) hl
    refine .inr ⟨⟨s', by simp only [inOp, hx, stateOf, htake, hl]⟩, fun hroom => ?_, fun href => ?_⟩
    · unfold LogRoom at hroom
      obtain ⟨o, ho⟩ : ∃ o, logAll c.sb.nlog (logWrites es) ⟨[], 1, false⟩ = .ok o :=
        logAll_ok (k := _) (by omega) (by omega) _ _ (by decide) List.nodup_nil hcard
      rw [ho] at hl
      cases hl
    · obtain rfl : es = [] :=
        List.append_left_eq_self.1 (hes.symm.trans (by rw [(hok.refused.2 href).2]))
      cases hl

end

theorem rootLocked_enough {off n : Nat} (h : (rangeSlots off n).card ≤ 40) :
    rootLocked.vol.Enough mkfsSb (rootLocked.icache 0).inum (rangeSlots off n) :=
  ((Finset.card_filter_le _ _).trans h).trans (by decide +kernel)

/-- A byte written after the first block of the root directory. -/
theorem file_bytes_root :
    ∃ r s', inOp rootCtx (writei rootCtx 0 [7] 512) rootLocked = .ok r s' ∧ r = 1 ∧
      s'.contents rootIno = splice (rootLocked.contents rootIno) 512 [7] := by
  rcases (file_bytes (c := rootCtx) rootLocked_ready (by decide) (by decide) (by decide)).1 [7] 512
    (by decide) (by decide)
    (rootLocked_enough (by decide +kernel)) with ⟨r, s', hx, hok⟩ | ⟨-, hno, -⟩
  · have hr : ¬ (r = -1 ∧ s' = rootLocked) := by
      rw [hok.refused]
      unfold Refused
      decide
    exact ⟨r, s', hx, hok.value hr, hok.contents hr⟩
  · exact absurd (show LogRoom _ _ _ from by unfold LogRoom; decide) hno

theorem rootLocked_tooBig :
    (match inOp rootCtx (writei rootCtx 0 (List.replicate 14336 0) 0) rootLocked with
    | .error (.panic msg) _ => msg = "too big a transaction"
    | _ => false) = true := by
  decide +kernel

/-- A write of 28 blocks to the root directory, for which the disk has blocks, is a panic of the
log. -/
theorem file_bytes_too_big :
    ∃ (c : Ctx) (ip : Fin ninode) (s : State) (src : List UInt8) (off : Nat),
    Ready c.sb s ip ∧ 0 < c.sb.size ∧ c.sb.size ≤ 2 ^ 32 ∧ (s.icache ip).type ≠ some .dev ∧
      off < 2 ^ 32 ∧ src.length < 2 ^ 32 ∧ ¬ Refused (s.icache ip).size off src.length ∧
      s.vol.Enough c.sb (s.icache ip).inum (rangeSlots off src.length) ∧
      ∃ s', inOp c (writei c ip src off) s = .error (.panic "too big a transaction") s' := by
  refine ⟨rootCtx, 0, rootLocked, List.replicate 14336 0, 0, rootLocked_ready, by decide, by decide,
    by decide, by decide, ?_⟩
  rw [List.length_replicate]
  refine ⟨by decide, by unfold Refused; decide, rootLocked_enough (by decide +kernel), ?_⟩
  have h := rootLocked_tooBig
  split at h
  · next msg s' hx =>
    obtain rfl : msg = _ := of_decide_eq_true h
    exact ⟨s', hx⟩
  · cases h

end Xv6.Fs
