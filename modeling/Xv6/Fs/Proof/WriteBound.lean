import Xv6.Fs.File
import Xv6.Fs.Proof.FileBytes
import Xv6.Fs.Transaction
import Mathlib.Data.Finset.Card

/-!
# How many blocks a chunk of a write takes in the log

`filewrite` cuts a write into chunks of three blocks, so that each fits into a transaction. A chunk
that does not start at a block boundary lies in four blocks, but the first of them has been
allocated already. So at most three data blocks are new, each with a block of the bitmap, and with
the indirect block, its block of the bitmap and the block of the inode there are at most ten.

The bitmap may mark blocks of other files as free, and `balloc` may find each block in another of
its blocks. Only the bit of block 0 has to be set: a slot that holds the number 0 is an empty one,
so an indirect block with that number is allocated and forgotten (`writei_overflows_log`).
-/

namespace Xv6.Fs

open Lib

variable {s : State} {m : Nat}

/-- The set of the blocks passed to `log_write`. -/
def logBlocks (es : List (Event × Core)) : Finset Nat := (logWrites es).toFinset

/-- Since `s₀` only blocks of `B` have been passed to `log_write`, and the indirect block of the
entry is `x` now. -/
structure Seen (ip : Fin ninode) (s₀ : State) (x : Nat) (B : Finset Nat) (s : State) : Prop where
  logs : ∃ es, s.hist = es ++ s₀.hist ∧ logBlocks es ⊆ B
  indirect : (s.icache ip).addrs (Fin.last ndirect) = x
  boot : s.bitmap 0 = true

/-- The blocks written for a new block `x`. -/
def indBlocks (sb : Superblock) (x : Nat) : Finset Nat := if x = 0 then ∅ else {x, sb.bblock x}

/-- At most `m` blocks have been passed to `log_write`, those for the indirect block aside. -/
def Within (sb : Superblock) (ip : Fin ninode) (s₀ : State) (m : Nat) (s : State) : Prop :=
  ∃ x K, K.card ≤ m ∧ Seen ip s₀ x (K ∪ indBlocks sb x) s

theorem logBlocks_cons (m : Event × Core) (es : List (Event × Core)) (b : Nat)
    (h : m.1 = .logWrite b) : logBlocks (m :: es) = insert b (logBlocks es) := by
  simp [logBlocks, logWrites, h]

section
variable {c : Ctx} {ip : Fin ninode} {s₀ : State} {x b : Nat} {B B' K : Finset Nat}
  {E : Stop → State → Prop}

theorem Seen.mono (h : Seen ip s₀ x B s) (hB : B ⊆ B') : Seen ip s₀ x B' s := by
  obtain ⟨es, hes, hsub⟩ := h.logs
  exact ⟨⟨es, hes, hsub.trans hB⟩, h.indirect, h.boot⟩

theorem Seen.within (h : Seen ip s₀ x (K ∪ indBlocks c.sb x) s) (hm : K.card ≤ m) :
    Within c.sb ip s₀ m s := ⟨x, K, hm, h⟩

theorem Within.insert (h : ∃ b, Seen ip s₀ x (insert b (K ∪ indBlocks c.sb x)) s) :
    Within c.sb ip s₀ (K.card + 1) s := by
  obtain ⟨b, h⟩ := h
  rw [← Finset.insert_union] at h
  exact h.within (Finset.card_insert_le _ _)

theorem Within.mono {m' : Nat} (h : Within c.sb ip s₀ m s) (hm : m ≤ m') :
    Within c.sb ip s₀ m' s := by
  obtain ⟨x, K, hK, h⟩ := h
  exact ⟨x, K, hK.trans hm, h⟩

theorem Seen.start (h0 : s.bitmap 0 = true) :
    Seen ip s ((s.icache ip).addrs (Fin.last ndirect)) ∅ s :=
  ⟨⟨[], rfl, subset_rfl⟩, rfl, h0⟩

theorem logWrite_seen (b : Nat) :
    Triple (Seen ip s₀ x B) (logWrite b) (fun _ => Seen ip s₀ x (insert b B)) E := by
  refine .modify fun s h => ?_
  obtain ⟨es, hes, hsub⟩ := h.logs
  refine ⟨⟨(.logWrite b, s.toCore) :: es, by rw [hes]; rfl, ?_⟩, h.indirect, h.boot⟩
  rw [logBlocks_cons _ _ b rfl]
  exact Finset.insert_subset_insert b hsub

theorem setBlock_seen (b : Nat) (y : Block) :
    Triple (Seen ip s₀ x B) (setBlock b y) (fun _ => Seen ip s₀ x (insert b B)) E :=
  .bind (Q := fun _ => Seen ip s₀ x B) (.modify fun _ h => ⟨h.logs, h.indirect, h.boot⟩)
    fun _ => logWrite_seen b

theorem setBit_seen (b : Nat) :
    Triple (Seen ip s₀ x B) (setBit c b true)
    (fun _ => Seen ip s₀ x (insert (c.sb.bblock b) B)) E := by
  refine .bind (Q := fun _ => Seen ip s₀ x B) (.modify fun s h => ⟨h.logs, h.indirect, ?_⟩)
    fun _ => logWrite_seen _
  show Function.update s.bitmap b true 0 = true
  rw [Function.update_apply, h.boot, ite_self]

theorem bread_seen (b : Nat) :
    Triple (Seen ip s₀ x B) (bread c b) (fun _ => Seen ip s₀ x B) fun _ => Seen ip s₀ x B :=
  .ite (fun _ => .bind (Q := fun _ => Seen ip s₀ x B) (.get fun _ h => h)
    fun _ => .pure fun _ h => h) fun _ => .throw fun _ h => h

theorem getInode_seen :
    Triple (Seen ip s₀ x B) (getInode ip)
      (fun i s => Seen ip s₀ x B s ∧ i.addrs (Fin.last ndirect) = x) E :=
  (getInode_spec ip).post fun i s h => ⟨h.1, by rw [h.2, h.1.indirect]⟩

theorem balloc_seen :
    Triple (Seen ip s₀ x B) (balloc c)
      (fun a s => Seen ip s₀ x (insert a (insert (c.sb.bblock a) B)) s ∧ a ≠ 0)
      fun _ s => ∃ b, Seen ip s₀ x (insert b B) s := by
  refine .bind (Q := fun a s => Seen ip s₀ x B s ∧ a.bitmap 0 = true) (.get fun _ h => ⟨h, h.boot⟩)
    fun s₁ => .of_and fun hboot => ?_
  split
  · next a ha =>
    have ha0 : a ≠ 0 := by
      rintro rfl
      simpa [hboot] using List.find?_some ha
    refine (setBit_seen a).bind fun _ => ?_
    refine .bind (Q := fun _ => Seen ip s₀ x (insert a (insert (c.sb.bblock a) B))) ?_
      fun _ => .pure fun _ h => ⟨h, ha0⟩
    exact .bind ((bread_seen a).onError fun _ _ h => ⟨_, h⟩) fun _ => setBlock_seen a _
  · exact .throw fun _ h => ⟨0, h.mono (Finset.subset_insert _ _)⟩

theorem slotBlock_seen {k : Fin (ndirect + 1)} (hk : k ≠ Fin.last ndirect) :
    Triple (Seen ip s₀ x B) (slotBlock c ip k)
      (fun r => Seen ip s₀ x (insert r (insert (c.sb.bblock r) B)))
      fun _ s => ∃ b, Seen ip s₀ x (insert b B) s := by
  refine getInode_seen.bind fun i => .pre ?_ fun _ h => h.1
  refine .ite (fun _ => ?_) fun _ => .pure fun _ h => h.mono ?_
  · refine balloc_seen.bind fun a => .bind (Q := fun _ => Seen ip s₀ x _) (.modify fun s h =>
      ⟨h.1.logs, ?_, h.1.boot⟩) fun _ => .pure fun _ h => h
    rw [← h.1.indirect]
    simp [hk.symm]
  · exact (Finset.subset_insert _ _).trans (Finset.subset_insert _ _)

theorem slotBlock_last_seen :
    Triple (Seen ip s₀ x (K ∪ indBlocks c.sb x)) (slotBlock c ip (Fin.last ndirect))
      (fun r s => Seen ip s₀ r (K ∪ indBlocks c.sb r) s ∧ r ≠ 0)
      fun _ => Within c.sb ip s₀ (K.card + 1) := by
  refine getInode_seen.bind fun i => .of_and fun hx => ?_
  subst hx
  refine .ite (fun h0 => ?_) fun h0 => .pure fun _ h => ⟨h, h0⟩
  refine .bind (balloc_seen.onError fun _ _ h => .insert h) fun a => .of_and fun ha => ?_
  refine .bind (Q := fun _ s => Seen ip s₀ a (K ∪ indBlocks c.sb a) s) (.modify fun s h =>
    Seen.mono ⟨h.logs, ?_, h.boot⟩ ?_) fun _ => .pure fun _ h => ⟨h, ha⟩
  · simp
  · unfold indBlocks
    rw [if_pos h0, if_neg ha, Finset.union_empty]
    intro y hy
    simp only [Finset.mem_insert, Finset.mem_union, Finset.mem_singleton] at hy ⊢
    tauto

theorem bmap_seen (bn : Nat) :
    Triple (Seen ip s₀ x (K ∪ indBlocks c.sb x)) (bmap c ip bn)
      (fun r s => ∃ x, Seen ip s₀ x (insert r (insert (c.sb.bblock r) K) ∪ indBlocks c.sb x) s)
      fun _ => Within c.sb ip s₀ (K.card + 1) := by
  unfold bmap
  split
  · next hd =>
    refine (slotBlock_seen (Fin.castSucc_lt_last _).ne).conseq (fun _ => id) (fun r s h => ⟨x, ?_⟩)
      fun _ _ h => .insert h
    rwa [Finset.insert_union, Finset.insert_union]
  · refine .ite (fun _ => ?_) fun _ => .throw fun s h => h.within (Nat.le_succ _)
    refine slotBlock_last_seen.bind fun a => .of_and fun ha => ?_
    refine .bind ((bread_seen a).onError fun _ _ h => h.within (Nat.le_succ _)) fun bp => ?_
    refine .ite (fun _ => ?_) fun _ => .pure fun s h => ⟨a, h.mono ?_⟩
    · refine .bind (balloc_seen.conseq (fun _ => id) (fun _ _ h => h.1) fun _ _ h => .insert h)
        fun b => .bind (setBlock_seen a _) fun _ => .pure fun s h => ⟨a, h.mono ?_⟩
      have hmem : a ∈ indBlocks c.sb a := by simp [indBlocks, ha]
      rw [Finset.insert_union, Finset.insert_union]
      refine Finset.insert_subset ?_ subset_rfl
      exact Finset.mem_insert_of_mem (Finset.mem_insert_of_mem (Finset.mem_union_right _ hmem))
    · refine Finset.union_subset_union_left ?_
      exact (Finset.subset_insert _ _).trans (Finset.subset_insert _ _)

theorem next_block {off n k : Nat} (hk : min n (bsize - off % bsize) = k) (hne : k ≠ n) :
    (off + k) % bsize = 0 ∧ off % bsize + k = bsize := by
  have hmod := Nat.mod_lt off (show 0 < bsize by decide)
  have hsum : off % bsize + k = bsize := by omega
  have heq : off + k = bsize * (off / bsize + 1) := by
    have := Nat.div_add_mod off bsize
    rw [Nat.mul_add]
    omega
  exact ⟨by rw [heq, Nat.mul_mod_right], hsum⟩

theorem writeLoop_seen : ∀ (turns off : Nat) (src : List UInt8) (N x : Nat) (K : Finset Nat),
    (src.length = 0 ∨ off % bsize + src.length ≤ bsize * N) → K.card + 2 * N ≤ m →
      Triple (Seen ip s₀ x (K ∪ indBlocks c.sb x)) (writeLoop c ip turns off src)
        (fun _ => Within c.sb ip s₀ m) fun _ => Within c.sb ip s₀ m
  | 0, off, src, N, x, K, _, hm => .pure fun _ h => h.within (by omega)
  | turns + 1, off, src, N, x, K, hN, hm => by
    refine .ite (fun _ => .pure fun _ h => h.within (by omega)) fun h0 => ?_
    have hmod := Nat.mod_lt off (show 0 < bsize by decide)
    have hfit := hN.resolve_left h0
    have hN0 : 0 < N := by
      rcases Nat.eq_zero_or_pos N with rfl | hpos
      · omega
      · exact hpos
    refine .bind ((bmap_seen _).onError fun _ _ h =>
      h.mono (by omega)) fun r => .exists_pre fun x' => ?_
    generalize hK₁ : insert r (insert (c.sb.bblock r) K) = K₁
    have hcard : K₁.card ≤ K.card + 2 := by
      rw [← hK₁]
      exact (Finset.card_insert_le _ _).trans (Nat.succ_le_succ (Finset.card_insert_le _ _))
    refine .bind ((bread_seen r).onError fun _ _ h => h.within (by omega)) fun bp => ?_
    generalize hlen : min src.length (bsize - off % bsize) = k
    refine .bind (setBlock_seen r _) fun _ => .pre (writeLoop_seen turns (off + k) (src.drop k)
      (N - 1) x' K₁ ?_ (by omega)) fun s h => h.mono ?_
    · rw [List.length_drop]
      by_cases hk : k = src.length
      · exact .inl (by omega)
      · obtain ⟨h1, h2⟩ := next_block hlen hk
        have : bsize * N = bsize * (N - 1) + bsize := by
          rw [← Nat.mul_succ]
          congr 1
          omega
        exact .inr (by omega)
    · rw [← Finset.insert_union]
      refine Finset.union_subset_union_left (Finset.insert_subset ?_ subset_rfl)
      rw [← hK₁]
      exact Finset.mem_insert_self _ _

theorem writeLoop_chunk (hboot : s.bitmap 0 = true) (hsize : ∀ bn, bn * bsize < (s.icache ip).size →
      bn < maxFile ∧
      (s.volAt ip).addr (s.icache ip).inum (blockSlot bn) ≠ 0) {off : Nat} {src : List UInt8}
    (hoff : off ≤ (s.icache ip).size) (hlen : src.length ≤ maxWrite) (turns : Nat) :
    Triple (· = s) (writeLoop c ip turns off src) (fun _ => Within c.sb ip s 7)
      fun _ => Within c.sb ip s 7 := by
  simp only [maxWrite] at hlen
  have hstart : ∀ s', s' = s → Seen ip s ((s.icache ip).addrs (Fin.last ndirect))
      (∅ ∪ indBlocks c.sb ((s.icache ip).addrs (Fin.last ndirect))) s' := fun s' hs => by
    rw [hs]
    exact (Seen.start hboot).mono (Finset.empty_subset _)
  by_cases h0 : off % bsize = 0
  · refine (writeLoop_seen turns off src 3 _ ∅ (.inr ?_) (by simp)).pre hstart
    simp only [bsize] at *
    omega
  cases turns with
  | zero => exact .pure fun s' hs => (hstart s' hs).within (by simp)
  | succ turns =>
    refine .ite (fun _ => .pure fun s' hs => (hstart s' hs).within (by simp)) fun hne => ?_
    obtain ⟨hbn, ha⟩ := hsize (off / bsize) (by
      have := Nat.div_add_mod off bsize
      have := Nat.mul_comm bsize (off / bsize)
      omega)
    refine .bind ((bmap_mapped hbn ha).conseq (fun _ => id) (fun _ s' h => hstart s' h.1)
      fun _ s' h =>
      (hstart s' h.1).within (by simp)) fun r => ?_
    refine .bind ((bread_seen r).onError fun _ _ h => h.within (by simp)) fun bp => ?_
    generalize hk : min src.length (bsize - off % bsize) = k
    refine .bind (setBlock_seen r _) fun _ => ?_
    rw [← Finset.insert_union]
    refine writeLoop_seen turns (off + k) (src.drop k) 3 _ _ ?_ (by simp)
    rw [List.length_drop]
    by_cases hks : k = src.length
    · exact .inl (by omega)
    · obtain ⟨h1, -⟩ := next_block hk hks
      simp only [bsize] at *
      exact .inr (by omega)

end

/-- The blocks that `log_write` has been called on since `s` are at most `k`. -/
def Logs (k : Nat) (s s' : State) : Prop := ∃ es, s'.hist = es ++ s.hist ∧ (logBlocks es).card ≤ k

section
variable {c : Ctx} {ip : Fin ninode} {s s' : State}

theorem indBlocks_card (sb : Superblock) (x : Nat) : (indBlocks sb x).card ≤ 2 := by
  unfold indBlocks
  split
  · simp
  · exact Finset.card_le_two

theorem Logs.refl (k : Nat) (s : State) : Logs k s s := ⟨[], rfl, by simp [logBlocks, logWrites]⟩

theorem Within.logs (h : Within c.sb ip s m s') : Logs (m + 2) s s' := by
  obtain ⟨x, K, hK, ⟨es, hes, hsub⟩, -, -⟩ := h
  refine ⟨es, hes, (Finset.card_le_card hsub).trans ((Finset.card_union_le _ _).trans ?_)⟩
  exact Nat.add_le_add hK (indBlocks_card c.sb x)

theorem setFields_within {g : Inode → Inode} (hg : ∀ i, (g i).addrs = i.addrs) :
    Triple (Within c.sb ip s m) (setFields c ip g) (fun _ => Within c.sb ip s (m + 1))
      fun _ => Within c.sb ip s (m + 1) := by
  refine .of_state fun s₁ h => ?_
  obtain ⟨x, K, hK, ⟨es, hes, hsub⟩, hx, hboot⟩ := h
  refine (setFields_spec c ip g s₁).conseq (fun _ => id) ?_ ?_
  · rintro _ _ ⟨rfl, -⟩
    obtain ⟨t, ht⟩ : ∃ t, (s₁.written c ip (g (s₁.icache ip))).hist =
        (.logWrite (c.sb.iblock (g (s₁.icache ip)).inum), t) :: s₁.hist := ⟨_, rfl⟩
    generalize c.sb.iblock (g (s₁.icache ip)).inum = b at ht
    refine ⟨x, insert b K, (Finset.card_insert_le _ _).trans (Nat.succ_le_succ hK),
      ⟨(.logWrite b, t) :: es, ?_, ?_⟩, ?_, hboot⟩
    · rw [ht, hes]
      rfl
    · rw [logBlocks_cons _ _ _ rfl, Finset.insert_union]
      exact Finset.insert_subset_insert _ hsub
    · rw [State.written_icache, Function.update_self, hg, hx]
  · rintro _ _ ⟨-, rfl⟩
    refine ⟨x, K, by omega, ⟨es, hes, hsub⟩, ?_, hboot⟩
    show (Function.update s₁.icache ip _ ip).addrs _ = x
    rw [Function.update_self, hg, hx]

theorem writei_logs {src : List UInt8} {off : Nat}
    (hloop : ∀ turns, Triple (· = s) (writeLoop c ip turns off src) (fun _ => Within c.sb ip s m)
      fun _ => Within c.sb ip s m) :
    Triple (· = s) (writei c ip src off) (fun _ => Logs (m + 3) s) fun _ => Logs (m + 3) s := by
  have hsame : ∀ s', s' = s → Logs (m + 3) s s' := by
    rintro _ rfl
    exact .refl ..
  by_cases hd : (s.icache ip).type = some .dev
  · exact (writei_dev hd src off).post fun _ => hsame
  by_cases hbad : BadWrite (s.icache ip).size off src.length
  · exact (writei_bad hd hbad).post fun _ s' h => hsame s' h.1
  unfold BadWrite at hbad
  refine .read_bind rfl ?_
  refine .ite (fun h => absurd h hd) fun _ =>
    .ite (fun hb => absurd (hb.elim .inl fun h => .inr (.inl h)) hbad) fun _ =>
      .ite (fun hmax => absurd (.inr (.inr hmax)) hbad) fun _ => ?_
  refine .conseq (Q := fun _ => Within c.sb ip s (m + 1))
    (E := fun _ => Within c.sb ip s (m + 1)) ?_
    (fun _ => id) (fun _ _ => Within.logs) fun _ _ => Within.logs
  refine .bind ((hloop _).conseq (fun _ => id) (fun _ _ => id) fun _ _ h => h.mono (Nat.le_succ m))
    fun _ => ?_
  refine .bind (Q := fun _ => Within c.sb ip s (m + 1)) ?_ fun _ => .pure fun _ h => h
  exact .ite (fun _ => setFields_within fun _ => rfl) fun _ => .pure fun _ h =>
    h.mono (Nat.le_succ m)

/-- A chunk of `filewrite` fits into a transaction: for an inode whose blocks below its size are
there, an offset up to the size and as many bytes as `filewrite` writes at a time, `writei` calls
`log_write` on at most `MAXOPBLOCKS` blocks, whether it returns or stops, if block 0 is not free. -/
theorem writei_fits_log (c : Ctx) (ip : Fin ninode) (s : State) (hboot : s.bitmap 0 = true)
    (hsize : ∀ bn, bn * bsize < (s.icache ip).size → bn < maxFile ∧
      (s.volAt ip).addr (s.icache ip).inum (blockSlot bn) ≠ 0)
    (src : List UInt8) (off : Nat) (hoff : off ≤ (s.icache ip).size)
    (hlen : src.length ≤ ((maxOpBlocks - 1 - 1 - 2) / 2) * 512) :
    Triple (fun s' => s' = s) (writei c ip src off) (fun _ => Logs maxOpBlocks s)
      fun _ => Logs maxOpBlocks s :=
  writei_logs (writeLoop_chunk hboot hsize hoff hlen)

end

/-- Three blocks appended to the root directory of the empty file system. -/
theorem writei_fits_log_root :
    Triple (fun s' => s' = rootLocked) (writei rootCtx 0 (List.replicate 1536 0) 512)
      (fun _ => Logs maxOpBlocks rootLocked) fun _ => Logs maxOpBlocks rootLocked := by
  refine writei_fits_log rootCtx 0 rootLocked rfl ?_ _ 512 (by decide) ?_
  · have hvol : rootLocked.volAt 0 = rootLocked.vol := Core.volAt_eq rootLocked_ready.sync
    rw [hvol]
    exact rootLocked_ready.sized
  · rw [List.length_replicate]
    decide

/-- A disk of which five blocks are free, the boot block one of them. -/
def bootFreeCtx : Ctx := { rootCtx with sb := { mkfsSb with size := 12290 } }

/-- Each of the free blocks but the last is the first of a block of the bitmap; a file has all its
direct blocks and no indirect block. -/
def bootFree : State := { rootLocked with
  bitmap := fun b => b % bpb != 0 && b != 12289
  icache := fun _ => ⟨⟨some .file, 0, 0, 1, ndirect * bsize,
    fun k => if k = Fin.last ndirect then 0 else 100 + k⟩, 2, 1, some 0, true⟩
  hist := [] }

theorem bootFree_logBlocks :
    (match writei bootFreeCtx 0 (List.replicate 1536 0) (11 * bsize + 1) bootFree with
      | .ok _ s' => decide ((logBlocks s'.hist).card = 11)
      | .error _ _ => false) = true := by
  decide +kernel

/-- With block 0 free, a chunk takes eleven blocks: block 0 is allocated as the indirect block, and
since the slot then still holds 0, another one is allocated for the next block of the file. -/
theorem writei_overflows_log :
    ∃ (c : Ctx) (ip : Fin ninode) (s : State) (src : List UInt8) (off : Nat),
      (∀ bn, bn * bsize < (s.icache ip).size → bn < maxFile ∧
        (s.volAt ip).addr (s.icache ip).inum (blockSlot bn) ≠ 0) ∧ off ≤ (s.icache ip).size ∧
      src.length ≤ ((maxOpBlocks - 1 - 1 - 2) / 2) * 512 ∧
      ∃ r s', writei c ip src off s = .ok r s' ∧ ¬ Logs maxOpBlocks s s' := by
  refine ⟨bootFreeCtx, 0, bootFree, List.replicate 1536 0, 11 * bsize + 1,
    fun bn hbn => ?_, by decide, by rw [List.length_replicate]; decide, ?_⟩
  · have hlt : bn < ndirect := Nat.lt_of_mul_lt_mul_right hbn
    exact (by decide +kernel : ∀ bn < ndirect, bn < maxFile ∧
      (bootFree.volAt 0).addr (bootFree.icache 0).inum (blockSlot bn) ≠ 0) bn hlt
  · have h := bootFree_logBlocks
    cases hx : writei bootFreeCtx 0 (List.replicate 1536 0) (11 * bsize + 1) bootFree with
    | error e s' =>
      rw [hx] at h
      cases h
    | ok r s' =>
      have hcard : (logBlocks s'.hist).card = 11 := by
        rw [hx] at h
        exact of_decide_eq_true h
      refine ⟨r, s', rfl, fun ⟨es, hes, hle⟩ => ?_⟩
      rw [hes.trans (List.append_nil es)] at hcard
      exact absurd hle (by rw [hcard]; decide)

end Xv6.Fs
