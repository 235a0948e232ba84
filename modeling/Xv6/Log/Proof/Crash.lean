import Xv6.Log.Commit
import Xv6.Lib.Writes
import Mathlib.Data.List.GetD

/-!
# The log is atomic under crashes

`view L d` is what the disk `d` stands for: its blocks after the installation of the transaction in
its log, if the header names one. It is the abstract disk of the log. A recovery, interrupted after
any of its writes, keeps the view (`view_install`, by redo), and a recovery that completes leaves
the view on the disk (`recover_disk`). `commit` keeps the view up to its first write of the header
and has the transaction's blocks in it from then on (`commit_view`). Together: `crash_atomic`.
-/

namespace Xv6

open Lib Function

variable {c : Nat → Block} {lh : List Nat} {d : Disk} {b : Nat} {s : Io}

/-! ## Lists of block writes -/

theorem bread_bwrite (s : Io) (b : Nat) (x : Block) :
    bread (bwrite s b x) = update (bread s) b x := by
  funext c
  by_cases hc : c = b
  · subst hc; simp [bread, bwrite]
  · simp [bread, bwrite, hc]

def bwrites (s : Io) (ws : List (Nat × Block)) : Io := ws.foldl (fun s w => bwrite s w.1 w.2) s

@[simp] theorem bwrites_cons (s : Io) (w : Nat × Block) (ws : List (Nat × Block)) :
    bwrites s (w :: ws) = bwrites (bwrite s w.1 w.2) ws := rfl

theorem bwrites_append (s : Io) (ws vs : List (Nat × Block)) :
    bwrites s (ws ++ vs) = bwrites (bwrites s ws) vs := List.foldl_append ..

theorem bwrites_concat (s : Io) (ws : List (Nat × Block)) (b : Nat) (x : Block) :
    bwrites s (ws ++ [(b, x)]) = bwrite (bwrites s ws) b x := bwrites_append ..

theorem bread_bwrites (s : Io) (ws : List (Nat × Block)) :
    bread (bwrites s ws) = writes (bread s) ws := by
  induction ws generalizing s with
  | nil => rfl
  | cons w ws ih => rw [bwrites_cons, ih, bread_bwrite, writes_cons]

theorem disk_bwrites (s : Io) (ws : List (Nat × Block)) :
    (bwrites s ws).disk = writes s.disk ws := by
  induction ws generalizing s with
  | nil => rfl
  | cons w ws ih => rw [bwrites_cons, ih, writes_cons]; rfl

theorem done_bwrites (s : Io) (ws : List (Nat × Block)) : (bwrites s ws).done = s.done ++ ws := by
  induction ws generalizing s with
  | nil => exact (List.append_nil _).symm
  | cons w ws ih => rw [bwrites_cons, ih, bwrite]; simp

/-! ## The loops -/

/-- The writes of `write_log` from `tail` on, when the cache holds `c`. -/
def logCopy (L : LogArea) (c : Nat → Block) : Nat → List Nat → List (Nat × Block)
  | _, [] => []
  | tail, b :: bs => (L.start + tail + 1, c b) :: logCopy L c (tail + 1) bs

/-- The writes of `install_trans`. -/
def installs (L : LogArea) (c : Nat → Block) : Nat → List Nat → List (Nat × Block)
  | _, [] => []
  | tail, b :: bs => (b, c (L.start + tail + 1)) :: installs L c (tail + 1) bs

variable {L : LogArea}
variable {w : Nat × Block} {c' : Nat → Block} {hb : Block}

theorem LogArea.mem_log {i : Nat} (h : i + 1 < L.size) : L.Mem (L.start + i + 1) :=
  ⟨by omega, by omega⟩

theorem LogArea.mem_start (h : 0 < L.size) : L.Mem L.start := ⟨by omega, by omega⟩

theorem mem_logCopy : ∀ {tail : Nat} {bs : List Nat},
    w ∈ logCopy L c tail bs → ∃ i, tail ≤ i ∧ i < tail + bs.length ∧ w.1 = L.start + i + 1
  | tail, b :: bs, h => by
    rcases List.mem_cons.1 h with rfl | h
    · exact ⟨tail, by omega, by simp, rfl⟩
    · obtain ⟨i, h1, h2, hw⟩ := mem_logCopy h
      exact ⟨i, by omega, by rw [List.length_cons]; omega, hw⟩

theorem mem_installs : ∀ {tail : Nat} {bs : List Nat},
    w ∈ installs L c tail bs → w.1 ∈ bs
  | tail, b :: bs, h => by
    rcases List.mem_cons.1 h with rfl | h
    · exact List.mem_cons_self
    · exact List.mem_cons_of_mem _ (mem_installs h)

theorem length_logCopy (c : Nat → Block) : ∀ (tail : Nat) (bs : List Nat),
    (logCopy L c tail bs).length = bs.length
  | _, [] => rfl
  | tail, _ :: bs => by rw [logCopy, List.length_cons, length_logCopy c (tail + 1) bs,
      List.length_cons]

theorem logCopy_congr : ∀ {tail : Nat} {bs : List Nat},
    (∀ b ∈ bs, c b = c' b) → logCopy L c tail bs = logCopy L c' tail bs
  | _, [], _ => rfl
  | tail, b :: bs, h => by
    rw [logCopy, logCopy, h b List.mem_cons_self,
      logCopy_congr fun b hb => h b (List.mem_cons_of_mem _ hb)]

theorem installs_congr : ∀ {tail : Nat} {bs : List Nat},
    (∀ i, tail ≤ i → i < tail + bs.length → c (L.start + i + 1) = c' (L.start + i + 1)) →
      installs L c tail bs = installs L c' tail bs
  | _, [], _ => rfl
  | tail, b :: bs, h => by
    rw [installs, installs, h tail (by omega) (by simp),
      installs_congr fun i h1 h2 => h i (by omega) (by rw [List.length_cons]; omega)]

theorem writeLogFrom_eq : ∀ {tail : Nat} {bs : List Nat} {s : Io}, (∀ b ∈ bs, ¬ L.Mem b) →
    tail + bs.length < L.size →
      writeLogFrom L tail bs s = bwrites s (logCopy L (bread s) tail bs)
  | _, [], _, _, _ => rfl
  | tail, b :: bs, s, hb, hl => by
    rw [List.length_cons] at hl
    rw [writeLogFrom, writeLogFrom_eq (fun b hb' => hb b (List.mem_cons_of_mem _ hb')) (by omega),
      logCopy, bwrites_cons]
    refine congrArg (bwrites _) (logCopy_congr fun b' hb' => ?_)
    rw [bread_bwrite]
    refine update_of_ne (fun h => hb b' (List.mem_cons_of_mem _ hb') ?_) _ _
    rw [h]
    exact LogArea.mem_log (by omega)

theorem installTransFrom_eq : ∀ {tail : Nat} {bs : List Nat} {s : Io}, (∀ b ∈ bs, ¬ L.Mem b) →
    tail + bs.length < L.size →
      installTransFrom L tail bs s = bwrites s (installs L (bread s) tail bs)
  | _, [], _, _, _ => rfl
  | tail, b :: bs, s, hb, hl => by
    rw [List.length_cons] at hl
    rw [installTransFrom,
      installTransFrom_eq (fun b hb' => hb b (List.mem_cons_of_mem _ hb')) (by omega), installs,
      bwrites_cons]
    refine congrArg (bwrites _) (installs_congr fun i _ hi => ?_)
    rw [bread_bwrite]
    refine update_of_ne (fun h => hb b List.mem_cons_self ?_) _ _
    rw [← h]
    exact LogArea.mem_log (by omega)

theorem installs_logCopy {d : Nat → Block} : ∀ {tail : Nat} {bs : List Nat},
    installs L (writes d (logCopy L c tail bs)) tail bs = bs.map fun b => (b, c b)
  | _, [] => rfl
  | tail, b :: bs => by
    have hfirst : writes d (logCopy L c tail (b :: bs)) (L.start + tail + 1) = c b := by
      rw [logCopy, writes_cons, writes_of_forall_ne]
      · exact update_self ..
      · intro w hw
        obtain ⟨i, hi, -, hw⟩ := mem_logCopy hw
        omega
    rw [installs, hfirst, List.map_cons, logCopy, writes_cons, installs_logCopy]

/-! ## The header -/

/-- The block numbers in the header on disk. -/
def head (L : LogArea) (d : Disk) : List Nat := getHead (d L.start)

theorem getHead_putHead (h : lh.length < wordsPerBlock) (hb : Block) :
    getHead (putHead lh hb) = lh := by
  have h0 : word (putHead lh hb) 0 = lh.length := by simp [word, putHead]
  apply List.ext_getElem
  · rw [getHead, List.length_map, List.length_range, h0]
  · intro i h1 h2
    have hw : i + 1 < wordsPerBlock := by omega
    simp [getHead, word, hw, putHead, h2]

theorem getHead_putHead_nil (hb : Block) : getHead (putHead [] hb) = [] := by
  have h0 : word (putHead [] hb) 0 = 0 := by simp [word, putHead]
  rw [getHead, h0]
  rfl

/-! ## The view -/

/-- The disk as recovery will leave it. -/
def view (L : LogArea) (d : Disk) : Disk := writes d (installs L d 0 (head L d))

/-- The header lists home blocks, and no more than fit. -/
structure Sound (L : LogArea) (d : Disk) : Prop where
  home : ∀ b ∈ head L d, ¬ L.Mem b
  room : (head L d).length < L.size

theorem view_of_head_nil (h : head L d = []) : view L d = d := by
  rw [view, h]
  rfl

theorem Sound.of_head_nil (hsize : 0 < L.size) (h : head L d = []) : Sound L d :=
  ⟨by rw [h]; nofun, by rw [h]; exact hsize⟩

theorem Sound.start (hs : Sound L d) : L.Mem L.start :=
  LogArea.mem_start (Nat.lt_of_le_of_lt (Nat.zero_le _) hs.room)

theorem Sound.area (hs : Sound L d) (k : Nat) (hb : L.Mem b) :
    writes d ((installs L d 0 (head L d)).take k) b = d b :=
  writes_of_forall_ne (fun _ hw h => hs.home _ (mem_installs (List.mem_of_mem_take hw)) (h ▸ hb)) d

theorem head_erase (hnil : getHead hb = []) (ws : List (Nat × Block)) :
    head L (writes d (ws ++ [(L.start, hb)])) = [] := by
  rw [writes_append, head, writes_cons, writes_nil, update_self, hnil]

/-- **Redo keeps the view**: an installation and the erasure of the header, broken off after `k`
writes. -/
theorem view_install (hs : Sound L d) (hnil : getHead hb = []) (k : Nat) :
    let d' := writes d ((installs L d 0 (head L d) ++ [(L.start, hb)]).take k)
    Sound L d' ∧ ∀ b, ¬ L.Mem b → view L d' b = view L d b := by
  dsimp only
  rcases Nat.lt_or_ge (installs L d 0 (head L d)).length k with hk | hk
  · rw [List.take_of_length_le (by rw [List.length_append, List.length_singleton]; omega)]
    have hhead := head_erase (L := L) (d := d) hnil (installs L d 0 (head L d))
    refine ⟨.of_head_nil (Nat.lt_of_le_of_lt (Nat.zero_le _) hs.room) hhead, fun b hb' => ?_⟩
    rw [view_of_head_nil hhead, writes_append, writes_cons, writes_nil]
    exact update_of_ne (fun h => hb' (by rw [h]; exact hs.start)) _ _
  · -- the header is still there, and the installation is done again
    rw [List.take_append_of_le_length hk]
    have hhead : head L (writes d ((installs L d 0 (head L d)).take k)) = head L d := by
      rw [head, hs.area k hs.start, head]
    have hlog : installs L (writes d ((installs L d 0 (head L d)).take k)) 0 (head L d) =
        installs L d 0 (head L d) := by
      refine installs_congr fun i _ hi => hs.area k (LogArea.mem_log ?_)
      have := hs.room
      omega
    refine ⟨⟨by rw [hhead]; exact hs.home, by rw [hhead]; exact hs.room⟩, fun b _ => ?_⟩
    rw [view, hhead, hlog, writes_redo, view]

/-! ## Recovery -/

theorem bread_boot (d : Disk) : bread (boot d) = d := rfl

theorem recover_eq (hs : Sound L d) :
    recoverFromLog L (boot d) =
      bwrites (boot d) (installs L d 0 (head L d) ++ [(L.start, putHead [] (d L.start))]) := by
  have hstart : bread (bwrites (boot d) (installs L d 0 (head L d))) L.start = d L.start := by
    have h := hs.area (installs L d 0 (head L d)).length hs.start
    rw [List.take_length] at h
    rw [bread_bwrites, bread_boot, h]
  have hinst : installTrans L (head L d) (boot d) =
      bwrites (boot d) (installs L d 0 (head L d)) := by
    have hroom := hs.room
    rw [installTrans, installTransFrom_eq hs.home (by omega), bread_boot]
  have hread : readHead L (boot d) = head L d := rfl
  simp only [recoverFromLog, hread, hinst, writeHead, hstart]
  exact (bwrites_concat ..).symm

/-- The disk after `k` writes of recovery. -/
def recoverCrash (L : LogArea) (d : Disk) (k : Nat) : Disk :=
  writes d ((recoverFromLog L (boot d)).done.take k)

theorem recoverCrash_view (hs : Sound L d) (k : Nat) :
    Sound L (recoverCrash L d k) ∧ ∀ b, ¬ L.Mem b → view L (recoverCrash L d k) b = view L d b := by
  rw [recoverCrash, recover_eq hs, done_bwrites]
  exact view_install hs (getHead_putHead_nil _) k

theorem recoverCrashes_view (hs : Sound L d) (ks : List Nat) :
    Sound L (ks.foldl (recoverCrash L) d) ∧
      ∀ b, ¬ L.Mem b → view L (ks.foldl (recoverCrash L) d) b = view L d b := by
  induction ks generalizing d with
  | nil => exact ⟨hs, fun _ _ => rfl⟩
  | cons k ks ih =>
    obtain ⟨h1, h2⟩ := recoverCrash_view hs k
    obtain ⟨h3, h4⟩ := ih h1
    exact ⟨h3, fun b hb => (h4 b hb).trans (h2 b hb)⟩

/-- **A recovery leaves the view on the disk**, with an empty header. -/
theorem recover_disk (hs : Sound L d) :
    head L (recoverFromLog L (boot d)).disk = [] ∧
      ∀ b, ¬ L.Mem b → (recoverFromLog L (boot d)).disk b = view L d b := by
  rw [recover_eq hs, disk_bwrites]
  have hhead := head_erase (L := L) (d := d) (getHead_putHead_nil (d L.start))
    (installs L d 0 (head L d))
  refine ⟨hhead, fun b hb => ?_⟩
  have h := (view_install hs (getHead_putHead_nil (d L.start))
    (installs L d 0 (head L d) ++ [(L.start, putHead [] (d L.start))]).length).2 b hb
  rw [List.take_length, view_of_head_nil hhead] at h
  exact h

/-! ## Commit -/

/-- The kernel when it calls `commit` with the header `lh`: home blocks, no more than the log and
`lh.block` have room for, with the header on the disk erased. The new contents of the transaction's
blocks are those `bread` finds in the cache. -/
structure Transaction (L : LogArea) (lh : List Nat) (s : Io) : Prop where
  home : ∀ b ∈ lh, ¬ L.Mem b
  room : lh.length < L.size
  fits : lh.length ≤ logSize
  clean : head L s.disk = []
  done : s.done = []

/-- The disk after `k` writes of `commit`. -/
def commitCrash (L : LogArea) (lh : List Nat) (s : Io) (k : Nat) : Disk :=
  writes s.disk ((commit L lh s).done.take k)

theorem Transaction.start (ht : Transaction L lh s) : L.Mem L.start :=
  LogArea.mem_start (Nat.lt_of_le_of_lt (Nat.zero_le _) ht.room)

theorem logCopy_start (c d : Nat → Block) (lh : List Nat) (k : Nat) :
    writes d ((logCopy L c 0 lh).take k) L.start = d L.start := by
  refine writes_of_forall_ne (fun w hw h => ?_) d
  obtain ⟨i, -, -, hw⟩ := mem_logCopy (List.mem_of_mem_take hw)
  omega

theorem Transaction.logCopy_home (ht : Transaction L lh s) (c d : Nat → Block) (k : Nat)
    (hb : ¬ L.Mem b) :
    writes d ((logCopy L c 0 lh).take k) b = d b := by
  refine writes_of_forall_ne (fun w hw h => hb ?_) d
  obtain ⟨i, -, hi, hw⟩ := mem_logCopy (List.mem_of_mem_take hw)
  have := ht.room
  rw [← h, hw]
  exact LogArea.mem_log (by omega)

/-- The writes up to the commit point. -/
def logWrites (L : LogArea) (lh : List Nat) (s : Io) : List (Nat × Block) :=
  logCopy L (bread s) 0 lh ++ [(L.start, putHead lh (bread s L.start))]

theorem logWrites_start (c : Nat → Block) (lh : List Nat) (s : Io) :
    writes c (logWrites L lh s) L.start = putHead lh (bread s L.start) := by
  rw [logWrites, writes_append, writes_cons, writes_nil, update_self]

theorem installs_logWrites (c : Nat → Block) (lh : List Nat) (s : Io) :
    installs L (writes c (logWrites L lh s)) 0 lh = lh.map fun b => (b, bread s b) := by
  refine (installs_congr fun i _ _ => ?_).trans (installs_logCopy (d := c))
  rw [logWrites, writes_append, writes_cons, writes_nil]
  exact update_of_ne (by dsimp only; omega) _ _

section
variable {lh : List Nat} {s : Io} (ht : Transaction L lh s)
include ht

theorem Transaction.logged :
    head L (writes s.disk (logWrites L lh s)) = lh ∧
    Sound L (writes s.disk (logWrites L lh s)) := by
  have hfits := ht.fits
  unfold logSize maxOpBlocks at hfits
  have hhead : head L (writes s.disk (logWrites L lh s)) = lh := by
    rw [head, logWrites_start, getHead_putHead (by unfold wordsPerBlock; omega)]
  exact ⟨hhead, by rw [hhead]; exact ht.home, by rw [hhead]; exact ht.room⟩

theorem Transaction.logWrites_home (d : Nat → Block) (hb : ¬ L.Mem b) :
    writes d (logWrites L lh s) b = d b := by
  have h := ht.logCopy_home (bread s) d lh.length hb
  rw [List.take_of_length_le (by rw [length_logCopy])] at h
  rw [logWrites, writes_append, writes_cons, writes_nil,
    update_of_ne fun h => hb (by rw [h]; exact ht.start), h]

variable (hne : lh ≠ [])
include hne

theorem Transaction.commit_eq :
    commit L lh s = bwrites s (logWrites L lh s ++ ((lh.map fun b => (b, bread s b)) ++
      [(L.start, putHead [] (putHead lh (bread s L.start)))])) := by
  have hroom := ht.room
  have hlog : writeHead L lh (writeLog L lh s) = bwrites s (logWrites L lh s) := by
    have hstart := logCopy_start (L := L) (bread s) (bread s) lh lh.length
    rw [List.take_of_length_le (by rw [length_logCopy])] at hstart
    rw [writeLog, writeLogFrom_eq ht.home (by omega), writeHead, bread_bwrites, hstart, logWrites,
      bwrites_concat]
  have hinst : installTrans L lh (bwrites s (logWrites L lh s)) =
      bwrites s (logWrites L lh s ++ lh.map fun b => (b, bread s b)) := by
    rw [installTrans, installTransFrom_eq ht.home (by omega), bread_bwrites, installs_logWrites,
      bwrites_append]
  have hstart : bread (bwrites s (logWrites L lh s ++ lh.map fun b => (b, bread s b)))
      L.start = putHead lh (bread s L.start) := by
    rw [bread_bwrites, writes_append, writes_map, if_neg fun h => ht.home _ h (ht.start),
      logWrites_start]
  rw [commit, if_pos (List.length_pos_iff.2 hne)]
  simp only [hlog, hinst]
  rw [writeHead, hstart, ← List.append_assoc]
  exact (bwrites_concat ..).symm

end

/-- **The commit point**: the view of the disk a crash leaves is the old disk up to the first write
of the header, and the disk with the whole transaction from then on. -/
theorem commit_view (ht : Transaction L lh s) (k : Nat) :
    Sound L (commitCrash L lh s k) ∧ ∀ b, ¬ L.Mem b → view L (commitCrash L lh s k) b =
      if lh.length < k ∧ b ∈ lh then bread s b else s.disk b := by
  by_cases hne : lh = []
  · subst hne
    have hdisk : commitCrash L [] s k = s.disk := by
      rw [commitCrash, commit, if_neg (by simp), ht.done, List.take_nil, writes_nil]
    rw [hdisk, view_of_head_nil ht.clean]
    exact ⟨.of_head_nil ht.room ht.clean, fun b _ => (if_neg (by simp)).symm⟩
  have hlen : (logCopy L (bread s) 0 lh).length = lh.length := length_logCopy _ _ _
  rw [commitCrash, ht.commit_eq hne, done_bwrites, ht.done, List.nil_append]
  rcases Nat.lt_or_ge lh.length k with hk | hk
  · obtain ⟨hhead, hs⟩ := ht.logged
    have hl : (logWrites L lh s).length = lh.length + 1 := by
      rw [logWrites, List.length_append, hlen, List.length_singleton]
    rw [List.take_append, List.take_of_length_le (by omega), writes_append]
    have hinst : (lh.map fun b => (b, bread s b)) = installs L (writes s.disk (logWrites L lh s)) 0
        (head L (writes s.disk (logWrites L lh s))) := by
      rw [hhead, installs_logWrites]
    have hview := view_install hs
      (getHead_putHead_nil (putHead lh (bread s L.start))) (k - (logWrites L lh s).length)
    rw [← hinst] at hview
    refine ⟨hview.1, fun b hb => (hview.2 b hb).trans ?_⟩
    rw [view, ← hinst, writes_map]
    by_cases hb' : b ∈ lh
    · rw [if_pos hb', if_pos ⟨hk, hb'⟩]
    · rw [if_neg hb', if_neg fun h => hb' h.2, ht.logWrites_home s.disk hb]
  · -- only log blocks are written
    rw [logWrites, List.append_assoc, List.take_append_of_le_length (by omega)]
    have hhead : head L (writes s.disk ((logCopy L (bread s) 0 lh).take k)) = [] := by
      rw [head, logCopy_start]
      exact ht.clean
    refine ⟨.of_head_nil (Nat.lt_of_le_of_lt (Nat.zero_le _) ht.room) hhead, fun b hb => ?_⟩
    rw [view_of_head_nil hhead, if_neg (by omega)]
    exact ht.logCopy_home _ _ _ hb

theorem commit_disk (ht : Transaction L lh s) :
    head L (commit L lh s).disk = [] ∧
      ∀ b, ¬ L.Mem b → (commit L lh s).disk b = if b ∈ lh then bread s b else s.disk b := by
  by_cases hne : lh = []
  · subst hne
    exact ⟨ht.clean, fun b _ => (if_neg (List.not_mem_nil)).symm⟩
  rw [ht.commit_eq hne, disk_bwrites, ← List.append_assoc]
  refine ⟨head_erase (getHead_putHead_nil _) _, fun b hb => ?_⟩
  rw [writes_append, writes_cons, writes_nil,
    update_of_ne fun h => hb (by rw [h]; exact ht.start), writes_append, writes_map,
    ht.logWrites_home s.disk hb]

/-- The first write of the header of a transaction is among the writes. -/
def HeaderWritten (L : LogArea) (ws : List (Nat × Block)) : Prop :=
  ∃ w ∈ ws, w.1 = L.start ∧ getHead w.2 ≠ []

theorem Transaction.headerWritten (ht : Transaction L lh s) (hne : lh ≠ []) (k : Nat) :
    HeaderWritten L ((commit L lh s).done.take k) ↔ lh.length < k := by
  have hlen : (logCopy L (bread s) 0 lh).length = lh.length := length_logCopy _ _ _
  rw [ht.commit_eq hne, done_bwrites, ht.done, List.nil_append]
  constructor
  · rintro ⟨w, hw, hstart, -⟩
    by_contra hk
    rw [logWrites, List.append_assoc, List.take_append_of_le_length (by omega)] at hw
    obtain ⟨i, -, -, hw⟩ := mem_logCopy (List.mem_of_mem_take hw)
    omega
  · intro hk
    have hfits := ht.fits
    unfold logSize maxOpBlocks at hfits
    refine ⟨(L.start, putHead lh (bread s L.start)), ?_, rfl, ?_⟩
    · rw [List.take_append, List.take_of_length_le]
      · exact List.mem_append_left _ (List.mem_append_right _ (List.mem_singleton_self _))
      · rw [logWrites, List.length_append, hlen, List.length_singleton]
        omega
    · rw [getHead_putHead (by unfold wordsPerBlock; omega)]
      exact hne

/-- **Crash atomicity.** A crash ends `commit` after any number `k` of writes, further crashes end
recoveries after any numbers `ks` of writes, then a recovery completes. It leaves the header erased,
and the home blocks with the whole transaction if its header had reached the disk, and as they were
before it if not. -/
theorem crash_atomic (L : LogArea) (lh : List Nat) (s : Io) (ht : Transaction L lh s) (k : Nat)
    (ks : List Nat) :
    let d := (recoverFromLog L (boot (ks.foldl (recoverCrash L) (commitCrash L lh s k)))).disk
    head L d = [] ∧
    (HeaderWritten L ((commit L lh s).done.take k) →
      (∀ b ∈ lh, d b = bread s b) ∧ ∀ b, b ∉ lh → ¬ L.Mem b → d b = s.disk b) ∧
    (¬ HeaderWritten L ((commit L lh s).done.take k) → ∀ b, ¬ L.Mem b → d b = s.disk b) := by
  obtain ⟨hs, hview⟩ := commit_view ht k
  obtain ⟨hs', hview'⟩ := recoverCrashes_view hs ks
  obtain ⟨hhead, hdisk⟩ := recover_disk hs'
  have hall : ∀ b, ¬ L.Mem b → (recoverFromLog L
      (boot (ks.foldl (recoverCrash L) (commitCrash L lh s k)))).disk b =
        if lh.length < k ∧ b ∈ lh then bread s b else s.disk b :=
    fun b hb => (hdisk b hb).trans ((hview' b hb).trans (hview b hb))
  refine ⟨hhead, fun hw => ?_, fun hw b hb => ?_⟩
  · have hne : lh ≠ [] := by
      rintro rfl
      obtain ⟨w, hw, -⟩ := hw
      rw [commit, if_neg (by simp), ht.done, List.take_nil] at hw
      cases hw
    have hk := (ht.headerWritten hne k).1 hw
    refine ⟨fun b hb => ?_, fun b hb hb' => ?_⟩
    · rw [hall b (ht.home b hb), if_pos ⟨hk, hb⟩]
    · rw [hall b hb', if_neg fun h => hb h.2]
  · rw [hall b hb, if_neg]
    rintro ⟨hk, hb'⟩
    exact hw ((ht.headerWritten (List.ne_nil_of_mem hb') k).2 hk)

def fortyIo : Io := ⟨fun _ _ => 0, fun b => if b = 40 then some fun _ => 7 else none, []⟩

/-- A crash right after the first write of the header, and another one after the installation. -/
theorem crash_atomic_forty :
    HeaderWritten ⟨2, 30⟩ ((commit ⟨2, 30⟩ [40] fortyIo).done.take 2) ∧
    (recoverFromLog ⟨2, 30⟩ (boot ([1].foldl (recoverCrash ⟨2, 30⟩)
      (commitCrash ⟨2, 30⟩ [40] fortyIo 2)))).disk 40 = fun _ => 7 := by
  have ht : Transaction ⟨2, 30⟩ [40] fortyIo :=
    ⟨fun b hb => by rw [List.mem_singleton.1 hb]; decide, by decide, by decide, rfl, rfl⟩
  have hw : HeaderWritten ⟨2, 30⟩ ((commit ⟨2, 30⟩ [40] fortyIo).done.take 2) :=
    ⟨_, List.mem_cons_of_mem _ List.mem_cons_self, rfl, by decide⟩
  exact ⟨hw, ((crash_atomic ⟨2, 30⟩ [40] fortyIo ht 2 [1]).2.1 hw).1 40 (List.mem_singleton_self _)⟩

end Xv6
