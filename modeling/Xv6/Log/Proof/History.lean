import Xv6.Log.Proof.Crash
import Xv6.Lib.Run

/-!
# The log over many transactions

Between two commits the kernel collects the blocks that file system calls change, in the buffer
cache and in `log.lh`; a changed block stays in the cache until the commit, others may leave it at
any time. The power may fail at any time, in a commit after any of its writes, and again in the
recoveries that follow. All of it is a `Store`, whose commits are atomic and which a crash takes
back to the last commit (`log_refines_store`).
-/

namespace Xv6

open Lib Function

/-- The log between file system calls. -/
structure Logger where
  io : Io
  /-- `log.lh`. -/
  lh : List Nat

/-- What can happen to it. -/
inductive LoggerAct
  /-- A block gets new contents, and `log_write` is called. -/
  | logWrite (b : Nat) (x : Block)
  /-- The cache recycles the buffer of a block. -/
  | evict (b : Nat)
  | commit
  /-- The power fails after `k` writes of a commit, and then in recoveries, after `ks` writes of
  each. The next recovery completes. -/
  | crash (k : Nat) (ks : List Nat)

/-- Log absorption. -/
def absorb (lh : List Nat) (b : Nat) : List Nat := if b ∈ lh then lh else lh ++ [b]

/-- One action, as the code and the disk do it. -/
def Logger.step (L : LogArea) (s : Logger) : LoggerAct → Option Logger
  | .logWrite b x =>
    -- too big a transaction
    if L.Mem b ∨ s.lh.length ≥ logSize ∨ s.lh.length ≥ L.size - 1 then none
    else some ⟨{ s.io with cache := update s.io.cache b (some x) }, absorb s.lh b⟩
  -- `B_DIRTY` keeps the blocks of the transaction
  | .evict b => if b ∈ s.lh then none else some { s with io.cache := update s.io.cache b none }
  | .commit => some ⟨{ commit L s.lh s.io with done := [] }, []⟩
  | .crash k ks =>
    let d := ks.foldl (recoverCrash L) (commitCrash L s.lh s.io k)
    some ⟨{ recoverFromLog L (boot d) with done := [] }, []⟩

/-- What the log is for: a disk that changes from commit to commit. -/
structure Store where
  durable : Disk
  current : Disk

/-- The same in terms of blocks. -/
inductive StoreAct
  | write (b : Nat) (x : Block)
  | commit
  | crash

/-- A crash loses what was not committed. -/
def Store.step (t : Store) : StoreAct → Store
  | .write b x => { t with current := update t.current b x }
  | .commit => { t with durable := t.current }
  | .crash => { t with current := t.durable }

/-- What an action is for the store. A commit in which the power fails counts if the header has
reached the disk, with the write after those of the blocks. -/
def Logger.does (s : Logger) : LoggerAct → List StoreAct
  | .logWrite b x => [.write b x]
  | .evict _ => []
  | .commit => [.commit]
  | .crash k _ => if s.lh.length < k then [.commit, .crash] else [.crash]

/-- The log stands for the store `t`. -/
structure Logger.Rep (L : LogArea) (s : Logger) (t : Store) : Prop where
  trans : Transaction L s.lh s.io
  current : ∀ b, ¬ L.Mem b → bread s.io b = t.current b
  durable : ∀ b, ¬ L.Mem b → s.io.disk b = t.durable b
  same : ∀ b, ¬ L.Mem b → b ∉ s.lh → t.current b = t.durable b

section
variable {L : LogArea} {s s' : Logger} {t : Store} {a : LoggerAct} {io : Io} {d : Disk}
  {lh : List Nat} {b c : Nat}

theorem mem_absorb : c ∈ absorb lh b ↔ c ∈ lh ∨ c = b := by
  unfold absorb
  split
  · next h => exact ⟨.inl, fun hc => hc.elim id (· ▸ h)⟩
  · simp

theorem length_absorb (lh : List Nat) (b : Nat) : (absorb lh b).length ≤ lh.length + 1 := by
  unfold absorb
  split <;> simp

/-- After a commit or a recovery, the cache and the disk agree. -/
theorem Logger.Rep.of_clean (hsize : 0 < L.size) (hclean : head L io.disk = [])
    (hcache : ∀ b, ¬ L.Mem b → bread io b = d b) (hdisk : ∀ b, ¬ L.Mem b → io.disk b = d b) :
    Rep L ⟨{ io with done := [] }, []⟩ ⟨d, d⟩ :=
  ⟨⟨by simp, hsize, Nat.zero_le _, hclean, rfl⟩, hcache, hdisk, fun _ _ _ => rfl⟩

theorem commit_bread (ht : Transaction L lh io) (hb : ¬ L.Mem b) :
    bread (commit L lh io) b = bread io b := by
  by_cases hne : lh = []
  · rw [hne, commit, if_neg (by simp)]
  rw [ht.commit_eq hne, bread_bwrites, ← List.append_assoc, writes_append, writes_cons, writes_nil,
    update_of_ne fun h => hb (by rw [h]; exact ht.start), writes_append, writes_map,
    ht.logWrites_home _ hb, ite_self]

theorem bread_setCache (io : Io) (b c : Nat) (x : Option Block) :
    bread { io with cache := update io.cache b x } c =
      if c = b then x.getD (io.disk b) else bread io c := by
  by_cases hc : c = b
  · subst hc
    simp [bread]
  · simp [bread, hc]

theorem Logger.Rep.step (h : Rep L s t) (hs : s.step L a = some s') :
    Rep L s' ((s.does a).foldl Store.step t) := by
  have hsize : 0 < L.size := Nat.lt_of_le_of_lt (Nat.zero_le _) h.trans.room
  cases a with
  | logWrite b x =>
    obtain ⟨hg, hs⟩ := Option.ite_none_left_eq_some.1 hs
    simp only [not_or, Nat.not_le] at hg
    have hlen := length_absorb s.lh b
    cases hs
    refine ⟨⟨fun c hc => ?_, hlen.trans_lt (by omega), hlen.trans (by omega), h.trans.clean,
      h.trans.done⟩, fun c hc => ?_, h.durable, fun c hc hn => ?_⟩
    · exact (mem_absorb.1 hc).elim (h.trans.home c) (· ▸ hg.1)
    · rw [bread_setCache, h.current c hc]
      exact (update_apply ..).symm
    · obtain ⟨hc', hcb⟩ := not_or.1 (mt mem_absorb.2 hn)
      exact (update_of_ne hcb _ _).trans (h.same c hc hc')
  | evict b =>
    obtain ⟨hb, hs⟩ := Option.ite_none_left_eq_some.1 hs
    cases hs
    refine ⟨⟨h.trans.home, h.trans.room, h.trans.fits, h.trans.clean, h.trans.done⟩,
      fun c hc => ?_, h.durable, h.same⟩
    rw [bread_setCache]
    split
    · next hcb =>
      subst hcb
      exact (h.durable c hc).trans (h.same c hc hb).symm
    · exact h.current c hc
  | commit =>
    cases hs
    obtain ⟨hclean, hdisk⟩ := commit_disk h.trans
    refine .of_clean hsize hclean (fun b hb => (commit_bread h.trans hb).trans (h.current b hb))
      fun b hb => ?_
    rw [hdisk b hb]
    split
    · exact h.current b hb
    · next hn => exact (h.durable b hb).trans (h.same b hb hn).symm
  | crash k ks =>
    cases hs
    obtain ⟨hsound, hview⟩ := commit_view h.trans k
    obtain ⟨hsound', hview'⟩ := recoverCrashes_view hsound ks
    obtain ⟨hclean, hdisk⟩ := recover_disk hsound'
    have hcache :=
      (recover_eq hsound').symm ▸ (bread_bwrites (boot _) _).trans (disk_bwrites (boot _) _).symm
    have hall : ∀ b, ¬ L.Mem b → _ =
        if s.lh.length < k ∧ b ∈ s.lh then bread s.io b else s.io.disk b :=
      fun b hb => (hdisk b hb).trans ((hview' b hb).trans (hview b hb))
    rw [Logger.does]
    split
    · next hk =>
      have hcur (b : Nat) (hb : ¬ L.Mem b) := (hall b hb).trans (show _ = t.current b by
        by_cases hl : b ∈ s.lh
        · rw [if_pos ⟨hk, hl⟩, h.current b hb]
        · rw [if_neg fun hc => hl hc.2, h.durable b hb, h.same b hb hl])
      exact .of_clean hsize hclean (fun b hb => (congrFun hcache b).trans (hcur b hb)) hcur
    · next hk =>
      have hdur (b : Nat) (hb : ¬ L.Mem b) := (hall b hb).trans (show _ = t.durable b by
        rw [if_neg fun hc => hk hc.1, h.durable b hb])
      exact .of_clean hsize hclean (fun b hb => (congrFun hcache b).trans (hdur b hb)) hdur

/-- **The log is an atomic store.** After any log writes, commits and crashes from a disk with an
empty log, what the kernel reads of a home block is the last value written to it, and what is on
disk is the value at the last commit; after a crash both are the latter. -/
theorem log_refines_store (hsize : 0 < L.size) (hd : head L d = []) (as : List LoggerAct)
    (h : run (Logger.step L) ⟨boot d, []⟩ as = some s) :
    let t := (trace (Logger.step L) Logger.does ⟨boot d, []⟩ as).foldl Store.step ⟨d, d⟩
    ∀ b, ¬ L.Mem b → bread s.io b = t.current b ∧ s.io.disk b = t.durable b := by
  have hrep :
    s.Rep L (([] ++ trace (Logger.step L) Logger.does ⟨boot d, []⟩ as).foldl Store.step ⟨d, d⟩) := by
    refine trace_inv (P := fun es s => Logger.Rep L s (es.foldl Store.step ⟨d, d⟩))
      (fun es s a s' hi hs => ?_) ?_ h
    · rw [List.foldl_append]
      exact hi.step hs
    · exact @Logger.Rep.of_clean L (boot d) d hsize hd (fun _ _ => rfl) fun _ _ => rfl
  exact fun b hb => ⟨hrep.current b hb, hrep.durable b hb⟩

end

/-- A transaction of one block; the power fails after its header is on disk, and again in the
recovery. -/
theorem log_refines_store_forty : ∃ s, run (Logger.step ⟨2, 30⟩) ⟨boot fun _ _ => 0, []⟩
    [.logWrite 40 fun _ => 7, .crash 2 [1]] = some s ∧ s.io.disk 40 = fun _ => 7 :=
  ⟨_, rfl, (log_refines_store (L := ⟨2, 30⟩) (by decide) (by rfl)
    [.logWrite 40 fun _ => 7, .crash 2 [1]] rfl 40 (by decide)).2⟩

end Xv6
