import Xv6.Log.Proof.OpsInv

/-!
# Space in the log

`begin_op` reserves `MAXOPBLOCKS` blocks for every operation in progress. The blocks recorded plus
those the operations in progress may still record stay within a bound (`ReserveInv`): `LOGSIZE` if
operations write at most `MAXOPBLOCKS` blocks, `LOGSIZE - 2` if they write fewer. `log_write` wants
`lh.n < log.size - 1`, and `mkfs` makes `log.size = LOGSIZE`, the header block included. So the
panic is not reached with operations of fewer than `MAXOPBLOCKS` blocks (`log_reserve`), and three
operations of `MAXOPBLOCKS` blocks each reach it (`log_reserve_fails`).
-/

namespace Xv6

open Lib Function

variable {limit : Nat} {p' : LogPlace} {o' : LogState} {size : Int} {proc : Ptable} {s : LogThreads}

/-- The blocks that the call has logged. -/
def LogPlace.written : LogPlace → Finset Nat
  | .loc (.inOp ws) | .call (.logWrite _ ws) => ws
  | _ => ∅

/-- How many more blocks it may log. -/
def LogPlace.room (limit : Nat) : LogPlace → Nat
  | .loc (.inOp ws) | .call (.logWrite _ ws) => limit - ws.card
  | _ => 0

/-- With operations of at most `limit` blocks, what `begin_op` admits fits into `cap` blocks. -/
structure Fits (limit cap : Nat) : Prop where
  one : limit ≤ cap
  more : ∀ n m, 2 ≤ m → n + m * maxOpBlocks ≤ logSize → n + m * limit ≤ cap

theorem fits_logSize (h : limit ≤ maxOpBlocks) : Fits limit logSize := by
  unfold maxOpBlocks at h
  refine ⟨by unfold logSize maxOpBlocks; omega, fun n m _ hn => ?_⟩
  have := Nat.mul_le_mul_left m h
  unfold logSize maxOpBlocks at *
  omega

theorem fits_of_lt (h : limit < maxOpBlocks) : Fits limit (logSize - 2) := by
  unfold maxOpBlocks at h
  refine ⟨by unfold logSize maxOpBlocks; omega, fun n m hm hn => ?_⟩
  have := Nat.mul_le_mul_left m (show limit ≤ 9 by omega)
  unfold logSize maxOpBlocks at *
  omega

/-- There is room in the log for what each call may still write. -/
structure ReserveInv (limit cap : Nat) (o : LogState) (pl : Slot → LogPlace) : Prop where
  logged : ∀ t, ∀ b ∈ (pl t).written, b ∈ o.block
  within : ∀ t b ws, pl t = .call (.logWrite b ws) → (insert b ws).card ≤ limit
  room : o.block.length + tally (LogPlace.room limit) pl ≤ cap

namespace ReserveInv

variable {limit cap : Nat} {o : LogState} {pl : Slot → LogPlace} {t : Slot}

theorem room_le (limit : Nat) (p : LogPlace) : p.room limit ≤ limit * p.inOp := by
  cases p with
  | loc l => cases l <;> simp [LogPlace.room, LogPlace.inOp]
  | call c => cases c <;> simp [LogPlace.room, LogPlace.inOp]
  | dead => simp [LogPlace.room]

theorem tally_room_le (hi : OpsInv o pl) :
    (tally (LogPlace.room limit) pl : Int) ≤ limit * o.outstanding := by
  have h := tally_mono (v := fun p => limit * LogPlace.inOp p) fun t => room_le limit (pl t)
  rw [tally_const_mul] at h
  rw [hi.outstanding]
  exact_mod_cast h

theorem written_of_not_inOp {p : LogPlace} (h : p.inOp = 0) : p.written = ∅ := by
  cases p with
  | loc l => cases l <;> simp [LogPlace.written, LogPlace.inOp] at h ⊢
  | call c => cases c <;> simp [LogPlace.written, LogPlace.inOp] at h ⊢
  | dead => rfl

section
variable (h : ReserveInv limit cap o pl)
include h

theorem within_update (hin : ∀ b ws, p' = .call (.logWrite b ws) → (insert b ws).card ≤ limit) :
    ∀ u b ws, update pl t p' u = .call (.logWrite b ws) → (insert b ws).card ≤ limit :=
  (forall_update_iff pl fun _ p => ∀ b ws, p = .call (.logWrite b ws) →
    (insert b ws).card ≤ limit).2 ⟨hin, fun u _ => h.within u⟩

theorem set (hblock : ∀ b ∈ o.block, b ∈ o'.block) (hw : ∀ b ∈ p'.written, b ∈ o'.block)
    (hin : ∀ b ws, p' = .call (.logWrite b ws) → (insert b ws).card ≤ limit)
    (hroom : o'.block.length + p'.room limit ≤ o.block.length + (pl t).room limit) :
    ReserveInv limit cap o' (update pl t p') := by
  have h1 := tally_update (LogPlace.room limit) pl t p'
  have h2 := h.room
  refine ⟨?_, h.within_update hin, by omega⟩
  exact (forall_update_iff pl fun _ p => ∀ b ∈ p.written, b ∈ o'.block).2
    ⟨hw, fun u _ b hb => hblock b (h.logged u b hb)⟩

theorem begin (hf : Fits limit cap) (hi : OpsInv o pl)
    (hp : pl t = .call .beginOp) (hw : ¬ o.waits) :
    ReserveInv limit cap { o with outstanding := o.outstanding + 1 }
      (update pl t (.loc (.inOp ∅))) := by
  obtain ⟨hc, hn⟩ := LogState.not_waits.1 hw
  have htally : (tally (LogPlace.room limit) pl : Int) ≤ limit * o.outstanding := tally_room_le hi
  have hup := tally_update (LogPlace.room limit) pl t (.loc (.inOp ∅))
  rw [hp] at hup
  simp only [LogPlace.room, Finset.card_empty] at hup
  refine ⟨?_, h.within_update nofun, ?_⟩
  · exact (forall_update_iff pl fun _ p => ∀ b ∈ p.written, b ∈ o.block).2
      ⟨nofun, fun u _ => h.logged u⟩
  · obtain ⟨m, hm⟩ : ∃ m : Nat, o.outstanding = m := ⟨_, hi.outstanding⟩
    rw [hm] at htally hn
    have htally' : tally (LogPlace.room limit) pl ≤ limit * m := by exact_mod_cast htally
    have hn' : o.block.length + (m + 1) * maxOpBlocks ≤ logSize := by
      unfold LogState.n at hn
      exact_mod_cast hn
    rcases Nat.eq_zero_or_pos m with rfl | hpos
    · -- the first operation finds the log empty
      have hone := hf.one
      have hempty := hi.empty hc (by simpa using hm)
      simp only [hempty, List.length_nil]
      omega
    · have hmore := hf.more _ _ (by omega) hn'
      rw [Nat.add_one_mul, Nat.mul_comm] at hmore
      simp only
      omega

theorem commit (hi : OpsInv o pl) (hp : pl t = .loc .mustCommit) :
    ReserveInv limit cap { o with block := [] } (update pl t (.loc .committed)) := by
  obtain ⟨-, h0⟩ := hi.committer (t := t) (by rw [hp]; rfl)
  have hquiet : ∀ u, (pl u).inOp = 0 := by
    refine tally_eq_zero.1 ?_
    have := hi.outstanding
    omega
  have hroom := h.room
  have hup := tally_update (LogPlace.room limit) pl t (.loc .committed)
  rw [hp] at hup
  simp only [LogPlace.room] at hup
  refine ⟨?_, h.within_update nofun, by simp only [List.length_nil]; omega⟩
  refine (forall_update_iff pl fun _ p => ∀ b ∈ p.written, b ∈ ([] : List Nat)).2
    ⟨nofun, fun u _ b hb => ?_⟩
  rw [written_of_not_inOp (hquiet u)] at hb
  cases hb

theorem write {b : Nat} {ws : Finset Nat} (hp : pl t = .call (.logWrite b ws)) :
    ReserveInv limit cap { o with block := if b ∈ o.block then o.block else o.block ++ [b] }
      (update pl t (.loc (.inOp (insert b ws)))) := by
  have hcard := h.within t b ws hp
  have hws : ∀ b' ∈ ws, b' ∈ o.block := fun b' hb' => h.logged t b' (by rw [hp]; exact hb')
  by_cases hb : b ∈ o.block
  · rw [if_pos hb]
    refine h.set (fun _ => id) (fun b' hb' => ?_) nofun ?_
    · rcases Finset.mem_insert.1 hb' with rfl | hb'
      · exact hb
      · exact hws b' hb'
    · rw [hp]
      have := Finset.card_le_card (Finset.subset_insert b ws)
      simp only [LogPlace.room]
      omega
  · rw [if_neg hb]
    have hnew : b ∉ ws := fun hbw => hb (hws b hbw)
    refine h.set (fun _ hb' => List.mem_append_left _ hb') (fun b' hb' => ?_) nofun ?_
    · rcases Finset.mem_insert.1 hb' with rfl | hb'
      · exact List.mem_append_right _ (List.mem_singleton_self _)
      · exact List.mem_append_left _ (hws b' hb')
    · rw [Finset.card_insert_of_notMem hnew] at hcard
      rw [hp]
      simp only [LogPlace.room, List.length_append, List.length_singleton,
        Finset.card_insert_of_notMem hnew]
      omega

/-- **Every step keeps the reservation.** -/
theorem step (hf : Fits limit cap) (hi : OpsInv o pl) (hm : LogMove size limit o (pl t) o' p') :
    ReserveInv limit cap o' (update pl t p') := by
  cases hm with
  | wait hp _ => exact h.set (fun _ => id) nofun nofun (by rw [hp])
  | callBegin hp | endPanic hp _ | endLast hp _ _ | endOther hp _ _ | endCommit hp
  | callEndCommit hp =>
    exact h.set (fun _ => id) nofun nofun (by rw [hp]; exact Nat.le_refl _)
  | begin hp hw => exact h.begin hf hi hp hw
  | callWrite hp hcard =>
    refine h.set (fun _ => id) (fun b hb => h.logged t b (by rw [hp]; exact hb))
      (fun b ws hbw => ?_) (by rw [hp]; exact Nat.le_refl _)
    cases hbw
    exact hcard
  | callEnd hp =>
    exact h.set (fun _ => id) nofun nofun (by rw [hp]; simp [LogPlace.room])
  | commit hp => exact h.commit hi hp
  | write hp => exact h.write hp

end

theorem init (limit cap : Nat) (proc : Ptable) :
    ReserveInv limit cap ((logBoot proc).obj ()) (logBoot proc).places :=
  ⟨nofun, nofun, by simp [logBoot, Threads.init, tally, Threads.places, Pc.place, LogPlace.room]⟩

end ReserveInv

theorem nodup_step {o : LogState} {p : LogPlace} (hd : o.block.Nodup)
    (hm : LogMove size limit o p o' p') : o'.block.Nodup := by
  cases hm with
  | @write b ws hp =>
    by_cases hb : b ∈ o.block
    · simp only [if_pos hb]
      exact hd
    · simp only [if_neg hb]
      exact List.nodup_append.2 ⟨hd, List.nodup_singleton b, fun a ha b' hb' => by
        rw [List.mem_singleton.1 hb']
        rintro rfl
        exact hb ha⟩
  | commit hp => exact List.nodup_nil
  | _ => exact hd

theorem nodup_reach (h : Reach (logOps size limit).step (logBoot proc) s) :
    (s.obj ()).block.Nodup := by
  refine atomic_inv (J := fun o _ => (o ()).block.Nodup) (fun o pl o' pl' hd ha => ?_) h
    List.nodup_nil
  obtain ⟨t, p', -, hm⟩ := log_move ha
  exact nodup_step hd hm

theorem reserve_reach {cap : Nat} (hf : Fits limit cap)
    (h : Reach (logOps size limit).step (logBoot proc) s) :
    OpsInv (s.obj ()) s.places ∧ ReserveInv limit cap (s.obj ()) s.places := by
  refine atomic_inv (J := fun o pl => OpsInv (o ()) pl ∧ ReserveInv limit cap (o ()) pl)
    (fun o pl o' pl' hi ha => ?_) h ⟨OpsInv.init proc, ReserveInv.init limit cap proc⟩
  obtain ⟨t, p', rfl, hm⟩ := log_move ha
  exact ⟨hi.1.step hm, hi.2.step hf hi.1 hm⟩

theorem reserve_no_panic (hl : limit < maxOpBlocks)
    (h : Reach (logOps nlog limit).step (logBoot proc) s) : s.panicked = none := by
  obtain ⟨as, has⟩ := h
  refine (run_inv (P := fun s => Reach (logOps nlog limit).step (logBoot proc) s ∧
    s.panicked = none) (fun s a s' hs hstep => ⟨hs.1.tail hstep, ?_⟩) ⟨Reach.refl _, rfl⟩ has).2
  by_contra hp
  obtain ⟨msg, hmsg⟩ := Option.ne_none_iff_exists'.1 hp
  obtain ⟨hi, hr⟩ := reserve_reach (fits_of_lt hl) hs.1
  rcases hi.panicked hstep hmsg with h1 | ⟨-, -, hn⟩
  · rw [hs.2] at h1
    cases h1
  · have hroom := hr.room
    unfold LogState.n nlog logSize maxOpBlocks at hn
    unfold logSize maxOpBlocks at hroom
    omega

/-- **Space in the log.** In every run the blocks in the log are distinct, and with operations of at
most `MAXOPBLOCKS` blocks they fit into `lh.block`; with operations of fewer blocks `log_write` does
not panic, on a log of the size `mkfs` gives it. -/
theorem log_reserve (limit : Nat) (proc : Ptable) (s : LogThreads)
    (h : Reach (logOps nlog limit).step (logBoot proc) s) :
    (s.obj ()).block.Nodup ∧ (limit ≤ maxOpBlocks → (s.obj ()).n ≤ logSize) ∧
      (limit < maxOpBlocks → s.panicked ≠ some "too big a transaction") := by
  refine ⟨nodup_reach h, fun hl => ?_, fun hl => ?_⟩
  · have hroom := (reserve_reach (fits_logSize hl) h).2.room
    unfold LogState.n
    omega
  · rw [reserve_no_panic hl h]
    nofun

def writeActs (t : Slot) (bs : List Nat) : List (ThreadAct LogAct) :=
  bs.flatMap fun b => .outside t (.logWrite b) :: List.replicate 3 (.run t)

/-- Three processes begin an operation each and write `k` blocks each. -/
def threeOps (k : Nat) : List (ThreadAct LogAct) :=
  beginActs 0 ++ beginActs 1 ++ beginActs 2 ++ writeActs 0 (List.range' 0 k) ++
    writeActs 1 (List.range' k k) ++ writeActs 2 (List.range' (2 * k) k)

theorem log_reserve_nine :
    ∃ s, run (logOps nlog 9).step (logBoot (runningProcs 3)) (threeOps 9) = some s ∧
      (s.obj ()).n = 27 ∧ s.panicked ≠ some "too big a transaction" := by
  have hs : (run (logOps nlog 9).step (logBoot (runningProcs 3)) (threeOps 9)).map
      (fun s => (s.obj ()).n) = some 27 := by decide +kernel
  obtain ⟨s, hs, hn⟩ := Option.map_eq_some_iff.1 hs
  exact ⟨s, hs, hn, (log_reserve 9 (runningProcs 3) s ⟨_, hs⟩).2.2 (by decide)⟩

/-- With ten blocks each, the thirtieth `log_write` panics. -/
theorem log_reserve_fails :
    ∃ s, run (logOps nlog maxOpBlocks).step (logBoot (runningProcs 3))
        ((threeOps maxOpBlocks).take 129) = some s ∧
      s.panicked = some "too big a transaction" := by
  have hs : (run (logOps nlog maxOpBlocks).step (logBoot (runningProcs 3))
      ((threeOps maxOpBlocks).take 129)).map (·.panicked) =
      some (some "too big a transaction") := by decide +kernel
  exact Option.map_eq_some_iff.1 hs

end Xv6
