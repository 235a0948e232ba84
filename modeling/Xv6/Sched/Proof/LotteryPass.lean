import Xv6.Sched.Lottery
import Xv6.Sched.Proof.RandCycle

/-!
# One pass of the lottery

The two loops of `scheduler` add up the same tickets, so the second stops whenever the draw is
below the total of the first (`winnerWalk_of_lt`), wrap-around or not. The sampler's loop ends from
every nonzero register exactly for totals up to `65536`: above, `65536 % num_bins` is `65536` and
every value is rejected (`drawLoop_reject`). And the 32-bit total is the integer total until it
leaves the `int` range, where it turns negative first (`sumTickets_overflow`). Together
(`passOk_iff`): the pass does its work exactly when the runnable processes hold at most `65536`
tickets in all.
-/

namespace Xv6

open Lib Function

variable {pt : Ptable} {T : Nat} {s : BitVec 16}

/-! ## The two loops -/

/-- The tickets of the runnable ones of `ps`. -/
def ticketsOf (pt : Ptable) (ps : List Slot) : Nat :=
  ((ps.filter fun p => (pt p).state = .runnable).map (tickets pt)).sum

theorem ticketSum_eq (pt : Ptable) : ticketSum pt = ticketsOf pt slots := rfl

theorem ticketsOf_cons (pt : Ptable) (p : Slot) (ps : List Slot) :
    ticketsOf pt (p :: ps) =
      (if (pt p).state = .runnable then tickets pt p else 0) + ticketsOf pt ps := by
  unfold ticketsOf
  by_cases h : (pt p).state = .runnable <;> simp [h]

theorem TicketsOk.tickets_eq (h : TicketsOk pt) {p : Slot} (hp : (pt p).state = .runnable) :
    ((tickets pt p : Nat) : Int) = (pt p).tickets ∧
      0 < tickets pt p ∧ (tickets pt p : Int) ≤ intMax := by
  have := h p hp
  unfold tickets
  omega

theorem ticketsOf_pos (h : TicketsOk pt) {ps : List Slot}
    (hr : ∃ p ∈ ps, (pt p).state = .runnable) :
    0 < ticketsOf pt ps := by
  obtain ⟨p, hp, hpr⟩ := hr
  refine List.sum_pos_iff_exists_pos_nat.2 ⟨tickets pt p, List.mem_map_of_mem ?_, ?_⟩
  · exact List.mem_filter.2 ⟨hp, by simpa using hpr⟩
  · exact (h.tickets_eq hpr).2.1

theorem sumTickets_eq (h : TicketsOk pt) : ∀ (ps : List Slot) (total : Int),
    sumTickets pt ps (int32 total) = int32 (total + ticketsOf pt ps)
  | [], total => by simp [sumTickets, ticketsOf]
  | p :: ps, total => by
    rw [sumTickets, ticketsOf_cons]
    by_cases hp : (pt p).state = .runnable
    · rw [if_pos hp, if_pos hp, int32_add_int32, sumTickets_eq h ps]
      have := (h.tickets_eq hp).1
      congr 1
      omega
    · rw [if_neg hp, if_neg hp, sumTickets_eq h ps, Nat.zero_add]

theorem sumTickets_zero (h : TicketsOk pt) (ps : List Slot) :
    sumTickets pt ps 0 = int32 (ticketsOf pt ps) := by
  have := sumTickets_eq h ps 0
  rwa [show int32 0 = 0 by decide, Int.zero_add] at this

/-- **The two loops agree**: whatever the counter goes through, the walk has stopped by the time
it reaches a total above the winning number. -/
theorem winnerWalk_of_lt (pt : Ptable) (winner : Int) : ∀ (ps : List Slot) (counter : Int),
    counter ≤ winner → winner < sumTickets pt ps counter →
      ∃ p, (pt p).state = .runnable ∧ winnerWalk pt winner ps counter = some p
  | [], counter, hc, h => by simp only [sumTickets] at h; omega
  | p :: ps, counter, hc, h => by
    rw [sumTickets] at h
    rw [winnerWalk]
    by_cases hp : (pt p).state = .runnable
    · rw [if_pos hp] at h
      rw [if_neg (by simpa using hp)]
      dsimp only
      split
      · exact ⟨p, hp, rfl⟩
      · exact winnerWalk_of_lt pt winner ps _ (by omega) h
    · rw [if_neg hp] at h
      rw [if_pos hp]
      exact winnerWalk_of_lt pt winner ps counter hc h

theorem winnerWalk_runnable {winner : Int} : ∀ {ps : List Slot} {counter : Int}
    {p : Slot}, winnerWalk pt winner ps counter = some p → (pt p).state = .runnable
  | q :: ps, counter, p, h => by
    rw [winnerWalk] at h
    split at h
    · exact winnerWalk_runnable h
    · rename_i hq
      dsimp only at h
      split at h
      · cases h
        simpa using hq
      · exact winnerWalk_runnable h

/-- **An overflow shows**: when the integer total leaves the `int` range, the 32-bit total has
become negative on the way. -/
theorem sumTickets_overflow (h : TicketsOk pt) : ∀ (ps : List Slot) (total : Int),
    0 ≤ total → total ≤ intMax → intMax < total + ticketsOf pt ps →
      ∃ qs, qs <+: ps ∧ (∃ p ∈ qs, (pt p).state = .runnable) ∧ sumTickets pt qs total < 0
  | [], total, _, h1, h2 => by simp [ticketsOf] at h2; omega
  | p :: ps, total, h0, h1, h2 => by
    rw [ticketsOf_cons] at h2
    by_cases hp : (pt p).state = .runnable
    · rw [if_pos hp] at h2
      obtain ⟨ht, hpos, hle⟩ := h.tickets_eq hp
      by_cases hov : total + tickets pt p ≤ intMax
      · -- no overflow at this process: it comes later
        obtain ⟨qs, hqs, -, hneg⟩ := sumTickets_overflow h ps
          (total + tickets pt p) (by omega) hov (by push_cast at h2; omega)
        refine ⟨p :: qs, List.cons_prefix_cons.2 ⟨rfl, hqs⟩, ⟨p, List.mem_cons_self, hp⟩, ?_⟩
        rw [sumTickets, if_pos hp, ← ht, int32_of_range (by omega) hov]
        exact hneg
      · refine ⟨[p], List.cons_prefix_cons.2 ⟨rfl, List.nil_prefix⟩,
          ⟨p, List.mem_cons_self, hp⟩, ?_⟩
        rw [sumTickets, if_pos hp, sumTickets, ← ht]
        unfold int32 intMax at *
        omega
    · rw [if_neg hp] at h2
      obtain ⟨qs, hqs, ⟨q, hq, hqr⟩, hneg⟩ := sumTickets_overflow h ps total h0 h1 (by omega)
      refine ⟨p :: qs, List.cons_prefix_cons.2 ⟨rfl, hqs⟩, ⟨q, List.mem_cons_of_mem _ hq, hqr⟩, ?_⟩
      rw [sumTickets, if_neg hp]
      exact hneg

theorem sumTickets_pos (h : TicketsOk pt) {ps : List Slot} (hps : ps <+: slots)
    (hle : (ticketSum pt : Int) ≤ intMax) (hr : ∃ p ∈ ps, (pt p).state = .runnable) :
    0 < sumTickets pt ps 0 := by
  obtain ⟨qs, hqs⟩ := hps
  have hsplit : ticketSum pt = ticketsOf pt ps + ticketsOf pt qs := by
    rw [ticketSum_eq, ← hqs]
    simp [ticketsOf]
  have hpos := ticketsOf_pos h hr
  rw [sumTickets_zero h, int32_of_range (by omega) (by omega)]
  omega

/-! ## The sampler's loop -/

theorem rejectFrom_eq_mul : rejectFrom T = T * (65536 / T) := by
  have := Nat.div_add_mod 65536 T
  unfold rejectFrom
  omega

theorem rejectFrom_zero (h : 65536 < T) : rejectFrom T = 0 := by
  unfold rejectFrom
  rw [Nat.mod_eq_of_lt h]

theorem le_rejectFrom (h0 : 0 < T) (h : T ≤ 65536) : T ≤ rejectFrom T := by
  rw [rejectFrom_eq_mul]
  exact Nat.le_mul_of_pos_right T (Nat.div_pos h h0)

theorem drawLoop_reject (h : 65536 < T) : ∀ (fuel : Nat) (s : BitVec 16),
    drawLoop T fuel s = none
  | 0, _ => rfl
  | fuel + 1, s => by
    rw [drawLoop, if_pos (by rw [rejectFrom_zero h]; exact Nat.zero_le _)]
    exact drawLoop_reject h fuel (rand s)

theorem drawLoop_some : ∀ {k fuel : Nat} {s : BitVec 16}, k < fuel →
    (rand^[k + 1] s).toNat < rejectFrom T → ∃ d, drawLoop T fuel s = some d
  | k, fuel + 1, s, hk, h => by
    rw [drawLoop]
    split
    · rename_i hrej
      obtain ⟨k, rfl⟩ : ∃ k', k = k' + 1 := by
        cases k with
        | zero => simp only [iterate_succ, iterate_zero, comp_apply, id_eq] at h; omega
        | succ k => exact ⟨k, rfl⟩
      exact drawLoop_some (k := k) (by omega) (by rwa [iterate_succ_apply] at h)
    · exact ⟨_, rfl⟩

theorem drawLoop_mono : ∀ {fuel : Nat} {s : BitVec 16} {d : Draw} (m : Nat),
    drawLoop T fuel s = some d → drawLoop T (fuel + m) s = some { d with fuel := d.fuel + m }
  | fuel + 1, s, d, m, h => by
    rw [Nat.add_right_comm]
    rw [drawLoop] at h ⊢
    split at h
    · rename_i hr
      rw [if_pos hr]
      exact drawLoop_mono m h
    · rename_i hr
      rw [if_neg hr]
      cases h
      rfl

theorem drawLoop_value (hT : 0 < T) : ∀ {fuel : Nat} {s : BitVec 16} {d : Draw},
    drawLoop T fuel s = some d → 0 ≤ d.value ∧ d.value < T
  | fuel + 1, s, d, h => by
    rw [drawLoop] at h
    split at h
    · exact drawLoop_value hT h
    · cases h
      have := Nat.mod_lt (rand s).toNat hT
      dsimp only
      omega

/-- **The sampler ends** from every nonzero register for at most `65536` bins: the register comes
by the value `1`, which is accepted. -/
theorem drawLoop_ends (h2 : 2 ≤ T) (h : T ≤ 65536) (hs : s ≠ 0#16) :
    ∃ n, ∃ d : Draw, ∀ m, drawLoop T (n + m) s = some { d with fuel := d.fuel + m } := by
  obtain ⟨k, hk⟩ := exists_rand_iterate (rand_iterate_ne_zero hs 1) (t := 1#16) (by decide)
  have hacc : (rand^[k + 1] s).toNat < rejectFrom T := by
    have h1 : rand^[k + 1] s = 1#16 := hk
    have := le_rejectFrom (by omega) h
    rw [h1, show (1#16).toNat = 1 from rfl]
    omega
  obtain ⟨d, hd⟩ := drawLoop_some (Nat.lt_succ_self k) hacc
  exact ⟨k + 1, d, fun m => drawLoop_mono m hd⟩

theorem randomAtMost_ends (max : Int) (h : max < 65536) (hs : s ≠ 0#16) :
    ∃ n, ∃ d : Draw, ∀ m, randomAtMost max (n + m) s = some { d with fuel := d.fuel + m } := by
  unfold randomAtMost
  split
  · exact ⟨0, ⟨0, s, 0⟩, fun m => rfl⟩
  · exact drawLoop_ends (by omega) (by omega) hs

theorem randomAtMost_value {max : Int} (h : 0 ≤ max) {fuel : Nat} {d : Draw}
    (hd : randomAtMost max fuel s = some d) : 0 ≤ d.value ∧ d.value ≤ max := by
  unfold randomAtMost at hd
  split at hd
  · cases hd
    exact ⟨Int.le_refl 0, h⟩
  · have := drawLoop_value (by omega) hd
    omega

/-! ## The pass -/

/-- What a pass is for: the 32-bit total is positive from the first runnable process on, the pass
ends, and if some process is runnable it dispatches one, whatever the number of values `rand` may
still produce. -/
structure PassOk (pt : Ptable) (lfsr : BitVec 16) : Prop where
  positive : ∀ ps, ps <+: slots → (∃ p ∈ ps, (pt p).state = .runnable) → 0 < sumTickets pt ps 0
  ends : ∃ n, ∀ fuel ≥ n, (lottery pt fuel lfsr).isSome
  dispatches : (∃ p, (pt p).state = .runnable) → ∃ p, (pt p).state = .runnable ∧
    ∃ n, ∀ fuel ≥ n, (lottery pt fuel lfsr).map (·.winner) = some (some p)

theorem lottery_dispatches (pt : Ptable) (hs : s ≠ 0#16) (h0 : 0 < sumTickets pt slots 0)
    (h1 : sumTickets pt slots 0 ≤ 65536) :
    ∃ p, (pt p).state = .runnable ∧
      ∃ n, ∀ fuel ≥ n, (lottery pt fuel s).map (·.winner) = some (some p) := by
  have hsub : int32 (sumTickets pt slots 0 - 1) = sumTickets pt slots 0 - 1 :=
    int32_of_range (by omega) (by unfold intMax; omega)
  obtain ⟨n, d, hd⟩ := randomAtMost_ends (sumTickets pt slots 0 - 1) (by omega) hs
  have hv := randomAtMost_value (by omega) (hd 0)
  dsimp only at hv
  obtain ⟨p, hp, hw⟩ := winnerWalk_of_lt pt d.value slots 0 hv.1 (by omega)
  refine ⟨p, hp, n, fun fuel hf => ?_⟩
  obtain ⟨m, rfl⟩ := Nat.exists_eq_add_of_le hf
  unfold lottery
  dsimp only
  rw [if_pos h0, hsub, hd m]
  simp [hw]

theorem lottery_diverges (h : 65536 < sumTickets pt slots 0) (hle : sumTickets pt slots 0 ≤ intMax)
    (fuel : Nat) (s : BitVec 16) :
    lottery pt fuel s = none := by
  unfold lottery
  dsimp only
  rw [if_pos (by omega), int32_of_range (by unfold intMax at *; omega) (by omega)]
  unfold randomAtMost
  rw [if_neg (by omega), drawLoop_reject (by omega)]
  rfl

theorem lottery_idle (h : sumTickets pt slots 0 ≤ 0) (fuel : Nat) (s : BitVec 16) :
    lottery pt fuel s = some ⟨none, none, s, fuel⟩ := by
  unfold lottery
  dsimp only
  rw [if_neg (by omega)]

theorem ticketSum_pos (h : TicketsOk pt) {p : Slot} (hp : (pt p).state = .runnable) :
    0 < ticketSum pt :=
  ticketsOf_pos h ⟨p, mem_slots p, hp⟩

/-- **The pass does its work exactly for at most `65536` tickets.** For every table whose runnable
processes hold tickets that `allocproc` or `settickets` can give, and every nonzero register. -/
theorem passOk_iff {pt : Ptable} {lfsr : BitVec 16} (h : TicketsOk pt) (hs : lfsr ≠ 0#16) :
    PassOk pt lfsr ↔ ticketSum pt ≤ 65536 := by
  constructor
  · intro hok
    by_contra hgt
    by_cases hov : (ticketSum pt : Int) ≤ intMax
    · -- no overflow: the sampler rejects every value
      obtain ⟨n, hn⟩ := hok.ends
      have htot : sumTickets pt slots 0 = ticketSum pt := by
        rw [sumTickets_zero h, int32_of_range (by omega) (by rwa [← ticketSum_eq]), ticketSum_eq]
      have := hn n (Nat.le_refl _)
      rw [lottery_diverges (by omega) (by omega)] at this
      simp at this
    · obtain ⟨qs, hqs, hr, hneg⟩ := sumTickets_overflow h slots 0 (by decide)
        (by decide) (by rw [← ticketSum_eq]; omega)
      have := hok.positive qs hqs hr
      omega
  · intro hle
    have hint : (ticketSum pt : Int) ≤ intMax := by unfold intMax; omega
    have htot : sumTickets pt slots 0 = ticketSum pt := by
      rw [sumTickets_zero h, int32_of_range (by omega) (by rwa [← ticketSum_eq]), ticketSum_eq]
    refine ⟨fun ps hps hr => sumTickets_pos h hps hint hr, ?_, ?_⟩
    · by_cases hT : 0 < ticketSum pt
      · obtain ⟨p, -, n, hn⟩ := lottery_dispatches pt hs (by omega) (by omega)
        refine ⟨n, fun fuel hf => ?_⟩
        have := hn fuel hf
        rw [Option.map_eq_some_iff] at this
        obtain ⟨r, hr, -⟩ := this
        rw [hr]
        rfl
      · exact ⟨0, fun fuel _ => by rw [lottery_idle (by omega)]; rfl⟩
    · rintro ⟨p, hp⟩
      have := ticketSum_pos h hp
      exact lottery_dispatches pt hs (by omega) (by omega)

/-- The table whose first slots are runnable processes with the tickets `ts`. -/
def ticketTable (ts : List Int) : Ptable := fun p =>
  match ts[p.val]? with
  | some t => { state := .runnable, pid := p.val + 1, tickets := t }
  | none => {}

theorem ticketTable_ok {ts : List Int} (h : ∀ t ∈ ts, 0 < t ∧ t ≤ intMax) :
    TicketsOk (ticketTable ts) := by
  intro p hp
  unfold ticketTable at hp ⊢
  split at hp
  · rename_i t ht
    exact h t (List.mem_of_getElem? ht)
  · cases hp

/-- The shares of the second experiment of `schedtest`. -/
theorem passOk_experiment2 : PassOk (ticketTable [80, 10, 10, 10, 10, 10, 10, 10]) lfsrInit :=
  (passOk_iff (ticketTable_ok (by decide)) (by decide)).2 (by decide)

/-- `settickets(pid, 65537)` for the only runnable process stops the machine in the sampler; two
processes with `INT_MAX` tickets each are never dispatched. -/
theorem passOk_fails :
    (TicketsOk (ticketTable [65537]) ∧ ¬ PassOk (ticketTable [65537]) lfsrInit) ∧
      TicketsOk (ticketTable [2147483647, 2147483647]) ∧
      ¬ PassOk (ticketTable [2147483647, 2147483647]) lfsrInit := by
  refine ⟨⟨ticketTable_ok (by decide), fun hok => ?_⟩, ticketTable_ok (by decide), fun hok => ?_⟩
  · obtain ⟨n, hn⟩ := hok.ends
    have := hn n (Nat.le_refl _)
    rw [lottery_diverges (by decide) (by decide)] at this
    cases this
  · obtain ⟨p, -, n, hn⟩ := hok.dispatches ⟨0, by decide⟩
    have := hn n (Nat.le_refl _)
    rw [lottery_idle (by decide)] at this
    cases this

end Xv6
