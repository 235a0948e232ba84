import Xv6.Sched.Proof.LotteryPass
import Xv6.Lib.Pick
import Mathlib.Algebra.Order.BigOperators.Group.List

/-!
# The shares of the lottery

For a table whose runnable processes hold `T` tickets, `2 ≤ T ≤ 65536`, a pass is the picking by
running sums of `Lib.Pick` at an accepted value of `rand`, reduced modulo `T` (`lottery_eq`). A
full period of `rand` returns `1, …, 65535`, each once; the accepted ones are those below
`T * (65536 / T)`. So over a full period each process wins as often as it holds tickets, times
`65536 / T`, but for the one value `0` that `rand` never returns: the owner of ticket `0` wins once
less (`share_exact`). For `T > 32768` that was the only value for ticket `0`, and a process with no
other ticket never runs (`selected_iff`).
-/

namespace Xv6

open Lib Function

variable {pt : Ptable} {T n : Nat} {s : BitVec 16} {p : Slot}

/-! ## A pass as a pick -/

theorem ticketsOk_of_pos (h : ∀ p, (pt p).state = .runnable → 0 < (pt p).tickets)
    (hT : ticketSum pt ≤ 65536) : TicketsOk pt := by
  intro p hp
  refine ⟨h p hp, ?_⟩
  have hm : tickets pt p ∈ (runnable pt).map (tickets pt) :=
    List.mem_map_of_mem (List.mem_filter.2 ⟨mem_slots p, by simpa using hp⟩)
  have hle : tickets pt p ≤ ticketSum pt := List.le_sum_of_mem hm
  unfold tickets intMax at *
  omega

theorem winnerWalk_eq_pick (h : TicketsOk pt) : ∀ (ps : List Slot) (c r : Nat),
    c ≤ r → ((c + ticketsOf pt ps : Nat) : Int) ≤ intMax →
      winnerWalk pt r ps c =
        pick (tickets pt) (ps.filter fun p => (pt p).state = .runnable) (r - c)
  | [], _, _, _, _ => rfl
  | p :: ps, c, r, hc, hle => by
    rw [ticketsOf_cons] at hle
    rw [winnerWalk]
    by_cases hp : (pt p).state = .runnable
    · rw [if_pos hp] at hle
      rw [if_neg (by simpa using hp), List.filter_cons_of_pos (by simpa using hp), pick]
      dsimp only
      rw [← (h.tickets_eq hp).1, int32_of_range (by omega) (by omega)]
      by_cases hlt : r - c < tickets pt p
      · rw [if_pos (by omega), if_pos hlt]
      · rw [if_neg (by omega), if_neg hlt, Nat.sub_sub, ← Int.natCast_add,
          winnerWalk_eq_pick h ps (c + tickets pt p) r (by omega) (by omega)]
    · rw [if_neg hp] at hle
      rw [if_pos hp, List.filter_cons_of_neg (by simpa using hp)]
      exact winnerWalk_eq_pick h ps c r hc (by omega)

/-- **A pass picks by running sums** at the number drawn. -/
theorem lottery_eq (h : TicketsOk pt) (h0 : 0 < ticketSum pt) (hT : ticketSum pt ≤ 65536)
    (fuel : Nat) (s : BitVec 16) :
    lottery pt fuel s = (randomAtMost (ticketSum pt - 1) fuel s).map fun d =>
      ⟨some d.value, pick (tickets pt) (runnable pt) d.value.toNat, d.lfsr, d.fuel⟩ := by
  have hint : (ticketSum pt : Int) ≤ intMax := by unfold intMax; omega
  have htot : sumTickets pt slots 0 = ticketSum pt := by
    rw [sumTickets_zero h, int32_of_range (by omega) (by rwa [← ticketSum_eq]), ticketSum_eq]
  unfold lottery
  dsimp only
  rw [htot, if_pos (by omega), int32_of_range (by omega) (by omega)]
  cases hd : randomAtMost (ticketSum pt - 1) fuel s with
  | none => rfl
  | some d =>
    have hv := randomAtMost_value (by omega) hd
    have hw := winnerWalk_eq_pick h slots 0 d.value.toNat (Nat.zero_le _)
      (by rw [Nat.zero_add]; exact hint)
    rw [Int.toNat_of_nonneg hv.1, Nat.sub_zero, Int.natCast_zero] at hw
    simp only [Option.map_some, hw, runnable]

/-! ## The accepted values -/

theorem randValues_succ (n : Nat) (s : BitVec 16) :
    randValues (n + 1) s = (rand s).toNat :: randValues n (rand s) := by
  unfold randValues
  rw [List.range_succ_eq_map, List.map_cons, List.map_map]
  rfl

/-- The values among the next `n` of `rand` that a draw from `T` bins accepts. -/
def accepted (T n : Nat) (s : BitVec 16) : List Nat :=
  (randValues n s).filter fun v => v < rejectFrom T

theorem accepted_succ (T n : Nat) (s : BitVec 16) :
    accepted T (n + 1) s = if (rand s).toNat < rejectFrom T then
      (rand s).toNat :: accepted T n (rand s) else accepted T n (rand s) := by
  unfold accepted
  rw [randValues_succ, List.filter_cons]
  simp

theorem drawLoop_none : ∀ {n : Nat} {s : BitVec 16}, drawLoop T n s = none →
    accepted T n s = []
  | 0, _, _ => rfl
  | n + 1, s, h => by
    rw [drawLoop] at h
    split at h
    · rename_i hr
      rw [accepted_succ, if_neg (by omega)]
      exact drawLoop_none h
    · cases h

theorem drawLoop_accepted : ∀ {n : Nat} {s : BitVec 16} {d : Draw},
    drawLoop T n s = some d → d.fuel < n ∧
      ∃ v, accepted T n s = v :: accepted T d.fuel d.lfsr ∧ d.value = (v % T : Nat)
  | n + 1, s, d, h => by
    rw [drawLoop] at h
    split at h
    · rename_i hr
      obtain ⟨hlt, v, hv, hd⟩ := drawLoop_accepted h
      refine ⟨by omega, v, ?_, hd⟩
      rw [accepted_succ, if_neg (by omega), hv]
    · rename_i hr
      cases h
      refine ⟨Nat.lt_succ_self _, (rand s).toNat, ?_, rfl⟩
      rw [accepted_succ, if_pos (by omega)]

/-! ## The rounds of a budget of values -/

theorem Rounds.unique {rs rs' : List Pass} (hr : Rounds pt n s rs) (hr' : Rounds pt n s rs') :
    rs' = rs := by
  induction hr generalizing rs' with
  | stop hn =>
    cases hr' with
    | stop => rfl
    | round hn' => rw [hn] at hn'; cases hn'
  | round hn _ ih =>
    cases hr' with
    | stop hn' => rw [hn] at hn'; cases hn'
    | round hn' hrest =>
      rw [hn] at hn'
      cases hn'
      rw [ih hrest]

section
variable {pt : Ptable} (h : TicketsOk pt) (h2 : 2 ≤ ticketSum pt) (hT : ticketSum pt ≤ 65536)
include h h2 hT

theorem lottery_draw (n : Nat) (s : BitVec 16) :
    lottery pt n s = (drawLoop (ticketSum pt) n s).map fun d =>
      ⟨some d.value, pick (tickets pt) (runnable pt) d.value.toNat, d.lfsr, d.fuel⟩ := by
  rw [lottery_eq h (by omega) hT]
  unfold randomAtMost
  rw [if_neg (by omega), show ((ticketSum pt : Int) - 1 + 1).toNat = ticketSum pt by omega]

theorem exists_rounds (n : Nat) (s : BitVec 16) : ∃ rs, Rounds pt n s rs := by
  induction n using Nat.strongRecOn generalizing s with
  | _ n ih =>
    cases hd : drawLoop (ticketSum pt) n s with
    | none => exact ⟨[], .stop (by rw [lottery_draw h h2 hT, hd]; rfl)⟩
    | some d =>
      obtain ⟨rs, hrs⟩ := ih d.fuel (drawLoop_accepted hd).1 d.lfsr
      exact ⟨_ :: rs, .round (by rw [lottery_draw h h2 hT, hd]; rfl) hrs⟩

/-- **The rounds are the accepted values**, each reduced modulo the total and given to its
owner. -/
theorem Rounds.eq_accepted {rs : List Pass} (hr : Rounds pt n s rs) :
    rs.map (fun r => (r.draw, r.winner)) = (accepted (ticketSum pt) n s).map fun v =>
      (some ((v % ticketSum pt : Nat) : Int),
        pick (tickets pt) (runnable pt) (v % ticketSum pt)) := by
  induction hr with
  | stop hn =>
    rw [lottery_draw h h2 hT, Option.map_eq_none_iff] at hn
    rw [drawLoop_none hn]
    rfl
  | round hn _ ih =>
    rw [lottery_draw h h2 hT, Option.map_eq_some_iff] at hn
    obtain ⟨d, hd, rfl⟩ := hn
    obtain ⟨-, v, hv, hval⟩ := drawLoop_accepted hd
    rw [hv, List.map_cons, List.map_cons, ih, hval, Int.toNat_natCast]

end

/-! ## Counting over a full period -/

theorem countP_range_lt {P : Nat → Bool} {m : Nat} (h : m ≤ n) :
    (List.range n).countP (fun v => decide (v < m) && P v) = (List.range m).countP P := by
  obtain ⟨k, rfl⟩ := Nat.exists_eq_add_of_le h
  rw [List.range_add, List.countP_append, List.countP_map]
  have h0 : (List.range k).countP ((fun v => decide (v < m) && P v) ∘ fun x => m + x) = 0 := by
    rw [List.countP_eq_zero]
    intro v _
    simp
  have h1 : (List.range m).countP (fun v => decide (v < m) && P v) =
      (List.range m).countP P := by
    apply List.countP_congr
    intro v hv
    simp [List.mem_range.1 hv]
  rw [h0, h1, Nat.add_zero]

theorem countP_accepted (h0 : 0 < T) (hT : T ≤ 65536) (hs : s ≠ 0#16) (P : Nat → Bool) :
    (accepted T 65535 s).countP (fun v => P (v % T)) + (if P 0 then 1 else 0) =
      65536 / T * (List.range T).countP P := by
  have hle : rejectFrom T ≤ 65536 := Nat.sub_le _ _
  have hpos : 0 < rejectFrom T := Nat.lt_of_lt_of_le h0 (le_rejectFrom h0 hT)
  have hperm : (accepted T 65535 s).countP (fun v => P (v % T)) =
      (List.range' 1 65535).countP (fun v => decide (v < rejectFrom T) && P (v % T)) := by
    unfold accepted
    rw [List.countP_filter, (rand_values_perm hs).countP_eq]
    apply List.countP_congr
    intro v _
    rw [Bool.and_comm]
  have hrange : List.range 65536 = 0 :: List.range' 1 65535 := by
    rw [List.range_eq_range', List.range'_succ]
  have hcount := countP_range_lt (P := fun v => P (v % T)) hle
  rw [hrange, List.countP_cons, rejectFrom_eq_mul, countP_mod, ← rejectFrom_eq_mul] at hcount
  rw [hperm, ← hcount, decide_eq_true hpos, Bool.true_and, Nat.zero_mod]

/-! ## The owner of ticket `0` -/

theorem mem_runnable : p ∈ runnable pt ↔ (pt p).state = .runnable := by
  simp [runnable, mem_slots]

theorem runnable_sorted (pt : Ptable) : (runnable pt).Pairwise (· < ·) :=
  (List.pairwise_lt_finRange nproc).filter _

theorem runnable_nodup (pt : Ptable) : (runnable pt).Nodup := nodup_slots.filter _

theorem lowest_iff_head : Lowest pt p ↔ (runnable pt).head? = some p := by
  have hsort := runnable_sorted pt
  have hmem : ∀ q, q ∈ runnable pt ↔ (pt q).state = .runnable := fun q => mem_runnable
  unfold Lowest
  rw [← hmem p]
  cases hr : runnable pt with
  | nil => simp
  | cons a l =>
    rw [hr] at hsort hmem
    rw [List.head?_cons, Option.some.injEq]
    have ha := (List.pairwise_cons.1 hsort).1
    constructor
    · rintro ⟨hp, hmin⟩
      have hpa := hmin a ((hmem a).1 List.mem_cons_self)
      rcases List.mem_cons.1 hp with rfl | hp
      · rfl
      · exact absurd (ha p hp) (Nat.not_lt.2 hpa)
    · rintro rfl
      refine ⟨List.mem_cons_self, fun q hq => ?_⟩
      rcases List.mem_cons.1 ((hmem q).2 hq) with rfl | hq
      · exact Nat.le_refl _
      · exact Nat.le_of_lt (ha q hq)

theorem pick_zero_iff (h : TicketsOk pt) :
    pick (tickets pt) (runnable pt) 0 = some p ↔ Lowest pt p := by
  rw [lowest_iff_head]
  cases hr : runnable pt with
  | nil => simp [pick]
  | cons a l =>
    have ha : (pt a).state = .runnable := mem_runnable.1 (by rw [hr]; exact List.mem_cons_self)
    rw [pick_zero (h.tickets_eq ha).2.1, List.head?_cons]

instance (pt : Ptable) : DecidablePred (Lowest pt) := fun p =>
  inferInstanceAs (Decidable ((pt p).state = .runnable ∧ ∀ q, (pt q).state = .runnable → p ≤ q))

/-! ## The results -/

/-- **Exact proportional share.** Over a table that stays fixed, from any nonzero register, the
rounds run until `rand` has produced `65535` values draw numbers below the total, dispatch one
runnable process each, and are won by a process as often as it holds tickets times `65536 / T`,
once less for the owner of ticket `0`. -/
theorem share_exact (pt : Ptable)
    (hpos : ∀ p, (pt p).state = .runnable → 0 < (pt p).tickets) (h2 : 2 ≤ ticketSum pt)
    (hT : ticketSum pt ≤ 65536) (s : BitVec 16) (hs : s ≠ 0#16) :
    ∃ rs, Rounds pt 65535 s rs ∧ (∀ rs', Rounds pt 65535 s rs' → rs' = rs) ∧
      (∀ r ∈ rs, (∃ v : Int, r.draw = some v ∧ 0 ≤ v ∧ v ≤ ticketSum pt - 1) ∧
        ∃ p, (pt p).state = .runnable ∧ r.winner = some p) ∧
      ∀ p, (pt p).state = .runnable →
        rs.countP (fun r => r.winner = some p) + (if Lowest pt p then 1 else 0) =
          tickets pt p * (65536 / ticketSum pt) := by
  have h := ticketsOk_of_pos hpos hT
  obtain ⟨rs, hrs⟩ := exists_rounds h h2 hT 65535 s
  have heq := Rounds.eq_accepted h h2 hT hrs
  refine ⟨rs, hrs, fun rs' => Rounds.unique hrs, fun r hr => ?_, fun p hp => ?_⟩
  · have hm : (r.draw, r.winner) ∈ rs.map fun r => (r.draw, r.winner) :=
      List.mem_map_of_mem (f := fun r : Pass => (r.draw, r.winner)) hr
    rw [heq] at hm
    obtain ⟨v, -, hv⟩ := List.mem_map.1 hm
    simp only [Prod.mk.injEq] at hv
    have hlt := Nat.mod_lt v (show 0 < ticketSum pt by omega)
    obtain ⟨p, hp, hpick⟩ := pick_of_lt (w := tickets pt) (l := runnable pt) hlt
    exact ⟨⟨_, hv.1.symm, by omega, by omega⟩, p, mem_runnable.1 hp, hv.2.symm.trans hpick⟩
  · have hcount : rs.countP (fun r => r.winner = some p) =
        (accepted (ticketSum pt) 65535 s).countP
          (fun v => pick (tickets pt) (runnable pt) (v % ticketSum pt) = some p) := by
      have := congrArg (List.countP fun x => decide (x.2 = some p)) heq
      rw [List.countP_map, List.countP_map] at this
      exact this
    have hper := countP_accepted (T := ticketSum pt) (by omega) hT hs
      fun r => pick (tickets pt) (runnable pt) r = some p
    have hown := countP_pick (w := tickets pt) (a := p) (runnable_nodup pt)
    rw [if_pos (mem_runnable.2 hp)] at hown
    simp only [decide_eq_true_eq, pick_zero_iff h] at hper
    rw [hcount, hper, Nat.mul_comm]
    exact congrArg (· * _) hown

/-- The shares of the second experiment of `schedtest`: the process with `80` of the `150` tickets
owns ticket `0`. -/
theorem share_experiment2 :
    ∃ rs, Rounds (ticketTable [80, 10, 10, 10, 10, 10, 10, 10]) 65535 lfsrInit rs ∧
      rs.countP (fun r => r.winner = some 0) = 34879 ∧
      rs.countP (fun r => r.winner = some 7) = 4360 := by
  obtain ⟨rs, hrs, -, -, hcount⟩ := share_exact (ticketTable [80, 10, 10, 10, 10, 10, 10, 10])
    (fun p hp => (ticketTable_ok (by decide) p hp).1) (by decide) (by decide) lfsrInit (by decide)
  have h0 := hcount 0 (by decide)
  have h7 := hcount 7 (by decide)
  rw [if_pos (by decide), show tickets _ 0 * (65536 / ticketSum _) = 34880 by decide] at h0
  rw [if_neg (by decide), show tickets _ 7 * (65536 / ticketSum _) = 4360 by decide] at h7
  exact ⟨rs, hrs, by omega, by omega⟩

/-! ## Starvation -/

/-- Some state of the generator lets `p` win. -/
def Selected (pt : Ptable) (p : Slot) : Prop :=
  ∃ k fuel r, lottery pt fuel (rand^[k] lfsrInit) = some r ∧ r.winner = some p

theorem selected_of_value (h : TicketsOk pt) (h2 : 2 ≤ ticketSum pt) (hT : ticketSum pt ≤ 65536)
    {v : Nat} (h0 : v ≠ 0) (hv : v < rejectFrom (ticketSum pt))
    (hp : pick (tickets pt) (runnable pt) (v % ticketSum pt) = some p) : Selected pt p := by
  have hv16 : v < 65536 := Nat.lt_of_lt_of_le hv (Nat.sub_le _ _)
  have hto : (BitVec.ofNat 16 v).toNat = v := by
    rw [BitVec.toNat_ofNat, Nat.mod_eq_of_lt hv16]
  have hne : BitVec.ofNat 16 v ≠ 0#16 := by
    intro h
    rw [h] at hto
    exact h0 hto.symm
  obtain ⟨k, hk⟩ := exists_rand_iterate (s := rand lfsrInit) (by decide) hne
  have hr : rand (rand^[k] lfsrInit) = BitVec.ofNat 16 v := by
    rw [← hk, ← iterate_succ_apply, iterate_succ_apply']
  have hdraw : drawLoop (ticketSum pt) 1 (rand^[k] lfsrInit) =
      some ⟨(v % ticketSum pt : Nat), BitVec.ofNat 16 v, 0⟩ := by
    rw [drawLoop, hr, hto, if_neg (by omega)]
  refine ⟨k, 1, ⟨some (v % ticketSum pt : Nat), some p, BitVec.ofNat 16 v, 0⟩, ?_, rfl⟩
  rw [lottery_draw h h2 hT, hdraw, Option.map_some, Int.toNat_natCast, hp]

theorem exists_ticket (h : TicketsOk pt) (hp : (pt p).state = .runnable) :
    ∃ r < ticketSum pt, pick (tickets pt) (runnable pt) r = some p := by
  have hown := countP_pick (w := tickets pt) (a := p) (runnable_nodup pt)
  rw [if_pos (mem_runnable.2 hp)] at hown
  have hpos := (h.tickets_eq hp).2.1
  rw [← hown, List.countP_pos_iff] at hpos
  obtain ⟨r, hr, hpick⟩ := hpos
  exact ⟨r, List.mem_range.1 hr, by simpa using hpick⟩

theorem pick_lowest (hp : Lowest pt p) {r : Nat} :
    r < tickets pt p ↔ pick (tickets pt) (runnable pt) r = some p := by
  have hnd := runnable_nodup pt
  rw [lowest_iff_head] at hp
  cases hr : runnable pt with
  | nil => rw [hr] at hp; cases hp
  | cons a l =>
    rw [hr, List.head?_cons, Option.some.injEq] at hp
    subst hp
    rw [hr] at hnd
    unfold pick
    split
    · simp_all
    · rename_i hlt
      refine ⟨fun h => absurd h hlt, fun h => ?_⟩
      exact absurd (pick_mem h) (List.nodup_cons.1 hnd).1

theorem not_selected (h : TicketsOk pt) (hT : ticketSum pt ≤ 65536) (hbig : 32768 < ticketSum pt)
    (hlow : Lowest pt p) (hone : tickets pt p < 2) :
    ¬ Selected pt p := by
  rintro ⟨k, fuel, r, hr, hw⟩
  rw [lottery_draw h (by omega) hT, Option.map_eq_some_iff] at hr
  obtain ⟨d, hd, rfl⟩ := hr
  dsimp only at hw
  obtain ⟨-, v, hv, hval⟩ := drawLoop_accepted hd
  have hmem : v ∈ accepted (ticketSum pt) fuel (rand^[k] lfsrInit) := by
    rw [hv]
    exact List.mem_cons_self
  obtain ⟨hmem, hrej⟩ := List.mem_filter.1 hmem
  obtain ⟨j, -, rfl⟩ := List.mem_map.1 hmem
  have hne : (rand^[j + 1] (rand^[k] lfsrInit)).toNat ≠ 0 := fun h0 =>
    rand_iterate_ne_zero (rand_iterate_ne_zero (by decide) k) (j + 1) (BitVec.eq_of_toNat_eq h0)
  have hq : 65536 / ticketSum pt ≤ 1 := by
    have : 65536 / ticketSum pt < 2 := (Nat.div_lt_iff_lt_mul (by omega)).2 (by omega)
    omega
  -- the value is its own residue
  have hlt : (rand^[j + 1] (rand^[k] lfsrInit)).toNat < ticketSum pt := by
    have := Nat.mul_le_mul_left (ticketSum pt) hq
    rw [← rejectFrom_eq_mul] at this
    simp only [decide_eq_true_eq] at hrej
    omega
  rw [hval, Int.toNat_natCast, Nat.mod_eq_of_lt hlt] at hw
  have := (pick_lowest hlow).2 hw
  omega

/-- **Who can starve.** For every table with at most `65536` tickets, a runnable process is
selected from some register exactly if there are at most `32768` tickets, or it does not own ticket
`0`, or owns another one too. -/
theorem selected_iff {pt : Ptable} (hpos : ∀ p, (pt p).state = .runnable → 0 < (pt p).tickets)
    (hT : ticketSum pt ≤ 65536) {p : Slot} (hp : (pt p).state = .runnable) :
    Selected pt p ↔ ticketSum pt ≤ 32768 ∨ ¬ Lowest pt p ∨ 2 ≤ tickets pt p := by
  have h := ticketsOk_of_pos hpos hT
  have h0 := ticketSum_pos h hp
  constructor
  · intro hsel
    by_contra hcon
    simp only [not_or, not_le, not_not] at hcon
    exact not_selected h hT hcon.1 hcon.2.1 hcon.2.2 hsel
  · intro hcond
    by_cases h1 : ticketSum pt = 1
    · -- a single ticket: nothing is drawn
      obtain ⟨r, hr, hpick⟩ := exists_ticket h hp
      refine ⟨0, 0, ⟨some 0, some p, lfsrInit, 0⟩, ?_, rfl⟩
      rw [lottery_eq h h0 hT, h1]
      rw [show r = 0 by omega] at hpick
      simp [randomAtMost, hpick]
    · obtain ⟨r, hr, hpick⟩ := exists_ticket h hp
      have hrej := le_rejectFrom h0 hT
      by_cases hlow : Lowest pt p
      · rcases hcond with hle | hn | h2
        · -- ticket `0` is drawn at the value `T`, in the second period below the threshold
          refine selected_of_value h (by omega) hT (v := ticketSum pt) (by omega) ?_ ?_
          · have hq : 2 ≤ 65536 / ticketSum pt := (Nat.le_div_iff_mul_le h0).2 (by omega)
            have := Nat.mul_le_mul_left (ticketSum pt) hq
            rw [rejectFrom_eq_mul]
            omega
          · rw [Nat.mod_self]
            exact (pick_zero_iff h).2 hlow
        · exact absurd hlow hn
        · refine selected_of_value h (by omega) hT (v := 1) (by omega) (by omega) ?_
          rw [Nat.mod_eq_of_lt (by omega)]
          exact (pick_lowest hlow).1 (by omega)
      · have hr0 : r ≠ 0 := by
          rintro rfl
          exact hlow ((pick_zero_iff h).1 hpick)
        refine selected_of_value h (by omega) hT hr0 (by omega) ?_
        rw [Nat.mod_eq_of_lt hr]
        exact hpick

/-- The process with one ticket of the fourth experiment of `schedtest` is not starved. -/
theorem selected_experiment4 :
    Selected (ticketTable [1, 100, 100, 100, 100, 100, 100, 100]) 0 :=
  (selected_iff (fun p hp => (ticketTable_ok (by decide) p hp).1) (by decide) (by decide)).2
    (by decide)

/-- A process with one ticket in the first slot, beside one with `32768`, is starved. -/
theorem selected_fails : (ticketTable [1, 32768] 0).state = .runnable ∧
    ticketSum (ticketTable [1, 32768]) = 32769 ∧ ¬ Selected (ticketTable [1, 32768]) 0 :=
  ⟨by decide, by decide, not_selected (ticketTable_ok (by decide)) (by decide) (by decide)
    (by decide) (by decide)⟩

end Xv6
