import Xv6.Kernel.Ticks

/-!
# How long `sys_sleep` sleeps

For `n ≥ 0` the unsigned comparison of the loop is the one of the integers, also when `ticks` wraps:
the process is asleep only while less than `n` ticks have passed, and when it is woken after that it
returns. A negative `n` is taken for a number of at least `2 ^ 31`.
-/

namespace Xv6.Ticks

open Lib Function

/-- The actions of `p` outside of `sys_sleep`. -/
def Act.outside (p : Slot) : Act → Prop
  | .sysSleep q _ | .other q _ => q = p
  | _ => False

/-- `sys_sleep` returns when `p` is next run. -/
def ReturnsNext (s : State) (p : Slot) : Prop :=
  ∃ as s', (as = [.run p] ∨ as = [.dispatch p, .run p]) ∧ run step s as = some s' ∧ s'.pc p = .out 0

/-- What `sys_sleep(n)`, called by `p` in `s`, is to do: return at once for `n ≤ 0`; and after any
steps with less than `2 ^ 31` ticks, as long as `p` is not killed, still be in the loop if less than
`n` ticks have passed, and otherwise have returned 0 or be on the way to it. -/
def SleepExact (s : State) (p : Slot) (n : Int) : Prop :=
  ∀ s₀, step s (.sysSleep p n) = some s₀ →
    (n ≤ 0 → s₀.pc p = .out 0) ∧
    ∀ as s', run step s₀ as = some s' → (∀ a ∈ as, ¬ a.outside p) → (s'.proc p).killed = false →
      ticksIn as < 2 ^ 31 →
      ((ticksIn as : Int) < n → s'.pc p = .loop n s.ticks) ∧
      (n ≤ ticksIn as → s'.pc p = .out 0 ∨ ReturnsNext s' p)

theorem waits_iff {n : Int} (h0 : 0 ≤ n) (hmax : n ≤ intMax) (t : BitVec 32)
    {k : Nat} (hk : k < 2 ^ 31) :
    waits (t + BitVec.ofNat 32 k) t n = true ↔ (k : Int) < n := by
  have hsub : t + BitVec.ofNat 32 k - t = BitVec.ofNat 32 k := by
    rw [BitVec.add_comm, BitVec.add_sub_cancel]
  unfold intMax at hmax
  rw [waits, decide_eq_true_iff, hsub, BitVec.lt_def, BitVec.toNat_ofNat, BitVec.toNat_ofInt]
  omega

theorem waits_neg {n : Int} (h0 : n < 0) (hmin : -2147483648 ≤ n) (t : BitVec 32) :
    waits t t n = true := by
  rw [waits, decide_eq_true_iff, BitVec.sub_self, BitVec.lt_def, BitVec.toNat_ofInt]
  simp
  omega

/-- `p` is in the call with `k` ticks passed since `t`: asleep, it still has to wait. -/
structure InLoop (p : Slot) (n : Int) (t : BitVec 32) (k : Nat) (s : State) : Prop where
  pc : s.pc p = .loop n t
  asleep : (s.proc p).state = .sleeping → (s.proc p).chan = some .ticks ∧ (k : Int) < n
  ready : (s.proc p).state ≠ .sleeping → (s.proc p).state = .runnable ∨ (s.proc p).state = .running

/-- After `k` ticks: in the loop, or returned in time. -/
def After (p : Slot) (n : Int) (t : BitVec 32) (k : Nat) (s : State) : Prop :=
  s.ticks = t + BitVec.ofNat 32 k ∧
    ((s.proc p).killed = false → InLoop p n t k s ∨ s.pc p = .out 0 ∧ n ≤ k)

section
variable {p q : Slot} {n : Int} {t : BitVec 32} {k : Nat} {s s' : State}

theorem kill_at (pid : Int) (pt : Ptable) (p : Slot) :
    (kill pid pt).2 p = pt p ∨ ((kill pid pt).2 p).killed = true := by
  unfold kill
  split
  · rename_i q _
    rcases eq_or_ne p q with rfl | hq
    · exact .inr (by simp [killProc])
    · exact .inl (update_of_ne hq _ _)
  · exact .inl rfl

theorem After.frame (h : After p n t k s) (ht : s'.ticks = s.ticks) (hproc : s'.proc p = s.proc p)
    (hpc : s'.pc p = s.pc p) : After p n t k s' := by
  refine ⟨ht.trans h.1, fun hk => ?_⟩
  rw [hproc] at hk
  rcases h.2 hk with ⟨hl, ha, hr⟩ | ho
  · exact .inl ⟨hpc.trans hl, hproc ▸ ha, hproc ▸ hr⟩
  · exact .inr (hpc ▸ ho)

theorem After.awake (h : After p n t k s) (ht : s'.ticks = s.ticks) (hpc : s'.pc p = s.pc p)
    (hkill : (s'.proc p).killed = (s.proc p).killed)
    (hst : (s'.proc p).state = .runnable ∨ (s'.proc p).state = .running) : After p n t k s' := by
  refine ⟨ht.trans h.1, fun hk => ?_⟩
  rw [hkill] at hk
  rcases h.2 hk with ⟨hl, -, -⟩ | ho
  · refine .inl ⟨hpc.trans hl, fun hsl => ?_, fun _ => hst⟩
    rcases hst with hst | hst <;> rw [hst] at hsl <;> cases hsl
  · exact .inr (hpc ▸ ho)

theorem test_ticks (s : State) (p : Slot) (n : Int) (t : BitVec 32) :
    (test s p n t).ticks = s.ticks := by
  unfold test
  split
  · split <;> rfl
  · rfl

theorem test_killed (s : State) (p : Slot) (n : Int) (t : BitVec 32) :
    ((test s p n t).proc p).killed = (s.proc p).killed := by
  unfold test
  split
  · split
    · rfl
    · simp [State.setPc, State.setProc]
  · rfl

theorem test_of_ne (h : p ≠ q) (s : State) (n : Int) (t : BitVec 32) :
    (test s q n t).proc p = s.proc p ∧ (test s q n t).pc p = s.pc p := by
  unfold test
  split
  · split
    · exact ⟨rfl, update_of_ne h _ _⟩
    · exact ⟨update_of_ne h _ _, update_of_ne h _ _⟩
  · exact ⟨rfl, update_of_ne h _ _⟩

variable (h0 : 0 ≤ n) (hmax : n ≤ intMax) (hlt : k < 2 ^ 31)
include h0 hmax hlt

/-- **One turn of the loop** after `k` ticks. -/
theorem test_after (ht : s.ticks = t + BitVec.ofNat 32 k) : After p n t k (test s p n t) := by
  refine ⟨(test_ticks s p n t).trans ht, fun hk => ?_⟩
  have hw := waits_iff h0 hmax t hlt
  rw [← ht] at hw
  unfold test at hk ⊢
  split
  · rename_i hwait
    rw [if_pos hwait] at hk
    split
    · rename_i hkilled
      rw [if_pos hkilled] at hk
      rw [show (s.proc p).killed = false from hk] at hkilled
      cases hkilled
    · refine .inl ⟨update_self .., fun _ => ⟨?_, hw.1 hwait⟩, fun hn => ?_⟩
      · simp [State.setPc, State.setProc]
      · exact absurd (by simp [State.setPc, State.setProc]) hn
  · rename_i hwait
    exact .inr ⟨update_self .., by rw [hw] at hwait; omega⟩

omit h0 hmax hlt in
theorem timer_after (h : After p n t k s) :
    After p n t (k + 1) { s with ticks := s.ticks + 1, proc := wakeup1 .ticks s.proc } := by
  refine ⟨?_, fun hk => ?_⟩
  · rw [BitVec.ofNat_add, ← BitVec.add_assoc, ← h.1]
    rfl
  · have hkill : (s.proc p).killed = false := by
      unfold wakeup1 at hk
      dsimp only at hk
      split at hk <;> exact hk
    rcases h.2 hkill with ⟨hl, ha, hr⟩ | ⟨ho, hle⟩
    · refine .inl ⟨hl, fun hsl => ?_, fun hn => ?_⟩
      · obtain ⟨hst, hch⟩ := wakeup1_sleeping hsl
        exact absurd (ha hst).1 hch
      · dsimp only [wakeup1] at hn ⊢
        split at hn
        · rename_i hc
          rw [if_pos hc]
          exact .inl rfl
        · rename_i hc
          rw [if_neg hc]
          exact hr hn
    · exact .inr ⟨ho, by omega⟩

theorem step_after {a : Act} (h : After p n t k s) (ha : ¬ a.outside p) (hs : step s a = some s') :
    After p n t (k + if a = .timer 0 then 1 else 0) s' := by
  cases a with
  | sysSleep q m =>
    simp only [step] at hs
    split at hs <;> [split at hs; skip] <;> cases hs
    obtain ⟨h1, h2⟩ := test_of_ne (Ne.symm ha) s m s.ticks
    exact h.frame (test_ticks ..) h1 h2
  | timer c =>
    simp only [step] at hs
    split at hs <;> cases hs
    · rename_i hc
      subst hc
      simpa using timer_after h
    · rename_i hc
      simpa [hc] using h
  | dispatch q =>
    simp only [step] at hs
    split at hs <;> [skip; cases hs]
    rcases eq_or_ne p q with rfl | hq
    · split at hs <;> cases hs <;> refine h.awake rfl rfl ?_ (.inr ?_) <;> simp [State.setProc]
    · split at hs <;> cases hs <;> exact h.frame rfl (update_of_ne hq _ _) rfl
  | run q =>
    simp only [step] at hs
    split at hs <;> [cases hs; split at hs] <;> cases hs
    rename_i m t' hpc hst
    rcases eq_or_ne p q with rfl | hq
    · cases hk : (s.proc p).killed with
      | true =>
        refine ⟨(test_ticks ..).trans h.1, fun hk' => ?_⟩
        rw [test_killed, hk] at hk'
        cases hk'
      | false =>
        rcases h.2 hk with ⟨hl, -, -⟩ | ⟨ho, -⟩
        · obtain ⟨rfl, rfl⟩ := Pc.loop.inj (hpc.symm.trans hl)
          exact test_after h0 hmax hlt h.1
        · rw [hpc] at ho
          cases ho
    · obtain ⟨h1, h2⟩ := test_of_ne hq s m t'
      exact h.frame (test_ticks ..) h1 h2
  | yield q =>
    simp only [step] at hs
    split at hs <;> cases hs
    rcases eq_or_ne p q with rfl | hq
    · refine h.awake rfl rfl ?_ (.inl ?_) <;> simp [State.setProc]
    · exact h.frame rfl (update_of_ne hq _ _) rfl
  | kill pid =>
    cases hs
    rcases kill_at pid s.proc p with hsame | hk
    · exact h.frame rfl hsame rfl
    · refine ⟨h.1, fun hk' => ?_⟩
      dsimp only at hk'
      rw [hk] at hk'
      cases hk'
  | other q r =>
    simp only [step] at hs
    split at hs <;> cases hs
    exact h.frame rfl (update_of_ne (Ne.symm ha) _ _) rfl

end

theorem ticksIn_append (as : List Act) (a : Act) :
    ticksIn (as ++ [a]) = ticksIn as + if a = .timer 0 then 1 else 0 := by
  by_cases h : a = .timer 0
  · simp [ticksIn, h]
  · simp [ticksIn, h, List.count_append]

/-- **A whole run**: where `p` is after any steps of the others, ticks and scheduling. -/
theorem run_after {p : Slot} {n : Int} {t : BitVec 32} {s s' : State} {as : List Act} (h0 : 0 ≤ n)
    (hmax : n ≤ intMax) (h : After p n t 0 s) (hr : run step s as = some s')
    (ha : ∀ a ∈ as, ¬ a.outside p) (hlt : ticksIn as < 2 ^ 31) : After p n t (ticksIn as) s' := by
  have hall : (∀ a ∈ [] ++ as, ¬ a.outside p) → ticksIn ([] ++ as) < 2 ^ 31 →
      After p n t (ticksIn ([] ++ as)) s' := by
    refine run_inv_acts (P := fun bs s => (∀ a ∈ bs, ¬ a.outside p) → ticksIn bs < 2 ^ 31 →
      After p n t (ticksIn bs) s) (fun bs s a s' hP hs hbs hk => ?_) [] (fun _ _ => h) hr
    rw [ticksIn_append] at hk ⊢
    have hlt : ticksIn bs < 2 ^ 31 := by omega
    have hbefore : ∀ b ∈ bs, ¬ b.outside p := fun b hb => hbs b (by simp [hb])
    exact step_after h0 hmax hlt (hP hbefore hlt) (hbs a (by simp)) hs
  exact hall ha hlt

theorem returnsNext {p : Slot} {n : Int} {t : BitVec 32} {s : State} (hpc : s.pc p = .loop n t)
    (hst : (s.proc p).state = .runnable ∨ (s.proc p).state = .running)
    (hw : ¬ waits s.ticks t n = true) : ReturnsNext s p := by
  rcases hst with hst | hst
  · let s₁ := s.setProc p { s.proc p with state := .running, chan := none }
    refine ⟨[.dispatch p, .run p], s₁.setPc p (.out 0), .inr rfl, ?_, update_self ..⟩
    simp [run, step, hst, hpc, s₁, State.setProc, test, hw]
  · refine ⟨[.run p], s.setPc p (.out 0), .inl rfl, ?_, update_self ..⟩
    simp [run, step, hst, hpc, test, hw]

/-- **`sys_sleep`** does what it is to do if and only if its argument is not negative. -/
theorem sysSleep_exact_iff (s : State) (p : Slot) (n : Int) (hmin : -2147483648 ≤ n)
    (hmax : n ≤ intMax) (hrun : (s.proc p).state = .running) (hout : ∃ r, s.pc p = .out r)
    (hkilled : (s.proc p).killed = false) : SleepExact s p n ↔ 0 ≤ n := by
  obtain ⟨r, hout⟩ := hout
  have hcall : step s (.sysSleep p n) = some (test s p n s.ticks) := by simp [step, hout, hrun]
  constructor
  · intro hex
    by_contra hneg
    -- asleep at once
    have hpc := (hex _ hcall).1 (by omega)
    simp [test, waits_neg (by omega) hmin, hkilled, State.setPc] at hpc
  · intro h0 s₀ hs₀
    rw [hcall] at hs₀
    cases hs₀
    have hstart : After p n s.ticks 0 (test s p n s.ticks) :=
      test_after h0 hmax (by decide) (by simp)
    refine ⟨fun hn => ?_, fun as s' hr ha hk hlt => ?_⟩
    · have hw := waits_iff h0 hmax s.ticks (k := 0) (by decide)
      have hnot : ¬ waits s.ticks s.ticks n = true := by
        rw [BitVec.add_zero] at hw
        rw [hw]
        simpa using hn
      simp [test, hnot, State.setPc]
    · obtain ⟨ht, hin⟩ := run_after h0 hmax hstart hr ha hlt
      have hw := waits_iff h0 hmax s.ticks hlt
      rw [← ht] at hw
      rcases hin hk with hloop | ⟨ho, hle⟩
      · refine ⟨fun _ => hloop.pc,
          fun hle => .inr (returnsNext hloop.pc (hloop.ready fun hsl => ?_) ?_)⟩
        · have := (hloop.asleep hsl).2
          omega
        · rw [hw]
          omega
      · exact ⟨fun hlt => by omega, fun _ => .inl ho⟩

/-- The last tick before `ticks` wraps. -/
def beforeWrap : State :=
  ⟨0xFFFFFFFF, fun p => if p = 0 then { state := .running, pid := 1 } else {}, fun _ => .out 0⟩

/-- Three ticks over the wrap. -/
theorem sysSleep_exact_iff_wrap : SleepExact beforeWrap 0 3 :=
  (sysSleep_exact_iff beforeWrap 0 3 (by decide) (by decide) (by decide) ⟨0, rfl⟩
    (by decide)).2 (by decide)

/-- `sys_sleep(-1)` goes to sleep, and does so again after a tick. -/
theorem sysSleep_negative_sleeps :
    (∃ s₀, step beforeWrap (.sysSleep 0 (-1)) = some s₀ ∧ (s₀.proc 0).state = .sleeping) ∧
      (∃ s₁, run step beforeWrap [.sysSleep 0 (-1), .timer 0, .dispatch 0, .run 0] = some s₁ ∧
        (s₁.proc 0).state = .sleeping) ∧
      ¬ SleepExact beforeWrap 0 (-1) := by
  refine ⟨⟨_, rfl, by decide⟩, ⟨_, rfl, by decide⟩, fun hex => ?_⟩
  have hpc := (hex _ rfl).1 (by decide)
  exact absurd hpc (by decide)

end Xv6.Ticks
