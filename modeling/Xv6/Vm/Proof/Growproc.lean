import Xv6.Vm.Proof.Space

/-!
# sbrk

`growproc` takes a process from one size to another. It tells an error from a size by the value 0 of
`allocuvm` and `deallocuvm`, and it adds a signed number to an unsigned size. The first goes wrong
if the new size is zero, the second if the sum is negative; in all other cases the process has the
size it has asked for, or it is as it was (`growproc_exact_iff`).
-/

namespace Xv6.Vm

open Lib

/-- The user pages of `d` are those of `[0, PGROUNDUP(sz))`. -/
def Exactly (m : Mem) (d : Ppn) (sz : Nat) : Prop :=
  ∀ k < userPages, mapping m d k ≠ none ↔ vaOf k < pgroundup sz

/-- What a call of `growproc(n)` promises, if it returns `r.1` and leaves the size `r.2`: the new
size is the sum, or nothing has changed; and the process can be forked. -/
def Grew (L : Layout) (m : Mem) (d : Ppn) (sz : Nat) (n : Int) (r : Int × Nat) (m' : Mem) : Prop :=
  (r.1 = 0 ∧ (r.2 : Int) = sz + n ∨
    r.1 = -1 ∧ r.2 = sz ∧ ∀ k < userPages, mapping m' d k = mapping m d k) ∧
  Exactly m' d r.2 ∧ Returns (copyuvm L d r.2) m' fun _ _ => True

theorem lt_pgroundup {sz k : Nat} (h : sz ≤ kernbase) : vaOf k < pgroundup sz ↔ vaOf k < sz := by
  have hle : pagesBelow sz ≤ k ↔ sz ≤ vaOf k := pagesBelow_le
  rw [pgroundup_eq h]
  simp only [vaOf, pgsize] at *
  omega

section
variable {L : Layout} {m m' : Mem} {d : Ppn} {sz : Nat} {n : Int}

theorem exactly_of {U : Nat → Option Word} (hsz : sz ≤ kernbase)
    (hm : ∀ k < 2 ^ 20, mapping m d k = U k) (hU : ∀ k < userPages, U k ≠ none ↔ vaOf k < sz) :
    Exactly m d sz := by
  intro k hk
  rw [hm k (lt_pages hk), hU k hk, lt_pgroundup hsz]

theorem Exactly.iff (h : Exactly m d sz) (hsz : sz ≤ kernbase) {k : Nat} (hk : k < userPages) :
    mapping m d k ≠ none ↔ vaOf k < sz := (h k hk).trans (lt_pgroundup hsz)

theorem Exactly.above (h : Exactly m d sz) (hsz : sz ≤ kernbase) :
    ∀ k < userPages, sz ≤ vaOf k → mapping m d k = none := by
  intro k hk hle
  by_contra hne
  exact absurd ((h.iff hsz hk).1 hne) (Nat.not_lt.2 hle)

theorem Exactly.copyuvm_ok (h : Exactly m d sz) (hs : Sound L m d) (hsz : sz ≤ kernbase) :
    Returns (copyuvm L d sz) m fun _ _ => True :=
  hs.copyuvm_ok hsz fun _ hk => (h.iff hsz (lt_userPages (Nat.lt_of_lt_of_le hk hsz))).2 hk

theorem Exactly.erased {newsz : Nat} (h : Exactly m d sz) (hsz : sz ≤ kernbase)
    (hm : ∀ k < 2 ^ 20, mapping m' d k = erased (mapping m d) (pagesBelow newsz) sz k) :
    Exactly m' d (min sz newsz) := by
  refine exactly_of (by omega) hm fun j hj => ?_
  have hold := h.iff hsz hj
  unfold Vm.erased
  split
  · next hc =>
    rw [pagesBelow_le] at hc
    simp only [ne_eq, not_true, false_iff]
    omega
  · next hc =>
    rw [pagesBelow_le] at hc
    rw [hold]
    omega

theorem growproc_pos {oom : List Bool} (hs : Sound L m d) (hk : sz < kernbase) (he : Exactly m d sz)
    (hn : 0 < n) (hn' : n < 2 ^ 31) :
    ∃ r m', growproc L d sz n { m with oom := oom } = .ok r m' ∧ Grew L m d sz n r m' := by
  obtain ⟨k, rfl⟩ : ∃ k : Nat, n = k := ⟨n.toNat, by omega⟩
  have hsum : (((sz : Int) + k) % u32).toNat = sz + k := by
    simp only [u32, kernbase] at *
    omega
  have htw : ∀ (R : Type) (W : World R), W.L = L →
      Twin (Maps W d empty (mapping m d)) (growproc L d sz k)
        (fun r s t => ∃ U, (r = (-1, sz) ∧ U = mapping m d ∨ r = (0, sz + k) ∧ sz + k ≤ kernbase ∧
          Grown (mapping m d) (pagesBelow sz) (sz + k) U) ∧ Maps W d empty U s t)
        fun _ _ _ => False := by
    rintro R W rfl
    unfold growproc
    refine .ite (fun _ => ?_) fun h => absurd hn h
    rw [hsum]
    refine (allocuvm_twin rfl rfl (he.above (Nat.le_of_lt hk))).bind fun v =>
      .ite (fun h0 => .pure fun s t h => ?_) fun h0 => .pure fun s t h => ?_
    · rcases h with ⟨-, ha⟩ | ⟨-, -, ha⟩ | ⟨hv, -⟩
      · exact ⟨_, .inl ⟨rfl, rfl⟩, ha⟩
      · exact ⟨_, .inl ⟨rfl, rfl⟩, ha⟩
      · omega
    · rcases h with ⟨hv, -⟩ | ⟨-, hlt, -⟩ | ⟨rfl, -, hlt, U, ha, hg⟩
      · exact absurd hv h0
      · omega
      · exact ⟨U, .inr ⟨rfl, Nat.le_of_lt hlt, hg⟩, ha⟩
  rcases hs.run oom htw with ⟨r, m', hr, hs', U, hU, hm⟩ | ⟨_, _, -, hf⟩
  · refine ⟨r, m', hr, ?_⟩
    have hold : ∀ j < userPages, mapping m d j ≠ none ↔ vaOf j < sz :=
      fun j hj => he.iff (Nat.le_of_lt hk) hj
    rcases hU with ⟨rfl, rfl⟩ | ⟨rfl, hle, hg⟩
    · have hex := exactly_of (Nat.le_of_lt hk) hm hold
      exact ⟨.inr ⟨rfl, rfl, fun j hj => hm j (lt_pages hj)⟩, hex,
        hex.copyuvm_ok hs' (Nat.le_of_lt hk)⟩
    · have hex : Exactly m' d (sz + k) := by
        refine exactly_of hle hm fun j hj => ?_
        by_cases hc : pagesBelow sz ≤ j ∧ vaOf j < sz + k
        · obtain ⟨p, hp⟩ := hg.mapped j hc.1 hc.2
          simp [hp, hc.2]
        · rw [hg.same j hc, hold j hj]
          rw [pagesBelow_le] at hc
          omega
      exact ⟨.inl ⟨rfl, by push_cast; rfl⟩, hex, hex.copyuvm_ok hs' hle⟩
  · exact hf.elim

theorem growproc_neg (oom : List Bool) (hs : Sound L m d) (hk : sz < kernbase)
    (hn : n < 0) {newsz : Nat} (hsum : (((sz : Int) + n) % u32).toNat = newsz) :
    ∃ m', growproc L d sz n { m with oom := oom } =
        .ok (if min sz newsz = 0 then (-1, sz) else (0, min sz newsz)) m' ∧ Sound L m' d ∧
      ∀ k < 2 ^ 20, mapping m' d k = erased (mapping m d) (pagesBelow newsz) sz k := by
  have htw : ∀ (R : Type) (W : World R), W.L = L →
      Twin (Maps W d empty (mapping m d)) (growproc L d sz n)
        (fun r s t => ∃ U, (r = (if min sz newsz = 0 then (-1, sz) else (0, min sz newsz)) ∧
          U = erased (mapping m d) (pagesBelow newsz) sz) ∧ Maps W d empty U s t)
        fun _ _ _ => False := by
    rintro R W rfl
    unfold growproc
    refine .ite (fun h => by omega) fun _ => .ite (fun _ => ?_) fun h => absurd hn h
    rw [hsum]
    refine (deallocuvm_twin (Nat.le_of_lt hk) rfl).bind fun v => ?_
    refine .of_pre (φ := v = min sz newsz) (fun s t h => h.1) fun hv => ?_
    subst hv
    refine .ite (fun h0 => .pure fun s t h => ⟨_, ⟨?_, rfl⟩, h.2⟩) fun h0 =>
      .pure fun s t h => ⟨_, ⟨?_, rfl⟩, h.2⟩
    · rw [if_pos h0]
    · rw [if_neg h0]
  rcases hs.run oom htw with ⟨r, m', hr, hs', U, ⟨rfl, rfl⟩, hm⟩ | ⟨_, _, -, hf⟩
  · exact ⟨m', hr, hs', hm⟩
  · exact hf.elim

theorem growproc_to_zero (oom : List Bool) (hs : Sound L m d) (h0 : 0 < sz) (hk : sz < kernbase) :
    ∃ m', growproc L d sz (-sz) { m with oom := oom } = .ok (-1, sz) m' ∧
    mapping m' d 0 = none := by
  have hsum : (((sz : Int) + -sz) % u32).toNat = 0 := by
    rw [Int.add_right_neg]
    rfl
  obtain ⟨m', hr, -, hm⟩ := growproc_neg oom hs hk (by omega) hsum
  refine ⟨m', by simpa using hr, ?_⟩
  rw [hm 0 (by decide), erased, if_pos]
  exact ⟨by decide, by simpa using h0⟩

theorem growproc_below_zero (oom : List Bool) (hs : Sound L m d) (h0 : 0 < sz) (hk : sz < kernbase)
    (hn : sz + n < 0) (hn' : -2 ^ 31 ≤ n) :
    ∃ m', growproc L d sz n { m with oom := oom } = .ok (0, sz) m' := by
  have hle : sz ≤ (((sz : Int) + n) % u32).toNat := by
    simp only [u32, kernbase] at *
    omega
  obtain ⟨m', hr, -⟩ := growproc_neg (n := n) oom hs hk (by omega) rfl
  rw [Nat.min_eq_left hle, if_neg (by omega)] at hr
  exact ⟨m', hr⟩

theorem growproc_shrink (oom : List Bool) (hs : Sound L m d) (hk : sz < kernbase)
    (he : Exactly m d sz) (hn : n < 0) (hpos : 0 < sz + n) :
    ∃ r m', growproc L d sz n { m with oom := oom } = .ok r m' ∧ Grew L m d sz n r m' := by
  obtain ⟨newsz, hnew⟩ : ∃ newsz : Nat, (newsz : Int) = sz + n := ⟨(sz + n).toNat, by omega⟩
  have hsum : (((sz : Int) + n) % u32).toNat = newsz := by
    simp only [u32, kernbase] at *
    omega
  obtain ⟨m', hr, hs', hm⟩ := growproc_neg (n := n) oom hs hk hn hsum
  rw [Nat.min_eq_right (by omega), if_neg (by omega)] at hr
  have hex := he.erased (Nat.le_of_lt hk) hm
  rw [Nat.min_eq_right (by omega)] at hex
  exact ⟨_, m', hr, .inl ⟨rfl, hnew⟩, hex, hex.copyuvm_ok hs' (by omega)⟩

end

/-- **What sbrk leaves.** Take a process whose present user pages are those of `[0, PGROUNDUP(sz))`,
for any size below `KERNBASE`, and any number `n`. Whatever calls of `kalloc` fail, `growproc(n)`
leaves the process with the size `sz + n` and its pages, or as it was, unless `n` is negative and
the sum is not positive. -/
theorem growproc_exact_iff (L : Layout) (m : Mem) (d : Ppn) (sz : Nat) (n : Int) (oom : List Bool)
    (hs : Sound L m d) (h0 : 0 < sz) (hk : sz < kernbase) (he : Exactly m d sz)
    (hn : -2 ^ 31 ≤ n) (hn' : n < 2 ^ 31) :
    (∃ r m', growproc L d sz n { m with oom := oom } = .ok r m' ∧ Grew L m d sz n r m') ↔
      ¬ (n < 0 ∧ sz + n ≤ 0) := by
  constructor
  · rintro ⟨r, m', hr, hgrew⟩ ⟨hneg, hle⟩
    obtain hz | hlt : n = -sz ∨ sz + n < 0 := by omega
    · -- The error value stands for the size zero: page 0 has been freed.
      obtain ⟨m'', hr', hgone⟩ := growproc_to_zero oom hs h0 hk
      rw [← hz, hr] at hr'
      cases hr'
      have hpage : mapping m d 0 ≠ none :=
        (he.iff (Nat.le_of_lt hk) (by decide)).2 (by simpa using h0)
      rcases hgrew.1 with ⟨h, -⟩ | ⟨-, -, hsame⟩
      · cases h
      · exact hpage ((hsame 0 (by decide)).symm.trans hgone)
    · -- As a `uint` the sum is above the size, so that nothing is freed and no error is reported.
      obtain ⟨m'', hr'⟩ := growproc_below_zero oom hs h0 hk hlt hn
      rw [hr] at hr'
      cases hr'
      rcases hgrew.1 with ⟨-, h⟩ | ⟨h, -⟩
      · omega
      · cases h
  · intro hok
    rcases Int.lt_trichotomy n 0 with hneg | rfl | hpos
    · exact growproc_shrink oom hs hk he hneg (by omega)
    · refine ⟨(0, sz), { m with oom := oom }, rfl, .inl ⟨rfl, by simp⟩, he, ?_⟩
      exact he.copyuvm_ok (m := { m with oom := oom }) hs (Nat.le_of_lt hk)
    · exact growproc_pos hs hk he hpos hn'

theorem tiny_exactly : Exactly tiny 0x102 pgsize := by
  refine exactly_of (by decide) (fun k _ => tiny_mapping k) fun k _ => ?_
  by_cases h0 : k = 0
  · simp [h0]
  · rw [if_neg h0]
    simp only [ne_eq, not_true, false_iff, vaOf, pgsize]
    omega

/-- `sbrk(-4096)` in a process of one page returns -1, and the page is gone. -/
theorem growproc_loses_page : ∃ m', growproc smallKernel 0x102 pgsize (-pgsize) tiny =
    .ok (-1, pgsize) m' ∧
    ¬ Grew smallKernel tiny 0x102 pgsize (-pgsize) (-1, pgsize) m' := by
  obtain ⟨m', hr, hgone⟩ := growproc_to_zero [] tiny_sound (show 0 < pgsize by decide) (by decide)
  refine ⟨m', hr, fun hgrew => ?_⟩
  rcases hgrew.1 with ⟨h, -⟩ | ⟨-, -, hsame⟩
  · cases h
  · have h1 := (hsame 0 (by decide)).symm.trans hgone
    rw [tiny_mapping] at h1
    cases h1

/-- A process of one page asks for one more. -/
theorem growproc_exact_iff_tiny : ∃ r m', growproc smallKernel 0x102 pgsize 4096 tiny = .ok r m' ∧
    Grew smallKernel tiny 0x102 pgsize 4096 r m' :=
  (growproc_exact_iff smallKernel tiny 0x102 pgsize 4096 [] tiny_sound (by decide)
    (by decide) tiny_exactly (by decide) (by decide)).2 (by decide)

end Xv6.Vm
