import Xv6.Vm.Proof.Pages

/-!
# One address space

`Sound`: every page of the allocator is free or has one owner, and the directory is one of the
owners. Every process of every run has such a directory (`reach_sound`). The lemmas on the calls of
vm.c, which speak of two states and of a world around the directory, apply to a sound memory and
itself.
-/

namespace Xv6.Vm

open Lib Function

/-- Each page of the allocator is free or owned once, by the directory `d` or by one of the owners
`r`. -/
def Sound (L : Layout) (m : Mem) (d : Ppn) : Prop :=
  ∃ (R : Type) (r : R → Option Ppn), Books L (Sum.elim r (own m.page (some d) empty)) m.free

/-- The mapping of page `n`. -/
def mapping (m : Mem) (d : Ppn) (n : Nat) : Option Word :=
  if n < 2 ^ 20 then lookup m.page d (vaOf n) else none

theorem mapping_of_lt (m : Mem) (d : Ppn) {n : Nat} (h : n < 2 ^ 20) :
    mapping m d n = lookup m.page d (vaOf n) := if_pos h

theorem lookup_div (m : Ppn → Page) (d : Ppn) (va : Nat) :
    lookup m d (vaOf (va / pgsize)) = lookup m d va := by
  unfold lookup
  rw [(vaOf_div va).1, (vaOf_div va).2]

theorem mapping_div {s : Mem} {d : Ppn} {va : Nat} (hva : va < u32) :
    mapping s d (va / pgsize) = lookup s.page d va := by
  rw [mapping_of_lt, lookup_div]
  simp only [u32, pgsize] at *
  omega

/-- The surroundings `r` in the memory `m`. -/
def around {R : Type} (L : Layout) (m : Mem) (r : R → Option Ppn) : World R :=
  ⟨L, r, m.page, fun _ => False, nofun⟩

section
variable {L : Layout} {m : Mem} {d : Ppn}
variable {R : Type} {r : R → Option Ppn} {W : World R} {U : Nat → Option Word} {s t : Mem}

theorem at_of_books (h : Books L (Sum.elim r (own m.page (some d) empty)) m.free)
    (oom : List Bool) :
    Maps (around L m r) d empty (mapping m d) { m with oom := oom } { m with oom := oom } := by
  refine ⟨⟨h, fun _ _ _ => rfl, rfl, rfl, fun _ _ _ => rfl⟩, fun d' hd n hn => ?_⟩
  cases hd
  exact (mapping_of_lt m d hn).symm

theorem Sound.of_at (h : Maps W d empty U s t) : Sound W.L s d := ⟨R, W.r, h.books⟩

theorem At.mapping_eq {g : Bool → Option Ppn} {z : Option Ppn}
    (h : At W (some d) g z U s t) {n : Nat} (hn : n < 2 ^ 20) :
    mapping s d n = U n := (mapping_of_lt s d hn).trans (h.view d rfl n hn)

theorem Sound.run {α : Type} (h : Sound L m d) (oom : List Bool) {x : M α}
    {Q : α → (Nat → Option Word) → Prop} {E : String → Prop}
    (hx : ∀ (R : Type) (W : World R), W.L = L →
      Twin (Maps W d empty (mapping m d)) x
        (fun a s t => ∃ U, Q a U ∧ Maps W d empty U s t) fun e _ _ => E e) :
    (∃ a m', x { m with oom := oom } = .ok a m' ∧ Sound L m' d ∧
        ∃ U, Q a U ∧ ∀ n < 2 ^ 20, mapping m' d n = U n) ∨
      ∃ e m', x { m with oom := oom } = .error e m' ∧ E e := by
  obtain ⟨R, r, hb⟩ := h
  classical
  have h1 := hx R (around L m r) rfl
  have h2 := at_of_books hb oom
  cases hr : x { m with oom := oom } with
  | ok a m' =>
    obtain ⟨U, hQ, ha⟩ := h1.triple.ok h2 hr
    exact .inl ⟨a, m', rfl, .of_at ha, U, hQ, fun n hn => ha.mapping_eq hn⟩
  | error e m' => exact .inr ⟨e, m', rfl, h1.triple.error h2 hr⟩

/-- The directory `d` among the owners that a call on another directory leaves alone. -/
def shelf {R : Type} (L : Layout) (m : Mem) (d : Ppn) (r : R → Option Ppn) : World (R ⊕ Part) :=
  ⟨L, Sum.elim r (own m.page (some d) empty), m.page, fun _ => False, nofun⟩

theorem at_shelf (h : Books L (Sum.elim r (own m.page (some d) empty)) m.free) (oom : List Bool) :
    At (shelf L m d r) none empty none (fun _ => none) { m with oom := oom }
    { m with oom := oom } := by
  have hnone : own m.page none empty = fun _ => none := by
    funext p
    cases p <;> simp [own]
  refine ⟨⟨⟨⟨?_, ?_, ?_, fun _ => False.elim⟩, h.managed, h.nodup⟩, fun _ _ _ => rfl, rfl, rfl,
    fun _ _ _ => rfl⟩, fun _ hd => by cases hd⟩
  · rintro (a | p) q hq
    · exact h.ledger.held a q hq
    · simp [hnone] at hq
  · rintro (a | p) (b | p') q ha hb
    · exact congrArg _ (h.ledger.excl ha hb)
    · simp [hnone] at hb
    · simp [hnone] at ha
    · simp [hnone] at ha
  · intro q hq
    obtain ⟨a, ha⟩ := (h.ledger.cover q hq).resolve_left id
    exact .inr ⟨.inl a, ha⟩

theorem readable_shelf (r : R → Option Ppn) : Readable (shelf L m d r) d := by
  refine ⟨⟨.inr .dir, rfl, id⟩, fun i tab ht => ⟨.inr (.table i), ht, id⟩,
    fun n hn w hw => ⟨.inr (.page n), ?_, id⟩⟩
  have hw' : lookup m.page d (vaOf n) = some w := hw
  simp [shelf, own, hn, hw']

theorem Sound.copyuvm_ok {sz : Nat} (h : Sound L m d) (hsz : sz ≤ kernbase)
    (hfull : ∀ n, vaOf n < sz → mapping m d n ≠ none) : Returns (copyuvm L d sz) m
    fun _ _ => True := by
  obtain ⟨R, r, hb⟩ := h
  classical
  refine returns_of_twin (copyuvm_data (W := shelf L m d r) (U := fun _ => none)
    (readable_shelf r) rfl rfl hsz (.inl fun n hn => ?_)) (at_shelf hb) fun _ _ _ _ => trivial
  have hu := lt_userPages (Nat.lt_of_lt_of_le hn hsz)
  exact (mapping_of_lt m d (lt_pages hu)).symm ▸ hfull n hn

end

theorem reach_sound {L : Layout} {page : Ppn → Page} {s₀ s : State} {cs : List Call}
    (h₀ : boot L page = some s₀) (h : run (step L) s₀ cs = some s) {p : Fin nproc} {pr : Proc}
    (hp : s.proc p = some pr) : Sound L s.mem pr.pgdir ∧ UserOnly (mapping s.mem pr.pgdir) := by
  obtain ⟨V, hj, hok⟩ := (reach_agree h₀ h).joint
  have hf := hj.focus (some (p, false))
  rw [dir_image hp] at hf
  refine ⟨⟨_, _, hf.books⟩, fun n w hn hw => ?_⟩
  by_cases hlt : n < 2 ^ 20
  · rw [hf.mapping_eq hlt] at hw
    exact (hok p pr hp).image.kern n w hn hw
  · rw [mapping, if_neg hlt] at hw
    cases hw

/-! ## A small memory -/

@[irreducible]
def laterPages : List Ppn := (List.range 0xdefb).map fun i => BitVec.ofNat 20 (0x105 + i)

theorem mem_laterPages {q : Ppn} : q ∈ laterPages ↔ 0x105 ≤ q.toNat ∧ q.toNat < 0xe000 := by
  unfold laterPages
  rw [List.mem_map]
  constructor
  · rintro ⟨i, hi, rfl⟩
    have := List.mem_range.1 hi
    rw [BitVec.toNat_ofNat]
    omega
  · intro h
    refine ⟨q.toNat - 0x105, List.mem_range.2 (by omega), BitVec.eq_of_toNat_eq ?_⟩
    rw [BitVec.toNat_ofNat]
    omega

theorem length_laterPages : laterPages.length = 0xdefb := by
  unfold laterPages
  rw [List.length_map, List.length_range]

theorem laterPages_nodup : laterPages.Nodup := by
  unfold laterPages
  refine List.Nodup.map_on (fun i hi j hj h => ?_) List.nodup_range
  have hi' := List.mem_range.1 hi
  have hj' := List.mem_range.1 hj
  have h1 := congrArg BitVec.toNat h
  rw [BitVec.toNat_ofNat, BitVec.toNat_ofNat] at h1
  omega

/-- A directory in page `0x102` that maps page `0x104` at address 0, for the user. -/
def tiny : Mem where
  page := update (update (fun _ => Page.const 0) 0x102
    (update (Page.const 0) 0 (pte 0x103 (pteP ||| pteW ||| pteU)))) 0x103
    (update (Page.const 0) 0 (pte 0x104 (pteP ||| pteW ||| pteU)))
  free := laterPages
  oom := []

theorem tiny_free : tiny.free = laterPages := rfl

theorem tiny_target {i : Fin 1024} {t : Ppn} :
    target (tiny.page 0x102 i) = some t ↔ i = 0 ∧ t = 0x103 := by
  have hdir : tiny.page 0x102 = update (Page.const 0) 0 (pte 0x103 (pteP ||| pteW ||| pteU)) := rfl
  rw [hdir, update_apply]
  by_cases hi : i = 0
  · rw [if_pos hi, target_of_present (by decide), pteAddr_pte]
    simp [hi, eq_comm]
  · simp [hi, Page.const]

theorem tiny_mapping (n : Nat) : mapping tiny 0x102 n =
    if n = 0 then some (pte 0x104 (pteP ||| pteW ||| pteU)) else none := by
  by_cases hn : ¬ n < 2 ^ 20
  · rw [mapping, if_neg hn, if_neg (by omega)]
  rw [not_not] at hn
  rw [mapping_of_lt _ _ hn]
  have htab : tiny.page 0x103 = update (Page.const 0) 0 (pte 0x104 (pteP ||| pteW ||| pteU)) := rfl
  unfold lookup
  by_cases hi : pdx (vaOf n) = 0
  · rw [tiny_target.2 ⟨hi, rfl⟩, Option.bind_some, htab, update_apply]
    by_cases hj : ptx (vaOf n) = 0
    · have h0 : n = 0 := vaOf_inj (by decide) hn hi hj
      rw [if_pos hj, if_pos h0, entry_of_present (by decide)]
    · rw [if_neg hj, if_neg fun h0 => hj (by rw [h0]; rfl)]
      simp [Page.const]
  · have hnone : target (tiny.page 0x102 (pdx (vaOf n))) = none :=
      Option.eq_none_iff_forall_ne_some.2 fun t ht => hi (tiny_target.1 ht).1
    rw [hnone, if_neg fun h0 => hi (by rw [h0]; rfl)]
    rfl

theorem tiny_user : UserOnly (mapping tiny 0x102) := by
  intro n w hn hw
  have h0 : n ≠ 0 := by
    rintro rfl
    exact absurd hn (by decide)
  rw [tiny_mapping, if_neg h0] at hw
  cases hw

theorem tiny_own {p : Part} {q : Ppn} : own tiny.page (some 0x102) empty p = some q ↔
    p = .dir ∧ q = 0x102 ∨ p = .table 0 ∧ q = 0x103 ∨ p = .page 0 ∧ q = 0x104 := by
  cases p with
  | dir => simp [own, eq_comm]
  | table i =>
    show target (tiny.page 0x102 i) = some q ↔ _
    rw [tiny_target]
    simp
  | page n =>
    by_cases hn : n < userPages
    · have h1 := tiny_mapping n
      rw [mapping_of_lt _ _ (lt_pages hn)] at h1
      simp only [own, if_pos hn, Option.bind_some, h1]
      by_cases h0 : n = 0
      · simp [h0, pteAddr_pte, eq_comm]
      · simp [h0]
    · have h0 : n ≠ 0 := by
        rintro rfl
        exact hn (by decide)
      simp [own, hn, h0]
  | hand b => simp [own]

theorem tiny_sound : Sound smallKernel tiny 0x102 := by
  refine ⟨Empty, Empty.elim, ?_⟩
  rw [tiny_free]
  refine ⟨⟨?_, ?_, ?_, nofun⟩, ?_, laterPages_nodup⟩
  · rintro (a | p) q hq
    · cases a
    refine ⟨?_, id⟩
    rw [mem_laterPages]
    rcases tiny_own.1 hq with ⟨-, rfl⟩ | ⟨-, rfl⟩ | ⟨-, rfl⟩
    · decide
    · decide
    · decide
  · rintro (a | p) (b | p') q hp hp'
    · cases a
    · cases a
    · cases b
    · refine congrArg _ ?_
      rcases tiny_own.1 hp with ⟨rfl, rfl⟩ | ⟨rfl, rfl⟩ | ⟨rfl, rfl⟩
      all_goals
        have h := tiny_own.1 hp'
        simp at h
        exact h.symm
  · rintro q ⟨⟨h1, h2⟩, hq⟩
    have hq' := mt mem_laterPages.2 hq
    have hlo : 0x102 ≤ q.toNat := by
      simp only [smallKernel, kernlink, kernbase, extmem, pgsize] at h1
      omega
    have hhi : q.toNat < 0xe000 := by
      simp only [pgsize, phystop] at h2
      omega
    have hcase : q = 0x102 ∨ q = 0x103 ∨ q = 0x104 := by
      have : q.toNat = 0x102 ∨ q.toNat = 0x103 ∨ q.toNat = 0x104 := by omega
      rcases this with h | h | h
      · exact .inl (BitVec.eq_of_toNat_eq h)
      · exact .inr (.inl (BitVec.eq_of_toNat_eq h))
      · exact .inr (.inr (BitVec.eq_of_toNat_eq h))
    have hown : ∃ p, own tiny.page (some 0x102) empty p = some q := by
      simp only [tiny_own]
      rcases hcase with h | h | h
      · exact ⟨.dir, .inl ⟨rfl, h⟩⟩
      · exact ⟨.table 0, .inr (.inl ⟨rfl, h⟩)⟩
      · exact ⟨.page 0, .inr (.inr ⟨rfl, h⟩)⟩
    obtain ⟨p, hp⟩ := hown
    exact .inr ⟨.inr p, hp⟩
  · intro q hq
    have := mem_laterPages.1 hq
    simp only [Layout.Managed, smallKernel, kernlink, kernbase, extmem, pgsize, phystop]
    omega

end Xv6.Vm
