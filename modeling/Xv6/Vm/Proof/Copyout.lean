import Xv6.Vm.Proof.Data
import Xv6.Vm.Proof.Ample
import Xv6.Vm.Proof.Space

/-!
# copyout

`copyout` writes its bytes page by page, up to the first page that the user may not get at. If that
page has a table, -1 is returned; if it has none, `uva2ka` follows the null pointer that `walkpgdir`
returns.
-/

namespace Xv6.Vm

open Lib Function

variable {va a n : Nat} {bs buf : List (BitVec 8)} {C : Nat → Page} {m s : Mem} {d : Ppn}

/-! ## The loop -/

/-- User code can access the address `a`. -/
def Accessible (m : Mem) (d : Ppn) (a : Nat) : Prop := ∃ w, lookup m.page d a = some w ∧
    user w = true

/-- There is a page table for the address `a`. -/
def HasTable (m : Mem) (d : Ppn) (a : Nat) : Prop := target (m.page d (pdx a)) ≠ none

theorem Accessible.hasTable (h : Accessible m d a) : HasTable m d a := by
  obtain ⟨w, hw, -⟩ := h
  obtain ⟨t, ht, -⟩ := Option.bind_eq_some_iff.1 hw
  exact fun h0 => Option.some_ne_none t (ht.symm.trans h0)

theorem accessible_congr {b : Nat} (h : a / pgsize = b / pgsize) :
    (Accessible m d a ↔ Accessible m d b) ∧ (HasTable m d a ↔ HasTable m d b) := by
  have hp : pdx a = pdx b := by rw [← (vaOf_div a).1, ← (vaOf_div b).1, h]
  have ht : ptx a = ptx b := by rw [← (vaOf_div a).2, ← (vaOf_div b).2, h]
  unfold Accessible HasTable lookup
  rw [hp, ht]
  exact ⟨.rfl, .rfl⟩

theorem uva2ka_no_table (h : ¬ HasTable m d a) :
    uva2ka d a m = .error "trap" m := by
  unfold uva2ka
  rw [bind_ok (walkpgdir_eq d a m), not_not.1 h]
  rfl

theorem uva2ka_table (h : HasTable m d a) : uva2ka d a m =
    .ok ((lookup m.page d a).bind fun w => if user w then some (pteAddr w) else none) m := by
  obtain ⟨t, ht⟩ := Option.ne_none_iff_exists'.1 h
  unfold uva2ka lookup
  have hrd : rd t (ptx a) m = .ok (m.page t (ptx a)) m := rfl
  rw [bind_ok (walkpgdir_eq d a m), ht]
  simp only [Option.map_some, Option.bind_some]
  rw [bind_ok hrd]
  by_cases hp : present (m.page t (ptx a)) = true
  · rw [entry_of_present hp]
    by_cases hu : user (m.page t (ptx a)) = true
    · simp [hp, hu]
      rfl
    · simp [hp, hu]
      rfl
  · rw [entry_of_not_present hp]
    simp [hp]
    rfl

section
variable {R : Type} {W : World R} {d : Ppn} {g : Bool → Option Ppn} {U : Nat → Option Word}
  {C : Nat → Page}

theorem Data.write_tables {w : Word} (h : Data W d g U C s) (hn : n < userPages) (hw : U n = some w)
    (pg : Page) (a : Nat) :
    lookup (s.setPage (pteAddr w) pg).page d a = lookup s.page d a ∧
      (s.setPage (pteAddr w) pg).page d = s.page d := by
  obtain ⟨h1, -, h3⟩ := h.apart (h.own_page hn hw) nofun nofun
  have hd : (s.setPage (pteAddr w) pg).page d = s.page d := update_of_ne h1.symm _ _
  refine ⟨lookup_congr hd (fun i t ht => update_of_ne ?_ _ _) a, hd⟩
  rintro rfl
  exact h3 i ht

/-- How a loop over the bytes `buf` from `va` on ends: with all bytes written, at a page that the
user may not get at, or at a table that is missing. -/
structure Ends (W : World R) (d : Ppn) (g : Bool → Option Ppn) (U : Nat → Option Word)
    (C : Nat → Page) (s : Mem) (va : Nat) (buf : List (BitVec 8))
    (r : EStateM.Result String Mem Int) : Prop where
  done : (∀ i < buf.length, Accessible s d ((va + i) % u32)) → ∃ s' C', r = .ok 0 s' ∧
    Data W d g U C' s' ∧ Put C va buf C' ∧ s'.free = s.free ∧ s'.oom = s.oom ∧
    ∀ q, (∀ n < userPages, ∀ w, U n = some w → pteAddr w ≠ q) → s'.page q = s.page q
  denied : ∀ i < buf.length, (∀ j < i, Accessible s d ((va + j) % u32)) →
    ¬ Accessible s d ((va + i) % u32) → HasTable s d ((va + i) % u32) → ∃ s', r = .ok (-1) s'
  fault : ∀ i < buf.length, (∀ j < i, Accessible s d ((va + j) % u32)) →
    ¬ HasTable s d ((va + i) % u32) → ∃ s', r = .error "trap" s'

theorem Ends.nil (h : Data W d g U C s) : Ends W d g U C s va [] (.ok 0 s) :=
  ⟨fun _ => ⟨s, C, rfl, h, .nil C va, rfl, rfl, fun _ _ => rfl⟩, nofun, nofun⟩

theorem pgrounddown_div (va : Nat) : pgrounddown va / pgsize = va / pgsize := by
  simp only [pgrounddown, pgsize]
  omega

theorem copyoutLoop_bad (h0 : buf.length ≠ 0) (hva : va < u32) (hacc : ¬ Accessible s d va) :
    Ends W d g U C s va buf (copyoutLoop d (n + 1) va buf s) := by
  have hmod : (va + 0) % u32 = va := Nat.mod_eq_of_lt hva
  have hcong := accessible_congr (m := s) (d := d) (pgrounddown_div va)
  have hfirst : ∀ i, (∀ j < i, Accessible s d ((va + j) % u32)) → i = 0 := by
    intro i hbefore
    by_contra hne
    have h1 := hbefore 0 (by omega)
    rw [hmod] at h1
    exact hacc h1
  unfold copyoutLoop
  rw [if_neg h0]
  dsimp only
  refine ⟨fun hall => ?_, fun i _ hbefore _ htab => ?_, fun i _ hbefore htab => ?_⟩
  · have h1 := hall 0 (by omega)
    rw [hmod] at h1
    exact absurd h1 hacc
  · rw [hfirst i hbefore, hmod] at htab
    have hnone : ((lookup s.page d (pgrounddown va)).bind fun w =>
        if user w then some (pteAddr w) else none) = none := by
      refine Option.eq_none_iff_forall_ne_some.2 fun q hq => hacc (hcong.1.1 ?_)
      obtain ⟨w, hw, hu⟩ := Option.bind_eq_some_iff.1 hq
      refine ⟨w, hw, ?_⟩
      by_contra hu'
      rw [if_neg hu'] at hu
      cases hu
    rw [bind_ok (uva2ka_table (hcong.2.2 htab)), hnone]
    exact ⟨s, rfl⟩
  · rw [hfirst i hbefore, hmod] at htab
    rw [bind_error (uva2ka_no_table (mt hcong.2.1 htab))]
    exact ⟨s, rfl⟩

theorem copyoutLoop_page (hk : UserOnly U) (h0 : buf.length ≠ 0) (hva : va < u32)
    (h : Data W d g U C s) (hacc : Accessible s d va) :
    va < kernbase ∧
    ∃ s₁ C₁, copyoutLoop d (n + 1) va buf s = copyoutLoop d n (va + (pgsize - va % pgsize))
        (buf.drop (pgsize - va % pgsize)) s₁ ∧ Data W d g U C₁ s₁ ∧
      Put C va (buf.take (pgsize - va % pgsize)) C₁ ∧
      (∀ a, (Accessible s₁ d a ↔ Accessible s d a) ∧ (HasTable s₁ d a ↔ HasTable s d a)) ∧
      s₁.free = s.free ∧ s₁.oom = s.oom ∧
      ∀ q, (∀ n < userPages, ∀ w, U n = some w → pteAddr w ≠ q) → s₁.page q = s.page q := by
  obtain ⟨w, hw, hu⟩ := id hacc
  have hm : va / pgsize < 2 ^ 20 := by
    simp only [pgsize, u32] at *
    omega
  have hU : U (va / pgsize) = some w := by
    rw [← h.view d rfl _ hm, lookup_div]
    exact hw
  have hlt := hk.lt hU hu
  have hkb : va < kernbase := by
    simp only [pgsize, kernbase, userPages] at *
    omega
  have he : uva2ka d (pgrounddown va) s = .ok (some (pteAddr w)) s := by
    rw [uva2ka_table ((accessible_congr (pgrounddown_div va)).2.2 hacc.hasTable), ← lookup_div,
      pgrounddown_div, lookup_div, hw]
    simp [hu]
  have hoff : va - pgrounddown va = va % pgsize := by
    simp only [pgrounddown, pgsize]
    omega
  have hnext : (pgrounddown va + pgsize) % u32 = va + (pgsize - va % pgsize) := by
    simp only [pgrounddown, pgsize, u32, kernbase] at *
    omega
  have hroom : va % pgsize + (buf.take (pgsize - va % pgsize)).length ≤ pgsize := by
    rw [List.length_take]
    have := Nat.mod_lt va (show 0 < pgsize by decide)
    omega
  have hput := Put.page C hroom
  refine ⟨hkb, s.setPage (pteAddr w) ((C (va / pgsize)).copyIn (va % pgsize)
    (buf.take (pgsize - va % pgsize))), _,
    ?_, h.write hlt hU _, hput, fun a => ?_, rfl, rfl,
    fun q hq => update_of_ne (hq _ hlt w hU).symm _ _⟩
  · have hmv : moveBytes (pteAddr w) (va % pgsize) (buf.take (pgsize - va % pgsize)) s = .ok ()
        (s.setPage (pteAddr w) ((s.page (pteAddr w)).copyIn (va % pgsize)
          (buf.take (pgsize - va % pgsize)))) := rfl
    rw [copyoutLoop, if_neg h0]
    dsimp only
    rw [bind_ok he]
    dsimp only
    rw [hoff, hnext, bind_ok hmv, h.data _ hlt w hU]
  · have htab :=
      h.write_tables hlt hU ((C (va / pgsize)).copyIn (va % pgsize) (buf.take (pgsize - va % pgsize))) a
    unfold Accessible HasTable
    rw [htab.1, htab.2]
    exact ⟨.rfl, .rfl⟩

theorem Put.take_drop {C₁ C₂ : Nat → Page} {k : Nat} (h : Put C va (buf.take k) C₁)
    (h' : Put C₁ (va + k) (buf.drop k) C₂) : Put C va buf C₂ := by
  by_cases hlen : k ≤ buf.length
  · rw [← List.take_append_drop k buf]
    refine h.append ?_
    rwa [List.length_take, Nat.min_eq_left hlen]
  · rw [List.drop_eq_nil_of_le (by omega)] at h'
    rw [List.take_of_length_le (by omega)] at h
    intro a
    rw [h' a, if_neg (by simp), h a]

theorem copyoutLoop_ends (hk : UserOnly U) :
    ∀ (n va : Nat) (buf : List (BitVec 8)) (s : Mem) (C : Nat → Page),
    buf.length ≤ n → va < u32 → Data W d g U C s →
    Ends W d g U C s va buf (copyoutLoop d n va buf s) := by
  intro n
  induction n with
  | zero =>
    intro va buf s C hn _ h
    obtain rfl : buf = [] := List.length_eq_zero_iff.1 (by omega)
    exact .nil h
  | succ n ih =>
    intro va buf s C hn hva h
    by_cases h0 : buf.length = 0
    · obtain rfl : buf = [] := List.length_eq_zero_iff.1 h0
      exact .nil h
    by_cases hacc : ¬ Accessible s d va
    · exact copyoutLoop_bad h0 hva hacc
    rw [not_not] at hacc
    obtain ⟨hkb, s₁, C₁, he, hd₁, hput, hsame, hf, ho, hq⟩ :=
      copyoutLoop_page (n := n) hk h0 hva h hacc
    have hpos : 0 < pgsize - va % pgsize := Nat.sub_pos_of_lt (Nat.mod_lt _ (by decide))
    rw [he]
    generalize hk : pgsize - va % pgsize = k at *
    have hnext : va + k < u32 := by
      simp only [pgsize, u32, kernbase] at *
      omega
    have hrec := ih (va + k) (buf.drop k) s₁ C₁ (by rw [List.length_drop]; omega) hnext hd₁
    -- The bytes before the next page are in the page of `va`, so the loop cannot end there.
    have hge : ∀ i, ¬ Accessible s d ((va + i) % u32) → k ≤ i := by
      intro i hbad
      by_contra hlt
      have hdiv : (va + i) % u32 / pgsize = va / pgsize := by
        simp only [pgsize, u32, kernbase] at *
        omega
      exact hbad ((accessible_congr hdiv).1.2 hacc)
    have hshift : ∀ i, (Accessible s₁ d ((va + k + i) % u32) ↔
        Accessible s d ((va + (k + i)) % u32)) ∧
        (HasTable s₁ d ((va + k + i) % u32) ↔ HasTable s d ((va + (k + i)) % u32)) := by
      intro i
      rw [Nat.add_assoc]
      exact hsame _
    have hlen : ∀ {i}, k + i < buf.length → i < (buf.drop k).length := fun hi => by
      rw [List.length_drop]
      omega
    refine ⟨fun hall => ?_, fun i hi hbefore hbad htab => ?_, fun i hi hbefore htab => ?_⟩
    · obtain ⟨s', C', hr, hd', hput', hf', ho', hq'⟩ := hrec.done fun i hi => by
        rw [List.length_drop] at hi
        exact (hshift i).1.2 (hall _ (by omega))
      exact ⟨s', C', hr, hd', hput.take_drop hput', hf'.trans hf, ho'.trans ho,
        fun q hne => (hq' q hne).trans (hq q hne)⟩
    · obtain ⟨j, rfl⟩ := Nat.exists_eq_add_of_le (hge i hbad)
      exact hrec.denied j (hlen hi) (fun j' hj' => (hshift j').1.2 (hbefore _ (by omega)))
        (mt (hshift j).1.1 hbad) ((hshift j).2.2 htab)
    · obtain ⟨j, rfl⟩ := Nat.exists_eq_add_of_le (hge i fun ha => htab ha.hasTable)
      exact hrec.fault j (hlen hi) (fun j' hj' => (hshift j').1.2 (hbefore _ (by omega)))
        (mt (hshift j).2.1 htab)

theorem copyout_ends (buf : List (BitVec 8)) (hk : UserOnly U) (hva : va < u32)
    (h : Data W d g U C s) : Ends W d g U C s va buf (copyout d va buf s) :=
  copyoutLoop_ends hk _ va buf s C (Nat.le_succ _) hva h

end

/-! ## Outcomes -/

theorem exists_first {p : Nat → Prop} (h : ∃ i < n, ¬ p i) : ∃ i < n, ¬ p i ∧ ∀ j < i, p j := by
  classical
  obtain ⟨hlt, hbad⟩ := Nat.find_spec h
  refine ⟨Nat.find h, hlt, hbad, fun j hj => ?_⟩
  by_contra hj'
  exact Nat.find_min h hj ⟨Nat.lt_trans hj hlt, hj'⟩

/-- `m'` is `m` with the bytes `bs` from the user address `va` on, and nothing else is different. -/
structure Wrote (m : Mem) (d : Ppn) (va : Nat) (bs : List (BitVec 8)) (m' : Mem) : Prop where
  free : m'.free = m.free
  oom : m'.oom = m.oom
  mapping : mapping m' d = mapping m d
  rest : ∀ q, (∀ n < userPages, ∀ w, Vm.mapping m d n = some w → pteAddr w ≠ q) →
    m'.page q = m.page q
  byte : ∀ a < kernbase, ∀ w, lookup m.page d a = some w → (m'.page (pteAddr w)).byte (a % pgsize) =
    if va ≤ a ∧ a < va + bs.length then bs.getD (a - va) 0 else (m.page (pteAddr w)).byte (a % pgsize)

/-- What a call of `copyout` promises: the bytes are written if the user may get at all pages of the
range, and -1 is returned otherwise. -/
def CopyoutOk (m : Mem) (d : Ppn) (va : Nat) (bs : List (BitVec 8)) : Prop :=
  (∀ i < bs.length, Accessible m d ((va + i) % u32)) ∧
    (∃ m', copyout d va bs m = .ok 0 m' ∧ Wrote m d va bs m') ∨
  (∃ i < bs.length, ¬ Accessible m d ((va + i) % u32)) ∧ ∃ m', copyout d va bs m = .ok (-1) m'

theorem Put.wrote {R : Type} {W : World R} {m' : Mem} (hd : Data W d empty (mapping m d) C m')
    (hput : Put (pageOf m.page d) va bs C) (hf : m'.free = m.free) (ho : m'.oom = m.oom)
    (hq : ∀ q, (∀ n < userPages, ∀ w, mapping m d n = some w → pteAddr w ≠ q) →
      m'.page q = m.page q) :
    Wrote m d va bs m' := by
  refine ⟨hf, ho, ?_, hq, fun a ha w hw => ?_⟩
  · funext n
    by_cases hn : n < 2 ^ 20
    · exact hd.mapping_eq hn
    · rw [mapping, mapping, if_neg hn, if_neg hn]
  · have hdiv : lookup m.page d (vaOf (a / pgsize)) = some w := by rwa [lookup_div]
    have hu : a / pgsize < userPages := by
      simp only [pgsize, kernbase, userPages] at *
      omega
    have hm : mapping m d (a / pgsize) = some w :=
      (mapping_of_lt m d (lt_pages hu)).trans hdiv
    have h1 := hput a
    unfold byteAt at h1
    rw [← hd.data _ hu w hm, pageOf_eq hdiv] at h1
    exact h1

/-- **copyout.** On a directory that maps no page of the kernel for the user, for every address and
every list of bytes, `copyout` writes exactly these bytes if the user may get at all pages of the
range, and returns -1 otherwise, if and only if there is a table for the first page that the user
may not get at. -/
theorem copyout_total_iff (L : Layout) (m : Mem) (d : Ppn) (va : Nat) (bs : List (BitVec 8))
    (hs : Sound L m d) (hk : UserOnly (mapping m d)) (hva : va < u32) :
    CopyoutOk m d va bs ↔ ∀ i < bs.length, (∀ j < i, Accessible m d ((va + j) % u32)) →
      HasTable m d ((va + i) % u32) := by
  obtain ⟨R, r, hb⟩ := hs
  have hdata : Data (around L m r) d empty (mapping m d) (pageOf m.page d) m :=
    (at_of_books hb m.oom).filled
  have hends := copyout_ends bs hk hva hdata
  constructor
  · intro hok i hi hbefore
    by_contra htab
    obtain ⟨s', he⟩ := hends.fault i hi hbefore htab
    rcases hok with ⟨-, m', hr, -⟩ | ⟨-, m', hr⟩
    · rw [hr] at he
      cases he
    · rw [hr] at he
      cases he
  · intro htab
    by_cases hall : ∀ i < bs.length, Accessible m d ((va + i) % u32)
    · obtain ⟨m', C', hr, hd', hput, hf, ho, hq⟩ := hends.done hall
      exact .inl ⟨hall, m', hr, hput.wrote hd' hf ho hq⟩
    · have hex : ∃ i < bs.length, ¬ Accessible m d ((va + i) % u32) := by
        simpa using hall
      obtain ⟨i, hi, hbad, hbefore⟩ := exists_first hex
      obtain ⟨m', hr⟩ := hends.denied i hi hbefore hbad (htab i hi hbefore)
      exact .inr ⟨hex, m', hr⟩

/-- Three bytes in the one page of the small memory. -/
theorem copyout_total_iff_tiny : CopyoutOk tiny 0x102 8 [1, 2, 3] := by
  refine (copyout_total_iff smallKernel tiny 0x102 8 [1, 2, 3] tiny_sound tiny_user (by decide)).2
    fun i hi _ => ?_
  have hdir : pdx ((8 + i) % u32) = 0 := by
    have hi' : i < 3 := hi
    refine Fin.ext ?_
    simp only [pdx, Fin.ofNat, u32]
    show (8 + i) % 0x100000000 / 2 ^ 22 % 1024 = 0
    omega
  rw [HasTable, hdir, tiny_target.2 ⟨rfl, rfl⟩]
  exact Option.some_ne_none _

/-! ## A missing table -/

theorem setupkvm_succeeds {L : Layout} {d₀ : Ppn} (hs : Sound L m d₀)
    (hroom : 1025 ≤ m.free.length) :
    ∃ d m', setupkvm L { m with oom := [] } = .ok (some d) m' ∧ Sound L m' d ∧
    UserOnly (mapping m' d) := by
  obtain ⟨R, r, hb⟩ := hs
  classical
  have htw := setupkvm_twin (W := shelf L m d₀ r) (U := fun _ => none) (E := fun _ _ _ => False)
    (g := empty) rfl rfl
  have hat := at_shelf hb []
  have hample := setupkvm_ample (L := L) (k := 0) (E := fun _ _ => True) (fun _ => trivial)
    { m with oom := [] } ⟨rfl, hb.nodup, hroom⟩
  cases hr : setupkvm L { m with oom := [] } with
  | error e m' => exact (htw.triple.error hat hr).elim
  | ok v m' =>
    rw [hr] at hample
    obtain ⟨d, rfl, -⟩ := hample
    obtain ⟨U, ha, hk, -⟩ := htw.triple.ok hat hr
    refine ⟨d, m', rfl, .of_at ha, fun n w hn hw => ?_⟩
    by_cases hlt : n < 2 ^ 20
    · rw [ha.mapping_eq hlt] at hw
      exact hk.not_user n w hw
    · rw [mapping, if_neg hlt] at hw
      cases hw

/-- The directory has no table at entry `j`. -/
structure Untabled (d : Ppn) (j : Fin 1024) (s : Mem) : Prop where
  used : d ∉ s.free
  self : ∀ i, target (s.page d i) ≠ some d
  none : target (s.page d j) = none

section
variable {L : Layout} {d : Ppn} {j : Fin 1024}

theorem walkpgdir_untabled (hj : j ≠ pdx va) :
    Triple (Untabled d j) (walkpgdir d va true) (fun v s => Untabled d j s ∧
      ∀ e, v = some e → e.1 ≠ d) fun _ _ => True := by
  intro s h
  unfold walkpgdir
  have hrd : rd d (pdx va) s = .ok (s.page d (pdx va)) s := rfl
  rw [bind_ok hrd]
  by_cases hp : present (s.page d (pdx va)) = true
  · rw [if_pos hp]
    refine ⟨h, fun e he hd => h.self (pdx va) ?_⟩
    cases he
    rw [target_of_present hp]
    exact congrArg some hd
  rw [if_neg hp, if_neg (by decide)]
  by_cases h0 : s.oom.head? = some true ∨ s.free = []
  · rw [bind_ok (kalloc_none h0)]
    exact ⟨⟨h.used, h.self, h.none⟩, nofun⟩
  obtain ⟨hoom, hne⟩ := not_or.1 h0
  obtain ⟨p, l, hl⟩ := List.exists_cons_of_ne_nil hne
  have hused := h.used
  rw [hl, List.mem_cons, not_or] at hused
  rw [bind_ok (kalloc_some hoom hl)]
  have hdir : ∀ i, (update (update s.page p (Page.const 0)) d (update
      (update s.page p (Page.const 0) d) (pdx va) (pte p (pteP ||| pteW ||| pteU)))) d i =
      if i = pdx va then pte p (pteP ||| pteW ||| pteU) else s.page d i := by
    intro i
    rw [update_self, update_apply, update_of_ne hused.1]
  refine ⟨⟨hused.2, fun i ht => ?_, ?_⟩, fun e he hd => ?_⟩
  · have ht' := (congrArg target (hdir i)).symm.trans ht
    split at ht'
    · rw [target_of_present (by rw [present_pte]; decide), pteAddr_pte] at ht'
      exact hused.1 (Option.some.inj ht').symm
    · exact h.self i ht'
  · refine (congrArg target (hdir j)).trans ?_
    rw [if_neg hj]
    exact h.none
  · cases he
    exact hused.1 hd.symm

theorem mapTurn_untabled {a : Nat} {w : Word} {x : M Int} (hj : j ≠ pdx a)
    (hx : Triple (Untabled d j) x (fun _ => Untabled d j) fun _ _ => True) :
    Triple (Untabled d j) (do
      match ← walkpgdir d a true with
      | none => return -1
      | some (tab, i) =>
        let w' ← rd tab i
        if present w' then
          panic "remap"
        else
          wr tab i w
          x) (fun _ => Untabled d j) fun _ _ => True := by
  refine (walkpgdir_untabled hj).bind fun v => ?_
  rcases v with _ | ⟨tab, i⟩
  · exact .pure fun s h => h.1
  refine (Triple.reads (g := fun s : Mem => s.page tab i) fun s _ => rfl).bind fun _ =>
    .ite (fun _ => .throw fun _ _ => trivial) fun _ => ?_
  refine Triple.bind (.modify (Q := fun _ => Untabled d j) fun s h => ?_) fun _ => hx
  have hne : tab ≠ d := h.1.2 _ rfl
  have hd : (s.setPage tab (update (s.page tab) i w)).page d = s.page d :=
    update_of_ne hne.symm _ _
  exact ⟨h.1.1.used, by rw [hd]; exact h.1.1.self, by rw [hd]; exact h.1.1.none⟩

theorem mapLoop_untabled (perm : BitVec 12) : ∀ (n a : Nat) (pa : Ppn),
    (∀ k ≤ n, j ≠ pdx (a + k * pgsize)) →
    Triple (Untabled d j) (mapLoop d perm n a pa) (fun _ => Untabled d j) fun _ _ => True := by
  intro n
  induction n with
  | zero =>
    intro a pa hj
    unfold mapLoop
    exact mapTurn_untabled (by simpa using hj 0 (Nat.le_refl 0)) (.pure fun _ h => h)
  | succ n ih =>
    intro a pa hj
    unfold mapLoop
    refine mapTurn_untabled (by simpa using hj 0 (Nat.zero_le _)) (ih _ _ fun k hk => ?_)
    have h1 := hj (k + 1) (by omega)
    rwa [Nat.succ_mul, Nat.add_comm (k * pgsize), ← Nat.add_assoc] at h1

theorem mapKernel_untabled : ∀ (es : List Kmap) (lo : Nat), Fits lo es →
    (∀ e ∈ es, ∀ k, k * pgsize < (e.physEnd + u32 - e.physStart) % u32 →
      j ≠ pdx (e.virt + k * pgsize)) →
    Triple (Untabled d j) (mapKernel L d es) (fun v s => ∀ d', v = some d' → Untabled d' j s)
    fun _ _ => True := by
  intro es
  induction es with
  | nil =>
    intro _ _ _
    unfold mapKernel
    refine .pure fun s h d' hd => ?_
    cases hd
    exact h
  | cons e es ih =>
    intro lo hf hj
    obtain ⟨a, n, h1, -, hn, h2, -, hrest⟩ := hf
    unfold mapKernel
    rw [mappages_kernel h1 hn _ h2]
    refine (mapLoop_untabled e.perm n (vaOf a) _ fun k hk => ?_).bind fun v =>
      .ite (fun _ => ?_) fun _ => ?_
    · rw [← h1]
      refine hj e List.mem_cons_self k ?_
      rw [h2]
      exact (Nat.mul_lt_mul_right (by decide)).2 (by omega)
    · exact (Triple.trivially (x := freevm L d)).bind fun _ => .pure fun s _ d' hd => by cases hd
    · exact ih (a + n + 1) hrest fun e' he' => hj e' (List.mem_cons_of_mem _ he')

theorem kmap_range (L : Layout) : ∀ e ∈ kmap L,
    kernbase ≤ e.virt ∧ e.virt + (e.physEnd + u32 - e.physStart) % u32 ≤ kernbase + phystop ∨
      devspace ≤ e.virt ∧ e.virt + (e.physEnd + u32 - e.physStart) % u32 ≤ u32 := by
  have h1 := L.text
  have h2 := L.lt
  have h3 := L.fits
  simp only [kmap, List.mem_cons, List.not_mem_nil, or_false, forall_eq_or_imp, forall_eq,
    u32, kernlink, kernbase, extmem, phystop, devspace] at *
  omega

theorem setupkvm_untabled (hj : 568 ≤ j.val ∧ j.val < 1016) :
    Triple (fun s => s.free.Nodup) (setupkvm L) (fun v s => ∀ d, v = some d → Untabled d j s)
      fun _ _ => True := by
  intro s hnd
  unfold setupkvm
  by_cases h0 : s.oom.head? = some true ∨ s.free = []
  · rw [bind_ok (kalloc_none h0)]
    exact nofun
  obtain ⟨hoom, hne⟩ := not_or.1 h0
  obtain ⟨p, l, hl⟩ := List.exists_cons_of_ne_nil hne
  rw [bind_ok (kalloc_some hoom hl)]
  rw [hl, List.nodup_cons] at hnd
  have hzero : ∀ i, target (update s.page p (Page.const 0) p i) = none := by
    intro i
    simp [Page.const]
  have h1 : Untabled p j
      { s with page := update s.page p (Page.const 0), free := l, oom := s.oom.tail } :=
    ⟨hnd.1, fun i ht => Option.some_ne_none _ (ht.symm.trans (hzero i)), hzero j⟩
  refine mapKernel_untabled (L := L) (kmap L) userPages (kmap_fits L) (fun e he k hk heq => ?_) _ h1
  have hv := congrArg Fin.val heq
  have hr := kmap_range L e he
  simp only [pdx, Fin.ofNat, kernbase, phystop, devspace, u32, pgsize] at *
  omega

end

/-- Exec computes the address `0xFD003000` for a string of `0x2ffffff` bytes and an image of three
pages. On a directory that `setupkvm` has built there is no table for it, and the null pointer is
followed. -/
theorem copyout_follows_null : ∃ d m, setupkvm smallKernel tiny = .ok (some d) m ∧
    (3 * pgsize + u32 - (0x2ffffff + 1) % u32) % u32 / 4 * 4 = 0xFD003000 ∧
    (∃ m', copyout d 0xFD003000 (List.replicate 0x2ffffff 1 ++ [0]) m = .error "trap" m') ∧
    ¬ CopyoutOk m d 0xFD003000 (List.replicate 0x2ffffff 1 ++ [0]) := by
  obtain ⟨d, m, hr, hs, hk⟩ := setupkvm_succeeds tiny_sound (by
    rw [tiny_free, length_laterPages]
    decide)
  have hun := (setupkvm_untabled (L := smallKernel) (j := pdx 0xFD003000) (by decide)).ok
    (s := tiny) (by rw [tiny_free]; exact laterPages_nodup) hr d rfl
  have htab : ¬ HasTable m d ((0xFD003000 + 0) % u32) := fun h => h hun.none
  have hlen : 0 < (List.replicate 0x2ffffff (1 : BitVec 8) ++ [0]).length :=
    List.length_pos_of_ne_nil (List.append_ne_nil_of_right_ne_nil _ (List.cons_ne_nil _ _))
  obtain ⟨R, r, hb⟩ := hs
  have hends := copyout_ends (W := around smallKernel m r) (C := pageOf m.page d)
    (List.replicate 0x2ffffff (1 : BitVec 8) ++ [0]) hk (show 0xFD003000 < u32 by decide)
    (at_of_books hb m.oom).filled
  obtain ⟨m', he⟩ := hends.fault 0 hlen nofun htab
  refine ⟨d, m, hr, by decide, ⟨m', he⟩, ?_⟩
  rintro (⟨-, m'', hok, -⟩ | ⟨-, m'', hok⟩)
  · rw [hok] at he
    cases he
  · rw [hok] at he
    cases he

end Xv6.Vm
