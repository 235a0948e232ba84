import Xv6.Vm.Proof.Data
import Xv6.Vm.Proof.Ample
import Xv6.Vm.Proof.Space

/-!
# fork's copy of the memory

`copyuvm` gives the child a page of its own for each page of the parent, with the same contents and
the same flags. The pages of the two processes are apart from then on, so that neither sees what the
other one writes.
-/

namespace Xv6.Vm

open Lib Function

/-! ## Stores after the copy -/

/-- The memory after user code stores a byte, if it can. -/
def Mem.stored (s : Mem) (d : Ppn) (va : Nat) (b : BitVec 8) : Mem :=
  match lookup s.page d va with
  | some w =>
    if user w && w.getLsbD 1 then
      s.setPage (pteAddr w) ((s.page (pteAddr w)).copyIn (va % pgsize) [b])
    else
      s
  | none => s

theorem store_eq (s : Mem) (d : Ppn) (va : Nat) (b : BitVec 8) :
    store d va b s = .ok () (s.stored d va b) := by
  unfold store Mem.stored lookup
  rw [bind_ok (walkpgdir_eq d va s)]
  cases ht : target (s.page d (pdx va)) with
  | none => rfl
  | some tab =>
    have hrd : rd tab (ptx va) s = .ok (s.page tab (ptx va)) s := rfl
    simp only [Option.map_some, Option.bind_some]
    rw [bind_ok hrd]
    by_cases hp : present (s.page tab (ptx va)) = true
    · rw [entry_of_present hp]
      simp only [hp, Bool.true_and]
      split <;> rfl
    · rw [entry_of_not_present hp]
      simp only [hp, Bool.false_and, Bool.false_eq_true, if_false]
      rfl

/-- Stores by the processes of two directories. -/
def stores (dir : Bool → Ppn) : List (Bool × Nat × BitVec 8) → M Unit
  | [] => pure ()
  | (who, va, b) :: ws => do
    store (dir who) (va % u32) b
    stores dir ws

theorem stores_cons (dir : Bool → Ppn) (who : Bool) (va : Nat) (b : BitVec 8)
    (ws : List (Bool × Nat × BitVec 8)) (s : Mem) :
    stores dir ((who, va, b) :: ws) s = stores dir ws (s.stored (dir who) (va % u32) b) := by
  rw [stores, bind_ok (store_eq ..)]

/-- No page has two owners among the parts of the two directories, and neither maps a page of the
kernel for the user. -/
structure Split (dir : Bool → Ppn) (s : Mem) : Prop where
  excl : Exclusive fun x : Bool × Part => own s.page (some (dir x.1)) empty x.2
  kern : ∀ who, UserOnly (mapping s (dir who))

/-- The pages of `d` are unchanged. -/
def SamePages (d : Ppn) (s t : Mem) : Prop :=
  ∀ p q, own s.page (some d) empty p = some q → t.page q = s.page q

section
variable {dir : Bool → Ppn} {who who' : Bool} {d q : Ppn} {s t : Mem} {n va : Nat}
  {b : BitVec 8} {w : Word}

theorem own_of_lookup (hn : n < userPages) (hw : lookup s.page d (vaOf n) = some w) :
    own s.page (some d) empty (.page n) = some (pteAddr w) := by
  simp [own, hn, hw]

theorem own_of_user (hk : UserOnly (mapping s d)) (hva : va < u32)
    (hw : lookup s.page d va = some w) (hu : user w = true) :
    own s.page (some d) empty (.page (va / pgsize)) = some (pteAddr w) := by
  have hm := mapping_div (s := s) (d := d) hva
  exact own_of_lookup (hk.lt (hm.trans hw) hu) (by rwa [lookup_div])

theorem SamePages.congr (h : SamePages d s t) :
    t.page d = s.page d ∧ ∀ i tab, target (s.page d i) = some tab → t.page tab = s.page tab :=
  ⟨h .dir d rfl, fun i tab ht => h (.table i) tab ht⟩

theorem SamePages.own_eq (h : SamePages d s t) :
    own t.page (some d) empty = own s.page (some d) empty :=
  own_congr fun d' hd => by
    cases hd
    exact h.congr

theorem SamePages.lookup_eq (h : SamePages d s t) (va : Nat) :
    lookup t.page d va = lookup s.page d va :=
  lookup_congr h.congr.1 h.congr.2 va

theorem SamePages.mapping_eq (h : SamePages d s t) : mapping t d = mapping s d := by
  funext n
  unfold mapping
  rw [h.lookup_eq]

theorem SamePages.userByte_eq (h : SamePages d s t) (hk : UserOnly (mapping s d)) (hva : va < u32) :
    userByte t d va = userByte s d va := by
  unfold userByte
  rw [h.lookup_eq]
  cases hw : lookup s.page d va with
  | none => rfl
  | some w =>
    simp only [Option.bind_some]
    by_cases hu : user w = true
    · rw [h _ _ (own_of_user hk hva hw hu)]
    · rw [if_neg hu, if_neg hu]

theorem Split.own_setPage (h : Split dir s)
    (hq : own s.page (some (dir who)) empty (.page n) = some q) (pg : Page) (who' : Bool) :
    own (s.setPage q pg).page (some (dir who')) empty = own s.page (some (dir who')) empty ∧
      ∀ va, lookup (s.setPage q pg).page (dir who') va = lookup s.page (dir who') va := by
  have hc : (s.setPage q pg).page (dir who') = s.page (dir who') ∧ ∀ i tab,
      target (s.page (dir who') i) = some tab → (s.setPage q pg).page tab = s.page tab := by
    refine ⟨update_of_ne ?_ _ _, fun i tab ht => update_of_ne ?_ _ _⟩
    · intro he
      cases h.excl (i := (who, .page n)) (j := (who', .dir)) hq (congrArg some he)
    · rintro rfl
      cases h.excl (i := (who, .page n)) (j := (who', .table i)) hq ht
  refine ⟨own_congr fun d' hd => ?_, fun va => lookup_congr hc.1 hc.2 va⟩
  cases hd
  exact hc

theorem Split.setPage (h : Split dir s) (hq : own s.page (some (dir who)) empty (.page n) = some q)
    (pg : Page) : Split dir (s.setPage q pg) := by
  constructor
  · intro x y q' hx hy
    simp only [(h.own_setPage hq pg _).1] at hx hy
    exact h.excl hx hy
  · intro who'
    have hm : mapping (s.setPage q pg) (dir who') = mapping s (dir who') := by
      funext n
      unfold mapping
      rw [(h.own_setPage hq pg who').2]
    rw [hm]
    exact h.kern who'

theorem Split.stored_cases (h : Split dir s) (who : Bool) (hva : va < u32) (b : BitVec 8) :
    s.stored (dir who) va b = s ∨ ∃ n q, own s.page (some (dir who)) empty (.page n) = some q ∧
      s.stored (dir who) va b = s.setPage q ((s.page q).copyIn (va % pgsize) [b]) := by
  unfold Mem.stored
  split
  · next w hw =>
    split
    · next hu =>
      rw [Bool.and_eq_true] at hu
      exact .inr ⟨_, _, own_of_user (h.kern who) hva hw hu.1, rfl⟩
    · exact .inl rfl
  · exact .inl rfl

theorem Split.stored (h : Split dir s) (hva : va < u32) (b : BitVec 8) :
    Split dir (s.stored (dir who) va b) := by
  rcases h.stored_cases who hva b with he | ⟨n, q, hq, he⟩
  · rwa [he]
  · rw [he]
    exact h.setPage hq _

theorem Split.stored_other (h : Split dir s) (hne : who' ≠ who) (hva : va < u32) (b : BitVec 8) :
    SamePages (dir who') s (s.stored (dir who) va b) := by
  intro p q' hp
  rcases h.stored_cases who hva b with he | ⟨n, q, hq, he⟩
  · rw [he]
  · rw [he]
    refine update_of_ne ?_ _ _
    rintro rfl
    exact hne (congrArg Prod.fst (h.excl (i := (who', p)) (j := (who, .page n)) hp hq))

theorem SamePages.stored (h : SamePages (dir who) s t) (hs : Split dir s)
    (hva : va < u32) (b : BitVec 8) :
    SamePages (dir who) (s.stored (dir who) va b) (t.stored (dir who) va b) := by
  unfold Mem.stored
  rw [h.lookup_eq]
  split
  · next w hw =>
    split
    · next hu =>
      rw [Bool.and_eq_true] at hu
      have hq := own_of_user (hs.kern who) hva hw hu.1
      intro p q' hp
      rw [(hs.own_setPage hq _ who).1] at hp
      rw [h _ _ hq]
      by_cases hqq : q' = pteAddr w
      · subst hqq
        simp [Mem.setPage]
      · exact (update_of_ne hqq _ _).trans ((h p q' hp).trans (update_of_ne hqq _ _).symm)
    · exact h
  · exact h

theorem Split.stores (who : Bool) : ∀ (ws : List (Bool × Nat × BitVec 8)) (s t : Mem),
    Split dir s → Split dir t →
    SamePages (dir who) s t → ∃ s' t', stores dir ws s = .ok () s' ∧
      Vm.stores dir (ws.filter fun w => w.1 == who) t = .ok () t' ∧ Split dir s' ∧
      SamePages (dir who) s' t'
  | [], s, t, hs, _, h => ⟨s, t, rfl, rfl, hs, h⟩
  | (who', va, b) :: ws, s, t, hs, ht, h => by
    have hva : va % u32 < u32 := Nat.mod_lt _ (by decide)
    rw [stores_cons]
    by_cases hw : who' = who
    · subst hw
      rw [List.filter_cons_of_pos (by simp), stores_cons]
      exact Split.stores who' ws _ _ (hs.stored hva b) (ht.stored hva b) (h.stored hs hva b)
    · rw [List.filter_cons_of_neg (by simpa using hw)]
      refine Split.stores who ws _ _ (hs.stored hva b) ht ?_
      have ho := hs.stored_other (Ne.symm hw) hva b
      intro p q hp
      rw [ho.own_eq] at hp
      exact (h p q hp).trans (ho p q hp).symm

end

/-! ## The child -/

section
variable {R : Type} {L : Layout} {m m' : Mem} {d child : Ppn} {r : R → Option Ppn}
  {U : Nat → Option Word}

theorem child_free (hb : Books L (Sum.elim r (own m.page (some d) empty)) m.free)
    (ha : Maps (shelf L m d r) child empty U m' m') {p : Part} {q : Ppn}
    (hq : own m'.page (some child) empty p = some q) : q ∈ m.free := by
  by_contra hf
  obtain ⟨h, hh⟩ := (hb.ledger.cover q ⟨(ha.own_not_free hq).1, hf⟩).resolve_left id
  exact ha.own_ne_rest hq h hh

theorem parent_same (ha : Maps (shelf L m d r) child empty U m' m') : SamePages d m m' :=
  fun p q hq => ha.frame (.inr p) q hq

theorem child_split (hk : UserOnly (mapping m d)) (ha : Maps (shelf L m d r) child empty U m' m')
    (hk' : UserOnly (mapping m' child)) : Split (fun who => if who then child else d) m' := by
  have hp := parent_same ha
  constructor
  · have hold : ∀ x : Bool × Part, own m'.page (some (if x.1 then child else d)) empty x.2 =
        Sum.elim (shelf L m d r).r (own m'.page (some child) empty)
          (if x.1 then .inr x.2 else .inl (.inr x.2)) := by
      rintro ⟨who, p⟩
      cases who with
      | false => exact congrFun hp.own_eq p
      | true => rfl
    intro x y q hx hy
    have h := ha.books.ledger.excl ((hold x).symm.trans hx) ((hold y).symm.trans hy)
    obtain ⟨_ | _, p⟩ := x <;> obtain ⟨_ | _, p'⟩ := y <;> simp_all
  · intro who
    cases who with
    | false =>
      simp only [Bool.false_eq_true, if_false, hp.mapping_eq]
      exact hk
    | true => exact hk'

end

theorem or_pteP {f : BitVec 12} (h : f.getLsbD 0 = true) : f ||| pteP = f := by
  ext i hi
  by_cases h0 : i = 0
  · subst h0
    simpa using h
  · simp [h0]

theorem pteFlags_present {w : Word} (h : present w = true) : (pteFlags w).getLsbD 0 = true := by
  rw [pteFlags, BitVec.getLsbD_extractLsb']
  simpa [present] using h

/-- **fork's copy.** Let `copyuvm(pgdir, sz)` return a directory. It maps exactly the pages of
`[0, PGROUNDUP(sz))`, with the parent's flags and contents, in pages that were free, that are
pairwise distinct and that are not the parent's. The parent's tables and pages are unchanged. Then,
whatever the two processes store, each one reads what it would read if it had made its own stores
alone. -/
theorem copyuvm_exact (L : Layout) (m : Mem) (d : Ppn) (sz : Nat) (hs : Sound L m d)
    (hk : UserOnly (mapping m d)) (hsz : sz < kernbase) (oom : List Bool) (child : Ppn) (m' : Mem)
    (h : copyuvm L d sz { m with oom := oom } = .ok (some child) m') :
    (∀ n, vaOf n < pgroundup sz → ∃ w p, mapping m d n = some w ∧
      mapping m' child n = some (pte p (pteFlags w)) ∧ p ∈ m.free ∧
      m'.page p = m.page (pteAddr w)) ∧
    (∀ n < userPages, pgroundup sz ≤ vaOf n → mapping m' child n = none) ∧
    (∀ n < userPages, ∀ w, mapping m' child n = some w →
      (∀ n' < userPages, ∀ w', mapping m' child n' = some w' → pteAddr w = pteAddr w' → n = n') ∧
      ∀ n' < userPages, ∀ w', mapping m d n' = some w' → pteAddr w ≠ pteAddr w') ∧
    (m'.page d = m.page d ∧ (∀ i tab, target (m.page d i) = some tab → m'.page tab = m.page tab) ∧
      ∀ n < userPages, ∀ w, mapping m d n = some w → m'.page (pteAddr w) = m.page (pteAddr w)) ∧
    ∀ (ws : List (Bool × Nat × BitVec 8)) (who : Bool), ∃ m₁ m₂,
      stores (fun who => if who then child else d) ws m' = .ok () m₁ ∧
      stores (fun who => if who then child else d) (ws.filter fun w => w.1 == who) m' = .ok () m₂ ∧
      ∀ va < u32, userByte m₁ (if who then child else d) va =
      userByte m₂ (if who then child else d) va := by
  obtain ⟨R, r, hb⟩ := hs
  classical
  have htw := copyuvm_data (W := shelf L m d r) (g := empty) (U := fun _ => none) (E := anyStop)
    (readable_shelf r) rfl rfl (Nat.le_of_lt hsz) (.inr fun _ _ _ => trivial)
  obtain ⟨U₀, U, hdata, hker, hc⟩ := htw.triple.ok (at_shelf hb oom) h
  have ha := hdata.toAt
  have hle : pagesBelow sz ≤ userPages := pagesBelow_le.2 (Nat.le_of_lt hsz)
  have hlt : ∀ {n}, vaOf n < pgroundup sz ↔ n < pagesBelow sz := fun {n} => by
    rw [pgroundup_eq (Nat.le_of_lt hsz)]
    exact Nat.mul_lt_mul_right (by decide)
  have hbig : ∀ {n : Nat}, n < userPages → n < 2 ^ 20 := fun hn => Nat.lt_of_lt_of_le hn (by decide)
  have hparent : ∀ {n w}, n < userPages → mapping m d n = some w →
      own m.page (some d) empty (.page n) = some (pteAddr w) := fun hn hw =>
    own_of_lookup hn ((mapping_of_lt m d (hbig hn)).symm.trans hw)
  have hsame := parent_same ha
  have hkern : UserOnly (mapping m' child) := by
    intro n w hn hw
    by_cases hlt : n < 2 ^ 20
    · rw [ha.mapping_eq hlt, hc.same n (by omega)] at hw
      exact hker.not_user n w hw
    · rw [mapping, if_neg hlt] at hw
      cases hw
  refine ⟨fun n hn => ?_, fun n hn hge => ?_, fun n hn w hw => ⟨fun n' hn' w' hw' he => ?_,
    fun n' hn' w' hw' he => ?_⟩,
    ⟨hsame.congr.1, hsame.congr.2, fun n hn w hw => hsame _ _ (hparent hn hw)⟩, fun ws who => ?_⟩
  · have hn' := hlt.1 hn
    have hu : n < userPages := Nat.lt_of_lt_of_le hn' hle
    obtain ⟨w, p, hw, hU⟩ := hc.copied n (Nat.zero_le n) hn'
    have hpres : present w = true := by
      obtain ⟨t, -, he⟩ := Option.bind_eq_some_iff.1 hw
      unfold entry at he
      split at he
      · next hp => exact Option.some.inj he ▸ hp
      · cases he
    rw [or_pteP (pteFlags_present hpres)] at hU
    have hpage := hdata.data n hu _ hU
    have hown := ha.own_page hu hU
    rw [pteAddr_pte] at hpage hown
    refine ⟨w, p, (mapping_of_lt m d (hbig hu)).trans hw, (ha.mapping_eq (hbig hu)).trans hU,
      child_free hb ha hown, ?_⟩
    rw [hpage, pageOf_eq hw]
    rfl
  · rw [ha.mapping_eq (hbig hn), hc.same n fun hcn => Nat.not_lt.2 hge (hlt.2 hcn.2)]
    exact hker.user_none n hn
  · rw [ha.mapping_eq (hbig hn)] at hw
    rw [ha.mapping_eq (hbig hn')] at hw'
    exact hdata.page_inj hn hw hn' hw' he
  · rw [ha.mapping_eq (hbig hn)] at hw
    refine ha.own_ne_rest (ha.own_page hn hw) (.inr (.page n')) ?_
    rw [he]
    exact hparent hn' hw'
  · have hsplit := child_split hk ha hkern
    obtain ⟨m₁, m₂, h1, h2, hs1, h3⟩ := hsplit.stores who ws m' m' hsplit fun _ _ _ => rfl
    exact ⟨m₁, m₂, h1, h2, fun va hva => (h3.userByte_eq (hs1.kern who) hva).symm⟩

theorem copyuvm_succeeds {L : Layout} {m : Mem} {d : Ppn} {sz : Nat} (hs : Sound L m d)
    (hsz : sz ≤ kernbase) (hfull : ∀ n, vaOf n < sz → mapping m d n ≠ none)
    (hroom : 1025 + pagesBelow sz ≤ m.free.length) :
    ∃ child m', copyuvm L d sz { m with oom := [] } = .ok (some child) m' := by
  obtain ⟨v, m', hr, -⟩ := hs.copyuvm_ok hsz hfull []
  obtain ⟨R, r, hb⟩ := hs
  obtain ⟨child, rfl, -⟩ :=
    (copyuvm_ample (L := L) (k := 0)).ok (s := { m with oom := [] }) ⟨rfl, hb.nodup, hroom⟩ hr
  exact ⟨child, m', hr⟩

theorem copyuvm_exact_tiny :
    ∃ child m', copyuvm smallKernel 0x102 pgsize tiny = .ok (some child) m' ∧
    ∃ p, mapping m' child 0 = some (pte p (pteFlags (pte 0x104 (pteP ||| pteW ||| pteU)))) ∧
    p ∈ laterPages := by
  have hroom : 1025 + pagesBelow pgsize ≤ tiny.free.length := by
    rw [tiny_free, length_laterPages]
    decide
  obtain ⟨child, m', h⟩ := copyuvm_succeeds tiny_sound (show pgsize ≤ kernbase by decide)
    (fun n hn => by
      have h0 : n = 0 := by
        simp only [vaOf, pgsize] at hn
        omega
      rw [h0, tiny_mapping]
      nofun) hroom
  obtain ⟨hcopy, -⟩ := copyuvm_exact smallKernel tiny 0x102 pgsize tiny_sound tiny_user (by decide)
    [] child m' h
  obtain ⟨w, p, hw, hp, hfree, -⟩ := hcopy 0 (by decide)
  rw [tiny_mapping] at hw
  cases hw
  exact ⟨child, m', h, p, hp, hfree⟩

end Xv6.Vm
