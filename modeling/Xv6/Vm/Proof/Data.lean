import Xv6.Vm.Proof.Uvm

/-!
# What the user pages hold

`allocuvm` adds pages of zeros to a directory, and `copyuvm` pages with the contents of another
directory's pages. Both undo what they have done if they fail. `Put` is what writing bytes at an
address does to the contents of the pages.
-/

namespace Xv6.Vm

open Lib Function

/-! ## Data -/

/-- `Filled`, of one state. -/
abbrev Data {R : Type} (W : World R) (d : Ppn) (g : Bool → Option Ppn) (U : Nat → Option Word)
    (C : Nat → Page) (s : Mem) : Prop := Filled W d g U C s s

/-- The contents of page `n` of directory `src`. -/
def pageOf (m : Ppn → Page) (src : Ppn) (n : Nat) : Page :=
  match lookup m src (vaOf n) with
  | some w => m (pteAddr w)
  | none => Page.const 0

theorem pageOf_eq {m : Ppn → Page} {src : Ppn} {n : Nat} {w : Word}
    (h : lookup m src (vaOf n) = some w) :
    pageOf m src n = m (pteAddr w) := by
  rw [pageOf, h]

section
variable {R α : Type} {W : World R} {d : Ppn} {g : Bool → Option Ppn} {U U' : Nat → Option Word}
  {C : Nat → Page} {s t : Mem} {p q : Ppn} {n : Nat} {w : Word} {E : String → Mem → Mem → Prop}

theorem At.apart (ha : Maps W d g U s t) {x : Part} (hq : own s.page (some d) g x = some q)
    (hx : x ≠ .dir) (hx' : ∀ i, x ≠ .table i) :
    q ≠ d ∧ q ∉ s.free ∧ ∀ i, target (s.page d i) ≠ some q := by
  refine ⟨?_, (ha.own_not_free hq).2, fun i ht => hx' i (ha.own_inj hq (r := .table i) ht)⟩
  rintro rfl
  exact hx (ha.own_inj hq (r := .dir) rfl)

theorem At.filled (ha : Maps W d g U s t) : Filled W d g U (pageOf s.page d) s t :=
  ⟨ha, fun n hn _ hw => (pageOf_eq ((ha.view d rfl n (lt_pages hn)).trans hw)).symm⟩

/-- What holds whatever the pages hold needs no word about the contents. -/
theorem twin_of_filled {x : M α} {Q : α → Mem → Mem → Prop}
    (h : ∀ C, Twin (Filled W d g U C) x Q E) :
    Twin (Maps W d g U) x Q E :=
  fun s t hst => h _ s t hst.filled

theorem twin_of_zero {x : M α} {Q : α → Mem → Mem → Prop} {sz : Nat}
    (h0 : ∀ m < userPages, sz ≤ vaOf m → U m = none)
    (h : ∀ C, (∀ m < userPages, sz ≤ vaOf m → C m = Page.const 0) → Twin (Filled W d g U C) x Q E) :
    Twin (Maps W d g U) x Q E := by
  refine fun s t hst => h _ (fun m hm hle => ?_) s t hst.filled
  rw [pageOf, hst.view d rfl m (lt_pages hm), h0 m hm hle]

theorem KernelOnly.filled (hk : KernelOnly U) (ha : Maps W d g U s t) (C : Nat → Page) :
    Filled W d g U C s t :=
  ⟨ha, fun n hn w hw => by rw [hk.user_none n hn] at hw; cases hw⟩

theorem Filled.page_inj (h : Filled W d g U C s t) (hn : n < userPages)
    (hw : U n = some w) {n' : Nat} {w' : Word} (hn' : n' < userPages) (hw' : U n' = some w')
    (he : pteAddr w = pteAddr w') : n = n' :=
  Part.page.inj (h.own_inj (h.own_page hn hw) (r := .page n') (he ▸ h.own_page hn' hw'))

theorem Filled.write (h : Filled W d g U C s t) (hn : n < userPages)
    (hw : U n = some w) (pg : Page) :
    Filled W d g U (update C n pg) (s.setPage (pteAddr w) pg) (t.setPage (pteAddr w) pg) := by
  refine ⟨h.set_data (h.own_page hn hw) nofun nofun nofun, fun n' hn' w' hw' => ?_⟩
  by_cases hnn : n' = n
  · subst hnn
    cases hw.symm.trans hw'
    rw [update_self]
    exact update_self ..
  · rw [update_of_ne hnn]
    refine (update_of_ne ?_ _ _).trans (h.data n' hn' w' hw')
    exact fun he => hnn (h.page_inj hn' hw' hn hw he)

end

/-! ## allocuvm -/

section
variable {R : Type} {W : World R} {d p : Ppn} {g : Bool → Option Ppn} {U U' : Nat → Option Word}
  {C : Nat → Page} {s t : Mem} {a stop oldsz sz newsz : Nat} {w : Word} {tab : Ppn}
  {E : String → Mem → Mem → Prop}

/-- The view with user pages for the pages from `a` up to the address `stop`. -/
structure Grown (U : Nat → Option Word) (a stop : Nat) (U' : Nat → Option Word) : Prop where
  same : ∀ m, ¬ (a ≤ m ∧ vaOf m < stop) → U' m = U m
  mapped : ∀ m, a ≤ m → vaOf m < stop → ∃ p, U' m = some (pte p (pteW ||| pteU ||| pteP))

theorem Grown.refl (h : stop ≤ vaOf a) : Grown U a stop U := by
  refine ⟨fun _ _ => rfl, fun m hm hlt => ?_⟩
  have : vaOf a ≤ vaOf m := Nat.mul_le_mul_right _ hm
  omega

theorem Grown.step (hlt : vaOf a < stop)
    (h : Grown (update U a (some (pte p (pteW ||| pteU ||| pteP)))) (a + 1) stop U') :
    Grown U a stop U' := by
  refine ⟨fun m hm => ?_, fun m hm hms => ?_⟩
  · rw [h.same m fun hm' => hm ⟨by omega, hm'.2⟩, update_of_ne]
    rintro rfl
    exact hm ⟨Nat.le_refl m, hlt⟩
  · by_cases hma : m = a
    · subst hma
      exact ⟨p, by rw [h.same m (by omega), update_self]⟩
    · exact h.mapped m (by omega) hms

theorem erased_of_same {a₀ : Nat} (h0 : ∀ m, a₀ ≤ m → m < userPages → U m = none)
    (hs : stop ≤ kernbase) (h : ∀ m, ¬ (a₀ ≤ m ∧ vaOf m < stop) → U' m = U m) :
    erased U' a₀ stop = U := by
  funext m
  unfold erased
  by_cases hm : a₀ ≤ m ∧ vaOf m < stop
  · rw [if_pos hm, h0 m hm.1]
    simp only [vaOf, pgsize, kernbase, userPages] at *
    omega
  · rw [if_neg hm, h m hm]

theorem allocLoop_data {U₀ : Nat → Option Word} (hsz : newsz < kernbase) (hg : g true = none)
    (hg' : g false = none) (h0 : ∀ m, pagesBelow oldsz ≤ m → m < userPages → U₀ m = none) :
    ∀ (n a : Nat) (U : Nat → Option Word),
    pagesBelow oldsz ≤ a → a + n = pagesBelow newsz → (∀ m, a ≤ m → m < userPages → U m = none) →
    (∀ m, ¬ (pagesBelow oldsz ≤ m ∧ vaOf m < newsz) → U m = U₀ m) →
    (∀ m, a ≤ m → m < userPages → C m = Page.const 0) →
    Twin (Filled W d g U C) (allocLoop W.L d oldsz newsz n (vaOf a)) (fun v s t =>
      (v = 0 ∧ Maps W d g U₀ s t) ∨
      (v = newsz ∧ ∃ U', Filled W d g U' C s t ∧ Grown U a newsz U')) E := by
  intro n
  induction n with
  | zero =>
    intro a U _ hn _ _ _
    exact .pure fun s t h => .inr ⟨rfl, U, h, .refl (pagesBelow_le.1 (by omega))⟩
  | succ n ih =>
    intro a U hle hn hU hsame hC
    have hlt : vaOf a < newsz := Nat.lt_of_not_le fun h => by
      have := pagesBelow_le.2 h
      omega
    have hu : a < userPages := lt_userPages (Nat.lt_trans hlt hsz)
    have hundo : ∀ g : Bool → Option Ppn, g true = none →
        Twin (Maps W d g U) (deallocuvm W.L d newsz oldsz) (fun _ => Maps W d g U₀) E := fun g hg =>
      (deallocuvm_twin (Nat.le_of_lt hsz) hg).post fun v s t h => by
        rw [← erased_of_same h0 (Nat.le_of_lt hsz) hsame]
        exact h.2
    unfold allocLoop
    refine ((kalloc_twin (d := some d) hg' (Contents U C)).pre fun s t h => ⟨h.toAt, h.data⟩).bind
      fun v => ?_
    rcases v with _ | mem
    · exact ((hundo g hg).pre fun s t h => h.2).bind fun _ => .pure fun s t h => .inl ⟨rfl, h⟩
    have hm : update g false (some mem) false = some mem := update_self ..
    have ht : update g false (some mem) true = none := by simpa using hg
    refine Twin.bind (Q := fun _ s t => Filled W d (update g false (some mem)) U C s t ∧
      s.page mem = Page.const 0) (.modify fun s t h => ⟨h.2.fill h.1 hm _, update_self ..⟩)
      fun _ => ?_
    refine (mappages_data hu (hU a (Nat.le_refl a) hu) ht hm).bind fun v => .ite (fun hv => ?_)
      fun hv => ?_
    · refine ((hundo _ ht).pre fun s t h => (h.resolve_right fun h => h.1 hv).2).bind fun _ =>
        (kfree_hand hm).bind fun _ => ?_
      rw [hand_emptied hg']
      exact .pure fun s t h => .inl ⟨rfl, h⟩
    · rw [vaOf_succ]
      refine ((ih (a + 1) (update U a (some (pte mem (pteW ||| pteU ||| pteP)))) (by omega) (by omega)
        (fun m hm1 hm2 => ?_) (fun m hm => ?_) fun m hm => hC m (by omega)).pre
          fun s t h => ?_).post fun v s t h => ?_
      · rw [update_of_ne (by omega), hU m (by omega) hm2]
      · rw [update_of_ne, hsame m hm]
        rintro rfl
        exact hm ⟨hle, hlt⟩
      · have h1 := (h.resolve_left fun h => hv h.1).2
        rwa [hand_emptied hg', ← hC a (Nat.le_refl a) hu, update_eq_self] at h1
      · exact h.imp_right fun ⟨hv, U', h, hgr⟩ => ⟨hv, U', h, hgr.step hlt⟩

theorem pages_grow (hsz : newsz < kernbase) (hle : oldsz ≤ newsz) :
    pgroundup oldsz = vaOf (pagesBelow oldsz) ∧
    (newsz + (pgsize - 1) - vaOf (pagesBelow oldsz)) / pgsize = pagesBelow newsz - pagesBelow oldsz ∧
    pagesBelow oldsz ≤ pagesBelow newsz := by
  refine ⟨pgroundup_eq (by omega), ?_, ?_⟩ <;> simp only [vaOf, pagesBelow, pgsize] <;> omega

theorem allocuvm_data (hg : g true = none) (hg' : g false = none)
    (h0 : ∀ m < userPages, oldsz ≤ vaOf m → U m = none)
    (hC : ∀ m < userPages, oldsz ≤ vaOf m → C m = Page.const 0) :
    Twin (Filled W d g U C) (allocuvm W.L d oldsz newsz) (fun v s t =>
      (v = 0 ∧ Maps W d g U s t) ∨ (v = oldsz ∧ newsz < oldsz ∧ Filled W d g U C s t) ∨
      (v = newsz ∧ oldsz ≤ newsz ∧ newsz < kernbase ∧
        ∃ U', Filled W d g U' C s t ∧ Grown U (pagesBelow oldsz) newsz U')) E := by
  unfold allocuvm
  refine .ite (fun _ => .pure fun s t h => .inl ⟨rfl, h.toAt⟩) fun hlt =>
    .ite (fun hlt' => .pure fun s t h => .inr (.inl ⟨rfl, hlt', h⟩)) fun hle => ?_
  have hsz : newsz < kernbase := Nat.lt_of_not_le hlt
  obtain ⟨ha, hn, hmono⟩ := pages_grow hsz (Nat.le_of_not_lt hle)
  dsimp only
  rw [ha, hn]
  have h0' : ∀ m, pagesBelow oldsz ≤ m → m < userPages → U m = none := fun m h1 h2 =>
    h0 m h2 (pagesBelow_le.1 h1)
  refine (allocLoop_data hsz hg hg' h0' _ (pagesBelow oldsz) U (Nat.le_refl _) (by omega) h0'
    (fun _ _ => rfl) fun m h1 h2 => hC m h2 (pagesBelow_le.1 h1)).post fun v s t h => ?_
  exact h.imp_right fun ⟨hv, h⟩ => .inr ⟨hv, Nat.le_of_not_lt hle, hsz, h⟩

theorem allocuvm_twin (hg : g true = none) (hg' : g false = none)
    (h0 : ∀ m < userPages, oldsz ≤ vaOf m → U m = none) :
    Twin (Maps W d g U) (allocuvm W.L d oldsz newsz) (fun v s t =>
      (v = 0 ∧ Maps W d g U s t) ∨ (v = oldsz ∧ newsz < oldsz ∧ Maps W d g U s t) ∨
      (v = newsz ∧ oldsz ≤ newsz ∧ newsz < kernbase ∧
        ∃ U', Maps W d g U' s t ∧ Grown U (pagesBelow oldsz) newsz U')) E := by
  refine twin_of_zero h0 fun C hC => (allocuvm_data hg hg' h0 hC).post fun v s t h =>
    h.imp_right (.imp ?_ ?_)
  · exact fun h => ⟨h.1, h.2.1, h.2.2.toAt⟩
  · exact fun ⟨hv, hle, hk, U', h, hgr⟩ => ⟨hv, hle, hk, U', h.toAt, hgr⟩

/-! ## copyuvm -/

/-- The pages of `src` belong to the surroundings, so work on another directory leaves them. -/
structure Readable (W : World R) (src : Ppn) : Prop where
  dir : ∃ h, W.r h = some src ∧ ¬ W.D src
  table : ∀ i tab, target (W.c src i) = some tab → ∃ h, W.r h = some tab ∧ ¬ W.D tab
  page : ∀ n < userPages, ∀ w, lookup W.c src (vaOf n) = some w →
    ∃ h, W.r h = some (pteAddr w) ∧ ¬ W.D (pteAddr w)

variable {src : Ppn} {o : Part → Option Ppn} {z : Option Ppn}

theorem Readable.page_eq (hr : Readable W src) (ha : Held W o z s t) : s.page src = W.c src := by
  obtain ⟨h, hh, -⟩ := hr.dir
  exact ha.frame h src hh

theorem Readable.table_eq (hr : Readable W src) (ha : Held W o z s t) {i : Fin 1024}
    (ht : target (s.page src i) = some tab) : s.page tab = W.c tab ∧
    (z = none → t.page tab = s.page tab) := by
  rw [hr.page_eq ha] at ht
  obtain ⟨h, hh, hD⟩ := hr.table i tab ht
  exact ⟨ha.frame h tab hh, fun hz => ha.same_rest hh hD (by rw [hz]; nofun)⟩

/-- The view with a copy of each page of the other directory from page `a` up to page `stop`. -/
structure Copied (c : Ppn → Page) (src : Ppn) (U : Nat → Option Word) (a stop : Nat)
    (U' : Nat → Option Word) : Prop where
  same : ∀ m, ¬ (a ≤ m ∧ m < stop) → U' m = U m
  copied : ∀ m, a ≤ m → m < stop → ∃ w p, lookup c src (vaOf m) = some w ∧
    U' m = some (pte p (pteFlags w ||| pteP))

theorem Copied.step {c : Ppn → Page} (hlt : a < stop) (hw : lookup c src (vaOf a) = some w)
    (h : Copied c src (update U a (some (pte p (pteFlags w ||| pteP)))) (a + 1) stop U') :
    Copied c src U a stop U' := by
  refine ⟨fun m hm => ?_, fun m hm hms => ?_⟩
  · rw [h.same m fun hm' => hm ⟨by omega, hm'.2⟩, update_of_ne]
    rintro rfl
    exact hm ⟨Nat.le_refl m, hlt⟩
  · by_cases hma : m = a
    · subst hma
      exact ⟨w, p, hw, by rw [h.same m (by omega), update_self]⟩
    · exact h.copied m (by omega) hms

theorem copyLoop_data (hr : Readable W src) (hg : g true = none) (hg' : g false = none) :
    ∀ (n a : Nat) (U : Nat → Option Word), a + n ≤ userPages →
    (∀ m, a ≤ m → m < userPages → U m = none) →
    ((∀ m, a ≤ m → m < a + n → lookup W.c src (vaOf m) ≠ none) ∨ ∀ e s t, E e s t) →
    Twin (Filled W d g U (pageOf W.c src)) (copyLoop W.L src d n (vaOf a)) (fun v s t =>
      (v = none ∧ At W none g none (fun _ => none) s t) ∨
      (v = some d ∧ ∃ U', Filled W d g U' (pageOf W.c src) s t ∧
        Copied W.c src U a (a + n) U')) E := by
  intro n
  induction n with
  | zero =>
    exact fun a U _ _ _ => .pure fun s t h => .inr ⟨rfl, U, h, fun _ _ => rfl,
      fun m h1 h2 => by omega⟩
  | succ n ih =>
    intro a U hle hU hE
    have hu : a < userPages := by omega
    have hfail : (lookup W.c src (vaOf a) = none) → ∀ e s t, E e s t := fun h0 =>
      hE.resolve_left fun h => h a (Nat.le_refl a) (by omega) h0
    unfold copyLoop
    refine (walkpgdir_twin (P := Filled W d g U (pageOf W.c src)) fun s t h => ?_).bind fun v => ?_
    · obtain ⟨h', hh, hD⟩ := hr.dir
      exact h.same_rest hh hD (Option.some_ne_none _).symm
    rcases v with _ | ⟨tab, i⟩
    · refine .throw fun s t h => hfail ?_ _ _ _
      have h1 := Option.map_eq_none_iff.1 h.2.symm
      rw [hr.page_eq h.1.toHeld] at h1
      rw [lookup, h1]
      rfl
    have htab : ∀ s t, Filled W d g U (pageOf W.c src) s t ∧ some (tab, i) =
        (target (s.page src (pdx (vaOf a)))).map (fun t' => (t', ptx (vaOf a))) →
        i = ptx (vaOf a) ∧ target (s.page src (pdx (vaOf a))) = some tab := by
      rintro s t ⟨_, h⟩
      obtain ⟨_, ht, he⟩ := Option.map_eq_some_iff.1 h.symm
      cases he
      exact ⟨rfl, ht⟩
    refine (Twin.reads (E := E) (g := fun s => s.page tab i) fun s t h => by
      rw [(hr.table_eq h.1.toHeld (htab s t h).2).2 rfl]).bind fun w => ?_
    refine .of_pre (φ := lookup W.c src (vaOf a) = entry w) ?_ fun hw => .ite (fun hp => ?_)
      fun hp => ?_
    · rintro s t ⟨h, rfl⟩
      obtain ⟨rfl, ht⟩ := htab s t h
      rw [(hr.table_eq h.1.toHeld ht).1]
      rw [hr.page_eq h.1.toHeld] at ht
      rw [lookup, ht]
      rfl
    · exact .throw fun s t h => hfail (by rw [hw, entry_of_not_present (by simpa using hp)]) _ _ _
    rw [entry_of_present (by simpa using hp)] at hw
    obtain ⟨h', hh, hD⟩ := hr.page a hu w hw
    refine ((kalloc_twin (d := some d) hg' (Contents U (pageOf W.c src))).pre fun s t h =>
      ⟨h.1.1.toAt, h.1.1.data⟩).bind fun v => ?_
    rcases v with _ | mem
    · exact ((freevm_twin hg).pre fun s t h => h.2).bind fun _ => .pure fun s t h => .inl ⟨rfl, h⟩
    have hm : update g false (some mem) false = some mem := update_self ..
    have ht : update g false (some mem) true = none := by simpa using hg
    refine Twin.bind (Q := fun _ s t => Filled W d (update g false (some mem)) U (pageOf W.c src) s t ∧
      s.page mem = pageOf W.c src a) (.modify fun s t h => ?_) fun _ => ?_
    · have hne : mem ≠ pteAddr w := fun he => h.2.own_ne_rest (p := .hand false) (he ▸ hm) h' hh
      rw [h.2.same_rest hh hD fun hz => hne (Option.some.inj hz), pageOf_eq hw, ← h.2.frame h' _ hh]
      exact ⟨h.2.fill h.1 hm _, update_self ..⟩
    refine (mappages_data hu (hU a (Nat.le_refl a) hu) ht hm).bind fun v => .ite (fun hv => ?_)
      fun hv => ?_
    · refine ((kfree_hand (d := some d) (U := U) hm).pre fun s t h =>
        (h.resolve_right fun h => h.1 hv).2).bind fun _ => ?_
      rw [hand_emptied hg']
      exact (freevm_twin hg).bind fun _ => .pure fun s t h => .inl ⟨rfl, h⟩
    · rw [vaOf_succ]
      refine ((ih (a + 1) (update U a (some (pte mem (pteFlags w ||| pteP)))) (by omega)
        (fun m hm1 hm2 => ?_) (hE.imp_left fun h m h1 h2 => h m (by omega) (by omega))).pre
          fun s t h => ?_).post fun v s t h => ?_
      · rw [update_of_ne (by omega), hU m (by omega) hm2]
      · have h1 := (h.resolve_left fun h => hv h.1).2
        rwa [hand_emptied hg', update_eq_self] at h1
      · rcases h with h | ⟨hv, U', h, hc⟩
        · exact .inl h
        · rw [show a + 1 + n = a + (n + 1) by omega] at hc
          exact .inr ⟨hv, U', h, hc.step (by omega) hw⟩

theorem copyuvm_data (hr : Readable W src) (hg : g true = none) (hg' : g false = none)
    (hsz : sz ≤ kernbase)
    (hE : (∀ m, vaOf m < sz → lookup W.c src (vaOf m) ≠ none) ∨ ∀ e s t, E e s t) :
    Twin (At W none g none U) (copyuvm W.L src sz) (fun v s t =>
      match v with
      | none => At W none g none U s t
      | some d => ∃ U₀ U', Filled W d g U' (pageOf W.c src) s t ∧ KernelOnly U₀ ∧
          Copied W.c src U₀ 0 (pagesBelow sz) U') E := by
  have hp : pagesBelow sz ≤ userPages := pagesBelow_le.2 hsz
  unfold copyuvm
  refine (setupkvm_twin hg hg').bind fun v => ?_
  rcases v with _ | d
  · exact .pure fun s t h => h
  refine .exists_pre fun U₀ => .of_pre (φ := KernelOnly U₀) (fun s t h => h.2.1) fun hk => ?_
  have h1 := copyLoop_data (d := d) (E := E) hr hg hg' (pagesBelow sz) 0 U₀ (by omega)
    (fun m _ hm => hk.user_none m hm) (hE.imp_left fun h m _ hm => h m (by
      refine Nat.lt_of_not_le fun hle => ?_
      have := pagesBelow_le.2 hle
      omega))
  rw [vaOf, Nat.zero_mul] at h1
  refine (h1.pre fun s t h => hk.filled h.1 _).post fun v s t h => ?_
  rcases h with ⟨rfl, h⟩ | ⟨rfl, U', h, hc⟩
  · exact ⟨h.toHeld, nofun⟩
  · rw [Nat.zero_add] at hc
    exact ⟨U₀, U', h, hk, hc⟩

end

section
variable {va : Nat} {bs : List (BitVec 8)}

/-! ## Bytes -/

theorem byte_append (b : Nat → BitVec 8) {j : Nat} (hj : j < 4) :
    (b 3 ++ b 2 ++ b 1 ++ b 0 : BitVec 32).extractLsb' (8 * j) 8 = b j := by
  ext i hi
  rw [BitVec.getElem_extractLsb']
  simp only [BitVec.getLsbD_append]
  obtain rfl | rfl | rfl | rfl : j = 0 ∨ j = 1 ∨ j = 2 ∨ j = 3 := by omega
  · rw [if_pos (by omega), Nat.mul_zero, Nat.zero_add]
    exact BitVec.getLsbD_eq_getElem hi
  · rw [if_neg (by omega), if_pos (by omega), show 8 * 1 + i - 8 = i by omega]
    exact BitVec.getLsbD_eq_getElem hi
  · rw [if_neg (by omega), if_neg (by omega), if_pos (by omega),
      show 8 * 2 + i - 8 - 8 = i by omega]
    exact BitVec.getLsbD_eq_getElem hi
  · rw [if_neg (by omega), if_neg (by omega), if_neg (by omega),
      show 8 * 3 + i - 8 - 8 - 8 = i by omega]
    exact BitVec.getLsbD_eq_getElem hi

theorem Page.byte_copyIn (pg : Page) (off : Nat) (bs : List (BitVec 8))
    {o : Nat} (ho : o < pgsize) :
    (pg.copyIn off bs).byte o =
      if off ≤ o ∧ o < off + bs.length then bs.getD (o - off) 0 else pg.byte o := by
  have hval : (Fin.ofNat 1024 (o / 4)).val = o / 4 := by
    simp only [pgsize] at ho
    rw [Fin.val_ofNat]
    omega
  have hdiv : 4 * (o / 4) + o % 4 = o := by omega
  unfold Page.byte Page.copyIn
  dsimp only
  rw [hval, byte_append (fun j => if off ≤ 4 * (o / 4) + j then
    bs.getD (4 * (o / 4) + j - off) (pg.byte (4 * (o / 4) + j)) else pg.byte (4 * (o / 4) + j))
      (by omega), hdiv]
  by_cases h1 : off ≤ o
  · rw [if_pos h1]
    by_cases h2 : o < off + bs.length
    · rw [if_pos ⟨h1, h2⟩]
      have hlt : o - off < bs.length := by omega
      simp only [List.getD_eq_getElem?_getD, List.getElem?_eq_getElem hlt, Option.getD_some]
    · rw [if_neg fun h => h2 h.2]
      have hle : bs.length ≤ o - off := by omega
      simp only [List.getD_eq_getElem?_getD, List.getElem?_eq_none hle, Option.getD_none]
      rfl
  · rw [if_neg h1, if_neg fun h => h1 h.1]
    rfl

/-- The byte at address `a`. -/
def byteAt (C : Nat → Page) (a : Nat) : BitVec 8 := (C (a / pgsize)).byte (a % pgsize)

/-- `C'` is `C` with the bytes `bs` at `va`. -/
def Put (C : Nat → Page) (va : Nat) (bs : List (BitVec 8)) (C' : Nat → Page) : Prop :=
  ∀ a, byteAt C' a = if va ≤ a ∧ a < va + bs.length then bs.getD (a - va) 0 else byteAt C a

theorem Put.nil (C : Nat → Page) (va : Nat) : Put C va [] C := by
  intro a
  rw [if_neg (by simp)]

theorem Put.page (C : Nat → Page) (h : va % pgsize + bs.length ≤ pgsize) :
    Put C va bs (update C (va / pgsize) ((C (va / pgsize)).copyIn (va % pgsize) bs)) := by
  intro a
  unfold byteAt
  by_cases hp : a / pgsize = va / pgsize
  · rw [hp, update_self, Page.byte_copyIn _ _ _ (Nat.mod_lt _ (by decide))]
    have e1 : va % pgsize ≤ a % pgsize ↔ va ≤ a := by
      simp only [pgsize] at *
      omega
    have e2 : a % pgsize < va % pgsize + bs.length ↔ a < va + bs.length := by
      simp only [pgsize] at *
      omega
    have e3 : a % pgsize - va % pgsize = a - va := by
      simp only [pgsize] at *
      omega
    simp only [e1, e2, e3]
  · rw [update_of_ne hp, if_neg]
    simp only [pgsize] at *
    omega

theorem Put.append {C' C'' : Nat → Page} {cs : List (BitVec 8)} (h : Put C va bs C')
    (h' : Put C' (va + bs.length) cs C'') : Put C va (bs ++ cs) C'' := by
  intro a
  rw [h' a, h a, List.length_append]
  by_cases h1 : va + bs.length ≤ a ∧ a < va + bs.length + cs.length
  · rw [if_pos h1, if_pos (by omega), show a - (va + bs.length) = a - va - bs.length by omega]
    simp only [List.getD_eq_getElem?_getD]
    rw [List.getElem?_append_right (by omega)]
  · rw [if_neg h1]
    by_cases h2 : va ≤ a ∧ a < va + bs.length
    · rw [if_pos h2, if_pos (by omega)]
      simp only [List.getD_eq_getElem?_getD]
      rw [List.getElem?_append_left (by omega)]
    · rw [if_neg h2, if_neg (by omega)]

end

end Xv6.Vm
