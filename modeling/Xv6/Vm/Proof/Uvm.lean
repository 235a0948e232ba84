import Xv6.Vm.Proof.Plain

/-!
# The calls of vm.c keep the books

What each call does to the mappings of its directory, from any state in which every page is free or
owned once, whichever calls of `kalloc` fail: `mappages` adds the pages, `deallocuvm` removes them,
`freevm` gives back all pages of the directory, and `setupkvm`, `allocuvm` and `copyuvm` undo what
they have done if they fail. The two states of `At` go through the same steps.
-/

namespace Xv6.Vm

open Lib Function

variable {s t : Mem} {tab : Ppn} {n a stop oldsz sz newsz : Nat} {perm : BitVec 12}
  {U U' : Nat → Option Word} {w : Word}

variable {R α : Type} {W : World R} {g : Bool → Option Ppn} {U : Nat → Option Word}
  {d p : Ppn} {E : String → Mem → Mem → Prop}

/-! ## mappages -/

theorem At.entry_eq {z : Option Ppn} (ha : At W (some d) g z U s t) (hn : n < 2 ^ 20)
    (ht : target (s.page d (pdx (vaOf n))) = some tab) :
    entry (s.page tab (ptx (vaOf n))) = U n := by
  have h := ha.view d rfl n hn
  rwa [lookup, ht, Option.bind_some] at h

theorem mapLoop_turn {pa : Ppn} {V : (Ppn → Page) → Prop} {Q : Int → Mem → Mem → Prop}
    (ha : a < 2 ^ 20) (hU : U a = none) (hg : g true = none)
    (hfail : ∀ s t, Maps W d g U s t → Q (-1) s t)
    (hstore : ∀ tab, Twin (fun s t => (Maps W d g U s t ∧ Spared V d g s) ∧
        target (s.page d (pdx (vaOf a))) = some tab)
      (do
        wr tab (ptx (vaOf a)) (pte pa (perm ||| pteP))
        match n with
        | 0 => return 0
        | n + 1 => mapLoop d perm n (vaOf a + pgsize) (pa + 1)) Q E) :
    Twin (fun s t => Maps W d g U s t ∧ V s.page) (mapLoop d perm n (vaOf a) pa) Q E := by
  unfold mapLoop
  refine (walkpgdir_alloc_twin hg V).bind fun v => ?_
  rcases v with _ | ⟨tab, i⟩
  · exact .pure fun s t h => hfail s t h.1.1
  refine .of_pre (φ := i = ptx (vaOf a)) (fun s t h => (h.2 _ rfl).1) fun hi => ?_
  subst hi
  refine (Twin.reads (E := E) (g := fun s => s.page tab (ptx (vaOf a))) fun s t h => ?_).bind
    fun w => .ite (fun hp => ?_) fun hp => ?_
  · rw [h.1.1.same_table (h.2 _ rfl).2]
  · rintro s t ⟨⟨h, ht⟩, rfl⟩
    have h1 := h.1.entry_eq ha (ht _ rfl).2
    rw [entry_of_present hp, hU] at h1
    cases h1
  · exact (hstore tab).pre fun s t h => ⟨h.1.1, (h.1.2 _ rfl).2⟩

/-- What `mappages` has done to the view from page `a` on, with pages of the kernel. -/
structure KernelView (perm : BitVec 12) (a last : Nat) (U U' : Nat → Option Word) : Prop where
  below : ∀ m, m < a → U' m = U m
  above : ∀ m, last < m → U' m = none
  perm : ∀ m w, a ≤ m → U' m = some w → user w = perm.getLsbD 2

theorem user_pte_or (pa : Ppn) (f : BitVec 12) : user (pte pa (f ||| pteP)) = f.getLsbD 2 := by
  rw [user_pte, BitVec.getLsbD_or]
  simp

theorem KernelView.step {last : Nat} {p : Ppn}
    (h : KernelView perm (a + 1) last (update U a (entry (pte p (perm ||| pteP)))) U') :
    KernelView perm a last U U' := by
  refine ⟨fun m hm => ?_, h.above, fun m w hm hw => ?_⟩
  · rw [h.below m (by omega), update_of_ne (by omega)]
  · by_cases hma : m = a
    · subst hma
      rw [h.below m (by omega), update_self, entry_of_present (present_pte_or ..)] at hw
      cases hw
      exact user_pte_or ..
    · exact h.perm m w (by omega) hw

theorem mapLoop_kernel (hg : g true = none) : ∀ (n a : Nat) (pa : Ppn)
    (U : Nat → Option Word), userPages ≤ a → a + n < 2 ^ 20 → (∀ m, a ≤ m → U m = none) →
    Twin (Maps W d g U) (mapLoop d perm n (vaOf a) pa) (fun v s t =>
      ∃ U', Maps W d g U' s t ∧ KernelView perm a (a + n) U U' ∧
        (¬ v < 0 → ∀ m, a ≤ m → m ≤ a + n → U' m ≠ none)) E := by
  intro n
  induction n with
  | zero =>
    intro a pa U hu hn hU
    have hnone : KernelView perm a (a + 0) U U := ⟨fun _ _ => rfl, fun m hm => hU m (by omega),
      fun m w hm hw => by rw [hU m hm] at hw; cases hw⟩
    refine (mapLoop_turn (V := fun _ => True) hn (hU a (Nat.le_refl a)) hg
      (fun s t h => ⟨U, h, hnone, fun hv => by simp at hv⟩) fun tab => ?_).pre
      fun s t h => ⟨h, trivial⟩
    refine (Twin.modify (E := E) (Q := fun _ s t => Maps W d g
      (update U a (entry (pte pa (perm ||| pteP)))) s t) fun s t h =>
        h.1.1.map_kernel hn hu h.2).bind fun _ => .pure fun s t h =>
          ⟨_, h, KernelView.step (p := pa) ?_, fun _ m h1 h2 => ?_⟩
    · refine ⟨fun _ _ => rfl, fun m hm => ?_, fun m w hm hw => ?_⟩
      · rw [update_of_ne (by omega), hU m (by omega)]
      · rw [update_of_ne (by omega), hU m (by omega)] at hw
        cases hw
    · obtain rfl : m = a := by omega
      rw [update_self, entry_of_present (present_pte_or ..)]
      nofun
  | succ n ih =>
    intro a pa U hu hn hU
    have hnone : KernelView perm a (a + (n + 1)) U U :=
      ⟨fun _ _ => rfl, fun m hm => hU m (by omega),
      fun m w hm hw => by rw [hU m hm] at hw; cases hw⟩
    refine (mapLoop_turn (V := fun _ => True) (by omega) (hU a (Nat.le_refl a)) hg
      (fun s t h => ⟨U, h, hnone, fun hv => by simp at hv⟩) fun tab => ?_).pre
      fun s t h => ⟨h, trivial⟩
    refine (Twin.modify (E := E) (Q := fun _ s t => Maps W d g
      (update U a (entry (pte pa (perm ||| pteP)))) s t) fun s t h =>
        h.1.1.map_kernel (by omega) hu h.2).bind fun _ => ?_
    rw [vaOf_succ]
    refine (ih (a + 1) (pa + 1) _ (by omega) (by omega) fun m hm => ?_).post fun v s t h => ?_
    · rw [update_of_ne (by omega), hU m (by omega)]
    · obtain ⟨U', h, hk, hmap⟩ := h
      rw [show a + 1 + n = a + (n + 1) by omega] at hk
      refine ⟨U', h, hk.step, fun hv m h1 h2 => ?_⟩
      by_cases hma : m = a
      · rw [hma, hk.below a (by omega), update_self, entry_of_present (present_pte_or ..)]
        nofun
      · exact hmap hv m (by omega) (by omega)

theorem mappages_one (d p : Ppn) (hn : n < 2 ^ 20) (f : BitVec 12) :
    mappages d (vaOf n) pgsize p f = mapLoop d f 0 (vaOf n) p := by
  have h1 : pgrounddown (vaOf n) = vaOf n := by
    simp only [pgrounddown, vaOf, pgsize]
    omega
  have h2 : pgrounddown ((vaOf n + pgsize - 1) % u32) = vaOf n := by
    simp only [pgrounddown, vaOf, pgsize, u32]
    omega
  have h3 : (vaOf n + u32 - vaOf n) % u32 / pgsize = 0 := by
    rw [Nat.add_sub_cancel_left, Nat.mod_self]
    rfl
  simp only [mappages, h1, h2, h3]

/-- On success the page in hand, which holds `pg`, is the user's page `n`. -/
theorem mappages_data {C : Nat → Page} {f : BitVec 12} {G : Page} (hu : n < userPages)
    (hU : U n = none) (hg : g true = none) (hp : g false = some p) :
    Twin (fun s t => Filled W d g U C s t ∧ s.page p = G) (mappages d (vaOf n) pgsize p f)
    (fun v s t =>
      (v < 0 ∧ Maps W d g U s t) ∨
      (¬ v < 0 ∧ Filled W d (update g false none) (update U n (some (pte p (f ||| pteP))))
        (update C n G) s t)) E := by
  have hn : n < 2 ^ 20 := lt_pages hu
  rw [mappages_one d p hn]
  refine (mapLoop_turn (V := fun m => Contents U C m ∧ m p = G) hn hU hg
    (fun s t h => .inl ⟨by decide, h⟩) fun tab => ?_).pre fun s t h => ⟨h.1.toAt, h.1.data, h.2⟩
  have hw : target (pte p (f ||| pteP)) = some p := by
    rw [target_of_present (present_pte_or ..), pteAddr_pte]
  refine (Twin.modify (E := E) (Q := fun _ => Filled W d (update g false none)
    (update U n (some (pte p (f ||| pteP)))) (update C n G)) fun s t h => ?_).bind fun _ =>
      .pure fun s t h => .inr ⟨by decide, h⟩
  obtain ⟨⟨ha, m, ⟨hC, hpg⟩, hm⟩, ht⟩ := h
  have h1 := ha.map_user hu ht hp hw hU
  rw [entry_of_present (present_pte_or ..)] at h1
  have hkeep : ∀ x q, own s.page (some d) g x = some q → x ≠ .dir → (∀ i, x ≠ .table i) →
      update s.page tab (update (s.page tab) (ptx (vaOf n)) (pte p (f ||| pteP))) q = m q := by
    intro x q hx hxd hxt
    rw [update_of_ne, hm x q hx hxd hxt]
    rintro rfl
    exact hxt _ (ha.own_inj hx (r := .table _) ht)
  refine ⟨h1, fun n' hn' w' hw' => ?_⟩
  by_cases hnn : n' = n
  · subst hnn
    rw [update_self] at hw' ⊢
    cases hw'
    rw [pteAddr_pte, ← hpg]
    exact hkeep (.hand false) p hp nofun nofun
  · rw [update_of_ne hnn] at hw' ⊢
    rw [← hC n' hn' w' hw']
    exact hkeep _ _ (ha.own_page hn' hw') nofun nofun

/-! ## deallocuvm -/

theorem Layout.managed_ne_zero {L : Layout} {v : Ppn} (h : L.Managed v) : v ≠ 0 := by
  rintro rfl
  have h1 := h.1
  have h2 := L.text
  have h3 := L.lt
  simp only [kernlink, kernbase, extmem, pgsize] at h1 h2
  simp at h1
  omega

theorem At.no_table {z : Option Ppn} {m : Nat} (ha : At W (some d) g z U s t) (hm : m < 2 ^ 20)
    (ht : target (s.page d (pdx (vaOf m))) = none) : U m = none := by
  rw [← ha.view d rfl m hm, lookup, ht]
  rfl

theorem readEntry_twin {P : Mem → Mem → Prop} {x : M α} {f : Ppn → Fin 1024 → Word → M α} {va : Nat}
    {Q : α → Mem → Mem → Prop} (hP : ∀ s t, P s t → Maps W d g U s t) (hva : va < u32)
    (hx : U (va / pgsize) = none → Twin P x Q E)
    (hf : ∀ tab w, U (va / pgsize) = entry w → Twin (fun s t => P s t ∧
      target (s.page d (pdx va)) = some tab ∧ s.page tab (ptx va) = w) (f tab (ptx va) w) Q E) :
    Twin P (do
      match ← walkpgdir d va false with
      | none => x
      | some (tab, i) =>
        let w ← rd tab i
        f tab i w) Q E := by
  have hm : va / pgsize < 2 ^ 20 := by
    simp only [pgsize, u32] at *
    omega
  have hv := vaOf_div va
  refine (walkpgdir_twin fun s t h => (hP s t h).same_dir).bind fun v => ?_
  rcases v with _ | ⟨tab, i⟩
  · refine .of_pre (φ := U (va / pgsize) = none) (fun s t h => ?_) fun h =>
      (hx h).pre fun s t h => h.1
    exact (hP s t h.1).no_table hm (by rw [hv.1]; exact Option.map_eq_none_iff.1 h.2.symm)
  have htab : ∀ s t, P s t ∧ some (tab, i) =
      (target (s.page d (pdx va))).map (fun t' => (t', ptx va)) →
      i = ptx va ∧ target (s.page d (pdx va)) = some tab := by
    rintro s t ⟨_, h⟩
    obtain ⟨_, ht, he⟩ := Option.map_eq_some_iff.1 h.symm
    cases he
    exact ⟨rfl, ht⟩
  refine .of_pre (φ := i = ptx va) (fun s t h => (htab s t h).1) fun hi => ?_
  subst hi
  refine (Twin.reads (E := E) (g := fun s => s.page tab (ptx va)) fun s t h => by
    rw [(hP s t h.1).same_table (htab s t h).2]).bind fun w => ?_
  refine .of_pre (φ := U (va / pgsize) = entry w) ?_ fun hw => (hf tab w hw).pre fun s t h =>
    ⟨h.1.1, (htab s t h.1).2, h.2.symm⟩
  rintro s t ⟨h, rfl⟩
  have ht := (htab s t h).2
  rw [← hv.1] at ht
  rw [← (hP s t h.1).entry_eq hm ht, hv.2]

theorem kfree_wr_comm {L : Layout} {q : Ppn} {i : Fin 1024} (hne : q ≠ tab)
    (hq : L.Managed q) (s : Mem) :
    (do kfree L q; wr tab i w) s = (do wr tab i w; kfree L q) s := by
  unfold kfree wr
  rw [if_pos hq]
  show EStateM.Result.ok () _ = .ok () _
  congr 1
  simp [Mem.setPage, update_comm hne, update_of_ne hne.symm]

theorem unmap_twin (hu : n < userPages) (hg : g true = none) (hU : U n = some w) :
    Twin (fun s t => Maps W d g U s t ∧ target (s.page d (pdx (vaOf n))) = some tab)
      (do kfree W.L (pteAddr w); wr tab (ptx (vaOf n)) 0)
      (fun _ => Maps W d g (update U n none)) E := by
  have h2 : update g true (some (pteAddr w)) true = some (pteAddr w) := update_self ..
  have h1 : Twin (fun s t => Maps W d g U s t ∧ target (s.page d (pdx (vaOf n))) = some tab)
      (do wr tab (ptx (vaOf n)) 0; kfree W.L (pteAddr w))
      (fun _ => Maps W d g (update U n none)) E :=
    (Twin.modify fun s t h => h.1.unmap hu h.2 hg hU).bind fun _ =>
      (kfree_hand h2).post fun _ s t h => by
      rwa [hand_emptied hg] at h
  intro s t h
  have hp := h.1.own_page hu hU
  have hne : pteAddr w ≠ tab := by
    intro he
    rw [he] at hp
    cases h.1.own_inj hp (r := .table _) h.2
  have hm := (h.1.own_not_free hp).1
  rw [kfree_wr_comm hne hm, kfree_wr_comm hne hm]
  exact h1 s t h

theorem plainStep_twin (hu : n < userPages) (hg : g true = none) :
    Twin (Maps W d g U) (plainStep W.L d (vaOf n))
      (fun _ => Maps W d g (update U n none)) E := by
  have hm : vaOf n / pgsize = n := Nat.mul_div_cancel _ (by decide)
  have hva : vaOf n < u32 := by
    simp only [vaOf, pgsize, u32, userPages] at *
    omega
  have hnone : U n = none → ∀ s t, Maps W d g U s t → Maps W d g (update U n none) s t :=
    fun h0 s t h => by rwa [← h0, update_eq_self]
  unfold plainStep
  refine readEntry_twin (fun _ _ => id) hva (fun h0 => .pure (hnone (hm ▸ h0))) fun tab w hw => ?_
  rw [hm] at hw
  refine .ite (fun hp => ?_) fun hp => .pure fun s t h =>
    hnone (hw.trans (entry_of_not_present hp)) s t h.1
  rw [entry_of_present hp] at hw
  refine .ite (fun h0 s t h => ?_) fun _ => (unmap_twin hu hg hw).pre fun s t h => ⟨h.1, h.2.1⟩
  exact absurd h0 (Layout.managed_ne_zero (h.1.own_not_free (h.1.own_page hu hw)).1)

theorem plainLoop_twin (hg : g true = none) : ∀ (ns : List Nat) (U : Nat → Option Word),
    (∀ n ∈ ns, n < userPages) → Twin (Maps W d g U) (plainLoop W.L d ns)
      (fun _ => Maps W d g (fun m => if m ∈ ns then none else U m)) E := by
  intro ns
  induction ns with
  | nil => exact fun U _ => .pure fun s t h => by simpa using h
  | cons n ns ih =>
    intro U hns
    refine (plainStep_twin (hns n List.mem_cons_self) hg).bind fun _ =>
      (ih _ fun m hm => hns m (List.mem_cons_of_mem _ hm)).post fun _ s t h => ?_
    convert h using 2 with m
    by_cases hmn : m = n
    · simp [hmn]
    · simp [hmn]

/-- `U` without the pages from `a` below `stop`. -/
def erased (U : Nat → Option Word) (a stop : Nat) : Nat → Option Word := fun m =>
  if a ≤ m ∧ vaOf m < stop then none else U m

theorem erased_self (h : stop ≤ vaOf a) : erased U a stop = U :=
  funext fun m => if_neg fun hm => by
    have : vaOf a ≤ vaOf m := Nat.mul_le_mul_right _ hm.1
    omega

theorem deallocuvm_twin (hsz : oldsz ≤ kernbase) (hg : g true = none) :
    Twin (Maps W d g U) (deallocuvm W.L d oldsz newsz) (fun v s t =>
      v = min oldsz newsz ∧ Maps W d g (erased U (pagesBelow newsz) oldsz) s t) E := by
  rw [deallocuvm_eq_plain hsz]
  refine .ite (fun hge => .pure fun s t h => ⟨by omega, ?_⟩) fun hlt => ?_
  · rwa [erased_self (Nat.le_trans hge (pagesBelow_le.1 (Nat.le_refl _)))]
  refine (plainLoop_twin hg _ U fun n hn => lt_userPages ?_).bind fun _ =>
    .pure fun s t h => ⟨by omega, ?_⟩
  · exact Nat.lt_of_lt_of_le (mem_pagesBetween.1 hn).2 hsz
  · simp only [mem_pagesBetween, ← pagesBelow_le] at h
    exact h

/-! ## freevm -/

theorem freeTables_twin (c : Page) : ∀ (n : Nat) (o : Part → Option Ppn),
    n ≤ 1024 → o .dir = some d →
    (∀ i : Fin 1024, o (.table i) = if 1024 - n ≤ i.val then target (c i) else none) →
    Twin (fun s t => Held W o none s t ∧ s.page d = c) (freeTables W.L d n)
      (fun _ s t => ∃ o', Held W o' none s t ∧ o' .dir = some d ∧ (∀ i, o' (.table i) = none) ∧
        (∀ m, o' (.page m) = o (.page m)) ∧ ∀ b, o' (.hand b) = o (.hand b)) E := by
  intro n
  induction n with
  | zero =>
    refine fun o _ hd ht => .pure fun s t h => ⟨o, h.1, hd, fun i => ?_, fun _ => rfl, fun _ => rfl⟩
    rw [ht i, if_neg (by omega)]
  | succ n ih =>
    intro o hn hd ht
    have hi : (Fin.ofNat 1024 (1023 - n)).val = 1023 - n := by
      simp only [Fin.ofNat]
      omega
    have hti : o (.table (Fin.ofNat 1024 (1023 - n))) = target (c (Fin.ofNat 1024 (1023 - n))) := by
      rw [ht, if_pos (by omega)]
    unfold freeTables
    refine (Twin.reads (E := E) (g := fun s => s.page d (Fin.ofNat 1024 (1023 - n))) fun s t h => by
      rw [h.1.same hd nofun]).bind fun pde => ?_
    refine .of_pre (φ := pde = c (Fin.ofNat 1024 (1023 - n))) (fun s t h => by rw [h.2, h.1.2])
      fun hpde => ?_
    subst hpde
    -- Whether a table is freed or not, entry `1023 - n` owns nothing afterwards.
    have hrest : ∀ o' : Part → Option Ppn, o' = update o (.table (Fin.ofNat 1024 (1023 - n))) none →
        Twin (fun s t => Held W o' none s t ∧ s.page d = c) (freeTables W.L d n)
          (fun _ s t => ∃ o'', Held W o'' none s t ∧ o'' .dir = some d ∧
            (∀ i, o'' (.table i) = none) ∧
            (∀ m, o'' (.page m) = o (.page m)) ∧ ∀ b, o'' (.hand b) = o (.hand b)) E := by
      rintro o' rfl
      refine (ih _ (by omega) (by simpa using hd) fun i => ?_).post
        fun _ s t ⟨o'', h, h1, h2, h3, h4⟩ =>
        ⟨o'', h, h1, h2, fun m => by simp [h3], fun b => by simp [h4]⟩
      by_cases hii : i = Fin.ofNat 1024 (1023 - n)
      · rw [hii, update_self, if_neg (by omega)]
      · have hne : i.val ≠ 1023 - n := fun h => hii (Fin.ext (h.trans hi.symm))
        rw [update_of_ne (by simpa using hii), ht i]
        by_cases h1 : 1024 - n ≤ i.val
        · rw [if_pos h1, if_pos (by omega)]
        · rw [if_neg h1, if_neg (by omega)]
    refine .ite (fun hp => ?_) fun hp => ?_
    · rw [target_of_present hp] at hti
      refine .of_pre (φ := d ≠ pteAddr (c (Fin.ofNat 1024 (1023 - n)))) (fun s t h he => ?_)
        fun hne => ((kfree_twin hti fun m => m d = c).pre fun s t h => h.1).bind fun _ =>
          (hrest _ rfl).pre fun s t ⟨h, m, hm, heq⟩ => ⟨h, by rw [heq d hne, hm]⟩
      rw [← he] at hti
      cases h.1.1.own_inj hti hd
    · rw [target_eq_none.2 hp] at hti
      exact (hrest o (by rw [← hti, update_eq_self])).pre fun s t h => h.1

theorem freevm_twin {X : Nat → Option Word} (hg : g true = none) :
    Twin (Maps W d g U) (freevm W.L d) (fun _ => At W none g none X) E := by
  unfold freevm
  refine (deallocuvm_twin (Nat.le_refl _) hg).bind fun _ => ?_
  refine Twin.bind (Q := fun _ s t => ∃ o, Held W o none s t ∧ o .dir = some d ∧
    (∀ i, o (.table i) = none) ∧ (∀ m, o (.page m) = none) ∧ ∀ b, o (.hand b) = g b) ?_ fun _ => ?_
  · rintro s t ⟨-, h⟩
    have hpage : ∀ m, own s.page (some d) g (.page m) = none := by
      intro m
      by_cases hm : m < userPages
      · have hm' : m < 2 ^ 20 := lt_pages hm
        have hlt : vaOf m < kernbase := by
          simp only [vaOf, pgsize, kernbase, userPages] at *
          omega
        have h0 : erased U (pagesBelow 0) kernbase m = none := if_pos ⟨Nat.zero_le m, hlt⟩
        simp only [own, if_pos hm, Option.bind_some, h.view d rfl m hm', h0, Option.map_none]
      · simp [own, hm]
    have h1 := freeTables_twin (W := W) (d := d) (E := E) (s.page d) 1024
      (own s.page (some d) g) (Nat.le_refl _) rfl (fun i => by simp [own])
    refine h1.post ?_ s t ⟨h.toHeld, rfl⟩
    rintro _ s t ⟨o, h, h1, h2, h3, h4⟩
    exact ⟨o, h, h1, h2, fun m => by rw [h3, hpage], h4⟩
  · refine .exists_pre fun o => .of_pre (φ := o .dir = some d ∧ (∀ i, o (.table i) = none) ∧
      (∀ m, o (.page m) = none) ∧ ∀ b, o (.hand b) = g b) (fun s t h => h.2) ?_
    rintro ⟨h1, h2, h3, h4⟩
    have ho : ∀ m, update o .dir none = own m none g := by
      intro m
      funext p
      cases p <;> simp [own, h2, h3, h4]
    refine ((kfree_twin h1 fun _ => True).pre fun s t h => ⟨h.1, trivial⟩).post fun _ s t h =>
      ⟨?_, fun _ hd => by cases hd⟩
    rw [← ho s.page]
    exact h.1

/-! ## setupkvm -/

theorem At.adopt {b : Bool} (ha : At W none g none U s t) (hb : g b = some d)
    (h0 : s.page d = Page.const 0) :
    Maps W d (update g b none) (fun _ => none) s t := by
  have hlook : ∀ va, lookup s.page d va = none := fun va => by simp [lookup, h0, Page.const]
  refine ⟨⟨?_, ha.frame, ha.alike⟩, fun d' hd n _ => by cases hd; exact hlook _⟩
  have ho : own s.page (some d) (update g b none) =
      update (update (own s.page none g) (.hand b) none) .dir (some d) := by
    rw [← own_hand]
    funext p
    cases p <;> simp [own, h0, Page.const, hlook]
  rw [ho]
  exact ha.books.move hb rfl

/-- The mappings of `setupkvm`. -/
structure KernelOnly (U : Nat → Option Word) : Prop where
  user_none : ∀ m < userPages, U m = none
  not_user : ∀ m w, U m = some w → user w = false

/-- The mappings are for whole pages, in ascending order from page `lo` on, and not for the user. -/
def Fits : Nat → List Kmap → Prop
  | _, [] => True
  | lo, e :: es => ∃ a n, e.virt = vaOf a ∧ lo ≤ a ∧ a + n < 2 ^ 20 ∧
      (e.physEnd + u32 - e.physStart) % u32 = vaOf (n + 1) ∧ e.perm.getLsbD 2 = false ∧
      Fits (a + n + 1) es

theorem kmap_fits (L : Layout) : Fits userPages (kmap L) := by
  obtain ⟨data, stop, h1, h2, h3, h4⟩ := L
  obtain ⟨k, rfl⟩ : ∃ k, data = vaOf k := ⟨data / pgsize, by
    simp only [vaOf, pgsize] at *
    omega⟩
  simp only [vaOf, pgsize, kernlink, kernbase, extmem, phystop] at h2 h3 h4
  have hw : pteW.getLsbD 2 = false := by decide
  have h0 : (0 : BitVec 12).getLsbD 2 = false := by decide
  refine ⟨userPages, 255, rfl, Nat.le_refl _, by decide, by decide, hw,
    userPages + 256, k - (userPages + 256) - 1, rfl, Nat.le_refl _, ?_, ?_, h0,
    k, userPages + 57344 - k - 1, rfl, ?_, ?_, ?_, hw,
    0xFE000, 8191, rfl, ?_, by decide, by decide, hw, trivial⟩ <;>
  simp only [vaOf, pgsize, userPages, u32, kernlink, kernbase, extmem, phystop] <;> omega

theorem mappages_kernel {e : Kmap} (h1 : e.virt = vaOf a) (hn : a + n < 2 ^ 20) (pa : Ppn)
    (h2 : (e.physEnd + u32 - e.physStart) % u32 = vaOf (n + 1)) :
    mappages d e.virt ((e.physEnd + u32 - e.physStart) % u32) pa e.perm =
    mapLoop d e.perm n (vaOf a) pa := by
  have h3 : pgrounddown (vaOf a) = vaOf a := by
    simp only [pgrounddown, vaOf, pgsize]
    omega
  have h4 : pgrounddown ((vaOf a + vaOf (n + 1) - 1) % u32) = vaOf (a + n) := by
    simp only [pgrounddown, vaOf, pgsize, u32]
    omega
  have h5 : (vaOf (a + n) + u32 - vaOf a) % u32 / pgsize = n := by
    simp only [vaOf, pgsize, u32]
    omega
  simp only [mappages, h1, h2, h3, h4, h5]

/-- Every page of the `kmap` entries is mapped. -/
def Covered (es : List Kmap) (U : Nat → Option Word) : Prop := ∀ e ∈ es, ∀ m, e.virt ≤ vaOf m →
  vaOf m < e.virt + (e.physEnd + u32 - e.physStart) % u32 → U m ≠ none

theorem mapKernel_twin (hg : g true = none) : ∀ (es : List Kmap) (lo : Nat) (U : Nat → Option Word),
    Fits lo es → userPages ≤ lo → KernelOnly U → (∀ m, lo ≤ m → U m = none) →
    Twin (Maps W d g U) (mapKernel W.L d es) (fun v s t =>
      (v = none ∧ At W none g none (fun _ => none) s t) ∨
      (v = some d ∧ ∃ U', Maps W d g U' s t ∧ KernelOnly U' ∧ Covered es U' ∧
        ∀ m < lo, U' m = U m)) E := by
  intro es
  induction es with
  | nil => exact fun lo U _ _ hk _ => .pure fun s t h => .inr ⟨rfl, U, h, hk, nofun, fun _ _ => rfl⟩
  | cons e es ih =>
    rintro lo U ⟨a, n, h1, hlo, hn, h2, hp, hfit⟩ hu hk hU
    unfold mapKernel
    rw [mappages_kernel h1 hn _ h2]
    refine (mapLoop_kernel hg n a _ U (by omega) hn fun m hm => hU m (by omega)).bind fun v => ?_
    refine .exists_pre fun U' => .of_pre (φ := KernelView e.perm a (a + n) U U' ∧
      (¬ v < 0 → ∀ m, a ≤ m → m ≤ a + n → U' m ≠ none)) (fun s t h => h.2)
      fun hv => .ite (fun _ => ?_) fun hv0 => ?_
    · exact ((freevm_twin hg).pre fun s t h => h.1).bind fun _ => .pure fun s t h => .inl ⟨rfl, h⟩
    obtain ⟨hv, hmap⟩ := hv
    refine ((ih (a + n + 1) U' hfit (by omega) ⟨fun m hm => ?_, fun m w hw => ?_⟩
      fun m hm => hv.above m (by omega)).pre fun s t h => h.1).post fun v s t h => ?_
    · rw [hv.below m (by omega), hk.user_none m hm]
    · by_cases hm : m < a
      · rw [hv.below m hm] at hw
        exact hk.not_user m w hw
      · rw [hv.perm m w (by omega) hw, hp]
    · refine h.imp_right fun ⟨hd, U'', ha, hk', hc, hsame⟩ => ⟨hd, U'', ha, hk',
        fun e' he' m h3 h4 => ?_, fun m hm => ?_⟩
      · rcases List.mem_cons.1 he' with rfl | he'
        · rw [h2] at h4
          rw [h1] at h3 h4
          have h5 : a ≤ m := Nat.le_of_mul_le_mul_right h3 (by decide)
          have h6 : m < a + (n + 1) := by
            refine Nat.lt_of_mul_lt_mul_right (a := pgsize) ?_
            rw [Nat.add_mul]
            exact h4
          rw [hsame m (by omega)]
          exact hmap hv0 m h5 (by omega)
        · exact hc e' he' m h3 h4
      · rw [hsame m (by omega), hv.below m (by omega)]

theorem setupkvm_twin (hg : g true = none) (hg' : g false = none) :
    Twin (At W none g none U) (setupkvm W.L) (fun v s t =>
      match v with
      | none => At W none g none U s t
      | some d => ∃ U', Maps W d g U' s t ∧ KernelOnly U' ∧ Covered (kmap W.L) U') E := by
  unfold setupkvm
  refine ((kalloc_twin (W := W) (d := none) (U := U) hg' fun _ => True).pre
    fun s t h => ⟨h, trivial⟩).bind fun v => ?_
  rcases v with _ | pd
  · exact .pure fun s t h => h.2
  refine ((memset_twin (W := W) (d := none) (U := U) (update_self ..) fun _ => True).pre fun s t h =>
    ⟨h.2, trivial⟩).bind fun _ => ?_
  rw [if_neg (by decide)]
  refine ((mapKernel_twin hg (kmap W.L) userPages (fun _ => none) (kmap_fits _) (Nat.le_refl _)
    ⟨fun _ _ => rfl, nofun⟩ fun _ _ => rfl).pre fun s t h => ?_).post fun v s t h => ?_
  · have h1 := h.1.adopt (update_self ..) h.2.1
    rwa [hand_emptied hg'] at h1
  · rcases h with ⟨rfl, h⟩ | ⟨rfl, U', h, hk, hc, -⟩
    · exact ⟨h.toHeld, nofun⟩
    · exact ⟨U', h, hk, hc⟩

end Xv6.Vm
