import Xv6.Vm.Proof.Data
import Xv6.Vm.Machine

/-!
# User memory

The calls that read and write user memory through a directory (`loaduvm`, `copyout`, `fetchstr`, the
stores of the process itself) reach only pages that the directory owns: an entry with `PTE_U` is one
of a user page (`UserOnly`). They leave the mappings as they are; `clearpteu` changes the flags of
one.
-/

namespace Xv6.Vm

open Lib Function

variable {va sz : Nat} {w : Word}

variable {R : Type} {W : World R} {g : Bool → Option Ppn} {U : Nat → Option Word} {d : Ppn}
  {C : Nat → Page} {E : String → Mem → Mem → Prop}
variable {file bs : List (BitVec 8)} {m n off offset addr : Nat}

/-- User code has no access to the kernel's pages. -/
def UserOnly (U : Nat → Option Word) : Prop := ∀ m w, userPages ≤ m → U m = some w → user w = false

theorem moveBytes_data {n : Nat} (off : Nat) (bs : List (BitVec 8)) (hu : n < userPages)
    (hw : U n = some w) : Twin (Filled W d g U C) (moveBytes (pteAddr w) off bs)
      (fun _ => Filled W d g U (update C n ((C n).copyIn off bs))) E :=
  .modify fun s t h => by
    rw [h.same (h.own_page hu hw) nofun, h.data n hu w hw]
    exact h.write hu hw _

theorem moveBytes_twin {n : Nat} (off : Nat) (bs : List (BitVec 8)) (hu : n < userPages)
    (hw : U n = some w) : Twin (Maps W d g U) (moveBytes (pteAddr w) off bs)
    (fun _ => Maps W d g U) E :=
  twin_of_filled fun _ => (moveBytes_data off bs hu hw).post fun _ _ _ h => h.toAt

theorem UserOnly.lt {m : Nat} (h : UserOnly U) (hw : U m = some w) (hu : user w = true) :
    m < userPages := Nat.lt_of_not_le fun hle => by
  rw [h m w hle hw] at hu
  cases hu

theorem store_twin {b : BitVec 8} (hva : va < u32) (hk : UserOnly U) :
    Twin (Maps W d g U) (store d va b) (fun _ => Maps W d g U) E := by
  unfold store
  refine readEntry_twin (fun _ _ => id) hva (fun _ => .pure fun s t h => h) fun tab w hw =>
    .ite (fun hp => ?_) fun _ =>
    .pure fun s t h => h.1
  simp only [Bool.and_eq_true] at hp
  rw [entry_of_present hp.1.1] at hw
  exact (moveBytes_twin _ _ (hk.lt hw hp.1.2) hw).pre fun s t h => h.1

/-! ## exec -/

theorem readi_full (h : readi file off m = some bs) (hlen : bs.length = m) :
    bs = (file.drop off).take m ∧ off + m ≤ file.length := by
  unfold readi at h
  split at h
  · cases h
  · next hoff =>
    cases h
    rw [List.length_take, List.length_drop] at hlen
    exact ⟨rfl, by omega⟩

theorem take_drop_page (hm : m = min n pgsize) (h : bs = (file.drop off).take m) :
    (file.drop off).take n = bs ++ (file.drop (off + pgsize)).take (n - pgsize) := by
  subst h hm
  rcases Nat.le_total n pgsize with hle | hle
  · rw [Nat.min_eq_left hle, Nat.sub_eq_zero_of_le hle, List.take_zero, List.append_nil]
  · rw [Nat.min_eq_right hle, ← List.drop_drop, ← List.take_add, Nat.add_sub_cancel' hle]

theorem page_of_file {b len : Nat} (hm : m = min (sz - b) pgsize) (hlt : b < sz)
    (hin : offset + b + m ≤ len) : (b + pgsize < sz → offset + (b + pgsize) ≤ len) ∧
      (¬ b + pgsize < sz → offset + sz ≤ len) ∧ (m = pgsize ∨ sz - b - pgsize = 0) := by
  omega

theorem Put.append_page {C C' C'' : Nat → Page} {va : Nat} {cs : Bytes} (h : Put C va bs C')
    (hfull : bs.length = pgsize ∨ cs = []) (h' : Put C' (va + pgsize) cs C'') :
    Put C va (bs ++ cs) C'' := by
  rcases hfull with hfull | rfl
  · rw [← hfull] at h'
    exact h.append h'
  · intro a
    rw [h' a, if_neg (by simp), List.append_nil, h a]

section
variable (ha : addr % pgsize = 0) (hsz : addr + sz ≤ kernbase)
  (hU : ∀ m, addr ≤ vaOf m → vaOf m < addr + sz → ∃ w, U m = some w)
include ha hsz hU

theorem loadLoop_data (offset : Nat) :
    ∀ (n k : Nat) (C : Nat → Page), k + n = pagesBelow sz →
    Twin (Filled W d g U C) (loadLoop d addr file offset sz n (vaOf k)) (fun v s t =>
      ∃ C', Filled W d g U C' s t ∧
        (file.length < u32 → (vaOf k < sz → offset + vaOf k < u32) → ¬ v < 0 →
          (vaOf k < sz → offset + sz ≤ file.length) ∧
          Put C (addr + vaOf k) ((file.drop (offset + vaOf k)).take (sz - vaOf k)) C' ∧
          ∀ m, addr + sz ≤ vaOf m → C' m = C m)) E := by
  have hneg : ∀ {φ : Prop}, ¬ (-1 : Int) < 0 → φ := fun h => absurd (by decide) h
  intro n
  induction n with
  | zero =>
    intro k C hk
    have hle : sz ≤ vaOf k := pagesBelow_le.1 (by omega)
    refine .pure fun s t h => ⟨C, h, fun _ _ _ => ⟨fun hlt => absurd hlt (Nat.not_lt.2 hle),
      ?_, fun _ _ => rfl⟩⟩
    rw [Nat.sub_eq_zero_of_le hle, List.take_zero]
    exact .nil C _
  | succ n ih =>
    intro k C hk
    have hlt : vaOf k < sz := Nat.lt_of_not_le fun h => by
      have := pagesBelow_le.2 h
      omega
    have hadd : vaOf (addr / pgsize + k) = addr + vaOf k := by
      rw [vaOf, Nat.add_mul, Nat.div_mul_cancel (Nat.dvd_of_mod_eq_zero ha)]
    have hm : (addr + vaOf k) / pgsize = addr / pgsize + k := by
      rw [← hadd]
      exact Nat.mul_div_cancel _ (by decide)
    have hlt' : addr + vaOf k < kernbase := Nat.lt_of_lt_of_le (Nat.add_lt_add_left hlt addr) hsz
    have hu : addr / pgsize + k < userPages := lt_userPages (by rwa [hadd])
    have hva : addr + vaOf k < u32 := Nat.lt_trans hlt' (by decide)
    obtain ⟨w₀, hw₀⟩ := hU (addr / pgsize + k) (by rw [hadd]; exact Nat.le_add_right ..)
      (by rw [hadd]; exact Nat.add_lt_add_left hlt addr)
    unfold loadLoop
    rw [Nat.mod_eq_of_lt hva]
    refine readEntry_twin (fun _ _ h => h.toAt) hva (fun h0 => ?_) fun tab w hw => ?_
    · rw [hm, hw₀] at h0
      cases h0
    obtain rfl : w₀ = w := by
      rw [hm, hw₀] at hw
      exact (entry_eq_some hw.symm).1.symm
    dsimp only
    generalize hm' : (if sz - vaOf k < pgsize then sz - vaOf k else pgsize) = m
    have hpg : m = min (sz - vaOf k) pgsize := by
      rw [← hm']
      split <;> omega
    cases hbs : readi file ((offset + vaOf k) % u32) m with
    | none => exact .pure fun s t h => ⟨C, h.1, fun _ _ => hneg⟩
    | some bs =>
      refine ((moveBytes_data 0 bs hu hw₀).pre fun s t h => h.1).bind fun _ =>
        .ite (fun _ => .pure fun s t h => ⟨_, h, fun _ _ => hneg⟩) fun hlen => ?_
      have hlen := not_not.1 hlen
      rw [vaOf_succ]
      refine (ih (k + 1) _ (by omega)).post fun v s t h => ?_
      obtain ⟨C', hd, hrec⟩ := h
      refine ⟨C', hd, fun hfile hoff hv => ?_⟩
      rw [Nat.mod_eq_of_lt (hoff hlt)] at hbs
      obtain ⟨hbs', hin⟩ := readi_full hbs hlen
      have hmod : (addr + vaOf k) % pgsize = 0 := by
        simp only [vaOf, pgsize] at *
        omega
      have hroom : (addr + vaOf k) % pgsize + bs.length ≤ pgsize := by
        rw [hmod, hlen, hpg, Nat.zero_add]
        exact Nat.min_le_right ..
      have hput := Put.page C hroom
      rw [hm, hmod] at hput
      obtain ⟨hmore, hend, hfull⟩ := page_of_file hpg hlt hin
      rw [← vaOf_succ] at hrec
      obtain ⟨hlast, hput', hsame⟩ :=
        hrec hfile (fun hlt1 => Nat.lt_of_le_of_lt (hmore hlt1) hfile) hv
      refine ⟨fun _ => ?_, ?_, fun n hn => ?_⟩
      · by_cases hlt1 : vaOf k + pgsize < sz
        · exact hlast hlt1
        · exact hend hlt1
      · rw [← Nat.add_assoc, ← Nat.add_assoc, ← Nat.sub_sub] at hput'
        rw [take_drop_page hpg hbs']
        refine hput.append_page (hfull.imp hlen.trans fun h0 => ?_) hput'
        rw [h0, List.take_zero]
      · rw [hsame n hn, update_of_ne]
        rintro rfl
        rw [hadd] at hn
        omega

theorem loaduvm_data :
    Twin (Filled W d g U C) (loaduvm d addr file offset sz)
    (fun v s t => ∃ C', Filled W d g U C' s t ∧
      (file.length < u32 → offset < u32 → ¬ v < 0 → ((file.drop offset).take sz).length = sz ∧
        Put C addr ((file.drop offset).take sz) C' ∧ ∀ m, addr + sz ≤ vaOf m → C' m = C m)) E := by
  unfold loaduvm
  rw [if_neg (not_not.2 ha)]
  have h : Twin (Filled W d g U C) (loadLoop d addr file offset sz (pagesBelow sz) (vaOf 0)) _ E :=
    loadLoop_data ha hsz hU offset (pagesBelow sz) 0 C (Nat.zero_add _)
  rw [vaOf, Nat.zero_mul] at h
  refine h.post fun v s t h => ?_
  obtain ⟨C', hd, h⟩ := h
  refine ⟨C', hd, fun hfile hoff hv => ?_⟩
  obtain ⟨hlen, hput, hsame⟩ := h hfile (fun _ => hoff) hv
  refine ⟨?_, hput, hsame⟩
  rw [List.length_take, List.length_drop]
  rcases Nat.eq_zero_or_pos sz with rfl | hpos
  · exact Nat.zero_min _
  · have := hlen hpos
    omega

theorem loaduvm_twin :
    Twin (Maps W d g U) (loaduvm d addr file offset sz) (fun _ => Maps W d g U) E :=
  twin_of_filled fun _ => (loaduvm_data ha hsz hU).post fun _ _ _ ⟨_, h, _⟩ => h.toAt

end

theorem pteU_mask : pte 0 pteU = 4#32 := by decide

theorem pteAddr_clear (w : Word) : pteAddr (w &&& ~~~(pte 0 pteU)) = pteAddr w := by
  rw [pteU_mask]
  unfold pteAddr
  ext i hi
  have h4 : Nat.testBit 4 (12 + i) = false := Nat.testBit_lt_two_pow (by
    calc 4 < 2 ^ 12 := by decide
      _ ≤ 2 ^ (12 + i) := Nat.pow_le_pow_right (by decide) (by omega))
  have h5 : (4#32).getLsbD (12 + i) = false := by
    rw [BitVec.getLsbD_ofNat, h4, Bool.and_false]
  rw [BitVec.getElem_extractLsb', BitVec.getElem_extractLsb', BitVec.getLsbD_and,
    BitVec.getLsbD_not, h5]
  simp
  omega

theorem present_clear (w : Word) : present (w &&& ~~~(pte 0 pteU)) = present w := by
  rw [pteU_mask]
  simp [present]

theorem user_clear (w : Word) : user (w &&& ~~~(pte 0 pteU)) = false := by
  rw [pteU_mask]
  simp [user]

theorem clearpteu_data {n : Nat} (hu : n < userPages) (hw : U n = some w) :
    Twin (Filled W d g U C) (clearpteu d (vaOf n))
      (fun _ => Filled W d g (update U n (some (w &&& ~~~(pte 0 pteU)))) C) E := by
  have hva : vaOf n < u32 := by
    simp only [vaOf, pgsize, u32, userPages] at *
    omega
  have hm : vaOf n / pgsize = n := Nat.mul_div_cancel _ (by decide)
  unfold clearpteu
  refine readEntry_twin (fun _ _ h => h.toAt) hva (fun h0 => ?_) fun tab w' hw' => ?_
  · rw [hm, hw] at h0
    cases h0
  rw [hm, hw] at hw'
  obtain ⟨rfl, hp⟩ := entry_eq_some hw'.symm
  have hpc : present (w' &&& ~~~(pte 0 pteU)) = true := by rw [present_clear, hp]
  refine .modify fun s t ⟨h, ht, _⟩ => ?_
  have hat := h.reflag hu ht hw (by rw [target_of_present hpc, pteAddr_clear])
  rw [entry_of_present hpc] at hat
  -- The tables are apart from the pages of the user.
  have hkeep : ∀ m < userPages, ∀ v, U m = some v →
      update s.page tab (update (s.page tab) (ptx (vaOf n))
      (w' &&& ~~~(pte 0 pteU))) (pteAddr v) = C m := fun m hm v hv => by
    rw [update_of_ne, h.data m hm v hv]
    rintro rfl
    exact (h.apart (h.own_page hm hv) nofun nofun).2.2 _ ht
  refine ⟨hat, fun m hm v hv => ?_⟩
  by_cases hmn : m = n
  · subst hmn
    rw [update_self] at hv
    cases hv
    rw [pteAddr_clear]
    exact hkeep m hu w' hw
  · rw [update_of_ne hmn] at hv
    exact hkeep m hm v hv

theorem uva2ka_twin (hva : va < u32) (hE : ∀ e s t, E e s t) :
    Twin (Maps W d g U) (uva2ka d va) (fun v s t => Maps W d g U s t ∧
      ∀ q, v = some q → ∃ w, U (va / pgsize) = some w ∧ user w = true ∧ pteAddr w = q) E := by
  unfold uva2ka
  refine readEntry_twin (fun _ _ => id) hva (fun _ => .throw fun s t _ => hE _ _ _) fun tab w hw =>
    .ite (fun _ => .pure fun s t h => ⟨h.1, nofun⟩) fun hp =>
      .ite (fun _ => .pure fun s t h => ⟨h.1, nofun⟩) fun hus => .pure fun s t h =>
        ⟨h.1, fun q hq => ?_⟩
  rw [entry_of_present (by simpa using hp)] at hw
  cases hq
  exact ⟨w, hw, by simpa using hus, rfl⟩

theorem copyoutLoop_twin (hk : UserOnly U) (hE : ∀ e s t, E e s t) :
    ∀ (n va : Nat) (buf : List (BitVec 8)),
    va < u32 → Twin (Maps W d g U) (copyoutLoop d n va buf)
      (fun _ => Maps W d g U) E := by
  intro n
  induction n with
  | zero => exact fun _ _ _ => .pure fun s t h => h
  | succ n ih =>
    intro va buf hva
    unfold copyoutLoop
    refine .ite (fun _ => .pure fun s t h => h) fun _ => ?_
    have hva0 : pgrounddown va < u32 := by
      simp only [pgrounddown, pgsize, u32] at *
      omega
    refine (uva2ka_twin hva0 hE).bind fun v => ?_
    rcases v with _ | pa0
    · exact .pure fun s t h => h.1
    refine .of_pre (fun s t h => h.2 pa0 rfl) ?_
    rintro ⟨w, hw, hus, rfl⟩
    exact ((moveBytes_twin _ _ (hk.lt hw hus) hw).pre fun s t h => h.1).bind fun _ =>
      ih _ _ (Nat.mod_lt _ (by decide))

theorem copyout_twin {bs : List (BitVec 8)} (hk : UserOnly U) (hE : ∀ e s t, E e s t)
    (hva : va < u32) : Twin (Maps W d g U) (copyout d va bs)
      (fun _ => Maps W d g U) E :=
  copyoutLoop_twin hk hE _ va bs hva

/-! ## Argument strings -/

theorem loadByte_twin (hva : va < kernbase) (hE : ∀ e s t, E e s t) :
    Twin (Maps W d g U) (loadByte d va) (fun _ => Maps W d g U) E := by
  have hu : va / pgsize < userPages := by
    simp only [pgsize, kernbase, userPages] at *
    omega
  unfold loadByte
  refine readEntry_twin (fun _ _ => id) (Nat.lt_trans hva (by decide))
    (fun _ => .throw fun s t _ => hE _ _ _) fun tab w hw =>
    .ite (fun _ => .throw fun s t _ => hE _ _ _) fun hp => ?_
  rw [entry_of_present (by simpa using hp)] at hw
  refine (Twin.reads (E := E) (g := fun s => (s.page (pteAddr w)).byte (va % pgsize))
    fun s t h => ?_).post fun v s t h => h.1.1
  rw [h.1.same (h.1.own_page hu hw) nofun]

theorem fetchstr_twin (hE : ∀ e s t, E e s t) : ∀ (n va : Nat) (bs : Bytes), va + n ≤ kernbase →
    Twin (Maps W d g U) (fetchstr d n va bs) (fun _ => Maps W d g U) E := by
  intro n
  induction n with
  | zero => exact fun _ _ _ => .pure fun s t h => h
  | succ n ih =>
    intro va bs hn
    exact (loadByte_twin (by omega) hE).bind fun b => .ite (fun _ => .pure fun s t h => h) fun _ =>
      ih (va + 1) _ (by omega)

theorem fetchArgs_twin (hsz : sz ≤ kernbase) (hE : ∀ e s t, E e s t) : ∀ vas : List Nat,
    Twin (Maps W d g U) (fetchArgs d sz vas) (fun _ => Maps W d g U) E := by
  intro vas
  induction vas with
  | nil => exact .pure fun s t h => h
  | cons va vas ih =>
    unfold fetchArgs
    have h1 : Twin (Maps W d g U) (fetchstr d (sz - va) va []) (fun _ => Maps W d g U) E := by
      by_cases hva : va ≤ sz
      · exact fetchstr_twin hE _ va [] (by omega)
      · rw [Nat.sub_eq_zero_of_le (by omega)]
        exact .pure fun s t h => h
    refine h1.bind fun v => ?_
    rcases v with _ | arg
    · exact .pure fun s t h => h
    refine ih.bind fun v => ?_
    rcases v with _ | args
    · exact .pure fun s t h => h
    · exact .pure fun s t h => h

end Xv6.Vm
