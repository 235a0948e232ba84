import Xv6.Vm.Proof.Own

/-!
# deallocuvm against the page-by-page walk

`deallocuvm` skips the 4 MB of a directory entry that has no table. `plainWalk` looks at every page
instead. The two are the same program on every memory (`deallocuvm_eq_plain`).
-/

namespace Xv6.Vm

open Lib

variable {oldsz sz n a : Nat} {ns : List Nat}

/-! ## Pages -/

theorem vaOf_succ (n : Nat) : vaOf n + pgsize = vaOf (n + 1) := (Nat.succ_mul n pgsize).symm

theorem vaOf_div (va : Nat) : pdx (vaOf (va / pgsize)) = pdx va ∧
    ptx (vaOf (va / pgsize)) = ptx va := by
  refine ⟨Fin.ext ?_, Fin.ext ?_⟩
  · rw [pdx_vaOf]
    simp only [pdx, Fin.ofNat, pgsize]
    omega
  · rw [ptx_vaOf]
    rfl

theorem lt_userPages {m : Nat} (h : vaOf m < kernbase) : m < userPages :=
  Nat.lt_of_mul_lt_mul_right (a := pgsize) (Nat.lt_of_lt_of_le h (by decide))

/-- `PGROUNDUP(sz)` in pages. -/
def pagesBelow (sz : Nat) : Nat := (sz + (pgsize - 1)) / pgsize

theorem pgroundup_eq (h : sz ≤ kernbase) : pgroundup sz = vaOf (pagesBelow sz) := by
  simp only [pgroundup, vaOf, pagesBelow, pgsize, u32, kernbase] at *
  omega

theorem pagesBelow_le {m : Nat} : pagesBelow sz ≤ m ↔ sz ≤ vaOf m := by
  simp only [vaOf, pagesBelow, pgsize]
  omega

theorem pagesBelow_vaOf (n : Nat) : pagesBelow (vaOf n) = n := by
  simp only [pagesBelow, vaOf, pgsize]
  omega

theorem le_vaOf_add (hsz : sz ≤ kernbase) (a : Nat) : sz ≤ vaOf (a + u32 / pgsize) :=
  calc sz ≤ kernbase := hsz
    _ ≤ vaOf (u32 / pgsize) := by decide
    _ ≤ vaOf (a + u32 / pgsize) := Nat.mul_le_mul_right _ (Nat.le_add_left ..)

/-! ## The plain walk -/

/-- One page of `deallocuvm`, without the jump over absent tables. -/
def plainStep (L : Layout) (pgdir : Ppn) (a : Nat) : M Unit := do
  match ← walkpgdir pgdir a false with
  | none => pure ()
  | some (pgtab, i) =>
    let w ← rd pgtab i
    if present w then
      if pteAddr w = 0 then
        panic "kfree"
      else
        kfree L (pteAddr w)
        wr pgtab i 0
    else
      pure ()

/-- The loop over given pages. -/
def plainLoop (L : Layout) (pgdir : Ppn) : List Nat → M Unit
  | [] => pure ()
  | n :: ns => do
    plainStep L pgdir (vaOf n)
    plainLoop L pgdir ns

/-- The pages that `deallocuvm` frees. -/
def pagesBetween (newsz oldsz : Nat) : List Nat :=
  List.range' (pagesBelow newsz) (pagesBelow oldsz - pagesBelow newsz)

/-- `deallocuvm` as a walk over every page. -/
def plainWalk (L : Layout) (pgdir : Ppn) (oldsz newsz : Nat) : M Nat :=
  if newsz ≥ oldsz then
    return oldsz
  else do
    plainLoop L pgdir (pagesBetween newsz oldsz)
    return newsz

/-- The loop variable after a turn of `deallocuvm`'s loop at `a`, as a `uint`. -/
def deallocNext (m : Ppn → Page) (pgdir : Ppn) (a : Nat) : Nat :=
  if present (m pgdir (pdx a)) then (a + pgsize) % u32
  else ((((pdx a).val + 1) * 2 ^ 22 % u32 + u32 - pgsize) % u32 + pgsize) % u32

theorem mem_pagesBetween {newsz : Nat} :
    n ∈ pagesBetween newsz oldsz ↔ newsz ≤ vaOf n ∧ vaOf n < oldsz := by
  rw [pagesBetween, List.mem_range'_1, ← pagesBelow_le]
  have h : pagesBelow oldsz ≤ n ↔ oldsz ≤ vaOf n := pagesBelow_le
  omega

/-! ## The skip -/

section
variable {L : Layout} {d : Ppn} {s : Mem}

theorem plainStep_of_no_table (h : target (s.page d (pdx a)) = none) :
    plainStep L d a s = .ok () s := by
  unfold plainStep
  rw [bind_ok (walkpgdir_eq d a s), h]
  rfl

theorem plainStep_of_table {tab : Ppn} (h : target (s.page d (pdx a)) = some tab) :
    plainStep L d a s = (if present (s.page tab (ptx a)) then
      if pteAddr (s.page tab (ptx a)) = 0 then panic "kfree"
      else do
        kfree L (pteAddr (s.page tab (ptx a)))
        wr tab (ptx a) 0
    else pure () : M Unit) s := by
  unfold plainStep
  rw [bind_ok (walkpgdir_eq d a s), h]
  rfl

theorem plainLoop_append (ns ns' : List Nat) : plainLoop L d (ns ++ ns') =
    (do plainLoop L d ns; plainLoop L d ns') := by
  induction ns with
  | nil => rfl
  | cons n ns ih =>
    show (do plainStep L d (vaOf n); plainLoop L d (ns ++ ns')) =
      (do plainStep L d (vaOf n); plainLoop L d ns) >>= fun _ => plainLoop L d ns'
    rw [ih, bind_assoc]

theorem plainLoop_of_no_table (h : ∀ n ∈ ns, target (s.page d (pdx (vaOf n))) = none) :
    plainLoop L d ns s = .ok () s := by
  induction ns with
  | nil => rfl
  | cons n ns ih =>
    unfold plainLoop
    rw [bind_ok (plainStep_of_no_table (h n List.mem_cons_self))]
    exact ih fun n' hn' => h n' (List.mem_cons_of_mem _ hn')

/-- A turn of the loop of `deallocuvm` is a step of the plain walk, and goes on at `deallocNext`. -/
theorem deallocLoop_turn (hlt : a < oldsz) (ha : a < kernbase) : deallocLoop L d oldsz (n + 1) a s =
    (do plainStep L d a; deallocLoop L d oldsz n (deallocNext s.page d a)) s := by
  rw [deallocLoop, if_pos hlt, plainStep, bind_assoc, bind_ok (walkpgdir_eq d a s),
    bind_ok (walkpgdir_eq d a s), deallocNext]
  by_cases hp : present (s.page d (pdx a)) = true
  · have hnext : (a + pgsize) % u32 = a + pgsize :=
      Nat.mod_eq_of_lt (Nat.lt_trans (Nat.add_lt_add_right ha pgsize) (by decide))
    rw [if_pos hp, target_of_present hp, hnext]
    show (if _ then _ else _ : M Unit) s = ((if _ then _ else _ : M Unit) >>= fun _ => _ : M Unit) s
    split
    · split
      · rfl
      · rw [bind_assoc]
    · rfl
  · have hnext : ((((pdx a).val + 1) * 2 ^ 22 % u32 + u32 - pgsize) % u32 + pgsize) % u32 =
        ((pdx a).val + 1) * 2 ^ 22 % u32 := by
      have hpd : (pdx a).val = a / 2 ^ 22 % 1024 := rfl
      simp only [hpd, pgsize, u32, kernbase] at *
      omega
    rw [if_neg hp, target_eq_none.2 hp, hnext]
    rfl

theorem deallocNext_of_table (ha : a < userPages) (hp : present (s.page d (pdx (vaOf a))) = true) :
    deallocNext s.page d (vaOf a) = vaOf (a + 1) := by
  rw [deallocNext, if_pos hp, vaOf_succ, Nat.mod_eq_of_lt]
  simp only [vaOf, pgsize, u32, userPages] at *
  omega

theorem deallocNext_of_no_table (ha : a < userPages)
    (hp : ¬ present (s.page d (pdx (vaOf a))) = true) :
    deallocNext s.page d (vaOf a) = vaOf ((a / 1024 + 1) * 1024) := by
  rw [deallocNext, if_neg hp, pdx_vaOf]
  simp only [vaOf, pgsize, u32, userPages] at *
  omega

/-- Where there is no table, the plain walk takes the rest of the 4 MB one page at a time, and does
nothing. -/
theorem plainLoop_skip {N : Nat} (hp : ¬ present (s.page d (pdx (vaOf a))) = true) :
    plainLoop L d (List.range' a (N - a)) s =
      plainLoop L d (List.range' ((a / 1024 + 1) * 1024) (N - (a / 1024 + 1) * 1024)) s := by
  have hsplit : List.range' a (N - a) = List.range' a (min ((a / 1024 + 1) * 1024) N - a) ++
      List.range' ((a / 1024 + 1) * 1024) (N - (a / 1024 + 1) * 1024) := by
    rcases Nat.le_total ((a / 1024 + 1) * 1024) N with h | h
    · have h1 := List.range'_append_1 (s := a) (m := (a / 1024 + 1) * 1024 - a)
        (n := N - (a / 1024 + 1) * 1024)
      rw [show a + ((a / 1024 + 1) * 1024 - a) = (a / 1024 + 1) * 1024 by omega] at h1
      rw [Nat.min_eq_left h, h1]
      congr 1
      omega
    · rw [Nat.min_eq_right h, Nat.sub_eq_zero_of_le h]
      exact (List.append_nil _).symm
  rw [hsplit, plainLoop_append, bind_ok (plainLoop_of_no_table fun m hm => ?_)]
  rw [List.mem_range'_1] at hm
  have hpd : pdx (vaOf m) = pdx (vaOf a) := by
    apply Fin.ext
    rw [pdx_vaOf, pdx_vaOf]
    omega
  rw [hpd]
  exact target_eq_none.2 hp

theorem deallocLoop_eq_plain (hsz : oldsz ≤ kernbase) : ∀ n a : Nat, oldsz ≤ vaOf (a + n) →
    deallocLoop L d oldsz n (vaOf a) = plainLoop L d (List.range' a (pagesBelow oldsz - a)) := by
  intro n
  induction n with
  | zero =>
    intro a hn
    rw [Nat.sub_eq_zero_of_le (pagesBelow_le.2 (show oldsz ≤ vaOf a from hn))]
    rfl
  | succ n ih =>
    refine fun a hn => funext fun s => ?_
    by_cases hlt : vaOf a < oldsz
    · have hk := Nat.lt_of_lt_of_le hlt hsz
      have hu := lt_userPages hk
      have hnext : oldsz ≤ vaOf (a + 1 + n) := by rwa [show a + 1 + n = a + (n + 1) by omega]
      rw [deallocLoop_turn hlt hk]
      by_cases hp : present (s.page d (pdx (vaOf a))) = true
      · have hab : a < pagesBelow oldsz := Nat.lt_of_not_le fun h => by
          have := pagesBelow_le.1 h
          omega
        rw [deallocNext_of_table hu hp, ih (a + 1) hnext,
          show pagesBelow oldsz - a =
          (pagesBelow oldsz - (a + 1)) + 1 by omega, List.range'_succ, plainLoop]
      · have hle : vaOf (a + 1 + n) ≤ vaOf ((a / 1024 + 1) * 1024 + n) :=
          Nat.mul_le_mul_right _ (by omega)
        rw [deallocNext_of_no_table hu hp, bind_ok (plainStep_of_no_table (target_eq_none.2 hp)),
          ih _ (Nat.le_trans hnext hle), plainLoop_skip hp]
    · rw [deallocLoop, if_neg hlt, Nat.sub_eq_zero_of_le (pagesBelow_le.2 (Nat.le_of_not_lt hlt))]
      rfl

theorem deallocuvm_eq_plain (hsz : oldsz ≤ kernbase) (newsz : Nat) :
    deallocuvm L d oldsz newsz = plainWalk L d oldsz newsz := by
  unfold deallocuvm plainWalk
  split
  · rfl
  · next hlt =>
    rw [pgroundup_eq (by omega), deallocLoop_eq_plain hsz _ _ (le_vaOf_add hsz _)]
    rfl

theorem lt_deallocNext {m : Ppn → Page} (ha : a < kernbase) : a < deallocNext m d a := by
  have hpd : (pdx a).val = a / 2 ^ 22 % 1024 := rfl
  simp only [deallocNext, hpd, pgsize, u32, kernbase] at *
  split <;> omega

end

end Xv6.Vm
