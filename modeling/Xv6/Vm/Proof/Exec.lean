import Xv6.Vm.Proof.UserMem

/-!
# Growing, and the stages of exec

An image of size `sz` has no user page above `sz`, and no page of the kernel mapped for the user
(`Image`). While `exec` builds one, all pages below its size are there (`Full`), so that `loaduvm`
and `clearpteu` find them.
-/

namespace Xv6.Vm

open Lib Function

variable {R : Type} {W : World R} {U : Nat → Option Word} {d : Ppn}
  {C : Nat → Page} {E : String → Mem → Mem → Prop}
variable {m n sz newsz oldsz argc sp : Nat} {U' : Nat → Option Word}
  {argv : List Bytes} {ustack : List Nat}

/-- No page in hand. -/
abbrev empty : Bool → Option Ppn := fun _ => none

/-- An address space of `sz` bytes. -/
structure Image (U : Nat → Option Word) (sz : Nat) : Prop where
  le : sz ≤ kernbase
  below : ∀ m < userPages, U m ≠ none → vaOf m < sz
  kern : UserOnly U

/-- Every page below `sz` is mapped. -/
def Full (U : Nat → Option Word) (sz : Nat) : Prop := ∀ m, vaOf m < sz → ∃ w, U m = some w

theorem vaOf_mono (h : m ≤ n) : vaOf m ≤ vaOf n := Nat.mul_le_mul_right _ h

theorem vaOf_lt (h : m < n) : vaOf m < vaOf n := (Nat.mul_lt_mul_right (by decide)).2 h

theorem kernbase_le (h : userPages ≤ m) : kernbase ≤ vaOf m :=
  Nat.le_trans (show kernbase ≤ vaOf userPages by decide) (vaOf_mono h)

theorem Image.above (h : Image U sz) : ∀ m < userPages, sz ≤ vaOf m → U m = none := by
  intro m hm hle
  by_contra hne
  exact absurd (h.below m hm hne) (Nat.not_lt.2 hle)

theorem Image.mono {sz' : Nat} (h : Image U sz) (hle : sz ≤ sz') (hk : sz' ≤ kernbase) :
    Image U sz' :=
  ⟨hk, fun m hm hne => Nat.lt_of_lt_of_le (h.below m hm hne) hle, h.kern⟩

theorem KernelOnly.image (h : KernelOnly U) (hk : sz ≤ kernbase) : Image U sz :=
  ⟨hk, fun m hm hne => absurd (h.user_none m hm) hne, fun m w _ hw => h.not_user m w hw⟩

theorem Image.grown {a : Nat} (h : Image U oldsz)
    (hg : Grown U a newsz U') (hle : oldsz ≤ newsz) (hk : newsz < kernbase) : Image U' newsz := by
  refine ⟨Nat.le_of_lt hk, fun m hm hne => ?_, fun m w hm hw => ?_⟩
  · by_contra hlt
    rw [hg.same m fun h => hlt h.2] at hne
    exact hlt (Nat.lt_of_lt_of_le (h.below m hm hne) hle)
  · rw [hg.same m fun h => absurd h.2 (Nat.not_lt.2 (Nat.le_trans (Nat.le_of_lt hk)
      (kernbase_le hm)))] at hw
    exact h.kern m w hm hw

theorem Full.grown (h : Full U oldsz)
    (hg : Grown U (pagesBelow oldsz) newsz U') : Full U' newsz := by
  intro m hm
  by_cases hle : pagesBelow oldsz ≤ m
  · obtain ⟨p, hp⟩ := hg.mapped m hle hm
    exact ⟨_, hp⟩
  · rw [hg.same m fun h => hle h.1]
    exact h m (Nat.lt_of_not_le fun hle' => hle (pagesBelow_le.2 hle'))

theorem Image.erased (h : Image U sz) :
    Image (erased U (pagesBelow newsz) sz) (min sz newsz) := by
  refine ⟨Nat.le_trans (Nat.min_le_left ..) h.le, fun m hm hne => ?_, fun m w hm hw => ?_⟩
  · unfold Vm.erased at hne
    by_cases hc : pagesBelow newsz ≤ m ∧ vaOf m < sz
    · rw [if_pos hc] at hne
      exact absurd rfl hne
    · rw [if_neg hc] at hne
      have h1 := h.below m hm hne
      have h2 : vaOf m < newsz := Nat.lt_of_not_le fun hle => hc ⟨pagesBelow_le.2 hle, h1⟩
      exact Nat.lt_min.2 ⟨h1, h2⟩
  · unfold Vm.erased at hw
    split at hw
    · cases hw
    · exact h.kern m w hm hw

theorem growproc_twin {n : Int} (hi : Image U sz) :
    Twin (Maps W d empty U) (growproc W.L d sz n) (fun r s t =>
      ∃ U', Image U' r.2 ∧ Maps W d empty U' s t) E := by
  unfold growproc
  refine .ite (fun _ => ?_) fun _ => .ite (fun _ => ?_) fun _ => .pure fun s t h => ⟨U, hi, h⟩
  · refine (allocuvm_twin rfl rfl hi.above).bind fun v =>
      .ite (fun h0 => .pure fun s t h => ?_) fun h0 => .pure fun s t h => ?_
    · rcases h with ⟨-, h⟩ | ⟨-, -, h⟩ | ⟨rfl, hle, hk, U', h, hg⟩
      · exact ⟨U, hi, h⟩
      · exact ⟨U, hi, h⟩
      · have h1 := hi.grown hg hle hk
        rw [h0] at h1
        exact ⟨U', h1.mono (Nat.zero_le _) hi.le, h⟩
    · rcases h with ⟨rfl, h⟩ | ⟨rfl, -, h⟩ | ⟨rfl, hle, hk, U', h, hg⟩
      · exact absurd rfl h0
      · exact ⟨U, hi, h⟩
      · exact ⟨U', hi.grown hg hle hk, h⟩
  · refine (deallocuvm_twin hi.le rfl).bind fun v =>
      .ite (fun _ => .pure fun s t h => ?_) fun _ => .pure fun s t h => ?_
    · exact ⟨_, hi.erased.mono (Nat.min_le_left ..) hi.le, h.2⟩
    · obtain ⟨rfl, h⟩ := h
      exact ⟨_, hi.erased, h⟩

theorem inituvm_twin {init : List (BitVec 8)} (hk : KernelOnly U)
    (hE : ∀ e s t, e ≠ "remap" → E e s t) :
    Twin (Maps W d empty U) (inituvm d init) (fun _ s t =>
      ∃ U', (Image U' pgsize ∧ Full U' pgsize) ∧ Maps W d empty U' s t) E := by
  have hu : 0 < userPages := by decide
  unfold inituvm
  refine .ite (fun _ => .throw fun s t _ => hE _ _ _ (by decide)) fun _ => ?_
  refine ((kalloc_twin (W := W) (g := empty) (b := false) (d := some d) (U := U) rfl
    (Contents U fun _ => Page.const 0)).pre fun s t h => ⟨h, (hk.filled h _).data⟩).bind fun v => ?_
  rcases v with _ | mem
  · exact .throw fun s t _ => hE _ _ _ (by decide)
  have hm : update empty false (some mem) false = some mem := update_self ..
  refine Twin.bind (Q := fun _ s t => Filled W d (update empty false (some mem)) U
    (fun _ => Page.const 0) s t ∧
    s.page mem = Page.const 0) (.modify fun s t h => ⟨h.2.fill h.1 hm _, update_self ..⟩)
    fun _ => ?_
  have h1 := mappages_data (W := W) (d := d) (U := U) (C := fun _ => Page.const 0) (E := E)
    (f := pteW ||| pteU) (G := Page.const 0) hu (hk.user_none 0 hu) (by simp) hm
  rw [vaOf, Nat.zero_mul] at h1
  refine h1.bind fun v => .ite (fun _ => .throw fun s t _ => hE _ _ _ (by decide)) fun hv => ?_
  have hw : update U 0 (some (pte mem (pteW ||| pteU ||| pteP))) 0 =
      some (pte mem (pteW ||| pteU ||| pteP)) := update_self ..
  have h2 := moveBytes_twin (W := W) (g := empty) (d := d) (E := E) 0 init hu hw
  rw [pteAddr_pte] at h2
  refine (h2.pre fun s t h => ?_).post fun _ s t h =>
    ⟨_, ⟨⟨by decide, fun m hm hne => ?_, fun m w hm hw => ?_⟩, fun m hm => ?_⟩, h⟩
  · have h3 := (h.resolve_left fun h => hv h.1).2.toAt
    rwa [hand_emptied rfl] at h3
  · by_cases h0 : m = 0
    · rw [h0]
      decide
    · rw [update_of_ne h0] at hne
      exact absurd (hk.user_none m hm) hne
  · rw [update_of_ne (by omega)] at hw
    exact hk.not_user m w hw
  · obtain rfl : m = 0 :=
      Nat.lt_one_iff.1 (Nat.lt_of_mul_lt_mul_right (a := pgsize) (by rwa [Nat.one_mul]))
    exact ⟨_, hw⟩

/-- The new image at each stage of `exec`. -/
def StageOk (U : Nat → Option Word) : Stage → Prop
  | .load _ _ sz | .stack sz => Image U sz ∧ Full U sz
  | .args sz _ _ _ | .commit sz => Image U sz
  | .bad => True

theorem leAt_lt (bs : Bytes) : ∀ n off : Nat, leAt bs off n < 256 ^ n
  | 0, _ => Nat.one_pos
  | n + 1, off => by
    have h := leAt_lt bs n (off + 1)
    have hb := (bs.getD off 0).isLt
    rw [leAt, Nat.pow_succ]
    omega

theorem loadSegment_twin {file ph : Bytes} {i off : Nat} (hi : Image U sz) (hf : Full U sz) :
    Twin (Maps W d empty U) (loadSegment W.L d file ph i off sz) (fun st s t =>
      ∃ U', StageOk U' st ∧ Maps W d empty U' s t) E := by
  have hbad : ∀ {U' : Nat → Option Word} s t, Maps W d empty U' s t →
      ∃ U', StageOk U' .bad ∧ Maps W d empty U' s t := fun s t h => ⟨_, trivial, h⟩
  have hv := leAt_lt ph 4 8
  have hz := leAt_lt ph 4 20
  unfold loadSegment
  refine .ite (fun _ => .pure fun s t h => ⟨U, ⟨hi, hf⟩, h⟩) fun _ =>
    .ite (fun _ => .pure hbad) fun hfz => .ite (fun _ => .pure hbad) fun hnw => ?_
  have hsum : (leAt ph 8 4 + leAt ph 20 4) % u32 = leAt ph 8 4 + leAt ph 20 4 := by
    simp only [u32] at *
    omega
  rw [hsum]
  refine (allocuvm_twin rfl rfl hi.above).bind fun v => ?_
  -- After a success the new image is complete up to `v`, which the segment does not exceed.
  refine Twin.pre (P := fun s t => ∃ U', (v = 0 ∨ Image U' v ∧ Full U' v ∧
    leAt ph 8 4 + leAt ph 20 4 ≤ v) ∧
    Maps W d empty U' s t) ?_ fun s t h => ?_
  · refine .exists_pre fun U' => .of_pre (fun s t h => h.1) fun hU' =>
      .ite (fun _ => .pure fun s t h => hbad s t h.2) fun h0 =>
        .ite (fun _ => .pure fun s t h => hbad s t h.2) fun hal => ?_
    obtain ⟨hi', hf', hle⟩ := hU'.resolve_left h0
    refine ((loaduvm_twin (by simpa using hal) (by have := hi'.le; omega)
      fun m _ hm => hf' m (by omega)).pre
      fun s t h => h.2).bind fun _ => .ite (fun _ => .pure hbad) fun _ =>
        .pure fun s t h => ⟨U', ⟨hi', hf'⟩, h⟩
  · rcases h with ⟨rfl, h⟩ | ⟨rfl, hlt, h⟩ | ⟨rfl, hle, hk, U', h, hg⟩
    · exact ⟨U, .inl rfl, h⟩
    · exact ⟨U, .inr ⟨hi, hf, Nat.le_of_lt hlt⟩, h⟩
    · exact ⟨U', .inr ⟨hi.grown hg hle hk, hf.grown hg, Nat.le_refl _⟩, h⟩

theorem makeStack_data {P : Nat} (hP : pagesBelow sz = P) (hi : Image U sz)
    (hC : ∀ m < userPages, sz ≤ vaOf m → C m = Page.const 0) :
    Twin (Filled W d empty U C) (makeStack W.L d sz) (fun st s t =>
      (st = .bad ∧ ∃ U', Maps W d empty U' s t) ∨
        ∃ U' w, st = .args (vaOf (P + 2)) 0 (vaOf (P + 2)) [] ∧
        vaOf (P + 2) < kernbase ∧ Grown U P (vaOf (P + 2)) U' ∧ U' P = some w ∧
        Filled W d empty (update U' P (some (w &&& ~~~(pte 0 pteU)))) C s t) E := by
  have hk := hi.le
  have hup : sz ≤ vaOf P := pagesBelow_le.1 (Nat.le_of_eq hP)
  have hpb : vaOf P ≤ kernbase := by
    refine Nat.le_trans (vaOf_mono (?_ : P ≤ userPages)) (by decide)
    rw [← hP]
    exact pagesBelow_le.2 (show sz ≤ vaOf userPages from hk)
  have hsum : (vaOf P + 2 * pgsize) % u32 = vaOf (P + 2) := by
    rw [Nat.mod_eq_of_lt (Nat.lt_of_le_of_lt (Nat.add_le_add_right hpb _) (by decide))]
    exact (Nat.add_mul ..).symm
  have hlt : vaOf P < vaOf (P + 2) := vaOf_lt (Nat.lt_add_of_pos_right (by decide))
  unfold makeStack
  rw [pgroundup_eq hk, hP]
  dsimp only
  rw [hsum]
  refine (allocuvm_data rfl rfl (hi.mono hup hpb).above
    fun m hm hle => hC m hm (Nat.le_trans hup hle)).bind
    fun v => .ite (fun _ => .pure fun s t h => .inl ⟨rfl, ?_⟩) fun h0 => ?_
  · rcases h with ⟨-, h⟩ | ⟨-, -, h⟩ | ⟨-, -, -, U', h, -⟩
    · exact ⟨U, h⟩
    · exact ⟨U, h.toAt⟩
    · exact ⟨U', h.toAt⟩
  refine Twin.pre (P := fun s t => ∃ U', (v = vaOf (P + 2) ∧ v < kernbase ∧ Grown U P v U') ∧
    Filled W d empty U' C s t) ?_ fun s t h => ?_
  · refine .exists_pre fun U' => .of_pre (fun s t h => h.1) ?_
    rintro ⟨rfl, hvk, hg⟩
    obtain ⟨q, hq⟩ := hg.mapped P (Nat.le_refl P) hlt
    rw [show vaOf (P + 2) - 2 * pgsize = vaOf P by rw [vaOf, Nat.add_mul, Nat.add_sub_cancel]]
    exact ((clearpteu_data (lt_userPages (Nat.lt_trans hlt hvk)) hq).pre
      fun s t h => h.2).bind fun _ =>
      .pure fun s t h => .inr ⟨U', _, rfl, hvk, hg, hq, h⟩
  · rcases h with ⟨hv, -⟩ | ⟨-, h1, -⟩ | ⟨hv, -, hk', U', h, hg⟩
    · exact absurd hv h0
    · exact absurd h1 (Nat.not_lt.2 (Nat.le_of_lt hlt))
    · subst hv
      rw [pagesBelow_vaOf] at hg
      exact ⟨U', ⟨rfl, hk', hg⟩, h⟩

theorem makeStack_twin (hi : Image U sz) :
    Twin (Maps W d empty U) (makeStack W.L d sz) (fun st s t =>
      ∃ U', StageOk U' st ∧ Maps W d empty U' s t) E := by
  have h1 := fun C => @makeStack_data R W U d C E sz _ rfl hi
  generalize makeStack W.L d sz = x at h1 ⊢
  refine twin_of_zero hi.above fun C hC => (h1 C hC).post fun st s t h => ?_
  rcases h with ⟨rfl, U', h⟩ | ⟨U', w, rfl, hk, hg, -, h⟩
  · exact ⟨U', trivial, h⟩
  have hlt : vaOf (pagesBelow sz) < vaOf (pagesBelow sz + 2) :=
    vaOf_lt (Nat.lt_add_of_pos_right (by decide))
  have him := hi.grown hg (Nat.le_trans (pagesBelow_le.1 (Nat.le_refl _)) (Nat.le_of_lt hlt)) hk
  refine ⟨_, ⟨him.le, fun m hm hne => ?_, fun m w' hm hw' => ?_⟩, h.toAt⟩
  · by_cases hmp : m = pagesBelow sz
    · rwa [hmp]
    · rw [update_of_ne hmp] at hne
      exact him.below m hm hne
  · rw [update_of_ne] at hw'
    · exact him.kern m w' hm hw'
    · rintro rfl
      exact absurd (Nat.lt_trans hlt hk) (Nat.not_lt.2 (kernbase_le hm))

theorem pushArg_view (hk : UserOnly U) (hE : ∀ e s t, E e s t) :
    Twin (Maps W d empty U) (pushArg d argv sz argc sp ustack) (fun st s t =>
      Maps W d empty U s t ∧ (st = .bad ∨ st = .commit sz ∨ ∃ i a us, st = .args sz i a us)) E := by
  have hbad : ∀ s t, Maps W d empty U s t → Maps W d empty U s t ∧
      (Stage.bad = .bad ∨ Stage.bad = .commit sz ∨ ∃ i a us, Stage.bad = .args sz i a us) :=
    fun s t h => ⟨h, .inl rfl⟩
  have hu : 0 < u32 := by decide
  unfold pushArg
  split
  · refine .ite (fun _ => .pure hbad) fun _ => ?_
    refine (copyout_twin hk hE (Nat.lt_of_le_of_lt (Nat.div_mul_le_self ..) (Nat.mod_lt _ hu))).bind
      fun _ => .ite (fun _ => .pure hbad) fun _ => .pure fun s t h =>
      ⟨h, .inr (.inr ⟨_, _, _, rfl⟩)⟩
  · exact (copyout_twin hk hE (Nat.mod_lt _ hu)).bind
      fun _ => .ite (fun _ => .pure hbad) fun _ => .pure fun s t h => ⟨h, .inr (.inl rfl)⟩

theorem pushArg_twin (hi : Image U sz) (hE : ∀ e s t, E e s t) :
    Twin (Maps W d empty U) (pushArg d argv sz argc sp ustack) (fun st s t =>
      ∃ U', StageOk U' st ∧ Maps W d empty U' s t) E := by
  refine (pushArg_view hi.kern hE).post fun st s t h => ⟨U, ?_, h.1⟩
  rcases h.2 with rfl | rfl | ⟨i, a, us, rfl⟩
  · trivial
  · exact hi
  · exact hi

theorem next_twin {e : Exec} (he : StageOk U e.stage) (hE : ∀ e s t, E e s t) :
    Twin (Maps W e.pgdir empty U) (e.next W.L) (fun st s t =>
      ∃ U', StageOk U' st ∧ Maps W e.pgdir empty U' s t) E := by
  obtain ⟨pgdir, file, argv, stage⟩ := e
  unfold Exec.next
  cases stage with
  | load i off sz =>
    refine .ite (fun _ => .pure fun s t h => ⟨U, he, h⟩) fun _ => ?_
    dsimp only
    split
    · exact .pure fun s t h => ⟨U, trivial, h⟩
    · exact .ite (fun _ => .pure fun s t h => ⟨U, trivial, h⟩) fun _ => loadSegment_twin he.1 he.2
  | stack sz =>
    obtain ⟨hi, -⟩ : Image U sz ∧ Full U sz := he
    exact @makeStack_twin R W U pgdir E sz hi
  | args sz argc sp ustack => exact pushArg_twin he hE
  | commit sz => exact .pure fun s t h => ⟨U, he, h⟩
  | bad => exact .pure fun s t h => ⟨U, trivial, h⟩

end Xv6.Vm
