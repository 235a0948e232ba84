import Xv6.Vm.Machine
import Xv6.Vm.Proof.Own
import Mathlib.Data.Fintype.Card

/-!
# Enough memory

While there are as many free pages as tables that a directory does not have, no call that enters
pages in it fails for want of a table (`Ample`). So with a free page for each entry of the directory
and each page to be mapped, `setupkvm`, `allocuvm` and `copyuvm` succeed.
-/

namespace Xv6.Vm

open Lib Function

/-- The number of entries without a table. -/
def absent (m : Ppn → Page) (d : Ppn) : Nat :=
  (Finset.univ.filter fun i : Fin 1024 => ¬ present (m d i) = true).card

theorem absent_le (m : Ppn → Page) (d : Ppn) : absent m d ≤ 1024 :=
  Nat.le_trans (Finset.card_filter_le _ _) (by simp)

/-- There are `n` free pages, and no call of `kalloc` fails while it has one. -/
structure Stock (n : Nat) (s : Mem) : Prop where
  oom : s.oom = []
  nodup : s.free.Nodup
  room : n ≤ s.free.length

/-- Besides a page for each table that `d` does not have there are `k` free pages. -/
structure Ample (d : Ppn) (k : Nat) (s : Mem) : Prop where
  oom : s.oom = []
  used : d ∉ s.free
  room : absent s.page d + k ≤ s.free.length

section
variable {L : Layout} {d src : Ppn} {k : Nat} {E : String → Mem → Prop}

theorem absent_congr {m m' : Ppn → Page} (h : m' d = m d) : absent m' d = absent m d := by
  unfold absent
  rw [h]

theorem absent_wr_le (m : Ppn → Page) (d tab : Ppn) (i : Fin 1024) {w : Word}
    (hw : present w = true) :
    absent (update m tab (update (m tab) i w)) d ≤ absent m d := by
  by_cases hd : d = tab
  · subst hd
    refine Finset.card_le_card fun j hj => ?_
    simp only [Finset.mem_filter, Finset.mem_univ, true_and, update_self] at hj ⊢
    by_cases hji : j = i
    · subst hji
      rw [update_self] at hj
      exact absurd hw hj
    · rwa [update_of_ne hji] at hj
  · exact Nat.le_of_eq (absent_congr (update_of_ne hd _ _))

theorem absent_enter_lt (m : Ppn → Page) (d : Ppn) {i : Fin 1024} {w : Word} (hw : present w = true)
    (hi : ¬ present (m d i) = true) :
    absent (update m d (update (m d) i w)) d < absent m d := by
  refine Finset.card_lt_card ⟨fun j hj => ?_, fun h => ?_⟩
  · simp only [Finset.mem_filter, Finset.mem_univ, true_and, update_self] at hj ⊢
    by_cases hji : j = i
    · subst hji
      exact hi
    · rwa [update_of_ne hji] at hj
  · have hmem : i ∈ Finset.univ.filter fun i : Fin 1024 => ¬ present (m d i) = true := by
      simpa using hi
    have h1 := h hmem
    simp [hw] at h1

theorem Stock.kalloc {s : Mem} (h : Stock (k + 1) s) :
    ∃ p l, s.free = p :: l ∧ p ∉ l ∧ kalloc s = .ok (some p) { s with free := l, oom := [] } ∧
      Stock k { s with free := l, oom := [] } := by
  obtain ⟨p, l, hl⟩ : ∃ p l, s.free = p :: l := by
    refine List.exists_cons_of_length_pos (Nat.lt_of_lt_of_le (Nat.succ_pos k) h.room)
  have hnd := h.nodup
  have hroom := h.room
  rw [hl, List.nodup_cons] at hnd
  rw [hl, List.length_cons] at hroom
  refine ⟨p, l, hl, hnd.1, ?_, rfl, hnd.2, Nat.le_of_succ_le_succ hroom⟩
  rw [kalloc_some (by rw [h.oom]; nofun) hl, h.oom]
  rfl

theorem Ample.kalloc {s : Mem} (h : Ample d k s) (hpos : 0 < absent s.page d + k) :
    ∃ p l, s.free = p :: l ∧ p ≠ d ∧ d ∉ l ∧
      kalloc s = .ok (some p) { s with free := l, oom := [] } := by
  have hroom := h.room
  obtain ⟨p, l, hl⟩ : ∃ p l, s.free = p :: l := by
    refine List.exists_cons_of_ne_nil fun h0 => ?_
    rw [h0, List.length_nil] at hroom
    omega
  have hused := h.used
  rw [hl, List.mem_cons, not_or] at hused
  refine ⟨p, l, hl, fun hp => hused.1 hp.symm, hused.2, ?_⟩
  rw [kalloc_some (by rw [h.oom]; nofun) hl, h.oom]
  rfl

theorem kalloc_ample {α : Type} {x : Option Ppn → M α} {Q : α → Mem → Prop}
    (hx : ∀ p, p ≠ d → Triple (Ample d k) (x (some p)) Q E) :
    Triple (Ample d (k + 1)) (kalloc >>= x) Q E := by
  intro s h
  obtain ⟨p, l, hl, hp, hd, he⟩ := h.kalloc (by omega)
  have hroom := h.room
  rw [hl, List.length_cons] at hroom
  rw [bind_ok he]
  exact hx p hp _ ⟨rfl, hd, by dsimp only; omega⟩

theorem Ample.setPage {s : Mem} (h : Ample d k s) {p : Ppn} (hp : p ≠ d) (pg : Page) :
    Ample d k (s.setPage p pg) := by
  refine ⟨h.oom, h.used, ?_⟩
  rw [show absent (s.setPage p pg).page d = absent s.page d from
    absent_congr (update_of_ne hp.symm _ _)]
  exact h.room

theorem walkpgdir_ample (va : Nat) : Triple (Ample d k) (walkpgdir d va true)
    (fun v s => v ≠ none ∧ Ample d k s) fun _ _ => False := by
  intro s h
  unfold walkpgdir
  have hrd : rd d (pdx va) s = .ok (s.page d (pdx va)) s := rfl
  rw [bind_ok hrd]
  by_cases hp : present (s.page d (pdx va)) = true
  · rw [if_pos hp]
    exact ⟨nofun, h⟩
  rw [if_neg hp, if_neg (by decide)]
  have hpos : 0 < absent s.page d := Finset.card_pos.2 ⟨pdx va, by simpa using hp⟩
  obtain ⟨p, l, hl, hpd, hd, he⟩ := h.kalloc (by omega)
  rw [bind_ok he]
  have hroom := h.room
  rw [hl, List.length_cons] at hroom
  refine ⟨nofun, rfl, hd, ?_⟩
  have hsame : (update s.page p (Page.const 0)) d = s.page d := update_of_ne hpd.symm _ _
  have hlt := absent_enter_lt (update s.page p (Page.const 0)) d (i := pdx va)
    (w := pte p (pteP ||| pteW ||| pteU)) (by rw [present_pte]; decide) (by rwa [hsame])
  rw [absent_congr hsame] at hlt
  have hlen : absent s.page d + k ≤ l.length + 1 := hroom
  exact Nat.le_of_lt_succ (Nat.lt_of_lt_of_le (Nat.add_lt_add_right hlt k) hlen)

section
variable (hE : ∀ s, E "remap" s)
include hE

theorem mapTurn_ample {a : Nat} {w : Word} (hw : present w = true) {x : M Int}
    {Q : Int → Mem → Prop} (hx : Triple (Ample d k) x Q E) :
    Triple (Ample d k) (do
      match ← walkpgdir d a true with
      | none => return -1
      | some (tab, i) =>
        let w' ← rd tab i
        if present w' then
          panic "remap"
        else
          wr tab i w
          x) Q E := by
  refine ((walkpgdir_ample a).conseq (fun _ h => h) (fun _ _ h => h)
    fun _ _ h => h.elim).bind fun v => ?_
  rcases v with _ | ⟨tab, i⟩
  · exact .pure fun s h => absurd rfl h.1
  refine (Triple.reads (g := fun s : Mem => s.page tab i) fun s _ => rfl).bind fun _ =>
    .ite (fun _ => .throw fun _ _ => hE _) fun _ => ?_
  refine Triple.bind (.modify (Q := fun _ => Ample d k) fun s h => ?_) fun _ => hx
  obtain ⟨⟨-, h⟩, -⟩ := h
  exact ⟨h.oom, h.used, Nat.le_trans (Nat.add_le_add_right (absent_wr_le _ _ _ _ hw) k) h.room⟩

theorem mapLoop_ample (perm : BitVec 12) : ∀ (n a : Nat) (pa : Ppn),
    Triple (Ample d k) (mapLoop d perm n a pa) (fun v s => ¬ v < 0 ∧ Ample d k s) E
  | 0, _, _ => by
    unfold mapLoop
    exact mapTurn_ample hE (present_pte_or ..) (.pure fun s h => ⟨by decide, h⟩)
  | n + 1, _, _ => by
    unfold mapLoop
    exact mapTurn_ample hE (present_pte_or ..) (mapLoop_ample perm n _ _)

theorem mappages_ample (va size : Nat) (pa : Ppn) (perm : BitVec 12) :
    Triple (Ample d k) (mappages d va size pa perm) (fun v s => ¬ v < 0 ∧ Ample d k s) E :=
  mapLoop_ample hE perm _ _ pa

/-- The new page `p` is filled and mapped. -/
theorem mapNew_ample {α : Type} {p : Ppn} (hp : p ≠ d) (f : Mem → Page) (va size : Nat)
    (perm : BitVec 12) {bad x : M α} {Q : α → Mem → Prop} (hx : Triple (Ample d k) x Q E) :
    Triple (Ample d k) (do
      modify fun s => s.setPage p (f s)
      if (← mappages d va size p perm) < 0 then bad else x) Q E := by
  refine Triple.bind (.modify (Q := fun _ => Ample d k) fun s h => h.setPage hp _) fun _ => ?_
  refine (mappages_ample hE va size p perm).bind fun v => .ite (fun hv => ?_) fun _ =>
    hx.pre fun s h => h.2
  exact fun s h => absurd hv h.1

theorem mapKernel_ample : ∀ ks : List Kmap,
    Triple (Ample d k) (mapKernel L d ks) (fun v s => v = some d ∧ Ample d k s) E
  | [] => .pure fun s h => ⟨rfl, h⟩
  | e :: ks => by
    unfold mapKernel
    refine (mappages_ample hE _ _ _ _).bind fun v => .ite (fun hv => ?_) fun _ =>
      (mapKernel_ample ks).pre fun s h => h.2
    exact fun s h => absurd hv h.1

theorem setupkvm_ample : Triple (Stock (1025 + k)) (setupkvm L)
    (fun v s => ∃ d, v = some d ∧ Ample d k s) E := by
  intro s h
  obtain ⟨p, l, -, hp, he, h1⟩ := Stock.kalloc (k := 1024 + k) (by rwa [Nat.add_right_comm])
  unfold setupkvm
  rw [bind_ok he]
  have h0 : Ample p k { s with page := update s.page p (Page.const 0), free := l, oom := [] } := by
    refine ⟨rfl, hp, Nat.le_trans (Nat.add_le_add_right (absent_le _ _) k) h1.room⟩
  exact (mapKernel_ample hE (kmap L)).post (fun v s h => ⟨p, h⟩) _ h0

end

theorem copyLoop_ample : ∀ n i : Nat, Triple (Ample d (n + k)) (copyLoop L src d n i)
    (fun v s => v = some d ∧ Ample d k s) fun _ _ => True := by
  intro n
  induction n with
  | zero => exact fun i => .pure fun s h => ⟨rfl, by simpa using h⟩
  | succ n ih =>
    intro i
    unfold copyLoop
    refine (Triple.reads fun s _ => walkpgdir_eq src i s).bind fun v => ?_
    rcases v with _ | ⟨tab, j⟩
    · exact .throw fun _ _ => trivial
    refine (Triple.reads (g := fun s : Mem => s.page tab j) fun s _ => rfl).bind fun w =>
      .ite (fun _ => .throw fun _ _ => trivial) fun _ => ?_
    refine (kalloc_ample (k := n + k) fun p hp => ?_).pre fun s h => by
      rw [Nat.add_right_comm]
      exact h.1.1
    exact mapNew_ample (fun _ => trivial) hp _ _ _ _ (ih _)

theorem copyuvm_ample {sz : Nat} : Triple (Stock (1025 + ((sz + (pgsize - 1)) / pgsize + k)))
    (copyuvm L src sz) (fun v s => ∃ d, v = some d ∧ Ample d k s) fun _ _ => True := by
  unfold copyuvm
  refine (setupkvm_ample fun _ => trivial).bind fun v => .exists_pre fun d =>
    .of_pre (fun s h => h.1) ?_
  rintro rfl
  exact ((copyLoop_ample (k := k) _ 0).pre fun s h => h.2).post fun v s h => ⟨d, h⟩

theorem allocLoop_ample (oldsz newsz : Nat) : ∀ n a : Nat, Triple (Ample d (n + k))
    (allocLoop L d oldsz newsz n a) (fun v s => v = newsz ∧ Ample d k s) fun _ _ => True := by
  intro n
  induction n with
  | zero => exact fun a => .pure fun s h => ⟨rfl, by simpa using h⟩
  | succ n ih =>
    intro a
    unfold allocLoop
    rw [Nat.add_right_comm]
    exact kalloc_ample fun p hp => mapNew_ample (fun _ => trivial) hp _ _ _ _ (ih _)

/-! ## `userinit` and `fork` -/

theorem userinit_ample {init : Bytes} (hlen : init.length < pgsize) (hE : ∀ s, E "remap" s) :
    Triple (Stock (1027 + k)) (userinit L init)
      (fun pr s => ∃ d ks, pr = ⟨d, pgsize, ks, false, none⟩ ∧ Ample d k s) E := by
  intro s h
  obtain ⟨ks, l, -, -, he, h1⟩ := Stock.kalloc (k := 1026 + k) (by rwa [Nat.add_right_comm])
  unfold userinit
  rw [bind_ok he]
  refine Triple.bind (P := Stock (1025 + (1 + k))) (setupkvm_ample hE) (fun v => ?_) _
    (by rwa [← Nat.add_assoc])
  refine .exists_pre fun d => .of_pre (fun s h => h.1) ?_
  rintro rfl
  refine Triple.bind (Q := fun _ => Ample d k) ?_ fun _ => .pure fun s h => ⟨d, ks, rfl, h⟩
  unfold inituvm
  rw [if_neg (Nat.not_le.2 hlen)]
  refine (kalloc_ample (k := k) fun p hp => ?_).pre fun s h => by
    rw [Nat.add_comm]
    exact h.2
  exact mapNew_ample hE hp _ _ _ _ (.modify fun s h => h.setPage hp _)

theorem fork_ample {sz : Nat} : Triple (Stock (1026 + (sz + (pgsize - 1)) / pgsize)) (fork L src sz)
    (fun v _ => ∃ d ks, v = some ⟨d, sz, ks, false, none⟩) fun _ _ => True := by
  intro s h
  obtain ⟨ks, l, -, -, he, h1⟩ := Stock.kalloc (k := 1025 + (sz + (pgsize - 1)) / pgsize)
    (by rwa [Nat.add_right_comm])
  unfold fork
  rw [bind_ok he]
  refine Triple.bind (copyuvm_ample (k := 0)) (fun v => ?_) _ h1
  refine .exists_pre fun d => .of_pre (fun s h => h.1) ?_
  rintro rfl
  exact .pure fun s _ => ⟨d, ks, rfl⟩

end

end Xv6.Vm
