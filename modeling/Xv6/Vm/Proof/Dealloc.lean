import Xv6.Vm.Proof.Pages

/-!
# What deallocuvm frees and clears

What the page-by-page walk does to a directory is said entry by entry (`Cleared`). A directory may
use a table twice and map a page twice; its tables and the pages it maps must not be the directory
or one of the tables.
-/

namespace Xv6.Vm

open Lib Function

variable {oldsz n a : Nat} {ns : List Nat} {x : Ppn × Fin 1024}

/-- The entry of page `n`: the table and the index in it, if there is a table. -/
def pteOf (m : Ppn → Page) (d : Ppn) (n : Nat) : Option (Ppn × Fin 1024) :=
  (target (m d (pdx (vaOf n)))).map fun t => (t, ptx (vaOf n))

/-- The tables of a directory, and the pages that it maps for the user, are not the directory itself
or one of its tables, and `kfree` accepts the pages. -/
structure Directory (L : Layout) (m : Ppn → Page) (d : Ppn) : Prop where
  table : ∀ i t, target (m d i) = some t → t ≠ d
  page : ∀ n < userPages, ∀ w, lookup m d (vaOf n) = some w → L.Managed (pteAddr w) ∧
    pteAddr w ≠ d ∧ ∀ i, target (m d i) ≠ some (pteAddr w)

/-- The present entries of the pages `ns` have been cleared, each once, and their pages freed. -/
structure Cleared (d : Ppn) (ns : List Nat) (s s' : Mem) (es : List (Ppn × Fin 1024)) : Prop where
  nodup : es.Nodup
  mem : ∀ x, x ∈ es ↔ present (s.page x.1 x.2) = true ∧ ∃ n ∈ ns, pteOf s.page d n = some x
  free : s'.free = (es.map fun x => pteAddr (s.page x.1 x.2)).reverse ++ s.free
  oom : s'.oom = s.oom
  word : ∀ q, (∀ x ∈ es, q ≠ pteAddr (s.page x.1 x.2)) → ∀ i,
    s'.page q i = if (q, i) ∈ es then 0 else s.page q i

section
variable {L : Layout} {d : Ppn} {s s' s'' : Mem}

theorem Cleared.nil (d : Ppn) (s : Mem) : Cleared d [] s s [] :=
  ⟨List.nodup_nil, by simp, rfl, rfl, by simp⟩

theorem Cleared.skip {es : List (Ppn × Fin 1024)} (h : Cleared d ns s s' es)
    (hn : ∀ x, pteOf s.page d n = some x → ¬ present (s.page x.1 x.2) = true) :
    Cleared d (n :: ns) s s' es := by
  refine ⟨h.nodup, fun x => ?_, h.free, h.oom, h.word⟩
  rw [h.mem x]
  refine and_congr_right fun hp => ⟨fun ⟨n', hn', hx⟩ => ⟨n', List.mem_cons_of_mem _ hn', hx⟩, ?_⟩
  rintro ⟨n', hn', hx⟩
  rcases List.mem_cons.1 hn' with rfl | hn'
  · exact absurd hp (hn x hx)
  · exact ⟨n', hn', hx⟩

/-- The memory after the page of one entry is freed. -/
def clearEntry (s : Mem) (x : Ppn × Fin 1024) : Mem :=
  let q := pteAddr (s.page x.1 x.2)
  let s₁ : Mem := { s.setPage q (freed s.free) with free := q :: s.free }
  s₁.setPage x.1 (update (s₁.page x.1) x.2 0)

theorem clearEntry_page {q : Ppn} (hq : q ≠ pteAddr (s.page x.1 x.2)) (i : Fin 1024) :
    (clearEntry s x).page q i = if (q, i) = x then 0 else s.page q i := by
  obtain ⟨tab, j⟩ := x
  simp only [clearEntry, Mem.setPage, Prod.mk.injEq]
  by_cases hqt : q = tab
  · subst hqt
    rw [update_self, update_apply, update_of_ne hq]
    simp
  · rw [update_of_ne hqt, update_of_ne hq, if_neg fun h => hqt h.1]

theorem pteOf_table (h : pteOf s.page d n = some x) :
    target (s.page d (pdx (vaOf n))) = some x.1 ∧ x.2 = ptx (vaOf n) := by
  obtain ⟨t, ht, rfl⟩ := Option.map_eq_some_iff.1 h
  exact ⟨ht, rfl⟩

theorem lookup_of_pteOf (h : pteOf s.page d n = some x) :
    lookup s.page d (vaOf n) = entry (s.page x.1 x.2) := by
  obtain ⟨ht, hi⟩ := pteOf_table h
  rw [lookup, ht, Option.bind_some, hi]

section
variable {n : Nat} {x : Ppn × Fin 1024} (hd : Directory L s.page d) (hn : n < userPages)
  (hx : pteOf s.page d n = some x) (hp : present (s.page x.1 x.2) = true)
include hd hn hx hp

theorem Directory.entry_page : L.Managed (pteAddr (s.page x.1 x.2)) ∧
    pteAddr (s.page x.1 x.2) ≠ d ∧ ∀ i, target (s.page d i) ≠ some (pteAddr (s.page x.1 x.2)) :=
  hd.page n hn _ (by rw [lookup_of_pteOf hx, entry_of_present hp])

theorem Directory.clear_table {i : Fin 1024} {t : Ppn} (ht : target (s.page d i) = some t)
    (j : Fin 1024) : (clearEntry s x).page t j = if (t, j) = x then 0 else s.page t j := by
  refine clearEntry_page (fun he => ?_) j
  exact (hd.entry_page hn hx hp).2.2 i (by rw [ht, he])

theorem Directory.clear_dir : (clearEntry s x).page d = s.page d := by
  have hxd := hd.table _ _ (pteOf_table hx).1
  funext i
  rw [clearEntry_page (hd.entry_page hn hx hp).2.1.symm, if_neg]
  rintro rfl
  exact hxd rfl

theorem Directory.clear_pteOf (n' : Nat) :
    pteOf (clearEntry s x).page d n' = pteOf s.page d n' := by
  rw [pteOf, hd.clear_dir hn hx hp]
  rfl

theorem Directory.clear : Directory L (clearEntry s x).page d := by
  have hdir := hd.clear_dir hn hx hp
  refine ⟨fun i t ht => hd.table i t (by rwa [hdir] at ht), fun n' hn' w hw => ?_⟩
  rw [hdir]
  refine hd.page n' hn' w ?_
  unfold lookup at hw ⊢
  rw [hdir] at hw
  cases ht : target (s.page d (pdx (vaOf n'))) with
  | none =>
    rw [ht] at hw
    cases hw
  | some t =>
    rw [ht, Option.bind_some, hd.clear_table hn hx hp ht] at hw
    split at hw
    · cases hw
    · exact hw

theorem plainStep_clear : plainStep L d (vaOf n) s = .ok () (clearEntry s x) := by
  obtain ⟨ht, hi⟩ := pteOf_table hx
  obtain ⟨hm, -⟩ := hd.entry_page hn hx hp
  have h0 := Layout.managed_ne_zero hm
  rw [hi] at hp hm h0
  rw [plainStep_of_table ht, if_pos hp, if_neg h0]
  have hk : kfree L (pteAddr (s.page x.1 (ptx (vaOf n)))) s = .ok ()
      { s.setPage (pteAddr (s.page x.1 (ptx (vaOf n)))) (freed s.free) with
        free := pteAddr (s.page x.1 (ptx (vaOf n))) :: s.free } := by
    unfold kfree
    rw [if_pos hm]
    rfl
  rw [bind_ok hk, ← hi]
  rfl

theorem Cleared.cons {es : List (Ppn × Fin 1024)} (h : Cleared d ns (clearEntry s x) s' es) :
    Cleared d (n :: ns) s s' (x :: es) := by
  have hmem : ∀ y ∈ es, y ≠ x ∧ (clearEntry s x).page y.1 y.2 = s.page y.1 y.2 := by
    intro y hy
    obtain ⟨hpy, n', -, hy'⟩ := (h.mem y).1 hy
    rw [hd.clear_pteOf hn hx hp] at hy'
    have hw := hd.clear_table hn hx hp (pteOf_table hy').1 y.2
    split at hw
    · rw [hw] at hpy
      cases hpy
    · next hne => exact ⟨hne, hw⟩
  have hmap : es.map (fun y => pteAddr ((clearEntry s x).page y.1 y.2)) =
      es.map fun y => pteAddr (s.page y.1 y.2) :=
    List.map_congr_left fun y hy => by rw [(hmem y hy).2]
  refine ⟨List.nodup_cons.2 ⟨fun hxs => (hmem x hxs).1 rfl, h.nodup⟩, fun y => ?_, ?_, h.oom,
    fun q hq i => ?_⟩
  · simp only [List.mem_cons, exists_eq_or_imp]
    constructor
    · rintro (rfl | hy)
      · exact ⟨hp, .inl hx⟩
      · obtain ⟨hpy, n', hn', hy'⟩ := (h.mem y).1 hy
        rw [(hmem y hy).2] at hpy
        rw [hd.clear_pteOf hn hx hp] at hy'
        exact ⟨hpy, .inr ⟨n', hn', hy'⟩⟩
    · rintro ⟨hpy, hy⟩
      by_cases hyx : y = x
      · exact .inl hyx
      obtain ⟨n', hn', hy'⟩ := hy.resolve_left fun hy => hyx (Option.some.inj (hy.symm.trans hx))
      refine .inr ((h.mem y).2 ⟨?_, n', hn', ?_⟩)
      · rwa [hd.clear_table hn hx hp (pteOf_table hy').1, if_neg hyx]
      · rwa [hd.clear_pteOf hn hx hp]
  · rw [h.free, hmap, List.map_cons, List.reverse_cons, List.append_assoc]
    rfl
  · have hq1 := hq x List.mem_cons_self
    rw [h.word q (fun y hy => by rw [(hmem y hy).2]; exact hq y (List.mem_cons_of_mem _ hy)),
      clearEntry_page hq1]
    by_cases hqx : (q, i) = x
    · simp [hqx]
    · simp [hqx]

end

theorem plainLoop_cleared : ∀ (ns : List Nat) (s : Mem), (∀ n ∈ ns, n < userPages) →
    Directory L s.page d → ∃ s' es, plainLoop L d ns s = .ok () s' ∧ Cleared d ns s s' es := by
  intro ns
  induction ns with
  | nil => exact fun s _ _ => ⟨s, [], rfl, .nil d s⟩
  | cons n ns ih =>
    intro s hns hd
    have hn := hns n List.mem_cons_self
    have hns' : ∀ n' ∈ ns, n' < userPages := fun n' hn' => hns n' (List.mem_cons_of_mem _ hn')
    unfold plainLoop
    cases hx : pteOf s.page d n with
    | none =>
      obtain ⟨s', es, he, hc⟩ := ih s hns' hd
      rw [bind_ok (plainStep_of_no_table (Option.map_eq_none_iff.1 hx))]
      refine ⟨s', es, he, hc.skip fun y hy => ?_⟩
      rw [hx] at hy
      cases hy
    | some x =>
      by_cases hp : present (s.page x.1 x.2) = true
      · obtain ⟨s', es, he, hc⟩ := ih (clearEntry s x) hns' (hd.clear hn hx hp)
        rw [bind_ok (plainStep_clear hd hn hx hp)]
        exact ⟨s', x :: es, he, hc.cons hd hn hx hp⟩
      · obtain ⟨s', es, he, hc⟩ := ih s hns' hd
        have hstep : plainStep L d (vaOf n) s = .ok () s := by
          obtain ⟨ht, hi⟩ := pteOf_table hx
          rw [hi] at hp
          rw [plainStep_of_table ht, if_neg hp]
          rfl
        rw [bind_ok hstep]
        refine ⟨s', es, he, hc.skip fun y hy => ?_⟩
        rw [hx] at hy
        cases hy
        exact hp

end

/-- **deallocuvm.** On every memory, and whatever the new size, `deallocuvm` is the walk that looks
at every page address `a` with `PGROUNDUP(newsz) <= a < oldsz`; its loop variable grows with each
turn and does not wrap around. On a directory the walk returns: it has freed the page of each
present entry for these addresses, each entry once, has cleared these entries, and has changed
nothing else but the pages that it has freed. -/
theorem deallocuvm_exact (L : Layout) (d : Ppn) (oldsz newsz : Nat) (hsz : oldsz ≤ kernbase) :
    deallocuvm L d oldsz newsz = plainWalk L d oldsz newsz ∧
      (∀ (m : Ppn → Page) (a : Nat), a < oldsz → a < deallocNext m d a) ∧
      ∀ s : Mem, Directory L s.page d → ∃ s' es,
        deallocuvm L d oldsz newsz s = .ok (min oldsz newsz) s' ∧
          Cleared d (pagesBetween newsz oldsz) s s' es := by
  refine ⟨deallocuvm_eq_plain hsz newsz, fun m a ha => lt_deallocNext (by omega), fun s hd => ?_⟩
  rw [deallocuvm_eq_plain hsz]
  unfold plainWalk
  split
  · next hge =>
    have hnil : pagesBetween newsz oldsz = [] := by
      refine List.eq_nil_iff_forall_not_mem.2 fun n hn => ?_
      have := mem_pagesBetween.1 hn
      omega
    rw [hnil, Nat.min_eq_left hge]
    exact ⟨s, [], rfl, .nil d s⟩
  · next hlt =>
    obtain ⟨s', es, he, hc⟩ := plainLoop_cleared (L := L) (d := d) (pagesBetween newsz oldsz) s
      (fun n hn => by
        have := (mem_pagesBetween.1 hn).2
        simp only [vaOf, pgsize, kernbase, userPages] at *
        omega) hd
    rw [bind_ok he, Nat.min_eq_right (by omega)]
    exact ⟨s', es, rfl, hc⟩

/-- A directory in page 1 without a table for its first 4 MB, and with one in page 2 for the next,
which maps page 1025 of the user. -/
def onePage : Mem where
  page := update (update (fun _ => Page.const 0) 1
    (update (Page.const 0) 1 (pte 2 (pteP ||| pteW ||| pteU)))) 2
    (update (Page.const 0) 1 (pte 0x400 (pteP ||| pteW ||| pteU)))
  free := []
  oom := []

theorem onePage_directory : Directory smallKernel onePage.page 1 := by
  have hdir : onePage.page 1 = update (Page.const 0) 1 (pte 2 (pteP ||| pteW ||| pteU)) := rfl
  have htab : onePage.page 2 =
      update (Page.const 0) 1 (pte 0x400 (pteP ||| pteW ||| pteU)) := rfl
  have ht2 : ∀ i t, target (onePage.page 1 i) = some t → t = 2 := by
    intro i t ht
    rw [hdir, update_apply] at ht
    split at ht
    · rw [target_of_present (by decide), pteAddr_pte] at ht
      exact (Option.some.inj ht).symm
    · simp [Page.const] at ht
  refine ⟨fun i t ht => by rw [ht2 i t ht]; decide, fun n _ w hw => ?_⟩
  have hw' : w = pte 0x400 (pteP ||| pteW ||| pteU) := by
    obtain ⟨t, ht, hw⟩ := Option.bind_eq_some_iff.1 hw
    rw [ht2 _ t ht, htab, update_apply] at hw
    split at hw
    · rw [entry_of_present (by decide)] at hw
      exact (Option.some.inj hw).symm
    · simp [Page.const] at hw
  subst hw'
  exact ⟨by decide, by decide, fun i ht => absurd (ht2 i _ ht) (by decide)⟩

theorem deallocuvm_exact_onePage : deallocNext onePage.page 1 0 = 2 ^ 22 ∧ ∃ s' es,
    deallocuvm smallKernel 1 (1027 * pgsize) 0 onePage = .ok 0 s' ∧
      Cleared 1 (pagesBetween 0 (1027 * pgsize)) onePage s' es ∧ (2, 1) ∈ es := by
  obtain ⟨s', es, he, hc⟩ :=
    (deallocuvm_exact smallKernel 1 (1027 * pgsize) 0 (by decide)).2.2 onePage onePage_directory
  exact ⟨by decide, s', es, he, hc, (hc.mem _).2 ⟨by decide, 1025,
    mem_pagesBetween.2 (by decide), by decide⟩⟩

end Xv6.Vm
