import Mathlib.Data.Fintype.Card
import Xv6.Io.BcacheList
import Xv6.Io.Proof.BcacheInv

/-!
# The list of the buffer cache is in the order of the releases

The pointers are those of a list of all buffers (`Rep`), and a step of the cache with pointers is
the step of `Xv6.Bcache` with that list (`ptr_refines`). A release moves the buffer to the front, so
the list stays in the order of the last releases (`Recent.moveFront`).
-/

namespace Xv6.Bcache

open Lib Dlist

/-- The list is in the order of the last occurrence in `rs`, the most recent first; what does not
occur is last. -/
def Recent {α : Type} [DecidableEq α] (rs xs : List α) : Prop :=
  xs.Pairwise fun a b => b ∈ rs → a ∈ rs ∧ rs.idxOf a < rs.idxOf b

theorem Recent.moveFront {α : Type} [DecidableEq α] {rs xs : List α}
    (h : Recent rs xs) (hn : xs.Nodup) (a : α) : Recent (a :: rs) (a :: xs.erase a) := by
  have hne : ∀ b ∈ xs.erase a, b ≠ a := fun b hb => (hn.mem_erase_iff.1 hb).1
  refine List.pairwise_cons.2 ⟨fun b hb _ => ⟨List.mem_cons_self, ?_⟩, ?_⟩
  · rw [List.idxOf_cons_self, List.idxOf_cons_ne _ (hne b hb).symm]
    exact Nat.succ_pos _
  · refine (h.sublist List.erase_sublist).imp_of_mem fun {b c} hb hc hbc hrs => ?_
    have hc' : c ∈ rs := (List.mem_cons.1 hrs).resolve_left (hne c hc)
    obtain ⟨hb', hlt⟩ := hbc hc'
    rw [List.idxOf_cons_ne _ (hne b hb).symm, List.idxOf_cons_ne _ (hne c hc).symm]
    exact ⟨List.mem_cons_of_mem _ hb', Nat.succ_lt_succ hlt⟩

section
variable {P D : Type} [DecidableEq P] {s s' : PtrState P D} {lru : List (Fin nbuf)} {a : Act P D}

/-- The state with the list that the pointers form. -/
def PtrState.abs (s : PtrState P D) (lru : List (Fin nbuf)) : State P D :=
  { s.core with lru := lru }

/-- `bget` has found the block. -/
def PtrState.share (s : PtrState P D) (p : P) (b : Fin nbuf) (k : Key) : PtrState P D :=
  let c := s.core.setBuf b { s.core.buf b with refcnt := (s.core.buf b).refcnt + 1 }
  { s with core := c.setPc p (.locking b k) }

/-- `bget` has taken a buffer over. -/
def PtrState.recycle (s : PtrState P D) (p : P) (b : Fin nbuf) (k : Key) : PtrState P D :=
  let c := s.core.setBuf b
    { s.core.buf b with key := k, valid := false, dirty := false, refcnt := 1 }
  { s with core := c.setPc p (.locking b k) }

theorem rep_binit : Rep PtrState.binit (List.finRange nbuf).reverse := by
  have hn : ((List.finRange nbuf).reverse ++ []).Nodup := by simpa using List.nodup_finRange nbuf
  have h := rep_empty.pushAll hn
  rwa [List.append_nil] at h

theorem lru_length {d : Dlist (Fin nbuf)} (h : Rep d lru) : lru.length < PtrState.turns := by
  have := h.nodup.length_le_card
  rw [Fintype.card_fin] at this
  exact Nat.lt_succ_of_le this

/-- **`bget`** along the pointers is `bget` on the list. -/
theorem bget_refines (h : Rep s.links lru) (p : P) (k : Key) :
    ∃ s', s.bget p k = some s' ∧ s'.abs lru = bget (s.abs lru) p k ∧ s'.links = s.links := by
  unfold PtrState.bget
  simp only [h.find_next _ (lru_length h), h.find_prev _ (lru_length h), Option.bind_eq_bind,
    Option.bind_some]
  unfold bget
  cases h₁ : lru.find? fun b => (s.core.buf b).key = k with
  | some b =>
    rw [show (s.abs lru).lru.find? (fun b => ((s.abs lru).buf b).key = k) = some b from h₁]
    exact ⟨_, rfl, rfl, rfl⟩
  | none =>
    rw [show (s.abs lru).lru.find? (fun b => ((s.abs lru).buf b).key = k) = none from h₁]
    cases h₂ : lru.reverse.find? fun b => (s.core.buf b).refcnt = 0 ∧
      (s.core.buf b).dirty = false with
    | some b =>
      rw [show (s.abs lru).lru.reverse.find?
        (fun b => ((s.abs lru).buf b).refcnt = 0 ∧ ((s.abs lru).buf b).dirty = false) =
        some b from h₂]
      exact ⟨_, rfl, rfl, rfl⟩
    | none =>
      rw [show (s.abs lru).lru.reverse.find?
        (fun b => ((s.abs lru).buf b).refcnt = 0 ∧ ((s.abs lru).buf b).dirty = false) =
        none from h₂]
      exact ⟨_, rfl, rfl, rfl⟩

theorem step_lru (c : State P D) (lru : List (Fin nbuf)) (a : Act P D) (hb : ∀ p k, a ≠ .bget p k)
    (hd : ∀ p, a ≠ .decref p) :
    step { c with lru := lru } a = (step c a).map fun c => { c with lru := lru } := by
  unfold step
  dsimp only
  split
  · rfl
  · cases a with
    | bget p k => exact absurd rfl (hb p k)
    | decref p => exact absurd rfl (hd p)
    | acquire p =>
      dsimp only
      split
      · split
        · unfold lockBuf
          split <;> rfl
        · rfl
      · rfl
    | iderw p =>
      dsimp only
      split
      · unfold iderw
        split <;> rfl
      · unfold iderw
        split <;> rfl
      · rfl
    | change p b x =>
      dsimp only
      split <;> rfl
    | logWrite p b =>
      dsimp only
      split <;> rfl
    | bwrite p b =>
      dsimp only
      split
      · rfl
      · split <;> rfl
    | brelse p b =>
      dsimp only
      split
      · rfl
      · split
        · rfl
        · split <;> rfl

theorem decref_refines (h : Rep s.links lru) (hall : ∀ b, b ∈ lru) (p : P) (b : Fin nbuf) :
    ∃ lru', decref (s.abs lru) p b = (s.decref p b).abs lru' ∧ Rep (s.decref p b).links lru' ∧
      lru' = if (s.core.buf b).refcnt - 1 = 0 then b :: lru.erase b else lru := by
  by_cases h0 : (s.core.buf b).refcnt - 1 = 0
  · have hd : s.decref p b = ⟨_, (s.links.unlink b).pushFront b⟩ := if_pos h0
    refine ⟨b :: lru.erase b, by rw [hd]; exact if_pos h0, ?_, (if_pos h0).symm⟩
    rw [hd]
    exact h.moveFront (hall b)
  · have hd : s.decref p b = { s with core := _ } := if_neg h0
    refine ⟨lru, by rw [hd]; exact if_neg h0, ?_, (if_neg h0).symm⟩
    rw [hd]
    exact h

/-- **A step with pointers is the step with the list**, and the list stays in the order of the
releases. -/
theorem step_refines (h : Rep s.links lru) (hall : ∀ b, b ∈ lru) (hs : s.step a = some s') :
    ∃ lru', step (s.abs lru) a = some (s'.abs lru') ∧ Rep s'.links lru' ∧ (∀ b, b ∈ lru') ∧
      ∀ rs, Recent rs lru → Recent ((s.released a).reverse ++ rs) lru' := by
  -- the steps that leave the list as it is
  have hsame : step (s.abs lru) a = some (s'.abs lru) → s'.links = s.links → s.released a = [] →
      ∃ lru', step (s.abs lru) a = some (s'.abs lru') ∧ Rep s'.links lru' ∧ (∀ b, b ∈ lru') ∧
        ∀ rs, Recent rs lru → Recent ((s.released a).reverse ++ rs) lru' := by
    intro hstep hlinks hrel
    refine ⟨lru, hstep, hlinks ▸ h, hall, fun rs hrs => ?_⟩
    rw [hrel]
    exact hrs
  have hother : (∀ p k, a ≠ .bget p k) → (∀ p, a ≠ .decref p) →
      (step s.core a).map (fun c => { s with core := c }) = some s' →
      step (s.abs lru) a = some (s'.abs lru) ∧ s'.links = s.links := by
    intro hb hd hmap
    obtain ⟨c, hc, rfl⟩ := Option.map_eq_some_iff.1 hmap
    exact ⟨(step_lru s.core lru a hb hd).trans (by rw [hc]; rfl), rfl⟩
  unfold PtrState.step at hs
  split at hs
  · cases hs
  · rename_i hp
    split at hs
    · rename_i p k
      split at hs
      · rename_i hrun
        obtain ⟨s₁, h₁, habs, hlinks⟩ := bget_refines h p k
        cases h₁.symm.trans hs
        refine hsame ?_ hlinks rfl
        rw [habs]
        exact (if_neg hp).trans (if_pos hrun)
      · cases hs
    · rename_i p
      split at hs
      · rename_i b hpc
        cases hs
        obtain ⟨lru', habs, hrep, rfl⟩ := decref_refines h hall p b
        have hrel : s.released (.decref p) = if (s.core.buf b).refcnt - 1 = 0 then [b] else [] := by
          simp only [PtrState.released, hpc]
        refine ⟨_, ?_, hrep, fun c => ?_, fun rs hrs => ?_⟩
        · rw [← habs]
          refine (if_neg hp).trans ?_
          simp only [show (s.abs lru).pc p = .releasing b from hpc]
        · split
          · by_cases hc : c = b
            · exact hc ▸ List.mem_cons_self
            · exact List.mem_cons_of_mem _ ((List.mem_erase_of_ne hc).2 (hall c))
          · exact hall c
        · rw [hrel]
          split
          · exact hrs.moveFront h.nodup b
          · exact hrs
      · cases hs
    · rename_i hb hd
      obtain ⟨hstep, hlinks⟩ := hother hb hd hs
      refine hsame hstep hlinks ?_
      unfold PtrState.released
      split
      · exact absurd rfl (hd _)
      · rfl

/-- **The cache with pointers refines the cache with the list**, which has all buffers, in the order
of their last releases. -/
theorem ptr_refines (disk : Key → D) (junk : D) {as : List (Act P D)}
    (h : run PtrState.step (PtrState.init disk junk) as = some s) :
    ∃ lru, run step (init disk junk) as = some (s.abs lru) ∧ Rep s.links lru ∧ (∀ b, b ∈ lru) ∧
      Recent (trace PtrState.step PtrState.released (PtrState.init disk junk) as).reverse lru := by
  let init' : PtrState P D := PtrState.init disk junk
  have hinv := run_inv_acts (P := fun bs s => run PtrState.step init' bs = some s ∧
    ∃ lru, run step (init disk junk) bs = some (s.abs lru) ∧ Rep s.links lru ∧ (∀ b, b ∈ lru) ∧
      Recent (trace PtrState.step PtrState.released init' bs).reverse lru)
    (fun bs s a s' ⟨hrun, lru, habs, hrep, hall, hrec⟩ hs => ?_)
    [] ⟨rfl, _, rfl, rep_binit, ?_, ?_⟩ h
  · exact hinv.2
  · obtain ⟨lru', hstep, hrep', hall', hrec'⟩ := step_refines hrep hall hs
    refine ⟨run_append.2 ⟨s, hrun, by simp [run, hs]⟩, lru', ?_, hrep', hall', ?_⟩
    · exact run_append.2 ⟨_, habs, by simp [run, hstep]⟩
    · rw [trace_append hrun, List.reverse_append, trace_cons hs]
      simpa [trace] using hrec' _ hrec
  · exact fun b => List.mem_reverse.2 (List.mem_finRange b)
  · exact List.pairwise_of_forall fun a b hb => absurd hb List.not_mem_nil

/-- **A miss** recycles the last buffer of the list that nobody refers to and that is not dirty. -/
theorem bget_miss (h : Rep s.links lru) (hall : ∀ b, b ∈ lru) (p : P) {k : Key}
    (hk : ∀ b, (s.core.buf b).key ≠ k) :
    (∃ l b r, lru = l ++ b :: r ∧ ((s.core.buf b).refcnt = 0 ∧ (s.core.buf b).dirty = false) ∧
      (∀ c ∈ r, ¬((s.core.buf c).refcnt = 0 ∧ (s.core.buf c).dirty = false)) ∧
      s.bget p k = some (s.recycle p b k)) ∨
    ((∀ c, ¬((s.core.buf c).refcnt = 0 ∧ (s.core.buf c).dirty = false)) ∧
      s.bget p k = some { s with core := { s.core with panicked := some "bget: no buffers" } }) := by
  have hnone : lru.find? (fun b => decide ((s.core.buf b).key = k)) = none := by
    simpa using fun b _ => hk b
  unfold PtrState.bget
  simp only [h.find_next _ (lru_length h), h.find_prev _ (lru_length h), hnone, Option.bind_eq_bind,
    Option.bind_some]
  cases hf : lru.reverse.find? fun b => (s.core.buf b).refcnt = 0 ∧
    (s.core.buf b).dirty = false with
  | some b =>
    obtain ⟨hb, r, l, hcut, hr⟩ := List.find?_eq_some_iff_append.1 hf
    refine .inl ⟨l.reverse, b, r.reverse, ?_, of_decide_eq_true hb, fun c hc => ?_, rfl⟩
    · rw [← List.reverse_reverse lru, hcut]
      simp
    · have hc' := hr c (List.mem_reverse.1 hc)
      rwa [Bool.not_eq_true', decide_eq_false_iff_not] at hc'
  | none =>
    refine .inr ⟨fun c => ?_, rfl⟩
    simpa using List.find?_eq_none.1 hf c (List.mem_reverse.2 (hall c))

/-- **A hit** is a buffer with the block. -/
theorem bget_hit (h : Rep s.links lru) (hall : ∀ b, b ∈ lru) (p : P) {k : Key} {b₀ : Fin nbuf}
    (hk : (s.core.buf b₀).key = k) :
    ∃ b, (s.core.buf b).key = k ∧
      s.bget p k = some (s.share p b k) := by
  unfold PtrState.bget
  simp only [h.find_next _ (lru_length h), Option.bind_eq_bind, Option.bind_some]
  cases hf : lru.find? fun b => (s.core.buf b).key = k with
  | some b => exact ⟨b, by simpa using List.find?_some hf, rfl⟩
  | none => exact absurd hk (by simpa using List.find?_eq_none.1 hf b₀ (hall b₀))

/-- **The list of the buffer cache.** After any calls, `next` goes from the head through every
buffer once and back to the head, and `prev` is its inverse; the buffers are in the order of their
last releases. A `bget` that finds the block returns a buffer with it; one that does not recycles
the last buffer that is neither referenced nor dirty, and panics if there is none. -/
theorem lru_list (disk : Key → D) (junk : D) {as : List (Act P D)}
    (h : run PtrState.step (PtrState.init disk junk) as = some s) :
    ∃ lru : List (Fin nbuf), lru.Nodup ∧ (∀ b, b ∈ lru) ∧
      (∀ (i : Nat) (hi : i < lru.length), s.links.next^[i + 1] none = some lru[i]) ∧
      s.links.next^[lru.length + 1] none = none ∧
      (∀ x, s.links.prev (s.links.next x) = x) ∧ (∀ x, s.links.next (s.links.prev x) = x) ∧
      Recent (trace PtrState.step PtrState.released (PtrState.init disk junk) as).reverse lru ∧
      ∀ p k,
        (∀ b₀, (s.core.buf b₀).key = k → ∃ b, (s.core.buf b).key = k ∧
          s.bget p k = some (s.share p b k)) ∧
        ((∀ b, (s.core.buf b).key ≠ k) →
          (∃ l b r, lru = l ++ b :: r ∧ ((s.core.buf b).refcnt = 0 ∧ (s.core.buf b).dirty = false) ∧
            (∀ c ∈ r, ¬((s.core.buf c).refcnt = 0 ∧ (s.core.buf c).dirty = false)) ∧
            s.bget p k = some (s.recycle p b k)) ∨
          ((∀ c, ¬((s.core.buf c).refcnt = 0 ∧ (s.core.buf c).dirty = false)) ∧
            s.bget p k =
            some { s with core := { s.core with panicked := some "bget: no buffers" } })) := by
  obtain ⟨lru, -, hrep, hall, hrec⟩ := ptr_refines disk junk h
  have hback := hrep.swap.prev_next fun b => List.mem_reverse.2 (hall b)
  exact ⟨lru, hrep.nodup, hall, hrep.iterate.1, hrep.iterate.2, hrep.prev_next hall, hback, hrec,
    fun p k => ⟨fun _ hk => bget_hit hrep hall p hk, fun hk => bget_miss hrep hall p hk⟩⟩

/-- Two blocks are read, and released in the order in which they were read. -/
theorem lru_list_two :
    let as : List (Act (Fin 1) Nat) := [.bget 0 (0, 5), .acquire 0, .iderw 0,
      .bget 0 (0, 6), .acquire 0, .iderw 0, .brelse 0 0, .decref 0, .brelse 0 1, .decref 0]
    ∃ s, run PtrState.step (PtrState.init (fun k => k.2) 0) as = some s ∧
      s.links.next none = some 1 ∧ s.links.next (some 1) = some 0 ∧
      s.links.next (some 0) = some 29 ∧
      trace PtrState.step PtrState.released (PtrState.init (fun k => k.2) 0) as = [0, 1] ∧
      ∃ lru : List (Fin nbuf), lru.Nodup ∧ Recent [1, 0] lru := by
  intro as
  have hsome : (run PtrState.step (PtrState.init (fun k => k.2) 0) as).isSome := by decide +kernel
  obtain ⟨s, hs⟩ := Option.isSome_iff_exists.1 hsome
  have htrace : trace PtrState.step PtrState.released (PtrState.init (fun k => k.2) 0) as =
    [0, 1] := by
    decide +kernel
  have hlinks : (run PtrState.step (PtrState.init (fun k => k.2) 0) as).map
      (fun s => (s.links.next none, s.links.next (some 1), s.links.next (some 0))) =
        some (some 1, some 0, some 29) := by decide +kernel
  rw [hs] at hlinks
  simp only [Option.map_some, Option.some.injEq, Prod.mk.injEq] at hlinks
  obtain ⟨lru, hnodup, -, -, -, -, -, hrec, -⟩ := lru_list (fun k => k.2) 0 hs
  rw [htrace] at hrec
  exact ⟨s, hs, hlinks.1, hlinks.2.1, hlinks.2.2, htrace, lru, hnodup, hrec⟩

/-- **The cache with pointers is coherent**, as it refines the one with the list: at most one buffer
has a block of a device other than 0, and at most one process has a buffer. A step gives a buffer to
another block only if it is unused and not dirty; and when `bread` of a block returns, the buffer
has what the last process that changed the block has left in it. -/
theorem ptr_cache_coherent [Fintype P] (disk : Key → D) (junk : D) {as : List (Act P D)}
    (h : run PtrState.step (PtrState.init disk junk) as = some s) :
    (∀ b b', (s.core.buf b).key.1 ≠ 0 → (s.core.buf b').key = (s.core.buf b).key → b' = b) ∧
    (∀ p q b, b ∈ s.core.held p → b ∈ s.core.held q → p = q) ∧
    ∀ a s', s.step a = some s' →
      (∀ b, (s'.core.buf b).key ≠ (s.core.buf b).key →
        (s.core.buf b).refcnt = 0 ∧ (s.core.buf b).dirty = false) ∧
      ∀ p b k, (s.core.pc p = .locking b k ∨ s.core.pc p = .reading b k) → s'.core.pc p = .run →
        b ∈ s'.core.held p ∧ (s'.core.buf b).key = k ∧
        (k.1 ≠ 0 → (s'.core.buf b).data = s'.core.last k) := by
  obtain ⟨lru, habs, hrep, hall, -⟩ := ptr_refines disk junk h
  have hi := run_bcache_inv habs
  refine ⟨hi.coherent.uniq, fun p q b hp hq => ?_, fun a s' hs => ?_⟩
  · exact Option.some.inj ((hi.users.held p b hp).1.symm.trans (hi.users.held q b hq).1)
  obtain ⟨lru', hstep, -⟩ := step_refines hrep hall hs
  have hmove := (step_move hstep).2
  have hrekeyed b := hmove.rekeyed (b := b) hi.users
  refine ⟨hrekeyed, fun p b k hpc hr => ?_⟩
  have hi' := hmove.inv hi
  obtain ⟨hm, hk⟩ := hmove.returned hi.users hpc hr
  exact ⟨hm, hk, fun h0 => hk ▸ hi'.coherent.data b (hk ▸ h0) (hi'.users.held p b hm).2⟩

/-- The second reader of block 5, which is pinned, gets the buffer of the first, with what that has
written. -/
theorem ptr_cache_coherent_pinnedRead :
    ∃ s s', run PtrState.step (PtrState.init (fun _ => 7) 0) pinnedRead = some s ∧
      s.step (.acquire 1) = some s' ∧ 0 ∈ s'.core.held 1 ∧
      (s'.core.buf 0).data = s'.core.last (1, 5) := by
  have h : (run PtrState.step (PtrState.init (fun _ => 7) 0) pinnedRead).map (fun s =>
      (s.core.pc 1, (s.step (.acquire 1)).map (·.core.pc 1))) = some (.locking 0 (1, 5),
        some .run) := by
    decide +kernel
  obtain ⟨s, hs, hf⟩ := Option.map_eq_some_iff.1 h
  obtain ⟨hpc, hf'⟩ := Prod.mk.inj hf
  obtain ⟨s', hs', hr⟩ := Option.map_eq_some_iff.1 hf'
  obtain ⟨hm, -, hd⟩ := ((ptr_cache_coherent _ _ hs).2.2 _ s' hs').2 1 0 _ (.inl hpc) hr
  exact ⟨s, s', hs, hs', hm, hd (by decide)⟩

end

end Xv6.Bcache
