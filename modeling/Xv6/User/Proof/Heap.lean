import Xv6.User.Umalloc
import Xv6.Lib.Linked
import Xv6.Lib.Tiling
import Mathlib.Data.List.Pairwise
import Mathlib.Tactic.Abel

/-!
# The free list and the blocks

`HeapInv`: the free list, read from `base` on, is a list `xs` of blocks in the order of their
addresses, none of which touches the next, linked back to `base`; and the free blocks and the blocks
of the program tile the memory that came from `sbrk`. What `free` does (`free_spec`): its search
ends at the free block before the one that is freed, and the links and the tiling are as before with
the block put in there, joined with its neighbours where it touches them.
-/

namespace Xv6.Umalloc

open Function

variable {a b : Nat}

/-- The free list `xs` starts with `base`; `live` are the blocks of the program. -/
structure HeapInv (Y : Layout) (m : Mem) (brk : Nat) (xs live : List Nat) : Prop where
  head : xs.head? = some Y.base
  linked : Lib.Linked (fun a => (m a).ptr) xs Y.base
  sorted : xs.Pairwise fun a b => a + hdr * (m a).size < b
  base_size : (m Y.base).size = 0
  tiles : ∃ n, brk = Y.start + hdr * n ∧
    Lib.covered hdr (fun a => (m a).size) (xs ++ live) = Lib.cells hdr Y.start n
  free_pos : ∀ a ∈ xs, a ≠ Y.base → 0 < (m a).size
  live_pos : ∀ a ∈ live, 0 < (m a).size

theorem hdr_pos : 0 < hdr := by decide

namespace HeapInv
variable {Y : Layout} {m m' : Mem} {brk : Nat} {xs live : List Nat}

section
variable (h : HeapInv Y m brk xs live)
include h

theorem congr (hm : ∀ a ∈ xs ++ live, m' a = m a) :
    HeapInv Y m' brk xs live := by
  have hx : ∀ a ∈ xs, m' a = m a := fun a ha => hm a (by simp [ha])
  have hl : ∀ a ∈ live, m' a = m a := fun a ha => hm a (by simp [ha])
  have hb : Y.base ∈ xs := List.mem_of_mem_head? h.head
  obtain ⟨n, hn, hc⟩ := h.tiles
  refine ⟨h.head, h.linked.congr
    fun a ha => by rw [hx a ha], ?_, by rw [hx _ hb, h.base_size], ⟨n, hn, ?_⟩,
    fun a ha => by rw [hx a ha]; exact h.free_pos a ha,
    fun a ha => by rw [hl a ha]; exact h.live_pos a ha⟩
  · exact h.sorted.imp_of_mem fun {a b} ha _ hab => by rwa [hx a ha]
  · rw [← hc]
    exact Lib.covered_congr fun a ha => by rw [hm a ha]

theorem base_mem : Y.base ∈ xs := List.mem_of_mem_head? h.head

theorem start_le_brk : Y.start ≤ brk := by
  obtain ⟨n, hn, -⟩ := h.tiles
  omega

theorem in_area (ha : a ∈ xs ++ live) (hs : 0 < (m a).size) :
    Y.start ≤ a ∧ a + hdr * (m a).size ≤ brk := by
  obtain ⟨n, rfl, hc⟩ := h.tiles
  obtain ⟨i, rfl, hi⟩ := Lib.covered_mem hdr_pos hc ha hs
  have := Nat.mul_le_mul_left hdr hi
  rw [Nat.mul_add] at this
  exact ⟨by omega, by omega⟩

theorem live_area (ha : a ∈ live) :
    Y.start ≤ a ∧ a + hdr * (m a).size ≤ brk :=
  h.in_area (by simp [ha]) (h.live_pos a ha)

theorem base_lt_live (ha : a ∈ live) : Y.base < a := by
  have := (h.live_area ha).1
  have := Y.below
  simp only [hdr] at this
  omega

theorem lt_brk (ha : a ∈ xs ++ live) : a < brk := by
  by_cases hs : 0 < (m a).size
  · have := (h.in_area ha hs).2
    have := Nat.mul_le_mul_left hdr hs
    simp only [hdr] at *
    omega
  · rcases List.mem_append.1 ha with hx | hl
    · have hab : a = Y.base := by
        by_contra hne
        exact hs (h.free_pos a hx hne)
      have := h.start_le_brk
      have := Y.below
      simp only [hdr] at *
      omega
    · exact absurd (h.live_pos a hl) hs

theorem apart (ha : a ∈ xs) (hb : b ∈ live) :
    a + hdr * (m a).size ≤ b ∨ b + hdr * (m b).size ≤ a := by
  obtain ⟨n, -, hc⟩ := h.tiles
  by_cases hab : a = Y.base
  · subst hab
    have := h.base_lt_live hb
    rw [h.base_size]
    omega
  · exact (List.pairwise_append.1 (Lib.covered_apart hdr_pos hc)).2.2 a ha b hb (h.free_pos a ha hab)
      (h.live_pos b hb)

theorem live_apart :
    live.Pairwise fun a b => a + hdr * (m a).size ≤ b ∨ b + hdr * (m b).size ≤ a := by
  obtain ⟨n, -, hc⟩ := h.tiles
  exact (List.pairwise_append.1 (Lib.covered_apart hdr_pos hc)).2.1.imp_of_mem
    fun ha hb hab => hab (h.live_pos _ ha) (h.live_pos _ hb)

theorem live_apart_of_ne (ha : a ∈ live) (hb : b ∈ live) (hab : a ≠ b) :
    a + hdr * (m a).size ≤ b ∨ b + hdr * (m b).size ≤ a := by
  have : Std.Symm fun a b => a + hdr * (m a).size ≤ b ∨ b + hdr * (m b).size ≤ a :=
    ⟨fun _ _ => Or.symm⟩
  exact h.live_apart.forall ha hb hab

theorem ne_live (ha : a ∈ xs) (hb : b ∈ live) : a ≠ b := by
  intro hab
  subst hab
  have := h.live_pos a hb
  have := h.apart ha hb
  simp only [hdr] at this
  omega

theorem live_nodup : live.Nodup := by
  refine h.live_apart.imp_of_mem fun {a b} ha _ hab => ?_
  intro he
  subst he
  have := h.live_pos a ha
  simp only [hdr] at hab
  omega

theorem increasing : xs.Pairwise (· < ·) :=
  h.sorted.imp fun hab => by omega

end

end HeapInv

/-! ## The search of `free` -/

/-- Where the loop of `free` ends. -/
def SearchStop (m : Mem) (bp p : Nat) : Prop :=
  (bp > p ∧ bp < (m p).ptr) ∨ (p ≥ (m p).ptr ∧ (bp > p ∨ bp < (m p).ptr))

instance (m : Mem) (bp : Nat) : DecidablePred (SearchStop m bp) := fun p =>
  inferInstanceAs (Decidable ((bp > p ∧ bp < (m p).ptr) ∨ (p ≥ (m p).ptr ∧ (bp > p ∨ bp < (m p).ptr))))

theorem freeSearch_iterate {m : Mem} {bp : Nat} : ∀ {k n p : Nat}, k < n →
    SearchStop m bp ((fun a => (m a).ptr)^[k] p) →
    (∀ j < k, ¬ SearchStop m bp ((fun a => (m a).ptr)^[j] p)) →
    freeSearch m bp n p = some ((fun a => (m a).ptr)^[k] p)
  | k, 0, p, h, _, _ => by omega
  | 0, n + 1, p, _, hs, _ => by
    rw [freeSearch]
    split
    · rfl
    · rename_i h1
      exact if_pos (hs.resolve_left h1)
  | k + 1, n + 1, p, h, hs, hn => by
    have h0 : ¬ SearchStop m bp p := hn 0 (by omega)
    rw [freeSearch, if_neg fun h1 => h0 (.inl h1), if_neg fun h1 => h0 (.inr h1)]
    exact freeSearch_iterate (k := k) (by omega) hs fun j hj => hn (j + 1) (by omega)

theorem exists_pred : ∀ {xs : List Nat}, xs.Pairwise (· < ·) → (∃ a ∈ xs.head?, a < b) → b ∉ xs →
    ∃ l p r, xs = l ++ p :: r ∧ p < b ∧ ∀ y ∈ r, b < y
  | [], _, h, _ => by simp at h
  | [a], _, h, _ => ⟨[], a, [], rfl, by simpa using h, by simp⟩
  | a :: c :: xs, hs, h, hb => by
    have hab : a < b := by simpa using h
    by_cases hc : c < b
    · obtain ⟨l, p, r, hx, hp, hr⟩ := exists_pred (List.pairwise_cons.1 hs).2 ⟨c, rfl, hc⟩
        fun hm => hb (by simp [hm])
      exact ⟨a :: l, p, r, by rw [hx]; rfl, hp, hr⟩
    · refine ⟨[], a, c :: xs, rfl, hab, fun y hy => ?_⟩
      have hbc : b < c := by
        have : b ≠ c := fun he => hb (by simp [he])
        omega
      rcases List.mem_cons.1 hy with rfl | hy
      · exact hbc
      · have := (List.pairwise_cons.1 (List.pairwise_cons.1 hs).2).1 y hy
        omega

section
variable {Y : Layout} {m : Mem} {brk bp : Nat} {xs live l r : List Nat} {p : Nat}

theorem HeapInv.searchStop (h : HeapInv Y m brk xs live) (hx : xs = l ++ p :: r)
    (hp : p < bp) (hr : ∀ y ∈ r, bp < y) : SearchStop m bp p := by
  have hnext : (m p).ptr = r.headD Y.base := (hx ▸ h.linked).next_eq
  cases r with
  | nil =>
    refine .inr ⟨?_, .inl hp⟩
    rw [hnext]
    -- the last block leads back to `base`, the first
    have hb := h.base_mem
    have hinc := h.increasing
    rw [hx] at hb hinc
    rcases List.mem_append.1 hb with hb | hb
    · exact ((List.pairwise_append.1 hinc).2.2 _ hb p (by simp)).le
    · simp only [List.mem_singleton] at hb
      exact hb.le
  | cons y r =>
    refine .inl ⟨hp, ?_⟩
    rw [hnext]
    exact hr y (by simp)

theorem HeapInv.of_searchStop (h : HeapInv Y m brk xs live) (hbp : bp ∈ live)
    {q : Nat} (hq : q ∈ xs) (hs : SearchStop m bp q) : q < bp ∧ ∀ y ∈ xs, q < y → bp < y := by
  obtain ⟨l, r, rfl⟩ := List.append_of_mem hq
  have hnext : (m q).ptr = r.headD Y.base := h.linked.next_eq
  have hinc := List.pairwise_append.1 h.increasing
  have hlt := List.pairwise_cons.1 hinc.2.1
  have hbase := h.base_lt_live hbp
  have hlater : ∀ y ∈ l ++ q :: r, q < y → y ∈ r := by
    intro y hy hqy
    rcases List.mem_append.1 hy with hy | hy
    · have := hinc.2.2 y hy q (by simp)
      omega
    · rcases List.mem_cons.1 hy with rfl | hy
      · omega
      · exact hy
  unfold SearchStop at hs
  rw [hnext] at hs
  cases r with
  | nil =>
    simp only [List.headD_nil] at hs
    refine ⟨by omega, fun y hy hqy => ?_⟩
    cases hlater y hy hqy
  | cons z r =>
    simp only [List.headD_cons] at hs
    have hqz := hlt.1 z (by simp)
    refine ⟨by omega, fun y hy hqy => ?_⟩
    rcases List.mem_cons.1 (hlater y hy hqy) with rfl | hy'
    · omega
    · have := (List.pairwise_cons.1 hlt.2).1 y hy'
      omega

/-- **The search ends**, at the free block before the one that is freed. -/
theorem HeapInv.search (h : HeapInv Y m brk xs live) (hbp : bp ∈ live) {f n : Nat} (hf : f ∈ xs)
    (hn : xs.length ≤ n) :
    ∃ l p r, xs = l ++ p :: r ∧ p < bp ∧ (∀ y ∈ r, bp < y) ∧ freeSearch m bp n f = some p := by
  have hnot : bp ∉ xs := fun hm => h.ne_live hm hbp rfl
  obtain ⟨l, p, r, hx, hp, hr⟩ := exists_pred h.increasing ⟨Y.base, h.head, h.base_lt_live hbp⟩ hnot
  have hpx : p ∈ xs := by simp [hx]
  obtain ⟨ys, hys⟩ : ∃ ys, xs = Y.base :: ys := List.head?_eq_some_iff.1 h.head
  have hlink := h.linked
  rw [hys] at hlink hf
  obtain ⟨k, hk, hmem, hstop, hbefore⟩ := hlink.first hf ⟨p, hys ▸ hpx, h.searchStop hx hp hr⟩
  rw [← hys] at hmem
  obtain ⟨hq, hqr⟩ := h.of_searchStop hbp hmem hstop
  obtain ⟨-, hpr⟩ := h.of_searchStop hbp hpx (h.searchStop hx hp hr)
  have hlen : xs.length = ys.length + 1 := by rw [hys]; rfl
  have hqp : (fun a => (m a).ptr)^[k] f = p := by
    rcases Nat.lt_trichotomy ((fun a => (m a).ptr)^[k] f) p with hlt | he | hgt
    · have := hqr p hpx hlt
      omega
    · exact he
    · have := hpr _ hmem hgt
      omega
  refine ⟨l, p, r, hx, hp, hr, ?_⟩
  rw [freeSearch_iterate (by omega) hstop hbefore, hqp]

end

/-! ## The list with a block put in -/

section
variable {Y : Layout} {m m' : Mem} {brk bp p : Nat} {live l r r₁ mid : List Nat}

theorem HeapInv.gap (h : HeapInv Y m brk (l ++ p :: r) live) (hbp : bp ∈ live) (hp : p < bp)
    (hr : ∀ y ∈ r, bp < y) : p + hdr * (m p).size ≤ bp ∧ ∀ y ∈ r, bp + hdr * (m bp).size ≤ y := by
  refine ⟨?_, fun y hy => ?_⟩
  · have := h.apart (show p ∈ l ++ p :: r by simp) hbp
    omega
  · have := h.apart (show y ∈ l ++ p :: r by simp [hy]) hbp
    have := hr y hy
    omega

theorem covered_same {xs : List Nat} (h : ∀ a ∈ xs, m' a = m a) :
    Lib.covered hdr (fun a => (m' a).size) xs = Lib.covered hdr (fun a => (m a).size) xs :=
  Lib.covered_congr fun a ha => by rw [h a ha]

theorem HeapInv.replace (h : HeapInv Y m brk (l ++ p :: r) live) (hbp : bp ∈ live) (hp : p < bp)
    (hsuf : r₁ <:+ r) (hsame : ∀ a, a ≠ p → a ≠ bp → m' a = m a) (hr₁ : ∀ y ∈ r₁, bp < y)
    (hhead : mid.head? = some p) (hlink : Lib.Linked (fun a => (m' a).ptr) mid (r₁.headD Y.base))
    (hsort : mid.Pairwise fun a b => a + hdr * (m' a).size < b) (hleft : ∀ a ∈ mid, p ≤ a)
    (hright : ∀ a ∈ mid, ∀ y ∈ r₁, a + hdr * (m' a).size < y) (hbase : (m' Y.base).size = 0)
    (hcov : Lib.covered hdr (fun a => (m' a).size) mid + Lib.covered hdr (fun a => (m a).size) r₁ =
      Lib.cells hdr bp (m bp).size + Lib.covered hdr (fun a => (m a).size) (p :: r))
    (hpos : ∀ a ∈ mid, a ≠ Y.base → 0 < (m' a).size) :
    HeapInv Y m' brk (l ++ (mid ++ r₁)) (live.erase bp) := by
  obtain ⟨hll, hlr⟩ := Lib.Linked.append.1 h.linked
  obtain ⟨hsl, hsr, hslr⟩ := List.pairwise_append.1 h.sorted
  obtain ⟨t, rfl⟩ := hsuf
  have hpr := List.pairwise_cons.1 hsr
  have hl : ∀ a ∈ l, m' a = m a := by
    intro a ha
    have := hslr a ha p (by simp)
    exact hsame a (by omega) (by omega)
  have hr : ∀ a ∈ r₁, m' a = m a := by
    intro a ha
    have := hr₁ a ha
    exact hsame a (by omega) (by omega)
  have hlive : ∀ a ∈ live.erase bp, m' a = m a := by
    intro a ha
    obtain ⟨hne, ha⟩ := h.live_nodup.mem_erase_iff.1 ha
    exact hsame a (h.ne_live (by simp) ha).symm hne
  have hmid : (mid ++ r₁).headD Y.base = p := by
    obtain ⟨mid, rfl⟩ := List.head?_eq_some_iff.1 hhead
    rfl
  refine ⟨?_, ?_, ?_, hbase, ?_, ?_, ?_⟩
  · have hh := h.head
    obtain ⟨mid, rfl⟩ := List.head?_eq_some_iff.1 hhead
    cases l with
    | nil | cons => exact hh
  · refine Lib.Linked.append.2 ⟨?_, Lib.Linked.append.2 ⟨hlink, ?_⟩⟩
    · rw [hmid]
      exact hll.congr fun a ha => by rw [hl a ha]
    · exact (Lib.Linked.append.1 hlr.2).2.congr fun a ha => by rw [hr a ha]
  · refine List.pairwise_append.2 ⟨?_, List.pairwise_append.2 ⟨hsort, ?_, hright⟩, ?_⟩
    · exact hsl.imp_of_mem fun {a b} ha _ hab => by rwa [hl a ha]
    · exact (List.pairwise_append.1 hpr.2).2.1.imp_of_mem fun {a b} ha _ hab => by rwa [hr a ha]
    · intro a ha b hb
      rw [hl a ha]
      rcases List.mem_append.1 hb with hb | hb
      · exact Nat.lt_of_lt_of_le (hslr a ha p (by simp)) (hleft b hb)
      · exact hslr a ha b (by simp [hb])
  · obtain ⟨n, hn, hc⟩ := h.tiles
    refine ⟨n, hn, ?_⟩
    have hperm : Lib.covered hdr (fun a => (m a).size) live =
        Lib.cells hdr bp (m bp).size + Lib.covered hdr (fun a => (m a).size) (live.erase bp) := by
      rw [Lib.covered_perm (List.perm_cons_erase hbp), Lib.covered_cons]
    rw [Lib.covered_append, hperm] at hc
    have hcl := covered_same hl
    have hcr := covered_same hr
    have hclive := covered_same hlive
    rw [← hc, Lib.covered_append, Lib.covered_append, Lib.covered_append, Lib.covered_append, hcl,
      hcr, hclive, hcov]
    abel
  · intro a ha hne
    rcases List.mem_append.1 ha with ha | ha
    · rw [hl a ha]
      exact h.free_pos a (by simp [ha]) hne
    rcases List.mem_append.1 ha with ha | ha
    · exact hpos a ha hne
    · rw [hr a ha]
      exact h.free_pos a (by simp [ha]) hne
  · intro a ha
    rw [hlive a ha]
    exact h.live_pos a (List.mem_of_mem_erase ha)

theorem HeapInv.joinNext_eq (h : HeapInv Y m brk (l ++ p :: r) live) (hbp : bp ∈ live) (hp : p < bp)
    (hr : ∀ y ∈ r, bp < y) :
    ∃ r₁ n, joinNext m p bp = update m bp ⟨r₁.headD Y.base, n⟩ ∧ r₁ <:+ r ∧ (m bp).size ≤ n ∧
      (∀ y ∈ r₁, bp + hdr * n < y) ∧
      Lib.cells hdr bp n + Lib.covered hdr (fun a => (m a).size) r₁ =
        Lib.cells hdr bp (m bp).size + Lib.covered hdr (fun a => (m a).size) r := by
  obtain ⟨-, hgap⟩ := h.gap hbp hp hr
  have hnext : (m p).ptr = r.headD Y.base := h.linked.next_eq
  obtain ⟨-, hsr, -⟩ := List.pairwise_append.1 h.sorted
  have hsr := (List.pairwise_cons.1 hsr).2
  have hinc := hsr.imp fun {a b} (hab : a + hdr * (m a).size < b) => show a < b by omega
  unfold joinNext
  by_cases htouch : bp + hdr * (m bp).size = (m p).ptr
  · rw [if_pos htouch]
    cases r with
    | nil =>
      -- `base` comes before every block
      have := h.base_lt_live hbp
      simp only [hnext, List.headD_nil] at htouch
      omega
    | cons q r₁ =>
      simp only [List.headD_cons] at hnext
      have hq : q ≠ bp := by
        have := hr q (by simp)
        omega
      have hqnext : (m q).ptr = r₁.headD Y.base := (Lib.Linked.append.1 h.linked).2.2.1
      refine ⟨r₁, (m bp).size + (m q).size, ?_, List.suffix_cons q r₁, by omega, fun y hy => ?_, ?_⟩
      · simp only [setSize, setPtr, hnext, update_self, update_idem,
          update_of_ne hp.ne, update_of_ne hq, hqnext]
      · have := (List.pairwise_cons.1 hsr).1 y hy
        rw [hnext] at htouch
        rw [Nat.mul_add]
        omega
      · rw [Lib.cells_add, htouch, hnext, Lib.covered_cons, add_assoc]
  · rw [if_neg htouch, hnext]
    refine ⟨r, (m bp).size, rfl, List.suffix_refl r, Nat.le_refl _, ?_, rfl⟩
    cases r with
    | nil => exact fun y hy => (nomatch hy)
    | cons q r₁ =>
      rw [hnext] at htouch
      have hlt : bp + hdr * (m bp).size < q := Nat.lt_of_le_of_ne (hgap q (by simp)) htouch
      intro y hy
      rcases List.mem_cons.1 hy with rfl | hy
      · exact hlt
      · have := (List.pairwise_cons.1 hinc).1 y hy
        omega

theorem joinPrev_touch (hp : p ≠ bp) (ht : p + hdr * (m p).size = bp) (a n : Nat) :
    joinPrev (update m bp ⟨a, n⟩) p bp =
      update (update m bp ⟨a, n⟩) p ⟨a, (m p).size + n⟩ := by
  rw [joinPrev, update_of_ne hp, if_pos ht]
  simp only [setSize, setPtr, update_self, update_idem, update_of_ne hp.symm]

theorem joinPrev_apart (hp : p ≠ bp) (ht : p + hdr * (m p).size ≠ bp) (v : Header) :
    joinPrev (update m bp v) p bp = update (update m bp v) p ⟨bp, (m p).size⟩ := by
  rw [joinPrev, update_of_ne hp, if_neg ht, setPtr, update_of_ne hp]

/-- **What `free` does to the list**: the block is in it, or in one of its blocks, and no other
block of the program has changed. -/
theorem HeapInv.free_list (h : HeapInv Y m brk (l ++ p :: r) live) (hbp : bp ∈ live) (hp : p < bp)
    (hr : ∀ y ∈ r, bp < y) :
    ∃ xs', HeapInv Y (joinPrev (joinNext m p bp) p bp) brk xs' (live.erase bp) ∧ p ∈ xs' ∧
      xs'.length ≤ (l ++ p :: r).length + 1 ∧
      (∃ x ∈ xs', (m bp).size ≤ (joinPrev (joinNext m p bp) p bp x).size) ∧
      ∀ a ∈ live.erase bp, joinPrev (joinNext m p bp) p bp a = m a := by
  obtain ⟨r₁, n, hm₁, hsuf, hle, hlt, hcov⟩ := h.joinNext_eq hbp hp hr
  obtain ⟨hgap, -⟩ := h.gap hbp hp hr
  have hpos := h.live_pos bp hbp
  have hr₁ : ∀ y ∈ r₁, bp < y := fun y hy => hr y (hsuf.subset hy)
  have hlen := hsuf.length_le
  have hbase := h.base_lt_live hbp
  have hother : ∀ a ∈ live.erase bp, a ≠ p ∧ a ≠ bp := by
    intro a ha
    obtain ⟨hnb, ha⟩ := h.live_nodup.mem_erase_iff.1 ha
    exact ⟨(h.ne_live (by simp) ha).symm, hnb⟩
  have hsame : ∀ (v w : Header) (a : Nat), a ≠ p → a ≠ bp →
      update (update m bp v) p w a = m a := by
    intro v w a hap hab
    rw [update_of_ne hap, update_of_ne hab]
  rw [hm₁]
  by_cases ht : p + hdr * (m p).size = bp
  · -- one block from `p` on; `p` is not `base`, which touches no block
    rw [joinPrev_touch hp.ne ht]
    have hpbase : p ≠ Y.base := by
      rintro rfl
      rw [h.base_size] at ht
      omega
    refine ⟨l ++ ([p] ++ r₁), h.replace hbp hp hsuf (hsame _ _) hr₁ rfl ⟨?_, trivial⟩
      (List.pairwise_singleton _ _)
      (by simp) ?_ ?_ ?_ ?_, by simp, by simp; omega, ⟨p, by simp, ?_⟩,
      fun a ha => hsame _ _ a (hother a ha).1 (hother a ha).2⟩
    · simp only [update_self]
      rfl
    · intro a ha y hy
      obtain rfl := List.mem_singleton.1 ha
      rw [update_self]
      have := hlt y hy
      simp only [Nat.mul_add]
      omega
    · rw [update_of_ne hpbase.symm, update_of_ne hbase.ne]
      exact h.base_size
    · simp only [Lib.covered_cons, Lib.covered_nil, add_zero, update_self]
      rw [Lib.cells_add, ht, add_assoc, hcov]
      abel
    · intro a ha _
      obtain rfl := List.mem_singleton.1 ha
      rw [update_self]
      simp only
      omega
    · rw [update_self]
      simp only
      omega
  · rw [joinPrev_apart hp.ne ht]
    have hself : update (update m bp (⟨r₁.headD Y.base, n⟩ : Header)) p ⟨bp, (m p).size⟩ bp =
        ⟨r₁.headD Y.base, n⟩ := by
      rw [update_of_ne hp.ne', update_self]
    have hmem : ∀ {P : Nat → Prop}, P p → P bp → ∀ a ∈ [p, bp], P a := by
      intro P h1 h2 a ha
      simp only [List.mem_cons, List.not_mem_nil, or_false] at ha
      rcases ha with rfl | rfl
      · exact h1
      · exact h2
    refine ⟨l ++ ([p, bp] ++ r₁), h.replace hbp hp hsuf (hsame _ _) hr₁ rfl ⟨?_, ?_, trivial⟩ ?_
      (hmem (Nat.le_refl _) hp.le)
      (hmem ?_ ?_) ?_ ?_ (hmem ?_ ?_), by simp, by simp; omega, ⟨bp, by simp, ?_⟩,
      fun a ha => hsame _ _ a (hother a ha).1 (hother a ha).2⟩
    · simp only [update_self]
      rfl
    · simp only [hself]
      rfl
    · refine List.pairwise_pair.2 ?_
      rw [update_self]
      exact Nat.lt_of_le_of_ne hgap ht
    · intro y hy
      rw [update_self]
      have := hlt y hy
      simp only
      omega
    · intro y hy
      rw [hself]
      exact hlt y hy
    · by_cases hpb : p = Y.base
      · rw [← hpb, update_self]
        simp only [hpb]
        exact h.base_size
      · rw [update_of_ne (Ne.symm hpb), update_of_ne hbase.ne]
        exact h.base_size
    · simp only [Lib.covered_cons, Lib.covered_nil, add_zero, update_self, hself]
      rw [add_assoc, hcov]
      abel
    · intro hpb
      rw [update_self]
      exact h.free_pos p (by simp) hpb
    · intro _
      rw [hself]
      simp only
      omega
    · rw [hself]
      exact hle

end

/-- The free list, from `freep`, and the blocks in use. -/
structure ListInv (Y : Layout) (h : Heap) (xs live : List Nat) : Prop where
  inv : HeapInv Y h.mem h.brk xs live
  freep : h.freep ∈ xs

/-- **`free`** returns, with fuel for the list. -/
theorem free_spec {Y : Layout} {h : Heap} {xs live : List Nat} {bp fuel : Nat}
    (hi : ListInv Y h xs live) (hbp : bp ∈ live) (hf : xs.length ≤ fuel) :
    ∃ h' xs', free fuel (bp + hdr) h = .ok h' ∧ ListInv Y h' xs' (live.erase bp) ∧ h'.brk = h.brk ∧
      xs'.length ≤ xs.length + 1 ∧ (∃ x ∈ xs', (h.mem bp).size ≤ (h'.mem x).size) ∧
      ∀ a ∈ live.erase bp, h'.mem a = h.mem a := by
  obtain ⟨l, p, r, rfl, hp, hr, hs⟩ := hi.inv.search hbp hi.freep hf
  obtain ⟨xs', hinv, hpx, hlen, hbig, hsame⟩ := hi.inv.free_list hbp hp hr
  refine ⟨{ h with mem := joinPrev (joinNext h.mem p bp) p bp, freep := p }, xs', ?_,
    ⟨hinv, hpx⟩, rfl, hlen, hbig, hsame⟩
  rw [free, Nat.add_sub_cancel, hs]

end Xv6.Umalloc
