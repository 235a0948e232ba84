import Xv6.User.Proof.Heap
import Xv6.Lib.Run

/-!
# What `malloc` does

`take` cuts a block off the free list (`take_spec`). The loop of `malloc` comes to a free block that
is large enough, if there is one, and otherwise back to `freep`, where it gets more memory
(`malloc_spec`); the memory is a block of its own that `free` puts into the list, so the loop goes
on to a block that is large enough. A program that keeps to its blocks keeps the invariant of the
heap, and every call returns.
-/

namespace Xv6.Umalloc

open Function

variable {n fuel : Nat} {sbrk : Sbrk}

section
variable {Y : Layout} {m : Mem} {brk nunits prevp p : Nat} {xs live l r : List Nat}

theorem HeapInv.remove (h : HeapInv Y m brk (l ++ prevp :: p :: r) live) (hp : p ≠ Y.base) :
    HeapInv Y (setPtr m prevp (m p).ptr) brk (l ++ prevp :: r) (p :: live) := by
  have hsize : ∀ a, (setPtr m prevp (m p).ptr a).size = (m a).size := by
    intro a
    by_cases ha : a = prevp
    · rw [ha, setPtr, update_self]
    · rw [setPtr, update_of_ne ha]
  obtain ⟨hll, hlr⟩ := Lib.Linked.append.1 h.linked
  have hinc := List.pairwise_append.1 h.increasing
  have hnot : ∀ a ∈ l ++ r, a ≠ prevp := by
    intro a ha
    rcases List.mem_append.1 ha with ha | ha
    · have := hinc.2.2 a ha prevp (by simp)
      omega
    · have := (List.pairwise_cons.1 hinc.2.1).1 a (by simp [ha])
      omega
  have hptr : ∀ a ∈ l ++ r, (setPtr m prevp (m p).ptr a).ptr = (m a).ptr := by
    intro a ha
    rw [setPtr, update_of_ne (hnot a ha)]
  have hsub : (l ++ prevp :: r).Sublist (l ++ prevp :: p :: r) :=
    (List.Sublist.cons_cons prevp (List.sublist_cons_self p r)).append_left l
  refine ⟨?_, Lib.Linked.append.2 ⟨?_, ?_, ?_⟩, ?_, ?_, ?_, ?_, ?_⟩
  · have hh := h.head
    cases l <;> exact hh
  · exact hll.congr fun a ha => hptr a (by simp [ha])
  · simp only [setPtr, update_self]
    exact hlr.2.1
  · exact hlr.2.2.congr fun a ha => hptr a (by simp [ha])
  · simp only [hsize]
    exact h.sorted.sublist hsub
  · rw [hsize]
    exact h.base_size
  · obtain ⟨n, hn, hc⟩ := h.tiles
    refine ⟨n, hn, ?_⟩
    simp only [hsize, ← hc, Lib.covered_append, Lib.covered_cons]
    abel
  · intro a ha hne
    rw [hsize]
    exact h.free_pos a (hsub.subset ha) hne
  · intro a ha
    rw [hsize]
    rcases List.mem_cons.1 ha with rfl | ha
    · exact h.free_pos a (by simp) hp
    · exact h.live_pos a ha

theorem HeapInv.cut (h : HeapInv Y m brk xs live) (hp : p ∈ xs) (hn : 0 < n)
    (hlt : n < (m p).size) :
    let q := p + hdr * ((m p).size - n)
    let m' := setSize (setSize m p ((m p).size - n)) q n
    HeapInv Y m' brk xs (q :: live) ∧ (m' q).size = n ∧ ∀ a ∈ live, m' a = m a := by
  intro q m'
  have hbase : p ≠ Y.base := by
    rintro rfl
    rw [h.base_size] at hlt
    omega
  have hqp : p < q ∧ q < p + hdr * (m p).size := by
    simp only [q, hdr]
    omega
  have hqx : ∀ x ∈ xs, x ≠ q := by
    rintro x hx rfl
    obtain ⟨l, r, rfl⟩ := List.append_of_mem hp
    obtain ⟨-, hs, hs'⟩ := List.pairwise_append.1 h.sorted
    rcases List.mem_append.1 hx with hx | hx
    · have := hs' _ hx p (by simp)
      omega
    · rcases List.mem_cons.1 hx with hx | hx
      · omega
      · have := (List.pairwise_cons.1 hs).1 _ hx
        omega
  have hql : ∀ a ∈ live, a ≠ q := by
    rintro a ha rfl
    have := h.apart hp ha
    have := h.live_pos _ ha
    simp only [hdr] at *
    omega
  have hq : m' q = ⟨(m q).ptr, n⟩ := by
    simp only [m', setSize, update_self]
    rw [update_of_ne hqp.1.ne']
  have hmp : m' p = ⟨(m p).ptr, (m p).size - n⟩ := by
    simp only [m', setSize]
    rw [update_of_ne hqp.1.ne, update_self]
  have hother : ∀ a, a ≠ p → a ≠ q → m' a = m a := by
    intro a hap haq
    simp only [m', setSize]
    rw [update_of_ne haq, update_of_ne hap]
  have hptr : ∀ x ∈ xs, (m' x).ptr = (m x).ptr := by
    intro x hx
    by_cases hxp : x = p
    · rw [hxp, hmp]
    · rw [hother x hxp (hqx x hx)]
  have hsize : ∀ x ∈ xs, (m' x).size ≤ (m x).size := by
    intro x hx
    by_cases hxp : x = p
    · rw [hxp, hmp]
      exact Nat.sub_le _ _
    · rw [hother x hxp (hqx x hx)]
  have hlive : ∀ a ∈ live, m' a = m a := fun a ha => hother a (h.ne_live hp ha).symm (hql a ha)
  refine ⟨⟨h.head, h.linked.congr hptr, ?_, ?_, ?_, ?_, ?_⟩, by rw [hq], hlive⟩
  · refine h.sorted.imp_of_mem fun {a b} ha _ hab => ?_
    have := Nat.mul_le_mul_left hdr (hsize a ha)
    omega
  · rw [hother _ hbase.symm (hqx _ h.base_mem)]
    exact h.base_size
  · obtain ⟨k, hk, hc⟩ := h.tiles
    refine ⟨k, hk, ?_⟩
    rw [← hc, Lib.covered_append, Lib.covered_append, Lib.covered_cons, covered_same hlive, hq]
    have hcut : Lib.covered hdr (fun a => (m' a).size) xs + Lib.cells hdr q n =
        Lib.covered hdr (fun a => (m a).size) xs := by
      obtain ⟨l, r, rfl⟩ := List.append_of_mem hp
      have hinc := List.pairwise_append.1 h.increasing
      have hl : ∀ a ∈ l, m' a = m a := fun a ha =>
        hother a (hinc.2.2 a ha p (by simp)).ne (hqx a (by simp [ha]))
      have hr : ∀ a ∈ r, m' a = m a := fun a ha =>
        hother a ((List.pairwise_cons.1 hinc.2.1).1 a ha).ne' (hqx a (by simp [ha]))
      have hcells : Lib.cells hdr p (m p).size = Lib.cells hdr p ((m p).size - n) +
        Lib.cells hdr q n := by
        rw [← Lib.cells_add, Nat.sub_add_cancel hlt.le]
      rw [Lib.covered_append, Lib.covered_append, Lib.covered_cons,
        Lib.covered_cons, covered_same hl, covered_same hr, hmp, hcells]
      abel
    rw [← hcut]
    abel
  · intro a ha hne
    by_cases hap : a = p
    · rw [hap, hmp]
      simp only
      omega
    · rw [hother a hap (hqx a ha)]
      exact h.free_pos a ha hne
  · intro a ha
    rcases List.mem_cons.1 ha with rfl | ha
    · rw [hq]
      exact hn
    · rw [hlive a ha]
      exact h.live_pos a ha

end

/-! ## A block for the program -/

section
variable {Y : Layout} {h h' : Heap} {nunits prevp p : Nat} {xs live : List Nat}

/-- The program has got the block at `b`, of `n` units: the heap was `h` and is `h'`. -/
structure Got (Y : Layout) (h h' : Heap) (live : List Nat) (b n : Nat) (xs : List Nat) : Prop where
  list : ListInv Y h' xs (b :: live)
  size : (h'.mem b).size = n
  same : ∀ a ∈ live, h'.mem a = h.mem a

theorem take_spec (hi : HeapInv Y h.mem h.brk xs live) (hprev : prevp ∈ xs)
    (hnext : (h.mem prevp).ptr = p) (hp : p ∈ xs) (hpos : 0 < nunits)
    (hfit : nunits ≤ (h.mem p).size) :
    ∃ b xs', (take nunits prevp p h).1 = b + hdr ∧
    Got Y h (take nunits prevp p h).2 live b nunits xs' ∧
      (take nunits prevp p h).2.brk = h.brk := by
  have hbase : p ≠ Y.base := by
    rintro hpb
    rw [hpb, hi.base_size] at hfit
    omega
  unfold take
  by_cases heq : (h.mem p).size = nunits
  · rw [if_pos heq]
    obtain ⟨l, r, hx⟩ := hi.linked.split hprev (by simpa [hnext] using hbase)
    simp only [hnext] at hx
    subst hx
    have hlt : prevp < p :=
      (List.pairwise_cons.1 (List.pairwise_append.1 hi.increasing).2.1).1 p (by simp)
    refine ⟨p, l ++ prevp :: r, rfl, ⟨⟨hi.remove hbase, by simp⟩, ?_, fun a ha => ?_⟩, rfl⟩
    · simp only [setPtr]
      rw [update_of_ne hlt.ne']
      exact heq
    · simp only [setPtr]
      rw [update_of_ne (hi.ne_live hprev ha).symm]
  · rw [if_neg heq]
    obtain ⟨hinv, hsize, hsame⟩ := hi.cut hp hpos (by omega)
    have hq : (setSize h.mem p ((h.mem p).size - nunits) p).size = (h.mem p).size - nunits := by
      rw [setSize, update_self]
    simp only [hq]
    exact ⟨_, xs, rfl, ⟨⟨hinv, hprev⟩, hsize, hsame⟩, trivial⟩

/-! ## More memory -/

/-- The units that `morecore` asks for. -/
def coreUnits (nunits : Nat) : Nat := if nunits < 4096 then 4096 else nunits

theorem coreUnits_pos (nunits : Nat) : 0 < coreUnits nunits := by
  unfold coreUnits
  split <;> omega

theorem le_coreUnits (nunits : Nat) : nunits ≤ coreUnits nunits := by
  unfold coreUnits
  split <;> omega

/-- `sbrk` has added `n` bytes. -/
structure Extends (n : Nat) (h h' : Heap) : Prop where
  brk : h'.brk = h.brk + n
  freep : h'.freep = h.freep
  mem : ∀ a < h.brk, h'.mem a = h.mem a

theorem Extends.inv {nu : Nat} (he : Extends (hdr * nu) h h') (hi : HeapInv Y h.mem h.brk xs live)
    (hnu : 0 < nu) : HeapInv Y (setSize h'.mem h.brk nu) h'.brk xs (h.brk :: live) := by
  have hsame : ∀ a ∈ xs ++ live, setSize h'.mem h.brk nu a = h.mem a := by
    intro a ha
    have hlt := hi.lt_brk ha
    rw [setSize, update_of_ne hlt.ne, he.mem a hlt]
  have hself : (setSize h'.mem h.brk nu h.brk).size = nu := by
    rw [setSize, update_self]
  have hc := hi.congr hsame
  refine ⟨hc.head, hc.linked, hc.sorted, hc.base_size, ?_, hc.free_pos, fun a ha => ?_⟩
  · obtain ⟨n, hn, hcov⟩ := hc.tiles
    refine ⟨n + nu, by rw [he.brk, Nat.mul_add]; omega, ?_⟩
    rw [Lib.cells_add, ← hn, ← hcov, Lib.covered_append, Lib.covered_append,
      Lib.covered_cons, hself]
    abel
  · rcases List.mem_cons.1 ha with rfl | ha
    · rw [hself]
      exact hnu
    · exact hc.live_pos a ha

theorem le_pgroundup (sz : Nat) : sz ≤ pgroundup sz := by
  unfold pgroundup
  omega

/-- **`morecore`**, when `sbrk` extends the memory by what was asked for. -/
theorem morecore_spec (hi : ListInv Y h xs live) (hf : xs.length ≤ fuel)
    (hs : sbrk (toInt32 (coreUnits nunits * hdr % 2 ^ 32)) h = .at h.brk h')
    (he : Extends (hdr * coreUnits nunits) h h') :
    ∃ h₁ xs₁, morecore sbrk fuel nunits h = .ok (h₁.freep, h₁) ∧ ListInv Y h₁ xs₁ live ∧
      h₁.brk = h.brk + hdr * coreUnits nunits ∧ xs₁.length ≤ xs.length + 1 ∧
      (∃ x ∈ xs₁, nunits ≤ (h₁.mem x).size) ∧ ∀ a ∈ live, h₁.mem a = h.mem a := by
  have hpos := coreUnits_pos nunits
  have hi' : ListInv Y { h' with mem := setSize h'.mem h.brk (coreUnits nunits) }
    xs (h.brk :: live) :=
    ⟨he.inv hi.inv hpos, by rw [he.freep]; exact hi.freep⟩
  obtain ⟨h₁, xs₁, hfree, hlist, hbrk, hlen, ⟨x, hx, hbig⟩, hsame⟩ :=
    free_spec hi' (List.mem_cons_self) hf
  rw [List.erase_cons_head] at hlist hsame
  refine ⟨h₁, xs₁, ?_, hlist, by rw [hbrk, he.brk], hlen, ⟨x, hx, ?_⟩, fun a ha => ?_⟩
  · have hpresent : h.brk + hdr ≤ pgroundup h'.brk := by
      have := le_pgroundup h'.brk
      rw [he.brk] at *
      have := Nat.mul_le_mul_left hdr hpos
      omega
    simp only [coreUnits] at hs
    rw [morecore, hs]
    simp only [if_pos hpresent]
    rw [show (if nunits < 4096 then 4096 else nunits) = coreUnits nunits from rfl, hfree]
    rfl
  · simp only [setSize, update_self] at hbig
    exact Nat.le_trans (le_coreUnits nunits) hbig
  · have hlt := hi.inv.lt_brk (show a ∈ xs ++ live by simp [ha])
    rw [hsame a ha]
    simp only [setSize]
    rw [update_of_ne hlt.ne, he.mem a hlt]

/-! ## The loop of `malloc` -/

theorem mallocLoop_skip (sbrk : Sbrk) (fuel : Nat) : ∀ {k prevp p : Nat}, (h.mem prevp).ptr = p →
    (∀ j < k, (h.mem ((fun a => (h.mem a).ptr)^[j] p)).size < nunits ∧
      (fun a => (h.mem a).ptr)^[j] p ≠ h.freep) →
    mallocLoop sbrk fuel nunits (n + k) h prevp p =
      mallocLoop sbrk fuel nunits n h ((fun a => (h.mem a).ptr)^[k] prevp)
      ((fun a => (h.mem a).ptr)^[k] p)
  | 0, prevp, p, _, _ => rfl
  | k + 1, prevp, p, hp, hs => by
    obtain ⟨h1, h2⟩ := hs 0 (by omega)
    simp only [iterate_zero, id] at h1 h2
    rw [← Nat.add_assoc, mallocLoop, if_neg (by omega), if_neg h2,
      mallocLoop_skip sbrk fuel rfl fun j hj => hs (j + 1) (by omega)]
    simp only [iterate_succ_apply, hp]

theorem mallocLoop_found (hi : ListInv Y h xs live) (hpos : 0 < nunits)
    (hfit : ∃ x ∈ xs, nunits ≤ (h.mem x).size) (hn : xs.length ≤ n) :
    ∃ b h' xs', mallocLoop sbrk fuel nunits n h h.freep (h.mem h.freep).ptr = .ok (b + hdr, h') ∧
      Got Y h h' live b nunits xs' ∧ h'.brk = h.brk := by
  obtain ⟨ys, rfl⟩ : ∃ ys, xs = Y.base :: ys := List.head?_eq_some_iff.1 hi.inv.head
  obtain ⟨k, hk, hmem, hstop, hbefore⟩ := hi.inv.linked.first_after hi.freep hfit
  obtain ⟨n, rfl⟩ := Nat.exists_eq_add_of_le (show k + 1 ≤ n by simp at hn; omega)
  have hprev : (fun a => (h.mem a).ptr)^[k] h.freep ∈ Y.base :: ys :=
    hi.inv.linked.mem_iterate hi.freep k
  have hnext : (h.mem ((fun a => (h.mem a).ptr)^[k] h.freep)).ptr =
      (fun a => (h.mem a).ptr)^[k] (h.mem h.freep).ptr :=
    (iterate_succ_apply' (fun a => (h.mem a).ptr) k h.freep).symm
  obtain ⟨b, xs', hb, hgot, hbrk⟩ := take_spec hi.inv hprev hnext hmem hpos hstop
  refine ⟨b, _, xs', ?_, hgot, hbrk⟩
  rw [show k + 1 + n = n + 1 + k by omega, mallocLoop_skip sbrk fuel rfl fun j hj =>
    ⟨Nat.not_le.1 (hbefore j hj).1, (hbefore j hj).2⟩, mallocLoop, if_pos hstop, ← hb]

theorem mallocLoop_none (hi : ListInv Y h xs live) (hfit : ∀ x ∈ xs, (h.mem x).size < nunits)
    (hn : xs.length ≤ n) :
    ∃ n', n ≤ n' + xs.length ∧ mallocLoop sbrk fuel nunits n h h.freep (h.mem h.freep).ptr =
      (morecore sbrk fuel nunits h >>= fun r =>
        if r.1 = 0 then .ok (0, r.2) else mallocLoop sbrk fuel nunits n' r.2 r.1
          (r.2.mem r.1).ptr) := by
  obtain ⟨ys, rfl⟩ : ∃ ys, xs = Y.base :: ys := List.head?_eq_some_iff.1 hi.inv.head
  obtain ⟨k, hk, hback, hbefore⟩ := hi.inv.linked.returns hi.freep
  obtain ⟨n, rfl⟩ := Nat.exists_eq_add_of_le (show k + 1 ≤ n by simp at hn; omega)
  have hnext : (h.mem h.freep).ptr ∈ Y.base :: ys := hi.inv.linked.mem_iterate hi.freep 1
  have hmem := hi.inv.linked.mem_iterate hnext
  refine ⟨n, by simp; omega, ?_⟩
  rw [show k + 1 + n = n + 1 + k by omega, mallocLoop_skip sbrk fuel rfl fun j hj =>
    ⟨hfit _ (hmem j), hbefore j hj⟩, mallocLoop, if_neg (Nat.not_le.2 (hfit _ (hmem k))),
      if_pos hback]
  rfl

theorem HeapInv.ptr_pos {m : Mem} {brk : Nat} (hi : HeapInv Y m brk xs live)
    {a : Nat} (ha : a ∈ xs) :
    0 < a := by
  obtain ⟨ys, rfl⟩ : ∃ ys, xs = Y.base :: ys := List.head?_eq_some_iff.1 hi.head
  have := Y.base_pos
  rcases List.mem_cons.1 ha with rfl | ha
  · exact this
  · have := (List.pairwise_cons.1 hi.increasing).1 a ha
    omega

/-- **The loop of `malloc`**: it takes a free block that is large enough, without a call of `sbrk`,
if there is one; otherwise it returns 0 if `sbrk` fails, and takes a block when `sbrk` has extended
the memory. -/
theorem mallocLoop_spec (hi : ListInv Y h xs live) (hpos : 0 < nunits)
    (hf : 2 * xs.length + 1 ≤ fuel) (hs : (∀ x ∈ xs, (h.mem x).size < nunits) →
      sbrk (toInt32 (coreUnits nunits * hdr % 2 ^ 32)) h = .failed ∨
      ∃ h', sbrk (toInt32 (coreUnits nunits * hdr % 2 ^ 32)) h = .at h.brk h' ∧
        Extends (hdr * coreUnits nunits) h h') :
    (mallocLoop sbrk fuel nunits fuel h h.freep (h.mem h.freep).ptr = .ok (0, h)) ∨
    ∃ b h' xs', mallocLoop sbrk fuel nunits fuel h h.freep (h.mem h.freep).ptr = .ok (b + hdr, h') ∧
      Got Y h h' live b nunits xs' ∧ h.brk ≤ h'.brk := by
  by_cases hfit : ∃ x ∈ xs, nunits ≤ (h.mem x).size
  · obtain ⟨b, h', xs', hloop, hgot, hbrk⟩ :=
      mallocLoop_found hi hpos hfit (show xs.length ≤ fuel by omega)
    exact .inr ⟨b, h', xs', hloop, hgot, hbrk.ge⟩
  · simp only [not_exists, not_and, Nat.not_le] at hfit
    obtain ⟨n', hn', hloop⟩ := mallocLoop_none hi hfit (show xs.length ≤ fuel by omega)
    rcases hs hfit with hfail | ⟨h₀, hat, hext⟩
    · left
      have hcore : morecore sbrk fuel nunits h = .ok (0, h) := by
        simp only [coreUnits] at hfail
        rw [morecore, hfail]
      rw [hloop, hcore]
      rfl
    · right
      obtain ⟨h₁, xs₁, hcore, hlist, hbrk, hlen, hbig, hsame⟩ :=
        morecore_spec hi (show xs.length ≤ fuel by omega) hat hext
      obtain ⟨b, h₂, xs₂, hloop', hgot, hbrk'⟩ :=
        mallocLoop_found hlist hpos hbig (show xs₁.length ≤ n' by omega)
      refine ⟨b, h₂, xs₂, ?_, ⟨hgot.list, hgot.size, fun a ha => ?_⟩, by omega⟩
      · rw [hloop, hcore]
        have hne : h₁.freep ≠ 0 := (hlist.inv.ptr_pos hlist.freep).ne'
        exact (if_neg hne).trans hloop'
      · rw [hgot.same a ha, hsame a ha]

end

end Xv6.Umalloc
