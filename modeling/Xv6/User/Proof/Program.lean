import Xv6.User.Proof.Malloc

/-!
# A program that uses the allocator

Whatever a program does with `malloc` and `free`, as long as it frees only blocks that it has and
writes only into them, the heap has its free list and its blocks as `ListInv` says, and every call
returns.
-/

namespace Xv6.Umalloc

variable {fuel fuel' nbytes : Nat} {h : Heap} {sbrk : Sbrk} {r : Nat × Heap} {Y : Layout}

/-! ## More fuel changes nothing -/

theorem freeSearch_mono {m : Mem} {bp : Nat} :
    ∀ {n n' p q : Nat}, freeSearch m bp n p = some q → n ≤ n' →
    freeSearch m bp n' p = some q
  | 0, _, _, _, h, _ => by cases h
  | n + 1, 0, _, _, _, hn => by omega
  | n + 1, n' + 1, p, q, h, hn => by
    rw [freeSearch] at h ⊢
    split
    · rwa [if_pos ‹_›] at h
    · rw [if_neg ‹_›] at h
      split
      · rwa [if_pos ‹_›] at h
      · rw [if_neg ‹_›] at h
        exact freeSearch_mono h (by omega)

theorem free_mono {ap : Nat} {h' : Heap} (hr : free fuel ap h = .ok h') (hf : fuel ≤ fuel') :
    free fuel' ap h = .ok h' := by
  rw [free] at hr ⊢
  cases hs : freeSearch h.mem (ap - hdr) fuel h.freep with
  | none =>
    rw [hs] at hr
    cases hr
  | some p =>
    rw [hs] at hr
    rw [freeSearch_mono hs hf]
    exact hr

theorem morecore_mono {nu : Nat} (hr : morecore sbrk fuel nu h = .ok r) (hf : fuel ≤ fuel') :
    morecore sbrk fuel' nu h = .ok r := by
  rw [morecore] at hr ⊢
  cases hs : sbrk (toInt32 ((if nu < 4096 then 4096 else nu) * hdr % 2 ^ 32)) h with
  | failed =>
    rw [hs] at hr
    exact hr
  | gone =>
    rw [hs] at hr
    cases hr
  | «at» p h' =>
    simp only [hs] at hr ⊢
    split at hr
    · rename_i hp
      rw [if_pos hp]
      cases hfree : free fuel (p + hdr)
        { h' with mem := setSize h'.mem p (if nu < 4096 then 4096 else nu) } with
      | error e =>
        rw [hfree] at hr
        cases hr
      | ok h₁ =>
        rw [hfree] at hr
        rw [free_mono hfree hf]
        exact hr
    · cases hr

theorem mallocLoop_mono {nunits : Nat} (hf : fuel ≤ fuel') :
    ∀ {n n' : Nat} {h : Heap} {prevp p : Nat}, mallocLoop sbrk fuel nunits n h prevp p = .ok r →
    n ≤ n' →
      mallocLoop sbrk fuel' nunits n' h prevp p = .ok r
  | 0, _, _, _, _, hr, _ => by cases hr
  | n + 1, 0, _, _, _, _, hn => by omega
  | n + 1, n' + 1, h, prevp, p, hr, hn => by
    rw [mallocLoop] at hr ⊢
    split
    · rwa [if_pos ‹_›] at hr
    rw [if_neg ‹_›] at hr
    split
    · rw [if_pos ‹_›] at hr
      cases hc : morecore sbrk fuel nunits h with
      | error e =>
        rw [hc] at hr
        cases hr
      | ok r₁ =>
        rw [hc] at hr
        rw [morecore_mono hc hf]
        obtain ⟨q, h₁⟩ := r₁
        simp only [bind, Except.bind] at hr ⊢
        split
        · rwa [if_pos ‹_›] at hr
        · rw [if_neg ‹_›] at hr
          exact mallocLoop_mono hf hr (by omega)
    · rw [if_neg ‹_›] at hr
      exact mallocLoop_mono hf hr (by omega)

theorem malloc_mono (hr : malloc Y sbrk fuel nbytes h = .ok r) (hf : fuel ≤ fuel') :
    malloc Y sbrk fuel' nbytes h = .ok r :=
  mallocLoop_mono hf hr hf

/-! ## The allocator -/

/-- Before the first `malloc`, or with a free list. -/
def AllocInv (Y : Layout) (h : Heap) (live : List Nat) : Prop :=
  (h.freep = 0 ∧ live = [] ∧ h.brk = Y.start) ∨ ∃ xs, ListInv Y h xs live

theorem initFree_spec {live : List Nat} (hi : AllocInv Y h live) :
    ∃ xs, ListInv Y (initFree Y h) xs live ∧ (initFree Y h).brk = h.brk ∧
      ∀ a ∈ live, (initFree Y h).mem a = h.mem a := by
  rcases hi with ⟨h0, rfl, hbrk⟩ | ⟨xs, hl⟩
  · refine ⟨[Y.base], ⟨⟨rfl, ⟨?_, trivial⟩, List.pairwise_singleton _ _, ?_, ⟨0, ?_, ?_⟩, ?_, ?_⟩,
      ?_⟩, ?_, ?_⟩
    all_goals simp [initFree, h0, hbrk, Lib.cells]
  · have hne : h.freep ≠ 0 := (hl.inv.ptr_pos hl.freep).ne'
    rw [initFree, if_neg hne]
    exact ⟨xs, hl, rfl, fun _ _ => rfl⟩

theorem unitsFor_pos (nbytes : Nat) : 0 < unitsFor nbytes := Nat.succ_pos _

theorem hdr_mul_unitsFor (h : nbytes + 7 < 2 ^ 32) : nbytes + hdr ≤ hdr * unitsFor nbytes := by
  simp only [unitsFor, hdr]
  omega

theorem toInt32_of_lt {n : Nat} (h : n < 2 ^ 31) : toInt32 (n % 2 ^ 32) = n := by
  rw [Nat.mod_eq_of_lt (by omega), toInt32, if_pos h]

theorem coreUnits_lt (h : nbytes < maxBytes) : coreUnits (unitsFor nbytes) * hdr < 2 ^ 31 := by
  have hu : unitsFor nbytes * hdr < 2 ^ 31 := by
    simp only [maxBytes] at h
    simp only [unitsFor, hdr]
    omega
  unfold coreUnits
  split
  · decide
  · exact hu

theorem grow_spec (grant : Bool) (h : Heap) {n : Nat} (hlt : n * hdr < 2 ^ 31) :
    grow grant (toInt32 (n * hdr % 2 ^ 32)) h = .failed ∨
    ∃ h', grow grant (toInt32 (n * hdr % 2 ^ 32)) h = .at h.brk h' ∧ Extends (hdr * n) h h' := by
  rw [toInt32_of_lt hlt, grow]
  split
  · refine .inr ⟨_, rfl, ?_, rfl, fun a ha => ?_⟩
    · simp only [Int.toNat_natCast, Nat.mul_comm]
    · exact if_neg (by omega)
  · exact .inl rfl

/-- **`malloc`** returns 0, or a block of the size asked for. -/
theorem malloc_spec {live : List Nat} (hi : AllocInv Y h live) :
    ∃ fuel₀, ∀ fuel ≥ fuel₀, ∀ nbytes < maxBytes, ∀ grant,
      malloc Y (grow grant) fuel nbytes h = .ok (0, initFree Y h) ∨
      ∃ b h' xs', malloc Y (grow grant) fuel nbytes h = .ok (b + hdr, h') ∧
        Got Y h h' live b (unitsFor nbytes) xs' := by
  obtain ⟨xs, hl, -, hsame⟩ := initFree_spec hi
  refine ⟨2 * xs.length + 1, fun fuel hf nbytes hn grant => ?_⟩
  have hspec := mallocLoop_spec hl (unitsFor_pos nbytes) hf fun _ =>
    grow_spec grant _ (coreUnits_lt hn)
  rcases hspec with hzero | ⟨b, h', xs', hloop, hgot, -⟩
  · exact .inl hzero
  · exact .inr ⟨b, h', xs', hloop, hgot.list, hgot.size,
      fun a ha => by rw [hgot.same a ha, hsame a ha]⟩

/-! ## The program -/

/-- What a step does to the blocks in use. -/
inductive BlockStep (s s' : Prog) : ProgAct → Prop
  | failed {nbytes : Nat} {grant : Bool} : s'.live = s.live → BlockStep s s' (.malloc nbytes grant)
  | got {nbytes : Nat} {grant : Bool} {b : Nat} : s'.live = b :: s.live →
      nbytes ≤ hdr * ((s'.heap.mem b).size - 1) → BlockStep s s' (.malloc nbytes grant)
  | freed {b : Nat} : b ∈ s.live → s'.live = s.live.erase b → BlockStep s s' (.free (b + hdr))
  | wrote {a : Nat} {v : Header} : s'.live = s.live → BlockStep s s' (.write a v)

section
variable {Y : Layout} {fuel : Nat} {s s' : Prog}

section
variable (hi : AllocInv Y s.heap s.live)
include hi

theorem step_malloc {grant : Bool} (h : progStep Y fuel s (.malloc nbytes grant) = some s') :
    AllocInv Y s'.heap s'.live ∧ BlockStep s s' (.malloc nbytes grant) ∧
      ∀ a ∈ s.live, s'.heap.mem a = s.heap.mem a := by
  rw [progStep] at h
  split at h
  · rename_i hn
    obtain ⟨fuel₀, hspec⟩ := malloc_spec hi
    split at h
    · rename_i ap h' hm
      cases h
      have hm' := malloc_mono hm (Nat.le_max_left fuel fuel₀)
      rcases hspec _ (Nat.le_max_right fuel fuel₀) nbytes hn grant with hz | ⟨b, h₁, xs', hb, hgot⟩
      · rw [hz] at hm'
        cases hm'
        obtain ⟨xs, hl, -, hsame⟩ := initFree_spec hi
        exact ⟨.inr ⟨xs, hl⟩, .failed rfl, hsame⟩
      · rw [hb] at hm'
        cases hm'
        have hlive : Prog.got s.live (b + hdr) = b :: s.live := by
          rw [Prog.got, if_neg (by simp [hdr]), Nat.add_sub_cancel]
        rw [hlive]
        refine ⟨.inr ⟨xs', hgot.list⟩, .got rfl ?_, hgot.same⟩
        rw [hgot.size]
        have := @hdr_mul_unitsFor nbytes (by simp only [maxBytes] at hn; omega)
        have := unitsFor_pos nbytes
        rw [Nat.mul_sub]
        omega
    · cases h
  · cases h

theorem step_free {ap : Nat} (h : progStep Y fuel s (.free ap) = some s') :
    AllocInv Y s'.heap s'.live ∧ BlockStep s s' (.free ap) ∧
      ∀ a ∈ s.live, a ∈ s'.live → s'.heap.mem a = s.heap.mem a := by
  rw [progStep] at h
  split at h
  · rename_i hap
    obtain ⟨hle, hmem⟩ := hap
    obtain ⟨bp, rfl⟩ := Nat.exists_eq_add_of_le' hle
    rw [Nat.add_sub_cancel] at h hmem
    split at h
    · rename_i h' hf
      cases h
      rcases hi with ⟨-, hnil, -⟩ | ⟨xs, hl⟩
      · rw [hnil] at hmem
        cases hmem
      · have hf' := free_mono hf (Nat.le_max_left fuel xs.length)
        obtain ⟨h₁, xs', hok, hl', -, -, -, hsame⟩ :=
          free_spec hl hmem (Nat.le_max_right fuel xs.length)
        rw [hok] at hf'
        cases hf'
        exact ⟨.inr ⟨xs', hl'⟩, .freed hmem rfl, fun a _ ha => hsame a ha⟩
    · cases h
  · cases h

theorem step_write {a : Nat} {v : Header} (h : progStep Y fuel s (.write a v) = some s') :
    AllocInv Y s'.heap s'.live ∧ BlockStep s s' (.write a v) ∧
      ∀ b ∈ s.live, s'.heap.mem b = s.heap.mem b := by
  rw [progStep] at h
  split at h
  · rename_i hin
    cases h
    obtain ⟨bp, hbp, i, hi', hpos, rfl⟩ := hin
    rcases hi with ⟨-, hnil, -⟩ | ⟨xs, hl⟩
    · rw [hnil] at hbp
      cases hbp
    · have hne : ∀ b ∈ xs ++ s.live, b ≠ bp + hdr * i := by
        intro b hb
        have hout : b + hdr * (s.heap.mem b).size ≤ bp ∨ bp + hdr * (s.heap.mem bp).size ≤ b ∨
          b = bp := by
          rcases List.mem_append.1 hb with hx | hb
          · have := hl.inv.apart hx hbp
            omega
          · by_cases hbb : b = bp
            · exact .inr (.inr hbb)
            · have := hl.inv.live_apart_of_ne hb hbp hbb
              omega
        simp only [hdr] at *
        omega
      have hsame : ∀ b ∈ xs ++ s.live,
          Function.update s.heap.mem (bp + hdr * i) v b = s.heap.mem b := fun b hb =>
        Function.update_of_ne (hne b hb) _ _
      exact ⟨.inr ⟨xs, hl.inv.congr hsame, hl.freep⟩, .wrote rfl,
        fun b hb => hsame b (by simp [hb])⟩
  · cases h

theorem step_inv {a : ProgAct} (h : progStep Y fuel s a = some s') :
    AllocInv Y s'.heap s'.live ∧ BlockStep s s' a ∧
      ∀ b ∈ s.live, b ∈ s'.live → s'.heap.mem b = s.heap.mem b := by
  cases a with
  | malloc nbytes grant =>
    obtain ⟨h1, h2, h3⟩ := step_malloc hi h
    exact ⟨h1, h2, fun b hb _ => h3 b hb⟩
  | free ap => exact step_free hi h
  | write a v =>
    obtain ⟨h1, h2, h3⟩ := step_write hi h
    exact ⟨h1, h2, fun b hb _ => h3 b hb⟩

end

theorem reach_inv {m : Mem} (h : Lib.Reach (progStep Y fuel) (progStart Y m) s) :
    AllocInv Y s.heap s.live := by
  obtain ⟨as, has⟩ := h
  exact Lib.run_inv (P := fun s => AllocInv Y s.heap s.live) (fun _ _ _ hi hs => (step_inv hi hs).1)
    (.inl ⟨rfl, rfl, rfl⟩) has

/-- The free list is circular and ordered, and all blocks are apart and cover the heap. -/
structure HeapOk (Y : Layout) (s : Prog) (xs : List Nat) : Prop where
  circular : xs.head? = some Y.base ∧ Lib.Linked (fun a => (s.heap.mem a).ptr) xs Y.base ∧
    s.heap.freep ∈ xs
  increasing : xs.Pairwise (· < ·)
  free_apart : xs.Pairwise fun a b => a + hdr * (s.heap.mem a).size < b
  live_apart : s.live.Pairwise fun a b =>
    a + hdr * (s.heap.mem a).size ≤ b ∨ b + hdr * (s.heap.mem b).size ≤ a
  apart : ∀ a ∈ xs, ∀ b ∈ s.live, a + hdr * (s.heap.mem a).size ≤ b ∨
    b + hdr * (s.heap.mem b).size ≤ a
  units : Y.start + hdr * ((xs ++ s.live).map fun a => (s.heap.mem a).size).sum = s.heap.brk

theorem ListInv.heapOk {xs : List Nat} (h : ListInv Y s.heap xs s.live) : HeapOk Y s xs where
  circular := ⟨h.inv.head, h.inv.linked, h.freep⟩
  increasing := h.inv.increasing
  free_apart := h.inv.sorted
  live_apart := h.inv.live_apart
  apart a ha b hb := h.inv.apart ha hb
  units := by
    obtain ⟨n, hn, hc⟩ := h.inv.tiles
    have hcard := congrArg Multiset.card hc
    rw [Lib.covered_card, Lib.card_cells] at hcard
    rw [hcard, hn]

/-- **The allocator**: in every state of every program, whatever `sbrk` grants, there is no heap
yet, or the free list is circular, in increasing order from `base` on, and its blocks do not touch;
the blocks of the program do not overlap, with each other or with free blocks; and together they are
the memory that came from `sbrk`. What `malloc` returns has the bytes asked for, and keeps its size;
and with enough fuel every call of `malloc` and `free` returns. -/
theorem allocator_run {m : Mem} (h : Lib.Reach (progStep Y fuel) (progStart Y m) s) :
    ((s.heap.freep = 0 ∧ s.live = [] ∧ s.heap.brk = Y.start) ∨ ∃ xs, HeapOk Y s xs) ∧
    (∀ a s', progStep Y fuel s a = some s' → BlockStep s s' a ∧
      ∀ b ∈ s.live, b ∈ s'.live → (s'.heap.mem b).size = (s.heap.mem b).size) ∧
    ∃ fuel₀, ∀ fuel' ≥ fuel₀,
      (∀ nbytes < maxBytes, ∀ grant, ∃ s', progStep Y fuel' s (.malloc nbytes grant) = some s') ∧
      ∀ b ∈ s.live, ∃ s', progStep Y fuel' s (.free (b + hdr)) = some s' := by
  have hi := reach_inv h
  refine ⟨?_, fun a s' hs => ?_, ?_⟩
  · rcases hi with h0 | ⟨xs, hl⟩
    · exact .inl h0
    · exact .inr ⟨xs, hl.heapOk⟩
  · obtain ⟨-, h2, h3⟩ := step_inv hi hs
    exact ⟨h2, fun b hb hb' => by rw [h3 b hb hb']⟩
  · obtain ⟨fuel₁, hmalloc⟩ := malloc_spec hi
    obtain ⟨fuel₂, hfree⟩ : ∃ fuel₂, ∀ fuel' ≥ fuel₂, ∀ b ∈ s.live, ∃ h',
      free fuel' (b + hdr) s.heap = .ok h' := by
      rcases hi with ⟨-, hnil, -⟩ | ⟨xs, hl⟩
      · refine ⟨0, fun fuel' _ b hb => ?_⟩
        rw [hnil] at hb
        cases hb
      · refine ⟨xs.length, fun fuel' hf b hb => ?_⟩
        obtain ⟨h', -, hok, -⟩ := free_spec hl hb hf
        exact ⟨h', hok⟩
    refine ⟨max fuel₁ fuel₂, fun fuel' hf => ⟨fun nbytes hn grant => ?_, fun b hb => ?_⟩⟩
    · rw [progStep, if_pos hn]
      rcases hmalloc fuel' (by omega) nbytes hn grant with hok | ⟨b, h', xs', hok, -⟩
      · exact ⟨_, by rw [hok]⟩
      · exact ⟨_, by rw [hok]⟩
    · obtain ⟨h', hok⟩ := hfree fuel' (by omega) b hb
      rw [progStep, if_pos ⟨by omega, by rwa [Nat.add_sub_cancel]⟩, hok]
      exact ⟨_, rfl⟩

end

def tinyLayout : Layout := ⟨8, 16, hdr_pos, by decide⟩

/-- Two blocks, of which the first is freed again. -/
theorem allocator_run_tiny : ∃ s, Lib.Reach (progStep tinyLayout 10)
    (progStart tinyLayout fun _ => ⟨0, 0⟩) s ∧
    s.live = [32648] ∧ ∃ xs, HeapOk tinyLayout s xs := by
  have hrun : (Lib.run (progStep tinyLayout 10) (progStart tinyLayout fun _ => ⟨0, 0⟩)
      [.malloc 10 true, .malloc 100 true, .free 32768]).map (fun s => (s.live, s.heap.freep)) =
      some ([32648], 16) := by decide +kernel
  obtain ⟨s, hs, heq⟩ := Option.map_eq_some_iff.1 hrun
  simp only [Prod.mk.injEq] at heq
  obtain ⟨hlive, hfreep⟩ := heq
  have hreach : Lib.Reach (progStep tinyLayout 10)
    (progStart tinyLayout fun _ => ⟨0, 0⟩) s := ⟨_, hs⟩
  obtain ⟨⟨h0, -⟩ | hx, -⟩ := allocator_run hreach
  · omega
  · exact ⟨s, hreach, hlive, hx⟩

end Xv6.Umalloc
