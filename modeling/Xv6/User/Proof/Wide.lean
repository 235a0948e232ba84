import Xv6.User.Proof.Program
import Xv6.Vm.Proof.Growproc

/-!
# Requests of every size

A request goes through three conversions: the number of bytes is rounded up to units, the units are
multiplied by the size of a header, and the product is the signed argument of `sbrk`. The first
wraps around for the last seven numbers, the last for a product of `2 ^ 31` or more, which is
negative for `sbrk`, or 0.
-/

namespace Xv6.Umalloc

/-! ## `sbrk` and `growproc` -/

/-- What `growproc` returns and leaves for the size, and the pages that the process then has, for an
answer of `sbrk`. -/
def Answer.Is (h : Heap) (r : Int × Nat) (m' : Vm.Mem) (d : Vm.Ppn) : Answer → Prop
  | .failed => r = (-1, h.brk) ∧ Vm.Exactly m' d h.brk
  | .gone => r = (-1, h.brk) ∧ Vm.Exactly m' d 0
  | .at p h' => r = (0, h'.brk) ∧ p = h.brk ∧ Vm.Exactly m' d h'.brk

/-- **`sysSbrk` is `growproc`** on the page tables: for a process that has its pages, and whatever
calls of `kalloc` fail, some `grant` gives the answer of `sbrk`. -/
theorem sysSbrk_growproc {L : Vm.Layout} {m : Vm.Mem} {d : Vm.Ppn} {h : Heap}
    {n : Int} (oom : List Bool) (hs : Vm.Sound L m d) (h0 : 0 < h.brk) (hk : h.brk < Vm.kernbase)
    (he : Vm.Exactly m d h.brk) (hn : -2 ^ 31 ≤ n) (hn' : n < 2 ^ 31) :
    ∃ r m' grant, Vm.growproc L d h.brk n { m with oom := oom } = .ok r m' ∧
      (sysSbrk grant n h).Is h r m' d := by
  rcases Int.lt_trichotomy n 0 with hneg | rfl | hpos
  · obtain ⟨m', hr, -, hm⟩ := Vm.growproc_neg oom hs hk hneg rfl
    have hex := he.erased hk.le hm
    refine ⟨_, m', true, hr, ?_⟩
    simp only [sysSbrk, if_neg (show ¬ n > 0 by omega), if_pos hneg]
    generalize ((h.brk + n) % Vm.u32).toNat = newsz at hex ⊢
    by_cases hle : h.brk ≤ newsz
    · rw [Nat.min_eq_left hle] at hex ⊢
      rw [if_pos hle, if_neg h0.ne']
      exact ⟨rfl, rfl, hex⟩
    rw [Nat.min_eq_right (by omega)] at hex ⊢
    rw [if_neg hle]
    by_cases hz : newsz = 0
    · -- the pages of the process are freed, and the size 0 is taken for an error
      rw [if_pos hz, if_pos hz]
      exact ⟨rfl, hz ▸ hex⟩
    · rw [if_neg hz, if_neg hz]
      exact ⟨rfl, rfl, hex⟩
  · exact ⟨(0, h.brk), { m with oom := oom }, true, rfl, rfl, rfl, he⟩
  · have hsum : (((h.brk + n) % Vm.u32).toNat : Int) = h.brk + n := by
      simp only [Vm.u32, Vm.kernbase] at *
      omega
    by_cases hbig : ((h.brk + n) % Vm.u32).toNat ≥ Vm.kernbase
    · refine ⟨(-1, h.brk), { m with oom := oom }, true, ?_, ?_⟩
      · rw [Vm.growproc, if_pos hpos, Vm.allocuvm, if_pos hbig]
        rfl
      · simp only [sysSbrk, if_pos hpos, if_pos hbig]
        exact ⟨rfl, he⟩
    · obtain ⟨r, m', hr, hgrew⟩ := Vm.growproc_pos hs hk he hpos hn'
      obtain ⟨⟨h1, h2⟩ | ⟨h1, h2, -⟩, hex, -⟩ := hgrew
      · refine ⟨r, m', true, hr, ?_⟩
        simp only [sysSbrk, if_pos hpos, if_neg hbig]
        have hsz : r.2 = ((h.brk + n) % Vm.u32).toNat := by omega
        rw [if_neg (by omega)]
        exact ⟨Prod.ext h1 hsz, rfl, hsz ▸ hex⟩
      · refine ⟨r, m', false, hr, ?_⟩
        simp only [sysSbrk, if_pos hpos, if_neg hbig]
        rw [if_neg (by omega)]
        exact ⟨Prod.ext h1 h2, h2 ▸ hex⟩

/-- A process of one page asks for one more. -/
theorem sysSbrk_growproc_tiny :
    ∃ r m' grant, Vm.growproc Vm.smallKernel 0x102 Vm.pgsize 4096 Vm.tiny = .ok r m' ∧
      (sysSbrk grant 4096 ⟨fun _ => ⟨0, 0⟩, 0, Vm.pgsize⟩).Is ⟨fun _ => ⟨0, 0⟩, 0,
        Vm.pgsize⟩ r m' 0x102 :=
  sysSbrk_growproc (h := ⟨fun _ => ⟨0, 0⟩, 0, Vm.pgsize⟩) [] Vm.tiny_sound (by decide) (by decide)
    Vm.tiny_exactly (by decide) (by decide)

/-! ## The conversions -/

theorem sysSbrk_spec (grant : Bool) {h : Heap} {n : Nat} (hk : h.brk < Vm.kernbase)
    (hlt : n * hdr < 2 ^ 31) :
    sysSbrk grant (toInt32 (n * hdr % 2 ^ 32)) h = .failed ∨
    ∃ h', sysSbrk grant (toInt32 (n * hdr % 2 ^ 32)) h = .at h.brk h' ∧ Extends (hdr * n) h h' := by
  have hsum : ((h.brk + (n * hdr : Nat)) % Vm.u32 : Int).toNat = h.brk + n * hdr := by
    simp only [Vm.u32, Vm.kernbase] at *
    omega
  rw [toInt32_of_lt hlt]
  simp only [sysSbrk, hsum]
  by_cases hpos : ((n * hdr : Nat) : Int) > 0
  · rw [if_pos hpos]
    split
    · exact .inl rfl
    · rw [if_neg (by omega)]
      split
      · refine .inr ⟨_, rfl, by simp only [Nat.mul_comm], rfl, fun a ha => ?_⟩
        have := le_pgroundup h.brk
        exact if_neg (by omega)
      · exact .inl rfl
  · obtain hz : n * hdr = 0 := by omega
    rw [if_neg hpos, if_neg (by omega)]
    exact .inr ⟨h, rfl, by rw [Nat.mul_comm, hz]; rfl, rfl, fun _ _ => rfl⟩

/-- What `malloc(nbytes)` promises in a heap with the free list `xs`: the rounding to units loses
nothing; when no free block is large enough, `sbrk` gets the number of bytes of the units; and
`malloc` returns, has not made the heap smaller, and the result is 0 or a block with the bytes asked
for in the memory from `sbrk`. -/
structure MallocOk (Y : Layout) (sbrk : Sbrk) (nbytes : Nat) (h : Heap) (xs : List Nat) : Prop where
  rounding : nbytes + hdr ≤ hdr * unitsFor nbytes
  argument : (∀ x ∈ xs, ((initFree Y h).mem x).size < unitsFor nbytes) →
    toInt32 (coreUnits (unitsFor nbytes) * hdr % 2 ^ 32) = (coreUnits (unitsFor nbytes) * hdr : Nat)
  returns : ∃ fuel₀, ∀ fuel ≥ fuel₀, ∃ r h', malloc Y sbrk fuel nbytes h = .ok (r, h') ∧
    h.brk ≤ h'.brk ∧
    (r = 0 ∨ ∃ b, r = b + hdr ∧ nbytes ≤ hdr * ((h'.mem b).size - 1) ∧ Y.start ≤ b ∧
      b + hdr * (h'.mem b).size ≤ h'.brk)

theorem toInt32_eq_iff {n : Nat} : toInt32 (n % 2 ^ 32) = n ↔ n < 2 ^ 31 := by
  refine ⟨fun h => ?_, toInt32_of_lt⟩
  unfold toInt32 at h
  split at h <;> omega

theorem coreUnits_lt_iff {nbytes : Nat} (h : nbytes + 7 < 2 ^ 32) :
    coreUnits (unitsFor nbytes) * hdr < 2 ^ 31 ↔ nbytes ≤ 2 ^ 31 - 16 := by
  have hu : unitsFor nbytes * hdr < 2 ^ 31 ↔ nbytes ≤ 2 ^ 31 - 16 := by
    simp only [unitsFor, hdr]
    omega
  unfold coreUnits
  split
  · rename_i hlt
    refine ⟨fun _ => hu.1 ?_, fun _ => by decide⟩
    simp only [hdr]
    omega
  · exact hu

/-- **Requests of every size**: in every state of the allocator with the break below `KERNBASE`, for
every 32-bit number of bytes, and whether or not the kernel has the memory, no conversion loses
value, and `malloc` returns 0 or a block that is large enough, exactly if the rounding does not wrap
around and a free block is large enough or at most `2 ^ 31 - 16` bytes are asked for. -/
theorem malloc_wide_iff {Y : Layout} {h : Heap} {live : List Nat} (hi : AllocInv Y h live)
    (hk : h.brk < Vm.kernbase) :
    ∃ xs, ListInv Y (initFree Y h) xs live ∧ ∀ nbytes < 2 ^ 32, ∀ grant,
      (MallocOk Y (sysSbrk grant) nbytes h xs ↔
        nbytes ≤ 2 ^ 32 - 8 ∧
          ((∃ x ∈ xs, unitsFor nbytes ≤ ((initFree Y h).mem x).size) ∨ nbytes ≤ 2 ^ 31 - 16)) := by
  obtain ⟨xs, hl, hbrk, -⟩ := initFree_spec hi
  refine ⟨xs, hl, fun nbytes hn grant => ⟨fun hok => ?_, fun ⟨hround, harg⟩ => ?_⟩⟩
  · have hround : nbytes ≤ 2 ^ 32 - 8 := by
      have := hok.rounding
      simp only [unitsFor, hdr] at this
      omega
    refine ⟨hround, ?_⟩
    by_contra hno
    simp only [not_or, not_exists, not_and, Nat.not_le] at hno
    obtain ⟨hfit, hlarge⟩ := hno
    have := (coreUnits_lt_iff (by omega)).1 (toInt32_eq_iff.1 (hok.argument hfit))
    omega
  · have hcore : (∀ x ∈ xs, ((initFree Y h).mem x).size < unitsFor nbytes) →
        coreUnits (unitsFor nbytes) * hdr < 2 ^ 31 := by
      intro hfit
      rcases harg with ⟨x, hx, hle⟩ | hle
      · exact absurd hle (Nat.not_le.2 (hfit x hx))
      · exact (coreUnits_lt_iff (by omega)).2 hle
    have hround' := @hdr_mul_unitsFor nbytes (by omega)
    refine ⟨hround', fun hfit => toInt32_of_lt (hcore hfit), 2 * xs.length + 1, fun fuel hf => ?_⟩
    rcases mallocLoop_spec hl (unitsFor_pos nbytes) hf fun hfit =>
      sysSbrk_spec grant (by rw [hbrk]; exact hk)
        (hcore hfit) with hzero | ⟨b, h', xs', hloop, hgot, hle⟩
    · exact ⟨0, initFree Y h, hzero, hbrk.ge, .inl rfl⟩
    · obtain ⟨harea, hend⟩ := hgot.list.inv.live_area (List.mem_cons_self)
      refine ⟨b + hdr, h', hloop, hbrk ▸ hle, .inr ⟨b, rfl, ?_, harea, hend⟩⟩
      rw [hgot.size, Nat.mul_sub]
      omega

def smallLayout : Layout := ⟨8, 4160, hdr_pos, by decide⟩

def smallHeap : Heap := ⟨fun _ => ⟨0, 0⟩, 0, 4160⟩

theorem malloc_wide_iff_small : ∃ xs, ListInv smallLayout (initFree smallLayout smallHeap) xs [] ∧
    MallocOk smallLayout (sysSbrk true) 100000 smallHeap xs := by
  obtain ⟨xs, hl, hiff⟩ :=
    malloc_wide_iff (show AllocInv smallLayout smallHeap [] from .inl ⟨rfl, rfl, rfl⟩) (by decide)
  exact ⟨xs, hl, (hiff 100000 (by decide) true).2 ⟨by decide, .inr (by decide)⟩⟩

/-- The largest request gets a block without a byte of its own; and one of `2 ^ 32 - 24` bytes makes
the heap 16 bytes smaller and gets a block outside of it. -/
theorem malloc_wraps :
    (malloc smallLayout (sysSbrk true) 10 (2 ^ 32 - 1) smallHeap).map
      (fun r => (r.1, (r.2.mem (r.1 - hdr)).size, r.2.brk)) = .ok (36928, 1, 36928) ∧
    ¬ MallocOk smallLayout (sysSbrk true) (2 ^ 32 - 1) smallHeap [8] ∧
    (malloc smallLayout (sysSbrk true) 10 (2 ^ 32 - 24) smallHeap).map
      (fun r => (r.1, (r.2.mem (r.1 - hdr)).size, r.2.brk)) = .ok (4168, 2 ^ 29 - 2, 4144) ∧
    ¬ MallocOk smallLayout (sysSbrk true) (2 ^ 32 - 24) smallHeap [8] := by
  refine ⟨by decide +kernel, fun h => absurd h.rounding (by decide), by decide +kernel, fun h => ?_⟩
  exact absurd (h.argument (by decide)) (by decide)

end Xv6.Umalloc
