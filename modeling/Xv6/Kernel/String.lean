import Mathlib.Data.BitVec
import Xv6.Lib.Moves

/-!
# Moving memory in the kernel

`memmove` of `string.c`, over memory by 32-bit addresses. The ranges may overlap: when the target
starts inside the source, the bytes are copied from the end down, and from the start up otherwise.
-/

namespace Xv6.Kernel

open Lib

/-- Memory by address. -/
abbrev Mem := BitVec 32 → UInt8

/-- `memmove` of `string.c`: the memory after it, and what it returns. -/
def memmove (mem : Mem) (dst src n : BitVec 32) : Mem × BitVec 32 :=
  let s := src
  let d := dst
  if s < d ∧ s + n > d then (copyDown n.toNat mem (d + n) (s + n), dst)
  else (copyUp n.toNat mem d s, dst)

/-- The `n` bytes from `a` on are at addresses below `2 ^ 32`. -/
def NoWrap (a : BitVec 32) (n : Nat) : Prop := a.toNat + n ≤ 2 ^ 32

instance (a : BitVec 32) (n : Nat) : Decidable (NoWrap a n) := inferInstanceAs (Decidable (_ ≤ _))

theorem NoWrap.add_toNat {a : BitVec 32} {n i : Nat} (h : NoWrap a n) (hi : i < n) :
    (a + (i : BitVec 32)).toNat = a.toNat + i := by
  unfold NoWrap at h
  rw [BitVec.natCast_eq_ofNat, BitVec.toNat_add, BitVec.toNat_ofNat]
  omega

section
variable {dst src : BitVec 32} {n : Nat}

theorem pairs_apart_up (hs : NoWrap src n) (hd : NoWrap dst n)
    (h : ¬ (src.toNat < dst.toNat ∧ dst.toNat < src.toNat + n)) : Apart (pairs dst src n) := by
  apply pairs_pairwise
  intro i j hij hj
  have hi : i < n := hij.trans hj
  constructor <;> intro he <;> replace he := congrArg BitVec.toNat he <;>
    simp only [hs.add_toNat, hd.add_toNat, hi, hj] at he <;> omega

theorem pairs_apart_down (hs : NoWrap src n) (hd : NoWrap dst n) (h : src.toNat < dst.toNat) :
    Apart (pairs dst src n).reverse := by
  rw [Apart, List.pairwise_reverse]
  apply pairs_pairwise
  intro i j hij hj
  have hi : i < n := hij.trans hj
  constructor <;> intro he <;> replace he := congrArg BitVec.toNat he <;>
    simp only [hs.add_toNat, hd.add_toNat, hi, hj] at he <;> omega

end

theorem memmove_moves (mem : Mem) {dst src n : BitVec 32} (hs : NoWrap src n.toNat)
    (hd : NoWrap dst n.toNat) :
    ∃ ps, Apart ps ∧ (∀ p, p ∈ ps ↔ p ∈ pairs dst src n.toNat) ∧
      memmove mem dst src n = (moves mem ps, dst) := by
  have hn : BitVec.ofNat 32 n.toNat = n := BitVec.ofNat_toNat ..
  have hlt := n.isLt
  unfold NoWrap at hs hd
  by_cases hin : src.toNat < dst.toNat ∧ dst.toNat < src.toNat + n.toNat
  · -- the target ends below `2 ^ 32` and the source ends before it, so `s + n` does not wrap
    have hsum : (src + n).toNat = src.toNat + n.toNat := by
      rw [BitVec.toNat_add]
      omega
    have hcond : src < dst ∧ src + n > dst := by
      simp only [BitVec.lt_def, gt_iff_lt, hsum]
      exact hin
    refine ⟨_, pairs_apart_down hs hd hin.1, fun p => List.mem_reverse, ?_⟩
    have hdown := copyDown_eq mem dst src n.toNat
    rw [BitVec.natCast_eq_ofNat, hn] at hdown
    simp only [memmove, if_pos hcond, hdown]
  · have hcond : ¬ (src < dst ∧ src + n > dst) := by
      simp only [BitVec.lt_def, gt_iff_lt]
      intro h
      rw [BitVec.toNat_add] at h
      omega
    refine ⟨_, pairs_apart_up hs hd hin, fun p => Iff.rfl, ?_⟩
    simp only [memmove, if_neg hcond, copyUp_eq]

theorem memmove_at (mem : Mem) {dst src n : BitVec 32} (hs : NoWrap src n.toNat)
    (hd : NoWrap dst n.toNat) {i : Nat} (hi : i < n.toNat) :
    (memmove mem dst src n).1 (dst + BitVec.ofNat 32 i) = mem (src + BitVec.ofNat 32 i) := by
  obtain ⟨ps, hap, hmem, heq⟩ := memmove_moves mem hs hd
  rw [heq]
  exact moves_mem hap ((hmem _).2 (mem_pairs.2 ⟨i, hi, rfl⟩))

/-- **The kernel's `memmove`**: the target holds what the source held, and nothing else changes. -/
theorem memmove_copies (mem : Mem) (dst src n : BitVec 32) (hs : NoWrap src n.toNat)
    (hd : NoWrap dst n.toNat) :
    (∀ i < n.toNat, (memmove mem dst src n).1 (dst + BitVec.ofNat 32 i) =
      mem (src + BitVec.ofNat 32 i)) ∧
    (∀ a : BitVec 32, a.toNat < dst.toNat ∨ dst.toNat + n.toNat ≤ a.toNat →
      (memmove mem dst src n).1 a = mem a) ∧
    (memmove mem dst src n).2 = dst := by
  refine ⟨fun i hi => memmove_at mem hs hd hi, ?_⟩
  obtain ⟨ps, -, hmem, heq⟩ := memmove_moves mem hs hd
  rw [heq]
  refine ⟨fun a ha => ?_, rfl⟩
  apply moves_of_ne
  intro p hp he
  obtain ⟨i, hi, rfl⟩ := mem_pairs.1 ((hmem p).1 hp)
  have hai := congrArg BitVec.toNat he
  rw [hd.add_toNat hi] at hai
  omega

/-- A byte moved to the address after it, with the next one. -/
theorem memmove_copies_overlap :
    (memmove (fun a => if a = 4096 then 1 else if a = 4097 then 2 else 0) 4097 4096 2).1
      (4097 + BitVec.ofNat 32 1) = 2 :=
  (memmove_copies (fun a => if a = 4096 then 1 else if a = 4097 then 2 else 0) 4097 4096 2 (by decide)
    (by decide)).1 1 (by decide)

end Xv6.Kernel
