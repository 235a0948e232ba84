import Xv6.Kernel.Param
import Xv6.Kernel.String

/-!
# The user library

`strchr` and `memmove` of `ulib.c`. `memmove` has the name and the contract of the kernel's, and
only one of its two loops: the bytes are copied from the start up, whatever the ranges. It agrees
with the kernel's unless the target starts inside the source, past its first byte.
-/

namespace Xv6.Ulib

open Lib
open Kernel (Mem NoWrap)

/-- `memmove` of `ulib.c`: the memory after it, and what it returns. Addresses are those of the
memory it works on. -/
def memmove {A : Type*} [DecidableEq A] [Add A] [One A] (mem : A → UInt8)
    (vdst vsrc : A) (n : Int) :
    (A → UInt8) × A :=
  (copyUp n.toNat mem vdst vsrc, vdst)

/-- `strchr(s, c)`: the address of `c` or the null pointer; `none` if the string does not end within
`n` bytes. -/
def strchr (mem : Nat → UInt8) (c : UInt8) : Nat → Nat → Option (Option Nat)
  | 0, _ => none
  | n + 1, s =>
    if mem s = 0 then some none
    else if mem s = c then some (some s)
    else strchr mem c n (s + 1)

theorem copyUp_overlap (mem : Mem) {vdst vsrc : BitVec 32} {k n : Nat} (hd : NoWrap vdst n)
    (hk : vdst = vsrc + (k : BitVec 32)) (h0 : 0 < k) (hkn : k < n) :
    copyUp n mem vdst vsrc (vdst + (k : BitVec 32)) = mem vsrc := by
  have hinj : ∀ i j : Nat, i < j → j < n → vdst + (j : BitVec 32) ≠ vdst + (i : BitVec 32) := by
    intro i j hij hj he
    have := congrArg BitVec.toNat he
    rw [hd.add_toNat hj, hd.add_toNat (hij.trans hj)] at this
    omega
  have hfirst := moves_pairs_at mem (s := vsrc) (fun i j hij hj => hinj i j hij (hj.trans hkn)) h0
  rw [copyUp_eq, moves_pairs_at mem hinj hkn, ← hk]
  simpa [pairs] using hfirst

/-- **The two `memmove`s**: they leave the same memory for every content, unless the target starts
inside the source, past its first byte. -/
theorem memmove_agrees_iff (vdst vsrc : BitVec 32) (n : Int) (h0 : 0 ≤ n) (hmax : n ≤ intMax)
    (hs : NoWrap vsrc n.toNat) (hd : NoWrap vdst n.toNat) :
    (∀ mem : Mem, memmove mem vdst vsrc n = Kernel.memmove mem vdst vsrc (BitVec.ofInt 32 n)) ↔
      ¬ (vsrc.toNat < vdst.toNat ∧ vdst.toNat < vsrc.toNat + n.toNat) := by
  have hn : (BitVec.ofInt 32 n).toNat = n.toNat := by
    rw [BitVec.toNat_ofInt]
    unfold intMax at hmax
    omega
  constructor
  · intro hall hin
    obtain ⟨k, hk⟩ := Nat.exists_eq_add_of_lt hin.1
    -- a memory where the byte at the source is not the one at the target
    let mem : Mem := fun a => if a = vsrc then 1 else 0
    have hdst : vdst = vsrc + BitVec.ofNat 32 (k + 1) := by
      apply BitVec.eq_of_toNat_eq
      rw [← BitVec.natCast_eq_ofNat, hs.add_toNat (by omega), hk]
      rfl
    have hne : vdst ≠ vsrc := fun he => absurd (congrArg BitVec.toNat he) (by omega)
    have huser : (memmove mem vdst vsrc n).1 (vdst + BitVec.ofNat 32 (k + 1)) = mem vsrc :=
      copyUp_overlap mem hd hdst (Nat.succ_pos k) (by omega)
    have hkernel := Kernel.memmove_at mem (hn.symm ▸ hs) (hn.symm ▸ hd) (i := k + 1) (by omega)
    rw [← hall mem, huser, ← hdst] at hkernel
    simp [mem, hne] at hkernel
  · intro hin mem
    have hcond : ¬ (vsrc < vdst ∧ vsrc + BitVec.ofInt 32 n > vdst) := by
      simp only [BitVec.lt_def, gt_iff_lt, BitVec.toNat_add, hn]
      unfold NoWrap at hs hd
      omega
    simp only [memmove, Kernel.memmove, if_neg hcond, hn]

/-- Two bytes moved down by one, and up by one. -/
theorem memmove_agrees_iff_overlap :
    (∀ mem : Mem, memmove mem (4096 : BitVec 32) 4097 2 =
      Kernel.memmove mem 4096 4097 (BitVec.ofInt 32 2)) ∧
    ¬ ∀ mem : Mem, memmove mem (4097 : BitVec 32) 4096 2 =
      Kernel.memmove mem 4097 4096 (BitVec.ofInt 32 2) :=
  ⟨(memmove_agrees_iff 4096 4097 2 (by decide) (by decide) (by decide) (by decide)).2 (by decide),
    fun h => (memmove_agrees_iff 4097 4096 2 (by decide) (by decide) (by decide) (by decide)).1 h
      (by decide)⟩

/-- The bytes 1 and 2 moved on by one come out as 1 and 1, where the kernel has 1 and 2. -/
theorem memmove_smears :
    ∃ mem : Mem, mem 4096 = 1 ∧ mem 4097 = 2 ∧
      (memmove mem (4097 : BitVec 32) 4096 2).1 4098 = 1 ∧
      (Kernel.memmove mem 4097 4096 2).1 4098 = 2 :=
  ⟨fun a => if a = 4096 then 1 else if a = 4097 then 2 else 0, by decide⟩

end Xv6.Ulib
