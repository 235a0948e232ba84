import Mathlib.Data.Nat.ModEq
import Mathlib.Logic.Function.Basic

/-!
# Ring buffers with free-running counters

`N` cells and two counters of `w` bits, which are only ever counted up and wrap at `2 ^ w`: the
number of elements read and the number written. A counter names the cell of its residue mod `N`,
and `nwrite - nread` is the number of elements in the buffer. `Holds r q`: the buffer `r` holds the
queue `q`. When `N` divides `2 ^ w` the cells stay in step as the counters wrap, and `put` and
`drop` are the two ends of the queue (`Holds.put`, `Holds.drop`); a `put` may be taken back
(`Holds.unput`).
-/

namespace Lib

/-- A ring of `N` places with two counters. -/
structure Ring (w N : Nat) (α : Type*) where
  data : Fin N → α
  nread : BitVec w
  nwrite : BitVec w

namespace Ring

variable {w N : Nat} {α : Type*} [NeZero N]

/-- The cell a counter names. -/
def cell (c : BitVec w) : Fin N := Fin.ofNat N c.toNat

/-- Store one element. -/
def put (r : Ring w N α) (a : α) : Ring w N α :=
  { r with data := Function.update r.data (cell r.nwrite) a, nwrite := r.nwrite + 1 }

/-- The next element to be read. -/
def front (r : Ring w N α) : α := r.data (cell r.nread)

/-- Remove the next element. -/
def drop (r : Ring w N α) : Ring w N α := { r with nread := r.nread + 1 }

/-- The buffer holds the elements `q`, in the order they are read. -/
structure Holds (r : Ring w N α) (q : List α) : Prop where
  le : q.length ≤ N
  nwrite : r.nwrite = r.nread + BitVec.ofNat w q.length
  data : ∀ (i : Nat) (h : i < q.length), r.data (cell (r.nread + BitVec.ofNat w i)) = q[i]

theorem Holds.empty (data : Fin N → α) (c : BitVec w) : Holds ⟨data, c, c⟩ [] :=
  ⟨Nat.zero_le _, by simp, nofun⟩

theorem ofNat_succ (i : Nat) : BitVec.ofNat w (i + 1) = 1 + BitVec.ofNat w i := by
  rw [Nat.add_comm, BitVec.ofNat_add]
  rfl

section
variable {r : Ring w N α} {q : List α}

theorem Holds.dist (h : Holds r q) : r.nwrite - r.nread = BitVec.ofNat w q.length := by
  rw [h.nwrite, BitVec.add_comm, BitVec.add_sub_cancel]

variable (hlt : N < 2 ^ w)
include hlt

theorem Holds.dist_toNat (h : Holds r q) : (r.nwrite - r.nread).toNat = q.length := by
  rw [h.dist, BitVec.toNat_ofNat, Nat.mod_eq_of_lt (Nat.lt_of_le_of_lt h.le hlt)]

theorem Holds.length_eq_iff (h : Holds r q) {n : Nat} (hn : n ≤ N) :
    r.nwrite = r.nread + BitVec.ofNat w n ↔ q.length = n := by
  rw [h.nwrite, BitVec.add_right_inj]
  constructor
  · intro he
    have := congrArg BitVec.toNat he
    simpa [Nat.mod_eq_of_lt (Nat.lt_of_le_of_lt h.le hlt),
      Nat.mod_eq_of_lt (Nat.lt_of_le_of_lt hn hlt)] using this
  · rintro rfl
    rfl

theorem Holds.full_iff (h : Holds r q) : r.nwrite = r.nread + BitVec.ofNat w N ↔ q.length = N :=
  h.length_eq_iff hlt (Nat.le_refl N)

theorem Holds.empty_iff (h : Holds r q) : r.nread = r.nwrite ↔ q = [] := by
  have h0 := h.length_eq_iff hlt (Nat.zero_le N)
  rw [BitVec.add_zero] at h0
  rw [eq_comm, h0, List.length_eq_zero_iff]

end

section
variable {r : Ring w N α} {q : List α} (hdvd : N ∣ 2 ^ w)
include hdvd

theorem cell_add (c : BitVec w) (i : Nat) :
    (cell (c + BitVec.ofNat w i) : Fin N) = Fin.ofNat N (c.toNat + i) := by
  apply Fin.ext
  simp only [cell, Fin.val_ofNat, BitVec.toNat_add, BitVec.toNat_ofNat]
  rw [Nat.mod_mod_of_dvd _ hdvd, Nat.add_mod, Nat.mod_mod_of_dvd _ hdvd, ← Nat.add_mod]

theorem cell_ne (c : BitVec w) {i j : Nat} (hij : i < j) (hj : j - i < N) :
    (cell (c + BitVec.ofNat w i) : Fin N) ≠ cell (c + BitVec.ofNat w j) := by
  rw [cell_add hdvd, cell_add hdvd]
  intro he
  have hmod : c.toNat + i ≡ c.toNat + j [MOD N] := congrArg Fin.val he
  have hdiv := (Nat.modEq_iff_dvd' (by omega)).1 hmod
  have := Nat.le_of_dvd (by omega) hdiv
  omega

/-- **Storing** appends to the queue. -/
theorem Holds.put (h : Holds r q) (hq : q.length < N) (a : α) : Holds (r.put a) (q ++ [a]) := by
  refine ⟨by rw [List.length_append]; exact hq, ?_, fun i hi => ?_⟩
  · rw [List.length_append, List.length_singleton, ofNat_succ, Ring.put, h.nwrite]
    simp only [BitVec.add_assoc, BitVec.add_comm 1]
  · simp only [Ring.put, h.nwrite]
    rw [List.length_append, List.length_singleton] at hi
    rcases Nat.lt_succ_iff_lt_or_eq.1 hi with hi | rfl
    · rw [Function.update_of_ne (cell_ne hdvd _ hi (by omega)), h.data i hi,
        List.getElem_append_left hi]
    · rw [Function.update_self, List.getElem_concat_length rfl]

omit hdvd in
/-- **Reading** takes the front of the queue. -/
theorem Holds.drop {a : α} (h : Holds r (a :: q)) : r.front = a ∧ Holds r.drop q := by
  refine ⟨?_, ⟨Nat.le_of_succ_le h.le, ?_, fun i hi => ?_⟩⟩
  · simpa [front] using h.data 0 (Nat.succ_pos _)
  · change r.nwrite = r.nread + 1 + _
    rw [h.nwrite, List.length_cons, ofNat_succ, ← BitVec.add_assoc]
  · have hi' := h.data (i + 1) (Nat.succ_lt_succ hi)
    rwa [ofNat_succ, ← BitVec.add_assoc, List.getElem_cons_succ] at hi'

end

section
variable {r : Ring w N α} {p q : List α}

theorem Holds.unput {a : α} (h : Holds r (q ++ [a])) :
    r.data (cell (r.nwrite - 1)) = a ∧ Holds { r with nwrite := r.nwrite - 1 } q := by
  have hn : r.nwrite - 1 = r.nread + BitVec.ofNat w q.length := by
    rw [h.nwrite, List.length_append, List.length_singleton, ofNat_succ, BitVec.add_comm 1,
      ← BitVec.add_assoc, BitVec.add_sub_cancel]
  have hle := h.le
  rw [List.length_append, List.length_singleton] at hle
  refine ⟨?_, by omega, hn, fun i hi => ?_⟩
  · rw [hn, h.data q.length (by simp)]
    simp
  · rw [h.data i (by simp; omega), List.getElem_append_left hi]

/-! A counter between the two divides the queue. -/

theorem Holds.left (h : Holds r (p ++ q)) :
    Holds { r with nwrite := r.nread + BitVec.ofNat w p.length } p := by
  have hle := h.le
  rw [List.length_append] at hle
  refine ⟨by omega, rfl, fun i hi => ?_⟩
  rw [h.data i (by simp; omega), List.getElem_append_left hi]

theorem Holds.right (h : Holds r (p ++ q)) :
    Holds { r with nread := r.nread + BitVec.ofNat w p.length } q := by
  have hle := h.le
  rw [List.length_append] at hle
  refine ⟨by omega, ?_, fun i hi => ?_⟩
  · rw [BitVec.add_assoc, ← BitVec.ofNat_add, ← List.length_append]
    exact h.nwrite
  · rw [BitVec.add_assoc, ← BitVec.ofNat_add, h.data (p.length + i) (by simp; omega)]
    simp

end

end Ring

end Lib
