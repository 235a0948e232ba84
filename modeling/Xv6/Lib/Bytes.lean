import Mathlib.Data.List.GetD
import Mathlib.Tactic.Ring

/-!
# Bytes in memory

Little-endian numbers as lists of bytes (`leNat`, `leBytes`), and reading and overwriting a range of
bytes of a memory `Nat → UInt8` (`readRange`, `writeRange`). A range read back after a write is what
was written, if it is the written range, and what was there before, if the two ranges do not meet.
-/

namespace Lib

/-- The number with the bytes `bs`, the lowest first. -/
def leNat : List UInt8 → Nat
  | [] => 0
  | b :: bs => b.toNat + 256 * leNat bs

/-- The `n` lowest bytes of `v`, the lowest first. -/
def leBytes : Nat → Nat → List UInt8
  | 0, _ => []
  | n + 1, v => UInt8.ofNat (v % 256) :: leBytes n (v / 256)

@[simp]
theorem leBytes_length : ∀ n v, (leBytes n v).length = n
  | 0, _ => rfl
  | n + 1, v => by rw [leBytes, List.length_cons, leBytes_length n]

theorem take_leBytes (n v : Nat) (l : List UInt8) : (leBytes n v ++ l).take n = leBytes n v :=
  List.take_left' (leBytes_length n v)

theorem drop_leBytes {n m : Nat} (h : n ≤ m) (v : Nat) (l : List UInt8) :
    (leBytes n v ++ l).drop m = l.drop (m - n) := by
  rw [List.drop_append, leBytes_length, List.drop_of_length_le (by rwa [leBytes_length]),
    List.nil_append]

theorem leNat_leBytes_mod : ∀ n v : Nat, leNat (leBytes n v) = v % 256 ^ n
  | 0, v => by simp [leBytes, leNat, Nat.mod_one]
  | n + 1, v => by
    have hb : (UInt8.ofNat (v % 256)).toNat = v % 256 :=
      UInt8.toNat_ofNat_of_lt' (Nat.mod_lt _ (by decide))
    rw [leBytes, leNat, leNat_leBytes_mod n, hb, Nat.pow_succ', Nat.mod_mul]

theorem leNat_leBytes {n v : Nat} (h : v < 256 ^ n) : leNat (leBytes n v) = v := by
  rw [leNat_leBytes_mod, Nat.mod_eq_of_lt h]

theorem leNat_lt : ∀ bs : List UInt8, leNat bs < 256 ^ bs.length
  | [] => by simp [leNat]
  | b :: bs => by
    have h := leNat_lt bs
    have hb := b.toNat_lt
    rw [leNat, List.length_cons, Nat.pow_succ]
    omega

/-- The `m` bytes from `off` on. -/
def readRange (mem : Nat → UInt8) (off m : Nat) : List UInt8 :=
  (List.range m).map fun k => mem (off + k)

/-- The memory with the bytes `src` from `off` on. -/
def writeRange (mem : Nat → UInt8) (off : Nat) (src : List UInt8) : Nat → UInt8 := fun x =>
  if off ≤ x then src.getD (x - off) (mem x) else mem x

section
variable {mem : Nat → UInt8} {off m : Nat} {src : List UInt8}
variable {x k : Nat} {mem' : Nat → UInt8} {s old : List UInt8}

@[simp]
theorem readRange_length : (readRange mem off m).length = m := by simp [readRange]

theorem writeRange_of_lt (h : x < off) : writeRange mem off src x = mem x := by
  rw [writeRange, if_neg (by omega)]

theorem writeRange_of_ge (h : off + src.length ≤ x) :
    writeRange mem off src x = mem x := by
  rw [writeRange, if_pos (by omega), List.getD_eq_default _ _ (by omega)]

theorem writeRange_add (h : k < src.length) :
    writeRange mem off src (off + k) = src[k] := by
  rw [writeRange, if_pos (by omega), Nat.add_sub_cancel_left, List.getD_eq_getElem _ _ h]

theorem readRange_congr (h : ∀ k < m, mem' (off + k) = mem (off + k)) :
    readRange mem' off m = readRange mem off m :=
  List.map_congr_left fun k hk => h k (List.mem_range.1 hk)

theorem readRange_append (n : Nat) :
    readRange mem off m ++ readRange mem (off + m) n = readRange mem off (m + n) := by
  simp [readRange, List.range_add, Nat.add_assoc]

theorem readRange_writeRange : readRange (writeRange mem off src) off src.length = src := by
  apply List.ext_getElem (by simp)
  intro k h1 h2
  simp [readRange, writeRange_add h2]

theorem writeRange_append (src' : List UInt8) :
    writeRange (writeRange mem off src) (off + src.length) src' =
      writeRange mem off (src ++ src') := by
  funext x
  unfold writeRange
  by_cases h1 : off ≤ x
  · by_cases h2 : off + src.length ≤ x
    · rw [if_pos h2, if_pos h1, if_pos h1, List.getD_eq_default src _ (by omega),
        List.getD_append_right _ _ _ _ (by omega), Nat.sub_sub]
    · rw [if_neg h2, if_pos h1, if_pos h1, List.getD_append _ _ _ _ (by omega)]
  · rw [if_neg (by omega), if_neg h1, if_neg h1]

theorem readRange_take (h : k ≤ m) : (readRange mem off m).take k = readRange mem off k := by
  simp [readRange, ← List.map_take, List.take_range, Nat.min_eq_left h]

theorem readRange_drop (k : Nat) :
    (readRange mem off m).drop k = readRange mem (off + k) (m - k) := by
  apply List.ext_getElem (by simp)
  intro j h1 h2
  simp [readRange, Nat.add_assoc]

/-- The bytes `s` are in memory from `off` on. -/
def Stored (mem : Nat → UInt8) (off : Nat) (s : List UInt8) : Prop := readRange mem off s.length = s

theorem stored_append {t : List UInt8} :
    Stored mem off (s ++ t) ↔ Stored mem off s ∧ Stored mem (off + s.length) t := by
  unfold Stored
  rw [List.length_append, ← readRange_append]
  exact ⟨fun h => List.append_inj h (by simp), fun ⟨h1, h2⟩ => by rw [h1, h2]⟩

theorem stored_cons {b : UInt8} :
    Stored mem off (b :: s) ↔ mem off = b ∧ Stored mem (off + 1) s := by
  rw [← List.singleton_append, stored_append]
  simp [Stored, readRange]

theorem Stored.congr (h : Stored mem off s)
    (hm : ∀ x, off ≤ x → x < off + s.length → mem' x = mem x) : Stored mem' off s :=
  (readRange_congr fun _ hk => hm _ (Nat.le_add_right ..) (Nat.add_lt_add_left hk _)).trans h

theorem stored_writeRange : Stored (writeRange mem off src) off src := readRange_writeRange

/-- The list with `src` in the place of the elements from `off` on, longer if need be. -/
def splice (old : List UInt8) (off : Nat) (src : List UInt8) : List UInt8 :=
  old.take off ++ src ++ old.drop (off + src.length)

theorem readRange_splice (h : off ≤ m) :
    readRange (writeRange mem off src) 0 (max m (off + src.length)) =
      splice (readRange mem 0 m) off src := by
  have hmax : max m (off + src.length) = off + (src.length + (m - (off + src.length))) := by omega
  have hlow : readRange (writeRange mem off src) 0 off = readRange mem 0 off :=
    readRange_congr fun k hk => writeRange_of_lt (by omega)
  have hhigh : ∀ n, readRange (writeRange mem off src) (off + src.length) n =
      readRange mem (off + src.length) n := fun n =>
    readRange_congr fun k _ => writeRange_of_ge (by omega)
  rw [hmax, ← readRange_append, hlow, Nat.zero_add, ← readRange_append, readRange_writeRange, hhigh,
    splice, readRange_take h, readRange_drop, Nat.zero_add, List.append_assoc]

theorem splice_nil (old : List UInt8) (off : Nat) : splice old off [] = old := by simp [splice]

theorem splice_append (h : off ≤ old.length) (src' : List UInt8) :
    splice (splice old off src) (off + src.length) src' = splice old off (src ++ src') := by
  have hlen : (old.take off ++ src).length = off + src.length := by simp [h]
  have htake : (splice old off src).take (off + src.length) = old.take off ++ src := by
    rw [splice, ← hlen, List.take_left]
  have hdrop : (splice old off src).drop (off + src.length + src'.length) =
      old.drop (off + src.length + src'.length) := by
    rw [splice, ← List.drop_drop, ← hlen, List.drop_left, hlen, List.drop_drop]
  rw [splice, htake, hdrop, splice]
  simp [Nat.add_assoc]

theorem splice_read (h : off ≤ old.length) (src₁ src₂ : List UInt8) :
    ((splice old off (src₁ ++ (src ++ src₂))).drop (off + src₁.length)).take src.length = src := by
  have hlen : (old.take off ++ src₁).length = off + src₁.length := by simp [h]
  rw [splice, ← List.append_assoc (old.take off), List.append_assoc (old.take off ++ src₁), ← hlen,
    List.drop_left, List.append_assoc, List.take_left]

end

end Lib
