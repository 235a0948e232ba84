import Xv6.Fs.Dir
import Mathlib.Data.List.TakeWhile

/-!
# Names

Of a string that names a directory entry only the bytes before its end count, and of these only the
first `DIRSIZ`: `cut`. `namecmp` compares, and `strncpy` copies, exactly that part.
-/

namespace Xv6.Fs

/-- A string in a field of `n` bytes. -/
def cutAt (n : Nat) (t : List UInt8) : List UInt8 := (t.take n).takeWhile (· ≠ 0)

/-- What a directory keeps of a name. -/
abbrev cut (t : List UInt8) : List UInt8 := cutAt dirsiz t

theorem cutAt_succ (n : Nat) (t : List UInt8) :
    cutAt (n + 1) t = if t.headD 0 = 0 then [] else t.headD 0 :: cutAt n t.tail := by
  cases t with
  | nil => rfl
  | cons b t =>
    by_cases hb : b = 0
    · simp [cutAt, hb]
    · simp [cutAt, hb]

theorem cutAt_eq_self {n : Nat} {t : List UInt8} (h : ∀ b ∈ t, b ≠ 0) (hl : t.length ≤ n) :
    cutAt n t = t := by
  unfold cutAt
  rw [List.take_of_length_le hl, List.takeWhile_eq_self_iff]
  simpa using h

theorem strncmp_eq_zero : ∀ {n : Nat} {p q : List UInt8},
    strncmp n p q = 0 ↔ cutAt n p = cutAt n q
  | 0, p, q => by simp [strncmp, cutAt]
  | n + 1, p, q => by
    have ih := @strncmp_eq_zero n p.tail q.tail
    rw [strncmp, cutAt_succ, cutAt_succ]
    generalize p.headD 0 = a
    generalize q.headD 0 = b
    by_cases hab : a = b
    · subst hab
      by_cases h0 : a = 0
      · simp [h0]
      · simp [h0, ih]
    · -- the first bytes differ; at most one of them is the end
      have hne : a.toNat ≠ b.toNat := fun h => hab (UInt8.toNat_inj.1 h)
      rw [if_neg fun h => hab h.2]
      refine iff_of_false (by omega) fun h => hab ?_
      by_cases h0 : a = 0
      · rw [if_pos h0] at h
        by_cases h1 : b = 0
        · rw [h0, h1]
        · rw [if_neg h1] at h
          cases h
      · rw [if_neg h0] at h
        by_cases h1 : b = 0
        · rw [if_pos h1] at h
          cases h
        · rw [if_neg h1] at h
          exact (List.cons.inj h).1

theorem namecmp_eq_zero {s t : List UInt8} : namecmp s t = 0 ↔ cut s = cut t := strncmp_eq_zero

theorem strncpy_length : ∀ (n : Nat) (t : List UInt8), (strncpy t n).length = n
  | 0, _ => rfl
  | n + 1, t => by
    unfold strncpy
    split
    · exact List.length_replicate
    · rw [List.length_cons, strncpy_length n]

theorem cutAt_strncpy : ∀ (n : Nat) (t : List UInt8), cutAt n (strncpy t n) = cutAt n t
  | 0, _ => rfl
  | n + 1, t => by
    rw [cutAt_succ n t, strncpy]
    by_cases h0 : t.headD 0 = 0
    · rw [if_pos h0, if_pos h0, cutAt_succ]
      rfl
    · rw [if_neg h0, if_neg h0, cutAt_succ, List.headD_cons, if_neg h0, List.tail_cons,
        cutAt_strncpy n]

theorem strncpy_congr : ∀ {n : Nat} {t t' : List UInt8}, cutAt n t = cutAt n t' →
    strncpy t n = strncpy t' n
  | 0, _, _, _ => rfl
  | n + 1, t, t', h => by
    rw [cutAt_succ, cutAt_succ] at h
    rw [strncpy, strncpy]
    by_cases h0 : t.headD 0 = 0
    · by_cases h1 : t'.headD 0 = 0
      · rw [if_pos h0, if_pos h1]
      · rw [if_pos h0, if_neg h1] at h
        cases h
    · by_cases h1 : t'.headD 0 = 0
      · rw [if_neg h0, if_pos h1] at h
        cases h
      · rw [if_neg h0, if_neg h1] at h
        rw [if_neg h0, if_neg h1, (List.cons.inj h).1, strncpy_congr (List.cons.inj h).2]

theorem Dirent.length_link (inum : Nat) (name : List UInt8) :
    (Dirent.bytes ⟨inum, strncpy name dirsiz⟩).length = deSize := by
  rw [Dirent.bytes, List.length_append, Lib.leBytes_length, strncpy_length]

theorem Dirent.ofBytes_bytes (de : Dirent) :
    Dirent.ofBytes de.bytes = ⟨de.inum % 2 ^ 16, de.name⟩ := by
  unfold Dirent.ofBytes Dirent.bytes
  rw [Lib.take_leBytes, Lib.drop_leBytes (Nat.le_refl 2), Lib.leNat_leBytes_mod]
  rfl

end Xv6.Fs
