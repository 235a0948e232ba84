import Xv6.Kernel.Mp

/-!
# Which configuration tables `mpinit` gets through

An entry of a known type moves `p` on by its length; an entry of an unknown type leaves `p` where it
is, since the `break` of the default case only leaves the switch. So the loop ends if and only if
known entries lead it to the end of the table (`mpinit_ends_iff`), and the panic for an unsuitable
machine is never reached. Known entries do lead there, unless one of them runs over the end of the
address space.
-/

namespace Xv6.Mp

open Lib
open Kernel (Mem)

/-- The length of an entry of a known type. -/
def entryLen (type : UInt8) : Option Nat :=
  match type.toNat with
  | 0 => some 20
  | 1 | 2 | 3 | 4 => some 8
  | _ => none

/-- The entries from `p` on, each after the one before it, come to one at `q`, before the end
`e`. -/
inductive Walk (mem : Mem) (e : Ptr) : Ptr → Ptr → Prop
  | here {p : Ptr} : p < e → Walk mem e p p
  | next {p q : Ptr} {n : Nat} :
      p < e → entryLen (mem p) = some n → Walk mem e (p + BitVec.ofNat 32 n) q → Walk mem e p q

/-- The entries from `p` on are all of known types up to the end `e`. -/
inductive ToEnd (mem : Mem) (e : Ptr) : Ptr → Prop
  | here {p : Ptr} : ¬ p < e → ToEnd mem e p
  | next {p : Ptr} {n : Nat} :
      p < e → entryLen (mem p) = some n → ToEnd mem e (p + BitVec.ofNat 32 n) → ToEnd mem e p

/-- The walk over the table comes to an entry of an unknown type. -/
def UnknownEntry (mem : Mem) (conf : Ptr) : Prop :=
  ∃ q, Walk mem (tableEnd mem conf) (conf + 44) q ∧ entryLen (mem q) = none

/-- No entry of the walk over the table runs over the end of the address space. -/
def NoWrap (mem : Mem) (conf : Ptr) : Prop :=
  ∀ q n, Walk mem (tableEnd mem conf) (conf + 44) q → entryLen (mem q) = some n →
    q.toNat + n < 2 ^ 32

/-- `mpinit` as it is meant: it ends, with `ncpu` in bounds, and panics if an entry is unknown. -/
def MpinitOk (mem : Mem) (conf : Ptr) : Prop :=
  ∃ n s r, mpinit mem n = some (s, r) ∧ s.ncpu ≤ ncpuMax ∧
    (UnknownEntry mem conf → r = .panic "Didn't find a suitable machine")

section
variable {mem : Mem} {e : Ptr} {s : Scan}

theorem Walk.lt {p q : Ptr} (h : Walk mem e p q) : p < e := by
  cases h with
  | here h | next h => exact h

theorem entry_known {n : Nat} (h : entryLen (mem s.p) = some n) :
    (entry mem s).p = s.p + BitVec.ofNat 32 n ∧ n ∈ [8, 20] := by
  unfold entryLen at h
  unfold entry
  split at h
  all_goals simp_all
  unfold mpproc
  split <;> simp [← h]

theorem entry_unknown (h : entryLen (mem s.p) = none) : entry mem s = { s with ismp := false } := by
  unfold entryLen at h
  unfold entry
  split at h <;> simp_all

theorem entry_ncpu (hs : s.ncpu ≤ ncpuMax) : (entry mem s).ncpu ≤ ncpuMax := by
  unfold entry
  split
  · unfold mpproc
    split
    · assumption
    · exact hs
  all_goals exact hs

/-- **No way past an unknown entry.** -/
theorem entries_endless {q : Ptr} (hw : Walk mem e s.p q) (hq : entryLen (mem q) = none) (n : Nat) :
    entries mem e n s = none := by
  apply loop_endless (I := fun s => Walk mem e s.p q)
  · intro s hw
    refine ⟨by simpa using hw.lt, ?_⟩
    cases hw with
    | here hlt =>
      rw [entry_unknown hq]
      exact .here hlt
    | next hlt hn hw =>
      rw [(entry_known hn).1]
      exact hw
  · exact hw

/-- **Known entries lead to the end**, `e - p` getting smaller where none of them wraps. -/
theorem entries_end (hk : ∀ q, Walk mem e s.p q → ∃ n, entryLen (mem q) = some n ∧
    q.toNat + n < 2 ^ 32) :
    ∃ n s', entries mem e n s = some s' := by
  apply loop_ends (I := fun s => ∀ q, Walk mem e s.p q → ∃ n, entryLen (mem q) = some n ∧
    q.toNat + n < 2 ^ 32) fun s => e.toNat - s.p.toNat
  · intro s hk hc
    have hlt : s.p < e := by simpa using hc
    obtain ⟨n, hn, hw⟩ := hk s.p (.here hlt)
    obtain ⟨hp, hmem⟩ := entry_known hn
    rw [hp]
    refine ⟨fun q hw => hk q (.next hlt hn hw), ?_⟩
    rw [BitVec.lt_def] at hlt
    have hn' : n = 8 ∨ n = 20 := by simpa using hmem
    rw [BitVec.toNat_add, BitVec.toNat_ofNat]
    omega
  · exact hk

/-- The loop ends only where known entries lead to: past an unknown one `p` is the same. -/
theorem toEnd_of_entries : ∀ {n : Nat} {s s' : Scan}, entries mem e n s = some s' → ToEnd mem e s.p
  | n + 1, s, s', h => by
    rw [entries, loop] at h
    split at h
    · next hc =>
      have ih := toEnd_of_entries h
      cases hn : entryLen (mem s.p) with
      | none => rwa [entry_unknown hn] at ih
      | some k =>
        rw [(entry_known hn).1] at ih
        exact .next (by simpa using hc) hn ih
    · next hc => exact .here (by simpa using hc)

theorem ToEnd.entries {p : Ptr} (h : ToEnd mem e p) :
    ∀ s : Scan, s.p = p → ∃ n s', entries mem e n s = some s' := by
  induction h with
  | here hlt =>
    rintro s rfl
    exact ⟨1, s, by rw [Mp.entries, loop, if_neg (by simpa using hlt)]⟩
  | next hlt hn _ ih =>
    rintro s rfl
    obtain ⟨n, s', h⟩ := ih (entry mem s) (entry_known hn).1
    refine ⟨n + 1, s', ?_⟩
    rw [Mp.entries, loop, if_pos (by simpa using hlt)]
    exact h

theorem entries_ncpu {n : Nat} {s' : Scan} (hs : s.ncpu ≤ ncpuMax)
    (h : entries mem e n s = some s') :
    s'.ncpu ≤ ncpuMax :=
  loop_inv (I := fun s => s.ncpu ≤ ncpuMax) (fun _ hs _ => entry_ncpu hs) hs h

end

theorem mpinit_endless {mem : Mem} {mp conf : Ptr} (hc : mpconfig mem = some (mp, conf))
    (hu : UnknownEntry mem conf) (n : Nat) : mpinit mem n = none := by
  obtain ⟨q, hw, hq⟩ := hu
  simp only [mpinit, hc, entries_endless (s := start (conf + 44)) hw hq n]
  rfl

theorem mpinit_eq {mem : Mem} {mp conf : Ptr} (hc : mpconfig mem = some (mp, conf)) (n : Nat) :
    (mpinit mem n).map Prod.fst = entries mem (tableEnd mem conf) n (start (conf + 44)) := by
  simp only [mpinit, hc, Option.bind_eq_bind]
  cases entries mem (tableEnd mem conf) n (start (conf + 44)) with
  | none => rfl
  | some s =>
    rw [Option.bind_some]
    split <;> rfl

/-- **`mpinit` on an accepted table**: the loop ends as it should if and only if known entries lead
to the end of the table; with an entry of an unknown type it never ends. -/
theorem mpinit_ends_iff (mem : Mem) (mp conf : Ptr) (hc : mpconfig mem = some (mp, conf)) :
    (MpinitOk mem conf ↔ ToEnd mem (tableEnd mem conf) (conf + 44)) ∧
      (UnknownEntry mem conf → ∀ n, mpinit mem n = none) ∧
      (NoWrap mem conf → (MpinitOk mem conf ↔ ¬ UnknownEntry mem conf)) := by
  have hok : MpinitOk mem conf → ¬ UnknownEntry mem conf := fun ⟨n, s, r, h, _⟩ hu => by
    rw [mpinit_endless hc hu n] at h
    cases h
  have hend : MpinitOk mem conf ↔ ToEnd mem (tableEnd mem conf) (conf + 44) := by
    refine ⟨fun ⟨n, s, r, h, _⟩ => ?_, fun h => ?_⟩
    · have hs := mpinit_eq hc n
      rw [h] at hs
      exact toEnd_of_entries hs.symm
    · obtain ⟨n, s, hs⟩ := h.entries (start (conf + 44)) rfl
      obtain ⟨⟨s', r⟩, hr, rfl⟩ := Option.map_eq_some_iff.1 ((mpinit_eq hc n).trans hs)
      refine ⟨n, s', r, hr, entries_ncpu (Nat.zero_le _) hs, fun hu => ?_⟩
      rw [mpinit_endless hc hu n] at hr
      cases hr
  refine ⟨hend, fun hu n => mpinit_endless hc hu n, fun hw => ⟨hok, fun hk => hend.2 ?_⟩⟩
  obtain ⟨n, s, hs⟩ := entries_end (s := start (conf + 44)) fun q hq => by
    obtain ⟨k, hn⟩ := Option.ne_none_iff_exists'.1 fun hn => hk ⟨q, hq, hn⟩
    exact ⟨k, hn, hw q k hq hn⟩
  exact toEnd_of_entries hs

/-- The structure at physical address `0x1000` and a table with one entry, of the given type, at
`0x2000`. -/
def oneEntry (type : UInt8) : Mem := fun a =>
  match a with
  | 0x8000040F => 1
  | 0x80001000 | 0x80001003 => 0x5f
  | 0x80001001 => 0x4d
  | 0x80001002 => 0x50
  | 0x80001005 => 0x20
  | 0x80001008 => 1
  | 0x80001009 => 4
  | 0x8000100A => 0x80
  | 0x80002000 | 0x80002003 => 0x50
  | 0x80002001 => 0x43
  | 0x80002002 => 0x4d
  | 0x80002004 => 52
  | 0x80002006 => 4
  | 0x80002007 => 0x98 - type
  | 0x8000202C => type
  | _ => 0

/-- A table with one bus. -/
theorem mpinit_ends_iff_bus : MpinitOk (oneEntry 1) 0x80002000 :=
  (mpinit_ends_iff (oneEntry 1) 0x80001000 0x80002000 (by decide +kernel)).1.2
    (.next (n := 8) (by decide +kernel) (by decide +kernel) (.here (by decide +kernel)))

/-- A table with one entry of type 5: the loop does not end. -/
theorem mpinit_loops_forever :
    mpconfig (oneEntry 5) = some (0x80001000, 0x80002000) ∧ UnknownEntry (oneEntry 5) 0x80002000 ∧
      (∀ n, mpinit (oneEntry 5) n = none) ∧ ¬ MpinitOk (oneEntry 5) 0x80002000 := by
  have hc : mpconfig (oneEntry 5) = some (0x80001000, 0x80002000) := by decide +kernel
  have hu : UnknownEntry (oneEntry 5) 0x80002000 :=
    ⟨0x8000202C, .here (by decide +kernel), by decide +kernel⟩
  refine ⟨hc, hu, mpinit_endless hc hu, fun ⟨n, s, r, h, _⟩ => ?_⟩
  rw [mpinit_endless hc hu n] at h
  cases h

end Xv6.Mp
