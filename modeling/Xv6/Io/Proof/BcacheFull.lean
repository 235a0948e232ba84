import Xv6.Io.Proof.BcacheInv
import Xv6.Kernel.Param

/-!
# Running out of buffers

Every process that reads a block keeps its buffer while it sleeps in the disk driver, so `NBUF`
processes that read different blocks use up all buffers, and the next `bget` panics. It does not if
its block is cached or fewer than `NBUF` buffers are in use or pinned by the log.
-/

namespace Xv6.Bcache

open Lib

section
variable {P D : Type} [Fintype P]

/-- The buffers that a process holds, waits for or is releasing, and those that the log has
pinned. -/
def taken (s : State P D) : Finset (Fin nbuf) :=
  Finset.univ.filter fun b => (∃ p, 0 < uses b (s.pc p, s.held p)) ∨ (s.buf b).dirty = true

/-- A `bget` is of a block that is cached, or comes when fewer than `NBUF` buffers are taken. -/
def Room (s : State P D) : Act P D → Prop
  | .bget _ k => (∃ b, (s.buf b).key = k) ∨ (taken s).card < nbuf
  | _ => True

instance (s : State P D) (a : Act P D) : Decidable (Room s a) := by
  cases a <;> unfold Room <;> infer_instance

theorem Counted.recyclable {s : State P D} (h : Counted s) (hroom : (taken s).card < nbuf) :
    ∃ b, (s.buf b).refcnt = 0 ∧ (s.buf b).dirty = false := by
  have hcard : (taken s).card < (Finset.univ : Finset (Fin nbuf)).card := by simpa using hroom
  obtain ⟨b, -, hb⟩ := Finset.exists_mem_notMem_of_card_lt_card hcard
  simp only [taken, Finset.mem_filter, Finset.mem_univ, true_and, not_or, not_exists, Nat.not_lt,
    Nat.le_zero, Bool.not_eq_true] at hb
  exact ⟨b, (h b).trans (tally_eq_zero.2 hb.1), hb.2⟩

variable [DecidableEq P]

theorem bget_panic {s s' : State P D} {a : Act P D} (hi : Inv s) (hs : step s a = some s')
    (hok : Room s a) : s'.panicked ≠ some "bget: no buffers" := by
  obtain ⟨hp, hm⟩ := step_move hs
  intro hpan
  cases a with
  | bget p k =>
    unfold step at hs
    rw [if_neg (by simpa using hp)] at hs
    simp only [Option.ite_none_right_eq_some, Option.some.injEq] at hs
    obtain ⟨-, rfl⟩ := hs
    unfold bget at hpan
    split at hpan
    · rw [show s.panicked = _ from hpan] at hp
      cases hp
    · next hmiss =>
      split at hpan
      · rw [show s.panicked = _ from hpan] at hp
        cases hp
      · next hno =>
        rcases hok with ⟨b, hk⟩ | hroom
        · simpa [hk] using List.find?_eq_none.1 hmiss b (hi.users.lru b)
        · obtain ⟨b, hb1, hb2⟩ := hi.counted.recyclable hroom
          have := List.find?_eq_none.1 hno b (List.mem_reverse.2 (hi.users.lru b))
          simp [hb1, hb2] at this
  | _ =>
    unfold step lockBuf iderw decref State.setBuf State.setPc State.setHeld State.setChanged at hs
    grind

/-- **`bget` finds a buffer** in every run in which each `bget` of a block that is not cached is
called when the buffers that a process holds, waits for or is releasing or that the log has pinned
are fewer than `NBUF`. -/
theorem bget_finds_buffer (disk : Key → D) (junk : D) (as : List (Act P D)) (s : State P D)
    (h : run step (init disk junk) as = some s) (hok : Along step Room (init disk junk) as) :
    s.panicked ≠ some "bget: no buffers" := by
  refine (run_inv_along (P := fun s => Inv s ∧ s.panicked ≠ some "bget: no buffers")
    (fun s a s' hi ha hs => ?_) ⟨init_inv disk junk, nofun⟩ h hok).2
  exact ⟨(step_move hs).2.inv hi.1, bget_panic hi.1 hs ha⟩

end

def twoReaders : List (Act (Fin 2) Nat) := [.bget 0 (1, 5), .bget 1 (1, 6)]

theorem bget_finds_buffer_twoReaders :
    ∃ s, run step (init (fun _ => 7) 0) twoReaders = some s ∧
      s.panicked ≠ some "bget: no buffers" := by
  have h : (run step (init (fun _ => 7) 0) twoReaders).isSome := by decide +kernel
  obtain ⟨s, hs⟩ := Option.isSome_iff_exists.1 h
  exact ⟨s, hs, bget_finds_buffer _ _ _ s hs (by decide +kernel)⟩

/-- `NBUF` processes, each with its own block. -/
def manyReaders : List (Act (Fin nproc) Nat) :=
  (List.range nbuf).flatMap fun i =>
    [.bget (Fin.ofNat nproc i) (1, 100 + i), .acquire (Fin.ofNat nproc i)]

/-- One more reader, and `bget` panics. -/
theorem bget_no_buffers :
    (run step (init (fun _ => 7) 0) (manyReaders ++ [.bget 30 (1, 99)])).map (fun s => s.panicked) =
      some (some "bget: no buffers") := by
  decide +kernel

end Xv6.Bcache
