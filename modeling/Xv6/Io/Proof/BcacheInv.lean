import Xv6.Io.Bcache
import Xv6.Lib.Tally

/-!
# The buffer cache is coherent

`refcnt` counts the processes that are using a buffer (`Counted`), so a buffer that is recycled is
not in use. `Users` is what the processes may rely on while they use one; `Coherent` says where the
data of each block is: in the one buffer that holds it, and on the disk unless that buffer is dirty
or its holder has just changed it. Each kind of step is listed once (`Move`), and keeps the three.
-/

namespace Xv6.Bcache

open Lib Function

variable {P D : Type}

/-- The references of a process to buffer `b`. -/
def uses (b : Fin nbuf) (x : Pc × List (Fin nbuf)) : Nat :=
  x.2.count b + match x.1 with
    | .locking b' _ | .reading b' _ | .releasing b' => if b' = b then 1 else 0
    | .run | .writing _ => 0

/-- What the processes say of their buffers is so. -/
structure Users (s : State P D) : Prop where
  held : ∀ p, ∀ b ∈ s.held p, (s.buf b).lock = some p ∧ (s.buf b).valid = true
  locking : ∀ p b k, s.pc p = .locking b k → (s.buf b).key = k
  reading : ∀ p b k, s.pc p = .reading b k →
    (s.buf b).key = k ∧ (s.buf b).lock = some p ∧ (s.buf b).valid = false
  writing : ∀ p b, s.pc p = .writing b → b ∈ s.held p ∧ (s.buf b).dirty = true
  locked : ∀ b p, (s.buf b).lock = some p → b ∈ s.held p ∨ s.pc p = .reading b (s.buf b).key
  changed : ∀ b, s.changed b = true → ∃ p, b ∈ s.held p
  dirty : ∀ b, (s.buf b).dirty = true → (s.buf b).valid = true
  lru : ∀ b, b ∈ s.lru
  nodup : ∀ p, (s.held p).Nodup

/-- A block has one buffer, and a valid buffer has what was last written. -/
structure Coherent (s : State P D) : Prop where
  uniq : ∀ b b', (s.buf b).key.1 ≠ 0 → (s.buf b').key = (s.buf b).key → b' = b
  data : ∀ b, (s.buf b).key.1 ≠ 0 → (s.buf b).valid = true → (s.buf b).data = s.last (s.buf b).key
  clean : ∀ b, (s.buf b).key.1 ≠ 0 → (s.buf b).dirty = false → s.changed b = false →
    s.disk (s.buf b).key = s.last (s.buf b).key
  uncached : ∀ k : Key, k.1 ≠ 0 → (∀ b, (s.buf b).key ≠ k) → s.disk k = s.last k

/-- `refcnt` counts the references. -/
def Counted [Fintype P] (s : State P D) : Prop :=
  ∀ b, (s.buf b).refcnt = tally (uses b) fun p => (s.pc p, s.held p)

/-- The invariant of the buffer cache. -/
structure Inv [Fintype P] (s : State P D) : Prop where
  counted : Counted s
  users : Users s
  coherent : Coherent s

variable [DecidableEq P]

/-- The steps of the cache, with what the code has checked. -/
inductive Move (s : State P D) : State P D → Prop
  | hit {p : P} {b : Fin nbuf} (hpc : s.pc p = .run) :
    Move s ((s.setBuf b { s.buf b with refcnt := (s.buf b).refcnt + 1 }).setPc p
      (.locking b (s.buf b).key))
  | recycle {p : P} {b : Fin nbuf} {k : Key} (hpc : s.pc p = .run)
      (hk : ∀ b ∈ s.lru, (s.buf b).key ≠ k)
      (hr : (s.buf b).refcnt = 0) (hd : (s.buf b).dirty = false) :
    Move s ((s.setBuf b
      { s.buf b with key := k, valid := false, dirty := false, refcnt := 1 }).setPc p (.locking b k))
  | noBuffers {k : Key} (hk : ∀ b ∈ s.lru, (s.buf b).key ≠ k)
      (hb : ∀ b ∈ s.lru, (s.buf b).refcnt = 0 → (s.buf b).dirty = true) :
    Move s { s with panicked := some "bget: no buffers" }
  | bread {p : P} {b : Fin nbuf} {k : Key} (hpc : s.pc p = .locking b k)
      (hl : (s.buf b).lock = none) (hv : (s.buf b).valid = true) :
    Move s (((s.setBuf b { s.buf b with lock := some p }).setHeld p (b :: s.held p)).setPc p .run)
  | lock {p : P} {b : Fin nbuf} {k : Key} (hpc : s.pc p = .locking b k)
      (hl : (s.buf b).lock = none) (hv : (s.buf b).valid = false) :
    Move s ((s.setBuf b { s.buf b with lock := some p }).setPc p (.reading b k))
  | read {p : P} {b : Fin nbuf} {k : Key} (hpc : s.pc p = .reading b k) :
    Move s (((iderw s b).setHeld p (b :: s.held p)).setPc p .run)
  | written {p : P} {b : Fin nbuf} (hpc : s.pc p = .writing b) :
    Move s (((iderw s b).setChanged b false).setPc p .run)
  | change {p : P} {b : Fin nbuf} {x : D} (hpc : s.pc p = .run) (hb : b ∈ s.held p) :
    Move s { (s.setBuf b { s.buf b with data := x }).setChanged b true with
      last := update s.last (s.buf b).key x }
  | logWrite {p : P} {b : Fin nbuf} (hpc : s.pc p = .run) (hb : b ∈ s.held p) :
    Move s ((s.setBuf b { s.buf b with dirty := true }).setChanged b false)
  | bwrite {p : P} {b : Fin nbuf} (hpc : s.pc p = .run) (hl : (s.buf b).lock = some p) :
    Move s ((s.setBuf b { s.buf b with dirty := true }).setPc p (.writing b))
  | brelse {p : P} {b : Fin nbuf} (hpc : s.pc p = .run) (hl : (s.buf b).lock = some p)
      (hc : s.changed b = false) :
    Move s (((s.setBuf b { s.buf b with lock := none }).setHeld p ((s.held p).erase b)).setPc p
      (.releasing b))
  | decref {p : P} {b : Fin nbuf} (hpc : s.pc p = .releasing b) : Move s (decref s p b)
  | panic {msg : String} (hmsg : msg ≠ "bget: no buffers") : Move s { s with panicked := some msg }

section
variable {s s' : State P D} {a : Act P D} {p : P} {b : Fin nbuf} {k : Key}

theorem bget_move (hpc : s.pc p = .run) : Move s (bget s p k) := by
  unfold bget
  split
  · next b hf =>
    have hk : (s.buf b).key = k := by simpa using List.find?_some hf
    rw [← hk]
    exact .hit hpc
  · next hno =>
    have hk : ∀ b ∈ s.lru, (s.buf b).key ≠ k :=
      fun b hb => by simpa using List.find?_eq_none.1 hno b hb
    split
    · next b hf =>
      have hb := List.find?_some hf
      simp only [decide_eq_true_eq] at hb
      exact .recycle hpc hk hb.1 hb.2
    · next hno' =>
      refine .noBuffers hk fun b hb hr => ?_
      have := List.find?_eq_none.1 hno' b (List.mem_reverse.2 hb)
      simpa [hr] using this

theorem step_move (h : step s a = some s') : s.panicked = none ∧ Move s s' := by
  unfold step at h
  split at h
  · cases h
  next hp =>
  refine ⟨by simpa using hp, ?_⟩
  cases a with
  | bget p k =>
    simp only [Option.ite_none_right_eq_some, Option.some.injEq] at h
    obtain ⟨hpc, rfl⟩ := h
    exact bget_move hpc
  | acquire p =>
    dsimp only at h
    split at h
    · next b k hpc =>
      simp only [Option.ite_none_right_eq_some, Option.some.injEq] at h
      obtain ⟨hl, rfl⟩ := h
      unfold lockBuf
      dsimp only
      split
      · next hv => exact .bread hpc hl hv
      · next hv => exact .lock hpc hl (by simpa using hv)
    · cases h
  | iderw p =>
    dsimp only at h
    split at h
    · next b k hpc =>
      cases h
      exact .read hpc
    · next b hpc =>
      cases h
      exact .written hpc
    · cases h
  | change p b x =>
    simp only [Option.ite_none_right_eq_some, Option.some.injEq] at h
    obtain ⟨⟨hpc, hb⟩, rfl⟩ := h
    exact .change hpc hb
  | logWrite p b =>
    simp only [Option.ite_none_right_eq_some, Option.some.injEq] at h
    obtain ⟨⟨hpc, hb⟩, rfl⟩ := h
    exact .logWrite hpc hb
  | bwrite p b =>
    dsimp only at h
    split at h
    · cases h
    · next hpc =>
      split at h
      · cases h
        exact .panic (by decide)
      · next hl =>
        cases h
        exact .bwrite (by simpa using hpc) (by simpa using hl)
  | brelse p b =>
    dsimp only at h
    split at h
    · cases h
    · next hpc =>
      split at h
      · cases h
        exact .panic (by decide)
      · next hl =>
        split at h
        · cases h
        · next hc =>
          cases h
          exact .brelse (by simpa using hpc) (by simpa using hl) (by simpa using hc)
  | decref p =>
    dsimp only at h
    split at h
    · next b hpc =>
      cases h
      exact .decref hpc
    · cases h

end

section
variable {s s' : State P D} {p : P} {b : Fin nbuf} {k : Key}

theorem decref_eq : decref s p b =
    { (s.setBuf b { s.buf b with refcnt := (s.buf b).refcnt - 1 }).setPc p .run with
      lru := if (s.buf b).refcnt - 1 = 0 then b :: s.lru.erase b else s.lru } := by
  unfold decref
  dsimp only
  split <;> rfl

omit [DecidableEq P] in
theorem Users.iderw_read (h : Users s) (hpc : s.pc p = .reading b k) :
    iderw s b = s.setBuf b { s.buf b with valid := true, data := s.disk (s.buf b).key } := by
  refine if_neg fun hd => ?_
  have := h.dirty b hd
  rw [(h.reading p b k hpc).2.2] at this
  cases this

omit [DecidableEq P] in
theorem Users.iderw_write (h : Users s) (hpc : s.pc p = .writing b) :
    iderw s b = { s.setBuf b { s.buf b with valid := true, dirty := false } with
      disk := update s.disk (s.buf b).key (s.buf b).data } :=
  if_pos (h.writing p b hpc).2

omit [DecidableEq P] in
theorem Coherent.setBuf (h : Coherent s) {x : Buf P D} (hb : s'.buf = update s.buf b x)
    (hx : x.key = (s.buf b).key ∧ x.valid = (s.buf b).valid ∧ x.dirty = (s.buf b).dirty ∧
      x.data = (s.buf b).data)
    (hc : s'.changed = s.changed) (hdisk : s'.disk = s.disk) (hl : s'.last = s.last) :
    Coherent s' := by
  obtain ⟨h1, h2, h3, h4⟩ := h
  constructor <;> simp only [hb, hc, hdisk, hl, update_apply] <;> grind -ring -linarith

end

section
variable [Fintype P] {s s' : State P D} {p : P} {b : Fin nbuf} {k : Key}

theorem Counted.move (h : Counted s) {c : Pc} {l : List (Fin nbuf)}
    (hpc : s'.pc = update s.pc p c) (hheld : s'.held = update s.held p l)
    (hb : ∀ b, (s'.buf b).refcnt + uses b (s.pc p, s.held p) = (s.buf b).refcnt + uses b (c, l)) :
    Counted s' := by
  intro b
  have hf : (fun q => (s'.pc q, s'.held q)) =
      update (fun q => (s.pc q, s.held q)) p (c, l) := by
    funext q
    rw [hpc, hheld]
    by_cases hq : q = p
    · subst hq
      simp
    · simp [hq]
  have h1 := tally_update (uses b) (fun q => (s.pc q, s.held q)) p (c, l)
  have h2 := hb b
  have h3 := h b
  rw [hf]
  omega

omit [DecidableEq P] in
theorem Counted.unused (h : Counted s) (h0 : (s.buf b).refcnt = 0) (p : P) :
    b ∉ s.held p ∧ (∀ k, s.pc p ≠ .locking b k) ∧ (∀ k, s.pc p ≠ .reading b k) ∧
      s.pc p ≠ .releasing b := by
  have h1 := h b
  rw [h0] at h1
  have h2 : uses b (s.pc p, s.held p) = 0 := tally_eq_zero.1 h1.symm p
  unfold uses at h2
  obtain ⟨h3, h4⟩ := Nat.add_eq_zero_iff.1 h2
  refine ⟨List.count_eq_zero.1 h3, fun k hpc => ?_, fun k hpc => ?_, fun hpc => ?_⟩
  all_goals
    rw [show s.pc p = _ from hpc] at h4
    simp at h4

theorem Move.counted (hi : Inv s) (hs : Move s s') : Counted s' := by
  have h := hi.counted
  cases hs with
  | noBuffers | panic => exact h
  | @hit p b hpc | @recycle p b k hpc | @lock p b k hpc | @bwrite p b hpc =>
    refine h.move rfl (update_eq_self p s.held).symm fun b' => ?_
    simp only [hpc, uses, State.setBuf, State.setPc, update_apply]
    grind -ring -linarith
  | @bread p b k hpc =>
    refine h.move rfl rfl fun b' => ?_
    simp only [hpc, uses, State.setBuf, State.setPc, State.setHeld, update_apply, List.count_cons]
    grind -ring -linarith
  | @read p b k hpc =>
    rw [hi.users.iderw_read hpc]
    refine h.move rfl rfl fun b' => ?_
    simp only [hpc, uses, State.setBuf, State.setPc, State.setHeld, update_apply, List.count_cons]
    grind -ring -linarith
  | @written p b hpc =>
    rw [hi.users.iderw_write hpc]
    refine h.move rfl (update_eq_self p s.held).symm fun b' => ?_
    simp only [hpc, uses, State.setBuf, State.setPc, State.setChanged, update_apply]
    grind -ring -linarith
  | @change p b | @logWrite p b =>
    refine h.move (update_eq_self p s.pc).symm (update_eq_self p s.held).symm fun b' => ?_
    simp only [State.setBuf, State.setChanged, update_apply]
    grind -ring -linarith
  | @brelse p b hpc hl hc =>
    have hmem : b ∈ s.held p := by
      rcases hi.users.locked b p hl with hm | hk
      · exact hm
      · rw [hpc] at hk
        cases hk
    have := List.count_pos_iff.2 hmem
    refine h.move rfl rfl fun b' => ?_
    simp only [hpc, uses, State.setBuf, State.setPc, State.setHeld, update_apply, List.count_erase]
    grind -ring -linarith
  | @decref p b hpc =>
    have hpos : 0 < (s.buf b).refcnt := by
      by_contra h0
      exact (h.unused (by omega) p).2.2.2 hpc
    rw [decref_eq]
    refine h.move rfl (update_eq_self p s.held).symm fun b' => ?_
    simp only [hpc, uses, State.setBuf, State.setPc, update_apply]
    grind -ring -linarith

theorem Move.users (hi : Inv s) (hs : Move s s') : Users s' := by
  have hu := hi.users
  obtain ⟨h1, h2, h3, h4, h5, h6, h7, h8, h9⟩ := id hu
  cases hs with
  | noBuffers | panic => exact ⟨h1, h2, h3, h4, h5, h6, h7, h8, h9⟩
  | recycle hpc hk hr hd =>
    have hun := hi.counted.unused hr
    constructor <;> simp only [State.setBuf, State.setPc, update_apply] <;> grind -ring -linarith
  | read hpc =>
    rw [hu.iderw_read hpc]
    constructor <;>
      simp only [State.setBuf, State.setPc, State.setHeld, update_apply] <;> grind -ring -linarith
  | written hpc =>
    rw [hu.iderw_write hpc]
    constructor <;>
      simp only [State.setBuf, State.setPc, State.setChanged, update_apply] <;>
      grind -ring -linarith
  | @brelse p b hpc hl hc =>
    have herase : ∀ x, x ∈ (s.held p).erase b ↔ x ≠ b ∧ x ∈ s.held p :=
      fun x => (h9 p).mem_erase_iff
    have hnodup := (h9 p).erase b
    constructor <;>
      simp only [State.setBuf, State.setPc, State.setHeld, update_apply] <;> grind -ring -linarith
  | @decref p b hpc =>
    have hlru : ∀ x, x ∈ b :: s.lru.erase b := fun x => by
      by_cases hx : x = b
      · exact hx ▸ List.mem_cons_self ..
      · exact List.mem_cons_of_mem _ ((List.mem_erase_of_ne hx).2 (h8 x))
    rw [decref_eq]
    constructor <;> simp only [State.setBuf, State.setPc, update_apply] <;> grind -ring -linarith
  | _ =>
    constructor <;> simp only [State.setBuf, State.setPc, State.setHeld,
      State.setChanged, update_apply] <;> grind -ring -linarith

theorem Move.coherent (hi : Inv s) (hs : Move s s') : Coherent s' := by
  have h := hi.coherent
  obtain ⟨h1, h2, h3, h4⟩ := id h
  cases hs with
  | hit | bread | lock | brelse => exact h.setBuf rfl ⟨rfl, rfl, rfl, rfl⟩ rfl rfl rfl
  | @recycle p b k hpc hk hr hd =>
    -- what the recycled buffer held is on disk, and the new block is in no buffer
    have hc : s.changed b = false := by
      by_contra hc
      obtain ⟨q, hq⟩ := hi.users.changed b (by simpa using hc)
      exact (hi.counted.unused hr q).1 hq
    have hno := fun b => hk b (hi.users.lru b)
    constructor <;> simp only [State.setBuf, State.setPc, update_apply] <;> grind -ring -linarith
  | @read p b k hpc =>
    -- nobody has changed a buffer that is being read
    obtain ⟨-, hl, hv⟩ := hi.users.reading p b k hpc
    have hc : s.changed b = false := by
      by_contra hc
      obtain ⟨q, hq⟩ := hi.users.changed b (by simpa using hc)
      rw [(hi.users.held q b hq).2] at hv
      cases hv
    have hd : (s.buf b).dirty = false := by
      by_contra hd
      rw [hi.users.dirty b (by simpa using hd)] at hv
      cases hv
    rw [hi.users.iderw_read hpc]
    constructor <;>
      simp only [State.setBuf, State.setPc, State.setHeld, update_apply] <;> grind -ring -linarith
  | @written p b hpc =>
    have hv := (hi.users.held p b (hi.users.writing p b hpc).1).2
    rw [hi.users.iderw_write hpc]
    constructor <;>
      simp only [State.setBuf, State.setPc, State.setChanged, update_apply] <;>
      grind -ring -linarith
  | change | logWrite | bwrite =>
    constructor <;>
      simp only [State.setBuf, State.setPc, State.setChanged, update_apply] <;>
      grind -ring -linarith
  | decref hpc =>
    rw [decref_eq]
    exact h.setBuf rfl ⟨rfl, rfl, rfl, rfl⟩ rfl rfl rfl
  | noBuffers | panic => exact ⟨h1, h2, h3, h4⟩

theorem Move.inv (hi : Inv s) (hs : Move s s') : Inv s' :=
  ⟨hs.counted hi, hs.users hi, hs.coherent hi⟩

omit [DecidableEq P] in
theorem init_inv (disk : Key → D) (junk : D) : Inv (init (P := P) disk junk) := by
  refine ⟨fun b => ?_, ⟨nofun, nofun, nofun, nofun, nofun, nofun, nofun, fun b => ?_, fun _ => .nil⟩,
    ⟨fun b b' h => absurd rfl h, nofun, fun _ _ _ _ => rfl, fun _ _ _ => rfl⟩⟩
  · exact (tally_eq_zero.2 fun _ => rfl).symm
  · exact List.mem_reverse.2 (List.mem_finRange b)

theorem run_bcache_inv {disk : Key → D} {junk : D} {as : List (Act P D)}
    (h : run step (init disk junk) as = some s) : Inv s :=
  run_inv (fun _ _ _ hi hs => (step_move hs).2.inv hi) (init_inv disk junk) h

omit [Fintype P] in
theorem Move.rekeyed (hu : Users s) (hs : Move s s') (hk : (s'.buf b).key ≠ (s.buf b).key) :
    (s.buf b).refcnt = 0 ∧ (s.buf b).dirty = false := by
  cases hs with
  | @recycle p b' k hpc hno hr hd =>
    by_cases hb : b = b'
    · subst hb
      exact ⟨hr, hd⟩
    · simp [State.setBuf, State.setPc, hb] at hk
  | read hpc =>
    rw [hu.iderw_read hpc] at hk
    simp only [State.setBuf, State.setPc, State.setHeld, update_apply] at hk
    grind -ring -linarith
  | written hpc =>
    rw [hu.iderw_write hpc] at hk
    simp only [State.setBuf, State.setPc, State.setChanged, update_apply] at hk
    grind -ring -linarith
  | _ =>
    simp only [State.setBuf, State.setPc, State.setHeld, State.setChanged, decref_eq,
      update_apply] at hk
    grind -ring -linarith

omit [Fintype P] in
theorem Move.returned (hu : Users s) (hs : Move s s')
    (hpc : s.pc p = .locking b k ∨ s.pc p = .reading b k) (hr : s'.pc p = .run) :
    b ∈ s'.held p ∧ (s'.buf b).key = k := by
  have h1 := hu.locking p b k
  have h2 := hu.reading p b k
  cases hs with
  | read hq =>
    rw [hu.iderw_read hq] at hr ⊢
    simp only [State.setBuf, State.setPc, State.setHeld, update_apply] at hr ⊢
    grind -ring -linarith
  | written hq =>
    rw [hu.iderw_write hq] at hr ⊢
    simp only [State.setBuf, State.setPc, State.setChanged, update_apply] at hr ⊢
    grind -ring -linarith
  | _ =>
    simp only [State.setBuf, State.setPc, State.setHeld, State.setChanged, decref_eq,
      update_apply] at hr ⊢
    grind -ring -linarith

/-- **The buffer cache is coherent.** In every state that any processes reach that follow each change
of a buffer with `log_write` or `bwrite`:

* at most one buffer holds a given block of a device other than 0, and a buffer is held by at most one
  process, which has its sleep-lock;
* a step that gives a buffer to another block finds it unused and not dirty;
* when `bread` of a block returns, by taking the lock or after `iderw`, the buffer is the block's, and
  its data is what the last process that changed the block has left, or that of the disk. -/
theorem buffer_cache_coherent (disk : Key → D) (junk : D) (as : List (Act P D)) (s : State P D)
    (h : run step (init disk junk) as = some s) :
    (∀ b b', (s.buf b).key.1 ≠ 0 → (s.buf b').key = (s.buf b).key → b' = b) ∧
    (∀ p q b, b ∈ s.held p → b ∈ s.held q → p = q ∧ (s.buf b).lock = some p) ∧
    (∀ a s' b, step s a = some s' → (s'.buf b).key ≠ (s.buf b).key →
      (s.buf b).refcnt = 0 ∧ (s.buf b).dirty = false) ∧
    ∀ a s' p b k, step s a = some s' → (s.pc p = .locking b k ∨ s.pc p = .reading b k) →
      s'.pc p = .run → b ∈ s'.held p ∧ (s'.buf b).key = k ∧ (s'.buf b).valid = true ∧
        (k.1 ≠ 0 → (s'.buf b).data = s'.last k) := by
  have hi := run_bcache_inv h
  refine ⟨hi.coherent.uniq, fun p q b hp hq => ?_, fun a s' b hs hk => ?_,
    fun a s' p b k hs hpc hr => ?_⟩
  · have h1 := (hi.users.held p b hp).1
    have h2 := (hi.users.held q b hq).1
    rw [h1] at h2
    cases h2
    exact ⟨rfl, h1⟩
  · exact (step_move hs).2.rekeyed hi.users hk
  · have hi' := (step_move hs).2.inv hi
    obtain ⟨hm, hk⟩ := (step_move hs).2.returned hi.users hpc hr
    have hv := (hi'.users.held p b hm).2
    exact ⟨hm, hk, hv, fun h0 => hk ▸ hi'.coherent.data b (hk ▸ h0) hv⟩

end

/-- Process 0 changes block 5 and logs it; process 1 gets it while it is pinned. -/
def pinnedRead : List (Act (Fin 2) Nat) :=
  [.bget 0 (1, 5), .acquire 0, .iderw 0, .change 0 0 9, .logWrite 0 0, .brelse 0 0, .decref 0,
    .bget 1 (1, 5)]

theorem buffer_cache_coherent_pinnedRead :
    ∃ s, run step (init (fun _ => 7) 0) pinnedRead = some s ∧ s.pc 1 = .locking 0 (1, 5) ∧
      ∀ s', step s (.acquire 1) = some s' → s'.pc 1 = .run → (s'.buf 0).data = s'.last (1, 5) := by
  have h : (run step (init (fun _ => 7) 0) pinnedRead).map (fun s => s.pc 1) =
      some (.locking 0 (1, 5)) := by decide +kernel
  obtain ⟨s, hs, hd⟩ := Option.map_eq_some_iff.1 h
  exact ⟨s, hs, hd, fun s' hs' hr =>
    ((buffer_cache_coherent _ _ _ s hs).2.2.2 _ s' 1 0 _ hs' (.inl hd) hr).2.2.2 (by decide)⟩

end Xv6.Bcache
