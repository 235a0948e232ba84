import Xv6.Vm.Proof.ExecLoad

/-!
# exec as one call

Up to the arguments `exec` never stops, whatever the file holds and wherever `kalloc` fails; if it
returns -1, everything it took has been given back.
-/

namespace Xv6.Vm

open Lib

variable {α : Type} {k : Kern} {d : Ppn} {s : Mem}

/-! ## The file system's part -/

theorem vm_ok {x : M α} {a : α} {m : Mem} (h : x k.mem = .ok a m) :
    vm x k = .ok a { k with mem := m } := by
  rw [vm, h]

theorem vm_error {x : M α} {e : String} {m : Mem} (h : x k.mem = .error e m) :
    vm x k = .error e { k with mem := m } := by
  rw [vm, h]

/-- In `exec`, after `ilock`. -/
def Kern.entered (k : Kern) : Kern := { k with ref := k.ref + 1, locked := true, ops := k.ops + 1 }

theorem ilock_entered (k : Kern) : ilock { k with ref := k.ref + 1, ops := k.ops + 1 } =
    .ok () k.entered := rfl

theorem leave (hl : k.locked = false) (f : K α) (m : Mem) :
    (iunlockput >>= fun _ => endOp >>= fun _ => f) { k.entered with mem := m } =
    f { k with mem := m } := by
  have h1 : iunlockput { k.entered with mem := m } =
      .ok () { k with mem := m, ops := k.ops + 1 } := by
    obtain ⟨_, _, _, _, _, _, _, _, _⟩ := k
    cases hl
    rfl
  rw [bind_ok h1]
  rfl

section
variable {R : Type} {W : World R} {X : Nat → Option Word} {k : Kern}

theorem Built.freevm (h : Built W d s) :
    ∃ m, Vm.freevm W.L d s = .ok () m ∧ At W none empty none X m m := by
  obtain ⟨U, ha⟩ := h
  obtain ⟨⟨⟩, m, hr, hm⟩ := (freevm_twin (X := X) (E := fun _ _ _ => False) rfl).triple.returns ha
  exact ⟨m, hr, hm⟩

theorem execBad_none (L : Layout) (hl : k.locked = false) (v : α) (m : Mem) :
    (execBad L none true >>= fun _ => pure v : K α) { k.entered with mem := m } =
    .ok v { k with mem := m } := by
  have h : execBad L none true { k.entered with mem := m } = .ok () { k with mem := m } :=
    leave hl (pure ()) m
  rw [bind_ok h]
  rfl

theorem execBad_some (h : Built W d s) (hl : k.locked = false) (v : α) :
    ∃ m, (execBad W.L (some d) true >>= fun _ => pure v : K α) { k.entered with mem := s } =
      .ok v { k with mem := m } ∧ At W none empty none X m m := by
  obtain ⟨m, hr, hm⟩ := h.freevm (X := X)
  have hbad : execBad W.L (some d) true { k.entered with mem := s } = .ok ()
    { k with mem := m } := by
    exact (bind_ok (vm_ok (k := { k.entered with mem := s }) hr)).trans (leave hl (pure ()) m)
  refine ⟨m, ?_, hm⟩
  rw [bind_ok hbad]
  rfl

theorem execBad_late (h : Built W d s) (v : α) :
    ∃ m, (execBad W.L (some d) false >>= fun _ => pure v : K α) { k with mem := s } =
      .ok v { k with mem := m } ∧ At W none empty none X m m := by
  obtain ⟨m, hr, hm⟩ := h.freevm (X := X)
  have hbad : execBad W.L (some d) false { k with mem := s } = .ok () { k with mem := m } := by
    exact bind_ok (vm_ok (k := { k with mem := s }) hr)
  refine ⟨m, ?_, hm⟩
  rw [bind_ok hbad]
  rfl

/-- The image before the arguments are pushed. -/
structure NewImage (W : World R) (d : Ppn) (bs : Bytes) (N : Nat) (U : Nat → Option Word)
    (C : Nat → Page) (s : Mem) : Prop where
  stack : StackImage U N
  data : Data W d empty U C s
  top : ∃ w, U (lastPage / pgsize) = some w
  bytes : ∀ a, byteAt C a = segByte bs (headers bs (leAt bs 44 2) (leAt bs 28 4)) a
  inside : ∀ ph ∈ headers bs (leAt bs 44 2) (leAt bs 28 4), leAt ph 0 4 = 1 →
    ((bs.drop (leAt ph 4 4)).take (leAt ph 16 4)).length = leAt ph 16 4 ∧
    leAt ph 16 4 ≤ leAt ph 20 4 ∧
    leAt ph 8 4 + leAt ph 20 4 ≤ vaOf (N - 2)

theorem execLoad_returns (file : Option Bytes) (hfile : ∀ bs, file = some bs → bs.length < u32)
    (hl : k.locked = false) (ha : At W none empty none X k.mem k.mem) :
    ∃ v m, execLoad W.L file k = .ok v { k with mem := m } ∧
      match v with
      | none => At W none empty none X m m
      | some (d, sz) => ∃ bs N U C, file = some bs ∧ sz = vaOf N ∧ NewImage W d bs N U C m := by
  have hbegin : beginOp k = .ok () { k with ops := k.ops + 1 } := rfl
  unfold execLoad
  rw [bind_ok hbegin]
  cases file with
  | none => exact ⟨none, k.mem, rfl, ha⟩
  | some bs =>
    have hnamei : namei (some bs) { k with ops := k.ops + 1 } =
      .ok (some bs) { k with ref := k.ref + 1, ops := k.ops + 1 } := rfl
    rw [bind_ok hnamei]
    dsimp only
    rw [bind_ok (ilock_entered k)]
    by_cases hshort : bs.length < 52
    · rw [if_pos hshort]
      exact ⟨none, k.mem, execBad_none W.L hl none k.mem, ha⟩
    rw [if_neg hshort]
    by_cases hmagic : leAt bs 0 4 ≠ 0x464C457F
    · rw [if_pos hmagic]
      exact ⟨none, k.mem, execBad_none W.L hl none k.mem, ha⟩
    rw [if_neg hmagic]
    obtain ⟨v, m₁, hr, h1⟩ := (setupkvm_loaded bs).returns ha
    rw [bind_ok (vm_ok (k := k.entered) hr)]
    cases v with
    | none => exact ⟨none, m₁, execBad_none W.L hl none m₁, h1⟩
    | some d =>
      obtain ⟨U, h1⟩ := h1
      obtain ⟨v, m₂, hr, hb, h2⟩ :=
        (loadSegments_data (hfile bs rfl) (leAt bs 44 2) 0 (leAt bs 28 4) 0 [] U _).returns h1
      dsimp only
      rw [bind_ok (vm_ok (k := { k.entered with mem := m₁ }) hr)]
      cases v with
      | none =>
        obtain ⟨m, hr, hm⟩ := execBad_some (X := X) hb hl none
        exact ⟨none, m, hr, hm⟩
      | some sz =>
        obtain ⟨U', C', h2⟩ := h2 sz rfl
        dsimp only
        rw [leave hl _ m₂]
        obtain ⟨st, m₃, hr, hb, h3⟩ := makeStack_returns h2
        rw [bind_ok (vm_ok (k := { k with mem := m₂ }) hr)]
        obtain ⟨m, hbad, hm⟩ := execBad_late (k := k) (X := X) hb (none : Option (Ppn × Nat))
        cases st with
        | args sz' i sp us =>
          obtain ⟨hsz, U'', hst, hd, htop⟩ := h3 sz' i sp us rfl
          refine ⟨some (d, sz'), m₃, rfl, bs, pagesBelow sz + 2, U'', C', rfl, hsz,
            hst, hd, htop, h2.bytes, fun ph hph hload => ?_⟩
          obtain ⟨hlen, hfz, hle⟩ := h2.inside ph hph hload
          exact ⟨hlen, hfz, Nat.le_trans hle (pagesBelow_le.1 (Nat.le_refl _))⟩
        | load | stack | commit | bad => exact ⟨none, m, hbad, hm⟩

/-! ## Arguments -/

theorem pushArgs_twin {U : Nat → Option Word} {E : String → Mem → Mem → Prop} (hk : UserOnly U)
    (hE : ∀ e s t, E e s t) (argv : List Bytes) (sz : Nat) :
    ∀ (n argc sp : Nat) (ustack : List Nat),
    Twin (Maps W d empty U) (pushArgs d argv sz n argc sp ustack) (fun _ =>
      Maps W d empty U) E := by
  intro n
  induction n with
  | zero =>
    intro argc sp ustack
    unfold pushArgs
    refine (pushArg_view hk hE).bind fun st => ?_
    split
    · exact .pure fun s t h => h.1
    · exact .pure fun s t h => h.1
  | succ n ih =>
    intro argc sp ustack
    unfold pushArgs
    refine (pushArg_view hk hE).bind fun st => ?_
    split
    · exact (ih _ _ _).pre fun s t h => h.1
    · exact .pure fun s t h => h.1

theorem pushArg_count {argv : List Bytes} {sz argc sp : Nat} {ustack : List Nat} :
    Triple (fun _ => True) (pushArg d argv sz argc sp ustack) (fun st _ =>
      ∀ z i a us, st = .args z i a us → i = argc + 1 ∧ argc < maxarg) fun _ _ => True := by
  unfold pushArg
  split
  · refine .ite (fun _ => .pure nofun) fun hlt => Triple.trivially.bind fun _ =>
      .ite (fun _ => .pure fun s _ => nofun) fun _ => .pure ?_
    rintro s - z i a us ⟨⟩
    exact ⟨rfl, Nat.lt_of_not_le hlt⟩
  · exact Triple.trivially.bind fun _ => .ite (fun _ => .pure fun s _ => nofun) fun _ =>
      .pure fun s _ => nofun

theorem pushArgs_count {argv : List Bytes} {sz : Nat} : ∀ (n argc sp : Nat) (ustack : List Nat),
    argc + n = argv.length → argc ≤ maxarg →
    Triple (fun _ => True) (pushArgs d argv sz n argc sp ustack) (fun v _ => v ≠ none →
      argv.length ≤ maxarg) fun _ _ => True := by
  intro n
  induction n with
  | zero =>
    intro argc sp ustack hn hle
    exact Triple.trivially.post fun v s _ _ => hn ▸ hle
  | succ n ih =>
    intro argc sp ustack hn hle
    unfold pushArgs
    refine pushArg_count.bind fun st => ?_
    split
    · refine .of_state fun s h => ?_
      obtain ⟨rfl, hlt⟩ := h _ _ _ _ rfl
      exact (ih _ _ _ (by omega) hlt).pre fun s _ => trivial
    · exact .pure fun s _ h => absurd rfl h

end

/-! ## The old image -/

/-- The mappings and the contents of a directory. -/
structure View (m : Mem) (d : Ppn) (U : Nat → Option Word) (C : Nat → Page) : Prop where
  maps : ∀ n < 2 ^ 20, mapping m d n = U n
  data : ∀ n < userPages, ∀ w, U n = some w → m.page (pteAddr w) = C n

section
variable {R : Type} {r : R → Option Ppn} {L : Layout} {m s : Mem} {old d : Ppn}
  {U : Nat → Option Word} {C : Nat → Page}

theorem Data.swap (h : Data (shelf L m old r) d empty U C s) :
    Maps (shelf L s d r) old empty (mapping s old) s s := by
  have hold : own s.page (some old) empty = own m.page (some old) empty := by
    refine own_congr fun d' hd => ?_
    cases hd
    exact ⟨h.frame (.inr .dir) old rfl, fun i t ht => h.frame (.inr (.table i)) t ht⟩
  let e : (R ⊕ Part) ⊕ Part ≃ (R ⊕ Part) ⊕ Part :=
    (Equiv.sumAssoc R Part Part).trans
      ((Equiv.sumCongr (Equiv.refl R) (Equiv.sumComm Part Part)).trans
        (Equiv.sumAssoc R Part Part).symm)
  have hb : Books L (Sum.elim (shelf L s d r).r (own s.page (some old) empty)) s.free := by
    refine h.books.reindex e e.injective (fun x => ?_) e.surjective
    rw [hold]
    rcases x with (x | x) | x <;> rfl
  refine ⟨⟨hb, fun _ _ _ => rfl, rfl, rfl, fun _ _ _ => rfl⟩, fun d' hd n hn => ?_⟩
  cases hd
  exact (mapping_of_lt s old hn).symm

theorem Data.freeOld (h : Data (shelf L m old r) d empty U C s) :
    ∃ m', freevm L old s = .ok () m' ∧ View m' d U C := by
  classical
  obtain ⟨⟨⟩, m', hr, hm⟩ :=
    (freevm_twin (W := shelf L s d r) (X := fun _ => none) (E := fun _ _ _ => False)
    rfl).triple.returns h.swap
  have hkeep : ∀ p q, own s.page (some d) empty p = some q → m'.page q = s.page q := fun p q hq =>
    hm.frame (.inr p) q hq
  refine ⟨m', hr, fun n hn => ?_, fun n hn w hw => ?_⟩
  · rw [mapping_of_lt _ _ hn, lookup_congr (hkeep .dir d rfl) fun i t ht => hkeep (.table i) t ht]
    exact h.view d rfl n hn
  · rw [hkeep (.page n) _ (h.own_page hn hw), h.data n hn w hw]

/-- The pages that were free are free, and the others hold what they held. -/
structure GivenBack (L : Layout) (m m' : Mem) : Prop where
  free : m'.free.Perm m.free
  page : ∀ q, L.Managed q → q ∉ m.free → m'.page q = m.page q

theorem At.givenBack {m' : Mem} {X : Nat → Option Word}
    (hb : Books L (Sum.elim r (own m.page (some old) empty)) m.free)
    (h : At (shelf L m old r) none empty none X m' m') : GivenBack L m m' := by
  have hnone : ∀ p, own m'.page none empty p = none := fun p => by cases p <;> simp [own]
  have howned : ∀ q, L.Managed q → q ∉ m.free → ∃ a, (shelf L m old r).r a = some q :=
    fun q h1 h2 =>
    (hb.ledger.cover q ⟨h1, h2⟩).resolve_left id
  refine ⟨(List.perm_ext_iff_of_nodup h.books.nodup hb.nodup).2 fun q => ⟨fun hq => ?_, fun hq => ?_⟩,
    fun q h1 h2 => ?_⟩
  · by_contra hf
    obtain ⟨a, ha⟩ := howned q (h.books.managed q hq) hf
    exact (h.books.not_free (h := (.inl a : (R ⊕ Part) ⊕ Part)) ha).2 hq
  · by_contra hf
    obtain ⟨a | p, ha⟩ := (h.books.ledger.cover q ⟨hb.managed q hq, hf⟩).resolve_left id
    · exact (hb.not_free ha).2 hq
    · exact Option.some_ne_none q (ha.symm.trans (hnone p))
  · obtain ⟨a, ha⟩ := howned q h1 h2
    exact h.frame a q ha

end

/-! ## The whole call -/

/-- What a successful `exec` has done. -/
structure Executed (path bs : Bytes) (argv : List Bytes) (k k' : Kern) (N : Nat)
    (U : Nat → Option Word) (C C' : Nat → Page) (ptrs : List Nat) : Prop where
  kern : k' = { k with
    mem := k'.mem, pgdir := k'.pgdir, sz := vaOf N, esp := k'.esp
    name := (lastElem path path).take 15, eip := leAt bs 24 4 }
  stack : StackImage U N
  view : View k'.mem k'.pgdir U C'
  bytes : ∀ a, byteAt C a = segByte bs (headers bs (leAt bs 44 2) (leAt bs 28 4)) a
  inside : ∀ ph ∈ headers bs (leAt bs 44 2) (leAt bs 28 4), leAt ph 0 4 = 1 →
    ((bs.drop (leAt ph 4 4)).take (leAt ph 16 4)).length = leAt ph 16 4 ∧
    leAt ph 16 4 ≤ leAt ph 20 4 ∧
    leAt ph 8 4 + leAt ph 20 4 ≤ vaOf (N - 2)
  low : vaOf (N - 1) ≤ k'.esp
  strings : Laid C' (k'.esp + 4 * (4 + argv.length)) (vaOf N) argv ptrs
  words : Holds C' k'.esp ((mainWords argv.length k'.esp ptrs).flatMap wordBytes)
  frame : ∀ a < k'.esp, byteAt C' a = byteAt C a

section
variable {L : Layout} {k : Kern} {d : Ppn} {bs : Bytes} {argv : List Bytes} {N : Nat} {m₁ m₂ : Mem}
  {U : Nat → Option Word} {C : Nat → Page} {R : Type} {r : R → Option Ppn}

theorem exec_refused (path : Bytes)
    (hb : Books L (Sum.elim r (own k.mem.page (some k.pgdir) empty)) k.mem.free)
    (hload : execLoad L (some bs) k = .ok (some (d, vaOf N)) { k with mem := m₁ })
    (hnew : NewImage (shelf L k.mem k.pgdir r) d bs N U C m₁)
    (hp : pushArgs d argv (vaOf N) argv.length 0 (vaOf N) [] m₁ = .ok none m₂) :
    ∃ m, exec L path (some bs) argv k = .ok (-1) { k with mem := m } ∧ GivenBack L k.mem m := by
  classical
  have htw :=
    (pushArgs_twin (W := shelf L k.mem k.pgdir r) (d := d) (E := fun _ _ _ => True) hnew.stack.kern
    (fun _ _ _ => trivial) argv (vaOf N) argv.length 0 (vaOf N) []).triple
  obtain ⟨m, hr, hm⟩ := execBad_late (k := k) (W := shelf L k.mem k.pgdir r) (X := fun _ => none)
    ⟨U, htw.ok hnew.data.toAt hp⟩ (-1 : Int)
  refine ⟨m, ?_, hm.givenBack hb⟩
  unfold exec
  rw [bind_ok hload]
  dsimp only
  rw [bind_ok (vm_ok (k := { k with mem := m₁ }) hp)]
  exact hr

theorem exec_accepted (path : Bytes) {sp : Nat}
    (hload : execLoad L (some bs) k = .ok (some (d, vaOf N)) { k with mem := m₁ })
    (hnew : NewImage (shelf L k.mem k.pgdir r) d bs N U C m₁)
    (hp : pushArgs d argv (vaOf N) argv.length 0 (vaOf N) [] m₁ = .ok (some sp) m₂) :
    ∃ k' C' ptrs, exec L path (some bs) argv k = .ok 0 k' ∧
    Executed path bs argv k k' N U C C' ptrs := by
  have hU := hnew.stack
  have hmax :=
    (pushArgs_count argv.length 0 (vaOf N) [] (Nat.zero_add _) (Nat.zero_le _)).ok trivial hp nofun
  by_cases hfit : ((vaOf (N - 1) : Nat) : Int) ≤ pushed (vaOf N) argv - 4 * (4 + argv.length)
  · obtain ⟨s', C', ptrs, sp', hall⟩ := pushArgs_ok hU hmax rfl argv.length 0 (vaOf N)
      [] m₁ C (Nat.zero_add _) rfl (Nat.le_refl _) hnew.data hfit
    cases hp.symm.trans hall.result
    obtain ⟨m₃, hr, hview⟩ := hall.data.freeOld
    refine ⟨{ k with
      mem := m₃, pgdir := d, sz := vaOf N, name := (lastElem path path).take 15, eip :=
        leAt bs 24 4, esp := sp },
      C', ptrs, ?_, rfl, hU, hview, hnew.bytes, hnew.inside, hall.low, hall.strings, hall.words,
      fun a ha => hall.frame a (.inl ha)⟩
    unfold exec
    rw [bind_ok hload]
    dsimp only
    rw [bind_ok (vm_ok (k := { k with mem := m₁ }) hp)]
    exact bind_ok (vm_ok (k := { k with
      mem := m₂, pgdir := d, sz := vaOf N, name := (lastElem path path).take 15, eip :=
        leAt bs 24 4, esp := sp }) hr)
  · exact absurd hp ((pushArgs_overflow hU hmax rfl argv.length 0 (vaOf N) [] m₁ C (Nat.zero_add _) rfl
      (vaOf_mono (Nat.sub_le _ _)) (Nat.le_refl _) hnew.data hfit).not_ok _ _)

end

theorem exec_cases {L : Layout} {file : Option Bytes} (path : Bytes) (argv : List Bytes)
    (hs : Sound L k.mem k.pgdir) (hl : k.locked = false)
    (hfile : ∀ bs, file = some bs → bs.length < u32) :
    (∃ m, exec L path file argv k = .ok (-1) { k with mem := m } ∧ GivenBack L k.mem m) ∨
    (∃ k' bs N U C C' ptrs, exec L path file argv k = .ok 0 k' ∧ file = some bs ∧
      Executed path bs argv k k' N U C C' ptrs) ∨
    ∃ e k', exec L path file argv k = .error e k' := by
  obtain ⟨R, r, hb⟩ := hs
  classical
  obtain ⟨v, m₁, hload, h1⟩ :=
    execLoad_returns (W := shelf L k.mem k.pgdir r) file hfile hl (at_shelf hb k.mem.oom)
  replace hload : execLoad L file k = .ok v { k with mem := m₁ } := hload
  rcases v with _ | ⟨d, sz⟩
  · refine .inl ⟨m₁, ?_, h1.givenBack hb⟩
    unfold exec
    rw [bind_ok hload]
    rfl
  obtain ⟨bs, N, U, C, rfl, rfl, hnew⟩ := h1
  cases hp : pushArgs d argv (vaOf N) argv.length 0 (vaOf N) [] m₁ with
  | error e m₂ =>
    refine .inr (.inr ⟨e, { k with mem := m₂ }, ?_⟩)
    unfold exec
    rw [bind_ok hload]
    exact bind_error (vm_error (k := { k with mem := m₁ }) hp)
  | ok v m₂ =>
    cases v with
    | none => exact .inl (exec_refused path hb hload hnew hp)
    | some sp =>
      obtain ⟨k', C', ptrs, hr, hk⟩ := exec_accepted path hload hnew hp
      exact .inr (.inl ⟨k', bs, N, U, C, C', ptrs, hr, rfl, hk⟩)

end Xv6.Vm
