import Xv6.Io.Ide

/-!
# The disk queue is served in order

`Queue`: the requests and the processes that wait for them. `Drive`: the drives work on the head of
the queue. Both are kept by every step that does not panic, and with them what a process that waits
for a completed request may rely on.
-/

namespace Xv6.Ide

open Lib Function

variable {a havedisk1 : Bool}

variable {P B D : Type}

/-- The requests in the queue belong to processes that wait for them, and every process that waits
is in the queue, or its request is completed and it is awake. -/
structure Queue (s : State P B D) : Prop where
  appended : s.appended = s.completed ++ s.queue
  ids : s.appended.map Req.id = List.range s.appended.length
  queued : ∀ r ∈ s.queue, (∃ a, s.pc r.proc = .waiting r a) ∧ s.lock r.buf = some r.proc ∧
    (s.buf r.buf).done = false
  waiting : ∀ p r a, s.pc p = .waiting r a → r.proc = p ∧ s.lock r.buf = some p ∧
    (r ∈ s.queue ∨ r ∈ s.completed ∧ a = false ∧ (s.buf r.buf).done = true)

/-- The drive works on the head of the queue. -/
structure Drive (s : State P B D) : Prop where
  started : s.started = s.completed ++ s.queue.take 1
  idle : s.queue = [] → s.active = none ∧ s.irq = false
  head : ∀ r rest, s.queue = r :: rest → s.active = some (s.buf r.buf).cmd
  irq : s.irq = true → ∀ a x, s.active = some (.write a x) → s.disk a = x

/-- The invariant of the driver. -/
structure Inv (s : State P B D) : Prop where
  queue : Queue s
  drive : Drive s

section
variable {s s' : State P B D} {r r' : Req P B} {p : P} {w : Bool}

namespace Queue

theorem nodup (h : Queue s) : s.appended.Nodup := by
  refine List.Nodup.of_map Req.id ?_
  rw [h.ids]
  exact List.nodup_range

theorem buf_inj (h : Queue s) (hr : r ∈ s.queue) (hw : s.pc p = .waiting r' a)
    (hb : r'.buf = r.buf) :
    r' = r := by
  obtain ⟨⟨a', hpc⟩, hl, -⟩ := h.queued r hr
  obtain ⟨-, hl', -⟩ := h.waiting p r' a hw
  rw [hb, hl] at hl'
  cases hl'
  rw [hpc] at hw
  cases hw
  rfl

theorem not_mem_completed (h : Queue s) (hr : r ∈ s.queue) : r ∉ s.completed := by
  have hn := h.nodup
  rw [h.appended] at hn
  exact fun hc => (List.nodup_append.1 hn).2.2 r hc r hr rfl

theorem buf_ne_of_quiet (h : Queue s) [DecidableEq P] [DecidableEq B] {b : B} (hb : s.Quiet b)
    (hw : s.pc p = .waiting r a) : r.buf ≠ b := by
  intro hrb
  obtain ⟨-, hl, -⟩ := h.waiting p r a hw
  have := hb p (hrb ▸ hl)
  rw [hw] at this
  cases this

theorem frame (h : Queue s)
    (hq : s'.appended = s.appended ∧ s'.completed = s.completed ∧ s'.queue = s.queue)
    (hpc : s'.pc = s.pc) (hw : ∀ p r a, s.pc p = .waiting r a →
      s'.lock r.buf = s.lock r.buf ∧ s'.buf r.buf = s.buf r.buf) : Queue s' := by
  obtain ⟨h1, h2, h3⟩ := hq
  constructor
  · rw [h1, h2, h3, h.appended]
  · rw [h1, h.ids]
  · rw [h3, hpc]
    intro r hr
    obtain ⟨⟨a, ha⟩, hl, hd⟩ := h.queued r hr
    obtain ⟨g1, g2⟩ := hw _ r a ha
    exact ⟨⟨a, ha⟩, g1.trans hl, g2 ▸ hd⟩
  · rw [h2, h3, hpc]
    intro p r a ha
    obtain ⟨g1, g2⟩ := hw p r a ha
    rw [g1, g2]
    exact h.waiting p r a ha

end Queue

theorem startHead_inv (h : Queue s) (ha : s.active = none) (hi : s.irq = false)
    (hs : s.started = s.completed) (hp : (startHead s).panicked = none) : Inv (startHead s) := by
  unfold startHead at *
  split
  · next hq =>
    refine ⟨h, ?_, fun _ => ⟨ha, hi⟩, fun r rest h0 => ?_, fun h0 => ?_⟩
    · rw [hs, hq]
      simp
    · rw [hq] at h0
      cases h0
    · rw [hi] at h0
      cases h0
  · next r rest hq =>
    rw [hq] at hp
    unfold idestart at *
    split
    · next hb => simp [hb] at hp
    · refine ⟨h.frame ⟨rfl, rfl, rfl⟩ rfl fun _ _ _ _ => ⟨rfl, rfl⟩, ?_, fun h0 => ?_,
        fun r' rest' h0 => ?_, fun h0 => ?_⟩
      · show s.started ++ [r] = s.completed ++ s.queue.take 1
        rw [hs, hq]
        rfl
      · rw [show s.queue = [] from h0] at hq
        cases hq
      · rw [show s.queue = _ from h0] at hq
        cases hq
        rfl
      · rw [show s.irq = true from h0] at hi
        cases hi

variable [DecidableEq P] [DecidableEq B]
variable {b : B} {rest : List (Req P B)} {buf : B → Buf D} {disk : Nat × Nat → D}
  {as : List (Act P B D)}

omit [DecidableEq P] in
theorem wakeup_waiting {pc : P → Pc P B} :
    wakeup b pc p = .waiting r a ↔
      ∃ a', pc p = .waiting r a' ∧ a = if r.buf = b then false else a' := by
  unfold wakeup
  cases h : pc p with
  | idle => simp
  | waiting r' a' =>
    simp only [Pc.waiting.injEq]
    constructor
    · rintro ⟨rfl, rfl⟩
      exact ⟨a', ⟨rfl, rfl⟩, rfl⟩
    · rintro ⟨_, ⟨rfl, rfl⟩, rfl⟩
      exact ⟨rfl, rfl⟩

omit [DecidableEq B] in
theorem enqueue_inv (h : Inv s) (hpc : s.pc p = .idle) (hl : s.lock b = some p)
    (hd : (s.buf b).done = false) (hp : (enqueue s ⟨s.appended.length, p, b⟩).panicked = none) :
    Inv (enqueue s ⟨s.appended.length, p, b⟩) := by
  generalize hr : (⟨s.appended.length, p, b⟩ : Req P B) = r at *
  obtain ⟨hproc, hbuf, hid⟩ : r.proc = p ∧ r.buf = b ∧ r.id = s.appended.length := by
    rw [← hr]
    exact ⟨rfl, rfl, rfl⟩
  have hne : ∀ r' ∈ s.queue, r'.proc ≠ p := fun r' hr' heq => by
    obtain ⟨⟨a, ha⟩, -⟩ := h.queue.queued r' hr'
    rw [heq, hpc] at ha
    cases ha
  have hq : Queue { s with
      queue := s.queue ++ [r]
      appended := s.appended ++ [r]
      pc := update s.pc r.proc (.waiting r true) } := by
    constructor
    · show s.appended ++ [r] = s.completed ++ (s.queue ++ [r])
      rw [h.queue.appended, List.append_assoc]
    · simp [h.queue.ids, hid, List.range_succ]
    · intro r' hr'
      rcases List.mem_append.1 hr' with hr' | hr'
      · dsimp only
        rw [update_of_ne (hproc ▸ hne r' hr')]
        exact h.queue.queued r' hr'
      · rw [List.mem_singleton.1 hr']
        dsimp only
        rw [update_self, hproc, hbuf]
        exact ⟨⟨true, rfl⟩, hl, hd⟩
    · intro q r' a hw
      by_cases hqp : q = p
      · subst hqp
        dsimp only at hw
        rw [hproc, update_self] at hw
        cases hw
        exact ⟨hproc, hbuf ▸ hl, .inl (by simp)⟩
      · dsimp only at hw
        rw [hproc, update_of_ne hqp] at hw
        obtain ⟨h1, h2, h3⟩ := h.queue.waiting q r' a hw
        exact ⟨h1, h2, h3.imp_left fun h3 => List.mem_append_left _ h3⟩
  unfold enqueue at hp ⊢
  dsimp only at hp ⊢
  split
  · next h0 =>
    rw [if_pos h0] at hp
    obtain ⟨ha, hi⟩ := h.drive.idle h0
    refine startHead_inv hq ha hi ?_ hp
    show s.started = s.completed
    rw [h.drive.started, h0]
    simp
  · next h0 =>
    obtain ⟨r₀, rest, hr₀⟩ := List.exists_cons_of_ne_nil h0
    refine ⟨hq, ?_, fun hnil => ?_, fun r' rest' hr' => ?_, h.drive.irq⟩
    · show s.started = s.completed ++ (s.queue ++ [r]).take 1
      rw [h.drive.started, hr₀]
      rfl
    · simp at hnil
    · have hcons : s.queue ++ [r] = r' :: rest' := hr'
      rw [hr₀] at hcons
      cases hcons
      exact h.drive.head _ rest hr₀

omit [DecidableEq P] in
theorem completed_queue (h : Queue s) (hr : s.queue = r :: rest) :
    Queue { s with
      irq := false
      active := none
      queue := rest
      buf := update s.buf r.buf (s.complete (s.buf r.buf))
      pc := wakeup r.buf s.pc
      completed := s.completed ++ [r] } := by
  have hmem : r ∈ s.queue := hr ▸ List.mem_cons_self ..
  constructor
  · show s.appended = s.completed ++ [r] ++ rest
    rw [h.appended, hr, List.append_assoc]
    rfl
  · exact h.ids
  · intro r' hr'
    have hmem' : r' ∈ s.queue := hr ▸ List.mem_cons_of_mem _ hr'
    obtain ⟨⟨a, ha⟩, h2, h3⟩ := h.queued r' hmem'
    have hne : r'.buf ≠ r.buf := fun hb => by
      have hn := h.nodup
      rw [h.appended, hr] at hn
      have := (List.nodup_cons.1 (List.nodup_append.1 hn).2.1).1
      exact this (h.buf_inj hmem ha hb ▸ hr')
    refine ⟨⟨a, wakeup_waiting.2 ⟨a, ha, by rw [if_neg hne]⟩⟩, h2, ?_⟩
    dsimp only
    rw [update_of_ne hne]
    exact h3
  · intro q r' a hw
    obtain ⟨a', hw', ha⟩ := wakeup_waiting.1 hw
    obtain ⟨h1, h2, h3⟩ := h.waiting q r' a' hw'
    refine ⟨h1, h2, ?_⟩
    dsimp only
    by_cases hb : r'.buf = r.buf
    · obtain rfl := h.buf_inj hmem hw' hb
      rw [if_pos rfl] at ha
      rw [update_self]
      exact .inr ⟨by simp, ha, rfl⟩
    · rw [update_of_ne hb]
      rw [if_neg hb] at ha
      rcases h3 with h3 | ⟨h3, h4, h5⟩
      · rw [hr] at h3
        rcases List.mem_cons.1 h3 with h3 | h3
        · exact absurd (by rw [h3]) hb
        · exact .inl h3
      · exact .inr ⟨List.mem_append_left _ h3, ha.trans h4, h5⟩

omit [DecidableEq P] in
theorem ideintr_inv (h : Inv s) (hp : (ideintr s).panicked = none) : Inv (ideintr s) := by
  unfold ideintr at *
  split
  · next hq =>
    refine ⟨h.queue.frame ⟨rfl, rfl, rfl⟩ rfl fun _ _ _ _ => ⟨rfl, rfl⟩, h.drive.started,
      fun _ => ⟨rfl, rfl⟩, fun r rest h0 => ?_, nofun⟩
    rw [show s.queue = _ from h0] at hq
    cases hq
  · next r rest hq =>
    rw [hq] at hp
    refine startHead_inv (completed_queue h.queue hq) rfl rfl ?_ hp
    show s.started = s.completed ++ [r]
    rw [h.drive.started, hq]
    rfl

/-- The steps of the driver, with what the code has checked. -/
inductive Move (s : State P B D) : State P B D → Prop
  | lock {p : P} {b : B} (hl : s.lock b = none) :
    Move s { s with lock := update s.lock b (some p) }
  | unlock {p : P} {b : B} (hpc : s.pc p = .idle) (hl : s.lock b = some p) :
    Move s { s with lock := update s.lock b none }
  | set {b : B} {x : Buf D} (hb : s.Quiet b) : Move s { s with buf := update s.buf b x }
  | panic {msg : String} : Move s { s with panicked := some msg }
  | enqueue {p : P} {b : B} (hpc : s.pc p = .idle) (hl : s.lock b = some p)
      (hd : (s.buf b).done = false) : Move s (enqueue s ⟨s.appended.length, p, b⟩)
  | check {p : P} {r : Req P B} (hw : s.pc p = .waiting r false) :
    Move s { s with
      pc := update s.pc p (if (s.buf r.buf).done then .idle else .waiting r true) }
  | finish {c : Cmd D} (hc : s.active = some c) :
    Move s { s with disk := c.carryOut s.disk, irq := true }
  | intr (hirq : s.irq = true) : Move s (ideintr s)

theorem step_move {a : Act P B D} (hs : step havedisk1 s a = some s') :
    s.panicked = none ∧ Move s s' := by
  unfold step at hs
  split at hs
  · cases hs
  · next hp =>
    refine ⟨by simpa using hp, ?_⟩
    cases a with
    | lock p b =>
      simp only [Option.ite_none_right_eq_some, Option.some.injEq] at hs
      obtain ⟨⟨-, hl⟩, rfl⟩ := hs
      exact .lock hl
    | unlock p b =>
      simp only [Option.ite_none_right_eq_some, Option.some.injEq] at hs
      obtain ⟨⟨hpc, hl⟩, rfl⟩ := hs
      exact .unlock hpc hl
    | set b x =>
      simp only [Option.ite_none_right_eq_some, Option.some.injEq] at hs
      obtain ⟨hb, rfl⟩ := hs
      exact .set hb
    | iderw p b =>
      dsimp only at hs
      split at hs
      · cases hs
      · next hpc =>
        split at hs
        · cases hs
          exact .panic
        · next hl =>
          split at hs
          · cases hs
            exact .panic
          · next hd =>
            split at hs
            · cases hs
              exact .panic
            · cases hs
              exact .enqueue (by simpa using hpc) (by simpa using hl) (by simpa using hd)
    | check p =>
      dsimp only at hs
      split at hs
      · next r hw =>
        cases hs
        exact .check hw
      · cases hs
    | finish =>
      dsimp only at hs
      split at hs
      · next c hc =>
        simp only [Option.ite_none_left_eq_some, Option.some.injEq] at hs
        obtain ⟨-, rfl⟩ := hs
        exact .finish hc
      · cases hs
    | intr =>
      simp only [Option.ite_none_right_eq_some, Option.some.injEq] at hs
      obtain ⟨hirq, rfl⟩ := hs
      exact .intr hirq

theorem Move.inv (h : Inv s) (hs : Move s s') (hp : s'.panicked = none) : Inv s' := by
  cases hs with
  | @lock p b hl =>
    refine ⟨h.queue.frame ⟨rfl, rfl, rfl⟩ rfl fun q r a hw => ⟨update_of_ne ?_ _ _, rfl⟩,
      h.drive.started, h.drive.idle, h.drive.head, h.drive.irq⟩
    rintro rfl
    cases hl.symm.trans (h.queue.waiting q r a hw).2.1
  | @unlock p b hpc hl =>
    refine ⟨h.queue.frame ⟨rfl, rfl, rfl⟩ rfl fun q r a hw => ⟨update_of_ne ?_ _ _, rfl⟩,
      h.drive.started, h.drive.idle, h.drive.head, h.drive.irq⟩
    rintro rfl
    cases hl.symm.trans (h.queue.waiting q r a hw).2.1
    cases hpc.symm.trans hw
  | @set b x hb =>
    have hbuf : ∀ q r a, s.pc q = .waiting r a → update s.buf b x r.buf = s.buf r.buf :=
      fun q r a hw => update_of_ne (h.queue.buf_ne_of_quiet hb hw) _ _
    refine ⟨h.queue.frame ⟨rfl, rfl, rfl⟩ rfl fun q r a hw => ⟨rfl, hbuf q r a hw⟩,
      h.drive.started, h.drive.idle, fun r rest hr => ?_, h.drive.irq⟩
    obtain ⟨⟨a, h1⟩, -⟩ := h.queue.queued r (by
      rw [show s.queue = _ from hr]
      exact List.mem_cons_self ..)
    dsimp only
    rw [hbuf _ _ _ h1]
    exact h.drive.head r rest hr
  | panic => cases hp
  | enqueue hpc hl hd => exact enqueue_inv h hpc hl hd hp
  | @check p r hw =>
    obtain ⟨h1, h2, h3⟩ := h.queue.waiting p r false hw
    refine ⟨⟨h.queue.appended, h.queue.ids, fun r' hr' => ?_, fun q r' a hw' => ?_⟩,
      h.drive.started, h.drive.idle, h.drive.head, h.drive.irq⟩
    · obtain ⟨⟨a, g1⟩, g2, g3⟩ := h.queue.queued r' hr'
      refine ⟨?_, g2, g3⟩
      dsimp only
      by_cases hq : r'.proc = p
      · rw [hq, hw] at g1
        cases g1
        rw [hq, update_self, if_neg (by simp [g3])]
        exact ⟨true, rfl⟩
      · rw [update_of_ne hq]
        exact ⟨a, g1⟩
    · dsimp only at hw' ⊢
      by_cases hq : q = p
      · subst hq
        rw [update_self] at hw'
        split at hw'
        · cases hw'
        · next hd =>
          cases hw'
          refine ⟨h1, h2, ?_⟩
          rcases h3 with h3 | h3
          · exact .inl h3
          · exact absurd h3.2.2 hd
      · rw [update_of_ne hq] at hw'
        exact h.queue.waiting q r' a hw'
  | @finish c hc =>
    refine ⟨h.queue.frame ⟨rfl, rfl, rfl⟩ rfl fun _ _ _ _ => ⟨rfl, rfl⟩, h.drive.started,
      fun h0 => ?_, h.drive.head, fun _ a x ha => ?_⟩
    · have := (h.drive.idle h0).1
      rw [hc] at this
      cases this
    · rw [show s.active = _ from ha] at hc
      cases hc
      exact update_self ..
  | intr => exact ideintr_inv h hp

omit [DecidableEq P] [DecidableEq B] in
theorem init_inv (buf : B → Buf D) (disk : Nat × Nat → D) : Inv (init (P := P) buf disk) :=
  ⟨⟨rfl, rfl, nofun, nofun⟩, rfl, fun _ => ⟨rfl, rfl⟩, nofun, nofun⟩

theorem run_ide_inv (h : run (step havedisk1) (init buf disk) as = some s)
    (hp : s.panicked = none) :
    Inv s := by
  refine run_inv (P := fun s => s.panicked = none → Inv s) (fun s a s' hi hs hp => ?_)
    (fun _ => init_inv buf disk) h hp
  obtain ⟨h1, h2⟩ := step_move hs
  exact h2.inv (hi h1) hp

/-! ## Data -/

omit [DecidableEq P] [DecidableEq B] in
theorem Inv.complete_eq (h : Inv s) (hi : s.irq = true) (hq : s.queue = r :: rest) :
    (s.complete (s.buf r.buf)).data = s.disk (s.buf r.buf).addr := by
  have hc := h.drive.head r rest hq
  unfold State.complete State.insl
  rw [hc]
  unfold Buf.cmd at hc ⊢
  by_cases hd : (s.buf r.buf).dirty = true
  · rw [if_pos hd] at hc
    rw [if_pos hd]
    exact (h.drive.irq hi _ _ hc).symm
  · rw [if_neg hd, if_neg hd]

/-- No two locked buffers are for one block. -/
def Apart (s : State P B D) : Prop :=
  ∀ b b', s.lock b ≠ none → s.lock b' ≠ none → (s.buf b').addr = (s.buf b).addr → b' = b

/-- A process whose request is completed has in its buffer what is on disk. -/
def Agrees (s : State P B D) : Prop :=
  ∀ p r a, s.pc p = .waiting r a → r ∉ s.queue → (s.buf r.buf).data = s.disk (s.buf r.buf).addr

omit [DecidableEq P] [DecidableEq B] in
theorem startHead_agrees (h : Agrees s) : Agrees (startHead s) := by
  unfold startHead idestart
  split
  · exact h
  · split <;> exact h

omit [DecidableEq B] in
theorem enqueue_agrees (h : Agrees s) (r : Req P B) : Agrees (enqueue s r) := by
  have h1 : Agrees { s with
      queue := s.queue ++ [r]
      appended := s.appended ++ [r]
      pc := update s.pc r.proc (.waiting r true) } := by
    intro q r' a hw hr'
    dsimp only at hw hr' ⊢
    obtain ⟨h2, h3⟩ := not_or.1 (fun h0 => hr' (List.mem_append.2 h0))
    by_cases hq : q = r.proc
    · subst hq
      rw [update_self] at hw
      cases hw
      exact absurd (List.mem_singleton_self _) h3
    · rw [update_of_ne hq] at hw
      exact h q r' a hw h2
  unfold enqueue
  dsimp only
  split
  · exact startHead_agrees h1
  · exact h1

theorem Move.agrees (hi : Inv s) (h : Agrees s) (hd : Apart s) (hs : Move s s') : Agrees s' := by
  cases hs with
  | lock | unlock => exact h
  | set hb =>
    intro q r a hw hr
    dsimp only
    rw [update_of_ne (hi.queue.buf_ne_of_quiet hb hw)]
    exact h q r a hw hr
  | panic => exact h
  | enqueue hpc hl hd => exact enqueue_agrees h _
  | @check p r hw =>
    intro q r' a hw' hr'
    dsimp only at hw' hr' ⊢
    by_cases hq : q = p
    · subst hq
      rw [update_self] at hw'
      split at hw'
      · cases hw'
      · cases hw'
        exact h q r false hw hr'
    · rw [update_of_ne hq] at hw'
      exact h q r' a hw' hr'
  | @finish c hc =>
    intro q r a hw hr
    -- the sector that changes is that of the head of the queue, which is another buffer's
    obtain ⟨r₀, rest, hq⟩ := List.exists_cons_of_ne_nil fun h0 => by
      have := (hi.drive.idle h0).1
      rw [hc] at this
      cases this
    have hmem : r₀ ∈ s.queue := hq ▸ List.mem_cons_self ..
    have hne : (s.buf r.buf).addr ≠ (s.buf r₀.buf).addr := fun heq => by
      obtain ⟨-, hl₀, -⟩ := hi.queue.queued r₀ hmem
      obtain ⟨-, hl, -⟩ := hi.queue.waiting q r a hw
      have hb := hd r₀.buf r.buf (by rw [hl₀]; nofun) (by rw [hl]; nofun) heq
      exact hr (hi.queue.buf_inj hmem hw hb ▸ hmem)
    have hcmd := hi.drive.head r₀ rest hq
    rw [hc, Buf.cmd] at hcmd
    dsimp only
    rw [h q r a hw hr]
    split at hcmd
    · cases hcmd
      exact (update_of_ne hne _ _).symm
    · cases hcmd
      rfl
  | intr hirq =>
    unfold ideintr
    split
    · exact h
    · next r rest hq =>
      refine startHead_agrees fun q r' a hw hr' => ?_
      obtain ⟨a', hw', -⟩ := wakeup_waiting.1 hw
      dsimp only at hr' ⊢
      by_cases hb : r'.buf = r.buf
      · rw [hb, update_self]
        exact hi.complete_eq hirq hq
      · rw [update_of_ne hb]
        refine h q r' a' hw' fun hmem => ?_
        rw [hq] at hmem
        rcases List.mem_cons.1 hmem with hmem | hmem
        · exact hb (by rw [hmem])
        · exact hr' hmem

theorem run_agrees (h : run (step havedisk1) (init buf disk) as = some s) (hp : s.panicked = none)
    (hok : Along (step havedisk1) (fun s _ => Apart s) (init buf disk) as) : Agrees s := by
  refine (run_inv_along (P := fun s => s.panicked = none → Inv s ∧ Agrees s)
    (fun s a s' hi ha hs hp => ?_) (fun _ => ⟨init_inv buf disk, nofun⟩) h hok hp).2
  obtain ⟨h1, h2⟩ := step_move hs
  obtain ⟨h3, h4⟩ := hi h1
  exact ⟨h2.inv h3 hp, h2.agrees h3 h4 ha⟩

omit [DecidableEq P] [DecidableEq B] in
theorem startHead_buf : (startHead s).buf = s.buf ∧ (startHead s).disk = s.disk ∧
    (startHead s).completed = s.completed ∧ (startHead s).pc = s.pc := by
  unfold startHead idestart
  split
  · exact ⟨rfl, rfl, rfl, rfl⟩
  · split <;> exact ⟨rfl, rfl, rfl, rfl⟩

omit [DecidableEq B] in
theorem enqueue_pc (hw : s.pc p = .waiting r w) (hpc : s.pc r'.proc = .idle) :
    (enqueue s r').pc p = s.pc p := by
  have hne : p ≠ r'.proc := by
    rintro rfl
    rw [hw] at hpc
    cases hpc
  unfold enqueue
  dsimp only
  split
  · rw [startHead_buf.2.2.2]
    exact update_of_ne hne _ _
  · exact update_of_ne hne _ _

theorem Move.returns (hi : Inv s) (hs : Move s s') (hw : s.pc p = .waiting r w)
    (hret : s'.pc p = .idle) :
    r ∈ s.completed ∧ (s.buf r.buf).done = true ∧ r ∉ s.queue ∧ s'.buf = s.buf ∧
    s'.disk = s.disk := by
  have hstay : s'.pc p = s.pc p → False := fun heq => by
    rw [heq, hw] at hret
    cases hret
  cases hs with
  | lock | unlock | set | panic => exact (hstay rfl).elim
  | enqueue hpc hl hd => exact (hstay (enqueue_pc hw hpc)).elim
  | @check q r' hw' =>
    by_cases hq : p = q
    · subst hq
      rw [hw] at hw'
      cases hw'
      dsimp only at hret
      rw [update_self] at hret
      split at hret
      · next hdone =>
        obtain ⟨-, -, h3⟩ := hi.queue.waiting p r false hw
        rcases h3 with h3 | h3
        · rw [(hi.queue.queued r h3).2.2] at hdone
          cases hdone
        · exact ⟨h3.1, hdone, fun hm => hi.queue.not_mem_completed hm h3.1, rfl, rfl⟩
      · cases hret
    · exact (hstay (update_of_ne hq _ _)).elim
  | finish hc => exact (hstay rfl).elim
  | intr hirq =>
    unfold ideintr at hret
    split at hret
    · rw [show s.pc p = _ from hret] at hw
      cases hw
    · next r' rest hq =>
      rw [startHead_buf.2.2.2] at hret
      have : wakeup r'.buf s.pc p = .waiting r (if r.buf = r'.buf then false else w) :=
        wakeup_waiting.2 ⟨w, hw, rfl⟩
      rw [show wakeup r'.buf s.pc p = _ from hret] at this
      cases this

/-- **The disk queue.** In every state that any number of processes and the interrupts can reach
without a panic:

* the requests that were started are the completed ones and the one at the head of the queue, in the
  order in which they were appended, and each appended request is completed once or still waits once;
* the drives have been given the command for the head of the queue, and nothing if it is empty;
* an interrupt completes the request at the head, with its buffer equal to its sector, and a buffer to
  be written is not changed;
* a process whose request is completed is awake, and `iderw` returns only then, with the buffer equal
  to the disk block if no two locked buffers were for the same block. -/
theorem disk_queue (havedisk1 : Bool) (buf : B → Buf D) (disk : Nat × Nat → D)
    (as : List (Act P B D)) (s : State P B D)
    (h : run (step havedisk1) (init buf disk) as = some s) (hp : s.panicked = none) :
    (s.started = s.completed ++ s.queue.take 1 ∧ s.appended = s.completed ++ s.queue ∧
      s.appended.Nodup) ∧
    s.active = (s.queue.head?.map fun r => (s.buf r.buf).cmd) ∧
    (∀ s' r rest, step havedisk1 s .intr = some s' → s.queue = r :: rest →
      s'.completed = s.completed ++ [r] ∧ (s'.buf r.buf).done = true ∧
        (s'.buf r.buf).data = s'.disk (s'.buf r.buf).addr ∧
        ((s.buf r.buf).dirty = true → (s'.buf r.buf).data = (s.buf r.buf).data)) ∧
    (∀ p r w, s.pc p = .waiting r w → r ∈ s.completed → w = false) ∧
    ∀ a s' p r w, step havedisk1 s a = some s' → s.pc p = .waiting r w → s'.pc p = .idle →
      r ∈ s.completed ∧ (s'.buf r.buf).done = true ∧
        (Along (step havedisk1) (fun s _ => Apart s) (init buf disk) as →
          (s'.buf r.buf).data = s'.disk (s'.buf r.buf).addr) := by
  have hi := run_ide_inv h hp
  refine ⟨⟨hi.drive.started, hi.queue.appended, hi.queue.nodup⟩, ?_, fun s' r rest hs hq => ?_,
    fun p r w hw hc => ?_, fun a s' p r w hs hw hret => ?_⟩
  · cases hq : s.queue with
    | nil => exact (hi.drive.idle hq).1
    | cons r rest => exact hi.drive.head r rest hq
  · unfold step at hs
    rw [if_neg (by simpa using hp)] at hs
    simp only [Option.ite_none_right_eq_some, Option.some.injEq] at hs
    obtain ⟨hirq, rfl⟩ := hs
    unfold ideintr
    rw [hq]
    dsimp only
    obtain ⟨h1, h2, h3, -⟩ := startHead_buf (s := { s with
      irq := false
      active := none
      queue := rest
      buf := update s.buf r.buf (s.complete (s.buf r.buf))
      pc := wakeup r.buf s.pc
      completed := s.completed ++ [r] })
    rw [h1, h2, h3]
    dsimp only
    rw [update_self]
    refine ⟨rfl, rfl, hi.complete_eq hirq hq, fun hd => ?_⟩
    unfold State.complete
    exact if_pos hd
  · obtain ⟨-, -, h3⟩ := hi.queue.waiting p r w hw
    rcases h3 with h3 | h3
    · exact absurd hc (hi.queue.not_mem_completed h3)
    · exact h3.2.1
  · obtain ⟨h1, h2, h3, h4, h5⟩ := (step_move hs).2.returns hi hw hret
    rw [h4, h5]
    exact ⟨h1, h2, fun hok => run_agrees h hp hok p r w hw h3⟩

end

/-- A read by process 0 and a write by process 1, up to where the write is started. -/
def twoRequests : List (Act (Fin 2) (Fin 2) Nat) :=
  [.lock 0 0, .set 0 ⟨false, false, 1, 5, 0⟩, .lock 1 1, .set 1 ⟨true, true, 1, 6, 9⟩, .iderw 0 0,
    .iderw 1 1, .finish, .intr]

/-- The read is completed, the write is started, and the data that was read is that of the disk. -/
theorem disk_queue_twoRequests :
    ∃ s, run (step true) (init (fun _ => ⟨false, false, 0, 0, 0⟩) fun _ => 7) twoRequests = some s ∧
      (s.completed = [⟨0, 0, 0⟩] ∧ s.queue = [⟨1, 1, 1⟩]) ∧
      s.started = s.completed ++ s.queue.take 1 := by
  have h : (run (step true) (init (fun _ => ⟨false, false, 0, 0, 0⟩) fun _ => 7) twoRequests).map
      (fun s => (s.completed, s.queue, s.panicked)) = some ([⟨0, 0, 0⟩], [⟨1, 1, 1⟩], none) := by
    decide +kernel
  obtain ⟨s, hs, hd⟩ := Option.map_eq_some_iff.1 h
  obtain ⟨h1, h2⟩ := Prod.mk.inj hd
  obtain ⟨h2, h3⟩ := Prod.mk.inj h2
  exact ⟨s, hs, ⟨h1, h2⟩, (disk_queue true _ _ _ s hs h3).1.1⟩

end Xv6.Ide
