import Xv6.Ipc.Pipe
import Xv6.Kernel.Proof.ThreadInv

/-!
# Pipes are byte streams

`storedOn` and `deliveredOn` are the bytes a critical section stores in a pipe and the bytes it
hands to a reader. On the queue the ring holds, every critical section obeys one law,
`pipe_section`: what was held and what was stored is what is delivered and what is held afterwards.
Along a run this adds up to `Stream`: all bytes stored are the bytes delivered followed by those in
the ring, which is `pipe_stream`.
-/

namespace Xv6

open Lib

variable {p : Nat} {q : List UInt8} {e : PipeEntry} {k : Bool} {pi : Pipe} {s : PipeThreads}

/-! ## The loops of `pipewrite` and `piperead` -/

namespace Pipe

theorem size_lt : pipeSize < 2 ^ 32 := by decide

theorem size_dvd : pipeSize ∣ 2 ^ 32 := by decide

section
variable {p : Pipe} {q : List UInt8}

theorem full_iff (h : p.Holds q) : p.full = true ↔ q.length = pipeSize := by
  rw [full, decide_eq_true_iff]
  exact h.full_iff size_lt

theorem empty_iff (h : p.Holds q) : p.empty = true ↔ q = [] := by
  rw [empty, decide_eq_true_iff]
  exact h.empty_iff size_lt

theorem Holds.store (h : p.Holds q) (hf : ¬ p.full = true) (b : UInt8) :
    (p.store b).Holds (q ++ [b]) := by
  refine Ring.Holds.put size_dvd h ?_ b
  have := h.le
  rw [full_iff h] at hf
  omega

end

theorem storeAll_frame (rest : List UInt8) (p : Pipe) :
    (storeAll rest p).1.readopen = p.readopen ∧ (storeAll rest p).1.writeopen = p.writeopen ∧
      (storeAll rest p).1.nread = p.nread := by
  induction rest generalizing p with
  | nil => exact ⟨rfl, rfl, rfl⟩
  | cons b bs ih =>
    rw [storeAll]
    split
    · exact ⟨rfl, rfl, rfl⟩
    · exact ih (p.store b)

theorem storeAll_full (rest : List UInt8) {p : Pipe} (h : (storeAll rest p).2 ≠ []) :
    (storeAll rest p).1.full = true := by
  induction rest generalizing p with
  | nil => exact absurd rfl h
  | cons b bs ih =>
    rw [storeAll] at h ⊢
    split at h
    · rename_i hf
      rwa [if_pos hf]
    · rename_i hf
      rw [if_neg hf]
      exact ih h

theorem storeAll_spec (rest : List UInt8) {p : Pipe} (h : p.Holds q) :
    ∃ st, rest = st ++ (storeAll rest p).2 ∧ (storeAll rest p).1.Holds (q ++ st) := by
  induction rest generalizing p q with
  | nil => exact ⟨[], rfl, by rwa [List.append_nil]⟩
  | cons b bs ih =>
    rw [storeAll]
    split
    · exact ⟨[], rfl, by rwa [List.append_nil]⟩
    · rename_i hf
      obtain ⟨st, hst, hq⟩ := ih (Holds.store h hf b)
      refine ⟨b :: st, by rw [List.cons_append, ← hst], ?_⟩
      rwa [List.append_cons]

theorem copyOut_spec (n : Nat) {p : Pipe} (h : p.Holds q) :
    (copyOut n p).2 = q.take n ∧ (copyOut n p).1.Holds (q.drop n) := by
  induction n generalizing p q with
  | zero => exact ⟨rfl, h⟩
  | succ n ih =>
    rw [copyOut]
    cases q with
    | nil =>
      rw [if_pos ((empty_iff h).2 rfl)]
      exact ⟨rfl, h⟩
    | cons b q =>
      rw [if_neg (by rw [empty_iff h]; nofun)]
      obtain ⟨hb, hq⟩ := Ring.Holds.drop h
      obtain ⟨h1, h2⟩ := ih (p := p.advance) hq
      exact ⟨by dsimp only; rw [h1, hb]; rfl, h2⟩

end Pipe

variable {n : Int} {es : List PipeEntry} {proc : Ptable} {data : Nat → Fin pipeSize → UInt8}
  {as : List (ThreadAct PipeAct)}

/-! ## Critical sections -/

/-- The bytes a critical section stores in pipe `p`: as many of the bytes the `pipewrite` still had
as `nwrite` counts up. -/
def storedOn (p : Nat) (e : PipeEntry) : List UInt8 :=
  match e.call with
  | .write p' _ rest => if p' = p then rest.take (e.sec.obj.nwrite - e.before.nwrite).toNat else []
  | _ => []

/-- The bytes that a call has read from pipe `p`. -/
def deliveredOn (p : Nat) (e : PipeEntry) : List UInt8 :=
  match e.call, e.sec.next with
  | .read p' _, .leave r => if p' = p then r.buf else []
  | _, _ => []

theorem storedOn_of_ne (h : e.call.pipe ≠ p) : storedOn p e = [] := by
  unfold storedOn
  split
  · rename_i hc
    rw [hc] at h
    exact if_neg h
  · rfl

theorem deliveredOn_of_ne (h : e.call.pipe ≠ p) :
    deliveredOn p e = [] := by
  unfold deliveredOn
  split
  · rename_i hc _
    rw [hc] at h
    exact if_neg h
  · rfl

/-- The three ways out of `pipewrite`'s loop: done, given up, asleep. -/
inductive WriteEnd (p : Nat) (n : Int) (rest : List UInt8) : Then PipeCall Ret → Prop
  | done : rest = [] → WriteEnd p n rest (.leave ⟨n, []⟩)
  | gaveUp : rest ≠ [] → WriteEnd p n rest (.leave ⟨-1, []⟩)
  | asleep : rest ≠ [] → WriteEnd p n rest (.sleep (.write p n rest))

theorem pipewriteBody_cases (p : Nat) (n : Int) (rest : List UInt8) (k : Bool) (pi : Pipe) :
    ((pi.storeAll rest).2 = [] ∧
      pipewriteBody p n rest k pi = ⟨(pi.storeAll rest).1, [.nread p], .leave ⟨n, []⟩⟩) ∨
    ((pi.storeAll rest).2 ≠ [] ∧ (pi.readopen = 0 ∨ k = true) ∧
      pipewriteBody p n rest k pi = ⟨(pi.storeAll rest).1, [], .leave ⟨-1, []⟩⟩) ∨
    ((pi.storeAll rest).2 ≠ [] ∧ ¬ (pi.readopen = 0 ∨ k = true) ∧
      pipewriteBody p n rest k pi =
        ⟨(pi.storeAll rest).1, [.nread p], .sleep (.write p n (pi.storeAll rest).2)⟩) := by
  rw [← (Pipe.storeAll_frame rest pi).1]
  unfold pipewriteBody
  split
  · rename_i hs
    rw [hs]
    exact .inl ⟨rfl, rfl⟩
  · rename_i hs
    rw [hs]
    split
    · rename_i hg
      exact .inr (.inl ⟨List.cons_ne_nil _ _, hg, rfl⟩)
    · rename_i hg
      exact .inr (.inr ⟨List.cons_ne_nil _ _, hg, rfl⟩)

theorem pipewriteBody_obj (p : Nat) (n : Int) (rest : List UInt8) (k : Bool) (pi : Pipe) :
    (pipewriteBody p n rest k pi).obj = (pi.storeAll rest).1 := by
  rcases pipewriteBody_cases p n rest k pi with ⟨-, hb⟩ | ⟨-, -, hb⟩ | ⟨-, -, hb⟩ <;> rw [hb]

theorem pipewriteBody_end (p : Nat) (n : Int) (rest : List UInt8) (k : Bool) (pi : Pipe) :
    WriteEnd p n (pi.storeAll rest).2 (pipewriteBody p n rest k pi).next := by
  rcases pipewriteBody_cases p n rest k pi with ⟨h, hb⟩ | ⟨h, -, hb⟩ | ⟨h, -, hb⟩
  · rw [hb]
    exact .done h
  · rw [hb]
    exact .gaveUp h
  · rw [hb]
    exact .asleep h

theorem pipereadBody_cases (p : Nat) (n : Int) (k : Bool) (pi : Pipe) :
    (pi.empty = true ∧ pi.writeopen ≠ 0 ∧ (pipereadBody p n k pi = ⟨pi, [], .leave ⟨-1, []⟩⟩ ∨
      pipereadBody p n k pi = ⟨pi, [], .sleep (.read p n)⟩)) ∨
    (¬ (pi.empty = true ∧ pi.writeopen ≠ 0) ∧ pipereadBody p n k pi =
      ⟨(pi.copyOut n.toNat).1, [.nwrite p],
        .leave ⟨(pi.copyOut n.toNat).2.length, (pi.copyOut n.toNat).2⟩⟩) := by
  unfold pipereadBody
  split
  · rename_i hw
    refine .inl ⟨hw.1, hw.2, ?_⟩
    cases k
    · exact .inr rfl
    · exact .inl rfl
  · rename_i hw
    exact .inr ⟨hw, rfl⟩

theorem storedOn_write {t : Slot} {rest : List UInt8} (h : pi.Holds q) :
    rest = storedOn p ⟨t, .write p n rest, pi, pipewriteBody p n rest k pi⟩ ++
        (pi.storeAll rest).2 ∧
      (pi.storeAll rest).1.Holds
        (q ++ storedOn p ⟨t, .write p n rest, pi, pipewriteBody p n rest k pi⟩) := by
  obtain ⟨st, hst, hq⟩ := Pipe.storeAll_spec rest h
  have hlen : ((pi.storeAll rest).1.nwrite - pi.nwrite).toNat = st.length := by
    have h1 := hq.dist_toNat Pipe.size_lt
    have h2 := h.dist_toNat Pipe.size_lt
    have hle := hq.le
    have hsz := Pipe.size_lt
    rw [(Pipe.storeAll_frame rest pi).2.2] at h1
    rw [List.length_append] at h1 hle
    bv_omega
  have heq : storedOn p ⟨t, .write p n rest, pi, pipewriteBody p n rest k pi⟩ = st := by
    simp only [storedOn, if_pos, pipewriteBody_obj, hlen]
    nth_rewrite 1 [hst]
    exact List.take_left
  rw [heq]
  exact ⟨hst, hq⟩

/-- **One critical section**: held and stored is delivered and held. -/
theorem pipe_section {c : PipeCall} (t : Slot) (hc : c.pipe = p) (h : pi.Holds q) :
    ∃ q', q ++ storedOn p ⟨t, c, pi, c.body k pi⟩ = deliveredOn p ⟨t, c, pi, c.body k pi⟩ ++ q' ∧
      (c.body k pi).obj.Holds q' := by
  subst hc
  cases c with
  | write p n rest =>
    refine ⟨q ++ storedOn p ⟨t, .write p n rest, pi, pipewriteBody p n rest k pi⟩, rfl, ?_⟩
    change (pipewriteBody p n rest k pi).obj.Holds _
    rw [pipewriteBody_obj]
    exact (storedOn_write h).2
  | read p n =>
    simp only [storedOn, deliveredOn, PipeCall.body, PipeCall.pipe, List.append_nil]
    rcases pipereadBody_cases p n k pi with ⟨-, -, hb | hb⟩ | ⟨-, hb⟩
    · rw [hb]
      exact ⟨q, by simp, h⟩
    · rw [hb]
      exact ⟨q, rfl, h⟩
    · rw [hb]
      obtain ⟨hbuf, hq⟩ := Pipe.copyOut_spec n.toNat h
      exact ⟨q.drop n.toNat, by simp [hbuf], hq⟩
  | close p writable =>
    refine ⟨q, by simp [storedOn, deliveredOn], ?_⟩
    cases writable <;> exact h

/-! ## Every run -/

/-- The bytes written to pipe `p`, in order. -/
def stored (p : Nat) (es : List PipeEntry) : List UInt8 := es.flatMap (storedOn p)

/-- The bytes the reads of pipe `p` delivered, in the order of their completion. -/
def delivered (p : Nat) (es : List PipeEntry) : List UInt8 := es.flatMap (deliveredOn p)

/-- What was stored in pipe `p` was delivered, in order, or is in the ring. -/
def Stream (es : List PipeEntry) (s : PipeThreads) (p : Nat) : Prop :=
  ∃ q, stored p es = delivered p es ++ q ∧ (s.obj p).Holds q

theorem pipe_not_code {r r' : Ret} {a : PipeAct} {obj : Nat → Pipe}
    (h : pipes.outside r a s.obj = some (.code obj r')) : False := by
  cases h

theorem stream_step {s' : PipeThreads} {a : ThreadAct PipeAct}
    (hs : ∀ p, Stream es s p) (h : pipes.step s a = some s') (p : Nat) :
    Stream (es ++ pipes.sections s a) s' p := by
  obtain ⟨q, hst, hq⟩ := hs p
  rcases step_obj h with ⟨hobj, hsec⟩ | ⟨t, c, sec, hb, hobj, hsec⟩ | ⟨t, a', r, r', -, ho, hsec⟩
  · rw [hsec, List.append_nil, Stream, hobj]
    exact ⟨q, hst, hq⟩
  · rw [hsec]
    simp only [Stream, stored, delivered, List.flatMap_append, List.flatMap_singleton] at hst ⊢
    rcases eq_or_ne c.pipe p with hp | hp
    · subst hb
      obtain ⟨q', hlaw, hq'⟩ := pipe_section (k := (s.proc t).killed) t hp hq
      subst hp
      refine ⟨q', ?_, ?_⟩
      · rw [hst, List.append_assoc, List.append_assoc]
        exact congrArg _ hlaw
      · rw [hobj, show pipes.lockOf c = c.pipe from rfl, Function.update_self]
        exact hq'
    · rw [storedOn_of_ne (e := ⟨t, c, _, sec⟩) hp, deliveredOn_of_ne (e := ⟨t, c, _, sec⟩) hp,
        List.append_nil, List.append_nil, hobj,
        Function.update_of_ne (show p ≠ pipes.lockOf c from hp.symm)]
      exact ⟨q, hst, hq⟩
  · exact (pipe_not_code ho).elim

theorem stream_run (h : run pipes.step (pipeBoot proc data) as = some s) (p : Nat) :
    Stream (trace pipes.step pipes.sections (pipeBoot proc data) as) s p := by
  have h1 : ∀ p, Stream ([] ++ trace pipes.step pipes.sections (pipeBoot proc data) as) s p :=
    trace_inv (P := fun es s => ∀ p, Stream es s p) (fun _ _ _ _ hs h => stream_step hs h)
      (fun p => ⟨[], rfl, Ring.Holds.empty _ _⟩) h
  exact h1 p

theorem section_of_trace {es₁ es₂ : List PipeEntry}
    (h : run pipes.step (pipeBoot proc data) as = some s)
    (he : trace pipes.step pipes.sections (pipeBoot proc data) as = es₁ ++ e :: es₂) :
    ∃ k q, e.sec = e.call.body k e.before ∧ e.before.Holds q ∧
      stored e.call.pipe es₁ = delivered e.call.pipe es₁ ++ q := by
  obtain ⟨as₁, a, as₂, s₁, s₂, l₁, l₂, -, hr, hs, -, hev, rfl⟩ := trace_split h he
  rcases step_obj hs with ⟨-, hsec⟩ | ⟨t, c, sec, hb, -, hsec⟩ | ⟨t, a', r, r', -, -, hsec⟩
  · rw [hsec] at hev
    simp at hev
  · rw [hsec] at hev
    obtain ⟨rfl, hev⟩ := List.singleton_eq_append_iff.1 hev |>.resolve_right fun h => by
      simp at h
    obtain ⟨rfl, -⟩ := List.cons_eq_cons.1 hev
    obtain ⟨q, hst, hq⟩ := stream_run hr c.pipe
    refine ⟨(s₁.proc t).killed, q, hb.symm, hq, ?_⟩
    rwa [List.append_nil]
  · rw [hsec] at hev
    simp at hev

theorem read_returned {r : Ret} (h : pi.Holds q)
    (hst : stored p es = delivered p es ++ q) (hr : (pipereadBody p n k pi).next = .leave r) :
    (r = ⟨-1, []⟩ ∨ r.value = r.buf.length) ∧
      (0 < n → r.value = 0 → stored p es = delivered p es ∧ pi.writeopen = 0) := by
  rcases pipereadBody_cases p n k pi with ⟨-, -, hb | hb⟩ | ⟨hw, hb⟩
  · rw [hb] at hr
    cases hr
    exact ⟨.inl rfl, nofun⟩
  · rw [hb] at hr
    cases hr
  · rw [hb] at hr
    cases hr
    refine ⟨.inr rfl, fun hn h0 => ?_⟩
    have hq : q = [] := by
      dsimp only at h0
      rw [(Pipe.copyOut_spec n.toNat h).1, List.length_take] at h0
      apply List.length_eq_zero_iff.1
      omega
    rw [Pipe.empty_iff h] at hw
    subst hq
    exact ⟨by rwa [List.append_nil] at hst, by simpa using hw⟩

/-- **Pipes are byte streams.** In every run, on every pipe: the bytes stored are the bytes
delivered, in order, followed by those in the ring, at most `PIPESIZE` of them. A `piperead` of
`n > 0` bytes returns `0` only when every byte stored was delivered and the write end is closed. A
`pipewrite` stores its bytes in order from the first on: each of its critical sections stores some
and keeps the rest for the next; it returns `n` when none is left. -/
theorem pipe_stream (proc : Ptable) (data : Nat → Fin pipeSize → UInt8) (s : PipeThreads)
    (as : List (ThreadAct PipeAct))
    (h : run pipes.step (pipeBoot proc data) as = some s) (p : Nat) :
    let es := trace pipes.step pipes.sections (pipeBoot proc data) as
    (∃ q, stored p es = delivered p es ++ q ∧
      ((s.obj p).nwrite - (s.obj p).nread).toNat = q.length ∧
      ∀ (i : Nat) (hi : i < q.length),
        (s.obj p).data (Ring.cell ((s.obj p).nread + BitVec.ofNat 32 i)) = q[i]) ∧
    ((s.obj p).nwrite - (s.obj p).nread).toNat ≤ 512 ∧
    (∀ es₁ e es₂ n r, es = es₁ ++ e :: es₂ → e.call = .read p n → e.sec.next = .leave r →
      (r = ⟨-1, []⟩ ∨ r.value = r.buf.length) ∧
      (0 < n → r.value = 0 → stored p es₁ = delivered p es₁ ∧ e.before.writeopen = 0)) ∧
    ∀ es₁ e es₂ n rest, es = es₁ ++ e :: es₂ → e.call = .write p n rest →
      ∃ rest', rest = storedOn p e ++ rest' ∧ WriteEnd p n rest' e.sec.next := by
  intro es
  obtain ⟨q, hst, hq⟩ := stream_run h p
  have hdist := hq.dist_toNat Pipe.size_lt
  refine ⟨⟨q, hst, hdist, hq.data⟩, by rw [hdist]; exact hq.le, ?_, ?_⟩
  · rintro es₁ ⟨t, c, pi, sec⟩ es₂ n r he hc hr
    obtain rfl : c = .read p n := hc
    obtain ⟨k, q₁, hsec, hq₁, hst₁⟩ := section_of_trace h he
    obtain rfl : sec = pipereadBody p n k pi := hsec
    exact read_returned hq₁ hst₁ hr
  · rintro es₁ ⟨t, c, pi, sec⟩ es₂ n rest he hc
    obtain rfl : c = .write p n rest := hc
    obtain ⟨k, q₁, hsec, hq₁, -⟩ := section_of_trace h he
    obtain rfl : sec = pipewriteBody p n rest k pi := hsec
    exact ⟨_, (storedOn_write hq₁).1, pipewriteBody_end p n rest k pi⟩

def pipeActs : List (ThreadAct PipeAct) :=
  .outside 0 (.write 0 (fun i => UInt8.ofNat (104 + i)) 2) :: List.replicate 4 (.run 0) ++
    .outside 1 (.read 0 1) :: List.replicate 4 (.run 1)

theorem pipe_stream_ping :
    let es := trace pipes.step pipes.sections (pipeBoot pairProcs fun _ _ => 0) pipeActs
    stored 0 es = [104, 105] ∧ delivered 0 es = [104] ∧ ∃ q, stored 0 es = delivered 0 es ++ q := by
  have hs : (run pipes.step (pipeBoot pairProcs fun _ _ => 0) pipeActs).isSome := by
    decide +kernel
  obtain ⟨s, hs⟩ := Option.isSome_iff_exists.1 hs
  obtain ⟨q, hq, -⟩ := (pipe_stream pairProcs (fun _ _ => 0) s pipeActs hs 0).1
  exact ⟨by decide +kernel, by decide +kernel, q, hq⟩

end Xv6
