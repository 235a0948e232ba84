import Xv6.Ipc.Mailbox
import Xv6.Kernel.Proof.ThreadInv
import Mathlib.Data.List.Forall2

/-!
# Mailboxes are one-place FIFO channels

`Holds mb q`: the mailbox `mb` holds the messages `q`, none or one, with the bytes of the message at
the front of `msg[]`. A completed `ksend` turns `[]` into `[m]` and a completed `krecv` turns `[m]`
into `[]` and delivers `m` (`ksendBody_spec`, `krecvBody_spec`). Hence, along every run and on every
channel, the messages sent are those received, in order, followed by those the mailbox holds
(`Fifo`, kept by every step: `fifo_step`), which is `mailbox_fifo`.
-/

namespace Xv6

open Lib

variable {mb : Mailbox} {q : List Msg} {i : Fin numMailboxes} {s s' : MailboxThreads}
variable {e : MailboxEntry} {es : List MailboxEntry} {a : ThreadAct MailboxAct}

/-! ## The critical sections -/

/-- The mailbox holds the queue `q`. -/
def Holds (mb : Mailbox) (q : List Msg) : Prop :=
  match q with
  | [] => mb.full = 0
  | [m] => mb.full = 1 ∧ mb.msglen = m.bytes.length ∧ mb.bytes m.bytes.length = m.bytes
  | _ => False

/-- A `krecv` with the bound `r.1` returned `r.2`: the message `m`, cut to the bound. -/
def Delivers (m : Msg) (r : Int × Ret) : Prop :=
  r.2.value = min (m.bytes.length : Int) r.1 ∧
    r.2.buf = m.bytes.take (min (m.bytes.length : Int) r.1).toNat

theorem bytes_memmove (msg : Fin mailboxMsgSize → UInt8) (m : Msg) (len full : Int) :
    Mailbox.bytes ⟨Mailbox.memmove msg m.bytes, len, full⟩ m.bytes.length = m.bytes := by
  have hle := m.le
  apply List.ext_getElem
  · simp only [Mailbox.bytes, List.length_take, List.length_ofFn]
    omega
  · intro i h1 h2
    simp only [Mailbox.bytes, List.getElem_take, List.getElem_ofFn, Mailbox.memmove, h2, dif_pos,
      List.get_eq_getElem]

theorem bytes_take {m : Msg} (h : mb.bytes m.bytes.length = m.bytes) {n : Nat}
    (hn : n ≤ m.bytes.length) : mb.bytes n = m.bytes.take n := by
  rw [← h, Mailbox.bytes, Mailbox.bytes, List.take_take, Nat.min_eq_left hn]

theorem Holds.cases (h : Holds mb q) :
    (q = [] ∧ mb.full = 0) ∨ ∃ m, q = [m] ∧ mb.full = 1 ∧ mb.msglen = m.bytes.length ∧
      mb.bytes m.bytes.length = m.bytes := by
  match q, h with
  | [], h => exact .inl ⟨rfl, h⟩
  | [m], h => exact .inr ⟨m, rfl, h⟩

theorem ksendBody_spec (i : Fin numMailboxes) (m : Msg) (h : Holds mb q) :
    ((ksendBody i m mb).obj = mb ∧ (ksendBody i m mb).next = .sleep (.ksend i m)) ∨
    (q = [] ∧ Holds (ksendBody i m mb).obj [m] ∧ (ksendBody i m mb).next = .leave ⟨0, []⟩) := by
  unfold ksendBody
  rcases h.cases with ⟨rfl, h0⟩ | ⟨m', rfl, h1, -⟩
  · rw [if_neg (by simp [h0])]
    exact .inr ⟨rfl, ⟨rfl, rfl, bytes_memmove _ m _ _⟩, rfl⟩
  · rw [if_pos (by omega)]
    exact .inl ⟨rfl, rfl⟩

theorem krecvBody_spec (i : Fin numMailboxes) (maxlen : Int) (pos : 0 < maxlen) (h : Holds mb q) :
    ((krecvBody i maxlen pos mb).obj = mb ∧
      (krecvBody i maxlen pos mb).next = .sleep (.krecv i maxlen pos)) ∨
    (∃ m r, q = [m] ∧ Holds (krecvBody i maxlen pos mb).obj [] ∧
      (krecvBody i maxlen pos mb).next = .leave r ∧ Delivers m (maxlen, r)) := by
  unfold krecvBody
  rcases h.cases with ⟨rfl, h0⟩ | ⟨m, rfl, h1, hlen, hbytes⟩
  · rw [if_pos h0]
    exact .inl ⟨rfl, rfl⟩
  · rw [if_neg (by omega)]
    have hn : (if mb.msglen > maxlen then maxlen else mb.msglen) =
        min (m.bytes.length : Int) maxlen := by
      rw [hlen]
      split <;> omega
    refine .inr ⟨m, _, rfl, rfl, rfl, hn, ?_⟩
    simp only [hn]
    exact bytes_take hbytes (by omega)

/-! ## The channel -/

/-- The message stored on channel `i` by a critical section that completed a `ksend`. -/
def sentOn (i : Fin numMailboxes) (e : MailboxEntry) : Option Msg :=
  match e.call, e.sec.next with
  | .ksend j m, .leave _ => if j = i then some m else none
  | _, _ => none

/-- What a call has received from mailbox `i`. -/
def receivedOn (i : Fin numMailboxes) (e : MailboxEntry) : Option (Int × Ret) :=
  match e.call, e.sec.next with
  | .krecv j maxlen _, .leave r => if j = i then some (maxlen, r) else none
  | _, _ => none

/-- The messages sent to mailbox `i`, in order. -/
def sends (i : Fin numMailboxes) (es : List MailboxEntry) : List Msg := es.filterMap (sentOn i)

/-- What was received from it, in order. -/
def recvs (i : Fin numMailboxes) (es : List MailboxEntry) : List (Int × Ret) :=
  es.filterMap (receivedOn i)

/-- What was sent on channel `i` was received, in order, or is in the mailbox. -/
def Fifo (es : List MailboxEntry) (s : MailboxThreads) (i : Fin numMailboxes) : Prop :=
  ∃ taken q, sends i es = taken ++ q ∧ List.Forall₂ Delivers taken (recvs i es) ∧ Holds (s.obj i) q

theorem sentOn_of_ne (h : e.call.chan ≠ i) :
    sentOn i e = none := by
  unfold sentOn
  split
  · rename_i hc _
    rw [hc] at h
    exact if_neg h
  · rfl

theorem receivedOn_of_ne (h : e.call.chan ≠ i) :
    receivedOn i e = none := by
  unfold receivedOn
  split
  · rename_i hc _
    rw [hc] at h
    exact if_neg h
  · rfl

theorem mailbox_code {r r' : Ret} {a : MailboxAct} {obj : Fin numMailboxes → Mailbox}
    (h : mailboxes.outside r a s.obj = some (.code obj r')) :
    obj = s.obj := by
  simp only [mailboxes] at h
  split at h
  · cases h
  · cases h
    rfl

theorem filterMap_concat {α β : Type*} (f : α → Option β) (l : List α) (a : α) :
    (l ++ [a]).filterMap f = l.filterMap f ++ (f a).toList := by
  rw [List.filterMap_append, List.filterMap_cons]
  cases f a <;> rfl

theorem fifo_body {c : MailboxCall} {t : Slot} (hi : c.chan = i)
    (hf : Fifo es s i) (hs' : s'.obj i = (c.body (s.obj i)).obj) :
    Fifo (es ++ [⟨t, c, s.obj i, c.body (s.obj i)⟩]) s' i := by
  obtain ⟨taken, q, hsent, hrecv, hq⟩ := hf
  simp only [Fifo, sends, recvs, filterMap_concat] at hsent hrecv ⊢
  rw [hsent, hs']
  cases c with
  | ksend j m =>
    obtain rfl : j = i := hi
    rcases ksendBody_spec j m hq with ⟨hobj, hnext⟩ | ⟨rfl, hobj, hnext⟩
    · exact ⟨taken, q, by simp [sentOn, MailboxCall.body, hnext], by simpa [receivedOn] using hrecv,
        by rw [MailboxCall.body, hobj]; exact hq⟩
    · exact ⟨taken, [m], by simp [sentOn, MailboxCall.body, hnext],
        by simpa [receivedOn] using hrecv, hobj⟩
  | krecv j maxlen pos =>
    obtain rfl : j = i := hi
    rcases krecvBody_spec j maxlen pos hq with ⟨hobj, hnext⟩ | ⟨m, r, rfl, hobj, hnext, hdel⟩
    · exact ⟨taken, q, by simp [sentOn], by simpa [receivedOn, MailboxCall.body, hnext] using hrecv,
        by rw [MailboxCall.body, hobj]; exact hq⟩
    · refine ⟨taken ++ [m], [], by simp [sentOn], ?_, hobj⟩
      simpa [receivedOn, MailboxCall.body, hnext] using List.rel_append hrecv (.cons hdel .nil)

theorem fifo_step (hf : ∀ i, Fifo es s i)
    (h : mailboxes.step s a = some s') (i : Fin numMailboxes) :
    Fifo (es ++ mailboxes.sections s a) s' i := by
  rcases step_obj h with ⟨hobj, hsec⟩ | ⟨t, c, sec, rfl, hobj, hsec⟩ | ⟨t, a', r, r', -, ho, hsec⟩
  · rw [hsec, List.append_nil, Fifo, hobj]
    exact hf i
  · rw [hsec]
    rcases eq_or_ne c.chan i with rfl | hi
    · exact fifo_body rfl (hf _) (by rw [hobj]; exact Function.update_self ..)
    · obtain ⟨taken, q, hsent, hrecv, hq⟩ := hf i
      refine ⟨taken, q, ?_, ?_, ?_⟩
      · simpa [sends, sentOn_of_ne (e := ⟨t, c, _, _⟩) hi] using hsent
      · simpa [recvs, receivedOn_of_ne (e := ⟨t, c, _, _⟩) hi] using hrecv
      · rwa [hobj, Function.update_of_ne (show i ≠ mailboxes.lockOf c from hi.symm)]
  · rw [hsec, List.append_nil, Fifo, mailbox_code ho]
    exact hf i

/-! ## Every run -/

theorem fifo_init (proc : Ptable) (mbs : Fin numMailboxes → Mailbox) (i : Fin numMailboxes) :
    Fifo [] (mailboxBoot proc mbs) i := ⟨[], [], rfl, .nil, rfl⟩

theorem fifo_run {proc : Ptable} {mbs : Fin numMailboxes → Mailbox}
    {as : List (ThreadAct MailboxAct)} (h : run mailboxes.step (mailboxBoot proc mbs) as = some s)
    (i : Fin numMailboxes) :
    Fifo (trace mailboxes.step mailboxes.sections (mailboxBoot proc mbs) as) s i := by
  have h1 : ∀ i, Fifo ([] ++ trace mailboxes.step mailboxes.sections (mailboxBoot proc mbs) as) s i :=
    trace_inv (P := fun es s => ∀ i, Fifo es s i) (fun _ _ _ _ hf hs => fifo_step hf hs)
      (fifo_init proc mbs) h
  exact h1 i

theorem mailbox_frame (h : mailboxes.step s a = some s')
    (hi : ∀ e ∈ mailboxes.sections s a, e.call.chan ≠ i) :
    s'.obj i = s.obj i := by
  rcases step_obj h with ⟨hobj, -⟩ | ⟨t, c, sec, -, hobj, hsec⟩ | ⟨t, a', r, r', -, ho, -⟩
  · rw [hobj]
  · have hc : c.chan ≠ i := hi ⟨t, c, _, sec⟩ (by rw [hsec]; exact List.mem_singleton_self _)
    rw [hobj, Function.update_of_ne (show i ≠ mailboxes.lockOf c from hc.symm)]
  · rw [mailbox_code ho]

/-- **Mailboxes are FIFO channels.** In every run, on every channel: the `k`-th `krecv` to complete
returns the message of the `k`-th `ksend` to complete, cut to its bound; `full` is the number of
sends less the number of receives, `0` or `1`; while it is `1` the mailbox holds the last message
sent. A critical section on one channel leaves the others as they were. -/
theorem mailbox_fifo (proc : Ptable) (mbs : Fin numMailboxes → Mailbox) (s : MailboxThreads)
    (as : List (ThreadAct MailboxAct)) (h : run mailboxes.step (mailboxBoot proc mbs) as = some s) :
    (∀ i, let es := trace mailboxes.step mailboxes.sections (mailboxBoot proc mbs) as
      (∀ (k : Nat) maxlen r, (recvs i es)[k]? = some (maxlen, r) → ∃ m, (sends i es)[k]? = some m ∧
        r.value = min (m.bytes.length : Int) maxlen ∧
        r.buf = m.bytes.take (min (m.bytes.length : Int) maxlen).toNat) ∧
      ((sends i es).length : Int) - (recvs i es).length = (s.obj i).full ∧
      ((s.obj i).full = 0 ∨ (s.obj i).full = 1) ∧
      ((s.obj i).full = 1 → ∃ m, (sends i es).getLast? = some m ∧
        (s.obj i).msglen = m.bytes.length ∧ (s.obj i).bytes m.bytes.length = m.bytes)) ∧
    ∀ a s' i, mailboxes.step s a = some s' → (∀ e ∈ mailboxes.sections s a, e.call.chan ≠ i) →
      s'.obj i = s.obj i := by
  refine ⟨fun i => ?_, fun a s' i => mailbox_frame⟩
  obtain ⟨taken, q, hsent, hrecv, hq⟩ := fifo_run h i
  have hlen := hrecv.length_eq
  dsimp only
  rw [hsent, List.length_append, ← hlen]
  refine ⟨fun k maxlen r hk => ?_, ?_⟩
  · obtain ⟨hk', hr⟩ := List.getElem?_eq_some_iff.1 hk
    have hkt : k < taken.length := hlen ▸ hk'
    have hd := hrecv.get hkt hk'
    rw [List.get_eq_getElem, List.get_eq_getElem, hr] at hd
    exact ⟨taken[k], by rw [List.getElem?_append_left hkt, List.getElem?_eq_getElem hkt], hd⟩
  · rcases hq.cases with ⟨rfl, h0⟩ | ⟨m, rfl, h1, hml, hb⟩
    · rw [h0]
      exact ⟨by simp, .inl rfl, nofun⟩
    · rw [h1, List.length_singleton]
      exact ⟨by omega, .inr rfl, fun _ => ⟨m, by simp, hml, hb⟩⟩

def zeroBoxes : Fin numMailboxes → Mailbox := fun _ => ⟨fun _ => 0, 0, 0⟩

/-- Process 1 calls `krecv` on the empty mailbox 0, with room for one byte, and falls asleep. -/
def waitActs : List (ThreadAct MailboxAct) :=
  .outside 1 (.krecv 0 1) :: List.replicate 5 (.run 1)

def sendActs : List (ThreadAct MailboxAct) :=
  .outside 0 (.ksend 0 (fun i => UInt8.ofNat (104 + i)) 2) :: List.replicate 4 (.run 0) ++
    .dispatch 1 :: List.replicate 4 (.run 1)

theorem mailbox_fifo_ping :
    let es := trace mailboxes.step mailboxes.sections (mailboxBoot pairProcs zeroBoxes)
      (waitActs ++ sendActs)
    recvs 0 es = [(1, ⟨1, [104]⟩)] ∧ ∃ m, (sends 0 es)[0]? = some m ∧
      (1 : Int) = min (m.bytes.length : Int) 1 ∧ [104] = m.bytes.take
        (min (m.bytes.length : Int) 1).toNat := by
  have hr : recvs 0 (trace mailboxes.step mailboxes.sections (mailboxBoot pairProcs zeroBoxes)
      (waitActs ++ sendActs)) = [(1, ⟨1, [104]⟩)] := by decide +kernel
  have hs : (run mailboxes.step (mailboxBoot pairProcs zeroBoxes) (waitActs ++ sendActs)).isSome := by
    decide +kernel
  obtain ⟨s, hs⟩ := Option.isSome_iff_exists.1 hs
  exact ⟨hr, ((mailbox_fifo pairProcs zeroBoxes s _ hs).1 0).1 0 1 ⟨1, [104]⟩ (by rw [hr]; rfl)⟩

end Xv6
