import Xv6.Kernel.Thread

/-!
# Mailboxes

`mailbox.c`: sixteen mailboxes of one message each. `ksend` and `krecv` check their arguments, take
the mailbox's lock, wait in a loop around `sleep(mb, &mb->lock)` until the mailbox is empty (full),
copy the message in (out), and `wakeup(mb)`. Both sleep on the same channel, so a wakeup reaches
waiting senders and receivers alike. As a `Client`, the code from the check of `mb->full` to the
`release` (or to the `sleep`) is one critical section; a thread outside of the calls is at the value
its last call returned.
-/

namespace Xv6

/-- `struct mailbox`, without its lock. -/
structure Mailbox where
  msg : Fin mailboxMsgSize → UInt8
  msglen : Int
  full : Int

/-- The first `n` bytes of `msg`. -/
def Mailbox.bytes (mb : Mailbox) (n : Nat) : List UInt8 := (List.ofFn mb.msg).take n

/-- The bytes `buf[0], …, buf[len-1]` of a `ksend` that passed its checks. -/
structure Msg where
  bytes : List UInt8
  pos : 0 < bytes.length
  le : bytes.length ≤ mailboxMsgSize

/-- `memmove(mb->msg, buf, len)`: bytes past `len` stay as they were. -/
def Mailbox.memmove (msg : Fin mailboxMsgSize → UInt8) (buf : List UInt8) :
    Fin mailboxMsgSize → UInt8 := fun i => if h : i < buf.length then buf.get ⟨i, h⟩ else msg i

inductive MailboxCall
  | ksend (i : Fin numMailboxes) (m : Msg)
  | krecv (i : Fin numMailboxes) (maxlen : Int) (pos : 0 < maxlen)

/-- The system calls, with arguments as they come from user space. -/
inductive MailboxAct
  | ksend (chan : Int) (buf : Nat → UInt8) (len : Int)
  | krecv (chan : Int) (maxlen : Int)

/-- `mailboxes[chan]`, for `0 <= chan && chan < NUM_MAILBOXES`. -/
def mailboxAt (chan : Int) : Option (Fin numMailboxes) :=
  if h : 0 ≤ chan ∧ chan < numMailboxes then some ⟨chan.toNat, by omega⟩ else none

/-- `mailboxinit`: `msg` keeps what the memory holds. -/
def mailboxinit (mbs : Fin numMailboxes → Mailbox) : Fin numMailboxes → Mailbox :=
  fun i => { mbs i with full := 0, msglen := 0 }

/-- `ksend` under the lock. The loop does not look at `p->killed`. -/
def ksendBody (i : Fin numMailboxes) (m : Msg) (mb : Mailbox) : Section Mailbox MailboxCall Ret :=
  if mb.full ≠ 0 then ⟨mb, [], .sleep (.ksend i m)⟩
  else
    ⟨⟨Mailbox.memmove mb.msg m.bytes, m.bytes.length, 1⟩, [.mailbox i], .leave ⟨0, []⟩⟩

/-- `krecv` under the lock. -/
def krecvBody (i : Fin numMailboxes) (maxlen : Int) (pos : 0 < maxlen) (mb : Mailbox) :
    Section Mailbox MailboxCall Ret :=
  if mb.full = 0 then ⟨mb, [], .sleep (.krecv i maxlen pos)⟩
  else
    let n := if mb.msglen > maxlen then maxlen else mb.msglen
    ⟨{ mb with full := 0, msglen := 0 }, [.mailbox i], .leave ⟨n, mb.bytes n.toNat⟩⟩

def MailboxCall.body : MailboxCall → Mailbox → Section Mailbox MailboxCall Ret
  | .ksend i m => ksendBody i m
  | .krecv i maxlen pos => krecvBody i maxlen pos

/-- The checks `ksend` and `krecv` make before they take the lock. -/
def mailboxEnter : MailboxAct → Option MailboxCall
  | .ksend chan buf len =>
    match mailboxAt chan with
    | none => none
    | some i =>
      if h : len ≤ 0 ∨ len > mailboxMsgSize then none
      else some (.ksend i ⟨(List.range len.toNat).map buf,
        by rw [List.length_map, List.length_range]; omega,
        by rw [List.length_map, List.length_range]; omega⟩)
  | .krecv chan maxlen =>
    match mailboxAt chan with
    | none => none
    | some i => if h : maxlen ≤ 0 then none else some (.krecv i maxlen (by omega))

def MailboxCall.chan : MailboxCall → Fin numMailboxes
  | .ksend i _ | .krecv i _ _ => i

/-- The mailboxes as a client of `sleep` and `wakeup`. -/
def mailboxes : Client (Fin numMailboxes) Mailbox MailboxCall Ret MailboxAct where
  lockOf := MailboxCall.chan
  chanOf c := .mailbox c.chan
  body c _ mb := c.body mb
  outside _ a mbs :=
    match mailboxEnter a with
    | some c => some (.call c)
    | none => some (.code mbs ⟨-1, []⟩)
  sleep_lockOf c _ mb c' h := by
    cases c <;> simp only [MailboxCall.body, ksendBody, krecvBody] at h <;>
      split at h <;> cases h <;> rfl

abbrev MailboxThreads := Threads (Fin numMailboxes) Mailbox MailboxCall Ret

abbrev MailboxEntry := Entry Mailbox MailboxCall Ret

/-- The kernel after `mailboxinit`, with any process table: no process is in a call. -/
def mailboxBoot (proc : Ptable) (mbs : Fin numMailboxes → Mailbox) : MailboxThreads :=
  Threads.init proc (mailboxinit mbs) ⟨0, []⟩

end Xv6
