import Xv6.Kernel.Param
import Mathlib.Logic.Function.Basic
import Mathlib.Data.List.FinRange

/-!
# The process table

`struct proc` and the functions of `proc.c` that scan or change the table in one
`ptable.lock` critical section: `wakeup1`, `kill`, `settickets`, and the slot search of
`allocproc`. A process is named by its slot; the pointers `p->parent` and `p->chan` are
`Option`s (`none` is the null pointer), and `Chan` lists the addresses the kernel sleeps on.
-/

namespace Xv6

open Function

/-- A slot of `ptable.proc`. -/
abbrev Slot := Fin nproc

inductive ProcState
  | unused | embryo | sleeping | runnable | running | zombie
  deriving DecidableEq, Repr

/-- The addresses passed to `sleep` and `wakeup`: every object some kernel code sleeps on. -/
inductive Chan
  /-- `&input.r`, in `consoleread`. -/
  | input
  /-- `&log`, in `begin_op`. -/
  | log
  /-- A `struct buf *`, in `iderw`. -/
  | buf (b : Nat)
  /-- `&mailboxes[i]`, in `ksend` and `krecv`. -/
  | mailbox (i : Fin numMailboxes)
  /-- `&p->nread` and `&p->nwrite` of a pipe. -/
  | nread (p : Nat)
  | nwrite (p : Nat)
  /-- A `struct proc *`, in `wait`. -/
  | proc (p : Slot)
  /-- A `struct sleeplock *`. -/
  | sleeplock (l : Nat)
  /-- `&ticks`, in `sys_sleep`. -/
  | ticks
  deriving DecidableEq, Repr

/-- `struct proc`, without the fields for memory, files and the trap frame. -/
structure Proc where
  state : ProcState := .unused
  pid : Int := 0
  parent : Option Slot := none
  chan : Option Chan := none
  killed : Bool := false
  tickets : Int := 0
  preempted : Bool := false
  runticks : Int := 0
  deriving DecidableEq, Repr

/-- `ptable.proc`. -/
abbrev Ptable := Slot → Proc

/-- `for(p = ptable.proc; p < &ptable.proc[NPROC]; p++)`: the slots in the order of the loops. -/
def slots : List Slot := List.finRange nproc

theorem mem_slots (p : Slot) : p ∈ slots := List.mem_finRange p

theorem nodup_slots : slots.Nodup := List.nodup_finRange nproc

theorem update_field {α : Type} (f : Proc → α) {pt : Ptable} {p : Slot} {r : Proc}
    (hf : f r = f (pt p)) (q : Slot) : f (update pt p r q) = f (pt q) := by
  rcases eq_or_ne q p with rfl | hq
  · rw [update_self, hf]
  · rw [update_of_ne hq]

/-- `wakeup1`: every process sleeping on `chan` becomes runnable. -/
def wakeup1 (chan : Chan) (pt : Ptable) : Ptable := fun p =>
  if (pt p).state = .sleeping ∧ (pt p).chan = some chan then { pt p with state := .runnable }
  else pt p

/-- The body of `kill`'s loop at the slot that has the pid. -/
def killProc (r : Proc) : Proc :=
  { r with killed := true, state := if r.state = .sleeping then .runnable else r.state }

/-- `kill`: the first slot with the pid, whatever its state, is marked; the result is the value
returned and the table. -/
def kill (pid : Int) (pt : Ptable) : Int × Ptable :=
  match slots.find? fun p => (pt p).pid = pid with
  | some p => (0, update pt p (killProc (pt p)))
  | none => (-1, pt)

theorem wakeup1_chan (ch : Chan) (pt : Ptable) (u : Slot) :
    (wakeup1 ch pt u).chan = (pt u).chan := by
  unfold wakeup1
  split <;> rfl

theorem wakeup1_sleeping {ch : Chan} {pt : Ptable} {u : Slot}
    (h : (wakeup1 ch pt u).state = .sleeping) :
    (pt u).state = .sleeping ∧ (pt u).chan ≠ some ch := by
  unfold wakeup1 at h
  split at h
  · cases h
  · rename_i hn
    exact ⟨h, fun hc => hn ⟨h, hc⟩⟩

theorem kill_sleeping {pid : Int} {pt : Ptable} {u : Slot}
    (h : ((kill pid pt).2 u).state = .sleeping) : (kill pid pt).2 u = pt u := by
  unfold kill at h ⊢
  split at h
  · rename_i p _
    rcases eq_or_ne u p with rfl | hu
    · simp only [update_self, killProc] at h
      split at h
      · cases h
      · contradiction
    · exact update_of_ne hu _ _
  · rfl

def settickets (pid tickets : Int) (pt : Ptable) : Int × Ptable :=
  if tickets ≤ 0 then (-1, pt)
  else
    match slots.find? fun p => (pt p).pid = pid with
    | some p => (0, update pt p { pt p with tickets })
    | none => (-1, pt)

/-- The slot search of `allocproc`: the first unused slot. -/
def findUnused (pt : Ptable) : Option Slot := slots.find? fun p => (pt p).state = .unused

/-- The fields `allocproc` sets at `found:`, with `nextpid` for the pid. -/
def embryoProc (r : Proc) (nextpid : Int) : Proc :=
  { r with state := .embryo, tickets := 10, preempted := false, runticks := 0, pid := nextpid }

end Xv6
