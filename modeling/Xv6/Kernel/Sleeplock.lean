import Xv6.Kernel.Thread

/-!
# Sleep-locks

`sleeplock.c`: a lock that is waited for in `sleep`, with a spinlock `lk->lk` around its fields. A
thread outside of the calls is at the list of sleep-locks it has acquired and not released, and at
what its last `holdingsleep` returned; it calls `releasesleep` only on a lock of the list.
`myproc()->pid` is passed with the call: a process keeps its pid while it has a sleep-lock.
-/

namespace Xv6

/-- `struct sleeplock`, without `lk->lk`. -/
structure Sleeplock where
  locked : Nat
  pid : Int
  deriving DecidableEq

def initsleeplock : Sleeplock := ⟨0, 0⟩

/-- A call, with the locks that the thread has. -/
inductive SleeplockCall
  | acquiresleep (lk : Nat) (pid : Int) (held : List Nat)
  | releasesleep (lk : Nat) (held : List Nat)
  | holdingsleep (lk : Nat) (pid : Int) (held : List Nat)

/-- A thread outside of the calls. -/
structure Holding where
  held : List Nat
  result : Bool

/-- What a process may call. -/
inductive SleeplockOp
  | acquiresleep (lk : Nat)
  | releasesleep (lk : Nat)
  | holdingsleep (lk : Nat)

def SleeplockCall.lock : SleeplockCall → Nat
  | .acquiresleep lk _ _ | .releasesleep lk _ | .holdingsleep lk _ _ => lk

/-- The locks that the thread has when it enters the call. -/
def SleeplockCall.held : SleeplockCall → List Nat
  | .acquiresleep _ _ held | .releasesleep _ held | .holdingsleep _ _ held => held

/-- `acquiresleep` under the spinlock: the loop is entered again after `sleep`. -/
def acquiresleepBody (lk : Nat) (pid : Int) (held : List Nat) (l : Sleeplock) :
    Section Sleeplock SleeplockCall Holding :=
  if l.locked ≠ 0 then ⟨l, [], .sleep (.acquiresleep lk pid held)⟩
  else ⟨⟨1, pid⟩, [], .leave ⟨lk :: held, false⟩⟩

/-- `releasesleep` under the spinlock. -/
def releasesleepBody (lk : Nat) (held : List Nat) : Section Sleeplock SleeplockCall Holding :=
  ⟨⟨0, 0⟩, [.sleeplock lk], .leave ⟨held.erase lk, false⟩⟩

/-- `holdingsleep` under the spinlock. -/
def holdingsleepBody (pid : Int) (held : List Nat) (l : Sleeplock) :
    Section Sleeplock SleeplockCall Holding :=
  ⟨l, [], .leave ⟨held, l.locked ≠ 0 ∧ l.pid = pid⟩⟩

def SleeplockCall.body : SleeplockCall → Sleeplock → Section Sleeplock SleeplockCall Holding
  | .acquiresleep lk pid held => acquiresleepBody lk pid held
  | .releasesleep lk held => fun _ => releasesleepBody lk held
  | .holdingsleep _ pid held => holdingsleepBody pid held

/-- The call that a process with the pid makes. Only the holder releases. -/
def SleeplockOp.call (pid : Int) (h : Holding) : SleeplockOp → Option SleeplockCall
  | .acquiresleep lk => some (.acquiresleep lk pid h.held)
  | .releasesleep lk => if lk ∈ h.held then some (.releasesleep lk h.held) else none
  | .holdingsleep lk => some (.holdingsleep lk pid h.held)

/-- The sleep-locks as a client of `sleep` and `wakeup`. -/
def sleeplocks : Client Nat Sleeplock SleeplockCall Holding (Int × SleeplockOp) where
  lockOf := SleeplockCall.lock
  chanOf c := .sleeplock c.lock
  body c _ l := c.body l
  outside h a _ := (a.2.call a.1 h).map .call
  sleep_lockOf c _ l c' h := by
    cases c with
    | acquiresleep lk pid held =>
      simp only [SleeplockCall.body, acquiresleepBody] at h
      split at h
      · cases h
        rfl
      · cases h
    | releasesleep lk held => cases h
    | holdingsleep lk pid held => cases h

abbrev SleeplockThreads := Threads Nat Sleeplock SleeplockCall Holding

/-- The process is on the channel of a sleep-lock. -/
def Proc.onSleeplock (r : Proc) : Bool :=
  match r.chan with
  | some (.sleeplock _) => true
  | _ => false

/-- What else may happen to the process of a thread outside of the calls: it keeps its pid while it
has a sleep-lock, and only `acquiresleep` sleeps on one. -/
def Holding.allows (h : Holding) (r r' : Proc) : Bool :=
  (h.held.isEmpty || r'.pid == r.pid) && !r'.onSleeplock

/-- One step of the processes: `myproc()->pid` is passed to the calls. -/
def sleeplockStep (s : SleeplockThreads) : ThreadAct SleeplockOp → Option SleeplockThreads
  | .run t => sleeplocks.step s (.run t)
  | .outside t op => sleeplocks.step s (.outside t ((s.proc t).pid, op))
  | .dispatch t => sleeplocks.step s (.dispatch t)
  | .yield t => sleeplocks.step s (.yield t)
  | .kill pid => sleeplocks.step s (.kill pid)
  | .other t r =>
    match s.pc t with
    | .out h => if h.allows (s.proc t) r then sleeplocks.step s (.other t r) else none
    | _ => none

/-- After `initsleeplock` of all locks. -/
def sleeplockBoot (proc : Ptable) : SleeplockThreads :=
  Threads.init proc (fun _ => initsleeplock) ⟨[], false⟩

end Xv6
