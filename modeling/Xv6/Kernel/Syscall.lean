import Xv6.Fs.Disk
import Xv6.Ipc.Mailbox
import Xv6.Log.Ops
import Xv6.Vm.Machine

/-!
# System calls and their arguments

`syscall.c` and the wrappers of `sysproc.c` and `sysfile.c`. A user program leaves the arguments on
its stack; the wrappers read them from there (`argint`, `argptr`, `argstr`, `argfd`) and pass them
to the kernel as a `Call`. A program of `Fetch` reads the memory of the calling process, where
`touched` lists the addresses it has read, and either returns or rejects the call. The address
arithmetic is that of 32-bit words; addresses that are read are recorded as natural numbers.

What a call does once its arguments are there is a parameter (`body`). `chdir`, `mkdir` and `mknod`
are inside of a transaction when they look at their arguments.
-/

namespace Xv6.Syscall

open Lib
open Vm (Word maxarg)
open Fs (nofile nfile)

/-- What the argument functions read of the calling process: `sz`, `tf->esp`, `ofile` and the
memory. -/
structure User where
  sz : Word
  esp : Word
  ofile : Fin nofile → Option (Fin nfile)
  mem : Nat → UInt8

structure Fetching where
  user : User
  /-- The addresses read so far. -/
  touched : List Nat

/-- A program that stops rejects the call: the wrapper returns `-1`. -/
abbrev Fetch := EStateM Unit Fetching

/-- The `n` bytes from `a` on. -/
def load (a : Word) (n : Nat) : Fetch (List UInt8) :=
  modifyGet fun s => (readRange s.user.mem a.toNat n,
    { s with touched := s.touched ++ (List.range n).map (a.toNat + ·) })

/-- The int at `addr`. -/
def fetchint (addr : Word) : Fetch Word := do
  let p := (← get).user
  if addr ≥ p.sz ∨ addr + 4 > p.sz then throw ()
  else return BitVec.ofNat 32 (leNat (← load addr 4))

/-- A string in user memory: its address, and its length without the NUL. -/
structure Str where
  ptr : Word
  len : Word
  deriving DecidableEq

/-- The loop of `fetchstr`, at `s`; `turns` bounds the number of turns. -/
def strFrom (addr ep : Word) : Nat → Word → Fetch Str
  | 0, _ => throw ()
  | turns + 1, s =>
    if s < ep then do
      if (← load s 1) = [0] then return ⟨addr, s - addr⟩
      else strFrom addr ep turns (s + 1)
    else throw ()

/-- The NUL-terminated string at `addr`. -/
def fetchstr (addr : Word) : Fetch Str := do
  let p := (← get).user
  if addr ≥ p.sz then throw ()
  else strFrom addr p.sz p.sz.toNat addr

/-- The `n`th 32-bit argument. -/
def argint (n : Word) : Fetch Word := do
  fetchint ((← get).user.esp + 4 + 4 * n)

/-- The `n`th argument as a pointer to `size` bytes. -/
def argptr (n size : Word) : Fetch Word := do
  let p := (← get).user
  let i ← argint n
  if size.toInt < 0 ∨ i ≥ p.sz ∨ i + size > p.sz then throw ()
  else return i

def argstr (n : Word) : Fetch Str := do
  fetchstr (← argint n)

theorem fd_lt {fd : Word} (h : ¬ (fd.toInt < 0 ∨ fd.toInt ≥ nofile)) : fd.toInt.toNat < nofile := by
  omega

/-- The `n`th argument as a file descriptor, with its file. -/
def argfd (n : Word) : Fetch (Fin nofile × Fin nfile) := do
  let fd ← argint n
  let p := (← get).user
  if h : fd.toInt < 0 ∨ fd.toInt ≥ nofile then throw ()
  else
    match p.ofile ⟨fd.toInt.toNat, fd_lt h⟩ with
    | none => throw ()
    | some f => return (⟨fd.toInt.toNat, fd_lt h⟩, f)

/-- The loop of `sys_exec`, from `argv[i]` on, with `turns` entries of `argv` left. -/
def argvFrom (uargv : Word) : Nat → Nat → Fetch (List Str)
  | 0, _ => throw ()
  | turns + 1, i => do
    let uarg ← fetchint (uargv + 4 * BitVec.ofNat 32 i)
    if uarg = 0 then return []
    else do
      let arg ← fetchstr uarg
      return arg :: (← argvFrom uargv turns (i + 1))

/-- What the wrappers call, with the arguments they have fetched. -/
inductive Call
  | fork
  | exit
  | wait
  | pipe (fd : Word)
  | read (f : Fin nfile) (p n : Word)
  | kill (pid : Word)
  | exec (path : Str) (argv : List Str)
  | fstat (f : Fin nfile) (st : Word)
  | chdir (path : Str)
  | dup (f : Fin nfile)
  | getpid
  | sbrk (n : Word)
  | sleep (n : Word)
  | uptime
  | «open» (path : Str) (omode : Word)
  | write (f : Fin nfile) (p n : Word)
  | mknod (path : Str) (major minor : Word)
  | unlink (path : Str)
  | link (old new : Str)
  | mkdir (path : Str)
  | close (fd : Fin nofile) (f : Fin nfile)
  | settickets (pid n : Word)
  | yield
  | ksend (chan buf len : Word)
  | krecv (chan buf maxlen : Word)
  | getrunticks
  deriving DecidableEq

/-- `sizeof(struct stat)`. -/
def sizeofStat : Word := 20

/-- The two ints that `pipe` returns. -/
def sizeofPair : Word := 2 * 4

/-- `argfd(0)`, `argint(2)`, `argptr(1)`: the arguments of `read` and `write`. -/
def argbuf (c : Fin nfile → Word → Word → Call) : Fetch Call := do
  let f ← argfd 0
  let n ← argint 2
  let p ← argptr 1 n
  return c f.2 p n

/-- `argint(0)`, `argint(2)`, `argptr(1)`: the arguments of `ksend` and `krecv`. -/
def argmsg (c : Word → Word → Word → Call) : Fetch Call := do
  let chan ← argint 0
  let len ← argint 2
  let buf ← argptr 1 len
  return c chan buf len

def sysPipe : Fetch Call := return .pipe (← argptr 0 sizeofPair)

def sysRead : Fetch Call := argbuf .read

def sysWrite : Fetch Call := argbuf .write

def sysKill : Fetch Call := return .kill (← argint 0)

def sysExec : Fetch Call := do
  let path ← argstr 0
  let uargv ← argint 1
  return .exec path (← argvFrom uargv maxarg 0)

def sysFstat : Fetch Call := do
  let f ← argfd 0
  return .fstat f.2 (← argptr 1 sizeofStat)

def sysChdir : Fetch Call := return .chdir (← argstr 0)

def sysDup : Fetch Call := return .dup (← argfd 0).2

def sysSbrk : Fetch Call := return .sbrk (← argint 0)

def sysSleep : Fetch Call := return .sleep (← argint 0)

def sysOpen : Fetch Call := do
  let path ← argstr 0
  return .open path (← argint 1)

def sysMknod : Fetch Call := do
  let path ← argstr 0
  let major ← argint 1
  return .mknod path major (← argint 2)

def sysUnlink : Fetch Call := return .unlink (← argstr 0)

def sysLink : Fetch Call := do
  let old ← argstr 0
  return .link old (← argstr 1)

def sysMkdir : Fetch Call := return .mkdir (← argstr 0)

def sysClose : Fetch Call := do
  let f ← argfd 0
  return .close f.1 f.2

def sysSettickets : Fetch Call := do
  let pid ← argint 0
  return .settickets pid (← argint 1)

def sysKsend : Fetch Call := argmsg .ksend

def sysKrecv : Fetch Call := argmsg .krecv

/-- The names in the table `syscalls`. -/
inductive Sysno
  | fork | exit | wait | pipe | read | kill | exec | fstat | chdir | dup | getpid | sbrk | sleep
  | uptime | «open» | write | mknod | unlink | link | mkdir | close | settickets | yield | ksend
  | krecv | getrunticks
  deriving DecidableEq

/-- The table `syscalls`, by the numbers of `syscall.h`. -/
def syscalls : List Sysno :=
  [.fork, .exit, .wait, .pipe, .read, .kill, .exec, .fstat, .chdir, .dup, .getpid, .sbrk, .sleep,
    .uptime, .open, .write, .mknod, .unlink, .link, .mkdir, .close, .settickets, .yield, .ksend,
    .krecv, .getrunticks]

/-- The arguments that the wrapper of a call fetches. -/
def Sysno.args : Sysno → Fetch Call
  | .fork => return .fork
  | .exit => return .exit
  | .wait => return .wait
  | .pipe => sysPipe
  | .read => sysRead
  | .kill => sysKill
  | .exec => sysExec
  | .fstat => sysFstat
  | .chdir => sysChdir
  | .dup => sysDup
  | .getpid => return .getpid
  | .sbrk => sysSbrk
  | .sleep => sysSleep
  | .uptime => return .uptime
  | .open => sysOpen
  | .write => sysWrite
  | .mknod => sysMknod
  | .unlink => sysUnlink
  | .link => sysLink
  | .mkdir => sysMkdir
  | .close => sysClose
  | .settickets => sysSettickets
  | .yield => return .yield
  | .ksend => sysKsend
  | .krecv => sysKrecv
  | .getrunticks => return .getrunticks

/-- The wrappers that call `begin_op` before they look at their arguments. -/
def Sysno.inOp : Sysno → Bool
  | .chdir | .mkdir | .mknod => true
  | _ => false

/-! ## The wrappers as a whole -/

/-- The kernel, with the calling process in `user`. -/
structure Kernel where
  mailboxes : Fin numMailboxes → Mailbox
  proc : Ptable
  user : User
  log : LogState

/-- A critical section of the log, with its wakeups. -/
def Kernel.critical (k : Kernel) (sec : LogSection) : Kernel :=
  { k with log := sec.obj, proc := sec.wakes.foldl (fun pt ch => wakeup1 ch pt) k.proc }

/-- `begin_op`, at the moment it gets in; `none` as long as it has to wait. -/
def beginOp (k : Kernel) : Option Kernel :=
  match (beginOpBody k.log).next with
  | .leave _ => some (k.critical (beginOpBody k.log))
  | _ => none

/-- `end_op`, with the commit if the call is the last one in the transaction; `none` for a panic. -/
def endOp (k : Kernel) : Option Kernel :=
  let k' := k.critical (endOpBody k.log)
  match (endOpBody k.log).next with
  | .leave .mustCommit => some (k'.critical (endCommitBody { k'.log with block := [] }))
  | .leave _ => some k'
  | _ => none

/-- The wrapper of the call `no`: what it returns, and the kernel after it. -/
def wrapper (body : Call → Kernel → Option (Int × Kernel)) (no : Sysno) (k : Kernel) :
    Option (Int × Kernel) :=
  if no.inOp then
    (beginOp k).bind fun k =>
      match no.args ⟨k.user, []⟩ with
      | .ok call _ => body call k
      | .error _ _ => (endOp k).map fun k => (-1, k)
  else
    match no.args ⟨k.user, []⟩ with
    | .ok call _ => body call k
    | .error _ _ => some (-1, k)

/-- `num > 0 && num < NELEM(syscalls) && syscalls[num]`. -/
def dispatch (num : Word) : Option Sysno :=
  if num.toInt > 0 then syscalls[num.toNat - 1]? else none

/-- `syscall`, with `tf->eax` before and after it. -/
def syscall (body : Call → Kernel → Option (Int × Kernel)) (eax : Word) (k : Kernel) :
    Option (Int × Kernel) :=
  match dispatch eax with
  | some no => wrapper body no k
  | none => some (-1, k)

/-- `sys_ksend` and `sys_krecv` as a client of `sleep` and `wakeup`: the calls of `mailboxes` with
arguments from the memory of the process. -/
def sysMailboxes : Client (Fin numMailboxes) Mailbox MailboxCall Ret (Sysno × User) :=
  { mailboxes with
    outside := fun l a mbs =>
      match a.1.args ⟨a.2, []⟩ with
      | .ok (.ksend chan buf len) _ =>
        mailboxes.outside l (.ksend chan.toInt (fun i => a.2.mem (buf.toNat + i)) len.toInt) mbs
      | .ok (.krecv chan _ maxlen) _ => mailboxes.outside l (.krecv chan.toInt maxlen.toInt) mbs
      | .ok _ _ => none
      | .error _ _ => some (.code mbs ⟨-1, []⟩) }

end Xv6.Syscall
