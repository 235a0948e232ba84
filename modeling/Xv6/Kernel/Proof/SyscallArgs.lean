import Xv6.Kernel.Syscall
import Xv6.Lib.Hoare

/-!
# System calls check their arguments

Below `KERNBASE` the checks of `fetchint`, `fetchstr` and `argptr` on 32-bit words mean what they
say about integers: nothing they compare wraps around. So every address that a wrapper reads, and
every range that it passes to the kernel, is memory of the process (`Checked`, one rule for each way
to build a wrapper). A wrapper that rejects its arguments has changed nothing, or it has been
through `begin_op` and `end_op`, whose only effect on processes is to wake those that wait for the
log.
-/

namespace Xv6.Syscall

open Lib
open Vm (Word maxarg kernbase)
open Fs (nofile nfile)

/-- The `n` bytes from `a` on are memory of the process, as unbounded integers. -/
def User.Owns (u : User) (a n : Nat) : Prop := a + n ≤ u.sz.toNat

/-- `s` is a string in the memory of the process. -/
structure User.IsStr (u : User) (s : Str) : Prop where
  owns : u.Owns s.ptr.toNat (s.len.toNat + 1)
  nul : u.mem (s.ptr.toNat + s.len.toNat) = 0
  chars : ∀ i < s.len.toNat, u.mem (s.ptr.toNat + i) ≠ 0

/-- A buffer of `n` bytes, `n` a signed number, is memory of the process. -/
def User.IsBuf (u : User) (p n : Word) : Prop := 0 ≤ n.toInt ∧ u.Owns p.toNat n.toNat

/-- What a call is given to read or write in user memory is memory of the process. -/
def Call.InUser (u : User) : Call → Prop
  | .pipe fd => u.IsBuf fd sizeofPair
  | .read _ p n | .write _ p n => u.IsBuf p n
  | .exec path argv => u.IsStr path ∧ ∀ arg ∈ argv, u.IsStr arg
  | .fstat _ st => u.IsBuf st sizeofStat
  | .chdir path | .open path _ | .mknod path _ _ | .unlink path | .mkdir path => u.IsStr path
  | .link old new => u.IsStr old ∧ u.IsStr new
  | .ksend _ buf len | .krecv _ buf len => u.IsBuf buf len
  | _ => True

/-- No address outside the process was read. -/
structure Within (u : User) (s : Fetching) : Prop where
  user : s.user = u
  touched : ∀ a ∈ s.touched, a < u.sz.toNat

/-- `x` reads only memory of the process, whether it rejects the call or not, and what it returns
is in `Q`. -/
def Checked {α : Type} (u : User) (x : Fetch α) (Q : α → Prop) : Prop :=
  Triple (Within u) x (fun a s => Within u s ∧ Q a) fun _ => Within u

namespace Checked

variable {α β : Type} {u : User} {x : Fetch α} {f : α → Fetch β} {Q Q' : α → Prop} {R : β → Prop}

theorem pure {a : α} (h : Q a) : Checked u (Pure.pure a) Q := Triple.pure fun _ hs => ⟨hs, h⟩

theorem throw : Checked u (MonadExcept.throw () : Fetch α) Q := Triple.throw fun _ hs => hs

theorem bind (hx : Checked u x Q) (hf : ∀ a, Q a → Checked u (f a) R) : Checked u (x >>= f) R :=
  Triple.bind hx fun a => .of_pre (fun _ hs => hs.2) fun ha => (hf a ha).pre fun _ hs => hs.1

theorem ite {c : Prop} [Decidable c] {y : Fetch α} (hx : c → Checked u x Q)
    (hy : ¬ c → Checked u y Q) : Checked u (if c then x else y) Q := Triple.ite hx hy

theorem get {f : Fetching → Fetch β} (h : ∀ s : Fetching, s.user = u → Checked u (f s) R) :
    Checked u (MonadState.get >>= f) R :=
  Triple.bind (Q := fun a s => Within u s ∧ a.user = u) (.get fun _ hs => ⟨hs, hs.user⟩)
    fun a => .of_pre (fun _ hs => hs.2) fun ha => (h a ha).pre fun _ hs => hs.1

theorem load {a : Word} {n : Nat} (h : u.Owns a.toNat n) :
    Checked u (load a n) fun bs => bs = readRange u.mem a.toNat n := by
  rintro s ⟨rfl, hs⟩
  refine ⟨⟨rfl, fun x hx => ?_⟩, rfl⟩
  rcases List.mem_append.1 hx with hx | hx
  · exact hs x hx
  · obtain ⟨k, hk, rfl⟩ := List.mem_map.1 hx
    exact (Nat.add_lt_add_left (List.mem_range.1 hk) _).trans_le h

end Checked

section
variable {u : User}

theorem fetchint_checked (hsz : u.sz.toNat < kernbase) (addr : Word) :
    Checked u (fetchint addr) fun v =>
      u.Owns addr.toNat 4 ∧ v = BitVec.ofNat 32 (leNat (readRange u.mem addr.toNat 4)) := by
  refine .get fun s hs => ?_
  subst hs
  refine .ite (fun _ => .throw) fun h => ?_
  have howns : s.user.Owns addr.toNat 4 := by
    unfold User.Owns
    simp only [kernbase] at hsz
    bv_omega
  exact .bind (.load howns) fun bs hbs => .pure ⟨howns, by rw [hbs]⟩

theorem strFrom_checked {addr : Word} : ∀ (turns : Nat) (s : Word), addr.toNat ≤ s.toNat →
    (∀ i, addr.toNat + i < s.toNat → u.mem (addr.toNat + i) ≠ 0) →
    Checked u (strFrom addr u.sz turns s) fun r => r.ptr = addr ∧ u.IsStr r
  | 0, _, _, _ => .throw
  | turns + 1, s, hle, hno => by
    refine .ite (fun hlt => ?_) fun _ => .throw
    have howns : u.Owns s.toNat 1 := by
      unfold User.Owns
      bv_omega
    refine .bind (.load howns) fun bs hbs => ?_
    have hbyte : bs = [0] ↔ u.mem s.toNat = 0 := by simp [hbs, readRange]
    have hlen : addr.toNat + (s - addr).toNat = s.toNat := by bv_omega
    refine .ite (fun h0 => .pure ⟨rfl, ?_, ?_, fun i hi => hno i ?_⟩) fun h0 => ?_
    · show addr.toNat + ((s - addr).toNat + 1) ≤ u.sz.toNat
      unfold User.Owns at howns
      omega
    · rw [hlen]
      exact hbyte.1 h0
    · have : i < (s - addr).toNat := hi
      omega
    · have hs : (s + 1).toNat = s.toNat + 1 := by bv_omega
      refine strFrom_checked turns (s + 1) (by omega) fun i hi => ?_
      by_cases h : addr.toNat + i = s.toNat
      · rw [h]
        exact fun hz => h0 (hbyte.2 hz)
      · exact hno i (by omega)

theorem fetchstr_checked (addr : Word) :
    Checked u (fetchstr addr) fun r => r.ptr = addr ∧ u.IsStr r := by
  refine .get fun s hs => ?_
  subst hs
  exact .ite (fun _ => .throw) fun _ => strFrom_checked _ addr (Nat.le_refl _) (by omega)

/-- The address of argument `n`. -/
def User.argAddr (u : User) (n : Word) : Word := u.esp + 4 + 4 * n

section
variable (hsz : u.sz.toNat < kernbase)
include hsz

theorem argint_checked (n : Word) :
    Checked u (argint n) fun _ => u.Owns (u.argAddr n).toNat 4 := by
  refine .get fun s hs => ?_
  subst hs
  exact .post (fetchint_checked hsz _) fun _ _ h => ⟨h.1, h.2.1⟩

theorem argptr_test (i size : Word) :
    ¬ (size.toInt < 0 ∨ i ≥ u.sz ∨ i + size > u.sz) ↔
      i.toNat < u.sz.toNat ∧ u.IsBuf i size := by
  have hneg : size.toInt < 0 ↔ 2147483648 ≤ size.toNat := by
    rw [BitVec.toInt_eq_toNat_cond]
    split <;> omega
  simp only [kernbase] at hsz
  unfold User.IsBuf User.Owns
  rw [← Int.not_lt, hneg]
  constructor
  · intro h
    bv_omega
  · intro h
    bv_omega

theorem argptr_checked (n size : Word) :
    Checked u (argptr n size) fun p => u.Owns (u.argAddr n).toNat 4 ∧ u.IsBuf p size := by
  refine .get fun s hs => ?_
  subst hs
  exact .bind (argint_checked hsz n) fun i hi => .ite (fun _ => .throw)
    fun h => .pure ⟨hi, ((argptr_test hsz i size).1 h).2⟩

theorem argstr_checked (n : Word) :
    Checked u (argstr n) fun r => u.Owns (u.argAddr n).toNat 4 ∧ u.IsStr r :=
  .bind (argint_checked hsz n) fun i hi =>
    .post (fetchstr_checked i) fun _ _ h => ⟨h.1, hi, h.2.2⟩

theorem argfd_checked (n : Word) :
    Checked u (argfd n) fun f => u.ofile f.1 = some f.2 := by
  refine .bind (argint_checked hsz n) fun fd _ => .get fun s hs => ?_
  subst hs
  split
  · exact .throw
  · dsimp only
    split
    · exact .throw
    · next hf => exact .pure hf

theorem argvFrom_checked (uargv : Word) : ∀ turns i : Nat,
    Checked u (argvFrom uargv turns i) fun argv =>
      (∀ j ≤ argv.length, u.Owns (uargv + 4 * BitVec.ofNat 32 (i + j)).toNat 4) ∧
        ∀ arg ∈ argv, u.IsStr arg
  | 0, _ => .throw
  | turns + 1, i => by
    refine .bind (fetchint_checked hsz _) fun uarg ⟨howns, _⟩ => ?_
    refine .ite (fun _ => .pure ⟨fun j hj => ?_, nofun⟩) fun _ => ?_
    · obtain rfl : j = 0 := Nat.le_zero.1 hj
      exact howns
    · refine .bind (fetchstr_checked uarg) fun arg ⟨_, harg⟩ => ?_
      refine .bind (argvFrom_checked uargv turns (i + 1)) fun argv ⟨hwords, hstrs⟩ => ?_
      refine .pure ⟨fun j hj => ?_, List.forall_mem_cons.2 ⟨harg, hstrs⟩⟩
      cases j with
      | zero => exact howns
      | succ j =>
        have h := hwords j (Nat.le_of_succ_le_succ hj)
        rwa [Nat.add_right_comm] at h

theorem argbuf_checked {c : Fin nfile → Word → Word → Call}
    (hc : ∀ f p n, u.IsBuf p n → (c f p n).InUser u) : Checked u (argbuf c) (Call.InUser u) :=
  .bind (argfd_checked hsz 0) fun _ _ => .bind (argint_checked hsz 2) fun n _ =>
    .bind (argptr_checked hsz 1 n) fun _ hp => .pure (hc _ _ _ hp.2)

theorem argmsg_checked {c : Word → Word → Word → Call}
    (hc : ∀ chan buf len, u.IsBuf buf len → (c chan buf len).InUser u) :
    Checked u (argmsg c) (Call.InUser u) :=
  .bind (argint_checked hsz 0) fun _ _ => .bind (argint_checked hsz 2) fun len _ =>
    .bind (argptr_checked hsz 1 len) fun _ hp => .pure (hc _ _ _ hp.2)

theorem args_checked (no : Sysno) :
    Checked u no.args (Call.InUser u) := by
  cases no with
  | fork | exit | wait | getpid | uptime | yield | getrunticks => exact .pure trivial
  | pipe => exact .bind (argptr_checked hsz _ _) fun _ h => .pure h.2
  | read | write => exact argbuf_checked hsz fun _ _ _ h => h
  | ksend | krecv => exact argmsg_checked hsz fun _ _ _ h => h
  | kill | sbrk | sleep => exact .bind (argint_checked hsz 0) fun _ _ => .pure trivial
  | settickets =>
    exact .bind (argint_checked hsz 0) fun _ _ => .bind (argint_checked hsz 1)
      fun _ _ => .pure trivial
  | exec =>
    exact .bind (argstr_checked hsz 0) fun _ hp => .bind (argint_checked hsz 1) fun _ _ =>
      .bind (argvFrom_checked hsz _ _ _) fun _ ha => .pure ⟨hp.2, ha.2⟩
  | fstat =>
    exact .bind (argfd_checked hsz 0) fun _ _ => .bind (argptr_checked hsz _ _) fun _ h => .pure h.2
  | dup | close => exact .bind (argfd_checked hsz 0) fun _ _ => .pure trivial
  | chdir | unlink | mkdir => exact .bind (argstr_checked hsz 0) fun _ h => .pure h.2
  | «open» =>
    exact .bind (argstr_checked hsz 0) fun _ h => .bind (argint_checked hsz 1) fun _ _ => .pure h.2
  | mknod =>
    exact .bind (argstr_checked hsz 0) fun _ h => .bind (argint_checked hsz 1) fun _ _ =>
      .bind (argint_checked hsz 2) fun _ _ => .pure h.2
  | link =>
    exact .bind (argstr_checked hsz 0) fun _ ho => .bind (argstr_checked hsz 1) fun _ hn =>
      .pure ⟨ho.2, hn.2⟩

theorem argptr_accepts {n i size : Word} {s s' : Fetching}
    (hs : s.user = u) (hi : argint n s = .ok i s') (hlt : i.toNat < u.sz.toNat)
    (hbuf : u.IsBuf i size) : argptr n size s = .ok i s' := by
  subst hs
  exact (bind_ok hi).trans (congrFun (if_neg ((argptr_test hsz i size).2 ⟨hlt, hbuf⟩)) s')

end

/-! ## Calls that are rejected -/

/-- At most woken from a wait for the log. -/
def Woken (r r' : Proc) : Prop :=
  r' = r ∨ r.state = .sleeping ∧ r.chan = some .log ∧ r' = { r with state := .runnable }

/-- Nothing has changed but the log, and that processes which wait for it are awake. -/
structure Quiet (k k' : Kernel) : Prop where
  mailboxes : k'.mailboxes = k.mailboxes
  user : k'.user = k.user
  proc : ∀ p, Woken (k.proc p) (k'.proc p)

theorem Woken.wakeup1 (pt : Ptable) (p : Slot) : Woken (pt p) (wakeup1 .log pt p) := by
  unfold Xv6.wakeup1
  split
  · next h => exact .inr ⟨h.1, h.2, rfl⟩
  · exact .inl rfl

theorem Woken.trans {r r' r'' : Proc} (h : Woken r r') (h' : Woken r' r'') : Woken r r'' := by
  rcases h with rfl | ⟨h1, h2, rfl⟩
  · exact h'
  · rcases h' with rfl | ⟨h, -, -⟩
    · exact .inr ⟨h1, h2, rfl⟩
    · cases h

namespace Quiet

variable {k k' k'' : Kernel}

theorem trans (h : Quiet k k') (h' : Quiet k' k'') : Quiet k k'' :=
  ⟨h'.mailboxes.trans h.mailboxes, h'.user.trans h.user, fun p => (h.proc p).trans (h'.proc p)⟩

theorem critical {sec : LogSection} (h : sec.wakes = [] ∨ sec.wakes = [.log]) :
    Quiet k (k.critical sec) := by
  refine ⟨rfl, rfl, fun p => ?_⟩
  unfold Kernel.critical
  rcases h with h | h
  · rw [h]
    exact .inl rfl
  · rw [h]
    exact .wakeup1 _ _

theorem beginOp (h : beginOp k = some k') : Quiet k k' := by
  unfold Syscall.beginOp at h
  split at h
  · cases h
    refine .critical (.inl ?_)
    unfold beginOpBody
    split
    · rfl
    · split <;> rfl
  · cases h

theorem endOp (h : endOp k = some k') : Quiet k k' := by
  have hend : (endOpBody k.log).wakes = [] ∨ (endOpBody k.log).wakes = [.log] := by
    unfold endOpBody
    dsimp only
    split
    · exact .inl rfl
    · split
      · exact .inl rfl
      · exact .inr rfl
  unfold Syscall.endOp at h
  dsimp only at h
  split at h
  · cases h
    exact (critical hend).trans (critical (.inr rfl))
  · cases h
    exact critical hend
  · cases h

end Quiet

theorem endOp_isSome {k k' : Kernel} (h : beginOp k = some k') : (endOp k').isSome := by
  have hc : k'.log.committing = false := by
    unfold beginOp beginOpBody at h
    split at h
    · cases h
      next hl =>
      unfold Kernel.critical
      dsimp only
      split at hl
      · cases hl
      · next hc =>
        rw [if_neg hc]
        split
        · simpa using hc
        · simpa using hc
    · cases h
  unfold endOp endOpBody
  rw [hc]
  dsimp only
  rw [if_neg nofun]
  by_cases h0 : k'.log.outstanding - 1 = 0
  · rw [if_pos h0]
    rfl
  · rw [if_neg h0]
    rfl

/-- The arguments of the call do not pass its checks. -/
def Rejects (no : Sysno) (u : User) : Prop := ∃ s, no.args ⟨u, []⟩ = .error () s

section
variable {body : Call → Kernel → Option (Int × Kernel)} {no : Sysno} {k : Kernel}

theorem wrapper_of_not_inOp (hop : no.inOp = false) (h : Rejects no k.user) :
    wrapper body no k = some (-1, k) := by
  obtain ⟨s, hs⟩ := h
  unfold wrapper
  rw [hop, if_neg nofun, hs]

theorem wrapper_of_inOp (hop : no.inOp = true) (h : Rejects no k.user) :
    wrapper body no k = (beginOp k).bind fun k => (endOp k).map fun k => (-1, k) := by
  obtain ⟨s, hs⟩ := h
  unfold wrapper
  rw [hop, if_pos rfl]
  cases hb : beginOp k with
  | none => rfl
  | some k' =>
    simp only [Option.bind_some]
    rw [(Quiet.beginOp hb).user, hs]

theorem wrapper_quiet (h : Rejects no k.user) {r : Int} {k' : Kernel}
    (hw : wrapper body no k = some (r, k')) : r = -1 ∧ Quiet k k' := by
  cases hop : no.inOp with
  | false =>
    rw [wrapper_of_not_inOp hop h] at hw
    cases hw
    exact ⟨rfl, rfl, rfl, fun _ => .inl rfl⟩
  | true =>
    rw [wrapper_of_inOp hop h, Option.bind_eq_some_iff] at hw
    obtain ⟨k₁, hb, hw⟩ := hw
    obtain ⟨k₂, he, heq⟩ := Option.map_eq_some_iff.1 hw
    cases heq
    exact ⟨rfl, (Quiet.beginOp hb).trans (Quiet.endOp he)⟩

theorem wrapper_returns (h : Rejects no k.user) (hb : no.inOp = true → (beginOp k).isSome) :
    ∃ k', wrapper body no k = some (-1, k') := by
  cases hop : no.inOp with
  | false => exact ⟨k, wrapper_of_not_inOp hop h⟩
  | true =>
    obtain ⟨k₁, hk₁⟩ := Option.isSome_iff_exists.1 (hb hop)
    obtain ⟨k₂, hk₂⟩ := Option.isSome_iff_exists.1 (endOp_isSome hk₁)
    refine ⟨k₂, ?_⟩
    rw [wrapper_of_inOp hop h, hk₁, Option.bind_some, hk₂]
    rfl

end

theorem sysMailboxes_rejects {no : Sysno} {s : MailboxThreads} {t : Slot} {l : Ret}
    (h : Rejects no u) (hp : s.panicked = none) (hr : (s.proc t).state = .running)
    (hpc : s.pc t = .out l) :
    sysMailboxes.step s (.outside t (no, u)) = some (s.setPc t (.out ⟨-1, []⟩)) := by
  obtain ⟨f, hf⟩ := h
  have hout : sysMailboxes.outside l (no, u) s.obj = some (.code s.obj ⟨-1, []⟩) := by
    unfold sysMailboxes
    dsimp only
    rw [hf]
  unfold Client.step
  dsimp only
  rw [if_pos ⟨hp, hr⟩, hpc]
  dsimp only
  rw [hout]

/-- For a process with `sz` below `KERNBASE`: the argument functions and the loop of `sys_exec` read
only memory of the process, and what they return is such memory; so is what any call is given.
`argptr` accepts every buffer that is memory of the process and starts below `sz`. A call whose
wrapper rejects an argument returns `-1` and changes neither the mailboxes nor the process: before
`begin_op` it changes nothing at all, and from `begin_op` to `end_op` only the log, with those that
wait for it woken up. -/
theorem syscall_arguments (u : User) (hsz : u.sz.toNat < kernbase) :
    ((∀ addr, Checked u (fetchint addr) fun v => u.Owns addr.toNat 4 ∧
        v = BitVec.ofNat 32 (leNat (readRange u.mem addr.toNat 4))) ∧
      (∀ addr, Checked u (fetchstr addr) fun r => r.ptr = addr ∧ u.IsStr r) ∧
      (∀ n, Checked u (argint n) fun _ => u.Owns (u.argAddr n).toNat 4) ∧
      (∀ n size, Checked u (argptr n size) fun p =>
        u.Owns (u.argAddr n).toNat 4 ∧ u.IsBuf p size) ∧
      (∀ uargv, Checked u (argvFrom uargv maxarg 0) fun argv =>
        (∀ i ≤ argv.length, u.Owns (uargv + 4 * BitVec.ofNat 32 i).toNat 4) ∧
          ∀ arg ∈ argv, u.IsStr arg) ∧
      ∀ no : Sysno, Checked u no.args (Call.InUser u)) ∧
    (∀ n i size s, argint n ⟨u, []⟩ = .ok i s → 0 ≤ size.toInt → i.toNat < u.sz.toNat →
      u.Owns i.toNat size.toNat → argptr n size ⟨u, []⟩ = .ok i s) ∧
    (∀ body eax no k, k.user = u → dispatch eax = some no → Rejects no u →
      (no.inOp = false → syscall body eax k = some (-1, k)) ∧
      ((no.inOp = true → (beginOp k).isSome) → ∃ k', syscall body eax k = some (-1, k')) ∧
      ∀ r k', syscall body eax k = some (r, k') → r = -1 ∧ Quiet k k' ∧
        ∀ me, (k.proc me).state = .running → k'.proc me = k.proc me) ∧
    ∀ no s t l, Rejects no u → s.panicked = none → (s.proc t).state = .running → s.pc t = .out l →
      sysMailboxes.step s (.outside t (no, u)) = some (s.setPc t (.out ⟨-1, []⟩)) := by
  refine ⟨⟨fetchint_checked hsz, fetchstr_checked, argint_checked hsz, argptr_checked hsz,
    fun uargv => ?_, args_checked hsz⟩, fun n i size s hi h0 hlt howns => ?_, ?_, ?_⟩
  · have h := argvFrom_checked hsz uargv maxarg 0
    simpa only [Nat.zero_add] using h
  · exact argptr_accepts hsz rfl hi hlt ⟨h0, howns⟩
  · intro body eax no k hk hno hrej
    subst hk
    have hsys : syscall body eax k = wrapper body no k := by
      unfold syscall
      rw [hno]
    rw [hsys]
    refine ⟨fun hop => wrapper_of_not_inOp hop hrej, wrapper_returns hrej, fun r k' hw => ?_⟩
    obtain ⟨hr, hq⟩ := wrapper_quiet hrej hw
    refine ⟨hr, hq, fun me hme => ?_⟩
    rcases hq.proc me with h | ⟨h, -, -⟩
    · exact h
    · rw [hme] at h
      cases h
  · intro no s t l hrej hp hr hpc
    exact sysMailboxes_rejects hrej hp hr hpc

def pageUser : User := ⟨4096, 0, fun _ => none, fun _ => 0⟩

/-- A buffer of 4096 bytes at `0` is accepted, and `ksend` with it is given memory of the
process. -/
theorem syscall_arguments_page :
    (∃ s, argptr 0 4096 ⟨pageUser, []⟩ = .ok 0 s) ∧
      Checked pageUser sysKsend (Call.InUser pageUser) ∧ Rejects .read pageUser := by
  have h := syscall_arguments pageUser (by decide)
  refine ⟨⟨_, h.2.1 0 0 4096 _ rfl (by decide) (by decide) (by unfold User.Owns; decide)⟩,
    h.1.2.2.2.2.2 .ksend, _, rfl⟩

end

end Xv6.Syscall
