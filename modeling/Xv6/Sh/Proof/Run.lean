import Xv6.Sh.Run
import Xv6.Sh.Proof.Parsecmd

/-!
# The order of redirections

A simple command is its words under its redirections, the first one innermost; `runcmd` goes from
the outermost to the innermost, so it performs the redirections from the last to the first
(`runcmd_redirs`). What is in effect at the end is the redirection performed last
(`performs_inEffect`).
-/

namespace Xv6.Sh

open Function

variable {p q : Process} {d : Nat} {rs : List (Nat × List Char × Nat)}
variable {K : Kernel} {argv : List (List Char)}

/-- The descriptor, the file and the mode of a redirection. -/
def Redir.effect (r : Redir) : Nat × List Char × Nat := (r.op.open.2, r.file, r.op.open.1)

/-- A command under redirections, given by what they do: they are performed in the order of the
list, until one fails, and then the program is executed. -/
def performs (K : Kernel) (argv : List (List Char)) : List (Nat × List Char × Nat) →
    Process → Process
  | [], p => (runcmd K (.exec argv) p).2
  | r :: rs, p =>
    match (p.close r.1).open K r.2.1 r.2.2 with
    | (some _, p) => performs K argv rs p
    | (none, p) => (p.printfFile "open " r.2.1 " failed\n").exit

/-- **The outermost redirection comes first.** -/
theorem runcmd_redirs (K : Kernel) (argv : List (List Char)) (rs : List Redir) (p : Process) :
    runcmd K ((Tree.exec argv).redirs rs) p =
    ([], performs K argv (rs.map Redir.effect).reverse p) := by
  induction rs using List.reverseRecOn generalizing p with
  | nil =>
    cases argv with
    | nil => rfl
    | cons a argv =>
      show runcmd K (.exec (a :: argv)) p = ([], (runcmd K (.exec (a :: argv)) p).2)
      simp only [runcmd]
      split <;> rfl
  | append_singleton rs r ih =>
    rw [Tree.redirs_concat, runcmd, List.map_append, List.reverse_append]
    simp only [List.map_cons, List.map_nil, List.reverse_singleton, List.singleton_append, performs,
      Redir.effect]
    rcases (p.close r.op.open.2).open K r.file r.op.open.1 with ⟨_ | fd, q⟩
    · rfl
    · exact ih q

/-! ## What is in effect -/

/-- Input and output are open. -/
def Process.Std (p : Process) : Prop := p.ofile 0 ≠ none ∧ p.ofile 1 ≠ none

/-- What `fd` is open for after `rs`: the last redirection of it decides. -/
def inEffect (rs : List (Nat × List Char × Nat)) (p : Process) (fd : Nat) : Option Ofile :=
  match (rs.filter fun r => r.1 = fd).getLast? with
  | some r => some (.file r.2.1 r.2.2)
  | none => p.ofile fd

/-- The last call is the `exec` of `argv`. -/
def Process.Executes (p : Process) (argv : List (List Char)) : Prop :=
  p.calls.getLast? = some (.exec argv true)

theorem Process.Std.fdalloc_closed (h : p.Std) (hd : d ≤ 1) :
    (p.close d).fdalloc = some d := by
  obtain ⟨h0, h1⟩ := h
  obtain rfl | rfl : d = 0 ∨ d = 1 := by omega
  · rfl
  · show (0 :: 1 :: (List.range NOFILE).drop 2).find? _ = _
    rw [List.find?_cons_of_neg (by simpa [close, setFile, call] using h0),
      List.find?_cons_of_pos (by rfl)]

theorem Process.Std.open_closed (h : p.Std) {fd mode : Nat} (hd : d ≤ 1)
    {path : List Char} (ho : (p.close d).open K path mode = (some fd, q)) :
    q.ofile = update p.ofile d (some (.file path mode)) := by
  simp only [Process.open, h.fdalloc_closed hd] at ho
  split at ho
  · cases ho
    simp [close, setFile, call]
  · cases ho

theorem Process.Std.update (h : p.Std) {f : Ofile}
    (hq : q.ofile = update p.ofile d (some f)) : q.Std := by
  have hne : ∀ fd, p.ofile fd ≠ none → q.ofile fd ≠ none := by
    intro fd hp
    rw [hq, update_apply]
    split
    · simp
    · exact hp
  exact ⟨hne 0 h.1, hne 1 h.2⟩

theorem inEffect_cons {r : Nat × List Char × Nat}
    (hq : q.ofile = update p.ofile r.1 (some (.file r.2.1 r.2.2))) (fd : Nat) :
    inEffect (r :: rs) p fd = inEffect rs q fd := by
  unfold inEffect
  rw [hq, update_apply]
  by_cases hr : r.1 = fd
  · rw [List.filter_cons_of_pos (by simpa using hr), List.getLast?_cons, if_pos hr.symm]
    cases (rs.filter fun r => r.1 = fd).getLast? <;> rfl
  · rw [List.filter_cons_of_neg (by simpa using hr), if_neg (Ne.symm hr)]

/-- **The last redirection of a descriptor is in effect** when the program is executed. -/
theorem performs_inEffect (hrs : ∀ r ∈ rs, r.1 ≤ 1)
    (h : p.Std) (he : (performs K argv rs p).Executes argv) (fd : Nat) :
    (performs K argv rs p).ofile fd = inEffect rs p fd := by
  induction rs generalizing p with
  | nil =>
    cases argv with
    | nil => rfl
    | cons a argv =>
      simp only [performs, runcmd]
      split <;> rfl
  | cons r rs ih =>
    rw [performs] at he ⊢
    rcases ho : (p.close r.1).open K r.2.1 r.2.2 with ⟨_ | fd', q⟩
    · rw [ho] at he
      simp [Process.Executes, Process.exit, Process.printfFile, Process.call] at he
    · have hq := h.open_closed (hrs r (by simp)) ho
      simp only [ho] at he ⊢
      rw [ih (fun r' hr' => hrs r' (by simp [hr'])) (h.update hq) he, inEffect_cons hq]

/-! ## From left to right -/

/-- The process performs the redirections `rs` in their order and then executes `argv`, and the last
one of each descriptor is in effect then. -/
def LeftToRight (t : Tree) (rs : List Redir) (argv : List (List Char)) : Prop :=
  ∀ (K : Kernel) (p : Process), p.Std →
    runcmd K t p = ([], performs K argv (rs.map Redir.effect) p) ∧
    ((runcmd K t p).2.Executes argv → ∀ fd, (runcmd K t p).2.ofile fd =
      inEffect (rs.map Redir.effect) p fd)

def ample : Kernel := ⟨fun _ _ _ => true, fun _ => true, fun _ => true, fun _ _ => true⟩

def started : Process := ⟨fun fd => if fd < 3 then some (.other fd) else none, []⟩

theorem started_std : started.Std := ⟨by decide, by decide⟩

/-- The calls for one redirection. -/
def redirCalls (r : Nat × List Char × Nat) : List Call := [.close r.1, .open r.2.1 r.2.2 (some r.1)]

theorem redirCalls_injective : ∀ {rs rs' : List (Nat × List Char × Nat)},
    rs.flatMap redirCalls = rs'.flatMap redirCalls → rs = rs'
  | [], [], _ => rfl
  | [], r :: rs', h | r :: rs, [], h => by simp [redirCalls] at h
  | (d, f, m) :: rs, (d', f', m') :: rs', h => by
    simp only [List.flatMap_cons, redirCalls, List.cons_append, List.nil_append, List.cons.injEq,
      Call.close.injEq, Call.open.injEq] at h
    obtain ⟨rfl, ⟨rfl, rfl, -⟩, h⟩ := h
    rw [redirCalls_injective h]

theorem performs_ample (hrs : ∀ r ∈ rs, r.1 ≤ 1) (h : p.Std) :
    (performs ample argv rs p).calls =
      p.calls ++ rs.flatMap redirCalls ++ [if argv = [] then .exit else .exec argv true] := by
  induction rs generalizing p with
  | nil =>
    cases argv with
    | nil => simp [performs, runcmd, Process.exit, Process.call]
    | cons a argv => simp [performs, runcmd, ample, Process.call]
  | cons r rs ih =>
    have hfd := h.fdalloc_closed (hrs r (by simp))
    let q := ((p.close r.1).setFile r.1 (some (.file r.2.1 r.2.2))).call (.open r.2.1 r.2.2 (some r.1))
    have ho : (p.close r.1).open ample r.2.1 r.2.2 = (some r.1, q) := by
      simp [Process.open, hfd, ample, q]
    have hcalls : q.calls = p.calls ++ redirCalls r := by
      simp [q, Process.close, Process.setFile, Process.call, redirCalls]
    simp only [performs, ho]
    rw [ih (fun r' hr' => hrs r' (by simp [hr'])) (h.update (h.open_closed (hrs r (by simp)) ho)),
      hcalls]
    simp

theorem effect_le_one (rs : List Redir) : ∀ r ∈ rs.map Redir.effect, r.1 ≤ 1 := by
  intro r hr
  obtain ⟨⟨op, file⟩, -, rfl⟩ := List.mem_map.1 hr
  cases op <;> simp [Redir.effect, RedirOp.open]

theorem leftToRight_iff (rs : List Redir) (argv : List (List Char)) :
    LeftToRight ((Tree.exec argv).redirs rs) rs argv ↔
      (rs.map Redir.effect).reverse = rs.map Redir.effect := by
  constructor
  · intro h
    obtain ⟨hrun, -⟩ := h ample started started_std
    rw [runcmd_redirs] at hrun
    have hcalls := congrArg (fun r => r.2.calls) hrun
    simp only [performs_ample (effect_le_one rs) started_std,
      performs_ample (fun r hr => effect_le_one rs r (List.mem_reverse.1 hr)) started_std] at hcalls
    exact redirCalls_injective (List.append_cancel_left (List.append_cancel_right hcalls))
  · intro hrev K p hp
    rw [runcmd_redirs, hrev]
    exact ⟨rfl, fun he => performs_inEffect (effect_le_one rs) hp he⟩

/-- **The order of redirections**: a simple command with the redirections `rs` anywhere among its
words is parsed, and its redirections are performed from left to right, whatever the kernel answers,
exactly if they are the same from right to left. -/
theorem redirections_iff {s : List Char} (hs : nul ∉ s) {fuel : Nat} (hf : 4 * s.length + 4 ≤ fuel)
    {rs : List Redir} {args : List (List Char × List Redir)} (hargs : args.length < MAXARGS)
    (hy : (Exec.simple rs args).yield = tokens s) :
    ∃ cmd mem, parsecmd fuel s = .ok (cmd, mem) ∧
      (LeftToRight (cmd.read mem) (rs ++ args.flatMap Prod.snd) (args.map Prod.fst) ↔
        ((rs ++ args.flatMap Prod.snd).map Redir.effect).reverse =
          (rs ++ args.flatMap Prod.snd).map Redir.effect) := by
  let l : Line := .last (.exec (.simple rs args)) 0
  have hl : l.yield = tokens s := by
    rw [← hy]
    simp [l, Line.yield, Pipe.yield]
  have hlen := tokens_length s
  have htok := l.tok (n := fuel) (show l.Fits from hargs) (show LineEnd [] by simp [LineEnd])
    (by rw [hl]; omega)
  rw [List.append_nil, hl] at htok
  rcases parsecmd_cases hs hf with ⟨l', cmd, mem, ht, hp, hread⟩ | ⟨e, -, -, -, hnone⟩
  · rw [htok] at ht
    cases ht
    refine ⟨cmd, mem, hp, ?_⟩
    rw [hread]
    exact leftToRight_iff _ _
  · exact absurd htok (hnone l)

theorem redirections_iff_single :
    ∃ cmd mem, parsecmd 100 "c x>a".toList = .ok (cmd, mem) ∧
      LeftToRight (cmd.read mem) [⟨.gt, ['a']⟩] [['c'], ['x']] := by
  obtain ⟨cmd, mem, hp, hiff⟩ := @redirections_iff "c x>a".toList (by decide) 100 (by decide)
    [] [(['c'], []), (['x'], [⟨.gt, ['a']⟩])] (by decide) (by rfl)
  exact ⟨cmd, mem, hp, hiff.2 (by rfl)⟩

/-- `c>a>b`: the output goes to `a`. -/
theorem redirections_reversed :
    let cmd : Cmd := .redir (.redir (execNode [(0, 1)]) 2 3 (O_WRONLY ||| O_CREATE) 1) 4 5
      (O_WRONLY ||| O_CREATE) 1
    let mem := ['c', nul, 'a', nul, 'b', nul]
    let p := (runcmd ample (cmd.read mem) started).2
    (Exec.simple [] [(['c'], [⟨.gt, ['a']⟩, ⟨.gt, ['b']⟩])]).yield = tokens "c>a>b".toList ∧
    parsecmd 100 "c>a>b".toList = .ok (cmd, mem) ∧
    p.calls = [.close 1, .open ['b'] (O_WRONLY ||| O_CREATE) (some 1), .close 1,
      .open ['a'] (O_WRONLY ||| O_CREATE) (some 1), .exec [['c']] true] ∧
    p.ofile 1 = some (.file ['a'] (O_WRONLY ||| O_CREATE)) ∧
    ¬ LeftToRight (cmd.read mem) [⟨.gt, ['a']⟩, ⟨.gt, ['b']⟩] [['c']] := by
  refine ⟨by rfl, by decide +kernel, by decide +kernel, by decide +kernel, fun h => ?_⟩
  have := (leftToRight_iff [⟨.gt, ['a']⟩, ⟨.gt, ['b']⟩] [['c']]).1 h
  exact absurd this (by decide)

end Xv6.Sh
