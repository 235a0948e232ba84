import Xv6.Sh.Grammar

/-!
# Recursive descent finds the derivation

The parser over tokens, with enough fuel: what it returns is a derivation of the tokens it has taken
(`tokLine_good`), and it returns every derivation of its input (`tokLine_yield`). So a derivation is
determined by its tokens (`Line.yield_injective`).
-/

namespace Xv6.Sh

variable {ts : List Tok} {n : Nat}
variable {α : Type} {fits : α → Prop} {yield : α → List Tok}

/-! ## What is returned is a derivation -/

/-- The result of parsing `ts`: a derivation, which fits, of the tokens taken, or a panic. -/
def Good {α : Type} (fits : α → Prop) (yield : α → List Tok) (ts : List Tok) :
    Except Stop (α × List Tok) → Prop
  | .ok (a, ts') => ts = yield a ++ ts' ∧ fits a
  | .error e => e ≠ .fuel ∧ e ≠ .overrun

theorem Good.bind {β : Type} {fits' : β → Prop}
    {yield' : β → List Tok} {us : List Tok} {x : Except Stop (α × List Tok)}
    {f : α × List Tok → Except Stop (β × List Tok)} (hx : Good fits yield us x)
    (hf : ∀ a vs, us = yield a ++ vs → fits a → Good fits' yield' ts (f (a, vs))) :
    Good fits' yield' ts (x >>= f) := by
  cases x with
  | error e => exact hx
  | ok r => exact hf r.1 r.2 hx.1 hx.2

theorem good_panic {msg : String} :
    Good fits yield ts (.error (.panic msg)) := by
  simp [Good]

theorem tokRedirs_good (n : Nat) (ts : List Tok) (h : ts.length < n) :
    Good (fun _ => True) redirsYield ts (tokRedirs n ts) := by
  fun_induction tokRedirs n ts with
  | case1 ts => omega
  | case2 n op w ts ih =>
    refine (ih (by simp at h; omega)).bind fun rs us hus _ => ⟨?_, trivial⟩
    simp [redirsYield, Redir.yield, hus]
  | case3 => exact good_panic
  | case4 => exact ⟨rfl, trivial⟩

theorem tokBacks_good (n : Nat) (ts : List Tok) (h : ts.length < n) :
    Good (fun _ => True) (List.replicate · .amp) ts (tokBacks n ts) := by
  fun_induction tokBacks n ts with
  | case1 ts => omega
  | case2 n ts ih =>
    refine (ih (by simp at h; omega)).bind fun k us hus _ => ⟨?_, trivial⟩
    simp [hus, List.replicate_succ]
  | case3 => exact ⟨rfl, trivial⟩

theorem tokArgs_good (n argc : Nat) (ts : List Tok) (h : ts.length < n) (ha : argc < MAXARGS) :
    Good (fun args => argc + args.length < MAXARGS) argsYield ts (tokArgs n argc ts) := by
  fun_induction tokArgs n argc ts with
  | case1 argc ts => omega
  | case2 n argc w ts hc => exact good_panic
  | case3 n argc w ts hc ih =>
    simp only [List.length_cons] at h
    refine (tokRedirs_good n ts (by omega)).bind fun rs us hus _ => ?_
    have hlen := congrArg List.length hus
    simp only [List.length_append] at hlen
    refine (ih us (by omega) (by omega)).bind fun args vs hvs hfit => ⟨?_, ?_⟩
    · simp [argsYield, hus, hvs]
    · simp only [List.length_cons]
      omega
  | case4 | case5 => exact good_panic
  | case6 => exact ⟨rfl, ha⟩

/-- What the four mutually recursive parsers return, with fuel for every token. -/
structure GoodAt (n : Nat) : Prop where
  line : ∀ ts : List Tok, 4 * ts.length + 4 ≤ n → Good Line.Fits Line.yield ts (tokLine n ts)
  pipe : ∀ ts : List Tok, 4 * ts.length + 3 ≤ n → Good Pipe.Fits Pipe.yield ts (tokPipe n ts)
  exec : ∀ ts : List Tok, 4 * ts.length + 2 ≤ n → Good Exec.Fits Exec.yield ts (tokExec n ts)
  block : ∀ ts : List Tok, 4 * ts.length + 1 ≤ n → Good Exec.Fits Exec.yield ts (tokBlock n ts)

theorem tokLine_succ (h : GoodAt n) (hn : 4 * ts.length + 4 ≤ n + 1) :
    Good Line.Fits Line.yield ts (tokLine (n + 1) ts) := by
  unfold tokLine
  refine (h.pipe ts (by omega)).bind fun p us hus hp => ?_
  have hlen := congrArg List.length hus
  simp only [List.length_append] at hlen
  refine (tokBacks_good n us (by omega)).bind fun k vs hvs _ => ?_
  have hlen' := congrArg List.length hvs
  simp only [List.length_append, List.length_replicate] at hlen'
  dsimp only
  split
  · rename_i ws
    simp only [List.length_cons] at hlen'
    refine (h.line ws (by omega)).bind fun l xs hxs hl => ⟨?_, hp, hl⟩
    simp [Line.yield, hus, hvs, hxs]
  · exact ⟨by simp [Line.yield, hus, hvs], hp⟩

theorem tokPipe_succ (h : GoodAt n) (hn : 4 * ts.length + 3 ≤ n + 1) :
    Good Pipe.Fits Pipe.yield ts (tokPipe (n + 1) ts) := by
  unfold tokPipe
  refine (h.exec ts (by omega)).bind fun e us hus he => ?_
  have hlen := congrArg List.length hus
  simp only [List.length_append] at hlen
  dsimp only
  split
  · rename_i vs
    simp only [List.length_cons] at hlen
    refine (h.pipe vs (by omega)).bind fun p ws hws hp => ⟨?_, he, hp⟩
    simp [Pipe.yield, hus, hws]
  · exact ⟨by simp [Pipe.yield, hus], he⟩

theorem tokBlock_succ (h : GoodAt n) (hn : 4 * ts.length + 1 ≤ n + 1) :
    Good Exec.Fits Exec.yield ts (tokBlock (n + 1) ts) := by
  unfold tokBlock
  split
  · contradiction
  · rename_i us heq
    cases heq
    simp only [List.length_cons] at hn
    refine (h.line us (by omega)).bind fun l vs hvs hl => ?_
    have hlen := congrArg List.length hvs
    simp only [List.length_append] at hlen
    dsimp only
    split
    · rename_i ws
      simp only [List.length_cons] at hlen
      refine (tokRedirs_good n ws (by omega)).bind fun rs xs hxs _ => ⟨?_, hl⟩
      simp [Exec.yield, hvs, hxs]
    · exact good_panic
  · exact good_panic

theorem tokExec_succ (h : GoodAt n) (hn : 4 * ts.length + 2 ≤ n + 1) :
    Good Exec.Fits Exec.yield ts (tokExec (n + 1) ts) := by
  unfold tokExec
  split
  · contradiction
  · rename_i heq
    cases heq
    exact h.block _ (by omega)
  · rename_i ts _ _ m hm _
    cases hm
    refine (tokRedirs_good n ts (by omega)).bind fun rs us hus _ => ?_
    have hlen := congrArg List.length hus
    simp only [List.length_append] at hlen
    refine (tokArgs_good n 0 us (by omega) (by decide)).bind fun args vs hvs hfit => ⟨?_, ?_⟩
    · simp [Exec.yield, hus, hvs]
    · simpa [Exec.Fits] using hfit

/-- **Soundness, and termination**: with fuel for its tokens the parser returns a derivation or
panics. -/
theorem goodAt (n : Nat) : GoodAt n := by
  induction n with
  | zero => exact ⟨fun _ h => by omega, fun _ h => by omega, fun _ h => by omega, fun _ h => by omega⟩
  | succ n ih =>
    exact ⟨fun _ => tokLine_succ ih, fun _ => tokPipe_succ ih, fun _ => tokExec_succ ih,
      fun _ => tokBlock_succ ih⟩

/-! ## Every derivation is returned -/

/-- What can follow a line. -/
def LineEnd (ts : List Tok) : Prop := ∀ t ∈ ts.head?, t = .rpar

/-- What can follow a pipeline. -/
def PipeEnd (ts : List Tok) : Prop := ∀ t ∈ ts.head?, t = .rpar ∨ t = .amp ∨ t = .semi

/-- What can follow a command. -/
def ExecEnd (ts : List Tok) : Prop := ∀ t ∈ ts.head?, t = .rpar ∨ t = .amp ∨ t = .semi ∨ t = .bar

/-- No redirection follows. -/
def RedirEnd (ts : List Tok) : Prop := ∀ op, .redir op ∉ ts.head?

theorem ExecEnd.redirEnd (h : ExecEnd ts) : RedirEnd ts := by
  intro op hop
  have := h _ hop
  simp at this

theorem PipeEnd.execEnd (h : PipeEnd ts) : ExecEnd ts := by
  intro t ht
  rcases h t ht with h | h | h <;> simp [h]

theorem LineEnd.pipeEnd (h : LineEnd ts) : PipeEnd ts :=
  fun t ht => .inl (h t ht)

theorem redirsYield_length (rs : List Redir) : (redirsYield rs).length = 2 * rs.length := by
  induction rs with
  | nil => rfl
  | cons r rs ih =>
    simp only [redirsYield, List.flatMap_cons, List.length_append, List.length_cons] at ih ⊢
    rw [ih]
    simp only [Redir.yield, List.length_cons, List.length_nil]
    omega

theorem redirEnd_args (args : List (List Char × List Redir)) (he : ExecEnd ts) :
    RedirEnd (argsYield args ++ ts) := by
  cases args with
  | nil => exact he.redirEnd
  | cons b args => simp [RedirEnd, argsYield]

theorem simple_ne_lpar (rs : List Redir) (args : List (List Char × List Redir)) (he : ExecEnd ts) :
    .lpar ∉ (redirsYield rs ++ (argsYield args ++ ts)).head? := by
  cases rs with
  | cons r rs => simp [redirsYield, Redir.yield]
  | nil =>
    cases args with
    | cons a args => simp [redirsYield, argsYield]
    | nil =>
      intro h
      have := he _ h
      simp at this

theorem tokExec_simple (n : Nat) (h : .lpar ∉ ts.head?) :
    tokExec (n + 1) ts = do
      let (rs, ts) ← tokRedirs n ts
      let (args, ts) ← tokArgs n 0 ts
      return (.simple rs args, ts) := by
  cases ts with
  | nil => rfl
  | cons t ts =>
    cases t with
    | lpar => exact absurd rfl h
    | _ => rfl

theorem tokRedirs_yield (n : Nat) (rs : List Redir) (he : RedirEnd ts) (h : rs.length < n) :
    tokRedirs n (redirsYield rs ++ ts) = .ok (rs, ts) := by
  induction rs generalizing n with
  | nil =>
    rcases n with _ | m
    · omega
    cases ts with
    | nil => rfl
    | cons t ts =>
      cases t with
      | redir op => exact absurd rfl (he op)
      | _ => rfl
  | cons r rs ih =>
    rcases n with _ | m
    · omega
    have hr : redirsYield (r :: rs) ++ ts =
      .redir r.op :: .word r.file :: (redirsYield rs ++ ts) := by simp [redirsYield, Redir.yield]
    rw [hr, tokRedirs, ih m (by simpa using h)]
    rfl

theorem tokArgs_yield (n argc : Nat) (args : List (List Char × List Redir)) (he : ExecEnd ts)
    (hfit : argc + args.length < MAXARGS) (h : (argsYield args).length < n) :
    tokArgs n argc (argsYield args ++ ts) = .ok (args, ts) := by
  induction args generalizing n argc with
  | nil =>
    rcases n with _ | m
    · omega
    cases ts with
    | nil => rfl
    | cons t ts =>
      have ht := he t rfl
      cases t with
      | redir | lpar | word => simp at ht
      | _ => rfl
  | cons a args ih =>
    rcases n with _ | m
    · omega
    have hr : argsYield (a :: args) ++ ts = .word a.1 ::
      (redirsYield a.2 ++ (argsYield args ++ ts)) := by
      simp [argsYield]
    have hl := congrArg List.length (show argsYield (a :: args) =
      .word a.1 :: (redirsYield a.2 ++ argsYield args) by simp [argsYield])
    simp only [List.length_cons, List.length_append, redirsYield_length] at hl hfit
    have hend := redirEnd_args args he
    rw [hr, tokArgs, if_neg (by omega), tokRedirs_yield m a.2 hend (by omega)]
    simp only [bind, Except.bind]
    rw [ih m (argc + 1) (by omega) (by omega)]
    rfl

theorem tokBacks_yield (n k : Nat) (he : .amp ∉ ts.head?) (h : k < n) :
    tokBacks n (List.replicate k .amp ++ ts) = .ok (k, ts) := by
  induction k generalizing n with
  | zero =>
    rcases n with _ | m
    · omega
    cases ts with
    | nil => rfl
    | cons t ts =>
      cases t with
      | amp => exact absurd rfl he
      | _ => rfl
  | succ k ih =>
    rcases n with _ | m
    · omega
    rw [List.replicate_succ, List.cons_append, tokBacks, ih m (by omega)]
    rfl

theorem pipeEnd_amps (k : Nat) (h : PipeEnd ts) :
    PipeEnd (List.replicate k .amp ++ ts) := by
  cases k with
  | zero => exact h
  | succ k => simp [PipeEnd, List.replicate_succ]

mutual
theorem Line.tok : ∀ (l : Line) {n : Nat} {ts : List Tok}, l.Fits → LineEnd ts →
    4 * l.yield.length + 4 ≤ n → tokLine n (l.yield ++ ts) = .ok (l, ts)
  | .last p k, n, ts, hf, he, hn => by
    rcases n with _ | m
    · omega
    simp only [Line.yield, List.length_append, List.length_replicate] at hn
    rw [Line.yield, List.append_assoc, tokLine, p.tok hf (pipeEnd_amps k he.pipeEnd) (by omega)]
    simp only [bind, Except.bind]
    rw [tokBacks_yield m k (fun h => by simpa using he _ h) (by omega)]
    cases ts with
    | nil => rfl
    | cons t ts =>
      obtain rfl := he t rfl
      rfl
  | .seq p k l, n, ts, hf, he, hn => by
    rcases n with _ | m
    · omega
    simp only [Line.yield, List.length_append, List.length_replicate, List.length_cons] at hn
    rw [Line.yield, List.append_assoc, List.append_assoc, List.cons_append, tokLine,
      p.tok hf.1 (pipeEnd_amps k (by simp [PipeEnd])) (by omega)]
    simp only [bind, Except.bind]
    rw [tokBacks_yield m k (by simp) (by omega)]
    simp only []
    rw [l.tok hf.2 he (by omega)]
    rfl

theorem Pipe.tok : ∀ (p : Pipe) {n : Nat} {ts : List Tok}, p.Fits → PipeEnd ts →
    4 * p.yield.length + 3 ≤ n → tokPipe n (p.yield ++ ts) = .ok (p, ts)
  | .exec e, n, ts, hf, he, hn => by
    rcases n with _ | m
    · omega
    simp only [Pipe.yield] at hn
    rw [Pipe.yield, tokPipe, e.tok hf he.execEnd (by omega)]
    cases ts with
    | nil => rfl
    | cons t ts =>
      have ht := he t rfl
      cases t with
      | bar => simp at ht
      | _ => rfl
  | .pipe e p, n, ts, hf, he, hn => by
    rcases n with _ | m
    · omega
    simp only [Pipe.yield, List.length_append, List.length_cons] at hn
    rw [Pipe.yield, List.append_assoc, List.cons_append, tokPipe,
      e.tok hf.1 (by simp [ExecEnd]) (by omega)]
    simp only [bind, Except.bind]
    rw [p.tok hf.2 he (by omega)]
    rfl

theorem Exec.tok : ∀ (e : Exec) {n : Nat} {ts : List Tok}, e.Fits → ExecEnd ts →
    4 * e.yield.length + 2 ≤ n → tokExec n (e.yield ++ ts) = .ok (e, ts)
  | .block l rs, n, ts, hf, he, hn => by
    obtain ⟨m, rfl⟩ := Nat.exists_eq_add_of_le' (show 2 ≤ n by omega)
    simp only [Exec.yield, List.length_append, List.length_cons, redirsYield_length] at hn
    have hr : (Exec.block l rs).yield ++ ts = .lpar ::
      (l.yield ++ .rpar :: (redirsYield rs ++ ts)) := by
      simp [Exec.yield]
    rw [hr, tokExec, tokBlock, l.tok hf (by simp [LineEnd]) (by omega)]
    simp only [bind, Except.bind]
    rw [tokRedirs_yield m rs he.redirEnd (by omega)]
    rfl
  | .simple rs args, n, ts, hf, he, hn => by
    rcases n with _ | m
    · omega
    simp only [Exec.yield, List.length_append, redirsYield_length] at hn
    have hfit : 0 + args.length < MAXARGS := by simpa [Exec.Fits] using hf
    rw [Exec.yield, List.append_assoc, tokExec_simple m (simple_ne_lpar rs args he),
      tokRedirs_yield m rs (redirEnd_args args he) (by omega)]
    simp only [bind, Except.bind]
    rw [tokArgs_yield m 0 args he hfit (by omega)]
    rfl
end

/-- **Unambiguity**: the tokens determine the derivation. -/
theorem Line.yield_injective {l l' : Line} (hl : l.Fits) (hl' : l'.Fits) (h : l.yield = l'.yield) :
    l = l' := by
  have he : LineEnd [] := by simp [LineEnd]
  have h1 := l.tok (n := 4 * l.yield.length + 4) hl he (Nat.le_refl _)
  have h2 := l'.tok (n := 4 * l'.yield.length + 4) hl' he (Nat.le_refl _)
  rw [h, h2] at h1
  cases h1
  rfl

end Xv6.Sh
