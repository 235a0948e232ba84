import Xv6.Sh.Proof.Parse

/-!
# What `parsecmd` returns

`nulterminate` writes only where no word has a character, so that afterwards every word of the
command is a string of its own (`nulterminate_reads`). With the refinement of the parser and the
grammar, that is the result about `parsecmd`.
-/

namespace Xv6.Sh

variable {q e : Nat} {w : List Char}

section
variable {buf mem : List Char}

/-- No character of a word has been overwritten. -/
structure Intact (buf mem : List Char) : Prop where
  length : mem.length = buf.length + 1
  word : ∀ i, i < buf.length → isWordChar (deref buf i) = true → deref mem i = deref buf i

/-- A NUL stays one. -/
def MoreNuls (mem mem' : List Char) : Prop := ∀ i, deref mem i = nul → deref mem' i = nul

theorem intact_start (buf : List Char) : Intact buf (buf ++ [nul]) where
  length := by simp
  word i hi _ := by simp [deref, List.getElem?_append_left hi]

theorem deref_set (mem : List Char) (i j : Nat) (h : i < mem.length) :
    deref (mem.set i nul) j = if j = i then nul else deref mem j := by
  by_cases hj : j = i
  · subst hj
    simp [deref, List.getD_eq_getElem?_getD, h]
  · simp [deref, List.getD_eq_getElem?_getD, hj, Ne.symm hj]

theorem IsSpan.end_not_word (hs : IsSpan buf q e w) (he : e < buf.length) :
    isWordChar (deref buf e) = false := by
  have hends := hs.ends
  rw [deref_eq]
  cases hd : buf.drop e with
  | nil =>
    have := List.drop_eq_nil_iff.1 hd
    omega
  | cons c cs =>
    rw [hd] at hends
    simpa using hends

theorem Intact.set (h : Intact buf mem) (hs : IsSpan buf q e w) :
    Intact buf (mem.set e nul) ∧ MoreNuls mem (mem.set e nul) ∧ deref (mem.set e nul) e = nul := by
  have he : e < mem.length := by
    have := hs.le
    rw [h.length]
    omega
  refine ⟨⟨by simpa using h.length, fun i hi hw => ?_⟩, fun i hi => ?_, ?_⟩
  · have hne : i ≠ e := by
      intro hie
      subst hie
      rw [hs.end_not_word hi] at hw
      cases hw
    rw [deref_set _ _ _ he, if_neg hne, h.word i hi hw]
  · rw [deref_set _ _ _ he, hi, ite_self]
  · rw [deref_set _ _ _ he, if_pos rfl]

theorem cstring_cons (h : deref mem q ≠ nul) :
    cstring mem q = deref mem q :: cstring mem (q + 1) := by
  rw [deref_eq] at h ⊢
  cases hd : mem.drop q with
  | nil => simp [hd] at h
  | cons c cs =>
    obtain ⟨-, hcs, -⟩ := deref_cons hd
    rw [hd] at h
    rw [cstring, hd, List.takeWhile_cons_of_pos (by simpa using h), cstring, hcs]
    rfl

theorem cstring_nul (h : deref mem q = nul) : cstring mem q = [] := by
  rw [deref_eq] at h
  cases hd : mem.drop q with
  | nil => rw [cstring, hd]; rfl
  | cons c cs =>
    rw [hd] at h
    rw [cstring, hd, List.takeWhile_cons_of_neg (by simpa using h)]

theorem cstring_word (hn : nul ∉ buf) (h : Intact buf mem)
    (htext : buf.drop q = w ++ buf.drop (q + w.length)) (hword : ∀ c ∈ w, isWordChar c = true)
    (he : deref mem (q + w.length) = nul) : cstring mem q = w := by
  induction w generalizing q with
  | nil => exact cstring_nul he
  | cons c w ih =>
    obtain ⟨hc, hdrop, hle⟩ := deref_cons htext
    have hne := ne_nul_of_drop hn htext
    have hlen : q + (c :: w).length = q + 1 + w.length := by
      simp only [List.length_cons]
      omega
    rw [hlen] at he hdrop
    have hm : deref mem q = c := (h.word q hle (by rw [hc]; exact hword c (by simp))).trans hc
    rw [cstring_cons (by rw [hm]; exact hne), hm, ih hdrop (fun d hd => hword d (by simp [hd])) he]

theorem cstring_span (hn : nul ∉ buf) (h : Intact buf mem) (hs : IsSpan buf q e w)
    (he : deref mem e = nul) : cstring mem q = w := by
  obtain ⟨htext, rfl, -, hword, -⟩ := hs
  exact cstring_word hn h htext hword he

/-- What `nulterminate` of a command with the tree `t` leads to: memory with a NUL at the end of
each of its words, in which, and after whatever other NULs are written at the ends of words, the
command reads as `t`. -/
def Terminates (buf mem : List Char) (r : Except Stop (List Char))
    (read : List Char → Tree) (t : Tree) (words : List (Nat × Nat)) : Prop :=
  ∃ mem', r = .ok mem' ∧ Intact buf mem' ∧ MoreNuls mem mem' ∧ (∀ p ∈ words, deref mem' p.2 = nul) ∧
    ∀ m, Intact buf m → MoreNuls mem' m → read m = t

theorem Terminates.seq {x : Except Stop (List Char)} {g : List Char → Except Stop (List Char)}
    {read read' : List Char → Tree} {t t' : Tree} {f : Tree → Tree → Tree}
    {as as' fs fs' : List (Nat × Nat)} (h : Terminates buf mem x read t (as ++ fs))
    (h' : ∀ {mem'}, Intact buf mem' → Terminates buf mem' (g mem') read' t' (as' ++ fs')) :
    Terminates buf mem (x >>= g) (fun m => f (read m) (read' m)) (f t t')
    (as ++ as' ++ (fs ++ fs')) := by
  obtain ⟨mem₁, rfl, hint, hmore, hnuls, hread⟩ := h
  obtain ⟨mem₂, hr, hint', hmore', hnuls', hread'⟩ := h' hint
  refine ⟨mem₂, hr, hint', fun i hi => hmore' i (hmore i hi), fun p hp => ?_, fun m hm hmm => ?_⟩
  · have hp' : p ∈ as ++ fs ∨ p ∈ as' ++ fs' := by
      simp only [List.mem_append] at hp ⊢
      tauto
    exact hp'.elim (fun hp => hmore' _ (hnuls p hp)) (hnuls' p)
  · simp only [hread m hm fun i hi => hmm i (hmore' i hi), hread' m hm hmm]

theorem nulArgs_reads (hn : nul ∉ buf) (k : Nat) {spans : List (Nat × Nat)} {ws : List (List Char)}
    (hall : List.Forall₂ (fun p w => IsSpan buf p.1 p.2 w) spans ws) (h : Intact buf mem) :
    Terminates buf mem
      (nulArgs (spans.map (fun p => some p.1) ++ none :: List.replicate k none)
        (spans.map (fun p => some p.2) ++ none :: List.replicate k none) mem)
      (fun m => .exec (spans.map fun p => cstring m p.1)) (.exec ws) spans := by
  induction hall generalizing mem with
  | nil => exact ⟨mem, rfl, h, fun _ hi => hi, by simp, fun _ _ _ => rfl⟩
  | cons hs _ ih =>
    obtain ⟨hset, hmore, hnul⟩ := h.set hs
    obtain ⟨mem', hr, hint, hmore', hnuls, hread⟩ := ih hset
    refine ⟨mem', hr, hint, fun i hi => hmore' i (hmore i hi),
      List.forall_mem_cons.2 ⟨hmore' _ hnul, hnuls⟩, fun m hm hmm => ?_⟩
    have h1 := cstring_span hn hm hs (hmm _ (hmore' _ hnul))
    have h2 : Tree.exec _ = _ := hread m hm hmm
    simp only [Tree.exec.injEq] at h2
    simp only [List.map_cons, h1, h2]

theorem read_execNode (m : List Char) {spans : List (Nat × Nat)} :
    (execNode spans).read m = .exec (spans.map fun p => cstring m p.1) := by
  have hsome : ∀ p ∈ spans.map (fun p : Nat × Nat => some p.1), p.isSome = true := by
    intro p hp
    obtain ⟨x, -, rfl⟩ := List.mem_map.1 hp
    rfl
  have hnil : (List.replicate (MAXARGS - spans.length) (none : Option Nat)).takeWhile
    Option.isSome = [] := by
    cases MAXARGS - spans.length with
    | zero | succ => rfl
  simp only [execNode, Cmd.read, List.takeWhile_append_of_pos hsome, hnil, List.append_nil]
  simp [List.filterMap_map]

theorem nulterminate_reads (hn : nul ∉ buf) {cmd : Cmd} {t : Tree} (hr : Reads buf cmd t)
    (h : Intact buf mem) :
    Terminates buf mem (nulterminate cmd mem) cmd.read t (cmd.args ++ cmd.files) := by
  induction hr generalizing mem with
  | @exec spans ws hall hlen =>
    obtain ⟨k, hk⟩ := Nat.exists_eq_succ_of_ne_zero (show MAXARGS - spans.length ≠ 0 by omega)
    obtain ⟨mem', hr, hint, hmore, hnuls, hread⟩ := nulArgs_reads hn k hall h
    refine ⟨mem', ?_, hint, hmore, ?_, fun m hm hmm => ?_⟩
    · rw [execNode, hk]
      exact hr
    · rwa [args_execNode, show (execNode spans).files = [] from rfl, List.append_nil]
    · exact (read_execNode m).trans (hread m hm hmm)
  | @redir c t q e mode fd w _ hs ih =>
    obtain ⟨mem₁, hr, hint, hmore, hnuls, hread⟩ := ih h
    obtain ⟨hset, hmore', hnul⟩ := hint.set hs
    refine ⟨mem₁.set e nul, by rw [nulterminate, hr]; rfl, hset, fun i hi => hmore' i (hmore i hi), ?_,
      fun m hm hmm => ?_⟩
    · simp only [Cmd.args, Cmd.files, ← List.append_assoc]
      exact List.forall_mem_append.2 ⟨fun p hp => hmore' _ (hnuls p hp), by simpa using hnul⟩
    · simp only [Cmd.read, hread m hm fun i hi => hmm i (hmore' i hi),
        cstring_span hn hm hs (hmm e hnul)]
  | pipe _ _ ih ih' => exact (ih h).seq (f := Tree.pipe) fun hint => ih' hint
  | list _ _ ih ih' => exact (ih h).seq (f := Tree.list) fun hint => ih' hint
  | back _ ih =>
    obtain ⟨mem₁, hr, hint, hmore, hnuls, hread⟩ := ih h
    exact ⟨mem₁, hr, hint, hmore, hnuls, fun m hm hmm => by simp only [Cmd.read, hread m hm hmm]⟩

theorem peek_end {s : Nat} (hs : s ≤ buf.length) :
    (peek buf s []).2 = buf.length ↔ rest buf s = [] := by
  have hq := skip_le isWhitespace hs
  have hl := @lexed_skip buf s
  show skip buf isWhitespace s = buf.length ↔ rest buf s = []
  constructor
  · intro he
    rw [he, List.drop_length] at hl
    generalize rest buf s = ts at hl
    generalize hcs : ([] : List Char) = cs at hl
    cases hl with
    | done => rfl
    | gtgt | symbol => cases hcs
    | word hw _ _ => exact absurd (List.append_eq_nil_iff.1 hcs.symm).1 hw
  · intro he
    rw [he] at hl
    generalize hcs : buf.drop (skip buf isWhitespace s) = cs at hl
    cases hl with
    | done =>
      have := List.drop_eq_nil_iff.1 hcs
      omega

end

theorem parsecmd_cases {s : List Char} (hs : nul ∉ s) {fuel : Nat} (hf : 4 * s.length + 4 ≤ fuel) :
    (∃ l cmd mem, tokLine fuel (tokens s) = .ok (l, []) ∧ parsecmd fuel s = .ok (cmd, mem) ∧
      cmd.read mem = l.tree) ∨
    (∃ e, parsecmd fuel s = .error e ∧ e ≠ .fuel ∧ e ≠ .overrun ∧
      ∀ l, tokLine fuel (tokens s) ≠ .ok (l, [])) := by
  have hsim := (simAt hs fuel).line (.refl (Nat.zero_le s.length))
  have hgood := (goodAt fuel).line (tokens s) (by have := tokens_length s; omega)
  rw [rest, List.drop_zero] at hsim
  unfold parsecmd
  cases hp : parseline s fuel 0 with
  | error e =>
    cases ht : tokLine fuel (tokens s) with
    | error e' =>
      rw [hp, ht] at hsim
      rw [ht] at hgood
      cases hsim
      exact .inr ⟨e, rfl, hgood.1, hgood.2, fun l hl => by cases hl⟩
    | ok r =>
      rw [hp, ht] at hsim
      exact hsim.elim
  | ok r =>
    obtain ⟨cmd, p⟩ := r
    rw [hp] at hsim
    obtain ⟨l, ts, ht, ⟨hreads, htook⟩, hrest⟩ := hsim.of_ok
    have hend := peek_end htook.le
    by_cases hl : rest s p = []
    · obtain ⟨mem, hmem, hint, -, -, hread⟩ := nulterminate_reads hs hreads (intact_start s)
      refine .inl ⟨l, cmd, mem, by rw [ht, ← hrest, hl], ?_, hread mem hint fun _ hi => hi⟩
      simp only [bind, Except.bind, hend.2 hl, hmem]
      exact if_neg fun h => h rfl
    · refine .inr ⟨.leftovers (s.drop (peek s p []).2), ?_, by simp, by simp, fun l' hl' => ?_⟩
      · simp only [bind, Except.bind]
        rw [if_pos fun h => hl (hend.1 h)]
      · cases ht.symm.trans hl'
        exact hl hrest

/-- **The shell's parser**: on every command string and with fuel for its characters, `parsecmd`
does not run out of fuel and does not access `argv` outside of its bounds; it returns exactly when
the tokens of the string have a derivation, which is then the only one, and the command that it
returns is the tree of that derivation. -/
theorem parsecmd_iff_derivable {s : List Char} (hs : nul ∉ s) {fuel : Nat}
    (hf : 4 * s.length + 4 ≤ fuel) :
    parsecmd fuel s ≠ .error .fuel ∧ parsecmd fuel s ≠ .error .overrun ∧
    ((∃ r, parsecmd fuel s = .ok r) ↔ ∃ l : Line, l.Fits ∧ l.yield = tokens s) ∧
    (∀ l l' : Line, l.Fits → l'.Fits → l.yield = tokens s → l'.yield = tokens s → l = l') ∧
    ∀ cmd mem l, parsecmd fuel s = .ok (cmd, mem) → Line.Fits l → l.yield = tokens s →
      cmd.read mem = l.tree := by
  have hgood := (goodAt fuel).line (tokens s) (by have := tokens_length s; omega)
  have htok : ∀ l : Line, l.Fits → l.yield = tokens s → tokLine fuel (tokens s) = .ok (l, []) := by
    intro l hl hy
    have hlen := tokens_length s
    have := l.tok (n := fuel) hl (show LineEnd [] by simp [LineEnd]) (by rw [hy]; omega)
    rwa [List.append_nil, hy] at this
  have huniq : ∀ l l' : Line, l.Fits → l'.Fits → l.yield = tokens s →
    l'.yield = tokens s → l = l' :=
    fun l l' hl hl' hy hy' => Line.yield_injective hl hl' (hy.trans hy'.symm)
  rcases parsecmd_cases hs hf with ⟨l, cmd, mem, ht, hp, hread⟩ | ⟨e, hp, hfuel, hover, hnone⟩
  · rw [ht] at hgood
    have hy : l.yield = tokens s := by simpa using hgood.1.symm
    rw [hp]
    refine ⟨by simp, by simp, ⟨fun _ => ⟨l, hgood.2, hy⟩, fun _ => ⟨_, rfl⟩⟩, huniq, ?_⟩
    intro cmd' mem' l' he hl' hy'
    cases he
    rw [hread, huniq l l' hgood.2 hl' hy hy']
  · rw [hp]
    refine ⟨by simpa using hfuel, by simpa using hover, ⟨fun h => ?_, fun ⟨l, hl, hy⟩ => ?_⟩, huniq, ?_⟩
    · obtain ⟨r, hr⟩ := h
      cases hr
    · exact absurd (htok l hl hy) (hnone l)
    · intro cmd' mem' l' he
      cases he

def sampleLine : String := "(a <f)|b >>g c&; d"

theorem parsecmd_iff_derivable_sample :
    ∃ cmd mem, parsecmd 100 sampleLine.toList = .ok (cmd, mem) ∧
      cmd.read mem = .list
        (.back (.pipe (.redir (.exec [['a']]) ['f'] O_RDONLY 0)
          (.redir (.exec [['b'], ['c']]) ['g'] (O_WRONLY ||| O_CREATE) 1)))
        (.exec [['d']]) := by
  have hs : nul ∉ sampleLine.toList := by decide
  have hf : 4 * sampleLine.toList.length + 4 ≤ 100 := by decide
  let l : Line :=
    .seq (.pipe (.block (.last (.exec (.simple [] [(['a'], [⟨.lt, ['f']⟩])])) 0) [])
      (.exec (.simple [] [(['b'], [⟨.gtgt, ['g']⟩]), (['c'], [])]))) 1
      (.last (.exec (.simple [] [(['d'], [])])) 0)
  have hfits : l.Fits := by simp [l, Line.Fits, Pipe.Fits, Exec.Fits, MAXARGS]
  have hy : l.yield = tokens sampleLine.toList := by rfl
  obtain ⟨-, -, hiff, -, htree⟩ := parsecmd_iff_derivable hs hf
  obtain ⟨⟨cmd, mem⟩, hr⟩ := hiff.2 ⟨l, hfits, hy⟩
  exact ⟨cmd, mem, hr, htree cmd mem l hr hfits hy⟩

end Xv6.Sh
