import Xv6.Sh.Proof.Grammar
import Xv6.Sh.Proof.Words
import Mathlib.Data.List.Forall2
import Mathlib.Data.List.Induction

/-!
# The shell's parser refines recursive descent over tokens

Each function of the parser does at a pointer what its counterpart does to the tokens that are left
there: both panic with the same message, or both return, and the command that the one builds has the
words of the derivation that the other builds (`Reads`), those between the two pointers (`Took`).
The loop that fills `argv` writes into a node under the redirections that came before;
`setArg_reads` says what that does to the tree.
-/

namespace Xv6.Sh

variable {ret : Cmd} {ws : List (List Char)} {rs : List Redir} {s s₀ n : Nat}

/-- A node with the words from `q` to `eq` of each span, and null pointers after them. -/
def execNode (spans : List (Nat × Nat)) : Cmd :=
  .exec (spans.map (fun p => some p.1) ++ List.replicate (MAXARGS - spans.length) none)
    (spans.map (fun p => some p.2) ++ List.replicate (MAXARGS - spans.length) none)

/-- The command has the shape and the words of the tree; its `argv` has room for a null pointer. -/
inductive Reads (buf : List Char) : Cmd → Tree → Prop
  | exec {spans : List (Nat × Nat)} {ws : List (List Char)} :
      List.Forall₂ (fun p w => IsSpan buf p.1 p.2 w) spans ws → spans.length < MAXARGS →
      Reads buf (execNode spans) (.exec ws)
  | redir {c : Cmd} {t : Tree} {q e mode fd : Nat} {w : List Char} : Reads buf c t →
      IsSpan buf q e w →
      Reads buf (.redir c q e mode fd) (.redir t w mode fd)
  | pipe {c c' : Cmd} {t t' : Tree} : Reads buf c t → Reads buf c' t' →
      Reads buf (.pipe c c') (.pipe t t')
  | list {c c' : Cmd} {t t' : Tree} : Reads buf c t → Reads buf c' t' →
      Reads buf (.list c c') (.list t t')
  | back {c : Cmd} {t : Tree} : Reads buf c t → Reads buf (.back c) (.back t)

/-- The command has the words of the tree, and its pointers are those of the words from `s₀` to
`s`. -/
structure Built (buf : List Char) (s₀ : Nat) (c : Cmd) (t : Tree) (s : Nat) : Prop where
  reads : Reads buf c t
  took : Took buf s₀ c.args c.files s

theorem Built.peek {buf : List Char} {s₀ s s' : Nat} {c : Cmd} {t : Tree}
    {toks : List Char} {b : Bool} (h : Built buf s₀ c t s) (hpk : peek buf s toks = (b, s')) :
    Built buf s₀ c t s' :=
  ⟨h.reads, h.took.peek hpk⟩

/-- A call at a pointer and one on tokens stop for the same reason, or return related values and are
at the same place. -/
def Simulates (buf : List Char) {α β : Type} (R : β → α → Nat → Prop) :
    Except Stop (β × Nat) → Except Stop (α × List Tok) → Prop
  | .ok (b, s), .ok (a, ts) => R b a s ∧ rest buf s = ts
  | .error e, .error e' => e = e'
  | _, _ => False

section
variable {buf : List Char}
variable {α β γ : Type} {R : β → α → Nat → Prop} {x : Except Stop (β × Nat)}
  {y : Except Stop (α × List Tok)} {f : Nat × Nat → Nat}

theorem Simulates.bind {δ : Type} {R' : δ → γ → Nat → Prop} {f : β × Nat → Except Stop (δ × Nat)}
    {g : α × List Tok → Except Stop (γ × List Tok)} (h : Simulates buf R x y)
    (hf : ∀ b a s, R b a s → Simulates buf R' (f (b, s)) (g (a, rest buf s))) :
    Simulates buf R' (x >>= f) (y >>= g) := by
  cases x with
  | error e =>
    cases y with
    | error e' => exact h
    | ok r => exact h.elim
  | ok r =>
    cases y with
    | error e' => exact h.elim
    | ok r' =>
      obtain ⟨hR, hrest⟩ := h
      have := hf r.1 r'.1 r.2 hR
      rw [hrest] at this
      exact this

theorem Simulates.map_right {R' : β → γ → Nat → Prop} {f : α → γ} (h : Simulates buf R x y)
    (hf : ∀ b a s, R b a s → R' b (f a) s) :
    Simulates buf R' x (y >>= fun r => .ok (f r.1, r.2)) := by
  cases x with
  | error e =>
    cases y with
    | error e' => exact h
    | ok r => exact h.elim
  | ok r =>
    cases y with
    | error e' => exact h.elim
    | ok r' => exact ⟨hf _ _ _ h.1, h.2⟩

theorem Simulates.of_ok {b : β} (h : Simulates buf R (.ok (b, s)) y) :
    ∃ a ts, y = .ok (a, ts) ∧ R b a s ∧ rest buf s = ts := by
  cases y with
  | error e => exact h.elim
  | ok r => exact ⟨r.1, r.2, rfl, h⟩

theorem Tree.redirs_append (t : Tree) (rs rs' : List Redir) :
    t.redirs (rs ++ rs') = (t.redirs rs).redirs rs' := List.foldl_append

theorem Tree.redirs_concat (t : Tree) (rs : List Redir) (r : Redir) :
    t.redirs (rs ++ [r]) = .redir (t.redirs rs) r.file r.op.open.1 r.op.open.2 :=
  t.redirs_append rs [r]

theorem set_next (spans : List (Nat × Nat)) (p : Nat × Nat) (h : spans.length < MAXARGS) :
    (spans.map (fun p => some (f p)) ++ List.replicate (MAXARGS - spans.length) none).set spans.length
        (some (f p)) =
      (spans ++ [p]).map (fun p => some (f p)) ++ List.replicate
      (MAXARGS - (spans ++ [p]).length) none := by
  obtain ⟨k, hk⟩ := Nat.exists_eq_succ_of_ne_zero (show MAXARGS - spans.length ≠ 0 by omega)
  have hk' : MAXARGS - (spans ++ [p]).length = k := by
    simp only [List.length_append, List.length_cons, List.length_nil]
    omega
  rw [hk, hk', List.set_append_right _ _ (by simp)]
  simp [List.replicate_succ]

theorem set_null (spans : List (Nat × Nat)) (h : spans.length < MAXARGS) :
    (spans.map (fun p => some (f p)) ++ List.replicate (MAXARGS - spans.length) none).set
    spans.length none =
      spans.map (fun p => some (f p)) ++ List.replicate (MAXARGS - spans.length) none := by
  obtain ⟨k, hk⟩ := Nat.exists_eq_succ_of_ne_zero (show MAXARGS - spans.length ≠ 0 by omega)
  rw [hk, List.set_append_right _ _ (by simp)]
  simp [List.replicate_succ]

theorem argSpans_execNode (spans : List (Nat × Nat)) (k : Nat) :
    argSpans (spans.map (fun p => some p.1) ++ List.replicate k none)
      (spans.map (fun p => some p.2) ++ List.replicate k none) = spans := by
  induction spans with
  | nil => cases k <;> rfl
  | cons p spans ih => simpa [argSpans] using ih

theorem args_execNode (spans : List (Nat × Nat)) : (execNode spans).args = spans :=
  argSpans_execNode spans _

theorem setArg_reads (h : Reads buf ret ((Tree.exec ws).redirs rs)) (q e : Nat) :
    ∃ ret', setArg ws.length (some q) (some e) ret = .ok ret' ∧ ret'.args = ret.args ++ [(q, e)] ∧
      ret'.files = ret.files ∧ (ws.length + 1 < MAXARGS → ∀ w, IsSpan buf q e w →
        Reads buf ret' ((Tree.exec (ws ++ [w])).redirs rs)) := by
  induction rs using List.reverseRecOn generalizing ret with
  | nil =>
    cases h with
    | @exec spans ws hall hlen =>
      have hl := hall.length_eq
      refine ⟨execNode (spans ++ [(q, e)]), ?_, by simp only [args_execNode], rfl, fun hlen' w hw => ?_⟩
      · have h1 := set_next (f := Prod.fst) spans (q, e) hlen
        have h2 := set_next (f := Prod.snd) spans (q, e) hlen
        simp only [execNode, setArg, ← hl, if_pos hlen, h1, h2]
      · refine .exec (List.rel_append hall (.cons hw .nil)) ?_
        simpa [hl] using hlen'
  | append_singleton rs r ih =>
    rw [Tree.redirs_concat] at h
    cases h with
    | redir hc hspan =>
      obtain ⟨ret', hset, hargs, hfiles, hreads⟩ := ih hc
      refine ⟨.redir ret' _ _ _ _, by rw [setArg, hset]; rfl, hargs, congrArg (· ++ [_]) hfiles,
        fun hlen w hw => ?_⟩
      rw [Tree.redirs_concat]
      exact (hreads hlen w hw).redir hspan

theorem setArg_null (h : Reads buf ret ((Tree.exec ws).redirs rs)) :
    setArg ws.length none none ret = .ok ret := by
  induction rs using List.reverseRecOn generalizing ret with
  | nil =>
    cases h with
    | @exec spans ws hall hlen =>
      have hl := hall.length_eq
      have h1 := set_null (f := Prod.fst) spans hlen
      have h2 := set_null (f := Prod.snd) spans hlen
      simp only [execNode, setArg, ← hl, if_pos hlen, h1, h2]
  | append_singleton rs r ih =>
    rw [Tree.redirs_concat] at h
    cases h with
    | redir hc hspan =>
      rw [setArg, ih hc]
      rfl

variable (hn : nul ∉ buf)
include hn

theorem parseredirs_sim (n : Nat) {cmd : Cmd} {t : Tree} (h : Built buf s₀ cmd t s) :
    Simulates buf (fun c rs => Built buf s₀ c (t.redirs rs)) (parseredirs buf n cmd s)
      (tokRedirs n (rest buf s)) := by
  induction n generalizing cmd t s with
  | zero => rfl
  | succ n ih =>
    obtain ⟨s', hpk, hrest, hle⟩ := peek_spec hn h.took.le (show ['<', '>'] ⊆ symbols by decide)
    replace h := h.peek hpk
    rw [parseredirs, hpk, ← hrest]
    simp only
    cases hts : rest buf s' with
    | nil => exact ⟨h, hts⟩
    | cons tok ts =>
      cases tok with
      | redir op =>
        obtain ⟨hret, hps, hle', -⟩ := gettoken_cons hn hle hts
        have htook := h.took.symbol hn hts (by cases op <;> decide)
        have hst : startsWith ['<', '>'] (.redir op :: ts) = true := by cases op <;> rfl
        rw [if_pos hst]
        subst hps
        cases hts' : rest buf (gettoken buf s').ps with
        | nil =>
          obtain ⟨hret', -, -⟩ := gettoken_nil hn hle' hts'
          rw [if_pos (by rw [hret']; decide)]
          rfl
        | cons tok' ts' =>
          obtain ⟨hret', hps', -, hspan⟩ := gettoken_cons hn hle' hts'
          cases tok' with
          | word w =>
            have hbuilt : Built buf s₀ (.redir cmd _ _ op.open.1 op.open.2) (.redir t w _ _) _ :=
              ⟨h.reads.redir (hspan w rfl), htook.file hn hts'⟩
            rw [if_neg (by rw [hret']; exact fun h => h rfl), ← hps', hret]
            cases op <;> exact (ih hbuilt).map_right fun _ _ _ hr => hr
          | redir op' =>
            rw [if_pos (by rw [hret']; cases op' <;> decide)]
            rfl
          | _ =>
            rw [if_pos (by rw [hret']; decide)]
            rfl
      | _ => exact ⟨h, hts⟩

theorem parsebacks_sim (n : Nat) {cmd : Cmd} {t : Tree} (h : Built buf s₀ cmd t s) :
    Simulates buf (fun c k => Built buf s₀ c (t.backs k)) (parsebacks buf n cmd s)
      (tokBacks n (rest buf s)) := by
  induction n generalizing cmd t s with
  | zero => rfl
  | succ n ih =>
    obtain ⟨s', hpk, hrest, hle⟩ := peek_spec hn h.took.le (show ['&'] ⊆ symbols by decide)
    replace h := h.peek hpk
    rw [parsebacks, hpk, ← hrest]
    simp only
    cases hts : rest buf s' with
    | nil => exact ⟨h, hts⟩
    | cons tok ts =>
      cases tok with
      | amp =>
        obtain ⟨-, hps, -⟩ := gettoken_cons hn hle hts
        rw [if_pos (show startsWith ['&'] (.amp :: ts) = true from rfl), ← hps]
        have hbuilt : Built buf s₀ (.back cmd) (.back t) _ :=
          ⟨h.reads.back, h.took.symbol hn hts (by decide)⟩
        exact (ih hbuilt).map_right fun _ _ _ hr => hr
      | redir op => cases op <;> exact ⟨h, hts⟩
      | _ => exact ⟨h, hts⟩

theorem parseargs_sim (n : Nat) (h : Built buf s₀ ret ((Tree.exec ws).redirs rs) s) :
    Simulates buf
      (fun r args s => Built buf s₀ r.1 ((Tree.exec (ws ++ args.map Prod.fst)).redirs
        (rs ++ args.flatMap Prod.snd)) s ∧ r.2 = (ws ++ args.map Prod.fst).length)
      (parseargs buf n ret ws.length s) (tokArgs n ws.length (rest buf s)) := by
  induction n generalizing ret ws rs s with
  | zero => rfl
  | succ n ih =>
    obtain ⟨s', hpk, hrest, hle⟩ := peek_spec hn h.took.le (show ['|', ')', '&',
      ';'] ⊆ symbols by decide)
    replace h := h.peek hpk
    rw [parseargs, hpk, ← hrest]
    simp only
    have hret : Reads buf ret ((Tree.exec (ws ++ [])).redirs (rs ++ [])) := by simpa using h.reads
    cases hts : rest buf s' with
    | nil =>
      obtain ⟨hnul, hps, hle'⟩ := gettoken_nil hn hle hts
      rw [if_neg (by decide), if_pos hnul]
      exact ⟨⟨⟨hret, h.took.last hn hts⟩, by simp⟩, hps⟩
    | cons tok ts =>
      obtain ⟨hcode, hps, -, hspan⟩ := gettoken_cons hn hle hts
      have hnul : (gettoken buf s').ret ≠ nul := by
        rw [hcode]
        exact tok.code_ne_nul
      cases tok with
      | word w =>
        have hstop : ¬ startsWith ['|', ')', '&', ';'] (.word w :: ts) =
          true := by simp [startsWith, Tok.symbol]
        rw [if_neg hstop, if_neg hnul, if_neg (by rw [hcode]; exact fun h => h rfl)]
        obtain ⟨ret', hset, hargs, hfiles, hreads⟩ :=
          setArg_reads h.reads (gettoken buf s').q (gettoken buf s').eq
        have htook : Took buf s₀ ret'.args ret'.files (gettoken buf s').ps := by
          rw [hargs, hfiles]
          exact h.took.arg hn hts
        rw [hset]
        simp only [bind, Except.bind, tokArgs]
        by_cases hlen : ws.length + 1 ≥ MAXARGS
        · rw [if_pos hlen, if_pos hlen]
          rfl
        · rw [if_neg hlen, if_neg hlen, ← hps]
          have hret' := hreads (by omega) w (hspan w rfl)
          refine (parseredirs_sim hn n ⟨hret', htook⟩).bind fun c rs' s₂ hc => ?_
          rw [← Tree.redirs_append] at hc
          have hlw : ws.length + 1 = (ws ++ [w]).length := by simp
          rw [hlw]
          refine (ih hc).map_right fun r args s hr => ?_
          simpa [List.append_assoc] using hr
      | redir op =>
        rw [if_neg (by cases op <;> simp [startsWith, Tok.symbol]), if_neg hnul,
          if_pos (by rw [hcode]; cases op <;> decide)]
        rfl
      | lpar =>
        rw [if_neg (by simp [startsWith, Tok.symbol]), if_neg hnul, if_pos (by rw [hcode]; decide)]
        rfl
      | _ => exact ⟨⟨⟨hret, h.took⟩, by simp⟩, hts⟩

omit hn in
theorem reads_execcmd : Reads buf execcmd (.exec []) :=
  @Reads.exec buf [] [] .nil (by decide)

/-- The four mutually recursive functions, with the same fuel as their counterparts, at a place
before which no word has been taken. -/
structure SimAt (buf : List Char) (n : Nat) : Prop where
  line : ∀ {s₀ s}, Took buf s₀ [] [] s →
    Simulates buf (fun c l => Built buf s₀ c l.tree) (parseline buf n s) (tokLine n (rest buf s))
  pipe : ∀ {s₀ s}, Took buf s₀ [] [] s →
    Simulates buf (fun c p => Built buf s₀ c p.tree) (parsepipe buf n s) (tokPipe n (rest buf s))
  exec : ∀ {s₀ s}, Took buf s₀ [] [] s →
    Simulates buf (fun c e => Built buf s₀ c e.tree) (parseexec buf n s) (tokExec n (rest buf s))
  block : ∀ {s₀ s}, Took buf s₀ [] [] s →
    Simulates buf (fun c e => Built buf s₀ c e.tree) (parseblock buf n s) (tokBlock n (rest buf s))

section
variable (h : SimAt buf n) (hs : Took buf s₀ [] [] s)
include h hs

theorem parseline_sim : Simulates buf (fun c l => Built buf s₀ c l.tree) (parseline buf (n + 1) s)
    (tokLine (n + 1) (rest buf s)) := by
  rw [parseline, tokLine]
  refine (h.pipe hs).bind fun c p s₁ hc => ?_
  refine (parsebacks_sim hn n hc).bind fun c' k s₂ hc' => ?_
  obtain ⟨s', hpk, hrest, hle⟩ := peek_spec hn hc'.took.le (show [';'] ⊆ symbols by decide)
  replace hc' := hc'.peek hpk
  simp only [hpk, ← hrest]
  cases hts : rest buf s' with
  | nil => exact ⟨hc', hts⟩
  | cons tok ts =>
    cases tok with
    | semi =>
      obtain ⟨-, hps, hle', -⟩ := gettoken_cons hn hle hts
      have htook := hc'.took.symbol hn hts (by decide)
      rw [if_pos (show startsWith [';'] (.semi :: ts) = true from rfl), ← hps]
      exact (h.line (.refl hle')).bind fun c'' l s₃ hc'' =>
        ⟨⟨hc'.reads.list hc''.reads, htook.trans hc''.took⟩, rfl⟩
    | redir op => cases op <;> exact ⟨hc', hts⟩
    | _ => exact ⟨hc', hts⟩

theorem parsepipe_sim : Simulates buf (fun c p => Built buf s₀ c p.tree) (parsepipe buf (n + 1) s)
    (tokPipe (n + 1) (rest buf s)) := by
  rw [parsepipe, tokPipe]
  refine (h.exec hs).bind fun c e s₁ hc => ?_
  obtain ⟨s', hpk, hrest, hle⟩ := peek_spec hn hc.took.le (show ['|'] ⊆ symbols by decide)
  replace hc := hc.peek hpk
  simp only [hpk, ← hrest]
  cases hts : rest buf s' with
  | nil => exact ⟨hc, hts⟩
  | cons tok ts =>
    cases tok with
    | bar =>
      obtain ⟨-, hps, hle', -⟩ := gettoken_cons hn hle hts
      have htook := hc.took.symbol hn hts (by decide)
      rw [if_pos (show startsWith ['|'] (.bar :: ts) = true from rfl), ← hps]
      exact (h.pipe (.refl hle')).bind fun c' p s₂ hc' =>
        ⟨⟨hc.reads.pipe hc'.reads, htook.trans hc'.took⟩, rfl⟩
    | redir op => cases op <;> exact ⟨hc, hts⟩
    | _ => exact ⟨hc, hts⟩

theorem parseblock_sim : Simulates buf (fun c e => Built buf s₀ c e.tree) (parseblock buf (n + 1) s)
    (tokBlock (n + 1) (rest buf s)) := by
  obtain ⟨s', hpk, hrest, hle⟩ := peek_spec hn hs.le (show ['('] ⊆ symbols by decide)
  rw [parseblock, hpk, ← hrest]
  simp only
  cases hts : rest buf s' with
  | nil => rfl
  | cons tok ts =>
    cases tok with
    | lpar =>
      obtain ⟨-, hps, -⟩ := gettoken_cons hn hle hts
      rw [if_pos (show startsWith ['('] (.lpar :: ts) = true from rfl), tokBlock, ← hps]
      refine (h.line ((hs.peek hpk).symbol hn hts (by decide))).bind fun c l s₁ hc => ?_
      obtain ⟨s₂, hpk', hrest', hle₂⟩ := peek_spec hn hc.took.le (show [')'] ⊆ symbols by decide)
      simp only [hpk', ← hrest']
      cases hts' : rest buf s₂ with
      | nil => rfl
      | cons tok' ts' =>
        cases tok' with
        | rpar =>
          obtain ⟨-, hps', -⟩ := gettoken_cons hn hle₂ hts'
          have htook := (hc.took.peek hpk').symbol hn hts' (by decide)
          rw [if_pos (show startsWith [')'] (.rpar :: ts') = true from rfl), ← hps']
          exact (parseredirs_sim hn n ⟨hc.reads, htook⟩).map_right fun _ _ _ hr => hr
        | redir op => cases op <;> rfl
        | _ => rfl
    | redir op => cases op <;> rfl
    | _ => rfl

theorem parseexec_sim : Simulates buf (fun c e => Built buf s₀ c e.tree) (parseexec buf (n + 1) s)
    (tokExec (n + 1) (rest buf s)) := by
  obtain ⟨s', hpk, hrest, hle⟩ := peek_spec hn hs.le (show ['('] ⊆ symbols by decide)
  rw [parseexec, hpk, ← hrest]
  simp only
  by_cases hl : startsWith ['('] (rest buf s') = true
  · rw [if_pos hl]
    have hb := h.block (hs.peek hpk)
    cases hts : rest buf s' with
    | nil => simp [hts, startsWith] at hl
    | cons tok ts =>
      rw [hts] at hb hl
      cases tok with
      | lpar => exact hb
      | redir op => cases op <;> simp [startsWith, Tok.symbol] at hl
      | _ => simp [startsWith, Tok.symbol] at hl
  · rw [if_neg hl, tokExec_simple n (by
      intro hh
      refine hl ?_
      rw [startsWith, Option.mem_def.1 hh]
      rfl)]
    refine (parseredirs_sim hn n ⟨reads_execcmd, hs.peek hpk⟩).bind fun ret rs s₁ hret => ?_
    refine (parseargs_sim hn n hret).bind fun r args s₂ hr => ?_
    obtain ⟨hbuilt, hlen⟩ := hr
    simp only [hlen, setArg_null hbuilt.reads]
    exact ⟨by simpa [Exec.tree] using hbuilt, rfl⟩

end

theorem simAt (n : Nat) : SimAt buf n := by
  induction n with
  | zero =>
    refine ⟨fun _ => ?_, fun _ => ?_, fun _ => ?_, fun _ => ?_⟩
    · rw [parseline, tokLine]; rfl
    · rw [parsepipe, tokPipe]; rfl
    · rw [parseexec, tokExec]; rfl
    · rw [parseblock, tokBlock]; rfl
  | succ n ih =>
    exact ⟨parseline_sim hn ih, parsepipe_sim hn ih, parseexec_sim hn ih, parseblock_sim hn ih⟩

end

end Xv6.Sh
