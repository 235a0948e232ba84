import Xv6.Sh.Proof.Lex

/-!
# The words of a command string

`words` are the words that `gettoken` delimits in the command string, in their order, each by its
two pointers. A function of the parser takes some of them, for `argv` and for redirections (`Took`):
the words from one place on are those taken and those from another place on.
-/

namespace Xv6.Sh

/-- The pointers of `argv` and `eargv` before the first null pointer. -/
def argSpans : List (Option Nat) → List (Option Nat) → List (Nat × Nat)
  | some q :: argv, some e :: eargv => (q, e) :: argSpans argv eargv
  | _, _ => []

/-- The arguments of all commands, as positions. -/
def Cmd.args : Cmd → List (Nat × Nat)
  | .exec argv eargv => argSpans argv eargv
  | .redir cmd _ _ _ _ => cmd.args
  | .pipe left right | .list left right => left.args ++ right.args
  | .back cmd => cmd.args

/-- The files of all REDIR nodes, from left to right and from the inner to the outer. -/
def Cmd.files : Cmd → List (Nat × Nat)
  | .exec _ _ => []
  | .redir cmd file efile _ _ => cmd.files ++ [(file, efile)]
  | .pipe left right | .list left right => left.files ++ right.files
  | .back cmd => cmd.files

/-- The words that `gettoken` delimits, called again and again from `s` on. -/
def wordsLoop (buf : List Char) : Nat → Nat → List (Nat × Nat)
  | 0, _ => []
  | n + 1, s =>
    let tok := gettoken buf s
    if tok.ret = nul then []
    else if tok.ret = 'a' then (tok.q, tok.eq) :: wordsLoop buf n tok.ps
    else wordsLoop buf n tok.ps

/-- Each call takes a character, so that there is no other word after these. -/
def words (buf : List Char) (s : Nat) : List (Nat × Nat) := wordsLoop buf buf.length s

/-- The text between two positions. -/
def lexeme (buf : List Char) (p : Nat × Nat) : List Char := (buf.drop p.1).take (p.2 - p.1)

/-! ## Two lists merged into one -/

/-- `ws` is made of `as` and `bs`, each in order. -/
structure Merge {α : Type} (as bs ws : List α) : Prop where
  left : as.Sublist ws
  right : bs.Sublist ws
  perm : (as ++ bs).Perm ws

namespace Merge
variable {α : Type} {as as' bs bs' ws ws' : List α}

theorem nil : Merge ([] : List α) [] [] := ⟨.slnil, .slnil, .nil⟩

theorem onlyLeft (as : List α) : Merge as [] as := ⟨.refl _, List.nil_sublist _, by simp⟩

theorem onlyRight (bs : List α) : Merge [] bs bs := ⟨List.nil_sublist _, .refl _, .refl _⟩

theorem append (h : Merge as bs ws) (h' : Merge as' bs' ws') :
    Merge (as ++ as') (bs ++ bs') (ws ++ ws') := by
  refine ⟨h.left.append h'.left, h.right.append h'.right, ?_⟩
  calc as ++ as' ++ (bs ++ bs') = as ++ (as' ++ bs) ++ bs' := by simp
    _ |>.Perm (as ++ (bs ++ as') ++ bs') := (List.perm_append_comm.append_left as).append_right bs'
    _ = (as ++ bs) ++ (as' ++ bs') := by simp
    _ |>.Perm (ws ++ ws') := h.perm.append h'.perm

end Merge

/-! ## The words from a pointer on -/

theorem rest_length_le (buf : List Char) (s : Nat) : (rest buf s).length ≤ buf.length := by
  have := tokens_length (buf.drop s)
  rw [List.length_drop] at this
  simp only [rest]
  omega

section
variable {buf : List Char} (hn : nul ∉ buf)
include hn

theorem wordsLoop_congr : ∀ (n m : Nat) {s : Nat}, s ≤ buf.length → (rest buf s).length ≤ n →
    (rest buf s).length ≤ m → wordsLoop buf n s = wordsLoop buf m s := by
  have hnil : ∀ (n : Nat) {s : Nat}, s ≤ buf.length → rest buf s = [] → wordsLoop buf n s = [] := by
    intro n s hs hr
    cases n with
    | zero => rfl
    | succ n => rw [wordsLoop, if_pos (gettoken_nil hn hs hr).1]
  intro n
  induction n with
  | zero =>
    intro m s hs h0 _
    have hr := List.eq_nil_of_length_eq_zero (Nat.le_zero.1 h0)
    rw [hnil 0 hs hr, hnil m hs hr]
  | succ n ih =>
    intro m s hs hle hlm
    cases hr : rest buf s with
    | nil => rw [hnil _ hs hr, hnil m hs hr]
    | cons t ts =>
      obtain ⟨-, hps, hle', -⟩ := gettoken_cons hn hs hr
      rw [hr, List.length_cons] at hle hlm
      obtain ⟨m, rfl⟩ := Nat.exists_eq_succ_of_ne_zero (show m ≠ 0 by omega)
      rw [wordsLoop, wordsLoop, ih m hle' (by rw [hps]; omega) (by rw [hps]; omega)]

theorem words_nil {s : Nat} (hs : s ≤ buf.length) (h : rest buf s = []) : words buf s = [] := by
  rw [words, wordsLoop_congr hn _ 0 hs (rest_length_le buf s) (by rw [h]; rfl)]
  rfl

theorem words_cons {s : Nat} (hs : s ≤ buf.length) {t : Tok} {ts : List Tok}
    (h : rest buf s = t :: ts) :
    words buf s = (if t.code = 'a' then [((gettoken buf s).q, (gettoken buf s).eq)] else []) ++
      words buf (gettoken buf s).ps := by
  obtain ⟨hret, hps, hle, -⟩ := gettoken_cons hn hs h
  have hts : (rest buf (gettoken buf s).ps).length ≤ ts.length := by rw [hps]
  have hts' : ts.length ≤ buf.length := by
    have := rest_length_le buf s
    rw [h, List.length_cons] at this
    omega
  rw [words, wordsLoop_congr hn _ (ts.length + 1) hs (rest_length_le buf s) (by rw [h]; rfl), wordsLoop,
    if_neg (by rw [hret]; exact t.code_ne_nul), hret,
    wordsLoop_congr hn ts.length buf.length hle hts (rest_length_le buf _), ← words]
  split <;> rfl

omit hn in
theorem skip_skip (f : Char → Bool) (s : Nat) : skip buf f (skip buf f s) = skip buf f s := by
  rw [skip_eq f (skip buf f s), drop_skip]
  have hnil : ((buf.drop s).dropWhile f).takeWhile f = [] := by
    have := dropWhile_ends f (buf.drop s)
    cases hd : (buf.drop s).dropWhile f with
    | nil => rfl
    | cons c cs =>
      rw [hd] at this
      exact List.takeWhile_cons_of_neg (by simpa using this)
  rw [hnil]
  rfl

omit hn in
theorem words_skip (s : Nat) : words buf (skip buf isWhitespace s) = words buf s := by
  have hg : gettoken buf (skip buf isWhitespace s) = gettoken buf s := by
    simp only [gettoken, skip_skip]
  unfold words
  cases buf.length with
  | zero => rfl
  | succ n => rw [wordsLoop, wordsLoop, hg]

end

/-! ## Words that are taken -/

/-- The words between `s` and `s'` are those of `as` and those of `fs`, both in their order. -/
structure Took (buf : List Char) (s : Nat) (as fs : List (Nat × Nat)) (s' : Nat) : Prop where
  le : s' ≤ buf.length
  split : ∃ ws, words buf s = ws ++ words buf s' ∧ Merge as fs ws

namespace Took
variable {buf : List Char} {s s₁ s₂ : Nat} {as as' fs fs' : List (Nat × Nat)}

theorem refl (hs : s ≤ buf.length) : Took buf s [] [] s := ⟨hs, [], rfl, .nil⟩

theorem trans (h : Took buf s as fs s₁) (h' : Took buf s₁ as' fs' s₂) :
    Took buf s (as ++ as') (fs ++ fs') s₂ := by
  obtain ⟨-, ws, hws, hm⟩ := h
  obtain ⟨hle, ws', hws', hm'⟩ := h'
  exact ⟨hle, ws ++ ws', by rw [hws, hws', List.append_assoc], hm.append hm'⟩

theorem peek (h : Took buf s as fs s₁) {toks : List Char} {b : Bool}
    (hpk : peek buf s₁ toks = (b, s₂)) :
    Took buf s as fs s₂ := by
  obtain rfl : skip buf isWhitespace s₁ = s₂ := congrArg Prod.snd hpk
  obtain ⟨hle, ws, hws, hm⟩ := h
  exact ⟨skip_le isWhitespace hle, ws, by rw [words_skip, hws], hm⟩

section
variable (hn : nul ∉ buf) {t : Tok} {ts : List Tok} (h : Took buf s as fs s₁)
include hn h

theorem last (hr : rest buf s₁ = []) : Took buf s as fs (gettoken buf s₁).ps := by
  obtain ⟨-, hps, hle⟩ := gettoken_nil hn h.le hr
  obtain ⟨hle₁, ws, hws, hm⟩ := h
  exact ⟨hle, ws, by rw [hws, words_nil hn hle₁ hr, words_nil hn hle hps], hm⟩

theorem next (hr : rest buf s₁ = t :: ts)
    (hm : Merge as' fs' (if t.code = 'a' then [((gettoken buf s₁).q, (gettoken buf s₁).eq)] else [])) :
    Took buf s (as ++ as') (fs ++ fs') (gettoken buf s₁).ps := by
  obtain ⟨-, -, hle, -⟩ := gettoken_cons hn h.le hr
  exact h.trans ⟨hle, _, words_cons hn h.le hr, hm⟩

theorem symbol (hr : rest buf s₁ = t :: ts) (ht : t.code ≠ 'a') :
    Took buf s as fs (gettoken buf s₁).ps := by
  have : Took buf s (as ++ []) (fs ++ []) (gettoken buf s₁).ps :=
    h.next hn hr (by rw [if_neg ht]; exact .nil)
  rwa [List.append_nil, List.append_nil] at this

theorem arg {w : List Char} (hr : rest buf s₁ = .word w :: ts) :
    Took buf s (as ++ [((gettoken buf s₁).q, (gettoken buf s₁).eq)]) fs (gettoken buf s₁).ps := by
  have := h.next hn hr (.onlyLeft _)
  rwa [List.append_nil] at this

theorem file {w : List Char} (hr : rest buf s₁ = .word w :: ts) :
    Took buf s as (fs ++ [((gettoken buf s₁).q, (gettoken buf s₁).eq)]) (gettoken buf s₁).ps := by
  have := h.next hn hr (.onlyRight _)
  rwa [List.append_nil] at this

end

end Took

end Xv6.Sh
