import Xv6.Sh.Grammar
import Mathlib.Data.List.TakeWhile

/-!
# `gettoken` and `peek` read tokens

`rest buf s` are the tokens that the string has left at the pointer `s`. `gettoken` takes the first
of them, and `peek` looks at it (`gettoken_spec`, `peek_spec`).
-/

namespace Xv6.Sh

variable {c : Char} {cs : List Char}

/-! ## Loops over characters -/

section
variable {buf : List Char} {s : Nat}

theorem deref_eq (buf : List Char) (s : Nat) : deref buf s = (buf.drop s).headD nul := by
  induction buf generalizing s with
  | nil => simp [deref]
  | cons c buf ih =>
    cases s with
    | zero => rfl
    | succ s => simp [deref]

theorem skipLoop_eq (f : Char → Bool) : ∀ (n s : Nat), n = buf.length - s →
    skipLoop buf f n s = s + ((buf.drop s).takeWhile f).length
  | 0, s, h => by
    rw [List.drop_eq_nil_of_le (by omega)]
    rfl
  | n + 1, s, h => by
    obtain ⟨c, cs, hc⟩ := List.exists_cons_of_ne_nil (l := buf.drop s) (by
      intro h0
      have := List.drop_eq_nil_iff.1 h0
      omega)
    have hd : buf.drop (s + 1) = cs := by
      rw [← List.drop_drop, hc]
      rfl
    rw [skipLoop, deref_eq, hc, skipLoop_eq f n (s + 1) (by omega), hd]
    cases hf : f c with
    | true =>
      simp [hf]
      omega
    | false => simp [hf]

theorem skip_eq (f : Char → Bool) (s : Nat) :
    skip buf f s = s + ((buf.drop s).takeWhile f).length := skipLoop_eq f _ s rfl

theorem drop_skip (f : Char → Bool) (s : Nat) :
    buf.drop (skip buf f s) = (buf.drop s).dropWhile f := by
  rw [skip_eq, ← List.drop_drop]
  generalize buf.drop s = cs
  conv_lhs => rw [← List.takeWhile_append_dropWhile (p := f) (l := cs), List.drop_append]
  simp

theorem skip_le (f : Char → Bool) (h : s ≤ buf.length) : skip buf f s ≤ buf.length := by
  have h1 := (List.takeWhile_prefix f (l := buf.drop s)).length_le
  rw [List.length_drop] at h1
  rw [skip_eq]
  omega

end

theorem dropWhile_ends (f : Char → Bool) (cs : List Char) :
    (cs.dropWhile f).head?.any f = false := by
  induction cs with
  | nil => rfl
  | cons c cs ih =>
    cases hc : f c with
    | true => rwa [List.dropWhile_cons_of_pos hc]
    | false =>
      rw [List.dropWhile_cons_of_neg (by simp [hc])]
      simpa using hc

/-! ## Tokens -/

theorem tokens_cons (h : c = '>' → cs.head? ≠ some '>') :
    tokens (c :: cs) = if isWhitespace c then tokens cs else
      match symbolTok c with
      | some t => t :: tokens cs
      | none => consWord c (cs.head?.any isWordChar) (tokens cs) :=
  tokens.eq_3 _ _ fun s hc hs => h hc (by rw [hs]; rfl)

theorem tokens_whitespace (hc : isWhitespace c = true) (cs : List Char) :
    tokens (c :: cs) = tokens cs := by
  rw [tokens_cons, if_pos hc]
  intro h
  subst h
  simp [isWhitespace, whitespace] at hc

theorem tokens_dropWhile (cs : List Char) : tokens (cs.dropWhile isWhitespace) = tokens cs := by
  induction cs with
  | nil => rfl
  | cons c cs ih =>
    cases hc : isWhitespace c with
    | true => rw [List.dropWhile_cons_of_pos hc, ih, tokens_whitespace hc]
    | false => rw [List.dropWhile_cons_of_neg (by simp [hc])]

theorem tokens_symbol {t : Tok} (hc : symbolTok c = some t) (h : c = '>' → cs.head? ≠ some '>') :
    tokens (c :: cs) = t :: tokens cs := by
  have hw : isWhitespace c = false := by
    unfold symbolTok at hc
    split at hc <;> first | rfl | cases hc
  rw [tokens_cons h, hw, hc]
  rfl

theorem symbolTok_eq_none (hc : isWordChar c = true) : symbolTok c = none := by
  unfold symbolTok
  split <;> first | rfl | (exfalso; revert hc; decide)

theorem consWord_last (c : Char) (ts : List Tok) : consWord c false ts = .word [c] :: ts := by
  cases ts with
  | nil => rfl
  | cons t ts => cases t <;> rfl

theorem tokens_word : ∀ {w : List Char}, w ≠ [] → (∀ c ∈ w, isWordChar c = true) →
    ∀ {cs : List Char},
    cs.head?.any isWordChar = false → tokens (w ++ cs) = .word w :: tokens cs
  | [], hw, _, _, _ => absurd rfl hw
  | c :: w, _, hall, cs, hcs => by
    have hc := hall c (by simp)
    have hws : isWhitespace c = false := by
      simp only [isWordChar, Bool.and_eq_true, Bool.not_eq_true'] at hc
      exact hc.1
    have hgt : c = '>' → (w ++ cs).head? ≠ some '>' := by
      rintro rfl
      simp [isWordChar, symbols] at hc
    rw [List.cons_append, tokens_cons hgt, hws, symbolTok_eq_none hc]
    cases w with
    | nil =>
      rw [List.nil_append, hcs]
      exact consWord_last c _
    | cons d w =>
      rw [tokens_word (by simp) (fun x hx => hall x (by simp [hx])) hcs]
      simp [consWord, hall d (by simp)]

/-- The tokens from `s` on. -/
def rest (buf : List Char) (s : Nat) : List Tok := tokens (buf.drop s)

/-- `tokens`, one case for each kind of first token. -/
inductive Lexed : List Char → List Tok → Prop
  | done : Lexed [] []
  | gtgt {cs : List Char} : Lexed ('>' :: '>' :: cs) (.redir .gtgt :: tokens cs)
  | symbol {c : Char} {t : Tok} {cs : List Char} : symbolTok c = some t →
      (c = '>' → cs.head? ≠ some '>') → Lexed (c :: cs) (t :: tokens cs)
  | word {w cs : List Char} : w ≠ [] → (∀ c ∈ w, isWordChar c = true) →
      cs.head?.any isWordChar = false → Lexed (w ++ cs) (.word w :: tokens cs)

theorem symbolTok_of_not_word (hw : isWhitespace c = false) (hc : isWordChar c = false) :
    ∃ t, symbolTok c = some t := by
  have hm : symbols.contains c = true := by
    simp only [isWhitespace] at hw
    simpa only [isWordChar, hw, Bool.not_false, Bool.true_and, Bool.not_eq_false'] using hc
  simp only [symbols, List.contains_eq_mem, List.mem_cons, List.not_mem_nil, or_false,
    decide_eq_true_eq] at hm
  rcases hm with rfl | rfl | rfl | rfl | rfl | rfl | rfl <;> exact ⟨_, rfl⟩

theorem lexed (h : cs.head?.any isWhitespace = false) : Lexed cs (tokens cs) := by
  cases cs with
  | nil => exact .done
  | cons c cs =>
    have hw : isWhitespace c = false := by simpa using h
    cases hc : isWordChar c with
    | true =>
      have hs := List.takeWhile_append_dropWhile (p := isWordChar) (l := c :: cs)
      have hne : (c :: cs).takeWhile isWordChar ≠ [] := by simp [hc]
      have hall : ∀ d ∈ (c :: cs).takeWhile isWordChar, isWordChar d = true :=
        fun d hd => List.mem_takeWhile_imp hd
      have hend := dropWhile_ends isWordChar (c :: cs)
      rw [← hs, tokens_word hne hall hend]
      exact .word hne hall hend
    | false =>
      obtain ⟨t, ht⟩ := symbolTok_of_not_word hw hc
      by_cases hg : c = '>' ∧ cs.head? = some '>'
      · obtain ⟨rfl, hg⟩ := hg
        obtain ⟨ds, rfl⟩ := List.head?_eq_some_iff.1 hg
        exact .gtgt
      · have hn : c = '>' → cs.head? ≠ some '>' := fun h1 h2 => hg ⟨h1, h2⟩
        rw [tokens_symbol ht hn]
        exact .symbol ht hn

/-- The word `w` stands from `q` to `eq`. -/
structure IsSpan (buf : List Char) (q eq : Nat) (w : List Char) : Prop where
  text : buf.drop q = w ++ buf.drop eq
  eq_add : eq = q + w.length
  le : eq ≤ buf.length
  word : ∀ c ∈ w, isWordChar c = true
  ends : (buf.drop eq).head?.any isWordChar = false

/-- What `gettoken` returns. -/
def Tok.code : Tok → Char
  | .redir .lt => '<'
  | .redir .gt => '>'
  | .redir .gtgt => '+'
  | .bar => '|'
  | .amp => '&'
  | .semi => ';'
  | .lpar => '('
  | .rpar => ')'
  | .word _ => 'a'

theorem Tok.code_ne_nul (t : Tok) : t.code ≠ nul := by
  cases t with
  | redir op => cases op <;> decide
  | word w => exact (by decide : 'a' ≠ nul)
  | _ => decide

section
variable {buf : List Char} {s : Nat}

theorem rest_skip : rest buf (skip buf isWhitespace s) = rest buf s := by
  rw [rest, drop_skip, tokens_dropWhile, rest]

theorem lexed_skip : Lexed (buf.drop (skip buf isWhitespace s)) (rest buf s) := by
  rw [← rest_skip, rest]
  refine lexed ?_
  rw [drop_skip]
  exact dropWhile_ends _ _

theorem deref_cons (h : buf.drop s = c :: cs) :
    deref buf s = c ∧ buf.drop (s + 1) = cs ∧ s + 1 ≤ buf.length := by
  refine ⟨by rw [deref_eq, h]; rfl, ?_, ?_⟩
  · rw [← List.drop_drop, h]
    rfl
  · have := congrArg List.length h
    simp only [List.length_drop, List.length_cons] at this
    omega

theorem ne_nul_of_drop (hn : nul ∉ buf) (h : buf.drop s = c :: cs) :
    c ≠ nul := by
  intro hc
  exact hn (List.mem_of_mem_drop (i := s) (by rw [h, hc]; simp))

theorem gettokenSwitch_spec (hn : nul ∉ buf) {ts : List Tok} (h : Lexed (buf.drop s) ts) :
    (ts = [] ∧ gettokenSwitch buf s = (nul, s)) ∨
    ∃ t us e, ts = t :: us ∧ gettokenSwitch buf s = (t.code, e) ∧ rest buf e = us ∧ e ≤ buf.length ∧
      ∀ w, t = .word w → IsSpan buf s e w := by
  generalize hcs : buf.drop s = cs at h
  cases h with
  | done =>
    have hd : deref buf s = nul := by rw [deref_eq, hcs]; rfl
    exact .inl ⟨rfl, by rw [gettokenSwitch, if_pos hd]⟩
  | gtgt =>
    obtain ⟨h1, h2, h3⟩ := deref_cons hcs
    obtain ⟨h4, h5, h6⟩ := deref_cons h2
    refine .inr ⟨_, _, s + 2, rfl, ?_, by rw [rest, h5], h6, fun w hw => (nomatch hw)⟩
    simp only [gettokenSwitch, h1, h4]
    rfl
  | @symbol c t cs hc hg =>
    obtain ⟨h1, h2, h3⟩ := deref_cons hcs
    refine .inr ⟨t, _, s + 1, rfl, ?_, by rw [rest, h2], h3, ?_⟩
    · by_cases hgt : c = '>'
      · subst hgt
        cases hc
        have hne : deref buf (s + 1) ≠ '>' := by
          intro he
          rw [deref_eq, h2] at he
          cases cs with
          | nil => simp [nul] at he
          | cons d cs => exact hg rfl (by simpa using he)
        simp only [gettokenSwitch, h1, hne, if_false]
        rfl
      · unfold symbolTok at hc
        split at hc <;> first | (cases hc; simp only [gettokenSwitch, h1]; rfl) | cases hc
        exact absurd rfl hgt
    · intro w hw
      subst hw
      unfold symbolTok at hc
      split at hc <;> cases hc
  | @word w cs hw hall hend =>
    obtain ⟨c, w, rfl⟩ := List.exists_cons_of_ne_nil hw
    obtain ⟨h1, h2, h3⟩ := deref_cons hcs
    have hskip : skip buf isWordChar s = s + (c :: w).length := by
      have hnil : cs.takeWhile isWordChar = [] := by
        cases cs with
        | nil => rfl
        | cons d cs => exact List.takeWhile_cons_of_neg (by simpa using hend)
      rw [skip_eq, hcs, List.takeWhile_append_of_pos hall, hnil, List.append_nil]
    have hdrop : buf.drop (s + (c :: w).length) = cs := by
      rw [← List.drop_drop, hcs]
      simp
    have hlen := congrArg List.length hcs
    simp only [List.length_drop, List.length_append] at hlen
    refine .inr ⟨_, _, s + (c :: w).length, rfl,
      ?_, by rw [rest, hdrop], by omega, fun w' hw' => ?_⟩
    · have hc := hall c (by simp)
      have hs : symbols.contains c = false := by
        simp only [isWordChar, Bool.and_eq_true, Bool.not_eq_true'] at hc
        exact hc.2
      simp only [symbols, List.contains_eq_mem, List.mem_cons, List.not_mem_nil, or_false,
        decide_eq_false_iff_not, not_or] at hs
      obtain ⟨hlt, hbar, hgt, hamp, hsemi, hl, hr⟩ := hs
      simp [gettokenSwitch, h1, ne_nul_of_drop hn hcs, hlt, hbar, hgt, hamp, hsemi, hl, hr, hskip,
        Tok.code]
    · cases hw'
      exact ⟨by rw [hcs, hdrop], rfl, by omega, hall, by rw [hdrop]; exact hend⟩

theorem gettoken_spec (hn : nul ∉ buf) (hs : s ≤ buf.length) :
    (gettoken buf s).ps ≤ buf.length ∧
    ((rest buf s = [] ∧ (gettoken buf s).ret = nul ∧ rest buf (gettoken buf s).ps = []) ∨
    ∃ t ts, rest buf s = t :: ts ∧ (gettoken buf s).ret = t.code ∧
    rest buf (gettoken buf s).ps = ts ∧
      ∀ w, t = .word w → IsSpan buf (gettoken buf s).q (gettoken buf s).eq w) := by
  have hq := skip_le isWhitespace hs
  rcases gettokenSwitch_spec hn lexed_skip with ⟨hts, hsw⟩ | ⟨t, us, e, hts, hsw, hus, he, hspan⟩
  · refine ⟨?_, .inl ⟨hts, by simp [gettoken, hsw], ?_⟩⟩
    · simp only [gettoken, hsw]
      exact skip_le isWhitespace hq
    · simp only [gettoken, hsw, rest_skip, hts]
  · refine ⟨?_, .inr ⟨t, us, hts, by simp [gettoken, hsw], ?_, ?_⟩⟩
    · simp only [gettoken, hsw]
      exact skip_le isWhitespace he
    · simp only [gettoken, hsw, rest_skip, hus]
    · simpa only [gettoken, hsw] using hspan

theorem gettoken_cons (hn : nul ∉ buf) (hs : s ≤ buf.length) {t : Tok} {ts : List Tok}
    (h : rest buf s = t :: ts) :
    (gettoken buf s).ret = t.code ∧ rest buf (gettoken buf s).ps = ts ∧
      (gettoken buf s).ps ≤ buf.length ∧
      ∀ w, t = .word w → IsSpan buf (gettoken buf s).q (gettoken buf s).eq w := by
  obtain ⟨hle, ⟨h0, -⟩ | ⟨t', ts', h1, hret, hrest, hspan⟩⟩ := gettoken_spec hn hs
  · rw [h0] at h
    cases h
  · rw [h1] at h
    cases h
    exact ⟨hret, hrest, hle, hspan⟩

theorem gettoken_nil (hn : nul ∉ buf) (hs : s ≤ buf.length) (h : rest buf s = []) :
    (gettoken buf s).ret = nul ∧ rest buf (gettoken buf s).ps = [] ∧
      (gettoken buf s).ps ≤ buf.length := by
  obtain ⟨hle, ⟨-, hret, hrest⟩ | ⟨t', ts', h1, -⟩⟩ := gettoken_spec hn hs
  · exact ⟨hret, hrest, hle⟩
  · rw [h1] at h
    cases h

/-- The character that `peek` sees. -/
def Tok.symbol : Tok → Option Char
  | .redir .lt => some '<'
  | .redir .gt | .redir .gtgt => some '>'
  | .bar => some '|'
  | .amp => some '&'
  | .semi => some ';'
  | .lpar => some '('
  | .rpar => some ')'
  | .word _ => none

/-- What `peek` returns. -/
def startsWith (toks : List Char) (ts : List Tok) : Bool :=
  (ts.head?.bind Tok.symbol).any toks.contains

theorem peek_spec (hn : nul ∉ buf) (hs : s ≤ buf.length) {toks : List Char} (ht : toks ⊆ symbols) :
    ∃ s', peek buf s toks = (startsWith toks (rest buf s'), s') ∧ rest buf s' = rest buf s ∧
      s' ≤ buf.length := by
  refine ⟨skip buf isWhitespace s, Prod.ext ?_ rfl, rest_skip, skip_le isWhitespace hs⟩
  rw [rest_skip]
  have hl := @lexed_skip buf s
  simp only [peek]
  generalize rest buf s = ts at hl
  generalize hq : skip buf isWhitespace s = q at hl
  generalize hcs : buf.drop q = cs at hl
  cases hl with
  | done =>
    have hd : deref buf q = nul := by rw [deref_eq, hcs]; rfl
    simp [hd, startsWith]
  | gtgt =>
    obtain ⟨h1, -, -⟩ := deref_cons hcs
    have hne := ne_nul_of_drop hn hcs
    simp [h1, hne, startsWith, Tok.symbol]
  | @symbol c t cs hc hg =>
    obtain ⟨h1, -, -⟩ := deref_cons hcs
    have hne := ne_nul_of_drop hn hcs
    have hsym : t.symbol = some c := by
      unfold symbolTok at hc
      split at hc <;> cases hc <;> rfl
    simp [h1, hne, startsWith, hsym]
  | @word w cs hw hall hend =>
    obtain ⟨c, w, rfl⟩ := List.exists_cons_of_ne_nil hw
    obtain ⟨h1, -, -⟩ := deref_cons hcs
    have hc : c ∉ toks := by
      intro hm
      have hcw := hall c (by simp)
      simp [isWordChar, ht hm] at hcw
    simp [h1, startsWith, Tok.symbol, hc]

end

theorem tokens_length (cs : List Char) : (tokens cs).length ≤ cs.length := by
  fun_induction tokens cs with
  | case1 => simp
  | case2 | case3 | case4 => simp; omega
  | case5 c cs _ h ht ih =>
    have hw : ∀ g ts, (consWord c g ts).length ≤ ts.length + 1 := by
      intro g ts
      cases ts with
      | nil => simp [consWord]
      | cons t ts =>
        cases t with
        | word w => cases g <;> simp [consWord]
        | _ => simp [consWord]
    have := hw (cs.head?.any isWordChar) (tokens cs)
    simp only [List.length_cons]
    omega

end Xv6.Sh
