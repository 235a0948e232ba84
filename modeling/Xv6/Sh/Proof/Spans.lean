import Xv6.Sh.Proof.Parsecmd

/-!
# Where the words of a command are

The pointers of a command are the words of the string: those in `argv` of its EXEC nodes
(`Cmd.args`) and those of its REDIR nodes (`Cmd.files`), each in the order of the string, are
together all of them (`Merge`). One word ends before the next begins, so the NULs that
`nulterminate` writes at the ends are in none of them.
-/

namespace Xv6.Sh

theorem Except.bind_ok_inv {ε α β : Type} {x : Except ε α} {f : α → Except ε β} {b : β}
    (h : (x >>= f) = .ok b) : ∃ a, x = .ok a ∧ f a = .ok b := by
  cases x with
  | error e => cases h
  | ok a => exact ⟨a, rfl, h⟩

section
variable {buf : List Char}

theorem le_skip (f : Char → Bool) (s : Nat) : s ≤ skip buf f s := by
  rw [skip_eq]
  omega

theorem word_ne_nil {s : Nat} {w : List Char} {ts : List Tok} (h : rest buf s = .word w :: ts) :
    w ≠ [] := by
  have hl := @lexed_skip buf s
  rw [h] at hl
  generalize buf.drop (skip buf isWhitespace s) = cs at hl
  cases hl with
  | symbol hc _ =>
    unfold symbolTok at hc
    split at hc <;> cases hc
  | word hw _ _ => exact hw

theorem gettoken_q_le (buf : List Char) (s : Nat) : (gettoken buf s).q ≤ (gettoken buf s).eq := by
  show skip buf isWhitespace s ≤ (gettokenSwitch buf (skip buf isWhitespace s)).2
  generalize skip buf isWhitespace s = q
  unfold gettokenSwitch
  repeat' split
  · exact Nat.le_refl q
  · exact Nat.le_succ q
  · exact Nat.le_add_right q 2
  · exact Nat.le_succ q
  · exact le_skip _ _

/-- A word stands at these two positions. -/
def IsWord (buf : List Char) (p : Nat × Nat) : Prop := ∃ w, w ≠ [] ∧ IsSpan buf p.1 p.2 w

theorem IsWord.lt {p : Nat × Nat} (h : IsWord buf p) : p.1 < p.2 := by
  obtain ⟨w, hw, hs⟩ := h
  have := List.length_pos_of_ne_nil hw
  have := hs.eq_add
  omega

theorem IsSpan.isWordChar {q e i : Nat} {w : List Char} (hs : IsSpan buf q e w)
    (hi : q ≤ i) (hi' : i < e) :
    isWordChar (deref buf i) = true := by
  obtain ⟨k, rfl⟩ := Nat.exists_eq_add_of_le hi
  have hk : k < w.length := by
    have := hs.eq_add
    omega
  have hd : deref buf (q + k) = w[k] := by
    rw [deref, List.getD_eq_getElem?_getD, ← List.getElem?_drop, hs.text,
      List.getElem?_append_left hk, List.getElem?_eq_getElem hk, Option.getD_some]
  rw [hd]
  exact hs.word _ (List.getElem_mem hk)

theorem Tok.code_eq_word {t : Tok} (h : t.code = 'a') : ∃ w, t = .word w := by
  cases t with
  | word w => exact ⟨w, rfl⟩
  | redir op => cases op <;> exact absurd h (by decide)
  | _ => exact absurd h (by decide)

theorem IsSpan.lexeme_eq {p : Nat × Nat} {w : List Char} (hs : IsSpan buf p.1 p.2 w) :
    lexeme buf p = w := by
  have he := hs.eq_add
  rw [lexeme, hs.text, he, Nat.add_sub_cancel_left, List.take_append_of_le_length (Nat.le_refl _),
    List.take_length]

theorem wordsLoop_apart (hn : nul ∉ buf) : ∀ (n : Nat) {s : Nat}, s ≤ buf.length →
    (∀ p ∈ wordsLoop buf n s, s ≤ p.1 ∧ IsWord buf p) ∧
    (wordsLoop buf n s).Pairwise fun p p' => p.2 < p'.1 := by
  intro n
  induction n with
  | zero => exact fun _ => ⟨fun p hp => absurd hp List.not_mem_nil, .nil⟩
  | succ n ih =>
    intro s hs
    rw [wordsLoop]
    split
    · exact ⟨fun p hp => absurd hp List.not_mem_nil, .nil⟩
    rename_i hnul
    obtain ⟨hle, ⟨-, h0, -⟩ | ⟨t, ts, hr, hret, -, hspan⟩⟩ := gettoken_spec hn hs
    · exact absurd h0 hnul
    obtain ⟨hmem, hpair⟩ := ih hle
    have hq : s ≤ (gettoken buf s).q := le_skip _ _
    have hps : (gettoken buf s).eq ≤ (gettoken buf s).ps := le_skip _ _
    split
    · rename_i ha
      obtain ⟨w, rfl⟩ := Tok.code_eq_word (hret ▸ ha)
      have hword : IsWord buf ((gettoken buf s).q, (gettoken buf s).eq) :=
        ⟨w, word_ne_nil hr, hspan w rfl⟩
      have hlt := hword.lt
      refine ⟨fun p hp => ?_, .cons (fun p hp => ?_) hpair⟩
      · rcases List.mem_cons.1 hp with rfl | hp
        · exact ⟨hq, hword⟩
        · obtain ⟨h1, h2⟩ := hmem p hp
          exact ⟨by simp only at hlt; omega, h2⟩
      · obtain ⟨h1, h2⟩ := hmem p hp
        refine Nat.lt_of_le_of_ne (Nat.le_trans hps h1) fun he => ?_
        -- what stands at the end of a word is no character of a word
        have hlt' := h2.lt
        obtain ⟨w', -, hs'⟩ := h2
        have hfirst := hs'.isWordChar (Nat.le_refl _) hlt'
        have hle' := hs'.le
        have hend := (hspan w rfl).end_not_word (by simp only at he; omega)
        simp only at he
        rw [← he, hend] at hfirst
        cases hfirst
    · refine ⟨fun p hp => ?_, hpair⟩
      obtain ⟨h1, h2⟩ := hmem p hp
      have hqe := gettoken_q_le buf s
      exact ⟨by omega, h2⟩

end

/-- **The strings of a command**: for every command string that `parsecmd` accepts, the words of the
command, those of `argv` and the files, are the words that `gettoken` delimits in the string, both
in their order on the command line; one word ends before the next begins; and after `nulterminate`
each of them, as a string, is its text, no character of which has changed. -/
theorem parsecmd_words {s : List Char} (hs : nul ∉ s) {fuel : Nat} {cmd : Cmd} {mem : List Char}
    (h : parsecmd fuel s = .ok (cmd, mem)) :
    cmd.args.Sublist (words s 0) ∧ cmd.files.Sublist (words s 0) ∧
    (cmd.args ++ cmd.files).Perm (words s 0) ∧
    ((words s 0).Pairwise fun p p' => p.2 < p'.1) ∧
    ∀ p ∈ words s 0, cstring mem p.1 = lexeme s p ∧ ∀ i, p.1 ≤ i → i < p.2 →
    deref mem i = deref s i := by
  obtain ⟨⟨c, s'⟩, hline, h⟩ := Except.bind_ok_inv h
  simp only at h
  split at h
  · cases h
  rename_i hend
  obtain ⟨m, hnul, h⟩ := Except.bind_ok_inv h
  cases h
  have hsim := (simAt hs fuel).line (.refl (Nat.zero_le s.length))
  rw [hline] at hsim
  obtain ⟨l, ts, -, ⟨hreads, hle, ws, hws, hm⟩, -⟩ := hsim.of_ok
  rw [words_nil hs hle ((peek_end hle).1 (not_not.1 hend)), List.append_nil] at hws
  subst hws
  obtain ⟨hwords, hpair⟩ := wordsLoop_apart hs s.length (Nat.zero_le s.length)
  obtain ⟨m', hm', hint, -, hnuls, -⟩ := nulterminate_reads hs hreads (intact_start s)
  cases hnul.symm.trans hm'
  refine ⟨hm.left, hm.right, hm.perm, hpair, fun p hp => ⟨?_, fun i hi hi' => ?_⟩⟩
  · obtain ⟨-, w, -, hspan⟩ := hwords p hp
    rw [cstring_span hs hint hspan (hnuls p (hm.perm.mem_iff.2 hp)), hspan.lexeme_eq]
  · obtain ⟨-, w, -, hspan⟩ := hwords p hp
    exact hint.word i (Nat.lt_of_lt_of_le hi' hspan.le) (hspan.isWordChar hi hi')

/-- Words with nothing but symbols between them. -/
theorem parsecmd_words_sample :
    let cmd : Cmd := .pipe (.redir (execNode [(0, 1)]) 2 3 (O_WRONLY ||| O_CREATE) 1)
      (execNode [(4, 6), (7, 8)])
    let mem := ['a', nul, 'b', nul, 'c', 'd', nul, 'e', nul]
    parsecmd 100 "a>b|cd e".toList = .ok (cmd, mem) ∧
      cmd.args = [(0, 1), (4, 6), (7, 8)] ∧ cmd.files = [(2, 3)] ∧
      ∀ p ∈ cmd.args ++ cmd.files, cstring mem p.1 = lexeme "a>b|cd e".toList p := by
  intro cmd mem
  have hs : nul ∉ "a>b|cd e".toList := by decide
  have h : parsecmd 100 "a>b|cd e".toList = .ok (cmd, mem) := by decide +kernel
  obtain ⟨-, -, hperm, -, htext⟩ := parsecmd_words hs h
  exact ⟨h, rfl, rfl, fun p hp => (htext p (hperm.mem_iff.1 hp)).1⟩

end Xv6.Sh
