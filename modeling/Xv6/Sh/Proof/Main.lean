import Xv6.Sh.Main

/-!
# What the main loop makes of the lines

`gets` returns a line as it is if the line fits into the buffer and has no carriage return
(`getsLoop_line`), and otherwise a part of it (`getsLoop_part`), which the main loop passes on as a
command of its own. So the main loop passes on the lines of the input exactly if they all fit, and
nothing comes after the last.
-/

namespace Xv6.Sh

variable {l s : List Char} {n : Nat}

/-- The line, with its newline and the NUL after it, has room in the buffer; and it has no carriage
return. -/
def LineFits (l : List Char) : Prop := l.length < bufSize ∧ '\r' ∉ l

instance (l : List Char) : Decidable (LineFits l) := inferInstanceAs (Decidable (_ ∧ _))

theorem getsLoop_line (hl : '\n' ∉ l) (hr : '\r' ∉ l) (hn : l.length < n) (s : List Char) :
    getsLoop n (l ++ '\n' :: s) = (l ++ ['\n'], s) := by
  induction l generalizing n with
  | nil =>
    obtain ⟨n, rfl⟩ := Nat.exists_eq_succ_of_ne_zero (show n ≠ 0 by simp at hn; omega)
    rfl
  | cons c l ih =>
    obtain ⟨n, rfl⟩ := Nat.exists_eq_succ_of_ne_zero (show n ≠ 0 by simp at hn; omega)
    simp only [List.mem_cons, not_or] at hl hr
    rw [List.cons_append, getsLoop, if_neg (by rintro (h | h); exacts [hl.1 h.symm, hr.1 h.symm]),
      ih hl.2 hr.2 (by simpa using hn)]
    rfl

theorem getsLoop_part (hl : '\n' ∉ l) (h : ¬ (l.length < n ∧ '\r' ∉ l)) (s : List Char) :
    (getsLoop n (l ++ '\n' :: s)).1.length ≤ l.length ∧
      ((getsLoop n (l ++ '\n' :: s)).1.length = n ∨
        '\r' ∈ (getsLoop n (l ++ '\n' :: s)).1.getLast?) := by
  induction l generalizing n with
  | nil =>
    obtain rfl : n = 0 := by simpa using h
    exact ⟨Nat.le_refl _, .inl rfl⟩
  | cons c l ih =>
    cases n with
    | zero => exact ⟨Nat.zero_le _, .inl rfl⟩
    | succ n =>
      simp only [List.mem_cons, not_or] at hl
      rw [List.cons_append, getsLoop]
      by_cases hc : c = '\r'
      · subst hc
        exact ⟨by simp, .inr (by simp)⟩
      · rw [if_neg (by rintro (h' | h'); exacts [hl.1 h'.symm, hc h'])]
        obtain ⟨hle, hend⟩ := ih hl.2 (n := n) (by
          rintro ⟨h1, h2⟩
          exact h ⟨by simpa using h1, by simp [h2, Ne.symm hc]⟩)
        refine ⟨by simpa using hle, ?_⟩
        rcases hend with hend | hend
        · exact .inl (by simpa using hend)
        · refine .inr ?_
          simp only [List.getLast?_cons]
          rw [Option.mem_def.1 hend]
          rfl

/-! ## Lines -/

theorem lines_line (hl : '\n' ∉ l) (s : List Char) :
    lines (l ++ '\n' :: s) = ((l ++ ['\n']) :: (lines s).1, (lines s).2) := by
  induction l with
  | nil => rfl
  | cons c l ih =>
    simp only [List.mem_cons, not_or] at hl
    rw [List.cons_append, lines, ih hl.2]
    simp [Ne.symm hl.1]

theorem lines_open {t : List Char} (ht : '\n' ∉ t) : lines t = ([], t) := by
  induction t with
  | nil => rfl
  | cons c t ih =>
    simp only [List.mem_cons, not_or] at ht
    rw [lines, ih ht.2]
    simp [Ne.symm ht.1]

theorem first_line (s : List Char) : '\n' ∉ s ∨ ∃ l s', '\n' ∉ l ∧ s = l ++ '\n' :: s' := by
  by_cases h : '\n' ∈ s
  · obtain ⟨l, s', hs, hl⟩ := List.eq_append_cons_of_mem h
    exact .inr ⟨l, s', hl, hs⟩
  · exact .inl h

/-! ## `getcmd` -/

theorem getsLoop_append (n : Nat) (s : List Char) : (getsLoop n s).1 ++ (getsLoop n s).2 = s := by
  fun_induction getsLoop n s with
  | case1 | case2 | case3 => rfl
  | case4 n c s h l s' heq ih =>
    rw [heq] at ih
    simpa using ih

theorem getsLoop_ne_nil (hn : n ≠ 0) (hs : s ≠ []) : (getsLoop n s).1 ≠ [] := by
  obtain ⟨n, rfl⟩ := Nat.exists_eq_succ_of_ne_zero hn
  obtain ⟨c, s, rfl⟩ := List.exists_cons_of_ne_nil hs
  rw [getsLoop]
  split <;> simp

theorem getcmd_cons (h0 : nul ∉ s) (hs : s ≠ []) :
    getcmd s = some (getsLoop (bufSize - 1) s) ∧
    (getsLoop (bufSize - 1) s).2.length < s.length := by
  have happ := getsLoop_append (bufSize - 1) s
  obtain ⟨c, l, hc⟩ :=
    List.exists_cons_of_ne_nil (getsLoop_ne_nil (n := bufSize - 1) (by decide) hs)
  have hne : c ≠ nul := by
    rintro rfl
    rw [hc] at happ
    exact h0 (by rw [← happ]; simp)
  refine ⟨?_, ?_⟩
  · have hd : ¬ deref (getsLoop (bufSize - 1) s).1 0 = nul := by
      rw [hc]
      exact hne
    exact if_neg hd
  · have hlen := congrArg List.length happ
    rw [hc] at hlen
    simp only [List.length_append, List.length_cons] at hlen
    omega

theorem getcmd_line (hl : '\n' ∉ l) (h0 : nul ∉ l ++ '\n' :: s) (hf : LineFits (l ++ ['\n'])) :
    getcmd (l ++ '\n' :: s) = some (l ++ ['\n'], s) := by
  obtain ⟨hlen, hr⟩ := hf
  rw [(getcmd_cons h0 (by simp)).1, getsLoop_line hl (fun h => hr (by simp [h]))]
  simp only [List.length_append, List.length_singleton] at hlen
  omega

/-! ## The main loop -/

/-- What `main` does with a line. -/
def passed (buf : List Char) : Passed := if isCd buf then .chdir (cdPath buf) else .parsecmd buf

theorem isCd_part {p : List Char} (hp : isCd p = true) (hend : p.length = bufSize - 1 ∨
    '\r' ∈ p.getLast?) :
    4 ≤ p.length := by
  rcases hend with hend | hend
  · simp only [bufSize] at hend
    omega
  · simp only [isCd, deref, Bool.and_eq_true] at hp
    match p with
    | [] | [_] | [_, _] => simp [nul] at hp
    | [a, b, c] =>
      obtain ⟨-, hc⟩ := hp
      simp at hc hend
      rw [hc] at hend
      exact absurd hend (by decide)
    | a :: b :: c :: d :: p => simp

theorem passed_part {p : List Char} (hle : p.length ≤ l.length)
    (hend : p.length = bufSize - 1 ∨ '\r' ∈ p.getLast?) : passed p ≠ passed (l ++ ['\n']) := by
  intro h
  unfold passed at h
  split at h <;> rename_i hp
  · split at h
    · have hlen := congrArg List.length (Passed.chdir.inj h)
      simp only [cdPath, List.length_drop, List.length_take, List.length_append,
        List.length_singleton] at hlen
      have := isCd_part hp hend
      omega
    · cases h
  · split at h
    · cases h
    · have hlen := congrArg List.length (Passed.parsecmd.inj h)
      simp only [List.length_append, List.length_singleton] at hlen
      omega

theorem mainLoop_forks (n k : Nat) (h0 : nul ∉ s) (hs : s ≠ []) :
    ∃ k', mainLoop (fun _ => true) (n + 1) k s =
      (mainLoop (fun _ => true) n k' (getsLoop (bufSize - 1) s).2).map
        (passed (getsLoop (bufSize - 1) s).1 :: ·) := by
  rw [mainLoop, (getcmd_cons h0 hs).1]
  simp only [passed]
  split
  · exact ⟨k, rfl⟩
  · exact ⟨k + 1, rfl⟩

theorem deliver_forks (k : Nat) (ls : List (List Char)) :
    deliver (fun _ => true) k ls = ls.map passed := by
  induction ls generalizing k with
  | nil => rfl
  | cons buf ls ih =>
    simp only [deliver, ih, List.map_cons, passed]
    split <;> rfl

/-- The lines of the input all fit, and nothing comes after the last newline. -/
def LinesFit (s : List Char) : Prop := (lines s).2 = [] ∧ ∀ l ∈ (lines s).1, LineFits l

instance (s : List Char) : Decidable (LinesFit s) := inferInstanceAs (Decidable (_ ∧ _))

theorem linesFit_line (hl : '\n' ∉ l) (s : List Char) :
    LinesFit (l ++ '\n' :: s) ↔ LineFits (l ++ ['\n']) ∧ LinesFit s := by
  simp only [LinesFit, lines_line hl, List.mem_cons, forall_eq_or_imp]
  tauto

theorem mainLoop_of_fit (forks : Nat → Bool) (k : Nat) (h0 : nul ∉ s) (hn : s.length < n)
    (h : LinesFit s) : mainLoop forks n k s = some (deliver forks k (lines s).1) := by
  induction n generalizing k s with
  | zero => omega
  | succ n ih =>
    rcases first_line s with hs | ⟨l, s', hl, rfl⟩
    · obtain rfl : s = [] := by simpa [LinesFit, lines_open hs] using h
      rfl
    · obtain ⟨hfit, hrest⟩ := (linesFit_line hl s').1 h
      have hlen : s'.length < n := by simp at hn; omega
      have h0' : nul ∉ s' := fun hm => h0 (by simp [hm])
      rw [mainLoop, getcmd_line hl h0 hfit, lines_line hl]
      simp only [deliver, ih _ h0' hlen hrest]
      split
      · rfl
      · split <;> rfl

theorem fit_of_mainLoop (k : Nat) (h0 : nul ∉ s) (hn : s.length < n)
    (h : mainLoop (fun _ => true) n k s = some ((lines s).1.map passed)) : LinesFit s := by
  induction n generalizing k s with
  | zero => omega
  | succ n ih =>
    rcases first_line s with hs | ⟨l, s', hl, rfl⟩
    · rw [lines_open hs] at h
      by_cases hnil : s = []
      · subst hnil
        exact ⟨rfl, fun l hl => (nomatch hl)⟩
      · obtain ⟨k', hk⟩ := mainLoop_forks n k h0 hnil
        rw [hk] at h
        obtain ⟨ps, -, hps⟩ := Option.map_eq_some_iff.1 h
        cases hps
    · have hne : l ++ '\n' :: s' ≠ [] := by simp
      have hlen : s'.length < n := by simp at hn; omega
      have h0' : nul ∉ s' := fun hm => h0 (by simp [hm])
      obtain ⟨k', hk⟩ := mainLoop_forks n k h0 hne
      rw [linesFit_line hl]
      rw [hk, lines_line hl] at h
      obtain ⟨ps, hps, hcons⟩ := Option.map_eq_some_iff.1 h
      simp only [List.map_cons, List.cons.injEq] at hcons
      obtain ⟨hfirst, rfl⟩ := hcons
      have hfit : LineFits (l ++ ['\n']) := by
        by_contra hbad
        obtain ⟨hle, hend⟩ := getsLoop_part hl (n := bufSize - 1) (fun hg => hbad (by
          refine ⟨?_, by simpa using hg.2⟩
          have := hg.1
          simp only [List.length_append, List.length_singleton]
          omega)) s'
        exact passed_part hle hend hfirst
      refine ⟨hfit, ih k' h0' hlen ?_⟩
      obtain ⟨hl1, hr⟩ := hfit
      rw [getsLoop_line hl (fun hm => hr (by simp [hm])) (by simp at hl1; omega)] at hps
      exact hps

/-- **The main loop and the lines of the input**: for every input without NUL, and with fuel for its
characters, what the main loop passes to `parsecmd` and `chdir` is the sequence of the lines of the
input, whichever calls of `fork` succeed, exactly if every line has at most 99 characters with its
newline and no carriage return, and nothing comes after the last newline. -/
theorem mainLoop_lines_iff {s : List Char} (h0 : nul ∉ s) {fuel : Nat} (hf : s.length < fuel) :
    (∀ forks, mainLoop forks fuel 0 s = some (deliver forks 0 (lines s).1)) ↔ LinesFit s := by
  constructor
  · intro h
    refine fit_of_mainLoop 0 h0 hf ?_
    rw [h, deliver_forks]
  · exact fun h forks => mainLoop_of_fit forks 0 h0 hf h

theorem mainLoop_lines_iff_sample :
    mainLoop (fun _ => true) 100 0 "cd a\nls\n".toList =
    some [.chdir ['a'], .parsecmd ['l', 's', '\n']] := by
  have h := (@mainLoop_lines_iff "cd a\nls\n".toList (by decide) 100 (by decide)).2 (by decide)
  rw [h]
  decide

/-- A line of 100 characters and its newline is two commands. -/
theorem mainLoop_splits_line :
    let s := List.replicate 100 'a' ++ ['\n']
    (lines s).1 = [s] ∧ mainLoop (fun _ => true) 102 0 s =
      some [.parsecmd (List.replicate 99 'a'), .parsecmd ['a', '\n']] ∧
    mainLoop (fun _ => true) 102 0 s ≠ some (deliver (fun _ => true) 0 (lines s).1) := by
  decide +kernel

end Xv6.Sh
