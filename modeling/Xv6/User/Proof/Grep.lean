import Xv6.Lib.Lines
import Xv6.User.Grep

/-!
# `grep` on an input that is read in chunks

Line by line, the buffer is a list of bytes: what is left over of the chunks before, and the chunk
(`grepLines_eq`, `grepChunk_eq`). A chunk without a newline is taken for the start of the buffer
being the end of a line (`p == buf`), and with it everything in the buffer is dropped: `grep` writes
the lines that match, for every pattern, if and only if no chunk without a newline comes before one
with a newline (`grep_lines_iff`).
-/

namespace Xv6.Grep

open Lib Function

abbrev nl : UInt8 := chr '\n'

/-- The lines that `grep` prints. -/
def selected (pattern : List UInt8) (ls : List (List UInt8)) : List (List UInt8) :=
  (ls.filter (matchRe pattern)).map (· ++ [nl])

/-- What stays in the buffer after a chunk. -/
def carry (left chunk : List UInt8) : List UInt8 :=
  if nl ∈ chunk then leftover nl (left ++ chunk) else []

/-- `grep` on lists of bytes: what is written, with `left` left over of the chunks before. -/
def written (pattern : List UInt8) : List UInt8 → List (List UInt8) → List (List UInt8)
  | _, [] => []
  | left, chunk :: chunks =>
    selected pattern (lines nl (left ++ chunk)) ++ written pattern (carry left chunk) chunks

/-- Every chunk fits into the buffer. -/
def Fits : List UInt8 → List (List UInt8) → Prop
  | _, [] => True
  | left, chunk :: chunks => chunk.length ≤ bufSize - left.length - 1 ∧
    Fits (carry left chunk) chunks

/-! ## The functions of `ulib.c` on the buffer -/

section
variable {mem : Nat → UInt8} {c : UInt8} {p n : Nat} {s : List UInt8}

theorem strchr_skip (hs : Stored mem p s) (h0 : 0 ∉ s) (hc : c ∉ s) (n : Nat) :
    Ulib.strchr mem c (n + s.length) p = Ulib.strchr mem c n (p + s.length) := by
  induction s generalizing p with
  | nil => rfl
  | cons b s ih =>
    obtain ⟨hb, hs⟩ := stored_cons.1 hs
    simp only [List.mem_cons, not_or] at h0 hc
    rw [List.length_cons, ← Nat.add_assoc, Ulib.strchr, hb, if_neg (Ne.symm h0.1),
      if_neg (Ne.symm hc.1), ih hs h0.2 hc.2, Nat.add_assoc, Nat.add_comm 1]

theorem strchr_eq_null (hs : Stored mem p s) (h0 : 0 ∉ s) (hc : c ∉ s)
    (hend : mem (p + s.length) = 0) (hn : s.length < n) : Ulib.strchr mem c n p = some none := by
  obtain ⟨k, rfl⟩ : ∃ k, n = k + 1 + s.length := ⟨n - s.length - 1, by omega⟩
  rw [strchr_skip hs h0 hc, Ulib.strchr, if_pos hend]

theorem strchr_eq_some (hs : Stored mem p s) (h0 : 0 ∉ s) (hc : c ∉ s)
    (hfound : mem (p + s.length) = c) (hc0 : c ≠ 0) (hn : s.length < n) :
    Ulib.strchr mem c n p = some (some (p + s.length)) := by
  obtain ⟨k, rfl⟩ : ∃ k, n = k + 1 + s.length := ⟨n - s.length - 1, by omega⟩
  rw [strchr_skip hs h0 hc, Ulib.strchr, hfound, if_neg hc0, if_pos rfl]

theorem str_eq (hs : Stored mem p s) (h0 : 0 ∉ s) (hend : mem (p + s.length) = 0)
    (hlt : p + s.length < bufSize) : str mem p = s := by
  obtain ⟨k, hk⟩ : ∃ k, bufSize - p = s.length + (1 + k) := ⟨bufSize - p - s.length - 1, by omega⟩
  have hhead : readRange mem (p + s.length) (1 + k) = 0 :: readRange mem (p + s.length + 1) k := by
    rw [← readRange_append]
    simp [readRange, hend]
  rw [str, hk, ← readRange_append, show readRange mem p s.length = s from hs, hhead,
    List.takeWhile_append_of_pos (by simpa using fun b hb => ne_of_mem_of_not_mem hb h0),
    List.takeWhile_cons_of_neg (by simp), List.append_nil]

theorem memmove_stored (hs : Stored mem p s) : Stored (Ulib.memmove mem 0 p s.length).1 0 s := by
  have hap : Apart (pairs 0 p s.length) := by
    apply pairs_pairwise
    intro i j hij _
    simp only [Nat.cast_id]
    omega
  refine (List.map_congr_left fun i hi => ?_).trans hs
  have hat : moves mem (pairs 0 p s.length) (0 + i) = mem (p + i) :=
    moves_mem hap (mem_pairs.2 ⟨i, List.mem_range.1 hi, rfl⟩)
  rw [← copyUp_eq] at hat
  exact hat

end

/-! ## Lines in the buffer -/

section
variable {pattern l s left chunk : List UInt8} {buf : Buf} {p m n : Nat}

theorem selected_cons (pattern l : List UInt8) (ls : List (List UInt8)) :
    selected pattern (l :: ls) =
      (if matchRe pattern l then [l ++ [nl]] else []) ++ selected pattern ls := by
  by_cases h : matchRe pattern l <;> simp [selected, h]

theorem leftover_length_le (s : List UInt8) : (leftover nl s).length ≤ s.length := by
  have := congrArg List.length (lines_flatten (b := nl) s)
  simp only [List.length_append] at this
  omega

theorem grepLine_eq (pattern : List UInt8) (hs : Stored buf p (l ++ [nl])) (h0 : 0 ∉ l)
    (hlt : p + l.length < bufSize) :
    ∃ buf', grepLine pattern buf p (p + l.length) =
        (buf', if matchRe pattern l then [l ++ [nl]] else []) ∧
      ∀ x, x ≠ p + l.length → buf' x = buf x := by
  obtain ⟨hl, hq⟩ := stored_append.1 hs
  have hstr : str (update buf (p + l.length) 0) p = l := by
    refine str_eq (hl.congr fun x _ hx => update_of_ne ?_ _ _) h0 (update_self ..) hlt
    omega
  simp only [grepLine, hstr]
  split
  · have hsame : update (update buf (p + l.length) 0) (p + l.length) (chr '\n') = buf := by
      rw [update_idem]
      exact update_eq_self_iff.2 (stored_cons.1 hq).1.symm
    refine ⟨buf, ?_, fun x _ => rfl⟩
    have hlen : p + l.length + 1 - p = (l ++ [nl]).length := by
      simp
      omega
    rw [hsame, hlen, show readRange buf p (l ++ [nl]).length = l ++ [nl] from hs]
  · exact ⟨_, rfl, fun x hx => update_of_ne hx _ _⟩

/-- **The loop over the lines** of what is in the buffer at `p`: `p` is left at what is left
over. -/
theorem grepLines_eq (pattern : List UInt8) (hs : Stored buf p s) (h0 : 0 ∉ s)
    (hend : buf (p + s.length) = 0) (hlt : p + s.length < bufSize) (hn : s.length < n) :
    ∃ buf', grepLines pattern n buf p =
        .ok (buf', p + (s.length - (leftover nl s).length), selected pattern (lines nl s)) ∧
      ∀ x, p + (s.length - (leftover nl s).length) ≤ x → buf' x = buf x := by
  induction s using lines_induction (b := nl) generalizing buf p n with
  | none s hnl =>
    obtain ⟨n, rfl⟩ : ∃ k, n = k + 1 := ⟨n - 1, by omega⟩
    refine ⟨buf, ?_, fun _ _ => rfl⟩
    rw [grepLines, strchr_eq_null hs h0 hnl hend (by omega), lines_of_notMem hnl,
      leftover_of_notMem hnl]
    simp [selected]
  | cut l r hnl ih =>
    obtain ⟨n, rfl⟩ : ∃ k, n = k + 1 := ⟨n - 1, by omega⟩
    rw [← List.singleton_append, ← List.append_assoc, stored_append] at hs
    obtain ⟨hline, hrest⟩ := hs
    simp only [List.length_append, List.length_cons, List.length_nil,
      List.mem_append, List.mem_cons, not_or, Nat.zero_add] at hlt hn h0 hrest hend
    obtain ⟨buf₁, hl, hframe⟩ := grepLine_eq pattern hline h0.1 (by omega)
    obtain ⟨hlit, hq⟩ := stored_append.1 hline
    have hfound : Ulib.strchr buf (chr '\n') (bufSize - p) p = some (some (p + l.length)) :=
      strchr_eq_some hlit h0.1 hnl (stored_cons.1 hq).1 (by decide) (by omega)
    have hrest₁ : Stored buf₁ (p + l.length + 1) r := by
      rw [← Nat.add_assoc] at hrest
      refine hrest.congr fun x hx _ => hframe x ?_
      omega
    have hend₁ : buf₁ (p + l.length + 1 + r.length) = 0 := by
      rw [hframe _ (by omega), ← hend]
      congr 1
      omega
    obtain ⟨buf₂, hr, hframe₂⟩ := ih hrest₁ h0.2.2 hend₁ (by omega) (n := n) (by omega)
    have hle := leftover_length_le r
    refine ⟨buf₂, ?_, fun x hx => ?_⟩
    · rw [grepLines, hfound]
      simp only [hl, hr, lines_cut hnl, leftover_cut hnl, selected_cons]
      have hp : p + l.length + 1 + (r.length - (leftover nl r).length) =
          p + ((l ++ nl :: r).length - (leftover nl r).length) := by
        simp only [List.length_append, List.length_cons]
        omega
      rw [← hp]
      rfl
    · rw [leftover_cut hnl] at hx
      simp only [List.length_append, List.length_cons] at hx
      rw [hframe₂ x (by omega), hframe x (by omega)]

theorem leftover_length_lt (h : nl ∈ s) : (leftover nl s).length < s.length := by
  obtain ⟨l, r, rfl, hl⟩ := List.eq_append_cons_of_mem h
  have := leftover_length_le r
  rw [leftover_cut hl]
  simp only [List.length_append, List.length_cons]
  omega

theorem stored_leftover (hs : Stored buf p s) :
    Stored buf (p + (s.length - (leftover nl s).length)) (leftover nl s) := by
  have hcut := lines_flatten (b := nl) s
  have hlen := congrArg List.length hcut
  simp only [List.length_append] at hlen
  rw [← hcut, stored_append] at hs
  rw [← hlen, Nat.add_sub_cancel]
  exact hs.2

/-- **One chunk** after `left`, which is at the start of the buffer. -/
theorem grepChunk_eq (pattern : List UInt8) (hs : Stored buf 0 left) (hnl : nl ∉ left)
    (h0 : 0 ∉ left ++ chunk) (hlt : left.length + chunk.length < bufSize) :
    ∃ buf', grepChunk pattern buf left.length chunk =
        .ok (buf', (carry left chunk).length, selected pattern (lines nl (left ++ chunk))) ∧
      Stored buf' 0 (carry left chunk) := by
  let buf₁ := update (writeRange buf left.length chunk) (left.length + chunk.length) 0
  have hs₁ : Stored buf₁ 0 (left ++ chunk) := by
    have hboth : Stored (writeRange buf left.length chunk) 0 (left ++ chunk) := by
      rw [stored_append, Nat.zero_add]
      exact ⟨hs.congr fun x _ hx => writeRange_of_lt (by omega), stored_writeRange⟩
    refine hboth.congr fun x _ hx => update_of_ne ?_ _ _
    simp only [List.length_append] at hx
    omega
  have hend : buf₁ (0 + (left ++ chunk).length) = 0 := by
    rw [List.length_append, Nat.zero_add]
    exact update_self ..
  have hlt' : 0 + (left ++ chunk).length < bufSize := by
    rw [List.length_append]
    omega
  obtain ⟨buf₂, hl, hframe⟩ := grepLines_eq pattern (n := bufSize) hs₁ h0 hend hlt' (by omega)
  rw [Nat.zero_add] at hl
  simp only [Nat.zero_add] at hframe
  simp only [grepChunk]
  rw [show grepLines pattern bufSize (update (writeRange buf left.length chunk)
    (left.length + chunk.length) 0) 0 = _ from hl]
  by_cases hin : nl ∈ chunk
  · -- what is left over is moved to the start
    have hcarry : carry left chunk = leftover nl (left ++ chunk) := if_pos hin
    have hlt₁ := leftover_length_lt (s := left ++ chunk) (List.mem_append_right _ hin)
    have hrest := (stored_leftover hs₁).congr fun x hx _ => hframe x (by omega)
    rw [Nat.zero_add] at hrest
    have hm : left.length + chunk.length = (left ++ chunk).length := List.length_append.symm
    have hp : (left ++ chunk).length - (leftover nl (left ++ chunk)).length ≠ 0 := by omega
    have hleft : (left ++ chunk).length -
        ((left ++ chunk).length - (leftover nl (left ++ chunk)).length) =
        (leftover nl (left ++ chunk)).length := by omega
    have hpos : (left ++ chunk).length > 0 := by omega
    refine ⟨_, ?_, hcarry ▸ memmove_stored hrest⟩
    simp only [hm, bind, Except.bind, hcarry, if_neg hp, if_pos hpos, hleft]
    rfl
  · have hno : nl ∉ left ++ chunk := by simp [hnl, hin]
    rw [leftover_of_notMem hno, Nat.sub_self]
    refine ⟨buf₂, ?_, ?_⟩
    · simp only [bind, Except.bind, carry, if_neg hin]
      rfl
    · rw [carry, if_neg hin]
      rfl

end

/-! ## Chunks -/

section
variable {pattern left chunk : List UInt8} {chunks : List (List UInt8)} {buf : Buf}

theorem carry_nl : nl ∉ carry left chunk := by
  unfold carry
  split
  · exact leftover_notMem _
  · exact List.not_mem_nil

theorem carry_subset : carry left chunk ⊆ left ++ chunk := by
  unfold carry
  split
  · intro b hb
    rw [← lines_flatten (b := nl) (left ++ chunk)]
    exact List.mem_append_right _ hb
  · exact List.nil_subset _

/-- **`grep` on lists of bytes** is `grep` on the buffer. -/
theorem grepLoop_eq (hs : Stored buf 0 left) (hnl : nl ∉ left) (h0 : 0 ∉ left)
    (hne : ∀ c ∈ chunks, c ≠ []) (hnul : ∀ c ∈ chunks, 0 ∉ c) (hfits : Fits left chunks) :
    grepLoop pattern chunks buf left.length = .ok (written pattern left chunks) := by
  induction chunks generalizing left buf with
  | nil => rfl
  | cons chunk chunks ih =>
    obtain ⟨hfit, hfits⟩ := hfits
    simp only [List.mem_cons, forall_eq_or_imp] at hne hnul
    have hpos := List.length_pos_of_ne_nil hne.1
    have h0' : 0 ∉ left ++ chunk := by simp [h0, hnul.1]
    obtain ⟨buf', hc, hs'⟩ := grepChunk_eq pattern hs hnl h0' (by omega)
    have hrest := ih hs' carry_nl (fun h => h0' (carry_subset h)) hne.2 hnul.2 hfits
    have hmax : ¬ (bufSize - left.length - 1 = 0 ∨ chunk = []) := by
      rintro (h | h)
      · omega
      · exact hne.1 h
    rw [grepLoop, if_neg hmax, if_neg (Nat.not_lt.2 hfit), hc]
    simp only [bind, Except.bind, hrest]
    rfl

theorem selected_append (ls ls' : List (List UInt8)) :
    selected pattern (ls ++ ls') = selected pattern ls ++ selected pattern ls' := by
  simp [selected]

theorem lines_flatten_of_notMem (h : ∀ c ∈ chunks, nl ∉ c) : lines nl chunks.flatten = [] :=
  lines_of_notMem fun hm => by
    obtain ⟨c, hc, hn⟩ := List.mem_flatten.1 hm
    exact h c hc hn

/-- After a chunk without a newline there is none. -/
def Newlines (chunks : List (List UInt8)) : Prop := chunks.Pairwise fun c d => nl ∈ d → nl ∈ c

theorem newlines_of_notMem (h : nl ∉ chunks.flatten) : Newlines chunks :=
  List.pairwise_of_forall_mem_list fun _ _ d hd hn => absurd (List.mem_flatten.2 ⟨d, hd, hn⟩) h

theorem written_eq (hnl : nl ∉ left) (hp : Newlines chunks) :
    written pattern left chunks = selected pattern (lines nl (left ++ chunks.flatten)) := by
  induction chunks generalizing left with
  | nil => simp [written, lines_of_notMem hnl, selected]
  | cons chunk chunks ih =>
    obtain ⟨hfirst, hp⟩ := List.pairwise_cons.1 hp
    rw [written, List.flatten_cons, ← List.append_assoc, lines_append (left ++ chunk),
      selected_append, ih carry_nl hp]
    by_cases hin : nl ∈ chunk
    · rw [carry, if_pos hin]
    · -- nothing more is written, with or without what is left over
      have hnone : ∀ c ∈ chunks, nl ∉ c := fun c hc hn => hin (hfirst c hc hn)
      have hno : nl ∉ left ++ chunk := by simp [hnl, hin]
      have hall : nl ∉ left ++ chunk ++ chunks.flatten := by
        simpa [hnl, hin] using hnone
      rw [carry, if_neg hin, List.nil_append, lines_flatten_of_notMem hnone, leftover_of_notMem hno,
        lines_of_notMem hall]

theorem matchRe_nil (l : List UInt8) : matchRe [] l = true := by
  cases l <;> rfl

theorem selected_nil (ls : List (List UInt8)) : selected [] ls = ls.map (· ++ [nl]) := by
  rw [selected, List.filter_eq_self.2 fun l _ => matchRe_nil l]

theorem written_length (hnl : nl ∉ left) (hne : ∀ c ∈ chunks, c ≠ []) :
    (written [] left chunks).flatten.length ≤
        (selected [] (lines nl (left ++ chunks.flatten))).flatten.length ∧
      ((written [] left chunks).flatten.length =
        (selected [] (lines nl (left ++ chunks.flatten))).flatten.length → Newlines chunks) := by
  induction chunks generalizing left with
  | nil => simp [written, Newlines]
  | cons chunk chunks ih =>
    simp only [List.mem_cons, forall_eq_or_imp] at hne
    have hnl' : nl ∉ carry left chunk := carry_nl
    obtain ⟨hle, heq⟩ := ih hnl' hne.2
    rw [written, List.flatten_cons, ← List.append_assoc, lines_append (left ++ chunk),
      selected_append]
    simp only [List.flatten_append, List.length_append, Nat.add_le_add_iff_left,
      Nat.add_left_cancel_iff]
    by_cases hin : nl ∈ chunk
    · rw [carry, if_pos hin] at hle heq ⊢
      exact ⟨hle, fun h => List.pairwise_cons.2 ⟨fun _ _ _ => hin, heq h⟩⟩
    · have hno : nl ∉ left ++ chunk := by simp [hnl, hin]
      have hpos := List.length_pos_of_ne_nil hne.1
      rw [carry, if_neg hin, List.nil_append] at hle heq
      rw [carry, if_neg hin, leftover_of_notMem hno]
      by_cases hlater : nl ∈ chunks.flatten
      · have hlen := lines_append_length hno hlater
        rw [selected_nil] at hle ⊢
        rw [List.length_append] at hlen
        omega
      · have hall : nl ∉ left ++ chunk ++ chunks.flatten := by simp [hnl, hin, hlater]
        rw [lines_of_notMem hlater] at hle
        rw [lines_of_notMem hall]
        exact ⟨hle, fun _ => newlines_of_notMem (by simp [hin, hlater])⟩

end

/-- **`grep`** writes the lines that match, for every pattern, if and only if no chunk without a
newline comes before one with a newline. -/
theorem grep_lines_iff (buf : Buf) (chunks : List (List UInt8)) (hne : ∀ c ∈ chunks, c ≠ [])
    (hnul : ∀ c ∈ chunks, 0 ∉ c) (hfits : Fits [] chunks) :
    (∀ pattern, grep pattern buf chunks = .ok (selected pattern (lines nl chunks.flatten))) ↔
      Newlines chunks := by
  have hnil : Stored buf 0 [] := rfl
  have hgrep : ∀ pattern, grep pattern buf chunks = .ok (written pattern [] chunks) :=
    fun pattern =>
    grepLoop_eq hnil List.not_mem_nil List.not_mem_nil hne hnul hfits
  constructor
  · intro h
    have hall := Except.ok.inj ((hgrep []).symm.trans (h []))
    exact (written_length List.not_mem_nil hne).2 (by rw [hall]; rfl)
  · intro hp pattern
    rw [hgrep, written_eq List.not_mem_nil hp]
    rfl

/-- `ab`, a newline and `c`, and then `d` and a newline: the second line arrives in two chunks. -/
theorem grep_lines_iff_two : grep [99] (fun _ => 0) [[97, 98, 10, 99], [100, 10]] =
    .ok (selected [99] [[97, 98], [99, 100]]) :=
  (grep_lines_iff (fun _ => 0) [[97, 98, 10, 99], [100, 10]] (by decide) (by decide)
    ⟨by decide, by decide, trivial⟩).2 (by unfold Newlines; decide) [99]

/-- The line `ab` in the chunks `a` and `b` with the newline, and the pattern `a`: nothing is
written. -/
theorem grep_drops_line :
    grep [97] (fun _ => 0) [[97], [98, 10]] = .ok [] ∧
      grep [97] (fun _ => 0) [[97, 98, 10]] = .ok [[97, 98, 10]] ∧
      selected [97] (lines nl [97, 98, 10]) = [[97, 98, 10]] := by
  decide +kernel

end Xv6.Grep
