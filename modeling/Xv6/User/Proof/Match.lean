import Xv6.User.Grep

/-!
# What `match` matches

A pattern is read from left to right as a sequence of items (`items`), each of which matches
segments of the text (`Item.den`). `matchhere` finds out whether a segment at the start of the text
matches, and `match` whether one does somewhere in the text.
-/

namespace Xv6.Grep

open Lib
open Pattern (Den one many atEnd seq Here here_nil here_cons here_one_nil here_one_cons here_atEnd scan
  scan_iff)

/-- What a pattern is made of. -/
inductive Item
  /-- A character followed by `*`. -/
  | star (c : UInt8)
  /-- A `$` at the end of the pattern. -/
  | eot
  /-- `.` -/
  | any
  | lit (c : UInt8)
  deriving DecidableEq

/-- The pattern as `matchhere` reads it. -/
def items : List UInt8 → List Item
  | [] => []
  | [c] => [if c = chr '$' then .eot else if c = chr '.' then .any else .lit c]
  | c :: c' :: re =>
    if c' = chr '*' then .star c :: items re
    else (if c = chr '.' then .any else .lit c) :: items (c' :: re)

/-- What an item matches. -/
def Item.den : Item → Den UInt8
  | .star c => many fun t => c = chr '.' ∨ t = c
  | .eot => atEnd
  | .any => one fun _ => True
  | .lit c => one fun t => t = c

/-- What a pattern matches, item by item. -/
def den (re : List UInt8) : List (Den UInt8) := (items re).map Item.den

/-- The pattern without its `^`. -/
def unanchored : List UInt8 → List UInt8
  | [] => []
  | c :: re => if c = chr '^' then re else c :: re

/-- The pattern begins with `^`. -/
def Anchored (re : List UInt8) : Prop := re.head? = some (chr '^')

theorem matchchar_iff {c : UInt8} {rest : List UInt8 → Bool} {ds : List (Den UInt8)}
    {text : List UInt8} (h : ∀ text, rest text = true ↔ Here ds text) :
    matchchar c rest text = true ↔
    Here ((if c = chr '.' then Item.any else Item.lit c).den :: ds) text := by
  have hden : (if c = chr '.' then Item.any else Item.lit c).den = one fun t =>
    c = chr '.' ∨ c = t := by
    split
    · rename_i hc
      simp [Item.den, hc]
    · rename_i hc
      simp [Item.den, hc, eq_comm]
  rw [hden]
  cases text with
  | nil => simp [matchchar, here_one_nil]
  | cons t text => simp [matchchar, here_one_cons, h]

theorem matchstar_iff {c : UInt8} {here : List UInt8 → Bool} {ds : List (Den UInt8)}
    {text : List UInt8} (h : ∀ text, here text = true ↔ Here ds text) :
    matchstar here c text = true ↔ Here ((Item.star c).den :: ds) text := by
  rw [matchstar, scan_iff, here_cons]
  simp [Item.den, many, h, or_comm]

/-- **`matchhere`** by the items of the pattern. -/
theorem matchhere_iff (re text : List UInt8) : matchhere re text = true ↔ Here (den re) text := by
  induction re using items.induct generalizing text with
  | case1 => simp [matchhere, den, items, here_nil]
  | case2 c =>
    by_cases hc : c = chr '$'
    · simp [matchhere, den, items, hc, Item.den, here_atEnd]
    · simp only [matchhere, den, items, if_neg hc]
      exact matchchar_iff fun text => by simp [here_nil]
  | case3 c re ih =>
    simp only [matchhere, den, items, if_pos]
    exact matchstar_iff ih
  | case4 c c' re hc ih =>
    simp only [matchhere, den, items, if_neg hc]
    exact matchchar_iff ih

theorem search_iff {re text : List UInt8} :
    scan (matchhere re) (fun _ => true) text = true ↔
      ∃ pre seg post, text = pre ++ seg ++ post ∧ seq (den re) seg post := by
  rw [scan_iff]
  constructor
  · rintro ⟨pre, post, rfl, -, h⟩
    obtain ⟨seg, rest, rfl, hs⟩ := (matchhere_iff re post).1 h
    exact ⟨pre, seg, rest, (List.append_assoc ..).symm, hs⟩
  · rintro ⟨pre, seg, post, rfl, hs⟩
    exact ⟨pre, seg ++ post, List.append_assoc .., fun _ _ => rfl,
      (matchhere_iff re _).2 ⟨seg, post, rfl, hs⟩⟩

/-- **`match`**: some position of the text, the first one if the pattern starts with `^`, is
followed by a segment that matches the items of the pattern. -/
theorem match_iff (re text : List UInt8) :
    matchRe re text = true ↔
      ∃ pre seg post, text = pre ++ seg ++ post ∧ (Anchored re → pre = []) ∧
        seq (den (unanchored re)) seg post := by
  cases re with
  | nil => simpa [matchRe, Anchored, unanchored] using search_iff
  | cons c re =>
    by_cases hc : c = chr '^'
    · rw [matchRe, if_pos hc, matchhere_iff, unanchored, if_pos hc]
      constructor
      · rintro ⟨seg, rest, rfl, hs⟩
        exact ⟨[], seg, rest, rfl, fun _ => rfl, hs⟩
      · rintro ⟨pre, seg, post, rfl, hpre, hs⟩
        rw [hpre (by simp [Anchored, hc])]
        exact ⟨seg, post, rfl, hs⟩
    · have hfree : ¬ Anchored (c :: re) := by simpa [Anchored] using hc
      rw [matchRe, if_neg hc, unanchored, if_neg hc]
      simpa [hfree] using search_iff

end Xv6.Grep
