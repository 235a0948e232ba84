import Mathlib.Data.List.Induction
import Xv6.Io.Console

/-!
# Console lines

What the users of the console see is an editor (`Editor`): characters are typed into a line, the
line is edited, and it is committed when it ends. The ring holds what is committed and not yet read,
and the line (`Rep`).
-/

namespace Xv6.Console

open Lib Function

/-- The committed characters, how many of them have been taken and which, and the line that is being
edited. -/
structure Editor where
  out : List UInt8
  taken : List UInt8
  line : List UInt8

/-- The number of unread characters. -/
def Editor.unread (ed : Editor) : Nat := ed.out.length - ed.taken.length + ed.line.length

/-- A character is typed. -/
def Editor.type (ed : Editor) (c : UInt8) : Editor :=
  if c = 0 ∨ c = ctrlP then ed
  else if c = ctrlU then { ed with line := [] }
  else if c = ctrlH ∨ c = del then { ed with line := ed.line.dropLast }
  else if ed.unread = inputBuf then ed
  else
    let c := if c = cr then lf else c
    let line := ed.line ++ [c]
    if c = lf ∨ c = ctrlD ∨ ed.unread + 1 = inputBuf then
      { ed with out := ed.out ++ line, line := [] }
    else { ed with line }

/-- What the editor sees. -/
inductive Event
  | typed (c : UInt8)
  | took (cs : List UInt8)

def Editor.step (ed : Editor) : Event → Editor
  | .typed c => ed.type c
  | .took cs => { ed with taken := ed.taken ++ cs }

/-- What a stretch takes out of the ring: the bytes that it stores, and a `^D` that it uses up. -/
def Stretch.took (x : Stretch) : List UInt8 := x.out ++ if x.eof then [ctrlD] else []

/-- The events of an action. -/
def events {P : Type} (s : State P) : Act P → List Event
  | .intr cs => cs.map .typed
  | a => ((s.part a).map fun x => .took x.took).toList

/-- The part of the buffer between two indices. -/
abbrev Input.ring (i : Input) (a b : BitVec 32) : Lib.Ring 32 inputBuf UInt8 := ⟨i.buf, a, b⟩

/-- The ring holds the unread characters `u` and the line. -/
structure Rep (i : Input) (ed : Editor) (u : List UInt8) : Prop where
  out : ed.out = ed.taken ++ u
  ring : (i.ring i.r i.e).Holds (u ++ ed.line)
  w : i.w = i.r + BitVec.ofNat 32 u.length
  noLf : lf ∉ ed.line

section
variable {i : Input} {ed : Editor} {u : List UInt8}

theorem Rep.readable (h : Rep i ed u) : (i.ring i.r i.w).Holds u := by
  rw [h.w]
  exact h.ring.left

theorem Rep.editable (h : Rep i ed u) : (i.ring i.w i.e).Holds ed.line := by
  rw [h.w]
  exact h.ring.right

theorem Rep.unread (h : Rep i ed u) : ed.unread = u.length + ed.line.length := by
  rw [Editor.unread, h.out, List.length_append, Nat.add_sub_cancel_left]

theorem Rep.dist (h : Rep i ed u) : (i.e - i.r).toNat = ed.unread := by
  rw [h.unread, ← List.length_append]
  exact h.ring.dist_toNat (by decide)

theorem killLine_eq : ∀ (l : List UInt8) (i : Input), lf ∉ l →
    (i.ring i.w i.e).Holds l → killLine l.length i = { i with e := i.w } := by
  intro l
  induction l using List.reverseRecOn with
  | nil =>
    rintro ⟨buf, r, w, e⟩ _ h
    obtain rfl : w = e := (h.empty_iff (by decide)).2 rfl
    rfl
  | append_singleton l c ih =>
    intro i hlf h
    obtain ⟨hc, h'⟩ := h.unput
    have hne : i.e ≠ i.w := fun he => by simpa using (h.empty_iff (by decide)).1 he.symm
    simp only [List.mem_append, not_or] at hlf
    have hcl : c ≠ lf := fun he => hlf.2 (by simp [he])
    rw [List.length_append, List.length_singleton, killLine,
      if_pos ⟨hne, fun he => hcl (hc.symm.trans he)⟩]
    exact ih { i with e := i.e - 1 } hlf.1 h'

theorem Rep.killLine (h : Rep i ed u) :
    Rep (killLine (i.e - i.w).toNat i) { ed with line := [] } u := by
  have hd : (i.e - i.w).toNat = ed.line.length := h.editable.dist_toNat (by decide)
  rw [hd, killLine_eq _ _ h.noLf h.editable]
  exact ⟨h.out, by simpa using h.readable, h.w, by simp⟩

theorem Rep.erase (h : Rep i ed u) :
    Rep (if i.e ≠ i.w then { i with e := i.e - 1 } else i)
    { ed with line := ed.line.dropLast } u := by
  have hemp : i.w = i.e ↔ ed.line = [] := h.editable.empty_iff (by decide)
  split
  · next hne =>
    have hl : ed.line ≠ [] := fun hl => hne (hemp.2 hl).symm
    have hr := h.ring
    rw [← List.dropLast_concat_getLast hl, ← List.append_assoc] at hr
    exact ⟨h.out, hr.unput.2, h.w, fun hm => h.noLf (List.dropLast_subset _ hm)⟩
  · next he =>
    have hl : ed.line.dropLast = ed.line := by simp [hemp.1 (not_not.1 he).symm]
    rwa [hl]

/-- A character is stored, and the line is committed if that ends it. -/
theorem Rep.store (h : Rep i ed u) (c : UInt8) (hlt : ed.unread < inputBuf) {j : Input}
    (hj : j = { i with buf := update i.buf (Ring.cell i.e) c, e := i.e + 1 }) :
    Rep { j with w := j.e } { ed with out := ed.out ++ (ed.line ++ [c]), line := [] }
      (u ++ (ed.line ++ [c])) ∧
    (c ≠ lf → Rep j { ed with line := ed.line ++ [c] } u) ∧
    (j.e = j.r + BitVec.ofNat 32 inputBuf ↔ ed.unread + 1 = inputBuf) := by
  subst hj
  rw [h.unread] at hlt ⊢
  have hp := h.ring.put (by decide) (by rwa [List.length_append]) c
  rw [List.append_assoc] at hp
  refine ⟨⟨by simp [h.out], by rwa [List.append_nil], hp.nwrite, by simp⟩,
    fun hc => ⟨h.out, hp, h.w, ?_⟩, ?_⟩
  · simp [h.noLf, Ne.symm hc]
  · refine (hp.full_iff (by decide)).trans ?_
    simp [Nat.add_assoc]

theorem Rep.type (h : Rep i ed u) (c : UInt8) : ∃ u', Rep (i.type c).1 (ed.type c) u' := by
  unfold Input.type Editor.type
  by_cases hP : c = ctrlP
  · exact ⟨u, by simpa [hP] using h⟩
  by_cases hU : c = ctrlU
  · subst hU
    exact ⟨u, h.killLine⟩
  by_cases hH : c = ctrlH ∨ c = del
  · refine ⟨u, ?_⟩
    have h0 : c ≠ 0 := by rcases hH with rfl | rfl <;> decide
    simpa [hP, hU, hH, h0] using h.erase
  by_cases h0 : c = 0
  · subst h0
    exact ⟨u, h⟩
  have hle := h.ring.le
  rw [List.length_append, ← h.unread] at hle
  by_cases hlt : ed.unread < inputBuf
  · rw [if_neg hP, if_neg hU, if_neg hH, if_pos ⟨h0, by rwa [h.dist]⟩, if_neg (not_or.2 ⟨h0, hP⟩),
      if_neg hU, if_neg hH, if_neg (ne_of_lt hlt)]
    generalize (if c = cr then lf else c) = c
    obtain ⟨h1, h2, h3⟩ := h.store c hlt rfl
    simp only [h3]
    split
    · exact ⟨_, h1⟩
    · next hc => exact ⟨u, h2 fun he => hc (.inl he)⟩
  · have he : ed.unread = inputBuf := by omega
    exact ⟨u, by simpa [hP, hU, hH, h0, h.dist, he] using h⟩

theorem Rep.consoleintr (cs : List UInt8) :
    ∀ {i : Input} {ed : Editor} {u : List UInt8}, Rep i ed u →
    ∃ u', Rep (consoleintr i cs).1 ((cs.map Event.typed).foldl Editor.step ed) u' := by
  induction cs with
  | nil => exact fun h => ⟨_, h⟩
  | cons c cs ih =>
    intro i ed u h
    obtain ⟨u', h'⟩ := h.type c
    exact ih h'

/-- How a stretch of `consoleread` ends, with the bytes `dst` stored by the call and `rest` left to
read: asleep, with nothing to read, or killed, or with the number of the bytes: at the end of a
line, with all the bytes that were asked for, or at a `^D`, which is used up only if there are no
bytes. -/
def Ends (killed : Bool) (target : Nat) (dst rest : List UInt8) (eof : Bool) : ReadEnd → Prop
  | .sleep n => rest = [] ∧ eof = false ∧ lf ∉ dst ∧ dst.length + n = target
  | .ret v => v = -1 ∧ killed = true ∧ rest = [] ∧ eof = false ∨
      v = dst.length ∧ lf ∉ dst.dropLast ∧ (eof = true → dst = []) ∧
        (dst.getLast? = some lf ∨ dst.length = target ∨ eof = true ∨ rest.head? = some ctrlD)

theorem Rep.consoleread {killed : Bool} {target : Nat} : ∀ (n : Nat) {i : Input} {ed : Editor}
    {u before : List UInt8}, Rep i ed u → before.length + n = target →
    ctrlD ∉ before → lf ∉ before →
    ∃ rest, u = (consoleread killed target n i).took ++ rest ∧
      Rep (consoleread killed target n i).input
        (ed.step (.took (consoleread killed target n i).took)) rest ∧
      ctrlD ∉ before ++ (consoleread killed target n i).out ∧
      Ends killed target (before ++ (consoleread killed target n i).out) rest
        (consoleread killed target n i).eof (consoleread killed target n i).fin := by
  intro n
  induction n with
  | zero =>
    intro i ed u before h hn hD hlf
    unfold Console.consoleread
    refine ⟨u, rfl, by simpa [Editor.step, Stretch.took] using h, by simpa using hD, .inr ?_⟩
    refine ⟨by simp [← hn], fun hm => hlf ?_, nofun, .inr (.inl (by simpa using hn))⟩
    simpa using List.dropLast_subset _ hm
  | succ n ih =>
    intro i ed u before h hn hD hlf
    have hemp : i.r = i.w ↔ u = [] := h.readable.empty_iff (by decide)
    unfold Console.consoleread
    by_cases hrw : i.r = i.w
    · obtain rfl := hemp.1 hrw
      rw [if_pos hrw]
      refine ⟨[], rfl, by simpa [Editor.step, Stretch.took] using h, by simpa using hD, ?_⟩
      cases killed with
      | false => exact ⟨rfl, rfl, by simpa using hlf, by simpa using hn⟩
      | true => exact .inl ⟨rfl, rfl, rfl, rfl⟩
    obtain ⟨c, u, rfl⟩ := List.exists_cons_of_ne_nil fun hu => hrw (hemp.2 hu)
    obtain ⟨hc, hring⟩ := h.ring.drop
    have hc : i.buf (Ring.cell i.r) = c := hc
    -- the input after `input.r++`
    have hj : ∀ cs, cs = [c] → Rep { i with r := i.r + 1 } (ed.step (.took cs)) u := by
      rintro _ rfl
      refine ⟨by simp [Editor.step, h.out], hring, ?_, h.noLf⟩
      rw [h.w, List.length_cons, Ring.ofNat_succ, ← BitVec.add_assoc]
    rw [if_neg hrw]
    simp only [hc]
    by_cases hcD : c = ctrlD
    · subst hcD
      rw [if_pos rfl]
      split
      · next hlt =>
        refine ⟨ctrlD :: u, rfl, ?_, by simpa using hD, .inr ⟨?_, ?_, nofun, by simp⟩⟩
        · simpa [Editor.step, Stretch.took, BitVec.add_sub_cancel] using h
        · simp [← hn]
        · simpa using fun hm => hlf (List.dropLast_subset _ hm)
      · next hge =>
        obtain rfl : before = [] := List.length_eq_zero_iff.1 (by omega)
        refine ⟨u, rfl, hj _ rfl, by simp, .inr ⟨?_, by simp, fun _ => rfl, by simp⟩⟩
        simp [← hn]
    rw [if_neg hcD]
    by_cases hcl : c = lf
    · subst hcl
      rw [if_pos rfl]
      refine ⟨u, rfl, hj _ rfl, ?_, .inr ⟨?_, by simpa using hlf, nofun, by simp⟩⟩
      · simp [hD]
        decide
      · simp [← hn]
        omega
    rw [if_neg hcl]
    have hn' : (before ++ [c]).length + n = target := by
      rw [List.length_append, List.length_singleton]
      omega
    obtain ⟨rest, h1, h2, h3, h4⟩ := ih (hj _ rfl) hn' (by simp [hD, Ne.symm hcD])
      (by simp [hlf, Ne.symm hcl])
    simp only [List.append_assoc, List.singleton_append] at h3 h4
    refine ⟨rest, ?_, ?_, h3, h4⟩
    · simpa [Stretch.took] using h1
    · simpa [Stretch.took, Editor.step] using h2

end

section
variable {P : Type} {s s' : State P} {ed : Editor} {u : List UInt8} {a : Act P}

/-- The ring is that of the editor, and a call that has not returned has stored a part of a line. -/
structure Inv (s : State P) (ed : Editor) : Prop where
  rep : ∃ u, Rep s.input ed u
  calls : ∀ p target n b, s.pc p = .reading target n b →
    (s.dst p).length + n = target ∧ ctrlD ∉ s.dst p ∧ lf ∉ s.dst p

theorem Inv.part {x : Part P} (hi : Inv s ed) (h : Rep s.input ed u) (hx : s.part a = some x) :
    ∃ rest, u = x.took ++ rest ∧ Rep x.input (ed.step (.took x.took)) rest ∧
      ctrlD ∉ x.before ++ x.out ∧
      Ends (s.killed x.proc) x.target (x.before ++ x.out) rest x.eof x.fin := by
  cases a with
  | intr | kill => cases hx
  | read p n =>
    simp only [State.part] at hx
    split at hx
    · cases hx
      exact h.consoleread _ (Nat.zero_add _) (by simp) (by simp)
    · cases hx
  | resume p =>
    simp only [State.part] at hx
    split at hx
    · next target n hpc =>
      cases hx
      obtain ⟨h1, h2, h3⟩ := hi.calls p target n false hpc
      exact h.consoleread n h1 h2 h3
    · cases hx

theorem wake_eq {pc : Pc} {target n : Nat} {b : Bool} (h : pc.wake = .reading target n b) :
    ∃ b', pc = .reading target n b' := by
  cases pc with
  | out v => cases h
  | reading target n b =>
    cases h
    exact ⟨b, rfl⟩

variable [DecidableEq P]

theorem Inv.step (hi : Inv s ed) (hs : step s a = some s') :
    Inv s' ((events s a).foldl Editor.step ed) := by
  obtain ⟨u, h⟩ := hi.rep
  have hpart : ∀ x, s.part a = some x → Inv { s with
      input := x.input
      dst := update s.dst x.proc (x.before ++ x.out)
      pc := update s.pc x.proc (match x.fin with
        | .sleep n => .reading x.target n true
        | .ret v => .out v) } (ed.step (.took x.took)) := by
    intro x hx
    obtain ⟨rest, -, h1, h2, h3⟩ := hi.part h hx
    refine ⟨⟨rest, h1⟩, fun p target n b hpc => ?_⟩
    dsimp only at hpc ⊢
    by_cases hp : p = x.proc
    · rw [hp, update_self] at hpc ⊢
      cases hf : x.fin with
      | ret v =>
        rw [hf] at hpc
        cases hpc
      | sleep m =>
        rw [hf] at hpc h3
        cases hpc
        exact ⟨h3.2.2.2, h2, h3.2.2.1⟩
    · rw [update_of_ne hp] at hpc ⊢
      exact hi.calls p target n b hpc
  cases a with
  | intr cs =>
    cases hs
    refine ⟨h.consoleintr cs, fun p target n b hpc => ?_⟩
    dsimp only at hpc
    split at hpc
    · obtain ⟨b', hb⟩ := wake_eq hpc
      exact hi.calls p target n b' hb
    · exact hi.calls p target n b hpc
  | kill p =>
    cases hs
    refine ⟨⟨u, h⟩, fun q target n b hpc => ?_⟩
    dsimp only at hpc
    by_cases hq : q = p
    · rw [hq, update_self] at hpc
      obtain ⟨b', hb⟩ := wake_eq hpc
      exact hq ▸ hi.calls p target n b' hb
    · rw [update_of_ne hq] at hpc
      exact hi.calls q target n b hpc
  | _ =>
    obtain ⟨x, hx, rfl⟩ := Option.map_eq_some_iff.1 hs
    simp only [events, hx]
    exact hpart x hx

omit [DecidableEq P] in
theorem boot_inv (buf : Fin inputBuf → UInt8) : Inv (boot (P := P) buf) ⟨[], [], []⟩ :=
  ⟨⟨[], rfl, .empty _ _, rfl, by simp⟩, nofun⟩

/-- **Console lines.** After any characters and any calls of `consoleread`, in any order:

* of the characters that the editor has committed, those that were read are the first ones, in order,
  and the ring holds the others and the line; the distances of the counters are their numbers, at most
  `INPUT_BUF` together;
* each stretch of a call takes the next of the committed characters and ends as it should: the call
  has stored no `^D`, and returns after a line feed, after `n` bytes, or at a `^D`, which it takes only
  if it returns 0. -/
theorem console_lines (buf : Fin inputBuf → UInt8) (as : List (Act P)) (s : State P)
    (h : run Console.step (boot buf) as = some s) :
    ∃ ed u, ed = (trace Console.step events (boot buf) as).foldl Editor.step ⟨[], [], []⟩ ∧
      ed.out = ed.taken ++ u ∧
      (s.input.w - s.input.r).toNat = u.length ∧
      (s.input.e - s.input.r).toNat = u.length + ed.line.length ∧
      u.length + ed.line.length ≤ inputBuf ∧
      ∀ a x, s.part a = some x → ∃ rest, u = x.took ++ rest ∧ ctrlD ∉ x.before ++ x.out ∧
        Ends (s.killed x.proc) x.target (x.before ++ x.out) rest x.eof x.fin := by
  have hi : Inv s ((trace Console.step events (boot buf) as).foldl Editor.step ⟨[], [], []⟩) :=
    trace_inv (P := fun es s => Inv s (es.foldl Editor.step ⟨[], [], []⟩))
      (fun es s a s' hi hs => by rw [List.foldl_append]; exact hi.step hs)
      (show Inv _ (([] : List Event).foldl Editor.step _) from boot_inv buf) h
  obtain ⟨u, hr⟩ := hi.rep
  refine ⟨_, u, rfl, hr.out, hr.readable.dist_toNat (by decide), ?_, ?_, fun a x hx => ?_⟩
  · rw [hr.dist, hr.unread]
  · have := hr.ring.le
    rwa [List.length_append] at this
  · obtain ⟨rest, h1, -, h2, h3⟩ := hi.part hr hx
    exact ⟨rest, h1, h2, h3⟩

end

/-- A read, and the typing of `a`, `b`, backspace, `c` and return. -/
def typeLine : List (Act (Fin 1)) := [.read 0 8, .intr [97, 98, ctrlH], .intr [99, cr]]

/-- The read has been woken up, and there are three characters for it: `a`, `c` and a line feed. -/
theorem console_lines_typeLine :
    ∃ s, run step (boot fun _ => 0) typeLine = some s ∧ (s.input.w - s.input.r).toNat = 3 ∧
      (s.part (.resume 0)).map (fun x => (x.out, x.fin)) = some ([97, 99, lf], .ret 3) ∧
      ∃ ed u, ed = (trace step events (boot fun _ => 0) typeLine).foldl Editor.step ⟨[], [], []⟩ ∧
        ed.out = ed.taken ++ u ∧ u.length = 3 := by
  have h : (run step (boot fun _ => 0) typeLine).map (fun s : State (Fin 1) =>
      ((s.input.w - s.input.r).toNat, (s.part (.resume 0)).map fun x => (x.out, x.fin))) =
      some (3, some ([97, 99, lf], .ret 3)) := by decide +kernel
  obtain ⟨s, hs, hd⟩ := Option.map_eq_some_iff.1 h
  obtain ⟨h1, h2⟩ := Prod.mk.inj hd
  obtain ⟨ed, u, he, ho, hw, -⟩ := console_lines _ _ s hs
  exact ⟨s, hs, h1, h2, ed, u, he, ho, hw.symm.trans h1⟩

end Xv6.Console
