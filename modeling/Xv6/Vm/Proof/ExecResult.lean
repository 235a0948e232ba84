import Mathlib.Data.List.Pairwise
import Xv6.Vm.Proof.ExecCall

/-!
# What exec leaves

The bytes of the new image as the new program reads them: the segments of the file, and on the stack
the words and strings that `main` gets.
-/

namespace Xv6.Vm

open Lib

/-! ## Segments -/

/-- Two segments that do not overlap. -/
def Apart (p q : Bytes) : Prop :=
  leAt p 0 4 = 1 → leAt q 0 4 = 1 → ∀ a, leAt p 8 4 ≤ a → a < leAt p 8 4 + leAt p 20 4 →
    leAt q 8 4 ≤ a → ¬ a < leAt q 8 4 + leAt q 20 4

instance : Std.Symm Apart := ⟨fun _ _ h hq hp a h1 h2 h3 h4 => h hp hq a h3 h4 h1 h2⟩

theorem covers_iff {a : Nat} {ph : Bytes} :
    covers a ph = true ↔ leAt ph 0 4 = 1 ∧ leAt ph 8 4 ≤ a ∧ a < leAt ph 8 4 + leAt ph 16 4 := by
  simp [covers, and_assoc]

theorem segByte_of_apart {file : Bytes} {phs : List Bytes} {ph : Bytes} {i : Nat}
    (h : phs.Pairwise Apart) (hin : ∀ p ∈ phs, leAt p 0 4 = 1 → leAt p 16 4 ≤ leAt p 20 4)
    (hph : ph ∈ phs) (hload : leAt ph 0 4 = 1) (hi : i < leAt ph 20 4) :
    segByte file phs (leAt ph 8 4 + i) =
      if i < leAt ph 16 4 then file.getD (leAt ph 4 4 + i) 0 else 0 := by
  -- Only this segment has the address.
  have huniq : ∀ p ∈ phs, covers (leAt ph 8 4 + i) p = true → p = ph := by
    intro p hp hc
    obtain ⟨h1, h2, h3⟩ := covers_iff.1 hc
    by_contra hne
    refine h.forall hp hph hne h1 hload _ h2 ?_ (Nat.le_add_right _ _) (Nat.add_lt_add_left hi _)
    have := hin p hp h1
    omega
  unfold segByte
  by_cases hf : i < leAt ph 16 4
  · rw [if_pos hf]
    have hc : covers (leAt ph 8 4 + i) ph = true :=
      covers_iff.2 ⟨hload, Nat.le_add_right _ _, Nat.add_lt_add_left hf _⟩
    cases hfind : phs.reverse.find? (covers (leAt ph 8 4 + i)) with
    | none => exact absurd hc (List.find?_eq_none.1 hfind ph (List.mem_reverse.2 hph))
    | some p =>
      obtain rfl := huniq p (List.mem_reverse.1 (List.mem_of_find?_eq_some hfind))
        (List.find?_some hfind)
      dsimp only
      rw [Nat.add_sub_cancel_left]
  · rw [if_neg hf]
    cases hfind : phs.reverse.find? (covers (leAt ph 8 4 + i)) with
    | none => rfl
    | some p =>
      have hc := List.find?_some hfind
      obtain rfl := huniq p (List.mem_reverse.1 (List.mem_of_find?_eq_some hfind)) hc
      obtain ⟨-, -, h3⟩ := covers_iff.1 hc
      omega

/-! ## Reading -/

section
variable {m : Mem} {d : Ppn} {U : Nat → Option Word} {C : Nat → Page} {N a : Nat}

theorem View.userByte_eq (h : View m d U C) (hU : StackImage U N) (ha : a < vaOf N)
    (hg : a / pgsize ≠ N - 2) :
    userByte m d a = some (byteAt C a) := by
  have hn : a / pgsize < N := Nat.div_lt_of_lt_mul (by rwa [Nat.mul_comm])
  have hlt := hU.lt
  obtain ⟨w, hw, hiff⟩ := hU.page (a / pgsize) hn
  have hmap := h.maps (a / pgsize) (Nat.lt_trans (Nat.lt_trans hn hlt) (by decide))
  rw [mapping_of_lt _ _ (Nat.lt_trans (Nat.lt_trans hn hlt) (by decide)), lookup_div, hw] at hmap
  unfold userByte
  rw [hmap, Option.bind_some, if_pos (hiff.2 hg), h.data _ (Nat.lt_trans hn hlt) w hw]
  rfl

/-- The word that user code reads at `a`. -/
def userWord (m : Mem) (d : Ppn) (a : Nat) : Option Nat := do
  let b0 ← userByte m d a
  let b1 ← userByte m d (a + 1)
  let b2 ← userByte m d (a + 2)
  let b3 ← userByte m d (a + 3)
  return b0.toNat + 2 ^ 8 * b1.toNat + 2 ^ 16 * b2.toNat + 2 ^ 24 * b3.toNat

theorem userWord_eq {v : Nat} (hv : v < u32)
    (h : ∀ i < 4, userByte m d (a + i) = some ((wordBytes v).getD i 0)) :
    userWord m d a = some v := by
  have h0 := h 0 (by decide)
  have h1 := h 1 (by decide)
  have h2 := h 2 (by decide)
  have h3 := h 3 (by decide)
  rw [Nat.add_zero] at h0
  simp only [userWord, h0, h1, h2, h3, wordBytes, List.getD_cons_zero, List.getD_cons_succ,
    BitVec.toNat_ofNat, Option.bind_eq_bind, Option.bind_some, Option.pure_def, Option.some.injEq]
  simp only [u32] at hv
  omega

theorem getD_words : ∀ (ws : List Nat) (i j : Nat) (v : Nat), ws[i]? = some v → j < 4 →
    (ws.flatMap wordBytes).getD (4 * i + j) 0 = (wordBytes v).getD j 0
  | [], i, j, v, h, _ => by simp at h
  | w :: ws, 0, j, v, h, hj => by
    cases h
    simp only [List.flatMap_cons, List.getD_eq_getElem?_getD, Nat.mul_zero, Nat.zero_add]
    rw [List.getElem?_append_left (by simpa [wordBytes] using hj)]
  | w :: ws, i + 1, j, v, h, hj => by
    have hw : (wordBytes w).length = 4 := rfl
    rw [← getD_words ws i j v (by simpa using h) hj]
    simp only [List.flatMap_cons, List.getD_eq_getElem?_getD]
    rw [List.getElem?_append_right (by omega), hw, show 4 * (i + 1) + j - 4 = 4 * i + j by omega]

end

/-! ## Arguments -/

/-- The stack that the strings take. -/
def stringRoom (args : List Bytes) : Nat := (args.map fun arg => (arg.length + 1 + 3) / 4 * 4).sum

/-- The stack that the arguments take. -/
def argRoom (argv : List Bytes) : Nat := stringRoom argv + 4 * (4 + argv.length)

theorem pushed_eq : ∀ (args : List Bytes) (sp : Int), sp % 4 = 0 →
    pushed sp args = sp - stringRoom args
  | [], sp, _ => (Int.sub_zero sp).symm
  | arg :: args, sp, h => by
    have hcons : stringRoom (arg :: args) = (arg.length + 1 + 3) / 4 * 4 + stringRoom args := by
      simp [stringRoom]
    rw [pushed, pushed_eq args _ (by omega), hcons]
    omega

theorem fits_iff {N : Nat} (hN : 2 ≤ N) (argv : List Bytes) :
    ((vaOf (N - 1) : Nat) : Int) ≤ pushed (vaOf N) argv - 4 * (4 + argv.length) ↔
    argRoom argv ≤ pgsize := by
  have hB : vaOf N = vaOf (N - 1) + pgsize := by
    rw [vaOf_succ, Nat.sub_add_cancel (by omega)]
  have h4 : (vaOf N : Int) % 4 = 0 := by
    simp only [vaOf, pgsize]
    omega
  rw [pushed_eq _ _ h4, hB]
  unfold argRoom
  clear hB h4
  generalize vaOf (N - 1) = B
  simp only [pgsize]
  omega

section
variable {C : Nat → Page} {lo : Nat}

theorem Laid.length : ∀ {hi : Nat} {args : List Bytes} {ptrs : List Nat}, Laid C lo hi args ptrs →
    ptrs.length = args.length
  | _, [], [], _ => rfl
  | _, _ :: _, _ :: _, ⟨_, _, h⟩ => congrArg (· + 1) h.length

theorem Laid.get : ∀ {hi : Nat} {args : List Bytes} {ptrs : List Nat}, Laid C lo hi args ptrs →
    ∀ (i : Nat) (arg : Bytes) (p : Nat), args[i]? = some arg → ptrs[i]? = some p →
      lo ≤ p ∧ p + (arg.length + 1) ≤ hi ∧ Holds C p (arg ++ [0])
  | _, _ :: _, _ :: _, ⟨h1, h2, h3⟩, 0, arg, p, ha, hp => by
    cases ha
    cases hp
    exact ⟨h3.le, h1, h2⟩
  | _, _ :: _, _ :: _, ⟨h1, h2, h3⟩, i + 1, arg, p, ha, hp => by
    obtain ⟨h4, h5, h6⟩ := h3.get i arg p (by simpa using ha) (by simpa using hp)
    exact ⟨h4, by omega, h6⟩
  | _, [], [], _, i, arg, p, ha, hp => by simp at ha

theorem Laid.below : ∀ {hi : Nat} {args : List Bytes} {ptrs : List Nat}, Laid C lo hi args ptrs →
    ∀ (i j : Nat) (arg : Bytes) (p q : Nat), i < j → args[j]? = some arg →
    ptrs[i]? = some p → ptrs[j]? = some q →
      q + (arg.length + 1) ≤ p
  | _, _ :: _, _ :: _, ⟨_, _, h3⟩, 0, j + 1, arg, p, q, _, ha, hp, hq => by
    cases hp
    exact (h3.get j arg q (by simpa using ha) (by simpa using hq)).2.1
  | _, _ :: _, _ :: _, ⟨_, _, h3⟩, i + 1, j + 1, arg, p, q, hij, ha, hp, hq =>
    h3.below i j arg p q (Nat.lt_of_succ_lt_succ hij) (by simpa using ha)
      (by simpa using hp) (by simpa using hq)
  | _, [], [], _, i, j, arg, p, q, _, ha, _, _ => by simp at ha

end

/-- The memory at the stack pointer, as `main` reads it: the words, and the strings at the pointers,
all in the highest page below `sz`, the words lowest and the strings apart. -/
structure Decodes (m : Mem) (d : Ppn) (sz esp : Nat) (argv : List Bytes)
    (ptrs : List Nat) : Prop where
  count : ptrs.length = argv.length
  words : ∀ (i v : Nat), ([0xffffffff, argv.length, esp + 12] ++ ptrs ++ [0])[i]? = some v →
    userWord m d (esp + 4 * i) = some v
  strings : ∀ (i : Nat) (arg : Bytes) (p : Nat), argv[i]? = some arg → ptrs[i]? = some p →
    ∀ j < arg.length + 1, userByte m d (p + j) = (arg ++ [0])[j]?
  low : sz - pgsize ≤ esp
  room : esp + 4 * (4 + argv.length) ≤ sz
  within : ∀ (i : Nat) (arg : Bytes) (p : Nat), argv[i]? = some arg → ptrs[i]? = some p →
    esp + 4 * (4 + argv.length) ≤ p ∧ p + (arg.length + 1) ≤ sz
  apart : ∀ (i j : Nat) (arg : Bytes) (p q : Nat), i < j → argv[j]? = some arg →
    ptrs[i]? = some p → ptrs[j]? = some q →
    q + (arg.length + 1) ≤ p

section
variable {L : Layout} {k k' : Kern} {path bs : Bytes} {argv : List Bytes} {N : Nat}
  {U : Nat → Option Word} {C C' : Nat → Page} {ptrs : List Nat}

section
variable (h : Executed path bs argv k k' N U C C' ptrs)
include h

theorem Executed.sz_eq : k'.sz = vaOf N := by
  rw [h.kern]

theorem Executed.userByte_eq {a : Nat} (hlo : vaOf (N - 1) ≤ a)
    (hhi : a < vaOf N) : userByte k'.mem k'.pgdir a = some (byteAt C' a) := by
  refine h.view.userByte_eq h.stack hhi ?_
  have h2 := h.stack.two
  have hdiv : N - 1 ≤ a / pgsize := (Nat.le_div_iff_mul_le (by decide)).2 hlo
  omega

theorem Executed.word_lt (hmax : argv.length < u32) {v : Nat}
    (hv : v ∈ mainWords argv.length k'.esp ptrs) : v < u32 := by
  have hroom := h.strings.le
  have hlt : vaOf N < u32 := by
    have := h.stack.lt
    simp only [vaOf, pgsize, u32, userPages] at *
    omega
  simp only [mainWords, List.mem_append, List.mem_cons, List.not_mem_nil, or_false] at hv
  rcases hv with ((rfl | rfl | rfl) | hv) | rfl
  · decide
  · exact hmax
  · omega
  · obtain ⟨i, hi⟩ := List.getElem?_of_mem hv
    have hi' : i < argv.length := h.strings.length ▸ (List.getElem?_eq_some_iff.1 hi).1
    have hp := (h.strings.get i _ v (List.getElem?_eq_getElem hi') hi).2.1
    omega
  · decide

theorem Executed.decodes (hmax : argv.length < u32) :
    Decodes k'.mem k'.pgdir k'.sz k'.esp argv ptrs := by
  have hlen := h.strings.length
  have hroom := h.strings.le
  have hlow := h.low
  have htwo := h.stack.two
  have hB : vaOf N = vaOf (N - 1) + pgsize := by
    rw [vaOf_succ, Nat.sub_add_cancel (by omega)]
  rw [h.sz_eq]
  refine ⟨hlen, fun i v hv => ?_, fun i arg p ha hp j hj => ?_, ?_, hroom, fun i arg p ha hp => ?_,
    h.strings.below⟩
  · have hi : i < (mainWords argv.length k'.esp ptrs).length := (List.getElem?_eq_some_iff.1 hv).1
    rw [length_mainWords, hlen] at hi
    refine userWord_eq (h.word_lt hmax (List.mem_of_getElem? hv)) fun j hj => ?_
    have hw := h.words (4 * i + j) (by
      rw [length_words, length_mainWords, hlen]
      omega)
    rw [getD_words (mainWords argv.length k'.esp ptrs) i j v hv hj, ← Nat.add_assoc] at hw
    rw [← hw]
    exact h.userByte_eq (by omega) (by omega)
  · obtain ⟨h1, h2, h3⟩ := h.strings.get i arg p ha hp
    have hj' : j < (arg ++ [0]).length := by simpa using hj
    rw [h.userByte_eq (by omega) (by omega), h3 j hj', List.getD_eq_getElem?_getD,
      List.getElem?_eq_getElem hj']
    rfl
  · omega
  · exact ⟨(h.strings.get i arg p ha hp).1, (h.strings.get i arg p ha hp).2.1⟩

theorem Executed.pages {n : Nat} (hn : vaOf n < k'.sz) :
    ∃ w, mapping k'.mem k'.pgdir n = some w ∧ (user w = true ↔ vaOf n ≠ k'.sz - 2 * pgsize) := by
  have htwo := h.stack.two
  rw [h.sz_eq] at hn ⊢
  have hlt : n < N := Nat.lt_of_mul_lt_mul_right hn
  obtain ⟨w, hw, hiff⟩ := h.stack.page n hlt
  have hsub : vaOf N - 2 * pgsize = vaOf (N - 2) := (Nat.sub_mul ..).symm
  refine ⟨w, (h.view.maps n (Nat.lt_trans (Nat.lt_trans hlt h.stack.lt) (by decide))).trans hw,
    hiff.trans ?_⟩
  rw [hsub]
  exact not_congr ⟨fun he => by rw [he], fun he => Nat.eq_of_mul_eq_mul_right (by decide) he⟩

theorem Executed.segments (hap : (headers bs (leAt bs 44 2) (leAt bs 28 4)).Pairwise Apart)
    {ph : Bytes} (hph : ph ∈ headers bs (leAt bs 44 2) (leAt bs 28 4)) (hload : leAt ph 0 4 = 1)
    {i : Nat} (hi : i < leAt ph 20 4) :
    userByte k'.mem k'.pgdir (leAt ph 8 4 + i) =
      if i < leAt ph 16 4 then bs[leAt ph 4 4 + i]? else some 0 := by
  obtain ⟨hlen, -, hle⟩ := h.inside ph hph hload
  have htwo := h.stack.two
  have ha : leAt ph 8 4 + i < vaOf (N - 2) := Nat.lt_of_lt_of_le (Nat.add_lt_add_left hi _) hle
  have hesp : leAt ph 8 4 + i < k'.esp :=
    Nat.lt_of_lt_of_le ha (Nat.le_trans (vaOf_mono (by omega)) h.low)
  have hdiv : (leAt ph 8 4 + i) / pgsize < N - 2 := Nat.div_lt_of_lt_mul (by rwa [Nat.mul_comm])
  rw [h.view.userByte_eq h.stack (Nat.lt_of_lt_of_le ha (vaOf_mono (Nat.sub_le _ _)))
    (Nat.ne_of_lt hdiv),
    h.frame _ hesp, h.bytes,
    segByte_of_apart hap (fun p hp h1 => (h.inside p hp h1).2.1) hph hload hi]
  by_cases hf : i < leAt ph 16 4
  · rw [if_pos hf, if_pos hf, List.getD_eq_getElem?_getD]
    rw [List.length_take, List.length_drop] at hlen
    rw [List.getElem?_eq_getElem (by omega)]
    rfl
  · rw [if_neg hf, if_neg hf]

end

end

section
variable {L : Layout} {k : Kern} {file : Option Bytes}

/-- Up to the arguments `exec` never stops, whatever the file holds and wherever `kalloc` fails. A
return of -1 leaves everything as it was, and after a success the image is what the file says. -/
theorem exec_image (path : Bytes) (argv : List Bytes) (hs : Sound L k.mem k.pgdir)
    (hl : k.locked = false) (hfile : ∀ bs, file = some bs → bs.length < u32) :
    (∃ v k', execLoad L file k = .ok v k') ∧
    (∀ v k', exec L path file argv k = .ok v k' → v = 0 ∨ v = -1) ∧
    (∀ k', exec L path file argv k = .ok (-1) k' → k' = { k with mem := k'.mem } ∧
      GivenBack L k.mem k'.mem) ∧
    ∀ k', exec L path file argv k = .ok 0 k' →
      k'.ref = k.ref ∧ k'.locked = k.locked ∧ k'.ops = k.ops ∧ 2 * pgsize ≤ k'.sz ∧
      (∀ n, vaOf n < k'.sz → ∃ w, mapping k'.mem k'.pgdir n = some w ∧
        (user w = true ↔ vaOf n ≠ k'.sz - 2 * pgsize)) ∧
      ∃ bs, file = some bs ∧ ((headers bs (leAt bs 44 2) (leAt bs 28 4)).Pairwise Apart →
        ∀ ph ∈ headers bs (leAt bs 44 2) (leAt bs 28 4), leAt ph 0 4 = 1 → ∀ i < leAt ph 20 4,
          userByte k'.mem k'.pgdir (leAt ph 8 4 + i) =
            if i < leAt ph 16 4 then bs[leAt ph 4 4 + i]? else some 0) := by
  have hcases := exec_cases path argv hs hl hfile
  refine ⟨?_, fun v k' hv => ?_, fun k' hv => ?_, fun k' hv => ?_⟩
  · obtain ⟨R, r, hb⟩ := hs
    classical
    obtain ⟨v, m, hr, -⟩ :=
      execLoad_returns (W := shelf L k.mem k.pgdir r) file hfile hl (at_shelf hb k.mem.oom)
    exact ⟨v, _, hr⟩
  · rcases hcases with ⟨m, hr, -⟩ | ⟨k₁, _, _, _, _, _, _, hr, -⟩ | ⟨e, k₁, hr⟩
    · cases hv.symm.trans hr
      exact .inr rfl
    · cases hv.symm.trans hr
      exact .inl rfl
    · cases hv.symm.trans hr
  · rcases hcases with ⟨m, hr, hg⟩ | ⟨k₁, _, _, _, _, _, _, hr, -⟩ | ⟨e, k₁, hr⟩
    · cases hv.symm.trans hr
      exact ⟨rfl, hg⟩
    · cases hv.symm.trans hr
    · cases hv.symm.trans hr
  · rcases hcases with ⟨m, hr, -⟩ | ⟨k₁, bs, N, U, C, C', ptrs, hr, hbs, h⟩ | ⟨e, k₁, hr⟩
    · cases hv.symm.trans hr
    · cases hv.symm.trans hr
      have hk := h.kern
      refine ⟨by rw [hk], by rw [hk], by rw [hk], ?_, fun n hn => h.pages hn, bs, hbs,
        fun hap ph hph hload i hi =>
        h.segments hap hph hload hi⟩
      rw [h.sz_eq]
      exact Nat.mul_le_mul_right _ h.stack.two
    · cases hv.symm.trans hr

/-- After a success the arguments are read back from the new stack; arguments that take more than a
page, and are not longer than the image, are refused. -/
theorem exec_arguments (path : Bytes) (argv : List Bytes) (hs : Sound L k.mem k.pgdir)
    (hl : k.locked = false) (hfile : ∀ bs, file = some bs → bs.length < u32)
    (hmax : argv.length ≤ 31) :
    (∀ k', exec L path file argv k = .ok 0 k' →
      ∃ ptrs, Decodes k'.mem k'.pgdir k'.sz k'.esp argv ptrs) ∧
    ∀ d sz k₁, execLoad L file k = .ok (some (d, sz)) k₁ → pgsize < argRoom argv →
    argBytes argv < sz →
      ∃ k', exec L path file argv k = .ok (-1) k' := by
  constructor
  · intro k' hv
    rcases exec_cases path argv hs hl hfile with
      ⟨m, hr, -⟩ | ⟨k₁, bs, N, U, C, C', ptrs, hr, -, h⟩ | ⟨e, k₁, hr⟩
    · cases hv.symm.trans hr
    · cases hv.symm.trans hr
      exact ⟨ptrs, h.decodes (Nat.lt_of_le_of_lt hmax (by decide))⟩
    · cases hv.symm.trans hr
  · intro d sz k₁ hload hroom hlong
    obtain ⟨R, r, hb⟩ := hs
    classical
    obtain ⟨v, m₁, hr, h1⟩ :=
      execLoad_returns (W := shelf L k.mem k.pgdir r) file hfile hl (at_shelf hb k.mem.oom)
    replace hr : execLoad L file k = .ok v { k with mem := m₁ } := hr
    cases hload.symm.trans hr
    obtain ⟨bs, N, U, C, rfl, rfl, hnew⟩ := h1
    obtain ⟨w, hw⟩ := hnew.top
    have hfit := mt (fits_iff hnew.stack.two argv).1 (Nat.not_le.2 hroom)
    have hover :=
      pushArgs_overflow hnew.stack (Nat.le_trans hmax (by decide)) rfl argv.length 0 (vaOf N)
      [] m₁ C (Nat.zero_add _) rfl (vaOf_mono (Nat.sub_le _ _)) (Nat.le_refl _) hnew.data hfit
    rw [List.drop_zero, Nat.mul_zero, Nat.add_zero] at hover
    obtain ⟨m₂, hp⟩ := hover.bad (hnew.data.hasTable (by decide) hw) hlong
    obtain ⟨m, hr', -⟩ := exec_refused path hb hr hnew hp
    exact ⟨_, hr'⟩

end

/-! ## A small program -/

theorem vm_triple {α : Type} {x : M α} {P : Mem → Prop} {Q : α → Mem → Prop}
    {E : String → Mem → Prop} (h : Triple P x Q E) :
    Triple (fun k : Kern => P k.mem) (vm x) (fun a k => Q a k.mem) fun e k => E e k.mem := by
  intro k hk
  cases hx : x k.mem with
  | ok a m =>
    rw [vm_ok hx]
    exact h.ok hk hx
  | error e m =>
    rw [vm_error hx]
    exact h.error hk hx

section
variable {L : Layout} {d : Ppn} {k : Nat}

theorem allocuvm_ample {oldsz newsz n : Nat} (hk : newsz < kernbase) (hle : oldsz ≤ newsz)
    (hn : (newsz + (pgsize - 1) - pgroundup oldsz) / pgsize = n) : Triple (Ample d (n + k))
      (allocuvm L d oldsz newsz) (fun v s => v = newsz ∧ Ample d k s) fun _ _ => True := by
  subst hn
  unfold allocuvm
  rw [if_neg (Nat.not_le.2 hk), if_neg (Nat.not_lt.2 hle)]
  exact allocLoop_ample _ _ _ _

/-- One page is loaded. The free pages stay, so they are still enough for all tables. -/
theorem loaduvm_ample {addr offset sz : Nat} {file : Bytes} (haddr : addr % pgsize = 0)
    (hpos : 0 < sz) (hsz : sz < pgsize) (hlen : file.length < u32)
    (hfit : offset + sz ≤ file.length) :
    Triple (Ample d (1024 + k)) (loaduvm d addr file offset sz)
      (fun v s => v = 0 ∧ Ample d k s) fun _ _ => True := by
  have hturns : (sz + (pgsize - 1)) / pgsize = 1 := by
    simp only [pgsize] at *
    omega
  have hread : readi file ((offset + 0) % u32) sz = some ((file.drop offset).take sz) := by
    rw [readi, Nat.add_zero, Nat.mod_eq_of_lt (by omega), Nat.mod_eq_of_lt (by omega),
      if_neg (by omega)]
  unfold loaduvm
  rw [if_neg (not_not.2 haddr), hturns]
  unfold loadLoop
  refine (Triple.reads fun s _ => walkpgdir_eq d _ s).bind fun v => ?_
  rcases v with _ | ⟨tab, j⟩
  · exact .throw fun _ _ => trivial
  refine (Triple.reads (g := fun s : Mem => s.page tab j) fun s _ => rfl).bind fun w => ?_
  dsimp only
  rw [Nat.sub_zero, if_pos hsz, hread]
  refine Triple.bind (.modify (Q := fun _ => Ample d k) fun s h => ?_) fun _ => ?_
  · have hroom := h.1.1.room
    exact ⟨h.1.1.oom, h.1.1.used, Nat.le_trans (Nat.add_le_add_right (absent_le _ _) k) (by
      rw [show (s.setPage (pteAddr w) _).free = s.free from rfl]
      omega)⟩
  · rw [if_neg (by rw [List.length_take, List.length_drop]; omega)]
    exact .pure fun s h => ⟨rfl, h⟩

theorem makeStack_ample : Triple (Ample d 2) (makeStack L d 8)
    (fun st _ => ∃ sz i sp us, st = .args sz i sp us) fun _ _ => True := by
  have hup : pgroundup 8 = pgsize := by decide
  have hsum : (pgsize + 2 * pgsize) % u32 = 3 * pgsize := by decide
  unfold makeStack
  rw [hup]
  dsimp only
  rw [hsum]
  refine (allocuvm_ample (n := 2) (k := 0) (by decide) (by decide) (by decide)).bind fun v =>
    .of_pre (fun s h => h.1) ?_
  rintro rfl
  rw [if_neg (by decide)]
  exact Triple.trivially.bind fun _ => .pure fun s _ => ⟨_, _, _, _, rfl⟩

end

/-- The only program header of `smallElf`: four bytes of the file, and four zeros. -/
def smallPh : Bytes :=
  [1, 0, 0, 0, 84, 0, 0, 0, 0, 0, 0, 0, 0, 0, 0, 0, 4, 0, 0, 0, 8, 0, 0, 0, 7, 0,
    0, 0, 0, 0x10, 0, 0]

/-- A program with one segment. -/
def smallElf : Bytes :=
  [0x7f, 0x45, 0x4c, 0x46] ++ List.replicate 24 0 ++ [52] ++ List.replicate 15 0 ++ [1] ++
    List.replicate 7 0 ++ smallPh ++ [0xeb, 0xfe, 0x90, 0x90]

theorem loadSegments_small {L : Layout} {d : Ppn} : Triple (Ample d 1027)
    (loadSegments L d smallElf 1 0 52 0) (fun v s => v = some 8 ∧ Ample d 2 s) fun _ _ => True := by
  have hread : readi smallElf (52 % u32) 32 = some smallPh := by decide
  unfold loadSegments
  rw [hread]
  dsimp only
  rw [if_neg (by decide)]
  refine Triple.bind (Q := fun st s => st = .load 1 84 8 ∧ Ample d 2 s) ?_ fun st =>
    .of_pre (fun s h => h.1) ?_
  · unfold loadSegment
    dsimp only
    rw [if_neg (by decide), if_neg (by decide), if_neg (by decide)]
    refine (allocuvm_ample (n := 1) (k := 1026) (by decide) (by decide) (by decide)).bind fun v =>
      .of_pre (fun s h => h.1) ?_
    rintro rfl
    rw [if_neg (by decide), if_neg (by decide)]
    refine ((loaduvm_ample (k := 2) (by decide) (by decide) (by decide) (by decide) (by decide)).pre
      fun s h => h.2).bind fun v => .of_pre (fun s h => h.1) ?_
    rintro rfl
    exact .pure fun s h => ⟨rfl, h.2⟩
  · rintro rfl
    exact .pure fun s h => ⟨rfl, h.2⟩

theorem execLoad_small (L : Layout) : Triple (fun k => Stock 2052 k.mem)
    (execLoad L (some smallElf)) (fun v _ => v ≠ none) fun _ _ => True := by
  have hkeep : ∀ (P : Mem → Prop), Triple (fun k : Kern => P k.mem) ilock (fun _ k => P k.mem)
      (fun _ _ => True) ∧
      Triple (fun k : Kern => P k.mem) iunlockput (fun _ k => P k.mem) fun _ _ => True := by
    intro P
    constructor
    · unfold ilock
      exact Triple.bind (.get (Q := fun _ k => P k.mem) fun k hk => hk) fun k₁ =>
        .ite (fun _ => .throw fun _ _ => trivial) fun _ => .modify fun k hk => hk
    · unfold iunlockput
      exact Triple.bind (.get (Q := fun _ k => P k.mem) fun k hk => hk) fun k₁ =>
        .ite (fun _ => .throw fun _ _ => trivial) fun _ => .modify fun k hk => hk
  unfold execLoad
  refine Triple.bind (.modify (Q := fun _ k => Stock 2052 k.mem) fun k hk => hk) fun _ => ?_
  refine Triple.bind (Q := fun v k => v = some smallElf ∧ Stock 2052 k.mem) (fun k hk => ⟨rfl, hk⟩)
    fun v => .of_pre (fun k hk => hk.1) ?_
  rintro rfl
  refine ((hkeep (Stock 2052)).1.pre fun k hk => hk.2).bind fun _ => ?_
  rw [if_neg (by decide), if_neg (by decide)]
  refine (vm_triple (setupkvm_ample (k := 1027) (E := fun _ _ => True) fun _ => trivial)).bind fun v =>
    .exists_pre fun d => .of_pre (fun k hk => hk.1) ?_
  rintro rfl
  refine ((vm_triple (loadSegments_small (L := L) (d := d))).pre fun k hk => hk.2).bind fun v =>
    .of_pre (fun k hk => hk.1) ?_
  rintro rfl
  refine ((hkeep (Ample d 2)).2.pre fun k hk => hk.2).bind fun _ => ?_
  refine Triple.bind (.modify (Q := fun _ k => Ample d 2 k.mem) fun k hk => hk) fun _ => ?_
  refine (vm_triple (makeStack_ample (L := L) (d := d))).bind fun st =>
    .of_pre (fun k hk => hk) ?_
  rintro ⟨sz, i, sp, us, rfl⟩
  exact .pure fun k _ => nofun

def tinyKern : Kern := ⟨tiny, 0x102, pgsize, [], 0, 0, 1, false, 0⟩

theorem smallElf_length : ∀ bs, some smallElf = some bs → bs.length < u32 := by
  rintro bs ⟨⟩
  decide

theorem exec_smallElf : ∃ d N k₁, 2 ≤ N ∧
    execLoad smallKernel (some smallElf) tinyKern = .ok (some (d, vaOf N)) k₁ ∧
    ∀ argv : List Bytes, argv.length ≤ maxarg → argRoom argv ≤ pgsize →
      ∃ k', exec smallKernel [0x61] (some smallElf) argv tinyKern = .ok 0 k' := by
  obtain ⟨R, r, hb⟩ := tiny_sound
  classical
  obtain ⟨v, m₁, hr, h1⟩ := execLoad_returns (W := shelf smallKernel tiny 0x102 r) (k := tinyKern)
    (some smallElf) smallElf_length rfl (at_shelf hb [])
  replace hr : execLoad smallKernel (some smallElf) tinyKern = .ok v { tinyKern with mem := m₁ } :=
    hr
  have hfree : tinyKern.mem.free = laterPages := tiny_free
  have hsome := (execLoad_small smallKernel).ok (s := tinyKern)
    ⟨rfl, hfree ▸ laterPages_nodup, by rw [hfree, length_laterPages]; decide⟩ hr
  rcases v with _ | ⟨d, sz⟩
  · exact absurd rfl hsome
  obtain ⟨bs, N, U, C, hbs, rfl, hnew⟩ := h1
  cases hbs
  refine ⟨d, N, _, hnew.stack.two, hr, fun argv hmax hroom => ?_⟩
  obtain ⟨s', C', ptrs, sp', hall⟩ := pushArgs_ok hnew.stack hmax rfl argv.length 0 (vaOf N) [] m₁ C
    (Nat.zero_add _) rfl (Nat.le_refl _) hnew.data ((fits_iff hnew.stack.two argv).2 hroom)
  obtain ⟨k', -, -, hk, -⟩ := exec_accepted [0x61] hr hnew hall.result
  exact ⟨k', hk⟩

theorem exec_image_smallElf : ∃ k', exec smallKernel [0x61] (some smallElf) [] tinyKern = .ok 0 k' ∧
    k'.ref = 1 ∧ 2 * pgsize ≤ k'.sz ∧
    ∀ i < 8, userByte k'.mem k'.pgdir i = if i < 4 then smallElf[84 + i]? else some 0 := by
  obtain ⟨-, -, -, -, -, hall⟩ := exec_smallElf
  obtain ⟨k', hk⟩ := hall [] (by decide) (by decide)
  obtain ⟨-, -, -, h⟩ := exec_image [0x61] [] tiny_sound (k := tinyKern) rfl smallElf_length
  obtain ⟨h1, -, -, h2, -, _, ⟨⟩, h3⟩ := h k' hk
  refine ⟨k', hk, h1, h2, fun i hi => ?_⟩
  have hone : headers smallElf (leAt smallElf 44 2) (leAt smallElf 28 4) = [smallPh] := by decide
  have h4 := h3 (hone ▸ List.pairwise_singleton ..) smallPh (hone ▸ List.mem_singleton.2 rfl) rfl i hi
  rwa [show leAt smallPh 8 4 = 0 by decide, Nat.zero_add] at h4

/-- Two strings are passed on, and one that is longer than the stack is refused. -/
theorem exec_arguments_smallElf :
    (∃ k' ptrs, exec smallKernel [0x61] (some smallElf) [[0x61, 0x62], [0x63]] tinyKern = .ok 0 k' ∧
      Decodes k'.mem k'.pgdir k'.sz k'.esp [[0x61, 0x62], [0x63]] ptrs) ∧
    ∃ k', exec smallKernel [0x61] (some smallElf)
    [List.replicate 4096 0x61] tinyKern = .ok (-1) k' := by
  obtain ⟨d, N, k₁, htwo, hload, hall⟩ := exec_smallElf
  constructor
  · obtain ⟨k', hk⟩ := hall [[0x61, 0x62], [0x63]] (by decide) (by decide)
    obtain ⟨ptrs, h⟩ := (exec_arguments [0x61] [[0x61, 0x62], [0x63]] tiny_sound (k := tinyKern) rfl
      smallElf_length (by decide)).1 k' hk
    exact ⟨k', ptrs, hk, h⟩
  · refine (exec_arguments [0x61] [List.replicate 4096 0x61] tiny_sound (k := tinyKern) rfl
      smallElf_length (Nat.le_of_lt (by decide))).2 d _ k₁ hload ?_ ?_
    · simp only [argRoom, stringRoom, List.map_cons, List.map_nil, List.length_replicate,
        List.sum_cons, List.sum_nil]
      decide
    · refine Nat.lt_of_lt_of_le ?_ (vaOf_mono htwo)
      simp only [argBytes, List.map_cons, List.map_nil, List.length_replicate,
        List.sum_cons, List.sum_nil]
      decide

end Xv6.Vm
