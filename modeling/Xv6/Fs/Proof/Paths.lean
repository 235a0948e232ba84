import Xv6.Fs.Proof.Names

/-!
# Paths

A path is the list of its components: its longest parts without slashes, each cut to the length of a
name. `skipelem` takes the first component off.
-/

namespace Xv6.Fs

/-- The names between the slashes. -/
def elements (path : List UInt8) : List (List UInt8) := (path.splitOn slash).filter (· ≠ [])

/-- Those names as `skipelem` copies them. -/
def components (path : List UInt8) : List (List UInt8) := (elements path).map (List.take dirsiz)

section
variable {path name rest name' : List UInt8}
variable {p : List UInt8}

theorem elements_nil : elements [] = [] := by simp [elements]

theorem elements_append (p q : List UInt8) :
    elements (p ++ slash :: q) = elements p ++ elements q := by
  unfold elements List.splitOn
  rw [List.splitOnP_append_cons p q (by simp), List.filter_append]

theorem elements_slash (p : List UInt8) : elements (slash :: p) = elements p := by
  have := elements_append [] p
  rwa [elements_nil] at this

theorem elements_dropWhile : ∀ p : List UInt8, elements (p.dropWhile (· = slash)) = elements p
  | [] => rfl
  | b :: p => by
    by_cases hb : b = slash
    · rw [hb, List.dropWhile_cons_of_pos (by simp), elements_dropWhile p, elements_slash]
    · rw [List.dropWhile_cons_of_neg (by simpa using hb)]

theorem elements_singleton (hne : p ≠ []) (h : slash ∉ p) : elements p = [p] := by
  unfold elements
  rw [List.splitOn_eq_singleton h]
  simp [hne]

theorem elements_eq_cons (hne : p.takeWhile (· ≠ slash) ≠ []) :
    elements p = p.takeWhile (· ≠ slash) ::
      elements ((p.dropWhile (· ≠ slash)).dropWhile (· = slash)) := by
  have hno : slash ∉ p.takeWhile (· ≠ slash) := fun h => by
    simpa using List.mem_takeWhile_imp h
  rw [elements_dropWhile]
  conv_lhs => rw [← List.takeWhile_append_dropWhile (p := (· ≠ slash)) (l := p)]
  cases hd : p.dropWhile (· ≠ slash) with
  | nil => rw [List.append_nil, elements_singleton hne hno, elements_nil]
  | cons b q =>
    have hb : b = slash := by
      have := List.head?_dropWhile_not (· ≠ slash) p
      rw [hd] at this
      simpa using this
    rw [hb, elements_append, elements_singleton hne hno, elements_slash]
    rfl

theorem takeWhile_ne_nil (h : p.head? ≠ some slash) (hne : p ≠ []) :
    p.takeWhile (· ≠ slash) ≠ [] := by
  cases p with
  | nil => exact absurd rfl hne
  | cons b p =>
    have hb : b ≠ slash := fun hb => h (by rw [hb]; rfl)
    simp [hb]

theorem head_dropWhile (p : List UInt8) : (p.dropWhile (· = slash)).head? ≠ some slash := by
  intro h
  have := List.head?_dropWhile_not (· = slash) p
  rw [h] at this
  simp at this

theorem elements_eq_nil (h : p.head? ≠ some slash) : elements p = [] ↔ p = [] := by
  refine ⟨fun hp => ?_, fun hp => by rw [hp, elements_nil]⟩
  by_contra hne
  rw [elements_eq_cons (takeWhile_ne_nil h hne)] at hp
  cases hp

theorem skipelem_eq_none : skipelem path name = none ↔ components path = [] := by
  unfold components
  rw [List.map_eq_nil_iff, ← elements_dropWhile, elements_eq_nil (head_dropWhile path)]
  unfold skipelem
  split
  · next h => exact iff_of_true rfl h
  · next h =>
    refine iff_of_false (fun h' => ?_) h
    dsimp only at h'
    split at h' <;> cases h'

theorem cut_buffer {s : List UInt8} (hs : ∀ b ∈ s, b ≠ 0) (name : List UInt8) :
    cut (if s.length ≥ dirsiz then s.take dirsiz else s ++ 0 :: name.drop (s.length + 1)) =
      s.take dirsiz := by
  split
  · exact cutAt_eq_self (fun b hb => hs b (List.mem_of_mem_take hb)) (List.length_take_le ..)
  · next hlt =>
    obtain ⟨n, hn⟩ : ∃ n, dirsiz - s.length = n + 1 := ⟨dirsiz - s.length - 1, by omega⟩
    unfold cut cutAt
    rw [List.take_append, List.take_of_length_le (by omega), hn, List.take_succ_cons,
      List.takeWhile_append_of_pos (by simpa using hs), List.takeWhile_cons_of_neg (by simp),
      List.append_nil]

theorem skipelem_eq_some (hpath : ∀ b ∈ path, b ≠ 0) (h : skipelem path name = some (rest, name')) :
    components path = cut name' :: components rest ∧ (rest = [] ↔ components rest = []) ∧
      ∀ b ∈ rest, b ≠ 0 := by
  unfold skipelem at h
  split at h
  · cases h
  · next hne =>
    have hsub : ∀ b ∈ path.dropWhile (· = slash), b ≠ 0 := fun b hb =>
      hpath b ((List.dropWhile_suffix _).mem hb)
    have hcons := elements_eq_cons (takeWhile_ne_nil (head_dropWhile path) hne)
    rw [elements_dropWhile] at hcons
    generalize path.dropWhile (· = slash) = p at hne hsub hcons h
    have hcut := cut_buffer (s := p.takeWhile (· ≠ slash))
      (fun b hb => hsub b ((List.takeWhile_prefix _).mem hb)) name
    obtain ⟨rfl, rfl⟩ : (p.dropWhile (· ≠ slash)).dropWhile (· = slash) = rest ∧
        (if (p.takeWhile (· ≠ slash)).length ≥ dirsiz then (p.takeWhile (· ≠ slash)).take dirsiz
          else p.takeWhile (· ≠ slash) ++ 0 :: name.drop ((p.takeWhile (· ≠ slash)).length + 1)) =
            name' := by
      dsimp only at h
      split at h
      · next hl =>
        cases h
        rw [if_pos hl]
        exact ⟨rfl, rfl⟩
      · next hl =>
        cases h
        rw [if_neg hl]
        exact ⟨rfl, rfl⟩
    refine ⟨?_, ?_, fun b hb => hsub b ?_⟩
    · unfold components
      rw [hcut, hcons, List.map_cons]
    · unfold components
      rw [List.map_eq_nil_iff, elements_eq_nil (head_dropWhile _)]
    · exact (List.dropWhile_suffix _).mem ((List.dropWhile_suffix _).mem hb)

end

end Xv6.Fs
