import Mathlib.Data.List.Nodup
import Mathlib.Logic.Function.Basic
import Xv6.Lib.Linked

/-!
# Circular doubly linked lists with a head

The nodes are the elements (`some a`) and the head (`none`), each with a `next` and a `prev`.
`Rep d xs`: the list is `xs`, from the head along `next` and back to the head, and the same the
other way along `prev`. `pushFront` and `unlink` are the usual assignments to the four links at a
place, and `find` is the loop that goes along the list to the first element that passes a test.
-/

namespace Lib

open Function

/-- The links of a list of elements of `α`. -/
structure Dlist (α : Type*) where
  next : Option α → Option α
  prev : Option α → Option α

namespace Dlist

variable {α : Type*} [DecidableEq α]

def setNext (d : Dlist α) (x y : Option α) : Dlist α := { d with next := update d.next x y }

def setPrev (d : Dlist α) (x y : Option α) : Dlist α := { d with prev := update d.prev x y }

/-- Put `a` after the head. -/
def pushFront (d : Dlist α) (a : α) : Dlist α :=
  -- a->next = head.next
  let d := d.setNext (some a) (d.next none)
  -- a->prev = &head
  let d := d.setPrev (some a) none
  -- head.next->prev = a
  let d := d.setPrev (d.next none) (some a)
  -- head.next = a
  d.setNext none (some a)

/-- Take `a` out of the list. -/
def unlink (d : Dlist α) (a : α) : Dlist α :=
  -- a->next->prev = a->prev
  let d := d.setPrev (d.next (some a)) (d.prev (some a))
  -- a->prev->next = a->next
  d.setNext (d.prev (some a)) (d.next (some a))

/-- The head alone. -/
def empty : Dlist α := ⟨fun _ => none, fun _ => none⟩

/-- `for(x = start; x != &head; x = move(x)) if(test(x)) return x;` for less than `n` turns. -/
def find (move : Option α → Option α) (test : α → Bool) : Nat → Option α → Option (Option α)
  | 0, _ => none
  | _ + 1, none => some none
  | n + 1, some a => if test a then some (some a) else find move test n (move (some a))

/-- The links are those of the list `xs`. -/
structure Rep (d : Dlist α) (xs : List α) : Prop where
  next : Linked d.next (none :: xs.map some) none
  prev : Linked d.prev (none :: xs.reverse.map some) none
  nodup : xs.Nodup

omit [DecidableEq α] in
theorem rep_empty : Rep (empty : Dlist α) [] := ⟨⟨rfl, trivial⟩, ⟨rfl, trivial⟩, .nil⟩

omit [DecidableEq α] in
theorem Rep.swap {d : Dlist α} {xs : List α} (h : Rep d xs) : Rep ⟨d.prev, d.next⟩ xs.reverse :=
  ⟨h.prev, by rw [List.reverse_reverse]; exact h.next, List.nodup_reverse.2 h.nodup⟩

end Dlist

theorem Linked.relink {α : Type*} [DecidableEq α] {next : α → α} {l : List α} {u z : α} (z' : α)
    (h : Linked next (l ++ [u]) z) (hu : u ∉ l) : Linked (update next u z') (l ++ [u]) z' := by
  rw [Linked.append] at h ⊢
  refine ⟨h.1.congr fun a ha => ?_, ?_, trivial⟩
  · exact update_of_ne (ne_of_mem_of_not_mem ha hu) _ _
  · exact update_self ..

namespace Dlist

variable {α : Type*} {d : Dlist α} {xs l r : List α} {a : α}

theorem exists_last (h : xs.Nodup) : ∃ l : List (Option α),
    none :: xs.map some = l ++ [(xs.reverse.map some).headD none] ∧
      (xs.reverse.map some).headD none ∉ l := by
  rcases List.eq_nil_or_concat xs with rfl | ⟨ys, y, rfl⟩
  · exact ⟨[], rfl, List.not_mem_nil⟩
  · rw [List.concat_eq_append] at h ⊢
    refine ⟨none :: ys.map some, by simp, ?_⟩
    have hy : y ∉ ys := fun hy => by simpa using (List.nodup_append.1 h).2.2 y hy
    simpa using hy

theorem Rep.head_next (h : Rep d xs) : d.next none = (xs.map some).headD none := h.next.1

theorem Rep.next_eq (h : Rep d (l ++ a :: r)) : d.next (some a) = (r.map some).headD none := by
  have hn := h.next
  rw [List.map_append, List.map_cons, ← List.cons_append] at hn
  exact hn.next_eq

theorem Rep.prev_eq (h : Rep d (l ++ a :: r)) :
    d.prev (some a) = (l.reverse.map some).headD none := by
  have hs := h.swap
  rw [List.reverse_append, List.reverse_cons, List.append_assoc, List.singleton_append] at hs
  exact hs.next_eq

theorem headD_ne (h : a ∉ xs) : (xs.map some).headD none ≠ some a := by
  cases xs with
  | nil => simp
  | cons b xs => simpa using fun hb : b = a => h (hb ▸ List.mem_cons_self)

/-- **`prev` is the inverse of `next`.** -/
theorem Rep.prev_next (h : Rep d xs) (hall : ∀ a, a ∈ xs) (x : Option α) :
    d.prev (d.next x) = x := by
  -- what comes back from the node after `x` is the node before it
  have hback : ∀ l r : List α, xs = l ++ r →
      d.prev ((r.map some).headD none) = (l.reverse.map some).headD none := by
    rintro l r rfl
    cases r with
    | nil =>
      have hp := h.prev.1
      rwa [List.append_nil] at hp
    | cons c r => exact h.prev_eq
  cases x with
  | none =>
    rw [h.head_next]
    exact hback [] xs rfl
  | some a =>
    obtain ⟨l, r, rfl⟩ := List.append_of_mem (hall a)
    rw [h.next_eq, hback (l ++ [a]) r (by simp)]
    simp

theorem Rep.iterate (h : Rep d xs) :
    (∀ (i : Nat) (hi : i < xs.length), d.next^[i + 1] none = some xs[i]) ∧
      d.next^[xs.length + 1] none = none := by
  refine ⟨fun i hi => ?_, ?_⟩
  · have hcut : none :: xs.map some =
        (none :: (xs.take i).map some) ++ some xs[i] :: (xs.drop (i + 1)).map some := by
      rw [List.cons_append, ← List.map_cons, ← List.map_append, List.getElem_cons_drop,
        List.take_append_drop]
    have hit := h.next.iterate hcut
    simpa [Nat.min_eq_left (Nat.le_of_lt hi)] using hit
  · have hend := h.next.iterate_end
    rwa [List.length_map] at hend

theorem find_eq {move : Option α → Option α} (test : α → Bool) {n : Nat}
    (h : Linked move (xs.map some) none) (hn : xs.length < n) :
    find move test n ((xs.map some).headD none) = some (xs.find? test) := by
  induction xs generalizing n with
  | nil =>
    obtain ⟨n, rfl⟩ : ∃ k, n = k + 1 := ⟨n - 1, by simp at hn; omega⟩
    rfl
  | cons a xs ih =>
    obtain ⟨n, rfl⟩ : ∃ k, n = k + 1 := ⟨n - 1, by simp at hn; omega⟩
    rw [List.map_cons, List.headD_cons, find, List.find?_cons]
    cases ha : test a with
    | true => rfl
    | false =>
      rw [if_neg (by simp), h.1]
      exact ih h.2 (by simpa using hn)

/-- **The loop along `next`** finds the first element that passes the test. -/
theorem Rep.find_next (h : Rep d xs) (test : α → Bool) {n : Nat} (hn : xs.length < n) :
    find d.next test n (d.next none) = some (xs.find? test) := by
  rw [h.head_next]
  exact find_eq test h.next.2 hn

/-- **The loop along `prev`** finds the last one. -/
theorem Rep.find_prev (h : Rep d xs) (test : α → Bool) {n : Nat} (hn : xs.length < n) :
    find d.prev test n (d.prev none) = some (xs.reverse.find? test) :=
  h.swap.find_next test (by rwa [List.length_reverse])

variable [DecidableEq α]

theorem Rep.pushFront (h : Rep d xs) (ha : a ∉ xs) : Rep (d.pushFront a) (a :: xs) := by
  have hmem : ∀ x ∈ xs.map some, x ≠ some a := fun x hx he => by simp_all
  have hhead : d.next none ≠ some a := by
    rw [h.head_next]
    exact headD_ne ha
  have hprev : (d.pushFront a).prev =
      update (update d.prev (some a) none) (d.next none) (some a) := by
    simp [Dlist.pushFront, setNext, setPrev]
  have hnext : (d.pushFront a).next =
      update (update d.next (some a) (d.next none)) none (some a) := rfl
  refine ⟨⟨?_, ?_, ?_⟩, ?_, List.nodup_cons.2 ⟨ha, h.nodup⟩⟩
  · rw [hnext, update_self]
    rfl
  · rw [hnext, update_of_ne (by simp), update_self, h.head_next]
  · refine h.next.2.congr fun x hx => ?_
    rw [hnext, update_of_ne, update_of_ne (hmem x hx)]
    rintro rfl
    simp at hx
  · -- the first node of `xs`, which was the last one along `prev`, goes back to `a`
    rw [hprev, List.reverse_cons, List.map_append, ← List.cons_append, Linked.append]
    refine ⟨?_, ?_, trivial⟩
    · obtain ⟨l, hl, hlast⟩ := exists_last (List.nodup_reverse.2 h.nodup)
      rw [List.reverse_reverse, ← h.head_next] at hl hlast
      have hp : Linked (update d.prev (some a) none) (none :: xs.reverse.map some) none := by
        refine h.prev.congr fun x hx => update_of_ne ?_ _ _
        rintro rfl
        simp [ha] at hx
      rw [hl] at hp ⊢
      exact hp.relink _ hlast
    · rw [update_of_ne (Ne.symm hhead), update_self]
      rfl

theorem Rep.pushAll {ys : List α} (h : Rep d xs) (hn : (ys.reverse ++ xs).Nodup) :
    Rep (ys.foldl Dlist.pushFront d) (ys.reverse ++ xs) := by
  induction ys generalizing d xs with
  | nil => exact h
  | cons y ys ih =>
    rw [List.reverse_cons, List.append_assoc, List.singleton_append] at hn ⊢
    exact ih (h.pushFront (List.nodup_cons.1 (List.nodup_append.1 hn).2.1).1) hn

theorem linked_unlink {next : Option α → Option α}
    (h : Linked next (none :: (l ++ a :: r).map some) none) (hn : (l ++ a :: r).Nodup) :
    Linked (update next ((l.reverse.map some).headD none) (next (some a)))
      (none :: (l ++ r).map some) none := by
  rw [List.map_append, List.map_cons, ← List.cons_append, Linked.append] at h
  rw [List.map_append, ← List.cons_append, Linked.append]
  obtain ⟨hl, ha, hr⟩ := h
  obtain ⟨hnl, hnr, hdisj⟩ := List.nodup_append.1 hn
  obtain ⟨l', hl', hlast⟩ := exists_last hnl
  refine ⟨?_, hr.congr fun x hx => update_of_ne ?_ _ _⟩
  · rw [← ha]
    rw [hl'] at hl ⊢
    exact hl.relink _ hlast
  · rintro rfl
    have hin : (l.reverse.map some).headD none ∈ none :: l.map some := by
      rw [hl']
      simp
    obtain ⟨c, hc, he⟩ := List.mem_map.1 hx
    rw [← he] at hin
    have hcl : c ∈ l := by simpa using hin
    exact hdisj c hcl c (List.mem_cons_of_mem _ hc) rfl

theorem Rep.unlink (h : Rep d (l ++ a :: r)) : Rep (d.unlink a) (l ++ r) := by
  have hne : d.next (some a) ≠ some a := by
    rw [h.next_eq]
    exact headD_ne (List.nodup_cons.1 (List.nodup_append.1 h.nodup).2.1).1
  have hprev : (d.unlink a).prev = update d.prev (d.next (some a)) (d.prev (some a)) := rfl
  have hnext : (d.unlink a).next = update d.next (d.prev (some a)) (d.next (some a)) := by
    simp [Dlist.unlink, setNext, setPrev, update_of_ne (Ne.symm hne)]
  refine ⟨?_, ?_, ?_⟩
  · rw [hnext, h.prev_eq]
    exact linked_unlink h.next h.nodup
  · have hs := h.swap
    rw [List.reverse_append, List.reverse_cons, List.append_assoc, List.singleton_append] at hs
    have hu := linked_unlink hs.next hs.nodup
    rw [List.reverse_reverse, ← h.next_eq] at hu
    rw [hprev, List.reverse_append]
    exact hu
  · exact h.nodup.sublist (List.Sublist.append_left (List.sublist_cons_self _ _) _)

/-- **An element moved to the front.** -/
theorem Rep.moveFront (h : Rep d xs) (ha : a ∈ xs) :
    Rep ((d.unlink a).pushFront a) (a :: xs.erase a) := by
  obtain ⟨l, r, rfl⟩ := List.append_of_mem ha
  have hl : a ∉ l := fun hl => (List.nodup_append.1 h.nodup).2.2 a hl a List.mem_cons_self rfl
  have hr : a ∉ r := (List.nodup_cons.1 (List.nodup_append.1 h.nodup).2.1).1
  rw [List.erase_append_right _ hl, List.erase_cons_head]
  exact h.unlink.pushFront (by simp [hl, hr])

end Dlist

end Lib
