import Xv6.Vm.Uvm
import Xv6.Lib.Ledger
import Xv6.Lib.TwoRun
import Mathlib.Data.Sum.Basic

/-!
# Who owns a page

A directory owns its own page, the tables of its present entries and the pages of its present user
entries (`own`); during a call a page may also be in hand. `Books` says that each page of the
allocator is on the free list or owned exactly once. `At` is the state in the middle of a call that
works on one directory: the owners outside that directory are fixed, and so are the contents of
their pages; the directory maps what `U` says. It is an assertion about two states that differ at
most in the pages that are free, in pages that the rest of the kernel keeps for itself (`D`) and in
the page `z` that is in hand and has not been filled yet. The primitives of `Memory.lean` are shown
to keep it, once each.
-/

namespace Xv6.Vm

open Lib Function

variable {w : Word} {i : Fin 1024} {p : Ppn} {b : Bool}

/-! ## Entries -/

theorem pteAddr_pte (pa : Ppn) (f : BitVec 12) : pteAddr (pte pa f) = pa := by
  unfold pteAddr pte
  ext i hi
  rw [BitVec.getElem_extractLsb', BitVec.getLsbD_append, if_neg (by omega), Nat.add_sub_cancel_left]
  exact BitVec.getLsbD_eq_getElem hi

theorem present_pte (pa : Ppn) (f : BitVec 12) : present (pte pa f) = f.getLsbD 0 := by
  rw [present, pte, BitVec.getLsbD_append, if_pos (by decide)]

theorem user_pte (pa : Ppn) (f : BitVec 12) : user (pte pa f) = f.getLsbD 2 := by
  rw [user, pte, BitVec.getLsbD_append, if_pos (by decide)]

theorem present_pte_or (pa : Ppn) (f : BitVec 12) : present (pte pa (f ||| pteP)) = true := by
  simp [present_pte]

/-- An entry that is present. -/
def entry (w : Word) : Option Word := if present w then some w else none

/-- The page it points to. -/
def target (w : Word) : Option Ppn := (entry w).map pteAddr

theorem entry_of_present (h : present w = true) : entry w = some w := if_pos h

theorem entry_of_not_present (h : ¬ present w = true) : entry w = none := if_neg h

theorem entry_eq_some {w' : Word} (h : entry w = some w') : w = w' ∧ present w' = true := by
  unfold entry at h
  split at h
  · cases h
    exact ⟨rfl, ‹_›⟩
  · cases h

theorem target_of_present (h : present w = true) : target w = some (pteAddr w) := by
  rw [target, entry_of_present h, Option.map_some]

theorem target_eq_none : target w = none ↔ ¬ present w = true := by
  unfold target entry
  split <;> simp_all

@[simp]
theorem entry_zero : entry 0#32 = none := rfl

@[simp]
theorem target_zero : target 0#32 = none := rfl

/-- The entry for an address, as the hardware finds it. -/
def lookup (m : Ppn → Page) (d : Ppn) (va : Nat) : Option Word :=
  (target (m d (pdx va))).bind fun t => entry (m t (ptx va))

/-- The address of page `n`. -/
abbrev vaOf (n : Nat) : Nat := n * pgsize

theorem pdx_vaOf (n : Nat) : (pdx (vaOf n)).val = n / 1024 % 1024 := by
  simp only [pdx, Fin.ofNat, vaOf, pgsize]
  omega

theorem ptx_vaOf (n : Nat) : (ptx (vaOf n)).val = n % 1024 := by
  simp only [ptx, Fin.ofNat, vaOf, pgsize]
  omega

theorem vaOf_inj {n n' : Nat} (hn : n < 2 ^ 20) (hn' : n' < 2 ^ 20)
    (h1 : pdx (vaOf n') = pdx (vaOf n)) (h2 : ptx (vaOf n') = ptx (vaOf n)) : n' = n := by
  have h3 := congrArg Fin.val h1
  have h4 := congrArg Fin.val h2
  rw [pdx_vaOf, pdx_vaOf] at h3
  rw [ptx_vaOf, ptx_vaOf] at h4
  omega

theorem lookup_congr {m m' : Ppn → Page} {d : Ppn} (hd : m' d = m d)
    (ht : ∀ i t, target (m d i) = some t → m' t = m t) (va : Nat) :
    lookup m' d va = lookup m d va := by
  unfold lookup
  rw [hd]
  cases h : target (m d (pdx va)) with
  | none => rfl
  | some t =>
    show entry (m' t _) = entry (m t _)
    rw [ht _ t h]

/-! ## Owners -/

/-- What a directory owns, and two pages in hand. -/
inductive Part
  | dir
  | table (i : Fin 1024)
  | page (n : Nat)
  | hand (b : Bool)
  deriving DecidableEq

/-- The pages below `KERNBASE`. -/
abbrev userPages : Nat := 2 ^ 19

theorem lt_pages {n : Nat} (h : n < userPages) : n < 2 ^ 20 := Nat.lt_of_lt_of_le h (by decide)

/-- The page that a part is. -/
def own (m : Ppn → Page) (d : Option Ppn) (g : Bool → Option Ppn) : Part → Option Ppn
  | .dir => d
  | .table i => d.bind fun d => target (m d i)
  | .page n => if n < userPages then d.bind fun d => (lookup m d (vaOf n)).map pteAddr else none
  | .hand b => g b

theorem own_congr {m m' : Ppn → Page} {d : Option Ppn} {g : Bool → Option Ppn}
    (h : ∀ d', d = some d' → m' d' = m d' ∧ ∀ i t, target (m d' i) = some t → m' t = m t) :
    own m' d g = own m d g := by
  funext p
  cases d with
  | none => cases p <;> rfl
  | some d =>
    obtain ⟨hd, ht⟩ := h d rfl
    cases p with
    | dir => rfl
    | table i => simp [own, hd]
    | page n => simp only [own, Option.bind_some, lookup_congr hd ht]
    | hand b => rfl

/-- Every page is on the free list or has one holder. -/
structure Books (L : Layout) {H : Type} (hold : H → Option Ppn) (free : List Ppn) : Prop where
  ledger : Ledger (fun _ => False) (fun p => L.Managed p ∧ p ∉ free) hold
  managed : ∀ p ∈ free, L.Managed p
  nodup : free.Nodup

namespace Books

variable {L : Layout} {H : Type} [DecidableEq H] {hold : H → Option Ppn} {p : Ppn} {l : List Ppn}
  {h k : H}

omit [DecidableEq H] in
theorem not_free (hb : Books L hold l) (hh : hold h = some p) : L.Managed p ∧ p ∉ l :=
  (hb.ledger.held h p hh).1

omit [DecidableEq H] in
theorem inj (hb : Books L hold l) (hh : hold h = some p) (hh' : hold k = some p) : h = k :=
  hb.ledger.excl hh hh'

theorem take (hb : Books L hold (p :: l)) (hh : hold h = none) :
    Books L (update hold h (some p)) l := by
  have hn := List.nodup_cons.1 hb.nodup
  refine ⟨hb.ledger.take (fun hp => hp.2 List.mem_cons_self) hh fun x => ?_,
    fun q hq => hb.managed q (List.mem_cons_of_mem _ hq), hn.2⟩
  constructor
  · rintro ⟨hx, hxl⟩
    by_cases hxp : x = p
    · exact .inr hxp
    · exact .inl ⟨hx, by simp [hxp, hxl]⟩
  · rintro (⟨hx, hxl⟩ | rfl)
    · exact ⟨hx, fun hl => hxl (List.mem_cons_of_mem _ hl)⟩
    · exact ⟨hb.managed x List.mem_cons_self, hn.1⟩

theorem drop (hb : Books L hold l) (hh : hold h = some p) :
    Books L (update hold h none) (p :: l) := by
  obtain ⟨hp, hpl⟩ := hb.not_free hh
  refine ⟨hb.ledger.drop hh fun x => ?_, fun q hq => ?_, List.nodup_cons.2 ⟨hpl, hb.nodup⟩⟩
  · simp only [List.mem_cons, not_or]
    exact ⟨fun hx => ⟨⟨hx.1, hx.2.2⟩, hx.2.1⟩, fun hx => ⟨hx.1.1, hx.2, hx.1.2⟩⟩
  · rcases List.mem_cons.1 hq with rfl | hq
    · exact hp
    · exact hb.managed q hq

end Books

theorem elim_update {H P : Type} [DecidableEq H] [DecidableEq P] (r : H → Option Ppn)
    (f : P → Option Ppn) (p : P) (v : Option Ppn) :
    Sum.elim r (update f p v) = update (Sum.elim r f) (.inr p) v :=
  (Sum.update_elim_inr ..).symm

theorem Books.move {L : Layout} {H P : Type} [DecidableEq P] {r : H → Option Ppn}
    {o : P → Option Ppn} {l : List Ppn} {h k : P} (hb : Books L (Sum.elim r o) l)
    (hh : o h = some p) (hk : o k = none) :
    Books L (Sum.elim r (update (update o h none) k (some p))) l := by
  classical
  rw [elim_update, elim_update]
  have hh' : Sum.elim r o (.inr h) = some p := hh
  exact ⟨hb.ledger.move hh' hk, hb.managed, hb.nodup⟩

/-- The memories agree but for free pages and `D`. -/
structure Alike (D : Ppn → Prop) (s t : Mem) : Prop where
  free : t.free = s.free
  oom : t.oom = s.oom
  page : ∀ q, q ∉ s.free → ¬ D q → t.page q = s.page q

/-- The kernel outside the directory that a call works on: the other owners and what their pages
hold. The pages of `D` are kept by the rest of the kernel, and their contents are not known. -/
structure World (R : Type) where
  L : Layout
  r : R → Option Ppn
  c : Ppn → Page
  D : Ppn → Prop
  rest : ∀ q, D q → ∃ h, r h = some q

/-- The parts `o` and the surroundings have their pages, and the latter are unchanged. -/
structure Held {R : Type} (W : World R) (o : Part → Option Ppn) (z : Option Ppn) (s t : Mem) :
    Prop where
  books : Books W.L (Sum.elim W.r o) s.free
  frame : ∀ h q, W.r h = some q → s.page q = W.c q
  alike : Alike (fun q => W.D q ∨ z = some q) s t

/-- The directory `d` with the mappings `U`. -/
structure At {R : Type} (W : World R) (d : Option Ppn) (g : Bool → Option Ppn) (z : Option Ppn)
    (U : Nat → Option Word) (s t : Mem) : Prop extends Held W (own s.page d g) z s t where
  view : ∀ d', d = some d' → ∀ n < 2 ^ 20, lookup s.page d' (vaOf n) = U n

/-- `At` with no page being filled. -/
abbrev Maps {R : Type} (W : World R) (d : Ppn) (g : Bool → Option Ppn) (U : Nat → Option Word) :=
  At W (some d) g none U

/-- The user pages hold what `C` says. -/
def Contents (U : Nat → Option Word) (C : Nat → Page) (m : Ppn → Page) : Prop :=
  ∀ n < userPages, ∀ w, U n = some w → m (pteAddr w) = C n

/-- `Maps`, where page `n` has the contents `C n`. -/
structure Filled {R : Type} (W : World R) (d : Ppn) (g : Bool → Option Ppn) (U : Nat → Option Word)
    (C : Nat → Page) (s t : Mem) : Prop extends At W (some d) g none U s t where
  data : Contents U C s.page

/-- The user pages and the pages in hand are as in some memory of `V`. -/
def Spared (V : (Ppn → Page) → Prop) (d : Ppn) (g : Bool → Option Ppn) (s : Mem) : Prop :=
  ∃ m, V m ∧ ∀ x q, own s.page (some d) g x = some q → x ≠ .dir → (∀ i, x ≠ .table i) →
    s.page q = m q

section
variable {R : Type} {W : World R} {d : Option Ppn} {g : Bool → Option Ppn} {z : Option Ppn}
  {U : Nat → Option Word} {s t : Mem} {E : String → Mem → Mem → Prop}

namespace Held

variable {o : Part → Option Ppn} {p p' : Part} {q : Ppn} {h : R}

section
variable (ha : Held W o z s t)
include ha

theorem own_not_free (hp : o p = some q) : W.L.Managed q ∧ q ∉ s.free :=
  ha.books.not_free (h := (Sum.inr p : R ⊕ Part)) hp

theorem own_ne_rest (hp : o p = some q) (h : R) : W.r h ≠ some q := fun hr => by
  have := ha.books.inj (h := (Sum.inr p : R ⊕ Part)) (k := .inl h) hp hr
  cases this

theorem own_inj {r : Part} (hp : o p = some q) (hr : o r = some q) : p = r :=
  Sum.inr.inj (ha.books.inj (h := (Sum.inr p : R ⊕ Part)) (k := .inr r) hp hr)

theorem same (hp : o p = some q) (hz : z ≠ some q) : t.page q = s.page q := by
  refine ha.alike.page q (ha.own_not_free hp).2 ?_
  rintro (hD | hq)
  · obtain ⟨h, hh⟩ := W.rest q hD
    exact ha.own_ne_rest hp h hh
  · exact hz hq

theorem same_rest (hr : W.r h = some q) (hD : ¬ W.D q) (hz : z ≠ some q) :
    t.page q = s.page q :=
  ha.alike.page q (ha.books.not_free (h := (Sum.inl h : R ⊕ Part)) hr).2 <| by
    rintro (hq | hq)
    · exact hD hq
    · exact hz hq

theorem setPage {o' : Part → Option Ppn} {z' : Option Ppn} (hp : o p = some q)
    (hb : Books W.L (Sum.elim W.r o') s.free) (hz : ∀ q', z = some q' → q' ≠ q → z' = some q')
    (pg : Page) :
    Held W o' z' (s.setPage q pg) (t.setPage q pg) := by
  refine ⟨hb, fun h q' hr => ?_, ha.alike.free, ha.alike.oom, fun q' hf hD => ?_⟩
  · refine (update_of_ne ?_ _ _).trans (ha.frame h q' hr)
    rintro rfl
    exact ha.own_ne_rest hp h hr
  · show update t.page q pg q' = update s.page q pg q'
    by_cases hq : q' = q
    · rw [hq, update_self, update_self]
    · rw [update_of_ne hq, update_of_ne hq]
      exact ha.alike.page q' hf fun h => hD (h.imp_right fun h => hz q' h hq)

end

end Held

namespace At

variable {d : Ppn} {dd : Option Ppn} {p : Part} {q : Ppn}

theorem same_dir (ha : Maps W d g U s t) : t.page d = s.page d :=
  ha.same (p := .dir) (q := d) rfl nofun

theorem same_table (ha : Maps W d g U s t) {t' : Ppn} (ht : target (s.page d i) = some t') :
    t.page t' = s.page t' :=
  ha.same (p := .table i) ht nofun

theorem own_page (ha : At W (some d) g z U s t) {n : Nat} (hn : n < userPages) (hw : U n = some w) :
    own s.page (some d) g (.page n) = some (pteAddr w) := by
  have hn' : n < 2 ^ 20 := lt_pages hn
  simp [own, hn, ha.view d rfl n hn', hw]

theorem set_data (ha : At W dd g z U s t) {z' : Option Ppn} {pg : Page}
    (hq : own s.page dd g p = some q) (hp : p ≠ .dir) (hp' : ∀ i, p ≠ .table i)
    (hz : ∀ q', z = some q' → q' ≠ q → z' = some q') :
    At W dd g z' U (s.setPage q pg) (t.setPage q pg) := by
  have hc : ∀ d', dd = some d' → (s.setPage q pg).page d' = s.page d' ∧
      ∀ i t', target (s.page d' i) = some t' → (s.setPage q pg).page t' = s.page t' := by
    rintro d' rfl
    refine ⟨update_of_ne ?_ _ _, fun i t' ht => update_of_ne ?_ _ _⟩
    · rintro rfl
      exact hp (ha.own_inj hq (r := .dir) rfl)
    · rintro rfl
      exact hp' i (ha.own_inj hq (r := .table i) ht)
  have ho := own_congr (g := g) hc
  refine ⟨ha.setPage hq (by rw [ho]; exact ha.books) hz pg, fun d' hd n hn => ?_⟩
  rw [lookup_congr (hc d' hd).1 (hc d' hd).2]
  exact ha.view d' hd n hn

end At

/-! ## Primitives -/

theorem own_hand (m : Ppn → Page) (d : Option Ppn) (g : Bool → Option Ppn)
    (b : Bool) (v : Option Ppn) :
    own m d (update g b v) = update (own m d g) (.hand b) v := by
  funext p
  cases p <;> simp [own, update_apply]

theorem kalloc_none {s : Mem} (h : s.oom.head? = some true ∨ s.free = []) :
    kalloc s = .ok none { s with oom := s.oom.tail } := by
  unfold kalloc
  rcases h with h | h
  · simp only [h]
  · simp only [h]
    split <;> first | rfl | cases ‹_ = _ :: _›

theorem kalloc_some {s : Mem} {l : List Ppn} (h : s.oom.head? ≠ some true) (hf : s.free = p :: l) :
    kalloc s = .ok (some p) { s with free := l, oom := s.oom.tail } := by
  unfold kalloc
  simp only [hf]

theorem kalloc_twin (hb : g b = none) (V : (Ppn → Page) → Prop) :
    Twin (fun s t => At W d g none U s t ∧ V s.page) kalloc (fun v s t => V s.page ∧
      match v with
      | none => At W d g none U s t
      | some p => At W d (update g b (some p)) (some p) U s t) E := by
  rintro s t ⟨ha, hV⟩
  have hf := ha.alike.free
  have ho := ha.alike.oom
  by_cases h0 : s.oom.head? = some true ∨ s.free = []
  · have h0' : t.oom.head? = some true ∨ t.free = [] := by rwa [ho, hf]
    rw [kalloc_none h0, kalloc_none h0']
    exact ⟨rfl, hV, ⟨ha.books, ha.frame, ⟨hf, by rw [ho], ha.alike.page⟩⟩, ha.view⟩
  obtain ⟨hoom, hne⟩ := not_or.1 h0
  obtain ⟨p, l, hl⟩ := List.exists_cons_of_ne_nil hne
  rw [kalloc_some hoom hl, kalloc_some (by rwa [ho]) (hf.trans hl)]
  have hbk := ha.books
  rw [hl] at hbk
  refine ⟨rfl, hV, ⟨?_, ha.frame, ⟨rfl, by rw [ho], fun q hq hD => ha.alike.page q ?_ ?_⟩⟩, ha.view⟩
  · show Books W.L (Sum.elim W.r (own s.page d _)) l
    classical
    rw [own_hand, elim_update]
    exact hbk.take (h := (Sum.inr (.hand b) : R ⊕ Part)) hb
  · rw [hl]
    rintro (_ | ⟨_, hq'⟩)
    · exact hD (.inr rfl)
    · exact hq hq'
  · rintro (h1 | h1)
    · exact hD (.inl h1)
    · cases h1

theorem memset_twin (hb : g b = some p) (V : (Ppn → Page) → Prop) :
    Twin (fun s t => At W d g (some p) U s t ∧ V s.page) (memset p w)
      (fun _ s t => At W d g none U s t ∧ s.page p = Page.const w ∧
        ∃ m, V m ∧ ∀ q, q ≠ p → s.page q = m q) E :=
  .modify fun s _ ha => ⟨ha.1.set_data (p := .hand b) hb nofun nofun fun _ hq hne =>
      absurd (Option.some.inj hq).symm hne, update_self ..,
    s.page, ha.2, fun _ hq => update_of_ne hq _ _⟩

theorem kfree_twin {o : Part → Option Ppn} {p : Part} {q : Ppn} (hp : o p = some q)
    (V : (Ppn → Page) → Prop) :
    Twin (fun s t => Held W o none s t ∧ V s.page) (kfree W.L q)
      (fun _ s t => Held W (update o p none) none s t ∧
        ∃ m, V m ∧ ∀ q', q' ≠ q → s.page q' = m q') E := by
  rintro s t ⟨ha, hV⟩
  have hq : Sum.elim W.r o (Sum.inr p) = some q := hp
  obtain ⟨hm, -⟩ := ha.books.not_free hq
  unfold kfree
  rw [if_pos hm]
  refine ⟨rfl, ⟨?_, fun h q' hr => ?_, by simp [ha.alike.free], ha.alike.oom,
    fun q' hf hD => ?_⟩, s.page, hV, fun q' hne => update_of_ne hne _ _⟩
  · classical
    rw [elim_update]
    exact ha.books.drop hq
  · refine (update_of_ne ?_ _ _).trans (ha.frame h q' hr)
    rintro rfl
    cases ha.books.inj (h := (Sum.inl h : R ⊕ Part)) hr hq
  · obtain ⟨hne, hf'⟩ := not_or.1 (mt List.mem_cons.2 hf)
    show update t.page q _ q' = update s.page q _ q'
    rw [update_of_ne hne, update_of_ne hne]
    exact ha.alike.page q' hf' hD

theorem kfree_hand (hb : g b = some p) :
    Twin (At W d g none U) (kfree W.L p) (fun _ => At W d (update g b none) none U) E := by
  intro s t ha
  have h1 := (kfree_twin (o := own s.page d g) (p := .hand b) (E := E) hb fun m => m = s.page) s t
    ⟨ha.toHeld, rfl⟩
  have hc : ∀ m : Ppn → Page, (∀ q', q' ≠ p → m q' = s.page q') → ∀ d', d = some d' →
      m d' = s.page d' ∧ ∀ i t', target (s.page d' i) = some t' → m t' = s.page t' := by
    rintro m hm d' rfl
    refine ⟨hm d' ?_, fun i t' ht => hm t' ?_⟩
    · rintro rfl
      cases ha.own_inj (p := .hand b) hb (r := .dir) rfl
    · rintro rfl
      cases ha.own_inj (p := .hand b) hb (r := .table i) ht
  revert h1
  cases kfree W.L p s <;> cases kfree W.L p t <;> intro h1
  · obtain ⟨he, h2, m, rfl, hm⟩ := h1
    refine ⟨he, ?_, fun d' hd n hn => ?_⟩
    · rw [own_congr (hc _ hm), own_hand]
      exact h2
    · rw [lookup_congr (hc _ hm d' hd).1 (hc _ hm d' hd).2]
      exact ha.view d' hd n hn
  · exact h1
  · exact h1
  · exact h1

theorem hand_emptied {g : Bool → Option Ppn} (h : g b = none) (v : Option Ppn) :
    update (update g b v) b none = g := by
  rw [update_idem, ← h, update_eq_self]

/-! ## Walking a directory -/

section
variable {d : Ppn} {va : Nat}

theorem walkpgdir_eq (d : Ppn) (va : Nat) (s : Mem) : walkpgdir d va false s =
    .ok ((target (s.page d (pdx va))).map fun t => (t, ptx va)) s := by
  show (if present (s.page d (pdx va)) then _ else _ : M _) s = _
  by_cases hp : present (s.page d (pdx va)) = true
  · rw [if_pos hp, target_of_present hp]
    rfl
  · rw [if_neg hp, target_eq_none.2 hp]
    rfl

theorem walkpgdir_twin {P : Mem → Mem → Prop} (hP : ∀ s t, P s t → t.page d = s.page d) :
    Twin P (walkpgdir d va false)
      (fun v s t => P s t ∧ v = (target (s.page d (pdx va))).map fun t' => (t', ptx va)) E := by
  unfold walkpgdir
  refine (Twin.reads (E := E) (g := fun s => s.page d (pdx va)) fun s t h => by rw [hP s t h]).bind
    fun pde => .ite (fun hp => .pure ?_) fun hp => .ite (fun _ => .pure ?_) fun h => by simp at h
  · rintro s t ⟨h, rfl⟩
    exact ⟨h, by rw [target_of_present hp]; rfl⟩
  · rintro s t ⟨h, rfl⟩
    exact ⟨h, by rw [target_eq_none.2 hp]; rfl⟩

abbrev Mem.setWord (s : Mem) (p : Ppn) (i : Fin 1024) (w : Word) : Mem :=
  s.setPage p (update (s.page p) i w)

theorem At.enter {pgtab : Ppn} {f : BitVec 12} (ha : Maps W d g U s t)
    (hg : g true = some pgtab) (h0 : s.page pgtab = Page.const 0) (hi : target (s.page d i) = none)
    (hf : f.getLsbD 0 = true) :
    Maps W d (update g true none) U (s.setWord d i (pte pgtab f))
      (t.setWord d i (pte pgtab f)) := by
  have hd : own s.page (some d) g .dir = some d := rfl
  have hne : pgtab ≠ d := by
    rintro rfl
    cases ha.own_inj (p := .hand true) hg hd
  have htab : ∀ j t', target (s.page d j) = some t' → t' ≠ d := by
    rintro j t' ht rfl
    cases ha.own_inj (p := .table j) ht hd
  have hpt : target (pte pgtab f) = some pgtab := by
    rw [target_of_present (by rwa [present_pte]), pteAddr_pte]
  have hlook : ∀ va, lookup (s.setWord d i (pte pgtab f)).page d va =
      lookup s.page d va := by
    intro va
    simp only [lookup, Mem.setPage, update_self]
    by_cases hv : pdx va = i
    · subst hv
      simp [hpt, hi, update_of_ne hne, h0, Page.const]
    · rw [update_of_ne hv]
      cases ht : target (s.page d (pdx va)) with
      | none => rfl
      | some t' => simp [update_of_ne (htab _ t' ht)]
  have hown : own (s.setWord d i (pte pgtab f)).page (some d) (update g true none) = update
        (update (own s.page (some d) g) (.hand true) none) (.table i) (some pgtab) := by
    rw [← own_hand]
    funext p
    cases p with
    | dir => simp [own]
    | table j =>
      by_cases hj : j = i
      · subst hj
        simp [own, Mem.setPage, hpt]
      · simp [own, Mem.setPage, hj]
    | page n => simp [own, hlook]
    | hand b => simp [own]
  refine ⟨?_, fun d' hd' n hn => ?_⟩
  · rw [Mem.setWord, Mem.setWord, ha.same_dir]
    refine ha.setPage hd ?_ nofun _
    rw [hown]
    exact ha.books.move hg hi
  · cases hd'
    rw [hlook]
    exact ha.view d rfl n hn

theorem walkpgdir_alloc_twin (hg : g true = none) (V : (Ppn → Page) → Prop) :
    Twin (fun s t => Maps W d g U s t ∧ V s.page) (walkpgdir d va true)
      (fun v s t => (Maps W d g U s t ∧ Spared V d g s) ∧
        ∀ e, v = some e → e.2 = ptx va ∧ target (s.page d (pdx va)) = some e.1) E := by
  unfold walkpgdir
  refine (Twin.reads (E := E) (g := fun s => s.page d (pdx va))
    fun s t h => by rw [h.1.same_dir]).bind
    fun pde => .ite (fun hp => .pure ?_) fun hp => .ite (fun h => by simp at h) fun _ => ?_
  · rintro s t ⟨⟨h, hV⟩, rfl⟩
    refine ⟨⟨h, s.page, hV, fun _ _ _ _ _ => rfl⟩, fun e he => ?_⟩
    cases he
    exact ⟨rfl, target_of_present hp⟩
  refine ((kalloc_twin (W := W) (U := U) (d := some d) (b := true) hg fun m =>
    target (m d (pdx va)) = none ∧ V m).pre ?_).bind fun v => ?_
  · rintro s t ⟨⟨h, hV⟩, rfl⟩
    exact ⟨h, target_eq_none.2 hp, hV⟩
  cases v with
  | none => exact .pure fun s t h => ⟨⟨h.2, s.page, h.1.2, fun _ _ _ _ _ => rfl⟩, nofun⟩
  | some pgtab =>
    have hpt : update g true (some pgtab) true = some pgtab := update_self ..
    refine ((memset_twin hpt fun m => target (m d (pdx va)) = none ∧ V m).pre
      fun s t h => h.symm).bind fun _ => ?_
    refine (Twin.modify (Q := fun _ s t => (Maps W d g U s t ∧ Spared V d g s) ∧
      target (s.page d (pdx va)) = some pgtab) ?_).bind fun _ => .pure ?_
    · rintro s t ⟨h, h0, m, ⟨hm, hV⟩, hne⟩
      have hd : d ≠ pgtab := by
        rintro rfl
        cases h.own_inj (p := .dir) rfl (r := .hand true) hpt
      have h1 := h.enter (f := pteP ||| pteW ||| pteU) hpt h0 (by rwa [hne d hd]) (by decide)
      rw [hand_emptied hg] at h1
      have ht : target ((s.setWord d (pdx va) (pte pgtab (pteP ||| pteW ||| pteU))).page d (pdx va)) =
          some pgtab := by
        simp only [Mem.setPage, update_self]
        rw [target_of_present (by rw [present_pte]; decide), pteAddr_pte]
      refine ⟨⟨h1, m, hV, fun x q hx hxd hxt => ?_⟩, ht⟩
      have hqd : q ≠ d := fun he => hxd (h1.own_inj hx (r := .dir) (by rw [he]; rfl))
      refine (update_of_ne hqd _ _).trans (hne q fun he => hxt (pdx va) (h1.own_inj hx ?_))
      rwa [he]
    · rintro s t ⟨h, ht⟩
      refine ⟨h, fun e he => ?_⟩
      cases he
      exact ⟨rfl, ht⟩

theorem At.fill {C : Nat → Page} (ha : At W (some d) g (some p) U s t) (hC : Contents U C s.page)
    (hb : g b = some p) (pg : Page) : Filled W d g U C (s.setPage p pg) (t.setPage p pg) := by
  refine ⟨ha.set_data (p := .hand b) hb nofun nofun
    fun _ hq hne => absurd (Option.some.inj hq).symm hne,
    fun n hn w hw => (update_of_ne ?_ _ _).trans (hC n hn w hw)⟩
  rintro rfl
  cases ha.own_inj (ha.own_page hn hw) (r := .hand b) hb

/-! ## Table entries -/

variable {tab : Ppn} {n : Nat} {w : Word}

theorem At.table_ne (ha : At W (some d) g z U s t) (ht : target (s.page d i) = some tab) :
    tab ≠ d := by
  rintro rfl
  cases ha.own_inj (p := .table i) ht (r := .dir) rfl

theorem At.lookup_wr (ha : At W (some d) g z U s t) (hn : n < 2 ^ 20)
    (ht : target (s.page d (pdx (vaOf n))) = some tab) {n' : Nat} (hn' : n' < 2 ^ 20) :
    lookup (update s.page tab (update (s.page tab) (ptx (vaOf n)) w)) d (vaOf n') =
      if n' = n then entry w else lookup s.page d (vaOf n') := by
  have hne := ha.table_ne ht
  unfold lookup
  rw [update_of_ne hne.symm]
  by_cases hnn : n' = n
  · subst hnn
    simp [ht]
  rw [if_neg hnn]
  cases ht' : target (s.page d (pdx (vaOf n'))) with
  | none => rfl
  | some t' =>
    simp only [Option.bind_some]
    by_cases htt : t' = tab
    · subst htt
      have hi : pdx (vaOf n') = pdx (vaOf n) :=
        Part.table.inj (ha.own_inj (p := .table _) ht' (r := .table _) ht)
      rw [update_self, update_of_ne fun hj => hnn (vaOf_inj hn hn' hi hj)]
    · rw [update_of_ne htt]

theorem At.own_wr (ha : At W (some d) g z U s t) (hn : n < 2 ^ 20)
    (ht : target (s.page d (pdx (vaOf n))) = some tab) (g' : Bool → Option Ppn) :
    own (update s.page tab (update (s.page tab) (ptx (vaOf n)) w)) (some d) g' =
      update (own s.page (some d) g') (.page n) (if n < userPages then target w else none) := by
  have hne := ha.table_ne ht
  funext p
  cases p with
  | dir => simp [own]
  | table i => simp [own, update_of_ne hne.symm]
  | hand b => simp [own]
  | page n' =>
    by_cases hnn : n' = n
    · subst hnn
      simp only [own, update_self, Option.bind_some, ha.lookup_wr hn ht hn, if_true]
      rfl
    · rw [update_of_ne (by simpa using hnn)]
      by_cases hu : n' < userPages
      · have hn' : n' < 2 ^ 20 := lt_pages hu
        simp only [own, Option.bind_some, ha.lookup_wr hn ht hn', if_neg hnn]
      · simp [own, hu]

section
variable (ha : Maps W d g U s t)
include ha

theorem At.set_entry (hn : n < 2 ^ 20)
    (ht : target (s.page d (pdx (vaOf n))) = some tab) {g' : Bool → Option Ppn}
    (hb : Books W.L (Sum.elim W.r (update (own s.page (some d) g') (.page n)
      (if n < userPages then target w else none))) s.free) :
    Maps W d g' (update U n (entry w)) (s.setWord tab (ptx (vaOf n)) w)
      (t.setWord tab (ptx (vaOf n)) w) := by
  rw [← ha.own_wr hn ht] at hb
  refine ⟨?_, fun d' hd n' hn' => ?_⟩
  · rw [Mem.setWord, Mem.setWord, ha.same_table ht]
    exact ha.setPage (p := .table _) ht hb nofun _
  · cases hd
    refine (ha.lookup_wr hn ht hn').trans ?_
    rw [update_apply, ha.view d rfl n' hn']

theorem At.map_kernel (hn : n < 2 ^ 20) (hu : userPages ≤ n)
    (ht : target (s.page d (pdx (vaOf n))) = some tab) :
    Maps W d g (update U n (entry w)) (s.setWord tab (ptx (vaOf n)) w)
      (t.setWord tab (ptx (vaOf n)) w) := by
  refine ha.set_entry hn ht ?_
  rw [if_neg (by omega), update_eq_self_iff.2]
  · exact ha.books
  · simp [own, Nat.not_lt.2 hu]

theorem At.map_user (hu : n < userPages)
    (ht : target (s.page d (pdx (vaOf n))) = some tab) (hb : g b = some p) (hw : target w = some p)
    (hU : U n = none) :
    Maps W d (update g b none) (update U n (entry w)) (s.setWord tab (ptx (vaOf n)) w)
      (t.setWord tab (ptx (vaOf n)) w) := by
  have hn : n < 2 ^ 20 := lt_pages hu
  refine ha.set_entry hn ht ?_
  rw [if_pos hu, hw, own_hand]
  refine ha.books.move hb ?_
  simp [own, ha.view d rfl n hn, hU]

theorem At.unmap {w₀ : Word} (hu : n < userPages)
    (ht : target (s.page d (pdx (vaOf n))) = some tab) (hb : g b = none) (hU : U n = some w₀) :
    At W (some d) (update g b (some (pteAddr w₀))) none (update U n none)
    (s.setWord tab (ptx (vaOf n)) 0)
      (t.setWord tab (ptx (vaOf n)) 0) := by
  have hn : n < 2 ^ 20 := lt_pages hu
  have hp := ha.own_page hu hU
  refine ha.set_entry (w := 0) hn ht ?_
  rw [if_pos hu, own_hand, update_comm (by simp)]
  exact ha.books.move hp hb

theorem At.reflag {w₀ : Word} (hu : n < userPages)
    (ht : target (s.page d (pdx (vaOf n))) = some tab) (hU : U n = some w₀)
    (hw : target w = some (pteAddr w₀)) :
    Maps W d g (update U n (entry w)) (s.setWord tab (ptx (vaOf n)) w)
      (t.setWord tab (ptx (vaOf n)) w) := by
  have hn : n < 2 ^ 20 := lt_pages hu
  refine ha.set_entry hn ht ?_
  rw [if_pos hu, hw, ← ha.own_page hu hU, update_eq_self]
  exact ha.books

end

end

end

end Xv6.Vm
