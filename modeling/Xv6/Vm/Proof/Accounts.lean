import Xv6.Vm.Proof.Exec
import Mathlib.Logic.Function.Basic

/-!
# The accounts of the whole machine

`Accounts` lists the directories, kernel stacks and pipes of the machine; with the memory it gives
the owner of each page (`holds`). `Joint` is `Books` for all owners, together with what each
directory maps, for two states that differ only in free pages and in the contents of kernel stacks
and pipes. A call that works on one directory is proved with the rest of the machine as its `World`
(`Joint.call`).
-/

namespace Xv6.Vm

open Lib Function

/-- A process has a directory, and in `exec` a second one; `none` is for one that has no process
yet. -/
abbrev Key := Option (Fin nproc × Bool)

/-- The page directories, kernel stacks and pipes there are. -/
structure Accounts where
  dir : Key → Option Ppn
  extra : Fin nproc ⊕ Nat → Option Ppn

/-- Who can own a page: a directory in one of its parts, a kernel stack or a pipe. -/
inductive Holder
  | own (k : Key) (p : Part)
  | extra (x : Fin nproc ⊕ Nat)
  deriving DecidableEq

namespace Accounts

/-- The page that a holder has. -/
def holds (A : Accounts) (m : Ppn → Page) : Holder → Option Ppn
  | .own k p => own m (A.dir k) empty p
  | .extra x => A.extra x

/-- A kernel stack or a pipe, whose bytes are not modelled. -/
def Dirty (A : Accounts) (q : Ppn) : Prop := ∃ x, A.extra x = some q

def setDir (A : Accounts) (k : Key) (d : Option Ppn) : Accounts :=
  { A with dir := update A.dir k d }

def setExtra (A : Accounts) (x : Fin nproc ⊕ Nat) (v : Option Ppn) : Accounts :=
  { A with extra := update A.extra x v }

/-- All but the holders of directory `k`. -/
abbrev Others (k : Key) := { h : Holder // ∀ p, h ≠ .own k p }

/-- What surrounds the directory `k`. -/
def world (L : Layout) (A : Accounts) (k : Key) (s : Mem) : World (Others k) where
  L := L
  r := fun h => A.holds s.page h.1
  c := s.page
  D := A.Dirty
  rest := fun _ ⟨x, hx⟩ => ⟨⟨.extra x, nofun⟩, hx⟩

end Accounts

/-- The accounts hold in both memories, with the mappings `V`. -/
structure Joint (L : Layout) (A : Accounts) (V : Key → Nat → Option Word) (s t : Mem) : Prop where
  books : Books L (A.holds s.page) s.free
  alike : Alike A.Dirty s t
  view : ∀ k d, A.dir k = some d → ∀ n < 2 ^ 20, lookup s.page d (vaOf n) = V k n

theorem Books.reindex {L : Layout} {H H' : Type} {hold : H → Option Ppn} {hold' : H' → Option Ppn}
    {free : List Ppn} (h : Books L hold free) (f : H' → H) (hf : Injective f)
    (heq : ∀ a, hold' a = hold (f a)) (hs : ∀ b, ∃ a, f a = b) : Books L hold' free := by
  refine ⟨⟨fun a q hq => h.ledger.held (f a) q (heq a ▸ hq), fun {a b q} ha hb => hf ?_,
    fun q hq => .inr ?_, nofun⟩, h.managed, h.nodup⟩
  · exact h.ledger.excl (heq a ▸ ha) (heq b ▸ hb)
  · obtain ⟨b, hb⟩ := (h.ledger.cover q hq).resolve_left id
    obtain ⟨a, rfl⟩ := hs b
    exact ⟨a, (heq a).trans hb⟩

section
variable {L : Layout} {A : Accounts} {V : Key → Nat → Option Word} {s t s₀ t₀ : Mem} {k : Key}
  {α : Type} {E : String → Mem → Mem → Prop}
variable {U : Nat → Option Word} {x : Fin nproc ⊕ Nat}

/-- A part of directory `k` as a holder. -/
def fromParts (k : Key) : Accounts.Others k ⊕ Part → Holder
  | .inl h => h.1
  | .inr p => .own k p

/-- The inverse of `fromParts`. -/
def toParts (k : Key) : Holder → Accounts.Others k ⊕ Part
  | .own k' p => if h : k' = k then .inr p else .inl ⟨.own k' p, fun _ he => h (by cases he; rfl)⟩
  | .extra x => .inl ⟨.extra x, nofun⟩

theorem fromParts_toParts (h : Holder) : fromParts k (toParts k h) = h := by
  cases h with
  | extra x => rfl
  | own k' p =>
    by_cases hk : k' = k
    · subst hk
      simp [toParts, fromParts]
    · simp [toParts, fromParts, hk]

theorem toParts_fromParts (a : Accounts.Others k ⊕ Part) : toParts k (fromParts k a) = a := by
  rcases a with ⟨h, hh⟩ | p
  · cases h with
    | extra x => rfl
    | own k' p =>
      have hk : k' ≠ k := by
        rintro rfl
        exact hh p rfl
      simp [fromParts, toParts, hk]
  · simp [fromParts, toParts]

theorem Joint.focus (h : Joint L A V s t) (k : Key) :
    At (A.world L k s) (A.dir k) empty none (V k) s t := by
  refine ⟨⟨h.books.reindex (fromParts k) (LeftInverse.injective toParts_fromParts) ?_
    fun h => ⟨toParts k h, fromParts_toParts h⟩, fun _ _ _ => rfl, h.alike.free,
    h.alike.oom, fun q hf hD => h.alike.page q hf fun hd => hD (.inl hd)⟩,
    fun d hd n hn => h.view k d hd n hn⟩
  rintro (a | a) <;> rfl

theorem Joint.others_same {d : Option Ppn} (ha : At (A.world L k s₀) d empty none U s t) {k' : Key}
    (hk : k' ≠ k) :
    ∀ d', A.dir k' = some d' → s.page d' = s₀.page d' ∧
      ∀ i tab, target (s₀.page d' i) = some tab → s.page tab = s₀.page tab := by
  intro d' hd'
  have hne : ∀ p p', Holder.own k' p ≠ .own k p' := fun p p' he => by
    cases he
    exact hk rfl
  refine ⟨ha.frame ⟨.own k' .dir, hne _⟩ d' hd',
    fun i tab ht => ha.frame ⟨.own k' (.table i), hne _⟩ tab ?_⟩
  show own s₀.page (A.dir k') empty (.table i) = some tab
  rw [hd']
  exact ht

theorem Joint.unfocus (h₀ : Joint L A V s₀ t₀) {d : Option Ppn}
    (ha : At (A.world L k s₀) d empty none U s t) :
    Joint L (A.setDir k d) (update V k U) s t := by
  refine ⟨?_, ⟨ha.alike.free, ha.alike.oom, fun q hf hD => ha.alike.page q hf ?_⟩,
    fun k' d' hd' n hn => ?_⟩
  · -- The parts of `k` own what they own now, and the others what they owned before.
    have hb : Books L (Sum.elim (A.world L k s₀).r (own s.page d empty)) s.free := ha.books
    refine hb.reindex (toParts k) (LeftInverse.injective fromParts_toParts) (fun a => ?_)
      fun b => ⟨fromParts k b, toParts_fromParts b⟩
    cases a with
    | extra x => rfl
    | own k' p =>
      by_cases hk : k' = k
      · subst hk
        simp [toParts, Accounts.holds, Accounts.setDir]
      · simp only [toParts, hk, Accounts.holds, Accounts.setDir, update_of_ne hk]
        exact congrFun (own_congr (others_same ha hk)) p
  · rintro (h | h)
    · exact hD h
    · cases h
  · by_cases hk : k' = k
    · subst hk
      simp only [Accounts.setDir, update_self] at hd' ⊢
      exact ha.view d' hd' n hn
    · simp only [Accounts.setDir, update_of_ne hk] at hd' ⊢
      obtain ⟨h1, h2⟩ := others_same ha hk d' hd'
      rw [lookup_congr h1 h2]
      exact h₀.view k' d' hd' n hn

theorem Joint.call {x : M α} {Φ : α → Option Ppn → (Nat → Option Word) → Prop} (k : Key)
    (hx : ∀ s₀ t₀, Joint L A V s₀ t₀ → Twin (At (A.world L k s₀) (A.dir k) empty none (V k)) x
      (fun v s t => ∃ d U, Φ v d U ∧ At (A.world L k s₀) d empty none U s t) E) :
    Twin (Joint L A V) x (fun v s t =>
      ∃ d U, Φ v d U ∧ Joint L (A.setDir k d) (update V k U) s t) E :=
  fun s t h => ((hx s t h).post fun _ _ _ ⟨d, U, hΦ, ha⟩ => ⟨d, U, hΦ, h.unfocus ha⟩) s t (h.focus k)

theorem holds_setExtra (x : Fin nproc ⊕ Nat) (v : Option Ppn) (m : Ppn → Page) :
    (A.setExtra x v).holds m = update (A.holds m) (.extra x) v := by
  funext h
  cases h <;> simp [Accounts.holds, Accounts.setExtra, update_apply]

theorem Joint.kalloc (hx : A.extra x = none) :
    Twin (Joint L A V) kalloc (fun v s t => Joint L (A.setExtra x v) V s t) E := by
  intro s t h
  have hf := h.alike.free
  have ho := h.alike.oom
  by_cases h0 : s.oom.head? = some true ∨ s.free = []
  · have h0' : t.oom.head? = some true ∨ t.free = [] := by rwa [ho, hf]
    rw [kalloc_none h0, kalloc_none h0']
    have hA : A.setExtra x none = A := by
      show Accounts.mk A.dir (update A.extra x none) = A
      rw [← hx, update_eq_self]
    refine ⟨rfl, ?_⟩
    show Joint L (A.setExtra x none) V _ _
    rw [hA]
    exact ⟨h.books, ⟨hf, by rw [ho], h.alike.page⟩, h.view⟩
  obtain ⟨hoom, hne⟩ := not_or.1 h0
  obtain ⟨p, l, hl⟩ := List.exists_cons_of_ne_nil hne
  rw [kalloc_some hoom hl, kalloc_some (by rwa [ho]) (hf.trans hl)]
  have hbk := h.books
  rw [hl] at hbk
  refine ⟨rfl, ?_, ⟨rfl, by rw [ho], fun q hq hD => h.alike.page q ?_ fun ⟨y, hy⟩ => hD ⟨y, ?_⟩⟩,
    h.view⟩
  · rw [holds_setExtra]
    exact hbk.take hx
  · rw [hl]
    rintro (_ | ⟨_, hq'⟩)
    · exact hD ⟨x, update_self ..⟩
    · exact hq hq'
  · refine (update_of_ne ?_ _ _).trans hy
    rintro rfl
    rw [hx] at hy
    cases hy

theorem Joint.kfree {q : Ppn} (hx : A.extra x = some q) :
    Twin (Joint L A V) (kfree L q) (fun _ s t => Joint L (A.setExtra x none) V s t) E := by
  intro s t h
  have hq : A.holds s.page (.extra x) = some q := hx
  obtain ⟨hm, -⟩ := h.books.not_free hq
  have hown : ∀ k d, A.dir k = some d → update s.page q (freed s.free) d = s.page d ∧
      ∀ i tab, target (s.page d i) = some tab →
      update s.page q (freed s.free) tab = s.page tab := by
    refine fun k d hd => ⟨update_of_ne ?_ _ _, fun i tab ht => update_of_ne ?_ _ _⟩
    · rintro rfl
      have hd' : A.holds s.page (.own k .dir) = some d := hd
      cases h.books.inj hd' hq
    · rintro rfl
      have ht' : A.holds s.page (.own k (.table i)) = some tab := by
        simp only [Accounts.holds, own, hd, Option.bind_some, ht]
      cases h.books.inj ht' hq
  unfold Vm.kfree
  rw [if_pos hm]
  refine ⟨rfl, ?_, ⟨by simp [h.alike.free], h.alike.oom, fun q' hf hD => ?_⟩, fun k d hd n hn => ?_⟩
  · rw [holds_setExtra]
    have he : A.holds (update s.page q (freed s.free)) = A.holds s.page := by
      funext h'
      cases h' with
      | extra y => rfl
      | own k p => exact congrFun (own_congr (hown k)) p
    show Books L (update (A.holds (update s.page q (freed s.free))) _ none) (q :: s.free)
    rw [he]
    exact h.books.drop hq
  · obtain ⟨hne, hf'⟩ := not_or.1 (mt List.mem_cons.2 hf)
    show update t.page q _ q' = update s.page q _ q'
    rw [update_of_ne hne, update_of_ne hne]
    refine h.alike.page q' hf' fun ⟨y, hy⟩ => hD ⟨y, (update_of_ne ?_ _ _).trans hy⟩
    rintro rfl
    rw [hx] at hy
    exact hne (Option.some.inj hy).symm
  · refine (lookup_congr (hown k d hd).1 (hown k d hd).2 _).trans (h.view k d hd n hn)

theorem Joint.readable (h : Joint L A V s t) {r : Key} {d : Ppn} (hk : r ≠ k)
    (hd : A.dir r = some d) :
    Readable (A.world L k s) d := by
  have hne : ∀ p p', Holder.own r p ≠ .own k p' := fun p p' he => by
    cases he
    exact hk rfl
  have hD : ∀ p q, A.holds s.page (.own r p) = some q → ¬ A.Dirty q := fun p q hq ⟨x, hx⟩ => by
    have hx' : A.holds s.page (.extra x) = some q := hx
    cases h.books.inj hq hx'
  have hold : ∀ p q, A.holds s.page (.own r p) = some q → ∃ h', (A.world L k s).r h' = some q ∧
      ¬ (A.world L k s).D q := fun p q hq => ⟨⟨.own r p, hne p⟩, hq, hD p q hq⟩
  refine ⟨hold .dir d hd, fun i tab ht => hold (.table i) tab ?_,
    fun n hn w hw => hold (.page n) _ ?_⟩
  · simp only [Accounts.holds, own, hd, Option.bind_some]
    exact ht
  · have hw' : lookup s.page d (vaOf n) = some w := hw
    simp only [Accounts.holds, own, hd, Option.bind_some, if_pos hn, hw', Option.map_some]

theorem Joint.rename (h : Joint L A V s t) (σ : Key → Key) (hσ : Involutive σ) :
    Joint L { A with dir := A.dir ∘ σ } (V ∘ σ) s t := by
  let f : Holder → Holder
    | .own k p => .own (σ k) p
    | .extra x => .extra x
  have hf : Involutive f := by
    rintro (⟨k, p⟩ | x)
    · exact congrArg (Holder.own · p) (hσ k)
    · rfl
  refine ⟨h.books.reindex f hf.injective ?_ fun b => ⟨f b, hf b⟩, h.alike,
    fun k d hd n hn => h.view (σ k) d hd n hn⟩
  rintro (⟨k, p⟩ | x) <;> rfl

/-! ## The calls -/

variable {d : Ppn} {sz : Nat}

theorem growproc_joint {n : Int} (hd : A.dir k = some d) (hi : Image (V k) sz) :
    Twin (Joint L A V) (growproc L d sz n) (fun r s t =>
      ∃ d' U, (d' = some d ∧ Image U r.2) ∧ Joint L (A.setDir k d') (update V k U) s t) E :=
  Joint.call k fun s₀ _ _ => by
    rw [hd]
    exact (growproc_twin (W := A.world L k s₀) hi).post fun _ _ _ ⟨U, hi, h⟩ => ⟨_, U, ⟨rfl, hi⟩, h⟩

theorem freevm_joint (hd : A.dir k = some d) :
    Twin (Joint L A V) (freevm L d) (fun _ s t => Joint L (A.setDir k none) V s t) E := by
  refine (Joint.call (Φ := fun _ d' U => d' = none ∧ U = V k) k fun s₀ _ _ => ?_).post ?_
  · rw [hd]
    exact (freevm_twin (W := A.world L k s₀) rfl).post fun _ _ _ h => ⟨_, _, ⟨rfl, rfl⟩, h⟩
  · rintro _ s t ⟨_, _, ⟨rfl, rfl⟩, h⟩
    rwa [update_eq_self] at h

theorem setupkvm_joint (hd : A.dir k = none) :
    Twin (Joint L A V) (setupkvm L) (fun v s t => ∃ d' U, (d' = v ∧ (v ≠ none → KernelOnly U)) ∧
      Joint L (A.setDir k d') (update V k U) s t) E :=
  Joint.call k fun s₀ _ _ => by
    rw [hd]
    refine (setupkvm_twin (W := A.world L k s₀) rfl rfl).post fun v s t h => ?_
    cases v with
    | none => exact ⟨_, V k, ⟨rfl, fun h => absurd rfl h⟩, h⟩
    | some d =>
      obtain ⟨U, h, hk, -⟩ := h
      exact ⟨_, U, ⟨rfl, fun _ => hk⟩, h⟩

theorem Copied.image {c : Ppn → Page} {src : Ppn} {U₀ U : Nat → Option Word}
    (hc : Copied c src U₀ 0 (pagesBelow sz) U) (hk : KernelOnly U₀) (hsz : sz ≤ kernbase) :
    Image U sz := by
  have hp : pagesBelow sz ≤ userPages := pagesBelow_le.2 hsz
  refine ⟨hsz, fun m hm hne => Nat.lt_of_not_le fun hle => hne ?_, fun m w hm hw => ?_⟩
  · have := pagesBelow_le.2 hle
    rw [hc.same m (by omega), hk.user_none m hm]
  · rw [hc.same m (by omega)] at hw
    exact hk.not_user m w hw

theorem copyuvm_joint {r : Key} (hk : r ≠ k) (hd : A.dir k = none) (hd' : A.dir r = some d)
    (hsz : sz ≤ kernbase) (hE : Full (V r) sz ∨ ∀ e s t, E e s t) :
    Twin (Joint L A V) (copyuvm L d sz) (fun v s t => ∃ d' U, (d' = v ∧ (v ≠ none → Image U sz)) ∧
      Joint L (A.setDir k d') (update V k U) s t) E :=
  Joint.call k fun s₀ t₀ h₀ => by
    rw [hd]
    refine (copyuvm_data (W := A.world L k s₀) (h₀.readable hk hd') rfl rfl hsz
      (hE.imp_left fun h m hm => ?_)).post fun v s t h => ?_
    · obtain ⟨w, hw⟩ := h m hm
      have hu := lt_userPages (Nat.lt_of_lt_of_le hm hsz)
      show lookup s₀.page d (vaOf m) ≠ none
      rw [h₀.view r d hd' m (lt_pages hu), hw]
      nofun
    cases v with
    | none => exact ⟨_, V k, ⟨rfl, fun h => absurd rfl h⟩, h⟩
    | some d =>
      obtain ⟨U₀, U, h, hk₀, hc⟩ := h
      exact ⟨_, U, ⟨rfl, fun _ => hc.image hk₀ hsz⟩, h.toAt⟩

theorem inituvm_joint {init : Bytes} (hd : A.dir k = some d) (hk : KernelOnly (V k))
    (hE : ∀ e s t, e ≠ "remap" → E e s t) :
    Twin (Joint L A V) (inituvm d init)
    (fun _ s t => ∃ d' U, (d' = some d ∧ Image U pgsize ∧ Full U pgsize) ∧
      Joint L (A.setDir k d') (update V k U) s t) E :=
  Joint.call k fun s₀ _ _ => by
    rw [hd]
    exact (inituvm_twin (W := A.world L k s₀) hk hE).post fun _ _ _ ⟨U, hi, h⟩ =>
      ⟨_, U, ⟨rfl, hi⟩, h⟩

theorem next_joint {e : Exec} (hd : A.dir k = some e.pgdir) (he : StageOk (V k) e.stage)
    (hE : ∀ e s t, E e s t) :
    Twin (Joint L A V) (e.next L) (fun st s t => ∃ d' U, (d' = some e.pgdir ∧ StageOk U st) ∧
      Joint L (A.setDir k d') (update V k U) s t) E :=
  Joint.call k fun s₀ _ _ => by
    rw [hd]
    exact (next_twin (W := A.world L k s₀) he hE).post fun _ _ _ ⟨U, hs, h⟩ => ⟨_, U, ⟨rfl, hs⟩, h⟩

theorem Joint.call_same {x : M α} (hd : A.dir k = some d)
    (hx : ∀ W : World (Accounts.Others k), Twin (Maps W d empty (V k)) x
      (fun _ => Maps W d empty (V k)) E) :
    Twin (Joint L A V) x (fun _ s t => Joint L A V s t) E := by
  refine (Joint.call (Φ := fun _ d' U => d' = some d ∧ U = V k) k fun s₀ _ _ => ?_).post ?_
  · rw [hd]
    exact (hx _).post fun _ _ _ h => ⟨_, _, ⟨rfl, rfl⟩, h⟩
  · rintro _ s t ⟨_, _, ⟨rfl, rfl⟩, h⟩
    rw [update_eq_self] at h
    have hA : A.setDir k (some d) = A := by
      unfold Accounts.setDir
      rw [← hd, update_eq_self]
    rwa [hA] at h

end

end Xv6.Vm
