import Xv6.Vm.Proof.Ample
import Xv6.Vm.Proof.Machine
import Mathlib.Data.List.Nodup

/-!
# Page conservation and recycled pages

The two results about the machine: in every state that a run reaches, each page of the allocator is
free or has one owner, and the calls of vm.c that fail give back what they have taken; and what the
free pages held at some point does not show in any address space later.
-/

namespace Xv6.Vm

open Lib Function

/-! ## The start -/

theorem managed_ofNat {L : Layout} {f : Nat} (hf : f < 2 ^ 20) :
    L.Managed (BitVec.ofNat 20 f) ↔ L.firstPage ≤ f ∧ f < phystop / pgsize := by
  have h1 := L.text
  have h2 := L.lt
  have h3 : (BitVec.ofNat 20 f).toNat = f := by rw [BitVec.toNat_ofNat, Nat.mod_eq_of_lt hf]
  unfold Layout.Managed Layout.firstPage
  rw [h3]
  simp only [kernlink, kernbase, extmem, phystop, pgsize] at *
  omega

theorem freerange_ok {L : Layout} : ∀ (n f : Nat) (m : Mem), L.firstPage ≤ f →
    f + n ≤ phystop / pgsize →
    ∃ m', freerange L n (BitVec.ofNat 20 f) m = .ok () m' ∧
      m'.free = ((List.range' f n).map (BitVec.ofNat 20)).reverse ++ m.free
  | 0, f, m, _, _ => ⟨m, rfl, rfl⟩
  | n + 1, f, m, hf, hn => by
    have hlt : f < phystop / pgsize := by omega
    have hm : L.Managed (BitVec.ofNat 20 f) :=
      (managed_ofNat (Nat.lt_trans hlt (by decide))).2 ⟨hf, hlt⟩
    obtain ⟨m', h1, h2⟩ := freerange_ok (L := L) n (f + 1)
      { m.setPage (BitVec.ofNat 20 f) (freed m.free) with
      free := BitVec.ofNat 20 f :: m.free } (by omega) (by omega)
    refine ⟨m', ?_, ?_⟩
    · rw [BitVec.ofNat_add] at h1
      unfold freerange kfree
      rw [if_pos hm]
      exact h1
    · rw [h2, List.range'_succ, List.map_cons, List.reverse_cons, List.append_assoc]
      rfl

theorem kinit_ok (L : Layout) (page : Ppn → Page) : ∃ m, kinit L ⟨page, [], []⟩ = .ok () m ∧
    m.free.Nodup ∧ (∀ q, q ∈ m.free ↔ L.Managed q) ∧
    m.free.length = phystop / pgsize - L.firstPage := by
  have hle : L.firstPage ≤ phystop / pgsize := by
    have h1 := L.fits
    have h2 := L.text
    have h3 := L.lt
    simp only [Layout.firstPage, kernlink, kernbase, extmem, phystop, pgsize] at *
    omega
  have hlim : phystop / pgsize < 2 ^ 20 := by decide
  obtain ⟨m, h1, h2⟩ := freerange_ok (phystop / pgsize - L.firstPage) L.firstPage ⟨page, [], []⟩
    (Nat.le_refl _) (by omega)
  rw [List.append_nil] at h2
  refine ⟨m, h1, ?_, fun q => ?_, by rw [h2, List.length_reverse, List.length_map, List.length_range']⟩
  · rw [h2]
    refine List.nodup_reverse.2 ?_
    refine List.Nodup.map_on (fun a ha b hb hab => ?_) List.nodup_range'
    have hab' := congrArg BitVec.toNat hab
    simp only [List.mem_range'_1] at ha hb
    rwa [BitVec.toNat_ofNat, BitVec.toNat_ofNat, Nat.mod_eq_of_lt (by omega),
      Nat.mod_eq_of_lt (by omega)] at hab'
  · rw [h2, List.mem_reverse, List.mem_map]
    constructor
    · rintro ⟨f, hf, rfl⟩
      rw [List.mem_range'_1] at hf
      exact (managed_ofNat (by omega)).2 ⟨hf.1, by omega⟩
    · intro hq
      have hq' : L.Managed (BitVec.ofNat 20 q.toNat) := by rwa [BitVec.ofNat_toNat, BitVec.setWidth_eq]
      obtain ⟨ha, hb⟩ := (managed_ofNat q.isLt).1 hq'
      exact ⟨q.toNat, by rw [List.mem_range'_1]; omega, by rw [BitVec.ofNat_toNat, BitVec.setWidth_eq]⟩

theorem result_ok {α : Type} {x : M α} {m m' : Mem} {a : α} (h : x m = .ok a m') :
    result x m = some (a, m') := by
  rw [result, h]

theorem boot_ok (L : Layout) (page : Ppn → Page) :
    ∃ m, boot L page = some ⟨m, fun _ => none, fun _ => none⟩ ∧
    m.free.Nodup ∧ (∀ q, q ∈ m.free ↔ L.Managed q) ∧
    m.free.length = phystop / pgsize - L.firstPage := by
  obtain ⟨m, hm, h⟩ := kinit_ok L page
  refine ⟨m, ?_, h⟩
  rw [boot, result_ok hm]
  rfl

theorem boot_agree {L : Layout} {page : Ppn → Page} {s : State} (h : boot L page = some s) :
    Agree L s s := by
  obtain ⟨m, hb, hnd, hfree, -⟩ := boot_ok L page
  rw [hb] at h
  cases h
  refine ⟨rfl, rfl, fun _ _ => none,
    ⟨⟨⟨?_, ?_, fun q hq => ?_, nofun⟩, fun q hq => (hfree q).1 hq, hnd⟩,
    ⟨rfl, rfl, fun _ _ _ => rfl⟩, ?_⟩, nofun⟩
  · rintro (⟨_ | ⟨p, _ | _⟩, pt⟩ | (x | x)) q hq
    all_goals first
      | cases pt <;> simp [Accounts.holds, State.acct, State.dir, own] at hq
      | cases hq
  · rintro (⟨_ | ⟨p, _ | _⟩, pt⟩ | (x | x)) b q hq
    all_goals first
      | cases pt <;> simp [Accounts.holds, State.acct, State.dir, own] at hq
      | cases hq
  · exact absurd ((hfree q).2 hq.1) hq.2
  · rintro (_ | ⟨p, _ | _⟩) d hd <;> cases hd

theorem reach_agree {L : Layout} {page : Ppn → Page} {s₀ s : State} {cs : List Call}
    (h₀ : boot L page = some s₀) (h : run (step L) s₀ cs = some s) : Agree L s s := by
  have h1 := run_agree (boot_agree h₀) cs
  rwa [h] at h1

/-! ## Conservation -/

/-- The page that each holder has. -/
def State.owns (s : State) : Holder → Option Ppn := s.acct.holds s.mem.page

theorem Books.mem_free {L : Layout} {H : Type} {hold : H → Option Ppn} {free : List Ppn}
    (h : Books L hold free) (q : Ppn) : q ∈ free ↔ L.Managed q ∧ ∀ x, hold x ≠ some q := by
  constructor
  · exact fun hq => ⟨h.managed q hq, fun x hx => (h.not_free hx).2 hq⟩
  · rintro ⟨hm, hx⟩
    by_contra hq
    obtain ⟨x, hx'⟩ := (h.ledger.cover q ⟨hm, hq⟩).resolve_left id
    exact hx x hx'

section
variable {L : Layout} {A : Accounts} {V : Key → Nat → Option Word} {s t m n : Mem} {k : Key}

theorem Joint.gone {U : Nat → Option Word} (h : Joint L A V s t)
    (ha : At (A.world L k s) none empty none U m n) : m.free.Nodup ∧
      ∀ q, q ∈ m.free ↔ q ∈ s.free ∨ ∃ p, A.holds s.page (.own k p) = some q := by
  have hb : Books L (Sum.elim (A.world L k s).r (own m.page none empty)) m.free := ha.books
  refine ⟨hb.nodup, fun q => ?_⟩
  rw [hb.mem_free q]
  constructor
  · rintro ⟨hm, hx⟩
    by_contra hno
    obtain ⟨hf, hp⟩ := not_or.1 hno
    obtain ⟨x, hx'⟩ := (h.books.ledger.cover q ⟨hm, hf⟩).resolve_left id
    refine hx (.inl ⟨x, fun p he => hp ⟨p, he ▸ hx'⟩⟩) hx'
  · intro hq
    have hm : L.Managed q := by
      rcases hq with hq | ⟨p, hp⟩
      · exact h.books.managed q hq
      · exact (h.books.not_free hp).1
    refine ⟨hm, ?_⟩
    rintro (⟨x, hx⟩ | pt) hxq
    · have hxq' : A.holds s.page x = some q := hxq
      rcases hq with hq | ⟨p, hp⟩
      · exact (h.books.not_free hxq').2 hq
      · exact hx p (h.books.inj hxq' hp)
    · cases pt <;> simp [own] at hxq

theorem Joint.full {d : Ppn} {sz : Nat} (h : Joint L A V s t) (hd : A.dir k = some d)
    (hsz : sz ≤ kernbase) (hfull : ∀ n, vaOf n < sz → lookup s.page d (vaOf n) ≠ none) :
    Full (V k) sz := fun n hn => by
  have hu := lt_userPages (Nat.lt_of_lt_of_le hn hsz)
  rw [← h.view k d hd n (Nat.lt_of_lt_of_le hu (by decide))]
  exact Option.ne_none_iff_exists'.1 (hfull n hn)

theorem Joint.given_up {U : Nat → Option Word} (h : Joint L A V s t) (hd : A.dir k = none)
    (ha : At (A.world L k s) none empty none U m n) :
    m.free.Perm s.free ∧ ∀ x q, A.holds s.page x = some q → m.page q = s.page q := by
  have hown : ∀ p, A.holds s.page (.own k p) = none := by
    intro p
    cases p <;> simp [Accounts.holds, own, hd]
  obtain ⟨hnd, hmem⟩ := h.gone ha
  refine ⟨(List.perm_ext_iff_of_nodup hnd h.books.nodup).2 fun q => ?_, fun x q hx =>
    ha.frame ⟨x, fun p he => ?_⟩ q hx⟩
  · rw [hmem q]
    refine or_iff_left ?_
    rintro ⟨p, hp⟩
    rw [hown p] at hp
    cases hp
  · rw [he, hown p] at hx
    cases hx

end

/-- The size up to which `allocuvm` may be told that the directory is in use. -/
def State.size (s : State) : Key → Option Nat
  | none => none
  | some (p, false) => (s.proc p).map Proc.sz
  | some (p, true) => ((s.proc p).bind Proc.exec).bind fun e =>
    match e.stage with
    | .load _ _ sz | .stack sz | .args sz _ _ _ | .commit sz => some sz
    | .bad => none

theorem size_image {s : State} {V : Key → Nat → Option Word} {k : Key} {sz : Nat}
    (hok : ∀ p pr, s.proc p = some pr → ProcOk V p pr) (hs : s.size k = some sz) :
    Image (V k) sz := by
  rcases k with _ | ⟨p, _ | _⟩
  · cases hs
  · obtain ⟨pr, hp, rfl⟩ := Option.map_eq_some_iff.1 hs
    exact (hok p pr hp).image
  · obtain ⟨e, he, hsz⟩ := Option.bind_eq_some_iff.1 hs
    obtain ⟨pr, hp, hx⟩ := Option.bind_eq_some_iff.1 he
    have hst := (hok p pr hp).exec e hx
    cases hstage : e.stage <;> rw [hstage] at hst hsz <;> cases hsz
    · exact hst.1
    · exact hst.1
    · exact hst
    · exact hst

/-- `x` returns, wherever memory runs out, and meets `Q`. -/
def Returns {α : Type} (x : M α) (m : Mem) (Q : α → Mem → Prop) : Prop :=
  ∀ o, ∃ v m', x { m with oom := o } = .ok v m' ∧ Q v m'

theorem returns_of_twin {α : Type} {x : M α} {m : Mem} {P : Mem → Mem → Prop}
    {Q : α → Mem → Mem → Prop} {Q' : α → Mem → Prop} (h : Twin P x Q fun _ _ _ => False)
    (hP : ∀ o, P { m with oom := o } { m with oom := o }) (hQ : ∀ v m' n, Q v m' n → Q' v m') :
    Returns x m Q' := by
  intro o
  cases hx : x { m with oom := o } with
  | ok v m' =>
    obtain ⟨n, -, hq⟩ := h.ok (hP o) hx
    exact ⟨v, m', rfl, hQ v m' n hq⟩
  | error e m' =>
    obtain ⟨n, -, hf⟩ := h.error (hP o) hx
    exact hf.elim

/-- `m` has the free pages of `s`, and the pages that have an owner are unchanged. -/
def Restored (s : State) (m : Mem) : Prop :=
  m.free.Perm s.mem.free ∧ ∀ x q, s.owns x = some q → m.page q = s.mem.page q

/-- **Page conservation.** In every state that a run of the machine reaches, each page of the
allocator is on the free list, or it has exactly one owner: as a page directory, as a table of one
directory, as a user page of one entry, as a kernel stack or as a pipe. From such a state
`setupkvm`, `allocuvm` and `freevm` return, and so does `copyuvm` on an image without holes. If
`setupkvm` or `copyuvm` fails, all pages it has taken are back; if `allocuvm` fails, the user
mappings are what they were; and `freevm` frees the pages that the directory owns, each once, and no
others. -/
theorem pages_conserved (L : Layout) (page : Ppn → Page) (s₀ s : State) (cs : List Call)
    (h₀ : boot L page = some s₀) (h : run (step L) s₀ cs = some s) :
    (s.mem.free.Nodup ∧ ∀ q, L.Managed q →
      (q ∈ s.mem.free ∧ ∀ x, s.owns x ≠ some q) ∨ (q ∉ s.mem.free ∧ ∃! x, s.owns x = some q)) ∧
    Returns (setupkvm L) s.mem (fun v m => v = none → Restored s m) ∧
    (∀ p pr, s.proc p = some pr →
      (∀ o m, copyuvm L pr.pgdir pr.sz { s.mem with oom := o } = .ok none m → Restored s m) ∧
      ((∀ n, vaOf n < pr.sz → lookup s.mem.page pr.pgdir (vaOf n) ≠ none) →
        Returns (copyuvm L pr.pgdir pr.sz) s.mem fun _ _ => True)) ∧
    (∀ k d sz oldsz newsz, s.dir k = some d → s.size k = some sz → sz ≤ oldsz → oldsz ≤ kernbase →
      Returns (allocuvm L d oldsz newsz) s.mem fun v m => v = 0 →
        ∀ n < userPages, lookup m.page d (vaOf n) = lookup s.mem.page d (vaOf n)) ∧
    ∀ k d, s.dir k = some d → Returns (freevm L d) s.mem fun _ m =>
      m.free.Nodup ∧ ∀ q, q ∈ m.free ↔ q ∈ s.mem.free ∨ ∃ p, s.owns (.own k p) = some q := by
  obtain ⟨V, hj, hok⟩ := (reach_agree h₀ h).joint
  refine ⟨⟨hj.books.nodup, fun q hq => ?_⟩, ?_, fun p pr hp => ⟨fun o m hm => ?_, fun hfull => ?_⟩,
    fun k d sz oldsz newsz hd hs hle hk => ?_, fun k d hd => ?_⟩
  · by_cases hf : q ∈ s.mem.free
    · exact .inl ⟨hf, ((hj.books.mem_free q).1 hf).2⟩
    · exact .inr ⟨hf, ((hj.books.ledger.used_iff q).1 ⟨hq, hf⟩).resolve_left id⟩
  · have hat := hj.focus none
    refine returns_of_twin (setupkvm_twin (W := s.acct.world L none s.mem) (U := V none) rfl rfl)
      (fun o => ((hj.setOom o).focus none)) fun v m n hm hv => ?_
    subst hv
    exact hj.given_up rfl hm
  · have hr := (hj.setOom o).readable (k := none) (r := some (p, false)) nofun (dir_image hp)
    have htw := copyuvm_data (W := s.acct.world L none { s.mem with oom := o })
      (U := V none) (g := empty)
      (E := anyStop) hr rfl rfl (hok p pr hp).image.le (.inr fun _ _ _ => trivial)
    obtain ⟨n, -, ha⟩ := htw.ok ((hj.setOom o).focus none) hm
    exact (hj.setOom o).given_up rfl ha
  · refine returns_of_twin (P := Joint L s.acct V)
      (copyuvm_joint (k := none) (r := some (p, false)) nofun rfl
      (dir_image hp) (hok p pr hp).image.le (.inl ?_)) (fun o => hj.setOom o) fun _ _ _ _ => trivial
    exact hj.full (dir_image hp) (hok p pr hp).image.le hfull
  · have hi := (size_image hok hs).mono hle hk
    have hat : ∀ o, Maps (s.acct.world L k s.mem) d empty (V k) { s.mem with oom := o }
        { s.mem with oom := o } := fun o => by
      have := (hj.setOom o).focus k
      rwa [show s.acct.dir k = some d from hd] at this
    refine returns_of_twin (allocuvm_twin (W := s.acct.world L k s.mem) rfl rfl hi.above) hat ?_
    intro v m n' hm hv n hn
    have hn' : n < 2 ^ 20 := Nat.lt_of_lt_of_le hn (by decide)
    rw [(hat []).view d rfl n hn']
    rcases hm with ⟨-, ha⟩ | ⟨-, -, ha⟩ | ⟨hv', -, -, U', ha, hg⟩
    · exact ha.view d rfl n hn'
    · exact ha.view d rfl n hn'
    · rw [ha.view d rfl n hn', hg.same n fun hc => by omega]
  · have hat : ∀ o, Maps (s.acct.world L k s.mem) d empty (V k) { s.mem with oom := o }
        { s.mem with oom := o } := fun o => by
      have := (hj.setOom o).focus k
      rwa [show s.acct.dir k = some d from hd] at this
    refine returns_of_twin (freevm_twin (W := s.acct.world L k s.mem) (X := V k) rfl) hat ?_
    exact fun _ m n hm => hj.gone hm

def smallKernel : Layout where
  data := kernlink + pgsize
  stop := kernlink + 2 * pgsize
  aligned := by decide
  text := by decide
  lt := by decide
  fits := by decide

/-! ## A family -/

section
variable {L : Layout} {s : State} {p : Fin nproc} {pr : Proc}

theorem result_triple {α : Type} {x : M α} {m : Mem} {P : Mem → Prop} {Q : α → Mem → Prop}
    (h : Triple P x Q fun _ _ => False) (hm : P m) : ∃ a m', result x m = some (a, m') ∧
    Q a m' := by
  obtain ⟨a, m', hx, hq⟩ := h.returns hm
  exact ⟨a, m', result_ok hx, hq⟩

theorem growproc_steps (h : Agree L s s) (hr : s.running p = some pr) (n : Int) (o : List Bool) :
    ∃ sz m, step L s ⟨.growproc p n, o⟩ = some (s.setProc p (some { pr with sz := sz }) m) := by
  obtain ⟨V, hj, hok⟩ := h.joint
  obtain ⟨hp, -, -⟩ := running_eq hr
  obtain ⟨r, m, hres, -⟩ :=
    result_triple (growproc_joint (E := fun _ _ _ => False) (n := n) (dir_image hp)
    (hok p pr hp).image).triple (hj.setOom o)
  exact ⟨r.2, m, by simp only [step, hr, Option.bind_some, hres, Option.map_some]⟩

theorem proc_setProc (s : State) (p : Fin nproc) (q : Option Proc) (m : Mem) :
    (s.setProc p q m).proc p = q :=
  update_self ..

theorem proc_setProc_of_ne {p' : Fin nproc} (h : p' ≠ p) (s : State) (q : Option Proc) (m : Mem) :
    (s.setProc p q m).proc p' = s.proc p' :=
  update_of_ne h ..

theorem running_setProc (s : State) (m : Mem) (hz : pr.zombie = false) (he : pr.exec = none) :
    (s.setProc p (some pr) m).running p = some pr := by
  simp [State.running, State.setProc, hz, he]

theorem userinit_steps {init : Bytes} {k : Nat} (h : Agree L s s) (hp : s.proc p = none)
    (hlen : init.length < pgsize) (hroom : 1027 + k ≤ s.mem.free.length) :
    ∃ pr m, step L s ⟨.userinit p init, []⟩ = some (s.setProc p (some pr) m) ∧
      (s.setProc p (some pr) m).running p = some pr ∧ pr.sz = pgsize ∧ k ≤ m.free.length ∧
      ∀ n, vaOf n < pr.sz → lookup m.page pr.pgdir (vaOf n) ≠ none := by
  obtain ⟨V, hj, -⟩ := h.joint
  obtain ⟨h1, h2, h3⟩ := acct_unused hp
  obtain ⟨pr, m, hres, ⟨U, ⟨hi, hf, -⟩, hj'⟩, d, ks, rfl, ha⟩ :=
    result_triple (x := userinit L init)
    (((userinit_joint (E := fun e _ _ => e ≠ "remap") h1 h2 h3 fun _ _ _ h => h).triple.and
      (userinit_ample (k := k) (E := fun e _ => e = "remap") hlen fun _ => rfl)).onError
      fun _ _ h => h.1 h.2)
    (m := { s.mem with oom := [] }) ⟨hj.setOom [], rfl, hj.books.nodup, hroom⟩
  refine ⟨⟨d, pgsize, ks, false, none⟩, m, by simp only [step, hp, hres, Option.map_some],
    running_setProc s m rfl rfl, rfl, Nat.le_trans (Nat.le_add_left ..) ha.room, fun n hn => ?_⟩
  have hu := lt_userPages (Nat.lt_of_lt_of_le hn hi.le)
  obtain ⟨w, hw⟩ := hf n hn
  replace hj' : Joint L (s.setProc p (some ⟨d, pgsize, ks, false, none⟩) m).acct
    (update V (some (p, false)) U) m m := by
    rw [acct_setProc]
    exact hj'
  rw [hj'.view _ d (dir_image (proc_setProc ..)) n (Nat.lt_of_lt_of_le hu (by decide)),
    update_self, hw]
  exact Option.some_ne_none w

theorem fork_steps {np : Fin nproc} (h : Agree L s s) (hr : s.running p = some pr)
    (hnp : s.proc np = none) (hroom : 1026 + (pr.sz + (pgsize - 1)) / pgsize ≤ s.mem.free.length)
    (hfull : ∀ n, vaOf n < pr.sz → lookup s.mem.page pr.pgdir (vaOf n) ≠ none) :
    ∃ pr' m, step L s ⟨.fork p np, []⟩ = some (s.setProc np (some pr') m) ∧
      (s.setProc np (some pr') m).running np = some pr' := by
  obtain ⟨V, hj, hok⟩ := h.joint
  obtain ⟨hp, -, -⟩ := running_eq hr
  obtain ⟨h1, h2, h3⟩ := acct_unused hnp
  have hne : p ≠ np := by
    rintro rfl
    rw [hp] at hnp
    cases hnp
  obtain ⟨v, m, hres, -, d, ks, rfl⟩ := result_triple (x := fork L pr.pgdir pr.sz)
    (((fork_joint (E := fun _ _ _ => False) hne (dir_image hp) (hok p pr hp).image.le h1 h2 h3
      (.inl (hj.full (dir_image hp) (hok p pr hp).image.le hfull))).triple.and fork_ample).onError
        fun _ _ h => h.1) (m := { s.mem with oom := [] }) ⟨hj.setOom [], rfl, hj.books.nodup, hroom⟩
  refine ⟨⟨d, pr.sz, ks, false, none⟩, m, ?_, running_setProc s m rfl rfl⟩
  simp only [step, hr, hnp, Option.bind_some, hres, Option.map_some]

theorem wait_steps (h : Agree L s s) (hp : s.proc p = some pr) (hz : pr.zombie = true) :
    ∃ m, step L s ⟨.wait p, []⟩ = some (s.setProc p none m) := by
  obtain ⟨V, hj, hok⟩ := h.joint
  have he : s.acct.dir (some (p, true)) = none := by
    rw [dir_exec hp, (hok p pr hp).zombie hz]
    rfl
  obtain ⟨_, m, hres, -⟩ :=
    result_triple (reap_joint (E := fun _ _ _ => False) (extra_kstack hp) (dir_image hp)
    he).triple (hj.setOom [])
  exact ⟨m, by simp only [step, hp, Option.bind_some, hz, if_true, hres, Option.map_some]⟩

end

/-- The first process makes a child. -/
def parentCalls : List Call := [⟨.userinit 0 [0xeb, 0xfe], []⟩, ⟨.fork 0 1, []⟩]

/-- The child asks for a page while `kalloc` fails, exits, and is waited for. -/
def childCalls : List Call := [⟨.growproc 1 4096, [true]⟩, ⟨.exit 1, []⟩, ⟨.wait 1, []⟩]

theorem parent_run (page : Ppn → Page) : ∃ s₀ s pr pr', boot smallKernel page = some s₀ ∧
    run (step smallKernel) s₀ parentCalls = some s ∧ s.proc 0 = some pr ∧
    s.running 1 = some pr' := by
  obtain ⟨m, hb, -, -, hlen⟩ := boot_ok smallKernel page
  obtain ⟨pr, m₁, h1, hr, hsz, hroom, hfull⟩ := userinit_steps (boot_agree hb) (p := 0) (k := 1027)
    rfl (show ([0xeb, 0xfe] : Bytes).length < pgsize by decide) (by rw [hlen]; decide)
  have ha := step_agree (boot_agree hb) ⟨.userinit 0 [0xeb, 0xfe], []⟩
  rw [h1] at ha
  obtain ⟨pr', m₂, h2, hr'⟩ := fork_steps ha hr (show State.proc _ 1 = none from
    proc_setProc_of_ne (by decide) ..) (by rw [hsz]; exact hroom) hfull
  exact ⟨_, _, pr, pr', hb, run_cons.2 ⟨_, h1, run_cons.2 ⟨_, h2, rfl⟩⟩,
    (proc_setProc_of_ne (by decide) ..).trans (proc_setProc ..), hr'⟩

theorem child_run {L : Layout} {s : State} {pr pr' : Proc} (h : Agree L s s)
    (hp : s.proc 0 = some pr) (hr : s.running 1 = some pr') :
    ∃ s', run (step L) s childCalls = some s' ∧ s'.proc 0 = some pr ∧ s'.proc 1 = none := by
  obtain ⟨sz, m, hg⟩ := growproc_steps h hr 4096 [true]
  have h1 := step_agree h ⟨.growproc 1 4096, [true]⟩
  rw [hg] at h1
  have hr₁ : (s.setProc 1 (some { pr' with sz := sz }) m).running 1 = some { pr' with sz := sz } :=
    running_setProc s m (running_eq hr).2.1 (running_eq hr).2.2
  generalize hs₁ : s.setProc 1 (some { pr' with sz := sz }) m = s₁ at hg h1 hr₁
  have he : step L s₁ ⟨.exit 1, []⟩ =
      some (s₁.setProc 1 (some { pr' with sz := sz, zombie := true }) { s₁.mem with oom := [] }) := by
    simp only [step, hr₁, Option.bind_some]
  have h2 := step_agree h1 ⟨.exit 1, []⟩
  rw [he] at h2
  obtain ⟨m₂, hw⟩ := wait_steps h2 (proc_setProc ..) rfl
  refine ⟨_, run_cons.2 ⟨_, hg, run_cons.2 ⟨_, he, run_cons.2 ⟨_, hw, rfl⟩⟩⟩, ?_, proc_setProc ..⟩
  rw [proc_setProc_of_ne (by decide), proc_setProc_of_ne (by decide), ← hs₁,
    proc_setProc_of_ne (by decide), hp]

/-- A process that has had a child: its directory has one owner. -/
theorem pages_conserved_family : ∃ s₀ s pr, boot smallKernel (fun _ => Page.const 7) = some s₀ ∧
    run (step smallKernel) s₀ (parentCalls ++ childCalls) = some s ∧ s.proc 0 = some pr ∧
    s.proc 1 = none ∧
      pr.pgdir ∉ s.mem.free ∧ ∃! x, s.owns x = some pr.pgdir := by
  obtain ⟨s₀, s₁, pr, pr', hb, h1, hp, hr⟩ := parent_run fun _ => Page.const 7
  obtain ⟨s, h2, hp', hno⟩ := child_run (reach_agree hb h1) hp hr
  have hrun := run_append.2 ⟨s₁, h1, h2⟩
  refine ⟨s₀, s, pr, hb, hrun, hp', hno, ?_⟩
  have howns : s.owns (.own (some (0, false)) .dir) = some pr.pgdir := dir_image hp'
  obtain ⟨V, hj, -⟩ := (reach_agree hb hrun).joint
  rcases (pages_conserved _ _ _ s _ hb hrun).1.2 pr.pgdir (hj.books.not_free howns).1 with ⟨-, hx⟩ | h
  · exact absurd howns (hx _)
  · exact h

/-! ## Recycled pages -/

/-- The byte that user code reads at `va`. -/
def userByte (m : Mem) (d : Ppn) (va : Nat) : Option (BitVec 8) :=
  (lookup m.page d va).bind fun w =>
    if user w then some ((m.page (pteAddr w)).byte (va % pgsize)) else none

/-- The second state is the first with other contents of the free pages. -/
structure OtherFreePages (s t : State) : Prop where
  proc : t.proc = s.proc
  pipe : t.pipe = s.pipe
  free : t.mem.free = s.mem.free
  oom : t.mem.oom = s.mem.oom
  page : ∀ q, q ∉ s.mem.free → t.mem.page q = s.mem.page q

/-- The processes have the same address spaces: the same directory, tables and user bytes. -/
structure SameSpaces (s t : State) : Prop where
  proc : t.proc = s.proc
  dir : ∀ p pr, s.proc p = some pr → t.mem.page pr.pgdir = s.mem.page pr.pgdir
  table : ∀ p pr, s.proc p = some pr → ∀ i tab, target (s.mem.page pr.pgdir i) = some tab →
    t.mem.page tab = s.mem.page tab
  byte : ∀ p pr, s.proc p = some pr → ∀ va < u32, userByte t.mem pr.pgdir va =
    userByte s.mem pr.pgdir va

theorem Agree.sameSpaces {L : Layout} {s t : State} (h : Agree L s t) : SameSpaces s t := by
  obtain ⟨V, hj, hok⟩ := h.joint
  have hat : ∀ p pr, s.proc p = some pr → At (s.acct.world L (some (p, false)) s.mem)
      (some pr.pgdir) empty none (V (some (p, false))) s.mem t.mem := fun p pr hp => by
    have h1 := hj.focus (some (p, false))
    rwa [dir_image hp] at h1
  refine ⟨h.proc, fun p pr hp => (hat p pr hp).same_dir,
    fun p pr hp i tab ht => (hat p pr hp).same_table ht, fun p pr hp va hva => ?_⟩
  have ha := hat p pr hp
  have hm : va / pgsize < 2 ^ 20 := by
    simp only [pgsize, u32] at *
    omega
  have hlook : lookup t.mem.page pr.pgdir va = lookup s.mem.page pr.pgdir va :=
    lookup_congr ha.same_dir (fun i tab ht => ha.same_table ht) va
  have hview : lookup s.mem.page pr.pgdir va = V (some (p, false)) (va / pgsize) := by
    rw [← ha.view _ rfl _ hm]
    unfold lookup
    rw [(vaOf_div va).1, (vaOf_div va).2]
  unfold userByte
  rw [hlook]
  cases hl : lookup s.mem.page pr.pgdir va with
  | none => rfl
  | some w =>
    simp only [Option.bind_some]
    by_cases hu : user w = true
    · rw [hview] at hl
      have hw := (hok p pr hp).image.kern.lt hl hu
      rw [ha.same (ha.own_page hw hl) nofun]
    · rw [if_neg hu, if_neg hu]

/-- **No data leaks through recycled pages.** Take a state that a run of the machine reaches, and a
second one that differs from it only in what its free pages hold. The same calls are possible from
both, and they lead to states in which every process has the same page tables and sees the same
bytes. -/
theorem no_leak (L : Layout) (page : Ppn → Page) (s₀ s t : State) (cs : List Call)
    (h₀ : boot L page = some s₀) (h : run (step L) s₀ cs = some s) (ht : OtherFreePages s t)
    (ds : List Call) :
    (run (step L) s ds = none ∧ run (step L) t ds = none) ∨
    ∃ s' t', run (step L) s ds = some s' ∧ run (step L) t ds = some t' ∧ SameSpaces s' t' := by
  have hs := reach_agree h₀ h
  have hst : Agree L s t := by
    obtain ⟨V, hj, hok⟩ := hs.joint
    exact ⟨ht.proc, ht.pipe, V, ⟨hj.books, ⟨ht.free, ht.oom, fun q hq _ => ht.page q hq⟩, hj.view⟩, hok⟩
  have h1 := run_agree hst ds
  cases hs' : run (step L) s ds <;> cases ht' : run (step L) t ds <;> rw [hs', ht'] at h1
  · exact .inl ⟨rfl, rfl⟩
  · exact h1.elim
  · exact h1.elim
  · exact .inr ⟨_, _, rfl, rfl, h1.sameSpaces⟩

/-- A process with a child, and all free pages hold ones instead. -/
theorem no_leak_ones : ∃ s₀ s t s' t' pr, boot smallKernel (fun _ => Page.const 7) = some s₀ ∧
    run (step smallKernel) s₀ parentCalls = some s ∧ OtherFreePages s t ∧
    (∀ q ∈ t.mem.free, t.mem.page q = Page.const 1) ∧
    run (step smallKernel) s childCalls = some s' ∧ run (step smallKernel) t childCalls = some t' ∧
    s'.proc 0 = some pr ∧ SameSpaces s' t' := by
  obtain ⟨s₀, s, pr, pr', hb, h1, hp, hr⟩ := parent_run fun _ => Page.const 7
  obtain ⟨s', h2, hp', -⟩ := child_run (reach_agree hb h1) hp hr
  have ht : OtherFreePages s { s with mem := { s.mem with
      page := fun q => if q ∈ s.mem.free then Page.const 1 else s.mem.page q } } :=
    ⟨rfl, rfl, rfl, rfl, fun q hq => if_neg hq⟩
  rcases no_leak _ _ _ _ _ _ hb h1 ht childCalls with ⟨hno, -⟩ | ⟨s'', t', hs, ht', hsame⟩
  · rw [h2] at hno
    cases hno
  · cases h2.symm.trans hs
    exact ⟨s₀, s, _, s', t', pr, hb, h1, ht, fun q hq => if_pos hq, h2, ht', hp', hsame⟩

end Xv6.Vm
