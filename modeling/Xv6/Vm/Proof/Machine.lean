import Xv6.Vm.Proof.Accounts
import Xv6.Lib.Run
import Mathlib.Logic.Equiv.Basic

/-!
# Every page has one owner, and none shows through

`Agree` relates two states of the machine that have the same processes and differ only in free
pages, kernel stacks and pipes, while each page of the allocator is free or owned once. Every step
keeps it, and is possible in both states or in neither. For one state and itself this is the
conservation of pages; for two it says that no process sees what a free page held before.
-/

namespace Xv6.Vm

open Lib Function

variable {A : Accounts} {d : Ppn} {m m' : Mem} {E : String → Mem → Mem → Prop} {o : List Bool}

/-! ## Accounts of a state -/

/-- The directories of the processes, those `exec` is building included. -/
def State.dir (s : State) : Key → Option Ppn
  | none => none
  | some (p, false) => (s.proc p).map Proc.pgdir
  | some (p, true) => ((s.proc p).bind Proc.exec).map Exec.pgdir

/-- The accounts of a state. -/
def State.acct (s : State) : Accounts where
  dir := s.dir
  extra := Sum.elim (fun p => (s.proc p).map Proc.kstack) s.pipe

/-- The mappings of a process fit its size and its stage in `exec`. -/
structure ProcOk (V : Key → Nat → Option Word) (p : Fin nproc) (pr : Proc) : Prop where
  image : Image (V (some (p, false))) pr.sz
  exec : ∀ e, pr.exec = some e → StageOk (V (some (p, true))) e.stage
  zombie : pr.zombie = true → pr.exec = none

/-- The two states differ at most where no process looks. -/
structure Agree (L : Layout) (s t : State) : Prop where
  proc : t.proc = s.proc
  pipe : t.pipe = s.pipe
  joint : ∃ V, Joint L s.acct V s.mem t.mem ∧ ∀ p pr, s.proc p = some pr → ProcOk V p pr

section
variable {L : Layout} {V : Key → Nat → Option Word} {s t : State} {p : Fin nproc} {pr : Proc}
variable {U : Nat → Option Word} {α : Type} {x : M α} {P : Mem → Mem → Prop}
  {Q : α → Mem → Mem → Prop} {np : Fin nproc} {sz k : Nat} {init file : Bytes} {uargv : List Nat}

/-- The accounts with those of process `p` replaced. -/
def Accounts.setProc (A : Accounts) (p : Fin nproc) (d e ks : Option Ppn) : Accounts :=
  ((A.setDir (some (p, false)) d).setDir (some (p, true)) e).setExtra (.inl p) ks

theorem acct_setProc (s : State) (p : Fin nproc) (pr : Option Proc) (m : Mem) :
    (s.setProc p pr m).acct = s.acct.setProc p (pr.map Proc.pgdir)
    ((pr.bind Proc.exec).map Exec.pgdir)
      (pr.map Proc.kstack) := by
  unfold State.acct Accounts.setProc Accounts.setDir Accounts.setExtra
  congr 1
  · funext k
    rcases k with _ | ⟨q, _ | _⟩
    · rfl
    all_goals by_cases hq : q = p <;> simp [State.dir, State.setProc, hq]
  · funext x
    rcases x with q | k
    · by_cases hq : q = p <;> simp [State.setProc, hq]
    · simp [State.setProc]

@[simp]
theorem setDir_self {k : Key} {d : Option Ppn} (h : A.dir k = d) : A.setDir k d = A := by
  subst h
  unfold Accounts.setDir
  rw [update_eq_self]

@[simp]
theorem setExtra_self {x : Fin nproc ⊕ Nat} {v : Option Ppn} (h : A.extra x = v) :
    A.setExtra x v = A := by
  subst h
  unfold Accounts.setExtra
  rw [update_eq_self]

theorem setProc_dir {d e ks : Option Ppn} (he : A.dir (some (p, true)) = e)
    (hk : A.extra (.inl p) = ks) : A.setProc p d e ks = A.setDir (some (p, false)) d := by
  unfold Accounts.setProc
  rw [setDir_self (k := some (p, true)) (by simpa [Accounts.setDir] using he),
    setExtra_self (by exact hk)]

theorem setProc_exec {d e ks : Option Ppn} (hd : A.dir (some (p, false)) = d)
    (hk : A.extra (.inl p) = ks) : A.setProc p d e ks = A.setDir (some (p, true)) e := by
  unfold Accounts.setProc
  rw [setDir_self hd, setExtra_self (by exact hk)]

theorem Agree.setProc {Z : Key → Nat → Option Word} {q : Option Proc} (h : Agree L s t)
    (hV : ∀ p' pr, p' ≠ p → s.proc p' = some pr → ProcOk Z p' pr)
    (hq : ∀ pr, q = some pr → ProcOk Z p pr) (hj : Joint L (s.setProc p q m).acct Z m m') :
    Agree L (s.setProc p q m) (t.setProc p q m') := by
  refine ⟨by simp [State.setProc, h.proc], h.pipe, Z, hj, fun p' pr hp' => ?_⟩
  by_cases hpp : p' = p
  · subst hpp
    exact hq pr (by simpa [State.setProc] using hp')
  · exact hV p' pr hpp (by simpa [State.setProc, hpp] using hp')

theorem ProcOk.update {p' : Fin nproc} {b : Bool} (h : ProcOk V p' pr) (hne : p' ≠ p) :
    ProcOk (update V (some (p, b)) U) p' pr := by
  have h1 : ∀ b', (some (p', b') : Key) ≠ some (p, b) := fun b' he => by
    cases he
    exact hne rfl
  refine ⟨?_, fun e he => ?_, h.zombie⟩
  · rw [update_of_ne (h1 false)]
    exact h.image
  · rw [update_of_ne (h1 true)]
    exact h.exec e he

theorem Agree.setImage {q : Proc} (h : Agree L s t)
    (hok : ∀ p pr, s.proc p = some pr → ProcOk V p pr) (hi : Image U q.sz) (he : q.exec = none)
    (hj : Joint L (s.acct.setProc p (some q.pgdir) none (some q.kstack))
      (update V (some (p, false)) U) m m') :
    Agree L (s.setProc p (some q) m) (t.setProc p (some q) m') := by
  refine h.setProc (fun p' pr' hne hp' => (hok p' pr' hp').update hne) ?_ ?_
    (Z := update V (some (p, false)) U)
  · rintro _ ⟨⟩
    exact ⟨by rw [update_self]; exact hi, fun e he' => (nomatch he.symm.trans he'), fun _ => he⟩
  · rw [acct_setProc, Option.bind_some, he]
    exact hj

theorem result_twin (h : Twin P x Q E) (hP : P m m') :
    (result x m = none ∧ result x m' = none) ∨
    ∃ a n n', result x m = some (a, n) ∧ result x m' = some (a, n') ∧ Q a n n' := by
  unfold result
  cases hx : x m with
  | ok a n =>
    obtain ⟨n', hn, hq⟩ := h.ok hP hx
    rw [hn]
    exact .inr ⟨a, n, n', rfl, rfl, hq⟩
  | error e n =>
    obtain ⟨n', hn, -⟩ := h.error hP hx
    rw [hn]
    exact .inl ⟨rfl, rfl⟩

/-- Both panic, or both go on alike. -/
def Outcomes (L : Layout) : Option State → Option State → Prop
  | some s, some t => Agree L s t
  | none, none => True
  | _, _ => False

theorem outcomes_map {f f' : α × Mem → State} (h : Twin P x Q E) (hP : P m m')
    (hQ : ∀ a n n', Q a n n' → Agree L (f (a, n)) (f' (a, n'))) :
    Outcomes L ((result x m).map f) ((result x m').map f') := by
  rcases result_twin h hP with ⟨h1, h2⟩ | ⟨a, n, n', h1, h2, hq⟩
  · rw [h1, h2]
    trivial
  · rw [h1, h2]
    exact hQ a n n' hq

theorem Joint.setOom (h : Joint L A V m m') (o : List Bool) :
    Joint L A V { m with oom := o } { m' with oom := o } :=
  ⟨h.books, ⟨h.alike.free, rfl, h.alike.page⟩, h.view⟩

abbrev anyStop : String → Mem → Mem → Prop := fun _ _ _ => True

theorem running_eq (h : s.running p = some pr) : s.proc p = some pr ∧ pr.zombie = false ∧
    pr.exec = none := by
  unfold State.running at h
  obtain ⟨h1, h2⟩ := Option.filter_eq_some_iff.1 h
  simpa [h1] using h2

theorem running_congr (h : t.proc = s.proc) : t.running p = s.running p := by
  unfold State.running
  rw [h]

theorem dir_image (h : s.proc p = some pr) : s.acct.dir (some (p, false)) = some pr.pgdir :=
  congrArg (·.map Proc.pgdir) h

theorem dir_exec (h : s.proc p = some pr) :
    s.acct.dir (some (p, true)) = pr.exec.map Exec.pgdir :=
  congrArg (fun q : Option Proc => (q.bind Proc.exec).map Exec.pgdir) h

theorem extra_kstack (h : s.proc p = some pr) : s.acct.extra (.inl p) = some pr.kstack :=
  congrArg (·.map Proc.kstack) h

theorem acct_unused (h : s.proc p = none) : s.acct.dir (some (p, false)) = none ∧
    s.acct.dir (some (p, true)) = none ∧ s.acct.extra (.inl p) = none :=
  ⟨congrArg (·.map Proc.pgdir) h, congrArg (fun q : Option Proc => (q.bind Proc.exec).map Exec.pgdir) h,
    congrArg (·.map Proc.kstack) h⟩

theorem key_ne : (some (p, false) : Key) ≠ some (p, true) := nofun

theorem Agree.setExec {e : Option Exec} (h : Agree L s t)
    (hok : ∀ p pr, s.proc p = some pr → ProcOk V p pr) (hp : s.proc p = some pr)
    (hz : pr.zombie = true → e = none) (hU : ∀ e', e = some e' → StageOk U e'.stage)
    (hj : Joint L (s.acct.setDir (some (p, true)) (e.map Exec.pgdir))
      (update V (some (p, true)) U) m m') :
    Agree L (s.setProc p (some { pr with exec := e }) m)
    (t.setProc p (some { pr with exec := e }) m') := by
  refine h.setProc (fun p' pr' hne hp' => (hok p' pr' hp').update hne) ?_ ?_
    (Z := update V (some (p, true)) U)
  · rintro _ ⟨⟩
    refine ⟨?_, fun e' he' => ?_, hz⟩
    · rw [update_of_ne key_ne]
      exact (hok p pr hp).image
    · rw [update_self]
      exact hU e' he'
  · rw [acct_setProc]
    show Joint L (s.acct.setProc p (some pr.pgdir) (e.map Exec.pgdir) (some pr.kstack)) _ m m'
    rw [setProc_exec (dir_image hp) (extra_kstack hp)]
    exact hj

/-! ## One lemma for each action -/

theorem growproc_agree {n : Int} (h : Agree L s t) :
    Outcomes L (step L s ⟨.growproc p n, o⟩) (step L t ⟨.growproc p n, o⟩) := by
  obtain ⟨V, hj, hok⟩ := h.joint
  simp only [step, running_congr h.proc]
  cases hr : s.running p with
  | none => trivial
  | some pr =>
    obtain ⟨hp, -, he⟩ := running_eq hr
    refine outcomes_map (growproc_joint (E := anyStop) (dir_image hp) (hok p pr hp).image)
      (hj.setOom o) ?_
    rintro r m m' ⟨_, U, ⟨rfl, hi⟩, hj'⟩
    refine h.setImage hok hi he ?_
    rw [setProc_dir (by rw [dir_exec hp, he]; rfl) (extra_kstack hp)]
    exact hj'

theorem fork_joint (hne : p ≠ np) (hd : A.dir (some (p, false)) = some d) (hsz : sz ≤ kernbase)
    (h1 : A.dir (some (np, false)) = none) (h2 : A.dir (some (np, true)) = none)
    (h3 : A.extra (.inl np) = none) (hE : Full (V (some (p, false))) sz ∨ ∀ e s t, E e s t) :
    Twin (Joint L A V) (fork L d sz) (fun v m m' => ∃ U,
      (∀ pr, v = some pr → Image U pr.sz ∧ pr.exec = none) ∧
      Joint L (A.setProc np (v.map Proc.pgdir) ((v.bind Proc.exec).map Exec.pgdir) (v.map Proc.kstack))
        (update V (some (np, false)) U) m m') E := by
  have hnone : A.setProc np none none none = A := by
    rw [setProc_dir h2 h3, setDir_self h1]
  unfold fork
  refine (Joint.kalloc h3).bind fun v => ?_
  cases v with
  | none =>
    refine .pure fun m m' h => ⟨V (some (np, false)), by simp, ?_⟩
    rw [update_eq_self]
    rw [setExtra_self h3] at h
    show Joint L (A.setProc np none none none) V m m'
    rwa [hnone]
  | some ks =>
    have hk : (some (p, false) : Key) ≠ some (np, false) := fun h => hne (by cases h; rfl)
    refine (copyuvm_joint (k := some (np, false)) (A := A.setExtra (.inl np) (some ks)) hk h1 hd hsz
      hE).bind fun v => ?_
    refine .exists_pre fun d' => .exists_pre fun U => .of_pre (fun _ _ h => h.1) ?_
    rintro ⟨rfl, hU⟩
    cases d' with
    | none =>
      refine ((Joint.kfree (x := .inl np) (update_self ..)).pre fun _ _ h => h.2).bind fun _ =>
        .pure fun m m' h => ⟨U, by simp, ?_⟩
      show Joint L (A.setProc np none none none) _ m m'
      rw [setDir_self (by exact h1)] at h
      have hA : (A.setExtra (.inl np) (some ks)).setExtra (.inl np) none =
        A.setExtra (.inl np) none := by
        simp [Accounts.setExtra]
      rw [hA, setExtra_self h3] at h
      rwa [hnone]
    | some d' =>
      refine .pure fun m m' h => ⟨U, ?_, ?_⟩
      · rintro _ ⟨⟩
        exact ⟨hU (Option.some_ne_none d'), rfl⟩
      · have hA : A.setProc np (some d') none (some ks) =
            (A.setExtra (.inl np) (some ks)).setDir (some (np, false)) (some d') := by
          unfold Accounts.setProc
          rw [setDir_self (k := some (np, true)) (by simpa [Accounts.setDir] using h2)]
          rfl
        show Joint L (A.setProc np (some d') none (some ks)) _ m m'
        rw [hA]
        exact h.2

theorem fork_agree (h : Agree L s t) :
    Outcomes L (step L s ⟨.fork p np, o⟩) (step L t ⟨.fork p np, o⟩) := by
  obtain ⟨V, hj, hok⟩ := h.joint
  simp only [step, running_congr h.proc, h.proc]
  cases hr : s.running p with
  | none => trivial
  | some pr =>
    obtain ⟨hp, -, -⟩ := running_eq hr
    cases hnp : s.proc np with
    | some _ => trivial
    | none =>
      have hne : p ≠ np := by
        rintro rfl
        rw [hp] at hnp
        cases hnp
      obtain ⟨h1, h2, h3⟩ := acct_unused hnp
      refine outcomes_map (fork_joint (E := anyStop) hne (dir_image hp) (hok p pr hp).image.le h1 h2 h3
        (.inr fun _ _ _ => trivial)) (hj.setOom o) ?_
      rintro child m m' ⟨U, hU, hj'⟩
      refine h.setProc (fun p' pr' hne hp' => (hok p' pr' hp').update hne) ?_ ?_
        (Z := update V (some (np, false)) U)
      · intro pr' hpr'
        obtain ⟨hi, he⟩ := hU pr' hpr'
        exact ⟨by rw [update_self]; exact hi, fun e he' => (nomatch he.symm.trans he'), fun _ => he⟩
      · rw [acct_setProc]
        exact hj'

theorem userinit_joint (h1 : A.dir (some (p, false)) = none)
    (h2 : A.dir (some (p, true)) = none) (h3 : A.extra (.inl p) = none)
    (hE : ∀ e s t, e ≠ "remap" → E e s t) :
    Twin (Joint L A V) (userinit L init)
    (fun pr m m' => ∃ U, (Image U pr.sz ∧ Full U pr.sz ∧ pr.exec = none) ∧
      Joint L (A.setProc p (some pr.pgdir) none (some pr.kstack))
        (update V (some (p, false)) U) m m') E := by
  unfold userinit
  refine (Joint.kalloc h3).bind fun v => ?_
  cases v with
  | none => exact .throw fun _ _ _ => hE _ _ _ (by decide)
  | some ks =>
    refine (setupkvm_joint (k := some (p, false)) (A := A.setExtra (.inl p) (some ks)) h1).bind
      fun v => ?_
    refine .exists_pre fun d' => .exists_pre fun U => .of_pre (fun _ _ h => h.1) fun ⟨hd', hU⟩ => ?_
    subst hd'
    cases d' with
    | none => exact .throw fun _ _ _ => hE _ _ _ (by decide)
    | some d =>
      refine ((inituvm_joint (k := some (p, false)) (update_self ..)
        (by rw [update_self]; exact hU nofun) hE).pre fun _ _ h => h.2).bind
        fun _ => .pure fun m m' h => ?_
      obtain ⟨_, U', ⟨rfl, hi, hf⟩, h⟩ := h
      refine ⟨U', ⟨hi, hf, rfl⟩, ?_⟩
      rw [update_idem] at h
      have hA : A.setProc p (some d) none (some ks) = (((A.setExtra (.inl p) (some ks)).setDir
          (some (p, false)) (some d)).setDir (some (p, false)) (some d)) := by
        rw [setDir_self (A := (A.setExtra (.inl p) (some ks)).setDir _ (some d)) (update_self ..)]
        unfold Accounts.setProc
        rw [setDir_self (k := some (p, true)) (by simpa [Accounts.setDir] using h2)]
        rfl
      rw [hA]
      exact h

theorem userinit_agree (h : Agree L s t) :
    Outcomes L (step L s ⟨.userinit p init, o⟩) (step L t ⟨.userinit p init, o⟩) := by
  obtain ⟨V, hj, hok⟩ := h.joint
  simp only [step, h.proc]
  cases hp : s.proc p with
  | some _ => trivial
  | none =>
    obtain ⟨h1, h2, h3⟩ := acct_unused hp
    refine outcomes_map (userinit_joint (E := anyStop) h1 h2 h3 fun _ _ _ _ => trivial)
      (hj.setOom o) ?_
    rintro pr m m' ⟨U, ⟨hi, -, he⟩, hj'⟩
    exact h.setImage hok hi he hj'

theorem execStart_joint (hd : A.dir (some (p, false)) = some d) (hsz : sz ≤ kernbase)
    (h2 : A.dir (some (p, true)) = none) :
    Twin (Joint L A V) (execStart L d sz file uargv) (fun e m m' => ∃ U,
      (∀ e', e = some e' → StageOk U e'.stage) ∧
      Joint L (A.setDir (some (p, true)) (e.map Exec.pgdir)) (update V (some (p, true)) U) m m')
      anyStop := by
  have hsame : ∀ m m', Joint L A V m m' → ∃ U, (∀ e', (none : Option Exec) = some e' →
      StageOk U e'.stage) ∧
      Joint L (A.setDir (some (p, true)) ((none : Option Exec).map Exec.pgdir))
        (update V (some (p, true)) U) m m' := by
    intro m m' h
    refine ⟨V (some (p, true)), nofun, ?_⟩
    rw [update_eq_self, Option.map_none, setDir_self h2]
    exact h
  unfold execStart
  refine (Joint.call_same hd fun W => fetchArgs_twin hsz (fun _ _ _ => trivial) uargv).bind fun v =>
    ?_
  cases v with
  | none => exact .pure hsame
  | some argv =>
    refine .ite (fun _ => .pure hsame) fun _ => .ite (fun _ => .pure hsame) fun _ => ?_
    refine (setupkvm_joint h2).bind fun v => ?_
    refine .exists_pre fun d' => .exists_pre fun U => .of_pre (fun _ _ h => h.1) fun ⟨hd', hU⟩ => ?_
    subst hd'
    cases d' with
    | none => exact .pure fun m m' h => ⟨U, nofun, h.2⟩
    | some d' =>
      refine .pure fun m m' h => ⟨U, ?_, h.2⟩
      rintro _ ⟨⟩
      exact ⟨(hU nofun).image (by decide), fun m hm => absurd hm (Nat.not_lt_zero _)⟩

theorem sysExec_agree (h : Agree L s t) :
    Outcomes L (step L s ⟨.sysExec p file uargv, o⟩) (step L t ⟨.sysExec p file uargv, o⟩) := by
  obtain ⟨V, hj, hok⟩ := h.joint
  simp only [step, running_congr h.proc]
  cases hr : s.running p with
  | none => trivial
  | some pr =>
    obtain ⟨hp, hz, he⟩ := running_eq hr
    have h2 : s.acct.dir (some (p, true)) = none := by rw [dir_exec hp, he]; rfl
    refine outcomes_map (execStart_joint (dir_image hp) (hok p pr hp).image.le h2) (hj.setOom o) ?_
    rintro e m m' ⟨U, hU, hj'⟩
    refine h.setExec hok hp (fun hz' => ?_) hU hj'
    rw [hz'] at hz
    cases hz

theorem Joint.commit (hd : A.dir (some (p, true)) = some d)
    (h : Joint L (A.setDir (some (p, false)) none) V m m') :
    Joint L ((A.setDir (some (p, false)) (some d)).setDir (some (p, true)) none)
      (V ∘ Equiv.swap (some (p, false)) (some (p, true))) m m' := by
  have h1 := h.rename (Equiv.swap (some (p, false)) (some (p, true))) fun k =>
    Equiv.swap_apply_self ..
  have hA : ((A.setDir (some (p, false)) (some d)).setDir (some (p, true)) none) =
      { A.setDir (some (p, false)) none with
        dir := (A.setDir (some (p, false)) none).dir ∘ Equiv.swap (some (p, false))
          (some (p, true)) } := by
    unfold Accounts.setDir
    congr 1
    funext k
    by_cases hk : k = some (p, true)
    · subst hk
      simp
    · by_cases hk' : k = some (p, false)
      · subst hk'
        simp [hd, key_ne.symm]
      · simp [hk, hk', Equiv.swap_apply_of_ne_of_ne]
  rw [hA]
  exact h1

theorem exec_agree (h : Agree L s t) :
    Outcomes L (step L s ⟨.exec p, o⟩) (step L t ⟨.exec p, o⟩) := by
  obtain ⟨V, hj, hok⟩ := h.joint
  simp only [step, h.proc]
  cases hp : s.proc p with
  | none => trivial
  | some pr =>
    simp only [Option.bind_some]
    cases he : pr.exec with
    | none => trivial
    | some e =>
      have hprok := hok p pr hp
      have hst := hprok.exec e he
      have hde : s.acct.dir (some (p, true)) = some e.pgdir := by rw [dir_exec hp, he]; rfl
      -- The stages that only work on the new image.
      have hnext : Outcomes L
          ((result (e.next L) { s.mem with oom := o }).map fun x =>
            s.setProc p (some { pr with exec := some { e with stage := x.1 } }) x.2)
          ((result (e.next L) { t.mem with oom := o }).map fun x =>
            t.setProc p (some { pr with exec := some { e with stage := x.1 } }) x.2) := by
        refine outcomes_map (next_joint (E := anyStop) hde hst fun _ _ _ => trivial)
          (hj.setOom o) ?_
        rintro st m m' ⟨_, U, ⟨rfl, hU⟩, hj'⟩
        refine h.setExec hok hp (fun hz => ?_) (fun e' he' => ?_) hj'
        · rw [hprok.zombie hz] at he
          cases he
        · cases he'
          exact hU
      simp only [Option.bind_some]
      cases hstage : e.stage with
      | load | stack | args => exact hnext
      | commit sz =>
        refine outcomes_map (freevm_joint (E := anyStop) (dir_image hp)) (hj.setOom o) ?_
        rintro _ m m' hj'
        refine h.setProc (fun p' pr' hne hp' => ?_) ?_ ?_
          (Z := V ∘ Equiv.swap (some (p, false)) (some (p, true)))
        · have hsw : ∀ b, Equiv.swap (some (p, false)) (some (p, true))
            (some (p', b) : Key) = some (p', b) :=
            fun b => Equiv.swap_apply_of_ne_of_ne (fun hh => hne (by cases hh; rfl)) fun hh =>
              hne (by cases hh; rfl)
          obtain ⟨hi, hx, hz⟩ := hok p' pr' hp'
          refine ⟨?_, fun e' he' => ?_, hz⟩
          · rw [comp_apply, hsw]
            exact hi
          · rw [comp_apply, hsw]
            exact hx e' he'
        · rintro _ ⟨⟩
          refine ⟨?_, nofun, fun _ => rfl⟩
          rw [comp_apply, Equiv.swap_apply_left]
          rw [hstage] at hst
          exact hst
        · rw [acct_setProc]
          show Joint L (s.acct.setProc p (some e.pgdir) none (some pr.kstack)) _ m m'
          have hA : s.acct.setProc p (some e.pgdir) none (some pr.kstack) =
              (s.acct.setDir (some (p, false)) (some e.pgdir)).setDir (some (p, true)) none := by
            unfold Accounts.setProc
            rw [setExtra_self (by exact extra_kstack hp)]
          rw [hA]
          exact hj'.commit hde
      | bad =>
        refine outcomes_map (freevm_joint (E := anyStop) hde) (hj.setOom o) ?_
        rintro _ m m' hj'
        rw [← update_eq_self (some (p, true)) V] at hj'
        exact h.setExec hok hp (fun _ => rfl) nofun hj'

theorem exit_agree (h : Agree L s t) :
    Outcomes L (step L s ⟨.exit p, o⟩) (step L t ⟨.exit p, o⟩) := by
  obtain ⟨V, hj, hok⟩ := h.joint
  simp only [step, running_congr h.proc]
  cases hr : s.running p with
  | none => trivial
  | some pr =>
    obtain ⟨hp, -, he⟩ := running_eq hr
    refine h.setProc (fun p' pr' hne hp' => hok p' pr' hp') ?_ ?_ (Z := V)
    · rintro _ ⟨⟩
      exact ⟨(hok p pr hp).image, fun e he' => (nomatch he.symm.trans he'), fun _ => he⟩
    · rw [acct_setProc]
      show Joint L (s.acct.setProc p (some pr.pgdir) (pr.exec.map Exec.pgdir) (some pr.kstack)) _ _ _
      rw [setProc_dir (dir_exec hp) (extra_kstack hp), setDir_self (dir_image hp)]
      exact hj.setOom o

theorem reap_joint {ks : Ppn} (hk : A.extra (.inl p) = some ks)
    (hd : A.dir (some (p, false)) = some d) (he : A.dir (some (p, true)) = none) :
    Twin (Joint L A V) (reap L ks d)
    (fun _ m m' => Joint L (A.setProc p none none none) V m m') E := by
  unfold reap
  refine (Joint.kfree hk).bind fun _ => (freevm_joint (k := some (p, false)) (by exact hd)).post
    fun _ m m' h => ?_
  have hA : A.setProc p none none none = (A.setExtra (.inl p) none).setDir (some (p, false)) none := by
    unfold Accounts.setProc
    rw [setDir_self (k := some (p, true)) (by simpa [Accounts.setDir] using he)]
    rfl
  rwa [hA]

theorem wait_agree (h : Agree L s t) :
    Outcomes L (step L s ⟨.wait p, o⟩) (step L t ⟨.wait p, o⟩) := by
  obtain ⟨V, hj, hok⟩ := h.joint
  simp only [step, h.proc]
  cases hp : s.proc p with
  | none => trivial
  | some pr =>
    simp only [Option.bind_some]
    by_cases hz : pr.zombie = true
    · rw [if_pos hz, if_pos hz]
      have he : s.acct.dir (some (p, true)) = none := by rw [dir_exec hp, (hok p pr hp).zombie hz]; rfl
      refine outcomes_map (reap_joint (E := anyStop) (extra_kstack hp) (dir_image hp) he)
        (hj.setOom o) ?_
      rintro _ m m' hj'
      refine h.setProc (fun p' pr' hne hp' => hok p' pr' hp') nofun ?_ (Z := V)
      rw [acct_setProc]
      exact hj'
    · rw [if_neg hz, if_neg hz]
      trivial

theorem acct_setPipe (s : State) (k : Nat) (v : Option Ppn) (m : Mem) :
    ({ s with mem := m, pipe := update s.pipe k v } : State).acct = s.acct.setExtra (.inr k) v := by
  unfold State.acct Accounts.setExtra
  congr 1
  funext x
  rcases x with q | k'
  · simp
  · by_cases hk : k' = k
    · subst hk
      simp
    · simp [hk]

theorem pipealloc_agree (h : Agree L s t) :
    Outcomes L (step L s ⟨.pipealloc k, o⟩) (step L t ⟨.pipealloc k, o⟩) := by
  obtain ⟨V, hj, hok⟩ := h.joint
  simp only [step, h.pipe]
  cases hk : s.pipe k with
  | some _ => trivial
  | none =>
    refine outcomes_map (Joint.kalloc (E := anyStop) (x := .inr k) hk) (hj.setOom o) ?_
    rintro v m m' hj'
    refine ⟨h.proc, by simp, V, ?_, hok⟩
    rw [acct_setPipe]
    exact hj'

theorem pipeclose_agree (h : Agree L s t) :
    Outcomes L (step L s ⟨.pipeclose k, o⟩) (step L t ⟨.pipeclose k, o⟩) := by
  obtain ⟨V, hj, hok⟩ := h.joint
  simp only [step, h.pipe]
  cases hk : s.pipe k with
  | none => trivial
  | some v =>
    refine outcomes_map (Joint.kfree (E := anyStop) (x := .inr k) hk) (hj.setOom o) ?_
    rintro _ m m' hj'
    refine ⟨h.proc, by simp, V, ?_, hok⟩
    rw [acct_setPipe]
    exact hj'

theorem store_agree {va : Nat} {b : BitVec 8} (h : Agree L s t) :
    Outcomes L (step L s ⟨.store p va b, o⟩) (step L t ⟨.store p va b, o⟩) := by
  obtain ⟨V, hj, hok⟩ := h.joint
  simp only [step, running_congr h.proc]
  cases hr : s.running p with
  | none => trivial
  | some pr =>
    obtain ⟨hp, -, -⟩ := running_eq hr
    refine outcomes_map (Joint.call_same (E := anyStop) (dir_image hp) fun W =>
      store_twin (Nat.mod_lt _ (by decide)) (hok p pr hp).image.kern) (hj.setOom o) ?_
    exact fun _ m m' hj' => ⟨h.proc, h.pipe, V, hj', hok⟩

/-- **Every step** is possible in both states or in neither, and keeps them in agreement. -/
theorem step_agree (h : Agree L s t) (c : Call) : Outcomes L (step L s c) (step L t c) := by
  obtain ⟨a, o⟩ := c
  cases a with
  | userinit p init => exact userinit_agree h
  | growproc p n => exact growproc_agree h
  | fork p np => exact fork_agree h
  | sysExec p file uargv => exact sysExec_agree h
  | exec p => exact exec_agree h
  | exit p => exact exit_agree h
  | wait p => exact wait_agree h
  | pipealloc k => exact pipealloc_agree h
  | pipeclose k => exact pipeclose_agree h
  | store p va b => exact store_agree h

theorem run_agree (h : Agree L s t) : ∀ cs : List Call,
    Outcomes L (run (step L) s cs) (run (step L) t cs) := by
  intro cs
  induction cs generalizing s t with
  | nil => exact h
  | cons c cs ih =>
    have h1 := step_agree h c
    simp only [run]
    cases hs : step L s c <;> cases ht : step L t c <;> rw [hs, ht] at h1
    · trivial
    · exact h1.elim
    · exact h1.elim
    · exact ih h1

end

end Xv6.Vm
