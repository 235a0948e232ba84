import Xv6.Vm.Exec
import Xv6.Vm.Proof.Copyout

/-!
# The arguments on the new stack

`exec` pushes the argument strings downwards from the top of the stack page, and then the words that
`main` finds. The page below the stack is not for the user. A range of addresses that ends in the
stack page and begins below it meets that page, also if it wraps around; so each `copyout` that
succeeds stays in the stack page.
-/

namespace Xv6.Vm

open Lib

variable {sp n B va : Nat} {C : Nat → Page} {bs : Bytes} {e : String} {argv : List Bytes}

/-! ## The image -/

/-- The new image of `N` pages: the last one is the stack, and the one below it is not for the
user. -/
structure StackImage (U : Nat → Option Word) (N : Nat) : Prop where
  two : 2 ≤ N
  lt : N < userPages
  page : ∀ n < N, ∃ w, U n = some w ∧ (user w = true ↔ n ≠ N - 2)
  above : ∀ n, N ≤ n → n < userPages → U n = none
  kern : UserOnly U

/-- An address that no image reaches, and for which each directory has a table. -/
abbrev lastPage : Nat := 0xfffff000

section
variable {R : Type} {W : World R} {d : Ppn} {g : Bool → Option Ppn} {U : Nat → Option Word}
  {C : Nat → Page} {s : Mem} {N a : Nat}

theorem Data.lookup_eq (h : Data W d g U C s) (ha : a < u32) :
    lookup s.page d a = U (a / pgsize) := by
  have hn : a / pgsize < 2 ^ 20 := by
    simp only [pgsize, u32] at *
    omega
  rw [← lookup_div]
  exact h.view d rfl _ hn

theorem Data.accessible_iff (h : Data W d g U C s) (ha : a < u32) :
    Accessible s d a ↔ ∃ w, U (a / pgsize) = some w ∧ user w = true := by
  unfold Accessible
  rw [h.lookup_eq ha]

theorem Data.hasTable (h : Data W d g U C s) (ha : a < u32) {w : Word}
    (hw : U (a / pgsize) = some w) :
    HasTable s d a := by
  rw [← h.lookup_eq ha] at hw
  obtain ⟨t, ht, -⟩ := Option.bind_eq_some_iff.1 hw
  exact fun h0 => Option.some_ne_none t (ht.symm.trans h0)

theorem StackImage.guard (hU : StackImage U N) (h : Data W d g U C s) (ha : a < u32)
    (hg : a / pgsize = N - 2) : ¬ Accessible s d a := by
  rw [h.accessible_iff ha, hg]
  rintro ⟨w, hw, hu⟩
  obtain ⟨w', hw', hiff⟩ := hU.page (N - 2) (by have := hU.two; omega)
  cases hw.symm.trans hw'
  exact hiff.1 hu rfl

theorem StackImage.stack (hU : StackImage U N) (h : Data W d g U C s) (hlo : vaOf (N - 1) ≤ a)
    (hhi : a < vaOf N) : Accessible s d a := by
  have h2 := hU.two
  have hlt := hU.lt
  have hdiv : a / pgsize = N - 1 := by
    simp only [vaOf, pgsize] at *
    omega
  rw [h.accessible_iff (by simp only [vaOf, pgsize, u32, userPages] at *; omega), hdiv]
  obtain ⟨w, hw, hiff⟩ := hU.page (N - 1) (by omega)
  exact ⟨w, hw, hiff.2 (by omega)⟩

theorem StackImage.lt_u32 (hU : StackImage U N) (h : sp ≤ vaOf N) : sp < u32 := by
  have := hU.lt
  simp only [vaOf, pgsize, u32, userPages] at *
  omega

/-! ## One range -/

theorem exists_wrap {x : Nat} (h : x % u32 = sp) : ∃ q, x = sp + q * 0x100000000 :=
  ⟨x / u32, by rw [← h, Nat.mul_comm]; exact (Nat.mod_add_div _ _).symm⟩

theorem vaOf_guard {N : Nat} (h2 : 2 ≤ N) : vaOf (N - 1) = vaOf (N - 2) + pgsize := by
  rw [vaOf_succ, show N - 2 + 1 = N - 1 by omega]

theorem div_of_page {A : Nat} (hlo : vaOf n ≤ A) (hhi : A < vaOf n + pgsize) : A / pgsize = n := by
  rw [vaOf_succ] at hhi
  exact Nat.div_eq_of_lt_le hlo hhi

theorem exists_below {G r len : Nat} (hG : B = G + 4096) (hlo : B ≤ sp) (hr : r ≤ 3)
    (hlen : 0 < len) (hbig : ¬ B + r + len ≤ sp) : ∃ A, A < B ∧ G ≤ A ∧ A + r < sp ∧
    sp ≤ A + r + len := by
  by_cases hc : sp - r - 1 < B
  · exact ⟨sp - r - 1, by omega, by omega, by omega, by omega⟩
  · exact ⟨B - 1, by omega, by omega, by omega, by omega⟩

theorem exists_guard {N r len : Nat} (h2 : 2 ≤ N) (hlo : vaOf (N - 1) ≤ sp) (hsp : sp < u32)
    (hr : r ≤ 3) (hlen : 0 < len) (hend : (va + r + len) % u32 = sp)
    (hbig : ¬ vaOf (N - 1) + r + len ≤ sp) :
    ∃ i < len, (va + i) % u32 / pgsize = N - 2 := by
  obtain ⟨q, hq⟩ := exists_wrap hend
  clear hend
  have hG := vaOf_guard h2
  obtain ⟨A, hA1, hA2, hA3, hA4⟩ := exists_below hG hlo hr hlen hbig
  refine ⟨len - (sp - r - A), by omega, ?_⟩
  have hsum : va + (len - (sp - r - A)) = A + q * 0x100000000 := by omega
  have hA : A < u32 := Nat.lt_trans (Nat.lt_of_le_of_lt (Nat.le_add_right A r) hA3) hsp
  rw [hsum, Nat.add_mul_mod_self_right, Nat.mod_eq_of_lt hA]
  exact div_of_page hA2 (hG ▸ hA1)

section
variable {sp va r : Nat} {bs : Bytes}

theorem copyout_fits (bs : Bytes) (hU : StackImage U N) (h : Data W d g U C s)
    (hhi : sp ≤ vaOf N) (hva : va < u32) (hend : (va + r + bs.length) % u32 = sp)
    (hfit : vaOf (N - 1) + r + bs.length ≤ sp) :
    va = sp - r - bs.length ∧ ∃ s' C', copyout d va bs s = .ok 0 s' ∧ Data W d g U C' s' ∧
    Put C va bs C' ∧
      s'.page d = s.page d := by
  have hkb := hU.lt_u32 (Nat.le_refl _)
  have heq : va = sp - r - bs.length := by
    obtain ⟨q, hq⟩ := exists_wrap hend
    obtain rfl | hq1 : q = 0 ∨ 1 ≤ q := by omega
    · omega
    · simp only [u32] at *
      omega
  have hge : vaOf (N - 1) ≤ va := by
    rw [heq]
    refine Nat.le_sub_of_add_le (Nat.le_sub_of_add_le ?_)
    rwa [Nat.add_right_comm]
  have hends := copyout_ends bs hU.kern hva h
  obtain ⟨s', C', hr, hd', hput, -, -, hq⟩ := hends.done fun i hi => by
    have hi' : va + i < vaOf N := by
      simp only [u32] at *
      omega
    rw [Nat.mod_eq_of_lt (Nat.lt_trans hi' hkb)]
    exact hU.stack h (Nat.le_trans hge (Nat.le_add_right va i)) hi'
  refine ⟨heq, s', C', hr, hd', hput, hq d fun n hn w hw => ?_⟩
  exact (h.apart (h.own_page hn hw) nofun nofun).1

end

/-! ## All arguments -/

/-- The stack pointer after the strings are pushed. -/
def pushed (sp : Int) : List Bytes → Int
  | [] => sp
  | arg :: args => pushed ((sp - (arg.length + 1)) / 4 * 4) args

theorem pushed_le : ∀ (args : List Bytes) (sp : Int), pushed sp args ≤ sp
  | [], _ => Int.le_refl _
  | arg :: args, sp => Int.le_trans (pushed_le args _) (by omega)

/-- The bytes `bs` are at address `a`. -/
def Holds (C : Nat → Page) (a : Nat) (bs : Bytes) : Prop :=
  ∀ i < bs.length, byteAt C (a + i) = bs.getD i 0

/-- The strings `args` lie at `ptrs`, each below the one before it, between `lo` and `hi`. -/
def Laid (C : Nat → Page) (lo : Nat) : Nat → List Bytes → List Nat → Prop
  | hi, [], [] => lo ≤ hi
  | hi, arg :: args, p :: ptrs => p + (arg.length + 1) ≤ hi ∧ Holds C p (arg ++ [0]) ∧
    Laid C lo p args ptrs
  | _, _, _ => False

/-- The words that `main` is entered with. -/
def mainWords (argc sp : Nat) (ptrs : List Nat) : List Nat :=
  [0xffffffff, argc, sp + 12] ++ ptrs ++ [0]

theorem Holds.of_put {C' : Nat → Page} {a : Nat} (h : Put C a bs C') : Holds C' a bs := by
  intro i hi
  rw [h (a + i), if_pos (by omega), Nat.add_sub_cancel_left]

theorem Holds.congr {C' : Nat → Page} {a : Nat} (h : Holds C a bs)
    (hsame : ∀ i < bs.length, byteAt C' (a + i) = byteAt C (a + i)) : Holds C' a bs := fun i hi =>
  (hsame i hi).trans (h i hi)

theorem Laid.le {lo : Nat} : ∀ {hi : Nat} {args : List Bytes} {ptrs : List Nat},
    Laid C lo hi args ptrs → lo ≤ hi
  | _, [], [], h => h
  | _, _ :: _, _ :: _, ⟨h1, _, h3⟩ => Nat.le_trans h3.le (Nat.le_trans (Nat.le_add_right _ _) h1)

theorem push_end (len : Nat) (hsp : sp < u32) :
    ∃ r ≤ 3, (sp + u32 - len % u32) % u32 / 4 * 4 < u32 ∧
    ((sp + u32 - len % u32) % u32 / 4 * 4 + r + len) % u32 = sp ∧
    ∀ B, B % 4 = 0 → (B + r + len ≤ sp ↔ B + len ≤ sp) := by
  refine ⟨(sp + u32 - len % u32) % u32 % 4, ?_, ?_, ?_, fun B hB => ?_⟩ <;>
    simp only [u32] at * <;> omega

theorem words_end {k : Nat} (hsp : sp < u32) : (sp + u32 - 4 * k) % u32 < u32 ∧ (4 * k ≤ sp →
    ((sp + u32 - 4 * k) % u32 + 0 + 4 * k) % u32 = sp) := by
  simp only [u32] at *
  omega

theorem length_words (ws : List Nat) : (ws.flatMap wordBytes).length = 4 * ws.length := by
  induction ws with
  | nil => rfl
  | cons w ws ih =>
    rw [List.flatMap_cons, List.length_append, ih, List.length_cons]
    show 4 + 4 * ws.length = 4 * (ws.length + 1)
    omega

section
variable {argv : List Bytes} {sz argc sp : Nat} {ustack : List Nat} {arg : Bytes} {s' : Mem}

theorem exists_drop_cons (h : argc < argv.length) :
    ∃ arg, argv[argc]? = some arg ∧ argv.drop argc = arg :: argv.drop (argc + 1) :=
  ⟨_, List.getElem?_eq_getElem h, List.drop_eq_getElem_cons h⟩

theorem pushArg_string (sz : Nat) (ustack : List Nat) (harg : argv[argc]? = some arg)
    (hmax : argc < maxarg) {p : Nat} (hp : (sp + u32 - (arg.length + 1) % u32) % u32 / 4 * 4 = p) :
    pushArg d argv sz argc sp ustack = copyout d p (arg ++ [0]) >>= fun v =>
      pure (if v < 0 then .bad else .args sz (argc + 1) p (ustack ++ [p])) := by
  unfold pushArg
  rw [harg]
  dsimp only
  rw [if_neg (by omega), hp]
  congr 1
  funext v
  split <;> rfl

theorem pushArg_words (sz : Nat) (ustack : List Nat) (harg : argv[argc]? = none) :
    pushArg d argv sz argc sp ustack = copyout d ((sp + u32 - (3 + argc + 1) * 4) % u32)
      (([0xffffffff, argc, (sp + u32 - (argc + 1) * 4) % u32] ++ ustack ++ [0]).flatMap wordBytes)
      >>= fun v =>
        pure (if v < 0 then .bad else .commit sz) := by
  unfold pushArg
  rw [harg]
  dsimp only
  congr 1
  funext v
  split <;> rfl

theorem pushArgs_error (h : pushArg d argv sz argc sp ustack s = .error e s') :
    pushArgs d argv sz n argc sp ustack s = .error e s' := by
  cases n <;> rw [pushArgs, bind_error h]

theorem pushArgs_next {z argc' sp' : Nat} {us' : List Nat}
    (h : pushArg d argv sz argc sp ustack s = .ok (.args z argc' sp' us') s') :
    pushArgs d argv sz (n + 1) argc sp ustack s = pushArgs d argv sz n argc' sp' us' s' := by
  rw [pushArgs, bind_ok h]

theorem pushArgs_commit {z : Nat} (h : pushArg d argv sz argc sp ustack s = .ok (.commit z) s') :
    pushArgs d argv sz 0 argc sp ustack s = .ok (some ((sp + u32 - (3 + argc + 1) * 4) % u32)) s' := by
  rw [pushArgs, bind_ok h]
  rfl

theorem pushArgs_bad (h : pushArg d argv sz argc sp ustack s = .ok .bad s') :
    pushArgs d argv sz n argc sp ustack s = .ok none s' := by
  cases n <;> rw [pushArgs, bind_ok h] <;> rfl

end

/-- What `pushArgs` has done. -/
structure PushedAll (W : World R) (d : Ppn) (g : Bool → Option Ppn)
    (U : Nat → Option Word) (s : Mem) (C : Nat → Page) (B sp : Nat) (args : List Bytes)
    (argc : Nat) (ustack : List Nat) (r : EStateM.Result String Mem (Option Nat)) (s' : Mem)
    (C' : Nat → Page) (ptrs : List Nat) (sp' : Nat) : Prop where
  result : r = .ok (some sp') s'
  data : Data W d g U C' s'
  low : B ≤ sp'
  strings : Laid C' (sp' + 4 * (4 + argc)) sp args ptrs
  words : Holds C' sp' ((mainWords argc sp' (ustack ++ ptrs)).flatMap wordBytes)
  frame : ∀ a, a < sp' ∨ sp ≤ a → byteAt C' a = byteAt C a

theorem length_mainWords (argc sp : Nat) (ptrs : List Nat) :
    (mainWords argc sp ptrs).length = 4 + ptrs.length := by
  simp [mainWords]
  omega

theorem pushArgs_words (hU : StackImage U N) {ustack : List Nat} (h : Data W d g U C s)
    (hlen : ustack.length = argv.length) (hhi : sp ≤ vaOf N) (hB : B = vaOf (N - 1))
    (hfit : B + 4 * (4 + argv.length) ≤ sp) :
    ∃ s' C' sp', PushedAll W d g U s C B sp [] argv.length ustack
      (pushArgs d argv (vaOf N) 0 argv.length sp ustack s) s' C' [] sp' := by
  have hsp := hU.lt_u32 hhi
  obtain ⟨h1, h2⟩ := words_end (k := 4 + argv.length) hsp
  have harg : argv[argv.length]? = none := List.getElem?_eq_none (Nat.le_refl _)
  have hsp3 : (sp + u32 - (3 + argv.length + 1) * 4) % u32 = sp - 4 * (4 + argv.length) := by
    clear hB hhi
    simp only [u32] at *
    omega
  have hargv : (sp + u32 - (argv.length + 1) * 4) % u32 = sp - 4 * (4 + argv.length) + 12 := by
    clear hB hhi
    simp only [u32] at *
    omega
  have hl : ((mainWords argv.length (sp - 4 * (4 + argv.length)) ustack).flatMap wordBytes).length =
      4 * (4 + argv.length) := by
    rw [length_words, length_mainWords, hlen]
  have hva : sp - 4 * (4 + argv.length) < u32 := by
    clear hB hhi
    omega
  obtain ⟨-, s', C', hr, hd, hput, -⟩ := copyout_fits (r := 0) _ hU h hhi hva (by
    rw [hl, Nat.mod_eq_of_lt]
    · clear hB hhi; omega
    · clear hB hhi; omega) (by
    rw [hl, ← hB]
    exact hfit)
  have hpush : pushArg d argv (vaOf N) argv.length sp ustack s = .ok (.commit (vaOf N)) s' := by
    rw [pushArg_words (vaOf N) ustack harg, hsp3, hargv]
    exact bind_ok hr
  refine ⟨s', C', sp - 4 * (4 + argv.length), ?_, hd, ?_, ?_, ?_, fun a ha => ?_⟩
  · rw [pushArgs_commit hpush, hsp3]
  · exact Nat.le_sub_of_add_le hfit
  · show sp - 4 * (4 + argv.length) + 4 * (4 + argv.length) ≤ sp
    rw [Nat.sub_add_cancel (Nat.le_trans (Nat.le_add_left _ _) hfit)]
  · rw [List.append_nil]
    exact .of_put hput
  · rw [hput a, if_neg]
    rw [hl]
    clear hB hhi
    omega

/-- A string that fits is pushed. -/
theorem pushArgs_fits (hU : StackImage U N) (h : Data W d g U C s) (hhi : sp ≤ vaOf N)
    (hB : B = vaOf (N - 1)) {argc : Nat} {arg : Bytes} (harg : argv[argc]? = some arg)
    (hmax : argc < maxarg) (hroom : B + (arg.length + 1) ≤ sp) (n : Nat) (ustack : List Nat) :
    ∃ p s₁ C₁, pushArgs d argv (vaOf N) (n + 1) argc sp ustack s =
        pushArgs d argv (vaOf N) n (argc + 1) p (ustack ++ [p]) s₁ ∧
      Data W d g U C₁ s₁ ∧ Put C p (arg ++ [0]) C₁ ∧ s₁.page d = s.page d ∧
      (p : Int) = ((sp : Int) - (arg.length + 1)) / 4 * 4 ∧ p + (arg.length + 1) ≤ sp ∧
      sp ≤ p + (arg.length + 1) + 3 ∧ B ≤ p := by
  have hsp := hU.lt_u32 hhi
  have h4 : B % 4 = 0 := by
    rw [hB]
    simp only [vaOf, pgsize]
    omega
  obtain ⟨r, hr3, hva, hend, hiff⟩ := push_end (arg.length + 1) hsp
  generalize hp : (sp + u32 - (arg.length + 1) % u32) % u32 / 4 * 4 = p at *
  have hl : (arg ++ [0]).length = arg.length + 1 := by simp
  obtain ⟨heq, s₁, C₁, hc, hd, hput, hdir⟩ :=
    copyout_fits (arg ++ [0]) hU h hhi hva (by rwa [hl]) (by
    rw [hl, ← hB]
    exact (hiff B h4).2 hroom)
  have hpush : pushArg d argv (vaOf N) argc sp ustack s =
      .ok (.args (vaOf N) (argc + 1) p (ustack ++ [p])) s₁ := by
    rw [pushArg_string (vaOf N) ustack harg hmax hp]
    exact bind_ok hc
  refine ⟨p, s₁, C₁, pushArgs_next hpush, hd, hput, hdir, ?_⟩
  clear hB hhi
  simp only [u32] at *
  omega

theorem pushArgs_ok (hU : StackImage U N) (hmax : argv.length ≤ maxarg) (hB : B = vaOf (N - 1)) :
    ∀ (n argc sp : Nat) (ustack : List Nat) (s : Mem) (C : Nat → Page),
    argc + n = argv.length → ustack.length = argc → sp ≤ vaOf N → Data W d g U C s →
    (B : Int) ≤ pushed sp (argv.drop argc) - 4 * (4 + argv.length) →
    ∃ s' C' ptrs sp', PushedAll W d g U s C B sp (argv.drop argc) argv.length ustack
      (pushArgs d argv (vaOf N) n argc sp ustack s) s' C' ptrs sp' := by
  intro n
  induction n with
  | zero =>
    intro argc sp ustack s C hn hus hhi h hfit
    obtain rfl : argc = argv.length := by omega
    rw [List.drop_eq_nil_of_le (Nat.le_refl _)] at hfit ⊢
    obtain ⟨s', C', sp', hp⟩ := pushArgs_words hU h hus hhi hB (by
      clear hB hhi
      simp only [pushed] at hfit
      omega)
    exact ⟨s', C', [], sp', hp⟩
  | succ n ih =>
    intro argc sp ustack s C hn hus hhi h hfit
    have hlt : argc < argv.length := by omega
    obtain ⟨arg, harg, hdrop⟩ := exists_drop_cons hlt
    rw [hdrop] at hfit ⊢
    -- The string fits, because the strings after it do not lie higher.
    have hle := pushed_le (argv.drop (argc + 1)) (((sp : Int) - (arg.length + 1)) / 4 * 4)
    have hroom : B + (arg.length + 1) ≤ sp := by
      clear hB hhi
      simp only [pushed] at hfit
      omega
    obtain ⟨p, s₁, C₁, hnext, hd, hput, -, hpq, hps, -⟩ := pushArgs_fits hU h hhi hB harg
      (by clear hB hhi; omega) hroom n ustack
    obtain ⟨s', C', ptrs, sp', hrec⟩ := ih (argc + 1) p (ustack ++ [p]) s₁ C₁ (by omega)
      (by simp [hus]) (Nat.le_trans (Nat.le_trans (Nat.le_add_right _ _) hps) hhi) hd (by rwa [hpq])
    have hlow := hrec.strings.le
    refine ⟨s', C', p :: ptrs, sp', ?_, hrec.data, hrec.low, ⟨hps, ?_, hrec.strings⟩, ?_,
      fun a ha => ?_⟩
    · rw [hnext]
      exact hrec.result
    · refine (Holds.of_put hput).congr fun i hi => hrec.frame _ (.inr (Nat.le_add_right _ _))
    · have hw := hrec.words
      rwa [List.append_assoc] at hw
    · rw [hrec.frame a (by clear hB hhi; omega), hput a, if_neg]
      rw [List.length_append, List.length_singleton]
      clear hB hhi
      omega

/-- The bytes of the strings. -/
def argBytes (args : List Bytes) : Nat := (args.map fun arg => arg.length + 1).sum

/-- How the loop ends if the arguments do not fit: not with a stack pointer, and with -1 unless a
string begins far below address 0. -/
structure Overflowed (s : Mem) (d : Ppn) (near : Prop)
    (r : EStateM.Result String Mem (Option Nat)) : Prop where
  not_ok : ∀ v s', r ≠ .ok (some v) s'
  bad : HasTable s d lastPage → near → ∃ s', r = .ok none s'

/-- Bytes that do not fit end the loop: the first page that the user may not get at has a table, or
the bytes begin far below address 0. -/
theorem overflowed_of_copyout {va r : Nat} {bs : Bytes} (hU : StackImage U N) (h : Data W d g U C s)
    (hlo : vaOf (N - 1) ≤ sp) (hhi : sp ≤ vaOf N) (hr : r ≤ 3) (hva : va < u32)
    (hbs : 0 < bs.length) (hend : (va + r + bs.length) % u32 = sp)
    (hfit : ¬ vaOf (N - 1) + r + bs.length ≤ sp) {near : Prop} (hnear : near → bs.length ≤ sp + 96)
    {x : EStateM.Result String Mem (Option Nat)} (hbad : ∀ s', copyout d va bs s = .ok (-1) s' →
      x = .ok none s')
    (herr : ∀ s', copyout d va bs s = .error "trap" s' → x = .error "trap" s') :
    Overflowed s d near x := by
  have hends := copyout_ends bs hU.kern hva h
  obtain ⟨i, hi, hg⟩ := exists_guard hU.two hlo (hend ▸ Nat.mod_lt _ (by decide)) hr hbs hend hfit
  obtain ⟨j, hj, hno, hbefore⟩ := exists_first (p := fun i => Accessible s d ((va + i) % u32))
    ⟨i, hi, hU.guard h (Nat.mod_lt _ (by decide)) hg⟩
  by_cases htab : HasTable s d ((va + j) % u32)
  · obtain ⟨s', he⟩ := hends.denied j hj hbefore hno htab
    refine ⟨fun v s'' hx => ?_, fun _ _ => ⟨s', hbad s' he⟩⟩
    cases hx.symm.trans (hbad s' he)
  obtain ⟨s', he⟩ := hends.fault j hj hbefore htab
  refine ⟨fun v s'' hx => ?_, fun htop hn => absurd ?_ htab⟩
  · cases hx.symm.trans (herr s' he)
  have hn := hnear hn
  obtain ⟨q, hq⟩ := exists_wrap hend
  have hkb : vaOf N < kernbase := by
    have := hU.lt
    simp only [vaOf, pgsize, kernbase, userPages] at *
    omega
  obtain rfl | hq1 : q = 0 ∨ 1 ≤ q := by omega
  · -- No wrap: all pages of the range are pages of the image.
    have hin : (va + j) % u32 = va + j ∧ va + j < vaOf N := by
      simp only [kernbase, u32] at *
      exact ⟨Nat.mod_eq_of_lt (by omega), by omega⟩
    obtain ⟨w, hw, -⟩ := hU.page ((va + j) / pgsize) (by
      have := hin.2
      simp only [vaOf, pgsize] at *
      omega)
    rw [hin.1]
    exact h.hasTable (by simp only [kernbase, u32] at *; omega) hw
  · -- The range begins in the last page, which is a page of the kernel.
    have hpage : va / pgsize = lastPage / pgsize := by
      simp only [pgsize, u32, kernbase, lastPage] at *
      omega
    have hmod : (va + 0) % u32 = va := Nat.mod_eq_of_lt hva
    have h0 : ¬ Accessible s d ((va + 0) % u32) := by
      rw [hmod, h.accessible_iff hva]
      rintro ⟨w, hw, hu⟩
      have hn := hU.kern.lt hw hu
      rw [hpage] at hn
      exact absurd hn (by decide)
    obtain rfl : j = 0 := Nat.eq_zero_of_not_pos fun hpos => h0 (hbefore 0 hpos)
    rw [hmod]
    exact (accessible_congr hpage).2.2 htop

theorem pushArgs_words_overflow (hU : StackImage U N) {ustack : List Nat} (h : Data W d g U C s)
    (hlen : ustack.length = argv.length) (hmax : argv.length ≤ maxarg) (hhi : sp ≤ vaOf N)
    (hB : B = vaOf (N - 1)) (hlo : B ≤ sp) (hfit : ¬ B + 4 * (4 + argv.length) ≤ sp) (near : Prop) :
    Overflowed s d near (pushArgs d argv (vaOf N) 0 argv.length sp ustack s) := by
  have hsp := hU.lt_u32 hhi
  have hpg : 4096 ≤ sp := by
    refine Nat.le_trans ?_ hlo
    rw [hB, vaOf_guard hU.two]
    exact Nat.le_add_left _ _
  have hmax' : argv.length ≤ 32 := hmax
  have hfew : 4 * (4 + argv.length) ≤ sp := Nat.le_trans (by omega) hpg
  obtain ⟨h1, h2⟩ := words_end (k := 4 + argv.length) hsp
  have hend := h2 hfew
  have harg : argv[argv.length]? = none := List.getElem?_eq_none (Nat.le_refl _)
  have h3 : (3 + argv.length + 1) * 4 = 4 * (4 + argv.length) := by omega
  obtain ⟨ws, hws, hl⟩ : ∃ ws, ([0xffffffff, argv.length, (sp + u32 - (argv.length + 1) * 4) % u32] ++
      ustack ++ [0]).flatMap wordBytes = ws ∧ ws.length = 4 * (4 + argv.length) := by
    refine ⟨_, rfl, ?_⟩
    rw [length_words]
    simp only [List.length_append, List.length_cons, List.length_nil, hlen]
    omega
  have hbs : 0 < ws.length := by
    rw [hl]
    omega
  rw [← h3] at h1
  rw [← hl] at hend hfit
  rw [← Nat.add_zero B] at hfit
  rw [hB] at hfit hlo
  have hva : (sp + u32 - (3 + argv.length + 1) * 4) % u32 =
    (sp + u32 - ws.length) % u32 := by rw [hl, h3]
  rw [← hva] at hend
  refine overflowed_of_copyout (r := 0) hU h hlo hhi (by decide) h1 hbs hend hfit
    (fun _ => by rw [hl]; exact Nat.le_trans hfew (Nat.le_add_right _ _))
    (fun s' hc => pushArgs_bad ?_) fun s' hc => pushArgs_error ?_
  · rw [pushArg_words (vaOf N) ustack harg, hws]
    exact bind_ok hc
  · rw [pushArg_words (vaOf N) ustack harg, hws]
    exact bind_error hc

theorem pushArgs_overflow (hU : StackImage U N) (hmax : argv.length ≤ maxarg)
    (hB : B = vaOf (N - 1)) : ∀ (n argc sp : Nat) (ustack : List Nat) (s : Mem) (C : Nat → Page),
    argc + n = argv.length → ustack.length = argc → B ≤ sp → sp ≤ vaOf N → Data W d g U C s →
    ¬ (B : Int) ≤ pushed sp (argv.drop argc) - 4 * (4 + argv.length) →
    Overflowed s d (argBytes (argv.drop argc) < sp + 3 * argc)
    (pushArgs d argv (vaOf N) n argc sp ustack s) := by
  have h4 : B % 4 = 0 := by
    rw [hB]
    simp only [vaOf, pgsize]
    omega
  intro n
  induction n with
  | zero =>
    intro argc sp ustack s C hn hus hlo hhi h hfit
    obtain rfl : argc = argv.length := by omega
    rw [List.drop_eq_nil_of_le (Nat.le_refl _)] at hfit ⊢
    refine pushArgs_words_overflow hU h hus hmax hhi hB hlo ?_ _
    clear hB hhi
    simp only [pushed] at hfit
    omega
  | succ n ih =>
    intro argc sp ustack s C hn hus hlo hhi h hfit
    have hlt : argc < argv.length := by omega
    obtain ⟨arg, harg, hdrop⟩ := exists_drop_cons hlt
    rw [hdrop] at hfit ⊢
    have hsp := hU.lt_u32 hhi
    have hm : argc < maxarg := by clear hB hhi; omega
    obtain ⟨r, hr3, hva, hend, hiff⟩ := push_end (arg.length + 1) hsp
    have hl : (arg ++ [0]).length = arg.length + 1 := by simp
    have hsum : argBytes (arg :: argv.drop (argc + 1)) =
      arg.length + 1 + argBytes (argv.drop (argc + 1)) := by
      simp [argBytes]
    by_cases hroom : B + (arg.length + 1) ≤ sp
    · -- This string fits, and one after it does not.
      obtain ⟨p, s₁, C₁, hnext, hd, -, hdir, hpq⟩ :=
        pushArgs_fits hU h hhi hB harg hm hroom n ustack
      have hrec := ih (argc + 1) p (ustack ++ [p]) s₁ C₁ (by omega) (by simp [hus]) hpq.2.2.2
        (Nat.le_trans (Nat.le_trans (Nat.le_add_right _ _) hpq.2.1) hhi) hd (by rw [hpq.1]; exact hfit)
      rw [hnext]
      refine ⟨hrec.not_ok, fun htop hnear => hrec.bad ?_ ?_⟩
      · unfold HasTable
        rw [hdir]
        exact htop
      · rw [hsum] at hnear
        clear hB hhi
        omega
    · have hbs : 0 < (arg ++ [0]).length := by simp
      rw [hB] at hlo hroom h4
      replace hend : ((sp + u32 - (arg.length + 1) % u32) % u32 / 4 * 4 + r + (arg ++ [0]).length) %
        u32 = sp := by
        rw [hl]
        exact hend
      have hfit' : ¬ vaOf (N - 1) + r + (arg ++ [0]).length ≤ sp := by
        rw [hl]
        exact mt (hiff _ h4).1 hroom
      refine overflowed_of_copyout hU h hlo hhi hr3 hva hbs hend hfit' (fun hnear => ?_)
        (fun s' hc => pushArgs_bad ?_) fun s' hc => pushArgs_error ?_
      · have hm' : argc < 32 := hm
        rw [hl]
        rw [hsum] at hnear
        calc arg.length + 1 ≤ arg.length + 1 + argBytes (argv.drop (argc + 1)) :=
          Nat.le_add_right _ _
          _ ≤ sp + 3 * argc := Nat.le_of_lt hnear
          _ ≤ sp + 96 := Nat.add_le_add_left (by omega) _
      · rw [pushArg_string (vaOf N) ustack harg hm rfl]
        exact bind_ok hc
      · rw [pushArg_string (vaOf N) ustack harg hm rfl]
        exact bind_error hc

end

end Xv6.Vm
