import Xv6.Vm.Proof.ExecArgs

/-!
# The image that exec loads

`allocuvm` adds pages of zeros and `loaduvm` copies bytes of the file into them. After the loop over
the program headers each byte of the image is a byte of the last segment that covers it, or zero.
-/

namespace Xv6.Vm

open Lib Function

variable {w : Word} {file bs : Bytes} {m sz newsz oldsz : Nat}

/-! ## Contents -/

section
variable {R : Type} {W : World R} {d : Ppn} {U : Nat → Option Word} {C : Nat → Page}
variable {off n offset addr : Nat}

/-! ## Segments -/

/-- The segment of the program header `ph` is loaded, and the file has a byte for the address
`a`. -/
def covers (a : Nat) (ph : Bytes) : Bool :=
  leAt ph 0 4 == 1 && leAt ph 8 4 ≤ a && a < leAt ph 8 4 + leAt ph 16 4

/-- The byte at `a` after the segments of `phs` were loaded in this order. -/
def segByte (file : Bytes) (phs : List Bytes) (a : Nat) : BitVec 8 :=
  match phs.reverse.find? (covers a) with
  | some ph => file.getD (leAt ph 4 4 + (a - leAt ph 8 4)) 0
  | none => 0

theorem segByte_append (file : Bytes) (phs : List Bytes) (ph : Bytes) (a : Nat) :
    segByte file (phs ++ [ph]) a =
    if covers a ph then file.getD (leAt ph 4 4 + (a - leAt ph 8 4)) 0 else segByte file phs a := by
  unfold segByte
  rw [List.reverse_append, List.reverse_singleton, List.singleton_append, List.find?_cons]
  by_cases h : covers a ph = true
  · rw [h, if_pos rfl]
  · rw [if_neg h, Bool.eq_false_iff.2 h]

/-- What the loop over the program headers has done. -/
structure Loaded (W : World R) (d : Ppn) (file : Bytes) (phs : List Bytes) (sz : Nat)
    (U : Nat → Option Word) (C : Nat → Page) (s : Mem) : Prop where
  data : Data W d empty U C s
  image : Image U sz
  full : Full U sz
  users : ∀ m < userPages, ∀ w, U m = some w → user w = true
  top : ∃ w, U (lastPage / pgsize) = some w
  bytes : ∀ a, byteAt C a = segByte file phs a
  zero : ∀ m, sz ≤ vaOf m → C m = Page.const 0
  /-- The file has all bytes of the segments, and the image all their addresses. -/
  inside : ∀ ph ∈ phs, leAt ph 0 4 = 1 → ((file.drop (leAt ph 4 4)).take (leAt ph 16 4)).length =
    leAt ph 16 4 ∧
    leAt ph 16 4 ≤ leAt ph 20 4 ∧ leAt ph 8 4 + leAt ph 20 4 ≤ sz

variable {file ph : Bytes} {phs : List Bytes} {sz : Nat} {s : Mem}

theorem Loaded.grown {U' : Nat → Option Word} {s' : Mem} (h : Loaded W d file phs sz U C s)
    (hg : Grown U (pagesBelow sz) newsz U') (hle : sz ≤ newsz) (hk : newsz < kernbase)
    (hd : Data W d empty U' C s') : Loaded W d file phs newsz U' C s' := by
  refine ⟨hd, h.image.grown hg hle hk, h.full.grown hg, fun m hm w hw => ?_, ?_,
    h.bytes, fun m hm => ?_, fun ph hph h1 => ?_⟩
  · by_cases hin : pagesBelow sz ≤ m ∧ vaOf m < newsz
    · obtain ⟨p, hp⟩ := hg.mapped m hin.1 hin.2
      cases hw.symm.trans hp
      exact (user_pte p _).trans (by decide)
    · exact h.users m hm w ((hg.same m hin).symm.trans hw)
  · obtain ⟨w, hw⟩ := h.top
    refine ⟨w, (hg.same _ fun hin => ?_).trans hw⟩
    exact absurd (Nat.lt_trans hin.2 hk) (by decide)
  · exact h.zero m (Nat.le_trans hle hm)
  · obtain ⟨h2, h3, h4⟩ := h.inside ph hph h1
    exact ⟨h2, h3, Nat.le_trans h4 hle⟩

theorem Loaded.skip (h : Loaded W d file phs sz U C s) (hph : leAt ph 0 4 ≠ 1) :
    Loaded W d file (phs ++ [ph]) sz U C s := by
  refine { h with bytes := fun a => ?_, inside := fun ph' hph' h1 => ?_ }
  · rw [segByte_append, h.bytes a, if_neg]
    simp [covers, hph]
  · rcases List.mem_append.1 hph' with hmem | hmem
    · exact h.inside ph' hmem h1
    · rw [List.mem_singleton.1 hmem] at h1
      exact absurd h1 hph

theorem Loaded.put {C' : Nat → Page} {s' : Mem} (h : Loaded W d file phs sz U C s)
    (hph : leAt ph 0 4 = 1) (hfz : leAt ph 16 4 ≤ leAt ph 20 4)
    (hsz : leAt ph 8 4 + leAt ph 20 4 ≤ sz) (hd : Data W d empty U C' s')
    (hlen : ((file.drop (leAt ph 4 4)).take (leAt ph 16 4)).length = leAt ph 16 4)
    (hput : Put C (leAt ph 8 4) ((file.drop (leAt ph 4 4)).take (leAt ph 16 4)) C')
    (hsame : ∀ m, leAt ph 8 4 + leAt ph 16 4 ≤ vaOf m → C' m = C m) :
    Loaded W d file (phs ++ [ph]) sz U C' s' := by
  refine { h with
    data := hd, bytes := fun a => ?_, zero := fun m hm => ?_, inside := fun ph' hph' h1 => ?_ }
  · rw [hput a, hlen, segByte_append, h.bytes a]
    by_cases hc : leAt ph 8 4 ≤ a ∧ a < leAt ph 8 4 + leAt ph 16 4
    · rw [if_pos hc, if_pos (by simp [covers, hph, hc])]
      simp only [List.getD_eq_getElem?_getD]
      rw [List.getElem?_take_of_lt (by omega), List.getElem?_drop]
    · rw [if_neg hc, if_neg]
      simpa [covers, hph] using hc
  · rw [hsame m (Nat.le_trans (Nat.le_trans (Nat.add_le_add_left hfz _) hsz) hm), h.zero m hm]
  · rcases List.mem_append.1 hph' with hmem | hmem
    · exact h.inside ph' hmem h1
    · rw [List.mem_singleton.1 hmem]
      exact ⟨hlen, hfz, hsz⟩

/-- Whatever the stages of `exec` return, the directory is sound. -/
def Built (W : World R) (d : Ppn) (s : Mem) : Prop := ∃ U, Maps W d empty U s s

theorem loadSegment_data (hfile : file.length < u32) (i off : Nat) :
    Triple (Loaded W d file phs sz U C) (loadSegment W.L d file ph i off sz)
    (fun st s => Built W d s ∧
      ∀ i' off' sz', st = .load i' off' sz' → i' = i + 1 ∧ off' = off + 32 ∧
        ∃ U' C', Loaded W d file (phs ++ [ph]) sz' U' C' s) fun _ _ => False := by
  have hv := leAt_lt ph 4 8
  have hz := leAt_lt ph 4 20
  have hbad : ∀ s, Built W d s → Built W d s ∧ ∀ i' off' sz', Stage.bad = .load i' off' sz' →
      i' = i + 1 ∧ off' = off + 32 ∧ ∃ U' C', Loaded W d file (phs ++ [ph]) sz' U' C' s :=
      fun s h => ⟨h, nofun⟩
  unfold loadSegment
  refine .of_state fun s₀ h => ?_
  have h₀ : Built W d s₀ := ⟨U, h.data.toAt⟩
  refine .ite (fun hph => .pure ?_) fun hph =>
    .ite (fun _ => .pure fun s hs => hbad s (hs ▸ h₀)) fun hfz =>
    .ite (fun _ => .pure fun s hs => hbad s (hs ▸ h₀)) fun hnw => ?_
  · rintro s rfl
    refine ⟨h₀, ?_⟩
    rintro i' off' sz' ⟨⟩
    exact ⟨rfl, rfl, U, C, h.skip hph⟩
  have hsum : (leAt ph 8 4 + leAt ph 20 4) % u32 = leAt ph 8 4 + leAt ph 20 4 := by
    simp only [u32] at *
    omega
  rw [hsum]
  refine ((allocuvm_data (E := fun _ _ _ => False) rfl rfl h.image.above fun m _ => h.zero m).triple.pre
    fun s hs => hs ▸ h.data).bind fun v => ?_
  refine Triple.pre (P := fun s => v = 0 ∧ Built W d s ∨
    ∃ U', Loaded W d file phs v U' C s ∧ leAt ph 8 4 + leAt ph 20 4 ≤ v) ?_ fun s hs => ?_
  · have hb : ∀ s, (v = 0 ∧ Built W d s ∨ ∃ U', Loaded W d file phs v U' C s ∧
        leAt ph 8 4 + leAt ph 20 4 ≤ v) →
        Built W d s := fun s h => h.elim And.right fun ⟨U', h, _⟩ => ⟨U', h.data.toAt⟩
    refine .ite (fun _ => .pure fun s h => hbad s (hb s h)) fun h0 =>
      .ite (fun _ => .pure fun s h => hbad s (hb s h)) fun hal => ?_
    refine .of_state fun s₁ h1 => ?_
    obtain ⟨U', h1, hle⟩ := h1.resolve_left fun h => h0 h.1
    refine ((loaduvm_data (E := fun _ _ _ => False) (not_not.1 hal) ?_ fun m _ hm => ?_).triple.pre
      fun s hs => hs ▸ h1.data).bind fun r => .ite (fun _ => .pure fun s h2 => ?_)
      fun hr => .pure fun s h2 => ?_
    · have := h1.image.le
      omega
    · exact h1.full m (by omega)
    · obtain ⟨C', hd, -⟩ := h2
      exact hbad s ⟨U', hd.toAt⟩
    · obtain ⟨C', hd, h2⟩ := h2
      refine ⟨⟨U', hd.toAt⟩, ?_⟩
      rintro i' off' sz' ⟨⟩
      obtain ⟨hlen, hput, hsame⟩ := h2 hfile (leAt_lt ph 4 4) hr
      exact ⟨rfl, rfl, U', C', h1.put (not_not.1 hph) (by omega) hle hd hlen hput hsame⟩
  · rcases hs with ⟨hv, hd⟩ | ⟨rfl, hlt, hd⟩ | ⟨rfl, hle, hk, U', hd, hg⟩
    · exact .inl ⟨hv, U, hd⟩
    · exact .inr ⟨U, { h with data := hd }, Nat.le_of_lt hlt⟩
    · exact .inr ⟨U', h.grown hg hle hk hd, Nat.le_refl _⟩

/-- The `n` program headers from `off`. -/
def headers (file : Bytes) : Nat → Nat → List Bytes
  | 0, _ => []
  | n + 1, off => (readi file (off % u32) 32).getD [] :: headers file n (off + 32)

theorem loadSegments_data (hfile : file.length < u32) : ∀ (n i off sz : Nat) (phs : List Bytes)
    (U : Nat → Option Word) (C : Nat → Page),
    Triple (Loaded W d file phs sz U C) (loadSegments W.L d file n i off sz)
    (fun v s => Built W d s ∧
      ∀ sz', v = some sz' → ∃ U' C', Loaded W d file (phs ++ headers file n off) sz' U' C' s)
      fun _ _ => False := by
  intro n
  induction n with
  | zero =>
    intro i off sz phs U C
    refine .pure fun s h => ⟨⟨U, h.data.toAt⟩, fun sz' hsz => ⟨U, C, ?_⟩⟩
    cases hsz
    rw [headers, List.append_nil]
    exact h
  | succ n ih =>
    intro i off sz phs U C
    unfold loadSegments headers
    cases hph : readi file (off % u32) 32 with
    | none => exact .pure fun s h => ⟨⟨U, h.data.toAt⟩, nofun⟩
    | some ph =>
      refine .ite (fun _ => .pure fun s h => ⟨⟨U, h.data.toAt⟩, nofun⟩) fun _ => ?_
      refine (loadSegment_data hfile i off).bind fun st => ?_
      cases st with
      | load i' off' sz' =>
        refine .of_state fun s₀ h => ?_
        obtain ⟨rfl, rfl, U', C', h'⟩ := h.2 _ _ _ rfl
        have h1 := ih (i + 1) (off + 32) sz' (phs ++ [ph]) U' C'
        rw [List.append_assoc] at h1
        exact h1.pre fun s hs => hs ▸ h'
      | stack | args | commit | bad => exact .pure fun s h => ⟨h.1, nofun⟩

/-! ## The stack -/

theorem Loaded.stackImage {U' : Nat → Option Word} {P : Nat} (h : Loaded W d file phs sz U C s)
    (hP : pagesBelow sz = P) (hk : vaOf (P + 2) < kernbase) (hg : Grown U P (vaOf (P + 2)) U')
    (hw : U' P = some w) :
    StackImage (update U' P (some (w &&& ~~~(pte 0 pteU)))) (P + 2) := by
  have hlt : P + 2 < userPages := lt_userPages hk
  refine ⟨Nat.le_add_left .., hlt, fun n hn => ?_, fun n hle hn => ?_, fun n v hn hv => ?_⟩
  · by_cases hnP : n = P
    · subst hnP
      exact ⟨_, update_self .., by rw [user_clear]; simp⟩
    rw [update_of_ne hnP]
    by_cases hlo : P ≤ n
    · obtain ⟨p, hp⟩ := hg.mapped n hlo (vaOf_lt hn)
      refine ⟨_, hp, ?_⟩
      rw [user_pte]
      exact ⟨fun _ => hnP, fun _ => by decide⟩
    · rw [hg.same n fun hin => hlo hin.1]
      obtain ⟨v, hv⟩ := h.full n (Nat.lt_of_not_le fun hle => hlo (hP ▸ pagesBelow_le.2 hle))
      exact ⟨v, hv, fun _ => hnP, fun _ => h.users n (by omega) v hv⟩
  · rw [update_of_ne (by omega), hg.same n fun hin => absurd hin.2 (Nat.not_lt.2 (vaOf_mono hle))]
    refine h.image.above n hn (pagesBelow_le.1 ?_)
    omega
  · rw [update_of_ne (by omega), hg.same n fun hin => ?_] at hv
    · exact h.image.kern n v hn hv
    · exact absurd (Nat.lt_trans hin.2 hk) (Nat.not_lt.2 (kernbase_le hn))

/-! ## The stages, which never stop -/

theorem Covered.top {L : Layout} {U : Nat → Option Word} (h : Covered (kmap L) U) :
    ∃ w, U (lastPage / pgsize) = some w := by
  refine Option.ne_none_iff_exists'.1 (h ⟨devspace, devspace, 0, pteW⟩ (by simp [kmap]) _ ?_ ?_)
  · decide
  · decide

theorem setupkvm_loaded {X : Nat → Option Word} (file : Bytes) :
    Triple (fun s => At W none empty none X s s) (setupkvm W.L) (fun v s =>
      match v with
      | none => At W none empty none X s s
      | some d => ∃ U, Loaded W d file [] 0 U (fun _ => Page.const 0) s) fun _ _ => False := by
  refine (setupkvm_twin (E := fun _ _ _ => False) rfl rfl).triple.post fun v s h => ?_
  cases v with
  | none => exact h
  | some d =>
    obtain ⟨U, ha, hk, hc⟩ := h
    have hnone : ∀ m < userPages, ∀ w, U m ≠ some w := fun m hm w => by
      rw [hk.user_none m hm]
      nofun
    refine ⟨U, ⟨ha, fun m hm w hw => absurd hw (hnone m hm w)⟩, hk.image (Nat.zero_le _), nofun,
      fun m hm w hw => absurd hw (hnone m hm w), hc.top, fun a => ?_, fun _ _ => rfl, nofun⟩
    show (Page.const 0).byte (a % pgsize) = 0
    simp [Page.byte, Page.const]

theorem makeStack_returns {s₀ : Mem} (h : Loaded W d file phs sz U C s₀) :
    ∃ st s, makeStack W.L d sz s₀ = .ok st s ∧ Built W d s ∧
      ∀ sz' i sp us, st = .args sz' i sp us → sz' = vaOf (pagesBelow sz + 2) ∧
        ∃ U', StackImage U' (pagesBelow sz + 2) ∧ Data W d empty U' C s ∧
        ∃ w, U' (lastPage / pgsize) = some w := by
  have h1 := @makeStack_data R W U d C (fun _ _ _ => False) sz _ rfl h.image fun m _ => h.zero m
  generalize makeStack W.L d sz = x at h1 ⊢
  obtain ⟨st, s, hx, hs⟩ := h1.triple.returns h.data
  refine ⟨st, s, hx, ?_⟩
  rcases hs with ⟨rfl, hb⟩ | ⟨U', w, rfl, hk, hg, hw, hd⟩
  · exact ⟨hb, nofun⟩
  refine ⟨⟨_, hd.toAt⟩, ?_⟩
  rintro sz' i sp us ⟨⟩
  refine ⟨rfl, _, h.stackImage rfl hk hg hw, hd, ?_⟩
  obtain ⟨w', hw'⟩ := h.top
  refine ⟨w', ?_⟩
  rw [update_of_ne, hg.same _ fun hin => absurd (Nat.lt_trans hin.2 hk) (by decide), hw']
  intro he
  have hlt := lt_userPages (Nat.lt_trans (vaOf_lt (Nat.lt_add_of_pos_right (k := 2) (by decide))) hk)
  rw [← he] at hlt
  exact absurd hlt (by decide)

end

end Xv6.Vm
