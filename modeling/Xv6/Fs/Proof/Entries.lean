import Xv6.Fs.Proof.Cache

/-!
# Directory entries

A directory is read in records of 16 bytes: `dirent v d j` is record `j` of directory `d`. The loops
of `dirlookup`, `dirlink` and `isdirempty` over a directory that is in order (`Ready`) change
nothing; what they return is stated in terms of its records.
-/

namespace Xv6.Fs

open Lib Function

variable {sb : Superblock} {off j : Nat} {src : List UInt8} {s' : State}

/-- Entry `j` of directory `d`. -/
def Vol.dirent (v : Vol) (d j : Nat) : Dirent :=
  .ofBytes (readRange (v.byte d) (deSize * j) deSize)

section
variable {c : Ctx} {ip dp : Fin ninode} {s : State} {E : Stop → State → Prop}

theorem Ready.size_le (h : Ready c.sb s ip) : (s.icache ip).size ≤ maxFile * bsize := by
  by_contra hgt
  have := (h.sized maxFile (by omega)).1
  omega

theorem Wrote.ready (hw : Wrote sb ip off src s s') (h : Ready sb s ip)
    (hoff : off ≤ (s.icache ip).size) (hmax : off + src.length ≤ maxFile * bsize) :
    Ready sb s' ip := by
  have hself : s'.icache ip = { s.icache ip with toDinode := s'.dinode (s.icache ip).inum } := by
    rw [hw.entry, update_self]
  have hinum : (s'.icache ip).inum = (s.icache ip).inum := by rw [hself]
  have hd : s'.dinode (s'.icache ip).inum = (s'.icache ip).toDinode := by
    rw [hinum, hself]
  have hsz : (s'.icache ip).size = max (s.icache ip).size (off + src.length) := by
    rw [← hd, hinum, hw.self]
  refine ⟨hw.own, ⟨?_, ?_⟩, hd, fun bn hbn => ?_⟩
  · rw [hinum]
    exact h.live.1
  · show (s'.dinode _).type ≠ none
    rw [hinum, hw.self]
    exact h.live.2
  · rw [hsz] at hbn
    rw [hinum]
    by_cases hin : bn * bsize < (s.icache ip).size
    · obtain ⟨h1, h2⟩ := h.sized bn hin
      rw [hw.keep _ _ h.live h2]
      exact ⟨h1, h2⟩
    · -- the file has grown over this block
      have hbn' : bn < maxFile := by
        by_contra hge
        have := Nat.mul_le_mul_right bsize (Nat.le_of_not_lt hge)
        omega
      have := hw.mapped (bn * bsize) (by omega) (by omega)
      rw [Nat.mul_div_cancel _ (by decide)] at this
      exact ⟨hbn', this⟩

theorem Wrote.filled (hw : Wrote sb ip off src s s') (hsrc : 0 < src.length) {k : Slot}
    (hk : k ∈ rangeSlots off src.length) : s'.vol.addr (s.icache ip).inum k ≠ 0 := by
  obtain ⟨bn, hbn, hk⟩ := Finset.mem_biUnion.1 hk
  obtain ⟨-, h1, h2⟩ := Finset.mem_filter.1 hbn
  refine Vol.addr_ne_of_slotsFor ?_ hk
  -- a byte of the block that is in the range
  have hx : max off (bn * bsize) / bsize = bn := by
    refine Nat.div_eq_of_lt_le (Nat.le_max_right ..) ?_
    have := Nat.div_add_mod off bsize
    have := Nat.mod_lt off (show 0 < bsize by decide)
    have := Nat.mul_le_mul_left bsize h1
    rw [Nat.add_one_mul, Nat.mul_comm bn]
    omega
  have := hw.mapped (max off (bn * bsize)) (Nat.le_max_left ..) (by omega)
  rwa [hx] at this

theorem Wrote.enough (hw : Wrote sb ip off src s s') (hsrc : 0 < src.length) (h : Ready sb s ip) :
    s.vol.Enough sb (s.icache ip).inum (rangeSlots off src.length) := by
  have hlive : ∀ j, s.vol.Live sb j → s'.vol.Live sb j := by
    refine fun j hj => ⟨hj.1, ?_⟩
    show (s'.dinode j).type ≠ none
    by_cases hji : j = (s.icache ip).inum
    · rw [hji, hw.self]
      exact h.live.2
    · rw [hw.others j hji]
      exact hj.2
  have hself := hlive _ h.live
  refine Finset.card_le_card_of_injOn (s'.vol.addr (s.icache ip).inum) (fun k hk => ?_)
    fun k hk k' hk' heq => ?_
  · obtain ⟨hk, h0⟩ := Finset.mem_filter.1 hk
    have hk' := hw.filled hsrc hk
    have hdata := (hw.own.data hself hk').1
    refine Finset.mem_filter.2 ⟨Finset.mem_range.2 hdata.2, ?_⟩
    -- a block in use was in another slot, and would still be there
    by_contra hb
    rcases Ledger.cover h.own _ ⟨by simpa using hb, hdata.2⟩ with hr | ⟨⟨j, k'⟩, hj⟩
    · exact hdata.1 hr.1
    · obtain ⟨hj, ha, hne⟩ := Vol.has_eq_some.1 hj
      have hka := hw.keep j k' hj (ha ▸ hne)
      obtain ⟨rfl, rfl⟩ := hw.own.inj hself (hlive j hj) hk' (hka.trans ha)
      rw [h0] at ha
      exact hne ha.symm
  · obtain ⟨hk', -⟩ := Finset.mem_filter.1 hk'
    exact (hw.own.inj hself hself (hw.filled hsrc hk') heq).2

theorem Wrote.dirent (hw : Wrote sb dp (deSize * j) src s s')
    (hlen : src.length = deSize) (n : Nat) :
    s'.vol.dirent (s.icache dp).inum n =
      update (s.vol.dirent (s.icache dp).inum) j (.ofBytes src) n := by
  have hbyte : s'.vol.byte (s.icache dp).inum =
      writeRange (s.vol.byte (s.icache dp).inum) (deSize * j) src := funext hw.byte
  unfold Vol.dirent
  rw [hbyte]
  by_cases hnj : n = j
  · subst hnj
    rw [update_self, ← hlen, readRange_writeRange]
  · rw [update_of_ne hnj]
    congr 1
    refine readRange_congr fun k hk => ?_
    -- the other records lie below or above
    rcases Nat.lt_or_gt_of_ne hnj with hlt | hgt
    · refine writeRange_of_lt ?_
      simp only [deSize, dirsiz] at *
      omega
    · refine writeRange_of_ge ?_
      simp only [deSize, dirsiz] at *
      omega

theorem Ready.enough (h : Ready sb s ip) {n : Nat} (hle : off + n ≤ (s.icache ip).size) :
    s.vol.Enough sb (s.icache ip).inum (rangeSlots off n) := by
  have hno : ((rangeSlots off n).filter fun k => s.vol.addr (s.icache ip).inum k = 0) = ∅ := by
    refine Finset.filter_eq_empty_iff.2 fun k hk => ?_
    obtain ⟨bn, hbn, hk⟩ := Finset.mem_biUnion.1 hk
    obtain ⟨-, -, hlt⟩ := Finset.mem_filter.1 hbn
    exact Vol.addr_ne_of_slotsFor (h.sized bn (by omega)).2 hk
  unfold Vol.Enough
  rw [hno]
  exact Nat.zero_le _

theorem Ready.readi (h : Ready c.sb s ip) (off n : Nat) :
    Triple (· = s) (readi c ip off n)
      (fun r s' => s' = s ∧ ((s.icache ip).type ≠ some .dev → off ≤ (s.icache ip).size →
        off + n < 2 ^ 32 → r = (↑(min n ((s.icache ip).size - off)),
          readRange (s.vol.byte (s.icache ip).inum) off (min n ((s.icache ip).size - off)))))
          E := by
  have hvol := Core.volAt_eq h.sync
  rw [← hvol]
  refine readi_spec (hvol ▸ h.own) (hvol ▸ h.live) off n fun x _ _ hx =>
    hvol ▸ h.sized (x / bsize) ?_
  exact (Nat.div_mul_le_self x bsize).trans_lt hx

theorem Ready.readDirent (h : Ready c.sb s dp) (hd : (s.icache dp).type = some .dir)
    (hj : deSize * j < (s.icache dp).size) :
    Triple (· = s) (Fs.readi c dp (deSize * j) deSize)
      (fun r s' => s' = s ∧ (r.1 = deSize ↔ deSize * (j + 1) ≤ (s.icache dp).size) ∧
        (r.1 = deSize → Dirent.ofBytes r.2 = s.vol.dirent (s.icache dp).inum j)) E := by
  have hmax := h.size_le
  simp only [maxFile, ndirect, nindirect, bsize] at hmax
  refine (h.readi _ _).post fun r s' ⟨hs, hr⟩ => ⟨hs, ?_⟩
  obtain rfl := hr (by rw [hd]; nofun) (by omega) (by simp only [deSize, dirsiz] at *; omega)
  have hle : min deSize ((s.icache dp).size - deSize * j) = deSize ↔
      deSize * (j + 1) ≤ (s.icache dp).size := by
    rw [Nat.mul_add]
    omega
  refine ⟨Int.ofNat_inj.trans hle, fun hlen => ?_⟩
  show Dirent.ofBytes (readRange _ _ (min _ _)) = _
  rw [Int.ofNat_inj.1 hlen]
  rfl

/-- Entry `j` is in use under `name`. -/
def Matches (s : State) (d : Nat) (name : List UInt8) (j : Nat) : Prop :=
  (s.vol.dirent d j).inum ≠ 0 ∧ namecmp name (s.vol.dirent d j).name = 0

/-- What `dirlookup` finds: the first record with the name, if there is one. -/
inductive Found (s : State) (dp : Fin ninode) (name : List UInt8) :
    Option (Fin ninode × Nat) → State → Prop
  | none (h : ∀ j, deSize * (j + 1) ≤ (s.icache dp).size →
      ¬ Matches s (s.icache dp).inum name j) : Found s dp name none s
  | some {j : Nat} {ip : Fin ninode} {s' : State} (hj : deSize * (j + 1) ≤ (s.icache dp).size)
      (h : Matches s (s.icache dp).inum name j)
      (hfirst : ∀ i < j, ¬ Matches s (s.icache dp).inum name i)
      (hg : Got s (s.vol.dirent (s.icache dp).inum j).inum ip s') :
      Found s dp name (some (ip, deSize * j)) s'

/-- `iget(inum)` finds an entry. -/
def CacheRoom (s : State) (inum : Nat) : Prop :=
  ∃ k, (s.icache k).ref = 0 ∨ 0 < (s.icache k).ref ∧ (s.icache k).inum = inum

/-- Why `dirlookup` stops: a record that is not whole, or no room in the cache for the inode. -/
inductive LookupStop (s : State) (dp : Fin ninode) (name : List UInt8) : Stop → Prop
  | read (h : ¬ deSize ∣ (s.icache dp).size) : LookupStop s dp name (.panic "dirlookup read")
  | notDir (h : (s.icache dp).type ≠ some .dir) : LookupStop s dp name (.panic "dirlookup not DIR")
  | full {j : Nat} (hj : deSize * (j + 1) ≤ (s.icache dp).size)
      (h : Matches s (s.icache dp).inum name j)
      (hfirst : ∀ i < j, ¬ Matches s (s.icache dp).inum name i)
      (hf : ¬ CacheRoom s (s.vol.dirent (s.icache dp).inum j).inum) :
      LookupStop s dp name (.panic "iget: no inodes")

theorem whole_of_lt {size : Nat} (h : deSize ∣ size) (hj : deSize * j < size) :
    deSize * (j + 1) ≤ size := by
  obtain ⟨n, rfl⟩ := h
  exact Nat.mul_le_mul_left _ (Nat.lt_of_mul_lt_mul_left hj)

theorem size_le_next {size turns : Nat} (h : size ≤ deSize * j + (turns + 1)) :
    size ≤ deSize * (j + 1) + turns := by
  rw [Nat.mul_add]
  simp only [deSize, dirsiz] at *
  omega

theorem lt_of_record {i size : Nat} (hi : deSize * (i + 1) ≤ size)
    (h : size ≤ deSize * j) : i < j :=
  Nat.le_of_mul_le_mul_left (hi.trans h) (by decide)

theorem iget_stop (s : State) (inum : Nat) :
    Triple (· = s) (iget inum) (fun ip s' => Got s inum ip s')
      fun e s' => (e = .panic "iget: no inodes" ∧ ¬ CacheRoom s inum) ∧ s' = s := by
  refine ((iget_spec s inum).and (iget_full s inum)).conseq (fun _ h => ⟨h, h⟩) (fun _ _ h => h.1)
    fun e s' ⟨⟨he, hs⟩, hf⟩ => ⟨⟨he, fun ⟨k, hk⟩ => ?_⟩, hs⟩
  exact hk.elim (hf k).1 (hf k).2

theorem dirlookupFrom_spec (h : Ready c.sb s dp) (hd : (s.icache dp).type = some .dir)
    (name : List UInt8) : ∀ turns j, (s.icache dp).size ≤ deSize * j + turns →
      (∀ i < j, ¬ Matches s (s.icache dp).inum name i) →
      Triple (· = s)
        (dirlookupFrom c dp name (s.icache dp).size turns (deSize * j)) (Found s dp name)
        fun e s' => LookupStop s dp name e ∧ s' = s
  | 0, j, ht, hno => .pure fun s' hs => by
      rw [hs]
      exact .none fun i hi => hno i (lt_of_record hi ht)
  | turns + 1, j, ht, hno => by
    refine .ite (fun hlt => ?_) fun hge => .pure fun s' hs => by
      rw [hs]
      exact .none fun i hi => hno i (lt_of_record hi (Nat.le_of_not_lt hge))
    refine (h.readDirent hd hlt).bind fun r => .of_and fun ⟨hr, heq⟩ => ?_
    refine .ite (fun hlen => .throw fun _ hs => ⟨.read fun hdvd => hlen ?_, hs⟩) fun hlen => ?_
    · exact hr.2 (whole_of_lt hdvd hlt)
    have hlen : r.1 = deSize := by simpa using hlen
    rw [heq hlen]
    refine .ite (fun hm => ?_) fun hm => ?_
    · refine .bind ((iget_stop s _).onError ?_) fun ip =>
        .pure fun s' hg => .some (hr.1 hlen) hm hno hg
      rintro e s' ⟨⟨rfl, hf⟩, hs⟩
      exact ⟨.full (hr.1 hlen) hm hno hf, hs⟩
    · exact dirlookupFrom_spec h hd name turns (j + 1) (size_le_next ht)
        (Nat.forall_lt_succ_right.2 ⟨hno, hm⟩)

theorem dirlookup_spec (h : Ready c.sb s dp) (name : List UInt8) :
    Triple (· = s) (dirlookup c dp name)
      (fun r s' => Found s dp name r s' ∧ (s.icache dp).type = some .dir)
      fun e s' => LookupStop s dp name e ∧ s' = s := by
  refine .read_bind rfl ?_
  refine .ite (fun hd => .throw fun _ hs => ⟨.notDir hd, hs⟩) fun hd => ?_
  exact (dirlookupFrom_spec h (by simpa using hd) name _ 0 (by omega) nofun).post fun _ _ hf =>
    ⟨hf, by simpa using hd⟩

/-- The record that `dirlink` writes to: the first that is empty, or the one after the last. -/
structure Vacant (s : State) (dp : Fin ninode) (j : Nat) : Prop where
  full : ∀ i < j, (s.vol.dirent (s.icache dp).inum i).inum ≠ 0
  here : deSize * (j + 1) ≤ (s.icache dp).size ∧ (s.vol.dirent (s.icache dp).inum j).inum = 0 ∨
    (s.icache dp).size ≤ deSize * j
  low : ∀ i < j, deSize * (i + 1) ≤ (s.icache dp).size

theorem emptyFrom_spec (h : Ready c.sb s dp) (hd : (s.icache dp).type = some .dir) :
    ∀ turns j, (s.icache dp).size ≤ deSize * j + turns →
      (∀ i < j, (s.vol.dirent (s.icache dp).inum i).inum ≠ 0) →
      (∀ i < j, deSize * (i + 1) ≤ (s.icache dp).size) →
      Triple (· = s) (emptyFrom c dp (s.icache dp).size turns (deSize * j))
        (fun off s' => s' = s ∧ ∃ j, off = deSize * j ∧ Vacant s dp j)
        fun e s' => (e = .panic "dirlink read" ∧ ¬ deSize ∣ (s.icache dp).size) ∧ s' = s
  | 0, j, ht, hfull, hlow => .pure fun s' hs => ⟨hs, j, rfl, hfull, .inr (by omega), hlow⟩
  | turns + 1, j, ht, hfull, hlow => by
    refine .ite (fun hlt => ?_) fun hge =>
      .pure fun s' hs => ⟨hs, j, rfl, hfull, .inr (by omega), hlow⟩
    refine (h.readDirent hd hlt).bind fun r => .of_and fun ⟨hr, heq⟩ => ?_
    refine .ite (fun hlen => .throw fun _ hs => ⟨⟨rfl, fun hdvd => hlen ?_⟩, hs⟩) fun hlen => ?_
    · exact hr.2 (whole_of_lt hdvd hlt)
    have hlen : r.1 = deSize := by simpa using hlen
    have hj := hr.1 hlen
    rw [heq hlen]
    refine .ite (fun hz => .pure fun s' hs => ⟨hs, j, rfl, hfull, .inl ⟨hj, hz⟩, hlow⟩) fun hz => ?_
    exact emptyFrom_spec h hd turns (j + 1) (size_le_next ht)
      (Nat.forall_lt_succ_right.2 ⟨hfull, hz⟩) (Nat.forall_lt_succ_right.2 ⟨hlow, hj⟩)

theorem isdiremptyFrom_spec (h : Ready c.sb s dp) (hd : (s.icache dp).type = some .dir) :
    ∀ turns j, (s.icache dp).size ≤ deSize * j + turns →
      Triple (· = s) (isdiremptyFrom c dp (s.icache dp).size turns (deSize * j))
        (fun r s' => s' = s ∧ (r = true ↔ ∀ i, j ≤ i → deSize * (i + 1) ≤ (s.icache dp).size →
          (s.vol.dirent (s.icache dp).inum i).inum = 0))
        fun e s' => e = .panic "isdirempty: readi" ∧ s' = s
  | 0, j, ht => .pure fun s' hs => ⟨hs, iff_of_true rfl fun i hi hle => by
      have := lt_of_record hle ht
      omega⟩
  | turns + 1, j, ht => by
    refine .ite (fun hlt => ?_) fun hge => .pure fun s' hs =>
      ⟨hs, iff_of_true rfl fun i hi hle => ?_⟩
    · refine (h.readDirent hd hlt).bind fun r => .of_and fun ⟨hr, heq⟩ => ?_
      refine .ite (fun _ => .throw fun _ hs => ⟨rfl, hs⟩) fun hlen => ?_
      have hlen : r.1 = deSize := by simpa using hlen
      rw [heq hlen]
      refine .ite (fun hz => .pure fun s' hs => ⟨hs, iff_of_false nofun fun hall => ?_⟩)
        fun hz => ?_
      · exact hz (hall j (Nat.le_refl _) (hr.1 hlen))
      · refine (isdiremptyFrom_spec h hd turns (j + 1) (size_le_next ht)).post
          fun r s' ⟨hs, hiff⟩ =>
          ⟨hs, hiff.trans ⟨fun hall i hi hle => ?_, fun hall i hi hle => hall i (by omega) hle⟩⟩
        rcases Nat.eq_or_lt_of_le hi with rfl | hi
        · simpa using hz
        · exact hall i hi hle
    · have := lt_of_record hle (Nat.le_of_not_lt hge)
      omega

/-- Nothing after "." and "..". -/
def NoEntries (s : State) (dp : Fin ninode) : Prop :=
  ∀ j, 2 ≤ j → deSize * (j + 1) ≤ (s.icache dp).size → (s.vol.dirent (s.icache dp).inum j).inum = 0

theorem isdirempty_spec (h : Ready c.sb s dp) (hd : (s.icache dp).type = some .dir) :
    Triple (· = s) (isdirempty c dp) (fun r s' => s' = s ∧ (r = true ↔ NoEntries s dp))
      fun e s' => e = .panic "isdirempty: readi" ∧ s' = s := by
  refine .read_bind rfl ?_
  rw [Nat.mul_comm]
  exact isdiremptyFrom_spec h hd _ 2 (by omega)

/-- The state when `ialloc` has marked the inode `inum` as allocated. -/
structure Marked (sb : Superblock) (type : FileType) (inum : Nat) (s s' : State) : Prop where
  pos : 1 ≤ inum
  lt : inum < sb.ninodes
  free : (s.dinode inum).type = none
  core : s'.toCore = { s.toCore with
    dinode := update s.dinode inum { Dinode.zero with type := some type } }
  hist : ∃ m, s'.hist = (.alloc inum, s'.toCore) :: (.logWrite (sb.iblock inum), m) :: s.hist

/-- `ialloc` has marked an inode and returned its entry. -/
def Alloced (sb : Superblock) (type : FileType) (s : State) (ip : Fin ninode) (s' : State) : Prop :=
  ∃ inum s₁, Marked sb type inum s s₁ ∧ Got s₁ inum ip s'

theorem ialloc_spec (type : FileType) (s : State) :
    Triple (· = s) (ialloc c type) (fun ip s' => Alloced c.sb type s ip s')
      fun e _ => e = .panic "ialloc: no inodes" ∨ e = .panic "iget: no inodes" := by
  refine .read_bind rfl ?_
  split
  · next inum hf =>
    have h0 : (s.dinode inum).type = none := by simpa using List.find?_some hf
    have hm := List.mem_range'_1.1 (List.mem_of_find?_eq_some hf)
    refine .bind (Q := fun _ s' => ∃ m, s' = { s with
        dinode := update s.dinode inum { Dinode.zero with type := some type }
        hist := (.logWrite (c.sb.iblock inum), m) :: s.hist }) ?_ fun _ => .exists_pre fun m => ?_
    · refine .bind (Q := fun _ s' => s' = { s with
        dinode := update s.dinode inum { Dinode.zero with type := some type } })
        (.modify fun _ hs => by rw [hs]) fun _ => .modify ?_
      rintro _ rfl
      exact ⟨_, rfl⟩
    · refine (note_spec _ _).bind fun _ => (iget_spec _ inum).conseq (fun _ => id) ?_ ?_
      · intro ip s' hg
        exact ⟨inum, _, ⟨hm.1, by omega, h0, rfl, m, rfl⟩, hg⟩
      · rintro e s' ⟨rfl, -⟩
        exact .inr rfl
  · exact .throw fun _ _ => .inl rfl

end

end Xv6.Fs
