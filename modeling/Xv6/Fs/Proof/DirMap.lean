import Xv6.Lib.Slots
import Xv6.Fs.Proof.Names
import Xv6.Fs.Proof.FileBytes

/-!
# Directories are finite maps

The records of a directory are a table of slots (`Core.entries`), and the table is a map from names
to inode numbers (`Core.dirMap`). `dirlookup` looks a name up in the map, `dirlink` adds a binding,
and the write of zeros in `sys_unlink` takes one out.

Two things stand in the way. `dirlookup` returns an inode with a reference, so it needs an entry of
the inode cache; and `dirlink` drops the reference of an inode that it has found with `iput`, which
locks the inode. A caller of `dirlink` has locked the directory, and waits for itself if the name is
`"."`.
-/

namespace Xv6.Fs

open Lib Function

variable {d : Nat} {src : List UInt8}

/-- The entry as a binding of a name. -/
def Dirent.slot (de : Dirent) : Option (List UInt8 × Nat) :=
  if de.inum = 0 then none else some (cut de.name, de.inum)

/-- The entries of directory `d`. -/
def Core.entries (s : Core) (d : Nat) : Slots (List UInt8) Nat :=
  ⟨(s.dinode d).size / deSize, fun j => (s.vol.dirent d j).slot⟩

/-- The map from names to inode numbers that a directory is. -/
abbrev Core.dirMap (s : Core) (d : Nat) : List UInt8 → Option Nat := (s.entries d).lookup

theorem Dirent.slot_eq_some {de : Dirent} {k : List UInt8} {i : Nat} :
    de.slot = some (k, i) ↔ de.inum = i ∧ i ≠ 0 ∧ cut de.name = k := by
  unfold slot
  split
  · next h =>
    refine iff_of_false nofun fun h' => h'.2.1 ?_
    rw [← h'.1, h]
  · next h =>
    simp only [Option.some.injEq, Prod.mk.injEq]
    constructor
    · rintro ⟨rfl, rfl⟩
      exact ⟨rfl, h, rfl⟩
    · rintro ⟨rfl, -, rfl⟩
      exact ⟨rfl, rfl⟩

theorem Dirent.slot_eq_none {de : Dirent} : de.slot = none ↔ de.inum = 0 := by
  simp [slot]

theorem Vol.dirent_lt (v : Vol) (d j : Nat) : (v.dirent d j).inum < 2 ^ 16 := by
  refine (leNat_lt _).trans_le (Nat.pow_le_pow_right (by decide) ?_ : 256 ^ _ ≤ 256 ^ 2)
  exact List.length_take_le ..

theorem Core.dirMap_lt {s : Core} {i : Nat} {k : List UInt8} (h : s.dirMap d k = some i) :
    i < 2 ^ 16 := by
  obtain ⟨j, -, hj⟩ := Slots.exists_of_lookup h
  rw [← (Dirent.slot_eq_some.1 hj).1]
  exact s.vol.dirent_lt d j

/-- A directory that is in order: records are whole, and no two in use have the same name. -/
structure DirOk (sb : Superblock) (s : State) (dp : Fin ninode) : Prop extends Ready sb s dp where
  dir : (s.icache dp).type = some .dir
  whole : deSize ∣ (s.icache dp).size
  distinct : (s.entries (s.icache dp).inum).Distinct

/-- No inode has two entries of the cache in use, an entry that is not in use is not locked, and
only the process `me` has locks. -/
structure CacheOk (me : Fin nproc) (s : State) : Prop where
  alone : ∀ k k', 0 < (s.icache k).ref → 0 < (s.icache k').ref →
    (s.icache k).inum = (s.icache k').inum → k = k'
  idle : ∀ k, (s.icache k).ref = 0 → (s.icache k).lock = none
  mine : ∀ k p, (s.icache k).lock = some p → p = me

/-- A directory of maximal size with no free entry. -/
def Full (s : State) (dp : Fin ninode) : Prop :=
  maxFile * bsize < (s.icache dp).size + deSize ∧
    ∀ j, deSize * (j + 1) ≤ (s.icache dp).size → (s.vol.dirent (s.icache dp).inum j).inum ≠ 0

/-- The process `me` has not locked the inode. -/
def Unheld (me : Fin nproc) (s : State) (inum : Nat) : Prop :=
  ∀ k, 0 < (s.icache k).ref → (s.icache k).inum = inum → (s.icache k).lock ≠ some me

/-- What can be seen of the state has not changed: the disk, the tables of files and processes, and
the entries of the cache that are in use. -/
structure Untouched (s s' : State) : Prop where
  vol : s'.vol = s.vol
  ftable : s'.ftable = s.ftable
  procs : s'.procs = s.procs
  ref : ∀ k, (s'.icache k).ref = (s.icache k).ref
  entry : ∀ k, 0 < (s.icache k).ref → s'.icache k = s.icache k

section
variable {c : Ctx} {s s' : State} {dp ip : Fin ninode} {name : List UInt8} {i j inum : Nat}

theorem Ready.lt_entries (h : Ready c.sb s dp) :
    j < (s.entries (s.icache dp).inum).size ↔ deSize * (j + 1) ≤ (s.icache dp).size := by
  show j < (s.dinode _).size / deSize ↔ _
  rw [h.sync, Nat.lt_iff_add_one_le, Nat.le_div_iff_mul_le (by decide), Nat.mul_comm]

theorem Matches.slot (h : Matches s d name j) :
    (s.entries d).slot j = some (cut name, (s.vol.dirent d j).inum) :=
  Dirent.slot_eq_some.2 ⟨rfl, h.1, (namecmp_eq_zero.1 h.2).symm⟩

theorem matches_of_slot (h : (s.entries d).slot j = some (cut name, i)) :
    Matches s d name j := by
  obtain ⟨h1, h2, h3⟩ := Dirent.slot_eq_some.1 h
  exact ⟨h1 ▸ h2, namecmp_eq_zero.2 h3.symm⟩

theorem Ready.dirlookup (h : Ready c.sb s dp) (hd : (s.icache dp).type = some .dir)
    (hwhole : deSize ∣ (s.icache dp).size) (name : List UInt8) :
    Triple (· = s) (dirlookup c dp name)
      (fun r s' => r = none ∧ s' = s ∧ s.dirMap (s.icache dp).inum (cut name) = none ∨
        ∃ ip j i, r = some (ip, deSize * j) ∧ s.dirMap (s.icache dp).inum (cut name) = some i ∧
          (s.entries (s.icache dp).inum).slot j = some (cut name, i) ∧ Got s i ip s')
      fun _ _ => ∃ i, s.dirMap (s.icache dp).inum (cut name) = some i ∧ ¬ CacheRoom s i := by
  have hbound : ∀ {j}, deSize * (j + 1) ≤ (s.icache dp).size → Matches s (s.icache dp).inum name j →
      (∀ i < j, ¬ Matches s (s.icache dp).inum name i) →
      s.dirMap (s.icache dp).inum (cut name) = some (s.vol.dirent (s.icache dp).inum j).inum :=
    fun hj hm hfirst => Slots.lookup_of_first (h.lt_entries.2 hj) hm.slot fun i hi w hs =>
      hfirst i hi (matches_of_slot hs)
  refine (dirlookup_spec h name).conseq (fun _ => id) ?_ ?_
  · rintro r s' ⟨hf, -⟩
    cases hf with
    | none hno =>
      refine .inl ⟨rfl, rfl, Slots.lookup_eq_none.2 fun j v hj hs => ?_⟩
      exact hno j (h.lt_entries.1 hj) (matches_of_slot hs)
    | some hj hm hfirst hg => exact .inr ⟨_, _, _, rfl, hbound hj hm hfirst, hm.slot, hg⟩
  · rintro e s' ⟨hstop, -⟩
    cases hstop with
    | read hn => exact absurd hwhole hn
    | notDir hn => exact absurd hd hn
    | full hj hm hfirst hf => exact ⟨_, hbound hj hm hfirst, hf⟩

theorem Got.room (h : Got s inum ip s') : CacheRoom s inum := by
  cases h with
  | old hr hi => exact ⟨ip, .inr ⟨hr, hi⟩⟩
  | new hno hr => exact ⟨ip, .inl hr⟩

theorem Got.vol (h : Got s inum ip s') : s'.vol = s.vol := by
  cases h with
  | old | new => rfl

theorem CacheOk.unlocked {me : Fin nproc} {k : Fin ninode} (hc : CacheOk me s)
    (h : (s.icache k).lock ≠ some me) : (s.icache k).lock = none :=
  Option.eq_none_iff_forall_ne_some.2 fun p hp => h (hc.mine k p hp ▸ hp)

theorem Got.lock_iff {me : Fin nproc} (h : Got s inum ip s') (hc : CacheOk me s) :
    (s'.icache ip).lock = none ↔ Unheld me s inum := by
  cases h with
  | old hr hi =>
    simp only [update_self, Inode.setRef]
    refine ⟨fun hl k hk hki => ?_, fun hu => hc.unlocked (hu ip hr hi)⟩
    rw [hc.alone k ip hk hr (hki.trans hi.symm), hl]
    exact (Option.some_ne_none me).symm
  | new hno hr =>
    simp only [update_self, Inode.recycle]
    exact iff_of_true (hc.idle ip hr) fun k hk hki => absurd hki (hno k hk)

theorem Got.keeps (h : Got s inum ip s') : ¬ LastRef s' ip := by
  unfold LastRef
  cases h with
  | old hr hi =>
    simp only [update_self, Inode.setRef]
    omega
  | new hno hr => simp [Inode.recycle]

theorem Got.dropped (h : Got s inum ip s') (hl : (s'.icache ip).lock = none) :
    Untouched s (s'.dropped ip) := by
  cases h with
  | old hr hi =>
    have hent : ((s.setInode ip ((s.icache ip).setRef ((s.icache ip).ref + 1))).dropped ip).icache =
        s.icache := by
      simp only [update_self, Inode.setRef] at hl
      simp only [State.dropped, State.setInode, update_self, update_idem,
        Inode.setRef, Inode.setLock, ← hl, Int.add_sub_cancel]
      exact update_eq_self ..
    exact ⟨rfl, rfl, rfl, fun k => by rw [hent], fun k _ => by rw [hent]⟩
  | new hno hr =>
    have hent : ((s.setInode ip ((s.icache ip).recycle inum)).dropped ip).icache =
        update s.icache ip ((((s.icache ip).recycle inum).setLock none).setRef 0) := by
      simp [State.dropped, Inode.recycle, Inode.setLock, Inode.setRef]
    refine ⟨rfl, rfl, rfl, fun k => ?_, fun k hk => ?_⟩
    · rw [hent]
      by_cases hki : k = ip
      · subst hki
        rw [update_self, hr]
        rfl
      · rw [update_of_ne hki]
    · rw [hent, update_of_ne fun hki => ?_]
      rw [hki, hr] at hk
      exact Int.lt_irrefl 0 hk

theorem DirOk.dirlink_bound (h : DirOk c.sb s dp) (hc : CacheOk c.me s)
    (hi : s.dirMap (s.icache dp).inum (cut name) = some i) (inum : Nat) :
    Triple (· = s) (dirlink c dp name inum)
      (fun r s' => r = -1 ∧ Untouched s s' ∧ CacheRoom s i ∧ Unheld c.me s i)
      fun _ _ => ¬ (CacheRoom s i ∧ Unheld c.me s i) := by
  refine .bind ((h.toReady.dirlookup h.dir h.whole name).onError ?_) fun r => ?_
  · rintro e s' ⟨i', hi', hroom⟩
    obtain rfl := Option.some.inj (hi.symm.trans hi')
    exact fun hok => hroom hok.1
  refine .of_state fun s₁ hr => ?_
  rcases hr with ⟨-, -, hno⟩ | ⟨ip, j, i', rfl, hi', -, hg⟩
  · rw [hi] at hno
    cases hno
  obtain rfl := Option.some.inj (hi.symm.trans hi')
  refine .bind ((iput_keep c ip s₁ hg.keeps).onError ?_) fun _ => .pure ?_
  · exact fun _ _ hb hok => hb.2 ((hg.lock_iff hc).2 hok.2)
  · rintro s' ⟨rfl, hl⟩
    exact ⟨rfl, hg.dropped hl, hg.room, (hg.lock_iff hc).1 hl⟩

/-! ## Records are written -/

theorem Wrote.entries (hw : Wrote c.sb dp (deSize * j) src s s') (h : DirOk c.sb s dp)
    (hlen : src.length = deSize) :
    s'.entries (s.icache dp).inum = ⟨max (s.entries (s.icache dp).inum).size (j + 1),
      update (s.entries (s.icache dp).inum).slot j (Dirent.ofBytes src).slot⟩ := by
  obtain ⟨n, hn⟩ := h.whole
  have hsize : (s'.dinode (s.icache dp).inum).size / deSize =
      max ((s.dinode (s.icache dp).inum).size / deSize) (j + 1) := by
    rw [hw.self, h.sync]
    show max (s.icache dp).size _ / deSize = max ((s.icache dp).size / deSize) _
    rw [hlen, hn, ← Nat.mul_add_one, Nat.mul_max_mul_left, Nat.mul_div_cancel_left _ (by decide),
      Nat.mul_div_cancel_left _ (by decide)]
  have hslot : (fun n => (s'.vol.dirent (s.icache dp).inum n).slot) =
      update (s.entries (s.icache dp).inum).slot j (Dirent.ofBytes src).slot := by
    funext n
    rw [hw.dirent hlen]
    by_cases hnj : n = j
    · rw [hnj, update_self, update_self]
    · rw [update_of_ne hnj, update_of_ne hnj]
      rfl
  unfold Core.entries at *
  rw [hsize, hslot]

theorem Wrote.inum_eq {off : Nat} (hw : Wrote c.sb dp off src s s') :
    (s'.icache dp).inum = (s.icache dp).inum := by
  rw [hw.entry, update_self]

theorem DirOk.wrote (h : DirOk c.sb s dp) (hw : Wrote c.sb dp (deSize * j) src s s')
    (hlen : src.length = deSize) (hj : deSize * j ≤ (s.icache dp).size)
    (hmax : deSize * (j + 1) ≤ maxFile * bsize) (hd : (s'.entries (s.icache dp).inum).Distinct) :
    DirOk c.sb s' dp := by
  have hself : s'.icache dp = { s.icache dp with toDinode := s'.dinode (s.icache dp).inum } := by
    rw [hw.entry, update_self]
  refine ⟨hw.ready h.toReady hj (by rw [hlen, ← Nat.mul_add_one]; exact hmax), ?_, ?_, ?_⟩
  · rw [hself]
    show (s'.dinode _).type = _
    rw [hw.self, h.sync]
    exact h.dir
  · rw [hself]
    show deSize ∣ (s'.dinode _).size
    rw [hw.self, hlen, ← Nat.mul_add_one]
    show deSize ∣ max _ _
    rcases Nat.le_total (s.icache dp).size (deSize * (j + 1)) with hle | hle
    · rw [Nat.max_eq_right hle]
      exact Nat.dvd_mul_right ..
    · rw [Nat.max_eq_left hle]
      exact h.whole
  · rwa [hw.inum_eq]

theorem Vacant.le (h : Vacant s dp j) : deSize * j ≤ (s.icache dp).size := by
  cases j with
  | zero => exact Nat.zero_le _
  | succ n => exact h.low n (Nat.lt_succ_self n)

theorem Vacant.unique {j' : Nat} (h : Vacant s dp j) (h' : Vacant s dp j') : j = j' := by
  have hno : ∀ {j j'}, Vacant s dp j → Vacant s dp j' → ¬ j < j' := fun h h' hlt =>
    h.here.elim (fun hz => h'.full _ hlt hz.2) fun hend => by
      have := h'.low _ hlt
      rw [Nat.mul_add] at this
      simp only [deSize, dirsiz] at *
      omega
  exact Nat.le_antisymm (Nat.le_of_not_lt (hno h' h)) (Nat.le_of_not_lt (hno h h'))

theorem Vacant.isOpen (h : Vacant s dp j) (hr : Ready c.sb s dp) :
    (s.entries (s.icache dp).inum).Open j := by
  refine ⟨Nat.le_of_not_lt fun hlt => ?_, fun hlt => Dirent.slot_eq_none.2 ?_⟩
  · have h1 := hr.lt_entries.2 (h.low _ hlt)
    omega
  · have h1 := hr.lt_entries.1 hlt
    refine h.here.elim And.right fun hend => ?_
    rw [Nat.mul_add] at h1
    simp only [deSize, dirsiz] at *
    omega

theorem Vacant.fits (h : Vacant s dp j) (hd : DirOk c.sb s dp) (hfull : ¬ Full s dp) :
    deSize * (j + 1) ≤ maxFile * bsize := by
  have hsize := hd.size_le
  rcases h.here with ⟨hle, -⟩ | hend
  · exact hle.trans hsize
  · by_contra hgt
    refine hfull ⟨?_, fun n hn => h.full n ?_⟩
    · have := h.le
      rw [Nat.mul_add_one] at hgt
      omega
    · by_contra hge
      rw [Nat.mul_add_one] at hn
      simp only [deSize, dirsiz] at *
      omega

/-- The blocks that a record needs are there, or there are free ones. -/
def RecordRoom (sb : Superblock) (s : State) (dp : Fin ninode) (j : Nat) : Prop :=
  s.vol.Enough sb (s.icache dp).inum (rangeSlots (deSize * j) deSize)

theorem DirOk.writeRecord (h : DirOk c.sb s dp) (hsb : c.sb.size ≤ 2 ^ 32)
    (hlen : src.length = deSize) (hj : deSize * j ≤ (s.icache dp).size)
    (hmax : deSize * (j + 1) ≤ maxFile * bsize) :
    Triple (· = s) (writei c dp src (deSize * j))
      (fun r s' => Wrote c.sb dp (deSize * j) src s s' ∧ r = deSize ∧ RecordRoom c.sb s dp j)
      fun _ _ => ¬ RecordRoom c.sb s dp j := by
  have hok : ¬ BadWrite (s.icache dp).size (deSize * j) src.length := by
    unfold BadWrite
    rw [hlen]
    simp only [maxFile, ndirect, nindirect, bsize, deSize, dirsiz] at *
    omega
  have hd : (s.icache dp).type ≠ some .dev := by
    rw [h.dir]
    nofun
  refine (writei_good h.own h.live hsb h.sync h.sized hd hok).conseq (fun _ => id) ?_ ?_
  · rintro r s' ⟨hw, rfl⟩
    refine ⟨hw, by rw [hlen], ?_⟩
    have := hw.enough (by rw [hlen]; decide) h.toReady
    rwa [hlen] at this
  · rintro e s' ⟨-, hne⟩
    rwa [hlen] at hne

theorem DirOk.dirlink_unbound (h : DirOk c.sb s dp) (hfull : ¬ Full s dp)
    (hsb : c.sb.size ≤ 2 ^ 32) (hn : s.dirMap (s.icache dp).inum (cut name) = none) (inum : Nat) :
    Triple (· = s) (dirlink c dp name inum)
      (fun r s' => r = 0 ∧ ∃ j, Vacant s dp j ∧ RecordRoom c.sb s dp j ∧
        Wrote c.sb dp (deSize * j) (Dirent.bytes ⟨inum, strncpy name dirsiz⟩) s s')
      fun _ _ => ∃ j, Vacant s dp j ∧ ¬ RecordRoom c.sb s dp j := by
  refine .bind ((h.toReady.dirlookup h.dir h.whole name).onError ?_) fun r => ?_
  · rintro e s' ⟨i, hi, -⟩
    rw [hn] at hi
    cases hi
  refine .of_state fun s₁ hr => ?_
  rcases hr with ⟨rfl, rfl, -⟩ | ⟨ip, j, i, -, hi, -⟩
  · refine .read_bind rfl ?_
    refine .bind ((emptyFrom_spec h.toReady h.dir _ 0 (by omega) nofun nofun).onError ?_)
      fun off => ?_
    · rintro e s' ⟨⟨-, hno⟩, -⟩
      exact absurd h.whole hno
    refine .of_pre (fun _ h => h.2) ?_
    rintro ⟨j, rfl, hj⟩
    refine .bind (.conseq (h.writeRecord hsb (Dirent.length_link inum name) hj.le (hj.fits h hfull))
      (fun _ h => h.1) (fun _ _ => id) fun _ _ hne => ⟨j, hj, hne⟩) fun r => ?_
    refine .ite (fun hr => .of_pre (fun _ hs => hs.2.1) fun hr' => absurd hr' hr) fun _ => .pure ?_
    rintro s' ⟨hw, -, hroom⟩
    exact ⟨rfl, j, hj, hroom, hw⟩
  · rw [hn] at hi
    cases hi

/-! ## The operations on the map -/

/-- `dirlookup` returns the inode that the name is bound to, and the place of its record. -/
def LookupOk (c : Ctx) (s : State) (dp : Fin ninode) (name : List UInt8) : Prop :=
  ∃ r s', dirlookup c dp name s = .ok r s' ∧ s'.vol = s.vol ∧
    r.map (fun x => (s'.icache x.1).inum) = s.dirMap (s.icache dp).inum (cut name) ∧
    ∀ x, r = some x → ∃ j, x.2 = deSize * j ∧
      (s.entries (s.icache dp).inum).slot j = some (cut name, (s'.icache x.1).inum)

/-- `dirlink` refuses a name that is bound and changes nothing. Otherwise it binds the name and
changes nothing else in the map, by one record, the first that is free or one at the end. -/
def LinkOk (c : Ctx) (s : State) (dp : Fin ninode) (name : List UInt8) (inum : Nat) : Prop :=
  match s.dirMap (s.icache dp).inum (cut name) with
  | some _ => ∃ s', dirlink c dp name inum s = .ok (-1) s' ∧ Untouched s s'
  | none => ∃ s' j, dirlink c dp name inum s = .ok 0 s' ∧
      s'.dirMap (s.icache dp).inum =
        update (s.dirMap (s.icache dp).inum) (cut name) (some inum) ∧
      Vacant s dp j ∧ s'.vol.dirent (s.icache dp).inum =
        update (s.vol.dirent (s.icache dp).inum) j ⟨inum, strncpy name dirsiz⟩ ∧
      DirOk c.sb s' dp

/-- The write of `sys_unlink` over a record of the name takes the name out of the map, and changes
nothing else in it. -/
def UnlinkOk (c : Ctx) (s : State) (dp : Fin ninode) (name : List UInt8) : Prop :=
  ∀ j i, j < (s.entries (s.icache dp).inum).size →
    (s.entries (s.icache dp).inum).slot j = some (cut name, i) →
    ∃ s', writei c dp (List.replicate deSize 0) (deSize * j) s = .ok deSize s' ∧
      s'.dirMap (s.icache dp).inum = update (s.dirMap (s.icache dp).inum) (cut name) none ∧
      DirOk c.sb s' dp

/-- Names that agree up to `DIRSIZ` are one name. -/
def SameKey (c : Ctx) (dp : Fin ninode) (name : List UInt8) : Prop :=
  ∀ name', name'.take dirsiz = name.take dirsiz → cut name' = cut name ∧
    dirlookup c dp name' = dirlookup c dp name ∧
    ∀ inum, dirlink c dp name' inum = dirlink c dp name inum

/-- The inode of a bound name has room in the cache and is not locked by the caller; for a new name,
`inum` is a 16-bit number and there is a block for the record. -/
structure MapCond (c : Ctx) (s : State) (dp : Fin ninode) (name : List UInt8) (inum : Nat) :
    Prop where
  bound : ∀ i, s.dirMap (s.icache dp).inum (cut name) = some i → CacheRoom s i ∧ Unheld c.me s i
  unbound : s.dirMap (s.icache dp).inum (cut name) = none →
    inum < 2 ^ 16 ∧ ∀ j, Vacant s dp j → RecordRoom c.sb s dp j

theorem DirOk.lookupOk (h : DirOk c.sb s dp)
    (hroom : ∀ i, s.dirMap (s.icache dp).inum (cut name) = some i → CacheRoom s i) :
    LookupOk c s dp name := by
  obtain ⟨r, s', hx, hr⟩ := ((h.toReady.dirlookup h.dir h.whole name).onError
    fun _ _ ⟨i, hi, hno⟩ => hno (hroom i hi)).returns rfl
  refine ⟨r, s', hx, ?_⟩
  rcases hr with ⟨rfl, rfl, hn⟩ | ⟨ip, j, i, rfl, hi, hslot, hg⟩
  · exact ⟨rfl, hn.symm, nofun⟩
  · refine ⟨hg.vol, ?_, ?_⟩
    · rw [hi, Option.map_some, hg.inum]
    · rintro _ ⟨⟩
      exact ⟨j, rfl, by rw [hg.inum, hslot]⟩

theorem Wrote.link (hw : Wrote c.sb dp (deSize * j) (Dirent.bytes ⟨inum, strncpy name dirsiz⟩) s s')
    (h : DirOk c.sb s dp) (h0 : inum ≠ 0) (hinum : inum < 2 ^ 16) :
    s'.entries (s.icache dp).inum = (s.entries (s.icache dp).inum).set j (cut name, inum) ∧
      s'.vol.dirent (s.icache dp).inum =
        update (s.vol.dirent (s.icache dp).inum) j ⟨inum, strncpy name dirsiz⟩ := by
  have hlen := Dirent.length_link inum name
  have hde : Dirent.ofBytes (Dirent.bytes ⟨inum, strncpy name dirsiz⟩) =
      ⟨inum, strncpy name dirsiz⟩ := by
    rw [Dirent.ofBytes_bytes, Nat.mod_eq_of_lt hinum]
  refine ⟨?_, ?_⟩
  · rw [hw.entries h hlen, hde, Dirent.slot_eq_some.2 ⟨rfl, h0, cutAt_strncpy dirsiz name⟩]
    rfl
  · funext n
    rw [hw.dirent hlen, hde]

theorem DirOk.linkOk_iff (h : DirOk c.sb s dp) (hc : CacheOk c.me s) (hfull : ¬ Full s dp)
    (hsb : c.sb.size ≤ 2 ^ 32) (h0 : inum ≠ 0) :
    LinkOk c s dp name inum ↔ MapCond c s dp name inum := by
  unfold LinkOk
  cases hm : s.dirMap (s.icache dp).inum (cut name) with
  | some i =>
    have hspec := h.dirlink_bound hc hm inum
    constructor
    · rintro ⟨s', hx, -⟩
      have hr := hspec.ok rfl hx
      refine ⟨fun i' hi' => ?_, fun hn => ?_⟩
      · obtain rfl := Option.some.inj (hm.symm.trans hi')
        exact hr.2.2
      · rw [hm] at hn
        cases hn
    · intro hcond
      obtain ⟨r, s', hx, rfl, hs', -⟩ := (hspec.onError
        fun _ _ hno => hno (hcond.bound i hm)).returns rfl
      exact ⟨s', hx, hs'⟩
  | none =>
    have hspec := h.dirlink_unbound hfull hsb hm inum
    constructor
    · rintro ⟨s', j, hx, hmap, -⟩
      obtain ⟨-, j', hj', hroom, -⟩ := hspec.ok rfl hx
      refine ⟨fun i hi => ?_, fun _ => ⟨?_, fun n hn => ?_⟩⟩
      · rw [hm] at hi
        cases hi
      · -- what is in the map fits into a record
        refine Core.dirMap_lt (s := s'.toCore) (d := (s.icache dp).inum) (k := cut name) ?_
        rw [hmap, update_self]
      · rwa [hn.unique hj']
    · intro hcond
      obtain ⟨hinum, hroom⟩ := hcond.unbound hm
      obtain ⟨r, s', hx, rfl, j, hj, -, hw⟩ := (hspec.onError
        fun _ _ ⟨j, hj, hno⟩ => hno (hroom j hj)).returns rfl
      obtain ⟨hent, hdir⟩ := hw.link h h0 hinum
      have hopen := hj.isOpen h.toReady
      refine ⟨s', j, hx, ?_, hj, hdir, h.wrote hw (Dirent.length_link inum name) hj.le
        (hj.fits h hfull) ?_⟩
      · unfold Core.dirMap
        rw [hent]
        exact Slots.lookup_set h.distinct hopen hm
      · rw [hent]
        exact h.distinct.set hopen hm

theorem DirOk.unlinkOk (h : DirOk c.sb s dp) (hsb : c.sb.size ≤ 2 ^ 32) (name : List UInt8) :
    UnlinkOk c s dp name := by
  intro j i hj hslot
  have hle := h.lt_entries.1 hj
  have hlen : (List.replicate deSize (0 : UInt8)).length = deSize := List.length_replicate
  have hoff : deSize * j ≤ (s.icache dp).size := (Nat.mul_le_mul_left _ (Nat.le_succ j)).trans hle
  have hmax : deSize * (j + 1) ≤ maxFile * bsize := hle.trans h.size_le
  obtain ⟨r, s', hx, hw, rfl, -⟩ :=
    ((h.writeRecord hsb hlen hoff hmax).onError
    fun _ _ hno => hno (h.toReady.enough (by rwa [← Nat.mul_add_one]))).returns rfl
  have hent : s'.entries (s.icache dp).inum = (s.entries (s.icache dp).inum).clear j := by
    rw [hw.entries h hlen, Nat.max_eq_left hj]
    rfl
  refine ⟨s', hx, ?_, h.wrote hw hlen hoff hmax ?_⟩
  · unfold Core.dirMap
    rw [hent]
    exact Slots.lookup_clear h.distinct hj hslot
  · rw [hent]
    exact h.distinct.clear j

theorem dirlookupFrom_congr {name' : List UInt8} (h : cut name' = cut name) (size : Nat) :
    ∀ turns off, dirlookupFrom c dp name' size turns off = dirlookupFrom c dp name size turns off
  | 0, _ => rfl
  | turns + 1, off => by
    have hcmp : ∀ t, (namecmp name' t = 0) = (namecmp name t = 0) := fun t => by
      rw [namecmp_eq_zero, namecmp_eq_zero, h]
    simp only [dirlookupFrom, hcmp, dirlookupFrom_congr h size turns]

theorem sameKey (c : Ctx) (dp : Fin ninode) (name : List UInt8) : SameKey c dp name := by
  intro name' h
  have hcut : cut name' = cut name := by
    unfold cut cutAt
    rw [h]
  have hlookup : dirlookup c dp name' = dirlookup c dp name := by
    unfold dirlookup
    simp only [dirlookupFrom_congr hcut]
  refine ⟨hcut, hlookup, fun inum => ?_⟩
  unfold dirlink
  rw [hlookup, strncpy_congr hcut]

/-- A directory that is in order and not full is a finite map from names to inode numbers, as far as
`dirlookup`, `dirlink` and `sys_unlink` can tell, if and only if the conditions hold: the inode of a
bound name has room in the cache and is not locked by the caller, as the directory itself is, and
the number for a new name is a 16-bit number, and there is a block for its record. -/
theorem directory_map_iff (h : DirOk c.sb s dp) (hc : CacheOk c.me s) (hfull : ¬ Full s dp)
    (hsb : c.sb.size ≤ 2 ^ 32) (name : List UInt8) (h0 : inum ≠ 0) :
    LookupOk c s dp name ∧ LinkOk c s dp name inum ∧ UnlinkOk c s dp name ∧ SameKey c dp name ↔
      MapCond c s dp name inum := by
  rw [h.linkOk_iff hc hfull hsb h0]
  refine ⟨fun hok => hok.2.1, fun hcond => ⟨h.lookupOk fun i hi => (hcond.bound i hi).1, hcond,
    h.unlinkOk hsb name, sameKey c dp name⟩⟩

end

/-! ## The root directory of the empty file system -/

theorem rootLocked_dirOk : DirOk mkfsSb rootLocked 0 :=
  ⟨rootLocked_ready, rfl, by decide, Slots.distinct_of_keys (by decide +kernel)⟩

theorem rootLocked_cacheOk : CacheOk rootCtx.me rootLocked := by
  refine ⟨by decide +kernel, by decide +kernel, by decide +kernel⟩

theorem rootLocked_not_full : ¬ Full rootLocked 0 :=
  fun h => h.2 2 (by decide) (by decide +kernel)

/-- A process that has locked the root directory and calls `dirlink` for `"."` there waits for
itself, and gets no answer. -/
theorem directory_map_fails :
    ∃ (c : Ctx) (s : State) (dp : Fin ninode) (name : List UInt8) (inum : Nat),
      DirOk c.sb s dp ∧ CacheOk c.me s ∧ ¬ Full s dp ∧ c.sb.size ≤ 2 ^ 32 ∧ inum ≠ 0 ∧
        s.dirMap (s.icache dp).inum (cut name) = some 1 ∧
        ∀ r s', dirlink c dp name inum s ≠ .ok r s' := by
  refine ⟨rootCtx, rootLocked, 0, dot, 2, rootLocked_dirOk, rootLocked_cacheOk, rootLocked_not_full,
    by decide, by decide, by decide +kernel, fun r s' hx => ?_⟩
  have hstop : (match dirlink rootCtx 0 dot 2 rootLocked with
      | .error .deadlock _ => true
      | _ => false) = true := by decide +kernel
  rw [hx] at hstop
  cases hstop

/-- A new name in the root directory. -/
theorem directory_map_root :
    ∃ s' j, dirlink rootCtx 0 [97] 2 rootLocked = .ok 0 s' ∧
      s'.dirMap 1 = Function.update (rootLocked.dirMap 1) (cut [97]) (some 2) ∧
        Vacant rootLocked 0 j := by
  have hn : rootLocked.dirMap (rootLocked.icache 0).inum (cut [97]) = none := by decide +kernel
  have hv : Vacant rootLocked 0 2 :=
    ⟨by decide +kernel, .inl ⟨by decide, by decide +kernel⟩, by decide +kernel⟩
  have hok := (directory_map_iff (c := rootCtx) rootLocked_dirOk rootLocked_cacheOk
    rootLocked_not_full (by decide) [97] (show 2 ≠ 0 by decide)).2 ⟨fun i hi => ?_, fun _ =>
      ⟨by decide, fun j hj => ?_⟩⟩
  · obtain ⟨s', j, hx, hmap, hj, -⟩ : ∃ s' j, _ := by
      have := hok.2.1
      unfold LinkOk at this
      rw [hn] at this
      exact this
    exact ⟨s', j, hx, hmap, hj⟩
  · rw [hn] at hi
    cases hi
  · rw [hj.unique hv]
    exact rootLocked_ready.enough (by decide)

end Xv6.Fs
