import Xv6.Fs.Proof.Entries

/-!
# The volume between functions

`VolInv`: the blocks are owned as they should be, the blocks below each inode's size are there, and
the entries of the cache that have been read agree with the disk. `InRange` adds that no inode
number in the cache or in a directory is too large; it fails for a corrupt directory, and is an
option (`ρ`). One lemma for each kind of step of `Xv6.Fs.Proof.Cache` and `Xv6.Fs.Proof.Entries`.
-/

namespace Xv6.Fs

open Lib Function

/-- An open file that can be written. -/
def File.Writes (x : File) : Prop := 0 < x.ref ∧ x.type = .inode ∧ x.writable = true

/-- A file or a device. -/
def Dinode.Plain (d : Dinode) : Prop := d.type ≠ none ∧ d.type ≠ some .dir

/-- No inode number that a call can come to is out of range. -/
structure InRange (sb : Superblock) (s : Core) : Prop where
  root : rootIno < sb.ninodes
  inum : ∀ k, 0 < (s.icache k).ref → (s.icache k).inum < sb.ninodes
  dirent : ∀ d j, s.vol.Live sb d → (s.dinode d).type = some .dir →
    deSize * (j + 1) ≤ (s.dinode d).size → (s.vol.dirent d j).inum < sb.ninodes
  file : ∀ f, (s.ftable f).Writes → (s.dinode (s.icache (s.ftable f).ip).inum).Plain

/-- Every allocated inode has the blocks below its size. -/
def Sized (sb : Superblock) (s : Core) : Prop :=
  ∀ i, s.vol.Live sb i → ∀ bn, bn * bsize < (s.dinode i).size →
    bn < maxFile ∧ s.vol.addr i (blockSlot bn) ≠ 0

/-- The disk is in order, and the cache agrees with it. -/
structure VolInv (sb : Superblock) (ρ : Prop) (s : State) : Prop where
  small : sb.size ≤ 2 ^ 32
  own : s.vol.Own sb
  sized : Sized sb s.toCore
  sync : ∀ k, 0 < (s.icache k).ref → Synced sb s k
  range : ρ → InRange sb s.toCore

theorem Vol.dirent_congr {v v' : Vol} {d : Nat} (h : ∀ x, v'.byte d x = v.byte d x) (j : Nat) :
    v'.dirent d j = v.dirent d j := by
  unfold dirent
  rw [show v'.byte d = v.byte d from funext h]

section
variable {sb : Superblock} {ρ : Prop} {s s' : State} {ip : Fin ninode}

namespace VolInv

theorem ready (h : VolInv sb ρ s) (hr : 0 < (s.icache ip).ref) (hv : (s.icache ip).valid = true) :
    Ready sb s ip := by
  obtain ⟨h1, h2, h3⟩ := h.sync ip hr hv
  have hl : s.vol.Live sb (s.icache ip).inum := by
    refine ⟨h3, ?_⟩
    show (s.dinode _).type ≠ none
    rw [h1]
    exact h2
  refine ⟨h.own, hl, h1, fun bn hbn => h.sized _ hl bn ?_⟩
  rw [h1]
  exact hbn

theorem setEntry (h : VolInv sb ρ s) {x : Inode} (hvol : s'.vol = s.vol)
    (hi : s'.icache = update s.icache ip x) (hft : s'.ftable = s.ftable)
    (hx : 0 < x.ref → x.valid = true → s.dinode x.inum = x.toDinode ∧ x.type ≠ none ∧
      x.inum < sb.ninodes)
    (hin : ρ → 0 < x.ref → x.inum < sb.ninodes)
    (hf : x.inum = (s.icache ip).inum ∨ ∀ f, (s.ftable f).Writes → (s.ftable f).ip ≠ ip) :
    VolInv sb ρ s' := by
  have hd : s'.dinode = s.dinode := congrArg Vol.nd hvol
  have hself : s'.icache ip = x := by rw [hi, update_self]
  have hne : ∀ k, k ≠ ip → s'.icache k = s.icache k := fun k hk => by
    rw [hi, update_of_ne hk]
  refine ⟨h.small, hvol ▸ h.own, fun i hl bn hbn => ?_, fun k hk => ?_, fun hρ => ?_⟩
  · rw [hvol] at hl ⊢
    rw [hd] at hbn
    exact h.sized i hl bn hbn
  · by_cases hki : k = ip
    · subst hki
      unfold Synced
      rw [hself] at hk ⊢
      rw [hd]
      exact hx hk
    · unfold Synced
      rw [hne k hki] at hk ⊢
      rw [hd]
      exact h.sync k hk
  · have hr := h.range hρ
    refine ⟨hr.root, fun k hk => ?_, fun d j hl => ?_, fun f hw => ?_⟩
    · by_cases hki : k = ip
      · subst hki
        rw [hself] at hk ⊢
        exact hin hρ hk
      · rw [hne k hki] at hk ⊢
        exact hr.inum k hk
    · rw [hvol, hd] at *
      exact hr.dirent d j hl
    · rw [hft] at hw ⊢
      have hf' := hr.file f hw
      rw [hd]
      by_cases hki : (s.ftable f).ip = ip
      · rw [hki] at hf' ⊢
        rw [hself]
        rcases hf with hf | hf
        · rwa [hf]
        · exact absurd hki (hf f hw)
      · rwa [hne _ hki]

theorem got (h : VolInv sb ρ s) {inum : Nat} (hg : Got s inum ip s')
    (hfile : ∀ f, (s.ftable f).Writes → 0 < (s.icache (s.ftable f).ip).ref)
    (hin : ρ → inum < sb.ninodes) : VolInv sb ρ s' := by
  cases hg with
  | old hr hi =>
    exact h.setEntry rfl rfl rfl (fun _ hv => h.sync ip hr hv) (fun hρ _ => hi ▸ hin hρ) (.inl rfl)
  | new hno hr =>
    refine h.setEntry rfl rfl rfl nofun (fun hρ _ => hin hρ) (.inr fun f hw heq => ?_)
    have := hfile f hw
    rw [heq, hr] at this
    omega

theorem locked (h : VolInv sb ρ s) (me : Fin nproc) (hl : s.vol.Live sb (s.icache ip).inum) :
    VolInv sb ρ (s.locked me ip) :=
  h.setEntry rfl rfl rfl (fun _ _ => ⟨rfl, hl.2, hl.1⟩) (fun hρ hr => (h.range hρ).inum ip hr)
    (.inl rfl)

theorem setLock (h : VolInv sb ρ s) (l : Option (Fin nproc)) :
    VolInv sb ρ (s.setInode ip ((s.icache ip).setLock l)) :=
  h.setEntry rfl rfl rfl (fun hr hv => h.sync ip hr hv) (fun hρ hr => (h.range hρ).inum ip hr)
    (.inl rfl)

section
variable (h : VolInv sb ρ s)
include h

theorem dropped (hr : 0 < (s.icache ip).ref) : VolInv sb ρ (s.dropped ip) :=
  h.setEntry rfl rfl rfl (fun _ hv => h.sync ip hr hv) (fun hρ _ => (h.range hρ).inum ip hr)
    (.inl rfl)

/-- No other entry is in use for the inode of `ip`. -/
def Alone (s : State) (ip : Fin ninode) : Prop :=
  ∀ k, k ≠ ip → 0 < (s.icache k).ref → (s.icache k).inum ≠ (s.icache ip).inum

theorem freed (hf : Freed sb ip s s') (halone : Alone s ip)
    (hfile : ∀ f, (s.ftable f).Writes → (s.ftable f).ip ≠ ip ∧ 0 < (s.icache (s.ftable f).ip).ref) :
    VolInv sb ρ s' := by
  have hself : s'.icache ip = (s.icache ip).freed := by rw [hf.entry, update_self]
  have hne : ∀ k, k ≠ ip → s'.icache k = s.icache k := fun k hk => by
    rw [hf.entry, update_of_ne hk]
  have hd : ∀ j, j ≠ (s.icache ip).inum → s'.dinode j = s.dinode j := fun j hj => by
    rw [hf.dinode, update_of_ne hj]
  have hlive : ∀ j, s'.vol.Live sb j → j ≠ (s.icache ip).inum ∧ s.vol.Live sb j := fun j hj => by
    have hji : j ≠ (s.icache ip).inum := by
      rintro rfl
      refine hj.2 ?_
      show (s'.dinode _).type = none
      rw [hf.dinode, update_self]
      rfl
    refine ⟨hji, hj.1, ?_⟩
    have := hj.2
    rwa [show s'.vol.nd j = _ from hd j hji] at this
  have haddr : ∀ j, j ≠ (s.icache ip).inum → ∀ k, s'.vol.addr j k = s.vol.addr j k := fun j hj =>
    Vol.addr_congr (congrArg Dinode.addrs (hd j hj)) fun _ => congrFun hf.block _
  have hbyte : ∀ j, j ≠ (s.icache ip).inum → ∀ x, s'.vol.byte j x = s.vol.byte j x := fun j hj x =>
    Vol.byte_congr (haddr j hj _) fun _ _ => congrFun hf.block _
  refine ⟨h.small, hf.own, fun i hl bn hbn => ?_, fun k hk => ?_, fun hρ => ?_⟩
  · obtain ⟨hi, hl'⟩ := hlive i hl
    rw [hd i hi] at hbn
    rw [haddr i hi]
    exact h.sized i hl' bn hbn
  · by_cases hki : k = ip
    · subst hki
      rw [hself] at hk
      exact absurd hk (Int.lt_irrefl 0)
    · unfold Synced
      rw [hne k hki] at hk ⊢
      rw [hd _ (halone k hki hk)]
      exact h.sync k hk
  · have hr := h.range hρ
    refine ⟨hr.root, fun k hk => ?_, fun d j hl ht hj => ?_, fun f hw => ?_⟩
    · by_cases hki : k = ip
      · subst hki
        rw [hself] at hk
        exact absurd hk (Int.lt_irrefl 0)
      · rw [hne k hki] at hk ⊢
        exact hr.inum k hk
    · obtain ⟨hdi, hl'⟩ := hlive d hl
      rw [hd d hdi] at ht hj
      rw [Vol.dirent_congr (hbyte d hdi)]
      exact hr.dirent d j hl' ht hj
    · rw [hf.ftable] at hw ⊢
      obtain ⟨h1, h2⟩ := hfile f hw
      rw [hne _ h1, hd _ (halone _ h1 h2)]
      exact hr.file f hw

theorem put (hp : Put sb s ip s') (hr : 0 < (s.icache ip).ref) (halone : Alone s ip)
    (hfile : (s.icache ip).ref = 1 →
      ∀ f, (s.ftable f).Writes → (s.ftable f).ip ≠ ip ∧ 0 < (s.icache (s.ftable f).ip).ref) :
    VolInv sb ρ s' := by
  cases hp with
  | keep _ => exact h.dropped hr
  | free hf => exact h.freed hf halone (hfile hf.last.2.2)

theorem setNode (hown : s'.vol.Own sb) (hd : ∀ j, j ≠ (s.icache ip).inum → s'.dinode j = s.dinode j)
    (hi : s'.icache = update s.icache ip
      { s.icache ip with toDinode := s'.dinode (s.icache ip).inum })
    (hty : (s'.dinode (s.icache ip).inum).type = (s.dinode (s.icache ip).inum).type)
    (hr : Ready sb s ip) (halone : Alone s ip) (hft : s'.ftable = s.ftable)
    (hkeep : ∀ j k, s.vol.Live sb j → s.vol.addr j k ≠ 0 → s'.vol.addr j k = s.vol.addr j k)
    (hbyte : ∀ j x, j ≠ (s.icache ip).inum → s.vol.Live sb j → s'.vol.byte j x = s.vol.byte j x)
    (hsize : ∀ bn, bn * bsize < (s'.dinode (s.icache ip).inum).size →
      bn < maxFile ∧ s'.vol.addr (s.icache ip).inum (blockSlot bn) ≠ 0)
    (hent : ρ → (s.icache ip).type = some .dir → ∀ j,
      deSize * (j + 1) ≤ (s'.dinode (s.icache ip).inum).size →
        (s'.vol.dirent (s.icache ip).inum j).inum < sb.ninodes) : VolInv sb ρ s' := by
  have hself : s'.icache ip = { s.icache ip with toDinode := s'.dinode (s.icache ip).inum } := by
    rw [hi, update_self]
  have hne : ∀ k, k ≠ ip → s'.icache k = s.icache k := fun k hk => by
    rw [hi, update_of_ne hk]
  have hinum : ∀ k, (s'.icache k).inum = (s.icache k).inum ∧ (s'.icache k).ref = (s.icache k).ref :=
    fun k => by
      by_cases hk : k = ip
      · subst hk
        rw [hself]
        exact ⟨rfl, rfl⟩
      · rw [hne k hk]
        exact ⟨rfl, rfl⟩
  have htype : ∀ j, (s'.dinode j).type = (s.dinode j).type := fun j => by
    by_cases hj : j = (s.icache ip).inum
    · rw [hj, hty]
    · rw [hd j hj]
  have hlive : ∀ j, s'.vol.Live sb j ↔ s.vol.Live sb j := fun j => by
    unfold Vol.Live
    rw [show (s'.vol.nd j).type = _ from htype j]
    rfl
  refine ⟨h.small, hown, fun i hl bn hbn => ?_, fun k hk => ?_, fun hρ => ?_⟩
  · by_cases hi' : i = (s.icache ip).inum
    · subst hi'
      exact hsize bn hbn
    · rw [hd i hi'] at hbn
      have hl' := (hlive i).1 hl
      obtain ⟨h1, h2⟩ := h.sized i hl' bn hbn
      rw [hkeep i _ hl' h2]
      exact ⟨h1, h2⟩
  · rw [(hinum k).2] at hk
    by_cases hki : k = ip
    · subst hki
      unfold Synced
      rw [hself]
      refine fun _ => ⟨rfl, ?_, hr.live.1⟩
      show (s'.dinode _).type ≠ none
      rw [hty]
      exact hr.live.2
    · unfold Synced
      rw [hne k hki, hd _ (halone k hki hk)]
      exact h.sync k hk
  · have hrange := h.range hρ
    refine ⟨hrange.root, fun k hk => ?_, fun d j hl ht hj => ?_, fun f hw => ?_⟩
    · rw [(hinum k).2] at hk
      rw [(hinum k).1]
      exact hrange.inum k hk
    · by_cases hdi : d = (s.icache ip).inum
      · subst hdi
        refine hent hρ ?_ j hj
        rw [← show (s.icache ip).toDinode.type = _ from rfl, ← hr.sync, ← hty]
        exact ht
      · rw [hd d hdi] at ht hj
        have hl' := (hlive d).1 hl
        rw [Vol.dirent_congr fun x => hbyte d x hdi hl']
        exact hrange.dirent d j hl' ht hj
    · rw [hft] at hw ⊢
      unfold Dinode.Plain
      rw [(hinum _).1, htype]
      exact hrange.file f hw

theorem wrote {off : Nat} {src : List UInt8} (hw : Wrote sb ip off src s s')
    (hr : Ready sb s ip) (halone : Alone s ip) (hoff : off ≤ (s.icache ip).size)
    (hmax : off + src.length ≤ maxFile * bsize)
    (hent : ρ → (s.icache ip).type = some .dir → ∀ j,
      deSize * (j + 1) ≤ max (s.icache ip).size (off + src.length) →
        (s'.vol.dirent (s.icache ip).inum j).inum < sb.ninodes) : VolInv sb ρ s' := by
  have hsz : (s'.dinode (s.icache ip).inum).size = max (s.icache ip).size (off + src.length) := by
    rw [hw.self]
  have hself : s'.icache ip = { s.icache ip with toDinode := s'.dinode (s.icache ip).inum } := by
    rw [hw.entry, update_self]
  have hsized := (hw.ready hr hoff hmax).sized
  rw [hself] at hsized
  exact h.setNode hw.own hw.others hw.entry (by rw [hw.self]) hr halone hw.ftable hw.keep
    hw.byte_of_ne hsized fun hρ ht j hj => hent hρ ht j (hsz ▸ hj)

theorem written {c : Ctx} {x : Inode} (hr : Ready sb s ip) (halone : Alone s ip)
    (hx : ∃ major minor nlink,
      x = { s.icache ip with major := major, minor := minor, nlink := nlink }) :
    VolInv sb ρ (s.written c ip x) := by
  obtain ⟨major, minor, nlink, rfl⟩ := hx
  have hself : (s.written c ip
      { s.icache ip with major := major, minor := minor, nlink := nlink }).dinode
        (s.icache ip).inum =
      { (s.icache ip).toDinode with major := major, minor := minor, nlink := nlink } :=
    update_self ..
  have hd : ∀ j, j ≠ (s.icache ip).inum → (s.written c ip
      { s.icache ip with major := major, minor := minor, nlink := nlink }).dinode j =
      s.dinode j := fun j hj => update_of_ne hj _ _
  have hlike : s.vol.Alike (s.written c ip
      { s.icache ip with major := major, minor := minor, nlink := nlink }).vol := by
    refine ⟨rfl, rfl, fun j => ?_⟩
    by_cases hj : j = (s.icache ip).inum
    · subst hj
      rw [show Vol.nd _ _ = _ from hself, show s.vol.nd _ = _ from hr.sync]
      exact ⟨rfl, rfl⟩
    · rw [show Vol.nd _ _ = _ from hd j hj]
      exact ⟨rfl, rfl⟩
  refine h.setNode (hlike.own h.own) hd ?_ ?_ hr halone rfl (fun j k _ _ => hlike.addr j k)
    (fun j x _ _ => hlike.byte j x) (fun bn hbn => ?_) fun hρ ht j hj => ?_
  · rw [hself]
    rfl
  · rw [hself, hr.sync]
  · rw [hself] at hbn
    rw [hlike.addr]
    exact hr.sized bn hbn
  · rw [hself] at hj
    rw [Vol.dirent_congr (hlike.byte _)]
    refine (h.range hρ).dirent _ j hr.live ?_ ?_
    · rw [hr.sync]
      exact ht
    · rw [hr.sync]
      exact hj

theorem marked {type : FileType} {inum : Nat} (hm : Marked sb type inum s s') :
    VolInv sb ρ s' := by
  have hcore := hm.core
  have hd : ∀ j, j ≠ inum → s'.dinode j = s.dinode j := fun j hj => by
    rw [hcore]
    exact update_of_ne hj _ _
  have hself : s'.dinode inum = { Dinode.zero with type := some type } := by
    rw [hcore]
    exact update_self ..
  have hblk : s'.vol.blk = s.vol.blk := by
    unfold Core.vol
    rw [hcore]
  have hic : s'.icache = s.icache := by rw [hcore]
  have hft : s'.ftable = s.ftable := by rw [hcore]
  have hzero := Vol.addr_eq_zero (v := s'.vol) (i := inum) (congrArg Dinode.addrs hself)
  have haddr : ∀ j, j ≠ inum → ∀ k, s'.vol.addr j k = s.vol.addr j k := fun j hj =>
    Vol.addr_congr (congrArg Dinode.addrs (hd j hj)) fun _ => by rw [hblk]
  have hlive : ∀ j, j ≠ inum → s'.vol.Live sb j → s.vol.Live sb j := fun j hj hl => by
    refine ⟨hl.1, ?_⟩
    have := hl.2
    rwa [show s'.vol.nd j = _ from hd j hj] at this
  refine ⟨h.small, ?_, fun i hl bn hbn => ?_, fun k hk => ?_, fun hρ => ?_⟩
  · refine h.own.setNode (i := inum) (by unfold Core.vol; rw [hcore]) hblk (fun j hj => hd j hj)
      (fun k => Vol.has_of_not_live fun hl => hl.2 hm.free) fun k => Vol.has_eq_none (hzero k)
  · by_cases hi : i = inum
    · subst hi
      rw [hself] at hbn
      exact absurd hbn (Nat.not_lt_zero _)
    · rw [hd i hi] at hbn
      rw [haddr i hi]
      exact h.sized i (hlive i hi hl) bn hbn
  · rw [hic] at hk
    unfold Synced
    rw [hic]
    intro hv
    obtain ⟨h1, h2, h3⟩ := h.sync k hk hv
    have hne : (s.icache k).inum ≠ inum := fun heq => by
      rw [heq] at h1
      rw [← show (s.icache k).toDinode.type = _ from rfl, ← h1] at h2
      exact h2 hm.free
    rw [hd _ hne]
    exact ⟨h1, h2, h3⟩
  · have hr := h.range hρ
    refine ⟨hr.root, fun k hk => ?_, fun d j hl ht hj => ?_, fun f hw => ?_⟩
    · rw [hic] at hk ⊢
      exact hr.inum k hk
    · by_cases hdi : d = inum
      · subst hdi
        rw [hself] at hj
        exact absurd hj (by simp [Dinode.zero])
      · rw [hd d hdi] at ht hj
        rw [Vol.dirent_congr fun x => Vol.byte_congr (haddr d hdi _) fun _ _ => by rw [hblk]]
        exact hr.dirent d j (hlive d hdi hl) ht hj
    · rw [hft] at hw ⊢
      have hp := hr.file f hw
      rw [hic, hd _ fun heq => ?_]
      · exact hp
      · rw [heq] at hp
        exact hp.1 hm.free

end

theorem tables (h : VolInv sb ρ s) {ft : Fin nfile → File} {pt : Fin nproc → Files}
    (hf : ρ → ∀ f, (ft f).Writes → (s.ftable f).Writes ∧ (ft f).ip = (s.ftable f).ip ∨
      (s.dinode (s.icache (ft f).ip).inum).Plain) :
    VolInv sb ρ { s with ftable := ft, procs := pt } := by
  refine ⟨h.small, h.own, h.sized, h.sync, fun hρ => ?_⟩
  have hr := h.range hρ
  refine ⟨hr.root, hr.inum, hr.dirent, fun f hw => ?_⟩
  rcases hf hρ f hw with ⟨h1, h2⟩ | h1
  · have := hr.file f h1
    rwa [← h2] at this
  · exact h1

end VolInv

end

end Xv6.Fs
