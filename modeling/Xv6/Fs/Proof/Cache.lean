import Xv6.Fs.Proof.Content

/-!
# The inode cache, exactly

What `iget`, `ilock`, `iunlock` and `iput` do to the whole state, when the volume is in order and
the entries that have been read agree with the disk. Each is stated from one state `s`; the result
names every part of the state after it.
-/

namespace Xv6.Fs

open Lib Function

section
variable {c : Ctx} {ip : Fin ninode} {s s' : State}

theorem iget_full (s : State) (inum : Nat) :
    Triple (· = s) (iget inum) (fun _ _ => True) fun _ _ =>
      ∀ k, (s.icache k).ref ≠ 0 ∧ ¬ (0 < (s.icache k).ref ∧ (s.icache k).inum = inum) := by
  refine .read_bind rfl ?_
  split
  · exact .bind (Q := fun _ _ => True) (.modify fun _ _ => trivial) fun _ => .pure fun _ h => h
  · next hnone =>
    split
    · exact .bind (Q := fun _ _ => True) (.modify fun _ _ => trivial) fun _ => .pure fun _ h => h
    · next hfull =>
      refine .throw fun _ _ k => ⟨fun h0 => ?_, fun hk => ?_⟩
      · simpa [h0] using List.find?_eq_none.1 hfull k (List.mem_finRange k)
      · simpa [hk] using List.find?_eq_none.1 hnone k (List.mem_finRange k)

/-- The state with an event recorded. -/
abbrev State.noted (s : State) (e : Event) : State := { s with hist := (e, s.toCore) :: s.hist }

theorem note_spec (s : State) (e : Event) {E : Stop → State → Prop} :
    Triple (· = s) (note e) (fun _ s' => s' = s.noted e) E :=
  .modify fun _ hs => by rw [hs]

/-- The call stops with `e`, at the lock of the entry. -/
def Blocked (s : State) (ip : Fin ninode) (e : Stop) : Prop :=
  (e = .deadlock ∨ e = .waits) ∧ (s.icache ip).lock ≠ none

theorem acquiresleep_spec (c : Ctx) (ip : Fin ninode) (s : State) :
    Triple (· = s) (acquiresleep c ip)
      (fun _ s' => (s.icache ip).lock = none ∧
        s' = (s.noted (.acquire ip)).setInode ip ((s.icache ip).setLock (some c.me)))
      fun e _ => Blocked s ip e := by
  refine (note_spec s _).bind fun _ => .read_bind rfl ?_
  refine .ite (fun hl => .throw fun s' h => ⟨.inl rfl, ?_⟩) fun _ =>
    .ite (fun hl => .throw fun s' h => ⟨.inr rfl, Option.isSome_iff_ne_none.1 hl⟩)
      fun hl => .modify ?_
  · rw [hl]
    nofun
  · rintro _ rfl
    exact ⟨by simpa using hl, rfl⟩

/-- The state after `ilock`: the entry is locked and holds what is on disk. -/
def State.locked (s : State) (me : Fin nproc) (ip : Fin ninode) : State :=
  (s.noted (.acquire ip)).setInode ip
    (((s.icache ip).setLock (some me)).load (s.dinode (s.icache ip).inum))

/-- Why `ilock` stops. -/
inductive LockStop (sb : Superblock) (ip : Fin ninode) (s : State) : Stop → Prop
  | ref : (s.icache ip).ref < 1 → LockStop sb ip s (.panic "ilock")
  | held {e : Stop} : Blocked s ip e → LockStop sb ip s e
  | range : (s.icache ip).valid = false → ¬ (s.icache ip).inum < sb.ninodes →
      LockStop sb ip s .fault
  | type : 0 < (s.icache ip).ref → (s.icache ip).valid = false →
      (s.dinode (s.icache ip).inum).type = none → LockStop sb ip s (.panic "ilock: no type")

/-- If the entry has been read, it agrees with the disk. -/
def Synced (sb : Superblock) (s : State) (ip : Fin ninode) : Prop :=
  (s.icache ip).valid = true → s.dinode (s.icache ip).inum = (s.icache ip).toDinode ∧
    (s.icache ip).type ≠ none ∧ (s.icache ip).inum < sb.ninodes

theorem ilock_spec (c : Ctx) (ip : Fin ninode) (s : State) (hsync : Synced c.sb s ip) :
    Triple (· = s) (ilock c ip)
      (fun _ s' => s' = s.locked c.me ip ∧ 0 < (s.icache ip).ref ∧ (s.icache ip).lock = none ∧
        s.vol.Live c.sb (s.icache ip).inum)
      fun e _ => LockStop c.sb ip s e := by
  refine .read_bind rfl ?_
  refine .ite (fun hr => .throw fun _ _ => .ref hr) fun hr => ?_
  refine .bind ((acquiresleep_spec c ip s).onError fun _ _ => .held) fun _ => ?_
  refine .ite (fun hv => .pure ?_) fun hv => ?_
  · rintro _ ⟨hl, rfl⟩
    obtain ⟨h1, h2, h3⟩ := hsync hv
    have hx : (s.icache ip).setLock (some c.me) =
        ((s.icache ip).setLock (some c.me)).load (s.dinode (s.icache ip).inum) := by
      rw [h1, Inode.load]
      exact congrArg _ hv
    refine ⟨by rw [hx]; rfl, by omega, hl, h3, ?_⟩
    show (s.dinode _).type ≠ none
    rw [h1]
    exact h2
  · have hv' : (s.icache ip).valid = false := by simpa using hv
    refine (getDinode_spec c _ ?_).bind fun d => .of_pre
      (φ := (d = s.dinode (s.icache ip).inum ∧ (s.icache ip).inum < c.sb.ninodes)) ?_ ?_
    · exact fun _ _ hge => .range hv' hge
    · rintro _ ⟨⟨-, rfl⟩, rfl, hlt⟩
      exact ⟨rfl, hlt⟩
    rintro ⟨rfl, hlt⟩
    refine .bind (Q := fun _ s' => s' = s.locked c.me ip ∧ (s.icache ip).lock = none) (.modify ?_)
      fun _ => .ite (fun ht => .throw ?_) fun ht => .pure ?_
    · rintro _ ⟨⟨hl, rfl⟩, -⟩
      refine ⟨?_, hl⟩
      unfold State.locked
      simp [Inode.load]
    · exact fun _ _ => .type (by omega) hv' (by simpa using ht)
    · rintro _ ⟨rfl, hl⟩
      refine ⟨rfl, by omega, hl, hlt, ?_⟩
      show (s.dinode _).type ≠ none
      simpa using ht

theorem iunlock_spec (c : Ctx) (ip : Fin ninode) (s : State) :
    Triple (· = s) (iunlock c ip)
      (fun _ s' => s' = s.setInode ip ((s.icache ip).setLock none) ∧
        (s.icache ip).lock = some c.me ∧ 0 < (s.icache ip).ref)
      fun e _ => e = .panic "iunlock" ∧ ((s.icache ip).lock ≠ some c.me ∨
        (s.icache ip).ref < 1) := by
  refine .read_bind rfl ?_
  refine .ite (fun hbad => .throw fun _ h => ⟨rfl, hbad⟩) fun h => .modify ?_
  rintro _ rfl
  obtain ⟨h1, h2⟩ := not_or.1 h
  exact ⟨rfl, by simpa using h1, by omega⟩

/-- An inode that `itrunc` has emptied and whose type is `0`. -/
def Dinode.freed (d : Dinode) : Dinode := { d with type := none, size := 0, addrs := fun _ => 0 }

/-- Its entry in the cache after `iput`. -/
def Inode.freed (i : Inode) : Inode := ⟨i.toDinode.freed, i.inum, 0, none, false⟩

/-- The entry has been read, its inode has no links, and no other reference to it is left. -/
def LastRef (s : State) (ip : Fin ninode) : Prop :=
  (s.icache ip).valid = true ∧ (s.icache ip).nlink = 0 ∧ (s.icache ip).ref = 1

/-- The state after an `iput` that freed the inode. -/
structure Freed (sb : Superblock) (ip : Fin ninode) (s s' : State) : Prop where
  last : LastRef s ip
  own : s'.vol.Own sb
  entry : s'.icache = update s.icache ip (s.icache ip).freed
  dinode : s'.dinode = update s.dinode (s.icache ip).inum (s.icache ip).toDinode.freed
  block : s'.block = s.block
  ftable : s'.ftable = s.ftable
  procs : s'.procs = s.procs
  hist : Logged (s.noted (.acquire ip)) s'

/-- The state after an `iput` that did not. -/
def State.dropped (s : State) (ip : Fin ninode) : State :=
  (s.noted (.acquire ip)).setInode ip (((s.icache ip).setLock none).setRef ((s.icache ip).ref - 1))

/-- What `iput` does. -/
inductive Put (sb : Superblock) (s : State) (ip : Fin ninode) : State → Prop
  | keep (h : ¬ LastRef s ip) : Put sb s ip (s.dropped ip)
  | free {s' : State} (h : Freed sb ip s s') : Put sb s ip s'

theorem ifree_spec {E : Stop → State → Prop} (hv : s.vol.Own c.sb)
    (hi : s.vol.Live c.sb (s.icache ip).inum)
    (hsync : s.dinode (s.icache ip).inum = (s.icache ip).toDinode) :
    Triple (· = s) (ifree c ip)
      (fun _ s' => s'.vol.Own c.sb ∧ s'.icache = update s.icache ip
          ⟨(s.icache ip).toDinode.freed, (s.icache ip).inum, (s.icache ip).ref, (s.icache ip).lock,
            false⟩ ∧
        s'.dinode = update s.dinode (s.icache ip).inum (s.icache ip).toDinode.freed ∧
        s'.block = s.block ∧ s'.ftable = s.ftable ∧ s'.procs = s.procs ∧ Logged s s') E := by
  refine (itrunc_spec hv hi hsync).bind fun _ => .of_state fun s₁ h => ?_
  have hself : s₁.icache ip = { s.icache ip with size := 0, addrs := fun _ => 0 } := by
    rw [h.entry, update_self]
  refine .read_bind rfl ?_
  refine (note_spec s₁ _).bind fun _ => .bind ((setFields_spec c ip _ _).onError ?_)
    fun _ => .modify ?_
  · rintro e s' ⟨⟨-, hge⟩, -⟩
    refine absurd hi.1 ?_
    rw [hself] at hge
    exact hge
  · rintro s' ⟨rfl, -⟩
    have hd : (s.icache ip).toDinode.freed =
        { (s₁.icache ip).toDinode with type := none } := by rw [hself]; rfl
    have hd' : update s₁.dinode (s₁.icache ip).inum
        { (s₁.icache ip).toDinode with type := none } =
        update s.dinode (s.icache ip).inum (s.icache ip).toDinode.freed := by
      rw [← hd, h.dinode, hself, update_idem]
    refine ⟨?_, ?_, hd', h.block, h.ftable, h.procs,
      h.hist.trans (.trans (.one (m := (.free _, s₁.toCore)) rfl nofun nofun)
        (.one rfl nofun nofun))⟩
    · -- a free inode holds nothing, and its slots were empty already
      refine h.own.setNode (i := (s.icache ip).inum) rfl rfl (fun j hj => ?_) (fun k => ?_)
        fun k => ?_
      · show update s₁.dinode _ _ j = s₁.dinode j
        rw [hself]
        exact update_of_ne hj _ _
      · refine Vol.has_eq_none (Vol.addr_eq_zero ?_ k)
        show (s₁.dinode _).addrs = _
        rw [h.dinode, update_self]
      · refine Vol.has_of_not_live fun hl => hl.2 ?_
        show (update s₁.dinode _ _ (s.icache ip).inum).type = none
        rw [hd', update_self]
        rfl
    · simp only [State.written_icache, update_self, update_idem]
      rw [h.entry, update_idem, update_self]
      rfl

theorem iput_spec (c : Ctx) (ip : Fin ninode) (s : State)
    (hsync : LastRef s ip → s.vol.Own c.sb ∧ Synced c.sb s ip) :
    Triple (· = s) (iput c ip) (fun _ s' => Put c.sb s ip s' ∧ (s.icache ip).lock = none)
      fun e _ => Blocked s ip e := by
  refine (acquiresleep_spec c ip s).bind fun _ => .of_pre (fun _ h => h.1) fun hl =>
    .pre ?_ fun _ h => h.2
  generalize hs₁ : (s.noted (.acquire ip)).setInode ip ((s.icache ip).setLock (some c.me)) = s₁
  have hself : s₁.icache ip = (s.icache ip).setLock (some c.me) := by
    rw [← hs₁]
    exact update_self ..
  refine .read_bind rfl ?_
  by_cases hf : ¬ LastRef s ip
  · rw [if_neg (by rw [hself]; exact hf)]
    refine Triple.post (Q := fun _ s' => s' = s.dropped ip) ?_ fun _ _ h => ⟨h ▸ .keep hf, hl⟩
    refine .bind (Q := fun _ s' => s' = s₁) (.pure fun _ h => h) fun _ => .bind
      (Q := fun _ s' => s' = s₁.setInode ip ((s.icache ip).setLock none)) (.modify ?_)
      fun _ => .modify ?_
    · rintro _ rfl
      rw [hself]
      rfl
    · rintro _ rfl
      subst hs₁
      simp [State.dropped, Inode.setRef, Inode.setLock]
  have hf := not_not.1 hf
  rw [if_pos (by rw [hself]; exact hf)]
  obtain ⟨hv, hsync⟩ := hsync hf
  obtain ⟨h1, h2, h3⟩ := hsync hf.1
  have hvol : s₁.vol = s.vol := by rw [← hs₁]; rfl
  refine .bind (ifree_spec (hvol ▸ hv) ?_ ?_) fun _ => .bind
    (Q := fun _ s' => Freed c.sb ip s (s'.setInode ip (s.icache ip).freed) ∧
      s'.icache = update s.icache ip
        ⟨(s.icache ip).toDinode.freed, (s.icache ip).inum, 1, none, false⟩)
    (.modify ?_) fun _ => .modify ?_
  · rw [hvol, hself]
    refine ⟨h3, ?_⟩
    show (s.dinode (s.icache ip).inum).type ≠ none
    rw [h1]
    exact h2
  · rw [hself, ← hs₁]
    exact h1
  · rintro s₂ ⟨g1, g2, g3, g4, g5, g6, g7⟩
    rw [hself] at g2 g3
    subst hs₁
    have hent : update s₂.icache ip ((s₂.icache ip).setLock none) =
        update s.icache ip
          ⟨(s.icache ip).toDinode.freed, (s.icache ip).inum, 1, none, false⟩ := by
      rw [g2, update_self, update_idem, update_idem, ← hf.2.2]
      rfl
    refine ⟨⟨hf, g1, ?_, g3, g4, g5, g6, g7⟩, hent⟩
    show update (update s₂.icache ip ((s₂.icache ip).setLock none)) ip _ = _
    rw [hent, update_idem]
  · rintro s₂ ⟨hfr, hent⟩
    have hx : update s₂.icache ip { s₂.icache ip with ref := (s₂.icache ip).ref - 1 } =
        update s₂.icache ip (s.icache ip).freed := by
      rw [hent, update_self, update_idem, update_idem]
      rfl
    dsimp only
    rw [hx]
    exact ⟨.free hfr, hl⟩

theorem iput_keep (c : Ctx) (ip : Fin ninode) (s : State) (hf : ¬ LastRef s ip) :
    Triple (· = s) (iput c ip) (fun _ s' => s' = s.dropped ip ∧ (s.icache ip).lock = none)
      fun e _ => Blocked s ip e := by
  refine (iput_spec c ip s fun h => absurd h hf).post fun _ s' ⟨hp, hl⟩ => ⟨?_, hl⟩
  cases hp with
  | keep _ => rfl
  | free h => exact absurd h.last hf

end

end Xv6.Fs
