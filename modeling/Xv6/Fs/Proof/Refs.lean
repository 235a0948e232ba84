import Xv6.Fs.Syscalls
import Xv6.Lib.Hoare
import Xv6.Lib.Tally
import Mathlib.Data.Multiset.Count

/-!
# References

`ip->ref` counts the open files and the working directories that refer to a cache entry, and the
references that the running call holds itself; `f->ref` counts descriptors in the same way. `RefInv`
says so, with the call's own references as ghosts: `tmp` for inodes, `tf` for files. The descriptors
and working directories that count are those of `pr`. It differs from the process table `pt` while a
call has given up a reference whose pointer is still there, or has installed a pointer and not yet
counted it.

Most functions do not touch what `RefInv` speaks about (`Same`). One lemma for each function that
does says how it moves the ghosts. Nothing is assumed about the image.
-/

namespace Xv6.Fs

open Lib Function

variable {α : Type} {R : State → State → Prop} {ip k : Fin ninode} {c : Ctx}

namespace Inode

def setLock (i : Inode) (l : Option (Fin nproc)) : Inode := { i with lock := l }

def setRef (i : Inode) (n : Int) : Inode := { i with ref := n }

/-- The entry filled from disk. -/
def load (i : Inode) (d : Dinode) : Inode := { i with toDinode := d, valid := true }

/-- The entry as `iget` takes it over. -/
def recycle (i : Inode) (inum : Nat) : Inode := { i with inum := inum, ref := 1, valid := false }

end Inode

/-- The number of entries of the file table in use that refer to `k`. -/
def fileRefs (ftable : Fin nfile → File) (k : Fin ninode) : Nat :=
  tally (fun x : File => if 0 < x.ref ∧ x.type = .inode ∧ x.ip = k then 1 else 0) ftable

/-- The number of processes whose working directory is `k`. -/
def cwdRefs (pr : Fin nproc → Files) (k : Fin ninode) : Nat :=
  tally (fun x : Files => if x.cwd = some k then 1 else 0) pr

/-- The number of descriptors of the file `f`. -/
def slotRefs (pr : Fin nproc → Files) (f : Fin nfile) : Nat :=
  tally (fun x : Files => tally (fun o => if o = some f then 1 else 0) x.ofile) pr

/-- When the type of an inode is set to `0`, it has no links, no open file refers to it, and no
process has it as working directory, other than the running one if it is giving that up (`st`). -/
def FreeOk (me : Fin nproc) (st : Prop) (m : Event × Core) : Prop :=
  ∀ i, m.1 = .free i → (m.2.dinode i).nlink = 0 ∧
    (∀ f, 0 < (m.2.ftable f).ref → (m.2.ftable f).type = .inode →
      (m.2.icache (m.2.ftable f).ip).inum ≠ i) ∧
    ∀ q k, (m.2.procs q).cwd = some k → (m.2.icache k).inum = i → q = me ∧ st

/-- What a call begins with: the state, the process that makes it, and whether that gives up its
working directory. -/
structure Begun where
  core : Core
  me : Fin nproc
  drops : Prop

/-- What the call has done so far: inodes were freed rightly, and the types that are `0` now and
were not when the call began are those of freed inodes. -/
structure HistOk (b : Begun) (s : State) : Prop where
  ok : ∀ m ∈ s.hist, FreeOk b.me b.drops m
  freed : ∀ i, (b.core.dinode i).type ≠ none → (s.dinode i).type = none → ∃ m, (.free i, m) ∈ s.hist

/-- References are counted, the call's own included; see above. -/
structure RefInv (b : Begun) (vs : List (Fin ninode))
    (tmp : Multiset (Fin ninode)) (tf : Multiset (Fin nfile)) (pr pt : Fin nproc → Files)
    (s : State) : Prop where
  inode : ∀ k, (s.icache k).ref = ↑(fileRefs s.ftable k + cwdRefs pr k + tmp.count k)
  file : ∀ f, (s.ftable f).ref = ↑(slotRefs pr f + tf.count f)
  closed : ∀ f, (s.ftable f).ref = 0 → (s.ftable f).type = .none
  uniq : ∀ k k', 0 < (s.icache k).ref → 0 < (s.icache k').ref →
    (s.icache k).inum = (s.icache k').inum → k = k'
  coh : ∀ k, 0 < (s.icache k).ref → (s.icache k).valid = true →
    (s.icache k).type ≠ none ∧ (s.dinode (s.icache k).inum).type = (s.icache k).type ∧
      (s.dinode (s.icache k).inum).nlink = (s.icache k).nlink
  /-- `vs` are entries in use that have been read from disk. -/
  held : ∀ k ∈ vs, 0 < (s.icache k).ref ∧ (s.icache k).valid = true
  procs : s.procs = pt
  others : ∀ q, (q = b.me → ¬ b.drops) → (pt q).cwd = (pr q).cwd
  hist : HistOk b s

/-! ## Steps that do not touch references -/

/-- The fields of an entry that `RefInv` speaks about. -/
def Inode.face (i : Inode) : Nat × Int × Bool × Option FileType × BitVec 16 :=
  (i.inum, i.ref, i.valid, i.type, i.nlink)

/-- Nothing that `RefInv` speaks about has changed. -/
structure Same (s s' : State) : Prop where
  entry : ∀ k, (s'.icache k).face = (s.icache k).face
  dinode : s'.dinode = s.dinode
  ftable : s'.ftable = s.ftable
  procs : s'.procs = s.procs
  hist : ∃ es, s'.hist = es ++ s.hist ∧ ∀ m ∈ es, ∀ i, m.1 ≠ .free i

namespace Same

theorem refl (s : State) : Same s s := ⟨fun _ => rfl, rfl, rfl, rfl, [], rfl, nofun⟩

theorem trans {s s' s'' : State} (h : Same s s') (h' : Same s' s'') : Same s s'' := by
  obtain ⟨es, he, hn⟩ := h.hist
  obtain ⟨es', he', hn'⟩ := h'.hist
  refine ⟨fun k => (h'.entry k).trans (h.entry k), h'.dinode.trans h.dinode,
    h'.ftable.trans h.ftable, h'.procs.trans h.procs, es' ++ es, ?_, ?_⟩
  · rw [he', he, List.append_assoc]
  · intro m hm
    rcases List.mem_append.1 hm with hm | hm
    · exact hn' m hm
    · exact hn m hm

instance : Std.Refl Same := ⟨refl⟩

instance : IsTrans State Same := ⟨fun _ _ _ => trans⟩

end Same

/-- `x` keeps `R`, and does not stop because the inode cache is full. -/
abbrev Calm {α : Type} (R : State → State → Prop) (x : M α) : Prop :=
  Steady (· ≠ .panic "iget: no inodes") R x

theorem keeps_panic {msg : String} (h : msg ≠ "iget: no inodes") : Calm R (panic msg : M α) :=
  .throw fun he => h (Stop.panic.inj he)

theorem keeps_getInode (ip : Fin ninode) : Calm R (getInode ip) :=
  Steady.get.bind fun _ => .pure

theorem keeps_getDinode (c : Ctx) (inum : Nat) :
    Calm R (getDinode c inum) :=
  .ite (Steady.get.bind fun _ => .pure) (.throw (by simp))

theorem keeps_bread (c : Ctx) (b : Nat) : Calm R (bread c b) :=
  .ite (Steady.get.bind fun _ => .pure) (.throw (by simp))

theorem keeps_note {e : Event} (h : ∀ i, e ≠ .free i) : Calm Same (note e) :=
  .modify fun s => ⟨fun _ => rfl, rfl, rfl, rfl, [(e, s.toCore)], rfl, by simpa using h⟩

theorem keeps_logWrite (b : Nat) : Calm Same (logWrite b) := keeps_note nofun

theorem keeps_modInode {f : Inode → Inode} (h : ∀ i, (f i).face = i.face) :
    Calm Same (modInode ip f) := by
  refine .modify fun s => ⟨fun k => ?_, rfl, rfl, rfl, [], rfl, nofun⟩
  by_cases hk : k = ip
  · subst hk
    simpa using h _
  · simp [hk]

section
variable (c : Ctx) (ip : Fin ninode)

theorem keeps_setBlock (b : Nat) (x : Block) : Calm Same (setBlock b x) :=
  Steady.bind (.modify fun _ => ⟨fun _ => rfl, rfl, rfl, rfl, [], rfl, nofun⟩)
    fun _ => keeps_logWrite b

theorem keeps_setBit (b : Nat) (v : Bool) : Calm Same (setBit c b v) :=
  Steady.bind (.modify fun _ => ⟨fun _ => rfl, rfl, rfl, rfl, [], rfl, nofun⟩)
    fun _ => keeps_logWrite _

theorem keeps_bzero (b : Nat) : Calm Same (bzero c b) :=
  (keeps_bread c b).bind fun _ => keeps_setBlock b _

theorem keeps_balloc : Calm Same (balloc c) := by
  refine Steady.get.bind fun s => ?_
  split
  · exact (keeps_setBit c _ _).bind fun _ => (keeps_bzero c _).bind fun _ => .pure
  · exact keeps_panic (by decide)

theorem keeps_bfree (b : Nat) : Calm Same (bfree c b) :=
  .ite (Steady.get.bind fun _ => .ite (keeps_panic (by decide)) (keeps_setBit c b _))
    (.throw (by simp))

theorem keeps_acquiresleep : Calm Same (acquiresleep c ip) :=
  (keeps_note (e := .acquire ip) nofun).bind fun _ => (keeps_getInode ip).bind fun _ =>
    .ite (.throw (by simp)) (.ite (.throw (by simp)) (keeps_modInode fun _ => rfl))

theorem keeps_releasesleep : Calm Same (releasesleep ip) :=
  keeps_modInode fun _ => rfl

theorem keeps_iunlock : Calm Same (iunlock c ip) :=
  (keeps_getInode ip).bind fun _ => .ite (keeps_panic (by decide)) (keeps_releasesleep ip)

theorem keeps_freeSlot (k : Fin (ndirect + 1)) : Calm Same (freeSlot c ip k) :=
  (keeps_getInode ip).bind fun _ => .ite .pure
    ((keeps_bfree c _).bind fun _ => keeps_modInode fun _ => rfl)

theorem keeps_freeIndirect : Calm Same (freeIndirect c ip) :=
  (keeps_getInode ip).bind fun _ => .ite .pure ((keeps_bread c _).bind fun _ =>
    (Steady.forM (fun _ => .ite .pure (keeps_bfree c _)) _).bind fun _ => keeps_freeSlot c ip _)

theorem keeps_slotBlock (k : Fin (ndirect + 1)) : Calm Same (slotBlock c ip k) :=
  (keeps_getInode ip).bind fun _ => .ite ((keeps_balloc c).bind fun _ =>
    Steady.bind (keeps_modInode fun _ => rfl) fun _ => .pure) .pure

theorem keeps_bmap (bn : Nat) : Calm Same (bmap c ip bn) := by
  unfold bmap
  split
  · exact keeps_slotBlock c ip _
  · refine .ite ?_ (keeps_panic (by decide))
    exact (keeps_slotBlock c ip _).bind fun _ => (keeps_bread c _).bind fun _ => .ite
      ((keeps_balloc c).bind fun _ => (keeps_setBlock _ _).bind fun _ => .pure) .pure

theorem keeps_readLoop : ∀ turns off n, Calm Same (readLoop c ip turns off n)
  | 0, _, _ => .pure
  | turns + 1, _, _ => .ite .pure ((keeps_bmap c ip _).bind fun _ => (keeps_bread c _).bind fun _ =>
      (keeps_readLoop turns _ _).bind fun _ => .pure)

theorem keeps_readi (off n : Nat) : Calm Same (readi c ip off n) := by
  refine (keeps_getInode ip).bind fun i => .ite (.ite ?_ .pure) (.ite .pure ?_)
  · split <;> exact .pure
  · exact (keeps_readLoop c ip _ _ _).bind fun _ => .pure

theorem keeps_writeLoop : ∀ turns off src, Calm Same (writeLoop c ip turns off src)
  | 0, _, _ => .pure
  | turns + 1, _, _ => .ite .pure ((keeps_bmap c ip _).bind fun _ =>
      (keeps_bread c _).bind fun _ => (keeps_setBlock _ _).bind fun _ =>
        keeps_writeLoop turns _ _)

end

/-! ## How functions move references -/

section
variable {b : Begun} {vs vs' : List (Fin ninode)}
  {tmp : Multiset (Fin ninode)} {tf : Multiset (Fin nfile)} {pr pt : Fin nproc → Files}
  {s s' : State}

theorem HistOk.append (hs : HistOk b s) {l : List (Event × Core)} (he : s'.hist = l ++ s.hist)
    (hes : ∀ m ∈ l, FreeOk b.me b.drops m)
    (hd : ∀ i, (s'.dinode i).type = none → (s.dinode i).type = none ∨ ∃ m, (.free i, m) ∈ s'.hist) :
    HistOk b s' := by
  refine ⟨fun m hm => ?_, fun i hb hi => (hd i hi).elim (fun h0 => ?_) id⟩
  · rw [he] at hm
    exact (List.mem_append.1 hm).elim (hes m) (hs.ok m)
  · obtain ⟨m, hm⟩ := hs.freed i hb h0
    exact ⟨m, by rw [he]; exact List.mem_append_right _ hm⟩

theorem Same.histOk (h : Same s s') (hs : HistOk b s) : HistOk b s' := by
  obtain ⟨es, he, hn⟩ := h.hist
  exact hs.append he (fun m hm i hi => absurd hi (hn m hm i)) fun i hi => .inl (h.dinode ▸ hi)

namespace RefInv

theorem same (h : RefInv b vs tmp tf pr pt s) (hs : Same s s') :
    RefInv b vs tmp tf pr pt s' := by
  have hf : ∀ k, (s'.icache k).inum = (s.icache k).inum ∧ (s'.icache k).ref = (s.icache k).ref ∧
      (s'.icache k).valid = (s.icache k).valid ∧ (s'.icache k).type = (s.icache k).type ∧
      (s'.icache k).nlink = (s.icache k).nlink := fun k => by
    have := hs.entry k
    simpa only [Inode.face, Prod.mk.injEq] using this
  constructor
  · intro k
    rw [(hf k).2.1, hs.ftable]
    exact h.inode k
  · intro f
    rw [hs.ftable]
    exact h.file f
  · intro f
    rw [hs.ftable]
    exact h.closed f
  · intro k k'
    rw [(hf k).2.1, (hf k').2.1, (hf k).1, (hf k').1]
    exact h.uniq k k'
  · intro k
    rw [(hf k).2.1, (hf k).2.2.1, (hf k).2.2.2.1, (hf k).2.2.2.2, (hf k).1, hs.dinode]
    exact h.coh k
  · intro k hk
    rw [(hf k).2.1, (hf k).2.2.1]
    exact h.held k hk
  · rw [hs.procs]
    exact h.procs
  · exact h.others
  · exact hs.histOk h.hist

theorem mono (h : RefInv b vs tmp tf pr pt s) (hv : ∀ k ∈ vs', k ∈ vs) :
    RefInv b vs' tmp tf pr pt s := { h with held := fun k hk => h.held k (hv k hk) }

theorem swap {k' : Fin ninode} (h : RefInv b vs (k ::ₘ k' ::ₘ tmp) tf pr pt s) :
    RefInv b vs (k' ::ₘ k ::ₘ tmp) tf pr pt s := by
  rw [Multiset.cons_swap]
  exact h

theorem ref_pos (h : RefInv b vs tmp tf pr pt s) (hk : k ∈ tmp) :
    0 < (s.icache k).ref := by
  have h1 := Multiset.count_pos.2 hk
  have h2 := h.inode k
  omega

theorem cwd_pos (h : RefInv b vs tmp tf pr pt s) {q : Fin nproc} (hq : (pr q).cwd = some k) :
    0 < (s.icache k).ref := by
  have h1 : 1 ≤ cwdRefs pr k := by
    have := le_tally (fun x : Files => if x.cwd = some k then 1 else 0) pr q
    rwa [if_pos hq] at this
  have h2 := h.inode k
  omega

theorem file_pos (h : RefInv b vs tmp tf pr pt s) {f : Fin nfile} (hf : 0 < (s.ftable f).ref)
    (ht : (s.ftable f).type = .inode) : 0 < (s.icache (s.ftable f).ip).ref := by
  have h1 : 1 ≤ fileRefs s.ftable (s.ftable f).ip := by
    have := le_tally (fun x : File =>
      if 0 < x.ref ∧ x.type = .inode ∧ x.ip = (s.ftable f).ip then 1 else 0) s.ftable f
    rwa [if_pos ⟨hf, ht, rfl⟩] at this
  have h2 := h.inode (s.ftable f).ip
  omega

end RefInv

theorem RefInv.setEntry {tmp' : Multiset (Fin ninode)} {x : Inode}
    (h : RefInv b vs tmp tf pr pt s) (hi : s'.icache = update s.icache ip x)
    (hft : s'.ftable = s.ftable) (hp : s'.procs = s.procs) (hh : HistOk b s')
    (hx : x.ref = ↑(fileRefs s.ftable ip + cwdRefs pr ip + tmp'.count ip))
    (htmp : ∀ k ≠ ip, tmp'.count k = tmp.count k)
    (huniq : 0 < x.ref → ∀ k ≠ ip, 0 < (s.icache k).ref → (s.icache k).inum ≠ x.inum)
    (hcoh : 0 < x.ref → x.valid = true → x.type ≠ none ∧ (s'.dinode x.inum).type = x.type ∧
      (s'.dinode x.inum).nlink = x.nlink)
    (hdisk : ∀ k ≠ ip, 0 < (s.icache k).ref → (s.icache k).valid = true →
      s'.dinode (s.icache k).inum = s.dinode (s.icache k).inum)
    (hheld : ∀ k ∈ vs', if k = ip then 0 < x.ref ∧ x.valid = true else k ∈ vs) :
    RefInv b vs' tmp' tf pr pt s' := by
  have hself : s'.icache ip = x := by rw [hi, update_self]
  have hne : ∀ k, k ≠ ip → s'.icache k = s.icache k := fun k hk => by
    rw [hi, update_of_ne hk]
  constructor
  · intro k
    by_cases hk : k = ip
    · subst hk
      rw [hself, hft, hx]
    · rw [hne k hk, hft, htmp k hk]
      exact h.inode k
  · rw [hft]
    exact h.file
  · rw [hft]
    exact h.closed
  · intro k k' h1 h2 h3
    by_cases hk : k = ip <;> by_cases hk' : k' = ip
    · rw [hk, hk']
    · subst hk
      rw [hself] at h1 h3
      rw [hne k' hk'] at h2 h3
      exact absurd h3.symm (huniq h1 k' hk' h2)
    · subst hk'
      rw [hself] at h2 h3
      rw [hne k hk] at h1 h3
      exact absurd h3 (huniq h2 k hk h1)
    · rw [hne k hk] at h1 h3
      rw [hne k' hk'] at h2 h3
      exact h.uniq k k' h1 h2 h3
  · intro k h1 h2
    by_cases hk : k = ip
    · subst hk
      rw [hself] at h1 h2 ⊢
      exact hcoh h1 h2
    · rw [hne k hk] at h1 h2 ⊢
      rw [hdisk k hk h1 h2]
      exact h.coh k h1 h2
  · intro k hk
    have h1 := hheld k hk
    split at h1
    · next heq =>
      subst heq
      rw [hself]
      exact h1
    · next hk' =>
      rw [hne k hk']
      exact h.held k h1
  · rw [hp]
    exact h.procs
  · exact h.others
  · exact hh

theorem keeps_refs {x : M α} (h : Calm Same x) :
    Triple (RefInv b vs tmp tf pr pt) x (fun _ => RefInv b vs tmp tf pr pt)
      fun _ => HistOk b :=
  h.triple (fun _ _ _ h hs => h.same hs) fun _ _ _ h hs => (h.same hs).hist

theorem panic_refs {Q : α → State → Prop} (msg : String) :
    Triple (RefInv b vs tmp tf pr pt) (panic msg) Q fun _ => HistOk b :=
  .throw fun _ h => h.hist

theorem getInode_spec {P : State → Prop} {E : Stop → State → Prop} (ip : Fin ninode) :
    Triple P (getInode ip) (fun i s => P s ∧ i = s.icache ip) E :=
  .bind (Q := fun a s => P s ∧ a = s) (.get fun _ h => ⟨h, rfl⟩)
    fun _ => .pure fun _ h => ⟨h.1, by rw [h.2]⟩

abbrev State.setInode (s : State) (ip : Fin ninode) (x : Inode) : State :=
  { s with icache := update s.icache ip x }

theorem RefInv.incr (h : RefInv b vs tmp tf pr pt s) (hr : 0 < (s.icache ip).ref) :
    RefInv b vs (ip ::ₘ tmp) tf pr pt
      (s.setInode ip { s.icache ip with ref := (s.icache ip).ref + 1 }) := by
  refine h.setEntry rfl rfl rfl ⟨h.hist.ok, h.hist.freed⟩ ?_ ?_ ?_ ?_ (fun _ _ _ _ => rfl) ?_
  · have := h.inode ip
    rw [Multiset.count_cons_self]
    push_cast at this ⊢
    omega
  · exact fun k hk => Multiset.count_cons_of_ne hk _
  · exact fun _ k hk hk' heq => hk (h.uniq k ip hk' hr heq)
  · exact fun _ hv => h.coh ip hr hv
  · intro k hk
    split
    · next heq =>
      subst heq
      have := h.held k hk
      exact ⟨by dsimp only; omega, this.2⟩
    · exact hk

/-- The two ways of `iget`: the entry is in use for `inum`, or it is recycled. -/
inductive Got (s : State) (inum : Nat) (ip : Fin ninode) : State → Prop
  | old (hr : 0 < (s.icache ip).ref) (hi : (s.icache ip).inum = inum) :
    Got s inum ip (s.setInode ip ((s.icache ip).setRef ((s.icache ip).ref + 1)))
  | new (hno : ∀ k, 0 < (s.icache k).ref → (s.icache k).inum ≠ inum) (hr : (s.icache ip).ref = 0) :
    Got s inum ip (s.setInode ip ((s.icache ip).recycle inum))

theorem Got.inum {inum : Nat} (h : Got s inum ip s') : (s'.icache ip).inum = inum := by
  cases h with
  | old hr hi => simpa [State.setInode, Inode.setRef] using hi
  | new hno hr => simp [Inode.recycle]

theorem iget_spec (s : State) (inum : Nat) :
    Triple (· = s) (iget inum) (fun ip s' => Got s inum ip s')
      fun e s' => e = .panic "iget: no inodes" ∧ s' = s := by
  refine .read_bind rfl ?_
  split
  · next ip hf =>
    have hp := List.find?_some hf
    simp only [Bool.and_eq_true, decide_eq_true_eq, beq_iff_eq] at hp
    refine .bind (Q := fun _ s' => Got s inum ip s') (.modify ?_) fun _ => .pure fun _ h => h
    rintro _ rfl
    exact .old hp.1 hp.2
  · next hnone =>
    have hno : ∀ k, 0 < (s.icache k).ref → (s.icache k).inum ≠ inum := fun k hk heq => by
      have := List.find?_eq_none.1 hnone k (List.mem_finRange k)
      simp [hk, heq] at this
    split
    · next ip hf =>
      have hz : (s.icache ip).ref = 0 := by simpa using List.find?_some hf
      refine .bind (Q := fun _ s' => Got s inum ip s') (.modify ?_) fun _ => .pure fun _ h => h
      rintro _ rfl
      exact .new hno hz
    · exact .throw fun _ hs => ⟨rfl, hs⟩

theorem iget_refs (inum : Nat) :
    Triple (RefInv b vs tmp tf pr pt) (iget inum)
      (fun ip => RefInv b vs (ip ::ₘ tmp) tf pr pt) fun _ => HistOk b := by
  refine .of_state fun s h => (iget_spec s inum).conseq (fun _ => id) (fun ip s' hgot => ?_) ?_
  · cases hgot with
    | old hr hi => exact h.incr hr
    | new hno hr =>
      refine h.setEntry rfl rfl rfl ⟨h.hist.ok, h.hist.freed⟩ ?_ ?_ ?_ nofun (fun _ _ _ _ => rfl) ?_
      · have := h.inode ip
        rw [Multiset.count_cons_self]
        show (1 : Int) = _
        omega
      · exact fun k hk => Multiset.count_cons_of_ne hk _
      · exact fun _ k _ hk => hno k hk
      · intro k hk
        have := h.held k hk
        rw [if_neg]
        · exact hk
        · rintro rfl
          omega
  · rintro _ _ ⟨-, rfl⟩
    exact h.hist

theorem idup_refs {q : Fin nproc} (hq : (pr q).cwd = some ip) :
    Triple (RefInv b vs tmp tf pr pt) (idup ip)
      (fun ip' s => ip' = ip ∧ RefInv b vs (ip ::ₘ tmp) tf pr pt s) fun _ => HistOk b :=
  .bind (Q := fun _ => RefInv b vs (ip ::ₘ tmp) tf pr pt)
    (.modify fun _ h => h.incr (h.cwd_pos hq)) fun _ => .pure fun _ h => ⟨rfl, h⟩

/-- The state after `iupdate` of the entry `x`. -/
def State.written (s : State) (c : Ctx) (ip : Fin ninode) (x : Inode) : State :=
  { s with
    icache := update s.icache ip x
    dinode := update s.dinode x.inum x.toDinode
    hist := (.logWrite (c.sb.iblock x.inum), { s.toCore with
        icache := update s.icache ip x
        dinode := update s.dinode x.inum x.toDinode }) :: s.hist }

@[simp]
theorem State.written_icache (s : State) (c : Ctx) (ip : Fin ninode) (x : Inode) :
    (s.written c ip x).icache = update s.icache ip x := rfl

@[simp]
theorem State.written_dinode (s : State) (c : Ctx) (ip : Fin ninode) (x : Inode) :
    (s.written c ip x).dinode = update s.dinode x.inum x.toDinode := rfl

theorem getDinode_spec {P : State → Prop} {E : Stop → State → Prop} (c : Ctx) (inum : Nat)
    (hE : ∀ s, P s → ¬ inum < c.sb.ninodes → E .fault s) :
    Triple P (getDinode c inum) (fun d s => P s ∧ d = s.dinode inum ∧ inum < c.sb.ninodes) E :=
  .ite (fun hi => .bind (Q := fun a s => P s ∧ a = s) (.get fun _ h => ⟨h, rfl⟩)
    fun _ => .pure fun _ h => ⟨h.1, by rw [h.2], hi⟩) fun hi => .throw fun s h => hE s h hi

theorem setFields_spec (c : Ctx) (ip : Fin ninode) (g : Inode → Inode) (s : State) :
    Triple (· = s) (setFields c ip g)
      (fun _ s' => s' = s.written c ip (g (s.icache ip)) ∧
        (g (s.icache ip)).inum < c.sb.ninodes)
      fun e s' => (e = .fault ∧ ¬ (g (s.icache ip)).inum < c.sb.ninodes) ∧
        s' = s.setInode ip (g (s.icache ip)) := by
  refine .bind (Q := fun _ s' => s' = s.setInode ip (g (s.icache ip)))
    (.modify fun _ hs => by rw [hs]) fun _ => ?_
  refine (getInode_spec ip).bind fun i => .of_pre (φ := i = g (s.icache ip))
    (fun s' hs => by rw [hs.2, hs.1]; exact update_self ..) ?_
  rintro rfl
  refine (getDinode_spec c _ fun s' hs hi => ⟨⟨rfl, hi⟩, hs.1⟩).bind fun _ => ?_
  refine .bind (Q := fun _ s' => s' = { s.setInode ip (g (s.icache ip)) with
    dinode := update s.dinode (g (s.icache ip)).inum (g (s.icache ip)).toDinode } ∧
      (g (s.icache ip)).inum < c.sb.ninodes) (.modify ?_) fun _ => .modify ?_
  · rintro s' ⟨⟨rfl, -⟩, -, hi⟩
    exact ⟨rfl, hi⟩
  · rintro s' ⟨rfl, hi⟩
    exact ⟨rfl, hi⟩

theorem RefInv.written {x : Inode} (h : RefInv b vs tmp tf pr pt s) (hv : ip ∈ vs)
    (h1 : x.inum = (s.icache ip).inum) (h2 : x.ref = (s.icache ip).ref)
    (h3 : x.valid = (s.icache ip).valid) (h4 : x.type = (s.icache ip).type) :
    RefInv b vs tmp tf pr pt (s.written c ip x) := by
  obtain ⟨hr, hval⟩ := h.held ip hv
  have hcoh := h.coh ip hr hval
  refine h.setEntry (x := x) rfl rfl rfl (h.hist.append (l := [_]) rfl (by simp [FreeOk])
    fun j hj => .inl ?_) ?_ (fun _ _ => rfl) ?_ ?_ ?_ ?_
  · by_cases hji : j = x.inum
    · subst hji
      rw [State.written_dinode, update_self, h4] at hj
      exact absurd hj hcoh.1
    · rwa [State.written_dinode, update_of_ne hji] at hj
  · rw [h2]
    exact h.inode ip
  · rw [h1]
    exact fun _ k hk hk' heq => hk (h.uniq k ip hk' hr heq)
  · intro _ _
    rw [h4, State.written_dinode, update_self]
    exact ⟨hcoh.1, h4, rfl⟩
  · intro k hk hk' _
    refine update_of_ne ?_ _ _
    rw [h1]
    exact fun heq => hk (h.uniq k ip hk' hr heq)
  · intro k hk
    split
    · rw [h2, h3]
      exact ⟨hr, hval⟩
    · exact hk

theorem setFields_refs {g : Inode → Inode}
    (hg : ∀ i, (g i).inum = i.inum ∧ (g i).ref = i.ref ∧ (g i).valid = i.valid ∧
      (g i).type = i.type) (hv : ip ∈ vs) :
    Triple (RefInv b vs tmp tf pr pt) (setFields c ip g)
      (fun _ => RefInv b vs tmp tf pr pt) fun _ => HistOk b := by
  refine .of_state fun s h => (setFields_spec c ip g s).conseq (fun _ => id) ?_ ?_
  · rintro _ s' ⟨rfl, -⟩
    obtain ⟨h1, h2, h3, h4⟩ := hg (s.icache ip)
    exact h.written hv h1 h2 h3 h4
  · rintro _ s' ⟨-, rfl⟩
    exact ⟨h.hist.ok, h.hist.freed⟩

theorem ilock_refs (c : Ctx) (ip : Fin ninode) :
    Triple (RefInv b vs tmp tf pr pt) (ilock c ip)
      (fun _ => RefInv b (ip :: vs) tmp tf pr pt) fun _ => HistOk b := by
  refine (getInode_spec ip).bind fun i => .ite (fun _ => .throw fun _ h => h.1.hist) fun hr => ?_
  refine .bind (Q := fun _ s => RefInv b vs tmp tf pr pt s ∧ (s.icache ip).face = i.face) ?_
    fun _ => ?_
  · refine (keeps_acquiresleep c ip).triple (fun s s' _ h hs => ⟨h.1.same hs, ?_⟩)
      fun s s' _ h hs => (h.1.same hs).hist
    rw [hs.entry, h.2]
  refine .ite (fun hv => .pure fun s h => ?_) fun _ => ?_
  · -- the entry was read before
    obtain ⟨h, hf⟩ := h
    simp only [Inode.face, Prod.mk.injEq] at hf
    exact { h with
      held := fun k hk => by
        rcases List.mem_cons.1 hk with rfl | hk
        · exact ⟨by omega, hf.2.2.1.trans hv⟩
        · exact h.held k hk }
  · refine .bind (Q := fun d s => (RefInv b vs tmp tf pr pt s ∧ (s.icache ip).face = i.face) ∧
      d = s.dinode i.inum) ?_ fun d => ?_
    · exact (getDinode_spec c _ fun s h _ => h.1.hist).post fun _ _ h => ⟨h.1, h.2.1⟩
    · refine .bind (Q := fun _ s => HistOk b s ∧
        (d.type ≠ none → RefInv b (ip :: vs) tmp tf pr pt s)) (.modify ?_) fun _ => ?_
      · rintro s ⟨⟨h, hf⟩, rfl⟩
        simp only [Inode.face, Prod.mk.injEq] at hf
        have hpos : 0 < (s.icache ip).ref := by omega
        refine ⟨⟨h.hist.ok, h.hist.freed⟩, fun ht => ?_⟩
        refine h.setEntry rfl rfl rfl ⟨h.hist.ok, h.hist.freed⟩ (h.inode ip) (fun _ _ => rfl) ?_ ?_
          (fun _ _ _ _ => rfl) ?_
        · exact fun _ k hk hk' heq => hk (h.uniq k ip hk' hpos heq)
        · intro _ _
          refine ⟨ht, ?_, ?_⟩
          · rw [hf.1]
          · rw [hf.1]
        · intro k hk
          split
          · exact ⟨hpos, rfl⟩
          · next hne => exact (List.mem_cons.1 hk).resolve_left hne
      · refine .ite (fun _ => .throw fun _ h => h.1) fun hn => .pure fun _ h => h.2 ?_
        intro h0
        rw [h0] at hn
        exact hn rfl

/-- No entry has changed in what `RefInv` speaks about. -/
def Faces (s s' : State) : Prop := ∀ k, (s'.icache k).face = (s.icache k).face

instance : Std.Refl Faces := ⟨fun _ _ => rfl⟩

instance : IsTrans State Faces := ⟨fun _ _ _ h h' k => (h' k).trans (h k)⟩

theorem keeps_itrunc (c : Ctx) (ip : Fin ninode) : Keeps Faces (itrunc c ip) := by
  have hs : ∀ {α : Type} {x : M α}, Calm Same x → Keeps Faces x :=
    fun h => h.keeps.mono fun _ _ => Same.entry
  refine (hs (Steady.forM (fun k : Fin ndirect => keeps_freeSlot c ip k.castSucc) _)).bind fun _ =>
    (hs (keeps_freeIndirect c ip)).bind fun _ s₀ => .of_state fun s h => ?_
  have hk : ∀ k, (update s.icache ip { s.icache ip with size := 0 } k).face =
      (s.icache k).face := fun k => by
    by_cases hk : k = ip
    · subst hk
      rw [update_self]
      rfl
    · rw [update_of_ne hk]
  refine (setFields_spec c ip _ s).conseq (fun _ => id) ?_ ?_
  · rintro _ s' ⟨rfl, -⟩ k
    exact (hk k).trans (h k)
  · rintro _ s' ⟨-, rfl⟩
    exact ⟨trivial, fun k => (hk k).trans (h k)⟩

theorem itrunc_refs (hv : ip ∈ vs) :
    Triple (RefInv b vs tmp tf pr pt) (itrunc c ip) (fun _ => RefInv b vs tmp tf pr pt)
      fun _ => HistOk b :=
  (keeps_refs (Steady.forM (fun k : Fin ndirect => keeps_freeSlot c ip k.castSucc) _)).bind fun _ =>
    (keeps_refs (keeps_freeIndirect c ip)).bind fun _ =>
      setFields_refs (fun _ => ⟨rfl, rfl, rfl, rfl⟩) hv

theorem RefInv.last (h : RefInv b vs (ip ::ₘ tmp) tf pr pt s) (hr : (s.icache ip).ref = 1) :
    fileRefs s.ftable ip = 0 ∧ cwdRefs pr ip = 0 ∧ ip ∉ tmp := by
  have h1 := h.inode ip
  rw [Multiset.count_cons_self] at h1
  refine ⟨by omega, by omega, fun hm => ?_⟩
  have := Multiset.count_pos.2 hm
  omega

theorem RefInv.freeOk (h : RefInv b vs (ip ::ₘ tmp) tf pr pt s) (hv : ip ∈ vs)
    (hr : (s.icache ip).ref = 1) (hn : (s.icache ip).nlink = 0) :
    FreeOk b.me b.drops (.free (s.icache ip).inum, s.toCore) := by
  obtain ⟨hf, hc, -⟩ := h.last hr
  rintro i hi
  cases hi
  refine ⟨?_, fun f hf1 hf2 heq => ?_, fun q k hq heq => ?_⟩
  · rw [(h.coh ip (by omega) (h.held ip hv).2).2.2, hn]
  · have hk := h.uniq _ ip (h.file_pos hf1 hf2) (by omega) heq
    have := tally_eq_zero.1 hf f
    rw [if_pos ⟨hf1, hf2, hk⟩] at this
    omega
  · by_contra hst
    have hq' : (pr q).cwd = some k := by
      rw [← h.others q fun h1 h2 => hst ⟨h1, h2⟩, ← h.procs]
      exact hq
    have hk := h.uniq k ip (h.cwd_pos hq') (by omega) heq
    have := tally_eq_zero.1 hc q
    rw [hk] at hq'
    rw [if_pos hq'] at this
    omega

theorem ifree_refs (hv : ip ∈ vs) (hvs : ∀ k ∈ vs', k ∈ vs ∧ k ≠ ip) :
    Triple (fun s => RefInv b vs (ip ::ₘ tmp) tf pr pt s ∧ (s.icache ip).ref = 1 ∧
        (s.icache ip).nlink = 0) (ifree c ip)
      (fun _ => RefInv b vs' (ip ::ₘ tmp) tf pr pt) fun _ => HistOk b := by
  refine .bind (Q := fun _ s => RefInv b vs (ip ::ₘ tmp) tf pr pt s ∧ (s.icache ip).ref = 1 ∧
    (s.icache ip).nlink = 0) ?_ fun _ => .of_state fun s ⟨h, hr, hn⟩ => ?_
  · refine .of_state fun s hs => ((itrunc_refs (c := c) hv).and (keeps_itrunc c ip s)).conseq
      (by rintro _ rfl; exact ⟨hs.1, Std.Refl.refl _⟩) (fun _ s' h => ⟨h.1, ?_⟩) fun _ _ h => h.1
    have hf := h.2 ip
    simp only [Inode.face, Prod.mk.injEq] at hf
    rw [hf.2.1, hf.2.2.2.2]
    exact hs.2
  let s₁ : State := { s with hist := (.free (s.icache ip).inum, s.toCore) :: s.hist }
  have hok : HistOk b s₁ :=
    h.hist.append (l := [_]) rfl (by simpa using h.freeOk hv hr hn) fun _ => .inl
  refine .read_bind rfl ?_
  refine .bind (Q := fun _ s' => s' = s₁) (.modify fun _ hs => by rw [hs]) fun _ => ?_
  refine .bind ((setFields_spec c ip _ s₁).onError ?_) fun _ => .modify ?_
  · rintro _ s' ⟨-, rfl⟩
    exact ⟨hok.ok, hok.freed⟩
  · rintro s' ⟨rfl, -⟩
    refine h.setEntry (x := { s.icache ip with type := none, valid := false }) ?_ rfl rfl
      (hok.append (l := [_]) rfl (by simp [FreeOk]) fun j hj => ?_) (h.inode ip)
      (fun _ _ => rfl) ?_ nofun ?_ ?_
    · simp [s₁]
    · by_cases hji : j = (s.icache ip).inum
      · subst hji
        exact .inr ⟨_, List.mem_cons_of_mem _ (List.mem_cons_self ..)⟩
      · dsimp only [State.written_dinode] at hj
        rw [update_of_ne hji] at hj
        exact .inl hj
    · exact fun _ k hk hk' heq => hk (h.uniq k ip hk' (by omega) heq)
    · intro k hk hk' _
      exact update_of_ne (fun heq => hk (h.uniq k ip hk' (by omega) heq)) _ _
    · intro k hk
      rw [if_neg (hvs k hk).2]
      exact (hvs k hk).1

theorem RefInv.decr (h : RefInv b vs (ip ::ₘ tmp) tf pr pt s)
    (hvs : ∀ k ∈ vs', k ∈ vs ∧ (k = ip → ip ∈ tmp)) :
    RefInv b vs' tmp tf pr pt
      (s.setInode ip { s.icache ip with ref := (s.icache ip).ref - 1 }) := by
  have h1 := h.inode ip
  rw [Multiset.count_cons_self] at h1
  have hpos : 0 < (s.icache ip).ref := by omega
  refine h.setEntry rfl rfl rfl ⟨h.hist.ok, h.hist.freed⟩ ?_ ?_ ?_ ?_ (fun _ _ _ _ => rfl) ?_
  · show (s.icache ip).ref - 1 = _
    omega
  · exact fun k hk => (Multiset.count_cons_of_ne hk _).symm
  · exact fun _ k hk hk' heq => hk (h.uniq k ip hk' hpos heq)
  · exact fun _ hv => h.coh ip hpos hv
  · intro k hk
    split
    · next heq =>
      have h2 := Multiset.count_pos.2 ((hvs k hk).2 heq)
      refine ⟨?_, heq ▸ (h.held k (hvs k hk).1).2⟩
      show 0 < (s.icache ip).ref - 1
      omega
    · exact (hvs k hk).1

theorem iput_refs (w : List (Fin ninode)) (hw : ∀ k ∈ w, k ∈ vs ∧ (k = ip → ip ∈ tmp)) :
    Triple (RefInv b vs (ip ::ₘ tmp) tf pr pt) (iput c ip)
      (fun _ => RefInv b w tmp tf pr pt) fun _ => HistOk b := by
  refine (keeps_refs (keeps_acquiresleep c ip)).bind fun _ => (getInode_spec ip).bind fun i => ?_
  refine .bind (Q := fun _ => RefInv b w (ip ::ₘ tmp) tf pr pt) ?_ fun _ =>
    (keeps_refs (keeps_releasesleep ip)).bind fun _ => .modify fun _ h =>
      h.decr fun k hk => ⟨hk, (hw k hk).2⟩
  refine .ite (fun hi => ?_) fun _ => .pure fun _ h => h.1.mono fun k hk => (hw k hk).1
  refine .of_state fun s ⟨h, heq⟩ => ?_
  rw [heq] at hi
  obtain ⟨hval, hn, hr⟩ := hi
  refine (ifree_refs (List.mem_cons_self (l := vs)) fun k hk => ?_).pre ?_
  · refine ⟨List.mem_cons_of_mem _ (hw k hk).1, fun hki => ?_⟩
    exact (h.last hr).2.2 ((hw k hk).2 hki)
  · rintro _ rfl
    refine ⟨{ h with held := fun k hk => ?_ }, hr, hn⟩
    rcases List.mem_cons.1 hk with rfl | hk
    · exact ⟨by omega, hval⟩
    · exact h.held k hk

theorem RefInv.alloc (h : RefInv b vs tmp tf pr pt s) {inum : Nat} {d : Dinode}
    (h0 : (s.dinode inum).type = none) (hd : d.type ≠ none) :
    RefInv b vs tmp tf pr pt { s with dinode := update s.dinode inum d } := by
  refine ⟨h.inode, h.file, h.closed, h.uniq, fun k hk hv => ?_, h.held, h.procs, h.others,
    h.hist.ok, ?_⟩
  · have hc := h.coh k hk hv
    have hne : (s.icache k).inum ≠ inum := fun heq => by
      rw [heq, h0] at hc
      exact hc.1 hc.2.1.symm
    dsimp only
    rw [update_of_ne hne]
    exact hc
  · intro j hb hj
    by_cases hji : j = inum
    · subst hji
      dsimp only at hj
      rw [update_self] at hj
      exact absurd hj hd
    · dsimp only at hj
      rw [update_of_ne hji] at hj
      exact h.hist.freed j hb hj

theorem ialloc_refs (c : Ctx) (type : FileType) :
    Triple (RefInv b vs tmp tf pr pt) (ialloc c type)
      (fun ip => RefInv b vs (ip ::ₘ tmp) tf pr pt) fun _ => HistOk b := by
  refine .of_state fun s h => .read_bind rfl ?_
  split
  · next inum hf =>
    have h0 : (s.dinode inum).type = none := by simpa using List.find?_some hf
    refine .bind (Q := fun _ => RefInv b vs tmp tf pr pt) ?_ fun _ =>
      (keeps_refs (keeps_note (e := .alloc inum) nofun)).bind fun _ => iget_refs inum
    refine .bind (Q := fun _ => RefInv b vs tmp tf pr pt) (.modify ?_)
      fun _ => keeps_refs (keeps_logWrite _)
    rintro _ rfl
    exact h.alloc h0 (Option.some_ne_none _)
  · exact .throw fun _ hs => by rw [hs]; exact h.hist

theorem writei_refs (src : List UInt8) (off : Nat) (hv : ip ∈ vs) :
    Triple (RefInv b vs tmp tf pr pt) (writei c ip src off)
      (fun _ => RefInv b vs tmp tf pr pt) fun _ => HistOk b := by
  refine (keeps_refs (keeps_getInode ip)).bind fun i =>
    .ite (fun _ => .ite (fun _ => ?_) fun _ => ?_)
    fun _ => .ite (fun _ => keeps_refs .pure) fun _ => .ite (fun _ => keeps_refs .pure) fun _ => ?_
  · split <;> exact keeps_refs .pure
  · exact keeps_refs .pure
  · refine (keeps_refs (keeps_writeLoop c ip _ _ _)).bind fun _ => .bind
      (Q := fun _ => RefInv b vs tmp tf pr pt) (.ite (fun _ => ?_) fun _ => keeps_refs .pure)
      fun _ => keeps_refs .pure
    exact setFields_refs (fun _ => ⟨rfl, rfl, rfl, rfl⟩) hv

/-! ## Directories and paths -/

/-- The references held after a lookup with the result `r`. -/
def found {α : Type} (r : Option (Fin ninode × α)) (tmp : Multiset (Fin ninode)) :
    Multiset (Fin ninode) :=
  match r with
  | some (ip, _) => ip ::ₘ tmp
  | none => tmp

theorem dirlookupFrom_refs (c : Ctx) (dp : Fin ninode) (name : List UInt8) (size : Nat) :
    ∀ turns off, Triple (RefInv b vs tmp tf pr pt) (dirlookupFrom c dp name size turns off)
      (fun r => RefInv b vs (found r tmp) tf pr pt) fun _ => HistOk b
  | 0, _ => .pure fun _ h => h
  | turns + 1, off => by
    refine .ite (fun _ => (keeps_refs (keeps_readi c dp off _)).bind fun x => ?_)
      fun _ => .pure fun _ h => h
    refine .ite (fun _ => panic_refs _) fun _ => .ite (fun _ => ?_)
      fun _ => dirlookupFrom_refs c dp name size turns _
    exact (iget_refs _).bind fun ip => .pure fun _ h => h

theorem dirlookup_refs (c : Ctx) (dp : Fin ninode) (name : List UInt8) :
    Triple (RefInv b vs tmp tf pr pt) (dirlookup c dp name)
      (fun r => RefInv b vs (found r tmp) tf pr pt) fun _ => HistOk b :=
  (keeps_refs (keeps_getInode dp)).bind fun _ => .ite (fun _ => panic_refs _)
    fun _ => dirlookupFrom_refs c dp name _ _ _

theorem keeps_emptyFrom (c : Ctx) (dp : Fin ninode) (size : Nat) :
    ∀ turns off, Calm Same (emptyFrom c dp size turns off)
  | 0, _ => .pure
  | turns + 1, _ => .ite ((keeps_readi c dp _ _).bind fun _ => .ite (keeps_panic (by decide))
      (.ite .pure (keeps_emptyFrom c dp size turns _))) .pure

theorem dirlink_refs {dp : Fin ninode} (name : List UInt8) (inum : Nat) (hv : dp ∈ vs)
    (hvs : ∀ k ∈ vs, k ∈ tmp) :
    Triple (RefInv b vs tmp tf pr pt) (dirlink c dp name inum)
      (fun _ => RefInv b vs tmp tf pr pt) fun _ => HistOk b := by
  refine (dirlookup_refs c dp name).bind fun r => ?_
  cases r with
  | some r =>
    exact (iput_refs _ fun k hk => ⟨hk, fun heq => heq ▸ hvs k hk⟩).bind fun _ => keeps_refs .pure
  | none =>
    exact (keeps_refs (keeps_getInode dp)).bind fun _ =>
      (keeps_refs (keeps_emptyFrom c dp _ _ _)).bind fun off => (writei_refs _ off hv).bind fun _ =>
        .ite (fun _ => panic_refs _) fun _ => keeps_refs .pure

theorem skipelem_length {path name path' name' : List UInt8}
    (h : skipelem path name = some (path', name')) : path'.length < path.length := by
  unfold skipelem at h
  have h1 := (List.dropWhile_suffix (· = slash) (l := path)).length_le
  cases heq : path.dropWhile (· = slash) with
  | nil =>
    rw [heq] at h
    cases h
  | cons x l =>
    rw [heq] at h h1
    have hx : x ≠ slash := by
      have := List.head?_dropWhile_not (· = slash) path
      rw [heq] at this
      simpa using this
    have h2 : ((x :: l).dropWhile (· ≠ slash)).length ≤ l.length := by
      rw [List.dropWhile_cons_of_pos (by simpa using hx)]
      exact (List.dropWhile_suffix _).length_le
    have h3 := (List.dropWhile_suffix (· = slash) (l := (x :: l).dropWhile (· ≠ slash))).length_le
    have h4 : path'.length ≤ l.length := by
      dsimp only at h
      split at h <;> cases h <;> omega
    rw [List.length_cons] at h1
    omega

end

end Xv6.Fs
