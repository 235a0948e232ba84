import Xv6.Fs.Proof.Calls

/-!
# Calls that make and remove entries, under a guard

`MakerGuard` lists what has to be shown of the functions that walk along a path, and of those that
only `create`, `sys_link` and `sys_unlink` use; the calls then keep the property
(`MakerGuard.makers`). When one of them calls `iget`, it holds fewer than `n` references itself.
-/

namespace Xv6.Fs

open Lib

variable {ip dp cwd : Fin ninode} {f : Inode → Inode}

/-- Assignments to the fields that `create`, `sys_link` and `sys_unlink` assign to. -/
def NodeFields (f : Inode → Inode) : Prop :=
  ∀ i, ∃ major minor nlink, f i = { i with major := major, minor := minor, nlink := nlink }

theorem NodeFields.type (hf : NodeFields f) (i : Inode) (h : (f i).type = some .dir) :
    i.type = some .dir := by
  obtain ⟨_, _, _, heq⟩ := hf i
  rwa [heq] at h

/-- What has to be shown for walks along paths and for the calls that make and remove entries. -/
structure MakerGuard (c : Ctx) (φ : Prop) (n : Nat) (W : State → Prop)
    (E : Stop → State → Prop) : Prop extends LockGuard c W E where
  root : ∀ {b vs tmp tf pt}, tmp.card < n →
    Triple (Inv W b vs tmp tf pt pt) (iget rootIno) (fun _ => W) E
  dirlookup : ∀ {b vs tmp tf pt} dp name, dp ∈ vs → tmp.card < n →
    Triple (Inv W b vs tmp tf pt pt) (Fs.dirlookup c dp name) (fun _ => W) E
  inum : ∀ vs tmp s ip, Refs vs tmp s → W s → ip ∈ vs → φ → (s.icache ip).inum < c.sb.ninodes
  setFields : ∀ vs tmp ip f, ip ∈ vs → NodeFields f →
    Triple (fun s => Refs vs tmp s ∧ W s) (Fs.setFields c ip f) (fun _ => W) E
  ialloc : ∀ {b vs tmp tf pt} type, tmp.card < n →
    Triple (Inv W b vs tmp tf pt pt) (Fs.ialloc c type) (fun _ => W) E
  dirlink : ∀ {b vs tmp tf pt} dp name inum, dp ∈ vs → tmp.card < n → (φ → inum < c.sb.ninodes) →
    Triple (Inv W b vs tmp tf pt pt) (Fs.dirlink c dp name inum) (fun _ => W) E
  isdirempty : ∀ vs tmp dp, dp ∈ vs →
    Triple (fun s => Refs vs tmp s ∧ W s ∧ (s.icache dp).type = some .dir) (Fs.isdirempty c dp)
      (fun _ => W) E
  erase : ∀ vs tmp dp off, dp ∈ vs → deSize ∣ off →
    Triple (fun s => Refs vs tmp s ∧ W s) (Fs.writei c dp (List.replicate deSize 0) off)
      (fun _ => W) E

/-! ## Types of entries -/

/-- No inode on disk has changed, and no entry is for another one. -/
def SameNodes (s s' : State) : Prop :=
  s'.dinode = s.dinode ∧ ∀ k, (s'.icache k).inum = (s.icache k).inum

instance : IsTrans State SameNodes :=
  ⟨fun _ _ _ h h' => ⟨h'.1.trans h.1, fun k => (h'.2 k).trans (h.2 k)⟩⟩

section
variable {c : Ctx}

theorem Same.sameNodes {s s' : State} (h : Same s s') : SameNodes s s' := ⟨h.dinode, fun k => by
  have := h.entry k
  simp only [Inode.face, Prod.mk.injEq] at this
  exact this.1⟩

theorem iget_quiet (inum : Nat) : Keeps Quiet (iget inum) := by
  refine Steady.get.bind fun s => ?_
  split
  · exact Steady.bind (Steady.keeps (modInode_quiet fun _ => id)) fun _ => .pure
  · split
    · exact Steady.bind (Steady.keeps (modInode_quiet fun _ => id)) fun _ => .pure
    · exact .throw trivial

theorem dirlookupFrom_quiet (dp : Fin ninode) (name : List UInt8) (size : Nat) :
    ∀ turns off, Keeps Quiet (dirlookupFrom c dp name size turns off)
  | 0, _ => .pure
  | turns + 1, _ => .ite ((keeps_quiet (keeps_readi c dp _ _)).keeps.bind
      fun _ => .ite (.throw trivial)
      (.ite ((iget_quiet _).bind fun _ => .pure) (dirlookupFrom_quiet dp name size turns _))) .pure

theorem dirlink_quiet (dp : Fin ninode) (name : List UInt8) (inum : Nat) :
    Keeps Quiet (dirlink c dp name inum) := by
  refine Steady.bind ((keeps_getInode dp).keeps.bind fun _ => .ite (.throw trivial)
    (dirlookupFrom_quiet dp name _ _ _)) fun r => ?_
  cases r with
  | some r => exact iput_quiet.keeps.bind fun _ => .pure
  | none =>
    exact (keeps_getInode dp).keeps.bind fun _ =>
      (keeps_quiet (keeps_emptyFrom c dp _ _ _)).keeps.bind fun _ =>
      (writei_quiet _ _).keeps.bind fun _ => .ite (.throw trivial) .pure

theorem mustLink_quiet (dp : Fin ninode) (name : List UInt8) (inum : Nat) (msg : String) :
    Keeps Quiet (mustLink c dp name inum msg) :=
  (dirlink_quiet dp name inum).bind fun _ => .ite (.throw trivial) .pure

theorem createDots_quiet (dp ip : Fin ninode) : Keeps Quiet (createDots c dp ip) :=
  Steady.bind (Steady.keeps (setFields_quiet fun _ => id)) fun _ =>
    (keeps_getInode ip).keeps.bind fun _ =>
    (mustLink_quiet ip _ _ _).bind fun _ => (keeps_getInode dp).keeps.bind fun _ =>
      mustLink_quiet ip _ _ _

theorem ilock_nodes (ip : Fin ninode) : Keeps SameNodes (ilock c ip) := by
  refine (keeps_getInode ip).keeps.bind fun _ => .ite (.throw trivial) (Steady.bind
    ((keeps_acquiresleep c ip).keeps.mono fun _ _ => Same.sameNodes) fun _ => .ite .pure
      ((keeps_getDinode c _).keeps.bind fun _ => Steady.bind (.modify fun s => ⟨rfl, fun k => ?_⟩)
        fun _ => .ite (.throw trivial) .pure))
  by_cases hk : k = ip
  · subst hk
    simp
  · simp [hk]

theorem ialloc_type (type : FileType) {P : State → Prop} :
    Triple P (ialloc c type)
      (fun ip s => (s.dinode (s.icache ip).inum).type = some type) fun _ _ => True := by
  refine .of_state fun s _ => (ialloc_spec type s).conseq (fun _ => id) ?_ fun _ _ _ => trivial
  rintro ip s' ⟨inum, s₁, hm, hg⟩
  have hd : s'.dinode = s₁.dinode := by cases hg <;> rfl
  rw [hg.inum, hd, hm.core]
  simp

theorem dirlookupFrom_off (dp : Fin ninode) (name : List UInt8) (size : Nat) :
    ∀ turns off, deSize ∣ off → Triple (fun _ => True) (dirlookupFrom c dp name size turns off)
      (fun r _ => ∀ x ∈ r, deSize ∣ x.2) fun _ _ => True
  | 0, _, _ => .pure fun _ _ => nofun
  | turns + 1, off, hoff => by
    refine .ite (fun _ => ?_) fun _ => .pure fun _ _ => nofun
    refine .bind (Q := fun _ _ => True) Triple.trivially fun r => .ite
      (fun _ => .throw fun _ _ => trivial) fun _ => .ite (fun _ => ?_) fun _ =>
        dirlookupFrom_off dp name size turns _ (Nat.dvd_add hoff (Nat.dvd_refl _))
    refine .bind (Q := fun _ _ => True) Triple.trivially fun ip => .pure fun _ _ x hx => ?_
    cases hx
    exact hoff

theorem dirlookup_off (dp : Fin ninode) (name : List UInt8) :
    Triple (fun _ => True) (dirlookup c dp name) (fun r _ => ∀ x ∈ r, deSize ∣ x.2)
      fun _ _ => True :=
  .bind (Q := fun _ _ => True) Triple.trivially fun _ => .ite (fun _ => .throw fun _ _ => trivial)
    fun _ => dirlookupFrom_off dp name _ _ _ (Nat.dvd_zero _)

end

/-! ## The calls -/

section
variable {c : Ctx} {φ : Prop} {W : State → Prop} {E : Stop → State → Prop}
  {b : Begun} {vs : List (Fin ninode)}
  {tmp : Multiset (Fin ninode)} {tf : Multiset (Fin nfile)} {pt : Fin nproc → Files} {n : Nat}

namespace MakerGuard

variable (g : MakerGuard c φ n W E)
include g

theorem dirlookup_inv (hn : tmp.card < n) (dp : Fin ninode) (name : List UInt8) :
    Triple (Inv W b (dp :: vs) tmp tf pt pt) (Fs.dirlookup c dp name)
      (fun r => Inv W b (dp :: vs) (found r tmp) tf pt pt) (Ends E b) :=
  Triple.both (dirlookup_refs c dp name) (g.dirlookup dp name (List.mem_cons_self ..) hn)

theorem namexFrom_inv (hn : tmp.card + 1 < n) (nameiparent : Bool) :
    ∀ turns ip path name, path.length < turns →
      Triple (Inv W b [] (ip ::ₘ tmp) tf pt pt) (namexFrom c nameiparent turns ip path name)
        (fun r => Inv W b [] (found r tmp) tf pt pt) (Ends E b)
  | 0, _, _, _, ht => absurd ht (Nat.not_lt_zero _)
  | turns + 1, ip, path, name, ht => by
    unfold namexFrom
    split
    · exact .ite (fun _ => (g.iput_inv ip).bind fun _ => .pure fun _ h => h)
        fun _ => .pure fun _ h => h
    · next path' name' hskip =>
      refine (g.ilock_inv ip).bind fun _ => (getInode_inv ip).bind fun i => ?_
      refine .ite (fun _ => (g.iunlockput_inv ip).bind fun _ => .pure fun _ h => h) fun _ => ?_
      refine .ite (fun _ => (g.iunlock_inv ip).bind fun _ => .pure fun _ h => h.nil) fun _ => ?_
      refine (g.dirlookup_inv (by rwa [Multiset.card_cons]) ip name').bind fun r => ?_
      cases r with
      | none => exact (g.iunlockput_inv ip).bind fun _ => .pure fun _ h => h
      | some r =>
        exact .bind (.pre (g.iunlockput_inv ip) fun s h => h.swap) fun _ =>
          namexFrom_inv hn nameiparent turns r.1 path' name'
            (by have := skipelem_length hskip; omega)

theorem namex_inv (hn : tmp.card + 1 < n) (path : List UInt8) (nameiparent : Bool)
    (hcwd : (pt c.me).cwd = some cwd) :
    Triple (Inv W b [] tmp tf pt pt) (namex c path nameiparent)
      (fun r => Inv W b [] (found r tmp) tf pt pt) (Ends E b) := by
  refine .ite (fun _ => ?_) fun _ => ?_
  · exact .bind (Triple.both (iget_refs rootIno) (g.root (Nat.lt_of_succ_lt hn))) fun ip =>
      g.namexFrom_inv hn nameiparent _ ip path _ (Nat.lt_succ_self _)
  · refine .bind (Q := fun a s => Inv W b [] tmp tf pt pt s ∧ a.procs = pt)
      (.get fun s h => ⟨h, h.procs⟩) fun s₁ => .of_pre (fun _ h => h.2) fun hs => ?_
    rw [hs, hcwd]
    refine .bind (.pre (g.idup_inv hcwd) fun _ h => h.1) fun ip =>
      .of_pre (φ := ip = cwd) (fun _ hs => hs.1) ?_
    rintro rfl
    exact (g.namexFrom_inv hn nameiparent _ ip path _ (Nat.lt_succ_self _)).pre fun _ hs => hs.2

theorem namei_inv (hn : tmp.card + 1 < n) (path : List UInt8) (hcwd : (pt c.me).cwd = some cwd) :
    Triple (Inv W b [] tmp tf pt pt) (namei c path)
      (fun r => Inv W b [] (made r tmp) tf pt pt) (Ends E b) := by
  refine (g.namex_inv hn path false hcwd).bind fun r => .pure fun s h => ?_
  cases r <;> exact h

theorem setFields_inv (hf : NodeFields f) (hv : ip ∈ vs) :
    Triple (Inv W b vs tmp tf pt pt) (Fs.setFields c ip f)
      (fun _ => Inv W b vs tmp tf pt pt) (Ends E b) := by
  refine Triple.both (setFields_refs (fun i => ?_) hv)
    ((g.setFields vs tmp ip f hv hf).pre fun _ h => ⟨h.1.refs, h.2⟩)
  obtain ⟨major, minor, nlink, heq⟩ := hf i
  rw [heq]
  exact ⟨rfl, rfl, rfl, rfl⟩

theorem setNlink_inv (f : BitVec 16 → BitVec 16) (hv : ip ∈ vs) :
    Triple (Inv W b vs tmp tf pt pt) (setNlink c ip f)
      (fun _ => Inv W b vs tmp tf pt pt) (Ends E b) :=
  g.setFields_inv (fun i => ⟨i.major, i.minor, f i.nlink, rfl⟩) hv

theorem inum_inv (hv : ip ∈ vs) :
    Triple (Inv W b vs tmp tf pt pt) (getInode ip)
      (fun i s => Inv W b vs tmp tf pt pt s ∧ (φ → i.inum < c.sb.ninodes)) (Ends E b) :=
  (getInode_spec ip).post fun _ s h =>
    ⟨h.1, h.2 ▸ g.inum vs tmp s ip h.1.1.refs h.1.2 hv⟩

theorem dirlink_inv (hn : tmp.card < n) {inum : Nat} (name : List UInt8) (hv : dp ∈ vs)
    (hvs : ∀ k ∈ vs, k ∈ tmp) (hi : φ → inum < c.sb.ninodes) :
    Triple (Inv W b vs tmp tf pt pt) (Fs.dirlink c dp name inum)
      (fun _ => Inv W b vs tmp tf pt pt) (Ends E b) :=
  Triple.both (dirlink_refs name inum hv hvs) (g.dirlink dp name inum hv hn hi)

theorem mustLink_inv (hn : tmp.card < n) {inum : Nat} (name : List UInt8)
    {msg : String} (hv : dp ∈ vs) (hvs : ∀ k ∈ vs, k ∈ tmp) (hi : φ → inum < c.sb.ninodes)
    (hm : msg ∉ inodePanics) :
    Triple (Inv W b vs tmp tf pt pt) (mustLink c dp name inum msg)
      (fun _ => Inv W b vs tmp tf pt pt) (Ends E b) :=
  (g.dirlink_inv hn name hv hvs hi).bind fun _ => .ite (fun _ => g.panic_inv hm) fun _ => pure_inv

theorem createDots_inv (hn : tmp.card < n) (hd : dp ∈ vs) (hi : ip ∈ vs) (hvs : ∀ k ∈ vs, k ∈ tmp) :
    Triple (Inv W b vs tmp tf pt pt) (createDots c dp ip)
      (fun _ => Inv W b vs tmp tf pt pt) (Ends E b) := by
  refine (g.setNlink_inv _ hd).bind fun _ => (g.inum_inv hi).bind fun i =>
    .of_pre (fun _ h => h.2) fun hin => ?_
  refine .bind (.pre (g.mustLink_inv hn dot hi hvs hin (by decide)) fun _ h => h.1)
    fun _ => (g.inum_inv hd).bind fun d => .of_pre (fun _ h => h.2) fun hdn => ?_
  exact (g.mustLink_inv hn dotdot hi hvs hdn (by decide)).pre fun _ h => h.1

theorem allocLocked_inv (hn : tmp.card + 1 < n) (dp : Fin ninode) (type : FileType) {α : Type}
    {f : Fin ninode → M α} {Q : α → State → Prop}
    (hf : ∀ ip, Triple (fun s => Inv W b [ip, dp] (ip ::ₘ dp ::ₘ tmp) tf pt pt s ∧
      (s.icache ip).type = some type) (f ip) Q (Ends E b)) :
    Triple (Inv W b [dp] (dp ::ₘ tmp) tf pt pt)
      (do let ip ← Fs.ialloc c type; ilock c ip; f ip) Q (Ends E b) := by
  refine .bind (Q := fun ip s => Inv W b [dp] (ip ::ₘ dp ::ₘ tmp) tf pt pt s ∧
    (s.dinode (s.icache ip).inum).type = some type) ?_ fun ip => ?_
  · refine (((ialloc_refs c type).both (g.ialloc type (by rwa [Multiset.card_cons]))).and
      (ialloc_type (P := fun _ => True) type)).conseq
      (fun _ h => ⟨h, trivial⟩) (fun _ _ => id) fun _ _ h => h.1
  · refine .of_state fun s ⟨h, ht⟩ => .bind (.pre ((ilock_nodes ip).frame (g.ilock_inv ip) s)
      fun s' hs => by rw [hs]; exact ⟨h, rfl, fun _ => rfl⟩) fun _ => (hf ip).pre ?_
    rintro s' ⟨h', hd, hi⟩
    refine ⟨h', ?_⟩
    obtain ⟨hr, hv⟩ := h'.1.held ip (List.mem_cons_self ..)
    rw [← (h'.1.coh ip hr hv).2.1, hd, hi]
    exact ht

theorem createNew_inv (hn : tmp.card + 2 < n) (dp : Fin ninode)
    (name : List UInt8) (type : FileType) (major minor : BitVec 16) :
    Triple (Inv W b [dp] (dp ::ₘ tmp) tf pt pt) (createNew c dp name type major minor)
      (fun ip s => Inv W b [ip] (ip ::ₘ tmp) tf pt pt s ∧
        (type ≠ .dir → (s.icache ip).type ≠ some .dir)) (Ends E b) := by
  refine g.allocLocked_inv (Nat.lt_of_succ_lt hn) dp type fun ip => ?_
  have hn' : (ip ::ₘ dp ::ₘ tmp).card < n := by rwa [Multiset.card_cons, Multiset.card_cons]
  have hvs : ∀ k ∈ [ip, dp], k ∈ ip ::ₘ dp ::ₘ tmp := by simp
  have hw : ∀ k ∈ [ip], k ∈ dp :: [ip] ∧ (k = dp → dp ∈ ip ::ₘ tmp) := by simp +contextual
  refine .of_state fun s ⟨h, ht⟩ =>
    .post (.pre (Steady.frame (E := fun _ => True) (R := Quiet) ?_ (P := Inv W b
    [ip, dp] (ip ::ₘ dp ::ₘ tmp) tf pt pt) (Q := fun r s => Inv W b [r] (r ::ₘ tmp) tf pt pt s ∧
      r = ip) ?_ s) fun s' hs => by rw [hs]; exact ⟨h, ⟨rfl, rfl⟩, fun _ => id⟩) ?_
  · exact Steady.bind (Steady.keeps (setFields_quiet fun _ => id)) fun _ =>
      (Steady.ite (createDots_quiet dp ip) .pure).bind fun _ =>
        (keeps_getInode ip).keeps.bind fun _ =>
        (mustLink_quiet dp _ _ _).bind fun _ =>
          Steady.bind ((keeps_quiet (keeps_iunlock c dp)).keeps.bind fun _ =>
          iput_quiet.keeps) fun _ => .pure
  · refine .bind (g.setFields_inv (fun _ => ⟨major, minor, 1, rfl⟩) (by simp)) fun _ =>
      .bind (Q := fun _ => Inv W b [ip, dp] (ip ::ₘ dp ::ₘ tmp) tf pt pt)
        (.ite (fun _ => g.createDots_inv hn' (by simp) (by simp) hvs) fun _ => pure_inv) fun _ => ?_
    refine (g.inum_inv (by simp)).bind fun i => .of_pre (fun _ h => h.2) fun hin => ?_
    refine .bind (.pre (g.mustLink_inv hn' name (by simp) hvs hin (by decide))
      fun _ h => h.1) fun _ => ?_
    exact .bind (.pre (g.unlockput_inv [ip] hw) fun s h => h.swap.mono (by simp)) fun _ =>
      .pure fun _ h => ⟨h, rfl⟩
  · rintro _ s' ⟨⟨h', rfl⟩, hdirs⟩
    refine ⟨h', fun hne hd => hne ?_⟩
    have := hdirs.dirs _ hd
    rw [ht] at this
    exact Option.some.inj this

theorem create_inv (hn : tmp.card + 2 < n) (path : List UInt8) (type : FileType)
    (major minor : BitVec 16) (hcwd : (pt c.me).cwd = some cwd) :
    Triple (Inv W b [] tmp tf pt pt) (create c path type major minor)
      (fun r s => Inv W b r.toList (made r tmp) tf pt pt s ∧
        (type = .file → ∀ ip ∈ r, (s.icache ip).type ≠ some .dir)) (Ends E b) := by
  refine (g.namex_inv (Nat.lt_of_succ_lt hn) path true hcwd).bind fun r => ?_
  rcases r with _ | ⟨dp, name⟩
  · exact .pure fun _ h => ⟨h, fun _ => nofun⟩
  refine (g.ilock_inv dp).bind fun _ =>
    .bind (g.dirlookup_inv (by rw [found, Multiset.card_cons]; omega) dp name) fun r => ?_
  rcases r with _ | ⟨ip, off⟩
  · refine (g.createNew_inv hn dp name type major minor).bind fun ip => .pure fun s h => ⟨h.1, ?_⟩
    rintro rfl _ ⟨⟩
    exact h.2 nofun
  · refine .bind (.pre (g.iunlockput_inv _) fun s h => h.swap) fun _ =>
      (g.ilock_inv ip).bind fun _ => (getInode_spec ip).bind fun i =>
        .ite (fun hi => ?_) fun _ => ?_
    · refine .pure fun s h => ⟨h.1, ?_⟩
      rintro - _ ⟨⟩
      rw [← h.2, hi.2]
      nofun
    · exact .bind (.pre (g.iunlockput_inv _) fun _ h => h.1) fun _ =>
        .pure fun _ h => ⟨h, fun _ => nofun⟩

theorem linkBad_inv (ip : Fin ninode) :
    Triple (Inv W b [] (ip ::ₘ 0) 0 pt pt) (linkBad c ip) (Done W b)
      (Ends E b) :=
  (g.ilock_inv ip).bind fun _ => (g.setNlink_inv _ (List.mem_cons_self ..)).bind fun _ =>
    (g.iunlockput_inv _).bind fun _ => ret_inv

theorem sysLink_inv (hn : 2 < n) (old new : Option (List UInt8)) (hcwd : (pt c.me).cwd = some cwd) :
    Triple (Inv W b [] 0 0 pt pt) (sysLink c old new) (Done W b)
      (Ends E b) := by
  unfold sysLink
  split
  · refine .bind (g.namei_inv (by simpa using Nat.lt_of_succ_lt hn) _ hcwd) fun r => ?_
    rcases r with _ | ip
    · exact ret_inv
    refine (g.ilock_inv ip).bind fun _ => (g.inum_inv (List.mem_cons_self ..)).bind fun i =>
      .of_and fun hin => ?_
    refine .ite (fun _ => (g.iunlockput_inv _).bind fun _ => ret_inv) fun _ => ?_
    refine (g.setNlink_inv _ (List.mem_cons_self ..)).bind fun _ => (g.iunlock_inv _).bind fun _ =>
      .bind (.pre (g.namex_inv (by simpa [made] using hn) _ true hcwd) fun _ h => h.nil) fun r => ?_
    rcases r with _ | ⟨dp, name⟩
    · exact g.linkBad_inv ip
    have hvs : ∀ k ∈ [dp], k ∈ dp ::ₘ ip ::ₘ (0 : Multiset (Fin ninode)) := by simp
    refine (g.ilock_inv dp).bind fun _ =>
      (g.dirlink_inv (by simpa using hn) name (List.mem_cons_self ..) hvs hin).bind fun _ =>
        .ite (fun _ => ?_) fun _ => ?_
    · exact (g.iunlockput_inv _).bind fun _ => g.linkBad_inv ip
    · exact (g.iunlockput_inv _).bind fun _ => (g.iput_inv _).bind fun _ => ret_inv
  · exact ret_inv

theorem erase_inv {off : Nat} (hv : dp ∈ vs) (hoff : deSize ∣ off) :
    Triple (Inv W b vs tmp tf pt pt) (writei c dp (List.replicate deSize 0) off)
      (fun _ => Inv W b vs tmp tf pt pt) (Ends E b) :=
  Triple.both (writei_refs _ off hv)
    ((g.erase vs tmp dp off hv hoff).pre fun _ h => ⟨h.1.refs, h.2⟩)

theorem unlinkEntry_inv (dp ip : Fin ninode) {off : Nat} (hoff : deSize ∣ off) :
    Triple (Inv W b [dp, ip] (dp ::ₘ ip ::ₘ 0) 0 pt pt) (unlinkEntry c dp ip off)
      (Done W b) (Ends E b) := by
  refine (g.erase_inv (by simp) hoff).bind fun _ =>
    .ite (fun _ => g.panic_inv (by decide)) fun _ => ?_
  refine (getInode_inv ip).bind fun i => .bind
    (Q := fun _ => Inv W b [dp, ip] (dp ::ₘ ip ::ₘ 0) 0 pt pt)
    (.ite (fun _ => g.setNlink_inv _ (by simp)) fun _ => pure_inv) fun _ => ?_
  refine (g.unlockput_inv [ip] (by simp [eq_comm])).bind fun _ => ?_
  exact (g.setNlink_inv _ (List.mem_cons_self ..)).bind fun _ =>
    (g.iunlockput_inv _).bind fun _ => ret_inv

theorem sysUnlink_inv (hn : 1 < n) (path : Option (List UInt8)) (hcwd : (pt c.me).cwd = some cwd) :
    Triple (Inv W b [] 0 0 pt pt) (sysUnlink c path) (Done W b)
      (Ends E b) := by
  cases path with
  | none => exact ret_inv
  | some path =>
    refine .bind (g.namex_inv (by simpa using hn) path true hcwd) fun r => ?_
    rcases r with _ | ⟨dp, name⟩
    · exact ret_inv
    have hbad : Triple (Inv W b [dp] (dp ::ₘ 0) 0 pt pt)
        (do iunlockput c dp; return (-1)) (Done W b) (Ends E b) :=
      (g.iunlockput_inv _).bind fun _ => ret_inv
    refine (g.ilock_inv dp).bind fun _ => .ite (fun _ => hbad) fun _ =>
      .bind (.conseq ((g.dirlookup_inv (by simpa [found] using hn) dp name).and (dirlookup_off dp name))
        (fun _ h => ⟨h, trivial⟩) (fun _ _ => id) fun _ _ h => h.1) fun r =>
          .of_and fun hoff => ?_
    rcases r with _ | ⟨ip, off⟩
    · exact hbad
    refine (g.ilock_inv ip).bind fun _ => (getInode_spec ip).bind fun i =>
      .ite (fun _ => .pre (g.panic_inv (by decide)) fun _ h => h.1) fun _ => ?_
    refine .bind (Q := fun _ => Inv W b [ip, dp] (ip ::ₘ dp ::ₘ 0) 0 pt pt)
      (.ite (fun hi => ?_) fun _ => .pure fun _ h => h.1) fun e => ?_
    · exact (Triple.both (keeps_refs (keeps_isdirempty c ip)) ((g.isdirempty [ip, dp] _ ip
        (by simp)).pre fun s (h : RefInv .. ∧ W s ∧ _) => ⟨h.1.refs, h.2⟩)).pre
          fun s h => ⟨h.1.1, h.1.2, h.2 ▸ hi⟩
    refine .ite (fun _ => ?_) fun _ => ?_
    · exact (g.unlockput_inv [dp] (by simp [eq_comm])).bind fun _ => hbad
    · exact (g.unlinkEntry_inv dp ip (hoff _ rfl)).pre fun s h => h.swap.mono (by simp)

theorem makers {W' : State → Prop} (hW : ∀ s, W s → W' s) (a : Syscall) (hn : a.entries ≤ n)
    (hcwd : (pt c.me).cwd = some cwd) : Makers c φ W' E b pt a (Inv W b [] 0 0 pt pt) where
  inv _ h := h.imp hW
  namei h path := (g.namei_inv (by rw [Multiset.card_zero]; omega) path hcwd).post
    fun _ _ h => h.imp hW
  link old new ha := (g.sysLink_inv (by subst ha; exact hn) old new hcwd).post fun _ _ h => h.imp hW
  unlink path ha := (g.sysUnlink_inv (by subst ha; exact hn) path hcwd).post fun _ _ h => h.imp hW
  create path type major minor ha := by
    have he := Syscall.entries_of_creates (by rw [ha]; nofun)
    exact (g.create_inv (by rw [Multiset.card_zero]; omega) path type major minor hcwd).post
      fun _ _ h => ⟨h.1.imp hW, fun ht ip hip _ => h.2 ht ip hip⟩

end MakerGuard

end

end Xv6.Fs
