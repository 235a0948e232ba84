import Xv6.Fs.Proof.RefCalls
import Xv6.Fs.Proof.VolInv

/-!
# Properties that calls keep

A property `W` of the state that the functions on inodes keep is kept by the system calls too.
`LockGuard` and `Guard` list what has to be shown of the functions; the state may be assumed to have
its references in order. `E` holds where a call stops.

With `W` the property that always holds, this is the account of references alone.
-/

namespace Xv6.Fs

open Lib

variable {f : Fin nfile} {q : Fin nproc} {α : Type} {P : State → Prop}

/-- The references are in order, and the call holds `tmp`; `vs` have been read from disk. -/
def Refs (vs : List (Fin ninode)) (tmp : Multiset (Fin ninode)) (s : State) : Prop :=
  ∃ b tf pr pt, RefInv b vs tmp tf pr pt s

/-- What a change of the file table must keep: a file that is open for writing was so before, or its
inode is not a directory. -/
def FilesKept (s : State) (ft : Fin nfile → File) : Prop :=
  ∀ f, (ft f).Writes → (s.ftable f).Writes ∧ (ft f).ip = (s.ftable f).ip ∨
    (s.dinode (s.icache (ft f).ip).inum).Plain

/-- The panics of the functions on inodes. -/
def inodePanics : List String := ["freeing free block", "ilock: no type", "iget: no inodes"]

/-- What has to be shown of the functions that lock and release an inode. -/
structure LockGuard (c : Ctx) (W : State → Prop) (E : Stop → State → Prop) : Prop where
  panic : ∀ s msg, msg ∉ inodePanics → W s → E (.panic msg) s
  idup : ∀ vs tmp ip, Triple (fun s => Refs vs tmp s ∧ W s ∧ 0 < (s.icache ip).ref)
    (idup ip) (fun _ => W) E
  ilock : ∀ vs tmp ip, Triple (fun s => Refs vs tmp s ∧ W s) (ilock c ip) (fun _ => W) E
  iunlock : ∀ vs tmp ip, Triple (fun s => Refs (ip :: vs) tmp s ∧ W s) (iunlock c ip) (fun _ => W) E
  iput : ∀ vs tmp ip, Triple (fun s => Refs vs (ip ::ₘ tmp) s ∧ W s) (iput c ip) (fun _ => W) E

/-- What has to be shown for the calls on open files. If `φ`, the property may depend on which files
are open for writing. -/
structure Guard (c : Ctx) (φ : Prop) (W : State → Prop) (E : Stop → State → Prop) : Prop
    extends LockGuard c W E where
  tables : ∀ s ft pt, W s → (φ → FilesKept s ft) → W { s with ftable := ft, procs := pt }
  readi : ∀ vs tmp ip off n, Triple (fun s => Refs (ip :: vs) tmp s ∧ W s) (readi c ip off n)
    (fun _ => W) E
  writei : ∀ vs tmp ip src off, Triple (fun s => Refs (ip :: vs) tmp s ∧ W s ∧
      (φ → ∃ f, (s.ftable f).Writes ∧ (s.ftable f).ip = ip))
    (writei c ip src off) (fun _ => W) E

/-- The references are in order, and the property holds. -/
def Inv (W : State → Prop) (b : Begun) (vs : List (Fin ninode)) (tmp : Multiset (Fin ninode))
    (tf : Multiset (Fin nfile)) (pr pt : Fin nproc → Files) (s : State) : Prop :=
  RefInv b vs tmp tf pr pt s ∧ W s

/-- A call that stops has freed inodes rightly and meets `E`. -/
def Ends (E : Stop → State → Prop) (b : Begun) (e : Stop) (s : State) :
    Prop := HistOk b s ∧ E e s

section
variable {c : Ctx} {φ : Prop} {W : State → Prop} {E : Stop → State → Prop}
  {b : Begun} {vs vs' : List (Fin ninode)}
  {tmp : Multiset (Fin ninode)} {tf : Multiset (Fin nfile)} {pr pt : Fin nproc → Files}
  {s s' : State}

theorem RefInv.refs (h : RefInv b vs tmp tf pr pt s) : Refs vs tmp s := ⟨b, tf, pr, pt, h⟩

namespace Refs

variable {ip : Fin ninode}

theorem held (h : Refs vs tmp s) (hv : ip ∈ vs) :
    0 < (s.icache ip).ref ∧ (s.icache ip).valid = true := by
  obtain ⟨b, tf, pr, pt, h⟩ := h
  exact h.held ip hv

theorem alone (h : Refs vs tmp s) (hr : 0 < (s.icache ip).ref) : VolInv.Alone s ip := by
  obtain ⟨b, tf, pr, pt, h⟩ := h
  exact fun k hk hk' heq => hk (h.uniq k ip hk' hr heq)

theorem mem_pos (h : Refs vs tmp s) (hm : ip ∈ tmp) : 0 < (s.icache ip).ref := by
  obtain ⟨b, tf, pr, pt, h⟩ := h
  exact h.ref_pos hm

theorem files (h : Refs vs tmp s) (f : Fin nfile) (hf : (s.ftable f).Writes) :
    0 < (s.icache (s.ftable f).ip).ref := by
  obtain ⟨b, tf, pr, pt, h⟩ := h
  exact h.file_pos hf.1 hf.2.1

theorem last (h : Refs vs (ip ::ₘ tmp) s) (h1 : (s.icache ip).ref = 1) (f : Fin nfile)
    (hf : (s.ftable f).Writes) : (s.ftable f).ip ≠ ip := by
  obtain ⟨b, tf, pr, pt, h⟩ := h
  intro heq
  have hpos := le_tally (fun x : File => if 0 < x.ref ∧ x.type = .inode ∧ x.ip = ip then 1 else 0)
    s.ftable f
  rw [if_pos ⟨hf.1, hf.2.1, heq⟩] at hpos
  have hcount := h.inode ip
  rw [Multiset.count_cons_self] at hcount
  unfold fileRefs at hcount
  omega

end Refs

namespace Inv

theorem imp {W' : State → Prop} (h : Inv W b vs tmp tf pr pt s) (hW : ∀ s, W s → W' s) :
    Inv W' b vs tmp tf pr pt s := ⟨h.1, hW s h.2⟩

theorem mono (h : Inv W b vs tmp tf pr pt s) (hv : ∀ k ∈ vs', k ∈ vs) :
    Inv W b vs' tmp tf pr pt s := ⟨h.1.mono hv, h.2⟩

theorem nil (h : Inv W b vs tmp tf pr pt s) : Inv W b [] tmp tf pr pt s :=
  h.mono (List.forall_mem_nil _)

theorem swap {k k' : Fin ninode} (h : Inv W b vs (k ::ₘ k' ::ₘ tmp) tf pr pt s) :
    Inv W b vs (k' ::ₘ k ::ₘ tmp) tf pr pt s := ⟨h.1.swap, h.2⟩

theorem swapFile {f' : Fin nfile} (h : Inv W b vs tmp (f ::ₘ f' ::ₘ tf) pr pt s) :
    Inv W b vs tmp (f' ::ₘ f ::ₘ tf) pr pt s := ⟨h.1.swapFile, h.2⟩

theorem procs (h : Inv W b vs tmp tf pr pt s) : s.procs = pt := h.1.procs

theorem done (h : Inv W b [] 0 0 pt pt s) : Inv W b [] 0 0 s.procs s.procs s :=
  ⟨h.1.done, h.2⟩

theorem toSlot {fd : Fin nofile} (h : Inv W b vs tmp (f ::ₘ tf) pr pt s)
    (hfd : (pr q).ofile fd = none) :
    Inv W b vs tmp tf (install pr q fd (some f)) pt s := ⟨h.1.toSlot hfd, h.2⟩

theorem ofSlot {fd : Fin nofile} (h : Inv W b vs tmp tf pr pt s) (hfd : (pr q).ofile fd = some f) :
    Inv W b vs tmp (f ::ₘ tf) (install pr q fd none) pt s := ⟨h.1.ofSlot hfd, h.2⟩

theorem ofCwd {k : Fin ninode} (h : Inv W b vs tmp tf pr pt s)
    (hq : (pr b.me).cwd = some k) (hst : b.drops) :
    Inv W b vs (k ::ₘ tmp) tf (setCwd pr b.me none) pt s := ⟨h.1.ofCwd hq hst, h.2⟩

end Inv

theorem pure_inv {r : α} {F : Stop → State → Prop} :
    Triple P (Pure.pure r : M α) (fun _ => P) F := .pure fun _ h => h

theorem getInode_inv {F : Stop → State → Prop} (ip : Fin ninode) :
    Triple P (getInode ip) (fun _ => P) F :=
  (getInode_spec ip).post fun _ _ h => h.1

/-- Nothing in the file table or of a process has changed. -/
def SameFiles (s s' : State) : Prop := s'.ftable = s.ftable ∧ s'.procs = s.procs

instance : IsTrans State SameFiles := ⟨fun _ _ _ h h' => ⟨h'.1.trans h.1, h'.2.trans h.2⟩⟩

/-- The tables are as before, and no entry of the cache is a directory that was none. -/
structure Quiet (s s' : State) : Prop where
  files : SameFiles s s'
  dirs : ∀ k, (s'.icache k).type = some .dir → (s.icache k).type = some .dir

instance : Std.Refl Quiet := ⟨fun _ => ⟨⟨rfl, rfl⟩, fun _ => id⟩⟩

instance : IsTrans State Quiet :=
  ⟨fun _ _ _ h h' => ⟨IsTrans.trans _ _ _ h.1 h'.1, fun k hk => h.2 k (h'.2 k hk)⟩⟩

theorem Calm.files {x : M α} (h : Calm Quiet x) : Calm SameFiles x := h.mono fun _ _ => Quiet.files

theorem keeps_quiet {x : M α} (h : Calm Same x) : Calm Quiet x := h.mono fun _ _ hs =>
  ⟨⟨hs.ftable, hs.procs⟩, fun k hk => by
    have := hs.entry k
    simp only [Inode.face, Prod.mk.injEq] at this
    rwa [this.2.2.2.1] at hk⟩

theorem keeps_files {x : M α} (h : Calm Same x) : Calm SameFiles x := (keeps_quiet h).files

section
variable {c : Ctx} {ip : Fin ninode} {f : Inode → Inode}

theorem modInode_files : Calm SameFiles (modInode ip f) := .modify fun _ => ⟨rfl, rfl⟩

theorem modInode_quiet (h : ∀ i, (f i).type = some .dir → i.type = some .dir) :
    Calm Quiet (modInode ip f) := by
  refine .modify fun s => ⟨⟨rfl, rfl⟩, fun k hk => ?_⟩
  dsimp only at hk
  by_cases hki : k = ip
  · subst hki
    rw [Function.update_self] at hk
    exact h _ hk
  · rwa [Function.update_of_ne hki] at hk

theorem setFields_quiet (h : ∀ i, (f i).type = some .dir → i.type = some .dir) :
    Calm Quiet (setFields c ip f) :=
  (modInode_quiet h).bind fun _ => (keeps_getInode ip).bind fun _ =>
    (keeps_getDinode c _).bind fun _ =>
    Steady.bind (.modify fun _ => ⟨⟨rfl, rfl⟩, fun _ => id⟩) fun _ => keeps_quiet (keeps_logWrite _)

theorem itrunc_quiet : Calm Quiet (itrunc c ip) :=
  (keeps_quiet (Steady.forM (fun _ => keeps_freeSlot c ip _) _)).bind fun _ =>
    (keeps_quiet (keeps_freeIndirect c ip)).bind fun _ => setFields_quiet fun _ => id

theorem iput_quiet : Calm Quiet (iput c ip) := by
  refine (keeps_quiet (keeps_acquiresleep c ip)).bind fun _ => (keeps_getInode ip).bind fun _ =>
    Steady.bind (.ite ?_ .pure) fun _ => (keeps_quiet (keeps_releasesleep ip)).bind fun _ =>
      modInode_quiet fun _ => id
  exact itrunc_quiet.bind fun _ => (keeps_getInode ip).bind fun _ =>
    Steady.bind (.modify fun _ => ⟨⟨rfl, rfl⟩, fun _ => id⟩) fun _ =>
      Steady.bind (setFields_quiet nofun) fun _ => modInode_quiet fun _ => id

theorem writei_quiet (src : List UInt8) (off : Nat) : Calm Quiet (writei c ip src off) := by
  refine (keeps_getInode ip).bind fun i => .ite (.ite ?_ .pure) (.ite .pure (.ite .pure ?_))
  · split <;> exact .pure
  · exact (keeps_quiet (keeps_writeLoop c ip _ _ _)).bind fun _ =>
      Steady.bind (.ite (setFields_quiet fun _ => id) .pure) fun _ => .pure

theorem ilock_files : Calm SameFiles (ilock c ip) :=
  (keeps_getInode ip).bind fun _ => .ite (keeps_panic (by decide))
    ((keeps_files (keeps_acquiresleep c ip)).bind fun _ => .ite .pure
      ((keeps_getDinode c _).bind fun _ => modInode_files.bind fun _ =>
        .ite (keeps_panic (by decide)) .pure))

end

theorem filesKept_setFile {x : File} (hx : x.Writes → (s.ftable f).Writes ∧ x.ip = (s.ftable f).ip ∨
      (s.dinode (s.icache x.ip).inum).Plain) :
    FilesKept s (Function.update s.ftable f x) := by
  intro f' hw
  by_cases hf : f' = f
  · subst hf
    rw [Function.update_self] at hw ⊢
    exact hx hw
  · rw [Function.update_of_ne hf] at hw ⊢
    exact .inl ⟨hw, rfl⟩

/-! ## Functions on inodes -/

namespace LockGuard

variable (g : LockGuard c W E)
include g

theorem panic_inv {Q : α → State → Prop} {msg : String} (h : msg ∉ inodePanics) :
    Triple (Inv W b vs tmp tf pr pt) (Fs.panic msg : M α) Q (Ends E b) :=
  .throw fun s hs => ⟨hs.1.hist, g.panic s msg h hs.2⟩

theorem idup_inv {ip : Fin ninode} (hq : (pr q).cwd = some ip) :
    Triple (Inv W b vs tmp tf pr pt) (Fs.idup ip)
      (fun ip' s => ip' = ip ∧ Inv W b vs (ip ::ₘ tmp) tf pr pt s) (Ends E b) :=
  (Triple.both (idup_refs hq) ((g.idup vs tmp ip).pre fun _ h =>
    ⟨h.1.refs, h.2, h.1.cwd_pos hq⟩)).post fun _ _ h => ⟨h.1.1, h.1.2, h.2⟩

theorem ilock_inv (ip : Fin ninode) :
    Triple (Inv W b vs tmp tf pr pt) (Fs.ilock c ip) (fun _ => Inv W b (ip :: vs) tmp tf pr pt)
      (Ends E b) :=
  Triple.both (ilock_refs c ip) ((g.ilock vs tmp ip).pre fun _ h => ⟨h.1.refs, h.2⟩)

theorem iunlock_inv (ip : Fin ninode) :
    Triple (Inv W b (ip :: vs) tmp tf pr pt) (Fs.iunlock c ip)
      (fun _ => Inv W b (ip :: vs) tmp tf pr pt) (Ends E b) :=
  Triple.both (keeps_refs (keeps_iunlock c ip))
    ((g.iunlock vs tmp ip).pre fun _ h => ⟨h.1.refs, h.2⟩)

theorem put_inv {ip : Fin ninode} (w : List (Fin ninode)) (hw : ∀ k ∈ w, k ∈ vs ∧
    (k = ip → ip ∈ tmp)) :
    Triple (Inv W b vs (ip ::ₘ tmp) tf pr pt) (Fs.iput c ip) (fun _ => Inv W b w tmp tf pr pt)
    (Ends E b) :=
  Triple.both (iput_refs w hw) ((g.iput vs tmp ip).pre fun _ h => ⟨h.1.refs, h.2⟩)

theorem iput_inv (ip : Fin ninode) :
    Triple (Inv W b vs (ip ::ₘ tmp) tf pr pt) (Fs.iput c ip) (fun _ => Inv W b [] tmp tf pr pt)
    (Ends E b) :=
  g.put_inv [] (List.forall_mem_nil _)

theorem unlockput_inv {ip : Fin ninode} (w : List (Fin ninode))
    (hw : ∀ k ∈ w, k ∈ ip :: vs ∧ (k = ip → ip ∈ tmp)) :
    Triple (Inv W b (ip :: vs) (ip ::ₘ tmp) tf pr pt) (iunlockput c ip)
      (fun _ => Inv W b w tmp tf pr pt) (Ends E b) :=
  (g.iunlock_inv ip).bind fun _ => g.put_inv w hw

theorem iunlockput_inv (ip : Fin ninode) :
    Triple (Inv W b (ip :: vs) (ip ::ₘ tmp) tf pr pt) (iunlockput c ip)
      (fun _ => Inv W b [] tmp tf pr pt) (Ends E b) := g.unlockput_inv [] (List.forall_mem_nil _)

end LockGuard

namespace Guard

variable (g : Guard c φ W E)
include g

theorem readi_inv (ip : Fin ninode) (off n : Nat) :
    Triple (Inv W b (ip :: vs) tmp tf pr pt) (Fs.readi c ip off n)
      (fun _ => Inv W b (ip :: vs) tmp tf pr pt) (Ends E b) :=
  Triple.both (keeps_refs (keeps_readi c ip off n)) ((g.readi vs tmp ip off n).pre fun _ h =>
    ⟨h.1.refs, h.2⟩)

theorem writei_inv (ip : Fin ninode) (src : List UInt8) (off : Nat) :
    Triple (fun s => Inv W b (ip :: vs) tmp tf pr pt s ∧
        (φ → ∃ f, (s.ftable f).Writes ∧ (s.ftable f).ip = ip)) (Fs.writei c ip src off)
      (fun _ => Inv W b (ip :: vs) tmp tf pr pt) (Ends E b) :=
  ((writei_refs src off (List.mem_cons_self ..)).and (g.writei vs tmp ip src off)).pre fun _ h =>
    ⟨h.1.1, h.1.1.refs, h.1.2, h.2⟩

/-! ## The file table -/

theorem setFile {x : File} (h : W s) (hx : φ → x.Writes → (s.ftable f).Writes ∧
      x.ip = (s.ftable f).ip ∨
      (s.dinode (s.icache x.ip).inum).Plain) : W (s.setFile f x) :=
  g.tables s _ s.procs h fun hφ => filesKept_setFile (hx hφ)

theorem setProcs (h : W s) (pt : Fin nproc → Files) : W { s with procs := pt } :=
  g.tables s s.ftable pt h fun _ _ hw => .inl ⟨hw, rfl⟩

theorem filealloc_inv (hP : ∀ s ft, P s → P { s with ftable := ft }) :
    Triple (fun s => Inv W b vs tmp tf pr pt s ∧ P s) filealloc
      (fun r s => match r with
        | some f => (Inv W b vs tmp (f ::ₘ tf) pr pt s ∧ P s) ∧ (s.ftable f).type = .none
        | none => Inv W b vs tmp tf pr pt s) (Ends E b) := by
  refine .of_state fun s ⟨h, hp⟩ => (filealloc_spec s).post fun r s' hr => ?_
  cases r with
  | none =>
    cases hr
    exact h
  | some f =>
    obtain ⟨hz, rfl⟩ := hr
    have ht := h.1.closed f hz
    refine ⟨⟨⟨h.1.allocFile hz, g.setFile h.2 fun _ hw => ?_⟩, hP s _ hp⟩, by simp [ht]⟩
    exact absurd hw.2.1 (by rw [show File.type _ = _ from ht]; nofun)

theorem filedup_inv (f : Fin nfile) :
    Triple (Inv W b vs tmp tf pr pt) (filedup f)
      (fun f' s => f' = f ∧ Inv W b vs tmp (f ::ₘ tf) pr pt s) (Ends E b) := by
  refine (getFile_spec f).bind fun x => .ite (fun _ => .throw fun s h =>
    ⟨h.1.1.hist, g.panic s _ (by decide) h.1.2⟩) fun hx => ?_
  refine .bind (Q := fun _ => Inv W b vs tmp (f ::ₘ tf) pr pt) (.modify ?_)
    fun _ => .pure fun _ h => ⟨rfl, h⟩
  rintro s ⟨h, rfl⟩
  exact ⟨h.1.dupFile hx, g.setFile h.2 fun _ hw => .inl ⟨⟨by omega, hw.2⟩, rfl⟩⟩

theorem fileclose_inv_none (f : Fin nfile) :
    Triple (fun s => Inv W b vs tmp (f ::ₘ tf) pr pt s ∧ (s.ftable f).type = .none)
      (fileclose c f) (fun _ => Inv W b vs tmp tf pr pt) (Ends E b) := by
  refine (getFile_spec f).bind fun x => .ite (fun _ => .throw fun s h =>
    ⟨h.1.1.1.hist, g.panic s _ (by decide) h.1.1.2⟩) fun hx =>
      .ite (fun hx' => .modify ?_) fun hx' => ?_
  · rintro s ⟨⟨h, -⟩, rfl⟩
    exact ⟨h.1.dropFile hx', g.setFile h.2 fun _ hw => .inl ⟨⟨by omega, hw.2⟩, rfl⟩⟩
  · refine .of_pre (φ := x.type = .none) (fun _ h => by rw [h.2]; exact h.1.2) fun hxt => ?_
    rw [hxt]
    refine .bind (Q := fun _ => Inv W b vs tmp tf pr pt) (.modify ?_) fun _ => pure_inv
    rintro s ⟨⟨h, ht⟩, rfl⟩
    have h1 := h.1.closeFile hx'
    rw [ht, if_neg nofun] at h1
    exact ⟨h1, g.setFile h.2 fun _ hw => absurd hw.2.1 nofun⟩

theorem fileclose_inv (f : Fin nfile) :
    Triple (Inv W b [] tmp (f ::ₘ tf) pr pt) (fileclose c f)
      (fun _ => Inv W b [] tmp tf pr pt) (Ends E b) := by
  refine (getFile_spec f).bind fun x => .ite (fun _ => .throw fun s h =>
    ⟨h.1.1.hist, g.panic s _ (by decide) h.1.2⟩) fun hx =>
      .ite (fun hx' => .modify ?_) fun hx' => ?_
  · rintro s ⟨h, rfl⟩
    exact ⟨h.1.dropFile hx', g.setFile h.2 fun _ hw => .inl ⟨⟨by omega, hw.2⟩, rfl⟩⟩
  · refine .bind (Q := fun _ => Inv W b []
      (if x.type = .inode then x.ip ::ₘ tmp else tmp) tf pr pt) (.modify ?_) fun _ => ?_
    · rintro s ⟨h, rfl⟩
      exact ⟨h.1.closeFile hx', g.setFile h.2 fun _ hw => absurd hw.2.1 nofun⟩
    · cases x.type with
      | inode =>
        rw [if_pos rfl]
        exact g.iput_inv x.ip
      | none =>
        rw [if_neg nofun]
        exact pure_inv
      | pipe =>
        rw [if_neg nofun]
        exact pure_inv

theorem advance_inv (f : Fin nfile) (r : Int) :
    Triple (Inv W b vs tmp tf pr pt) (advance f r)
      (fun _ => Inv W b vs tmp tf pr pt) (Ends E b) :=
  .ite (fun _ => .modify fun _ h => ⟨h.1.changeFile ⟨rfl, rfl, rfl⟩,
    g.setFile h.2 fun _ hw => .inl ⟨hw, rfl⟩⟩) fun _ => pure_inv

theorem filestat_inv (f : Fin nfile) :
    Triple (Inv W b [] tmp tf pr pt) (filestat c f)
      (fun _ => Inv W b [] tmp tf pr pt) (Ends E b) := by
  refine (getFile_spec f).bind fun x => .pre (.ite (fun _ => ?_) fun _ => pure_inv) fun _ h => h.1
  exact (g.ilock_inv x.ip).bind fun _ => .bind (.bind (getInode_inv x.ip) fun _ => pure_inv)
    fun _ => (g.iunlock_inv x.ip).bind fun _ => .pure fun _ h => h.nil

theorem fileread_inv (f : Fin nfile) (n : Nat) :
    Triple (Inv W b [] tmp tf pr pt) (fileread c f n)
      (fun _ => Inv W b [] tmp tf pr pt) (Ends E b) := by
  refine (getFile_spec f).bind fun x => .pre (.ite (fun _ => pure_inv) fun _ => ?_) fun _ h => h.1
  cases x.type with
  | pipe => exact pure_inv
  | none => exact g.panic_inv (by decide)
  | inode =>
    exact (g.ilock_inv x.ip).bind fun _ => (g.readi_inv x.ip _ _).bind fun r =>
      (g.advance_inv f r.1).bind fun _ => (g.iunlock_inv x.ip).bind fun _ =>
        .pure fun _ h => h.nil

theorem filewriteLoop_inv (f : Fin nfile) : ∀ turns src,
    Triple (fun s => Inv W b [] tmp tf pr pt s ∧ (s.ftable f).Writes)
      (filewriteLoop c f turns src) (fun _ => Inv W b [] tmp tf pr pt) (Ends E b)
  | 0, _ => .pure fun _ h => h.1
  | turns + 1, src => by
    refine .ite (fun _ => .pure fun _ h => h.1) fun _ => .of_state fun s ⟨h, hw⟩ =>
      .read_bind rfl ?_
    refine .bind (.pre (ilock_files.frame (g.ilock_inv (s.ftable f).ip) s)
      fun s' hs => by rw [hs]; exact ⟨h, rfl, rfl⟩) fun _ => ?_
    refine .bind (.pre ((writei_quiet _ _).files.frame (g.writei_inv (s.ftable f).ip _ _) s)
      fun s' hs => ⟨⟨hs.1, fun _ => ⟨f, by rw [hs.2.1]; exact hw, by rw [hs.2.1]⟩⟩, hs.2⟩)
      fun r => ?_
    refine .bind (Q := fun _ s' => Inv W b [(s.ftable f).ip] tmp tf
      pr pt s' ∧ (s'.ftable f).Writes) ?_ fun _ => ?_
    · refine .ite (fun _ => .modify fun s' hs => ?_) fun _ => .pure fun s' hs => ⟨hs.1, ?_⟩
      · have hw' : (s'.ftable f).Writes := by rw [hs.2.1]; exact hw
        exact ⟨⟨hs.1.1.changeFile ⟨rfl, rfl, rfl⟩, g.setFile hs.1.2 fun _ hw => .inl ⟨hw, rfl⟩⟩,
          by simpa [File.Writes] using hw'⟩
      · rw [hs.2.1]
        exact hw
    refine .of_state fun s₁ ⟨h₁, hw₁⟩ => .bind (.pre ((keeps_files (keeps_iunlock c _)).frame
      (g.iunlock_inv (s.ftable f).ip) s₁) fun s' hs => by rw [hs]; exact ⟨h₁, rfl, rfl⟩) fun _ => ?_
    refine .ite (fun _ => .pure fun _ h => h.1.nil) fun _ => .ite (fun _ => ?_) fun _ => ?_
    · exact (g.panic_inv (by decide)).pre fun _ h => h.1
    · exact (filewriteLoop_inv f turns _).pre fun s' hs => ⟨hs.1.nil, by rw [hs.2.1]; exact hw₁⟩

theorem filewrite_inv (f : Fin nfile) (src : List UInt8) :
    Triple (fun s => Inv W b [] tmp tf pr pt s ∧ 0 < (s.ftable f).ref) (filewrite c f src)
      (fun _ => Inv W b [] tmp tf pr pt) (Ends E b) := by
  refine (getFile_spec f).bind fun x => .ite (fun _ => .pure fun _ h => h.1.1) fun hw => ?_
  cases hx : x.type with
  | pipe => exact .pure fun _ h => h.1.1
  | none => exact (g.panic_inv (by decide)).pre fun _ h => h.1.1
  | inode =>
    refine .bind (.pre (g.filewriteLoop_inv f _ src) fun s h => ⟨h.1.1, h.1.2, ?_, ?_⟩)
      fun _ => pure_inv
    · rw [← h.2]
      exact hx
    · rw [← h.2]
      simpa using hw

end Guard

end

end Xv6.Fs
