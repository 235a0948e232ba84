import Xv6.Fs.Proof.Guard

/-!
# System calls under a guard

Every system call keeps what a `Guard` keeps. For the calls that make and remove entries this has to
be shown of the functions that do so: `create`, `sys_link` and `sys_unlink` (`Makers`).
-/

namespace Xv6.Fs

open Lib

variable {P : State → Prop} {cwd : Fin ninode}

section
variable {c : Ctx} {φ : Prop} {W : State → Prop} {E : Stop → State → Prop}
  {b : Begun} {vs : List (Fin ninode)}
  {tmp : Multiset (Fin ninode)} {tf : Multiset (Fin nfile)} {pr pt : Fin nproc → Files} {s : State}

theorem RefInv.slot_pos (h : RefInv b vs tmp tf pr pt s) {q : Fin nproc} {fd : Fin nofile}
    {f : Fin nfile} (hfd : (pr q).ofile fd = some f) : 0 < (s.ftable f).ref := by
  have h1 := le_tally (fun o => if o = some f then 1 else 0) (pr q).ofile fd
  have h2 := le_tally (fun x : Files => tally (fun o => if o = some f then 1 else 0) x.ofile) pr q
  have h3 := h.file f
  rw [if_pos hfd] at h1
  unfold slotRefs at h3
  omega

/-- After a call: it holds no reference of its own. -/
abbrev Done (W : State → Prop) (b : Begun)
    (_ : Int) (s : State) : Prop := Inv W b [] 0 0 s.procs s.procs s

theorem ret_inv {r : Int} {F : Stop → State → Prop} :
    Triple (Inv W b [] 0 0 pt pt) (Pure.pure r : M Int) (Done W b) F :=
  .pure fun _ h => h.done

theorem argfd_spec {F : Stop → State → Prop} (c : Ctx) (fd : Int) (hP : ∀ s, P s → s.procs = pt) :
    Triple P (argfd c fd)
      (fun r s => P s ∧ ∀ k f, r = some (k, f) → (pt c.me).ofile k = some f) F := by
  refine .bind (Q := fun a s => P s ∧ a.procs = pt) (.get fun s h => ⟨h, hP s h⟩) fun s₁ => ?_
  split
  · refine .pure fun s h => ⟨h.1, fun k f hr => ?_⟩
    obtain ⟨f', hf', heq⟩ := Option.map_eq_some_iff.1 hr
    cases heq
    rw [← h.2]
    exact hf'
  · exact .pure fun s h => ⟨h.1, nofun⟩

namespace Guard

variable (g : Guard c φ W E)
include g

theorem setOfile_inv (q : Fin nproc) (fd : Fin nofile) (x : Option (Fin nfile))
    (hP : ∀ s pt, P s → P { s with procs := pt }) :
    Triple (fun s => Inv W b vs tmp tf pr pt s ∧ P s)
      (modProc { c with me := q } fun y => { y with ofile := Function.update y.ofile fd x })
      (fun _ s => Inv W b vs tmp tf pr (install pt q fd x) s ∧ P s) (Ends E b) := by
  refine .modify fun s ⟨h, hp⟩ => ?_
  rw [h.procs]
  exact ⟨⟨h.1.setProcs fun q hq => by rw [install_cwd]; exact h.1.others q hq, g.setProcs h.2 _⟩,
    hP s _ hp⟩

theorem fdalloc_inv (f : Fin nfile) (hP : ∀ s pt, P s → P { s with procs := pt }) :
    Triple (fun s => Inv W b vs tmp tf pr pt s ∧ P s) (fdalloc c f)
      (fun r s => match r with
        | some fd => (Inv W b vs tmp tf pr (install pt c.me fd (some f)) s ∧ P s) ∧
            (pt c.me).ofile fd = none
        | none => Inv W b vs tmp tf pr pt s ∧ P s) (Ends E b) := by
  refine .of_state fun s h => .read_bind rfl ?_
  split
  · next fd hf =>
    have hfd : (pt c.me).ofile fd = none := by
      rw [← h.1.procs]
      simpa using List.find?_some hf
    refine .bind (.pre (g.setOfile_inv c.me fd (some f) hP) (by rintro _ rfl; exact h))
      fun _ => .pure fun _ hs => ⟨hs, hfd⟩
  · exact .pure (by rintro _ rfl; exact h)

theorem sysDup_inv (fd : Int) :
    Triple (Inv W b [] 0 0 pt pt) (sysDup c fd) (Done W b) (Ends E b) := by
  refine (argfd_spec c fd fun _ h => h.procs).bind fun r => ?_
  rcases r with _ | ⟨k, f⟩
  · exact ret_inv.pre fun _ h => h.1
  refine .bind (.pre (g.fdalloc_inv f (P := fun _ => True) fun _ _ => id)
    fun _ h => ⟨h.1, trivial⟩) fun r => ?_
  rcases r with _ | fd'
  · exact ret_inv.pre fun _ h => h.1
  · refine .of_pre (φ := (pt c.me).ofile fd' = none) (fun _ h => h.2) fun hfd => ?_
    exact .bind (.pre (g.filedup_inv f) fun _ h => h.1.1) fun f' => .pure fun s h =>
      (h.2.toSlot hfd).done

theorem sysRead_inv (fd : Int) (n : Option Nat) :
    Triple (Inv W b [] 0 0 pt pt) (sysRead c fd n) (Done W b) (Ends E b) := by
  refine (argfd_spec c fd fun _ h => h.procs).bind fun r => .pre ?_ fun _ h => h.1
  split
  · exact (g.fileread_inv _ _).bind fun _ => ret_inv
  · exact ret_inv

theorem sysWrite_inv (fd : Int) (src : Option (List UInt8)) :
    Triple (Inv W b [] 0 0 pt pt) (sysWrite c fd src) (Done W b)
      (Ends E b) := by
  refine (argfd_spec c fd fun _ h => h.procs).bind fun r => ?_
  rcases r with _ | ⟨k, f⟩
  · exact ret_inv.pre fun _ h => h.1
  rcases src with _ | src
  · exact ret_inv.pre fun _ h => h.1
  refine .conseq (g.filewrite_inv f src) (fun s h => ⟨h.1, ?_⟩) (fun _ _ h => h.done) fun _ _ => id
  exact h.1.1.slot_pos (h.2 k f rfl)

theorem sysClose_inv (fd : Int) :
    Triple (Inv W b [] 0 0 pt pt) (sysClose c fd) (Done W b) (Ends E b) := by
  refine (argfd_spec c fd fun _ h => h.procs).bind fun r => ?_
  rcases r with _ | ⟨k, f⟩
  · exact ret_inv.pre fun _ h => h.1
  refine .of_pre (φ := (pt c.me).ofile k = some f) (fun _ h => h.2 k f rfl) fun hk => ?_
  refine .bind (.pre (g.setOfile_inv c.me k none (P := fun _ => True) fun _ _ => id)
    fun _ h => ⟨h.1, trivial⟩) fun _ => ?_
  exact .bind (.pre (g.fileclose_inv f) fun s h => h.1.ofSlot hk) fun _ => ret_inv

theorem sysFstat_inv (fd : Int) (ok : Bool) :
    Triple (Inv W b [] 0 0 pt pt) (sysFstat c fd ok) (Done W b)
      (Ends E b) := by
  refine (argfd_spec c fd fun _ h => h.procs).bind fun r => .pre ?_ fun _ h => h.1
  split
  · exact (g.filestat_inv _).bind fun _ => ret_inv
  · exact ret_inv

theorem openFile_inv (ip : Fin ninode) (omode : BitVec 32) :
    Triple (fun s => Inv W b [ip] (ip ::ₘ 0) 0 pt pt s ∧
        (φ → omode ≠ 0 → (s.icache ip).type ≠ some .dir)) (openFile c ip omode)
      (Done W b) (Ends E b) := by
  refine (g.filealloc_inv (P := fun s => φ → omode ≠ 0 → (s.icache ip).type ≠ some .dir)
    fun _ _ => id).bind fun r => ?_
  rcases r with _ | f
  · exact (g.iunlockput_inv ip).bind fun _ => ret_inv
  refine .bind (.pre (g.fdalloc_inv f (P := fun s => (s.ftable f).type = .none ∧
    (φ → omode ≠ 0 → (s.icache ip).type ≠ some .dir)) fun _ _ => id)
      fun s h => ⟨h.1.1, h.2, h.1.2⟩) fun r => ?_
  rcases r with _ | fd
  · exact .bind (.pre (g.fileclose_inv_none f) fun _ h => ⟨h.1, h.2.1⟩) fun _ =>
      (g.iunlockput_inv ip).bind fun _ => ret_inv
  refine .of_pre (φ := (pt c.me).ofile fd = none) (fun _ h => h.2) fun hfd => ?_
  refine .of_state fun s₀ ⟨⟨h₀, ht₀, hd₀⟩, _⟩ => .bind (.pre ((keeps_iunlock c ip).frame
    (g.iunlock_inv ip) s₀) fun s hs => by rw [hs]; exact ⟨h₀, .refl _⟩) fun _ => ?_
  refine .bind (Q := fun _ => Done W b 0) (.modify ?_) fun _ => .pure fun _ h => h
  rintro s ⟨h, hsame⟩
  have ht : (s.ftable f).type = .none := by rw [hsame.ftable]; exact ht₀
  -- the call's reference to the inode becomes the file's
  have h1 := h.1.file f
  rw [Multiset.count_cons_self] at h1
  have hpos : 0 < (s.ftable f).ref := by omega
  have href : RefInv b [ip] 0 (f ::ₘ 0) pt (install pt c.me fd (some f)) _ :=
    h.1.setFile (x := { s.ftable f with
      type := .inode, ip := ip, off := 0, readable := omode &&& oWronly = 0,
      writable := omode &&& oWronly ≠ 0 ∨ omode &&& oRdwr ≠ 0 }) (h.1.file f) (fun _ _ => rfl)
      (fun h0 => by
        have : (s.ftable f).ref = 0 := h0
        omega)
      fun k => by simp [hpos, ht, Multiset.count_singleton, eq_comm (a := k)]
  refine ⟨.done (.toSlot (.mono href nofun) hfd), g.setFile h.2 fun hφ hw => .inr ?_⟩
  -- only a mode other than `O_RDONLY` lets the file be written
  have homode : omode ≠ 0 := by
    rintro rfl
    have := hw.2.2
    simp at this
  obtain ⟨hr, hv⟩ := h.1.held ip (List.mem_cons_self ..)
  obtain ⟨hc1, hc2, -⟩ := h.1.coh ip hr hv
  have hty := hsame.entry ip
  simp only [Inode.face, Prod.mk.injEq] at hty
  refine ⟨?_, ?_⟩
  · show (s.dinode (s.icache ip).inum).type ≠ none
    rw [hc2]
    exact hc1
  · show (s.dinode (s.icache ip).inum).type ≠ some .dir
    rw [hc2, hty.2.2.2.1]
    exact hd₀ hφ homode

theorem setCwd_inv (q : Fin nproc) (x : Option (Fin ninode))
    (h : ∀ s, RefInv b vs tmp tf pr pt s →
      RefInv b [] 0 0 (setCwd pt q x) (setCwd pt q x) { s with procs := setCwd pt q x })
    (r : Int) :
    Triple (Inv W b vs tmp tf pr pt)
      (do modProc { c with me := q } fun y => { y with cwd := x }
          return r) (Done W b) (Ends E b) := by
  refine .bind (Q := fun _ => Done W b 0) (.modify fun s hs => ?_) fun _ => .pure fun _ h => h
  rw [hs.procs]
  exact ⟨h s hs.1, g.setProcs hs.2 _⟩

section
variable (hP : ∀ s, P s → Inv W b [] 0 0 pt pt s)
  (hnamei : ∀ path, Triple P (namei c path) (fun r => Inv W b [] (made r 0) 0 pt pt) (Ends E b))
include hP hnamei

theorem sysOpen_inv (path : Option (List UInt8)) (omode : BitVec 32)
    (hcreate : ∀ p, path = some p → omode &&& oCreate ≠ 0 → Triple P (create c p .file 0 0)
      (fun r s => Inv W b r.toList (made r 0) 0 pt pt s ∧
        ∀ ip ∈ r, φ → (s.icache ip).type ≠ some .dir) (Ends E b)) :
    Triple P (sysOpen c path omode) (Done W b) (Ends E b) := by
  cases path with
  | none => exact ret_inv.pre hP
  | some path =>
    refine .ite (fun ho => (hcreate path rfl ho).bind fun r => ?_) fun _ => ?_
    · rcases r with _ | ip
      · exact ret_inv.pre fun _ h => h.1
      · exact (g.openFile_inv ip omode).pre fun s h => ⟨h.1, fun hφ _ => h.2 ip rfl hφ⟩
    · refine (hnamei path).bind fun r => ?_
      rcases r with _ | ip
      · exact ret_inv
      refine (g.ilock_inv ip).bind fun _ => (getInode_spec ip).bind fun i => .ite (fun _ => ?_)
        fun hi => ?_
      · exact .bind (.pre (g.iunlockput_inv ip) fun _ h => h.1) fun _ => ret_inv
      · refine (g.openFile_inv ip omode).pre fun s h => ⟨h.1, fun _ ho ht => hi ⟨?_, ho⟩⟩
        rw [h.2]
        exact ht

theorem sysExec_inv (path : Option (List UInt8)) (reads : List (Nat × Nat)) (r : Int) :
    Triple P (sysExec c path reads r) (Done W b) (Ends E b) := by
  cases path with
  | none => exact ret_inv.pre hP
  | some path =>
    refine (hnamei path).bind fun r => ?_
    rcases r with _ | ip
    · exact ret_inv
    refine (g.ilock_inv ip).bind fun _ => .bind (Triple.forM
      (I := fun _ => Inv W b [ip] (made (some ip) 0) 0 pt pt) (fun x _ => ?_) reads)
      fun _ => (g.iunlockput_inv ip).bind fun _ => ret_inv
    exact (g.readi_inv ip _ _).bind fun _ => pure_inv

theorem sysChdir_inv (path : Option (List UInt8)) (hcwd : (pt c.me).cwd = some cwd)
    (hme : b.me = c.me) (hst : b.drops) :
    Triple P (sysChdir c path) (Done W b) (Ends E b) := by
  obtain ⟨b, me, st⟩ := b
  obtain rfl : me = c.me := hme
  cases path with
  | none => exact ret_inv.pre hP
  | some path =>
    refine (hnamei path).bind fun r => ?_
    rcases r with _ | ip
    · exact ret_inv
    refine (g.ilock_inv ip).bind fun _ => (getInode_inv ip).bind fun i =>
      .ite (fun _ => (g.iunlockput_inv ip).bind fun _ => ret_inv) fun _ => ?_
    refine (g.iunlock_inv ip).bind fun _ =>
      .bind (Q := fun a s => Inv W _ [] (ip ::ₘ 0) 0 pt pt s ∧ a.procs = pt)
        (.get fun s h => ⟨h.nil, h.procs⟩) fun s₁ => .of_pre (fun _ h => h.2) fun hpt => ?_
    rw [hpt, hcwd]
    refine .bind (.pre (g.iput_inv cwd) fun s h => (h.1.ofCwd hcwd hst)) fun _ =>
      g.setCwd_inv c.me _ (fun s h => ?_) 0
    have heq : setCwd (setCwd pt c.me none) c.me (some ip) = setCwd pt c.me (some ip) := by
      simp [setCwd]
    rw [← heq]
    exact h.toCwd (by simp [setCwd]) fun _ _ => rfl

end

theorem makeNode_inv (path : Option (List UInt8)) (type : FileType) (major minor : BitVec 16)
    (hP : ∀ s, P s → Inv W b [] 0 0 pt pt s)
    (hcreate : ∀ p, path = some p → Triple P (create c p type major minor)
      (fun r => Inv W b r.toList (made r 0) 0 pt pt) (Ends E b)) :
    Triple P (makeNode c path type major minor) (Done W b) (Ends E b) := by
  cases path with
  | none => exact ret_inv.pre hP
  | some path =>
    refine (hcreate path rfl).bind fun r => ?_
    rcases r with _ | ip
    · exact ret_inv
    · exact (g.iunlockput_inv ip).bind fun _ => ret_inv

theorem pipealloc_inv :
    Triple (Inv W b [] tmp tf pr pt) (pipealloc c)
      (fun r => Inv W b [] tmp
        (match r with | some (f0, f1) => f1 ::ₘ f0 ::ₘ tf | none => tf) pr pt)
      (Ends E b) := by
  refine .bind (.pre (g.filealloc_inv (P := fun _ => True) fun _ _ => id)
    fun _ h => ⟨h, trivial⟩) fun r => ?_
  rcases r with _ | f0
  · exact .pure fun _ h => h
  refine .bind (Q := fun r s => r.elim (Inv W b [] tmp (f0 ::ₘ tf) pr pt s) fun f1 =>
    Inv W b [] tmp (f1 ::ₘ f0 ::ₘ tf) pr pt s ∧ f1 ≠ f0 ∧
      (s.ftable f0).type = .none ∧ (s.ftable f1).type = .none) ?_ fun r => ?_
  · refine .of_state fun s hs => (filealloc_spec s).post fun r s' hr => ?_
    obtain ⟨⟨h, -⟩, ht⟩ := hs
    cases r with
    | none =>
      cases hr
      exact h
    | some f1 =>
      obtain ⟨hz, rfl⟩ := hr
      have hne : f1 ≠ f0 := by
        rintro rfl
        have h1 := h.1.file f1
        rw [Multiset.count_cons_self] at h1
        omega
      have ht1 := h.1.closed f1 hz
      refine ⟨⟨h.1.allocFile hz, g.setFile h.2 fun _ hw => ?_⟩, hne, ?_, ?_⟩
      · exact absurd hw.2.1 (by rw [show File.type _ = _ from ht1]; decide)
      · simpa [hne.symm] using ht
      · simp [ht1]
  rcases r with _ | f1
  · exact (g.fileclose_inv f0).bind fun _ => .pure fun _ h => h
  cases c.kalloc with
  | none =>
    exact .bind (.pre (g.fileclose_inv f0) fun _ h => h.1.swapFile) fun _ =>
      (g.fileclose_inv f1).bind fun _ => .pure fun _ h => h
  | some p =>
    have hpipe : ∀ {s : State} {f : Fin nfile} {w : Bool}, W s →
        W (s.setFile f ((s.ftable f).toPipe w p)) := fun h =>
      g.setFile h fun _ hw => absurd hw.2.1 (by simp [File.toPipe])
    refine .bind (Q := fun _ s => Inv W b [] tmp (f1 ::ₘ f0 ::ₘ tf) pr pt s ∧
      (s.ftable f1).type = .none) (.modify ?_) fun _ =>
        .bind (Q := fun _ => Inv W b [] tmp (f1 ::ₘ f0 ::ₘ tf) pr pt) (.modify ?_)
          fun _ => .pure fun _ h => h
    · rintro s ⟨h, hne, h0, h1⟩
      exact ⟨⟨h.1.toPipe (by simp) h0 false p, hpipe h.2⟩, by simpa [hne] using h1⟩
    · rintro s ⟨h, h1⟩
      exact ⟨h.1.toPipe (by simp) h1 true p, hpipe h.2⟩

theorem sysPipe_inv (ok : Bool) :
    Triple (Inv W b [] 0 0 pt pt) (sysPipe c ok) (Done W b) (Ends E b) := by
  refine .ite (fun _ => ret_inv) fun _ => g.pipealloc_inv.bind fun r => ?_
  rcases r with _ | ⟨rf, wf⟩
  · exact ret_inv
  have hclose : Triple (Inv W b [] 0 (wf ::ₘ rf ::ₘ 0) pt pt)
      (do fileclose c rf; fileclose c wf; return (-1)) (Done W b) (Ends E b) :=
    .bind (.pre (g.fileclose_inv rf) fun _ h => h.swapFile)
      fun _ => (g.fileclose_inv wf).bind fun _ => ret_inv
  refine .bind (.pre (g.fdalloc_inv rf (P := fun _ => True) fun _ _ => id)
    fun _ h => ⟨h, trivial⟩) fun r => ?_
  rcases r with _ | fd0
  · exact hclose.pre fun _ h => h.1
  refine .of_pre (φ := (pt c.me).ofile fd0 = none) (fun _ h => h.2) fun h0 => ?_
  refine .bind (.pre (g.fdalloc_inv wf (P := fun _ => True) fun _ _ => id)
    fun _ h => ⟨h.1.1, trivial⟩) fun r => ?_
  rcases r with _ | fd1
  · refine .bind (.pre (g.setOfile_inv c.me fd0 none (P := fun _ => True) fun _ _ => id)
      fun _ h => ⟨h.1, trivial⟩) fun _ => hclose.pre fun s h => ?_
    have hback : install (install pt c.me fd0 (some rf)) c.me fd0 none = pt := by
      funext q
      by_cases hq : q = c.me
      · subst hq
        simp [install, ← h0]
      · simp [install, hq]
    rw [hback] at h
    exact h.1
  · refine .of_pre (φ := (install pt c.me fd0 (some rf) c.me).ofile fd1 = none)
      (fun _ h => h.2) fun h1 => .pure fun s h => ?_
    exact ((h.1.1.swapFile.toSlot h0).toSlot h1).done

theorem exitFd_inv (fd : Fin nofile) :
    Triple (fun s => Done W b 0 s ∧ (s.procs c.me).cwd ≠ none) (exitFd c fd)
      (fun _ s => Done W b 0 s ∧ (s.procs c.me).cwd ≠ none) (Ends E b) := by
  refine .of_state fun s ⟨h, hc⟩ => .read_bind rfl ?_
  split
  · exact .pure (by rintro _ rfl; exact ⟨h, hc⟩)
  · next f hf =>
    refine .bind (.pre (g.fileclose_inv f) (by rintro _ rfl; exact h.ofSlot hf)) fun _ => ?_
    refine .post (.pre (g.setOfile_inv c.me fd none (P := fun _ => True) fun _ _ => id)
      fun _ h => ⟨h, trivial⟩) fun _ s h => ⟨h.1.done, ?_⟩
    rw [h.1.procs, install_cwd]
    exact hc

theorem sysExit_inv (hcwd : (pt c.me).cwd ≠ none) (hme : b.me = c.me) (hst : b.drops) :
    Triple (Inv W b [] 0 0 pt pt) (sysExit c) (Done W b) (Ends E b) := by
  obtain ⟨b, me, st⟩ := b
  obtain rfl : me = c.me := hme
  refine .ite (fun _ => g.panic_inv (by decide)) fun _ => .bind (.pre (Triple.forM
    (I := fun _ s => Done W _ 0 s ∧ (s.procs c.me).cwd ≠ none)
    (fun fd _ => g.exitFd_inv fd) _) fun _ h => ⟨h.done, h.procs ▸ hcwd⟩)
    fun _ => .of_state fun s ⟨h, hc⟩ => ?_
  refine .read_bind rfl ?_
  split
  · next h0 => exact absurd h0 hc
  · next cwd hcwd =>
    exact .bind (.pre (g.iput_inv cwd) (by rintro _ rfl; exact h.ofCwd hcwd hst))
      fun _ => g.setCwd_inv c.me none (fun s h => h.setProcs fun _ _ => rfl) 0

theorem forkFd_inv (np : Fin nproc) (fd : Fin nofile) (l : List (Fin nofile)) :
    Triple (fun s => Done W b 0 s ∧ (s.procs np).cwd = none ∧ (s.procs c.me).cwd ≠ none ∧
        (fd :: l).Nodup ∧ ∀ k ∈ fd :: l, (s.procs np).ofile k = none) (forkFd c np fd)
      (fun _ s => Done W b 0 s ∧ (s.procs np).cwd = none ∧ (s.procs c.me).cwd ≠ none ∧
        l.Nodup ∧ ∀ k ∈ l, (s.procs np).ofile k = none) (Ends E b) := by
  refine .of_state fun s ⟨h, hc, hc', hnd, hl⟩ => .read_bind rfl ?_
  obtain ⟨hfd, hnd'⟩ := List.nodup_cons.1 hnd
  split
  · refine .pure ?_
    rintro _ rfl
    exact ⟨h, hc, hc', hnd', fun k hk => hl k (List.mem_cons_of_mem _ hk)⟩
  · next f hf =>
    refine .bind (.pre (g.filedup_inv f) (by rintro _ rfl; exact h)) fun f' =>
      .of_pre (φ := f' = f) (fun _ hs => hs.1) ?_
    rintro rfl
    refine .post (.pre (g.setOfile_inv np fd (some f') (P := fun _ => True)
      fun _ _ => id) fun _ h => ⟨h.2, trivial⟩) fun _ s h => ?_
    have h1 := h.1.toSlot (hl fd (List.mem_cons_self ..))
    refine ⟨h1.done, ?_, ?_, hnd', fun k hk => ?_⟩
    · rw [h1.procs, install_cwd]
      exact hc
    · rw [h1.procs, install_cwd]
      exact hc'
    · rw [h1.procs, install_ofile _ (.inr (ne_of_mem_of_not_mem hk hfd))]
      exact hl k (List.mem_cons_of_mem _ hk)

theorem sysFork_inv (np : Option (Fin nproc)) (hcwd : (pt c.me).cwd ≠ none)
    (hnp : ∀ q ∈ np, (pt q).Unused) :
    Triple (Inv W b [] 0 0 pt pt) (sysFork c np) (Done W b) (Ends E b) := by
  cases np with
  | none => exact ret_inv
  | some np =>
    obtain ⟨hc, ho⟩ := hnp np rfl
    refine .bind (.pre (Triple.forM (I := fun l s => Done W b 0 s ∧
      (s.procs np).cwd = none ∧ (s.procs c.me).cwd ≠ none ∧ l.Nodup ∧
        ∀ k ∈ l, (s.procs np).ofile k = none)
      (g.forkFd_inv np) _) fun s h => ?_) fun _ => .of_state fun s ⟨h, hc', hme, _⟩ => ?_
    · refine ⟨h.done, ?_⟩
      rw [h.procs]
      exact ⟨hc, hcwd, List.nodup_finRange _, fun k _ => ho k⟩
    refine .read_bind rfl ?_
    split
    · next h0 => exact absurd h0 hme
    · next cwd hcwd =>
      refine .bind (.pre (g.idup_inv hcwd) (by rintro _ rfl; exact h)) fun k =>
        .of_pre (φ := k = cwd) (fun _ hs => hs.1) ?_
      rintro rfl
      exact .pre (g.setCwd_inv np (some k) (fun s h => h.toCwd hc' fun _ _ => rfl) _)
        fun _ hs => hs.2

end Guard

/-- The calls that give up the working directory. -/
def Syscall.DropsCwd : Syscall → Prop
  | .chdir _ | .exit => True
  | _ => False

/-- What the call passes to `create`, if it calls it. -/
def Syscall.creates : Syscall → Option (List UInt8 × FileType × BitVec 16 × BitVec 16)
  | .open_ (some path) omode => if omode &&& oCreate ≠ 0 then some (path, .file, 0, 0) else none
  | .mkdir (some path) => some (path, .dir, 0, 0)
  | .mknod (some path) major minor => some (path, .dev, major, minor)
  | _ => none

/-- The entries of the inode cache that a call may hold at once. A walk holds two, and `sys_link`
makes its second one with the old inode held. `create` holds the directory and the new inode when
`dirlink` looks the name up again; it finds it only if the image is damaged, which is not excluded
here. -/
def Syscall.entries : Syscall → Nat
  | .open_ _ omode => if omode &&& oCreate ≠ 0 then 3 else 2
  | .mkdir _ | .mknod .. | .link .. => 3
  | .unlink _ | .chdir _ | .exec .. => 2
  | _ => 0

theorem Syscall.entries_of_creates {a : Syscall} (h : a.creates ≠ none) : a.entries = 3 := by
  cases a with
  | open_ path omode =>
    refine if_pos fun ho => h ?_
    cases path with
    | none => rfl
    | some path => exact if_neg fun h => h ho
  | mkdir | mknod => rfl
  | _ => exact absurd rfl h

/-- What has to be shown of the call `a` if it walks along a path, or makes or removes entries, from
the states in `P`. -/
structure Makers (c : Ctx) (φ : Prop) (W : State → Prop)
    (E : Stop → State → Prop) (b : Begun) (pt : Fin nproc → Files) (a : Syscall)
    (P : State → Prop) : Prop where
  inv : ∀ s, P s → Inv W b [] 0 0 pt pt s
  namei : 2 ≤ a.entries → ∀ path,
    Triple P (namei c path) (fun r => Inv W b [] (made r 0) 0 pt pt) (Ends E b)
  link : ∀ old new, a = .link old new →
    Triple P (sysLink c old new) (Done W b) (Ends E b)
  unlink : ∀ path, a = .unlink path →
    Triple P (sysUnlink c path) (Done W b) (Ends E b)
  create : ∀ path type major minor, a.creates = some (path, type, major, minor) →
    Triple P (create c path type major minor)
      (fun r s => Inv W b r.toList (made r 0) 0 pt pt s ∧
        (type = .file → ∀ ip ∈ r, φ → (s.icache ip).type ≠ some .dir)) (Ends E b)

theorem prog_inv (g : Guard c φ W E) (a : Syscall) (m : Makers c φ W E b pt a P)
    (hme : b.me = c.me) (hst : a.DropsCwd → b.drops) (hcwd : (pt c.me).cwd ≠ none)
    (hnp : ∀ q ∈ a.child, (pt q).Unused) :
    Triple P (a.prog c) (Done W b) (Ends E b) := by
  obtain ⟨cwd, hc⟩ := Option.ne_none_iff_exists'.1 hcwd
  have hnode : ∀ path type major minor, (∀ p, path = some p →
      a.creates = some (p, type, major, minor)) →
      Triple P (makeNode c path type major minor) (Done W b)
        (Ends E b) := fun path type major minor h =>
    g.makeNode_inv path type major minor m.inv fun p hp =>
      (m.create p type major minor (h p hp)).post fun _ _ h => h.1
  cases a with
  | dup fd => exact (g.sysDup_inv fd).pre m.inv
  | read fd n => exact (g.sysRead_inv fd n).pre m.inv
  | write fd src => exact (g.sysWrite_inv fd src).pre m.inv
  | close fd => exact (g.sysClose_inv fd).pre m.inv
  | fstat fd ok => exact (g.sysFstat_inv fd ok).pre m.inv
  | link old new => exact m.link old new rfl
  | unlink path => exact m.unlink path rfl
  | open_ path omode =>
    refine g.sysOpen_inv m.inv (m.namei (by simp only [Syscall.entries]; split <;> decide)) path omode
      fun p hp ho => ?_
    refine (m.create p .file 0 0 ?_).post fun _ _ h => ⟨h.1, h.2 rfl⟩
    subst hp
    exact if_pos ho
  | mkdir path => exact hnode path .dir 0 0 fun p hp => by subst hp; rfl
  | mknod path major minor => exact hnode path .dev major minor fun p hp => by subst hp; rfl
  | chdir path => exact g.sysChdir_inv m.inv (m.namei (Nat.le_refl 2)) path hc hme (hst trivial)
  | exec path reads r => exact g.sysExec_inv m.inv (m.namei (Nat.le_refl 2)) path reads r
  | pipe ok => exact (g.sysPipe_inv ok).pre m.inv
  | fork np => exact (g.sysFork_inv np hcwd hnp).pre m.inv
  | exit => exact (g.sysExit_inv hcwd hme (hst trivial)).pre m.inv

end

end Xv6.Fs
