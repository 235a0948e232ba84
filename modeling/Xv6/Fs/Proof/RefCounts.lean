import Xv6.Fs.Image
import Xv6.Fs.Proof.Makers

/-!
# Reference counts along runs

After each call, whatever path it took, the counts are the numbers of the references that are there.
This is the account of references without any other property; nothing is assumed about the image.
-/

namespace Xv6.Fs

open Lib

section
variable {b : Begun} {pt : Fin nproc → Files} {s s' : State}

theorem refsLock (c : Ctx) : LockGuard c (fun _ => True) fun _ _ => True where
  panic _ _ _ _ := trivial
  idup _ _ _ := Triple.trivially
  ilock _ _ _ := Triple.trivially
  iunlock _ _ _ := Triple.trivially
  iput _ _ _ := Triple.trivially

theorem refsGuard (c : Ctx) : Guard c False (fun _ => True) fun _ _ => True where
  toLockGuard := refsLock c
  tables _ _ _ _ _ := trivial
  readi _ _ _ _ _ := Triple.trivially
  writei _ _ _ _ _ := Triple.trivially

theorem refsMakers (c : Ctx) (n : Nat) : MakerGuard c False n (fun _ => True) fun _ _ => True where
  toLockGuard := refsLock c
  root _ := Triple.trivially
  dirlookup _ _ _ _ := Triple.trivially
  inum _ _ _ _ _ _ _ h := h.elim
  setFields _ _ _ _ _ _ := Triple.trivially
  ialloc _ _ := Triple.trivially
  dirlink _ _ _ _ _ _ := Triple.trivially
  isdirempty _ _ _ _ := Triple.trivially
  erase _ _ _ _ _ _ := Triple.trivially

/-- The counts are right when no call is running. -/
structure RefsOk (s : State) : Prop where
  inode : ∀ k, (s.icache k).ref = ↑(fileRefs s.ftable k + cwdRefs s.procs k)
  file : ∀ f, (s.ftable f).ref = ↑(slotRefs s.procs f)
  closed : ∀ f, (s.ftable f).ref = 0 → (s.ftable f).type = .none
  uniq : ∀ k k', 0 < (s.icache k).ref → 0 < (s.icache k').ref →
    (s.icache k).inum = (s.icache k').inum → k = k'
  coh : ∀ k, 0 < (s.icache k).ref → (s.icache k).valid = true →
    (s.icache k).type ≠ none ∧ (s.dinode (s.icache k).inum).type = (s.icache k).type ∧
      (s.dinode (s.icache k).inum).nlink = (s.icache k).nlink

theorem RefsOk.start (h : RefsOk s) (me : Fin nproc) (st : Prop) :
    RefInv ⟨s.toCore, me, st⟩ [] 0 0 s.procs s.procs { s with hist := [] } :=
  ⟨fun k => by rw [Multiset.count_zero, Nat.add_zero]; exact h.inode k,
    fun f => by rw [Multiset.count_zero, Nat.add_zero]; exact h.file f,
    h.closed, h.uniq, h.coh, nofun, rfl, fun _ _ => rfl, nofun, fun i h1 h2 => absurd h2 h1⟩

theorem RefInv.refsOk (h : RefInv b [] 0 0 s.procs s.procs s) : RefsOk s :=
  ⟨fun k => by rw [h.inode k, Multiset.count_zero, Nat.add_zero],
    fun f => by rw [h.file f, Multiset.count_zero, Nat.add_zero], h.closed, h.uniq, h.coh⟩

theorem boot_refsOk (im : Image) (init : Fin nproc) : RefsOk (boot im init) := by
  have hf : ∀ k, fileRefs (boot im init).ftable k = 0 := fun k => tally_eq_zero.2 fun _ => rfl
  have hs : ∀ f, slotRefs (boot im init).procs f = 0 := fun f =>
    tally_eq_zero.2 fun _ => tally_eq_zero.2 fun _ => rfl
  have hc : ∀ k, cwdRefs (boot im init).procs k = if k = 0 then 1 else 0 := by
    intro k
    unfold cwdRefs tally
    rw [Finset.sum_eq_single init]
    · simp [boot, eq_comm]
    · intro q _ hq
      simp [boot, hq]
    · simp
  refine ⟨fun k => ?_, fun f => ?_, fun _ _ => rfl, fun k k' h h' _ => ?_, nofun⟩
  · rw [hf, hc]
    show (if k = 0 then (1 : Int) else 0) = _
    split <;> simp
  · rw [hs]
    rfl
  · have h1 : ∀ k : Fin ninode, 0 < ((boot im init).icache k).ref → k = 0 := fun k hk => by
      by_contra hne
      simp [boot, hne] at hk
    rw [h1 k h, h1 k' h']

theorem MakerGuard.exec {a : Call} {φ : Prop} {n : Nat} {W W' : State → Prop}
    {E : Stop → State → Prop} (m : MakerGuard a.ctx φ n W E) (g : Guard a.ctx φ W' E)
    (hW : ∀ s, W s → W' s) (hn : a.sys.entries ≤ n) (h : RefsOk s) (hw : W { s with hist := [] })
    (ha : a.Enabled s) :
    (∀ r s', a.exec s = .ok r s' →
      (RefsOk s' ∧ HistOk ⟨s.toCore, a.ctx.me, a.sys.DropsCwd⟩ s') ∧ W' s') ∧
    ∀ e s', a.exec s = .error e s' → HistOk ⟨s.toCore, a.ctx.me, a.sys.DropsCwd⟩ s' ∧ E e s' := by
  obtain ⟨cwd, hcwd⟩ := Option.ne_none_iff_exists'.1 ha.1
  have hs : Inv W ⟨_, a.ctx.me, a.sys.DropsCwd⟩ [] 0 0 _ _ { s with hist := [] } :=
    ⟨h.start _ _, hw⟩
  have ht := prog_inv g a.sys (m.makers (b := ⟨s.toCore, a.ctx.me, a.sys.DropsCwd⟩) hW a.sys hn hcwd)
    rfl id ha.1 fun q hq => (ha.2 q hq).2
  refine ⟨fun r s' hx => ?_, fun e s' hx => ht.error hs hx⟩
  have h1 := ht.ok hs hx
  exact ⟨⟨h1.1.refsOk, h1.1.hist⟩, h1.2⟩

theorem exec_refs {a : Call} (h : RefsOk s) (ha : a.Enabled s) :
    (∀ r s', a.exec s = .ok r s' → RefsOk s' ∧ HistOk ⟨s.toCore, a.ctx.me, a.sys.DropsCwd⟩ s') ∧
      ∀ e s', a.exec s = .error e s' → HistOk ⟨s.toCore, a.ctx.me, a.sys.DropsCwd⟩ s' := by
  obtain ⟨hok, herr⟩ := (refsMakers a.ctx _).exec (refsGuard a.ctx) (fun _ => id)
    (Nat.le_refl _) h trivial ha
  exact ⟨fun r s' hx => (hok r s' hx).1, fun e s' hx => (herr e s' hx).1⟩

theorem run_refsOk {sb : Superblock} {init : Fin nproc} {im : Image} {as : List Call}
    (h : run (step sb init) (boot im init) as = some s) : RefsOk s := by
  refine run_inv (fun s a s' hs ha => ?_) (boot_refsOk im init) h
  obtain ⟨-, -, hen, r, hx⟩ := step_eq_some.1 ha
  exact ((exec_refs hs hen).1 r s' hx).1

end

/-- **Reference counts.** In every state between calls, whatever the image and the calls before it,
`ip->ref` of every cache entry is the number of open files that refer to it plus the number of
processes whose working directory it is, and `f->ref` of every file is the number of descriptors
that hold it. A call changes the type of an inode to `0` only by freeing it in `iput`, also if the
call stops; at that moment the inode has no links, no open file refers to it, and no process has it
as its working directory, other than the one that is giving it up in `chdir` or `exit`. -/
theorem reference_counts (sb : Superblock) (init : Fin nproc) (im : Image) (as : List Call)
    (s : State) (h : run (step sb init) (boot im init) as = some s) :
    (∀ k, (s.icache k).ref = fileRefs s.ftable k + cwdRefs s.procs k) ∧
      (∀ f, (s.ftable f).ref = slotRefs s.procs f) ∧
      ∀ a : Call, a.Enabled s → ∀ s', (∃ r, a.exec s = .ok r s') ∨ (∃ e, a.exec s = .error e s') →
        (∀ i, (s.dinode i).type ≠ none → (s'.dinode i).type = none →
          ∃ m, (.free i, m) ∈ s'.hist) ∧
        ∀ m ∈ s'.hist, FreeOk a.ctx.me a.sys.DropsCwd m := by
  have hs := run_refsOk h
  refine ⟨fun k => ?_, hs.file, fun a ha s' hx => ?_⟩
  · have := hs.inode k
    push_cast at this
    exact this
  · have hk : HistOk ⟨s.toCore, a.ctx.me, a.sys.DropsCwd⟩ s' := by
      rcases hx with ⟨r, hr⟩ | ⟨e, he⟩
      · exact ((exec_refs hs ha).1 r s' hr).2
      · exact (exec_refs hs ha).2 e s' he
    exact ⟨hk.freed, hk.ok⟩

/-- A file that is created and unlinked while it is open: its entry still has the reference of the
open file, and it is not freed. -/
theorem reference_counts_unlinked :
    ∃ s, run (step mkfsSb 0) (boot emptyImage 0)
        [plainCall 0 (.open_ (some [120]) (oCreate ||| oRdwr)), plainCall 0 (.unlink (some [120]))]
        = some s ∧ ((s.dinode 2).type = some .file ∧ (s.dinode 2).nlink = 0) ∧
      (s.icache 1).ref = fileRefs s.ftable 1 + cwdRefs s.procs 1 := by
  have h : (run (step mkfsSb 0) (boot emptyImage 0)
      [plainCall 0 (.open_ (some [120]) (oCreate ||| oRdwr)),
        plainCall 0 (.unlink (some [120]))]).map
      (fun s => ((s.dinode 2).type, (s.dinode 2).nlink)) = some (some .file, 0) := by decide +kernel
  obtain ⟨s, hs, hd⟩ := Option.map_eq_some_iff.1 h
  exact ⟨s, hs, Prod.mk.inj hd, (reference_counts mkfsSb 0 emptyImage _ s hs).1 1⟩

end Xv6.Fs
