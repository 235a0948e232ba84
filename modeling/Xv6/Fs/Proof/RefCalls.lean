import Xv6.Fs.Image
import Xv6.Fs.Proof.Refs

/-!
# References along system calls

How the functions of the file table and the system calls move references: after each call, whatever
path it took, the counts are the numbers of the references that are there.
-/

namespace Xv6.Fs

open Lib Function

variable {q : Fin nproc} {f : Fin nfile}

/-- Descriptor `fd` of process `q` is set to `o`. -/
def install (pr : Fin nproc → Files) (q : Fin nproc) (fd : Fin nofile) (o : Option (Fin nfile)) :
    Fin nproc → Files :=
  update pr q ⟨(pr q).cwd, update (pr q).ofile fd o⟩

def setCwd (pr : Fin nproc → Files) (q : Fin nproc) (o : Option (Fin ninode)) : Fin nproc → Files :=
  update pr q ⟨o, (pr q).ofile⟩

section
variable {pr : Fin nproc → Files} {q q' : Fin nproc} {fd : Fin nofile}

theorem install_cwd (o : Option (Fin nfile)) : (install pr q fd o q').cwd = (pr q').cwd := by
  by_cases h : q' = q
  · subst h
    simp [install]
  · simp [install, h]

theorem install_ofile (o : Option (Fin nfile)) {fd' : Fin nofile} (h : q' ≠ q ∨ fd' ≠ fd) :
    (install pr q fd o q').ofile fd' = (pr q').ofile fd' := by
  by_cases hq : q' = q
  · subst hq
    simp [install, h.resolve_left (fun h => h rfl)]
  · simp [install, hq]

theorem cwdRefs_install (o : Option (Fin nfile)) (k : Fin ninode) :
    cwdRefs (install pr q fd o) k = cwdRefs pr k := by
  have h := tally_update (fun x : Files => if x.cwd = some k then 1 else 0) pr q
    ⟨(pr q).cwd, update (pr q).ofile fd o⟩
  exact Nat.add_right_cancel h

theorem slotRefs_install (o : Option (Fin nfile)) (f : Fin nfile) :
    slotRefs (install pr q fd o) f + (if (pr q).ofile fd = some f then 1 else 0) =
      slotRefs pr f + if o = some f then 1 else 0 := by
  have h := tally_update (fun x : Files => tally (fun o => if o = some f then 1 else 0) x.ofile) pr q
    ⟨(pr q).cwd, update (pr q).ofile fd o⟩
  have h' := tally_update (fun o => if o = some f then 1 else 0) (pr q).ofile fd o
  dsimp only at h h'
  unfold slotRefs install
  omega

theorem cwdRefs_setCwd (o : Option (Fin ninode)) (k : Fin ninode) :
    cwdRefs (setCwd pr q o) k + (if (pr q).cwd = some k then 1 else 0) =
      cwdRefs pr k + if o = some k then 1 else 0 :=
  tally_update (fun x : Files => if x.cwd = some k then 1 else 0) pr q ⟨o, (pr q).ofile⟩

theorem slotRefs_setCwd (o : Option (Fin ninode)) (f : Fin nfile) :
    slotRefs (setCwd pr q o) f = slotRefs pr f := by
  have h := tally_update (fun x : Files => tally (fun o => if o = some f then 1 else 0) x.ofile) pr q
    ⟨o, (pr q).ofile⟩
  exact Nat.add_right_cancel h

end

section
variable {b : Begun} {vs vs' : List (Fin ninode)}
  {tmp : Multiset (Fin ninode)} {tf : Multiset (Fin nfile)} {pr pt : Fin nproc → Files}
  {s s' : State}

namespace RefInv

/-! ## Moving references between the call and the process table -/

theorem reslot {fd : Fin nofile} {o : Option (Fin nfile)} {tf' : Multiset (Fin nfile)}
    (h : RefInv b vs tmp tf pr pt s) (ho : ∀ f, tf'.count f + (if o = some f then 1 else 0) =
      tf.count f + if (pr q).ofile fd = some f then 1 else 0) :
    RefInv b vs tmp tf' (install pr q fd o) pt s :=
  { h with
    inode := fun k => by rw [cwdRefs_install]; exact h.inode k
    file := fun f => by
      have h1 := @slotRefs_install pr q fd o f
      have h2 := ho f
      rw [h.file f]
      omega
    others := fun q' hq => by rw [install_cwd]; exact h.others q' hq }

theorem toSlot {fd : Fin nofile} (h : RefInv b vs tmp (f ::ₘ tf) pr pt s)
    (hfd : (pr q).ofile fd = none) : RefInv b vs tmp tf (install pr q fd (some f)) pt s :=
  h.reslot fun f' => by simp [hfd, Multiset.count_cons, eq_comm]

theorem ofSlot {fd : Fin nofile} (h : RefInv b vs tmp tf pr pt s)
    (hfd : (pr q).ofile fd = some f) : RefInv b vs tmp (f ::ₘ tf) (install pr q fd none) pt s :=
  h.reslot fun f' => by simp [hfd, Multiset.count_cons, eq_comm]

theorem toCwd {k : Fin ninode} {pt' : Fin nproc → Files}
    (h : RefInv b vs (k ::ₘ tmp) tf pr pt s) (hq : (pr q).cwd = none)
    (ho : ∀ q', (q' = b.me → ¬ b.drops) → (pt' q').cwd = (setCwd pr q (some k) q').cwd) :
    RefInv b vs tmp tf (setCwd pr q (some k)) pt' { s with procs := pt' } := by
  refine ⟨fun k' => ?_, fun f => ?_, h.closed, h.uniq, h.coh, h.held, rfl, ho, h.hist.ok,
    h.hist.freed⟩
  · have h1 := h.inode k'
    have h2 := @cwdRefs_setCwd pr q (some k) k'
    rw [hq, if_neg nofun] at h2
    rw [Multiset.count_cons] at h1
    simp only [Option.some.injEq, eq_comm (a := k)] at h2
    dsimp only
    omega
  · rw [slotRefs_setCwd]
    exact h.file f

theorem ofCwd {k : Fin ninode} (h : RefInv b vs tmp tf pr pt s)
    (hq : (pr b.me).cwd = some k) (hst : b.drops) :
    RefInv b vs (k ::ₘ tmp) tf (setCwd pr b.me none) pt s :=
  { h with
    inode := fun k' => by
      have h1 := h.inode k'
      have h2 := @cwdRefs_setCwd pr b.me none k'
      rw [hq, if_neg nofun (c := none = some k')] at h2
      rw [h1, Multiset.count_cons]
      simp only [Option.some.injEq, eq_comm (a := k)] at h2
      omega
    file := fun f => by rw [slotRefs_setCwd]; exact h.file f
    others := fun q' hq' => by
      have hne : q' ≠ b.me := fun heq => hq' heq hst
      simpa [setCwd, hne] using h.others q' hq' }

end RefInv

variable {x : File} {E : Stop → State → Prop}

/-! ## The file table -/

theorem RefInv.setFile {tmp' : Multiset (Fin ninode)} {tf' : Multiset (Fin nfile)}
    (h : RefInv b vs tmp tf pr pt s) (hx : x.ref = ↑(slotRefs pr f + tf'.count f))
    (htf : ∀ f' ≠ f, tf'.count f' = tf.count f') (hc : x.ref = 0 → x.type = .none)
    (htmp : ∀ k, (if 0 < x.ref ∧ x.type = .inode ∧ x.ip = k then 1 else 0) + tmp'.count k =
      (if 0 < (s.ftable f).ref ∧ (s.ftable f).type = .inode ∧ (s.ftable f).ip = k then 1 else 0) +
        tmp.count k) :
    RefInv b vs tmp' tf' pr pt { s with ftable := update s.ftable f x } := by
  refine ⟨fun k => ?_, fun f' => ?_, fun f' => ?_, h.uniq, h.coh, h.held, h.procs, h.others,
    h.hist.ok, h.hist.freed⟩
  · have h1 := h.inode k
    have h2 := htmp k
    have h3 := tally_update
      (fun x : File => if 0 < x.ref ∧ x.type = .inode ∧ x.ip = k then 1 else 0) s.ftable f x
    dsimp only at h3 ⊢
    unfold fileRefs at h1 ⊢
    omega
  · by_cases hf : f' = f
    · subst hf
      dsimp only
      rw [update_self, hx]
    · dsimp only
      rw [update_of_ne hf, htf f' hf]
      exact h.file f'
  · by_cases hf : f' = f
    · subst hf
      dsimp only
      rw [update_self]
      exact hc
    · dsimp only
      rw [update_of_ne hf]
      exact h.closed f'

theorem getFile_spec {P : State → Prop} (f : Fin nfile) :
    Triple P (getFile f) (fun x s => P s ∧ x = s.ftable f) E :=
  .bind (Q := fun a s => P s ∧ a = s) (.get fun _ h => ⟨h, rfl⟩)
    fun _ => .pure fun _ h => ⟨h.1, by rw [h.2]⟩

abbrev State.setFile (s : State) (f : Fin nfile) (x : File) : State :=
  { s with ftable := update s.ftable f x }

theorem filealloc_spec (s : State) :
    Triple (· = s) filealloc
      (fun r s' => match r with
        | some f => (s.ftable f).ref = 0 ∧ s' = s.setFile f { s.ftable f with ref := 1 }
        | none => s' = s) E := by
  refine .read_bind rfl ?_
  split
  · next f hf =>
    have hz : (s.ftable f).ref = 0 := by simpa using List.find?_some hf
    exact .bind (Q := fun _ s' => s' = s.setFile f { s.ftable f with ref := 1 })
      (.modify fun s hs => by rw [hs]) fun _ => .pure fun _ h => ⟨hz, h⟩
  · exact .pure fun _ h => h

theorem RefInv.allocFile (h : RefInv b vs tmp tf pr pt s) (hz : (s.ftable f).ref = 0) :
    RefInv b vs tmp (f ::ₘ tf) pr pt (s.setFile f { s.ftable f with ref := 1 }) := by
  have ht := h.closed f hz
  refine h.setFile ?_ ?_ nofun ?_
  · have := h.file f
    rw [Multiset.count_cons_self]
    show (1 : Int) = _
    omega
  · exact fun f' hf' => Multiset.count_cons_of_ne hf' _
  · intro k
    simp [ht]

theorem RefInv.dupFile (h : RefInv b vs tmp tf pr pt s) (hx : ¬ (s.ftable f).ref < 1) :
    RefInv b vs tmp (f ::ₘ tf) pr pt
      (s.setFile f { s.ftable f with ref := (s.ftable f).ref + 1 }) := by
  have h1 := h.file f
  refine h.setFile ?_ (fun f' hf' => Multiset.count_cons_of_ne hf' _) ?_ fun k => ?_
  · rw [Multiset.count_cons_self]
    show (s.ftable f).ref + 1 = _
    omega
  · intro h0
    have : (s.ftable f).ref + 1 = 0 := h0
    omega
  · have h2 : 0 < (s.ftable f).ref + 1 ↔ 0 < (s.ftable f).ref := by omega
    simp only [h2]

theorem RefInv.dropFile (h : RefInv b vs tmp (f ::ₘ tf) pr pt s) (hx : (s.ftable f).ref - 1 > 0) :
    RefInv b vs tmp tf pr pt
      (s.setFile f { s.ftable f with ref := (s.ftable f).ref - 1 }) := by
  have h1 := h.file f
  rw [Multiset.count_cons_self] at h1
  refine h.setFile ?_ (fun f' hf' => (Multiset.count_cons_of_ne hf' _).symm) ?_ fun k => ?_
  · show (s.ftable f).ref - 1 = _
    omega
  · intro h0
    have : (s.ftable f).ref - 1 = 0 := h0
    omega
  · have h2 : 0 < (s.ftable f).ref - 1 ↔ 0 < (s.ftable f).ref := by omega
    simp only [h2]

theorem RefInv.closeFile (h : RefInv b vs tmp (f ::ₘ tf) pr pt s)
    (hx : ¬ (s.ftable f).ref - 1 > 0) :
    RefInv b vs (if (s.ftable f).type = .inode then (s.ftable f).ip ::ₘ tmp else tmp) tf pr pt
      (s.setFile f { s.ftable f with ref := 0, type := .none }) := by
  have h1 := h.file f
  rw [Multiset.count_cons_self] at h1
  refine h.setFile ?_ (fun f' hf' => (Multiset.count_cons_of_ne hf' _).symm) (fun _ => rfl)
    fun k => ?_
  · show (0 : Int) = _
    omega
  · have hpos : 0 < (s.ftable f).ref := by omega
    by_cases ht : (s.ftable f).type = .inode
    · simp [ht, hpos, Multiset.count_cons, eq_comm (a := k), add_comm]
    · simp [ht]

theorem RefInv.changeFile (h : RefInv b vs tmp tf pr pt s)
    (hx : x.ref = (s.ftable f).ref ∧ x.type = (s.ftable f).type ∧ x.ip = (s.ftable f).ip) :
    RefInv b vs tmp tf pr pt (s.setFile f x) := by
  obtain ⟨h1, h2, h3⟩ := hx
  refine h.setFile ?_ (fun _ _ => rfl) ?_ fun k => ?_
  · rw [h1]
    exact h.file f
  · rw [h1, h2]
    exact h.closed f
  · rw [h1, h2, h3]

theorem RefInv.swapFile {f' : Fin nfile} (h : RefInv b vs tmp (f ::ₘ f' ::ₘ tf) pr pt s) :
    RefInv b vs tmp (f' ::ₘ f ::ₘ tf) pr pt s := by
  rw [Multiset.cons_swap]
  exact h

theorem RefInv.toPipe (h : RefInv b vs tmp tf pr pt s) (hf : f ∈ tf)
    (ht : (s.ftable f).type = .none) (w : Bool) (p : Nat) :
    RefInv b vs tmp tf pr pt (s.setFile f ((s.ftable f).toPipe w p)) := by
  have h1 := h.file f
  have h2 := Multiset.count_pos.2 hf
  refine h.setFile (h.file f) (fun _ _ => rfl) (fun h0 => ?_) fun k => ?_
  · have : (s.ftable f).ref = 0 := h0
    omega
  · simp [File.toPipe, ht]

theorem RefInv.setProcs {pt' : Fin nproc → Files} (h : RefInv b vs tmp tf pr pt s)
    (ho : ∀ q, (q = b.me → ¬ b.drops) → (pt' q).cwd = (pr q).cwd) :
    RefInv b vs tmp tf pr pt' { s with procs := pt' } :=
  ⟨h.inode, h.file, h.closed, h.uniq, h.coh, h.held, rfl, ho, h.hist.ok, h.hist.freed⟩

/-! ## Creating and removing entries -/

theorem keeps_isdiremptyFrom (c : Ctx) (dp : Fin ninode) (size : Nat) :
    ∀ turns off, Calm Same (isdiremptyFrom c dp size turns off)
  | 0, _ => .pure
  | turns + 1, _ => .ite ((keeps_readi c dp _ _).bind fun _ => .ite (keeps_panic (by decide))
      (.ite .pure (keeps_isdiremptyFrom c dp size turns _))) .pure

theorem keeps_isdirempty (c : Ctx) (dp : Fin ninode) : Calm Same (isdirempty c dp) :=
  (keeps_getInode dp).bind fun _ => keeps_isdiremptyFrom c dp _ _ _

/-- The references held after `create` with the result `r`. -/
def made (r : Option (Fin ninode)) (tmp : Multiset (Fin ninode)) : Multiset (Fin ninode) :=
  match r with
  | some ip => ip ::ₘ tmp
  | none => tmp

theorem RefInv.done (h : RefInv b [] 0 0 pt pt s) :
    RefInv b [] 0 0 s.procs s.procs s := by
  rw [h.procs]
  exact h

end

end Xv6.Fs
