import Xv6.Fs.SharedWrite
import Xv6.Fs.Proof.FileBytes

/-!
# Writes through one open file do not overwrite each other

A turn of `filewrite` puts its bytes where `f->off` points and moves `f->off` behind them, or it
changes nothing (`filewriteTurn_spec`). So the turns of all calls that succeed fill one range of the
file without gaps, in the order in which they happen, and each call finds its bytes in it in their
order.
-/

namespace Xv6.Fs

open Lib Function

/-- The file `f` is open on a regular file that is in order, and its inode is not locked. -/
structure Shareable (sb : Superblock) (f : Fin nfile) (s : State) : Prop where
  type : (s.ftable f).type = .inode
  ref : 0 < (s.icache (s.ftable f).ip).ref
  unlocked : (s.icache (s.ftable f).ip).lock = none
  own : s.vol.Own sb
  live : s.vol.Live sb (s.icache (s.ftable f).ip).inum
  file : (s.dinode (s.icache (s.ftable f).ip).inum).type = some .file
  sync : (s.icache (s.ftable f).ip).valid = true →
    s.dinode (s.icache (s.ftable f).ip).inum = (s.icache (s.ftable f).ip).toDinode
  sized : ∀ bn, bn * bsize < (s.dinode (s.icache (s.ftable f).ip).inum).size → bn < maxFile ∧
    s.vol.addr (s.icache (s.ftable f).ip).inum (blockSlot bn) ≠ 0

/-- The inode of an open file. -/
def fileInum (f : Fin nfile) (s : State) : Nat := (s.icache (s.ftable f).ip).inum

section
variable {c : Ctx} {f : Fin nfile} {s s' : State}

theorem Shareable.locked (h : Shareable c.sb f s) : Ready c.sb (s.locked c.me (s.ftable f).ip)
    (s.ftable f).ip := by
  have hent : (s.locked c.me (s.ftable f).ip).icache (s.ftable f).ip =
      ((s.icache (s.ftable f).ip).setLock (some c.me)).load
        (s.dinode (s.icache (s.ftable f).ip).inum) := update_self ..
  refine ⟨h.own, ?_, ?_, ?_⟩
  · rw [hent]
    exact h.live
  · rw [hent]
    rfl
  · rw [hent]
    exact h.sized

/-- `f->off += n`. -/
def State.moveOff (s : State) (f : Fin nfile) (n : Nat) : State :=
  { s with ftable := update s.ftable f { s.ftable f with off := (s.ftable f).off + n } }

theorem advance_iunlock {ip : Fin ninode} (r : Int) (hip : (s.ftable f).ip = ip)
    (ht : (s.ftable f).type = .inode) (h : Ready c.sb s ip) (hr : 0 < (s.icache ip).ref)
    (hfile : (s.icache ip).type = some .file) :
    Triple (· = s) (do advance f r; iunlock c ip; return r)
      (fun r' s' => r' = r ∧ Shareable c.sb f s' ∧ fileInum f s' = (s.icache ip).inum ∧
        s'.contents = s.contents ∧ (s'.ftable f).off = (s.ftable f).off + r.toNat)
      fun _ _ => True := by
  refine .bind (Q := fun _ s' => s' = s.moveOff f r.toNat) ?_ fun _ => ?_
  · refine .ite (fun _ => .modify fun _ hs => by rw [hs]; rfl) fun hr0 => .pure fun s' hs => ?_
    have h0 : r.toNat = 0 := by omega
    rw [State.moveOff, h0, Nat.add_zero, update_eq_self, hs]
  · refine .bind ((iunlock_spec c _ _).onError fun _ _ _ => trivial) fun _ => .pure ?_
    rintro _ ⟨rfl, -, -⟩
    have hd : s.dinode (s.icache ip).inum = (s.icache ip).toDinode := h.sync
    refine ⟨rfl, ⟨?_, ?_, ?_, h.own, ?_, ?_, ?_, ?_⟩, ?_, rfl, ?_⟩
    all_goals simp only [State.moveOff, update_self, Inode.setLock, fileInum, hip]
    · exact ht
    · exact hr
    · exact h.live
    · rw [hd]
      exact hfile
    · exact fun _ => hd
    · rw [hd]
      exact h.sized

/-- What a turn has done: nothing, or it has put the bytes where `f->off` pointed to. -/
structure Turned (sb : Superblock) (f : Fin nfile) (src : List UInt8) (s : State) (r : Int)
    (s' : State) : Prop where
  shareable : Shareable sb f s'
  inum : fileInum f s' = fileInum f s
  off : (s'.ftable f).off = (s.ftable f).off + r.toNat
  done : r = -1 ∧ s'.contents (fileInum f s) = s.contents (fileInum f s) ∨
    r = src.length ∧ (s.ftable f).off ≤ (s.contents (fileInum f s)).length ∧
      s'.contents (fileInum f s) = splice (s.contents (fileInum f s)) (s.ftable f).off src

theorem filewriteTurn_spec (h : Shareable c.sb f s) (hsb : c.sb.size ≤ 2 ^ 32) (left : List UInt8) :
    Triple (· = s) (filewriteTurn c f left)
      (Turned c.sb f (left.take (turnLength left)) s) fun _ _ => True := by
  refine .bind (Q := fun x s' => s' = s ∧ x = s.ftable f) (.bind (Q := fun a s' => s' = s ∧ a = s)
    (.get fun _ hs => ⟨hs, hs⟩) fun a => .pure fun s' hs => ⟨hs.1, by rw [hs.2]⟩) fun x =>
      .of_pre (fun _ hs => hs.2) ?_
  rintro rfl
  refine .pre ?_ fun _ hs => hs.1
  refine .bind ((ilock_spec c (s.ftable f).ip s fun hv => ⟨h.sync hv, ?_, h.live.1⟩).conseq
    (fun _ => id) (fun _ _ hs => hs.1) fun _ _ _ => trivial) fun _ => ?_
  · rw [← show (s.icache (s.ftable f).ip).toDinode.type = _ from rfl, ← h.sync hv, h.file]
    nofun
  generalize hs₁ : s.locked c.me (s.ftable f).ip = s₁
  have hready : Ready c.sb s₁ (s.ftable f).ip := hs₁ ▸ h.locked
  have hft : s₁.ftable = s.ftable := hs₁ ▸ rfl
  have hcont : s₁.contents = s.contents := hs₁ ▸ rfl
  have hent : s₁.icache (s.ftable f).ip = ((s.icache (s.ftable f).ip).setLock (some c.me)).load
      (s.dinode (s.icache (s.ftable f).ip).inum) := by
    rw [← hs₁]
    exact update_self ..
  have htype : (s₁.icache (s.ftable f).ip).type = some .file := by
    rw [hent]
    exact h.file
  have hinum : (s₁.icache (s.ftable f).ip).inum = fileInum f s := by
    rw [hent]
    rfl
  have href : 0 < (s₁.icache (s.ftable f).ip).ref := by
    rw [hent]
    exact h.ref
  have hd : (s₁.icache (s.ftable f).ip).type ≠ some .dev := by
    rw [htype]
    nofun
  by_cases hbad : BadWrite (s₁.icache (s.ftable f).ip).size (s.ftable f).off
      (left.take (turnLength left)).length
  · refine .bind (writei_bad hd hbad) fun r => .of_pre (fun _ hs => hs.2) ?_
    rintro rfl
    refine ((advance_iunlock (-1) (by rw [hft]) (by rw [hft]; exact h.type) hready href htype).pre
      fun _ hs => hs.1).post ?_
    rintro _ s' ⟨rfl, h1, h2, h3, h4⟩
    exact ⟨h1, h2.trans hinum, by rw [h4, hft], .inl ⟨rfl, by rw [h3, hcont]⟩⟩
  · refine .bind ((writei_good hready.own hready.live hsb hready.sync hready.sized hd hbad).onError
      fun _ _ _ => trivial) fun r => .of_state fun s₂ ⟨hw, hr⟩ => ?_
    subst hr
    unfold BadWrite at hbad
    have hself : s₂.icache (s.ftable f).ip = { s₁.icache (s.ftable f).ip with
        toDinode := s₂.dinode (s₁.icache (s.ftable f).ip).inum } := by
      rw [hw.entry, update_self]
    refine (advance_iunlock _ (by rw [hw.ftable, hft]) (by rw [hw.ftable, hft]; exact h.type)
      (hw.ready hready (by omega) (by omega)) (by rw [hself]; exact href) ?_).post ?_
    · rw [hself, hw.self, hready.sync]
      exact htype
    · rintro _ s' ⟨rfl, h1, h2, h3, h4⟩
      have hsize := hready.contents_length
      have hbytes := hw.contents hready (by omega)
      rw [hinum, hcont] at hsize hbytes
      refine ⟨h1, ?_, by rw [h4, hw.ftable, hft], .inr ⟨rfl, by omega, by rw [h3, hbytes]⟩⟩
      rw [h2, hself]
      exact hinum

end

/-! ## Steps of the calls -/

/-- The bytes of the chunks in order. -/
def bytesOf {ι : Type} (es : List (Chunk ι)) : List UInt8 := es.flatMap Chunk.bytes

@[simp]
theorem bytesOf_append {ι : Type} (es es' : List (Chunk ι)) :
    bytesOf (es ++ es') = bytesOf es ++ bytesOf es' := List.flatMap_append ..

@[simp]
theorem bytesOf_singleton {ι : Type} (ch : Chunk ι) : bytesOf [ch] = ch.bytes :=
  List.flatMap_singleton ..

section
variable {ι : Type} [DecidableEq ι] {ctx : ι → Ctx} {f : Fin nfile} {src : ι → List UInt8}
  {s s' : Writers ι} {i : ι}

/-- The chunks of one process. -/
def mine (i : ι) (es : List (Chunk ι)) : List (Chunk ι) := es.filter fun ch => ch.who = i

/-- What a step of the call `i` can be: the state after it and the bytes that it puts into the
file. -/
inductive Moved (ctx : ι → Ctx) (f : Fin nfile) (src : ι → List UInt8) (s : Writers ι) (i : ι) :
    Writers ι → List (Chunk ι) → Prop
  | refuse (h : s.call i = .start) : Moved ctx f src s i (s.set i (.returned (-1))) []
  | enter (h : s.call i = .start) : Moved ctx f src s i (s.set i (.writing (src i))) []
  | finish (h : s.call i = .writing []) :
    Moved ctx f src s i (s.set i (.returned (src i).length)) []
  | fail {left : List UInt8} {r : Int} {fs : State} (h : s.call i = .writing left)
    (ht : filewriteTurn (ctx i) f left s.fs = .ok r fs) (hr : r < 0) :
    Moved ctx f src s i ({ s with fs }.set i (.returned (-1))) []
  | place {left : List UInt8} {fs : State} (h : s.call i = .writing left) (hne : left ≠ [])
    (ht : filewriteTurn (ctx i) f left s.fs = .ok (turnLength left) fs) :
    Moved ctx f src s i ({ s with fs }.set i (.writing (left.drop (turnLength left))))
      [⟨i, (s.fs.ftable f).off, left.take (turnLength left)⟩]

theorem Writers.moved (h : s.step ctx f src i = some s') :
    Moved ctx f src s i s' (s.chunks ctx f i) := by
  unfold Writers.step at h
  unfold Writers.chunks
  cases hc : s.call i with
  | start =>
    rw [hc] at h
    dsimp only at h ⊢
    split at h
    · cases h
      exact .refuse hc
    · split at h
      · cases h
        exact .enter hc
      · cases h
  | writing left =>
    rw [hc] at h
    dsimp only at h ⊢
    split at h
    · next h0 =>
      cases h
      rw [if_pos h0]
      rw [List.length_eq_zero_iff.1 h0] at hc
      exact .finish hc
    · next h0 =>
      rw [if_neg h0]
      cases ht : filewriteTurn (ctx i) f left s.fs with
      | ok r fs =>
        rw [ht] at h
        dsimp only at h ⊢
        split at h
        · next hr =>
          cases h
          rw [if_pos hr]
          exact .fail hc ht hr
        · next hr =>
          split at h
          · cases h
          · next hr' =>
            cases h
            obtain rfl : r = turnLength left := by simpa using hr'
            rw [if_neg hr]
            exact .place hc (fun h => h0 (by rw [h]; rfl)) ht
      | error e fs =>
        rw [ht] at h
        cases h
  | returned r =>
    rw [hc] at h
    cases h

/-- How far a call has come, and its chunks so far. -/
def CallOk (src : List UInt8) (es : List (Chunk ι)) : Progress → Prop
  | .start => es = []
  | .writing left => bytesOf es ++ left = src ∧
    (src.length ≤ maxWrite → es = [] ∨ left = [] ∧ es.length = 1)
  | .returned r => r = -1 ∨ r = src.length ∧ bytesOf es = src ∧
    (src.length ≤ maxWrite → es.length ≤ 1)

/-- The file is the old one with the chunks written in order. -/
structure SharedInv (sb : Superblock) (f : Fin nfile) (src : ι → List UInt8) (s₀ : State)
    (es : List (Chunk ι)) (s : Writers ι) : Prop where
  file : Shareable sb f s.fs
  inum : fileInum f s.fs = fileInum f s₀
  off : (s.fs.ftable f).off = (s₀.ftable f).off + (bytesOf es).length
  room : es ≠ [] → (s₀.ftable f).off ≤ (s₀.contents (fileInum f s₀)).length
  contents : s.fs.contents (fileInum f s₀) =
    splice (s₀.contents (fileInum f s₀)) (s₀.ftable f).off (bytesOf es)
  offs : ∀ es₁ ch es₂, es = es₁ ++ ch :: es₂ →
    ch.off = (s₀.ftable f).off + (bytesOf es₁).length
  calls : ∀ i, CallOk (src i) (mine i es) (s.call i)

variable {sb : Superblock} {s₀ : State} {es : List (Chunk ι)}

theorem mine_append (i : ι) (es es' : List (Chunk ι)) :
    mine i (es ++ es') = mine i es ++ mine i es' := List.filter_append ..

namespace SharedInv

variable {fs : State} {p : Progress}

section
variable (h : SharedInv sb f src s₀ es s)
include h

theorem set_calls {new : List (Chunk ι)} (hnew : ∀ ch ∈ new, ch.who = i)
    (hp : CallOk (src i) (mine i es ++ new) p) (j : ι) :
    CallOk (src j) (mine j (es ++ new)) (({ s with fs }.set i p).call j) := by
  by_cases hj : j = i
  · subst hj
    have hmine : mine j new = new := List.filter_eq_self.2 fun ch hch => by simpa using hnew ch hch
    rw [mine_append, hmine]
    simpa [Writers.set] using hp
  · have hmine : mine j new = [] := List.filter_eq_nil_iff.2 fun ch hch => by
      simpa [hnew ch hch] using fun h => hj h.symm
    rw [mine_append, hmine, List.append_nil]
    simpa [Writers.set, hj] using h.calls j

theorem quiet (hfs : Shareable sb f fs)
    (hinum : fileInum f fs = fileInum f s₀) (hoff : (fs.ftable f).off = (s.fs.ftable f).off)
    (hcont : fs.contents (fileInum f s₀) = s.fs.contents (fileInum f s₀))
    (hp : CallOk (src i) (mine i es) p) :
    SharedInv sb f src s₀ (es ++ []) ({ s with fs }.set i p) := by
  have hcalls : ∀ j, CallOk (src j) (mine j (es ++ [])) (({ s with fs }.set i p).call j) :=
    h.set_calls nofun (by rwa [List.append_nil])
  rw [List.append_nil] at hcalls ⊢
  exact ⟨hfs, hinum, hoff.trans h.off, h.room, hcont.trans h.contents, h.offs, hcalls⟩

theorem place {left : List UInt8} (hc : s.call i = .writing left) (hne : left ≠ [])
    (ht : Turned sb f (left.take (turnLength left)) s.fs (turnLength left) fs) :
    SharedInv sb f src s₀ (es ++ [⟨i, (s.fs.ftable f).off, left.take (turnLength left)⟩])
      ({ s with fs }.set i (.writing (left.drop (turnLength left)))) := by
  have hlen : (left.take (turnLength left)).length = turnLength left := by
    simp [turnLength]
  obtain ⟨-, hroom, hbytes⟩ := ht.done.resolve_left fun hr => by
    have := hr.1
    omega
  rw [h.inum, h.contents] at hroom hbytes
  -- the first chunk shows that `f->off` was not behind the end of the file
  have hroom₀ : (s₀.ftable f).off ≤ (s₀.contents (fileInum f s₀)).length := by
    by_cases hes : es = []
    · subst hes
      rw [h.off, show bytesOf ([] : List (Chunk ι)) = [] from rfl, splice_nil] at hroom
      simpa using hroom
    · exact h.room hes
  have hcall := h.calls i
  rw [hc] at hcall
  refine ⟨ht.shareable, ht.inum.trans h.inum, ?_, fun _ => hroom₀, ?_, ?_, h.set_calls ?_ ⟨?_, ?_⟩⟩
  · show (fs.ftable f).off = _
    rw [ht.off, h.off]
    simp [hlen, Nat.add_assoc]
  · show fs.contents _ = _
    rw [hbytes, h.off, splice_append hroom₀]
    simp
  · intro es₁ ch es₂ heq
    rcases List.eq_nil_or_concat es₂ with rfl | ⟨es₃, ch', rfl⟩
    · obtain ⟨rfl, hch⟩ := List.append_inj' heq rfl
      cases hch
      exact h.off
    · rw [List.concat_eq_append, ← List.cons_append, ← List.append_assoc] at heq
      exact h.offs es₁ ch es₃ (List.append_inj' heq rfl).1
  · intro ch hch
    rw [List.mem_singleton.1 hch]
  · rw [bytesOf_append, bytesOf_singleton, List.append_assoc, List.take_append_drop]
    exact hcall.1
  · intro hle
    refine .inr ?_
    obtain hes | ⟨rfl, -⟩ := hcall.2 hle
    · have hleft : left = src i := by
        rw [← hcall.1, hes]
        rfl
      rw [hes]
      refine ⟨List.drop_eq_nil_of_le ?_, rfl⟩
      rw [hleft, turnLength, Nat.min_eq_left hle]
    · exact absurd rfl hne

theorem step (hsb : sb.size ≤ 2 ^ 32)
    (hctx : ∀ i, (ctx i).sb = sb) (hs : s.step ctx f src i = some s') :
    SharedInv sb f src s₀ (es ++ s.chunks ctx f i) s' := by
  have hcall := h.calls i
  have hturn : ∀ {left r fs}, filewriteTurn (ctx i) f left s.fs = .ok r fs →
      Turned sb f (left.take (turnLength left)) s.fs r fs := fun ht => by
    have hspec := @filewriteTurn_spec (ctx i) f s.fs
    rw [hctx i] at hspec
    exact (hspec h.file hsb _).ok rfl ht
  have hm := Writers.moved hs
  generalize s.chunks ctx f i = new at hm ⊢
  cases hm with
  | refuse hc => exact h.quiet h.file h.inum rfl rfl (.inl rfl)
  | enter hc =>
    rw [hc] at hcall
    refine h.quiet h.file h.inum rfl rfl ⟨?_, fun _ => .inl hcall⟩
    rw [show mine i es = [] from hcall]
    rfl
  | finish hc =>
    rw [hc] at hcall
    refine h.quiet h.file h.inum rfl rfl (.inr ⟨rfl, ?_, fun hle => ?_⟩)
    · rw [← hcall.1, List.append_nil]
    · rcases hcall.2 hle with hes | ⟨-, hes⟩
      · rw [hes]
        exact Nat.zero_le _
      · exact hes.le
  | fail hc ht hr =>
    have ht := hturn ht
    obtain ⟨rfl, hcont⟩ := ht.done.resolve_right fun hr' => by
      have := hr'.1
      omega
    rw [h.inum] at hcont
    exact h.quiet ht.shareable (ht.inum.trans h.inum) ht.off hcont (.inl rfl)
  | place hc hne ht => exact h.place hc hne (hturn ht)

end

theorem start (h : Shareable sb f s₀) : SharedInv sb f src s₀ [] ⟨s₀, fun _ => .start⟩ :=
  ⟨h, rfl, rfl, fun hne => absurd rfl hne, (splice_nil _ _).symm,
    fun es₁ ch es₂ heq => by simp at heq, fun _ => rfl⟩

theorem off_getElem (h : SharedInv sb f src s₀ es s) {k : Nat} (hk : k < es.length) :
    es[k].off = (s₀.ftable f).off + (bytesOf (es.take k)).length :=
  h.offs _ _ (es.drop (k + 1)) (by rw [← List.drop_eq_getElem_cons hk, List.take_append_drop])

theorem pairwise (h : SharedInv sb f src s₀ es s) :
    es.Pairwise fun a b => a.off + a.bytes.length ≤ b.off := by
  refine List.pairwise_iff_getElem.2 fun j k hj hk hjk => ?_
  obtain ⟨d, rfl⟩ := Nat.exists_eq_add_of_le (Nat.succ_le_of_lt hjk)
  have hsplit : bytesOf (es.take (j + 1 + d)) =
      bytesOf (es.take j) ++ (es[j].bytes ++ bytesOf ((es.drop (j + 1)).take d)) := by
    rw [List.take_add, bytesOf_append, List.take_add_one, List.getElem?_eq_getElem hj,
      Option.toList_some, bytesOf_append, bytesOf_singleton, List.append_assoc]
  rw [h.off_getElem hj, h.off_getElem hk, hsplit]
  simp only [List.length_append]
  omega

theorem chunk_read (h : SharedInv sb f src s₀ es s) {ch : Chunk ι} (hch : ch ∈ es) :
    ((s.fs.contents (fileInum f s₀)).drop ch.off).take ch.bytes.length = ch.bytes := by
  obtain ⟨es₁, es₂, rfl⟩ := List.append_of_mem hch
  have hroom := h.room (by simp)
  rw [h.contents, h.offs es₁ ch es₂ rfl, bytesOf_append, show bytesOf (ch :: es₂) = ch.bytes ++
    bytesOf es₂ from rfl]
  exact splice_read hroom _ _

end SharedInv

/-- Calls of `filewrite` on one open file, turn by turn in any order, from a state in which the file
is in order. `es` are the bytes that the turns have put into the file, each with the value of
`f->off` that the turn started from. They are in the file where they were put, no two overlap, and
together they fill one range behind the first `f->off`; `f->off` is at its end. A call that returns
its number of bytes has put all of them there in their order, and in one piece if a turn can take
them all. -/
theorem shared_writes (hsb : sb.size ≤ 2 ^ 32) (hctx : ∀ i, (ctx i).sb = sb)
    (h₀ : Shareable sb f s₀) (as : List ι)
    (hrun : run (Writers.step ctx f src) ⟨s₀, fun _ => .start⟩ as = some s)
    (hes : es = trace (Writers.step ctx f src) (Writers.chunks ctx f) ⟨s₀, fun _ => .start⟩ as) :
    (∀ ch ∈ es, ((s.fs.contents (fileInum f s₀)).drop ch.off).take ch.bytes.length = ch.bytes) ∧
      es.Pairwise (fun a b => a.off + a.bytes.length ≤ b.off) ∧
      (s.fs.ftable f).off = (s₀.ftable f).off + (bytesOf es).length ∧
      s.fs.contents (fileInum f s₀) =
        splice (s₀.contents (fileInum f s₀)) (s₀.ftable f).off (bytesOf es) ∧
      ∀ i (n : Nat), s.call i = .returned n → n = (src i).length ∧ bytesOf (mine i es) = src i ∧
        (n ≤ maxWrite → n = 0 ∨ ∃ off, mine i es = [⟨i, off, src i⟩]) := by
  have h : SharedInv sb f src s₀ ([] ++ es) s := by
    rw [hes]
    exact trace_inv (fun es s i s' h hs => h.step hsb hctx hs) (.start h₀) hrun
  rw [List.nil_append] at h
  refine ⟨fun ch => h.chunk_read, h.pairwise, h.off, h.contents, fun i n hret => ?_⟩
  have hcall := h.calls i
  rw [hret] at hcall
  obtain ⟨hn, hbytes, hone⟩ := hcall.resolve_left (by omega)
  have hn : n = (src i).length := Int.ofNat_inj.1 hn
  refine ⟨hn, hbytes, fun hle => ?_⟩
  -- a call whose bytes fit into a turn has at most one chunk
  cases hm : mine i es with
  | nil =>
    rw [hm] at hbytes
    exact .inl (by rw [hn, ← hbytes]; rfl)
  | cons ch l =>
    have hl := hone (hn ▸ hle)
    rw [hm] at hl hbytes
    obtain rfl : l = [] := List.length_eq_zero_iff.1 (by simpa using hl)
    have hwho : ch.who = i := by
      have : ch ∈ mine i es := by rw [hm]; exact List.mem_singleton_self ch
      simpa using (List.mem_filter.1 this).2
    rw [bytesOf_singleton] at hbytes
    obtain ⟨who, off, bytes⟩ := ch
    obtain rfl : who = i := hwho
    obtain rfl : bytes = src who := hbytes
    exact .inr ⟨off, rfl⟩

end

/-- The empty file system with an empty file, inode 2, that two processes have open. -/
def sharedFile : State :=
  let node : Dinode := ⟨some .file, 0, 0, 1, 0, fun _ => 0⟩
  { boot emptyImage 0 with
    dinode := update emptyImage.dinode 2 node
    icache := update (boot emptyImage 0).icache 1 ⟨node, 2, 1, none, true⟩
    ftable := update (boot emptyImage 0).ftable 0 ⟨.inode, 2, true, true, 0, 1, 0⟩ }

theorem sharedFile_shareable : Shareable mkfsSb 0 sharedFile := by
  refine ⟨rfl, by decide, rfl, ?_, by decide, rfl, fun _ => rfl, fun bn hbn => ?_⟩
  · refine emptyImage_own.setNode rfl rfl (i := 2) (fun j hj => update_of_ne hj _ _)
      (fun k => Vol.has_of_not_live (by decide)) fun k => Vol.has_eq_none (Vol.addr_eq_zero rfl k)
  · exact absurd hbn (Nat.not_lt_zero _)

/-- Two calls with a byte each, in turn. -/
theorem shared_writes_two :
    ∃ s, ∃ es : List (Chunk Bool),
      run (Writers.step (fun _ => rootCtx) 0 fun i : Bool => if i then [7] else [8])
      ⟨sharedFile, fun _ => .start⟩ [true, false, true, false] = some s ∧
        (s.fs.ftable 0).off = (sharedFile.ftable 0).off + (bytesOf es).length ∧
          (bytesOf es).length = 2 := by
  have hrun : (run (Writers.step (fun _ => rootCtx) 0 fun i : Bool => if i then [7] else [8])
      ⟨sharedFile, fun _ => .start⟩ [true, false, true, false]).map
        (fun s => (s.fs.ftable 0).off) = some 2 := by decide +kernel
  obtain ⟨s, hs, hoff⟩ := Option.map_eq_some_iff.1 hrun
  have h := (shared_writes (by decide) (fun _ => rfl) sharedFile_shareable _ hs rfl).2.2.1
  refine ⟨s, _, hs, h, ?_⟩
  rw [hoff] at h
  have h0 : (sharedFile.ftable 0).off = 0 := rfl
  omega

/-! ## One call alone -/

theorem filewriteLoop_succ (c : Ctx) (f : Fin nfile) (turns : Nat) (left : List UInt8) :
    filewriteLoop c f (turns + 1) left =
      if left.length = 0 then pure true
      else filewriteTurn c f left >>= fun r =>
        if r < 0 then pure false
        else if r ≠ turnLength left then panic "short filewrite"
        else filewriteLoop c f turns (left.drop (turnLength left)) := by
  rw [filewriteLoop]
  unfold filewriteTurn turnLength
  simp only [bind_assoc, pure_bind]

theorem Writers.set_unit (s : Writers Unit) (p : Progress) : s.set () p = ⟨s.fs, fun _ => p⟩ := by
  have h : update s.call () p = fun _ => p := funext fun u => by simp
  rw [Writers.set, h]

section
variable {c : Ctx} {f : Fin nfile} {src : List UInt8}

theorem filewriteLoop_run : ∀ (turns : Nat) (left : List UInt8) (s s' : State) (all : Bool),
    left.length ≤ turns → filewriteLoop c f turns left s = .ok all s' →
      ∃ as, run (Writers.step (fun _ => c) f fun _ => src) ⟨s, fun _ : Unit => .writing left⟩ as =
        some ⟨s', fun _ => .returned (if all then src.length else -1)⟩ := by
  have hdone : ∀ s : State, ∃ as, run (Writers.step (fun _ => c) f fun _ => src)
      ⟨s, fun _ : Unit => .writing []⟩ as = some ⟨s, fun _ => .returned src.length⟩ := fun s => by
    refine ⟨[()], run_cons.2 ⟨_, ?_, rfl⟩⟩
    rw [← Writers.set_unit ⟨s, fun _ => .writing []⟩]
    rfl
  intro turns
  induction turns with
  | zero =>
    intro left s s' all hlen h
    obtain rfl : left = [] := List.length_eq_zero_iff.1 (by omega)
    cases h
    exact hdone s
  | succ turns ih =>
    intro left s s' all hlen h
    rw [filewriteLoop_succ] at h
    by_cases h0 : left.length = 0
    · rw [if_pos h0] at h
      cases h
      rw [List.length_eq_zero_iff.1 h0]
      exact hdone s
    rw [if_neg h0] at h
    cases ht : filewriteTurn c f left s with
    | error e fs =>
      rw [bind_error ht] at h
      cases h
    | ok r fs =>
      rw [bind_ok ht] at h
      by_cases hr : r < 0
      · rw [if_pos hr] at h
        cases h
        refine ⟨[()], run_cons.2 ⟨_, ?_, rfl⟩⟩
        unfold Writers.step
        dsimp only
        rw [if_neg h0, ht]
        dsimp only
        rw [if_pos hr, Writers.set_unit]
        rfl
      · rw [if_neg hr] at h
        by_cases hn : r ≠ turnLength left
        · rw [if_pos hn] at h
          cases h
        · rw [if_neg hn] at h
          obtain ⟨as, has⟩ := ih (left.drop (turnLength left)) fs s' all (by
            rw [List.length_drop]
            unfold turnLength
            simp only [maxWrite]
            omega) h
          refine ⟨() :: as, run_cons.2 ⟨_, ?_, has⟩⟩
          unfold Writers.step
          dsimp only
          rw [if_neg h0, ht]
          dsimp only
          rw [if_neg hr, if_neg hn, Writers.set_unit]

/-- **The turns are `filewrite`**: a call of it that returns is a run of one writer alone, to the
same state and with the same result. -/
theorem filewrite_run {s s' : State} {r : Int} (ht : (s.ftable f).type = .inode)
    (h : filewrite c f src s = .ok r s') :
    ∃ as, run (Writers.step (fun _ => c) f fun _ => src) ⟨s, fun _ : Unit => .start⟩ as =
      some ⟨s', fun _ => .returned r⟩ := by
  have hget : getFile f s = .ok (s.ftable f) s := rfl
  unfold filewrite at h
  rw [bind_ok hget] at h
  by_cases hw : (s.ftable f).writable = false
  · rw [if_pos hw] at h
    cases h
    refine ⟨[()], run_cons.2 ⟨_, ?_, rfl⟩⟩
    unfold Writers.step
    dsimp only
    rw [if_pos hw, Writers.set_unit]
  · rw [if_neg hw, ht] at h
    replace h : (filewriteLoop c f src.length src >>= fun all =>
      pure (if all then (src.length : Int) else -1)) s = .ok r s' := h
    have henter : Writers.step (fun _ => c) f (fun _ => src) ⟨s, fun _ : Unit => .start⟩ () =
        some ⟨s, fun _ => .writing src⟩ := by
      unfold Writers.step
      dsimp only
      rw [if_neg hw, ht]
      dsimp only
      rw [Writers.set_unit]
    cases hl : filewriteLoop c f src.length src s with
    | error e fs =>
      rw [bind_error hl] at h
      cases h
    | ok all fs =>
      rw [bind_ok hl] at h
      cases h
      obtain ⟨as, has⟩ := filewriteLoop_run _ _ _ _ _ (Nat.le_refl _) hl
      exact ⟨() :: as, run_cons.2 ⟨_, henter, has⟩⟩

end

theorem filewrite_run_byte : ∃ s as, run (Writers.step (fun _ => rootCtx) 0 fun _ => [7])
    ⟨sharedFile, fun _ : Unit => .start⟩ as = some ⟨s, fun _ => .returned 1⟩ := by
  have h : (filewrite rootCtx 0 [7]).run' sharedFile = some 1 := by decide +kernel
  unfold EStateM.run' EStateM.run at h
  cases hr : filewrite rootCtx 0 [7] sharedFile with
  | ok r s =>
    rw [hr] at h
    cases h
    exact ⟨s, filewrite_run rfl hr⟩
  | error e s =>
    rw [hr] at h
    cases h

end Xv6.Fs
