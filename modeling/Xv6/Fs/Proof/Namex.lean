import Xv6.Fs.Proof.DirMap
import Xv6.Fs.Proof.Paths
import Xv6.Fs.Proof.Refs

/-!
# Path resolution

What a path leads to is a fold over its components, each a step from a directory to the inode that
its map has for the name (`Core.resolve`). `namex` makes the same steps, with a reference to the
inode it is at and no other (`Walk`).

Each step asks `iget` for an entry of the inode cache while the walk still holds the one it comes
from. If there is none, `iget` panics; `WalkRoom` says exactly when there is always one.
-/

namespace Xv6.Fs

open Lib Function

variable {s : Core} {d n : Nat}

/-- The inode under `name` in `d`, if `d` is a directory. -/
def Core.child (s : Core) (d : Nat) (name : List UInt8) : Option Nat :=
  if (s.dinode d).type = some .dir then s.dirMap d name else none

/-- The inode that a list of names leads to. -/
def Core.resolve (s : Core) (d : Nat) (names : List (List UInt8)) : Option Nat :=
  names.foldlM s.child d

/-- The directory of the last name, and that name. -/
def Core.resolveParent (s : Core) (d : Nat) (names : List (List UInt8)) :
    Option (Nat × List UInt8) := do
  let last ← names.getLast?
  let e ← s.resolve d names.dropLast
  if (s.dinode e).type = some .dir then some (e, last) else none

/-- Some entry of the cache is in use for inode `i`. -/
def InUse (s : State) (i : Nat) : Prop := ∃ k, 0 < (s.icache k).ref ∧ (s.icache k).inum = i

/-- Inode `i` has a link or is in use: dropping one more reference does not free it. -/
def Kept (s : State) (i : Nat) : Prop := (s.dinode i).nlink = 0 → InUse s i

/-- A directory tree, and an inode cache that goes with it, as process `me` finds them between
calls: from the root and from every directory that is kept, a name leads to an inode that is
allocated and kept. A file that lost its last name before a crash may still be allocated. -/
structure Tree (sb : Superblock) (me : Fin nproc) (s : State) : Prop where
  own : s.vol.Own sb
  sized : Sized sb s.toCore
  root : s.vol.Live sb rootIno ∧ Kept s rootIno
  whole : ∀ d, s.vol.Live sb d → (s.dinode d).type = some .dir → deSize ∣ (s.dinode d).size
  child : ∀ d name i, s.vol.Live sb d → Kept s d → s.child d name = some i →
    s.vol.Live sb i ∧ Kept s i
  sync : ∀ k, 0 < (s.icache k).ref → Synced sb s k
  alone : ∀ k k', 0 < (s.icache k).ref → 0 < (s.icache k').ref →
    (s.icache k).inum = (s.icache k').inum → k = k'
  unlocked : ∀ k, (s.icache k).lock = none
  cwd : ∃ k, (s.procs me).cwd = some k ∧ 0 < (s.icache k).ref ∧ s.vol.Live sb (s.icache k).inum

/-- `s'` is `s` with references to the entries in `held`, and with the lock of `lk`. -/
structure Walk (sb : Superblock) (me : Fin nproc) (s : State) (held : Multiset (Fin ninode))
    (lk : Option (Fin ninode)) (s' : State) : Prop where
  vol : s'.vol = s.vol
  procs : s'.procs = s.procs
  ref : ∀ k, (s'.icache k).ref = (s.icache k).ref + held.count k
  inum : ∀ k, 0 < (s.icache k).ref → (s'.icache k).inum = (s.icache k).inum
  sync : ∀ k, 0 < (s'.icache k).ref → Synced sb s' k
  alone : ∀ k k', 0 < (s'.icache k).ref → 0 < (s'.icache k').ref →
    (s'.icache k).inum = (s'.icache k').inum → k = k'
  lock : ∀ k, (s'.icache k).lock = if lk = some k then some me else none
  kept : ∀ k ∈ held, 0 ≤ (s.icache k).ref ∧ Kept s (s'.icache k).inum

section
variable {c : Ctx} {sb : Superblock} {me : Fin nproc} {s s₁ s₂ : State}
  {held : Multiset (Fin ninode)} {lk : Option (Fin ninode)} {ip : Fin ninode}
  {E : Stop → State → Prop}

theorem Core.entries_congr {s' : Core} (h : s'.vol = s.vol) (d : Nat) :
    s'.entries d = s.entries d := by
  unfold Core.entries
  rw [h, show s'.dinode = s.dinode from congrArg Vol.nd h]

theorem Core.dirMap_congr {s' : Core} (h : s'.vol = s.vol) (d : Nat) :
    s'.dirMap d = s.dirMap d := by
  unfold Core.dirMap
  rw [entries_congr h]

theorem Tree.start (h : Tree sb me s) : Walk sb me s 0 none s :=
  ⟨rfl, rfl, fun k => by simp, fun _ _ => rfl, h.sync, h.alone,
    fun k => by rw [h.unlocked k, if_neg nofun], fun k hk => absurd hk (Multiset.notMem_zero k)⟩

namespace Walk

theorem ref_pos (h : Walk sb me s held lk s₁) (hip : ip ∈ held) : 0 < (s₁.icache ip).ref := by
  have h1 := (h.kept ip hip).1
  have h2 := Multiset.count_pos.2 hip
  rw [h.ref]
  omega

theorem set (h : Walk sb me s held lk s₁) {x : Inode} {held' : Multiset (Fin ninode)}
    {lk' : Option (Fin ninode)} (hvol : s₂.vol = s₁.vol) (hp : s₂.procs = s₁.procs)
    (hi : s₂.icache = update s₁.icache ip x) (href : x.ref = (s.icache ip).ref + held'.count ip)
    (hcount : ∀ k, k ≠ ip → held'.count k = held.count k)
    (hinum : 0 < (s.icache ip).ref → x.inum = (s.icache ip).inum)
    (hsync : 0 < x.ref → x.valid = true →
      s₁.dinode x.inum = x.toDinode ∧ x.type ≠ none ∧ x.inum < sb.ninodes)
    (halone : 0 < x.ref → ∀ k, k ≠ ip → 0 < (s₁.icache k).ref → (s₁.icache k).inum ≠ x.inum)
    (hlock : x.lock = if lk' = some ip then some me else none)
    (hlk : ∀ k, k ≠ ip → (lk' = some k ↔ lk = some k))
    (hkept : ip ∈ held' → 0 ≤ (s.icache ip).ref ∧ Kept s x.inum) : Walk sb me s held' lk' s₂ := by
  have hself : s₂.icache ip = x := by rw [hi, update_self]
  have hne : ∀ k, k ≠ ip → s₂.icache k = s₁.icache k := fun k hk => by
    rw [hi, update_of_ne hk]
  have hd : s₂.dinode = s₁.dinode := congrArg Vol.nd hvol
  refine ⟨hvol.trans h.vol, hp.trans h.procs, fun k => ?_, fun k hk => ?_, fun k hk => ?_,
    fun k k' hk hk' heq => ?_, fun k => ?_, fun k hk => ?_⟩
  · by_cases hki : k = ip
    · rw [hki, hself, href]
    · rw [hne k hki, h.ref, hcount k hki]
  · by_cases hki : k = ip
    · rw [hki] at hk ⊢
      rw [hself, hinum hk]
    · rw [hne k hki, h.inum k hk]
  · unfold Synced
    rw [hd]
    by_cases hki : k = ip
    · rw [hki, hself] at hk ⊢
      exact hsync hk
    · rw [hne k hki] at hk ⊢
      exact h.sync k hk
  · by_cases hki : k = ip
    · by_cases hki' : k' = ip
      · rw [hki, hki']
      · rw [hki, hself] at hk heq
        rw [hne k' hki'] at hk' heq
        exact absurd heq.symm (halone hk k' hki' hk')
    · rw [hne k hki] at hk heq
      by_cases hki' : k' = ip
      · rw [hki', hself] at hk' heq
        exact absurd heq (halone hk' k hki hk)
      · rw [hne k' hki'] at hk' heq
        exact h.alone k k' hk hk' heq
  · by_cases hki : k = ip
    · rw [hki, hself, hlock]
    · rw [hne k hki, h.lock k]
      exact if_congr (hlk k hki).symm rfl rfl
  · by_cases hki : k = ip
    · rw [hki] at hk ⊢
      rw [hself]
      exact hkept hk
    · rw [hne k hki]
      refine h.kept k (Multiset.count_pos.1 ?_)
      rw [← hcount k hki]
      exact Multiset.count_pos.2 hk

theorem got (h : Walk sb me s held lk s₁) {inum : Nat} (hk : Kept s inum) (hg : Got s₁ inum ip s₂) :
    Walk sb me s (ip ::ₘ held) lk s₂ := by
  have href := h.ref ip
  have hcount : ∀ k, k ≠ ip → (ip ::ₘ held).count k = held.count k := fun k hk =>
    Multiset.count_cons_of_ne hk held
  have hpos : 0 ≤ (s₁.icache ip).ref → 0 ≤ (s.icache ip).ref := fun hr => by
    by_cases hm : ip ∈ held
    · exact (h.kept ip hm).1
    · rw [Multiset.count_eq_zero_of_notMem hm] at href
      omega
  cases hg with
  | old hr hi =>
    refine h.set rfl rfl rfl ?_ hcount (fun hs => h.inum ip hs) (fun _ hv => h.sync ip hr hv)
      (fun _ k hk hkr heq => hk (h.alone k ip hkr hr heq)) (h.lock ip) (fun _ _ => Iff.rfl)
      fun _ => ⟨hpos (by omega), hi ▸ hk⟩
    rw [Multiset.count_cons_self]
    show (s₁.icache ip).ref + 1 = _
    omega
  | new hno hr =>
    refine h.set rfl rfl rfl ?_ hcount (fun hs => ?_) nofun (fun _ k _ hkr => hno k hkr) (h.lock ip)
      (fun _ _ => Iff.rfl) fun _ => ⟨hpos (by omega), hk⟩
    · rw [Multiset.count_cons_self]
      show (1 : Int) = _
      omega
    · omega

theorem locked (h : Walk sb me s held none s₁) (hl : s₁.vol.Live sb (s₁.icache ip).inum) :
    Walk sb me s held (some ip) (s₁.locked me ip) := by
  refine h.set rfl rfl rfl (h.ref ip) (fun _ _ => rfl) (fun hs => h.inum ip hs)
    (fun _ _ => ⟨rfl, hl.2, hl.1⟩) (fun hr k hk hkr heq => hk (h.alone k ip hkr hr heq)) ?_
    (fun k hk => iff_of_false (fun heq => hk (Option.some.inj heq).symm) nofun) (h.kept ip)
  rw [if_pos rfl]
  rfl

theorem unlocked (h : Walk sb me s held (some ip) s₁) :
    Walk sb me s held none (s₁.setInode ip ((s₁.icache ip).setLock none)) := by
  refine h.set rfl rfl rfl (h.ref ip) (fun _ _ => rfl) (fun hs => h.inum ip hs)
    (fun hr hv => h.sync ip hr hv) (fun hr k hk hkr heq => hk (h.alone k ip hkr hr heq)) ?_
    (fun k hk => iff_of_false nofun fun heq => hk (Option.some.inj heq).symm) (h.kept ip)
  rw [if_neg nofun]
  rfl

theorem dropped (h : Walk sb me s (ip ::ₘ held) none s₁) :
    Walk sb me s held none (s₁.dropped ip) := by
  have href := h.ref ip
  have hpos := h.ref_pos (Multiset.mem_cons_self ip held)
  rw [Multiset.count_cons_self] at href
  refine h.set rfl rfl rfl ?_ (fun k hk => (Multiset.count_cons_of_ne hk held).symm)
    (fun hs => h.inum ip hs) (fun _ hv => h.sync ip hpos hv)
    (fun _ k hk hkr heq => hk (h.alone k ip hkr hpos heq)) ?_ (fun _ _ => Iff.rfl)
    fun _ => h.kept ip (Multiset.mem_cons_self ip held)
  · show (s₁.icache ip).ref - 1 = _
    omega
  · rw [if_neg nofun]
    rfl

theorem keeps (h : Walk sb me s held lk s₁) (hip : ip ∈ held) : ¬ LastRef s₁ ip := by
  rintro ⟨hv, hn, hr⟩
  have hnode := (h.sync ip (by omega) hv).1
  rw [show s₁.dinode = s.dinode from congrArg Vol.nd h.vol] at hnode
  obtain ⟨k, hk, hki⟩ := (h.kept ip hip).2 (by rw [hnode]; exact hn)
  obtain rfl : k = ip := by
    refine h.alone k ip ?_ (by omega) ((h.inum k hk).trans hki)
    rw [h.ref]
    omega
  have := h.ref k
  have := Multiset.count_pos.2 hip
  omega

end Walk

/-- Every entry is for the inode it was for. -/
def SameInums (s s' : State) : Prop := ∀ k, (s'.icache k).inum = (s.icache k).inum

theorem sameInums_set {x : Inode} (hi : s₂.icache = update s₁.icache ip x)
    (hx : x.inum = (s₁.icache ip).inum) : SameInums s₁ s₂ := by
  intro k
  rw [hi]
  by_cases hk : k = ip
  · rw [hk, update_self, hx]
  · rw [update_of_ne hk]

theorem iunlock_walk (h : Walk c.sb c.me s held (some ip) s₁) (hip : ip ∈ held) :
    Triple (· = s₁) (iunlock c ip)
      (fun _ s' => Walk c.sb c.me s held none s' ∧ SameInums s₁ s') E := by
  refine (iunlock_spec c ip s₁).conseq (fun _ => id) ?_ ?_
  · rintro _ _ ⟨rfl, -⟩
    exact ⟨h.unlocked, sameInums_set rfl rfl⟩
  · rintro e s' ⟨-, hbad⟩
    have hr := h.ref_pos hip
    rw [h.lock ip, if_pos rfl] at hbad
    exact absurd hbad (by simp; omega)

theorem iput_walk (h : Walk c.sb c.me s (ip ::ₘ held) none s₁) :
    Triple (· = s₁) (iput c ip)
      (fun _ s' => Walk c.sb c.me s held none s' ∧ SameInums s₁ s') E := by
  refine (iput_keep c ip s₁ (h.keeps (Multiset.mem_cons_self ..))).conseq (fun _ => id) ?_ ?_
  · rintro _ _ ⟨rfl, -⟩
    exact ⟨h.dropped, sameInums_set rfl rfl⟩
  · exact fun _ _ hb => absurd ((h.lock ip).trans (if_neg nofun)) hb.2

theorem iunlockput_walk (h : Walk c.sb c.me s (ip ::ₘ held) (some ip) s₁) :
    Triple (· = s₁) (iunlockput c ip)
      (fun _ s' => Walk c.sb c.me s held none s' ∧ SameInums s₁ s') E :=
  (iunlock_walk h (Multiset.mem_cons_self ..)).bind fun _ => .of_state fun _ ⟨h', hsame⟩ =>
    (iput_walk h').post fun _ _ ⟨h'', hsame'⟩ => ⟨h'', fun k => (hsame' k).trans (hsame k)⟩

/-- A walk that has come to the inode `d`. -/
structure WalkAt (sb : Superblock) (me : Fin nproc) (s : State) (lk : Option (Fin ninode))
    (ip : Fin ninode) (d : Nat) (s' : State) : Prop extends Walk sb me s {ip} lk s' where
  here : (s'.icache ip).inum = d

theorem WalkAt.cons (h : WalkAt sb me s lk ip d s₁) : Walk sb me s (ip ::ₘ 0) lk s₁ :=
  h.toWalk

theorem WalkAt.ready (h : WalkAt sb me s lk ip d s₁) (ht : Tree sb me s) (hd : s.vol.Live sb d)
    (hsync : s₁.dinode (s₁.icache ip).inum = (s₁.icache ip).toDinode) :
    Ready sb s₁ ip := by
  refine ⟨h.vol ▸ ht.own, by rw [h.here, h.vol]; exact hd, hsync, fun bn hbn => ?_⟩
  have hnode : s₁.dinode = s.dinode := congrArg Vol.nd h.vol
  rw [h.here, h.vol]
  refine ht.sized d hd bn ?_
  rw [← hnode, ← h.here, hsync]
  exact hbn

theorem ilock_walk (ht : Tree c.sb c.me s) (hd : s.vol.Live c.sb d) :
    Triple (WalkAt c.sb c.me s none ip d) (ilock c ip)
      (fun _ s' => WalkAt c.sb c.me s (some ip) ip d s' ∧ Ready c.sb s' ip ∧
        (s'.icache ip).toDinode = s.dinode d) E := by
  refine .of_state fun s₁ h => ?_
  have hr := h.ref_pos (Multiset.mem_singleton_self ip)
  have hnode : s₁.dinode = s.dinode := congrArg Vol.nd h.vol
  have hlive : s₁.vol.Live c.sb (s₁.icache ip).inum := by
    rw [h.here, h.vol]
    exact hd
  refine (ilock_spec c ip s₁ (h.sync ip hr)).conseq (fun _ => id) ?_ ?_
  · rintro _ _ ⟨rfl, -⟩
    have hw : WalkAt c.sb c.me s (some ip) ip d (s₁.locked c.me ip) := by
      refine ⟨h.toWalk.locked hlive, ?_⟩
      rw [← h.here]
      simp [State.locked, Inode.load, Inode.setLock]
    have hself : ((s₁.locked c.me ip).icache ip).toDinode = s₁.dinode (s₁.icache ip).inum := by
      simp [State.locked, Inode.load]
    refine ⟨hw, hw.ready ht hd ?_, ?_⟩
    · rw [hself, hw.here, h.here]
      rfl
    · rw [hself, h.here, hnode]
  · rintro e s' hstop
    cases hstop with
    | ref hlt => omega
    | held hb => exact absurd ((h.lock ip).trans (if_neg (Option.some_ne_none ip).symm)) hb.2
    | range _ hge => exact absurd hlive.1 hge
    | type _ _ hn => exact absurd hn hlive.2

/-! ## Room in the cache -/

/-- A step from `d` to `e` finds the entries it needs. -/
def RoomFor (s : State) (d e : Nat) : Prop :=
  e = d ∨ InUse s e ∨ ∃ k, (s.icache k).ref = 0 ∧
    (InUse s d ∨ ∃ k', k' ≠ k ∧ (s.icache k').ref = 0)

theorem WalkAt.ref_of_ne (h : WalkAt sb me s lk ip d s₁) {k : Fin ninode} (hk : k ≠ ip) :
    (s₁.icache k).ref = (s.icache k).ref := by
  rw [h.ref, Multiset.count_singleton, if_neg hk]
  exact Int.add_zero _

theorem WalkAt.inUse_iff (h : WalkAt sb me s lk ip d s₁) :
    InUse s d ↔ 0 < (s.icache ip).ref := by
  constructor
  · rintro ⟨k, hk, hki⟩
    by_cases hkip : k = ip
    · rwa [← hkip]
    · have hpos := h.ref_pos (Multiset.mem_singleton_self ip)
      refine absurd (h.alone k ip ?_ hpos ?_) hkip
      · rwa [h.ref_of_ne hkip]
      · rw [h.inum k hk, hki, h.here]
  · intro hr
    exact ⟨ip, hr, by rw [← h.inum ip hr, h.here]⟩

theorem WalkAt.room_iff {e : Nat} (h : WalkAt sb me s lk ip d s₁) :
    CacheRoom s₁ e ↔ RoomFor s d e := by
  have hpos := h.ref_pos (Multiset.mem_singleton_self ip)
  have hnn := (h.kept ip (Multiset.mem_singleton_self ip)).1
  constructor
  · rintro ⟨k, hk⟩
    by_cases hkip : k = ip
    · rw [hkip] at hk
      rcases hk with h0 | ⟨-, hi⟩
      · omega
      · exact .inl (hi.symm.trans h.here)
    · rw [h.ref_of_ne hkip] at hk
      refine .inr (hk.elim (fun h0 => .inr ⟨k, h0, ?_⟩) fun ⟨hr, hi⟩ => .inl ⟨k, hr, ?_⟩)
      · by_cases hr : 0 < (s.icache ip).ref
        · exact .inl (h.inUse_iff.2 hr)
        · exact .inr ⟨ip, Ne.symm hkip, by omega⟩
      · rw [← h.inum k hr, hi]
  · rintro (rfl | ⟨k, hr, hi⟩ | ⟨k, h0, hrest⟩)
    · exact ⟨ip, .inr ⟨hpos, h.here⟩⟩
    · refine ⟨k, .inr ⟨?_, (h.inum k hr).trans hi⟩⟩
      rw [h.ref]
      omega
    · -- a free entry other than the one that the walk has taken
      have hfree : ∃ k, k ≠ ip ∧ (s.icache k).ref = 0 := by
        by_cases hkip : k = ip
        · rcases hrest with hu | ⟨k', hk', h0'⟩
          · have := h.inUse_iff.1 hu
            rw [hkip] at h0
            omega
          · exact ⟨k', hkip ▸ hk', h0'⟩
        · exact ⟨k, hkip, h0⟩
      obtain ⟨k, hk, h0⟩ := hfree
      exact ⟨k, .inl ((h.ref_of_ne hk).trans h0)⟩

/-! ## The loop of `namex` -/

/-- What the loop of `namex` computes. -/
def Core.walk (s : Core) (parent : Bool) : Nat → List (List UInt8) → Option Nat
  | d, [] => if parent then none else some d
  | d, n :: ns =>
    if parent ∧ ns = [] then if (s.dinode d).type = some .dir then some d else none
    else (s.child d n).bind fun e => s.walk parent e ns

/-- At every step of `namex` there is an entry of the cache for the next inode. -/
def WalkRoom (s : State) (parent : Bool) : Nat → List (List UInt8) → Prop
  | _, [] => True
  | d, n :: ns => ¬ (parent ∧ ns = []) → ∀ e, s.child d n = some e →
      RoomFor s d e ∧ WalkRoom s parent e ns

/-- `namex` has returned what `walk` says. -/
def Walked (sb : Superblock) (me : Fin nproc) (s : State) (parent : Bool) (d : Nat)
    (names : List (List UInt8)) (r : Option (Fin ninode × List UInt8)) (s' : State) : Prop :=
  match s.walk parent d names with
  | some e => ∃ ip name, r = some (ip, name) ∧ WalkAt sb me s none ip e s' ∧
      (parent → names.getLast? = some (cut name))
  | none => r = none ∧ Walk sb me s 0 none s'

section
variable {parent : Bool} {n : List UInt8} {ns : List (List UInt8)}

theorem giveUp_walk (h : WalkAt c.sb c.me s (some ip) ip d s₁)
    (hwalk : s.walk parent d (n :: ns) = none)
    (hchild : ¬ (parent ∧ ns = []) → s.child d n = none) :
    Triple (· = s₁) (do iunlockput c ip; return none)
      (fun r s' => Walked c.sb c.me s parent d (n :: ns) r s' ∧ WalkRoom s parent d (n :: ns))
      fun _ _ => ¬ WalkRoom s parent d (n :: ns) := by
  refine .bind (iunlockput_walk h.cons) fun _ => .pure fun s' h' => ⟨?_, fun hmore e he => ?_⟩
  · unfold Walked
    rw [hwalk]
    exact ⟨rfl, h'.1⟩
  · rw [hchild hmore] at he
    cases he

variable (hmore : ¬ (parent ∧ ns = []))
include hmore

theorem Core.walk_more (s : Core) (d : Nat) : s.walk parent d (n :: ns) =
    (s.child d n).bind fun e => s.walk parent e ns := by
  rw [Core.walk, if_neg hmore]

variable {e : Nat} (he : s.child d n = some e)
include he

theorem WalkRoom.more_iff (hroom : RoomFor s d e) :
    WalkRoom s parent d (n :: ns) ↔ WalkRoom s parent e ns := by
  refine ⟨fun hw => (hw hmore e he).2, fun hw _ e' he' => ?_⟩
  obtain rfl := Option.some.inj (he.symm.trans he')
  exact ⟨hroom, hw⟩

theorem Walked.more {sb : Superblock} {me : Fin nproc} {r : Option (Fin ninode × List UInt8)}
    (hw : Walked sb me s parent e ns r s') : Walked sb me s parent d (n :: ns) r s' := by
  unfold Walked at hw ⊢
  rw [Core.walk_more hmore, he, Option.bind_some]
  split at hw
  · obtain ⟨ip', nm, hr, hat, hlast⟩ := hw
    refine ⟨ip', nm, hr, hat, fun hp => ?_⟩
    rw [List.getLast?_cons_of_ne_nil fun h0 => hmore ⟨hp, h0⟩]
    exact hlast hp
  · exact hw

end

theorem namexFrom_walk (ht : Tree c.sb c.me s) (parent : Bool) :
    ∀ turns ip path name d, path.length < turns → (∀ b ∈ path, b ≠ 0) → s.vol.Live c.sb d →
      Triple (WalkAt c.sb c.me s none ip d) (namexFrom c parent turns ip path name)
        (fun r s' => Walked c.sb c.me s parent d (components path) r s' ∧
          WalkRoom s parent d (components path))
        fun _ _ => ¬ WalkRoom s parent d (components path)
  | 0, _, _, _, _, hlt, _, _ => absurd hlt (Nat.not_lt_zero _)
  | turns + 1, ip, path, name, d, hlt, hpath, hd => by
    unfold namexFrom
    cases hskip : skipelem path name with
    | none =>
      rw [skipelem_eq_none.1 hskip]
      unfold Walked Core.walk
      cases parent with
      | true =>
        refine .of_state fun s₁ h => .bind (iput_walk h.cons) fun _ => .pure ?_
        exact fun s' h' => ⟨⟨rfl, h'.1⟩, trivial⟩
      | false => exact .pure fun s' h => ⟨⟨ip, name, rfl, h, nofun⟩, trivial⟩
    | some r =>
      obtain ⟨rest, name'⟩ := r
      obtain ⟨hcomp, hrest, hpath'⟩ := skipelem_eq_some hpath hskip
      have hlen := skipelem_length hskip
      rw [hcomp]
      refine (ilock_walk ht hd).bind fun _ => .of_state fun s₁ ⟨h, hready, hnode⟩ => ?_
      have hty : (s₁.icache ip).type = (s.dinode d).type := congrArg Dinode.type hnode
      refine .read_bind rfl ?_
      rw [hty]
      refine .ite (fun hnd => ?_) fun hdir => .ite (fun hlast => ?_) fun hmore => ?_
      · -- not a directory
        refine giveUp_walk h ?_ fun _ => if_neg hnd
        rw [Core.walk, if_neg hnd, Core.child, if_neg hnd]
        exact ite_self _
      · -- the last name
        have hnil : components rest = [] := hrest.1 hlast.2
        have hwalk : s.walk parent d (cut name' :: components rest) = some d := by
          rw [Core.walk, if_pos ⟨hlast.1, hnil⟩]
          exact if_pos (by simpa using hdir)
        refine .bind (iunlock_walk h.toWalk (Multiset.mem_singleton_self ip)) fun _ => .pure
          fun s' ⟨h', hsame⟩ => ⟨?_, fun hno => absurd ⟨hlast.1, hnil⟩ hno⟩
        unfold Walked
        rw [hwalk]
        exact ⟨ip, name', rfl, ⟨h', (hsame ip).trans h.here⟩, fun _ => by rw [hnil]; rfl⟩
      · have hdir : (s.dinode d).type = some .dir := by simpa using hdir
        have hmore : ¬ (parent = true ∧ components rest = []) := fun hx =>
          hmore ⟨hx.1, hrest.2 hx.2⟩
        have hchild : ∀ n, s.child d n = s.dirMap d n := fun n => if_pos hdir
        have hmap : s₁.dirMap (s₁.icache ip).inum = s.dirMap d := by
          rw [h.here]
          exact Core.dirMap_congr h.vol d
        have hwhole : deSize ∣ (s₁.icache ip).size := by
          rw [show (s₁.icache ip).size = _ from congrArg Dinode.size hnode]
          exact ht.whole d hd hdir
        refine .bind ((hready.dirlookup (hty.trans hdir) hwhole name').onError ?_) fun r =>
          .of_state fun s₂ hr => ?_
        · rintro e s' ⟨i, hi, hno⟩ hroom
          rw [hmap, ← hchild] at hi
          exact hno (h.room_iff.2 (hroom hmore i hi).1)
        rw [hmap, ← hchild] at hr
        rcases hr with ⟨rfl, rfl, hn⟩ | ⟨next, j, e, rfl, he, -, hg⟩
        · refine giveUp_walk h ?_ fun _ => hn
          rw [Core.walk_more hmore, hn]
          rfl
        · have hkept : Kept s d := h.here ▸ (h.kept ip (Multiset.mem_singleton_self ip)).2
          obtain ⟨hlive, hkept⟩ := ht.child d _ e hd hkept he
          have h₂ : Walk c.sb c.me s (ip ::ₘ {next}) (some ip) s₂ := by
            have := h.toWalk.got hkept hg
            rwa [show next ::ₘ {ip} = ip ::ₘ {next} from Multiset.cons_swap next ip 0] at this
          have hiff := WalkRoom.more_iff hmore he (h.room_iff.1 hg.room)
          refine .bind (iunlockput_walk h₂) fun _ => ?_
          refine (namexFrom_walk ht parent turns next rest name' e (by omega) hpath'
            hlive).conseq ?_ ?_ ?_
          · rintro s' ⟨h', hsame⟩
            exact ⟨h', (hsame next).trans hg.inum⟩
          · rintro r s' ⟨hw, hwr⟩
            exact ⟨hw.more hmore he, hiff.2 hwr⟩
          · intro _ _ hno hwr
            exact hno (hiff.1 hwr)

/-! ## The result is a fold -/

theorem Core.resolve_cons (s : Core) (d : Nat) (n : List UInt8) (ns : List (List UInt8)) :
    s.resolve d (n :: ns) = (s.child d n).bind fun e => s.resolve e ns := List.foldlM_cons

theorem Core.walk_false (s : Core) : ∀ d ns, s.walk false d ns = s.resolve d ns
  | _, [] => rfl
  | d, n :: ns => by
    rw [walk, if_neg (by simp), resolve_cons]
    congr 1
    funext e
    exact walk_false s e ns

theorem Core.walk_true (s : Core) : ∀ d ns, s.walk true d ns = (s.resolveParent d ns).map Prod.fst
  | _, [] => rfl
  | d, [n] => by
    rw [walk, if_pos ⟨rfl, rfl⟩]
    show _ = Option.map _ (if (s.dinode d).type = some .dir then some (d, n) else none)
    split <;> rfl
  | d, n :: m :: ns => by
    have ih := fun e => walk_true s e (m :: ns)
    rw [walk, if_neg (by simp)]
    simp only [ih]
    unfold resolveParent
    rw [List.dropLast_cons_of_ne_nil (List.cons_ne_nil m ns), resolve_cons,
      List.getLast?_cons_of_ne_nil (List.cons_ne_nil m ns)]
    cases hc : s.child d n with
    | none =>
      cases (m :: ns).getLast? with
      | none | some _ => rfl
    | some e => rfl

theorem walkRoom_true (s : State) : ∀ d ns, WalkRoom s true d ns ↔ WalkRoom s false d ns.dropLast
  | _, [] => Iff.rfl
  | _, [_] => iff_of_true (fun hno => absurd ⟨rfl, rfl⟩ hno) trivial
  | d, n :: m :: ns => by
    rw [List.dropLast_cons_of_ne_nil (List.cons_ne_nil m ns), WalkRoom, WalkRoom]
    simp only [walkRoom_true s _ (m :: ns)]
    simp

theorem Core.resolve_eq_none (s : Core) : ∀ d ns, s.resolve d ns = none ↔
    ∃ pre n post e, ns = pre ++ n :: post ∧ s.resolve d pre = some e ∧
      ((s.dinode e).type ≠ some .dir ∨ s.dirMap e n = none)
  | d, [] => by
    refine iff_of_false nofun ?_
    rintro ⟨pre, n, post, e, heq, -⟩
    simp at heq
  | d, n :: ns => by
    have hchild : s.child d n = none ↔ (s.dinode d).type ≠ some .dir ∨ s.dirMap d n = none := by
      unfold child
      split
      · next h => simp [h]
      · next h => simp [h]
    rw [resolve_cons]
    constructor
    · intro h
      cases hc : s.child d n with
      | none => exact ⟨[], n, ns, d, rfl, rfl, hchild.1 hc⟩
      | some e =>
        rw [hc, Option.bind_some] at h
        obtain ⟨pre, m, post, e', rfl, hpre, hstop⟩ := (resolve_eq_none s e ns).1 h
        refine ⟨n :: pre, m, post, e', rfl, ?_, hstop⟩
        rw [resolve_cons, hc, Option.bind_some, hpre]
    · rintro ⟨pre, m, post, e', heq, hpre, hstop⟩
      cases pre with
      | nil =>
        obtain ⟨rfl, rfl⟩ := List.cons.inj heq
        obtain rfl : d = e' := Option.some.inj hpre
        rw [hchild.2 hstop]
        rfl
      | cons n' pre =>
        obtain ⟨rfl, rfl⟩ := List.cons.inj heq
        rw [resolve_cons] at hpre
        cases hc : s.child d n with
        | none => rfl
        | some e =>
          rw [hc, Option.bind_some] at hpre
          exact (resolve_eq_none s e _).2 ⟨pre, m, post, e', rfl, hpre, hstop⟩

/-! ## `namei` and `nameiparent` -/

/-- The inode a path starts from. -/
def startOf (c : Ctx) (s : State) (path : List UInt8) : Option Nat :=
  if path.head? = some slash then some rootIno
  else (s.procs c.me).cwd.map fun k => (s.icache k).inum

/-- Every step along the path finds the entries it needs. -/
def PathRoom (c : Ctx) (s : State) (path : List UInt8) (names : List (List UInt8)) : Prop :=
  (path.head? = some slash → CacheRoom s rootIno) ∧
    ∀ d, startOf c s path = some d → WalkRoom s false d names

theorem Tree.startOf (ht : Tree c.sb c.me s) (path : List UInt8) :
    ∃ d, Fs.startOf c s path = some d ∧ s.vol.Live c.sb d ∧ Kept s d := by
  unfold Fs.startOf
  split
  · exact ⟨_, rfl, ht.root⟩
  · obtain ⟨k, hk, hr, hl⟩ := ht.cwd
    rw [hk]
    exact ⟨_, rfl, hl, fun _ => ⟨k, hr, rfl⟩⟩

theorem Tree.at_got (ht : Tree sb me s) (hk : Kept s d) (hg : Got s d ip s₁) :
    WalkAt sb me s none ip d s₁ := ⟨ht.start.got hk hg, hg.inum⟩

theorem namex_walk (ht : Tree c.sb c.me s) (parent : Bool) {path : List UInt8}
    (hpath : ∀ b ∈ path, b ≠ 0) (hd : startOf c s path = some d) (hlive : s.vol.Live c.sb d)
    (hkept : Kept s d) :
    Triple (· = s) (namex c path parent)
      (fun r s' => Walked c.sb c.me s parent d (components path) r s' ∧
        (path.head? = some slash → CacheRoom s rootIno) ∧ WalkRoom s parent d (components path))
      fun _ _ => ¬ ((path.head? = some slash → CacheRoom s rootIno) ∧
        WalkRoom s parent d (components path)) := by
  have hloop := fun ip name => namexFrom_walk ht parent (path.length + 1) ip path name d
    (Nat.lt_succ_self _) hpath hlive
  unfold startOf at hd
  refine .ite (fun hs => ?_) fun hs => ?_
  · rw [if_pos hs] at hd
    obtain rfl := Option.some.inj hd
    refine .bind ((iget_stop s rootIno).onError ?_) fun ip => ?_
    · rintro e s' ⟨⟨-, hno⟩, -⟩ hroom
      exact hno (hroom.1 hs)
    refine .of_state fun s₁ hg => ((hloop ip _).pre ?_).conseq (fun _ => id) ?_ ?_
    · rintro _ rfl
      exact ht.at_got hkept hg
    · exact fun r s' h => ⟨h.1, fun _ => hg.room, h.2⟩
    · exact fun _ _ hno hroom => hno hroom.2
  · rw [if_neg hs] at hd
    refine .read_bind rfl ?_
    obtain ⟨k, hk, hr, -⟩ := ht.cwd
    rw [hk] at hd ⊢
    obtain rfl : (s.icache k).inum = d := Option.some.inj hd
    refine .bind (Q := fun ip s' => ip = k ∧ Got s (s.icache k).inum k s') ?_ fun ip =>
      .of_pre (φ := ip = k) (fun _ h => h.1) ?_
    · refine .bind (Q := fun _ s' => Got s (s.icache k).inum k s') (.modify ?_) fun _ =>
        .pure fun _ h => ⟨rfl, h⟩
      rintro _ rfl
      exact .old hr rfl
    · rintro rfl
      refine .conseq (hloop ip _) (fun _ h => ht.at_got hkept h.2) ?_ ?_
      · exact fun r s' h => ⟨h.1, fun h' => absurd h' hs, h.2⟩
      · exact fun _ _ hno hroom => hno hroom.2

/-- One reference more, to the inode returned, and no other. -/
def RefsAfter (s : State) (ip : Option (Fin ninode)) (s' : State) : Prop :=
  ∀ k, (s'.icache k).ref = (s.icache k).ref + if ip = some k then 1 else 0

/-- `namei` returns the inode that the components of the path lead to, with a reference, or
nothing. -/
def NameiOk (c : Ctx) (s : State) (path : List UInt8) : Prop :=
  ∃ r s', namei c path s = .ok r s' ∧ RefsAfter s r s' ∧
    r.map (fun ip => (s'.icache ip).inum) =
      (startOf c s path).bind fun d => s.resolve d (components path)

/-- `nameiparent` returns the directory for the last component, with a reference, and leaves the
last component in `name`, or it returns nothing. -/
def NameiparentOk (c : Ctx) (s : State) (path : List UInt8) : Prop :=
  ∃ r s', nameiparent c path s = .ok r s' ∧ RefsAfter s (r.map Prod.fst) s' ∧
    r.map (fun x => ((s'.icache x.1).inum, cut x.2)) =
      (startOf c s path).bind fun d => s.resolveParent d (components path)

theorem WalkAt.refs (h : WalkAt sb me s none ip d s₁) : RefsAfter s (some ip) s₁ := by
  intro k
  rw [h.ref, Multiset.count_singleton]
  by_cases hk : k = ip
  · simp [hk]
  · simp [hk, Ne.symm hk]

theorem Walk.refs (h : Walk sb me s 0 none s₁) : RefsAfter s none s₁ := by
  intro k
  rw [h.ref]
  simp

theorem Core.resolveParent_last {e : Nat} {ns : List (List UInt8)} {n : List UInt8}
    (h : (s.resolveParent d ns).map Prod.fst = some e) (hn : ns.getLast? = some n) :
    s.resolveParent d ns = some (e, n) := by
  obtain ⟨⟨e', n'⟩, hr, rfl⟩ := Option.map_eq_some_iff.1 h
  rw [hr]
  obtain ⟨last, hlast, hr⟩ := Option.bind_eq_some_iff.1 hr
  obtain rfl := Option.some.inj (hn.symm.trans hlast)
  obtain ⟨e'', -, hif⟩ := Option.bind_eq_some_iff.1 hr
  split at hif
  · cases hif
    rfl
  · cases hif

/-- Path resolution in a directory tree, for every path: `namei` follows the components from the
root or the current directory, and `nameiparent` all but the last, if and only if the cache has an
entry for each inode on the way; otherwise `iget` panics. A path leads nowhere exactly if an inode
that has to be searched is not a directory or does not have the name. -/
theorem path_resolution_iff (ht : Tree c.sb c.me s) {path : List UInt8}
    (hpath : ∀ b ∈ path, b ≠ 0) :
    (NameiOk c s path ↔ PathRoom c s path (components path)) ∧
      (NameiparentOk c s path ↔ PathRoom c s path (components path).dropLast) ∧
      ∀ d ns, s.resolve d ns = none ↔ ∃ pre n post e, ns = pre ++ n :: post ∧
        s.resolve d pre = some e ∧ ((s.dinode e).type ≠ some .dir ∨ s.dirMap e n = none) := by
  obtain ⟨d, hd, hlive, hkept⟩ := ht.startOf path
  have hroom : ∀ ns, PathRoom c s path ns ↔
      (path.head? = some slash → CacheRoom s rootIno) ∧ WalkRoom s false d ns := by
    intro ns
    refine and_congr_right fun _ => ⟨fun h => h d hd, fun h d' hd' => ?_⟩
    obtain rfl := Option.some.inj (hd.symm.trans hd')
    exact h
  refine ⟨?_, ?_, s.resolve_eq_none⟩
  · rw [hroom]
    refine Triple.returns_iff (P := fun s' => s' = s) ?_ rfl
    refine (namex_walk ht false hpath hd hlive hkept).bind fun r =>
      .pure fun s' ⟨hw, hok⟩ => ⟨?_, hok⟩
    unfold Walked at hw
    rw [hd, Option.bind_some, ← s.walk_false]
    split at hw
    · next e he =>
      obtain ⟨ip, name, rfl, hat, -⟩ := hw
      rw [he]
      exact ⟨hat.refs, congrArg some hat.here⟩
    · next he =>
      obtain ⟨rfl, hback⟩ := hw
      rw [he]
      exact ⟨hback.refs, rfl⟩
  · rw [hroom, ← walkRoom_true]
    refine Triple.returns_iff (P := fun s' => s' = s) ?_ rfl
    refine (namex_walk ht true hpath hd hlive hkept).post fun r s' ⟨hw, hok⟩ => ⟨?_, hok⟩
    unfold Walked at hw
    rw [hd, Option.bind_some]
    rw [s.walk_true] at hw
    split at hw
    · next e he =>
      obtain ⟨ip, name, rfl, hat, hlast⟩ := hw
      rw [Core.resolveParent_last he (hlast rfl)]
      refine ⟨hat.refs, ?_⟩
      rw [Option.map_some, hat.here]
    · next he =>
      obtain ⟨rfl, hback⟩ := hw
      rw [Option.map_eq_none_iff.1 he]
      exact ⟨hback.refs, rfl⟩

end

/-! ## A small tree -/

/-- The empty file system, with a file `x` in the root directory, inode 51, and 49 files that have
lost their names. The first `n` entries of the cache are in use, for the root, which process 0 is
in, and for the files without names. -/
def smallTree (n : Nat) : State :=
  { boot emptyImage 0 with
    dinode := fun i =>
      if 2 ≤ i ∧ i ≤ 51 then ⟨some .file, 0, 0, if i = 51 then 1 else 0, 0, fun _ => 0⟩
      else emptyImage.dinode i
    block := fun b =>
      if b = 59 then Block.write rootBlock (2 * deSize) (Dirent.bytes ⟨51, strncpy [120] dirsiz⟩)
      else fun _ => 0
    icache := fun k => ⟨Dinode.zero, k.val + 1, if k.val < n then 1 else 0, none, false⟩ }

/-- The inodes other than the root are empty files or free. -/
theorem smallTree_file {i : Nat} (h : i ≠ rootIno) :
    ((smallTree n).dinode i).type ≠ some .dir ∧ ((smallTree n).dinode i).size = 0 ∧
      ((smallTree n).dinode i).addrs = fun _ => 0 := by
  simp only [smallTree]
  split
  · exact ⟨nofun, rfl, rfl⟩
  · simp [emptyImage, h, Dinode.zero]

theorem smallTree_child {d i : Nat} {name : List UInt8} (h : (smallTree n).child d name = some i) :
    i = 1 ∨ i = 51 := by
  obtain ⟨hdir, h⟩ := Option.ite_none_right_eq_some.1 h
  obtain rfl : d = rootIno := by
    by_contra hd
    exact (smallTree_file hd).1 hdir
  obtain ⟨j, hj, hs⟩ := Slots.exists_of_lookup (show (smallTree 0).dirMap 1 name = some i from h)
  have hall : ∀ j < ((smallTree 0).entries 1).size,
      (((smallTree 0).entries 1).slot j).all fun e => e.2 = 1 ∨ e.2 = 51 := by decide +kernel
  have := hall j hj
  rw [hs] at this
  simpa using this

theorem smallTree_tree (hn : 0 < n) : Tree mkfsSb 0 (smallTree n) := by
  have hroot : (smallTree 0).vol.Live mkfsSb 1 := by decide
  have hx : (smallTree 0).vol.Live mkfsSb 51 := by decide
  have haddr : (smallTree 0).vol.addr 1 (blockSlot 0) ≠ 0 := by decide
  have hlink : ((smallTree 0).dinode 1).nlink ≠ 0 ∧ ((smallTree 0).dinode 51).nlink ≠ 0 := by decide
  refine ⟨own_of_root rfl hroot fun i k => ?_, fun i hi bn hbn => ?_,
    ⟨hroot, fun h => absurd h hlink.1⟩,
    fun d _ hd => ?_, fun d name i _ _ hc => ?_, fun _ _ => nofun, fun k k' _ _ heq => ?_,
    fun _ => rfl, ⟨0, rfl, ?_, hroot⟩⟩
  · by_cases hi : i = rootIno
    · rw [hi]
      rfl
    · rw [if_neg hi, ite_self]
      exact congrFun (smallTree_file (n := n) hi).2.2 k
  · by_cases hi : i = rootIno
    · subst hi
      obtain rfl : bn = 0 := by
        have : bn * bsize < bsize := hbn
        simp only [bsize] at this
        omega
      exact ⟨by decide, haddr⟩
    · rw [(smallTree_file hi).2.1] at hbn
      exact absurd hbn (Nat.not_lt_zero _)
  · by_cases hi : d = rootIno
    · rw [hi]
      exact (by decide : deSize ∣ bsize)
    · exact absurd hd (smallTree_file hi).1
  · rcases smallTree_child hc with rfl | rfl
    · exact ⟨hroot, fun h => absurd h hlink.1⟩
    · exact ⟨hx, fun h => absurd h hlink.2⟩
  · have : k.val + 1 = k'.val + 1 := heq
    exact Fin.ext (by omega)
  · show (0 : Int) < if 0 < n then 1 else 0
    rw [if_pos hn]
    decide

/-- The path `/./x`. -/
def dotX : List UInt8 := [slash, 46, slash, 120]

/-- With all entries of the cache in use, for the root and 49 open files, `namei("/./x")` does not
return. -/
theorem path_resolution_fails :
    ∃ (c : Ctx) (s : State) (path : List UInt8), Tree c.sb c.me s ∧ (∀ b ∈ path, b ≠ 0) ∧
      ∀ r s', namei c path s ≠ .ok r s' := by
  refine ⟨rootCtx, smallTree ninode, dotX,
    smallTree_tree (by decide), by decide +kernel, fun r s' hx => ?_⟩
  have hstop : (match namei rootCtx dotX (smallTree ninode) with
      | .error (.panic _) _ => true
      | _ => false) = true := by decide +kernel
  rw [hx] at hstop
  cases hstop

/-- With an entry to spare it returns the file. -/
theorem path_resolution_x :
    ∃ r s', namei rootCtx dotX (smallTree 1) = .ok r s' ∧
      r.map (fun ip => (s'.icache ip).inum) = some 51 := by
  have hroom : ∀ e, RoomFor (smallTree 1) 1 e :=
    fun e => .inr (.inr ⟨1, rfl, .inl ⟨0, by decide, rfl⟩⟩)
  have hdot : (smallTree 1).child 1 [46] = some 1 := by decide +kernel
  have hpath : PathRoom rootCtx (smallTree 1) dotX [[46], [120]] := by
    refine ⟨fun _ => ⟨1, .inl rfl⟩, fun d hd _ e he => ?_⟩
    obtain rfl : 1 = d := Option.some.inj hd
    obtain rfl : 1 = e := Option.some.inj (hdot.symm.trans he)
    exact ⟨hroom 1, fun _ e _ => ⟨hroom e, trivial⟩⟩
  obtain ⟨r, s', hx, -, hr⟩ :=
    (path_resolution_iff (c := rootCtx) (smallTree_tree Nat.one_pos) (by decide +kernel)).1.2 hpath
  exact ⟨r, s', hx, hr.trans (by decide +kernel)⟩

end Xv6.Fs
