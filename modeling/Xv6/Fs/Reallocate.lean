import Xv6.Fs.Spec
import Xv6.Fs.Syscall
import Mathlib.Logic.Relation

/-!
# Freeing an inode while another is allocated

`iput` frees an inode on the disk before it clears the flag of its entry in the cache, and holds no
lock in between. Here one process is in `iput` of entry `a`, and another in `ialloc`, `iget` and
`ilock`. A step is a section under `icache.lock` or the update of a buffer; `iput` takes no sleep
lock, so nothing holds up the one of `ilock`.
-/

namespace Xv6.Fs

open Bytes Partial Transition
open Function (update update_of_ne update_self)

variable {P : Type}

/-- How far `iput` is. -/
inductive Putting where
  | start
  | direct (ks : List (Fin (NDIRECT + 1)))
  | entries (js : List Nat)
  | shrink
  | untype
  | last
  | done
  deriving DecidableEq

/-- How far `ialloc` and the `ilock` after it are. -/
inductive Allocating where
  | scan (inum : Nat)
  | marked (inum : Nat)
  | lock (inum : Nat) (b : Fin NINODE)
  | check (inum : Nat) (b : Fin NINODE)
  | fill (inum : Nat) (b : Fin NINODE)
  | done (inum : Nat) (b : Fin NINODE)
  deriving DecidableEq

section Steps

variable (sb : Superblock)

/-- The next step of `iput`, with `itrunc` and `iupdate`. -/
def Putting.step (a : Fin NINODE) : Putting → M P Putting
  | .start => do
    let s ← get
    if (s.inode a).ref = 1 ∧ (s.inode a).valid ∧ (s.inode a).din.nlink = 0 then
      return .direct ((List.finRange (NDIRECT + 1)).take NDIRECT)
    else
      modify fun s => s.setInode a { s.inode a with ref := (s.inode a).ref - 1 }
      return .done
  | .direct (k :: ks) => do
    let s ← get
    if (s.inode a).din.addrs k ≠ 0 then
      bfree sb ((s.inode a).din.addrs k)
      modify fun s =>
        s.setDin a { (s.inode a).din with addrs := update (s.inode a).din.addrs k 0 }
      return .direct ks
    else return .direct ks
  | .direct [] => do
    let s ← get
    if (s.inode a).din.addrs indirect ≠ 0 then return .entries (List.range NINDIRECT)
    else return .shrink
  | .entries (j :: js) => do
    let s ← get
    if word (s.data ((s.inode a).din.addrs indirect)) j ≠ 0 then
      bfree sb (word (s.data ((s.inode a).din.addrs indirect)) j)
      return .entries js
    else return .entries js
  | .entries [] => do
    let s ← get
    bfree sb ((s.inode a).din.addrs indirect)
    modify fun s =>
      s.setDin a { (s.inode a).din with addrs := update (s.inode a).din.addrs indirect 0 }
    return .shrink
  | .shrink => do
    modify fun s => s.setDin a { (s.inode a).din with size := 0 }
    iupdate sb a
    return .untype
  | .untype => do
    modify fun s => s.setDin a { (s.inode a).din with type := .free }
    iupdate sb a
    return .last
  | .last => do
    modify fun s =>
      s.setInode a { s.inode a with valid := false, ref := (s.inode a).ref - 1 }
    return .done
  | .done => panic

/-- The next step of `ialloc`, and of the `iget` at its end and `ilock` of what it returns. -/
def Allocating.step (type : IType) : Allocating → M P Allocating
  | .scan inum => do
    let s ← get
    if inum < sb.ninodes then
      if (s.dinode inum).type = .free then
        modify fun s =>
          { s with dinode := update s.dinode inum { Dinode.zero with type } }
        logWrite (sb.iblock inum)
        return .marked inum
      else return .scan (inum + 1)
    else panic
  | .marked inum => do
    let b ← iget inum
    return .lock inum b
  | .lock inum b => do
    let s ← get
    if (s.inode b).ref < 1 then panic else return .check inum b
  | .check inum b => do
    let s ← get
    if (s.inode b).valid then return .done inum b else return .fill inum b
  | .fill inum b => do
    let s ← get
    modify fun s =>
      s.setInode b { s.inode b with valid := true, din := s.dinode (s.inode b).inum }
    if (s.dinode (s.inode b).inum).type = .free then panic else return .done inum b
  | .done _ _ => panic

/-- The file system and the two calls. -/
structure Race (P : Type) where
  fs : State P
  put : Putting
  alloc : Allocating

inductive Side where
  | put
  | alloc
  deriving DecidableEq

def Race.step (a : Fin NINODE) (type : IType) (r : Race P) : Side → Option (Race P)
  | .put => ((r.put.step sb a).run r.fs).map fun x => { r with fs := x.2, put := x.1 }
  | .alloc => ((r.alloc.step sb type).run r.fs).map fun x => { r with fs := x.2, alloc := x.1 }

end Steps

/-! ## What the steps of `iput` do -/

/-- Only entry `a`, and the inode it stands for, may have changed. -/
structure Touches (a : Fin NINODE) (s s' : State P) : Prop where
  others : ∀ i ≠ a, s'.inode i = s.inode i
  inum : (s'.inode a).inum = (s.inode a).inum
  ref : (s'.inode a).ref = (s.inode a).ref
  valid : (s'.inode a).valid = (s.inode a).valid
  dinode : ∀ m ≠ (s.inode a).inum, s'.dinode m = s.dinode m

/-- Content of the inode has been given up; it is not free yet. -/
structure Trims (a : Fin NINODE) (s s' : State P) : Prop extends Touches a s s' where
  nlink : (s'.inode a).din.nlink = (s.inode a).din.nlink
  type : (s'.inode a).din.type = (s.inode a).din.type
  disk : s'.dinode (s.inode a).inum = s.dinode (s.inode a).inum ∨
    (s'.dinode (s.inode a).inum).type = (s.inode a).din.type

/-- The inode is not free on the disk yet. -/
def Putting.early : Putting → Bool
  | .last | .done => false
  | _ => true

theorem Putting.of_not_early {p : Putting} (h : ¬ p.early) : p = .last ∨ p = .done := by
  cases p with
  | last => exact .inl rfl
  | done => exact .inr rfl
  | start | direct | entries | shrink | untype => exact absurd rfl h

/-- A field that is as it was in entry `a` is as it was in all entries. -/
theorem field_eq {β : Type} {a : Fin NINODE} {s s' : State P} (obs : Inode → β)
    (hothers : ∀ i ≠ a, s'.inode i = s.inode i) (ha : obs (s'.inode a) = obs (s.inode a))
    (i : Fin NINODE) : obs (s'.inode i) = obs (s.inode i) := by
  by_cases hi : i = a
  · rw [hi, ha]
  · rw [hothers i hi]

theorem Trims.refl (a : Fin NINODE) (s : State P) : Trims a s s :=
  ⟨⟨fun _ _ => rfl, rfl, rfl, rfl, fun _ _ => rfl⟩, rfl, rfl, .inl rfl⟩

section Put

variable {sb : Superblock} {a : Fin NINODE} {s s' : State P} {p p' : Putting}

theorem Trims.setDin {d : Dinode} (hdin : s'.inode = (s.setDin a d).inode)
    (hnlink : d.nlink = (s.inode a).din.nlink) (htype : d.type = (s.inode a).din.type)
    (hdisk : s'.dinode = s.dinode) : Trims a s s' := by
  have ha : s'.inode a = { s.inode a with din := d } := by
    rw [hdin]
    exact update_self ..
  refine ⟨⟨fun i hi => ?_, ?_, ?_, ?_, fun m _ => by rw [hdisk]⟩, ?_, ?_, .inl (by rw [hdisk])⟩
  · rw [hdin]
    exact update_of_ne hi ..
  all_goals rw [ha]
  · exact hnlink
  · exact htype

theorem touches_flush (sb : Superblock) (a : Fin NINODE) (s : State P) (d : Dinode) :
    Touches a s ((s.setDin a d).flush sb a) ∧
    (((s.setDin a d).flush sb a).inode a).din = d ∧
    ((s.setDin a d).flush sb a).dinode (s.inode a).inum = d := by
  have ha : (s.setDin a d).inode a = { s.inode a with din := d } := update_self ..
  have hdinode : ((s.setDin a d).flush sb a).dinode =
      update s.dinode (s.inode a).inum d := by
    rw [State.flush, ha]
    rfl
  have ha' : ((s.setDin a d).flush sb a).inode a = { s.inode a with din := d } := ha
  refine ⟨⟨fun i hi => update_of_ne hi .., ?_, ?_, ?_, fun m hm => ?_⟩, ?_, ?_⟩
  · rw [ha']
  · rw [ha']
  · rw [ha']
  · rw [hdinode, update_of_ne hm]
  · rw [ha']
  · rw [hdinode, update_self]

theorem Putting.step_early (h : (p.step sb a).run s = some (p', s')) (hearly : p.early)
    (hlast : (s.inode a).ref = 1 ∧ (s.inode a).valid ∧ (s.inode a).din.nlink = 0) :
    p'.early ∧ Trims a s s' ∨ p' = .last ∧ Touches a s s' := by
  cases p with
  | start =>
    simp only [Putting.step, get_bind, if_pos hlast, pure_iff] at h
    obtain ⟨rfl, rfl⟩ := h
    exact .inl ⟨rfl, .refl a _⟩
  | direct ks =>
    cases ks with
    | nil =>
      simp only [Putting.step, get_bind] at h
      split at h
      all_goals
        obtain ⟨rfl, rfl⟩ := pure_iff.mp h
        exact .inl ⟨rfl, .refl a _⟩
    | cons k ks =>
      simp only [Putting.step, get_bind] at h
      split at h
      · simp only [bind_iff, modify_iff, pure_iff] at h
        obtain ⟨_, t, hfree, _, _, rfl, rfl, rfl⟩ := h
        obtain ⟨-, rfl⟩ := bfree_inv hfree
        exact .inl ⟨rfl, .setDin rfl rfl rfl rfl⟩
      · obtain ⟨rfl, rfl⟩ := pure_iff.mp h
        exact .inl ⟨rfl, .refl a _⟩
  | entries js =>
    cases js with
    | nil =>
      simp only [Putting.step, get_bind, bind_iff, modify_iff,
        pure_iff] at h
      obtain ⟨_, t, hfree, _, _, rfl, rfl, rfl⟩ := h
      obtain ⟨-, rfl⟩ := bfree_inv hfree
      exact .inl ⟨rfl, .setDin rfl rfl rfl rfl⟩
    | cons j js =>
      simp only [Putting.step, get_bind] at h
      split at h
      · simp only [bind_iff, pure_iff] at h
        obtain ⟨_, t, hfree, rfl, rfl⟩ := h
        obtain ⟨-, rfl⟩ := bfree_inv hfree
        exact .inl ⟨rfl, ⟨⟨fun _ _ => rfl, rfl, rfl, rfl, fun _ _ => rfl⟩, rfl, rfl, .inl rfl⟩⟩
      · obtain ⟨rfl, rfl⟩ := pure_iff.mp h
        exact .inl ⟨rfl, .refl a _⟩
  | shrink =>
    simp only [Putting.step, bind_iff, modify_iff, pure_iff] at h
    obtain ⟨_, t, rfl, _, _, hupdate, rfl, rfl⟩ := h
    obtain rfl := iupdate_inv hupdate
    obtain ⟨htouches, hdin, hdisk⟩ := touches_flush sb a s { (s.inode a).din with size := 0 }
    exact .inl ⟨rfl, ⟨htouches, by rw [hdin], by rw [hdin], .inr (by rw [hdisk])⟩⟩
  | untype =>
    simp only [Putting.step, bind_iff, modify_iff, pure_iff] at h
    obtain ⟨_, t, rfl, _, _, hupdate, rfl, rfl⟩ := h
    obtain rfl := iupdate_inv hupdate
    exact .inr ⟨rfl, (touches_flush sb a s _).1⟩
  | last => cases hearly
  | done => cases hearly

end Put

/-! ## The steps one after the other -/

section Alone

open Relation (ReflTransGen)

variable {sb : Superblock} {a : Fin NINODE} {s s' t : State P} {u : Unit}

/-- Steps of `iput` with nothing between them. -/
def Putting.Leads (sb : Superblock) (a : Fin NINODE) :
    Putting × State P → Putting × State P → Prop :=
  ReflTransGen fun x y => (x.1.step sb a).run x.2 = some y

theorem itruncDirect_leads {ks : List (Fin (NDIRECT + 1))}
    (h : (itruncDirect sb a ks).run s = some (u, t)) :
    Putting.Leads sb a (.direct ks, s) (.direct [], t) := by
  induction ks generalizing s with
  | nil =>
    obtain ⟨-, rfl⟩ := pure_iff.mp h
    exact .refl
  | cons k ks ih =>
    simp only [itruncDirect, get_bind] at h
    split at h
    · next hk =>
      simp only [bind_iff, modify_iff] at h
      obtain ⟨_, v, hfree, _, _, rfl, h⟩ := h
      refine .head ?_ (ih h)
      simp only [Putting.step, get_bind, if_pos hk, bind_of_run hfree]
      rfl
    · next hk =>
      refine .head ?_ (ih h)
      simp only [Putting.step, get_bind, if_neg hk]
      rfl

theorem itruncEntries_leads {js : List Nat}
    (h : (itruncEntries sb (s.data ((s.inode a).din.addrs indirect)) js).run s = some (u, t)) :
    Putting.Leads sb a (.entries js, s) (.entries [], t) ∧ t.inode = s.inode := by
  induction js generalizing s with
  | nil =>
    obtain ⟨-, rfl⟩ := pure_iff.mp h
    exact ⟨.refl, rfl⟩
  | cons j js ih =>
    simp only [itruncEntries] at h
    split at h
    · next hj =>
      rw [bind_iff] at h
      obtain ⟨_, v, hfree, h⟩ := h
      have hv := (bfree_inv hfree).2
      have hdata : v.data = s.data := by rw [hv]; rfl
      have hinode : v.inode = s.inode := by rw [hv]; rfl
      rw [← hdata, ← hinode] at h
      obtain ⟨hleads, hsame⟩ := ih h
      refine ⟨.head ?_ hleads, hsame.trans hinode⟩
      simp only [Putting.step, get_bind, if_pos hj, bind_of_run hfree]
      rfl
    · next hj =>
      obtain ⟨hleads, hsame⟩ := ih h
      refine ⟨.head ?_ hleads, hsame⟩
      simp only [Putting.step, get_bind, if_neg hj]
      rfl

theorem shrink_leads (h : (iupdate sb a).run (s.setDin a { (s.inode a).din with size := 0 }) =
    some (u, t)) : Putting.Leads sb a (.shrink, s) (.untype, t) := by
  refine .single ?_
  simp only [Putting.step, modify_bind, bind_of_run h]
  rfl

theorem itrunc_leads (h : (itrunc sb a).run s = some (u, t)) :
    Putting.Leads sb a (.direct ((List.finRange (NDIRECT + 1)).take NDIRECT), s) (.untype, t) := by
  simp only [itrunc, bind_iff, get_iff] at h
  obtain ⟨_, v, hdirect, _, _, ⟨rfl, rfl⟩, h⟩ := h
  refine (itruncDirect_leads hdirect).trans ?_
  split at h
  · next hindirect =>
    simp only [bind_iff, modify_iff] at h
    obtain ⟨_, w, hentries, _, x, hfree, _, _, rfl, _, _, rfl, hupdate⟩ := h
    obtain ⟨hleads, hinode⟩ := itruncEntries_leads hentries
    refine .head ?_ (hleads.trans (.head ?_ (shrink_leads hupdate)))
    · simp only [Putting.step, get_bind, if_pos hindirect]
      rfl
    · rw [← hinode] at hfree
      simp only [Putting.step, get_bind, bind_of_run hfree]
      rfl
  · next hindirect =>
    refine .head ?_ (shrink_leads h)
    simp only [Putting.step, get_bind, if_neg hindirect]
    rfl

/-- `iput` of the model is its steps one after the other. -/
theorem iput_leads (h : (iput sb a).run s = some (u, s')) :
    Putting.Leads sb a (.start, s) (.done, s') := by
  simp only [iput, get_bind] at h
  split at h
  · next hlast =>
    simp only [bind_iff, modify_iff] at h
    obtain ⟨_, v, htrunc, _, _, rfl, _, w, hupdate, _, _, rfl, h⟩ := h
    refine .head ?_ ((itrunc_leads htrunc).trans (.head (b := (.last, w)) ?_ (.single ?_)))
    · simp only [Putting.step, get_bind, if_pos hlast]
      rfl
    · simp only [Putting.step, modify_bind, bind_of_run hupdate]
      rfl
    · simp only [Putting.step, modify_bind, pure_iff, true_and]
      rw [← h]
      simp [State.setInode]
  · next hlast =>
    rw [modify_iff] at h
    refine .single ?_
    simp only [Putting.step, get_bind, if_neg hlast, modify_bind, h]
    rfl

end Alone

/-! ## What holds while both run -/

namespace Allocating

/-- The inode that has been marked allocated. -/
def inum : Allocating → Option Nat
  | .scan _ => none
  | .marked m | .lock m _ | .check m _ | .fill m _ | .done m _ => some m

/-- The entry of the cache that stands for it. -/
def slot : Allocating → Option (Fin NINODE)
  | .scan _ | .marked _ => none
  | .lock _ b | .check _ b | .fill _ b | .done _ b => some b

/-- The entry whose flag `ilock` is about to look at. -/
def looks : Allocating → Option (Fin NINODE)
  | .check _ b => some b
  | _ => none

/-- `ilock` has not looked at the flag yet. -/
def unseen : Allocating → Bool
  | .marked _ | .lock _ _ | .check _ _ => true
  | _ => false

end Allocating

/-- Entries that are in use stand for different inodes; one that has been read is as on the disk,
and not free. -/
structure Coherent (s : State P) : Prop where
  unique : ∀ i j, 0 < (s.inode i).ref → 0 < (s.inode j).ref →
    (s.inode i).inum = (s.inode j).inum → i = j
  agree : ∀ i, 0 < (s.inode i).ref → (s.inode i).valid →
    (s.inode i).din = s.dinode (s.inode i).inum ∧ (s.inode i).din.type ≠ .free

/-- What holds if `ilock` never looks at the flag just before `iput` clears it. -/
structure Race.Inv (a : Fin NINODE) (type : IType) (r : Race P) : Prop where
  unique : ∀ i j, 0 < (r.fs.inode i).ref → 0 < (r.fs.inode j).ref →
    (r.fs.inode i).inum = (r.fs.inode j).inum → i = j
  agree : ∀ i, (i = a → r.put = .done) → 0 < (r.fs.inode i).ref → (r.fs.inode i).valid →
    (r.fs.inode i).din = r.fs.dinode (r.fs.inode i).inum ∧ (r.fs.inode i).din.type ≠ .free
  early : r.put.early →
    ((r.fs.inode a).ref = 1 ∧ (r.fs.inode a).valid ∧ (r.fs.inode a).din.nlink = 0) ∧
      (r.fs.inode a).din.type ≠ .free ∧ (r.fs.dinode (r.fs.inode a).inum).type ≠ .free
  last : r.put = .last → 0 < (r.fs.inode a).ref
  fresh : ∀ m, r.alloc.inum = some m → r.fs.dinode m = { Dinode.zero with type } ∧
    (r.put.early → (r.fs.inode a).inum ≠ m)
  found : ∀ m b, r.alloc.inum = some m → r.alloc.slot = some b → (r.fs.inode b).inum = m ∧
    0 < (r.fs.inode b).ref ∧ (b = a → r.put = .last → 2 ≤ (r.fs.inode a).ref)
  unseen : ∀ m, r.alloc.inum = some m → r.alloc.unseen → ∀ i, 0 < (r.fs.inode i).ref →
    (r.fs.inode i).inum = m → (r.fs.inode i).valid → i = a ∧ r.put = .last
  seen : ∀ b, r.alloc.slot = some b → r.alloc.unseen = false → b = a → r.put = .done
  read : ∀ m b, r.alloc = .done m b → (r.fs.inode b).din = r.fs.dinode m

/-- `ilock` does not look at the flag of the entry between the update of the disk by which `iput`
frees the inode and the section in which it clears the flag. -/
def Race.Apart (a : Fin NINODE) (r : Race P) : Side → Prop
  | .put => True
  | .alloc => r.alloc.looks = some a → r.put ≠ .last

instance Race.Apart.decidable (a : Fin NINODE) (r : Race P) :
    ∀ e, Decidable (r.Apart a e)
  | .put => isTrue trivial
  | .alloc => inferInstanceAs (Decidable (r.alloc.looks = some a → r.put ≠ .last))

section Inv

variable {sb : Superblock} {a : Fin NINODE} {type : IType} {s : State P} {r r' : Race P}

theorem Race.start_inv (h : Coherent s)
    (ha : (s.inode a).ref = 1 ∧ (s.inode a).valid ∧ (s.inode a).din.nlink = 0) (n : Nat) :
    Race.Inv a type ⟨s, .start, .scan n⟩ where
  unique := h.unique
  agree i _ := h.agree i
  early _ := by
    obtain ⟨hdin, htype⟩ := h.agree a (by rw [ha.1]; exact Nat.one_pos) ha.2.1
    exact ⟨ha, htype, hdin ▸ htype⟩
  last h := by cases h
  fresh m h := by cases h
  found m b h := by cases h
  unseen m h := by cases h
  seen b h := by cases h
  read m b h := by cases h

namespace Race.Inv

variable {p' : Putting} {x' : Allocating} {s' : State P}

theorem ne_of_early (h : Race.Inv a type r) (hearly : r.put.early) {i : Fin NINODE} (hi : i ≠ a)
    (href : 0 < (r.fs.inode i).ref) : (r.fs.inode i).inum ≠ (r.fs.inode a).inum := fun heq =>
  hi (h.unique i a href (by rw [(h.early hearly).1.1]; exact Nat.one_pos) heq)

/-- `iput` works on its entry while nobody else has come to it. -/
theorem touch (h : Race.Inv a type r) (hearly : r.put.early) (ht : Touches a r.fs s')
    (hp : p' ≠ .done)
    (hnew : p'.early → (s'.inode a).din.nlink = 0 ∧ (s'.inode a).din.type ≠ .free ∧
      (s'.dinode (s'.inode a).inum).type ≠ .free) :
    Race.Inv a type { r with fs := s', put := p' } := by
  have hdone : r.put ≠ .done := by
    intro hdone
    rw [hdone] at hearly
    cases hearly
  have hlast : r.put ≠ .last := by
    intro hlast
    rw [hlast] at hearly
    cases hearly
  have hinum := field_eq Inode.inum ht.others ht.inum
  have href := field_eq Inode.ref ht.others ht.ref
  have hvalid := field_eq Inode.valid ht.others ht.valid
  have hfresh (m) (hm : r.alloc.inum = some m) : s'.dinode m = r.fs.dinode m :=
    ht.dinode m (Ne.symm ((h.fresh m hm).2 hearly))
  refine ⟨fun i j => ?_, fun i hi => ?_, fun hp' => ?_, fun _ => ?_, fun m hm => ?_,
    fun m b hm hb => ?_, fun m hm hu i => ?_, fun b hb hu hba => ?_, fun m b hb => ?_⟩
  · simp only [href, hinum]
    exact h.unique i j
  · have hia : i ≠ a := fun heq => hp (hi heq)
    simp only [ht.others i hia]
    intro hpos hv
    rw [ht.dinode _ (h.ne_of_early hearly hia hpos)]
    exact h.agree i (fun heq => absurd heq hia) hpos hv
  · obtain ⟨hnlink, hrest⟩ := hnew hp'
    obtain ⟨⟨hone, hv, -⟩, -⟩ := h.early hearly
    exact ⟨⟨(href a).trans hone, (hvalid a).trans hv, hnlink⟩, hrest⟩
  · simp only [href, (h.early hearly).1.1]
    exact Nat.one_pos
  · simp only [hfresh m hm, hinum]
    exact ⟨(h.fresh m hm).1, fun _ => (h.fresh m hm).2 hearly⟩
  · simp only [href, hinum]
    obtain ⟨hbm, hpos, -⟩ := h.found m b hm hb
    refine ⟨hbm, hpos, fun hba => ?_⟩
    subst hba
    exact absurd hbm ((h.fresh m hm).2 hearly)
  · simp only [href, hinum, hvalid]
    intro hpos him hv
    exact absurd (h.unseen m hm hu i hpos him hv).2 hlast
  · exact absurd (h.seen b hb hu hba) hdone
  · have hba : b ≠ a := fun hba => hdone (h.seen b (by rw [hb]; rfl) (by rw [hb]; rfl) hba)
    simp only [ht.others b hba, hfresh m (by rw [hb]; rfl)]
    exact h.read m b hb

theorem finish (h : Race.Inv a type r) (hlast : r.put = .last)
    (hothers : ∀ i ≠ a, s'.inode i = r.fs.inode i)
    (ha : s'.inode a = { r.fs.inode a with valid := false, ref := (r.fs.inode a).ref - 1 })
    (hdinode : s'.dinode = r.fs.dinode) :
    Race.Inv a type { r with fs := s', put := .done } := by
  have hdone : r.put ≠ .done := by
    rw [hlast]
    decide
  have hinum := field_eq Inode.inum hothers (by rw [ha])
  have hpos (i) (hi : 0 < (s'.inode i).ref) : 0 < (r.fs.inode i).ref := by
    by_cases hia : i = a
    · rw [hia, ha] at hi
      rw [hia]
      exact Nat.lt_of_lt_of_le hi (Nat.sub_le ..)
    · rwa [hothers i hia] at hi
  have hne (i) (hv : (s'.inode i).valid = true) : i ≠ a := by
    rintro rfl
    rw [ha] at hv
    cases hv
  refine ⟨fun i j hi hj => ?_, fun i _ hi hv => ?_, fun h => (by cases h), fun h => (by cases h),
    fun m hm => ⟨?_, fun h => (by cases h)⟩, fun m b hm hb => ?_, fun m hm hu i hi him hv => ?_,
    fun _ _ _ _ => rfl, fun m b hb => ?_⟩
  · simp only [hinum]
    exact h.unique i j (hpos i hi) (hpos j hj)
  · have hia := hne i hv
    simp only [hothers i hia, hdinode] at hi hv ⊢
    exact h.agree i (fun heq => absurd heq hia) hi hv
  · rw [hdinode]
    exact (h.fresh m hm).1
  · obtain ⟨hbm, hbpos, htwo⟩ := h.found m b hm hb
    refine ⟨(hinum b).trans hbm, ?_, fun _ h => (by cases h)⟩
    by_cases hba : b = a
    · subst hba
      show 0 < (s'.inode b).ref
      rw [ha]
      exact Nat.sub_pos_of_lt (htwo rfl hlast)
    · show 0 < (s'.inode b).ref
      rwa [hothers b hba]
  · have hia := hne i hv
    simp only [hothers i hia] at hi him hv
    exact absurd (h.unseen m hm hu i hi him hv).1 hia
  · have hba : b ≠ a := fun hba => hdone (h.seen b (by rw [hb]; rfl) (by rw [hb]; rfl) hba)
    simp only [hothers b hba, hdinode]
    exact h.read m b hb

theorem put_step (h : Race.Inv a type r) (hrun : (r.put.step sb a).run r.fs = some (p', s')) :
    Race.Inv a type { r with fs := s', put := p' } := by
  by_cases hearly : r.put.early
  · obtain ⟨hlast, htype, hdisk⟩ := h.early hearly
    obtain ⟨hp', ht⟩ | ⟨rfl, ht⟩ := Putting.step_early hrun hearly hlast
    · refine h.touch hearly ht.toTouches ?_ fun _ => ⟨ht.nlink ▸ hlast.2.2, ht.type ▸ htype, ?_⟩
      · rintro rfl
        cases hp'
      · rw [ht.inum]
        rcases ht.disk with hsame | heq
        · rwa [hsame]
        · rwa [heq]
    · exact h.touch hearly ht (by decide) fun hp' => by cases hp'
  · obtain hput | hput := Putting.of_not_early hearly
    · rw [hput] at hrun
      simp only [Putting.step, bind_iff, modify_iff, pure_iff] at hrun
      obtain ⟨_, _, rfl, rfl, rfl⟩ := hrun
      exact h.finish hput (fun i hi => update_of_ne hi ..) (update_self ..) rfl
    · rw [hput] at hrun
      cases hrun

variable {m : Nat} {b : Fin NINODE}

section

variable (h : Race.Inv a type r)

include h

theorem mark (hfree : (r.fs.dinode m).type = .free)
    (hinode : s'.inode = r.fs.inode)
    (hdinode : s'.dinode = update r.fs.dinode m { Dinode.zero with type }) :
    Race.Inv a type { r with fs := s', alloc := .marked m } := by
  -- no entry but that of the other process can stand for it
  have hread (i) (hi : i = a → r.put = .done) (hpos : 0 < (r.fs.inode i).ref)
      (hv : (r.fs.inode i).valid) : (r.fs.inode i).inum ≠ m := by
    rintro rfl
    obtain ⟨hdin, htype⟩ := h.agree i hi hpos hv
    rw [hdin] at htype
    exact htype hfree
  have hearly (hp : r.put.early) : (r.fs.inode a).inum ≠ m := by
    rintro rfl
    exact (h.early hp).2.2 hfree
  refine ⟨?_, fun i hi => ?_, fun hp => ?_, ?_, fun n hn => ?_, fun n b _ hb => (by cases hb),
    fun n hn _ i => ?_, fun b hb => (by cases hb), fun n b hb => (by cases hb)⟩
  · simpa only [hinode] using h.unique
  · simp only [hinode, hdinode]
    intro hpos hv
    rw [update_of_ne (hread i hi hpos hv)]
    exact h.agree i hi hpos hv
  · simp only [hinode, hdinode, update_of_ne (hearly hp)]
    exact h.early hp
  · simpa only [hinode] using h.last
  · cases hn
    simp only [hinode, hdinode, update_self]
    exact ⟨trivial, hearly⟩
  · cases hn
    simp only [hinode]
    intro hpos him hv
    by_contra hnot
    refine hread i (fun hia => ?_) hpos hv him
    subst hia
    -- its `iput` has not freed it yet, or is about to clear the flag
    refine (Putting.of_not_early fun hp => hearly hp him).resolve_left fun hput => ?_
    exact hnot ⟨rfl, hput⟩

theorem get_found (halloc : r.alloc = .marked m)
    (hpos : 0 < (r.fs.inode b).ref) (hbm : (r.fs.inode b).inum = m)
    (hothers : ∀ i ≠ b, s'.inode i = r.fs.inode i)
    (hb : s'.inode b = { r.fs.inode b with ref := (r.fs.inode b).ref + 1 })
    (hdinode : s'.dinode = r.fs.dinode) :
    Race.Inv a type { r with fs := s', alloc := .lock m b } := by
  have hm : r.alloc.inum = some m := by rw [halloc]; rfl
  have hu : r.alloc.unseen = true := by rw [halloc]; rfl
  have hinum := field_eq Inode.inum hothers (by rw [hb])
  have hvalid := field_eq Inode.valid hothers (by rw [hb])
  have hdin := field_eq Inode.din hothers (by rw [hb])
  have href (i) (hi : 0 < (s'.inode i).ref) : 0 < (r.fs.inode i).ref := by
    by_cases hib : i = b
    · exact hib ▸ hpos
    · rwa [hothers i hib] at hi
  refine ⟨fun i j hi hj => ?_, fun i hi hri => ?_, fun hp => ?_, fun hp => ?_, fun n hn => ?_,
    fun n c hn hc => ?_, fun n hn _ i hi => ?_, fun c _ hc => (by cases hc),
    fun n c hc => (by cases hc)⟩
  · simp only [hinum]
    exact h.unique i j (href i hi) (href j hj)
  · simp only [hinum, hvalid, hdin, hdinode]
    exact h.agree i hi (href i hri)
  · have hab : a ≠ b := by
      rintro rfl
      exact (h.fresh m hm).2 hp hbm
    simp only [hothers a hab, hdinode]
    exact h.early hp
  · by_cases hab : a = b
    · simp only [hab, hb]
      exact Nat.succ_pos _
    · simp only [hothers a hab]
      exact h.last hp
  · cases hn
    simp only [hinum, hdinode]
    exact h.fresh m hm
  · cases hn
    cases hc
    refine ⟨(hinum b).trans hbm, ?_, fun hba _ => ?_⟩
    · simp only [hb]
      exact Nat.succ_pos _
    · simp only [← hba, hb]
      exact Nat.succ_le_succ hpos
  · cases hn
    simp only [hinum, hvalid]
    exact h.unseen m hm hu i (href i hi)

theorem get_empty (halloc : r.alloc = .marked m)
    (hnone : ∀ j, 0 < (r.fs.inode j).ref → (r.fs.inode j).inum ≠ m)
    (hfree : (r.fs.inode b).ref = 0) (hothers : ∀ i ≠ b, s'.inode i = r.fs.inode i)
    (hb : s'.inode b = { r.fs.inode b with inum := m, ref := 1, valid := false })
    (hdinode : s'.dinode = r.fs.dinode) :
    Race.Inv a type { r with fs := s', alloc := .lock m b } := by
  have hm : r.alloc.inum = some m := by rw [halloc]; rfl
  have hne {i} (hi : 0 < (r.fs.inode i).ref) : i ≠ b := by
    rintro rfl
    rw [hfree] at hi
    cases hi
  have hne' {i} (hv : (s'.inode i).valid = true) : i ≠ b := by
    rintro rfl
    rw [hb] at hv
    cases hv
  have hearly (hp : r.put.early) : a ≠ b := hne (by rw [(h.early hp).1.1]; exact Nat.one_pos)
  refine ⟨fun i j hi hj hij => ?_, fun i hi hri hv => ?_, fun hp => ?_, fun hp => ?_,
    fun n hn => ?_, fun n c hn hc => ?_, fun n hn _ i hri him hv => ?_,
    fun c _ hc => (by cases hc), fun n c hc => (by cases hc)⟩
  · by_cases hib : i = b
    · by_cases hjb : j = b
      · rw [hib, hjb]
      · simp only [hib, hb, hothers j hjb] at hj hij
        exact absurd hij.symm (hnone j hj)
    · by_cases hjb : j = b
      · simp only [hjb, hb, hothers i hib] at hi hij
        exact absurd hij (hnone i hi)
      · simp only [hothers i hib, hothers j hjb] at hi hj hij
        exact h.unique i j hi hj hij
  · have hib := hne' hv
    simp only [hothers i hib, hdinode] at hri hv ⊢
    exact h.agree i hi hri hv
  · simp only [hothers a (hearly hp), hdinode]
    exact h.early hp
  · simp only [hothers a (hne (h.last hp))]
    exact h.last hp
  · cases hn
    simp only [hdinode]
    refine ⟨(h.fresh m hm).1, fun hp => ?_⟩
    rw [hothers a (hearly hp)]
    exact (h.fresh m hm).2 hp
  · cases hn
    cases hc
    simp only [hb]
    exact ⟨trivial, Nat.one_pos, fun hba hp => absurd hba.symm (hne (h.last hp))⟩
  · cases hn
    have hib := hne' hv
    simp only [hothers i hib] at hri him
    exact absurd him (hnone i hri)

theorem get (halloc : r.alloc = .marked m)
    (hrun : (iget m).run r.fs = some (b, s')) :
    Race.Inv a type { r with fs := s', alloc := .lock m b } := by
  obtain ⟨hpos, hbm, rfl⟩ | ⟨hnone, hfree, rfl⟩ := iget_inv hrun
  · exact h.get_found halloc hpos hbm (fun i hi => update_of_ne hi ..)
      (update_self ..) rfl
  · exact h.get_empty halloc hnone hfree (fun i hi => update_of_ne hi ..)
      (update_self ..) rfl

theorem fill (halloc : r.alloc = .fill m b)
    (hothers : ∀ i ≠ b, s'.inode i = r.fs.inode i)
    (hb : s'.inode b =
      { r.fs.inode b with valid := true, din := r.fs.dinode (r.fs.inode b).inum })
    (hdinode : s'.dinode = r.fs.dinode) (htype : (r.fs.dinode (r.fs.inode b).inum).type ≠ .free) :
    Race.Inv a type { r with fs := s', alloc := .done m b } := by
  have hm : r.alloc.inum = some m := by rw [halloc]; rfl
  have hslot : r.alloc.slot = some b := by rw [halloc]; rfl
  have hseen := h.seen b hslot (by rw [halloc]; rfl)
  have hinum := field_eq Inode.inum hothers (by rw [hb])
  have href := field_eq Inode.ref hothers (by rw [hb])
  refine ⟨fun i j => ?_, fun i hi => ?_, fun hp => ?_, ?_, fun n hn => ?_, fun n c hn hc => ?_,
    fun n _ hu => (by cases hu), fun c hc _ => ?_, fun n c hc => ?_⟩
  · simp only [href, hinum]
    exact h.unique i j
  · simp only [hdinode]
    by_cases hib : i = b
    · subst hib
      rw [hb]
      exact fun _ _ => ⟨rfl, htype⟩
    · rw [hothers i hib]
      exact h.agree i hi
  · have hab : a ≠ b := by
      rintro rfl
      rw [show r.put = .done from hseen rfl] at hp
      cases hp
    simp only [hothers a hab, hdinode]
    exact h.early hp
  · simp only [href]
    exact h.last
  · cases hn
    simp only [hdinode, hinum]
    exact h.fresh m hm
  · cases hn
    cases hc
    simp only [href, hinum]
    exact h.found m b hm hslot
  · cases hc
    exact hseen
  · cases hc
    simp only [hb, hdinode, (h.found m b hm hslot).1]

/-- Steps that only look. -/
theorem look (hinum : x'.inum = r.alloc.inum)
    (hslot : x'.slot = r.alloc.slot) (hunseen : x'.unseen → r.alloc.unseen)
    (hseen : ∀ b, x'.slot = some b → x'.unseen = false → b = a → r.put = .done)
    (hread : ∀ m b, x' ≠ .done m b) : Race.Inv a type { r with alloc := x' } where
  unique := h.unique
  agree := h.agree
  early := h.early
  last := h.last
  fresh m hm := h.fresh m (hinum ▸ hm)
  found m b hm hb := h.found m b (hinum ▸ hm) (hslot ▸ hb)
  unseen m hm hu := h.unseen m (hinum ▸ hm) (hunseen hu)
  seen := hseen
  read m b hb := absurd hb (hread m b)

theorem alloc_step (hapart : r.Apart a .alloc)
    (hrun : (r.alloc.step sb type).run r.fs = some (x', s')) :
    Race.Inv a type { r with fs := s', alloc := x' } := by
  cases halloc : r.alloc with
  | scan m =>
    rw [halloc] at hrun
    simp only [Allocating.step, get_bind] at hrun
    split at hrun
    · split at hrun
      · next hfree =>
        simp only [logWrite, bind_iff, modify_iff, pure_iff] at hrun
        obtain ⟨_, _, rfl, _, _, rfl, rfl, rfl⟩ := hrun
        exact h.mark hfree rfl rfl
      · obtain ⟨rfl, rfl⟩ := pure_iff.mp hrun
        refine h.look ?_ ?_ (fun hu => (by cases hu)) (fun b hb => (by cases hb))
          fun _ _ hx => (by cases hx)
        · rw [halloc]
          rfl
        · rw [halloc]
          rfl
    · cases hrun
  | marked m =>
    rw [halloc] at hrun
    simp only [Allocating.step, bind_iff, pure_iff] at hrun
    obtain ⟨b, _, hget, rfl, rfl⟩ := hrun
    exact h.get halloc hget
  | lock m b =>
    rw [halloc] at hrun
    simp only [Allocating.step, get_bind] at hrun
    split at hrun
    · cases hrun
    · obtain ⟨rfl, rfl⟩ := pure_iff.mp hrun
      refine h.look ?_ ?_ (fun _ => ?_) (fun b _ hu => (by cases hu)) fun _ _ hx => (by cases hx)
      all_goals
        rw [halloc]
        rfl
  | check m b =>
    have hm : r.alloc.inum = some m := by rw [halloc]; rfl
    have hb : r.alloc.slot = some b := by rw [halloc]; rfl
    obtain ⟨hbm, hpos, -⟩ := h.found m b hm hb
    rw [halloc] at hrun
    simp only [Allocating.step, get_bind] at hrun
    split at hrun
    · next hv =>
      obtain ⟨rfl, hlast⟩ := h.unseen m hm (by rw [halloc]; rfl) b hpos hbm hv
      exact absurd hlast (hapart (by rw [halloc]; rfl))
    · obtain ⟨rfl, rfl⟩ := pure_iff.mp hrun
      refine h.look ?_ ?_ (fun hu => (by cases hu)) (fun c hc _ hca => ?_)
        fun _ _ hx => (by cases hx)
      · rw [halloc]
        rfl
      · rw [halloc]
        rfl
      · cases hc
        subst hca
        refine (Putting.of_not_early fun hp => (h.fresh m hm).2 hp hbm).resolve_left ?_
        exact hapart (by rw [halloc]; rfl)
  | fill m b =>
    rw [halloc] at hrun
    simp only [Allocating.step, get_bind, modify_bind] at hrun
    split at hrun
    · cases hrun
    · next htype =>
      obtain ⟨rfl, rfl⟩ := pure_iff.mp hrun
      exact h.fill halloc (fun i hi => update_of_ne hi ..) (update_self ..) rfl
        htype
  | done m b =>
    rw [halloc] at hrun
    cases hrun

theorem step {e : Side} (hapart : r.Apart a e)
    (hstep : r.step sb a type e = some r') : Race.Inv a type r' := by
  cases e with
  | put =>
    obtain ⟨x, hrun, rfl⟩ := Option.map_eq_some_iff.mp hstep
    exact h.put_step hrun
  | alloc =>
    obtain ⟨x, hrun, rfl⟩ := Option.map_eq_some_iff.mp hstep
    exact h.alloc_step hapart hrun

end

end Race.Inv

/-- An inode that is allocated while another process frees one is as asked for, in the cache and on
the disk, if `ilock` does not look at the entry while `iput` is about to clear its flag. -/
theorem reallocated_inode_is_new {es : List Side} {inum : Nat} {b : Fin NINODE} (hs : Coherent s)
    (ha : (s.inode a).ref = 1 ∧ (s.inode a).valid ∧ (s.inode a).din.nlink = 0)
    (hrun : run (Race.step sb a type) ⟨s, .start, .scan 1⟩ es = some r)
    (hapart : Allowed (Race.step sb a type) (Race.Apart a) ⟨s, .start, .scan 1⟩ es)
    (hdone : r.alloc = .done inum b) :
    (r.fs.inode b).inum = inum ∧ (r.fs.inode b).din.type = type ∧
      (r.fs.inode b).din = r.fs.dinode inum ∧
      (r.put = .done → (r.fs.dinode inum).type = type) := by
  have hinv : Race.Inv a type r :=
    run_allowed (fun _ _ _ h hC hstep => h.step hC hstep) hrun hapart
      (Race.start_inv hs ha 1)
  have hread := hinv.read inum b hdone
  have hfresh := (hinv.fresh inum (by rw [hdone]; rfl)).1
  have hfound := (hinv.found inum b (by rw [hdone]; rfl) (by rw [hdone]; rfl)).1
  refine ⟨hfound, ?_, hread, fun _ => ?_⟩
  · rw [hread, hfresh]
  · rw [hfresh]

end Inv

/-- The image without files, and a file that has no name any more and is open in entry 0. -/
def unlinked : State Unit :=
  let din : Dinode := { Dinode.zero with type := .file }
  { State.mkfs with
    dinode := update (State.mkfs (P := Unit)).dinode 2 din
    inode := fun i => if i = 0 then ⟨2, 1, true, din⟩ else ⟨0, 0, false, Dinode.zero⟩ }

theorem unlinked_coherent : Coherent unlinked where
  unique i j hi hj _ := by
    have hzero (k : Fin NINODE) (hk : 0 < (unlinked.inode k).ref) : k = 0 := by
      by_contra hne
      simp [unlinked, hne] at hk
    rw [hzero i hi, hzero j hj]
  agree i hi _ := by
    by_cases hi0 : i = 0
    · subst hi0
      exact ⟨rfl, by decide⟩
    · simp [unlinked, hi0] at hi

/-- The file is freed. -/
theorem unlinked_iput_leads : ∃ s', (iput .mkfs 0).run unlinked = some ((), s') ∧
    (s'.dinode 2).type = .free ∧ Putting.Leads .mkfs 0 (.start, unlinked) (.done, s') := by
  obtain ⟨⟨_, s'⟩, hs', hfree⟩ : ∃ x ∈ (iput .mkfs 0).run unlinked, (x.2.dinode 2).type = .free := by
    decide +kernel
  exact ⟨s', hs', hfree, iput_leads hs'⟩

/-- `iget` comes before the last section of `iput`, and `ilock` after it. -/
theorem reallocation_is_new :
    ∃ r ∈ run (Race.step .mkfs 0 .dir) ⟨unlinked, .start, .scan 1⟩
        (List.replicate 16 .put ++ [.alloc, .alloc, .alloc, .put, .alloc, .alloc, .alloc]),
      r.put = .done ∧ (r.fs.inode 0).din.type = .dir ∧ (r.fs.inode 0).din = r.fs.dinode 2 := by
  have hrun : ∃ r ∈ run (Race.step .mkfs 0 .dir) ⟨unlinked, .start, .scan 1⟩
      (List.replicate 16 .put ++ [.alloc, .alloc, .alloc, .put, .alloc, .alloc, .alloc]),
      r.put = .done ∧ r.alloc = .done 2 0 := by decide +kernel
  obtain ⟨r, hr, hput, hdone⟩ := hrun
  obtain ⟨-, htype, hdin, -⟩ := reallocated_inode_is_new unlinked_coherent ⟨rfl, rfl, rfl⟩ hr
    (by decide +kernel) hdone
  exact ⟨r, hr, hput, htype, hdin⟩

/-- `ilock` looks at the flag before `iput` clears it: the directory that was asked for is free in
the cache. -/
theorem reallocated_inode_is_free : Coherent unlinked ∧
    ∃ r ∈ run (Race.step .mkfs 0 .dir) ⟨unlinked, .start, .scan 1⟩
        (List.replicate 16 .put ++ [.alloc, .alloc, .alloc, .alloc, .alloc, .put]),
      r.put = .done ∧ r.alloc = .done 2 0 ∧ (r.fs.inode 0).inum = 2 ∧
        (r.fs.inode 0).din.type = .free ∧ (r.fs.dinode 2).type = .dir :=
  ⟨unlinked_coherent, by decide +kernel⟩

end Xv6.Fs
