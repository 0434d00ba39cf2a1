import Mathlib.Data.Nat.Cast.Defs
import Xv6.Common.Owned
import Xv6.Fs.Spec

/-!
# Who owns a block of the disk

The places that hold addresses of blocks are the slots of the inodes that are allocated: the 13
words of `addrs`, and the 128 words of the indirect block. The inode functions work on the copy of
an inode in the cache and write it to the disk at the end, so the slots are those of the disk with
one inode taken from the cache, `State.ino`.
-/

namespace Xv6.Fs

open Bytes Partial Dinode
open Function (update update_of_ne update_self)

/-- A word that holds the address of a block: in the inode, or in its indirect block. -/
inductive Slot where
  | addr (k : Fin (NDIRECT + 1))
  | entry (j : Fin NINDIRECT)
  deriving DecidableEq

/-- The slot for block `bn` of a file. -/
def Slot.block (bn : Nat) : Slot :=
  if bn < NDIRECT then .addr (directAt bn) else .entry (entryAt (bn - NDIRECT))

theorem Slot.block_ne_indirect (bn : Nat) : Slot.block bn ≠ .addr indirect := by
  unfold Slot.block
  split
  · next hlt =>
    intro heq
    have hval : bn % (NDIRECT + 1) = 12 := congrArg Fin.val (Slot.addr.inj heq)
    simp only [NDIRECT] at hlt hval
    omega
  · exact fun heq => Slot.noConfusion heq

theorem Slot.block_inj {a b : Nat} (ha : a < MAXFILE) (hb : b < MAXFILE)
    (h : Slot.block a = Slot.block b) : a = b := by
  unfold Slot.block at h
  split at h <;> split at h
  · have hval : a % (NDIRECT + 1) = b % (NDIRECT + 1) := congrArg Fin.val (Slot.addr.inj h)
    simp only [NDIRECT] at *
    omega
  · exact Slot.noConfusion h
  · exact Slot.noConfusion h
  · have hval : (a - NDIRECT) % NINDIRECT = (b - NDIRECT) % NINDIRECT :=
      congrArg Fin.val (Slot.entry.inj h)
    simp only [NDIRECT, NINDIRECT, MAXFILE] at *
    omega

/-- What a slot of the inode `d` holds. -/
def Dinode.slot (d : Dinode) (data : Nat → Block) : Slot → Nat
  | .addr k => d.addrs k
  | .entry j => if d.addrs indirect = 0 then 0 else word (data (d.addrs indirect)) j

/-- What a slot of inode `x.1` holds; an inode that is free holds nothing. -/
def addrOf (ino : Nat → Dinode) (data : Nat → Block) (x : Nat × Slot) : Nat :=
  if (ino x.1).type = .free then 0 else (ino x.1).slot data x.2

theorem addrOf_of_ne_zero {ino : Nat → Dinode} {data : Nat → Block} {x : Nat × Slot}
    (h : addrOf ino data x ≠ 0) :
    (ino x.1).type ≠ .free ∧ addrOf ino data x = (ino x.1).slot data x.2 := by
  unfold addrOf at h ⊢
  split at h
  · exact absurd rfl h
  · next hfree => exact ⟨hfree, if_neg hfree⟩

/-- The slots change only with the inodes and with their indirect blocks. -/
theorem addrOf_congr {ino ino' : Nat → Dinode} {data data' : Nat → Block} {n : Nat} {x : Slot}
    (htype : (ino' n).type = (ino n).type) (haddrs : (ino' n).addrs = (ino n).addrs)
    (hdata : addrOf ino data (n, .addr indirect) ≠ 0 →
      data' ((ino n).addrs indirect) = data ((ino n).addrs indirect)) :
    addrOf ino' data' (n, x) = addrOf ino data (n, x) := by
  unfold addrOf at hdata ⊢
  rw [htype]
  by_cases hfree : (ino n).type = .free
  · rw [if_pos hfree, if_pos hfree]
  · rw [if_neg hfree, if_neg hfree]
    rw [if_neg hfree] at hdata
    cases x with
    | addr k => exact congrFun haddrs k
    | entry j =>
      simp only [slot, haddrs]
      by_cases h0 : (ino n).addrs indirect = 0
      · rw [if_pos h0, if_pos h0]
      · rw [if_neg h0, if_neg h0, hdata h0]

variable {P : Type} {sb : Superblock} {s s' t : State P} {i : Fin NINODE} {a b bn : Nat}
  {k : Fin (NDIRECT + 1)} {u : Unit}

namespace State

/-- The inodes, with entry `i` of the cache in the place of its copy on the disk. -/
def ino (s : State P) (i : Fin NINODE) : Nat → Dinode :=
  update s.dinode (s.inode i).inum (s.inode i).din

/-- What the slots hold. -/
def addr (s : State P) (i : Fin NINODE) : Nat × Slot → Nat := addrOf (s.ino i) s.data

@[simp] theorem ino_self (s : State P) (i : Fin NINODE) :
    s.ino i (s.inode i).inum = (s.inode i).din :=
  update_self _ _ _

theorem ino_of_ne {n : Nat} (h : n ≠ (s.inode i).inum) : s.ino i n = s.dinode n :=
  update_of_ne h _ _

theorem addr_self (s : State P) (i : Fin NINODE) (x : Slot) (h : (s.inode i).din.type ≠ .free) :
    s.addr i ((s.inode i).inum, x) = (s.inode i).din.slot s.data x := by
  unfold addr addrOf
  rw [ino_self, if_neg h]

/-- Bits, and slots with entry `i` of the cache, are right. -/
def Own (sb : Superblock) (i : Fin NINODE) (s : State P) : Prop :=
  Owned (· < sb.nmeta) (· < sb.size) (s.addr i) s.bitmap

end State

/-! ## A new block -/

@[simp] theorem setAddr_ino (s : State P) (i : Fin NINODE) (k : Fin (NDIRECT + 1)) (b : Nat) :
    (s.setAddr i k b).ino i = update (s.ino i) (s.inode i).inum
      { (s.inode i).din with addrs := update (s.inode i).din.addrs k b } := by
  simp [State.ino, State.setAddr, State.setDin, State.setInode]

/-- A store to `addrs[k]`, where `addr` is what the other slots hold then. -/
theorem addr_setAddr {addr : Nat × Slot → Nat} (htype : (s.inode i).din.type ≠ .free)
    (haddr : ∀ k', k' ≠ k → addr ((s.inode i).inum, .addr k') = (s.inode i).din.addrs k')
    (hentry : ∀ j, addr ((s.inode i).inum, .entry j) =
      slot { (s.inode i).din with addrs := update (s.inode i).din.addrs k b }
        s.data (.entry j))
    (hother : ∀ n x, n ≠ (s.inode i).inum → addr (n, x) = s.addr i (n, x)) :
    (s.setAddr i k b).addr i = update addr ((s.inode i).inum, .addr k) b := by
  funext x
  obtain ⟨n, x⟩ := x
  unfold State.addr
  rw [setAddr_ino]
  show addrOf _ s.data (n, x) = _
  by_cases hn : n = (s.inode i).inum
  · subst hn
    cases x with
    | addr k' =>
      by_cases hk : k' = k
      · subst hk
        simp [addrOf, slot, htype]
      · have hne : ((s.inode i).inum, Slot.addr k') ≠ ((s.inode i).inum, Slot.addr k) := by
          simpa using hk
        rw [update_of_ne hne, haddr k' hk]
        simp [addrOf, slot, htype, hk]
    | entry j =>
      rw [update_of_ne (by simp), hentry j]
      simp [addrOf, htype]
  · have hne : (n, x) ≠ ((s.inode i).inum, Slot.addr k) := fun h => hn (congrArg Prod.fst h)
    rw [update_of_ne hne, hother n x hn]
    refine addrOf_congr ?_ ?_ fun _ => rfl
    · rw [update_of_ne hn]
    · rw [update_of_ne hn]

theorem addr_alloc_setAddr (htype : (s.inode i).din.type ≠ .free)
    (h0 : (s.inode i).din.addrs k = 0) (hnew : ∀ x, s.addr i x ≠ b) :
    ((s.alloc sb b).setAddr i k b).addr i =
      update (s.addr i) ((s.inode i).inum, .addr k) b := by
  have hdata : ∀ a, a ≠ b → (s.alloc sb b).data a = s.data a := fun a ha =>
    update_of_ne ha _ _
  refine addr_setAddr (s := s.alloc sb b) htype (fun k' _ => State.addr_self s i (.addr k') htype)
    (fun j => ?_) fun n x _ => (addrOf_congr rfl rfl fun hind => ?_).symm
  · refine (State.addr_self s i (.entry j) htype).trans ?_
    by_cases hk : k = indirect
    · -- its words are zero
      subst hk
      show (if _ then _ else _) = if _ then _ else _
      rw [if_pos h0]
      simp only [State.alloc, update_self]
      exact (ite_self 0).symm
    · have hold : (s.inode i).din.addrs indirect ≠ b := by
        have hne := hnew ((s.inode i).inum, .addr indirect)
        rwa [State.addr_self s i _ htype] at hne
      simp only [slot, update_of_ne (Ne.symm hk), State.alloc,
        update_of_ne hold]
  · have := hnew (n, .addr indirect)
    unfold State.addr at this
    rw [(addrOf_of_ne_zero hind).2] at this
    exact hdata _ this

theorem addr_alloc_setWord {j : Fin NINDIRECT} {l : List Nat} (hown : s.Own sb i)
    (htype : (s.inode i).din.type ≠ .free) (ha : (s.inode i).din.addrs indirect = a)
    (ha0 : a ≠ 0) (hb : b < 2 ^ 32) (hnew : ∀ x, s.addr i x ≠ b) :
    { (s.alloc sb b).setData a (setWord ((s.alloc sb b).data a) j b) with logged := l }.addr i =
      update (s.addr i) ((s.inode i).inum, .entry j) b := by
  have hself : s.addr i ((s.inode i).inum, .addr indirect) = a :=
    (State.addr_self s i _ htype).trans ha
  have hab : a ≠ b := hself ▸ hnew _
  have hdata : ∀ c, c ≠ a → c ≠ b →
      ((s.alloc sb b).setData a (setWord ((s.alloc sb b).data a) j b)).data c = s.data c := by
    intro c hca hcb
    simp [State.setData, State.alloc, hca, hcb]
  have hdataA : ((s.alloc sb b).setData a (setWord ((s.alloc sb b).data a) j b)).data a =
      setWord (s.data a) j b := by
    simp [State.setData, State.alloc, hab]
  funext x
  obtain ⟨n, x⟩ := x
  show addrOf (s.ino i) _ (n, x) = _
  by_cases hn : n = (s.inode i).inum
  · subst hn
    cases x with
    | addr k =>
      rw [update_of_ne (by simp), State.addr_self s i _ htype]
      simp [addrOf, slot, htype]
    | entry j' =>
      simp only [addrOf, State.ino_self, htype, if_false, slot, ha, if_neg ha0, hdataA]
      by_cases hj : j' = j
      · subst hj
        rw [update_self, word_setWord hb]
      · have hne : ((s.inode i).inum, Slot.entry j') ≠ ((s.inode i).inum, Slot.entry j) := by
          simpa using hj
        rw [update_of_ne hne, word_setWord_ne (fun h => hj (Fin.ext h)),
          State.addr_self s i _ htype, slot, ha, if_neg ha0]
  · have hne : (n, x) ≠ ((s.inode i).inum, Slot.entry j) := fun h => hn (congrArg Prod.fst h)
    rw [update_of_ne hne]
    refine addrOf_congr rfl rfl fun hind => ?_
    have hval := (addrOf_of_ne_zero hind).2
    have hnea : s.addr i (n, .addr indirect) ≠ a := hself ▸ hown.ne_of_ne hind (by simp [hn])
    have hneb : s.addr i (n, .addr indirect) ≠ b := hnew _
    unfold State.addr at hnea hneb
    rw [hval] at hnea hneb
    exact hdata _ hnea hneb

/-! ## The block of a file -/

/-- From `s` to `s'` slots have only been filled, and blocks of files are as they were. -/
structure Grown (sb : Superblock) (i : Fin NINODE) (s s' : State P) : Prop where
  own : s'.Own sb i
  addr : ∀ x, s.addr i x ≠ 0 → s'.addr i x = s.addr i x
  data : ∀ x, s.addr i x ≠ 0 → x.2 ≠ .addr indirect →
    s'.data (s.addr i x) = s.data (s.addr i x)

theorem Grown.refl (h : s.Own sb i) : Grown sb i s s := ⟨h, fun _ _ => rfl, fun _ _ _ => rfl⟩

theorem Grown.trans (h₁ : Grown sb i s t) (h₂ : Grown sb i t s') : Grown sb i s s' where
  own := h₂.own
  addr x hx := by
    have ht := h₁.addr x hx
    rw [h₂.addr x (ht ▸ hx), ht]
  data x hx hind := by
    have ht := h₁.addr x hx
    have hdata := h₂.data x (ht ▸ hx) hind
    rw [ht] at hdata
    rw [hdata, h₁.data x hx hind]

/-- Slot `x` of the file holds a block, or block `b` is taken for it; this is logged with its bitmap
block, and then `l`. -/
inductive Filled (sb : Superblock) (i : Fin NINODE) (x : Slot) (b : Nat) (l : List Nat)
    (s : State P) : State P → Prop
  | old (hx : s.addr i ((s.inode i).inum, x) ≠ 0) : Filled sb i x b l s s
  | new {s' : State P} (hx : s.addr i ((s.inode i).inum, x) = 0) (hb : b < sb.size)
      (hfree : s.bitmap b = false) (hbits : s'.bitmap = update s.bitmap b true)
      (haddr : s'.addr i = update (s.addr i) ((s.inode i).inum, x) b)
      (hlog : s'.logged = l ++ b :: sb.bblock b :: s.logged) : Filled sb i x b l s s'

namespace Filled

variable {x : Slot} {l : List Nat}

theorem same (h : Filled sb i x b l s s') (hx : s.addr i ((s.inode i).inum, x) ≠ 0) : s' = s := by
  cases h with
  | old => rfl
  | new h0 => exact absurd h0 hx

theorem own (h : Filled sb i x b l s s') (hown : s.Own sb i) : s'.Own sb i := by
  cases h with
  | old => exact hown
  | new h0 hb hfree hbits haddr =>
    unfold State.Own
    rw [haddr, hbits]
    exact hown.assign h0 hb hfree

/-- The other slots hold what they held. -/
theorem others {y : Nat × Slot} (h : Filled sb i x b l s s') (hy : y ≠ ((s.inode i).inum, x)) :
    s'.addr i y = s.addr i y := by
  cases h with
  | old => rfl
  | new _ _ _ _ haddr =>
    rw [haddr]
    exact update_of_ne hy _ _

theorem addr {y : Nat × Slot} (h : Filled sb i x b l s s') (hy : s.addr i y ≠ 0) :
    s'.addr i y = s.addr i y := by
  by_cases heq : y = ((s.inode i).inum, x)
  · rw [h.same (heq ▸ hy)]
  · exact h.others heq

end Filled

theorem bmapAddr_own (hown : s.Own sb i) (htype : (s.inode i).din.type ≠ .free)
    (h : (bmapAddr sb i k).run s = some (a, s')) :
    Grown sb i s s' ∧ a ≠ 0 ∧ (s'.inode i).din.addrs k = a ∧ Filled sb i (.addr k) a [] s s' := by
  have hslot := State.addr_self s i (.addr k) htype
  obtain ⟨ha, ha0, rfl⟩ | ⟨h0, hfree, hlt, rfl⟩ := bmapAddr_inv h
  · exact ⟨.refl hown, ha0, ha, .old (by rw [hslot]; exact ha.trans_ne ha0)⟩
  · obtain ⟨-, ha0, hnew⟩ := hown.fresh hlt hfree
    have hfill : Filled sb i (.addr k) a [] s ((s.alloc sb a).setAddr i k a) :=
      .new (hslot.trans h0) hlt hfree rfl (addr_alloc_setAddr htype h0 hnew) rfl
    exact ⟨⟨hfill.own hown, fun _ => hfill.addr, fun x hx _ => update_of_ne (hnew x) _ _⟩, ha0,
      by simp, hfill⟩

theorem bmapEntry_own {j : Fin NINDIRECT} (hown : s.Own sb i)
    (htype : (s.inode i).din.type ≠ .free) (ha : (s.inode i).din.addrs indirect = a) (ha0 : a ≠ 0)
    (h : (bmapEntry sb a j).run s = some (b, s')) :
    Grown sb i s s' ∧ b ≠ 0 ∧ word (s'.data a) j = b ∧ Filled sb i (.entry j) b [a] s s' := by
  have hslot : s.addr i ((s.inode i).inum, .entry j) = word (s.data a) j := by
    rw [State.addr_self s i _ htype, slot, ha, if_neg ha0]
  obtain ⟨hb, hb0, rfl⟩ | ⟨h0, hfree, hlt, rfl⟩ := bmapEntry_inv h
  · exact ⟨.refl hown, hb0, hb, .old (by rw [hslot, hb]; exact hb0)⟩
  · obtain ⟨-, hb0, hnew⟩ := hown.fresh hlt hfree
    have hb32 : b < 2 ^ 32 := Nat.lt_trans hlt sb.size_lt
    have hself : s.addr i ((s.inode i).inum, .addr indirect) = a :=
      (State.addr_self s i _ htype).trans ha
    have hfill : Filled sb i (.entry j) b [a] s _ :=
      .new (hslot.trans h0) hlt hfree rfl (addr_alloc_setWord hown htype ha ha0 hb32 hnew) rfl
    refine ⟨⟨hfill.own hown, fun _ => hfill.addr, fun x hx hind => ?_⟩, hb0, ?_, hfill⟩
    · have hnea : s.addr i x ≠ a := by
        refine hself ▸ hown.ne_of_ne hx ?_
        rintro rfl
        exact hind rfl
      simp [State.setData, State.alloc, hnea, hnew x]
    · simp [State.setData, State.alloc, word_setWord hb32]

theorem Slot.block_of_lt (h : bn < NDIRECT) : Slot.block bn = .addr (Fin.ofNat _ bn) := if_pos h

theorem Slot.block_of_ge (h : NDIRECT ≤ bn) :
    Slot.block bn = .entry (Fin.ofNat _ (bn - NDIRECT)) :=
  if_neg (Nat.not_lt.mpr h)

theorem val_ofNat_block (hge : NDIRECT ≤ bn) (hlt : bn < MAXFILE) :
    (Fin.ofNat NINDIRECT (bn - NDIRECT)).val = bn - NDIRECT := by
  refine Nat.mod_eq_of_lt ?_
  simp only [NDIRECT, NINDIRECT, MAXFILE] at *
  omega

namespace State.Remaps

theorem self (h : Remaps i s s') : s'.inode i =
    { s.inode i with din := { (s.inode i).din with addrs := (s'.inode i).din.addrs } } := by
  conv_lhs => rw [h.inode, update_self]

theorem inum (h : Remaps i s s') : (s'.inode i).inum = (s.inode i).inum := by rw [h.self]

theorem type (h : Remaps i s s') : (s'.inode i).din.type = (s.inode i).din.type := by rw [h.self]

end State.Remaps

/-- The block `bmap` returns is the one in the slot; a slot that was filled is left alone. -/
theorem bmap_own (hown : s.Own sb i) (htype : (s.inode i).din.type ≠ .free)
    (h : (bmap sb i bn).run s = some (b, s')) :
    Grown sb i s s' ∧ bn < MAXFILE ∧ b ≠ 0 ∧ s'.addr i ((s.inode i).inum, .block bn) = b ∧
      (s.addr i ((s.inode i).inum, .block bn) ≠ 0 → s' = s) := by
  have hrem := bmap_remaps h
  have htype' : (s'.inode i).din.type ≠ .free := hrem.type ▸ htype
  obtain ⟨hlt, h⟩ | ⟨hge, hmax, a, t, ha, h⟩ := bmap_inv h
  · obtain ⟨hgrown, hb0, hb, hfill⟩ := bmapAddr_own hown htype h
    rw [Slot.block_of_lt hlt, ← hrem.inum, State.addr_self s' i _ htype', hrem.inum]
    exact ⟨hgrown, Nat.lt_trans hlt (by decide), hb0, hb, hfill.same⟩
  · obtain ⟨hgrown, ha0, haddr, hfill⟩ := bmapAddr_own hown htype ha
    have hremT := bmapAddr_remaps ha
    rw [← val_ofNat_block hge hmax] at h
    obtain ⟨hgrown', hb0, hb, hfill'⟩ :=
      bmapEntry_own hgrown.own (hremT.type ▸ htype) haddr ha0 h
    have haddr' : (s'.inode i).din.addrs indirect = a := by
      have hkept := hgrown'.addr ((t.inode i).inum, .addr indirect)
      rw [State.addr_self t i _ (hremT.type ▸ htype), hremT.inum, ← hrem.inum,
        State.addr_self s' i _ htype', slot, slot, haddr] at hkept
      exact hkept ha0
    rw [Slot.block_of_ge hge]
    refine ⟨hgrown.trans hgrown', hmax, hb0, ?_, fun hne => ?_⟩
    · rw [← hrem.inum, State.addr_self s' i _ htype']
      simp only [slot, haddr', if_neg ha0]
      exact hb
    · have hind : s.addr i ((s.inode i).inum, .addr indirect) ≠ 0 := by
        rw [State.addr_self s i _ htype] at hne ⊢
        exact fun h0 => hne (if_pos h0)
      obtain rfl := hfill.same hind
      exact hfill'.same hne

end Xv6.Fs
