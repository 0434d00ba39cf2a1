import Xv6.Fs.Inode

/-!
# What the inode functions do

One lemma for each function of `Xv6.Fs.Inode` that does not call another one of them in a loop: from
a run that did not panic, the result and the new state. Later proofs use these and never look at the
programs again.
-/

namespace Xv6.Fs

open Bytes Partial List
open Function (update update_eq_self)

variable {P : Type} {sb : Superblock} {s s' : State P} {a b j inum : Nat} {i i' : Fin NINODE}
  {u : Unit}

namespace State

/-- Mark block `b` used, and clear it. -/
def alloc (s : State P) (sb : Superblock) (b : Nat) : State P :=
  { s with
    bitmap := update s.bitmap b true
    data := update s.data b fun _ => 0
    logged := b :: sb.bblock b :: s.logged }

/-- Mark block `b` free. -/
def release (s : State P) (sb : Superblock) (b : Nat) : State P :=
  { s with
    bitmap := update s.bitmap b false
    logged := sb.bblock b :: s.logged }

/-- Store `addr` in `addrs[k]` of inode table entry `i`. -/
def setAddr (s : State P) (i : Fin NINODE) (k : Fin (NDIRECT + 1)) (addr : Nat) : State P :=
  s.setDin i { (s.inode i).din with addrs := update (s.inode i).din.addrs k addr }

/-- Store the size of inode table entry `i`. -/
def setSize (s : State P) (i : Fin NINODE) (size : Nat) : State P :=
  s.setDin i { (s.inode i).din with size }

/-- Write inode table entry `i` to the disk. -/
def flush (s : State P) (sb : Superblock) (i : Fin NINODE) : State P :=
  { s with
    dinode := update s.dinode (s.inode i).inum (s.inode i).din
    logged := sb.iblock (s.inode i).inum :: s.logged }

/-- Store the reference count of inode table entry `i`. -/
def setRef (s : State P) (i : Fin NINODE) (ref : Nat) : State P :=
  s.setInode i { s.inode i with ref }

/-- Write a new inode to the disk. -/
def newInode (s : State P) (sb : Superblock) (inum : Nat) (type : IType) : State P :=
  { s with
    dinode := update s.dinode inum { Dinode.zero with type }
    logged := sb.iblock inum :: s.logged }

@[simp] theorem setAddr_addrs (s : State P) (i : Fin NINODE) (k : Fin (NDIRECT + 1)) (addr : Nat) :
    ((s.setAddr i k addr).inode i).din.addrs =
      update (s.inode i).din.addrs k addr := by
  simp [setAddr, setDin, setInode]

/-- `s'` differs from `s` in blocks, in bits and in what `addrs` of inode table entry `i` is. -/
structure Remaps (i : Fin NINODE) (s s' : State P) : Prop where
  dinode : s'.dinode = s.dinode
  inode : s'.inode = update s.inode i
    { s.inode i with din := { (s.inode i).din with addrs := (s'.inode i).din.addrs } }
  file : s'.file = s.file
  pipe : s'.pipe = s.pipe
  cwd : s'.cwd = s.cwd
  ofile : s'.ofile = s.ofile
  sections : s'.sections = s.sections

namespace Remaps

variable {i : Fin NINODE} {s t s' : State P}

protected theorem refl (i : Fin NINODE) (s : State P) : Remaps i s s where
  dinode := rfl
  inode := (update_eq_self i s.inode).symm
  file := rfl
  pipe := rfl
  cwd := rfl
  ofile := rfl
  sections := rfl

protected theorem trans (h₁ : Remaps i s t) (h₂ : Remaps i t s') : Remaps i s s' where
  dinode := h₂.dinode.trans h₁.dinode
  inode := by
    rw [h₂.inode, h₁.inode]
    simp
  file := h₂.file.trans h₁.file
  pipe := h₂.pipe.trans h₁.pipe
  cwd := h₂.cwd.trans h₁.cwd
  ofile := h₂.ofile.trans h₁.ofile
  sections := h₂.sections.trans h₁.sections

end Remaps

end State

/-! ## Blocks -/

theorem balloc_inv (h : (balloc sb).run s = some (b, s')) :
    s.bitmap b = false ∧ b < sb.size ∧ s' = s.alloc sb b := by
  simp only [balloc, get_bind] at h
  split at h
  · cases h
  · next b' hb =>
    simp only [bind_iff, bzero, logWrite, modify_iff, pure_iff] at h
    obtain ⟨_, _, rfl, _, _, rfl, _, _, ⟨_, _, rfl, rfl⟩, rfl, rfl⟩ := h
    refine ⟨?_, mem_range.mp (mem_of_find?_eq_some hb), rfl⟩
    simpa using List.find?_some hb

theorem bfree_inv (h : (bfree sb b).run s = some (u, s')) :
    s.bitmap b = true ∧ s' = s.release sb b := by
  simp only [bfree, get_bind] at h
  split at h
  · next hb =>
    simp only [logWrite, bind_iff, modify_iff] at h
    obtain ⟨_, _, rfl, rfl⟩ := h
    exact ⟨hb, rfl⟩
  · cases h

/-- `bmap` through `addrs[k]`: the block is there, or it is a new one. -/
theorem bmapAddr_inv {k : Fin (NDIRECT + 1)} (h : (bmapAddr sb i k).run s = some (a, s')) :
    (s.inode i).din.addrs k = a ∧ a ≠ 0 ∧ s' = s ∨
      (s.inode i).din.addrs k = 0 ∧ s.bitmap a = false ∧ a < sb.size ∧
        s' = (s.alloc sb a).setAddr i k a := by
  simp only [bmapAddr, get_bind] at h
  split at h
  · next h0 =>
    simp only [bind_iff, modify_iff, pure_iff] at h
    obtain ⟨b, t, hb, _, _, rfl, rfl, rfl⟩ := h
    obtain ⟨hfree, hlt, rfl⟩ := balloc_inv hb
    exact .inr ⟨h0, hfree, hlt, rfl⟩
  · next h0 =>
    rw [pure_iff] at h
    obtain ⟨rfl, rfl⟩ := h
    exact .inl ⟨rfl, h0, rfl⟩

/-- `bmap` through entry `j` of the indirect block `a`. -/
theorem bmapEntry_inv (h : (bmapEntry sb a j).run s = some (b, s')) :
    word (s.data a) j = b ∧ b ≠ 0 ∧ s' = s ∨
      word (s.data a) j = 0 ∧ s.bitmap b = false ∧ b < sb.size ∧
        s' = { (s.alloc sb b).setData a (setWord ((s.alloc sb b).data a) j b) with
          logged := a :: b :: sb.bblock b :: s.logged } := by
  simp only [bmapEntry, get_bind] at h
  split at h
  · next h0 =>
    simp only [logWrite, bind_iff, modify_iff, pure_iff] at h
    obtain ⟨b', t, hb, _, _, rfl, _, _, rfl, rfl, rfl⟩ := h
    obtain ⟨hfree, hlt, rfl⟩ := balloc_inv hb
    exact .inr ⟨h0, hfree, hlt, rfl⟩
  · next h0 =>
    rw [pure_iff] at h
    obtain ⟨rfl, rfl⟩ := h
    exact .inl ⟨rfl, h0, rfl⟩

/-! ## Inodes -/

theorem iupdate_inv (h : (iupdate sb i).run s = some (u, s')) : s' = s.flush sb i := by
  simp only [iupdate, logWrite, bind_iff, get_iff, modify_iff] at h
  obtain ⟨_, _, ⟨rfl, rfl⟩, _, _, rfl, rfl⟩ := h
  rfl

/-- The inode is in the cache, or an entry is taken for it. -/
theorem iget_inv (h : (iget inum).run s = some (i, s')) :
    0 < (s.inode i).ref ∧ (s.inode i).inum = inum ∧ s' = s.setRef i ((s.inode i).ref + 1) ∨
      (∀ j, 0 < (s.inode j).ref → (s.inode j).inum ≠ inum) ∧ (s.inode i).ref = 0 ∧
        s' = s.setInode i { s.inode i with inum, ref := 1, valid := false } := by
  simp only [iget, get_bind] at h
  split at h
  · next j hj =>
    simp only [bind_iff, modify_iff, pure_iff] at h
    obtain ⟨_, _, rfl, rfl, rfl⟩ := h
    have hfound : 0 < (s.inode j).ref ∧ (s.inode j).inum = inum := by
      simpa using List.find?_some hj
    exact .inl ⟨hfound.1, hfound.2, rfl⟩
  · next hnone =>
    split at h
    · next j hj =>
      simp only [bind_iff, modify_iff, pure_iff] at h
      obtain ⟨_, _, rfl, rfl, rfl⟩ := h
      refine .inr ⟨fun k hk heq => ?_, by simpa using List.find?_some hj, rfl⟩
      have := List.find?_eq_none.mp hnone k (mem_finRange k)
      exact this (decide_eq_true ⟨hk, heq⟩)
    · cases h

theorem idup_inv (h : (idup i).run s = some (i', s')) :
    i' = i ∧ s' = s.setRef i ((s.inode i).ref + 1) := by
  simp only [idup, bind_iff, modify_iff, pure_iff] at h
  obtain ⟨_, _, rfl, rfl, rfl⟩ := h
  exact ⟨rfl, rfl⟩

/-- The inode has been read before, or it is read now. -/
theorem ilock_inv (h : (ilock i).run s = some (u, s')) : 0 < (s.inode i).ref ∧
    ((s.inode i).valid = true ∧ s' = s ∨
      (s.inode i).valid = false ∧ (s.dinode (s.inode i).inum).type ≠ .free ∧
        s' = s.setInode i { s.inode i with valid := true, din := s.dinode (s.inode i).inum }) := by
  simp only [ilock, get_bind] at h
  split at h
  · cases h
  · next hpos =>
    refine ⟨by omega, ?_⟩
    split at h
    · next hv =>
      obtain ⟨-, rfl⟩ := pure_iff.mp h
      exact .inl ⟨hv, rfl⟩
    · next hv =>
      simp only [bind_iff, modify_iff] at h
      obtain ⟨_, _, rfl, h⟩ := h
      split at h
      · cases h
      · next hfree =>
        obtain ⟨-, rfl⟩ := pure_iff.mp h
        exact .inr ⟨by simpa using hv, hfree, rfl⟩

/-- A free inode is taken, and entered into the cache. -/
theorem ialloc_inv {type : IType} (h : (ialloc sb type).run s = some (i, s')) :
    ∃ inum, 1 ≤ inum ∧ inum < sb.ninodes ∧ (s.dinode inum).type = .free ∧
      (iget inum).run (s.newInode sb inum type) = some (i, s') := by
  simp only [ialloc, get_bind] at h
  split at h
  · cases h
  · next inum hinum =>
    simp only [logWrite, bind_iff, modify_iff] at h
    obtain ⟨_, _, rfl, _, _, rfl, h⟩ := h
    have hmem := mem_range'_1.mp (mem_of_find?_eq_some hinum)
    exact ⟨inum, hmem.1, by omega, by simpa using List.find?_some hinum, h⟩

/-! ## The content of an inode -/

variable {bn fuel off : Nat} {src : List Byte}

theorem bmap_inv (h : (bmap sb i bn).run s = some (b, s')) :
    bn < NDIRECT ∧ (bmapAddr sb i (Fin.ofNat _ bn)).run s = some (b, s') ∨
      NDIRECT ≤ bn ∧ bn < MAXFILE ∧ ∃ a t, (bmapAddr sb i indirect).run s = some (a, t) ∧
        (bmapEntry sb a (bn - NDIRECT)).run t = some (b, s') := by
  unfold bmap at h
  split at h
  · next hlt => exact .inl ⟨hlt, h⟩
  · next hge =>
    split at h
    · next hlt =>
      rw [bind_iff] at h
      have hmax : bn < NDIRECT + NINDIRECT := by omega
      exact .inr ⟨by omega, hmax, h⟩
    · cases h

theorem bmapAddr_remaps {k : Fin (NDIRECT + 1)} (h : (bmapAddr sb i k).run s = some (a, s')) :
    State.Remaps i s s' := by
  obtain ⟨-, -, rfl⟩ | ⟨-, -, -, rfl⟩ := bmapAddr_inv h
  · exact .refl i _
  · exact ⟨rfl, by simp [State.setAddr, State.setDin, State.setInode, State.alloc],
      rfl, rfl, rfl, rfl, rfl⟩

theorem bmapEntry_remaps (i : Fin NINODE) (h : (bmapEntry sb a j).run s = some (b, s')) :
    State.Remaps i s s' := by
  obtain ⟨-, -, rfl⟩ | ⟨-, -, -, rfl⟩ := bmapEntry_inv h
  · exact .refl i _
  · exact ⟨rfl, (update_eq_self i s.inode).symm, rfl, rfl, rfl, rfl, rfl⟩

theorem bmap_remaps (h : (bmap sb i bn).run s = some (b, s')) : State.Remaps i s s' := by
  obtain ⟨-, h⟩ | ⟨-, -, a, t, ha, h⟩ := bmap_inv h
  · exact bmapAddr_remaps h
  · exact (bmapAddr_remaps ha).trans (bmapEntry_remaps i h)

/-- What one round of `writei` stores in block `b`. -/
def State.store (s : State P) (b : Nat) (o : Nat) (src : List Byte) : State P :=
  { s with
    data := update s.data b (splice (s.data b) o src)
    logged := b :: s.logged }

/-- The length of what a round of `readi` or `writei` copies, of `n` bytes at `off`. -/
def span (off n : Nat) : Nat := min n (BSIZE - off % BSIZE)

theorem span_bounds (off : Nat) {n : Nat} (hn : 0 < n) :
    0 < span off n ∧ span off n ≤ n ∧ off % BSIZE + span off n ≤ BSIZE := by
  simp only [span, BSIZE]
  omega

theorem writeiLoop_inv (hsrc : src ≠ [])
    (h : (writeiLoop sb i (fuel + 1) off src).run s = some (u, s')) :
    ∃ b t, (bmap sb i (off / BSIZE)).run s = some (b, t) ∧
      (writeiLoop sb i fuel (off + span off src.length) (src.drop (span off src.length))).run
        (t.store b (off % BSIZE) (src.take (span off src.length))) = some (u, s') := by
  rw [writeiLoop, if_neg hsrc] at h
  simp only [logWrite, bind_iff, modify_iff] at h
  obtain ⟨b, t, hb, _, _, rfl, _, _, rfl, h⟩ := h
  exact ⟨b, t, hb, h⟩

theorem writeiLoop_nil (h : (writeiLoop sb i fuel off []).run s = some (u, s')) : s' = s := by
  cases fuel with
  | zero => exact (pure_iff.mp h).2.symm
  | succ fuel =>
    rw [writeiLoop, if_pos rfl, pure_iff] at h
    exact h.2.symm

/-- `writei` is refused and changes nothing, or it is for a device, or the loop has run and the
size has been brought up to date. -/
theorem writei_inv {r : Option Nat} (h : (writei sb i off src).run s = some (r, s')) :
    s' = s ∧ (r = none ∨ (s.inode i).din.type = .dev) ∨
      r = some src.length ∧ (s.inode i).din.type ≠ .dev ∧ off ≤ (s.inode i).din.size ∧
        ∃ t, (writeiLoop sb i src.length off src).run s = some ((), t) ∧
          s' = if 0 < src.length ∧ (s.inode i).din.size < off + src.length then
            (t.setSize i (off + src.length)).flush sb i else t := by
  simp only [writei, get_bind] at h
  split at h
  · next hdev => exact .inl ⟨(pure_iff.mp h).2.symm, .inr hdev⟩
  · next hdev =>
    split at h
    · obtain ⟨hr, hs⟩ := pure_iff.mp h
      exact .inl ⟨hs.symm, .inl hr.symm⟩
    · next hoff =>
      split at h
      · obtain ⟨hr, hs⟩ := pure_iff.mp h
        exact .inl ⟨hs.symm, .inl hr.symm⟩
      · rw [bind_iff] at h
        obtain ⟨⟨⟩, t, ht, h⟩ := h
        refine .inr ?_
        split at h
        · next hgrow =>
          simp only [bind_iff, modify_iff, pure_iff] at h
          obtain ⟨_, _, rfl, _, _, hup, hr, rfl⟩ := h
          exact ⟨hr.symm, hdev, by omega, t, ht, (iupdate_inv hup).trans (if_pos hgrow).symm⟩
        · next hgrow =>
          rw [pure_iff] at h
          obtain ⟨hr, rfl⟩ := h
          exact ⟨hr.symm, hdev, by omega, t, ht, (if_neg hgrow).symm⟩

/-- The last reference to an inode without links frees it. -/
theorem iput_inv (h : (iput sb i).run s = some (u, s')) :
    ¬ ((s.inode i).ref = 1 ∧ (s.inode i).valid = true ∧ (s.inode i).din.nlink = 0) ∧
        s' = s.setRef i ((s.inode i).ref - 1) ∨
      ((s.inode i).ref = 1 ∧ (s.inode i).valid = true ∧ (s.inode i).din.nlink = 0) ∧
        ∃ t t', (itrunc sb i).run s = some ((), t) ∧
          t' = (t.setDin i { (t.inode i).din with type := .free }).flush sb i ∧
          s' = t'.setInode i { t'.inode i with valid := false, ref := (t'.inode i).ref - 1 } := by
  simp only [iput, get_bind] at h
  split at h
  · next hfree =>
    simp only [bind_iff, modify_iff] at h
    obtain ⟨⟨⟩, t, ht, _, _, rfl, _, t', hup, _, _, rfl, rfl⟩ := h
    refine .inr ⟨hfree, t, t', ht, iupdate_inv hup, ?_⟩
    simp [State.setInode]
  · next hfree =>
    rw [modify_iff] at h
    exact .inl ⟨hfree, h.symm⟩

end Xv6.Fs
