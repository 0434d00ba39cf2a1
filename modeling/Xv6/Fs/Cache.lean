import Xv6.Common.Tally
import Xv6.Fs.Content

/-!
# The inode cache

Between the inode functions the cache agrees with the disk: an entry that is in use and has been
read is the inode on the disk, and no two entries in use are for the same inode. `Sound` says this,
that blocks are owned and sizes covered, and that each entry counts the references `K` to it. The
references that a system call holds for a while are bumps of `K`: a function that returns an entry
bumps it, and `iput` takes the bump away. `Keeps K` is what the holders of `K` can rely on meanwhile:
their entries stay, and stay read.
-/

namespace Xv6.Fs

open Bytes Partial List State
open Function (update update_eq_self update_idem update_of_ne update_self)

/-- Numbers of references to the entries of the inode table. -/
abbrev Refs := Fin NINODE → Nat

/-- Every byte below the size of an inode has a block. -/
def Sized (ino : Nat → Dinode) (data : Nat → Block) : Prop :=
  ∀ n, (ino n).type ≠ .free → (ino n).size ≤ MAXFILE * BSIZE ∧
    ∀ p < (ino n).size, addrOf ino data (n, .block (p / BSIZE)) ≠ 0

variable {P : Type}

structure Sound (sb : Superblock) (s : State P) (K : Refs) : Prop where
  own : Owned (· < sb.nmeta) (· < sb.size) (addrOf s.dinode s.data) s.bitmap
  sized : Sized s.dinode s.data
  agree : ∀ i, 0 < (s.inode i).ref → (s.inode i).valid = true →
    (s.inode i).din = s.dinode (s.inode i).inum ∧ (s.inode i).din.type ≠ .free
  unique : ∀ i j, 0 < (s.inode i).ref → 0 < (s.inode j).ref →
    (s.inode i).inum = (s.inode j).inum → i = j
  refs : ∀ i, (s.inode i).ref = K i

/-- What the holders of `K` can rely on from `s` to `s'`. -/
structure Keeps (K : Refs) (s s' : State P) : Prop where
  inum : ∀ i, 0 < K i → (s'.inode i).inum = (s.inode i).inum
  valid : ∀ i, 0 < K i → (s.inode i).valid = true → (s'.inode i).valid = true
  cwd : s'.cwd = s.cwd
  file : s'.file = s.file
  pipe : s'.pipe = s.pipe
  ofile : s'.ofile = s.ofile

/-- The disk is the same. -/
structure SameDisk (s s' : State P) : Prop where
  dinode : s'.dinode = s.dinode
  data : s'.data = s.data
  bitmap : s'.bitmap = s.bitmap

variable {sb : Superblock} {s s' t : State P} {K K' : Refs} {i j : Fin NINODE} {u : Unit}

namespace Keeps

protected theorem refl (K : Refs) (s : State P) : Keeps K s s :=
  ⟨fun _ _ => rfl, fun _ _ h => h, rfl, rfl, rfl, rfl⟩

protected theorem trans (h₁ : Keeps K s t) (h₂ : Keeps K t s') : Keeps K s s' where
  inum i hi := (h₂.inum i hi).trans (h₁.inum i hi)
  valid i hi hv := h₂.valid i hi (h₁.valid i hi hv)
  cwd := h₂.cwd.trans h₁.cwd
  file := h₂.file.trans h₁.file
  pipe := h₂.pipe.trans h₁.pipe
  ofile := h₂.ofile.trans h₁.ofile

theorem mono (h : Keeps K' s s') (hle : ∀ i, K i ≤ K' i) : Keeps K s s' where
  inum i hi := h.inum i (Nat.lt_of_lt_of_le hi (hle i))
  valid i hi := h.valid i (Nat.lt_of_lt_of_le hi (hle i))
  cwd := h.cwd
  file := h.file
  pipe := h.pipe
  ofile := h.ofile

theorem of_bump (h : Keeps (bump K i) s s') : Keeps K s s' := h.mono (le_bump K i)

end Keeps

protected theorem SameDisk.refl (s : State P) : SameDisk s s := ⟨rfl, rfl, rfl⟩

protected theorem SameDisk.trans (h₁ : SameDisk s t) (h₂ : SameDisk t s') : SameDisk s s' :=
  ⟨h₂.dinode.trans h₁.dinode, h₂.data.trans h₁.data, h₂.bitmap.trans h₁.bitmap⟩

namespace Sound

theorem ref_pos (h : Sound sb s K) (hi : 0 < K i) : 0 < (s.inode i).ref := by
  rwa [h.refs i]

section Valid

variable (h : Sound sb s K) (hi : 0 < K i) (hv : (s.inode i).valid = true)

include h hi hv

theorem din_eq : (s.inode i).din = s.dinode (s.inode i).inum := (h.agree i (h.ref_pos hi) hv).1

theorem type_ne_free : (s.inode i).din.type ≠ .free := (h.agree i (h.ref_pos hi) hv).2

theorem ino_eq : s.ino i = s.dinode := by
  unfold ino
  rw [h.din_eq hi hv, update_eq_self]

theorem own_at : s.Own sb i := by
  unfold State.Own addr
  rw [h.ino_eq hi hv]
  exact h.own

theorem addr_at : s.addr i = addrOf s.dinode s.data := by
  unfold addr
  rw [h.ino_eq hi hv]

theorem sized_at : (s.inode i).din.size ≤ MAXFILE * BSIZE ∧ ∀ p < (s.inode i).din.size,
    s.addr i ((s.inode i).inum, .block (p / BSIZE)) ≠ 0 := by
  have hsized := h.sized (s.inode i).inum
  rw [← h.din_eq hi hv] at hsized
  rw [h.addr_at hi hv]
  exact hsized (h.type_ne_free hi hv)

end Valid

theorem ofInode {e : Inode} (h : Sound sb s K) (hdisk : SameDisk s s')
    (hinode : s'.inode = update s.inode i e)
    (hagree : 0 < e.ref → e.valid = true → e.din = s.dinode e.inum ∧ e.din.type ≠ .free)
    (hunique : 0 < e.ref → ∀ j, j ≠ i → 0 < (s.inode j).ref → (s.inode j).inum ≠ e.inum)
    (hrefs : ∀ j, (update s.inode i e j).ref = K' j) : Sound sb s' K' where
  own := by
    rw [hdisk.dinode, hdisk.data, hdisk.bitmap]
    exact h.own
  sized := by
    rw [hdisk.dinode, hdisk.data]
    exact h.sized
  agree j hj hv := by
    rw [hinode] at hj hv ⊢
    rw [hdisk.dinode]
    by_cases hji : j = i
    · subst hji
      rw [update_self] at hj hv ⊢
      exact hagree hj hv
    · rw [update_of_ne hji] at hj hv ⊢
      exact h.agree j hj hv
  unique a b ha hb hab := by
    rw [hinode] at ha hb hab
    by_cases hai : a = i <;> by_cases hbi : b = i
    · exact hai.trans hbi.symm
    · subst hai
      rw [update_self] at ha hab
      rw [update_of_ne hbi] at hb hab
      exact absurd hab.symm (hunique ha b hbi hb)
    · subst hbi
      rw [update_self] at hb hab
      rw [update_of_ne hai] at ha hab
      exact absurd hab (hunique hb a hai ha)
    · rw [update_of_ne hai] at ha hab
      rw [update_of_ne hbi] at hb hab
      exact h.unique a b ha hb hab
  refs j := by
    rw [hinode]
    exact hrefs j

theorem ofFlush {d : Dinode} (h : Sound sb s K) (href : 0 < (s.inode i).ref)
    (hinode : s'.inode = update s.inode i { s.inode i with din := d })
    (hdinode : s'.dinode = update s.dinode (s.inode i).inum d)
    (htype : d.type ≠ .free)
    (hown : Owned (· < sb.nmeta) (· < sb.size) (addrOf s'.dinode s'.data) s'.bitmap)
    (hsized : Sized s'.dinode s'.data) : Sound sb s' K := by
  have hsame : ∀ j, (s'.inode j).ref = (s.inode j).ref ∧ (s'.inode j).inum = (s.inode j).inum ∧
      (s'.inode j).valid = (s.inode j).valid := by
    intro j
    rw [hinode]
    by_cases hji : j = i
    · subst hji
      simp
    · simp [hji]
  refine ⟨hown, hsized, fun j hj hv => ?_, fun a b ha hb hab => ?_, fun j => ?_⟩
  · rw [(hsame j).1] at hj
    rw [(hsame j).2.2] at hv
    by_cases hji : j = i
    · subst hji
      rw [hinode, hdinode, update_self]
      exact ⟨(update_self (s.inode j).inum d s.dinode).symm, htype⟩
    · have hne : (s.inode j).inum ≠ (s.inode i).inum := fun heq => hji (h.unique j i hj href heq)
      rw [hinode, hdinode, update_of_ne hji, update_of_ne hne]
      exact h.agree j hj hv
  · rw [(hsame a).1] at ha
    rw [(hsame b).1] at hb
    rw [(hsame a).2.1, (hsame b).2.1] at hab
    exact h.unique a b ha hb hab
  · rw [(hsame j).1]
    exact h.refs j

theorem ofFree {n : Nat} {d : Dinode} (h : Sound sb s K)
    (hnone : ∀ j, 0 < (s.inode j).ref → (s.inode j).inum ≠ n) (hinode : s'.inode = s.inode)
    (hd : d.type = .free) (hdinode : s'.dinode = update s.dinode n d)
    (hdata : s'.data = s.data)
    (hown : Owned (· < sb.nmeta) (· < sb.size) (addrOf s'.dinode s'.data) s'.bitmap) :
    Sound sb s' K where
  own := hown
  sized m hm := by
    rw [hdinode] at hm ⊢
    have hmn : m ≠ n := by
      rintro rfl
      rw [update_self] at hm
      exact hm hd
    have haddr : ∀ x, addrOf (update s.dinode n d) s'.data (m, x) =
        addrOf s.dinode s.data (m, x) := fun x =>
      addrOf_congr (by rw [update_of_ne hmn]) (by rw [update_of_ne hmn])
        fun _ => by rw [hdata]
    simp only [haddr]
    rw [update_of_ne hmn] at hm ⊢
    exact h.sized m hm
  agree j hj hv := by
    rw [hinode] at hj hv ⊢
    rw [hdinode, update_of_ne (hnone j hj)]
    exact h.agree j hj hv
  unique := by
    rw [hinode]
    exact h.unique
  refs := by
    rw [hinode]
    exact h.refs

end Sound

/-! ## Taking and giving up references -/

theorem setInode_keeps {e : Inode} (hinum : 0 < K i → e.inum = (s.inode i).inum)
    (hvalid : 0 < K i → (s.inode i).valid = true → e.valid = true) : Keeps K s (s.setInode i e) where
  inum j hj := by
    by_cases hji : j = i
    · subst hji
      simpa [setInode] using hinum hj
    · simp [setInode, hji]
  valid j hj hv := by
    by_cases hji : j = i
    · subst hji
      simpa [setInode] using hvalid hj hv
    · simpa [setInode, hji] using hv
  cwd := rfl
  file := rfl
  pipe := rfl
  ofile := rfl

theorem refs_bump {e : Inode} (h : ∀ j, (s.inode j).ref = K j) (he : e.ref = K i + 1)
    (j : Fin NINODE) : (update s.inode i e j).ref = bump K i j := by
  by_cases hji : j = i
  · subst hji
    rwa [bump_self, update_self]
  · rw [bump_of_ne hji, update_of_ne hji]
    exact h j

theorem setRef_sound (h : Sound sb s K) (href : 0 < (s.inode i).ref) :
    Sound sb (s.setRef i ((s.inode i).ref + 1)) (bump K i) :=
  h.ofInode ⟨rfl, rfl, rfl⟩ rfl (fun _ hv => h.agree i href hv)
    (fun _ j hji hj heq => hji (h.unique j i hj href heq))
    (refs_bump h.refs (congrArg (· + 1) (h.refs i)))

/-- What a function does that returns entry `i` and leaves the disk alone. -/
structure Took (sb : Superblock) (K : Refs) (i : Fin NINODE) (s s' : State P) : Prop where
  sound : Sound sb s' (bump K i)
  keeps : Keeps K s s'
  disk : SameDisk s s'

theorem idup_took (h : Sound sb s K) (hi : 0 < K i)
    (hrun : (idup i).run s = some (j, s')) : j = i ∧ Took sb K i s s' := by
  obtain ⟨rfl, rfl⟩ := idup_inv hrun
  exact ⟨rfl, setRef_sound h (h.ref_pos hi), setInode_keeps (fun _ => rfl) (fun _ h => h),
    rfl, rfl, rfl⟩

theorem iget_took {inum : Nat} (h : Sound sb s K) (hrun : (iget inum).run s = some (i, s')) :
    Took sb K i s s' ∧ (s'.inode i).inum = inum := by
  obtain ⟨href, hinum, rfl⟩ | ⟨hnone, href, rfl⟩ := iget_inv hrun
  · exact ⟨⟨setRef_sound h href, setInode_keeps (fun _ => rfl) (fun _ h => h), rfl, rfl, rfl⟩,
      by simp [setRef, setInode, hinum]⟩
  · have hK : K i = 0 := (h.refs i).symm.trans href
    refine ⟨⟨?_, setInode_keeps (fun hpos => by omega) (fun hpos => by omega), rfl, rfl, rfl⟩,
      by simp [setInode]⟩
    exact h.ofInode ⟨rfl, rfl, rfl⟩ rfl (fun _ hv => absurd hv Bool.false_ne_true)
      (fun _ j _ hj => hnone j hj) (refs_bump h.refs (by simp [hK]))

theorem ilock_sound (h : Sound sb s K) (hrun : (ilock i).run s = some (u, s')) :
    Sound sb s' K ∧ Keeps K s s' ∧ SameDisk s s' ∧ (s'.inode i).valid = true ∧
      (s'.inode i).inum = (s.inode i).inum := by
  obtain ⟨href, ⟨hv, rfl⟩ | ⟨hv, htype, rfl⟩⟩ := ilock_inv hrun
  · exact ⟨h, .refl K _, .refl _, hv, rfl⟩
  · refine ⟨?_, setInode_keeps (fun _ => rfl) (fun _ _ => rfl), ⟨rfl, rfl, rfl⟩,
      by simp [setInode], by simp [setInode]⟩
    refine h.ofInode ⟨rfl, rfl, rfl⟩ rfl (fun _ _ => ⟨rfl, htype⟩)
      (fun _ j hji hj heq => hji (h.unique j i hj href heq)) fun j => ?_
    by_cases hji : j = i
    · subst hji
      simpa using h.refs j
    · simpa [hji] using h.refs j

/-- A free inode is taken: on the disk it is new and empty. -/
theorem ialloc_took {type : IType} (h : Sound sb s K)
    (hrun : (ialloc sb type).run s = some (i, s')) :
    Sound sb s' (bump K i) ∧ Keeps K s s' ∧ (s.dinode (s'.inode i).inum).type = .free := by
  obtain ⟨inum, -, -, hfree, hget⟩ := ialloc_inv hrun
  have haddr : addrOf (update s.dinode inum { Dinode.zero with type }) s.data =
      addrOf s.dinode s.data := by
    funext x
    obtain ⟨n, x⟩ := x
    by_cases hn : n = inum
    · subst hn
      cases x <;> simp [addrOf, hfree, Dinode.slot, Dinode.zero]
    · exact addrOf_congr (by rw [update_of_ne hn]) (by rw [update_of_ne hn])
        fun _ => rfl
  have hdinode : (s.newInode sb inum type).dinode =
      update s.dinode inum { Dinode.zero with type } := rfl
  have hnew : Sound sb (s.newInode sb inum type) K := by
    refine ⟨?_, fun n hn => ?_, fun j hj hv => ?_, h.unique, h.refs⟩
    · show Owned _ _ (addrOf (update s.dinode inum _) s.data) s.bitmap
      rw [haddr]
      exact h.own
    · rw [hdinode] at hn ⊢
      show _ ∧ ∀ p < _, addrOf _ s.data _ ≠ 0
      rw [haddr]
      by_cases hni : n = inum
      · subst hni
        simp [Dinode.zero]
      · rw [update_of_ne hni] at hn ⊢
        exact h.sized n hn
    · obtain ⟨hdin, htype⟩ := h.agree j hj hv
      have hne : (s.inode j).inum ≠ inum := by
        rintro rfl
        exact htype (hdin ▸ hfree)
      exact ⟨hdin.trans (update_of_ne hne _ _).symm, htype⟩
  obtain ⟨htook, rfl⟩ := iget_took hnew hget
  exact ⟨htook.sound, ⟨htook.keeps.inum, htook.keeps.valid, htook.keeps.cwd, htook.keeps.file,
    htook.keeps.pipe, htook.keeps.ofile⟩, hfree⟩

/-! ## Changing an inode -/

theorem setDin_keeps (din : Dinode) : Keeps K s (s.setDin i din) :=
  setInode_keeps (fun _ => rfl) (fun _ h => h)

theorem flush_keeps (sb : Superblock) (i : Fin NINODE) : Keeps K s (s.flush sb i) :=
  ⟨fun _ _ => rfl, fun _ _ h => h, rfl, rfl, rfl, rfl⟩

theorem meta_sound {d : Dinode} (h : Sound sb s K) (hi : 0 < K i)
    (hv : (s.inode i).valid = true) (htype : d.type = (s.inode i).din.type)
    (haddrs : d.addrs = (s.inode i).din.addrs) (hsize : d.size = (s.inode i).din.size) :
    Sound sb ((s.setDin i d).flush sb i) K ∧ Keeps K s ((s.setDin i d).flush sb i) := by
  have hdin := h.din_eq hi hv
  have hdinode : ((s.setDin i d).flush sb i).dinode =
      update s.dinode (s.inode i).inum d := by
    simp [flush, setDin, setInode]
  have hfields : ∀ n, (update s.dinode (s.inode i).inum d n).type = (s.dinode n).type ∧
      (update s.dinode (s.inode i).inum d n).addrs = (s.dinode n).addrs ∧
      (update s.dinode (s.inode i).inum d n).size = (s.dinode n).size := by
    intro n
    by_cases hn : n = (s.inode i).inum
    · subst hn
      rw [update_self, htype, haddrs, hsize, hdin]
      exact ⟨rfl, rfl, rfl⟩
    · rw [update_of_ne hn]
      exact ⟨rfl, rfl, rfl⟩
  have haddr : addrOf ((s.setDin i d).flush sb i).dinode ((s.setDin i d).flush sb i).data =
      addrOf s.dinode s.data := by
    rw [hdinode]
    funext x
    obtain ⟨n, x⟩ := x
    exact addrOf_congr (hfields n).1 (hfields n).2.1 fun _ => rfl
  refine ⟨h.ofFlush (h.ref_pos hi) rfl hdinode (htype ▸ h.type_ne_free hi hv) ?_ fun n hn => ?_,
    (setDin_keeps d).trans (flush_keeps sb i)⟩
  · rw [haddr]
    exact h.own
  · rw [haddr]
    rw [hdinode] at hn ⊢
    rw [(hfields n).1] at hn
    rw [(hfields n).2.2]
    exact h.sized n hn

theorem State.Remaps.keeps (h : State.Remaps i s s') (K : Refs) : Keeps K s s' where
  inum j _ := by
    rw [h.inode]
    by_cases hji : j = i
    · subst hji
      simp
    · simp [hji]
  valid j _ hv := by
    rw [h.inode]
    by_cases hji : j = i
    · subst hji
      simpa using hv
    · simpa [hji] using hv
  cwd := h.cwd
  file := h.file
  pipe := h.pipe
  ofile := h.ofile

/-- Byte `p` of inode `n`. -/
def fbyte (s : State P) (n p : Nat) : Byte :=
  s.data (addrOf s.dinode s.data (n, .block (p / BSIZE))) (p % BSIZE)

/-- From `s` to `s'` the bytes `src` have been written to inode `n` at `off`. -/
structure Wrote (n off : Nat) (src : List Byte) (s s' : State P) : Prop where
  type : (s'.dinode n).type = (s.dinode n).type
  nlink : (s'.dinode n).nlink = (s.dinode n).nlink
  size : (s'.dinode n).size = max (s.dinode n).size (off + src.length)
  bytes : ∀ p < (s'.dinode n).size, fbyte s' n p =
    if off ≤ p ∧ p < off + src.length then src.getD (p - off) 0 else fbyte s n p
  dinode : ∀ m, m ≠ n → s'.dinode m = s.dinode m
  others : ∀ m, m ≠ n → (s.dinode m).type ≠ .free → ∀ p < (s.dinode m).size,
    fbyte s' m p = fbyte s m p

section Writei

variable {off : Nat} {src : List Byte}

/-- The inode of a finished write on the disk. -/
theorem written_sound (size : Nat) (h : Sound sb s K) (hi : 0 < K i)
    (hv : (s.inode i).valid = true) (hoff : off ≤ (s.inode i).din.size) (hw : Written sb i off src s t)
    (hsize : size = max (s.inode i).din.size (off + src.length))
    (hdinode : s'.dinode =
      update t.dinode (t.inode i).inum { (t.inode i).din with size := size })
    (hinode : s'.inode =
      update t.inode i { t.inode i with din := { (t.inode i).din with size := size } })
    (hdata : s'.data = t.data) (hbitmap : s'.bitmap = t.bitmap) :
    Sound sb s' K ∧ Wrote (s.inode i).inum off src s s' := by
  have hdin := h.din_eq hi hv
  have hinum := hw.remaps.inum
  have hself := hw.remaps.self
  have htype : (t.inode i).din.type ≠ .free := hw.remaps.type ▸ h.type_ne_free hi hv
  have hat := h.addr_at hi hv
  -- the slots on the disk are now those of the cache
  have haddr : addrOf s'.dinode s'.data = t.addr i := by
    rw [hdinode, hdata]
    funext x
    obtain ⟨n, x⟩ := x
    unfold addr ino
    by_cases hn : n = (t.inode i).inum
    · subst hn
      exact addrOf_congr (by rw [update_self, update_self])
        (by rw [update_self, update_self]) fun _ => rfl
    · exact addrOf_congr (by rw [update_of_ne hn, update_of_ne hn])
        (by rw [update_of_ne hn, update_of_ne hn]) fun _ => rfl
  have hd : s'.dinode (s.inode i).inum = { (t.inode i).din with size := size } := by
    rw [hdinode, hinum, update_self]
  have hother : ∀ m, m ≠ (s.inode i).inum → s'.dinode m = s.dinode m := by
    intro m hm
    rw [hdinode, hinum, update_of_ne hm, hw.remaps.dinode]
  obtain ⟨hmax, hfill⟩ := h.sized_at hi hv
  have hsizeMax : size ≤ MAXFILE * BSIZE := by
    by_cases hlen : src.length = 0
    · omega
    · have hlast := (hw.filled (off + src.length - 1) (by omega) (by omega)).1
      omega
  have hfilled : ∀ p < size, t.addr i ((s.inode i).inum, .block (p / BSIZE)) ≠ 0 := by
    intro p hp
    by_cases hold : p < (s.inode i).din.size
    · have hx := hfill p hold
      rwa [hw.addr _ hx]
    · exact (hw.filled p (by omega) (by omega)).2
  have hx : ∀ m, (s.dinode m).type ≠ .free → ∀ p < (s.dinode m).size,
      s.addr i (m, .block (p / BSIZE)) ≠ 0 := by
    intro m hm p hp
    rw [hat]
    exact (h.sized m hm).2 p hp
  refine ⟨h.ofFlush (i := i) (d := { (t.inode i).din with size := size }) (h.ref_pos hi) ?_ ?_
    htype ?_ fun m hm => ?_, ⟨?_, ?_, ?_, fun p hp => ?_, hother, fun m hm hfree p hp => ?_⟩⟩
  · rw [hinode, hw.remaps.inode, update_idem, update_self]
  · rw [hdinode, hw.remaps.dinode, hinum]
  · rw [haddr, hbitmap]
    exact hw.own
  · rw [haddr]
    by_cases hmi : m = (s.inode i).inum
    · subst hmi
      rw [hd]
      exact ⟨hsizeMax, hfilled⟩
    · rw [hother m hmi] at hm ⊢
      refine ⟨(h.sized m hm).1, fun p hp => ?_⟩
      rw [hw.addr _ (hx m hm p hp)]
      exact hx m hm p hp
  · rw [hd, ← hdin]
    exact hw.remaps.type
  · rw [hd, ← hdin]
    show (t.inode i).din.nlink = _
    rw [hself]
  · rw [hd, ← hdin]
    exact hsize
  · rw [hd] at hp
    change p < size at hp
    have hbyte : fbyte s' (s.inode i).inum p = t.byte i p := by
      unfold fbyte byte
      rw [haddr, hdata, hinum]
    have hbyteS : s.byte i p = fbyte s (s.inode i).inum p := by
      unfold fbyte byte
      rw [hat]
    rw [hbyte, ← hbyteS]
    split
    · next hin => exact hw.inside p hin.1 hin.2
    · next hout => exact hw.outside p (by omega) (by omega) (hfill p (by omega))
  · unfold fbyte
    rw [haddr, hdata, hw.addr _ (hx m hfree p hp), ← hat]
    rw [hw.others (m, .block (p / BSIZE)) hm (hx m hfree p hp) (Slot.block_ne_indirect _)]

/-- `writei` is refused and changes nothing, or is for a device, or has written. -/
theorem writei_sound {r : Option Nat} (h : Sound sb s K) (hi : 0 < K i)
    (hv : (s.inode i).valid = true) (hrun : (writei sb i off src).run s = some (r, s')) :
    Sound sb s' K ∧ Keeps K s s' ∧
      (s' = s ∧ (r = none ∨ (s.inode i).din.type = .dev) ∨
        r = some src.length ∧ off ≤ (s.inode i).din.size ∧
          Wrote (s.inode i).inum off src s s') := by
  obtain ⟨rfl, hr⟩ | ⟨hr, -, hoff, t, hloop, hs'⟩ := writei_inv hrun
  · exact ⟨h, .refl K _, .inl ⟨rfl, hr⟩⟩
  · have hw := writeiLoop_written (h.own_at hi hv) (h.type_ne_free hi hv) le_rfl hloop
    have hkeeps := hw.remaps.keeps K
    split at hs'
    · next hgrow =>
      subst hs'
      obtain ⟨hsound, hwrote⟩ : Sound sb ((t.setSize i (off + src.length)).flush sb i) K ∧ _ :=
        written_sound (off + src.length) h hi hv hoff hw (by omega)
        (by simp [flush, setSize, setDin, setInode])
        (by simp [flush, setSize, setDin, setInode]) rfl rfl
      exact ⟨hsound, hkeeps.trans ((setDin_keeps _).trans (flush_keeps sb i)),
        .inr ⟨hr, hoff, hwrote⟩⟩
    · next hsame =>
      subst hs'
      -- every slot was filled, so the inode has not changed
      have hinode : s'.inode = s.inode := by
        refine hw.still fun p hp hlt => (h.sized_at hi hv).2 p ?_
        omega
      have hdin : { (s'.inode i).din with size := (s.inode i).din.size } = (s'.inode i).din := by
        rw [hinode]
      obtain ⟨hsound, hwrote⟩ := written_sound (s.inode i).din.size h hi hv hoff hw (by omega)
        (by rw [hdin, hinode, h.din_eq hi hv, hw.remaps.dinode, update_eq_self])
        (by rw [hdin, update_eq_self]) rfl rfl
      exact ⟨hsound, hkeeps, .inr ⟨hr, hoff, hwrote⟩⟩

end Writei

/-- The bytes of inode `n`. -/
def State.contents (s : State P) (n : Nat) : List Byte :=
  (List.range (s.dinode n).size).map (fbyte s n)

theorem State.length_contents (s : State P) (n : Nat) :
    (s.contents n).length = (s.dinode n).size := by
  simp [contents]

theorem contents_slice {n off m : Nat} (h : off + m ≤ (s.dinode n).size) :
    ((s.contents n).drop off).take m = (List.range m).map fun k => fbyte s n (off + k) := by
  have hlen := s.length_contents n
  refine ext_getElem ?_ fun k hk hk' => ?_
  · simp only [length_take, length_drop, length_map, length_range]
    omega
  · simp [contents]

theorem Sound.stores (h : Sound sb s K) (hi : 0 < K i) (hv : (s.inode i).valid = true) :
    (s.inode i).din.Stores s.data (s.contents (s.inode i).inum) := by
  have hdin := h.din_eq hi hv
  have htype := h.type_ne_free hi hv
  obtain ⟨hmax, hfill⟩ := h.sized_at hi hv
  have hlen : (s.contents (s.inode i).inum).length = (s.inode i).din.size := by
    rw [s.length_contents, hdin]
  have hslot : ∀ x, (s.inode i).din.slot s.data x = addrOf s.dinode s.data ((s.inode i).inum, x) := by
    intro x
    rw [← addr_self s i x htype, h.addr_at hi hv]
  refine ⟨hlen ▸ hmax, fun p hp => ?_, fun p hp => ?_⟩
  · rw [hslot, ← h.addr_at hi hv]
    exact hfill p (hlen ▸ hp)
  · rw [hslot, getD_eq_getElem _ _ hp]
    simp [contents, fbyte]

theorem readi_same {off n : Nat} {r : Option (List Byte)} (h : Sound sb s K) (hi : 0 < K i)
    (hv : (s.inode i).valid = true) (hn : n < 2 ^ 32)
    (hrun : (readi sb i off n).run s = some (r, s')) :
    s' = s ∧ ∀ bytes, r = some bytes → bytes = ((s.contents (s.inode i).inum).drop off).take n := by
  have hmax := (h.sized_at hi hv).1
  have hlen := s.length_contents (s.inode i).inum
  rw [← h.din_eq hi hv] at hlen
  simp only [MAXFILE, BSIZE] at hmax
  by_cases hrefuse : (s.inode i).din.size < off ∨ (off + n) % 2 ^ 32 < off
  · rw [readi_none hrefuse] at hrun
    cases hrun
    exact ⟨rfl, fun _ hb => by cases hb⟩
  · rw [readi_run (h.stores hi hv) (by omega) (by omega) (by omega) (by omega)] at hrun
    cases hrun
    exact ⟨rfl, fun _ hb => (Option.some.inj hb).symm⟩

/-- What giving up a reference to entry `i` does. -/
structure Put (sb : Superblock) (K : Refs) (i : Fin NINODE) (s s' : State P) : Prop where
  sound : Sound sb s' K
  keeps : Keeps K s s'
  disk : ¬ ((s.inode i).ref = 1 ∧ (s.inode i).valid = true ∧ (s.inode i).din.nlink = 0) →
    SameDisk s s'
  others : ∀ n, n ≠ (s.inode i).inum → s'.dinode n = s.dinode n

/-- The last reference to an inode is given up, and the inode has been freed. -/
theorem free_put {e : Inode} {d : Dinode} (h : Sound sb s (bump K i))
    (hcond : (s.inode i).ref = 1 ∧ (s.inode i).valid = true ∧ (s.inode i).din.nlink = 0)
    (he : e.ref = 0) (hd : d.type = .free) (hinode : s'.inode = update s.inode i e)
    (hdinode : s'.dinode = update s.dinode (s.inode i).inum d) (hdata : s'.data = s.data)
    (hown : Owned (· < sb.nmeta) (· < sb.size) (addrOf s'.dinode s'.data) s'.bitmap)
    (hcwd : s'.cwd = s.cwd) (hfile : s'.file = s.file) (hpipe : s'.pipe = s.pipe)
    (hofile : s'.ofile = s.ofile) :
    Put sb K i s s' := by
  have hrefs : ∀ j, (update s.inode i e j).ref = K j := by
    intro j
    have hj := h.refs j
    by_cases hji : j = i
    · subst hji
      rw [bump_self] at hj
      rw [update_self]
      omega
    · rw [bump_of_ne hji] at hj
      rwa [update_of_ne hji]
  have hdrop : Sound sb (s.setInode i e) K :=
    h.ofInode ⟨rfl, rfl, rfl⟩ rfl (fun h0 => by omega) (fun h0 => by omega) hrefs
  have hnone : ∀ j, 0 < ((s.setInode i e).inode j).ref →
      ((s.setInode i e).inode j).inum ≠ (s.inode i).inum := by
    intro j hj
    by_cases hji : j = i
    · subst hji
      simp [setInode, he] at hj
    · simp only [setInode, update_of_ne hji] at hj ⊢
      exact fun heq => hji (h.unique j i hj (by omega) heq)
  have hK : ¬ 0 < K i := by
    have := hrefs i
    rw [update_self] at this
    omega
  have hkeeps : Keeps K s (s.setInode i e) :=
    setInode_keeps (fun h0 => absurd h0 hK) (fun h0 => absurd h0 hK)
  refine ⟨hdrop.ofFree hnone hinode hd hdinode hdata hown, ⟨fun j hj => ?_, fun j hj hv => ?_, hcwd,
    hfile, hpipe, hofile⟩, fun hnot => absurd hcond hnot, fun n hn => by rw [hdinode, update_of_ne hn]⟩
  · rw [hinode]
    exact hkeeps.inum j hj
  · rw [hinode]
    exact hkeeps.valid j hj hv

theorem iput_put (h : Sound sb s (bump K i)) (hrun : (iput sb i).run s = some (u, s')) :
    Put sb K i s s' := by
  have hpos := h.ref_pos (bump_pos K i)
  have hK : (s.inode i).ref = K i + 1 := by simpa using h.refs i
  obtain ⟨hcond, rfl⟩ | ⟨hcond, t, t', htrunc, ht', hs'⟩ := iput_inv hrun
  · refine ⟨?_, setInode_keeps (fun _ => rfl) (fun _ h => h), fun _ => ⟨rfl, rfl, rfl⟩,
      fun _ _ => rfl⟩
    refine h.ofInode ⟨rfl, rfl, rfl⟩ rfl (fun _ hv => h.agree i hpos hv)
      (fun _ j hji hj heq => hji (h.unique j i hj hpos heq)) fun j => ?_
    by_cases hji : j = i
    · subst hji
      simp only [update_self]
      omega
    · simpa [hji, bump_of_ne hji] using h.refs j
  · have hi := bump_pos K i
    have hv := hcond.2.1
    obtain ⟨t₀, hown, hrem, hdata, haddrs, rfl⟩ :=
      itrunc_own (h.own_at hi hv) (h.type_ne_free hi hv) htrunc
    have hinum := hrem.inum
    have href : (t₀.inode i).ref = 1 := by
      rw [hrem.self]
      exact hcond.1
    have haddr : addrOf (update s.dinode (s.inode i).inum
        { (t₀.inode i).din with size := 0, type := .free }) t₀.data = t₀.addr i := by
      funext x
      obtain ⟨n, x⟩ := x
      by_cases hn : n = (s.inode i).inum
      · subst hn
        rw [← hinum, addr_self t₀ i x (hrem.type ▸ h.type_ne_free hi hv)]
        cases x <;> simp [addrOf, Dinode.slot, haddrs]
      · have hino : t₀.ino i n = s.dinode n := by
          rw [ino_of_ne (by rwa [hinum]), hrem.dinode]
        exact addrOf_congr (by rw [update_of_ne hn, hino])
          (by rw [update_of_ne hn, hino]) fun _ => rfl
    have hdinode : s'.dinode = update s.dinode (s.inode i).inum
        { (t₀.inode i).din with size := 0, type := .free } := by
      rw [hs', ht']
      simp [setInode, flush, setDin, setSize, hinum, hrem.dinode]
    have hinode : s'.inode = update s.inode i ⟨(s.inode i).inum, 0, false,
        { (t₀.inode i).din with size := 0, type := .free }⟩ := by
      rw [hs', ht']
      funext j
      by_cases hji : j = i
      · subst hji
        simp [setInode, flush, setDin, setSize, href, hinum]
      · have hj : t₀.inode j = s.inode j := by rw [hrem.inode, update_of_ne hji]
        simp [setInode, flush, setDin, setSize, hji, hj]
    have hdata' : s'.data = t₀.data := by
      rw [hs', ht']
      rfl
    have hbitmap : s'.bitmap = t₀.bitmap := by
      rw [hs', ht']
      rfl
    refine free_put h hcond rfl rfl hinode hdinode (hdata'.trans hdata) ?_ ?_ ?_ ?_ ?_
    · rw [hdinode, hdata', haddr, hbitmap]
      exact hown
    · rw [hs', ht']
      exact hrem.cwd
    · rw [hs', ht']
      exact hrem.file
    · rw [hs', ht']
      exact hrem.pipe
    · rw [hs', ht']
      exact hrem.ofile

end Xv6.Fs
