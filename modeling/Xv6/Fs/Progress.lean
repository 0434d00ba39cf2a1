import Mathlib.Data.List.TakeWhile
import Xv6.Fs.Directory

/-!
# Runs that do not panic

The other direction of `Xv6.Fs.Spec`: where nothing is missing, a function has a run, and this is
what it does. Blocks are there or can be allocated, the inode cache has room, and so on.
-/

namespace Xv6.Fs

open Bytes Partial List

variable {P : Type} {sb : Superblock} {s : State P} {i : Fin NINODE} {b : Nat}

/-! ## Blocks -/

/-- The block that `balloc` takes. -/
def FirstFree (sb : Superblock) (s : State P) (b : Nat) : Prop :=
  (List.range sb.size).find? (fun b => !s.bitmap b) = some b

theorem balloc_run (h : FirstFree sb s b) : (balloc sb).run s = some (b, s.alloc sb b) := by
  simp only [balloc, get_bind]
  unfold FirstFree at h
  rw [h]
  rfl

section Bmap

variable {k : Fin (NDIRECT + 1)} {a j bn : Nat}

theorem bmapAddr_new (h0 : (s.inode i).din.addrs k = 0) (hfree : FirstFree sb s b) :
    (bmapAddr sb i k).run s = some (b, (s.alloc sb b).setAddr i k b) := by
  simp only [bmapAddr, get_bind]
  rw [if_pos h0, bind_iff]
  exact ⟨b, s.alloc sb b, balloc_run hfree, rfl⟩

theorem bmapEntry_new (h0 : word (s.data a) j = 0) (hfree : FirstFree sb s b) :
    (bmapEntry sb a j).run s = some (b,
      { (s.alloc sb b).setData a (setWord ((s.alloc sb b).data a) j b) with
        logged := a :: b :: sb.bblock b :: s.logged }) := by
  simp only [bmapEntry, get_bind]
  rw [if_pos h0, bind_iff]
  exact ⟨b, s.alloc sb b, balloc_run hfree, rfl⟩

end Bmap

/-! ## Directories -/

theorem cname_of_no_null {name : List Byte} (h : 0 ∉ name) : cname name = name.take DIRSIZ := by
  rw [cname, takeWhile_eq_self_iff]
  intro x hx
  rw [decide_eq_true_eq]
  rintro rfl
  exact h (mem_of_mem_take hx)

/-- The name of an entry is read back, without the bytes that pad it. -/
theorem dirent_direntBytes {inum : Nat} (h : inum < 2 ^ 16) (name : List Byte) :
    dirent (direntBytes inum name) = (inum, cname name) := by
  have hlen := length_direntBytes inum name
  have hwhole : cname ((direntBytes inum name).drop 2) = cname name := by
    have hdrop : (direntBytes inum name).drop 2 =
        cname name ++ List.replicate (DIRSIZ - (cname name).length) 0 := rfl
    rw [cname, take_of_length_le (by rw [length_drop, hlen]), hdrop,
      takeWhile_append_of_pos, takeWhile_replicate]
    · simp
    · intro x hx
      have hnull := mem_takeWhile_imp (p := fun x : Byte => decide (x ≠ 0)) hx
      exact hnull
  rw [dirent, hwhole]
  congr 1
  show (BitVec.ofNat 8 inum).toNat + 256 * (BitVec.ofNat 8 (inum / 256)).toNat = inum
  rw [BitVec.toNat_ofNat, BitVec.toNat_ofNat]
  omega

/-- The bytes of a directory with these entries. -/
def dirBytes (es : List (Nat × List Byte)) : List Byte := es.flatMap fun e => direntBytes e.1 e.2

section Lookup

variable {es : List (Nat × List Byte)} {k : Nat} {name : List Byte} {dp ip : Fin NINODE}
  {s' : State P}

theorem dirBytes_length (es : List (Nat × List Byte)) : (dirBytes es).length = 16 * es.length := by
  induction es with
  | nil => rfl
  | cons e es ih =>
    rw [dirBytes, flatMap_cons, length_append, length_direntBytes, length_cons]
    rw [dirBytes] at ih
    omega

theorem dirBytes_entry (hk : k < es.length) :
    ((dirBytes es).drop (16 * k)).take 16 = direntBytes es[k].1 es[k].2 := by
  induction es generalizing k with
  | nil => exact absurd hk (Nat.not_lt_zero k)
  | cons e es ih =>
    have hlen := length_direntBytes e.1 e.2
    have hcons : dirBytes (e :: es) = direntBytes e.1 e.2 ++ dirBytes es := flatMap_cons
    rw [hcons]
    cases k with
    | zero => rw [Nat.mul_zero, drop_zero, take_left' hlen, getElem_cons_zero]
    | succ k =>
      have hoff : 16 * (k + 1) = (direntBytes e.1 e.2).length + 16 * k := by omega
      rw [hoff, ← drop_drop, drop_left, getElem_cons_succ]
      exact ih (Nat.lt_of_succ_lt_succ hk)

variable (h : (s.inode dp).din.Stores s.data (dirBytes es))
  (hsize : (dirBytes es).length ≤ (s.inode dp).din.size)

include h hsize

theorem readDirent_run (hk : k < es.length) (hinum : es[k].1 < 2 ^ 16) :
    (readDirent sb dp (16 * k)).run s = some ((es[k].1, cname es[k].2), s) := by
  have hlen := dirBytes_length es
  have hshort := h.short
  simp only [MAXFILE, BSIZE] at hshort
  have hread : (readi sb dp (16 * k) 16).run s =
      some (some (((dirBytes es).drop (16 * k)).take 16), s) :=
    readi_run h hsize (by omega) (by omega) (by omega)
  rw [readDirent, bind_of_run hread, dirBytes_entry hk]
  dsimp only
  rw [if_pos (length_direntBytes _ _), dirent_direntBytes hinum]
  rfl

variable (hinums : ∀ e ∈ es, e.1 < 2 ^ 16) (hk : k < es.length)
  (hmiss : ∀ j, (hj : j < es.length) → j < k → cname name ≠ cname es[j].2)
  (hmatch : cname name = cname es[k].2) (hpos : es[k].1 ≠ 0)
  (hget : (iget es[k].1).run s = some (ip, s'))

include hinums hmiss hmatch hpos hget

theorem dirlookupLoop_run {a m r : Nat} (hm : a + m = k) :
    (dirlookupLoop sb dp name ((List.range' a (m + 1 + r)).map (16 * ·))).run s =
      some (some (16 * k, ip), s') := by
  induction m generalizing a with
  | zero =>
    obtain rfl : a = k := hm
    have hlist : List.range' a (0 + 1 + r) = a :: List.range' (a + 1) r := by
      rw [Nat.zero_add, Nat.add_comm, range'_succ]
    rw [hlist, map_cons, dirlookupLoop,
      bind_of_run (readDirent_run h hsize hk (hinums _ (getElem_mem hk)))]
    dsimp only
    rw [if_pos ⟨hpos, hmatch⟩, bind_of_run hget]
    rfl
  | succ m ih =>
    have ha : a < es.length := by omega
    have hlist : List.range' a (m + 1 + 1 + r) = a :: List.range' (a + 1) (m + 1 + r) := by
      rw [Nat.add_right_comm, range'_succ]
    rw [hlist, map_cons, dirlookupLoop,
      bind_of_run (readDirent_run h hsize ha (hinums _ (getElem_mem ha)))]
    dsimp only
    rw [if_neg fun hfound => hmiss a ha (by omega) hfound.2]
    exact ih (by omega)

theorem dirlookup_run (hdir : (s.inode dp).din.type = .dir) :
    (dirlookup sb dp name).run s = some (some (16 * k, ip), s') := by
  have hlen := dirBytes_length es
  obtain ⟨r, hr⟩ : ∃ r, ((s.inode dp).din.size + 15) / 16 = k + 1 + r :=
    ⟨_, (Nat.add_sub_of_le (by omega)).symm⟩
  rw [dirlookup, get_bind, if_pos hdir, offsets, hr,
    range_eq_range']
  exact dirlookupLoop_run h hsize hinums hk hmiss hmatch hpos hget (Nat.zero_add k)

end Lookup

/-! ## Paths -/

theorem iget_run {inum : Nat} (hnone : ∀ j, 0 < (s.inode j).ref → (s.inode j).inum ≠ inum)
    (hfirst : (List.finRange NINODE).find? (fun i => (s.inode i).ref = 0) = some i) :
    (iget inum).run s =
      some (i, s.setInode i { s.inode i with inum, ref := 1, valid := false }) := by
  have hmiss : (List.finRange NINODE).find?
      (fun i => 0 < (s.inode i).ref ∧ (s.inode i).inum = inum) = none := by
    rw [List.find?_eq_none]
    intro j _ hj
    obtain ⟨hpos, heq⟩ := of_decide_eq_true hj
    exact hnone j hpos heq
  rw [iget, get_bind, hmiss, hfirst]
  rfl

theorem ilock_run (hpos : 0 < (s.inode i).ref) (hvalid : (s.inode i).valid = false)
    (htype : (s.dinode (s.inode i).inum).type ≠ .free) :
    (ilock i).run s = some ((),
      s.setInode i { s.inode i with valid := true, din := s.dinode (s.inode i).inum }) := by
  rw [ilock, get_bind, if_neg (by omega), hvalid,
    if_neg Bool.false_ne_true]
  refine (bind_of_run (a := ⟨⟩) (modify_iff.mpr rfl)).trans ?_
  rw [if_neg htype]
  rfl

theorem ilock_total {K : Refs} (h : Sound sb s K) (hi : 0 < K i)
    (htype : (s.dinode (s.inode i).inum).type ≠ .free) : ∃ s', (ilock i).run s = some ((), s') := by
  have href := h.ref_pos hi
  cases hv : (s.inode i).valid with
  | false => exact ⟨_, ilock_run href hv htype⟩
  | true =>
    refine ⟨s, ?_⟩
    rw [ilock, get_bind, if_neg (by omega), if_pos hv]
    rfl

theorem iput_run (h : (s.inode i).ref ≠ 1) :
    (iput sb i).run s = some ((), s.setRef i ((s.inode i).ref - 1)) := by
  rw [iput, get_bind, if_neg fun hlast => h hlast.1]
  rfl

theorem namexLoop_run {fuel off : Nat} {path name : List Byte} {ip next : Fin NINODE}
    {s₁ s₂ s₃ : State P} (hskip : skipelem path = some (name, []))
    (hlock : (ilock ip).run s = some ((), s₁)) (hdir : (s₁.inode ip).din.type = .dir)
    (hlook : (dirlookup sb ip name).run s₁ = some (some (off, next), s₂))
    (hput : (iput sb ip).run s₂ = some ((), s₃)) :
    (namexLoop sb false (fuel + 2) ip path).run s = some (some (next, []), s₃) := by
  rw [namexLoop, hskip]
  dsimp only
  rw [bind_of_run hlock, get_bind,
    if_neg (not_not.mpr hdir), if_neg fun hparent => Bool.false_ne_true hparent.1,
    bind_of_run hlook]
  dsimp only
  rw [bind_of_run hput]
  rfl

theorem skipelem_name {name : List Byte} (hne : name ≠ []) (hslash : slash ∉ name) :
    skipelem name = some (name.take DIRSIZ, []) := by
  have hall : ∀ x ∈ name, x ≠ slash := by
    rintro x hx rfl
    exact hslash hx
  have hskip : name.dropWhile (· = slash) = name := by
    cases name with
    | nil => rfl
    | cons x l => exact dropWhile_cons_of_neg (by simpa using hall x mem_cons_self)
  have htake : name.takeWhile (· ≠ slash) = name :=
    takeWhile_eq_self_iff.mpr fun x hx => by simpa using hall x hx
  have hdrop : name.dropWhile (· ≠ slash) = [] :=
    dropWhile_eq_nil_iff.mpr fun x hx => by simpa using hall x hx
  rw [skipelem, hskip, if_neg hne, htake, hdrop]
  rfl

theorem skipelem_slash (path : List Byte) : skipelem (slash :: path) = skipelem path := by
  rw [skipelem, skipelem, dropWhile_cons_of_pos (by simp)]

section

variable [DecidableEq P] {init p : P} {path : List Byte}

theorem namei_run (m : State P) {ip : Fin NINODE} {s' : State P}
    (hpath : path.head? = some slash ∨ p = init)
    (hloop : (namexLoop sb false (path.length + 1) 0 path).run ((m.boot init).setRef 0 2) =
      some (some (ip, []), s')) :
    (namei sb p path).run (m.boot init) = some (some ip, s') := by
  have hnamex : (namex sb p false path).run (m.boot init) = some (some (ip, []), s') := by
    rw [namex, get_bind]
    by_cases hslash : path.head? = some slash
    · have hget : (iget ROOTINO).run (m.boot init) = some (0, (m.boot init).setRef 0 2) := by
        rw [iget, get_bind]
        rfl
      rw [if_pos hslash, bind_of_run hget]
      exact hloop
    · have hcwd : (m.boot init).cwd p = some 0 := if_pos (hpath.resolve_left hslash)
      rw [if_neg hslash, hcwd]
      exact hloop
  rw [namei, bind_of_run hnamex]
  rfl

/-- `namei` of a name in the root directory finds its inode. -/
theorem namei_root {es : List (Nat × List Byte)} {k inum : Nat} {name ename : List Byte}
    {m : State P} (hstores : (m.dinode ROOTINO).Stores m.data (dirBytes es))
    (hdir : (m.dinode ROOTINO).type = .dir)
    (hsize : (dirBytes es).length ≤ (m.dinode ROOTINO).size)
    (hinums : ∀ e ∈ es, e.1 < 2 ^ 16) (hk : k < es.length)
    (hmiss : ∀ j, (hj : j < es.length) → j < k → cname name ≠ cname es[j].2)
    (hentry : es[k] = (inum, ename)) (hinum : 1 < inum) (hmatch : cname name = cname ename)
    (htype : (m.dinode inum).type ≠ .free) (hpath : path.head? = some slash ∨ p = init)
    (hskip : skipelem path = some (name, [])) :
    ∃ ip s₁ s₂, (namei sb p path).run (m.boot init) = some (some ip, s₁) ∧
      (ilock ip).run s₁ = some ((), s₂) ∧ (s₂.inode ip).din = m.dinode inum ∧ s₂.data = m.data := by
  -- `s₂`: the root directory is read; `s₃`: an entry for the file is taken
  obtain ⟨s₂, hlock, hzero, hothers, hdata, hdinode⟩ : ∃ s₂,
      (ilock 0).run ((m.boot init).setRef 0 2) = some ((), s₂) ∧
      s₂.inode 0 = ⟨ROOTINO, 2, true, m.dinode ROOTINO⟩ ∧
      (∀ j, j ≠ 0 → s₂.inode j = ⟨0, 0, false, Dinode.zero⟩) ∧
      s₂.data = m.data ∧ s₂.dinode = m.dinode := by
    refine ⟨_, ilock_run (Nat.succ_pos 1) rfl ?_, rfl, fun j hj => ?_, rfl, rfl⟩
    · show (m.dinode ROOTINO).type ≠ .free
      rw [hdir]
      exact IType.noConfusion
    · simp [State.setRef, State.setInode, State.boot, hj]
  have hfirst : (List.finRange NINODE).find? (fun i => (s₂.inode i).ref = 0) = some 1 := by
    have hlist : List.finRange NINODE = 0 :: 1 :: (List.finRange NINODE).drop 2 := by decide
    rw [hlist, List.find?_cons_of_neg (by rw [hzero]; exact Bool.false_ne_true),
      List.find?_cons_of_pos (by rw [hothers 1 (by decide)]; rfl)]
  have hnone : ∀ j, 0 < (s₂.inode j).ref → (s₂.inode j).inum ≠ inum := by
    intro j hpos
    by_cases hj : j = 0
    · subst hj
      rw [hzero]
      exact Nat.ne_of_lt hinum
    · rw [hothers j hj] at hpos
      exact absurd hpos (Nat.lt_irrefl 0)
  have hget := iget_run hnone hfirst
  have hlook : (dirlookup sb 0 name).run s₂ = some (some (16 * k, 1), _) :=
    dirlookup_run (by rw [hzero, hdata]; exact hstores) (by rw [hzero]; exact hsize) hinums hk hmiss
      (by rw [hentry]; exact hmatch) (by rw [hentry]; omega) (by rw [hentry]; exact hget)
      (by rw [hzero]; exact hdir)
  obtain ⟨s₃, hs₃, hone, hstill, hdata₃, hdinode₃⟩ : ∃ s₃,
      s₂.setInode 1 { s₂.inode 1 with inum, ref := 1, valid := false } = s₃ ∧
      s₃.inode 1 = ⟨inum, 1, false, (s₂.inode 1).din⟩ ∧ (s₃.inode 0).ref = 2 ∧
      s₃.data = m.data ∧ s₃.dinode = m.dinode := by
    refine ⟨_, rfl, rfl, ?_, hdata, hdinode⟩
    show (s₂.inode 0).ref = 2
    rw [hzero]
  rw [hs₃] at hlook
  have hput : (iput sb 0).run s₃ = some ((), s₃.setRef 0 ((s₃.inode 0).ref - 1)) :=
    iput_run (by rw [hstill]; decide)
  obtain ⟨fuel, hfuel⟩ : ∃ fuel, path.length = fuel + 1 := by
    refine Nat.exists_eq_succ_of_ne_zero fun hlen => ?_
    rw [length_eq_zero_iff.mp hlen] at hskip
    cases hskip
  have hloop : (namexLoop sb false (path.length + 1) 0 path).run ((m.boot init).setRef 0 2) =
      some (some (1, []), s₃.setRef 0 ((s₃.inode 0).ref - 1)) := by
    rw [hfuel]
    exact namexLoop_run hskip hlock (by rw [hzero]; exact hdir) hlook hput
  have hentry₄ : (s₃.setRef 0 ((s₃.inode 0).ref - 1)).inode 1 = s₃.inode 1 := rfl
  have hdinode₄ : (s₃.setRef 0 ((s₃.inode 0).ref - 1)).dinode = m.dinode := hdinode₃
  refine ⟨1, _, _, namei_run m hpath hloop, ilock_run ?_ ?_ ?_, ?_, hdata₃⟩
  · rw [hentry₄, hone]
    exact Nat.one_pos
  · rw [hentry₄, hone]
  · rw [hentry₄, hone, hdinode₄]
    exact htype
  · show (s₃.setRef 0 ((s₃.inode 0).ref - 1)).dinode _ = _
    rw [hentry₄, hone, hdinode₄]

end

end Xv6.Fs
