import Mathlib.Data.List.GetD
import Xv6.Fs.Own

/-!
# The content of an inode

What `writei`, `readi` and `itrunc` do to slots and bytes, while the inode in the cache is ahead of
the disk. `Written` is what a write has done; two writes one after the other are one write of both
(`Written.append`), which is the induction over the rounds of `writei`. A read below the size finds
every slot filled, so it changes nothing.
-/

namespace Xv6.Fs

open Bytes Partial List State
open Function (update update_eq_self update_of_ne update_self)

variable {P : Type} {sb : Superblock} {s s' t : State P} {i : Fin NINODE} {b : Nat}
  {k : Fin (NDIRECT + 1)} {u : Unit}

/-! ## Writing to a file -/

theorem store_remaps (s : State P) (i : Fin NINODE) (b o : Nat) (src : List Byte) :
    State.Remaps i s (s.store b o src) :=
  ⟨rfl, (update_eq_self i s.inode).symm, rfl, rfl, rfl, rfl, rfl⟩

theorem addr_store {x : Nat × Slot} (hown : s.Own sb i) (hx : x.2 ≠ .addr indirect)
    (o : Nat) (src : List Byte) : (s.store (s.addr i x) o src).addr i = s.addr i := by
  funext x
  obtain ⟨n, y⟩ := x
  refine addrOf_congr rfl rfl fun hind => ?_
  refine update_of_ne ?_ _ _
  have hne : s.addr i (n, .addr indirect) ≠ s.addr i x := by
    refine hown.ne_of_ne hind ?_
    rintro rfl
    exact hx rfl
  unfold addr at hne
  rwa [(addrOf_of_ne_zero hind).2] at hne

/-- Byte `p` of the file in entry `i`. -/
def State.byte (s : State P) (i : Fin NINODE) (p : Nat) : Byte :=
  s.data (s.addr i ((s.inode i).inum, .block (p / BSIZE))) (p % BSIZE)

/-- From `s` to `s'` the bytes `src` have been written to the file at `off`. -/
structure Written (sb : Superblock) (i : Fin NINODE) (off : Nat) (src : List Byte)
    (s s' : State P) : Prop where
  remaps : State.Remaps i s s'
  own : s'.Own sb i
  addr : ∀ x, s.addr i x ≠ 0 → s'.addr i x = s.addr i x
  others : ∀ x, x.1 ≠ (s.inode i).inum → s.addr i x ≠ 0 → x.2 ≠ .addr indirect →
    s'.data (s.addr i x) = s.data (s.addr i x)
  filled : ∀ p, off ≤ p → p < off + src.length →
    p < MAXFILE * BSIZE ∧ s'.addr i ((s.inode i).inum, .block (p / BSIZE)) ≠ 0
  inside : ∀ p, off ≤ p → p < off + src.length → s'.byte i p = src.getD (p - off) 0
  outside : ∀ p < MAXFILE * BSIZE, p < off ∨ off + src.length ≤ p →
    s.addr i ((s.inode i).inum, .block (p / BSIZE)) ≠ 0 → s'.byte i p = s.byte i p
  still : (∀ p, off ≤ p → p < off + src.length →
    s.addr i ((s.inode i).inum, .block (p / BSIZE)) ≠ 0) → s'.inode = s.inode

namespace Written

variable {off : Nat} {src src₁ src₂ : List Byte}

protected theorem nil (h : s.Own sb i) : Written sb i off [] s s where
  remaps := .refl i s
  own := h
  addr _ _ := rfl
  others _ _ _ _ := rfl
  filled _ h₁ h₂ := absurd h₂ (Nat.not_lt.mpr h₁)
  inside _ h₁ h₂ := absurd h₂ (Nat.not_lt.mpr h₁)
  outside _ _ _ _ := rfl
  still _ := rfl

theorem append (h₁ : Written sb i off src₁ s t)
    (h₂ : Written sb i (off + src₁.length) src₂ t s') : Written sb i off (src₁ ++ src₂) s s' := by
  have hinum := h₁.remaps.inum
  have hlen : off + (src₁ ++ src₂).length = off + src₁.length + src₂.length := by
    rw [length_append, Nat.add_assoc]
  have hsplit : ∀ p, off ≤ p → p < off + (src₁ ++ src₂).length →
      p < off + src₁.length ∨ off + src₁.length ≤ p ∧ p < off + src₁.length + src₂.length := by
    intro p hp hlt
    omega
  refine ⟨h₁.remaps.trans h₂.remaps, h₂.own, fun x hx => ?_, fun x hn hx hind => ?_,
    fun p hp hlt => ?_, fun p hp hlt => ?_, fun p hmax hp hx => ?_, fun hall => ?_⟩
  · have ht := h₁.addr x hx
    rw [h₂.addr x (ht ▸ hx), ht]
  · have ht := h₁.addr x hx
    have hdata := h₂.others x (hinum ▸ hn) (ht ▸ hx) hind
    rw [ht] at hdata
    rw [hdata, h₁.others x hn hx hind]
  · obtain hfst | ⟨hge, hsnd⟩ := hsplit p hp hlt
    · obtain ⟨hmax, hx⟩ := h₁.filled p hp hfst
      exact ⟨hmax, h₂.addr _ hx ▸ hx⟩
    · exact hinum ▸ h₂.filled p hge hsnd
  · obtain hfst | ⟨hge, hsnd⟩ := hsplit p hp hlt
    · obtain ⟨hmax, hx⟩ := h₁.filled p hp hfst
      rw [h₂.outside p hmax (.inl hfst) (hinum ▸ hx), h₁.inside p hp hfst,
        getD_append _ _ _ _ (by omega)]
    · rw [h₂.inside p hge hsnd, getD_append_right _ _ _ _ (by omega), Nat.sub_sub]
  · have ht := h₁.addr _ hx
    rw [h₂.outside p hmax (by omega) (by rw [hinum, ht]; exact hx), h₁.outside p hmax (by omega) hx]
  · have hstill₁ := h₁.still fun p hp hlt => hall p hp (by omega)
    refine (h₂.still fun p hp hlt => ?_).trans hstill₁
    have hx := hall p (by omega) (by omega)
    rw [hinum, h₁.addr _ hx]
    exact hx

end Written

theorem round_written {off : Nat} {src : List Byte} (hown : s.Own sb i)
    (htype : (s.inode i).din.type ≠ .free) (hpos : 0 < src.length)
    (hlen : off % BSIZE + src.length ≤ BSIZE)
    (h : (bmap sb i (off / BSIZE)).run s = some (b, t)) :
    Written sb i off src s (t.store b (off % BSIZE) src) := by
  obtain ⟨hgrown, hmax, hb0, hb, hsame⟩ := bmap_own hown htype h
  have hrem := (bmap_remaps h).trans (store_remaps t i b (off % BSIZE) src)
  have haddr : (t.store b (off % BSIZE) src).addr i = t.addr i :=
    hb ▸ addr_store hgrown.own (Slot.block_ne_indirect _) (off % BSIZE) src
  -- the blocks in other slots are left alone
  have hother : ∀ x, s.addr i x ≠ 0 → x.2 ≠ .addr indirect →
      x ≠ ((s.inode i).inum, .block (off / BSIZE)) →
      (t.store b (off % BSIZE) src).data (s.addr i x) = s.data (s.addr i x) := by
    intro x hx hind hne
    have hxb : s.addr i x ≠ b := by
      rw [← hgrown.addr x hx, ← hb]
      exact hgrown.own.ne_of_ne (by rwa [hgrown.addr x hx]) hne
    exact (update_of_ne hxb _ _).trans (hgrown.data x hx hind)
  have hself : (t.store b (off % BSIZE) src).data b = splice (t.data b) (off % BSIZE) src :=
    update_self _ _ _
  have hblock : ∀ p, off ≤ p → p < off + src.length →
      p / BSIZE = off / BSIZE ∧ p % BSIZE = off % BSIZE + (p - off) := by
    intro p hp hlt
    simp only [BSIZE] at *
    omega
  refine ⟨hrem, ?_, fun x hx => ?_, fun x hn hx hind => ?_, fun p hp hlt => ?_, fun p hp hlt => ?_,
    fun p hpmax hp hx => ?_, fun hall => ?_⟩
  · unfold State.Own
    rw [haddr]
    exact hgrown.own
  · rw [haddr]
    exact hgrown.addr x hx
  · refine hother x hx hind ?_
    rintro rfl
    exact hn rfl
  · obtain ⟨hdiv, -⟩ := hblock p hp hlt
    rw [haddr, hdiv, hb]
    refine ⟨?_, hb0⟩
    simp only [BSIZE, MAXFILE] at *
    omega
  · obtain ⟨hdiv, hmod⟩ := hblock p hp hlt
    unfold byte
    rw [haddr, hrem.inum, hdiv, hb, hself, hmod, splice, if_pos (by omega), Nat.add_sub_cancel_left]
  · unfold byte
    rw [haddr, hrem.inum, hgrown.addr _ hx]
    by_cases hdiv : p / BSIZE = off / BSIZE
    · have hout : ¬ (off % BSIZE ≤ p % BSIZE ∧ p % BSIZE < off % BSIZE + src.length) := by
        simp only [BSIZE] at *
        omega
      rw [hdiv] at hx ⊢
      rw [← hgrown.data _ hx (Slot.block_ne_indirect _), ← hgrown.addr _ hx, hb, hself, splice,
        if_neg hout]
    · rw [hother _ hx (Slot.block_ne_indirect _)]
      intro heq
      refine hdiv (Slot.block_inj ?_ hmax (congrArg Prod.snd heq))
      simp only [BSIZE, MAXFILE] at *
      omega
  · have hx := hall off le_rfl (by omega)
    rw [hsame hx]
    rfl

theorem writeiLoop_written {fuel off : Nat} {src : List Byte} (hown : s.Own sb i)
    (htype : (s.inode i).din.type ≠ .free) (hfuel : src.length ≤ fuel)
    (h : (writeiLoop sb i fuel off src).run s = some (u, s')) : Written sb i off src s s' := by
  induction fuel generalizing s off src with
  | zero =>
    obtain rfl := length_eq_zero_iff.mp (Nat.le_zero.mp hfuel)
    rw [writeiLoop_nil h]
    exact .nil hown
  | succ fuel ih =>
    by_cases hsrc : src = []
    · subst hsrc
      rw [writeiLoop_nil h]
      exact .nil hown
    · obtain ⟨b, t, hb, h⟩ := writeiLoop_inv hsrc h
      have hpos : 0 < src.length := length_pos_iff.mpr hsrc
      have hspan := span_bounds off hpos
      have htake : (src.take (span off src.length)).length = span off src.length :=
        length_take_of_le hspan.2.1
      have hround : Written sb i off (src.take (span off src.length)) s _ :=
        round_written hown htype (by rw [htake]; exact hspan.1) (by rw [htake]; exact hspan.2.2) hb
      have hrest := ih hround.own (hround.remaps.type ▸ htype)
        (by rw [length_drop]; omega) h
      rw [← take_append_drop (span off src.length) src]
      exact hround.append (htake.symm ▸ hrest)

/-! ## Reading from a file -/

/-- The inode has the bytes `p` in its blocks, from the beginning on. -/
structure Dinode.Stores (d : Dinode) (data : Nat → Block) (p : List Byte) : Prop where
  short : p.length ≤ MAXFILE * BSIZE
  filled : ∀ j < p.length, d.slot data (.block (j / BSIZE)) ≠ 0
  bytes : ∀ j < p.length, data (d.slot data (.block (j / BSIZE))) (j % BSIZE) = p.getD j 0

section Read

variable {p : List Byte} {off n bn a j : Nat}

theorem bmapAddr_old (h : (s.inode i).din.addrs k ≠ 0) :
    (bmapAddr sb i k).run s = some ((s.inode i).din.addrs k, s) := by
  simp only [bmapAddr, get_bind]
  rw [if_neg h]
  rfl

theorem bmapEntry_old (h : word (s.data a) j ≠ 0) :
    (bmapEntry sb a j).run s = some (word (s.data a) j, s) := by
  simp only [bmapEntry, get_bind]
  rw [if_neg h]
  rfl

theorem bmap_direct (h : bn < NDIRECT) :
    bmap (P := P) sb i bn = bmapAddr sb i (directAt bn) := if_pos h

theorem bmap_indirect (hge : NDIRECT ≤ bn) (hlt : bn < MAXFILE) :
    bmap (P := P) sb i bn = (do
      let a ← bmapAddr sb i indirect
      bmapEntry sb a (bn - NDIRECT)) := by
  unfold bmap
  rw [if_neg (Nat.not_lt.mpr hge), if_pos]
  simp only [NDIRECT, NINDIRECT, MAXFILE] at *
  omega

theorem bmap_old (hbn : bn < MAXFILE)
    (h : (s.inode i).din.slot s.data (.block bn) ≠ 0) :
    (bmap sb i bn).run s = some ((s.inode i).din.slot s.data (.block bn), s) := by
  unfold Slot.block at *
  by_cases hdirect : bn < NDIRECT
  · rw [if_pos hdirect] at *
    rw [bmap_direct hdirect]
    exact bmapAddr_old h
  · rw [if_neg hdirect] at *
    have hge : NDIRECT ≤ bn := Nat.not_lt.mp hdirect
    have hval : (entryAt (bn - NDIRECT)).val = bn - NDIRECT := by
      refine Nat.mod_eq_of_lt ?_
      simp only [MAXFILE, NDIRECT, NINDIRECT] at *
      omega
    simp only [Dinode.slot, hval] at h ⊢
    split at h
    · exact absurd rfl h
    · next hind =>
      rw [if_neg hind, bmap_indirect hge hbn, bind_iff]
      exact ⟨_, s, bmapAddr_old hind, bmapEntry_old h⟩

theorem Dinode.Stores.chunk {d : Dinode} {data : Nat → Block} {m : Nat} (h : d.Stores data p)
    (hend : off + m ≤ p.length) (hm : off % BSIZE + m ≤ BSIZE) :
    (List.range m).map (fun k => data (d.slot data (.block (off / BSIZE))) (off % BSIZE + k)) =
      (p.drop off).take m := by
  refine ext_getElem ?_ fun k hk hk' => ?_
  · simp only [length_map, length_range, length_take, length_drop]
    omega
  · have hkm : k < m := by simpa using hk
    have hdiv : (off + k) / BSIZE = off / BSIZE ∧ (off + k) % BSIZE = off % BSIZE + k := by
      simp only [BSIZE] at *
      omega
    have hbyte := h.bytes (off + k) (by omega)
    rw [hdiv.1, hdiv.2] at hbyte
    rw [getElem_map, getElem_range, hbyte, getElem_take, getElem_drop]
    exact getD_eq_getElem _ _ _

theorem readiLoop_run {fuel : Nat} (h : (s.inode i).din.Stores s.data p)
    (hend : off + n ≤ p.length) (hfuel : n ≤ fuel) :
    (readiLoop sb i fuel off n).run s = some ((p.drop off).take n, s) := by
  induction fuel generalizing off n with
  | zero =>
    obtain rfl := Nat.le_zero.mp hfuel
    rfl
  | succ fuel ih =>
    by_cases hn : n = 0
    · subst hn
      rw [readiLoop, if_pos rfl]
      rfl
    · have hshort := h.short
      have hblock : off / BSIZE < MAXFILE := by
        simp only [BSIZE] at *
        omega
      have hm : min n (BSIZE - off % BSIZE) ≠ 0 ∧ min n (BSIZE - off % BSIZE) ≤ n ∧
          off % BSIZE + min n (BSIZE - off % BSIZE) ≤ BSIZE := by
        simp only [BSIZE]
        omega
      rw [readiLoop, if_neg hn, bind_of_run (bmap_old hblock (h.filled off (by omega))),
        get_bind]
      dsimp only
      generalize min n (BSIZE - off % BSIZE) = m at hm ⊢
      have hsplit : n = m + (n - m) := by omega
      have hrest : (readiLoop sb i fuel (off + m) (n - m)).run s =
          some ((p.drop (off + m)).take (n - m), s) := ih (by omega) (by omega)
      rw [bind_of_run hrest, h.chunk (by omega) hm.2.2, pure_iff]
      refine ⟨?_, rfl⟩
      conv_rhs => rw [hsplit, take_add, drop_drop]

/-- `readi` of bytes that are there. The size of the inode may be larger. -/
theorem readi_run (h : (s.inode i).din.Stores s.data p) (hsize : p.length ≤ (s.inode i).din.size)
    (hend : min (off + n) (s.inode i).din.size ≤ p.length) (hoff : off ≤ (s.inode i).din.size)
    (hn : off + n < 2 ^ 32) : (readi sb i off n).run s = some (some ((p.drop off).take n), s) := by
  rw [readi, get_bind]
  dsimp only
  rw [Nat.mod_eq_of_lt hn, if_neg (by omega)]
  split
  · -- the end of the file comes first
    have htake : (p.drop off).take ((s.inode i).din.size - off) = (p.drop off).take n := by
      rw [take_of_length_le (by rw [length_drop]; omega),
        take_of_length_le (by rw [length_drop]; omega)]
    rw [bind_of_run (readiLoop_run h (by omega) le_rfl), htake]
    rfl
  · rw [bind_of_run (readiLoop_run h (by omega) le_rfl)]
    rfl

theorem readi_none (h : (s.inode i).din.size < off ∨ (off + n) % 2 ^ 32 < off) :
    (readi sb i off n).run s = some (none, s) := by
  rw [readi, get_bind]
  dsimp only
  rw [if_pos h]
  rfl

end Read

/-! ## Freeing the blocks of a file -/

/-- Clearing `addrs[k]`, when the indirect block's entries are not concerned. -/
theorem addr_setAddr_zero (htype : (s.inode i).din.type ≠ .free) (hk : k ≠ indirect) :
    (s.setAddr i k 0).addr i = update (s.addr i) ((s.inode i).inum, .addr k) 0 := by
  refine addr_setAddr htype (fun k' _ => addr_self s i (.addr k') htype) (fun j => ?_)
    fun _ _ _ => rfl
  rw [addr_self s i _ htype]
  simp only [Dinode.slot, update_of_ne hk.symm]

theorem itruncDirect_own {ks : List (Fin (NDIRECT + 1))} (hown : s.Own sb i)
    (htype : (s.inode i).din.type ≠ .free) (hks : ∀ k ∈ ks, k ≠ indirect)
    (h : (itruncDirect sb i ks).run s = some (u, s')) :
    s'.Own sb i ∧ State.Remaps i s s' ∧ s'.data = s.data ∧
      ∀ k, (s'.inode i).din.addrs k = if k ∈ ks then 0 else (s.inode i).din.addrs k := by
  induction ks generalizing s with
  | nil =>
    obtain ⟨-, rfl⟩ := pure_iff.mp h
    exact ⟨hown, .refl i s, rfl, fun k => by simp⟩
  | cons k ks ih =>
    have hk := hks k mem_cons_self
    have hks' : ∀ k ∈ ks, k ≠ indirect := fun k hk => hks k (mem_cons_of_mem _ hk)
    simp only [itruncDirect, get_bind] at h
    split at h
    · next hne =>
      simp only [bind_iff, modify_iff] at h
      obtain ⟨_, _, hfree, _, _, rfl, h⟩ := h
      obtain ⟨-, rfl⟩ := bfree_inv hfree
      change (itruncDirect sb i ks).run ((s.release sb ((s.inode i).din.addrs k)).setAddr i k 0) =
        some (u, s') at h
      have hrem : State.Remaps i s ((s.release sb ((s.inode i).din.addrs k)).setAddr i k 0) :=
        ⟨rfl, by simp [setAddr, setDin, setInode, release], rfl, rfl, rfl,
          rfl, rfl⟩
      have hown' : ((s.release sb ((s.inode i).din.addrs k)).setAddr i k 0).Own sb i := by
        unfold State.Own
        rw [addr_setAddr_zero (s := s.release sb ((s.inode i).din.addrs k)) htype hk]
        exact hown.release (addr_self s i _ htype) hne
      obtain ⟨hown'', hrem', hdata, haddrs⟩ := ih hown' (hrem.type ▸ htype) hks' h
      refine ⟨hown'', hrem.trans hrem', hdata, fun k' => ?_⟩
      rw [haddrs k', setAddr_addrs]
      by_cases hk' : k' = k
      · subst hk'
        simp
      · simp [release, hk']
    · next h0 =>
      obtain ⟨hown', hrem, hdata, haddrs⟩ := ih hown htype hks' h
      refine ⟨hown', hrem, hdata, fun k' => ?_⟩
      rw [haddrs k']
      by_cases hk' : k' = k
      · subst hk'
        simp [not_not.mp h0]
      · simp [hk']

/-- The blocks that the words of `x` list are freed, and taken from the places that hold them. -/
theorem itruncEntries_own {ρ : Type} [DecidableEq ρ] {fixed inside : Nat → Prop} {addr : ρ → Nat}
    {place : Nat → ρ} {x : Block} {js : List Nat} (hown : Owned fixed inside addr s.bitmap)
    (hnodup : (js.map place).Nodup) (hplace : ∀ j ∈ js, addr (place j) = word x j)
    (h : (itruncEntries sb x js).run s = some (u, s')) :
    (∃ addr' : ρ → Nat, Owned fixed inside addr' s'.bitmap ∧ (∀ y ∈ js.map place, addr' y = 0) ∧
        ∀ y, y ∉ js.map place → addr' y = addr y) ∧
      ∃ l, s' = { s with bitmap := s'.bitmap, logged := l } := by
  induction js generalizing s addr with
  | nil =>
    obtain ⟨-, rfl⟩ := pure_iff.mp h
    exact ⟨⟨addr, hown, by simp, fun _ _ => rfl⟩, s.logged, rfl⟩
  | cons j js ih =>
    obtain ⟨hj, hnodup'⟩ := nodup_cons.mp hnodup
    have hplace' : ∀ j ∈ js, addr (place j) = word x j :=
      fun j hj => hplace j (mem_cons_of_mem _ hj)
    rw [itruncEntries] at h
    split at h
    · next hne =>
      rw [bind_iff] at h
      obtain ⟨_, _, hfree, h⟩ := h
      obtain ⟨-, rfl⟩ := bfree_inv hfree
      have hown' : Owned fixed inside (update addr (place j) 0)
          (s.release sb (word x j)).bitmap :=
        hown.release (hplace j mem_cons_self) hne
      have hplace'' : ∀ j' ∈ js, update addr (place j) 0 (place j') = word x j' := by
        intro j' hj'
        have hne : place j' ≠ place j := fun heq => hj (heq ▸ mem_map_of_mem hj')
        rw [update_of_ne hne, hplace' j' hj']
      obtain ⟨⟨addr', hown'', hin, hout⟩, l, hs'⟩ := ih hown' hnodup' hplace'' h
      refine ⟨⟨addr', hown'', ?_, fun y hy => ?_⟩, l, hs'⟩
      · rw [map_cons, forall_mem_cons]
        exact ⟨(hout _ hj).trans (update_self _ _ _), hin⟩
      · rw [map_cons, mem_cons, not_or] at hy
        exact (hout y hy.2).trans (update_of_ne hy.1 _ _)
    · next h0 =>
      obtain ⟨⟨addr', hown', hin, hout⟩, hs'⟩ := ih hown hnodup' hplace' h
      refine ⟨⟨addr', hown', ?_, fun y hy => ?_⟩, hs'⟩
      · rw [map_cons, forall_mem_cons]
        exact ⟨(hout _ hj).trans ((hplace j mem_cons_self).trans (not_not.mp h0)), hin⟩
      · rw [map_cons, mem_cons, not_or] at hy
        exact hout y hy.2

/-- The places of the words of the indirect block. -/
def entries (n : Nat) : List (Nat × Slot) :=
  (List.range NINDIRECT).map fun j => (n, .entry (entryAt j))

theorem mem_entries {n : Nat} {x : Nat × Slot} :
    x ∈ entries n ↔ ∃ j, x = (n, .entry j) := by
  unfold entries
  rw [mem_map]
  constructor
  · rintro ⟨j, -, rfl⟩
    exact ⟨_, rfl⟩
  · rintro ⟨j, rfl⟩
    refine ⟨j.val, mem_range.mpr j.isLt, ?_⟩
    rw [entryAt, Fin.ofNat_val_eq_self]

theorem entries_nodup (n : Nat) : (entries n).Nodup := by
  refine List.Nodup.map_on (fun a ha b hb hab => ?_) nodup_range
  have hval : a % NINDIRECT = b % NINDIRECT := by
    simpa [Fin.ext_iff] using hab
  rwa [Nat.mod_eq_of_lt (mem_range.mp ha), Nat.mod_eq_of_lt (mem_range.mp hb)] at hval

/-- Clearing `addrs[NDIRECT]` clears its entries too. -/
theorem addr_setAddr_indirect {addr : Nat × Slot → Nat} (htype : (s.inode i).din.type ≠ .free)
    (hin : ∀ x ∈ entries (s.inode i).inum, addr x = 0)
    (hout : ∀ x, x ∉ entries (s.inode i).inum → addr x = s.addr i x) :
    (s.setAddr i indirect 0).addr i =
      update addr ((s.inode i).inum, .addr indirect) 0 := by
  refine addr_setAddr htype (fun k' _ => ?_) (fun j => ?_) fun n x hn => ?_
  · rw [hout _ (by simp [mem_entries]), addr_self s i _ htype, Dinode.slot]
  · rw [hin _ (mem_entries.mpr ⟨j, rfl⟩)]
    simp [Dinode.slot]
  · exact hout _ (by simp [mem_entries, hn])

/-- The part of `itrunc` for the indirect block. -/
theorem indirect_own {t₁ t₂ : State P} (hown : s.Own sb i) (htype : (s.inode i).din.type ≠ .free)
    (hne : (s.inode i).din.addrs indirect ≠ 0)
    (hentries : (itruncEntries sb (s.data ((s.inode i).din.addrs indirect))
      (List.range NINDIRECT)).run s = some (u, t₁))
    (hfree : (bfree sb ((s.inode i).din.addrs indirect)).run t₁ = some (u, t₂)) :
    (t₂.setAddr i indirect 0).Own sb i ∧ State.Remaps i s (t₂.setAddr i indirect 0) ∧
      (t₂.setAddr i indirect 0).data = s.data ∧
      ((t₂.setAddr i indirect 0).inode i).din.addrs =
        update (s.inode i).din.addrs indirect 0 := by
  have hplace : ∀ j ∈ List.range NINDIRECT, s.addr i ((s.inode i).inum, .entry (Fin.ofNat _ j)) =
      word (s.data ((s.inode i).din.addrs indirect)) j := by
    intro j hj
    rw [addr_self s i _ htype, Dinode.slot, if_neg hne]
    congr 1
    exact Nat.mod_eq_of_lt (mem_range.mp hj)
  obtain ⟨⟨addr', hown₁, hin, hout⟩, l, ht₁⟩ :=
    itruncEntries_own hown (entries_nodup _) hplace hentries
  obtain ⟨-, rfl⟩ := bfree_inv hfree
  have hself : addr' ((s.inode i).inum, .addr indirect) = (s.inode i).din.addrs indirect :=
    (hout _ (by simp)).trans (addr_self s i _ htype)
  have hown₂ := hown₁.release hself hne
  have haddr : ∀ t : State P, t.inode = s.inode → t.dinode = s.dinode → t.data = s.data →
      (t.setAddr i indirect 0).addr i =
        update addr' ((s.inode i).inum, .addr indirect) 0 := by
    intro t hinode hdinode hdata
    have hsame : t.addr i = s.addr i := by simp only [addr, ino, hinode, hdinode, hdata]
    rw [← hinode]
    exact addr_setAddr_indirect (by rwa [hinode]) (by rwa [hinode]) (by rwa [hinode, hsame])
  rw [ht₁]
  refine ⟨?_, ⟨rfl, ?_, rfl, rfl, rfl, rfl, rfl⟩, rfl, setAddr_addrs _ _ _ _⟩
  · unfold State.Own
    rw [haddr]
    exacts [hown₂, rfl, rfl, rfl]
  · simp [setAddr, setDin, setInode, release]

/-- `itrunc` leaves the inode without blocks, and the other slots as they were. -/
theorem itrunc_own (hown : s.Own sb i) (htype : (s.inode i).din.type ≠ .free)
    (h : (itrunc sb i).run s = some (u, s')) :
    ∃ t, t.Own sb i ∧ State.Remaps i s t ∧ t.data = s.data ∧
      (t.inode i).din.addrs = (fun _ => 0) ∧ s' = (t.setSize i 0).flush sb i := by
  simp only [itrunc, bind_iff, get_iff] at h
  obtain ⟨_, t, hdirect, _, _, ⟨rfl, rfl⟩, h⟩ := h
  have hks : ∀ k ∈ (List.finRange (NDIRECT + 1)).take NDIRECT, k ≠ indirect := by decide
  obtain ⟨hownT, hrem, hdata, haddrs⟩ := itruncDirect_own hown htype hks hdirect
  have htypeT : (t.inode i).din.type ≠ .free := hrem.type ▸ htype
  have hzero : ∀ k, k ≠ indirect → (t.inode i).din.addrs k = 0 := by
    intro k hk
    have hmem : ∀ k : Fin (NDIRECT + 1), k ≠ indirect →
        k ∈ (List.finRange (NDIRECT + 1)).take NDIRECT := by decide
    rw [haddrs k, if_pos (hmem k hk)]
  split at h
  · next hne =>
    simp only [bind_iff, modify_iff] at h
    obtain ⟨_, t₁, hentries, _, t₂, hfree, _, _, rfl, _, _, rfl, hup⟩ := h
    obtain ⟨hown₂, hrem₂, hdata₂, haddrs₂⟩ := indirect_own hownT htypeT hne hentries hfree
    refine ⟨_, hown₂, hrem.trans hrem₂, hdata₂.trans hdata, funext fun k => ?_, iupdate_inv hup⟩
    by_cases hk : k = indirect
    · subst hk
      rw [haddrs₂, update_self]
    · rw [haddrs₂, update_of_ne hk, hzero k hk]
  · next h0 =>
    simp only [bind_iff, modify_iff] at h
    obtain ⟨_, _, rfl, hup⟩ := h
    refine ⟨t, hownT, hrem, hdata, funext fun k => ?_, iupdate_inv hup⟩
    by_cases hk : k = indirect
    · subst hk
      exact not_not.mp h0
    · exact hzero k hk

end Xv6.Fs
