import Mathlib.Data.Finset.Card
import Mathlib.Data.List.Count
import Xv6.Fs.Progress

/-!
# Room on the disk

`balloc` panics when no bit is clear, so a write comes to its end only if there are blocks for it.
`State.free` counts the blocks that can be taken and `State.missing` the ones that a list of blocks
of a file does not have yet. A call of `bmap` takes what the block misses and leaves to the other
blocks what they have (`bmap_room`), so what a write misses is the sum over its rounds.
-/

namespace Xv6.Fs

open Bytes Partial List State Slot

variable {P : Type} {sb : Superblock} {s s' t : State P} {i : Fin NINODE} {a b bn : Nat}
  {k : Fin (NDIRECT + 1)}

/-! ## Free blocks -/

/-- The number of blocks that `balloc` can take. -/
def State.free (sb : Superblock) (s : State P) : Nat :=
  ((Finset.range sb.size).filter fun b => s.bitmap b = false).card

theorem exists_firstFree (h : 0 < s.free sb) : ∃ b, FirstFree sb s b := by
  obtain ⟨b, hb⟩ := Finset.card_pos.mp h
  rw [Finset.mem_filter, Finset.mem_range] at hb
  refine Option.isSome_iff_exists.mp (List.find?_isSome.mpr ⟨b, mem_range.mpr hb.1, ?_⟩)
  rw [hb.2]
  rfl

theorem free_take (hlt : b < sb.size) (hclear : s.bitmap b = false)
    (hbits : s'.bitmap = Function.update s.bitmap b true) : s'.free sb + 1 = s.free sb := by
  have hmem : b ∈ (Finset.range sb.size).filter fun b => s.bitmap b = false :=
    Finset.mem_filter.mpr ⟨Finset.mem_range.mpr hlt, hclear⟩
  have herase : (Finset.range sb.size).filter (fun b => s'.bitmap b = false) =
      ((Finset.range sb.size).filter fun b => s.bitmap b = false).erase b := by
    ext c
    rw [Finset.mem_erase, Finset.mem_filter, Finset.mem_filter, hbits]
    by_cases hc : c = b
    · subst hc
      simp
    · rw [Function.update_of_ne hc]
      simp [hc]
  unfold free
  rw [herase]
  exact Finset.card_erase_add_one hmem

theorem Filled.free {x : Slot} {l : List Nat} (h : Filled sb i x b l s s') :
    s'.free sb + (if s.addr i ((s.inode i).inum, x) = 0 then 1 else 0) = s.free sb := by
  cases h with
  | old hx => rw [if_neg hx, Nat.add_zero]
  | new hx hb hclear hbits =>
    rw [if_pos hx]
    exact free_take hb hclear hbits

/-! ## What is logged -/

/-- From `s` to `s'` no slots but those in `X` have been filled. Logged are the blocks in `W`, and the
bitmap blocks of the blocks that are taken. -/
structure Logs (sb : Superblock) (i : Fin NINODE) (X : Set (Nat × Slot)) (W : Set Nat)
    (s s' : State P) : Prop where
  kept : ∀ x, s.addr i x ≠ 0 → s'.addr i x = s.addr i x
  others : ∀ x, x ∉ X → s'.addr i x = s.addr i x
  mem : ∀ c, c ∈ s'.logged ↔ c ∈ s.logged ∨ c ∈ W ∨
    ∃ x, s.addr i x = 0 ∧ s'.addr i x ≠ 0 ∧ c = sb.bblock (s'.addr i x)

theorem Logs.trans {X Y : Set (Nat × Slot)} {V W : Set Nat} (h₁ : Logs sb i X V s t)
    (h₂ : Logs sb i Y W t s') : Logs sb i (X ∪ Y) (V ∪ W) s s' where
  kept x hx := by
    have ht := h₁.kept x hx
    rw [h₂.kept x (ht ▸ hx), ht]
  others x hx := by
    rw [h₂.others x fun hy => hx (.inr hy), h₁.others x fun hy => hx (.inl hy)]
  mem c := by
    rw [h₂.mem, h₁.mem]
    constructor
    · rintro ((hs | hV | ⟨x, h0, hne, rfl⟩) | hW | ⟨x, h0, hne, rfl⟩)
      · exact .inl hs
      · exact .inr (.inl (.inl hV))
      · have hkept := h₂.kept x hne
        exact .inr (.inr ⟨x, h0, hkept ▸ hne, by rw [hkept]⟩)
      · exact .inr (.inl (.inr hW))
      · exact .inr (.inr ⟨x, not_not.mp fun hx => hx (h₁.kept x hx ▸ h0), hne, rfl⟩)
    · rintro (hs | (hV | hW) | ⟨x, h0, hne, rfl⟩)
      · exact .inl (.inl hs)
      · exact .inl (.inr (.inl hV))
      · exact .inr (.inl hW)
      · -- the block was taken before `t` or after
        by_cases ht : t.addr i x = 0
        · exact .inr (.inr ⟨x, ht, hne, rfl⟩)
        · rw [h₂.kept x ht]
          exact .inl (.inr (.inr ⟨x, h0, ht, rfl⟩))

theorem Logs.congr {X Y : Set (Nat × Slot)} {V W : Set Nat} (h : Logs sb i X V s s')
    (hX : ∀ x ∈ X, x ∈ Y) (hW : ∀ c, c ∈ V ↔ c ∈ W) : Logs sb i Y W s s' where
  kept := h.kept
  others x hx := h.others x fun hy => hx (hX x hy)
  mem c := by rw [h.mem, hW]

theorem Filled.logs {x : Slot} {l : List Nat} (h : Filled sb i x b l s s') (hb0 : b ≠ 0) :
    Logs sb i {((s.inode i).inum, x)}
      {c | s.addr i ((s.inode i).inum, x) = 0 ∧ c ∈ b :: l} s s' where
  kept _ := h.addr
  others _ := h.others
  mem c := by
    cases h with
    | old hx => simp +contextual [hx]
    | new hx _ _ _ haddr hlog =>
      have hnew : (∃ y, s.addr i y = 0 ∧ s'.addr i y ≠ 0 ∧ c = sb.bblock (s'.addr i y)) ↔
          c = sb.bblock b := by
        rw [haddr]
        constructor
        · rintro ⟨y, h0, hne, rfl⟩
          by_cases hy : y = ((s.inode i).inum, x)
          · rw [hy, Function.update_self]
          · rw [Function.update_of_ne hy] at hne
            exact absurd h0 hne
        · rintro rfl
          refine ⟨_, hx, ?_, ?_⟩ <;> rw [Function.update_self]
          exact hb0
      rw [hnew, hlog]
      simp only [mem_append, mem_cons, Set.mem_ofPred_eq, hx, true_and]
      tauto

/-! ## What `bmap` takes -/

theorem bmapAddr_room (hroom : (s.inode i).din.addrs k = 0 → 0 < s.free sb) :
    ∃ a t, (bmapAddr sb i k).run s = some (a, t) := by
  by_cases h0 : (s.inode i).din.addrs k = 0
  · obtain ⟨b, hfree⟩ := exists_firstFree (hroom h0)
    exact ⟨b, _, bmapAddr_new h0 hfree⟩
  · exact ⟨_, s, bmapAddr_old h0⟩

theorem bmapEntry_room {j : Nat} (hroom : word (s.data a) j = 0 → 0 < s.free sb) :
    ∃ b t, (bmapEntry sb a j).run s = some (b, t) := by
  by_cases h0 : word (s.data a) j = 0
  · obtain ⟨b, hfree⟩ := exists_firstFree (hroom h0)
    exact ⟨b, _, bmapEntry_new h0 hfree⟩
  · exact ⟨_, s, bmapEntry_old h0⟩

/-- The number of blocks that these blocks of the file in entry `i` do not have: their own, and the
indirect block that lists them. -/
def State.missing (s : State P) (i : Fin NINODE) (bns : List Nat) : Nat :=
  bns.countP (fun bn => s.addr i ((s.inode i).inum, .block bn) = 0) +
    if (∃ bn ∈ bns, NDIRECT ≤ bn) ∧ s.addr i ((s.inode i).inum, .addr indirect) = 0 then 1 else 0

/-- The slots that `bmap` of block `bn` of inode `n` may fill. -/
def slotsFor (n bn : Nat) : Set (Nat × Slot) :=
  {x | x = (n, .block bn) ∨ NDIRECT ≤ bn ∧ x = (n, .addr indirect)}

/-- From `s` to `t` block `bn` of the file has got what it missed. -/
structure Mapped (sb : Superblock) (i : Fin NINODE) (bn : Nat) (s t : State P) : Prop where
  free : t.free sb + s.missing i [bn] = s.free sb
  logs : Logs sb i (slotsFor (s.inode i).inum bn) {c | s.addr i ((s.inode i).inum, .block bn) = 0 ∧
    (c = t.addr i ((s.inode i).inum, .block bn) ∨
      NDIRECT ≤ bn ∧ c = t.addr i ((s.inode i).inum, .addr indirect))} s t
  listed : NDIRECT ≤ bn → t.addr i ((s.inode i).inum, .addr indirect) ≠ 0

theorem missing_single : s.missing i [bn] =
    (if s.addr i ((s.inode i).inum, .block bn) = 0 then 1 else 0) +
      if NDIRECT ≤ bn ∧ s.addr i ((s.inode i).inum, .addr indirect) = 0 then 1 else 0 := by
  simp [missing, countP_cons]

theorem missing_le (bns : List Nat) : s.missing i bns ≤ bns.length + 1 := by
  refine Nat.add_le_add countP_le_length ?_
  split <;> decide

theorem missing_sublist {bns bns' : List Nat} (h : bns.Sublist bns') :
    s.missing i bns ≤ s.missing i bns' := by
  refine Nat.add_le_add h.countP_le ?_
  split
  · next hlist =>
    obtain ⟨⟨x, hx, hge⟩, h0⟩ := hlist
    rw [if_pos ⟨⟨x, h.subset hx, hge⟩, h0⟩]
  · exact Nat.zero_le _

/-- Without an indirect block there are no entries. -/
theorem addr_block_eq_zero (htype : (s.inode i).din.type ≠ .free) (hge : NDIRECT ≤ bn)
    (h0 : s.addr i ((s.inode i).inum, .addr indirect) = 0) :
    s.addr i ((s.inode i).inum, .block bn) = 0 := by
  rw [addr_self s i _ htype] at h0 ⊢
  rw [block_of_ge hge]
  exact if_pos h0

section Bmap

variable (hown : s.Own sb i) (htype : (s.inode i).din.type ≠ .free)

include hown htype

theorem bmap_mapped (hrun : (bmap sb i bn).run s = some (b, t)) : Mapped sb i bn s t := by
  obtain ⟨-, hbn, hb0, hb, -⟩ := bmap_own hown htype hrun
  have hsingle : s.missing i [bn] = _ := missing_single
  obtain ⟨hlt, hrun⟩ | ⟨hge, -, a, u, hrun, hrun'⟩ := bmap_inv hrun
  · obtain ⟨-, -, -, hfill⟩ := bmapAddr_own hown htype hrun
    rw [← block_of_lt hlt] at hfill
    have hnot : ¬ NDIRECT ≤ bn := Nat.not_le.mpr hlt
    refine ⟨?_, (hfill.logs hb0).congr (fun x hx => .inl hx) fun c => ?_, fun hge => absurd hge hnot⟩
    · simp only [hsingle, hnot, false_and, if_false, Nat.add_zero]
      exact hfill.free
    · simp [hb, hnot]
  · -- the indirect block comes first, then the entry in it
    obtain ⟨hgrown, ha0, haddr, hfill⟩ := bmapAddr_own hown htype hrun
    have hrem := bmapAddr_remaps hrun
    have htype' : (u.inode i).din.type ≠ .free := hrem.type ▸ htype
    rw [← val_ofNat_block hge hbn] at hrun'
    obtain ⟨-, -, -, hfill'⟩ := bmapEntry_own hgrown.own htype' haddr ha0 hrun'
    rw [← block_of_ge hge] at hfill'
    have hne : ∀ n : Nat, (n, block bn) ≠ (n, .addr indirect) := fun n heq =>
      block_ne_indirect bn (congrArg Prod.snd heq)
    have hentry := hfill.others (hne (s.inode i).inum)
    have hind : t.addr i ((s.inode i).inum, .addr indirect) = a := by
      rw [hfill'.others (by rw [hrem.inum]; exact (hne _).symm), ← hrem.inum,
        addr_self u i _ htype']
      exact haddr
    have hlogs' := hfill'.logs hb0
    have hfree' := hfill'.free
    have hfree := hfill.free
    rw [hrem.inum, hentry] at hlogs' hfree'
    refine ⟨?_, ((hfill.logs ha0).trans hlogs').congr ?_ fun c => ?_, fun _ => hind ▸ ha0⟩
    · simp only [hsingle, hge, true_and]
      omega
    · rintro x (hx | hx)
      · exact .inr ⟨hge, hx⟩
      · exact .inl hx
    · have h0 := addr_block_eq_zero (i := i) htype hge
      simp only [Set.mem_union, Set.mem_ofPred_eq, mem_cons, not_mem_nil, or_false, hb, hind, hge,
        true_and]
      tauto

theorem bmap_room (hbn : bn < MAXFILE) (hroom : s.missing i [bn] ≤ s.free sb) :
    ∃ b t, (bmap sb i bn).run s = some (b, t) := by
  rw [missing_single] at hroom
  by_cases hlt : bn < NDIRECT
  · rw [block_of_lt hlt, addr_self s i _ htype] at hroom
    rw [bmap_direct hlt]
    exact bmapAddr_room fun h0 => Nat.lt_of_lt_of_le (by rw [if_pos (by exact h0)]; omega) hroom
  · have hge : NDIRECT ≤ bn := Nat.not_lt.mp hlt
    have hzero := addr_block_eq_zero (i := i) htype hge
    have hslot := addr_self s i (.addr indirect) htype
    simp only [hge, true_and] at hroom
    obtain ⟨a, t, hrun⟩ : ∃ a t, (bmapAddr sb i indirect).run s = some (a, t) :=
      bmapAddr_room fun h0 => by
        rw [if_pos (hslot.trans h0)] at hroom
        omega
    obtain ⟨-, ha0, haddr, hfill⟩ := bmapAddr_own hown htype hrun
    have hrem := bmapAddr_remaps hrun
    have hfree := hfill.free
    obtain ⟨b, t', hrun'⟩ : ∃ b t', (bmapEntry sb a (bn - NDIRECT)).run t = some (b, t') :=
      bmapEntry_room fun h0 => by
        have hentry : t.addr i ((t.inode i).inum, .block bn) = 0 := by
          rw [addr_self t i _ (hrem.type ▸ htype), block_of_ge hge, Dinode.slot, haddr,
            if_neg ha0, val_ofNat_block hge hbn, h0]
        rw [hrem.inum, hfill.others fun heq => block_ne_indirect bn (congrArg Prod.snd heq)]
          at hentry
        rw [if_pos hentry] at hroom
        omega
    exact ⟨b, t', by rw [bmap_indirect hge hbn, bind_of_run hrun]; exact hrun'⟩

end Bmap

/-- The other blocks of the file are left alone. -/
theorem Mapped.others (h : Mapped sb i bn s t) {x : Nat} (hx : x < MAXFILE) (hbn : bn < MAXFILE)
    (hne : x ≠ bn) :
    t.addr i ((s.inode i).inum, .block x) = s.addr i ((s.inode i).inum, .block x) := by
  refine h.logs.others _ ?_
  rintro (heq | ⟨-, heq⟩)
  · exact hne (block_inj hx hbn (congrArg Prod.snd heq))
  · exact block_ne_indirect x (congrArg Prod.snd heq)

/-! ## What `writei` takes -/

theorem Mapped.listed_iff (h : Mapped sb i bn s t) :
    t.addr i ((s.inode i).inum, .addr indirect) = 0 ↔
      s.addr i ((s.inode i).inum, .addr indirect) = 0 ∧ bn < NDIRECT := by
  refine ⟨fun h0 => ⟨not_not.mp fun hx => ?_, Nat.not_le.mp fun hge => h.listed hge h0⟩,
    fun ⟨h0, hlt⟩ => (h.logs.others _ ?_).trans h0⟩
  · exact hx (h.logs.kept _ hx ▸ h0)
  · rintro (heq | ⟨hge, -⟩)
    · exact block_ne_indirect bn (congrArg Prod.snd heq).symm
    · omega

/-- What the rest of a list misses when its first block has got what it missed. -/
theorem Mapped.missing_cons {bns : List Nat} (h : Mapped sb i bn s t)
    (hinum : (t.inode i).inum = (s.inode i).inum) (hbn : bn < MAXFILE)
    (hmax : ∀ x ∈ bns, x < MAXFILE) (hnew : bn ∉ bns) :
    s.missing i (bn :: bns) = s.missing i [bn] + t.missing i bns := by
  have hcount : bns.countP (fun x => t.addr i ((s.inode i).inum, .block x) = 0) =
      bns.countP (fun x => s.addr i ((s.inode i).inum, .block x) = 0) := by
    refine countP_congr fun x hx => ?_
    rw [h.others (hmax x hx) hbn fun heq => hnew (heq ▸ hx)]
  have hind : (if (∃ x ∈ bn :: bns, NDIRECT ≤ x) ∧ s.addr i ((s.inode i).inum, .addr indirect) = 0
        then 1 else 0) =
      (if NDIRECT ≤ bn ∧ s.addr i ((s.inode i).inum, .addr indirect) = 0 then 1 else 0) +
        if (∃ x ∈ bns, NDIRECT ≤ x) ∧ t.addr i ((s.inode i).inum, .addr indirect) = 0
          then 1 else 0 := by
    simp only [exists_mem_cons_iff, h.listed_iff]
    by_cases hge : NDIRECT ≤ bn
    · simp [hge, Nat.not_lt.mpr hge]
    · simp [hge, Nat.not_le.mp hge]
  rw [missing_single]
  unfold missing
  rw [hinum, hcount, hind, countP_cons]
  simp only [decide_eq_true_eq]
  omega

/-- The number of blocks of a file that `n` bytes at `off` lie in. -/
def touched (off n : Nat) : Nat :=
  if n = 0 then 0 else (off + n - 1) / BSIZE - off / BSIZE + 1

theorem touched_span (off : Nat) {n : Nat} (hn : n ≠ 0) :
    touched off n = touched (off + span off n) (n - span off n) + 1 := by
  by_cases h : n ≤ 512 - off % 512
  · have hspan : span off n = n := Nat.min_eq_left h
    rw [hspan, touched, touched, if_neg hn, if_pos (Nat.sub_self n)]
    simp only [BSIZE]
    omega
  · have hspan : span off n = 512 - off % 512 := Nat.min_eq_right (Nat.le_of_not_le h)
    rw [hspan, touched, touched, if_neg hn, if_neg (by omega)]
    simp only [BSIZE]
    omega

/-- The blocks of a file that `n` bytes at `off` lie in. -/
def blocks (off n : Nat) : List Nat := List.range' (off / BSIZE) (touched off n)

theorem blocks_span (off : Nat) {n : Nat} (hn : n ≠ 0) :
    blocks off n = off / BSIZE :: blocks (off + span off n) (n - span off n) := by
  rw [blocks, touched_span off hn, range'_succ, blocks]
  congr 1
  by_cases hrest : n - span off n = 0
  · rw [hrest]
    rfl
  · have hnext : (off + span off n) / BSIZE = off / BSIZE + 1 := by
      simp only [span, BSIZE] at *
      omega
    rw [hnext]

theorem exists_byte {off n bn : Nat} (h : bn ∈ blocks off n) :
    ∃ p, off ≤ p ∧ p < off + n ∧ p / BSIZE = bn := by
  unfold blocks touched at h
  rw [mem_range'_1] at h
  split at h
  · omega
  · simp only [BSIZE] at h ⊢
    exact ⟨max off (bn * 512), by omega, by omega, by omega⟩

theorem lt_of_mem_blocks {off n x : Nat} (hmax : off + n ≤ MAXFILE * BSIZE)
    (hx : x ∈ blocks off n) : x < MAXFILE := by
  obtain ⟨p, -, hp, rfl⟩ := exists_byte hx
  simp only [MAXFILE, BSIZE] at *
  omega

/-- Blocks `bns` of the file have been written and logged, and the indirect block if one of them has
been entered there. -/
def Saved (sb : Superblock) (i : Fin NINODE) (bns : List Nat) (s s' : State P) : Prop :=
  Logs sb i {x | ∃ bn ∈ bns, x ∈ slotsFor (s.inode i).inum bn}
    {c | ∃ bn ∈ bns, c = s'.addr i ((s.inode i).inum, .block bn) ∨
      s.addr i ((s.inode i).inum, .block bn) = 0 ∧ NDIRECT ≤ bn ∧
        c = s'.addr i ((s.inode i).inum, .addr indirect)} s s'

theorem Saved.nil : Saved sb i [] s s :=
  ⟨fun _ _ => rfl, fun _ _ => rfl, fun c => by simp +contextual⟩

/-- A round and the rounds after it. -/
theorem Saved.cons {u : State P} {bns : List Nat} (hmapped : Mapped sb i bn s t)
    (hb : t.addr i ((s.inode i).inum, .block bn) = b) (hb0 : b ≠ 0)
    (haddr : u.addr i = t.addr i) (hlog : u.logged = b :: t.logged)
    (hinum : (u.inode i).inum = (s.inode i).inum) (hbn : bn < MAXFILE)
    (hrest : ∀ x ∈ bns, x < MAXFILE ∧ x ≠ bn) (h : Saved sb i bns u s') :
    Saved sb i (bn :: bns) s s' := by
  have hstore : Logs sb i ∅ {b} t u := by
    refine ⟨fun _ _ => by rw [haddr], fun _ _ => by rw [haddr], fun c => ?_⟩
    have hno : ¬ ∃ x, t.addr i x = 0 ∧ t.addr i x ≠ 0 ∧ c = sb.bblock (t.addr i x) :=
      fun ⟨_, h0, hne, _⟩ => hne h0
    rw [haddr, hlog, mem_cons, or_comm, or_iff_left hno]
    rfl
  have hself : s'.addr i ((s.inode i).inum, .block bn) = b := by
    rw [h.kept _ (by rw [haddr, hb]; exact hb0), haddr, hb]
  have hind : NDIRECT ≤ bn → s'.addr i ((s.inode i).inum, .addr indirect) =
      t.addr i ((s.inode i).inum, .addr indirect) := fun hge => by
    rw [h.kept _ (by rw [haddr]; exact hmapped.listed hge), haddr]
  refine ((hmapped.logs.trans hstore).trans h).congr ?_ fun c => ?_
  · rintro x ((hx | hx) | ⟨bn', hmem, hx⟩)
    · exact ⟨bn, mem_cons_self, hx⟩
    · exact hx.elim
    · exact ⟨bn', mem_cons_of_mem _ hmem, hinum ▸ hx⟩
  · have hlater : (∃ x ∈ bns, c = s'.addr i ((s.inode i).inum, .block x) ∨
          u.addr i ((s.inode i).inum, .block x) = 0 ∧ NDIRECT ≤ x ∧
            c = s'.addr i ((s.inode i).inum, .addr indirect)) ↔
        ∃ x ∈ bns, c = s'.addr i ((s.inode i).inum, .block x) ∨
          s.addr i ((s.inode i).inum, .block x) = 0 ∧ NDIRECT ≤ x ∧
            c = s'.addr i ((s.inode i).inum, .addr indirect) := by
      refine exists_congr fun x => and_congr_right fun hx => ?_
      rw [haddr, hmapped.others (hrest x hx).1 hbn (hrest x hx).2]
    simp only [Set.mem_union, Set.mem_ofPred_eq, Set.mem_singleton_iff, hinum, hlater,
      exists_mem_cons_iff, hb, hself]
    refine or_congr_left ?_
    by_cases hge : NDIRECT ≤ bn
    · rw [hind hge]
      exact ⟨fun hc => hc.elim (fun h => h.2.imp id fun ha => ⟨h.1, ha⟩) .inl,
        fun hc => hc.symm.imp_left fun h => ⟨h.1, .inr h.2⟩⟩
    · simp only [hge, false_and, and_false, or_false]
      exact or_iff_right_of_imp And.right

section Loop

variable {fuel off : Nat} {src : List Byte} (hown : s.Own sb i)
  (htype : (s.inode i).din.type ≠ .free) (hmax : off + src.length ≤ MAXFILE * BSIZE)

include hown htype hmax

/-- After a round of the loop of `writei` the other blocks are to come. -/
theorem round_mapped (hpos : 0 < src.length) (hrun : (bmap sb i (off / BSIZE)).run s = some (b, t)) :
    (t.store b (off % BSIZE) (src.take (span off src.length))).Own sb i ∧
      (t.inode i).din.type ≠ .free ∧ (t.inode i).inum = (s.inode i).inum ∧
      (t.store b (off % BSIZE) (src.take (span off src.length))).addr i = t.addr i ∧
      off + span off src.length + (src.drop (span off src.length)).length ≤ MAXFILE * BSIZE ∧
      ∀ x ∈ blocks (off + span off src.length) (src.drop (span off src.length)).length,
        x < MAXFILE ∧ x ≠ off / BSIZE := by
  have hspan := span_bounds off hpos
  have htake : (src.take (span off src.length)).length = span off src.length :=
    length_take_of_le hspan.2.1
  obtain ⟨hgrown, -, -, hb, -⟩ := bmap_own hown htype hrun
  have hround := round_written hown htype (by rw [htake]; exact hspan.1)
    (by rw [htake]; exact hspan.2.2) hrun
  have hrem := bmap_remaps hrun
  have hmax' : off + span off src.length + (src.drop (span off src.length)).length ≤
      MAXFILE * BSIZE := by
    rw [length_drop]
    omega
  refine ⟨hround.own, hrem.type ▸ htype, hrem.inum, ?_, hmax', fun x hx =>
    ⟨lt_of_mem_blocks hmax' hx, ?_⟩⟩
  · rw [← hb]
    exact addr_store hgrown.own (block_ne_indirect _) _ _
  · -- the later blocks lie behind the first one
    have hnodup : (blocks off src.length).Nodup := nodup_range'
    rw [blocks_span off (Nat.pos_iff_ne_zero.mp hpos), ← length_drop] at hnodup
    rintro rfl
    exact (nodup_cons.mp hnodup).1 hx

/-- With room for what it misses, the loop of `writei` takes that and comes to its end. -/
theorem writeiLoop_room (hfuel : src.length ≤ fuel)
    (hroom : s.missing i (blocks off src.length) ≤ s.free sb) :
    ∃ t, (writeiLoop sb i fuel off src).run s = some ((), t) ∧
      t.free sb + s.missing i (blocks off src.length) = s.free sb := by
  induction fuel generalizing s off src with
  | zero =>
    obtain rfl : src = [] := length_eq_zero_iff.mp (Nat.le_zero.mp hfuel)
    exact ⟨s, rfl, by simp [missing, blocks, touched]⟩
  | succ fuel ih =>
    by_cases hsrc : src = []
    · subst hsrc
      exact ⟨s, rfl, by simp [missing, blocks, touched]⟩
    · have hpos : 0 < src.length := length_pos_iff.mpr hsrc
      have hspan := span_bounds off hpos
      have hblock : off / BSIZE < MAXFILE := by
        simp only [MAXFILE, BSIZE] at *
        omega
      rw [blocks_span off (by omega), ← length_drop] at hroom ⊢
      obtain ⟨b, t, hrun⟩ := bmap_room hown htype hblock
        ((missing_sublist (singleton_sublist.mpr mem_cons_self)).trans hroom)
      obtain ⟨hown', htype', hinum, haddr, hmax', hrest⟩ := round_mapped hown htype hmax hpos hrun
      have hmapped := bmap_mapped hown htype hrun
      rw [hmapped.missing_cons hinum hblock (fun x hx => (hrest x hx).1) fun hmem =>
        (hrest _ hmem).2 rfl] at hroom ⊢
      have hfree := hmapped.free
      have hstore : ∀ bns, (t.store b (off % BSIZE) (src.take (span off src.length))).missing i bns =
          t.missing i bns := by
        intro bns
        unfold missing
        rw [haddr]
        rfl
      obtain ⟨t', ht', hfree'⟩ := ih hown' htype' hmax' (by rw [length_drop]; omega) (by
          rw [hstore]
          show _ ≤ t.free sb
          omega)
      rw [hstore] at hfree'
      refine ⟨t', ?_, ?_⟩
      · rw [writeiLoop, if_neg hsrc, bind_of_run hrun]
        exact ht'
      · have hstored : (t.store b (off % BSIZE) (src.take (span off src.length))).free sb =
            t.free sb := rfl
        omega

theorem writeiLoop_saved {u : Unit} (hfuel : src.length ≤ fuel)
    (hrun : (writeiLoop sb i fuel off src).run s = some (u, s')) :
    Saved sb i (blocks off src.length) s s' := by
  induction fuel generalizing s off src with
  | zero =>
    obtain rfl := length_eq_zero_iff.mp (Nat.le_zero.mp hfuel)
    rw [writeiLoop_nil hrun]
    exact .nil
  | succ fuel ih =>
    by_cases hsrc : src = []
    · subst hsrc
      rw [writeiLoop_nil hrun]
      exact .nil
    · obtain ⟨b, t, hbmap, hrun⟩ := writeiLoop_inv hsrc hrun
      have hpos : 0 < src.length := length_pos_iff.mpr hsrc
      have hspan := span_bounds off hpos
      obtain ⟨hown', htype', hinum, haddr, hmax', hrest⟩ := round_mapped hown htype hmax hpos hbmap
      obtain ⟨-, hbn, hb0, hb, -⟩ := bmap_own hown htype hbmap
      rw [blocks_span off (by omega), ← length_drop]
      exact .cons (bmap_mapped hown htype hbmap) hb hb0 haddr rfl hinum hbn hrest
        (ih hown' htype' hmax' (by rw [length_drop]; omega) hrun)

end Loop

end Xv6.Fs
