import Xv6.Fs.Progress
import Xv6.Mkfs.Program

/-!
# Appending is what the kernel's write is

mkfs has its own code for the content of a file: `iappend` takes blocks from a counter, and writes
sectors. Seen as the disk of the kernel, with the blocks below the counter marked, a round of it is
a round of `writei` (`iappendLoop_sim`): the first free block is the next one, and it is zero, as
`balloc` leaves it. So what is proved about `writei` holds for the image.
-/

namespace Xv6.Mkfs

open Bytes Fs Partial Image
open Function (update update_eq_self_iff update_idem update_of_ne update_self)

variable {s s' : Image} {n b fbn x : Nat} {d d' : DiskInode} {l : List Nat}

theorem nmeta_eq : nmeta = 59 := by decide

theorem sb_nmeta : sb.nmeta = nmeta := by decide

theorem iblock_lt (hn : n < NINODES) : sb.iblock n < nmeta := by
  simp only [Superblock.iblock, sb, nlog, Log.LOGSIZE, Log.MAXOPBLOCKS, nmeta_eq, NINODES] at *
  omega

/-! ## The image as a disk of the kernel -/

namespace Image

/-- The data blocks. -/
def data (s : Image) (b : Nat) : Block := if b < nmeta then fun _ => 0 else s.disk b

/-- The inodes. -/
def dinode (s : Image) (n : Nat) : Dinode :=
  if n < NINODES then (inodeAt sb s.disk n).toDinode else Dinode.zero

/-- The kernel, with the image for its disk and inode `n` in its cache. -/
def kernel (s : Image) (n : Nat) (din : Dinode) (l : List Nat) : State Unit where
  bitmap b := decide (b < s.freeblock)
  dinode := s.dinode
  data := s.data
  inode := update (fun _ => ⟨0, 0, false, Dinode.zero⟩) 0 ⟨n, 1, true, din⟩
  file _ := ⟨0, .none, 0, false, false⟩
  pipe _ := none
  cwd _ := none
  ofile _ _ := none
  logged := l
  sections := []

theorem data_of_ge (h : nmeta ≤ b) : s.data b = s.disk b := if_neg (Nat.not_lt.mpr h)

/-- The next block is taken. -/
def take (s : Image) : Image := { s with freeblock := s.freeblock + 1 }

/-- A data block is written. -/
def write (s : Image) (b : Nat) (x : Block) : Image :=
  { s with disk := update s.disk b x }

theorem data_write (h : nmeta ≤ b) (x : Block) : (s.write b x).data = update s.data b x := by
  funext c
  by_cases hc : c = b
  · subst hc
    rw [data_of_ge h, update_self]
    exact update_self ..
  · rw [update_of_ne hc]
    simp only [data, write, update_of_ne hc]

theorem dinode_write (h : nmeta ≤ b) (x : Block) : (s.write b x).dinode = s.dinode := by
  funext n
  unfold dinode
  split
  · next hn =>
    have hne : sb.iblock n ≠ b := fun heq => by
      have := iblock_lt hn
      omega
    simp only [inodeAt, write, update_of_ne hne]
  · rfl

/-- The file has all its sectors, and the free blocks are zero. -/
structure Blank (s : Image) : Prop where
  sectors : s.sectors = FSSIZE
  above : nmeta ≤ s.freeblock
  zero : ∀ b, s.freeblock ≤ b → s.disk b = fun _ => 0

namespace Blank

theorem data_zero (h : s.Blank) (hb : s.freeblock ≤ b) : s.data b = fun _ => 0 := by
  unfold data
  split
  · rfl
  · exact h.zero b hb

protected theorem take (h : s.Blank) : s.take.Blank where
  sectors := h.sectors
  above := Nat.le_succ_of_le h.above
  zero b hb := h.zero b (Nat.le_of_succ_le hb)

protected theorem write (h : s.Blank) (hb : b < s.freeblock) (x : Block) : (s.write b x).Blank where
  sectors := h.sectors
  above := h.above
  zero c hc := by
    have hne : c ≠ b := by
      rintro rfl
      exact Nat.not_lt.mpr hc hb
    exact (update_of_ne hne ..).trans (h.zero c hc)

/-- The next block is the first free one. -/
theorem firstFree (h : s.freeblock < FSSIZE) (din : Dinode) :
    FirstFree sb (s.kernel n din l) s.freeblock := by
  unfold FirstFree
  rw [List.find?_range_eq_some]
  refine ⟨by simp [kernel], List.mem_range.mpr h, fun b hb => ?_⟩
  simpa [kernel] using hb

theorem alloc (h : s.Blank) (din : Dinode) : (s.kernel n din l).alloc sb s.freeblock =
    s.take.kernel n din (s.freeblock :: sb.bblock s.freeblock :: l) := by
  have hbitmap : update (fun b => decide (b < s.freeblock)) s.freeblock true =
      fun b => decide (b < s.freeblock + 1) := by
    funext b
    by_cases hb : b = s.freeblock
    · subst hb
      simp
    · rw [update_of_ne hb]
      congr 1
      exact propext ⟨fun hlt => by omega, fun hlt => by omega⟩
  have hdata : update s.data s.freeblock (fun _ => 0) = s.data :=
    update_eq_self_iff.mpr (h.data_zero le_rfl).symm
  simp only [State.alloc, kernel, hbitmap, hdata]
  rfl

end Blank

end Image

/-! ## Sectors -/

theorem rsect_inv {buf : Block} (h : (rsect b).run s = some (buf, s')) :
    b < s.sectors ∧ s.disk b = buf ∧ s = s' := by
  simp only [rsect, get_bind] at h
  split at h
  · next hb =>
    obtain ⟨rfl, rfl⟩ := pure_iff.mp h
    exact ⟨hb, rfl, rfl⟩
  · cases h

theorem rsect_run (h : b < s.sectors) : (rsect b).run s = some (s.disk b, s) := by
  simp only [rsect, get_bind]
  rw [if_pos h]
  rfl

theorem wsect_run (h : b < s.sectors) (x : Block) : (wsect b x).run s = some ((), s.write b x) := by
  rw [wsect, modify_iff]
  simp only [write, Nat.max_eq_left h]

theorem newBlock_run : newBlock.run s = some (s.freeblock, s.take) := rfl

/-! ## Rounds -/

/-- What the steps of `iappend` leave alone. -/
structure Steps (s s' : Image) : Prop where
  blank : s'.Blank
  freeinode : s'.freeinode = s.freeinode
  disk : ∀ c < nmeta, s'.disk c = s.disk c

theorem Steps.trans {t : Image} (h₁ : Steps s t) (h₂ : Steps t s') : Steps s s' :=
  ⟨h₂.blank, h₂.freeinode.trans h₁.freeinode, fun c hc => (h₂.disk c hc).trans (h₁.disk c hc)⟩

theorem Image.Blank.steps_take (h : s.Blank) : Steps s s.take :=
  ⟨h.take, rfl, fun _ _ => rfl⟩

theorem Image.Blank.steps_write (h : s.Blank) (hge : nmeta ≤ b) (hb : b < s.freeblock) (x : Block) :
    Steps s (s.write b x) := by
  refine ⟨h.write hb x, rfl, fun c hc => update_of_ne ?_ ..⟩
  omega

theorem Image.kernel_write (hb : nmeta ≤ b) (x : Block) (din : Dinode) :
    (s.write b x).kernel n din l = (s.kernel n din l).setData b x := by
  simp only [kernel, State.setData, data_write hb, dinode_write hb]
  rfl

theorem addr_inv {k : Fin (NDIRECT + 1)} (h : (addr d k).run s = some ((d', x), s')) :
    d.addrs k ≠ 0 ∧ d' = d ∧ x = d.addrs k ∧ s' = s ∨
      d.addrs k = 0 ∧ d' = d.setAddr k s.freeblock ∧ x = s.freeblock ∧ s' = s.take := by
  unfold addr at h
  split at h
  · next h0 =>
    rw [bind_iff] at h
    obtain ⟨_, _, hnew, h⟩ := h
    rw [newBlock_run] at hnew
    cases hnew
    cases h
    exact .inr ⟨h0, rfl, rfl, rfl⟩
  · next h0 =>
    cases h
    exact .inl ⟨h0, rfl, rfl, rfl⟩

variable {a j off fuel : Nat} {p : List Byte}

theorem entry_inv (h : (entry a j).run s = some (x, s')) : a < s.sectors ∧
    (word (s.disk a) j ≠ 0 ∧ x = word (s.disk a) j ∧ s' = s ∨
      word (s.disk a) j = 0 ∧ x = s.freeblock ∧
        s' = s.take.write a (setWord (s.disk a) j s.freeblock)) := by
  simp only [entry, bind_iff] at h
  obtain ⟨_, _, hread, h⟩ := h
  obtain ⟨hsector, rfl, rfl⟩ := rsect_inv hread
  refine ⟨hsector, ?_⟩
  split at h
  · next h0 =>
    simp only [bind_iff] at h
    obtain ⟨_, _, hnew, _, t, hwrite, h⟩ := h
    rw [newBlock_run] at hnew
    cases hnew
    rw [wsect_run (s := s.take) hsector] at hwrite
    cases hwrite
    cases h
    exact .inr ⟨h0, rfl, rfl⟩
  · next h0 =>
    cases h
    exact .inl ⟨h0, rfl, rfl⟩

theorem slot_inv (h : (slot d fbn).run s = some ((d', x), s')) :
    fbn < NDIRECT ∧ (addr d (directAt fbn)).run s = some ((d', x), s') ∨
      NDIRECT ≤ fbn ∧ ∃ a t, (addr d indirect).run s = some ((d', a), t) ∧
        (entry a (fbn - NDIRECT)).run t = some (x, s') := by
  unfold slot at h
  split at h
  · next hlt => exact .inl ⟨hlt, h⟩
  · next hge =>
    simp only [bind_iff] at h
    obtain ⟨⟨d₁, a⟩, t, haddr, x', t', hentry, h⟩ := h
    cases h
    exact .inr ⟨Nat.not_lt.mp hge, a, t, haddr, hentry⟩

theorem slot_sectors (h : (slot d fbn).run s = some ((d', x), s')) : s'.sectors = s.sectors := by
  have haddr {k : Fin (NDIRECT + 1)} {x : Nat} {t : Image}
      (h : (addr d k).run s = some ((d', x), t)) : t.sectors = s.sectors := by
    obtain ⟨-, -, -, rfl⟩ | ⟨-, -, -, rfl⟩ := addr_inv h
    · rfl
    · rfl
  obtain ⟨-, h⟩ | ⟨-, a, t, h, hentry⟩ := slot_inv h
  · exact haddr h
  · rw [← haddr h]
    obtain ⟨-, ⟨-, -, rfl⟩ | ⟨-, -, rfl⟩⟩ := entry_inv hentry
    · rfl
    · rfl

/-- A block that can be read is in the file, and so are the ones taken before it. -/
theorem slot_below (hs : s.Blank) (h : (slot d fbn).run s = some ((d', x), s')) (hx : x < FSSIZE)
    (hbelow : s.freeblock ≤ FSSIZE) : s'.freeblock ≤ FSSIZE := by
  have haddr {k : Fin (NDIRECT + 1)} {x : Nat} {t : Image} (hx : x < FSSIZE)
      (h : (addr d k).run s = some ((d', x), t)) : t.freeblock ≤ FSSIZE := by
    obtain ⟨-, -, -, rfl⟩ | ⟨-, -, rfl, rfl⟩ := addr_inv h
    · exact hbelow
    · exact hx
  have hsectors := slot_sectors h
  obtain ⟨-, h⟩ | ⟨-, a, t, h, hentry⟩ := slot_inv h
  · exact haddr hx h
  · obtain ⟨ha, ⟨-, -, rfl⟩ | ⟨-, rfl, rfl⟩⟩ := entry_inv hentry
    · rw [hsectors, hs.sectors] at ha
      exact haddr ha h
    · exact hx

theorem addr_sim {k : Fin (NDIRECT + 1)} (hs : s.Blank)
    (h : (addr d k).run s = some ((d', x), s')) (hx : x < FSSIZE) :
    Steps s s' ∧ d' = { d with addrs := d'.addrs } ∧
      ∃ l', (bmapAddr sb 0 k).run (s.kernel n d.toDinode l) =
        some (x, s'.kernel n d'.toDinode l') := by
  have hself : ((s.kernel n d.toDinode l).inode 0).din = d.toDinode := by
    simp [kernel]
  obtain ⟨h0, rfl, rfl, rfl⟩ | ⟨h0, rfl, rfl, rfl⟩ := addr_inv h
  · refine ⟨⟨hs, rfl, fun _ _ => rfl⟩, rfl, l, ?_⟩
    have h0' : ((s'.kernel n d'.toDinode l).inode 0).din.addrs k ≠ 0 := by rw [hself]; exact h0
    rw [bmapAddr_old h0', hself]
    rfl
  · refine ⟨hs.steps_take, rfl, s.freeblock :: sb.bblock s.freeblock :: l, ?_⟩
    have h0' : ((s.kernel n d.toDinode l).inode 0).din.addrs k = 0 := by rw [hself]; exact h0
    rw [bmapAddr_new h0' (Image.Blank.firstFree hx d.toDinode), hs.alloc]
    simp only [State.setAddr, State.setDin, State.setInode, kernel, update_self,
      update_idem]
    rfl

theorem entry_sim (din : Dinode) (hs : s.Blank) (hge : nmeta ≤ a) (ha : a < s.freeblock)
    (h : (entry a j).run s = some (x, s')) (hx : x < FSSIZE) :
    Steps s s' ∧ ∃ l', (bmapEntry sb a j).run (s.kernel n din l) = some (x, s'.kernel n din l') := by
  have hdata (l : List Nat) : (s.kernel n din l).data a = s.disk a := data_of_ge hge
  obtain ⟨-, ⟨h0, rfl, rfl⟩ | ⟨h0, rfl, rfl⟩⟩ := entry_inv h
  · refine ⟨⟨hs, rfl, fun _ _ => rfl⟩, l, ?_⟩
    rw [← hdata l] at h0 ⊢
    exact bmapEntry_old h0
  · refine ⟨hs.steps_take.trans (hs.take.steps_write hge (Nat.lt_succ_of_lt ha) _),
      a :: s.freeblock :: sb.bblock s.freeblock :: l, ?_⟩
    rw [← hdata l] at h0
    rw [bmapEntry_new h0 (Image.Blank.firstFree hx din), hs.alloc, kernel_write hge]
    have hdata' (l : List Nat) : (s.take.kernel n din l).data a = s.disk a := hdata l
    rw [hdata']
    rfl

/-- What the kernel would use is marked. -/
theorem range_of_own {din : Dinode} (hown : (s.kernel n din l).Own sb 0) {y : Nat × Slot}
    (hy : (s.kernel n din l).addr 0 y ≠ 0) :
    nmeta ≤ (s.kernel n din l).addr 0 y ∧ (s.kernel n din l).addr 0 y < s.freeblock ∧
      (s.kernel n din l).addr 0 y < FSSIZE := by
  obtain ⟨hmeta, hsize⟩ := hown.range y hy
  have hused := (hown.used_iff _ hsize).mpr (.inr ⟨y, rfl, hy⟩)
  exact ⟨sb_nmeta ▸ Nat.not_lt.mp hmeta, of_decide_eq_true hused, hsize⟩

theorem slot_sim (hs : s.Blank) (hown : (s.kernel n d.toDinode l).Own sb 0)
    (htype : d.toDinode.type ≠ .free) (hfbn : fbn < MAXFILE)
    (h : (slot d fbn).run s = some ((d', x), s')) (hx : x < FSSIZE) :
    Steps s s' ∧ d' = { d with addrs := d'.addrs } ∧
      ∃ l', (bmap sb 0 fbn).run (s.kernel n d.toDinode l) = some (x, s'.kernel n d'.toDinode l') := by
  obtain ⟨hlt, h⟩ | ⟨hge, a, t, haddr, hentry⟩ := slot_inv h
  · rw [bmap_direct hlt]
    exact addr_sim hs h hx
  · rw [bmap_indirect hge hfbn]
    have hself : ((s.kernel n d.toDinode l).inode 0).din.type ≠ .free := by
      simpa [kernel] using htype
    have ha : a < FSSIZE := by
      have hsector := (entry_inv hentry).1
      obtain ⟨-, -, -, rfl⟩ | ⟨-, -, -, rfl⟩ := addr_inv haddr
      · rwa [hs.sectors] at hsector
      · rwa [hs.take.sectors] at hsector
    obtain ⟨hsteps, hd, l', hbmap⟩ := addr_sim (n := n) (l := l) hs haddr ha
    obtain ⟨hgrown, ha0, hslot, -⟩ := bmapAddr_own hown hself hbmap
    -- the indirect block is one of the inode's own
    have hy : (t.kernel n d'.toDinode l').addr 0 (n, .addr indirect) = a := by
      have hfree : ((t.kernel n d'.toDinode l').inode 0).din.type ≠ .free := by
        rw [(bmapAddr_remaps hbmap).type]
        exact hself
      rw [← hslot]
      exact State.addr_self _ 0 _ hfree
    obtain ⟨hmeta, hused, -⟩ := range_of_own hgrown.own (hy.symm ▸ ha0)
    rw [hy] at hmeta hused
    obtain ⟨hsteps', l'', hbmap'⟩ := entry_sim (n := n) (l := l') d'.toDinode hsteps.blank hmeta
      hused hentry hx
    refine ⟨hsteps.trans hsteps', hd, l'', ?_⟩
    rw [bind_iff]
    exact ⟨a, _, hbmap, hbmap'⟩

theorem bmap_apart {P : Type} {sb : Superblock} {t t' : State P} {i : Fin NINODE} {m : Nat}
    (hown : t.Own sb i) (htype : (t.inode i).din.type ≠ .free)
    (h : (bmap sb i fbn).run t = some (b, t')) (hm : m ≠ (t.inode i).inum) (y : Slot) :
    t'.addr i (m, y) = t.addr i (m, y) := by
  have haddr {k : Fin (NDIRECT + 1)} {a : Nat} {u : State P}
      (h : (bmapAddr sb i k).run t = some (a, u)) : u.addr i (m, y) = t.addr i (m, y) := by
    obtain ⟨-, -, rfl⟩ | ⟨h0, hfree, hlt, rfl⟩ := bmapAddr_inv h
    · rfl
    · rw [addr_alloc_setAddr htype h0 (hown.fresh hlt hfree).2.2]
      exact update_of_ne (fun heq => hm (congrArg Prod.fst heq)) ..
  obtain ⟨-, h⟩ | ⟨hge, hmax, a, u, ha, h⟩ := bmap_inv h
  · exact haddr h
  · rw [← haddr ha]
    obtain ⟨hgrown, ha0, hslot, -⟩ := bmapAddr_own hown htype ha
    obtain ⟨-, -, rfl⟩ | ⟨-, hfree, hlt, rfl⟩ := bmapEntry_inv h
    · rfl
    · rw [← val_ofNat_block hge hmax, addr_alloc_setWord hgrown.own
        ((bmapAddr_remaps ha).type ▸ htype) hslot ha0 (Nat.lt_trans hlt sb.size_lt)
        (hgrown.own.fresh hlt hfree).2.2]
      refine update_of_ne (fun heq => hm ?_) ..
      rw [← (bmapAddr_remaps ha).inum]
      exact congrArg Prod.fst heq

/-! ## Which slots are filled -/

/-- The address of block `bn`. -/
def place (s : Image) (d : DiskInode) (bn : Nat) : Nat := d.toDinode.slot s.data (.block bn)

theorem place_direct (h : fbn < NDIRECT) : place s d fbn = d.addrs (directAt fbn) := by
  unfold place
  rw [Slot.block_of_lt h]
  rfl

theorem place_indirect (hge : NDIRECT ≤ fbn) (hlt : fbn < MAXFILE) : place s d fbn =
    if d.addrs indirect = 0 then 0 else word (s.data (d.addrs indirect)) (fbn - NDIRECT) := by
  unfold place
  rw [Slot.block_of_ge hge, Dinode.slot, val_ofNat_block hge hlt]
  rfl

theorem directAt_ne_indirect (h : fbn < NDIRECT) : directAt fbn ≠ indirect := by
  intro heq
  refine Slot.block_ne_indirect fbn ?_
  rw [Slot.block_of_lt h]
  exact congrArg Slot.addr heq

theorem directAt_inj {bn : Nat} (h : fbn < NDIRECT) (hbn : bn < NDIRECT)
    (heq : directAt bn = directAt fbn) : bn = fbn := by
  have hval : bn % (NDIRECT + 1) = fbn % (NDIRECT + 1) := congrArg Fin.val heq
  simp only [NDIRECT] at *
  omega

/-- The indirect block is a data block in use. -/
def Inside (s : Image) (d : DiskInode) : Prop :=
  d.addrs indirect ≠ 0 → nmeta ≤ d.addrs indirect ∧ d.addrs indirect < s.freeblock

/-- One slot is filled, and the indirect block is there if it is needed. -/
structure Fills (fbn x : Nat) (s : Image) (d : DiskInode) (s' : Image) (d' : DiskInode) : Prop where
  filled : ∀ bn < MAXFILE, place s' d' bn = if bn = fbn then x else place s d bn
  nonzero : x ≠ 0
  indir : d'.addrs indirect ≠ 0 ↔ d.addrs indirect ≠ 0 ∨ NDIRECT ≤ fbn
  count : s'.freeblock = s.freeblock + (if place s d fbn = 0 then 1 else 0) +
    if NDIRECT ≤ fbn ∧ d.addrs indirect = 0 then 1 else 0

theorem Fills.old (h : place s d fbn ≠ 0) (hind : NDIRECT ≤ fbn → d.addrs indirect ≠ 0) :
    Fills fbn (place s d fbn) s d s d where
  filled bn _ := by
    split
    · next heq => rw [heq]
    · rfl
  nonzero := h
  indir := ⟨.inl, fun hor => hor.elim id hind⟩
  count := by
    rw [if_neg h, if_neg fun hnot => hind hnot.1 hnot.2]
    rfl

theorem addr_fills (hs : s.Blank) (hlt : fbn < NDIRECT)
    (h : (addr d (directAt fbn)).run s = some ((d', x), s')) : Fills fbn x s d s' d' := by
  have hplace := place_direct (s := s) (d := d) hlt
  obtain ⟨h0, rfl, rfl, rfl⟩ | ⟨h0, rfl, rfl, rfl⟩ := addr_inv h
  · rw [← hplace] at h0 ⊢
    exact .old h0 fun hge => absurd hlt (Nat.not_lt.mpr hge)
  · have habove := hs.above
    have hind := DiskInode.setAddr_of_ne (directAt_ne_indirect hlt).symm d s.freeblock
    refine ⟨fun bn hbn => ?_, ?_, ?_, ?_⟩
    · by_cases hd : bn < NDIRECT
      · rw [place_direct hd, place_direct hd]
        by_cases heq : bn = fbn
        · rw [if_pos heq, heq]
          exact DiskInode.setAddr_self ..
        · rw [if_neg heq]
          exact DiskInode.setAddr_of_ne (fun hat => heq (directAt_inj hlt hd hat)) ..
      · have hge := Nat.not_lt.mp hd
        rw [if_neg (by omega), place_indirect hge hbn, place_indirect hge hbn, hind]
        rfl
    · rw [nmeta_eq] at habove
      omega
    · rw [hind]
      exact ⟨.inl, fun hor => hor.elim id fun hge => absurd hlt (Nat.not_lt.mpr hge)⟩
    · rw [hplace, if_pos h0, if_neg fun hnot => absurd hlt (Nat.not_lt.mpr hnot.1)]
      rfl

theorem entry_fills (hs : s.Blank) (hin : Inside s d) (hge : NDIRECT ≤ fbn) (hfbn : fbn < MAXFILE)
    (hind : d.addrs indirect ≠ 0)
    (h : (entry (d.addrs indirect) (fbn - NDIRECT)).run s = some (x, s')) (hx : x < FSSIZE) :
    Fills fbn x s d s' d := by
  obtain ⟨hmeta, hused⟩ := hin hind
  have hplace : place s d fbn = word (s.disk (d.addrs indirect)) (fbn - NDIRECT) := by
    rw [place_indirect hge hfbn, if_neg hind, data_of_ge hmeta]
  obtain ⟨-, ⟨h0, rfl, rfl⟩ | ⟨h0, rfl, rfl⟩⟩ := entry_inv h
  · rw [← hplace] at h0 ⊢
    exact .old h0 fun _ => hind
  · have habove := hs.above
    refine ⟨fun bn hbn => ?_, ?_, ⟨.inl, fun _ => hind⟩, ?_⟩
    · by_cases hd : bn < NDIRECT
      · rw [if_neg (by omega), place_direct hd, place_direct hd]
      · have hge' := Nat.not_lt.mp hd
        rw [place_indirect hge' hbn, place_indirect hge' hbn, if_neg hind, if_neg hind,
          data_write hmeta, update_self]
        by_cases heq : bn = fbn
        · rw [if_pos heq, heq]
          exact word_setWord (Nat.lt_trans hx (by decide))
        · rw [if_neg heq, word_setWord_ne (by omega), data_of_ge hmeta]
    · rw [nmeta_eq] at habove
      omega
    · rw [hplace, if_pos h0, if_neg fun hnot => hind hnot.2]
      rfl

theorem slot_fills (hs : s.Blank) (hin : Inside s d) (hfbn : fbn < MAXFILE)
    (h : (slot d fbn).run s = some ((d', x), s')) (hx : x < FSSIZE) : Fills fbn x s d s' d' := by
  obtain ⟨hlt, h⟩ | ⟨hge, a, t, haddr, hentry⟩ := slot_inv h
  · exact addr_fills hs hlt h
  · obtain ⟨h0, rfl, rfl, rfl⟩ | ⟨h0, rfl, rfl, rfl⟩ := addr_inv haddr
    · exact entry_fills hs hin hge hfbn h0 hentry hx
    · -- the indirect block is new: it is zero
      have habove := hs.above
      rw [nmeta_eq] at habove
      have hself := DiskInode.setAddr_self d indirect s.freeblock
      have hfills : Fills fbn x s.take (d.setAddr indirect s.freeblock) s'
          (d.setAddr indirect s.freeblock) := by
        refine entry_fills hs.take (fun _ => ?_) hge hfbn ?_ (by rwa [hself]) hx
        · rw [hself]
          exact ⟨hs.above, Nat.lt_succ_self _⟩
        · rw [hself]
          omega
      have hempty (bn : Nat) (hbn : bn < MAXFILE) :
          place s.take (d.setAddr indirect s.freeblock) bn = place s d bn := by
        by_cases hd : bn < NDIRECT
        · rw [place_direct hd, place_direct hd]
          exact DiskInode.setAddr_of_ne (directAt_ne_indirect hd) ..
        · have hge' := Nat.not_lt.mp hd
          rw [place_indirect hge' hbn, place_indirect hge' hbn, hself, if_pos h0,
            show s.take.data s.freeblock = fun _ => 0 from hs.data_zero le_rfl, word_zero, ite_self]
      refine ⟨fun bn hbn => ?_, hfills.nonzero, ?_, ?_⟩
      · rw [hfills.filled bn hbn, hempty bn hbn]
      · rw [hfills.indir]
        exact ⟨fun _ => .inr hge, fun _ => .inr hge⟩
      · rw [hfills.count, hempty fbn hfbn]
        have hnot : ¬ (NDIRECT ≤ fbn ∧ (d.setAddr indirect s.freeblock).addrs indirect = 0) := by
          rw [hself]
          omega
        have hzero : place s d fbn = 0 := by
          rw [place_indirect hge hfbn, if_pos h0]
        rw [if_pos hzero, if_neg hnot, if_pos ⟨hge, h0⟩]
        rfl

/-- The slots of an inode are filled exactly as far as its content goes. -/
structure Exact (s : Image) (d : DiskInode) (len : Nat) : Prop where
  block : ∀ bn < MAXFILE, place s d bn ≠ 0 ↔ bn * BSIZE < len
  indir : d.addrs indirect ≠ 0 ↔ NDIRECT * BSIZE < len

/-- How many blocks a file of this length takes. -/
def blocks (len : Nat) : Nat :=
  (len + BSIZE - 1) / BSIZE + if NDIRECT * BSIZE < len then 1 else 0

/-- A round appends up to the end of a block. -/
theorem Fills.exact {k : Nat} (h : Fills (off / BSIZE) x s d s' d') (he : Exact s d off)
    (hmax : off / BSIZE < MAXFILE) (hk : 0 < k) (hend : off % BSIZE + k ≤ BSIZE) :
    Exact s' d' (off + k) ∧ s'.freeblock + blocks off = s.freeblock + blocks (off + k) := by
  have hblock := he.block (off / BSIZE) hmax
  have hindir := he.indir
  refine ⟨⟨fun bn hbn => ?_, ?_⟩, ?_⟩
  · rw [h.filled bn hbn]
    split
    · next heq =>
      refine iff_of_true h.nonzero ?_
      rw [heq]
      simp only [BSIZE] at *
      omega
    · next hne =>
      rw [he.block bn hbn]
      simp only [BSIZE] at *
      omega
  · rw [h.indir, hindir]
    simp only [BSIZE, NDIRECT] at *
    omega
  · rw [h.count]
    unfold blocks
    by_cases h0 : place s d (off / BSIZE) = 0 <;> by_cases hi : d.addrs indirect = 0 <;>
      simp only [h0, hi, if_true, if_false, ne_eq, not_true_eq_false, not_false_eq_true,
        false_iff, true_iff, and_true, and_false] at hblock hindir ⊢ <;>
      simp only [BSIZE, NDIRECT] at * <;> split <;> split <;> omega

/-! ## The loop -/

/-- From `s` and the inode `d` to `s'` and `d'` the bytes `p` have been appended at `off`. -/
structure Appended (n off : Nat) (p : List Byte) (s : Image) (d : DiskInode) (s' : Image)
    (d' : DiskInode) : Prop where
  steps : Steps s s'
  fields : d' = { d with addrs := d'.addrs }
  exact : Exact s' d' (off + p.length)
  count : s'.freeblock + blocks off = s.freeblock + blocks (off + p.length)
  written : ∀ l, ∃ l', Written sb 0 off p (s.kernel n d.toDinode l) (s'.kernel n d'.toDinode l')
  apart : ∀ m y, m ≠ n →
    (s'.kernel n d'.toDinode []).addr 0 (m, y) = (s.kernel n d.toDinode []).addr 0 (m, y)
  below : s.freeblock ≤ FSSIZE → s'.freeblock ≤ FSSIZE

theorem Appended.nil (hs : s.Blank) (hown : (s.kernel n d.toDinode []).Own sb 0)
    (he : Exact s d off) : Appended n off [] s d s d where
  steps := ⟨hs, rfl, fun _ _ => rfl⟩
  fields := rfl
  exact := he
  count := rfl
  written l := ⟨l, .nil hown⟩
  apart _ _ _ := rfl
  below := id

theorem Appended.append {t : Image} {e : DiskInode} {q : List Byte}
    (h₁ : Appended n off p s d t e) (h₂ : Appended n (off + p.length) q t e s' d') :
    Appended n off (p ++ q) s d s' d' where
  steps := h₁.steps.trans h₂.steps
  fields := by
    rw [h₂.fields, h₁.fields]
  exact := by
    rw [List.length_append, ← Nat.add_assoc]
    exact h₂.exact
  count := by
    have := h₁.count
    have := h₂.count
    rw [List.length_append, ← Nat.add_assoc]
    omega
  written l := by
    obtain ⟨l', hp⟩ := h₁.written l
    obtain ⟨l'', hq⟩ := h₂.written l'
    exact ⟨l'', hp.append hq⟩
  apart m y hm := (h₂.apart m y hm).trans (h₁.apart m y hm)
  below hs := h₂.below (h₁.below hs)

theorem kernel_addr (s : Image) (htype : d.toDinode.type ≠ .free) (y : Slot) :
    (s.kernel n d.toDinode l).addr 0 (n, y) = d.toDinode.slot s.data y :=
  State.addr_self (s.kernel n d.toDinode l) 0 y htype

theorem round_appended {t : Image} (hs : s.Blank) (hown : (s.kernel n d.toDinode []).Own sb 0)
    (htype : d.toDinode.type ≠ .free) (he : Exact s d off) (hmax : off / BSIZE < MAXFILE)
    (hpos : 0 < p.length) (hlen : off % BSIZE + p.length ≤ BSIZE)
    (hslot : (slot d (off / BSIZE)).run s = some ((d', x), t)) (hx : x < FSSIZE) :
    Appended n off p s d (t.write x (splice (t.disk x) (off % BSIZE) p)) d' := by
  obtain ⟨hsteps, hfields, l₁, hbmap⟩ := slot_sim (l := []) hs hown htype hmax hslot hx
  have htype' : d'.toDinode.type ≠ .free := by
    rw [hfields]
    exact htype
  obtain ⟨hgrown, -, hx0, hplace, -⟩ := bmap_own hown htype hbmap
  -- the block is one of the inode's own
  obtain ⟨hmeta, hused, -⟩ := range_of_own hgrown.own (hplace.symm ▸ hx0)
  rw [hplace] at hmeta hused
  have hin : Inside s d := by
    intro hind
    have haddr : (s.kernel n d.toDinode []).addr 0 (n, .addr indirect) = d.addrs indirect :=
      kernel_addr s htype _
    rw [← haddr] at hind ⊢
    exact ⟨(range_of_own hown hind).1, (range_of_own hown hind).2.1⟩
  obtain ⟨hexact, hcount⟩ := (slot_fills hs hin hmax hslot hx).exact he hmax hpos hlen
  have hkernel (l : List Nat) : (t.write x (splice (t.disk x) (off % BSIZE) p)).kernel n d'.toDinode
      (x :: l) = (t.kernel n d'.toDinode l).store x (off % BSIZE) p := by
    rw [kernel_write hmeta, ← data_of_ge hmeta]
    rfl
  have hsame : ((t.write x (splice (t.disk x) (off % BSIZE) p)).kernel n d'.toDinode
      (x :: l₁)).addr 0 = (t.kernel n d'.toDinode l₁).addr 0 := by
    rw [hkernel l₁]
    conv_lhs => rw [← hplace]
    exact addr_store hgrown.own (Slot.block_ne_indirect _) _ p
  refine ⟨hsteps.trans (hsteps.blank.steps_write hmeta hused _), hfields, ⟨fun bn hbn => ?_,
    hexact.indir⟩, hcount, fun l => ?_, fun m y hm => ?_, ?_⟩
  · have hbn := congrFun hsame (n, .block bn)
    rw [kernel_addr _ htype', kernel_addr _ htype'] at hbn
    show Dinode.slot _ _ _ ≠ 0 ↔ _
    rw [hbn]
    exact hexact.block bn ‹_›
  · obtain ⟨-, -, l₂, hbmap'⟩ := slot_sim (l := l) hs hown htype hmax hslot hx
    exact ⟨x :: l₂, hkernel l₂ ▸ round_written hown htype hpos hlen hbmap'⟩
  · exact (congrFun hsame (m, y)).trans (bmap_apart hown htype hbmap hm y)
  · intro hbelow
    have hle : t.freeblock ≤ FSSIZE := slot_below hs hslot hx hbelow
    exact hle

theorem Appended.resumes (h : Appended n off p s d s' d') (htype : d.toDinode.type ≠ .free) :
    s'.Blank ∧ (s'.kernel n d'.toDinode []).Own sb 0 ∧ d'.toDinode.type ≠ .free := by
  obtain ⟨l', hwritten⟩ := h.written []
  refine ⟨h.steps.blank, hwritten.own, ?_⟩
  rw [h.fields]
  exact htype

theorem iappendLoop_round {r : DiskInode × Nat} (hp : p ≠ []) :
    (iappendLoop (fuel + 1) d off p).run s = some (r, s') ↔ off / BSIZE < MAXFILE ∧
      ∃ d₁ x t, (slot d (off / BSIZE)).run s = some ((d₁, x), t) ∧ x < t.sectors ∧
        (iappendLoop fuel d₁ (off + span off p.length) (p.drop (span off p.length))).run
          (t.write x (splice (t.disk x) (off % BSIZE) (p.take (span off p.length)))) =
            some (r, s') := by
  have hoff : off - off / BSIZE * BSIZE = off % BSIZE := by
    simp only [BSIZE]
    omega
  have hspan : min p.length ((off / BSIZE + 1) * BSIZE - off) = span off p.length := by
    simp only [span, BSIZE]
    omega
  rw [iappendLoop, if_neg hp, hoff, hspan]
  constructor
  · intro h
    split at h
    · next hmax =>
      simp only [bind_iff] at h
      obtain ⟨⟨d₁, x⟩, t, hslot, buf, t', hread, _, t'', hwrite, h⟩ := h
      obtain ⟨hsector, rfl, rfl⟩ := rsect_inv hread
      rw [wsect_run hsector] at hwrite
      cases hwrite
      exact ⟨hmax, d₁, x, t, hslot, hsector, h⟩
    · cases h
  · rintro ⟨hmax, d₁, x, t, hslot, hsector, h⟩
    simp only [if_pos hmax, bind_iff]
    exact ⟨(d₁, x), t, hslot, _, t, rsect_run hsector, _, _, wsect_run hsector _, h⟩

theorem iappendLoop_appended {off' : Nat} (hs : s.Blank)
    (hown : (s.kernel n d.toDinode []).Own sb 0) (htype : d.toDinode.type ≠ .free)
    (he : Exact s d off) (hfuel : p.length ≤ fuel)
    (h : (iappendLoop fuel d off p).run s = some ((d', off'), s')) :
    Appended n off p s d s' d' ∧ off' = off + p.length := by
  induction fuel generalizing s d off p with
  | zero =>
    obtain rfl := List.length_eq_zero_iff.mp (Nat.le_zero.mp hfuel)
    cases h
    exact ⟨.nil hs hown he, rfl⟩
  | succ fuel ih =>
    by_cases hp : p = []
    · subst hp
      cases h
      exact ⟨.nil hs hown he, rfl⟩
    · obtain ⟨hmax, d₁, x, t, hslot, hsector, h⟩ := (iappendLoop_round hp).mp h
      have hbounds := span_bounds off (List.length_pos_iff.mpr hp)
      have htake : (p.take (span off p.length)).length = span off p.length :=
        List.length_take_of_le hbounds.2.1
      have hx : x < FSSIZE := by rwa [slot_sectors hslot, hs.sectors] at hsector
      have hround : Appended n off (p.take (span off p.length)) s d _ d₁ :=
        round_appended hs hown htype he hmax (htake.symm ▸ hbounds.1) (htake.symm ▸ hbounds.2.2)
          hslot hx
      obtain ⟨hblank, hown₁, htype₁⟩ := hround.resumes htype
      have hexact := hround.exact
      rw [htake] at hexact
      obtain ⟨hrest, hend⟩ := ih hblank hown₁ htype₁ hexact (by rw [List.length_drop]; omega) h
      refine ⟨?_, by rw [hend, List.length_drop]; omega⟩
      rw [← List.take_append_drop (span off p.length) p]
      exact hround.append (htake.symm ▸ hrest)

/-! ## There is room -/

theorem blocks_mono {c : Nat} (h : a ≤ c) : blocks a ≤ blocks c := by
  unfold blocks
  refine Nat.add_le_add (Nat.div_le_div_right (by omega)) ?_
  split <;> split <;> omega

theorem addr_run (s : Image) (d : DiskInode) (k : Fin (NDIRECT + 1)) :
    ∃ d' x t, (addr d k).run s = some ((d', x), t) := by
  unfold addr
  split
  · exact ⟨_, _, _, rfl⟩
  · exact ⟨_, _, _, rfl⟩

theorem entry_run (h : a < s.sectors) (j : Nat) : ∃ x t, (entry a j).run s = some (x, t) := by
  unfold entry
  simp only [bind_iff]
  by_cases h0 : word (s.disk a) j = 0
  · refine ⟨s.freeblock, s.take.write a (setWord (s.disk a) j s.freeblock), _, _, rsect_run h, ?_⟩
    rw [if_pos h0, bind_iff]
    refine ⟨_, _, newBlock_run, ?_⟩
    rw [bind_iff]
    exact ⟨_, _, wsect_run (s := s.take) h _, rfl⟩
  · refine ⟨word (s.disk a) j, s, _, _, rsect_run h, ?_⟩
    rw [if_neg h0]
    rfl

/-- While there are blocks, a round has one. -/
theorem slot_run {k : Nat} (hs : s.Blank) (hown : (s.kernel n d.toDinode []).Own sb 0)
    (htype : d.toDinode.type ≠ .free) (he : Exact s d off) (hmax : off / BSIZE < MAXFILE)
    (hk : 0 < k) (hend : off % BSIZE + k ≤ BSIZE)
    (hroom : s.freeblock + blocks (off + k) ≤ FSSIZE + blocks off) :
    ∃ d' x t, (slot d (off / BSIZE)).run s = some ((d', x), t) ∧ x < FSSIZE := by
  have hblock := he.block (off / BSIZE) hmax
  have hindir := he.indir
  -- an address in a slot is one of a block
  have hold (y : Slot) (hy : d.toDinode.slot s.data y ≠ 0) :
      nmeta ≤ d.toDinode.slot s.data y ∧ d.toDinode.slot s.data y < FSSIZE := by
    rw [← kernel_addr (n := n) (l := []) s htype y] at hy ⊢
    exact ⟨(range_of_own hown hy).1, (range_of_own hown hy).2.2⟩
  have hnew (h0 : place s d (off / BSIZE) = 0) : s.freeblock < FSSIZE := by
    have hle : off ≤ off / BSIZE * BSIZE := Nat.not_lt.mp fun hlt => hblock.mpr hlt h0
    have hgrow : blocks off < blocks (off + k) := by
      unfold blocks
      split <;> split <;> (simp only [BSIZE, NDIRECT] at *; omega)
    omega
  by_cases hd : off / BSIZE < NDIRECT
  · obtain ⟨d', x, t, hrun⟩ := addr_run s d (directAt (off / BSIZE))
    refine ⟨d', x, t, by rw [slot, if_pos hd]; exact hrun, ?_⟩
    have hplace := place_direct (s := s) (d := d) hd
    obtain ⟨h0, -, rfl, -⟩ | ⟨h0, -, rfl, -⟩ := addr_inv hrun
    · rw [← hplace] at h0 ⊢
      exact (hold _ h0).2
    · exact hnew (hplace.trans h0)
  · have hge := Nat.not_lt.mp hd
    have hplace := place_indirect (s := s) (d := d) hge hmax
    obtain ⟨d', a, t, haddr⟩ := addr_run s d indirect
    have hslot {x : Nat} {t' : Image}
        (hentry : (entry a (off / BSIZE - NDIRECT)).run t = some (x, t')) :
        (slot d (off / BSIZE)).run s = some ((d', x), t') := by
      rw [slot, if_neg hd]
      simp only [bind_iff]
      exact ⟨(d', a), t, haddr, x, t', hentry, rfl⟩
    obtain ⟨h0, -, rfl, rfl⟩ | ⟨h0, -, rfl, rfl⟩ := addr_inv haddr
    · have ha : nmeta ≤ d.addrs indirect ∧ d.addrs indirect < FSSIZE := hold (.addr indirect) h0
      rw [if_neg h0] at hplace
      obtain ⟨x, t', hentry⟩ := entry_run (s := t) (hs.sectors ▸ ha.2) (off / BSIZE - NDIRECT)
      refine ⟨d', x, t', hslot hentry, ?_⟩
      rw [data_of_ge ha.1] at hplace
      obtain ⟨-, ⟨hx, rfl, -⟩ | ⟨hx, rfl, -⟩⟩ := entry_inv hentry
      · rw [← hplace] at hx ⊢
        exact (hold _ hx).2
      · exact hnew (hplace.trans hx)
    · -- both the indirect block and the block are new
      rw [if_pos h0] at hplace
      have htwo : s.freeblock + 1 < FSSIZE := by
        have hle : off ≤ NDIRECT * BSIZE := Nat.not_lt.mp fun hlt => hindir.mpr hlt h0
        have hgrow : blocks off + 2 ≤ blocks (off + k) := by
          unfold blocks
          split <;> split <;> (simp only [BSIZE, NDIRECT] at *; omega)
        omega
      have hsector : s.freeblock < s.take.sectors := by
        rw [hs.take.sectors]
        omega
      obtain ⟨x, t', hentry⟩ := entry_run hsector (off / BSIZE - NDIRECT)
      refine ⟨d', x, t', hslot hentry, ?_⟩
      obtain ⟨-, ⟨hx, -, -⟩ | ⟨-, rfl, -⟩⟩ := entry_inv hentry
      · rw [show s.take.disk s.freeblock = fun _ => 0 from hs.zero _ le_rfl] at hx
        exact absurd rfl hx
      · exact htwo

theorem iappendLoop_run (hs : s.Blank) (hown : (s.kernel n d.toDinode []).Own sb 0)
    (htype : d.toDinode.type ≠ .free) (he : Exact s d off) (hfuel : p.length ≤ fuel)
    (hshort : off + p.length ≤ MAXFILE * BSIZE)
    (hroom : s.freeblock + blocks (off + p.length) ≤ FSSIZE + blocks off) :
    ∃ d' off' s', (iappendLoop fuel d off p).run s = some ((d', off'), s') := by
  induction fuel generalizing s d off p with
  | zero => exact ⟨d, off, s, rfl⟩
  | succ fuel ih =>
    by_cases hp : p = []
    · exact ⟨d, off, s, by rw [iappendLoop, if_pos hp]; rfl⟩
    · have hpos : 0 < p.length := List.length_pos_iff.mpr hp
      have hmax : off / BSIZE < MAXFILE := by
        simp only [BSIZE, MAXFILE] at *
        omega
      have hbounds := span_bounds off hpos
      have htake : (p.take (span off p.length)).length = span off p.length :=
        List.length_take_of_le hbounds.2.1
      have hmono : blocks (off + span off p.length) ≤ blocks (off + p.length) :=
        blocks_mono (by omega)
      obtain ⟨d₁, x, t, hslot, hx⟩ :=
        slot_run hs hown htype he hmax hbounds.1 hbounds.2.2 (by omega)
      have hround : Appended n off (p.take (span off p.length)) s d _ d₁ :=
        round_appended hs hown htype he hmax (htake.symm ▸ hbounds.1) (htake.symm ▸ hbounds.2.2)
          hslot hx
      obtain ⟨hblank, hown₁, htype₁⟩ := hround.resumes htype
      have hexact := hround.exact
      have hcount := hround.count
      rw [htake] at hexact hcount
      obtain ⟨d', off', s', hrest⟩ := ih (p := p.drop (span off p.length)) hblank hown₁ htype₁
        hexact (by rw [List.length_drop]; omega) (by rw [List.length_drop]; omega)
        (by rw [List.length_drop, Nat.add_assoc, Nat.add_sub_of_le hbounds.2.1]; omega)
      have hsector : x < t.sectors := by
        rw [slot_sectors hslot, hs.sectors]
        exact hx
      exact ⟨d', off', s', (iappendLoop_round hp).mpr ⟨hmax, d₁, x, t, hslot, hsector, hrest⟩⟩

end Xv6.Mkfs
