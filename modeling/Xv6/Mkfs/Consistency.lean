import Xv6.Fs.Ownership
import Xv6.Mkfs.Image

/-!
# What the kernel finds

The kernel reads the superblock, the inodes and the bitmap of the image. mkfs never looks at the
bitmap while it works, and changes the size of the root directory at the very end: it rounds the
size up to the next block even where the entries end with a block, and then the last block of the
directory is not there. Nor does it count its inodes.
-/

namespace Xv6.Mkfs

open Bytes Fs List
open Function (update update_of_ne update_self)

variable {s : Image} {n b : Nat} {text : Nat → List Byte} {files : List Input}

/-! ## The bitmap -/

theorem getLsbD_setBit (buf : Block) (i j : Nat) :
    (setBit buf i (j / 8)).getLsbD (j % 8) =
      ((buf (j / 8)).getLsbD (j % 8) || decide (j = i)) := by
  have hj : j % 8 < 8 := Nat.mod_lt _ (by decide)
  unfold setBit
  by_cases hbyte : j / 8 = i / 8
  · rw [hbyte, update_self, BitVec.getLsbD_or]
    congr 1
    by_cases hbit : j % 8 = i % 8
    · obtain rfl : j = i := by omega
      simp [hj]
    · have hji : j ≠ i := by
        rintro rfl
        exact hbit rfl
      simp [BitVec.getLsbD_shiftLeft, hji]
      omega
  · have hji : j ≠ i := by
      rintro rfl
      exact hbyte rfl
    rw [update_of_ne hbyte]
    simp [hji]

theorem getLsbD_bits (used j : Nat) :
    (bits used (j / 8)).getLsbD (j % 8) = decide (j < used) := by
  induction used with
  | zero => simp [bits]
  | succ used ih =>
    have hstep : bits (used + 1) = setBit (bits used) used := by
      rw [bits, range_succ, foldl_append]
      rfl
    rw [hstep, getLsbD_setBit, ih, Bool.eq_iff_iff]
    simp only [Bool.or_eq_true, decide_eq_true_eq]
    omega

/-! ## The finished image -/

theorem readsb_superblock {disk : Nat → Block} (h : disk 1 = superblock) : readsb disk = sb := by
  have hwords : word superblock 0 = FSSIZE ∧ word superblock 1 = nblocks ∧
      word superblock 2 = NINODES ∧ word superblock 5 = 2 + nlog ∧
      word superblock 6 = 2 + nlog + ninodeblocks := by decide
  obtain ⟨h0, h1, h2, h5, h6⟩ := hwords
  unfold readsb
  simp only [h, h0, h1, h2, h5, h6]
  rfl

/-- The root directory with its final size. -/
def Image.root (s : Image) : DiskInode :=
  (inodeAt sb s.disk ROOTINO).resize (((inodeAt sb s.disk ROOTINO).size / BSIZE + 1) * BSIZE)

theorem finish_disk (s : Image) : s.finish.disk =
    update (s.setInode ROOTINO s.root).disk sb.bmapstart (bits s.freeblock) := rfl

theorem iblock_ne_bmapstart (hn : n < NINODES) : sb.iblock n ≠ sb.bmapstart := by
  simp only [Superblock.iblock, sb, nlog, ninodeblocks, IPB, BSIZE, NINODES] at *
  omega

namespace Good

theorem root_fits (h : Good s text) : s.root.Fits := by
  have hfits := inodeAt_fits s.disk ROOTINO
  have hholds := h.holds ROOTINO (by decide)
  have hsize := hholds.size
  have hshort := hholds.short
  refine { hfits with size := ?_ }
  show ((inodeAt sb s.disk ROOTINO).size / BSIZE + 1) * BSIZE < 2 ^ 32
  simp only [MAXFILE, BSIZE] at *
  omega

theorem inodeAt_root (h : Good s text) : inodeAt sb s.finish.disk ROOTINO = s.root := by
  have hne := iblock_ne_bmapstart (show ROOTINO < NINODES by decide)
  rw [finish_disk, inodeAt, update_of_ne hne]
  exact inodeAt_setInode_self h.root_fits s ROOTINO

end Good

theorem inodeAt_finish (hn : n < NINODES) (hne : n ≠ ROOTINO) :
    inodeAt sb s.finish.disk n = inodeAt sb s.disk n := by
  rw [finish_disk, inodeAt, update_of_ne (iblock_ne_bmapstart hn)]
  exact inodeAt_setInode_of_ne hne s s.root

theorem disk_finish (hb : nmeta ≤ b) : s.finish.disk b = s.disk b := by
  have hbmap : b ≠ sb.bmapstart := by
    rintro rfl
    exact absurd hb (by decide)
  have hroot : b ≠ sb.iblock ROOTINO := by
    rintro rfl
    exact absurd hb (by decide)
  rw [finish_disk, update_of_ne hbmap]
  exact update_of_ne hroot ..

theorem readsb_finish (h : s.disk 1 = superblock) : readsb s.finish.disk = sb := by
  have hne : 1 ≠ sb.bmapstart := by decide
  refine readsb_superblock ?_
  rw [finish_disk, update_of_ne hne, s.disk_setInode, h]

theorem bitAt_finish (hb : b < BSIZE * 8) :
    bitAt sb s.finish.disk b = decide (b < s.freeblock) := by
  have hb : b < 4096 := hb
  have hblock : sb.bblock b = sb.bmapstart := by
    rw [Superblock.bblock, Nat.div_eq_of_lt hb, Nat.zero_add]
  rw [bitAt, hblock, finish_disk, update_self, Nat.mod_eq_of_lt hb, getLsbD_bits]

/-! ## The kernel's view -/

section

variable {P : Type}

theorem mount_dinode (h : Good s text) (n : Nat) :
    (mount s.finish.disk : State P).dinode n =
      if n = ROOTINO then s.root.toDinode else s.dinode n := by
  show (if n < (readsb s.finish.disk).ninodes then _ else _) = _
  rw [readsb_finish h.super]
  by_cases hroot : n = ROOTINO
  · subst hroot
    rw [if_pos (by decide), if_pos rfl, h.inodeAt_root]
  · rw [if_neg hroot, Image.dinode]
    by_cases hn : n < NINODES
    · rw [if_pos hn, inodeAt_finish hn hroot]
      exact if_pos hn
    · rw [if_neg hn]
      exact if_neg hn

theorem mount_fields (h : Good s text) (n : Nat) :
    ((mount s.finish.disk : State P).dinode n).type = (s.dinode n).type ∧
      ((mount s.finish.disk : State P).dinode n).addrs = (s.dinode n).addrs := by
  rw [mount_dinode h]
  by_cases hroot : n = ROOTINO
  · subst hroot
    rw [if_pos rfl, dinode_of_lt (by decide)]
    exact ⟨rfl, rfl⟩
  · rw [if_neg hroot]
    exact ⟨rfl, rfl⟩

theorem mount_addrOf (h : Good s text) :
    addrOf (mount s.finish.disk : State P).dinode (mount s.finish.disk : State P).data =
      addrOf s.dinode s.data := by
  funext x
  obtain ⟨htype, haddrs⟩ := mount_fields (P := P) h x.1
  refine addrOf_congr htype haddrs fun hne => ?_
  -- the indirect block is a data block
  have hrange := (h.own.range _ hne).1
  rw [(addrOf_of_ne_zero hne).2, sb_nmeta] at hrange
  have hge : nmeta ≤ (s.dinode x.1).addrs indirect := Nat.not_lt.mp hrange
  rw [Image.data_of_ge hge]
  exact disk_finish hge

end

/-! ## The root directory -/

/-- The entries of the root directory. -/
def rootEntries (files : List Input) : List (Nat × List Byte) :=
  (ROOTINO, dot) :: (ROOTINO, dotdot) :: (files.zipIdx 2).map fun x => (x.2, x.1.name)

theorem withFiles_root (hn : 1 < n) (files : List Input) :
    withFiles text n files ROOTINO =
      text ROOTINO ++ dirBytes ((files.zipIdx n).map fun x => (x.2, x.1.name)) := by
  induction files generalizing text n with
  | nil => exact (append_nil _).symm
  | cons f files ih =>
    rw [withFiles, ih (Nat.lt_succ_of_lt hn), withFile_root hn, append_assoc]
    rfl

theorem contents_root (files : List Input) :
    contents files ROOTINO = dirBytes (rootEntries files) := by
  rw [contents, withFiles_root (by decide), update_self]
  rfl

theorem rootEntries_length (files : List Input) :
    (rootEntries files).length = files.length + 2 := by
  simp [rootEntries]

theorem contents_root_length (files : List Input) :
    (contents files ROOTINO).length = 16 * (files.length + 2) := by
  rw [contents_root, dirBytes_length, rootEntries_length]

namespace Good

/-- The slots of an inode are filled as far as its content goes. -/
theorem slot_iff (h : Good s text) (hn : n < NINODES) (hpos : 0 < n) (hlt : n < s.freeinode)
    {bn : Nat} (hbn : bn < MAXFILE) :
    addrOf s.dinode s.data (n, .block bn) ≠ 0 ↔ bn * BSIZE < (text n).length := by
  have htype : (s.dinode n).type ≠ .free := by
    rw [dinode_of_lt hn]
    exact h.not_free hn hpos hlt
  have haddr : addrOf s.dinode s.data (n, .block bn) = place s (inodeAt sb s.disk n) bn := by
    rw [addrOf, if_neg htype, dinode_of_lt hn]
    rfl
  rw [haddr]
  exact (h.holds n hn).exact.block bn hbn

theorem allocated_iff (h : Good s text) (hn : n < NINODES) :
    (s.dinode n).type ≠ .free ↔ 0 < n ∧ n < s.freeinode := by
  rw [dinode_of_lt hn]
  constructor
  · intro htype
    by_contra hnot
    rw [h.free n hn (by omega)] at htype
    exact htype rfl
  · rintro ⟨hpos, hlt⟩
    exact h.not_free hn hpos hlt

theorem sized (h : Good s text) (hroot : (text ROOTINO).length < MAXFILE * BSIZE)
    (hround : (text ROOTINO).length % BSIZE ≠ 0) {P : Type} :
    Sized (mount s.finish.disk : State P).dinode (mount s.finish.disk : State P).data := by
  intro n htype
  rw [(mount_fields h n).1] at htype
  have hn : n < NINODES := by
    by_contra hge
    rw [Image.dinode, if_neg hge] at htype
    exact htype rfl
  obtain ⟨hpos, hlt⟩ := (h.allocated_iff hn).mp htype
  have hholds := h.holds n hn
  have hsize := hholds.size
  have hshort := hholds.short
  -- the size that the kernel reads ends in the last block there is
  obtain ⟨size, hread, hle, hlast⟩ : ∃ size,
      ((mount s.finish.disk : State P).dinode n).size = size ∧ size ≤ MAXFILE * BSIZE ∧
        ∀ p < size, p / BSIZE * BSIZE < (text n).length := by
    refine ⟨_, rfl, ?_⟩
    rw [mount_dinode h]
    by_cases hne : n = ROOTINO
    · subst hne
      rw [if_pos rfl]
      show ((inodeAt sb s.disk ROOTINO).size / BSIZE + 1) * BSIZE ≤ _ ∧
        ∀ p < ((inodeAt sb s.disk ROOTINO).size / BSIZE + 1) * BSIZE, _
      rw [hsize]
      simp only [BSIZE] at *
      exact ⟨by omega, fun p hp => by omega⟩
    · rw [if_neg hne, dinode_of_lt hn]
      show (inodeAt sb s.disk n).size ≤ _ ∧ ∀ p < (inodeAt sb s.disk n).size, _
      rw [hsize]
      exact ⟨hshort, fun p hp => lt_of_le_of_lt (Nat.div_mul_le_self p BSIZE) hp⟩
  rw [hread]
  refine ⟨hle, fun p hp => ?_⟩
  rw [mount_addrOf h]
  refine (h.slot_iff hn hpos hlt ?_).mpr (hlast p hp)
  exact Nat.div_lt_of_lt_mul (lt_of_lt_of_le hp (by rwa [Nat.mul_comm]))

/-- The blocks in use are the metadata and the ones some slot refers to. -/
theorem bits_iff (h : Good s text) {P : Type} (hb : b < BSIZE * 8) :
    (mount s.finish.disk : State P).bitmap b = true ↔ b < sb.nmeta ∨ ∃ x,
      addrOf (mount s.finish.disk : State P).dinode (mount s.finish.disk : State P).data x = b ∧
        b ≠ 0 := by
  have hbit : (mount s.finish.disk : State P).bitmap b = decide (b < s.freeblock) := by
    show bitAt (readsb s.finish.disk) s.finish.disk b = _
    rw [readsb_finish h.super, bitAt_finish hb]
  rw [hbit, mount_addrOf h]
  by_cases hin : b < sb.size
  · exact h.own.used_iff b hin
  · have hbelow : s.freeblock ≤ sb.size := h.below
    refine iff_of_false (by rw [decide_eq_true_iff]; omega) ?_
    rintro (hmeta | ⟨x, rfl, hne⟩)
    · exact hin (hmeta.trans (by decide))
    · exact hin (h.own.range x hne).2

theorem own_mount (h : Good s text) {P : Type} :
    Owned (· < sb.nmeta) (· < sb.size)
      (addrOf (mount s.finish.disk : State P).dinode (mount s.finish.disk : State P).data)
      (mount s.finish.disk : State P).bitmap where
  null := h.own.null
  inj := mount_addrOf (P := P) h ▸ h.own.inj
  range := mount_addrOf (P := P) h ▸ h.own.range
  used_iff _ hb := h.bits_iff (lt_of_lt_of_le hb (by decide))

end Good

/-! ## The inodes that mkfs takes

It takes one for the root directory and one for each file, whether there is one or not: with more
files than inodes the image is no longer `Good`, so this is counted on its own. -/

/-- A run of the program takes `k` inodes. -/
def Takes {α : Type} (k : Nat) (x : M α) : Prop :=
  ∀ ⦃s a s'⦄, x.run s = some (a, s') → s'.freeinode = s.freeinode + k

namespace Takes

variable {α β : Type} {j k : Nat} {x : M α} {f : α → M β}

theorem bind (hx : Takes j x) (hf : ∀ a, Takes k (f a)) : Takes (j + k) (x >>= f) := by
  intro s b s' h
  obtain ⟨a, t, hfirst, hrest⟩ := Partial.bind_iff.mp h
  rw [hf a hrest, hx hfirst, Nat.add_assoc]

theorem next (hx : Takes 0 x) (hf : ∀ a, Takes k (f a)) : Takes k (x >>= f) := by
  simpa using hx.bind hf

theorem ret (a : α) : Takes 0 (pure a : M α) := by
  rintro s b s' ⟨⟩
  rfl

theorem fail : Takes k (failure : M α) := by
  rintro s b s' ⟨⟩

theorem wsect (sec : Nat) (buf : Block) : Takes 0 (wsect sec buf) := by
  rintro s b s' ⟨⟩
  rfl

theorem rsect (sec : Nat) : Takes 0 (rsect sec) := by
  intro s b s' h
  rw [Mkfs.rsect, Partial.get_bind] at h
  split at h <;> cases h
  rfl

theorem newBlock : Takes 0 newBlock := by
  rintro s b s' ⟨⟩
  rfl

theorem winode (inum : Nat) (ip : DiskInode) : Takes 0 (winode inum ip) :=
  (rsect _).next fun _ => wsect ..

theorem rinode (inum : Nat) : Takes 0 (rinode inum) := (rsect _).next fun _ => ret _

theorem ialloc (type : Nat) : Takes 1 (ialloc type) := by
  intro s n s' h
  rw [Mkfs.ialloc, Partial.get_bind] at h
  exact (winode _ _).next (fun _ => ret _) h

theorem addr (din : DiskInode) (i : Fin (NDIRECT + 1)) : Takes 0 (addr din i) := by
  rw [Mkfs.addr]
  split
  · exact newBlock.next fun _ => ret _
  · exact ret _

theorem entry (a i : Nat) : Takes 0 (entry a i) := by
  refine (rsect a).next fun entries => ?_
  split
  · exact newBlock.next fun _ => (wsect ..).next fun _ => ret _
  · exact ret _

theorem slot (din : DiskInode) (fbn : Nat) : Takes 0 (slot din fbn) := by
  rw [Mkfs.slot]
  split
  · exact addr ..
  · exact (addr ..).next fun _ => (entry ..).next fun _ => ret _

theorem iappendLoop (fuel : Nat) (din : DiskInode) (off : Nat) (p : List Byte) :
    Takes 0 (iappendLoop fuel din off p) := by
  induction fuel generalizing din off p with
  | zero => exact ret _
  | succ fuel ih =>
    rw [Mkfs.iappendLoop]
    split
    · exact ret _
    · split
      · exact (slot ..).next fun _ => (rsect _).next fun _ => (wsect ..).next fun _ => ih ..
      · exact fail

theorem iappend (inum : Nat) (p : List Byte) : Takes 0 (iappend inum p) :=
  (rinode _).next fun _ => (iappendLoop ..).next fun _ => winode ..

theorem copyLoop (inum fuel : Nat) (src : List Byte) : Takes 0 (copyLoop inum fuel src) := by
  induction fuel generalizing src with
  | zero => exact ret _
  | succ fuel ih =>
    rw [Mkfs.copyLoop]
    split
    · exact ret _
    · exact (iappend ..).next fun _ => ih _

theorem addFiles (rootino : Nat) (files : List Input) :
    Takes files.length (addFiles rootino files) := by
  induction files with
  | nil => exact ret _
  | cons f files ih =>
    have hfile : Takes 1 (addFile rootino f) := by
      rw [addFile]
      split
      · exact fail
      · exact (ialloc 2).bind fun _ => (iappend ..).next fun _ => copyLoop ..
    rw [length_cons, Nat.add_comm]
    exact hfile.bind fun _ => ih

end Takes

theorem mkfs_freeinode {img : Image} (h : mkfs files = some img) :
    img.freeinode = files.length + 2 := by
  obtain ⟨⟨u, _⟩, hrun, rfl⟩ := Option.map_eq_some_iff.mp h
  rw [main_run] at hrun
  have hlast : Takes 0 last := by
    refine (Takes.rinode _).next fun _ => (Takes.winode ..).next fun _ => ?_
    intro s a s' h
    rw [Partial.get_bind, balloc] at h
    split at h
    · exact Takes.wsect _ _ h
    · cases h
  rw [((Takes.iappend ..).next fun _ => (Takes.iappend ..).next fun _ =>
    (Takes.addFiles ..).bind fun _ => hlast) hrun]
  show 2 + _ = _
  omega

/-- Where the entries of the root directory end with a block, its size says one block more. -/
theorem Good.root_short (h : Good s (contents files)) (hlt : ROOTINO < s.freeinode)
    (hlen : files.length ≤ 198) (hround : (files.length + 2) % 32 = 0) {P : Type} :
    ((mount s.finish.disk : State P).dinode ROOTINO).size =
        ((files.length + 2) / 32 + 1) * BSIZE ∧
      addrOf (mount s.finish.disk : State P).dinode (mount s.finish.disk : State P).data
        (ROOTINO, .block ((files.length + 2) / 32)) = 0 := by
  have hlength := contents_root_length files
  constructor
  · rw [mount_dinode h, if_pos rfl]
    show ((inodeAt sb s.disk ROOTINO).size / BSIZE + 1) * BSIZE = _
    rw [(h.holds ROOTINO (by decide)).size, hlength]
    simp only [BSIZE]
    omega
  · rw [mount_addrOf h]
    by_contra hne
    have hmore := (h.slot_iff (by decide) (by decide) hlt (by simp only [MAXFILE]; omega)).mp hne
    rw [hlength] at hmore
    simp only [BSIZE] at hmore
    omega

/-- What the kernel should find: every inode there is has a number the superblock allows, no block
is in two places, the bitmap is right, and every inode has the blocks that its size says. -/
structure Image.Right (img : Image) : Prop where
  ninodes : img.freeinode ≤ sb.ninodes
  super : readsb img.disk = sb
  inodes : ∀ n < sb.ninodes,
    ((mount img.disk : State Unit).dinode n).type ≠ .free ↔ 0 < n ∧ n < img.freeinode
  consistent : Consistent sb (mount img.disk : State Unit)
  bitmap : ∀ b < BSIZE * 8, (mount img.disk : State Unit).bitmap b = true ↔ b < sb.nmeta ∨ ∃ x,
    addrOf (mount img.disk : State Unit).dinode (mount img.disk : State Unit).data x = b ∧ b ≠ 0

/-- **mkfs leaves a consistent image** exactly if there are inodes for all files and the entries of
the root directory do not end with a block. -/
theorem mkfs_image_consistent {img : Image} (h : mkfs files = some img) :
    img.Right ↔ files.length ≤ 198 ∧ (files.length + 2) % 32 ≠ 0 := by
  have hfree := mkfs_freeinode h
  by_cases hlen : files.length ≤ 198
  · obtain ⟨s, hgood, hcount, rfl⟩ := mkfs_inv hlen h
    have hroot := contents_root_length files
    constructor
    · refine fun hright => ⟨hlen, fun hround => ?_⟩
      have hlt : ROOTINO < s.freeinode := by
        rw [hcount]
        exact Nat.lt_add_left _ (by decide)
      obtain ⟨hsize, hnone⟩ := hgood.root_short hlt hlen hround (P := Unit)
      -- the first byte after the entries is in a block that is not there
      refine (hright.consistent.sized ROOTINO ?_).2 (16 * (files.length + 2)) ?_ ?_
      · exact (hright.inodes ROOTINO (by decide)).mpr ⟨by decide, hlt⟩
      · rw [hsize, BSIZE]
        omega
      · have hdiv : 16 * (files.length + 2) / BSIZE = (files.length + 2) / 32 := by
          simp only [BSIZE]
          omega
        rw [hdiv]
        exact hnone
    · rintro ⟨-, hround⟩
      refine ⟨?_, readsb_finish hgood.super, ?_, ⟨hgood.own_mount, hgood.sized ?_ ?_⟩,
        fun b hb => hgood.bits_iff hb⟩
      · rw [hfree]
        show files.length + 2 ≤ 200
        omega
      · intro n hn
        rw [(mount_fields hgood n).1]
        exact hgood.allocated_iff hn
      · rw [hroot]
        simp only [MAXFILE, BSIZE]
        omega
      · rw [hroot]
        simp only [BSIZE]
        omega
  · refine iff_of_false (fun hright => ?_) fun hfew => hlen hfew.1
    have hle : img.freeinode ≤ 200 := hright.ninodes
    omega

/-- A file `a` with the bytes `hi`. -/
def oneFile : List Input := [⟨[97], [104, 105]⟩]

theorem mkfs_image_consistent_oneFile : ∃ img, mkfs oneFile = some img ∧ img.Right := by
  obtain ⟨img, h⟩ : ∃ img, mkfs oneFile = some img :=
    mkfs_run (by decide) (by decide) (by decide) (by decide)
  exact ⟨img, h, (mkfs_image_consistent h).mpr ⟨by decide, by decide⟩⟩

/-- Thirty empty files `A`, `B` and so on. -/
def thirty : List Input := (List.range 30).map fun k => ⟨[BitVec.ofNat 8 (65 + k)], []⟩

/-- With thirty files the entries of the root directory fill one block. Its size is set to two. -/
theorem thirty_no_block : (thirty.map fun f => f.name.take DIRSIZ).Nodup ∧
    ∃ img, mkfs thirty = some img ∧
      ((mount img.disk : State Unit).dinode ROOTINO).size = 2 * BSIZE ∧
      addrOf (mount img.disk : State Unit).dinode (mount img.disk : State Unit).data
        (ROOTINO, .block 1) = 0 := by
  refine ⟨by decide, ?_⟩
  obtain ⟨img, h⟩ : ∃ img, mkfs thirty = some img :=
    mkfs_run (by decide) (by decide) (by decide) (by decide)
  refine ⟨img, h, ?_⟩
  obtain ⟨s, hgood, hcount, rfl⟩ := mkfs_inv (by decide) h
  exact hgood.root_short (by rw [hcount]; decide) (by decide) (by decide)

end Xv6.Mkfs
