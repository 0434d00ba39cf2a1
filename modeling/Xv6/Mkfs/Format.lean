import Xv6.Fs.Syscall

/-!
# The format of the disk

`fs.h` as bytes: the superblock, the inodes packed eight to a block, and the bitmap. Both sides of
the format use it: mkfs.c writes it, and the kernel sees it as the disk of a `State` (`mount`).
Numbers are little-endian.
-/

namespace Xv6.Mkfs

open Bytes Fs

/-- Byte `i` of a number. -/
def digit (v i : Nat) : Byte := BitVec.ofNat 8 (v / 256 ^ i)

/-- `((ushort*)data)[j]`. -/
def half (x : Block) (j : Nat) : Nat := (x (2 * j)).toNat + 256 * (x (2 * j + 1)).toNat

theorem half_of_digits {x : Block} {j v : Nat} (h : ∀ i < 2, x (2 * j + i) = digit v i)
    (hv : v < 2 ^ 16) : half x j = v := by
  have h0 := h 0 (by omega)
  have h1 := h 1 (by omega)
  rw [Nat.add_zero] at h0
  simp only [half, h0, h1, digit, BitVec.toNat_ofNat]
  omega

theorem word_of_digits {x : Block} {j v : Nat} (h : ∀ i < 4, x (4 * j + i) = digit v i)
    (hv : v < 2 ^ 32) : word x j = v := by
  have h0 := h 0 (by omega)
  have h1 := h 1 (by omega)
  have h2 := h 2 (by omega)
  have h3 := h 3 (by omega)
  rw [Nat.add_zero] at h0
  simp only [word, h0, h1, h2, h3, digit, BitVec.toNat_ofNat]
  omega

theorem word_lt (x : Block) (j : Nat) : word x j < 2 ^ 32 := by
  have h0 := (x (4 * j)).isLt
  have h1 := (x (4 * j + 1)).isLt
  have h2 := (x (4 * j + 2)).isLt
  have h3 := (x (4 * j + 3)).isLt
  unfold word
  omega

/-! ## Inodes -/

/-- `struct dinode`, with its numbers as they are stored. -/
structure DiskInode where
  type : Nat
  major : Nat
  minor : Nat
  nlink : Nat
  size : Nat
  addrs : Fin (NDIRECT + 1) → Nat

namespace DiskInode

/-- After `bzero`. -/
def zero : DiskInode := ⟨0, 0, 0, 0, 0, fun _ => 0⟩

/-- Store `x` in `addrs[k]`. -/
def setAddr (d : DiskInode) (k : Fin (NDIRECT + 1)) (x : Nat) : DiskInode :=
  { d with addrs := Function.update d.addrs k x }

theorem setAddr_self (d : DiskInode) (k : Fin (NDIRECT + 1)) (x : Nat) :
    (d.setAddr k x).addrs k = x :=
  Function.update_self ..

theorem setAddr_of_ne {j k : Fin (NDIRECT + 1)} (h : j ≠ k) (d : DiskInode) (x : Nat) :
    (d.setAddr k x).addrs j = d.addrs j :=
  Function.update_of_ne h ..

/-- The numbers fit in their fields. -/
structure Fits (d : DiskInode) : Prop where
  type : d.type < 2 ^ 16
  major : d.major < 2 ^ 16
  minor : d.minor < 2 ^ 16
  nlink : d.nlink < 2 ^ 16
  size : d.size < 2 ^ 32
  addrs : ∀ k, d.addrs k < 2 ^ 32

/-- Byte `o` of the struct. -/
def byte (d : DiskInode) (o : Nat) : Byte :=
  if o < 2 then digit d.type o
  else if o < 4 then digit d.major (o - 2)
  else if o < 6 then digit d.minor (o - 4)
  else if o < 8 then digit d.nlink (o - 6)
  else if o < 12 then digit d.size (o - 8)
  else digit (d.addrs (directAt ((o - 12) / 4))) ((o - 12) % 4)

/-- `((struct dinode*)buf)[k]`. -/
def get (x : Block) (k : Nat) : DiskInode where
  type := half x (32 * k)
  major := half x (32 * k + 1)
  minor := half x (32 * k + 2)
  nlink := half x (32 * k + 3)
  size := word x (16 * k + 2)
  addrs i := word x (16 * k + 3 + i)

/-- Store `d` in `((struct dinode*)buf)[k]`. -/
def put (x : Block) (k : Nat) (d : DiskInode) : Block := fun o =>
  if o / 64 = k then d.byte (o % 64) else x o

theorem put_at (x : Block) (k : Nat) (d : DiskInode) {o : Nat} (ho : o < 64) :
    put x k d (64 * k + o) = d.byte o := by
  have hdiv : (64 * k + o) / 64 = k := by omega
  have hmod : (64 * k + o) % 64 = o := by omega
  simp only [put, if_pos hdiv, hmod]

theorem get_put {d : DiskInode} (h : d.Fits) (x : Block) (k : Nat) : get (put x k d) k = d := by
  have hhalf (j : Nat) (v : Nat) (hj : j < 4) (hv : v < 2 ^ 16)
      (hbyte : ∀ i < 2, d.byte (2 * j + i) = digit v i) : half (put x k d) (32 * k + j) = v := by
    refine half_of_digits (fun i hi => ?_) hv
    rw [← hbyte i hi, ← put_at x k d (by omega : 2 * j + i < 64)]
    congr 1
    omega
  have hword (j : Nat) (v : Nat) (hj : j < 16) (hv : v < 2 ^ 32)
      (hbyte : ∀ i < 4, d.byte (4 * j + i) = digit v i) : word (put x k d) (16 * k + j) = v := by
    refine word_of_digits (fun i hi => ?_) hv
    rw [← hbyte i hi, ← put_at x k d (by omega : 4 * j + i < 64)]
    congr 1
    omega
  obtain ⟨type, major, minor, nlink, size, addrs⟩ := d
  simp only [get, mk.injEq]
  refine ⟨?_, ?_, ?_, ?_, ?_, funext fun i => ?_⟩
  · refine hhalf 0 _ (by omega) h.type fun i hi => ?_
    simp only [byte, Nat.mul_zero, Nat.zero_add, if_pos hi]
  · refine hhalf 1 _ (by omega) h.major fun i hi => ?_
    simp [byte, show ¬ 2 * 1 + i < 2 by omega, show 2 * 1 + i < 4 by omega]
  · refine hhalf 2 _ (by omega) h.minor fun i hi => ?_
    simp [byte, show ¬ 2 * 2 + i < 2 by omega, show ¬ 2 * 2 + i < 4 by omega,
      show 2 * 2 + i < 6 by omega]
  · refine hhalf 3 _ (by omega) h.nlink fun i hi => ?_
    simp [byte, show ¬ 2 * 3 + i < 2 by omega, show ¬ 2 * 3 + i < 4 by omega,
      show ¬ 2 * 3 + i < 6 by omega, show 2 * 3 + i < 8 by omega]
  · refine hword 2 _ (by omega) h.size fun i hi => ?_
    simp [byte, show ¬ 4 * 2 + i < 2 by omega, show ¬ 4 * 2 + i < 4 by omega,
      show ¬ 4 * 2 + i < 6 by omega, show ¬ 4 * 2 + i < 8 by omega, show 4 * 2 + i < 12 by omega]
  · have hi : i.val < 13 := i.isLt
    rw [Nat.add_assoc]
    refine hword (3 + i) _ (by omega) (h.addrs i) fun o ho => ?_
    have hpos : (4 * (3 + i.val) + o - 12) / 4 = i := by omega
    have hmod : (4 * (3 + i.val) + o - 12) % 4 = o := by omega
    simp only [byte, show ¬ 4 * (3 + i.val) + o < 2 by omega,
      show ¬ 4 * (3 + i.val) + o < 4 by omega, show ¬ 4 * (3 + i.val) + o < 6 by omega,
      show ¬ 4 * (3 + i.val) + o < 8 by omega, show ¬ 4 * (3 + i.val) + o < 12 by omega, if_false,
      hpos, hmod, directAt, Fin.ofNat_val_eq_self]

theorem get_put_of_ne {d : DiskInode} {x : Block} {j k : Nat} (h : j ≠ k) :
    get (put x k d) j = get x j := by
  have hbyte (o : Nat) (ho : o < 64) : put x k d (64 * j + o) = x (64 * j + o) := by
    have hdiv : (64 * j + o) / 64 ≠ k := by omega
    simp only [put, if_neg hdiv]
  have hhalf (i : Nat) (hi : i < 4) : half (put x k d) (32 * j + i) = half x (32 * j + i) := by
    have h0 := hbyte (2 * i) (by omega)
    have h1 := hbyte (2 * i + 1) (by omega)
    simp only [half, show 2 * (32 * j + i) = 64 * j + 2 * i by omega, Nat.add_assoc, h0, h1]
  have hword (i : Nat) (hi : i < 16) : word (put x k d) (16 * j + i) = word x (16 * j + i) := by
    have h0 := hbyte (4 * i) (by omega)
    have h1 := hbyte (4 * i + 1) (by omega)
    have h2 := hbyte (4 * i + 2) (by omega)
    have h3 := hbyte (4 * i + 3) (by omega)
    simp only [word, show 4 * (16 * j + i) = 64 * j + 4 * i by omega, Nat.add_assoc, h0, h1, h2, h3]
  simp only [get, mk.injEq]
  refine ⟨hhalf 0 (by omega), hhalf 1 (by omega), hhalf 2 (by omega), hhalf 3 (by omega),
    hword 2 (by omega), funext fun i => ?_⟩
  have hi : i.val < 13 := i.isLt
  rw [Nat.add_assoc]
  exact hword (3 + i) (by omega)

/-- The inode as the kernel reads it. A type that is not in `stat.h` is taken for a file's. -/
def toDinode (d : DiskInode) : Dinode where
  type := match d.type with
    | 0 => .free
    | 1 => .dir
    | 3 => .dev
    | _ => .file
  major := i16 d.major
  minor := i16 d.minor
  nlink := i16 d.nlink
  size := d.size
  addrs := d.addrs

end DiskInode

/-! ## What the kernel sees -/

/-- `readsb`. -/
def readsb (disk : Nat → Block) : Superblock where
  size := word (disk 1) 0
  nblocks := word (disk 1) 1
  ninodes := word (disk 1) 2
  inodestart := word (disk 1) 5
  bmapstart := word (disk 1) 6
  size_lt := word_lt (disk 1) 0

/-- Inode `n` on a disk with this superblock. -/
def inodeAt (sb : Superblock) (disk : Nat → Block) (n : Nat) : DiskInode :=
  DiskInode.get (disk (sb.iblock n)) (n % 8)

/-- The bit of block `b`. -/
def bitAt (sb : Superblock) (disk : Nat → Block) (b : Nat) : Bool :=
  (disk (sb.bblock b) (b % 4096 / 8)).getLsbD (b % 8)

/-- The kernel with this disk, before anything has been read from it. There are `ninodes` inodes. -/
def mount {P : Type} (disk : Nat → Block) : State P where
  bitmap := bitAt (readsb disk) disk
  dinode n := if n < (readsb disk).ninodes then (inodeAt (readsb disk) disk n).toDinode
    else Dinode.zero
  data := disk
  inode _ := ⟨0, 0, false, Dinode.zero⟩
  file _ := ⟨0, .none, 0, false, false⟩
  pipe _ := none
  cwd _ := none
  ofile _ _ := none
  logged := []
  sections := []

end Xv6.Mkfs
