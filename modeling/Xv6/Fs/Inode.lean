import Xv6.Common.Bytes
import Xv6.Common.Partial
import Xv6.Common.Word

/-!
# Blocks and inodes

The file system of `fs.c` up to inodes: the block allocator, the inode table and its cache, and the
content of an inode. One system call runs after the other here, so locks are not modelled; `ilock`
is the part of it that reads the inode from the disk. A program that panics has no result.

Data and indirect blocks are bytes. Bitmap blocks and inode blocks are shown decoded, as a bit for
each block and a `Dinode` for each inode number. There is one device.

`logged` collects the blocks passed to `log_write` since the last `begin_op`, and `sections` what
each `begin_op` / `end_op` section has logged.
-/

namespace Xv6.Fs

open Bytes
open Function (update)

/-- `BSIZE`. -/
abbrev BSIZE : Nat := 512

/-- `NDIRECT`. -/
abbrev NDIRECT : Nat := 12

/-- `NINDIRECT`. -/
abbrev NINDIRECT : Nat := 128

/-- `MAXFILE`. -/
abbrev MAXFILE : Nat := 140

/-- `NINODE`. -/
abbrev NINODE : Nat := 50

instance : NeZero NINODE := ⟨by decide⟩

/-- `NFILE`. -/
abbrev NFILE : Nat := 100

/-- `NOFILE`. -/
abbrev NOFILE : Nat := 16

/-- `struct superblock`, but for the fields only the log uses. Its entries are `uint`s. -/
structure Superblock where
  size : Nat
  nblocks : Nat
  ninodes : Nat
  inodestart : Nat
  bmapstart : Nat
  size_lt : size < 2 ^ 32

namespace Superblock

/-- The number of metadata blocks, which come first. -/
def nmeta (sb : Superblock) : Nat := sb.size - sb.nblocks

/-- `IBLOCK`; there are `IPB` = 8 inodes in a block. -/
def iblock (sb : Superblock) (inum : Nat) : Nat := inum / 8 + sb.inodestart

/-- `BBLOCK`; there are `BPB` = 4096 bits in a block. -/
def bblock (sb : Superblock) (b : Nat) : Nat := b / 4096 + sb.bmapstart

end Superblock

/-! ## Blocks of data -/

/-- A block of `BSIZE` bytes. -/
abbrev Block := Nat → Byte

/-- `((uint*)data)[j]`. -/
def word (x : Block) (j : Nat) : Nat :=
  (x (4 * j)).toNat + 256 * (x (4 * j + 1)).toNat + 65536 * (x (4 * j + 2)).toNat +
    16777216 * (x (4 * j + 3)).toNat

/-- Store `v` in `((uint*)data)[j]`. -/
def setWord (x : Block) (j v : Nat) : Block := fun o =>
  if o / 4 = j then BitVec.ofNat 8 (v / 256 ^ (o % 4)) else x o

/-- Copy `src` into the block at offset `o`. -/
def splice (x : Block) (o : Nat) (src : List Byte) : Block := fun k =>
  if o ≤ k ∧ k < o + src.length then src.getD (k - o) 0 else x k

@[simp] theorem word_zero (j : Nat) : word (fun _ => 0) j = 0 := rfl

theorem word_setWord {x : Block} {j v : Nat} (h : v < 2 ^ 32) : word (setWord x j v) j = v := by
  have h0 : 4 * j / 4 = j := by omega
  have h1 : (4 * j + 1) / 4 = j := by omega
  have h2 : (4 * j + 2) / 4 = j := by omega
  have h3 : (4 * j + 3) / 4 = j := by omega
  have m0 : 4 * j % 4 = 0 := by omega
  have m1 : (4 * j + 1) % 4 = 1 := by omega
  have m2 : (4 * j + 2) % 4 = 2 := by omega
  have m3 : (4 * j + 3) % 4 = 3 := by omega
  simp only [word, setWord, h0, h1, h2, h3, m0, m1, m2, m3, if_true, BitVec.toNat_ofNat]
  omega

theorem word_setWord_ne {x : Block} {i j v : Nat} (h : i ≠ j) :
    word (setWord x j v) i = word x i := by
  have h0 : 4 * i / 4 ≠ j := by omega
  have h1 : (4 * i + 1) / 4 ≠ j := by omega
  have h2 : (4 * i + 2) / 4 ≠ j := by omega
  have h3 : (4 * i + 3) / 4 ≠ j := by omega
  simp only [word, setWord, if_neg h0, if_neg h1, if_neg h2, if_neg h3]

/-! ## Inodes -/

/-- The type of an inode; a free one has type 0. -/
inductive IType where
  | free
  | dir
  | file
  | dev
  deriving DecidableEq

/-- `struct dinode`, and what `struct inode` copies of it. -/
structure Dinode where
  type : IType
  major : Int
  minor : Int
  nlink : Int
  size : Nat
  addrs : Fin (NDIRECT + 1) → Nat

/-- An inode that is all zeroes. -/
def Dinode.zero : Dinode := ⟨.free, 0, 0, 0, 0, fun _ => 0⟩

/-- The place of `addrs[NDIRECT]`. -/
abbrev indirect : Fin (NDIRECT + 1) := 12

/-- `addrs[bn]`, for `bn` below `NDIRECT`. -/
abbrev directAt (bn : Nat) : Fin (NDIRECT + 1) := Fin.ofNat _ bn

theorem neZero_NINDIRECT : NeZero NINDIRECT := ⟨by decide⟩

/-- Entry `j` of the indirect block. -/
abbrev entryAt (j : Nat) : Fin NINDIRECT := @Fin.ofNat NINDIRECT neZero_NINDIRECT j

/-- `struct inode`. `valid` is the flag `I_VALID`. -/
structure Inode where
  inum : Nat
  ref : Nat
  valid : Bool
  din : Dinode

/-- What a `struct file` refers to. A pipe is named by the page it is in. -/
inductive FileType where
  | none
  | pipe (pi : Nat)
  | inode (ip : Fin NINODE)
  deriving DecidableEq

/-- `struct file`. -/
structure File where
  ref : Nat
  type : FileType
  off : Nat
  readable : Bool
  writable : Bool

/-- `struct pipe`, but for the bytes in it. -/
structure Ends where
  readopen : Bool
  writeopen : Bool

/-- The disk, the tables of inodes and files, the pipes, and the processes `P`; the ones that are
there have a current directory. A page that is not a pipe is `none`. -/
structure State (P : Type) where
  bitmap : Nat → Bool
  dinode : Nat → Dinode
  data : Nat → Block
  inode : Fin NINODE → Inode
  file : Fin NFILE → File
  pipe : Nat → Option Ends
  cwd : P → Option (Fin NINODE)
  ofile : P → Fin NOFILE → Option (Fin NFILE)
  logged : List Nat
  sections : List (List Nat)

/-- Programs. -/
abbrev M (P : Type) (α : Type) : Type := StateT (State P) Option α

variable {P : Type}

/-- Panic. -/
def panic {α : Type} : M P α := failure

namespace State

/-- Store inode table entry `i`. -/
def setInode (s : State P) (i : Fin NINODE) (ip : Inode) : State P :=
  { s with inode := update s.inode i ip }

/-- Store the copy of the disk inode in entry `i`. -/
def setDin (s : State P) (i : Fin NINODE) (din : Dinode) : State P :=
  s.setInode i { s.inode i with din }

/-- Store data block `b`. -/
def setData (s : State P) (b : Nat) (x : Block) : State P :=
  { s with data := update s.data b x }

/-- Store the bit of block `b`. -/
def setBit (s : State P) (b : Nat) (used : Bool) : State P :=
  { s with bitmap := update s.bitmap b used }

end State

/-! ## The log -/

def beginOp : M P Unit := modify fun s => { s with logged := [] }

def endOp : M P Unit := modify fun s => { s with sections := s.sections ++ [s.logged] }

def logWrite (b : Nat) : M P Unit := modify fun s => { s with logged := b :: s.logged }

section

variable (sb : Superblock)

/-! ## The block allocator -/

def bzero (b : Nat) : M P Unit := do
  modify fun s => s.setData b fun _ => 0
  logWrite b

/-- `balloc` takes the first block whose bit is clear. -/
def balloc : M P Nat := do
  let s ← get
  match (List.range sb.size).find? fun b => !s.bitmap b with
  | none => panic
  | some b =>
    modify fun s => s.setBit b true
    logWrite (sb.bblock b)
    bzero b
    return b

def bfree (b : Nat) : M P Unit := do
  let s ← get
  if s.bitmap b then
    modify fun s => s.setBit b false
    logWrite (sb.bblock b)
  else panic

/-! ## The inode table -/

/-- `iget` finds the inode in the cache, or takes the first entry that is free. -/
def iget (inum : Nat) : M P (Fin NINODE) := do
  let s ← get
  match (List.finRange NINODE).find? fun i => 0 < (s.inode i).ref ∧ (s.inode i).inum = inum with
  | some i =>
    modify fun s => s.setInode i { s.inode i with ref := (s.inode i).ref + 1 }
    return i
  | none =>
    match (List.finRange NINODE).find? fun i => (s.inode i).ref = 0 with
    | some i =>
      modify fun s => s.setInode i { s.inode i with inum, ref := 1, valid := false }
      return i
    | none => panic

def idup (i : Fin NINODE) : M P (Fin NINODE) := do
  modify fun s => s.setInode i { s.inode i with ref := (s.inode i).ref + 1 }
  return i

/-- `ialloc` takes the first free inode from 1 on. -/
def ialloc (type : IType) : M P (Fin NINODE) := do
  let s ← get
  match (List.range' 1 (sb.ninodes - 1)).find? fun inum => (s.dinode inum).type = .free with
  | none => panic
  | some inum =>
    modify fun s =>
      { s with dinode := update s.dinode inum { Dinode.zero with type } }
    logWrite (sb.iblock inum)
    iget inum

def iupdate (i : Fin NINODE) : M P Unit := do
  let s ← get
  modify fun s =>
    { s with dinode := update s.dinode (s.inode i).inum (s.inode i).din }
  logWrite (sb.iblock (s.inode i).inum)

def ilock (i : Fin NINODE) : M P Unit := do
  let s ← get
  if (s.inode i).ref < 1 then panic
  else if (s.inode i).valid then return
  else
    modify fun s =>
      s.setInode i { s.inode i with valid := true, din := s.dinode (s.inode i).inum }
    if (s.dinode (s.inode i).inum).type = .free then panic

/-! ## The content of an inode -/

/-- The block for `addrs[k]`, allocated if there is none. -/
def bmapAddr (i : Fin NINODE) (k : Fin (NDIRECT + 1)) : M P Nat := do
  let s ← get
  if (s.inode i).din.addrs k = 0 then
    let addr ← balloc sb
    modify fun s =>
      s.setDin i { (s.inode i).din with addrs := update (s.inode i).din.addrs k addr }
    return addr
  else return (s.inode i).din.addrs k

/-- The block for entry `j` of the indirect block `a`, allocated if there is none. -/
def bmapEntry (a j : Nat) : M P Nat := do
  let s ← get
  if word (s.data a) j = 0 then
    let addr ← balloc sb
    modify fun s => s.setData a (setWord (s.data a) j addr)
    logWrite a
    return addr
  else return word (s.data a) j

def bmap (i : Fin NINODE) (bn : Nat) : M P Nat :=
  if bn < NDIRECT then bmapAddr sb i (Fin.ofNat _ bn)
  else if bn - NDIRECT < NINDIRECT then do
    let a ← bmapAddr sb i indirect
    bmapEntry sb a (bn - NDIRECT)
  else panic

/-- The direct blocks, freed one after the other. -/
def itruncDirect (i : Fin NINODE) : List (Fin (NDIRECT + 1)) → M P Unit
  | [] => return
  | k :: ks => do
    let s ← get
    if (s.inode i).din.addrs k ≠ 0 then
      bfree sb ((s.inode i).din.addrs k)
      modify fun s =>
        s.setDin i { (s.inode i).din with addrs := update (s.inode i).din.addrs k 0 }
    itruncDirect i ks

/-- The blocks an indirect block `x` lists. -/
def itruncEntries (x : Block) : List Nat → M P Unit
  | [] => return
  | j :: js => do
    if word x j ≠ 0 then bfree sb (word x j)
    itruncEntries x js

def itrunc (i : Fin NINODE) : M P Unit := do
  itruncDirect sb i ((List.finRange (NDIRECT + 1)).take NDIRECT)
  let s ← get
  if (s.inode i).din.addrs indirect ≠ 0 then
    itruncEntries sb (s.data ((s.inode i).din.addrs indirect)) (List.range NINDIRECT)
    bfree sb ((s.inode i).din.addrs indirect)
    modify fun s =>
      s.setDin i { (s.inode i).din with addrs := update (s.inode i).din.addrs indirect 0 }
  modify fun s => s.setDin i { (s.inode i).din with size := 0 }
  iupdate sb i

/-- `iput` frees an inode that has no links when its last reference goes. -/
def iput (i : Fin NINODE) : M P Unit := do
  let s ← get
  if (s.inode i).ref = 1 ∧ (s.inode i).valid ∧ (s.inode i).din.nlink = 0 then
    itrunc sb i
    modify fun s => s.setDin i { (s.inode i).din with type := .free }
    iupdate sb i
    modify fun s => s.setInode i { s.inode i with valid := false }
  modify fun s => s.setInode i { s.inode i with ref := (s.inode i).ref - 1 }

/-- The loop of `readi`. Every round reads up to the end of a block, so `fuel` = `n` rounds are
enough. -/
def readiLoop (i : Fin NINODE) : Nat → Nat → Nat → M P (List Byte)
  | 0, _, _ => return []
  | fuel + 1, off, n =>
    if n = 0 then return []
    else do
      let addr ← bmap sb i (off / BSIZE)
      let s ← get
      let m := min n (BSIZE - off % BSIZE)
      let chunk := (List.range m).map fun k => s.data addr (off % BSIZE + k)
      let rest ← readiLoop i fuel (off + m) (n - m)
      return chunk ++ rest

/-- `readi` of an inode that is not a device; `none` is -1. `off` and `n` are `uint`s. -/
def readi (i : Fin NINODE) (off n : Nat) : M P (Option (List Byte)) := do
  let s ← get
  let size := (s.inode i).din.size
  if size < off ∨ (off + n) % 2 ^ 32 < off then return none
  else
    let n := if size < (off + n) % 2 ^ 32 then size - off else n
    let bytes ← readiLoop sb i n off n
    return some bytes

/-- The loop of `writei`. -/
def writeiLoop (i : Fin NINODE) : Nat → Nat → List Byte → M P Unit
  | 0, _, _ => return
  | fuel + 1, off, src =>
    if src = [] then return
    else do
      let addr ← bmap sb i (off / BSIZE)
      let m := min src.length (BSIZE - off % BSIZE)
      modify fun s => s.setData addr (splice (s.data addr) (off % BSIZE) (src.take m))
      logWrite addr
      writeiLoop i fuel (off + m) (src.drop m)

/-- `CONSOLE`, the only device that can be written. -/
def CONSOLE : Int := 1

/-- `writei` of `n` bytes; `none` is -1. -/
def writei (i : Fin NINODE) (off : Nat) (src : List Byte) : M P (Option Nat) := do
  let s ← get
  let n := src.length
  if (s.inode i).din.type = .dev then
    return if (s.inode i).din.major = CONSOLE then some n else none
  else if (s.inode i).din.size < off ∨ (off + n) % 2 ^ 32 < off then return none
  else if MAXFILE * BSIZE < (off + n) % 2 ^ 32 then return none
  else
    writeiLoop sb i n off src
    if 0 < n ∧ (s.inode i).din.size < off + n then
      modify fun s => s.setDin i { (s.inode i).din with size := off + n }
      iupdate sb i
    return some n

end

end Xv6.Fs
