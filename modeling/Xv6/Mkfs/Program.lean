import Xv6.Mkfs.Format

/-!
# mkfs

The program that builds the image, on the bytes of the file it writes. It has a result if it exits
with status 0; a failed assertion and a sector that cannot be read end it otherwise. The host is
little-endian, so `xshort` and `xint` change nothing.
-/

namespace Xv6.Mkfs

open Bytes Fs

def NINODES : Nat := 200

/-- `FSSIZE`. -/
def FSSIZE : Nat := 2000

/-- `IPB`, the inodes in a block. -/
def IPB : Nat := BSIZE / 64

def nbitmap : Nat := FSSIZE / (BSIZE * 8) + 1

def ninodeblocks : Nat := NINODES / IPB + 1

def nlog : Nat := Log.LOGSIZE

/-- The number of metadata blocks. -/
def nmeta : Nat := 2 + nlog + ninodeblocks + nbitmap

def nblocks : Nat := FSSIZE - nmeta

def sb : Superblock :=
  ⟨FSSIZE, nblocks, NINODES, 2 + nlog, 2 + nlog + ninodeblocks, by decide⟩

/-- The sectors of the image file, how many it has, and the next free inode and block. -/
structure Image where
  disk : Nat → Block
  sectors : Nat
  freeinode : Nat
  freeblock : Nat

abbrev M (α : Type) : Type := StateT Image Option α

/-! ## Sectors and inodes -/

def wsect (sec : Nat) (buf : Block) : M Unit := modify fun s =>
  { s with disk := Function.update s.disk sec buf, sectors := max s.sectors (sec + 1) }

/-- A sector after the end of the file cannot be read. -/
def rsect (sec : Nat) : M Block := do
  let s ← get
  if sec < s.sectors then return s.disk sec else failure

def winode (inum : Nat) (ip : DiskInode) : M Unit := do
  let buf ← rsect (sb.iblock inum)
  wsect (sb.iblock inum) (DiskInode.put buf (inum % IPB) ip)

def rinode (inum : Nat) : M DiskInode := do
  let buf ← rsect (sb.iblock inum)
  return DiskInode.get buf (inum % IPB)

def ialloc (type : Nat) : M Nat := do
  let s ← get
  set { s with freeinode := s.freeinode + 1 }
  winode s.freeinode { DiskInode.zero with type, nlink := 1 }
  return s.freeinode

/-- `freeblock++`. -/
def newBlock : M Nat := do
  let s ← get
  set { s with freeblock := s.freeblock + 1 }
  return s.freeblock

/-- `buf[i/8] = buf[i/8] | (0x1 << (i%8))`. -/
def setBit (buf : Block) (i : Nat) : Block :=
  Function.update buf (i / 8) (buf (i / 8) ||| (1#8 <<< (i % 8)))

/-- The bitmap, with its first `used` bits set. -/
def balloc (used : Nat) : M Unit :=
  if used < BSIZE * 8 then wsect sb.bmapstart ((List.range used).foldl setBit fun _ => 0)
  else failure

/-! ## Appending to a file -/

/-- The block in `din.addrs[k]`, allocated if there is none, and the inode with its address. -/
def addr (din : DiskInode) (k : Fin (NDIRECT + 1)) : M (DiskInode × Nat) :=
  if din.addrs k = 0 then do
    let x ← newBlock
    return (din.setAddr k x, x)
  else return (din, din.addrs k)

/-- The block in entry `j` of the indirect block `a`, allocated if there is none. -/
def entry (a j : Nat) : M Nat := do
  let entries ← rsect a
  if word entries j = 0 then
    let x ← newBlock
    wsect a (setWord entries j x)
    return x
  else return word entries j

/-- The block for `fbn`, and the inode with its address. -/
def slot (din : DiskInode) (fbn : Nat) : M (DiskInode × Nat) :=
  if fbn < NDIRECT then addr din (directAt fbn)
  else do
    let (din, a) ← addr din indirect
    let x ← entry a (fbn - NDIRECT)
    return (din, x)

/-- The loop of `iappend`, with the offset it has come to. Every round appends at least one byte. -/
def iappendLoop : Nat → DiskInode → Nat → List Byte → M (DiskInode × Nat)
  | 0, din, off, _ => return (din, off)
  | fuel + 1, din, off, p =>
    if p = [] then return (din, off)
    else if off / BSIZE < MAXFILE then do
      let (din, x) ← slot din (off / BSIZE)
      let n := min p.length ((off / BSIZE + 1) * BSIZE - off)
      let buf ← rsect x
      wsect x (splice buf (off - off / BSIZE * BSIZE) (p.take n))
      iappendLoop fuel din (off + n) (p.drop n)
    else failure

def iappend (inum : Nat) (p : List Byte) : M Unit := do
  let din ← rinode inum
  let (din, off) ← iappendLoop p.length din din.size p
  winode inum { din with size := off }

/-! ## The image -/

/-- A file of the command line. -/
structure Input where
  arg : List Byte
  contents : List Byte

/-- The name without a leading `_`. -/
def Input.name (f : Input) : List Byte := if f.arg.head? = some 95 then f.arg.tail else f.arg

/-- Read a file block by block. -/
def copyLoop (inum : Nat) : Nat → List Byte → M Unit
  | 0, _ => return
  | fuel + 1, src =>
    if src = [] then return
    else do
      iappend inum (src.take BSIZE)
      copyLoop inum fuel (src.drop BSIZE)

def addFile (rootino : Nat) (f : Input) : M Unit :=
  if f.arg.contains slash then failure
  else do
    let inum ← ialloc 2
    iappend rootino (direntBytes inum f.name)
    copyLoop inum f.contents.length f.contents

def addFiles (rootino : Nat) : List Input → M Unit
  | [] => return
  | f :: files => do
    addFile rootino f
    addFiles rootino files

/-- All sectors, from `i` on. -/
def zeroLoop : List Nat → M Unit
  | [] => return
  | i :: is => do
    wsect i fun _ => 0
    zeroLoop is

/-- The block with the superblock. -/
def superblock : Block :=
  [FSSIZE, nblocks, NINODES, nlog, 2, 2 + nlog, 2 + nlog + ninodeblocks].zipIdx.foldl
    (fun x v => setWord x v.2 v.1) fun _ => 0

def main (files : List Input) : M Unit := do
  zeroLoop (List.range FSSIZE)
  wsect 1 superblock
  let rootino ← ialloc 1
  if rootino = ROOTINO then
    iappend rootino (direntBytes rootino dot)
    iappend rootino (direntBytes rootino dotdot)
    addFiles rootino files
    -- fix size of root inode dir
    let din ← rinode rootino
    winode rootino { din with size := (din.size / BSIZE + 1) * BSIZE }
    let s ← get
    balloc s.freeblock
  else failure

/-- The image that mkfs leaves, if it exits with status 0. -/
def mkfs (files : List Input) : Option Image :=
  ((main files).run ⟨fun _ _ => 0, 0, 1, nmeta⟩).map Prod.snd

end Xv6.Mkfs
