import Xv6.Fs.Inode
import Xv6.Log.Machine

/-!
# Directories, paths and system calls

The upper half of `fs.c`, `file.c` and `sysfile.c`. A path is the bytes of a C string without the
final 0, and a name has at most `DIRSIZ` of them. The bytes in a pipe, and what a device reads, are
left out.

An event of the machine is a system call that runs to its end. The tables of open files and current
directories of the processes are the ones `fork` and `exit` keep.
-/

namespace Xv6.Fs

open Bytes
open Function (update)

/-- `DIRSIZ`. -/
abbrev DIRSIZ : Nat := 14

/-- `ROOTINO`. -/
abbrev ROOTINO : Nat := 1

/-- The C string in the first `DIRSIZ` bytes. `namecmp` compares these. -/
def cname (bytes : List Byte) : List Byte := (bytes.take DIRSIZ).takeWhile (· ≠ 0)

/-- The `struct dirent` in 16 bytes: inode number and name. -/
def dirent (bytes : List Byte) : Nat × List Byte :=
  ((bytes.getD 0 0).toNat + 256 * (bytes.getD 1 0).toNat, cname (bytes.drop 2))

/-- The bytes of a `struct dirent`; `inum` is stored in a `ushort`, and `strncpy` pads the name. -/
def direntBytes (inum : Nat) (name : List Byte) : List Byte :=
  [BitVec.ofNat 8 inum, BitVec.ofNat 8 (inum / 256)] ++ cname name ++
    List.replicate (DIRSIZ - (cname name).length) 0

def slash : Byte := 47

def dot : List Byte := [46]

def dotdot : List Byte := [46, 46]

/-- `skipelem`: the next element of a path, and the path after it. -/
def skipelem (path : List Byte) : Option (List Byte × List Byte) :=
  let path := path.dropWhile (· = slash)
  if path = [] then none
  else some ((path.takeWhile (· ≠ slash)).take DIRSIZ,
    (path.dropWhile (· ≠ slash)).dropWhile (· = slash))

section

variable {P : Type} (sb : Superblock)

/-! ## Directories -/

/-- The offsets of the entries of a directory of this size. -/
def offsets (size : Nat) : List Nat := (List.range ((size + 15) / 16)).map (16 * ·)

def readDirent (dp : Fin NINODE) (off : Nat) : M P (Nat × List Byte) := do
  match ← readi sb dp off 16 with
  | some bytes => if bytes.length = 16 then return dirent bytes else panic
  | none => panic

def dirlookupLoop (dp : Fin NINODE) (name : List Byte) :
    List Nat → M P (Option (Nat × Fin NINODE))
  | [] => return none
  | off :: offs => do
    let de ← readDirent sb dp off
    if de.1 ≠ 0 ∧ cname name = de.2 then
      let ip ← iget de.1
      return some (off, ip)
    else dirlookupLoop dp name offs

/-- `dirlookup`: the offset of the entry, and its inode. -/
def dirlookup (dp : Fin NINODE) (name : List Byte) : M P (Option (Nat × Fin NINODE)) := do
  let s ← get
  if (s.inode dp).din.type = .dir then dirlookupLoop sb dp name (offsets (s.inode dp).din.size)
  else panic

/-- The offset of the first empty entry, or the end. -/
def emptyLoop (dp : Fin NINODE) (last : Nat) : List Nat → M P Nat
  | [] => return last
  | off :: offs => do
    let de ← readDirent sb dp off
    if de.1 = 0 then return off else emptyLoop dp last offs

/-- `dirlink`; `false` is -1. -/
def dirlink (dp : Fin NINODE) (name : List Byte) (inum : Nat) : M P Bool := do
  match ← dirlookup sb dp name with
  | some (_, ip) =>
    iput sb ip
    return false
  | none =>
    let s ← get
    let size := (s.inode dp).din.size
    let off ← emptyLoop sb dp (16 * ((size + 15) / 16)) (offsets size)
    match ← writei sb dp off (direntBytes inum name) with
    | some 16 => return true
    | _ => panic

/-! ## Paths -/

/-- The loop of `namex`, with the directory it has come to. Every round takes away some of the
path. -/
def namexLoop (parent : Bool) : Nat → Fin NINODE → List Byte →
    M P (Option (Fin NINODE × List Byte))
  | 0, _, _ => panic
  | fuel + 1, ip, path =>
    match skipelem path with
    | none => do
      if parent then
        iput sb ip
        return none
      else return some (ip, [])
    | some (name, rest) => do
      ilock ip
      let s ← get
      if (s.inode ip).din.type ≠ .dir then
        iput sb ip
        return none
      else if parent = true ∧ rest = [] then return some (ip, name)
      else
        match ← dirlookup sb ip name with
        | none =>
          iput sb ip
          return none
        | some (_, next) =>
          iput sb ip
          namexLoop parent fuel next rest

/-- `namex` for process `p`. -/
def namex (p : P) (parent : Bool) (path : List Byte) : M P (Option (Fin NINODE × List Byte)) := do
  let s ← get
  let ip ← if path.head? = some slash then iget ROOTINO
    else match s.cwd p with
      | some cwd => idup cwd
      | none => panic
  namexLoop sb parent (path.length + 1) ip path

def namei (p : P) (path : List Byte) : M P (Option (Fin NINODE)) := do
  return (← namex sb p false path).map Prod.fst

def nameiparent (p : P) (path : List Byte) : M P (Option (Fin NINODE × List Byte)) :=
  namex sb p true path

/-! ## Open files -/

def setFile (f : Fin NFILE) (x : File) : M P Unit :=
  modify fun s => { s with file := update s.file f x }

def filealloc : M P (Option (Fin NFILE)) := do
  let s ← get
  match (List.finRange NFILE).find? fun f => (s.file f).ref = 0 with
  | some f =>
    setFile f { s.file f with ref := 1 }
    return some f
  | none => return none

def filedup (f : Fin NFILE) : M P Unit := do
  let s ← get
  if (s.file f).ref < 1 then panic
  else setFile f { s.file f with ref := (s.file f).ref + 1 }

def setPipe (pi : Nat) (x : Option Ends) : M P Unit :=
  modify fun s => { s with pipe := update s.pipe pi x }

/-- `pipeclose`; the page of a pipe with both ends closed is freed. -/
def pipeclose (pi : Nat) (writable : Bool) : M P Unit := do
  let s ← get
  match s.pipe pi with
  | none => panic
  | some x =>
    let x := if writable then { x with writeopen := false } else { x with readopen := false }
    setPipe pi (if x.readopen = false ∧ x.writeopen = false then none else some x)

def fileclose (f : Fin NFILE) : M P Unit := do
  let s ← get
  if (s.file f).ref < 1 then panic
  else if 1 < (s.file f).ref then setFile f { s.file f with ref := (s.file f).ref - 1 }
  else
    setFile f { s.file f with ref := 0, type := .none }
    match (s.file f).type with
    | .pipe pi => pipeclose pi (s.file f).writable
    | .inode ip =>
      beginOp
      iput sb ip
      endOp
    | .none => return

/-- The most that `filewrite` writes in one section. -/
def maxChunk : Nat := (Log.LOGSIZE - 1 - 1 - 2) / 2 * 512

/-- One section of `filewrite`; `none` is -1. -/
def filewriteChunk (f : Fin NFILE) (ip : Fin NINODE) (src : List Byte) : M P (Option Nat) := do
  beginOp
  ilock ip
  let s ← get
  let r ← writei sb ip (s.file f).off src
  match r with
  | some n =>
    let s ← get
    setFile f { s.file f with off := ((s.file f).off + n) % 2 ^ 32 }
  | none => pure ()
  endOp
  return r

/-- The loop of `filewrite`; `false` when a section fails. Every round writes at least one byte. -/
def filewriteLoop (f : Fin NFILE) (ip : Fin NINODE) : Nat → List Byte → M P Bool
  | 0, _ => return true
  | fuel + 1, src =>
    if src = [] then return true
    else do
      match ← filewriteChunk sb f ip (src.take maxChunk) with
      | none => return false
      | some n =>
        if n = (src.take maxChunk).length then filewriteLoop f ip fuel (src.drop maxChunk)
        else panic

/-- `filewrite`. Writing to a pipe is not a call of this machine. -/
def filewrite (f : Fin NFILE) (src : List Byte) : M P Int := do
  let s ← get
  if (s.file f).writable = false then return -1
  else
    match (s.file f).type with
    | .inode ip =>
      if ← filewriteLoop sb f ip src.length src then return src.length else return -1
    | .pipe _ | .none => panic

/-! ## System calls -/

def argfd (p : P) (fd : Fin NOFILE) : M P (Option (Fin NFILE)) := do
  let s ← get
  return s.ofile p fd

variable [DecidableEq P]

def setOfile (p : P) (fd : Fin NOFILE) (f : Option (Fin NFILE)) : M P Unit :=
  modify fun s =>
    { s with ofile := update s.ofile p (update (s.ofile p) fd f) }

def setCwd (p : P) (cwd : Option (Fin NINODE)) : M P Unit :=
  modify fun s => { s with cwd := update s.cwd p cwd }

def fdalloc (p : P) (f : Fin NFILE) : M P (Option (Fin NOFILE)) := do
  let s ← get
  match (List.finRange NOFILE).find? fun fd => (s.ofile p fd).isNone with
  | some fd =>
    setOfile p fd (some f)
    return some fd
  | none => return none

def sysDup (p : P) (fd : Fin NOFILE) : M P Int := do
  match ← argfd p fd with
  | none => return -1
  | some f =>
    match ← fdalloc p f with
    | none => return -1
    | some fd' =>
      filedup f
      return fd'.val

def sysWrite (p : P) (fd : Fin NOFILE) (src : List Byte) : M P Int := do
  match ← argfd p fd with
  | none => return -1
  | some f => filewrite sb f src

def sysClose (p : P) (fd : Fin NOFILE) : M P Int := do
  match ← argfd p fd with
  | none => return -1
  | some f =>
    setOfile p fd none
    fileclose sb f
    return 0

def isdirempty (dp : Fin NINODE) : List Nat → M P Bool
  | [] => return true
  | off :: offs => do
    let de ← readDirent sb dp off
    if de.1 ≠ 0 then return false else isdirempty dp offs

/-- Add `n` to `ip->nlink`, and `iupdate`. -/
def addNlink (i : Fin NINODE) (n : Int) : M P Unit := do
  modify fun s => s.setDin i { (s.inode i).din with nlink := i16 ((s.inode i).din.nlink + n) }
  iupdate sb i

/-- The part of `sys_link` that enters the new name; `false` is the jump to `bad`. -/
def linkEntry (p : P) (new : List Byte) (inum : Nat) : M P Bool := do
  match ← nameiparent sb p new with
  | none => return false
  | some (dp, name) =>
    ilock dp
    let done ← dirlink sb dp name inum
    iput sb dp
    return done

def sysLink (p : P) (old new : List Byte) : M P Int := do
  beginOp
  match ← namei sb p old with
  | none =>
    endOp
    return -1
  | some ip =>
    ilock ip
    let s ← get
    if (s.inode ip).din.type = .dir then
      iput sb ip
      endOp
      return -1
    else
      addNlink sb ip 1
      if ← linkEntry sb p new (s.inode ip).inum then
        iput sb ip
        endOp
        return 0
      else
        ilock ip
        addNlink sb ip (-1)
        iput sb ip
        endOp
        return -1

/-- The part of `sys_unlink` that has found the entry at `off` of `dp` to name `ip`. -/
def unlinkEntry (dp ip : Fin NINODE) (off : Nat) : M P Unit := do
  match ← writei sb dp off (List.replicate 16 0) with
  | some 16 => pure ()
  | _ => panic
  let s ← get
  if (s.inode ip).din.type = .dir then addNlink sb dp (-1)
  iput sb dp
  addNlink sb ip (-1)
  iput sb ip

/-- Whether inode `ip` is a directory that is not empty. -/
def isFull (ip : Fin NINODE) : M P Bool := do
  let s ← get
  if (s.inode ip).din.type = .dir then
    return !(← isdirempty sb ip ((offsets (s.inode ip).din.size).drop 2))
  else return false

/-- `sys_unlink` from where `dirlookup` has found the entry at `off` of `dp`, for `ip`. -/
def unlinkFound (dp ip : Fin NINODE) (off : Nat) : M P Int := do
  ilock ip
  let s ← get
  if (s.inode ip).din.nlink < 1 then panic
  else if ← isFull sb ip then
    iput sb ip
    iput sb dp
    endOp
    return -1
  else
    unlinkEntry sb dp ip off
    endOp
    return 0

def sysUnlink (p : P) (path : List Byte) : M P Int := do
  beginOp
  match ← nameiparent sb p path with
  | none =>
    endOp
    return -1
  | some (dp, name) =>
    ilock dp
    if cname name = dot ∨ cname name = dotdot then
      iput sb dp
      endOp
      return -1
    else
      match ← dirlookup sb dp name with
      | none =>
        iput sb dp
        endOp
        return -1
      | some (off, ip) => unlinkFound sb dp ip off

/-- `dirlink` as `create` calls it: it panics on a failure. -/
def enter (dp : Fin NINODE) (name : List Byte) (inum : Nat) : M P Unit := do
  if ← dirlink sb dp name inum then return else panic

/-- The part of `create` that makes a new inode for the entry `name` of `dp`. -/
def createNew (dp : Fin NINODE) (name : List Byte) (type : IType) (major minor : Int) :
    M P (Fin NINODE) := do
  let ip ← ialloc sb type
  ilock ip
  modify fun s => s.setDin ip { (s.inode ip).din with major, minor, nlink := 1 }
  iupdate sb ip
  let s ← get
  if type = .dir then
    addNlink sb dp 1
    enter sb ip dot (s.inode ip).inum
    enter sb ip dotdot (s.inode dp).inum
  enter sb dp name (s.inode ip).inum
  iput sb dp
  return ip

def create (p : P) (path : List Byte) (type : IType) (major minor : Int) :
    M P (Option (Fin NINODE)) := do
  match ← nameiparent sb p path with
  | none => return none
  | some (dp, name) =>
    ilock dp
    match ← dirlookup sb dp name with
    | some (_, ip) =>
      iput sb dp
      ilock ip
      let s ← get
      if type = .file ∧ (s.inode ip).din.type = .file then return some ip
      else
        iput sb ip
        return none
    | none => some <$> createNew sb dp name type major minor

/-- `O_WRONLY`, `O_RDWR` and `O_CREATE`. -/
def O_WRONLY : Nat := 0x001

def O_RDWR : Nat := 0x002

def O_CREATE : Nat := 0x200

/-- The first part of `sys_open`: the inode. -/
def openInode (p : P) (path : List Byte) (omode : Nat) : M P (Option (Fin NINODE)) := do
  if omode &&& O_CREATE ≠ 0 then create sb p path .file 0 0
  else
    match ← namei sb p path with
    | none => return none
    | some ip =>
      ilock ip
      let s ← get
      if (s.inode ip).din.type = .dir ∧ omode ≠ 0 then
        iput sb ip
        return none
      else return some ip

def sysOpen (p : P) (path : List Byte) (omode : Nat) : M P Int := do
  beginOp
  match ← openInode sb p path omode with
  | none =>
    endOp
    return -1
  | some ip =>
    match ← filealloc with
    | none =>
      iput sb ip
      endOp
      return -1
    | some f =>
      match ← fdalloc p f with
      | none =>
        fileclose sb f
        iput sb ip
        endOp
        return -1
      | some fd =>
        endOp
        let s ← get
        setFile f { s.file f with
          type := .inode ip
          off := 0
          readable := omode &&& O_WRONLY = 0
          writable := omode &&& O_WRONLY ≠ 0 ∨ omode &&& O_RDWR ≠ 0 }
        return fd.val

/-- `sys_mkdir` and `sys_mknod`. -/
def sysMake (p : P) (path : List Byte) (type : IType) (major minor : Int) : M P Int := do
  beginOp
  match ← create sb p path type major minor with
  | none =>
    endOp
    return -1
  | some ip =>
    iput sb ip
    endOp
    return 0

def sysMkdir (p : P) (path : List Byte) : M P Int := sysMake sb p path .dir 0 0

def sysMknod (p : P) (path : List Byte) (major minor : Int) : M P Int :=
  sysMake sb p path .dev (i16 major) (i16 minor)

def sysChdir (p : P) (path : List Byte) : M P Int := do
  beginOp
  match ← namei sb p path with
  | none =>
    endOp
    return -1
  | some ip =>
    ilock ip
    let s ← get
    if (s.inode ip).din.type ≠ .dir then
      iput sb ip
      endOp
      return -1
    else
      match s.cwd p with
      | none => panic
      | some cwd =>
        iput sb cwd
        endOp
        setCwd p (some ip)
        return 0

/-- `pipealloc`, when `kalloc` returns `page`; `none` is -1. -/
def pipealloc (page : Option Nat) : M P (Option (Fin NFILE × Fin NFILE)) := do
  match ← filealloc with
  | none => return none
  | some f0 =>
    match ← filealloc with
    | none =>
      fileclose sb f0
      return none
    | some f1 =>
      match page with
      | none =>
        fileclose sb f0
        fileclose sb f1
        return none
      | some pi =>
        let s ← get
        match s.pipe pi with
        | some _ => panic
        | none =>
          setPipe pi (some ⟨true, true⟩)
          setFile f0 { s.file f0 with type := .pipe pi, readable := true, writable := false }
          setFile f1 { s.file f1 with type := .pipe pi, readable := false, writable := true }
          return some (f0, f1)

def sysPipe (p : P) (page : Option Nat) : M P Int := do
  match ← pipealloc sb page with
  | none => return -1
  | some (rf, wf) =>
    match ← fdalloc p rf with
    | none =>
      fileclose sb rf
      fileclose sb wf
      return -1
    | some fd0 =>
      match ← fdalloc p wf with
      | none =>
        setOfile p fd0 none
        fileclose sb rf
        fileclose sb wf
        return -1
      | some _ => return 0

/-- The calls of `readi` in `exec`. -/
def execReads (ip : Fin NINODE) : List (Nat × Nat) → M P Unit
  | [] => return
  | (off, n) :: reads => do
    let _ ← readi sb ip off (n % 2 ^ 32)
    execReads ip reads

/-- The part of `exec` that is about files. What it reads of the program depends on the headers it
finds and on the memory there is, and its result on memory: these are given as `reads` and `r`. -/
def exec (p : P) (path : List Byte) (reads : List (Nat × Nat)) (r : Int) : M P Int := do
  beginOp
  match ← namei sb p path with
  | none =>
    endOp
    return -1
  | some ip =>
    ilock ip
    execReads sb ip reads
    iput sb ip
    endOp
    return r

/-- What `fork` does to the open files: the child `q` shares those of `p`. -/
def forkFiles (p q : P) : List (Fin NOFILE) → M P Unit
  | [] => return
  | fd :: fds => do
    match ← argfd p fd with
    | some f =>
      filedup f
      setOfile q fd (some f)
    | none => pure ()
    forkFiles p q fds

/-- The part of `fork` that is about files; `q` is not there yet. -/
def fork (p q : P) : M P Int := do
  let s ← get
  match s.cwd p, s.cwd q with
  | some cwd, none =>
    forkFiles p q (List.finRange NOFILE)
    let cwd ← idup cwd
    setCwd q (some cwd)
    return 0
  | _, _ => panic

def exitFiles (p : P) : List (Fin NOFILE) → M P Unit
  | [] => return
  | fd :: fds => do
    match ← argfd p fd with
    | some f =>
      fileclose sb f
      setOfile p fd none
    | none => pure ()
    exitFiles p fds

/-- The part of `exit` that is about files. -/
def exit (init p : P) : M P Int := do
  if p = init then panic
  else
    exitFiles sb p (List.finRange NOFILE)
    let s ← get
    match s.cwd p with
    | none => panic
    | some cwd =>
      beginOp
      iput sb cwd
      endOp
      setCwd p none
      return 0

/-! ## The machine -/

/-- A system call of process `p`. -/
inductive Call (P : Type) where
  | open (p : P) (path : List Byte) (omode : Nat)
  | link (p : P) (old new : List Byte)
  | unlink (p : P) (path : List Byte)
  | mkdir (p : P) (path : List Byte)
  | mknod (p : P) (path : List Byte) (major minor : Int)
  | chdir (p : P) (path : List Byte)
  | write (p : P) (fd : Fin NOFILE) (src : List Byte)
  | close (p : P) (fd : Fin NOFILE)
  | dup (p : P) (fd : Fin NOFILE)
  | pipe (p : P) (page : Option Nat)
  | exec (p : P) (path : List Byte) (reads : List (Nat × Nat)) (r : Int)
  | fork (p q : P)
  | exit (p : P)

/-- The process that makes the call. -/
def Call.caller : Call P → P
  | .open p _ _ | .link p _ _ | .unlink p _ | .mkdir p _ | .mknod p _ _ _ | .chdir p _
  | .write p _ _ | .close p _ | .dup p _ | .pipe p _ | .exec p _ _ _ | .fork p _ | .exit p => p

def Call.perform (init : P) : Call P → M P Int
  | .open p path omode => sysOpen sb p path omode
  | .link p old new => sysLink sb p old new
  | .unlink p path => sysUnlink sb p path
  | .mkdir p path => sysMkdir sb p path
  | .mknod p path major minor => sysMknod sb p path major minor
  | .chdir p path => sysChdir sb p path
  | .write p fd src => sysWrite sb p fd src
  | .close p fd => sysClose sb p fd
  | .dup p fd => sysDup p fd
  | .pipe p page => sysPipe sb p page
  | .exec p path reads r => Xv6.Fs.exec sb p path reads r
  | .fork p q => Xv6.Fs.fork p q
  | .exit p => Xv6.Fs.exit sb init p

namespace State

/-- A system call that completes. -/
def step (init : P) (s : State P) (c : Call P) : Option (State P) :=
  if (s.cwd c.caller).isSome then ((c.perform sb init).run s).map Prod.snd else none

/-- Perform a list of system calls. -/
abbrev run (init : P) (s : State P) (cs : List (Call P)) : Option (State P) :=
  Transition.run (step sb init) s cs

end State

/-- The machine with the disk of `s`, when `userinit` has looked up "/" for the first process. -/
def State.boot (init : P) (s : State P) : State P :=
  { s with
    inode := fun i =>
      if i = 0 then ⟨ROOTINO, 1, false, Dinode.zero⟩ else ⟨0, 0, false, Dinode.zero⟩
    file := fun _ => ⟨0, .none, 0, false, false⟩
    pipe := fun _ => none
    cwd := fun p => if p = init then some 0 else none
    ofile := fun _ _ => none
    logged := []
    sections := [] }

end

/-! ## The image of `mkfs` -/

/-- The superblock `mkfs` writes: `FSSIZE` = 2000 blocks, of which 59 are metadata. -/
def Superblock.mkfs : Superblock := ⟨2000, 1941, 200, 32, 58, by decide⟩

/-- The image of `mkfs` without files: a root directory in block 59. -/
def State.mkfs {P : Type} : State P where
  bitmap b := decide (b < 60)
  dinode := update (fun _ => Dinode.zero) ROOTINO
    { Dinode.zero with
      type := .dir, nlink := 1, size := BSIZE, addrs := fun k => if k = directAt 0 then 59 else 0 }
  data := update (fun _ _ => 0) 59
    (splice (fun _ => 0) 0 (direntBytes ROOTINO dot ++ direntBytes ROOTINO dotdot))
  inode _ := ⟨0, 0, false, Dinode.zero⟩
  file _ := ⟨0, .none, 0, false, false⟩
  pipe _ := none
  cwd _ := none
  ofile _ _ := none
  logged := []
  sections := []

end Xv6.Fs
