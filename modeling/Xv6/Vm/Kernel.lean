import Xv6.Fs.Inode
import Xv6.Sched.Machine
import Xv6.Signal.Frame
import Xv6.Vm.User

/-!
# The calls that allocate

`fork`, `growproc`, `exec` and the pipes over the memory of `Vm.Memory` and the process table of
`Sched.Proc`. A call runs to its end.

What is left out: the current directories and the inodes, which hold no page; the bytes in a pipe;
`sig_disp`. `exec` is given the contents of the file that `namei` finds. The trap frame lies in the
kernel stack, but nobody else stores there, so it stands beside the process.
-/

namespace Xv6.Vm

open Blit Fallible
open Function (update)
open Bytes (Byte)
open Fs (Ends File NFILE NOFILE)
open Sched (Kernel PGSIZE Slot)
open Signal (TrapFrame)

/-- `MAXARG`. -/
def MAXARG : ℕ := 32

structure World where
  kernel : Kernel
  phys : Phys
  pgdir : Slot → ℕ
  kstack : Slot → ℕ
  tf : Slot → TrapFrame
  name : Slot → List Byte
  ofile : Slot → Fin NOFILE → Option (Fin NFILE)
  file : Fin NFILE → File
  /-- The pages that are a `struct pipe`. -/
  pipe : ℕ → Option Ends
  /-- What the kernel allocated for itself: `kpml4`, `kpdpt`, and the pages of the processors. -/
  fixed : List ℕ

abbrev W := StateT World (Except Panic)

/-- A function of `vm.c` or `kalloc.c`. -/
def onPhys {α : Type} (x : K α) : W α := fun w =>
  match x w.phys with
  | .ok (a, s) => .ok (a, { w with phys := s })
  | .error e => .error e

theorem ends_onPhys {α : Type} {x : K α} {w : World} {E : Panic → Prop} {Q : α → World → Prop} :
    Ends (onPhys x) w E Q ↔ Ends x w.phys E fun a s => Q a { w with phys := s } := by
  have hrun : (onPhys x).run w = match x.run w.phys with
      | .ok (a, s) => .ok (a, { w with phys := s })
      | .error e => .error e := rfl
  cases h : x.run w.phys with
  | error e =>
    rw [h] at hrun
    rw [ends_of_error h, ends_of_error hrun]
  | ok r =>
    obtain ⟨a, s⟩ := r
    rw [h] at hrun
    rw [ends_of_ok h, ends_of_ok hrun]

namespace World

/-- `proc->sz`. -/
def sz (w : World) (i : Slot) : ℕ := (w.kernel.proc i).sz

def setSz (w : World) (i : Slot) (sz : ℕ) : World :=
  { w with kernel := w.kernel.setProc i { w.kernel.proc i with sz := sz } }

def setFile (w : World) (f : Fin NFILE) (x : File) : World :=
  { w with file := update w.file f x }

def setOfile (w : World) (i : Slot) (fd : Fin NOFILE) (x : Option (Fin NFILE)) : World :=
  { w with ofile := update w.ofile i (update (w.ofile i) fd x) }

def setPipe (w : World) (p : ℕ) (x : Option Ends) : World :=
  { w with pipe := update w.pipe p x }

def setTf (w : World) (i : Slot) (x : TrapFrame) : World :=
  { w with tf := update w.tf i x }

end World

/-! ## Files and pipes -/

def filealloc : W (Option (Fin NFILE)) := do
  let w ← get
  match (List.finRange NFILE).find? fun f => (w.file f).ref = 0 with
  | some f =>
    set (w.setFile f { w.file f with ref := 1 })
    pure (some f)
  | none => pure none

def filedup (f : Fin NFILE) : W Unit := do
  let w ← get
  if (w.file f).ref < 1 then throw .filedup
  else set (w.setFile f { w.file f with ref := (w.file f).ref + 1 })

/-- `pipeclose`. A pipe that is not there cannot be closed; what the code would find in its page is
not modelled. -/
def pipeclose (p : ℕ) (writable : Bool) : W Unit := do
  let w ← get
  match w.pipe p with
  | none => throw .trap
  | some x =>
    let x := if writable then { x with writeopen := false } else { x with readopen := false }
    if x.readopen = false ∧ x.writeopen = false then
      set (w.setPipe p none)
      onPhys (kfree p)
    else set (w.setPipe p (some x))

def fileclose (f : Fin NFILE) : W Unit := do
  let w ← get
  if (w.file f).ref < 1 then throw .fileclose
  else if 1 < (w.file f).ref then set (w.setFile f { w.file f with ref := (w.file f).ref - 1 })
  else
    set (w.setFile f { w.file f with ref := 0, type := .none })
    match (w.file f).type with
    | .pipe p => pipeclose p (w.file f).writable
    | .inode _ | .none => pure ()

/-- `pipealloc`; `none` is -1. -/
def pipealloc : W (Option (Fin NFILE × Fin NFILE)) := do
  match ← filealloc with
  | none => pure none
  | some f0 =>
    match ← filealloc with
    | none =>
      fileclose f0
      pure none
    | some f1 =>
      match ← onPhys kalloc with
      | none =>
        fileclose f0
        fileclose f1
        pure none
      | some p =>
        modify fun w => w.setPipe p (some ⟨true, true⟩)
        modify fun w => w.setFile f0
          { w.file f0 with type := .pipe p, readable := true, writable := false }
        modify fun w => w.setFile f1
          { w.file f1 with type := .pipe p, readable := false, writable := true }
        pure (some (f0, f1))

/-! ## Processes -/

/-- `allocproc`; `none` is 0. -/
def allocproc : W (Option Slot) := do
  let w ← get
  match Sched.freeSlot w.kernel.proc with
  | none => pure none
  | some np =>
    set { w with kernel := Sched.allocproc np w.kernel }
    match ← onPhys kalloc with
    | none =>
      modify fun w => { w with
        kstack := update w.kstack np 0
        kernel := w.kernel.setProc np { w.kernel.proc np with state := .unused } }
      pure none
    | some stack =>
      modify fun w => { w with kstack := update w.kstack np stack }
      pure (some np)

/-- The child gets the open files of its parent. -/
def dupFiles (i np : Slot) : W Unit :=
  (List.finRange NOFILE).forM fun fd => do
    let w ← get
    match w.ofile i fd with
    | some f =>
      filedup f
      modify fun w => w.setOfile np fd (some f)
    | none => pure ()

/-- `fork` by process `i`. -/
def fork (i : Slot) : W ℤ := do
  match ← allocproc with
  | none => pure (-1)
  | some np =>
    let w ← get
    match ← onPhys (copyuvm (w.pgdir i) (w.sz i)) with
    | none =>
      onPhys (kfree (w.kstack np))
      modify fun w => { w with
        pgdir := update w.pgdir np 0
        kstack := update w.kstack np 0
        kernel := w.kernel.setProc np { w.kernel.proc np with state := .unused } }
      pure (-1)
    | some d =>
      modify fun w => { w with
        pgdir := update w.pgdir np d
        kernel := w.kernel.setProc np { w.kernel.proc np with sz := w.sz i, parent := some i }
        tf := update w.tf np { w.tf i with rax := 0 } }
      dupFiles i np
      modify fun w => { w with
        name := update w.name np (w.name i)
        kernel := w.kernel.setProc np { w.kernel.proc np with state := .runnable } }
      let w ← get
      pure (w.kernel.proc np).pid

/-- `switchuvm`, which loads the page table into the processor. -/
def switchuvm (pgdir : ℕ) : W Unit := if pgdir = 0 then throw .switchuvm else pure ()

/-- `growproc` by process `i`; `n` is a 64-bit number. -/
def growproc (i : Slot) (n : ℤ) : W ℤ := do
  let w ← get
  let newsz := (((w.sz i : ℤ) + n) % 2 ^ 64).toNat
  let sz ←
    if 0 < n then onPhys (allocuvm (w.pgdir i) (w.sz i) newsz)
    else if n < 0 then onPhys (deallocuvm (w.pgdir i) (w.sz i) newsz)
    else pure (w.sz i)
  if n ≠ 0 ∧ sz = 0 then pure (-1)
  else
    modify fun w => w.setSz i sz
    switchuvm (w.pgdir i)
    pure 0

/-! ## `exec` -/

def ELF_MAGIC : ℕ := 0x464C457F

def ELF_PROG_LOAD : ℕ := 1

/-- The fields of `struct elfhdr` that `exec` reads. -/
structure Elfhdr where
  magic : ℕ
  entry : ℕ
  phoff : ℕ
  phnum : ℕ
  deriving DecidableEq

/-- The fields of `struct proghdr` that `exec` reads. -/
structure Proghdr where
  type : ℕ
  off : ℕ
  vaddr : ℕ
  filesz : ℕ
  memsz : ℕ
  deriving DecidableEq

/-- The number in `n` bytes from offset `o` on. -/
def field (bs : List Byte) (o n : ℕ) : ℕ := leNat (fun k => bs.getD k 0) o n

/-- Read so many bytes and no fewer. -/
def readExactly (file : List Byte) (off n : ℕ) : Option (List Byte) :=
  (readi file off n).bind fun bs => if bs.length = n then some bs else none

def sizeofElfhdr : ℕ := 64

def sizeofProghdr : ℕ := 56

def readElfhdr (file : List Byte) : Option Elfhdr :=
  (readExactly file 0 sizeofElfhdr).map fun bs =>
    { magic := field bs 0 4, entry := field bs 24 8, phoff := field bs 32 8, phnum := field bs 56 2 }

def readProghdr (file : List Byte) (off : ℕ) : Option Proghdr :=
  (readExactly file off sizeofProghdr).map fun bs =>
    { type := field bs 0 4, off := field bs 8 8, vaddr := field bs 16 8, filesz := field bs 32 8,
      memsz := field bs 40 8 }

/-- The loop of `exec` over `n` more program headers, the next one at `off`; `none` is the jump to
`bad`. `off` is an `int`, and `readi` takes it as a `uint`. -/
def loadSegments (file : List Byte) (pgdir : ℕ) : ℕ → ℕ → ℕ → K (Option ℕ)
  | 0, _, sz => pure (some sz)
  | n + 1, off, sz => do
    match readProghdr file off with
    | none => pure none
    | some ph =>
      if ph.type ≠ ELF_PROG_LOAD then
        loadSegments file pgdir n ((off + sizeofProghdr) % 2 ^ 32) sz
      else if ph.memsz < ph.filesz then pure none
      else if (ph.vaddr + ph.memsz) % 2 ^ 64 < ph.vaddr then pure none
      else
        let sz ← allocuvm pgdir sz ((ph.vaddr + ph.memsz) % 2 ^ 64)
        if sz = 0 then pure none
        else if ph.vaddr % PGSIZE ≠ 0 then pure none
        else if ← loaduvm pgdir ph.vaddr file ph.off ph.filesz then
          loadSegments file pgdir n ((off + sizeofProghdr) % 2 ^ 32) sz
        else pure none

/-- Where an argument of this length goes, below `sp`. -/
def pushed (sp len : ℕ) : ℕ := (sp + 2 ^ 64 - (len + 1) % 2 ^ 64) % 2 ^ 64 / 8 * 8

/-- The loop of `exec` over the arguments; `argc` have been pushed, and `ustack` holds their
addresses. -/
def pushArgs (pgdir : ℕ) : List (List Byte) → ℕ → List ℕ → K (Option (ℕ × List ℕ))
  | [], sp, ustack => pure (some (sp, ustack))
  | arg :: args, sp, ustack => do
    if ustack.length ≥ MAXARG then pure none
    else if ← copyout pgdir (pushed sp arg.length) (arg ++ [0]) then
      pushArgs pgdir args (pushed sp arg.length) (ustack ++ [pushed sp arg.length])
    else pure none

/-- The image: the segments, the guard page, the stack and the strings on it. The result is the
size, the stack pointer and the addresses of the strings. -/
def loadImage (file : List Byte) (elf : Elfhdr) (argv : List (List Byte)) (pgdir : ℕ) :
    K (Option (ℕ × ℕ × List ℕ)) := do
  match ← loadSegments file pgdir elf.phnum (elf.phoff % 2 ^ 32) PGSIZE with
  | none => pure none
  | some sz =>
    let sz ← allocuvm pgdir (pgroundup sz) ((pgroundup sz + 2 * PGSIZE) % 2 ^ 64)
    if sz = 0 then pure none
    else
      clearpteu pgdir (sz - 2 * PGSIZE)
      match ← pushArgs pgdir argv sz [] with
      | none => pure none
      | some (sp, ustack) => pure (some (sz, sp, ustack))

/-- The eight bytes of a word. -/
def wordBytes (v : ℕ) : List Byte := (List.range 8).map fun k => BitVec.ofNat 8 (v / 256 ^ k)

/-- `sp` less so many words. -/
def below (sp words : ℕ) : ℕ := (sp + 2 ^ 64 - 8 * words) % 2 ^ 64

/-- `safestrcpy` of the last element of the path to `proc->name`. -/
def execName (path : List Byte) : List Byte :=
  (path.reverse.takeWhile (· ≠ 47)).reverse.take 15 ++ [0]

/-- `exec` by process `i`. `file` is what `namei` finds for the path. -/
def exec (i : Slot) (file : Option (List Byte)) (path : List Byte) (argv : List (List Byte)) :
    W ℤ := do
  match file with
  | none => pure (-1)
  | some file =>
    match readElfhdr file with
    | none => pure (-1)
    | some elf =>
      if elf.magic ≠ ELF_MAGIC then pure (-1)
      else
        match ← onPhys setupkvm with
        | none => pure (-1)
        | some pgdir =>
          match ← onPhys (loadImage file elf argv pgdir) with
          | none =>
            onPhys (freevm pgdir)
            pure (-1)
          | some (sz, sp, ustack) =>
            -- the frame is changed before the last step that may fail
            modify fun w => w.setTf i { w.tf i with
              rdi := BitVec.ofNat 64 ustack.length
              rsi := BitVec.ofNat 64 (below sp (ustack.length + 1)) }
            let sp := below sp (1 + ustack.length + 1)
            let table := [2 ^ 64 - 1] ++ ustack ++ [0]
            if ← onPhys (copyout pgdir sp (table.flatMap wordBytes)) then
              let w ← get
              let oldpgdir := w.pgdir i
              set ({ w with
                name := update w.name i (execName path)
                pgdir := update w.pgdir i pgdir }.setSz i sz)
              modify fun w => w.setTf i { w.tf i with
                rip := BitVec.ofNat 64 elf.entry
                rcx := BitVec.ofNat 64 elf.entry
                rsp := BitVec.ofNat 64 sp }
              switchuvm pgdir
              onPhys (freevm oldpgdir)
              pure 0
            else
              onPhys (freevm pgdir)
              pure (-1)

end Xv6.Vm
