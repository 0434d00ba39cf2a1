import Xv6.Common.Blit
import Xv6.Common.Fallible
import Xv6.Sched.Syscall

/-!
# Physical memory and page tables

`kalloc.c` and `vm.c`. Physical memory is one flat array of bytes, and page tables are words in it:
a store to a page that is also a page table changes the table. The kernel maps physical memory at
`KERNBASE`, so a kernel pointer to it is written here as the physical address, `V2P` of the pointer.
The chain of `struct run` is a list; that its links lie in the free pages themselves matters to
nobody, as a page is filled or overwritten by whoever allocates it.

A panic ends the run. `kalloc` panics when there is no page, so it never returns 0, but its callers
test for 0 all the same, and so they do here.
-/

namespace Xv6.Vm

open Blit
open Bytes (Byte)
open Sched (PGSIZE)

/-! ## Constants -/

/-- First kernel virtual address. -/
def KERNBASE : ℕ := 0xFFFF800000000000

/-- Top physical memory. -/
def PHYSTOP : ℕ := 0xE000000

def NPDENTRIES : ℕ := 512

def PTE_P : ℕ := 1

def PTE_W : ℕ := 2

def PTE_U : ℕ := 4

/-- `PTE_ADDR`: the low twelve bits cleared. -/
def pteAddr (e : ℕ) : ℕ := e / PGSIZE * PGSIZE

/-- `PTE_FLAGS`: the low twelve bits. -/
def pteFlags (e : ℕ) : ℕ := e % PGSIZE

/-- `e & PTE_P`. -/
def present (e : ℕ) : Bool := e &&& PTE_P ≠ 0

/-- `PMX`, `PDPX`, `PDX` and `PTX`: the nine bits of an address that index the table of level
`ℓ + 1`. -/
def index (ℓ va : ℕ) : ℕ := va / 2 ^ (12 + 9 * ℓ) % 512

def pgroundup (a : ℕ) : ℕ := (a + (PGSIZE - 1)) % 2 ^ 64 / PGSIZE * PGSIZE

def pgrounddown (a : ℕ) : ℕ := a / PGSIZE * PGSIZE

/-- How many turns `for(; a < z; a += PGSIZE)` takes. -/
def pagesTo (a z : ℕ) : ℕ := (z - a + (PGSIZE - 1)) / PGSIZE

/-! ## The allocator -/

/-- The calls of `panic`, and the fault of a kernel that follows a null pointer. -/
inductive Panic where
  | outOfMemory
  | kfree
  | remap
  | loaduvmAlign
  | loaduvmAddress
  | clearpteu
  | freevm
  | copyuvmPte
  | copyuvmPresent
  | switchuvm
  | inituvm
  | filedup
  | fileclose
  | initExiting
  | trap
  deriving DecidableEq, Repr

structure Phys where
  mem : ℕ → Byte
  /-- `kmem.freelist`. -/
  freelist : List ℕ
  /-- Where the kernel ends, as the linker placed it. -/
  kend : ℕ
  /-- The page directory pointer table of the kernel's half. -/
  kpdpt : ℕ

abbrev K := StateT Phys (Except Panic)

/-- Store a page. -/
def setPage (p : ℕ) (f : ℕ → Byte) : K Unit :=
  modify fun s => { s with mem := blit s.mem p PGSIZE f }

/-- `memset(p, c, PGSIZE)`. -/
def memset (p : ℕ) (c : Byte) : K Unit := setPage p fun _ => c

/-- `memmove(dst, src, PGSIZE)`. -/
def memmove (dst src : ℕ) : K Unit := do
  let s ← get
  setPage dst fun o => s.mem (src + o)

def kalloc : K (Option ℕ) := do
  let s ← get
  match s.freelist with
  | [] => throw .outOfMemory
  | r :: rest =>
    set { s with freelist := rest }
    pure (some r)

def kfree (v : ℕ) : K Unit := do
  let s ← get
  if v % PGSIZE ≠ 0 ∨ v < s.kend ∨ v ≥ PHYSTOP then throw .kfree
  else
    memset v 1
    modify fun s => { s with freelist := v :: s.freelist }

/-! ## Walking a page table -/

/-- Entry `i` of the table at `t`. -/
def entry (t i : ℕ) : K ℕ := do
  let s ← get
  pure (word s.mem (t + 8 * i))

/-- `*pte = e`. -/
def setPte (pte e : ℕ) : K Unit := modify fun s => { s with mem := setWord s.mem pte e }

/-- One level of `walkpgdir`: the table that entry `i` of `t` points to, made if `alloc` says so. -/
def descend (t i : ℕ) (alloc : Bool) : K (Option ℕ) := do
  let e ← entry t i
  if present e then pure (some (pteAddr e))
  else if !alloc then pure none
  else
    match ← kalloc with
    | none => pure none
    | some pd =>
      memset pd 0
      setPte (t + 8 * i) (pd ||| PTE_P ||| PTE_W ||| PTE_U)
      pure (some pd)

/-- `walkpgdir`: the address of the entry for `va` in the last table. -/
def walkpgdir (pml4 va : ℕ) (alloc : Bool) : K (Option ℕ) := do
  match ← descend pml4 (index 3 va) alloc with
  | none => pure none
  | some pdp =>
    match ← descend pdp (index 2 va) alloc with
    | none => pure none
    | some pd =>
      match ← descend pd (index 1 va) alloc with
      | none => pure none
      | some pgtab => pure (some (pgtab + 8 * index 0 va))

/-- `*pte`. -/
def load (pte : ℕ) : K ℕ := entry pte 0

/-- The loop of `mappages` over `n` more pages. -/
def mappagesLoop (pgdir perm : ℕ) : ℕ → ℕ → ℕ → K Bool
  | 0, _, _ => pure true
  | n + 1, a, pa => do
    match ← walkpgdir pgdir a true with
    | none => pure false
    | some pte =>
      let e ← load pte
      if present e then throw .remap
      else
        setPte pte (pa ||| perm ||| PTE_P)
        mappagesLoop pgdir perm n (a + PGSIZE) (pa + PGSIZE)

/-- `mappages`; `false` is -1. -/
def mappages (pgdir va size pa perm : ℕ) : K Bool :=
  mappagesLoop pgdir perm ((pgrounddown (va + size - 1) - pgrounddown va) / PGSIZE + 1)
    (pgrounddown va) pa

/-! ## Address spaces -/

def setupkvm : K (Option ℕ) := do
  match ← kalloc with
  | none => throw .trap
  | some pml4 =>
    memset pml4 0
    let s ← get
    setPte (pml4 + 8 * 256) (s.kpdpt ||| PTE_P ||| PTE_W)
    pure (some pml4)

/-- The loop of `deallocuvm` over `n` more pages. -/
def deallocLoop (pgdir : ℕ) : ℕ → ℕ → K Unit
  | 0, _ => pure ()
  | n + 1, a => do
    match ← walkpgdir pgdir a false with
    | none => deallocLoop pgdir n (a + PGSIZE)
    | some pte =>
      let e ← load pte
      if present e then
        if pteAddr e = 0 then throw .kfree
        else
          kfree (pteAddr e)
          setPte pte 0
          deallocLoop pgdir n (a + PGSIZE)
      else deallocLoop pgdir n (a + PGSIZE)

def deallocuvm (pgdir oldsz newsz : ℕ) : K ℕ := do
  if newsz ≥ oldsz then pure oldsz
  else
    deallocLoop pgdir (pagesTo (pgroundup newsz) oldsz) (pgroundup newsz)
    pure newsz

/-- The loop of `allocuvm` over `n` more pages. -/
def allocLoop (pgdir oldsz newsz : ℕ) : ℕ → ℕ → K ℕ
  | 0, _ => pure newsz
  | n + 1, a => do
    match ← kalloc with
    | none =>
      let _ ← deallocuvm pgdir newsz oldsz
      pure 0
    | some mem =>
      memset mem 0
      if ← mappages pgdir a PGSIZE mem (PTE_W ||| PTE_U) then
        allocLoop pgdir oldsz newsz n (a + PGSIZE)
      else
        let _ ← deallocuvm pgdir newsz oldsz
        kfree mem
        pure 0

/-- `allocuvm`; 0 is the error. -/
def allocuvm (pgdir oldsz newsz : ℕ) : K ℕ :=
  if newsz ≥ KERNBASE then pure 0
  else if newsz < oldsz then pure oldsz
  else allocLoop pgdir oldsz newsz (pagesTo (pgroundup oldsz) newsz) (pgroundup oldsz)

/-- The nested loops of `freevm`: free what is below the first `n` entries of the table `t` of level
`ℓ + 1`, then `t`. A page of level 0 is a leaf. -/
def freelevel : ℕ → ℕ → ℕ → K Unit
  | 0, _, v => kfree v
  | ℓ + 1, n, t => do
    (List.range n).forM fun i => do
      let e ← entry t i
      if present e then freelevel ℓ NPDENTRIES (pteAddr e) else pure ()
    kfree t

def freevm (pml4 : ℕ) : K Unit :=
  if pml4 = 0 then throw .freevm else freelevel 4 (NPDENTRIES / 2) pml4

def clearpteu (pgdir uva : ℕ) : K Unit := do
  match ← walkpgdir pgdir uva false with
  | none => throw .clearpteu
  | some pte =>
    let e ← load pte
    setPte pte (e - (e &&& PTE_U))

/-- The loop of `copyuvm` over `n` more pages, `d` being the copy. -/
def copyLoop (pgdir d : ℕ) : ℕ → ℕ → K (Option ℕ)
  | 0, _ => pure (some d)
  | n + 1, i => do
    match ← walkpgdir pgdir i false with
    | none => throw .copyuvmPte
    | some pte =>
      let e ← load pte
      if present e then
        match ← kalloc with
        | none =>
          freevm d
          pure none
        | some mem =>
          memmove mem (pteAddr e)
          if ← mappages d i PGSIZE mem (pteFlags e) then copyLoop pgdir d n (i + PGSIZE)
          else
            freevm d
            pure none
      else throw .copyuvmPresent

/-- `copyuvm`; `sz` is a `uint`. -/
def copyuvm (pgdir sz : ℕ) : K (Option ℕ) := do
  match ← setupkvm with
  | none => pure none
  | some d => copyLoop pgdir d (pagesTo PGSIZE (sz % 2 ^ 32)) PGSIZE

/-! ## Reaching user memory -/

/-- `uva2ka`, which follows the pointer `walkpgdir` returns without a test. -/
def uva2ka (pgdir uva : ℕ) : K (Option ℕ) := do
  match ← walkpgdir pgdir uva false with
  | none => throw .trap
  | some pte =>
    let e ← load pte
    if !present e then pure none
    else if e &&& PTE_U = 0 then pure none
    else pure (some (pteAddr e))

/-- The loop of `copyout`. Each turn stores at least one byte, so `bs.length` turns are enough. -/
def copyoutLoop (pgdir : ℕ) : ℕ → ℕ → List Byte → K Bool
  | 0, _, bs => pure bs.isEmpty
  | fuel + 1, va, bs => do
    if bs.isEmpty then pure true
    else
      match ← uva2ka pgdir (pgrounddown va) with
      | none => pure false
      | some pa0 =>
        let o := va - pgrounddown va
        let n := min (PGSIZE - o) bs.length
        modify fun s => { s with mem := blit s.mem (pa0 + o) n fun k => bs.getD k 0 }
        copyoutLoop pgdir fuel ((pgrounddown va + PGSIZE) % 2 ^ 64) (bs.drop n)

/-- `copyout`; `false` is -1. -/
def copyout (pgdir va : ℕ) (bs : List Byte) : K Bool := copyoutLoop pgdir bs.length va bs

/-- `readi` on an ordinary file with these contents; `none` is -1. -/
def readi (file : List Byte) (off n : ℕ) : Option (List Byte) :=
  if off > file.length ∨ (off + n) % 2 ^ 32 < off then none else some ((file.drop off).take n)

/-- The loop of `loaduvm` over `n` more pages, from the offset `i` on. -/
def loaduvmLoop (pgdir addr : ℕ) (file : List Byte) (offset sz : ℕ) : ℕ → ℕ → K Bool
  | 0, _ => pure true
  | n + 1, i => do
    match ← walkpgdir pgdir (addr + i) false with
    | none => throw .loaduvmAddress
    | some pte =>
      let e ← load pte
      match readi file ((offset + i) % 2 ^ 32) (min (sz - i) PGSIZE) with
      | none => pure false
      | some bs =>
        modify fun s => { s with
          mem := blit s.mem (pteAddr e) bs.length fun k => bs.getD k 0 }
        if bs.length ≠ min (sz - i) PGSIZE then pure false
        else loaduvmLoop pgdir addr file offset sz n (i + PGSIZE)

/-- `loaduvm`; `offset` and `sz` are `uint`s, `false` is -1. -/
def loaduvm (pgdir addr : ℕ) (file : List Byte) (offset sz : ℕ) : K Bool :=
  if addr % PGSIZE ≠ 0 then throw .loaduvmAlign
  else loaduvmLoop pgdir addr file (offset % 2 ^ 32) (sz % 2 ^ 32) (pagesTo 0 (sz % 2 ^ 32)) 0

end Xv6.Vm
