import Xv6.Vm.Kernel

/-!
# Booting

`main` from `kinit1` to `userinit`: the free list is filled, the kernel takes pages for itself, and
the first process gets a stack, a page table and one page of code.
-/

namespace Xv6.Vm

open Blit Fallible List
open Bytes (Byte)
open Sched (PGSIZE)
open Signal (TrapFrame)

variable {w w' : World} {E : Panic → Prop}

open Phys

def PTE_PS : ℕ := 0x80

/-- `PTE_PWT | PTE_PCD`. -/
def PTE_IO : ℕ := 0x18

/-- The pages that `freerange` frees, the last one first. -/
def freerange (kend : ℕ) : List ℕ :=
  ((List.range ((PHYSTOP - pgroundup kend) / PGSIZE)).map fun k =>
    pgroundup kend + k * PGSIZE).reverse

/-- A frame of zeros. -/
def noFrame : TrapFrame := ⟨⟨0, 0, 0, 0, 0, 0, 0, 0, 0, 0, 0, 0, 0, 0, 0, 0, 0, 0⟩, 0, 0, 0, 0⟩

/-- The kernel after `kinit1`; the memory holds anything. -/
def World.start (kend : ℕ) (mem : ℕ → Byte) : World where
  kernel := { proc := fun _ => .zero, schedp := Sched.pinit, nextpid := 1, ticks := 0, initproc := 0,
              lastBoostTick := 0, rrNext := 0 }
  phys := { mem, freelist := freerange kend, kend, kpdpt := 0 }
  pgdir := fun _ => 0
  kstack := fun _ => 0
  tf := fun _ => noFrame
  name := fun _ => []
  ofile := fun _ _ => none
  file := fun _ => { ref := 0, type := .none, off := 0, readable := false, writable := false }
  pipe := fun _ => none
  fixed := []

/-- A page of zeros that the kernel keeps. -/
def takePage : W ℕ := do
  match ← onPhys kalloc with
  | none => throw .trap
  | some p =>
    onPhys (memset p 0)
    modify fun w => { w with fixed := w.fixed ++ [p] }
    pure p

def kvmalloc : W Unit := do
  let kpml4 ← takePage
  let kpdpt ← takePage
  onPhys (setPte (kpml4 + 8 * 256) (kpdpt ||| PTE_P ||| PTE_W))
  onPhys (setPte kpdpt (PTE_PS ||| PTE_P ||| PTE_W))
  onPhys (setPte (kpdpt + 8 * 3) (0xC0000000 ||| PTE_PS ||| PTE_P ||| PTE_W ||| PTE_IO))
  modify fun w => { w with phys := { w.phys with kpdpt := kpdpt } }

/-- `tvinit`: the page of the trap vectors. -/
def tvinit : W Unit := do
  let _ ← takePage
  pure ()

/-- `seginit`: the local storage of a processor. -/
def seginit : W Unit := do
  let _ ← takePage
  pure ()

/-- `startothers`, for `n` processors: each gets a stack, and runs `seginit`. -/
def startothers (n : ℕ) : W Unit :=
  (List.range n).forM fun _ => do
    let _ ← takePage
    seginit

def inituvm (pgdir : ℕ) (init : List Byte) : K Unit := do
  if init.length ≥ PGSIZE then throw .inituvm
  else
    match ← kalloc with
    | none => throw .trap
    | some mem =>
      memset mem 0
      let _ ← mappages pgdir PGSIZE PGSIZE mem (PTE_W ||| PTE_U)
      modify fun s => { s with mem := blit s.mem mem init.length fun k => init.getD k 0 }

/-- `FL_IF`. -/
def FL_IF : BitVec 64 := 0x200

/-- The bytes of "initcode". -/
def initcode : List Byte := [105, 110, 105, 116, 99, 111, 100, 101, 0]

/-- `userinit`. A page table that cannot be made is another panic, which `kalloc` is ahead of. -/
def userinit (init : List Byte) : W Unit := do
  match ← allocproc with
  | none => throw .trap
  | some p =>
    modify fun w => { w with kernel := { w.kernel with initproc := p } }
    match ← onPhys setupkvm with
    | none => throw .outOfMemory
    | some d =>
      modify fun w => { w with pgdir := Function.update w.pgdir p d }
      onPhys (inituvm d init)
      modify fun w => { w with
        kernel := w.kernel.setProc p
          { w.kernel.proc p with sz := 2 * PGSIZE, state := .runnable }
        tf := Function.update w.tf p
          { noFrame with r11 := FL_IF, rsp := BitVec.ofNat 64 (2 * PGSIZE), rcx := PGSIZE }
        name := Function.update w.name p initcode }

/-- `main` on a machine with `n` more processors. -/
def main (n : ℕ) (init : List Byte) : W Unit := do
  kvmalloc
  tvinit
  seginit
  startothers n
  userinit init

/-! ## What `freerange` frees -/

theorem mem_freerange {kend p : ℕ} : p ∈ freerange kend ↔
    p % PGSIZE = 0 ∧ pgroundup kend ≤ p ∧ p + PGSIZE ≤ PHYSTOP := by
  have hal : pgroundup kend % PGSIZE = 0 := pgroundup_aligned kend
  rw [freerange, mem_reverse, mem_map]
  constructor
  · rintro ⟨k, hk, rfl⟩
    rw [mem_range] at hk
    rw [pgsize_eq] at *
    omega
  · rintro ⟨hp, hlo, hhi⟩
    refine ⟨(p - pgroundup kend) / PGSIZE, ?_, ?_⟩
    · rw [mem_range]
      rw [pgsize_eq] at *
      omega
    · rw [pgsize_eq] at *
      omega

theorem freerange_nodup (kend : ℕ) : (freerange kend).Nodup := by
  rw [freerange, nodup_reverse]
  refine List.Nodup.map ?_ nodup_range
  intro a b hab
  dsimp only at hab
  rw [pgsize_eq] at hab
  omega

theorem pgroundup_ge {a : ℕ} (h : a ≤ PHYSTOP) : a ≤ pgroundup a := by
  rw [PHYSTOP] at h
  rw [pgroundup, pgsize_eq]
  omega

/-- Pages that make up what `freerange` freed. -/
theorem heap_of_freerange {kend : ℕ} {s : Phys} {l : List ℕ} (hk : 0 < kend)
    (hkend : kend ≤ PHYSTOP) (htop : s.kend = kend)
    (hperm : (s.freelist ++ l).Perm (freerange kend)) : s.Heap l where
  nodup := hperm.nodup_iff.mpr (freerange_nodup kend)
  valid p hp := by
    obtain ⟨hal, hlo, hhi⟩ := mem_freerange.mp (hperm.mem_iff.mp hp)
    have hge := pgroundup_ge hkend
    refine ⟨hal, ?_, ?_⟩
    · rw [htop]
      omega
    · rw [pgsize_eq] at hhi
      omega
  kend := by
    rw [htop]
    exact hk

/-! ## The state after booting -/

/-- While the kernel takes pages for itself. -/
structure Starting (kend : ℕ) (mem : ℕ → Byte) (w : World) : Prop where
  rest : w = { World.start kend mem with phys := w.phys, fixed := w.fixed }
  top : w.phys.kend = kend
  perm : (w.phys.freelist ++ w.fixed).Perm (freerange kend)

variable {kend : ℕ} {mem : ℕ → Byte}

theorem starting_start : Starting kend mem (World.start kend mem) := by
  refine ⟨rfl, rfl, ?_⟩
  rw [World.start, append_nil]

theorem Starting.heap (h : Starting kend mem w) (hk : 0 < kend) (hkend : kend ≤ PHYSTOP) :
    w.phys.Heap w.fixed := heap_of_freerange hk hkend h.top h.perm

theorem Starting.store {s : Phys} (h : Starting kend mem w) (hkend : s.kend = w.phys.kend)
    (hfree : s.freelist = w.phys.freelist) : Starting kend mem { w with phys := s } where
  rest := congrArg (fun v : World => { v with phys := s }) h.rest
  top := hkend.trans h.top
  perm := by
    show (s.freelist ++ w.fixed).Perm (freerange kend)
    rw [hfree]
    exact h.perm

/-- A step of booting that took `n` pages at most. -/
def Takes (kend : ℕ) (mem : ℕ → Byte) (n : ℕ) (w w' : World) : Prop :=
  Starting kend mem w' ∧ w.phys.freelist.length ≤ w'.phys.freelist.length + n

theorem takePage_takes (h : Starting kend mem w) :
    Ends takePage w (fun e => e = .outOfMemory ∧ w.phys.freelist.length < 1) fun _ w' =>
      Takes kend mem 1 w w' := by
  rw [takePage, ends_bind, ends_onPhys]
  cases hfree : w.phys.freelist with
  | nil =>
    rw [ends_kalloc_nil hfree]
    exact ⟨rfl, Nat.one_pos⟩
  | cons p rest =>
    rw [ends_kalloc_cons hfree]
    dsimp only
    rw [ends_bind, ends_onPhys, ends_memset, ends_bind, ends_modify, ends_pure]
    refine ⟨⟨?_, h.top, ?_⟩, ?_⟩
    · exact congrArg (fun v : World => { v with
        phys := { v.phys with
          freelist := rest
          mem := blit v.phys.mem p PGSIZE fun _ => 0 }
        fixed := v.fixed ++ [p] }) h.rest
    · show (rest ++ (w.fixed ++ [p])).Perm (freerange kend)
      refine List.Perm.trans ?_ h.perm
      rw [hfree, ← append_assoc]
      exact perm_append_singleton p _
    · rw [hfree]
      exact Nat.le_refl _

theorem Takes.trans {m n : ℕ} {w'' : World} (h : Takes kend mem m w w')
    (h' : Takes kend mem n w' w'') : Takes kend mem (m + n) w w'' :=
  ⟨h'.1, by have := h.2; have := h'.2; omega⟩

theorem takes_bind {α β : Type} {m n : ℕ} {x : W α} {f : α → W β}
    (hx : Ends x w (fun e => e = .outOfMemory ∧ w.phys.freelist.length < m)
      fun _ w' => Takes kend mem m w w')
    (hf : ∀ a w', Starting kend mem w' →
      Ends (f a) w' (fun e => e = .outOfMemory ∧ w'.phys.freelist.length < n)
        fun _ w'' => Takes kend mem n w' w'') :
    Ends (x >>= f) w (fun e => e = .outOfMemory ∧ w.phys.freelist.length < m + n)
      fun _ w'' => Takes kend mem (m + n) w w'' := by
  rw [ends_bind]
  refine hx.mono (fun e he => ⟨he.1, by omega⟩) fun a w' hw' => ?_
  refine (hf a w' hw'.1).mono (fun e he => ⟨he.1, ?_⟩) fun _ w'' hw'' => hw'.trans hw''
  have := hw'.2
  omega

theorem kvmalloc_takes (h : Starting kend mem w) :
    Ends kvmalloc w (fun e => e = .outOfMemory ∧ w.phys.freelist.length < 2) fun _ w' =>
      Takes kend mem 2 w w' := by
  refine takes_bind (m := 1) (n := 1) (takePage_takes h) fun kpml4 w₁ h₁ => ?_
  refine takes_bind (m := 1) (n := 0) (takePage_takes h₁) fun kpdpt w₂ h₂ => ?_
  rw [ends_bind, ends_onPhys, ends_setPte, ends_bind, ends_onPhys, ends_setPte, ends_bind,
    ends_onPhys, ends_setPte, ends_modify]
  exact ⟨h₂.store rfl rfl, Nat.le_refl _⟩

theorem tvinit_takes (h : Starting kend mem w) :
    Ends tvinit w (fun e => e = .outOfMemory ∧ w.phys.freelist.length < 1) fun _ w' =>
      Takes kend mem 1 w w' := by
  refine takes_bind (m := 1) (n := 0) (takePage_takes h) fun p w₁ h₁ => ?_
  exact ends_pure.mpr ⟨h₁, Nat.le_refl _⟩

theorem seginit_takes (h : Starting kend mem w) :
    Ends seginit w (fun e => e = .outOfMemory ∧ w.phys.freelist.length < 1) fun _ w' =>
      Takes kend mem 1 w w' :=
  tvinit_takes h

theorem startothers_takes (n : ℕ) (h : Starting kend mem w) :
    Ends (startothers n) w (fun e => e = .outOfMemory ∧ w.phys.freelist.length < 2 * n) fun _ w' =>
      Takes kend mem (2 * n) w w' := by
  have hloop := ends_forM (l := List.range n) (s := w)
    (f := fun _ => do
      let _ ← takePage
      seginit)
    (E := fun e => e = .outOfMemory ∧ w.phys.freelist.length < 2 * n)
    (I := fun done w' => Takes kend mem (2 * done.length) w w') ⟨h, Nat.le_refl _⟩ ?_
  · refine hloop.mono (fun _ he => he) fun _ w' hw' => ?_
    rwa [length_range] at hw'
  · intro done x rest w₁ hl hw₁
    have hlen : done.length + 1 ≤ n := by
      have := congrArg List.length hl
      rw [length_range, length_append, length_cons] at this
      omega
    refine (takes_bind (m := 1) (n := 1) (takePage_takes hw₁.1) fun p w₂ h₂ =>
      seginit_takes h₂).mono (fun e he => ⟨he.1, ?_⟩) fun _ w₂ hw₂ => ?_
    · have := hw₁.2
      omega
    · rw [length_append, length_singleton, Nat.mul_add]
      exact hw₁.trans hw₂

variable {init : List Byte}

/-- `inituvm` on an empty address space maps one page. -/
theorem inituvm_maps {s : Phys} {d : ℕ} (h : s.Tree d) (hempty : ∀ va < userTop, s.pte d va = 0) :
    Ends (inituvm d init) s
      (fun e => e = .inituvm ∧ PGSIZE ≤ init.length ∨ e = .outOfMemory ∧ s.freelist.length < 4)
      fun _ s' => Moves d s s' ∧ s.freelist.length ≤ s'.freelist.length + 4 ∧
        ∀ va < userTop, present (s'.pte d va) = true ↔ PGSIZE ≤ va ∧ va < 2 * PGSIZE := by
  have hal : PGSIZE % PGSIZE = 0 := Nat.mod_self _
  have hau : PGSIZE < userTop := by decide
  have htables : Radix.missing (s.Has d) (ways PGSIZE) ≤ 3 := Radix.missing_le_length
  unfold inituvm
  split
  · next hlong => exact ends_throw.mpr (.inl ⟨rfl, hlong⟩)
  next hshort =>
  rw [ends_bind]
  cases hfree : s.freelist with
  | nil =>
    rw [ends_kalloc_nil hfree]
    exact .inr ⟨rfl, by decide⟩
  | cons q rest =>
    have hq := h.valid_free (hfree ▸ mem_cons_self)
    rw [ends_kalloc_cons hfree]
    dsimp only
    rw [ends_bind, ends_memset, ends_bind]
    refine (mappages_places h hfree hal hau (by decide)).mono ?_ ?_
    · rintro e (⟨rfl, hp⟩ | ⟨rfl, hfew⟩)
      · rw [hempty _ hau, present_zero] at hp
        cases hp
      · exact .inr ⟨rfl, by rw [hfree] at hfew; omega⟩
    · rintro - s₁ ⟨-, hp⟩
      obtain ⟨hpresent, haddr, -⟩ := heapEntry_eq hq.aligned
      have hpte := hp.ptes PGSIZE hau
      rw [if_pos rfl] at hpte
      have hw : Writes d s₁ { s₁ with mem := blit s₁.mem q init.length fun k => init.getD k 0 } := by
        have hblit := writes_blit (s := s₁) (t := d) (o := 0) (n := init.length)
          (f := fun k => init.getD k 0) hau (.inl (hpte ▸ hpresent)) (by omega)
        rwa [hpte, haddr] at hblit
      have htree := hp.tree h
      rw [ends_modify, ← hfree]
      refine ⟨hp.moves.trans (hw.moves htree), ?_, ?_⟩
      · have hcount := hp.count
        show s.freelist.length ≤ s₁.freelist.length + 4
        omega
      intro va hva
      rw [hw.pte htree hva, hp.ptes va hva]
      split
      · next hpage =>
          rw [page_eq_iff hal] at hpage
          exact iff_of_true hpresent (by omega)
      · next hpage =>
          rw [page_eq_iff hal] at hpage
          rw [hempty va hva, present_zero]
          exact iff_of_false Bool.false_ne_true (by omega)

/-- One process, which has one page, and no open file. -/
structure Booted (kend : ℕ) (w : World) : Prop where
  kernel : w.kernel = Sched.Machine.bootKernel
  ofile : ∀ i fd, w.ofile i fd = none
  file : ∀ f, (w.file f).ref = 0 ∧ (w.file f).type = .none
  top : w.phys.kend = kend
  perm : (w.phys.freelist ++ (w.phys.pages (w.pgdir 0) ++ w.kstack 0 :: w.fixed)).Perm
    (freerange kend)
  mapped : ∀ va < userTop,
    present (w.phys.pte (w.pgdir 0) va) = true ↔ PGSIZE ≤ va ∧ va < 2 * PGSIZE

theorem freeSlot_start : Sched.freeSlot (fun _ => Sched.Proc.zero) = some 0 := by
  rw [Sched.freeSlot]
  rfl

theorem userinit_booted (h : Starting kend mem w) (hk : 0 < kend) (hkend : kend ≤ PHYSTOP) :
    Ends (userinit init) w
      (fun e => e = .inituvm ∧ PGSIZE ≤ init.length ∨
        e = .outOfMemory ∧ w.phys.freelist.length < 6)
      fun _ w' => Booted kend w' ∧ w.phys.freelist.length ≤ w'.phys.freelist.length + 6 := by
  have hheap := h.heap hk hkend
  have hslot : Sched.freeSlot w.kernel.proc = some 0 := by
    rw [h.rest]
    exact freeSlot_start
  rw [userinit, ends_bind, allocproc, ends_bind, ends_get, hslot]
  dsimp only
  rw [ends_bind, ends_set, ends_bind, ends_onPhys]
  cases hfree : w.phys.freelist with
  | nil =>
    rw [ends_kalloc_nil hfree]
    exact .inr ⟨rfl, by decide⟩
  | cons stack rest =>
    have hpop := hheap.pop hfree
    rw [ends_kalloc_cons hfree]
    dsimp only
    rw [ends_bind, ends_modify, ends_pure]
    dsimp only
    rw [ends_bind, ends_modify, ends_bind, ends_onPhys]
    refine (setupkvm_empties (fun p hp => hpop.valid p (mem_append_left _ hp))).mono ?_ ?_
    · rintro e ⟨rfl, hnil⟩
      have hnil' : rest = [] := hnil
      exact .inr ⟨rfl, by simp [hnil']⟩
    rintro - s₁ ⟨d, rfl, hempty⟩
    have hheap₁ := hempty.makes.heap hpop
    have hlen : rest.length = s₁.freelist.length + 1 := congrArg List.length hempty.freelist
    dsimp only
    rw [ends_bind, ends_modify, ends_bind, ends_onPhys]
    refine (inituvm_maps hheap₁.left fun va hva => hempty.pte hva).mono ?_ ?_
    · rintro e (hinit | ⟨rfl, hfew⟩)
      · exact .inl hinit
      · have hfew' : s₁.freelist.length < 4 := hfew
        exact .inr ⟨rfl, by rw [length_cons]; omega⟩
    rintro - s₂ ⟨hmoves, hfew, hmapped⟩
    have hfew' : s₁.freelist.length ≤ s₂.freelist.length + 4 := hfew
    rw [ends_modify]
    refine ⟨⟨?_, ?_, ?_, ?_, ?_, ?_⟩, ?_⟩
    · rw [h.rest]
      rfl
    · rw [h.rest]
      exact fun _ _ => rfl
    · rw [h.rest]
      exact fun _ => ⟨rfl, rfl⟩
    · exact hmoves.kend.trans (hempty.kend.trans h.top)
    · -- the pages went from the free list to the tree, and the first one to the stack
      have htree : (s₂.freelist ++ s₂.pages d).Perm rest := hmoves.perm.trans hempty.makes.perm
      have hall : (s₂.freelist ++ (s₂.pages d ++ stack :: w.fixed)).Perm (freerange kend) := by
        rw [← append_assoc]
        refine (htree.append_right _).trans (perm_middle.trans ?_)
        have hperm := h.perm
        rwa [hfree] at hperm
      simpa using hall
    · simpa using hmapped
    · show (stack :: rest).length ≤ s₂.freelist.length + 6
      rw [length_cons]
      omega

theorem freerange_length (kend : ℕ) :
    (freerange kend).length = (PHYSTOP - pgroundup kend) / PGSIZE := by
  rw [freerange, length_reverse, length_map, length_range]

/-- `main` boots, given an image that fits and pages enough. -/
theorem main_booted {n : ℕ} (hk : 0 < kend) (hkend : kend ≤ PHYSTOP) :
    Ends (main n init) (World.start kend mem)
      (fun e => e = .inituvm ∧ PGSIZE ≤ init.length ∨
        e = .outOfMemory ∧ (freerange kend).length < 2 * n + 10)
      fun _ w =>
        Booted kend w ∧ (freerange kend).length ≤ w.phys.freelist.length + (2 * n + 10) := by
  have hstart : (World.start kend mem).phys.freelist = freerange kend := rfl
  rw [main, ends_bind]
  refine (kvmalloc_takes starting_start).mono (fun e he => .inr ⟨he.1, ?_⟩) fun _ w₁ h₁ => ?_
  · have := he.2
    rw [hstart] at this
    omega
  have hlen₁ := h₁.2
  rw [hstart] at hlen₁
  rw [ends_bind]
  refine (tvinit_takes h₁.1).mono (fun e he => .inr ⟨he.1, by omega⟩) fun _ w₂ h₂ => ?_
  have hlen₂ := h₂.2
  rw [ends_bind]
  refine (seginit_takes h₂.1).mono (fun e he => .inr ⟨he.1, by omega⟩) fun _ w₃ h₃ => ?_
  have hlen₃ := h₃.2
  rw [ends_bind]
  refine (startothers_takes n h₃.1).mono (fun e he => .inr ⟨he.1, by omega⟩) fun _ w₄ h₄ => ?_
  have hlen₄ := h₄.2
  refine (userinit_booted h₄.1 hk hkend).mono ?_ fun _ w₅ h₅ => ⟨h₅.1, by omega⟩
  rintro e (hinit | ⟨rfl, hfew⟩)
  · exact .inl hinit
  · exact .inr ⟨rfl, by omega⟩

theorem Booted.heap (h : Booted kend w) (hk : 0 < kend) (hkend : kend ≤ PHYSTOP) :
    w.phys.Heap (w.phys.pages (w.pgdir 0) ++ w.kstack 0 :: w.fixed) :=
  heap_of_freerange hk hkend h.top h.perm

/-- A kernel that ends below 2 MB boots with 2000 free pages and more. -/
theorem exists_booted : ∃ w, Booted 0x200000 w ∧ 2000 ≤ w.phys.freelist.length := by
  have hk : 0 < 0x200000 := Nat.succ_pos _
  have hround : (PHYSTOP - pgroundup 0x200000) / PGSIZE = 56832 := by decide
  have hends : Ends (main 0 []) (World.start 0x200000 fun _ => 0) (fun _ => False) fun _ w =>
      Booted 0x200000 w ∧ 2000 ≤ w.phys.freelist.length := by
    refine (main_booted hk (by decide)).mono ?_ ?_
    · rintro e (⟨-, hlong⟩ | ⟨-, hfew⟩)
      · exact absurd hlong (by decide)
      · rw [freerange_length, hround] at hfew
        omega
    · rintro _ w ⟨hbooted, hfree⟩
      rw [freerange_length, hround] at hfree
      exact ⟨hbooted, by omega⟩
  obtain ⟨_, w, -, hw⟩ := hends.exists_ok
  exact ⟨w, hw⟩

end Xv6.Vm
