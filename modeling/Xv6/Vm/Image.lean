import Xv6.Vm.Boot
import Xv6.Vm.Load

/-!
# The image that `exec` builds

While `exec` loads a program, the new page table maps the pages of `[PGSIZE, sz)` and nothing else,
and the tables in it are those on the way to these pages (`Image`), so that the free pages that are
left are a matter of the size. How the loop over the segments goes is a function of the file
(`plan`): it comes to an end, or a segment makes `exec` fail and leaves a table that `freevm` can take
apart, or the first segment with bytes lies below the first page, and `loaduvm` panics. And it panics
when memory runs out on the way.
-/

namespace Xv6.Vm

open Blit Fallible List
open Bytes (Byte)
open Sched (PGSIZE)

variable {s s' s'' : Phys} {d sz newsz va vb : ℕ} {file : List Byte} {E : Panic → Prop}

open Phys

/-! ## Sizes -/

theorem pgroundup_eq {a : ℕ} (h : a < KERNBASE) : pgroundup a = (a + 4095) / 4096 * 4096 := by
  rw [KERNBASE] at h
  rw [pgroundup, pgsize_eq, Nat.mod_eq_of_lt (by omega)]

/-- The pages that `allocuvm` adds reach from one rounded size to the other. -/
theorem pgroundup_add {oldsz : ℕ} (hle : oldsz ≤ newsz) (hlt : newsz < KERNBASE) :
    pgroundup oldsz + pagesTo (pgroundup oldsz) newsz * PGSIZE = pgroundup newsz := by
  rw [pgroundup_eq hlt, pgroundup_eq (hle.trans_lt hlt), pagesTo, pgsize_eq]
  omega

/-- The pages of an image, and where they end. -/
theorem pagesTo_add (hlow : PGSIZE ≤ sz) (hle : sz ≤ newsz) (hlt : newsz < KERNBASE) :
    PGSIZE + pagesTo PGSIZE sz * PGSIZE = pgroundup sz ∧
      pagesTo PGSIZE newsz = pagesTo PGSIZE sz + pagesTo (pgroundup sz) newsz := by
  rw [pgroundup_eq (hle.trans_lt hlt)]
  simp only [pagesTo, pgsize_eq] at *
  omega

theorem spacePages_mono {m n : ℕ} (h : m ≤ n) : spacePages m ≤ spacePages n := by
  obtain ⟨k, rfl⟩ := Nat.exists_eq_add_of_le h
  rw [spacePages_add]
  exact Nat.le_add_right _ _

theorem pagesTo_mono {a z z' : ℕ} (h : z ≤ z') : pagesTo a z ≤ pagesTo a z' := by
  simp only [pagesTo, pgsize_eq]
  omega

/-- Exactly the pages of `[PGSIZE, PGROUNDUP(sz))` are present. -/
def Mapped (s : Phys) (d sz : ℕ) : Prop :=
  ∀ va < userTop, present (s.pte d va) = true ↔ PGSIZE ≤ va ∧ va < pgroundup sz

/-- All the pages below the size have frames of their own, so there are not many of them. -/
theorem Mapped.small (hm : Mapped s d sz) (h : s.Tree d) : pgroundup sz ≤ PGSIZE + PHYSTOP := by
  by_contra hlarge
  have hva : ∀ j < PHYSTOP / PGSIZE + 1, PGSIZE + j * PGSIZE < userTop ∧
      present (s.pte d (PGSIZE + j * PGSIZE)) = true := by
    intro j hj
    have hlt : PGSIZE + j * PGSIZE ≤ PGSIZE + PHYSTOP := by
      rw [PHYSTOP] at *
      rw [pgsize_eq] at *
      omega
    have huser : PGSIZE + PHYSTOP < userTop := by decide
    exact ⟨by omega, (hm _ (by omega)).mpr ⟨Nat.le_add_right _ _, by omega⟩⟩
  have hnodup : ((List.range (PHYSTOP / PGSIZE + 1)).map fun j =>
      pteAddr (s.pte d (PGSIZE + j * PGSIZE))).Nodup := by
    refine List.Nodup.map_on ?_ nodup_range
    intro j hj k hk heq
    obtain ⟨hju, hjp⟩ := hva j (mem_range.mp hj)
    obtain ⟨hku, hkp⟩ := hva k (mem_range.mp hk)
    have hpage := h.leaf_inj hju hku hjp hkp heq
    rw [pgsize_eq] at hpage
    omega
  have hle := length_le_of_valid hnodup (s := s) fun p hp => by
    obtain ⟨j, hj, rfl⟩ := mem_map.mp hp
    obtain ⟨hju, hjp⟩ := hva j (mem_range.mp hj)
    exact h.valid_page (h.leaf hju hjp).1
  rw [length_map, length_range] at hle
  omega

/-! ## The image -/

/-- The tree at `d` maps the pages of `[PGSIZE, PGROUNDUP(sz))`. Before it was made, `n` pages were
free. -/
structure Image (n d sz : ℕ) (s : Phys) : Prop where
  tree : s.Tree d
  mapped : Mapped s d sz
  zero : ∀ va < userTop, present (s.pte d va) = false → s.pte d va = 0
  blank : ∀ i, NPDENTRIES / 2 < i → s.cell d i = 0
  low : PGSIZE ≤ sz
  user : sz < KERNBASE
  has : ∀ i is, s.Has d (i :: is) ↔ i :: is ∈ waysTo PGSIZE (pagesTo PGSIZE sz)
  count : s.freelist.length + spacePages (pagesTo PGSIZE sz) = n
  /-- There is not enough memory to get to the end of the user half. -/
  room : n ≤ PHYSTOP / PGSIZE

namespace Image

variable {n : ℕ}

theorem of_empties (h : Empties d s s') (htree : s'.Tree d)
    (hroom : s.freelist.length ≤ PHYSTOP / PGSIZE) : Image s.freelist.length d PGSIZE s' where
  tree := htree
  mapped va hva := by
    rw [h.pte hva, present_zero]
    refine iff_of_false Bool.false_ne_true ?_
    have : pgroundup PGSIZE = PGSIZE := by decide
    omega
  zero va hva _ := h.pte hva
  blank := h.blank
  low := Nat.le_refl _
  user := by decide
  has i is := iff_of_false h.not_has not_mem_nil
  count := by
    rw [h.freelist]
    rfl
  room := hroom

theorem below (h : Image n d sz s) : sz ≤ pgroundup sz := by
  rw [pgroundup_eq h.user]
  omega

theorem top_lt (h : Image n d sz s) :
    pgroundup sz + s.freelist.length * PGSIZE < userTop := by
  have hpages := (pagesTo_add h.low (Nat.le_refl sz) h.user).1
  have hcount := h.count
  have hroom := h.room
  rw [← hpages]
  generalize pagesTo PGSIZE sz = k at hcount ⊢
  rw [spacePages] at hcount
  rw [PHYSTOP, pgsize_eq] at hroom
  rw [userTop, pgsize_eq]
  omega

theorem ne_zero (h : Image n d sz s) : sz ≠ 0 := by
  have hlow := h.low
  rw [pgsize_eq] at hlow
  omega

/-- A table is there for each address below the size, also for those of the first page, which has
its entry in the table of the second. -/
theorem lastTable (h : Image n d sz s) (hmore : PGSIZE < sz) (hvb : vb < pgroundup sz) :
    s.lastTable d vb ≠ none := by
  have hroom := h.top_lt
  have hbelow := h.below
  have hsome : ∀ va, PGSIZE ≤ va → va < pgroundup sz → s.lastTable d va ≠ none := by
    intro va hlo hhi
    exact lastTable_of_present ((h.mapped va (by omega)).mpr ⟨hlo, hhi⟩)
  by_cases hlo : PGSIZE ≤ vb
  · exact hsome vb hlo hvb
  · have hfirst := hsome PGSIZE (Nat.le_refl _) (by omega)
    have hzero : ∀ ℓ, 0 < ℓ → index ℓ vb = 0 ∧ index ℓ PGSIZE = 0 := by
      intro ℓ hl
      have hpow : (2 : ℕ) ^ 21 ≤ 2 ^ (12 + 9 * ℓ) := Nat.pow_le_pow_right (by decide) (by omega)
      rw [pgsize_eq] at *
      rw [index, index, Nat.div_eq_of_lt (by omega), Nat.div_eq_of_lt (by omega)]
      exact ⟨rfl, rfl⟩
    rw [Phys.lastTable, (hzero 3 (by decide)).1, (hzero 2 (by decide)).1, (hzero 1 (by decide)).1]
    rwa [Phys.lastTable, (hzero 3 (by decide)).2, (hzero 2 (by decide)).2,
      (hzero 1 (by decide)).2] at hfirst

/-- As long as nothing is mapped, there are no tables. -/
theorem lastTable_none (h : Image n d PGSIZE s) (hva : va < userTop) : s.lastTable d va = none := by
  refine Option.eq_none_iff_forall_ne_some.mpr fun T hT => ?_
  have hin := (h.has _ _).mp ⟨0, T, (lastTable_eq_some hva).mp hT⟩
  cases hin

theorem writes (h : Image n d sz s) (w : Writes d s s') : Image n d sz s' where
  tree := w.tree h.tree
  mapped va hva := by rw [w.pte h.tree hva, h.mapped va hva]
  zero va hva hp := by
    rw [w.pte h.tree hva] at hp ⊢
    exact h.zero va hva hp
  blank i hi := by
    rw [← h.blank i hi]
    exact (w.sameTables h.tree).cells (4, d) Radix.root_mem_nodes (Nat.succ_pos 3) i
  low := h.low
  user := h.user
  has i is := ((w.sameTables h.tree).has _).trans (h.has i is)
  count := by
    rw [w.freelist]
    exact h.count
  room := h.room

/-- What it takes to grow the image. -/
theorem mapCost_eq (h : Image n d sz s) (hle : sz ≤ newsz) (hlt : newsz < KERNBASE) :
    spacePages (pagesTo PGSIZE newsz) = spacePages (pagesTo PGSIZE sz) +
      mapCost s d (pgroundup sz) (pagesTo (pgroundup sz) newsz) := by
  obtain ⟨htop, hpages⟩ := pagesTo_add h.low hle hlt
  rw [hpages, spacePages_add, htop, mapCost]
  congr 2
  refine Radix.missing_congr fun js hjs => ?_
  obtain ⟨i, is, rfl⟩ := exists_cons_of_mem_waysTo hjs
  exact (h.has i is).symm

theorem allocs (h : Image n d sz s) (hle : sz ≤ newsz) (hlt : newsz < KERNBASE)
    (a : Allocs d (pgroundup sz) (pagesTo (pgroundup sz) newsz) s s') : Image n d newsz s' := by
  have hadd := pgroundup_add hle hlt
  obtain ⟨htop, hpages⟩ := pagesTo_add h.low hle hlt
  have hbelow := h.below
  have hlow := h.low
  refine ⟨a.tree h.tree, ?_, ?_, ?_, h.low.trans hle, hlt, ?_, ?_, h.room⟩
  · intro va hva
    by_cases hin : pgroundup sz ≤ va ∧ va < pgroundup sz + pagesTo (pgroundup sz) newsz * PGSIZE
    · exact iff_of_true (a.inside va hva hin.1 hin.2).1 (by omega)
    · rw [a.outside va hva (by omega), h.mapped va hva]
      omega
  · intro va hva hp
    by_cases hin : pgroundup sz ≤ va ∧ va < pgroundup sz + pagesTo (pgroundup sz) newsz * PGSIZE
    · rw [(a.inside va hva hin.1 hin.2).1] at hp
      cases hp
    · rw [a.outside va hva (by omega)] at hp ⊢
      exact h.zero va hva hp
  · intro i hi
    rw [a.half i hi.le]
    exact h.blank i hi
  · intro i is
    rw [a.has, h.has, hpages, waysTo_add, htop, mem_append]
  · have hcount := a.count
    rw [h.mapCost_eq hle hlt, ← h.count]
    omega

theorem allocuvm_image (h : Image n d sz s) :
    Ends (allocuvm d sz newsz) s
      (fun e => e = .outOfMemory ∧ sz ≤ newsz ∧ newsz < KERNBASE ∧
        n < spacePages (pagesTo PGSIZE newsz))
      fun r s' => r = 0 ∧ s' = s ∧ KERNBASE ≤ newsz ∨
        r = max sz newsz ∧ newsz < KERNBASE ∧ Image n d r s' ∧
          Allocs d (pgroundup sz) (pagesTo (pgroundup sz) r) s s' := by
  refine (allocuvm_allocs h.tree h.top_lt).mono ?_ ?_
  · rintro e ⟨hlt, hle, ⟨rfl, vb, hvb, hlo, -, hp⟩ | ⟨rfl, hfew⟩⟩
    · have := ((h.mapped vb hvb).mp hp).2
      omega
    · have hcount := h.count
      have hcost := h.mapCost_eq hle hlt
      exact ⟨rfl, hle, hlt, by omega⟩
  · rintro r s' (⟨hhigh, rfl, rfl⟩ | ⟨hlt, hless, rfl, rfl⟩ | ⟨hlt, hle, rfl, ha⟩)
    · exact .inl ⟨rfl, rfl, hhigh⟩
    · have hnone : pagesTo (pgroundup r) r = 0 := by
        rw [pagesTo, Nat.sub_eq_zero_of_le h.below]
        decide
      refine .inr ⟨(Nat.max_eq_left hless.le).symm, hlt, h, ?_⟩
      rw [hnone]
      exact .refl d _ s'
    · exact .inr ⟨(Nat.max_eq_right hle).symm, hlt, h.allocs hle hlt ha, ha⟩

end Image

/-! ## The segments -/

theorem readProghdr_lt {off : ℕ} {ph : Proghdr} (h : readProghdr file off = some ph) :
    ph.vaddr < 2 ^ 64 ∧ ph.memsz < 2 ^ 64 := by
  rw [readProghdr, Option.map_eq_some_iff] at h
  obtain ⟨bs, -, rfl⟩ := h
  exact ⟨leNat_lt, leNat_lt⟩

/-- The bytes of a segment are in the file. The offset is a `uint` by the time they are read. -/
def Proghdr.Readable (ph : Proghdr) (file : List Byte) : Prop :=
  0 < ph.filesz → ph.off % 2 ^ 32 + ph.filesz ≤ file.length ∧ ph.off % 2 ^ 32 + ph.filesz < 2 ^ 32

instance (ph : Proghdr) (file : List Byte) : Decidable (ph.Readable file) :=
  inferInstanceAs (Decidable (_ → _))

/-- How the loop of `exec` over the segments ends. -/
inductive Plan where
  /-- The jump to `bad`, with an image of this size. -/
  | bad (sz : ℕ)
  /-- `loaduvm` finds no table. -/
  | low
  /-- An image of this size. -/
  | image (sz : ℕ)
  deriving DecidableEq

/-- What the headers say about `n` more of them, the next one at `off`, and an image of size `sz`. -/
def plan (file : List Byte) : ℕ → ℕ → ℕ → Plan
  | 0, _, sz => .image sz
  | n + 1, off, sz =>
    match readProghdr file off with
    | none => .bad sz
    | some ph =>
      if ph.type ≠ ELF_PROG_LOAD then plan file n ((off + sizeofProghdr) % 2 ^ 32) sz
      else if ph.memsz < ph.filesz ∨ KERNBASE ≤ ph.vaddr + ph.memsz then .bad sz
      else if ph.vaddr % PGSIZE ≠ 0 then .bad (max sz (ph.vaddr + ph.memsz))
      else if max sz (ph.vaddr + ph.memsz) = PGSIZE ∧ 0 < ph.filesz then .low
      else if ph.Readable file then
        plan file n ((off + sizeofProghdr) % 2 ^ 32) (max sz (ph.vaddr + ph.memsz))
      else .bad (max sz (ph.vaddr + ph.memsz))

/-- The pages that the image takes before the loop ends. -/
def Plan.pages : Plan → ℕ
  | .bad sz => spacePages (pagesTo PGSIZE sz)
  | .low => spacePages 0
  | .image sz => spacePages (pagesTo PGSIZE sz)

/-- The image only grows. -/
theorem le_plan (n : ℕ) : ∀ {off sz : ℕ},
    spacePages (pagesTo PGSIZE sz) ≤ (plan file n off sz).pages := by
  induction n with
  | zero => intro off sz; exact Nat.le_refl _
  | succ n ih =>
    intro off sz
    have hmax : ∀ z, spacePages (pagesTo PGSIZE sz) ≤ spacePages (pagesTo PGSIZE (max sz z)) :=
      fun z => spacePages_mono (pagesTo_mono (Nat.le_max_left sz z))
    rw [plan]
    cases readProghdr file off with
    | none => exact Nat.le_refl _
    | some ph =>
      dsimp only
      split
      · exact ih
      split
      · exact Nat.le_refl _
      split
      · exact hmax _
      split
      · next hlow =>
          have hfirst : pagesTo PGSIZE PGSIZE = 0 := by decide
          have hsz := hmax (ph.vaddr + ph.memsz)
          rwa [hlow.1, hfirst] at hsz
      split
      · exact (hmax _).trans ih
      · exact hmax _

/-- What `loaduvm` does for a segment that is inside the image. -/
theorem Image.loaduvm_image {n : ℕ} {ph : Proghdr} (h : Image n d sz s)
    (hal : ph.vaddr % PGSIZE = 0) (hend : ph.vaddr + ph.filesz ≤ sz) :
    Ends (loaduvm d ph.vaddr file ph.off ph.filesz) s
      (fun e => e = .loaduvmAddress ∧ sz = PGSIZE ∧ 0 < ph.filesz)
      fun ok s' => Writes d s s' ∧ ¬ (sz = PGSIZE ∧ 0 < ph.filesz) ∧
        (ok = true ↔ ph.Readable file) := by
  have htop := h.top_lt
  have hbelow := h.below
  have hsmall := Mapped.small h.mapped h.tree
  refine (loaduvm_writes h.tree h.zero hal (by omega) ?_).mono ?_ ?_
  · rw [PHYSTOP, pgsize_eq] at hsmall
    omega
  · rintro e ⟨rfl, vb, hlo, hhi, hnone⟩
    refine ⟨rfl, ?_, by omega⟩
    by_contra hmore
    exact h.lastTable (lt_of_le_of_ne h.low (Ne.symm hmore)) (by omega) hnone
  · rintro ok s' ⟨hw, hok, hthere⟩
    refine ⟨hw, ?_, hok⟩
    rintro ⟨rfl, hpos⟩
    exact hthere hpos (h.lastTable_none (by omega))

/-- The loop over the segments goes as planned. -/
theorem loadSegments_image {n : ℕ} (k : ℕ) : ∀ {off sz : ℕ} {s : Phys}, Image n d sz s →
    Ends (loadSegments file d k off sz) s
      (fun e => e = .outOfMemory ∧ n < (plan file k off sz).pages ∨
        e = .loaduvmAddress ∧ plan file k off sz = .low)
      fun o s' => Moves d s s' ∧ ∃ sz', Image n d sz' s' ∧
        (o = none ∧ plan file k off sz = .bad sz' ∨
          o = some sz' ∧ plan file k off sz = .image sz') := by
  induction k with
  | zero =>
    intro off sz s h
    exact ends_pure.mpr ⟨.refl d s, sz, h, .inr ⟨rfl, rfl⟩⟩
  | succ k ih =>
    intro off sz s h
    rw [loadSegments, plan]
    cases hread : readProghdr file off with
    | none => exact ends_pure.mpr ⟨.refl d s, sz, h, .inl ⟨rfl, rfl⟩⟩
    | some ph =>
      obtain ⟨hvaddr, hmemsz⟩ := readProghdr_lt hread
      have hkern : KERNBASE < 2 ^ 64 := by decide
      dsimp only
      split
      · exact ih h
      split
      · next hsize => exact ends_pure.mpr ⟨.refl d s, sz, h, .inl ⟨rfl, if_pos (.inl hsize)⟩⟩
      next hsize =>
      split
      · next hwrap =>
          exact ends_pure.mpr ⟨.refl d s, sz, h, .inl ⟨rfl, if_pos (.inr (by omega))⟩⟩
      next hwrap =>
      rw [show (ph.vaddr + ph.memsz) % 2 ^ 64 = ph.vaddr + ph.memsz by omega, ends_bind]
      refine h.allocuvm_image.mono ?_ ?_
      · rintro e ⟨rfl, hle, hlt, hfew⟩
        refine .inl ⟨rfl, hfew.trans_le ?_⟩
        rw [if_neg (by omega), Nat.max_eq_right hle]
        split
        · exact Nat.le_refl _
        split
        · next hlow =>
            rw [hlow.1, show pagesTo PGSIZE PGSIZE = 0 by decide]
            exact Nat.le_refl _
        split
        · exact le_plan k
        · exact Nat.le_refl _
      rintro r s₁ (⟨rfl, rfl, hhigh⟩ | ⟨rfl, hlt, him, ha⟩)
      · rw [if_pos rfl, if_pos (.inr hhigh)]
        exact ends_pure.mpr ⟨.refl d s₁, sz, h, .inl ⟨rfl, rfl⟩⟩
      have hfits : ¬ (ph.memsz < ph.filesz ∨ KERNBASE ≤ ph.vaddr + ph.memsz) := by omega
      rw [if_neg him.ne_zero, if_neg hfits]
      by_cases hal : ph.vaddr % PGSIZE ≠ 0
      · rw [if_pos hal, if_pos hal]
        exact ends_pure.mpr ⟨ha.toGrows.moves, _, him, .inl ⟨rfl, rfl⟩⟩
      rw [if_neg hal, if_neg hal, ends_bind]
      refine (him.loaduvm_image (not_not.mp hal) (by omega)).mono ?_ ?_
      · rintro e ⟨rfl, hlow⟩
        exact .inr ⟨rfl, if_pos hlow⟩
      rintro ok s₂ ⟨hw, hhigh, hok⟩
      have hm := ha.toGrows.moves.trans (hw.moves him.tree)
      rw [if_neg hhigh]
      split
      · next htrue =>
          rw [if_pos (hok.mp htrue)]
          refine (ih (him.writes hw)).mono (fun _ he => he) ?_
          rintro o s₃ ⟨hm', hrest⟩
          exact ⟨hm.trans hm', hrest⟩
      · next hfalse =>
          rw [if_neg fun hin => hfalse (hok.mpr hin)]
          exact ends_pure.mpr ⟨hm, _, him.writes hw, .inl ⟨rfl, rfl⟩⟩

end Xv6.Vm
