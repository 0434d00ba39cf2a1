import Xv6.Vm.User

/-!
# Filling an address space

The two functions of `vm.c` that only `exec` uses. `loaduvm` reads a part of a file to pages that
should be mapped. It does not look at the flags of an entry, so below the first page it stores at
address 0. `clearpteu` changes the flags of one entry.
-/

namespace Xv6.Vm

open Blit Fallible List
open Bytes (Byte)
open Sched (PGSIZE)

variable {s s' : Phys} {t p va vb : ℕ} {E : Panic → Prop}

open Phys

/-! ## `loaduvm` -/

theorem readi_eq {file bs : List Byte} {off n : ℕ} (h : readi file off n = some bs) :
    bs = (file.drop off).take n ∧ off ≤ file.length ∧ off ≤ (off + n) % 2 ^ 32 := by
  unfold readi at h
  split at h
  · cases h
  · cases h
    exact ⟨rfl, by omega, by omega⟩

theorem readi_none {file : List Byte} {off n : ℕ} (h : readi file off n = none) :
    file.length < off ∨ (off + n) % 2 ^ 32 < off := by
  unfold readi at h
  split at h
  · assumption
  · cases h

/-- The loop of `loaduvm`. An entry that is absent is 0, so what is read goes to address 0. -/
theorem loaduvmLoop_writes {addr offset sz : ℕ} {file : List Byte} (n : ℕ) :
    ∀ {i : ℕ} {s : Phys}, s.Tree t →
    (∀ va < userTop, present (s.pte t va) = false → s.pte t va = 0) →
    n = pagesTo i sz → (i < sz → offset + i < 2 ^ 32) → addr + i + n * PGSIZE ≤ userTop →
    Ends (loaduvmLoop t addr file offset sz n i) s
      (fun e => e = .loaduvmAddress ∧ ∃ j < n, s.lastTable t (addr + i + j * PGSIZE) = none)
      fun ok s' => Writes t s s' ∧
        (ok = true ↔ (i < sz → offset + sz ≤ file.length ∧ offset + sz < 2 ^ 32)) ∧
        (0 < n → s.lastTable t (addr + i) ≠ none) := by
  induction n with
  | zero =>
    intro i s _ _ hn _ _
    refine ends_pure.mpr ⟨.refl t s, iff_of_true rfl fun hmore => ?_, fun hn => by omega⟩
    rw [pagesTo, pgsize_eq] at hn
    omega
  | succ n ih =>
    intro i s h hzero hn hwrap htop
    rw [Nat.succ_mul] at htop
    have hmore : i < sz ∧ n = pagesTo (i + PGSIZE) sz := by
      rw [pagesTo, pgsize_eq] at *
      omega
    have hva : addr + i < userTop := by
      rw [pgsize_eq] at htop
      omega
    rw [loaduvmLoop, ends_bind, ends_walkpgdir]
    cases hlast : s.lastTable t (addr + i) with
    | none =>
      exact ends_throw.mpr ⟨rfl, 0, Nat.succ_pos n, by rwa [Nat.zero_mul]⟩
    | some T =>
      have hthere : 0 < n + 1 → some T ≠ none := fun _ => Option.some_ne_none T
      rw [Option.map_some]
      dsimp only
      rw [ends_bind, ends_load (index_lt 0 _), ← pte_of_leads hva ((lastTable_eq_some hva).mp hlast),
        Nat.mod_eq_of_lt (hwrap hmore.1)]
      cases hread : readi file (offset + i) (min (sz - i) PGSIZE) with
      | none =>
        have hbad := readi_none hread
        exact ends_pure.mpr ⟨.refl t s, iff_of_false Bool.false_ne_true fun hfits => by
          have := hfits hmore.1
          omega, hthere⟩
      | some bs =>
        dsimp only
        obtain ⟨hbs, hle, hnowrap⟩ := readi_eq hread
        have hlen : bs.length = min (min (sz - i) PGSIZE) (file.length - (offset + i)) := by
          rw [hbs, length_take, length_drop]
        have he : present (s.pte t (addr + i)) = true ∨ s.pte t (addr + i) = 0 := by
          cases hp : present (s.pte t (addr + i)) with
          | true => exact .inl rfl
          | false => exact .inr (hzero _ hva hp)
        have hw := writes_blit (o := 0) (f := fun k => bs.getD k 0) hva he
          (show 0 + bs.length ≤ PGSIZE by omega)
        rw [Nat.add_zero] at hw
        rw [ends_bind, ends_modify]
        split
        · next hshort =>
            exact ends_pure.mpr ⟨hw, iff_of_false Bool.false_ne_true fun hfits => by
              have := hfits hmore.1
              omega, hthere⟩
        · next hfull =>
            have hsame := hw.sameTables h
            refine (ih (hw.tree h) ?_ hmore.2 ?_ (by omega)).mono ?_ ?_
            · intro va hva' hp
              rw [hw.pte h hva'] at hp ⊢
              exact hzero va hva' hp
            · intro hnext
              rw [Nat.min_eq_right (by omega), pgsize_eq] at hnowrap
              rw [pgsize_eq]
              omega
            · rintro e ⟨rfl, j, hj, hnone⟩
              refine ⟨rfl, j + 1, by omega, ?_⟩
              have hadd : addr + i + (j + 1) * PGSIZE = addr + (i + PGSIZE) + j * PGSIZE := by
                rw [Nat.succ_mul]
                omega
              have hpage : (j + 1) * PGSIZE ≤ n * PGSIZE := Nat.mul_le_mul_right PGSIZE hj
              rw [Nat.succ_mul] at hpage
              rw [hadd]
              rwa [hsame.lastTable (by rw [pgsize_eq] at *; omega)] at hnone
            · rintro ok s' ⟨hw', hwhole, -⟩
              refine ⟨hw.trans h hw', hwhole.trans ?_, hthere⟩
              rw [not_not] at hfull
              by_cases hnext : i + PGSIZE < sz
              · exact ⟨fun hfits _ => hfits hnext, fun hfits _ => hfits hmore.1⟩
              · have hstart := hwrap hmore.1
                have hlast : min (sz - i) PGSIZE = sz - i := by omega
                refine iff_of_true (fun hin => absurd hin hnext) fun _ => ?_
                rw [hlast] at hnowrap hfull hlen
                rw [pgsize_eq] at hnext
                omega

/-- `loaduvm` stores to pages of the user only, or at address 0. Its last two parameters are
`uint`s. -/
theorem loaduvm_writes {addr offset sz : ℕ} {file : List Byte} (h : s.Tree t)
    (hzero : ∀ va < userTop, present (s.pte t va) = false → s.pte t va = 0)
    (hal : addr % PGSIZE = 0) (htop : addr + sz ≤ userTop) (hsz : sz < 2 ^ 32) :
    Ends (loaduvm t addr file offset sz) s
      (fun e => e = .loaduvmAddress ∧ ∃ vb, addr ≤ vb ∧ vb < addr + sz ∧
        s.lastTable t vb = none)
      fun ok s' => Writes t s s' ∧ (ok = true ↔ (0 < sz → offset % 2 ^ 32 + sz ≤ file.length ∧
        offset % 2 ^ 32 + sz < 2 ^ 32)) ∧ (0 < sz → s.lastTable t addr ≠ none) := by
  have hpages : ∀ j < pagesTo 0 sz, j * PGSIZE < sz := by
    intro j hj
    rw [pagesTo, pgsize_eq] at hj
    rw [pgsize_eq]
    omega
  rw [loaduvm, if_neg (not_not.mpr hal), Nat.mod_eq_of_lt hsz]
  refine (loaduvmLoop_writes _ h hzero rfl ?_ ?_).mono ?_ fun _ _ hl =>
    ⟨hl.1, hl.2.1, fun hpos => hl.2.2 (by rw [pagesTo, pgsize_eq]; omega)⟩
  · intro _
    exact Nat.mod_lt _ (by decide)
  · rw [userTop] at *
    rw [pagesTo, pgsize_eq] at *
    omega
  · rintro e ⟨rfl, j, hj, hnone⟩
    exact ⟨rfl, _, by omega, by have := hpages j hj; omega, hnone⟩

/-! ## `clearpteu` -/

theorem clearedEntry_eq {e : ℕ} (h : present e = true) :
    present (e - (e &&& PTE_U)) = true ∧ pteAddr (e - (e &&& PTE_U)) = pteAddr e := by
  rw [present_iff] at *
  rw [and_user]
  unfold pteAddr
  rw [pgsize_eq]
  split <;> omega

theorem cleared_user (e : ℕ) : (e - (e &&& PTE_U)) &&& PTE_U = 0 := by
  rw [and_user (e - _), and_user e, if_neg]
  split <;> omega

/-- The user bit of the entry for `va` was cleared. -/
structure Clears (t va : ℕ) (s s' : Phys) : Prop extends Moves t s s' where
  freelist : s'.freelist = s.freelist
  ptes : ∀ vb < userTop, s'.pte t vb =
    if vb / PGSIZE = va / PGSIZE then s.pte t va - (s.pte t va &&& PTE_U) else s.pte t vb
  has : ∀ js, s'.Has t js ↔ s.Has t js
  half : ∀ i, NPDENTRIES / 2 ≤ i → s'.cell t i = s.cell t i

theorem cell_lt {i : ℕ} : s.cell p i < 2 ^ 64 := by
  unfold cell
  split
  · exact word_lt
  · decide

theorem clearpteu_clears (h : s.Tree t) (hva : va < userTop) (hp : present (s.pte t va) = true) :
    Ends (clearpteu t va) s E fun _ s' => Clears t va s s' := by
  obtain ⟨hpresent, haddr⟩ := clearedEntry_eq hp
  obtain ⟨T, hT⟩ : ∃ T, s.Leads t (path va) 1 T := by
    by_contra hno
    rw [pte_of_not hva fun T hT => hno ⟨T, hT⟩, present_zero] at hp
    cases hp
  have hTmem : T ∈ s.pages t := Leads.mem_pages hT
  have hTal := (h.valid_page hTmem).aligned
  have hpte := pte_of_leads hva hT
  have hi := index_lt 0 va
  rw [clearpteu, ends_bind, ends_walkpgdir, (lastTable_eq_some hva).mpr hT, Option.map_some]
  dsimp only
  rw [ends_bind, ends_load hi, ends_setPte, ← hpte]
  generalize he : s.pte t va = e at *
  have hlt : e - (e &&& PTE_U) < 2 ^ 64 := by
    have := cell_lt (s := s) (p := T) (i := index 0 va)
    omega
  have hst := storesAt_stored h hTmem hi hlt
  have hcell := cell_stored (s := s) hTal hi hlt
  show Clears t va s (s.stored T (index 0 va) (e - (e &&& PTE_U)))
  refine ⟨⟨rfl, rfl, ?_, ?_⟩, rfl, ?_, has_stored_leaf h hT hlt, ?_⟩
  · obtain ⟨others, hbefore, hafter⟩ :=
      Radix.nodes_store h.pages_nodup hT (index_lt_width hva 0) hst
    rw [← hpte, Radix.below_of_next (next_of_present hp), Radix.nodes_zero] at hbefore
    rw [hcell, Radix.below_of_next (next_of_present hpresent), haddr, Radix.nodes_zero] at hafter
    have hpages : ((s.stored T (index 0 va) (e - (e &&& PTE_U))).pages t).Perm (s.pages t) :=
      (hafter.trans hbefore.symm).map Prod.snd
    exact hpages.append_left _
  · intro p hpal _ hnot
    refine same_setWord hpal hTal hi ?_
    rintro rfl
    exact hnot (mem_append_right _ hTmem)
  · intro vb hvb
    rw [pte_store_leaf h hva hvb hT hst, hcell, he]
  · intro i _
    have ht := h.valid_page (Leads.mem_pages (s := s) (t := t) .here)
    refine (same_setWord ht.aligned hTal hi ?_).cell i
    rintro rfl
    have hlevel := hT.level_unique h.pages_nodup .here
    omega

end Xv6.Vm
