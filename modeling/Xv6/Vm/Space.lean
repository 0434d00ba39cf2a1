import Xv6.Vm.Walk

/-!
# Address spaces

`allocuvm`, `deallocuvm`, `freevm` and `copyuvm` as operations on the map from user pages to
entries. `Moves` says what all of them have in common: pages go back and forth between the free list
and the one tree, and pages that are in neither keep their contents.
-/

namespace Xv6.Vm

open Blit Fallible List
open Sched (PGSIZE)

variable {s s' s'' : Phys} {t d p q va vb : ℕ} {E : Panic → Prop}

namespace Phys

/-! ## The pages of the user -/

namespace Tree

theorem leaf (h : s.Tree t) (hva : va < userTop) (hp : present (s.pte t va) = true) :
    pteAddr (s.pte t va) ∈ s.pages t ∧ ∀ k, (k + 1, pteAddr (s.pte t va)) ∉ s.nodes t := by
  have hleads := leaf_of_present hva hp
  refine ⟨Leads.mem_pages hleads, ?_⟩
  intro k hk
  obtain ⟨is, his⟩ := Radix.exists_leads hk
  have hlevel := hleads.level_unique h.pages_nodup his
  cases hlevel

theorem leaf_aligned (h : s.Tree t) (hva : va < userTop) (hp : present (s.pte t va) = true) :
    pteAddr (s.pte t va) % PGSIZE = 0 :=
  (h.valid_page (h.leaf hva hp).1).aligned

theorem leaf_inj (h : s.Tree t) (hva : va < userTop) (hvb : vb < userTop)
    (hp : present (s.pte t va) = true) (hq : present (s.pte t vb) = true)
    (heq : pteAddr (s.pte t va) = pteAddr (s.pte t vb)) : va / PGSIZE = vb / PGSIZE := by
  have hleads := leaf_of_present hva hp
  rw [heq] at hleads
  have hpath := hleads.inj h.pages_nodup (leaf_of_present hvb hq)
  simp only [path, cons_append, nil_append, List.cons.injEq, and_true] at hpath
  refine page_eq_of_path hva hvb ?_ hpath.2.2.2
  rw [path, path, hpath.1, hpath.2.1, hpath.2.2.1]

end Tree

theorem length_le_of_valid {l : List ℕ} (hnodup : l.Nodup) (hvalid : ∀ p ∈ l, s.Valid p) :
    l.length ≤ PHYSTOP / PGSIZE := by
  have hdistinct : (l.map (· / PGSIZE)).Nodup := by
    refine List.Nodup.map_on ?_ hnodup
    intro p hp q hq heq
    have hpal := (hvalid p hp).aligned
    have hqal := (hvalid q hq).aligned
    rw [pgsize_eq] at *
    omega
  have hsub : l.map (· / PGSIZE) ⊆ List.range (PHYSTOP / PGSIZE) := by
    intro x hx
    obtain ⟨p, hp, rfl⟩ := mem_map.mp hx
    have hlt := (hvalid p hp).below
    have hal := (hvalid p hp).aligned
    rw [mem_range, PHYSTOP] at *
    rw [pgsize_eq] at *
    omega
  have hle := (subperm_of_subset hdistinct hsub).length_le
  rwa [length_map, length_range] at hle

theorem Tree.freelist_length (h : s.Tree t) : s.freelist.length ≤ PHYSTOP / PGSIZE :=
  length_le_of_valid (nodup_append.mp h.nodup).1 fun _ hp => h.valid_free hp

theorem Grows.same_leaf (g : Grows t s s') (h : s.Tree t) (hva : va < userTop)
    (hp : present (s.pte t va) = true) : Same s s' (pteAddr (s.pte t va)) :=
  g.same _ (h.leaf_aligned hva hp) (h.not_free (h.leaf hva hp).1) (h.leaf hva hp).2

/-! ## Pages move between the free list and a tree -/

/-- Pages that are neither free nor in the tree keep their contents. The page at address 0 is not the
allocator's, and is left out. -/
structure Moves (t : ℕ) (s s' : Phys) : Prop where
  kend : s'.kend = s.kend
  kpdpt : s'.kpdpt = s.kpdpt
  perm : (s'.freelist ++ s'.pages t).Perm (s.freelist ++ s.pages t)
  same : ∀ p, p % PGSIZE = 0 → 0 < p → p ∉ s.freelist ++ s.pages t → Same s s' p

theorem Grows.moves (g : Grows t s s') : Moves t s s' where
  kend := g.kend
  kpdpt := g.kpdpt
  perm := g.perm
  same p hp _ hnot := by
    rw [mem_append, not_or] at hnot
    exact g.same p hp hnot.1 fun k hk => hnot.2 (mem_pages hk)

namespace Moves

theorem refl (t : ℕ) (s : Phys) : Moves t s s := (Grows.refl t s).moves

theorem trans (m : Moves t s s') (m' : Moves t s' s'') : Moves t s s'' where
  kend := m'.kend.trans m.kend
  kpdpt := m'.kpdpt.trans m.kpdpt
  perm := m'.perm.trans m.perm
  same p hp hpos hnot := (m.same p hp hpos hnot).trans (m'.same p hp hpos (by rwa [m.perm.mem_iff]))

variable {l : List ℕ}

/-- Pages that are elsewhere stay there. -/
theorem heap (m : Moves t s s') (h : s.Heap (s.pages t ++ l)) : s'.Heap (s'.pages t ++ l) := by
  refine h.moved m.kend ?_
  rw [← append_assoc, ← append_assoc]
  exact m.perm.append_right l

theorem tree (m : Moves t s s') (h : s.Tree t) : s'.Tree t := by
  rw [Tree, ← append_nil (s.pages t)] at h
  exact (m.heap h).left

theorem same_elsewhere (m : Moves t s s') (h : s.Heap (s.pages t ++ l)) (hp : p ∈ l) :
    Same s s' p := by
  have hmem : p ∈ s.pages t ++ l := mem_append_right _ hp
  refine m.same p (h.valid p (mem_append_right _ hmem)).aligned (h.pos hmem) ?_
  rw [mem_append, not_or]
  refine ⟨h.not_free hmem, fun hin => ?_⟩
  exact (nodup_append.mp (nodup_append.mp h.nodup).2.1).2.2 p hin p hp rfl

/-- A tree that is elsewhere stays as it is. -/
theorem sameTables (m : Moves t s s') (h : s.Heap (s.pages t ++ l)) (hd : s.pages d ⊆ l) :
    SameTables s s' d :=
  fun _ _ hp => m.same_elsewhere h (hd (mem_pages hp))

end Moves

end Phys

open Phys

/-! ## `allocuvm` -/

theorem heapEntry_eq (h : q % PGSIZE = 0) :
    present (q ||| (PTE_W ||| PTE_U) ||| PTE_P) = true ∧
    pteAddr (q ||| (PTE_W ||| PTE_U) ||| PTE_P) = q ∧
    pteFlags (q ||| (PTE_W ||| PTE_U) ||| PTE_P) = 7 := by
  have hlt : PTE_W ||| PTE_U < PGSIZE := by decide
  exact ⟨present_entry h hlt, pteAddr_entry h hlt, pteFlags_entry h hlt⟩

theorem pte_page (h : va / PGSIZE = vb / PGSIZE) : s.pte t va = s.pte t vb := by
  obtain ⟨hpath, hindex⟩ := path_eq_of_page h
  simp only [path, List.cons.injEq, and_true] at hpath
  rw [pte, pte, lastTable, lastTable, hpath.1, hpath.2.1, hpath.2.2, hindex]

variable {a n oldsz newsz : ℕ}

/-- The addresses of one page. -/
theorem page_eq_iff (h : a % PGSIZE = 0) : vb / PGSIZE = a / PGSIZE ↔ a ≤ vb ∧ vb < a + PGSIZE := by
  rw [pgsize_eq] at *
  omega

/-- The tables on the way to `n` pages from `a` on. -/
def waysTo : ℕ → ℕ → List (List ℕ)
  | _, 0 => []
  | a, n + 1 => ways a ++ waysTo (a + PGSIZE) n

theorem waysTo_length (n : ℕ) : ∀ a, (waysTo a n).length = 3 * n := by
  induction n with
  | zero => intro a; rfl
  | succ n ih => intro a; rw [waysTo, length_append, ih, ways]; simp; omega

theorem waysTo_add (m n : ℕ) : ∀ a, waysTo a (m + n) = waysTo a m ++ waysTo (a + m * PGSIZE) n := by
  induction m with
  | zero => intro a; rw [Nat.zero_add, Nat.zero_mul]; rfl
  | succ m ih =>
    intro a
    rw [Nat.succ_add_eq_add_succ, Nat.add_succ, waysTo, waysTo, ih, append_assoc, Nat.succ_mul,
      Nat.add_comm (m * PGSIZE), Nat.add_assoc]

/-- What it takes to map `n` pages from `a` on: the pages, and the tables that are not there. -/
noncomputable def mapCost (s : Phys) (t a n : ℕ) : ℕ := n + Radix.missing (s.Has t) (waysTo a n)

/-- `n` pages of zeros were mapped from `a` on. -/
structure Allocs (t a n : ℕ) (s s' : Phys) : Prop extends Grows t s s' where
  absent : ∀ vb < userTop, a ≤ vb → vb < a + n * PGSIZE → present (s.pte t vb) = false
  inside : ∀ vb < userTop, a ≤ vb → vb < a + n * PGSIZE →
    present (s'.pte t vb) = true ∧ pteFlags (s'.pte t vb) = 7 ∧
      ∀ o < PGSIZE, s'.mem (pteAddr (s'.pte t vb) + o) = 0
  outside : ∀ vb < userTop, vb < a ∨ a + n * PGSIZE ≤ vb → s'.pte t vb = s.pte t vb
  has : ∀ js, s'.Has t js ↔ s.Has t js ∨ js ∈ waysTo a n
  count : s.freelist.length = s'.freelist.length + mapCost s t a n

theorem Allocs.refl (t a : ℕ) (s : Phys) : Allocs t a 0 s s where
  toGrows := .refl t s
  absent vb _ hlo hhi := by omega
  inside vb _ hlo hhi := by omega
  outside _ _ _ := rfl
  has js := (or_iff_left not_mem_nil).symm
  count := rfl

theorem mapCost_le : mapCost s t a n ≤ 4 * n := by
  have hle := Radix.missing_le_length (P := s.Has t) (l := waysTo a n)
  rw [waysTo_length] at hle
  rw [mapCost]
  omega

/-- The cost of the first page, and of the others when it is there. -/
theorem mapCost_succ (h : ∀ js, s'.Has t js ↔ s.Has t js ∨ js ∈ ways a) :
    mapCost s t a (n + 1) =
      1 + Radix.missing (s.Has t) (ways a) + mapCost s' t (a + PGSIZE) n := by
  rw [mapCost, mapCost, waysTo, Radix.missing_append h]
  omega

theorem mapCost_first : 1 + Radix.missing (s.Has t) (ways a) ≤ mapCost s t a (n + 1) := by
  have hmono := Radix.missing_mono (P := s.Has t)
    (show ways a ⊆ waysTo a (n + 1) from subset_append_left _ _)
  rw [mapCost]
  omega

theorem Places.allocs (hal : a % PGSIZE = 0) (h : s.Tree t) (hq : s.Valid q)
    (p : Places t a (q ||| (PTE_W ||| PTE_U) ||| PTE_P) q (fun _ => 0) s s')
    (r : Allocs t (a + PGSIZE) n s' s'') : Allocs t a (n + 1) s s'' := by
  obtain ⟨hpresent, haddr, hflags⟩ := heapEntry_eq hq.aligned
  -- entries of other pages, before and after the first page was mapped
  have hother : ∀ vb < userTop, vb < a ∨ a + PGSIZE ≤ vb → s'.pte t vb = s.pte t vb := by
    intro vb hvb hout
    rw [p.ptes vb hvb, if_neg]
    rw [page_eq_iff hal]
    omega
  refine ⟨p.toGrows.trans r.toGrows, ?_, ?_, ?_, ?_, ?_⟩
  · intro vb hvb hlo hhi
    by_cases hfirst : vb < a + PGSIZE
    · rw [pte_page ((page_eq_iff hal).mpr ⟨hlo, hfirst⟩)]
      exact p.absent
    · rw [← hother vb hvb (.inr (by omega))]
      exact r.absent vb hvb (by omega) (by rw [Nat.succ_mul] at hhi; omega)
  · intro vb hvb hlo hhi
    by_cases hfirst : vb < a + PGSIZE
    · have he := p.ptes vb hvb
      rw [if_pos ((page_eq_iff hal).mpr ⟨hlo, hfirst⟩)] at he
      have hkeep := r.outside vb hvb (.inl hfirst)
      rw [hkeep, he, haddr]
      refine ⟨hpresent, hflags, fun o ho => ?_⟩
      have hsame := r.same_leaf (p.tree h) hvb (he ▸ hpresent)
      rw [he, haddr] at hsame
      exact (hsame o ho).trans (p.filled o ho)
    · exact r.inside vb hvb (by omega) (by rw [Nat.succ_mul] at hhi; omega)
  · intro vb hvb hout
    rw [r.outside vb hvb (by rw [Nat.succ_mul] at hout; omega)]
    exact hother vb hvb (by rw [Nat.succ_mul] at hout; omega)
  · intro js
    rw [r.has, p.has, waysTo, mem_append, or_assoc]
  · rw [p.count, r.count, mapCost_succ p.has]
    omega

/-- The loop of `allocuvm`. It cannot come to the end of the user half: there is not enough memory
for that. -/
theorem allocLoop_allocs (n : ℕ) : ∀ {a : ℕ} {s : Phys}, s.Tree t →
    a % PGSIZE = 0 → a + s.freelist.length * PGSIZE < userTop →
    Ends (allocLoop t oldsz newsz n a) s
      (fun e => e = .remap ∧ (∃ vb < userTop, a ≤ vb ∧ vb < a + n * PGSIZE ∧
          present (s.pte t vb) = true) ∨
        e = .outOfMemory ∧ s.freelist.length < mapCost s t a n)
      fun sz s' => sz = newsz ∧ Allocs t a n s s' := by
  induction n with
  | zero =>
    intro a s _ _ _
    exact ends_pure.mpr ⟨rfl, .refl t a s⟩
  | succ n ih =>
    intro a s h hal hroom
    rw [allocLoop, ends_bind]
    cases hfree : s.freelist with
    | nil =>
      rw [ends_kalloc_nil hfree]
      exact .inr ⟨rfl, Nat.add_pos_left (Nat.succ_pos n) _⟩
    | cons q rest =>
      rw [hfree, length_cons, Nat.succ_mul] at hroom
      have hau : a < userTop := by omega
      have hq := h.valid_free (hfree ▸ mem_cons_self)
      rw [ends_kalloc_cons hfree]
      dsimp only
      rw [ends_bind, ends_memset, ends_bind]
      refine (mappages_places h hfree hal hau (by decide)).mono ?_ ?_
      · rintro e (⟨rfl, hpresent⟩ | ⟨rfl, hfew⟩)
        · exact .inl ⟨rfl, a, hau, Nat.le_refl a, by rw [Nat.succ_mul, pgsize_eq]; omega, hpresent⟩
        · rw [hfree] at hfew
          exact .inr ⟨rfl, hfew.trans_le mapCost_first⟩
      · rintro - s₁ ⟨rfl, hp⟩
        have hcount := hp.count
        have hcost := mapCost_succ (n := n) hp.has
        rw [hfree, length_cons] at hcount
        rw [if_pos rfl]
        refine (ih (hp.tree h) ?_ ?_).mono ?_ ?_
        · rw [Nat.add_mod_right]
          exact hal
        · have hle := Nat.mul_le_mul_right PGSIZE (show s₁.freelist.length ≤ rest.length by omega)
          omega
        · rintro e (⟨rfl, vb, hvb, hlo, hhi, hpresent⟩ | ⟨rfl, hfew⟩)
          · refine .inl ⟨rfl, vb, hvb, by omega, by rw [Nat.succ_mul]; omega, ?_⟩
            rwa [hp.ptes vb hvb, if_neg (by rw [page_eq_iff hal]; omega)] at hpresent
          · exact .inr ⟨rfl, by rw [length_cons]; omega⟩
        · rintro sz s₂ ⟨rfl, hr⟩
          exact ⟨rfl, hp.allocs hal h hq hr⟩

theorem pgroundup_aligned (a : ℕ) : pgroundup a % PGSIZE = 0 := Nat.mul_mod_left _ _

/-- `allocuvm`: 0 for what lies too high, the old size for what is not larger. -/
theorem allocuvm_allocs (h : s.Tree t)
    (hroom : pgroundup oldsz + s.freelist.length * PGSIZE < userTop) :
    Ends (allocuvm t oldsz newsz) s
      (fun e => newsz < KERNBASE ∧ oldsz ≤ newsz ∧ (e = .remap ∧ (∃ vb < userTop,
          pgroundup oldsz ≤ vb ∧ vb < pgroundup oldsz + pagesTo (pgroundup oldsz) newsz * PGSIZE ∧
          present (s.pte t vb) = true) ∨
        e = .outOfMemory ∧
          s.freelist.length < mapCost s t (pgroundup oldsz) (pagesTo (pgroundup oldsz) newsz)))
      fun sz s' => KERNBASE ≤ newsz ∧ sz = 0 ∧ s' = s ∨
        newsz < KERNBASE ∧ newsz < oldsz ∧ sz = oldsz ∧ s' = s ∨
        newsz < KERNBASE ∧ oldsz ≤ newsz ∧ sz = newsz ∧
          Allocs t (pgroundup oldsz) (pagesTo (pgroundup oldsz) newsz) s s' := by
  unfold allocuvm
  split
  · next hhigh => exact ends_pure.mpr (.inl ⟨hhigh, rfl, rfl⟩)
  next hlow =>
  rw [ge_iff_le, Nat.not_le] at hlow
  split
  · next hless => exact ends_pure.mpr (.inr (.inl ⟨hlow, hless, rfl, rfl⟩))
  next hmore =>
  have hle := Nat.le_of_not_lt hmore
  refine (allocLoop_allocs _ h (pgroundup_aligned oldsz) hroom).mono
    (fun _ he => ⟨hlow, hle, he⟩) ?_
  rintro sz s' ⟨rfl, ha⟩
  exact .inr (.inr ⟨hlow, hle, rfl, ha⟩)

/-! ## `deallocuvm` -/

/-- The pages from `a` on, `n` of them, are gone from the map. -/
structure Deallocs (t a n : ℕ) (s s' : Phys) : Prop extends Moves t s s' where
  inside : ∀ vb < userTop, a ≤ vb → vb < a + n * PGSIZE → present (s'.pte t vb) = false
  outside : ∀ vb < userTop, vb < a ∨ a + n * PGSIZE ≤ vb → s'.pte t vb = s.pte t vb
  kept : ∀ vb < userTop, (vb < a ∨ a + n * PGSIZE ≤ vb) → present (s.pte t vb) = true →
    Same s s' (pteAddr (s.pte t vb))
  free : s.freelist <:+ s'.freelist
  absent : (∀ vb < userTop, a ≤ vb → vb < a + n * PGSIZE → present (s.pte t vb) = false) → s' = s

theorem Deallocs.refl (t a : ℕ) (s : Phys) : Deallocs t a 0 s s where
  toMoves := .refl t s
  inside vb _ hlo hhi := by omega
  outside _ _ _ := rfl
  kept vb _ _ _ := .refl _
  free := suffix_rfl
  absent _ := rfl

theorem Deallocs.cons (h₁ : Deallocs t a 1 s s') (h₂ : Deallocs t (a + PGSIZE) n s' s'') :
    Deallocs t a (n + 1) s s'' where
  toMoves := h₁.toMoves.trans h₂.toMoves
  inside vb hvb hlo hhi := by
    rw [Nat.succ_mul] at hhi
    by_cases hfirst : vb < a + PGSIZE
    · rw [h₂.outside vb hvb (.inl hfirst)]
      exact h₁.inside vb hvb hlo (by omega)
    · exact h₂.inside vb hvb (by omega) (by omega)
  outside vb hvb hout := by
    rw [Nat.succ_mul] at hout
    rw [h₂.outside vb hvb (by omega), h₁.outside vb hvb (by omega)]
  kept vb hvb hout hp := by
    rw [Nat.succ_mul] at hout
    have heq := h₁.outside vb hvb (by omega)
    have hlater := h₂.kept vb hvb (by omega) (by rwa [heq])
    rw [heq] at hlater
    exact (h₁.kept vb hvb (by omega) hp).trans hlater
  free := h₁.free.trans h₂.free
  absent hnone := by
    have hfirst : s' = s := h₁.absent fun vb hvb hlo hhi => hnone vb hvb hlo (by
      rw [Nat.succ_mul]
      omega)
    subst hfirst
    refine h₂.absent fun vb hvb hlo hhi => hnone vb hvb (by omega) ?_
    rw [Nat.succ_mul]
    omega

/-- The state after a user's page was freed and its entry cleared. -/
def Phys.unmapped (s : Phys) (q T i : ℕ) : Phys := (s.freed q).stored T i 0

/-- One page is freed, and the store to its entry takes it out of the tree. -/
theorem unmapped_deallocs {T : ℕ} (h : s.Tree t) (hal : a % PGSIZE = 0) (hau : a < userTop)
    (hT : s.Leads t (path a) 1 T) (hp : present (s.pte t a) = true) :
    Deallocs t a 1 s (s.unmapped (pteAddr (s.pte t a)) T (index 0 a)) := by
  obtain ⟨hqmem, hqtable⟩ := h.leaf hau hp
  have hqal := h.leaf_aligned hau hp
  have hTmem : T ∈ s.pages t := Leads.mem_pages hT
  have hTal := (h.valid_page hTmem).aligned
  have hi := index_lt 0 a
  have hTq : T ≠ pteAddr (s.pte t a) := fun heq => hqtable 0 (heq ▸ hT.mem_nodes)
  have hnext : shape.next (s.cell T (index 0 a)) = some (pteAddr (s.pte t a)) := by
    rw [← pte_of_leads hau hT, next_of_present hp]
  generalize hq : pteAddr (s.pte t a) = q at *
  have hsame : ∀ p, p % PGSIZE = 0 → p ≠ q → p ≠ T → Same s (s.unmapped q T (index 0 a)) p := by
    intro p hp hpq hpT
    have hjunk : Same s (s.freed q) p := same_blit (s := { s with freelist := q :: s.freelist })
      hp hqal hpq
    exact hjunk.trans (same_setWord hp hTal hi hpT)
  have hcellT : ∀ j, (s.unmapped q T (index 0 a)).cell T j =
      if j = index 0 a then 0 else s.cell T j := by
    intro j
    have hjunk : Same s (s.freed q) T := same_blit (s := { s with freelist := q :: s.freelist })
      hTal hqal hTq
    refine (cell_setWord hTal hTal hi (by decide)).trans ?_
    rw [hjunk.cell]
    simp
  have hst : StoresAt s (s.unmapped q T (index 0 a)) t T (index 0 a) := by
    intro x hx hpos j hj
    obtain ⟨k, p⟩ := x
    obtain ⟨k, rfl⟩ := Nat.exists_eq_succ_of_ne_zero hpos.ne'
    dsimp only at hj ⊢
    by_cases hpT : p = T
    · subst hpT
      rw [hcellT, if_neg (hj.elim (absurd rfl) id)]
    · refine (hsame p (h.valid_page (mem_pages hx)).aligned ?_ hpT).cell j
      rintro rfl
      exact hqtable k hx
  have hptes : ∀ vb < userTop, (s.unmapped q T (index 0 a)).pte t vb =
      if vb / PGSIZE = a / PGSIZE then 0 else s.pte t vb := by
    intro vb hvb
    rw [pte_store_leaf h hau hvb hT hst, hcellT, if_pos rfl]
  refine ⟨⟨rfl, rfl, ?_, ?_⟩, ?_, ?_, ?_, suffix_cons q s.freelist, ?_⟩
  · obtain ⟨others, hbefore, hafter⟩ :=
      Radix.nodes_store h.pages_nodup hT (index_lt_width hau 0) hst
    rw [Radix.below_of_next hnext] at hbefore
    rw [hcellT, if_pos rfl, Radix.below_of_none next_zero, nil_append] at hafter
    have hpages : (s.pages t).Perm (q :: (s.unmapped q T (index 0 a)).pages t) :=
      (hbefore.trans (hafter.symm.cons _)).map Prod.snd
    refine List.Perm.trans ?_ (hpages.symm.append_left _)
    exact perm_middle.symm
  · intro p hp _ hnot
    rw [mem_append, not_or] at hnot
    refine hsame p hp ?_ ?_
    · rintro rfl
      exact hnot.2 hqmem
    · rintro rfl
      exact hnot.2 hTmem
  · intro vb hvb hlo hhi
    rw [hptes vb hvb, if_pos ((page_eq_iff hal).mpr ⟨hlo, by omega⟩)]
    rfl
  · intro vb hvb hout
    rw [hptes vb hvb, if_neg (by rw [page_eq_iff hal]; omega)]
  · intro vb hvb hout hvp
    refine hsame _ (h.leaf_aligned hvb hvp) ?_ ?_
    · intro heq
      have hpage := h.leaf_inj hvb hau hvp hp (heq.trans hq.symm)
      rw [page_eq_iff hal] at hpage
      omega
    · intro heq
      exact (h.leaf hvb hvp).2 0 (heq ▸ hT.mem_nodes)
  · intro hnone
    have habsent := hnone a hau (Nat.le_refl _) (by rw [pgsize_eq]; omega)
    rw [hp] at habsent
    cases habsent

theorem deallocs_absent (hal : a % PGSIZE = 0) (hp : present (s.pte t a) = false) :
    Deallocs t a 1 s s where
  toMoves := .refl t s
  inside vb _ hlo hhi := by
    rw [pte_page ((page_eq_iff hal).mpr ⟨hlo, by omega⟩)]
    exact hp
  outside _ _ _ := rfl
  kept vb _ _ _ := .refl _
  free := suffix_rfl
  absent _ := rfl

/-- The loop of `deallocuvm`, which never panics. -/
theorem deallocLoop_deallocs (n : ℕ) : ∀ {a : ℕ} {s : Phys}, s.Tree t → a % PGSIZE = 0 →
    a + n * PGSIZE ≤ userTop →
    Ends (deallocLoop t n a) s (fun _ => False) fun _ s' => Deallocs t a n s s' := by
  induction n with
  | zero =>
    intro a s _ _ _
    exact ends_pure.mpr (.refl t a s)
  | succ n ih =>
    intro a s h hal htop
    rw [Nat.succ_mul] at htop
    have hau : a < userTop := by
      rw [pgsize_eq] at htop
      omega
    -- what is left of the loop after the first page
    have hrest : ∀ s', Deallocs t a 1 s s' →
        Ends (deallocLoop t n (a + PGSIZE)) s' (fun _ => False)
          fun _ s'' => Deallocs t a (n + 1) s s'' := by
      intro s' hd
      refine (ih (hd.tree h) ?_ (by omega)).mono (fun _ he => he) fun _ s'' hd' => hd.cons hd'
      rw [Nat.add_mod_right]
      exact hal
    rw [deallocLoop, ends_bind, ends_walkpgdir]
    cases hlast : s.lastTable t a with
    | none =>
      refine hrest s (deallocs_absent hal ?_)
      rw [pte, hlast]
      exact present_zero
    | some T =>
      have hT := (lastTable_eq_some hau).mp hlast
      rw [Option.map_some]
      dsimp only
      rw [ends_bind, ends_load (index_lt 0 a), ← pte_of_leads hau hT]
      split
      · next hp =>
          have hvalid := h.valid_page (h.leaf hau hp).1
          have hne : pteAddr (s.pte t a) ≠ 0 := by
            have := hvalid.above
            have := h.kend
            omega
          rw [if_neg hne, ends_bind, ends_kfree hvalid, ends_bind, ends_setPte]
          exact hrest _ (unmapped_deallocs h hal hau hT hp)
      · next hp =>
          exact hrest s (deallocs_absent hal (by simpa using hp))

/-- `deallocuvm` frees the pages from the new size on. -/
theorem deallocuvm_deallocs (h : s.Tree t) (hold : oldsz ≤ userTop) :
    Ends (deallocuvm t oldsz newsz) s (fun _ => False) fun sz s' =>
      oldsz ≤ newsz ∧ sz = oldsz ∧ s' = s ∨ newsz < oldsz ∧ sz = newsz ∧
        Deallocs t (pgroundup newsz) (pagesTo (pgroundup newsz) oldsz) s s' := by
  unfold deallocuvm
  split
  · next hmore => exact ends_pure.mpr (.inl ⟨hmore, rfl, rfl⟩)
  next hless =>
  have htop : pgroundup newsz + pagesTo (pgroundup newsz) oldsz * PGSIZE ≤ userTop := by
    rw [userTop] at *
    rw [pgroundup, Nat.mod_eq_of_lt (by rw [pgsize_eq]; omega), pagesTo, pgsize_eq]
    omega
  rw [ends_bind]
  refine (deallocLoop_deallocs _ h (pgroundup_aligned newsz) htop).mono (fun _ he => he) ?_
  intro _ s' hd
  exact ends_pure.mpr (.inr ⟨Nat.lt_of_not_le hless, rfl, hd⟩)

end Xv6.Vm
