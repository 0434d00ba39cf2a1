import Xv6.Vm.Space

/-!
# Making, freeing and copying an address space

`setupkvm` makes an empty one, `freevm` gives back every page of one, and `copyuvm` makes a second
one with the same entries and the same bytes on pages of its own.
-/

namespace Xv6.Vm

open Blit Fallible List
open Sched (PGSIZE)

variable {s s' s'' : Phys} {t d p q va vb : ℕ} {E : Panic → Prop}

open Phys

/-! ## `freevm` -/

/-- The pages of the list were freed, one after the other. -/
structure Frees (l : List ℕ) (s s' : Phys) : Prop where
  kend : s'.kend = s.kend
  kpdpt : s'.kpdpt = s.kpdpt
  freelist : s'.freelist = l.reverse ++ s.freelist
  same : ∀ p, p % PGSIZE = 0 → p ∉ l → Same s s' p

theorem Frees.refl (s : Phys) : Frees [] s s := ⟨rfl, rfl, rfl, fun p _ _ => Same.refl p⟩

theorem Frees.append {l l' : List ℕ} (f : Frees l s s') (f' : Frees l' s' s'') :
    Frees (l ++ l') s s'' where
  kend := f'.kend.trans f.kend
  kpdpt := f'.kpdpt.trans f.kpdpt
  freelist := by rw [f'.freelist, f.freelist, reverse_append, append_assoc]
  same p hp hnot := by
    rw [mem_append, not_or] at hnot
    exact (f.same p hp hnot.1).trans (f'.same p hp hnot.2)

theorem frees_freed (h : p % PGSIZE = 0) : Frees [p] s (s.freed p) where
  kend := rfl
  kpdpt := rfl
  freelist := rfl
  same _ hq hnot :=
    same_blit (s := { s with freelist := p :: s.freelist }) hq h (ne_of_not_mem_cons hnot)

/-- The loops of `freevm`: what lies below a table is freed before the table, and the entries that
are still to be read are in pages that were not freed. -/
theorem freelevel_frees (ℓ : ℕ) : ∀ {n t : ℕ} {s : Phys}, (∀ m, ℓ = m + 1 → n = shape.width m) →
    ℓ ≤ 4 → (shape.pages s.cell ℓ t).Nodup → (∀ p ∈ shape.pages s.cell ℓ t, s.Valid p) →
    Ends (freelevel ℓ n t) s (fun _ => False) fun _ s' => Frees (shape.pages s.cell ℓ t) s s' := by
  induction ℓ with
  | zero =>
    intro n t s _ _ _ hvalid
    have ht := hvalid t mem_cons_self
    rw [freelevel, ends_kfree ht]
    exact frees_freed ht.aligned
  | succ ℓ ih =>
    intro n t s hn hle hnodup hvalid
    obtain rfl := hn ℓ rfl
    obtain ⟨hchild, hroot, hdisj⟩ := Radix.nodup_table hnodup
    have ht := hvalid t (mem_map_of_mem Radix.root_mem_nodes)
    have hpages : shape.pages s.cell (ℓ + 1) t = ((List.range (shape.width ℓ)).flatMap fun i =>
        (shape.below s.cell ℓ (s.cell t i)).map Prod.snd) ++ [t] := by
      rw [Radix.pages, Radix.nodes_succ, map_append, map_flatMap]
      rfl
    rw [freelevel, ends_bind, hpages]
    refine (ends_forM (I := fun done s' => Frees (done.flatMap fun i =>
      (shape.below s.cell ℓ (s.cell t i)).map Prod.snd) s s') (.refl s) ?_).mono
      (fun _ he => he) ?_
    · intro done i rest s₁ hrange hf
      have hmem : ∀ j ∈ done, j < shape.width ℓ := fun j hj =>
        mem_range.mp (hrange ▸ mem_append_left _ hj)
      have hi : i < shape.width ℓ :=
        mem_range.mp (hrange ▸ mem_append_right _ mem_cons_self)
      have hne : ∀ j ∈ done, j ≠ i := by
        have hnd := nodup_range (n := shape.width ℓ)
        rw [hrange, nodup_append] at hnd
        exact fun j hj => hnd.2.2 j hj i mem_cons_self
      -- pages that were not below the entries done so far are as before
      have hkeep : ∀ p, p % PGSIZE = 0 →
          (∀ j ∈ done, ∀ x ∈ shape.below s.cell ℓ (s.cell t j), x.2 ≠ p) → Same s s₁ p := by
        intro p hp hnot
        refine hf.same p hp fun hin => ?_
        obtain ⟨j, hj, hin⟩ := mem_flatMap.mp hin
        obtain ⟨x, hx, hxp⟩ := mem_map.mp hin
        exact hnot j hj x hx hxp
      have hcell : s₁.cell t i = s.cell t i :=
        (hkeep t ht.aligned fun j hj x hx => hroot j (hmem j hj) x hx).cell i
      rw [ends_bind, ends_entry (hi.trans_le (width_le ℓ)), hcell]
      simp only [flatMap_append, flatMap_singleton]
      split
      · next hp =>
          have hnext := next_of_present hp
          have hbelow : shape.below s.cell ℓ (s.cell t i) =
              shape.nodes s.cell ℓ (pteAddr (s.cell t i)) := Radix.below_of_next hnext
          have hnodes : shape.nodes s₁.cell ℓ (pteAddr (s.cell t i)) =
              shape.nodes s.cell ℓ (pteAddr (s.cell t i)) := by
            refine Radix.nodes_congr fun x hx _ j => ?_
            rw [← hbelow] at hx
            refine (hkeep x.2 (hvalid _ ?_).aligned ?_).cell j
            · exact mem_map_of_mem (Radix.below_subset hi hx)
            · intro j hj y hy
              exact hdisj j (hmem j hj) i hi (hne j hj) y hy x hx
          have hpages₁ : shape.pages s₁.cell ℓ (pteAddr (s.cell t i)) =
              (shape.below s.cell ℓ (s.cell t i)).map Prod.snd := by
            rw [Radix.pages, hnodes, hbelow]
          have hwidth : ∀ m, ℓ = m + 1 → NPDENTRIES = shape.width m := by
            intro m hm
            unfold shape
            dsimp only
            rw [if_neg (by omega)]
          refine (ih hwidth (by omega) ?_ ?_).mono (fun _ he => he) ?_
          · rw [hpages₁]
            exact hchild i hi
          · intro p hp
            rw [hpages₁] at hp
            obtain ⟨x, hx, rfl⟩ := mem_map.mp hp
            exact (hvalid _ (mem_map_of_mem (Radix.below_subset hi hx))).of_kend hf.kend
          · intro _ s₂ hf₂
            rw [hpages₁] at hf₂
            exact hf.append hf₂
      · next hp =>
          rw [Radix.below_of_none (next_of_absent (by simpa using hp)), map_nil,
            append_nil]
          exact ends_pure.mpr hf
    · intro _ s₁ hf
      rw [ends_kfree (ht.of_kend hf.kend)]
      exact hf.append (frees_freed ht.aligned)

/-- `freevm` gives back the pages of the tree. -/
theorem freevm_frees (h : s.Tree t) :
    Ends (freevm t) s (fun _ => False) fun _ s' => Frees (s.pages t) s s' := by
  have hvalid := h.valid_page (Leads.mem_pages (s := s) (t := t) .here)
  have hne : t ≠ 0 := by
    have := hvalid.above
    have := h.kend
    omega
  rw [freevm, if_neg hne]
  refine freelevel_frees 4 ?_ (Nat.le_refl 4) h.pages_nodup fun p hp => h.valid_page hp
  intro m hm
  obtain rfl : m = 3 := by omega
  rfl

/-! ## `setupkvm` -/

/-- The pages of an address space that has `n` pages from the second on: the top table, the tables and
the pages. -/
def spacePages (n : ℕ) : ℕ := 1 + n + (waysTo PGSIZE n).toFinset.card

theorem spacePages_le (n : ℕ) : spacePages n ≤ 4 * n + 1 := by
  have hle := toFinset_card_le (waysTo PGSIZE n)
  rw [waysTo_length] at hle
  rw [spacePages]
  omega

theorem spacePages_add (m n : ℕ) : spacePages (m + n) = spacePages m +
    (n + Radix.missing (· ∈ waysTo PGSIZE m) (waysTo (PGSIZE + m * PGSIZE) n)) := by
  have hnone : ∀ l : List (List ℕ), l.toFinset.card = Radix.missing (fun _ => False) l :=
    fun l => (Radix.missing_of_none fun _ _ => id).symm
  have happ : Radix.missing (fun _ => False) (waysTo PGSIZE (m + n)) =
      Radix.missing (fun _ => False) (waysTo PGSIZE m) +
        Radix.missing (· ∈ waysTo PGSIZE m) (waysTo (PGSIZE + m * PGSIZE) n) := by
    rw [waysTo_add]
    exact Radix.missing_append fun js => by rw [false_or]
  rw [spacePages, spacePages, hnone, hnone, happ]
  omega

theorem exists_cons_of_mem_waysTo {js : List ℕ} {n : ℕ} : ∀ {a : ℕ}, js ∈ waysTo a n →
    ∃ i is, js = i :: is := by
  induction n with
  | zero => intro a hjs; cases hjs
  | succ n ih =>
    intro a hjs
    rcases mem_append.mp hjs with hfirst | hrest
    · simp only [ways, path, mem_cons, not_mem_nil, or_false] at hfirst
      rcases hfirst with rfl | rfl | rfl <;> exact ⟨_, _, rfl⟩
    · exact ih hrest

/-- An address space without pages was made of the first free page. -/
structure Empties (d : ℕ) (s s' : Phys) : Prop where
  kend : s'.kend = s.kend
  kpdpt : s'.kpdpt = s.kpdpt
  freelist : s.freelist = d :: s'.freelist
  nodes : s'.nodes d = [(4, d)]
  /-- Of the kernel's half, one entry is there. -/
  blank : ∀ i, NPDENTRIES / 2 < i → s'.cell d i = 0
  same : ∀ p, p % PGSIZE = 0 → p ≠ d → Same s s' p

theorem setupkvm_empties (hvalid : ∀ p ∈ s.freelist, s.Valid p) :
    Ends setupkvm s (fun e => e = .outOfMemory ∧ s.freelist = []) fun o s' =>
      ∃ d, o = some d ∧ Empties d s s' := by
  rw [setupkvm, ends_bind]
  cases hfree : s.freelist with
  | nil =>
    rw [ends_kalloc_nil hfree]
    exact ⟨rfl, rfl⟩
  | cons d rest =>
    have hd := (hvalid d (hfree ▸ mem_cons_self)).aligned
    rw [ends_kalloc_cons hfree]
    dsimp only
    rw [ends_bind, ends_memset, ends_bind, ends_get, ends_bind, ends_setPte, ends_pure]
    -- every entry but one is 0
    have hzero : ∀ i, i ≠ 256 → Phys.cell { s with
        freelist := rest
        mem := setWord (blit s.mem d PGSIZE fun _ => 0) (d + 8 * 256)
          (s.kpdpt ||| PTE_P ||| PTE_W) } d i = 0 := by
      intro i hi
      unfold Phys.cell
      split
      · next hlt =>
          have hblit := cell_blit_zero (s := s) (p := d) i
          rw [cell_of_lt hlt] at hblit
          rw [word_setWord_ne (by omega)]
          exact hblit
      · rfl
    refine ⟨d, rfl, rfl, rfl, hfree, ?_, ?_, ?_⟩
    · refine Radix.nodes_blank fun i hi => ?_
      have hi' : i < 256 := hi
      exact (congrArg shape.next (hzero i (by omega))).trans next_zero
    · intro i hi
      have hi' : 256 < i := hi
      exact hzero i (by omega)
    · intro p hp hne
      have hblit := same_blit (s := { s with freelist := rest }) (f := fun _ => 0) hp hd hne
      exact hblit.trans (same_setWord (i := 256) hp hd (by decide) hne)

namespace Empties

/-- No table for user pages is there. -/
theorem not_leads (h : Empties d s s') (va T : ℕ) : ¬ s'.Leads d (path va) 1 T := by
  intro hT
  have hmem := hT.mem_nodes
  rw [← Phys.nodes, h.nodes, mem_singleton] at hmem
  cases hmem

theorem pte (h : Empties d s s') (hva : va < userTop) : s'.pte d va = 0 :=
  pte_of_not hva fun T hT => h.not_leads va T hT

theorem pages (h : Empties d s s') : s'.pages d = [d] := congrArg (List.map Prod.snd) h.nodes

theorem not_has (h : Empties d s s') {i : ℕ} {is : List ℕ} : ¬ s'.Has d (i :: is) := by
  rintro ⟨k, p, hl⟩
  obtain ⟨hi, q, hq, -⟩ := Radix.leads_cons.mp hl
  have hmem := (Radix.Leads.step hi hq .here).mem_nodes
  rw [← Phys.nodes, h.nodes, mem_singleton] at hmem
  cases hmem

theorem mapCost_eq (h : Empties d s s') (n : ℕ) : 1 + mapCost s' d PGSIZE n = spacePages n := by
  rw [mapCost, spacePages, Nat.add_assoc, Radix.missing_of_none fun js hjs => ?_]
  obtain ⟨i, is, rfl⟩ := exists_cons_of_mem_waysTo hjs
  exact h.not_has

end Empties

/-- A tree was made of free pages. -/
structure Makes (d : ℕ) (s s' : Phys) : Prop where
  kend : s'.kend = s.kend
  kpdpt : s'.kpdpt = s.kpdpt
  perm : (s'.freelist ++ s'.pages d).Perm s.freelist
  same : ∀ p, p % PGSIZE = 0 → 0 < p → p ∉ s.freelist → Same s s' p

theorem Empties.makes (h : Empties d s s') : Makes d s s' where
  kend := h.kend
  kpdpt := h.kpdpt
  perm := by
    rw [h.pages, h.freelist]
    exact perm_append_singleton d s'.freelist
  same p hp _ hnot := h.same p hp fun heq => hnot (heq ▸ h.freelist ▸ mem_cons_self)

namespace Makes

variable {l : List ℕ}

theorem moves (m : Makes d s s') (m' : Moves d s' s'') : Makes d s s'' where
  kend := m'.kend.trans m.kend
  kpdpt := m'.kpdpt.trans m.kpdpt
  perm := m'.perm.trans m.perm
  same p hp hpos hnot :=
    (m.same p hp hpos hnot).trans (m'.same p hp hpos (by rwa [m.perm.mem_iff]))

theorem heap (m : Makes d s s') (h : s.Heap l) : s'.Heap (s'.pages d ++ l) := by
  refine h.moved m.kend ?_
  rw [← append_assoc]
  exact m.perm.append_right l

theorem same_elsewhere (m : Makes d s s') (h : s.Heap l) (hp : p ∈ l) : Same s s' p :=
  m.same p (h.valid p (mem_append_right _ hp)).aligned (h.pos hp) (h.not_free hp)

theorem sameTables (m : Makes d s s') (h : s.Heap l) (ht : s.pages t ⊆ l) : SameTables s s' t :=
  fun _ _ hp => m.same_elsewhere h (ht (mem_pages hp))

end Makes

/-! ## `copyuvm` -/

/-- The pages of `t` from `a` on, `n` of them, were copied to `d`. -/
structure Copies (t d a n : ℕ) (s s' : Phys) : Prop extends Grows d s s' where
  inside : ∀ vb < userTop, a ≤ vb → vb < a + n * PGSIZE →
    present (s'.pte d vb) = true ∧ pteFlags (s'.pte d vb) = pteFlags (s.pte t vb) ∧
      ∀ o < PGSIZE, s'.mem (pteAddr (s'.pte d vb) + o) = s.mem (pteAddr (s.pte t vb) + o)
  outside : ∀ vb < userTop, vb < a ∨ a + n * PGSIZE ≤ vb → s'.pte d vb = s.pte d vb
  count : s.freelist.length = s'.freelist.length + mapCost s d a n

theorem Copies.refl (t d a : ℕ) (s : Phys) : Copies t d a 0 s s where
  toGrows := .refl d s
  inside vb _ hlo hhi := by omega
  outside _ _ _ := rfl
  count := rfl

theorem copyEntry_eq {e : ℕ} (hq : q % PGSIZE = 0) (he : present e = true) :
    present (q ||| pteFlags e ||| PTE_P) = true ∧ pteAddr (q ||| pteFlags e ||| PTE_P) = q ∧
    pteFlags (q ||| pteFlags e ||| PTE_P) = pteFlags e := by
  have hlt : pteFlags e < PGSIZE := Nat.mod_lt _ (by decide)
  exact ⟨present_entry hq hlt, pteAddr_entry hq hlt,
    (pteFlags_entry hq hlt).trans (pteFlags_or_one he)⟩

theorem Places.copies {a n : ℕ} (hal : a % PGSIZE = 0) (h : s.Heap (s.pages d ++ s.pages t))
    (hq : s.Valid q) (he : present (s.pte t a) = true)
    (p : Places d a (q ||| pteFlags (s.pte t a) ||| PTE_P) q
      (fun o => s.mem (pteAddr (s.pte t a) + o)) s s')
    (hfrom : ∀ vb < userTop, a + PGSIZE ≤ vb → vb < a + PGSIZE + n * PGSIZE →
      present (s.pte t vb) = true)
    (r : Copies t d (a + PGSIZE) n s' s'') : Copies t d a (n + 1) s s'' := by
  obtain ⟨hpresent, haddr, hflags⟩ := copyEntry_eq hq.aligned he
  have hparent : SameTables s s' t := p.moves.sameTables h (List.Subset.refl _)
  refine ⟨p.toGrows.trans r.toGrows, ?_, ?_, ?_⟩
  · intro vb hvb hlo hhi
    rw [Nat.succ_mul] at hhi
    by_cases hfirst : vb < a + PGSIZE
    · have hpage := (page_eq_iff hal).mpr ⟨hlo, hfirst⟩
      have heq := p.ptes vb hvb
      rw [if_pos hpage] at heq
      rw [r.outside vb hvb (.inl hfirst), heq, haddr, pte_page hpage]
      refine ⟨hpresent, hflags, fun o ho => ?_⟩
      have hsame := r.same_leaf (p.tree h.left) hvb (heq ▸ hpresent)
      rw [heq, haddr] at hsame
      exact (hsame o ho).trans (p.filled o ho)
    · have hcopy := r.inside vb hvb (by omega) (by omega)
      rw [hparent.pte hvb] at hcopy
      refine ⟨hcopy.1, hcopy.2.1, fun o ho => (hcopy.2.2 o ho).trans ?_⟩
      have hleaf := Tree.leaf h.right hvb (hfrom vb hvb (by omega) (by omega))
      exact p.moves.same_elsewhere h hleaf.1 o ho
  · intro vb hvb hout
    rw [Nat.succ_mul] at hout
    rw [r.outside vb hvb (by omega), p.ptes vb hvb, if_neg (by rw [page_eq_iff hal]; omega)]
  · rw [p.count, r.count, mapCost_succ p.has]
    omega

/-- The loop of `copyuvm`. -/
theorem copyLoop_copies (n : ℕ) : ∀ {a : ℕ} {s : Phys}, s.Heap (s.pages d ++ s.pages t) →
    a % PGSIZE = 0 → a + n * PGSIZE ≤ userTop →
    (∀ vb < userTop, a ≤ vb → vb < a + n * PGSIZE → present (s.pte d vb) = false) →
    Ends (copyLoop t d n a) s
      (fun e => e = .outOfMemory ∧ s.freelist.length < mapCost s d a n ∨
        (∃ vb < userTop, a ≤ vb ∧ vb < a + n * PGSIZE ∧ present (s.pte t vb) = false) ∧
          (e = .copyuvmPte ∨ e = .copyuvmPresent))
      fun o s' => o = some d ∧ (∀ vb < userTop, a ≤ vb → vb < a + n * PGSIZE →
        present (s.pte t vb) = true) ∧ Copies t d a n s s' := by
  induction n with
  | zero =>
    intro a s _ _ _ _
    exact ends_pure.mpr ⟨rfl, fun vb _ hlo hhi => by omega, .refl t d a s⟩
  | succ n ih =>
    intro a s h hal htop hclear
    rw [Nat.succ_mul] at htop hclear
    have hsize : 0 < PGSIZE := by decide
    have hau : a < userTop := by omega
    -- an entry of the parent that is absent is found here
    have habsent : ∀ {e : Panic}, e = .copyuvmPte ∨ e = .copyuvmPresent →
        present (s.pte t a) = false → (∃ vb < userTop, a ≤ vb ∧ vb < a + (n + 1) * PGSIZE ∧
          present (s.pte t vb) = false) ∧ (e = .copyuvmPte ∨ e = .copyuvmPresent) :=
      fun he hp => ⟨⟨a, hau, Nat.le_refl a, by rw [Nat.succ_mul]; omega, hp⟩, he⟩
    rw [copyLoop, ends_bind, ends_walkpgdir]
    cases hlast : s.lastTable t a with
    | none =>
      refine ends_throw.mpr (.inr (habsent (.inl rfl) ?_))
      rw [pte, hlast]
      exact present_zero
    | some T =>
      have hT := (lastTable_eq_some hau).mp hlast
      rw [Option.map_some]
      dsimp only
      rw [ends_bind, ends_load (index_lt 0 a), ← pte_of_leads hau hT]
      split
      swap
      · next hp => exact ends_throw.mpr (.inr (habsent (.inr rfl) (by simpa using hp)))
      next hp =>
      rw [ends_bind]
      cases hfree : s.freelist with
      | nil =>
        rw [ends_kalloc_nil hfree]
        exact .inl ⟨rfl, Nat.add_pos_left (Nat.succ_pos n) _⟩
      | cons q rest =>
        have hq := h.valid q (mem_append_left _ (hfree ▸ mem_cons_self))
        rw [ends_kalloc_cons hfree]
        dsimp only
        rw [ends_bind, ends_memmove, ends_bind]
        refine (mappages_places h.left hfree hal hau (Nat.mod_lt _ hsize)).mono ?_ ?_
        · rintro e (⟨rfl, hpresent⟩ | ⟨rfl, hfew⟩)
          · rw [hclear a hau (Nat.le_refl a) (by omega)] at hpresent
            cases hpresent
          · rw [hfree] at hfew
            exact .inl ⟨rfl, hfew.trans_le mapCost_first⟩
        · rintro - s₁ ⟨rfl, hplace⟩
          have hcount := hplace.count
          have hcost := mapCost_succ (n := n) hplace.has
          rw [hfree, length_cons] at hcount
          have hparent : SameTables s s₁ t := hplace.moves.sameTables h (List.Subset.refl _)
          have hheap : s₁.Heap (s₁.pages d ++ s₁.pages t) := by
            rw [hparent.pages]
            exact hplace.moves.heap h
          rw [if_pos rfl]
          refine (ih hheap ?_ (by omega) ?_).mono ?_ ?_
          · rw [Nat.add_mod_right]
            exact hal
          · intro vb hvb hlo hhi
            rw [hplace.ptes vb hvb, if_neg (by rw [page_eq_iff hal]; omega)]
            exact hclear vb hvb (by omega) (by omega)
          · rintro e (⟨rfl, hless⟩ | ⟨⟨vb, hvb, hlo, hhi, hpte⟩, he⟩)
            · exact .inl ⟨rfl, by rw [length_cons]; omega⟩
            · rw [hparent.pte hvb] at hpte
              exact .inr ⟨⟨vb, hvb, by omega, by rw [Nat.succ_mul]; omega, hpte⟩, he⟩
          · rintro - s₂ ⟨rfl, hall, hcopy⟩
            have hall' : ∀ vb < userTop, a + PGSIZE ≤ vb → vb < a + PGSIZE + n * PGSIZE →
                present (s.pte t vb) = true := by
              intro vb hvb hlo hhi
              rw [← hparent.pte hvb]
              exact hall vb hvb hlo hhi
            refine ⟨rfl, ?_, hplace.copies hal h hq hp hall' hcopy⟩
            intro vb hvb hlo hhi
            rw [Nat.succ_mul] at hhi
            by_cases hfirst : vb < a + PGSIZE
            · rw [pte_page ((page_eq_iff hal).mpr ⟨hlo, hfirst⟩)]
              exact hp
            · exact hall' vb hvb (by omega) (by omega)

/-- `d` is a copy of the first `n` pages of `t`, and nothing else. -/
structure Clones (t d n : ℕ) (s s' : Phys) : Prop extends Makes d s s' where
  whole : ∀ vb < userTop, PGSIZE ≤ vb → vb < PGSIZE + n * PGSIZE → present (s.pte t vb) = true
  inside : ∀ vb < userTop, PGSIZE ≤ vb → vb < PGSIZE + n * PGSIZE →
    present (s'.pte d vb) = true ∧ pteFlags (s'.pte d vb) = pteFlags (s.pte t vb) ∧
      ∀ o < PGSIZE, s'.mem (pteAddr (s'.pte d vb) + o) = s.mem (pteAddr (s.pte t vb) + o)
  outside : ∀ vb < userTop, vb < PGSIZE ∨ PGSIZE + n * PGSIZE ≤ vb →
    present (s'.pte d vb) = false
  count : s.freelist.length = s'.freelist.length + spacePages n

/-- The pages `copyuvm` copies. -/
def copied (sz : ℕ) : ℕ := pagesTo PGSIZE (sz % 2 ^ 32)

theorem copied_top (sz : ℕ) : PGSIZE + copied sz * PGSIZE ≤ userTop := by
  have hlt : sz % 2 ^ 32 < 2 ^ 32 := Nat.mod_lt _ (by decide)
  rw [copied, pagesTo, userTop, pgsize_eq]
  omega

/-- `copyuvm` makes a copy, unless memory runs out or a page that should be there is not. -/
theorem copyuvm_clones {sz : ℕ} (h : s.Tree t) :
    Ends (copyuvm t sz) s
      (fun e => e = .outOfMemory ∧ s.freelist.length < spacePages (copied sz) ∨
        (∃ vb < userTop, PGSIZE ≤ vb ∧ vb < PGSIZE + copied sz * PGSIZE ∧
          present (s.pte t vb) = false) ∧ (e = .copyuvmPte ∨ e = .copyuvmPresent))
      fun o s' => ∃ d, o = some d ∧ Clones t d (copied sz) s s' := by
  rw [copyuvm, ends_bind]
  refine (setupkvm_empties fun p hp => h.valid p (mem_append_left _ hp)).mono ?_ ?_
  · rintro e ⟨rfl, hnil⟩
    refine .inl ⟨rfl, ?_⟩
    rw [hnil, length_nil, spacePages]
    omega
  rintro - s₀ ⟨d, rfl, hempty⟩
  have hlen : s.freelist.length = s₀.freelist.length + 1 := by rw [hempty.freelist]; rfl
  have hcost := hempty.mapCost_eq (copied sz)
  have hparent : SameTables s s₀ t := hempty.makes.sameTables h (List.Subset.refl _)
  have hheap : s₀.Heap (s₀.pages d ++ s₀.pages t) := by
    rw [hparent.pages]
    exact hempty.makes.heap h
  dsimp only
  refine (copyLoop_copies (copied sz) hheap (Nat.mod_self _) (copied_top sz) ?_).mono ?_ ?_
  · intro vb hvb _ _
    rw [hempty.pte hvb]
    exact present_zero
  · rintro e (⟨rfl, hless⟩ | ⟨⟨vb, hvb, hlo, hhi, hpte⟩, he⟩)
    · exact .inl ⟨rfl, by omega⟩
    · rw [hparent.pte hvb] at hpte
      exact .inr ⟨⟨vb, hvb, hlo, hhi, hpte⟩, he⟩
  rintro - s' ⟨rfl, hall, hcopy⟩
  have hwhole : ∀ vb < userTop, PGSIZE ≤ vb → vb < PGSIZE + copied sz * PGSIZE →
      present (s.pte t vb) = true := by
    intro vb hvb hlo hhi
    rw [← hparent.pte hvb]
    exact hall vb hvb hlo hhi
  refine ⟨d, rfl, hempty.makes.moves hcopy.moves, hwhole, ?_, ?_, ?_⟩
  · intro vb hvb hlo hhi
    have hin := hcopy.inside vb hvb hlo hhi
    rw [hparent.pte hvb] at hin
    refine ⟨hin.1, hin.2.1, fun o ho => (hin.2.2 o ho).trans ?_⟩
    exact hempty.makes.same_elsewhere h (Tree.leaf h hvb (hwhole vb hvb hlo hhi)).1 o ho
  · intro vb hvb hout
    rw [hcopy.outside vb hvb hout, hempty.pte hvb]
    exact present_zero
  · have := hcopy.count
    omega

end Xv6.Vm
