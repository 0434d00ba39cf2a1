import Xv6.Vm.Table

/-!
# `walkpgdir` and `mappages`

What the two do to the tree of a page table. A call that allocates panics when the free list runs
out; the specifications count the pages it takes: one for each table on the way that is not there.
-/

namespace Xv6.Vm

open Blit Fallible List Radix Phys
open Bytes (Byte)
open Sched (PGSIZE)

variable {s s' : Phys} {t p q r i va : ℕ} {E : Panic → Prop}

/-! ## Primitives -/

section

variable {α : Type} {Q : Unit → Phys → Prop}

theorem ends_kalloc_nil {Q : Option ℕ → Phys → Prop} (h : s.freelist = []) :
    Ends kalloc s E Q ↔ E .outOfMemory := by
  refine ends_of_error ?_
  simp [kalloc, h]
  rfl

theorem ends_kalloc_cons {Q : Option ℕ → Phys → Prop} {rest : List ℕ}
    (h : s.freelist = r :: rest) :
    Ends kalloc s E Q ↔ Q (some r) { s with freelist := rest } := by
  refine ends_of_ok ?_
  simp [kalloc, h]
  rfl

theorem ends_setPage {f : ℕ → Byte} :
    Ends (setPage p f) s E Q ↔ Q () { s with mem := blit s.mem p PGSIZE f } := ends_modify

theorem ends_memset {c : Byte} :
    Ends (memset p c) s E Q ↔ Q () { s with mem := blit s.mem p PGSIZE fun _ => c } := ends_setPage

theorem ends_memmove :
    Ends (memmove p q) s E Q ↔
      Q () { s with mem := blit s.mem p PGSIZE fun o => s.mem (q + o) } := by
  rw [memmove, ends_bind, ends_get, ends_setPage]

theorem ends_setPte {a e : ℕ} :
    Ends (setPte a e) s E Q ↔ Q () { s with mem := setWord s.mem a e } := ends_modify

theorem ends_entry {Q : ℕ → Phys → Prop} (h : i < NPDENTRIES) :
    Ends (entry t i) s E Q ↔ Q (s.cell t i) s := by
  rw [entry, ends_bind, ends_get, ends_pure, cell_of_lt h]

/-- The state after `kfree`. -/
def Phys.freed (s : Phys) (v : ℕ) : Phys :=
  { s with mem := blit s.mem v PGSIZE fun _ => 1, freelist := v :: s.freelist }

theorem ends_kfree (h : s.Valid p) : Ends (kfree p) s E Q ↔ Q () (s.freed p) := by
  have hok : ¬ (p % PGSIZE ≠ 0 ∨ p < s.kend ∨ p ≥ PHYSTOP) := by
    have := h.aligned
    have := h.above
    have := h.below
    omega
  rw [kfree, ends_bind, ends_get, if_neg hok, ends_bind, ends_memset, ends_modify]
  rfl

end

/-! ## One level -/

variable {Q : Option ℕ → Phys → Prop}

theorem ends_descend_present {alloc : Bool} (hi : i < NPDENTRIES)
    (h : shape.next (s.cell t i) = some q) : Ends (descend t i alloc) s E Q ↔ Q (some q) s := by
  have hpresent : present (s.cell t i) = true := by
    by_contra habsent
    rw [next_of_absent (by simpa using habsent)] at h
    cases h
  rw [next_of_present hpresent] at h
  cases h
  rw [descend, ends_bind, ends_entry hi, if_pos hpresent, ends_pure]

theorem absent_of_next {e : ℕ} (h : shape.next e = none) : present e = false := by
  by_contra hpresent
  rw [next_of_present (by simpa using hpresent)] at h
  cases h

theorem ends_descend_absent (hi : i < NPDENTRIES) (h : shape.next (s.cell t i) = none) :
    Ends (descend t i false) s E Q ↔ Q none s := by
  rw [descend, ends_bind, ends_entry hi, absent_of_next h]
  exact ends_pure

/-- The state after a level of `walkpgdir` made a table. -/
def Phys.madeTable (s : Phys) (T i r : ℕ) (rest : List ℕ) : Phys :=
  { s with
    freelist := rest
    mem := setWord (blit s.mem r PGSIZE fun _ => 0) (T + 8 * i) (r ||| PTE_P ||| PTE_W ||| PTE_U) }

theorem ends_descend_alloc {rest : List ℕ} (hi : i < NPDENTRIES)
    (h : shape.next (s.cell t i) = none) (hfree : s.freelist = r :: rest) :
    Ends (descend t i true) s E Q ↔ Q (some r) (s.madeTable t i r rest) := by
  rw [descend, ends_bind, ends_entry hi, absent_of_next h]
  show Ends (kalloc >>= _) s E Q ↔ _
  rw [ends_bind, ends_kalloc_cons hfree, ends_bind, ends_memset, ends_bind, ends_setPte, ends_pure]
  rfl

theorem ends_descend_exhausted (hi : i < NPDENTRIES) (h : shape.next (s.cell t i) = none)
    (hfree : s.freelist = []) : Ends (descend t i true) s E Q ↔ E .outOfMemory := by
  rw [descend, ends_bind, ends_entry hi, absent_of_next h]
  show Ends (kalloc >>= _) s E Q ↔ _
  rw [ends_bind, ends_kalloc_nil hfree]

/-- The entry of a new table. -/
theorem tableEntry_eq (h : r % PGSIZE = 0) :
    r ||| PTE_P ||| PTE_W ||| PTE_U = r + 7 ∧ shape.next (r + 7) = some r := by
  have hor : r ||| PTE_P ||| PTE_W ||| PTE_U = r ||| 6 ||| PTE_P := by
    simp only [PTE_P, PTE_W, PTE_U, Nat.or_assoc]
    rfl
  have hsix : 6 < PGSIZE := by decide
  have heq := (entry_eq h hsix).1
  have hsum : r ||| 6 ||| PTE_P = r + 7 := heq
  refine ⟨hor.trans hsum, ?_⟩
  rw [← hsum, next_of_present (present_entry h hsix), pteAddr_entry h hsix]

namespace Phys

variable {T k : ℕ} {rest is : List ℕ}

theorem cell_madeTable (hp : p % PGSIZE = 0) (hT : T % PGSIZE = 0) (hr : s.Valid r)
    (hi : i < NPDENTRIES) (j : ℕ) : (s.madeTable T i r rest).cell p j =
      if p = T ∧ j = i then r + 7 else if p = r then 0 else s.cell p j := by
  have hword : r + 7 < 2 ^ 64 := by
    have hlt := hr.below
    unfold PHYSTOP at hlt
    omega
  unfold madeTable
  rw [(tableEntry_eq hr.aligned).1]
  -- the store of the entry, then the page of zeros
  refine (cell_setWord (s := { s with freelist := rest, mem := blit s.mem r PGSIZE fun _ => 0 })
    hp hT hi hword).trans ?_
  congr 1
  split
  · next heq =>
      subst heq
      exact cell_blit_zero (s := { s with freelist := rest }) j
  · next hne =>
      exact (same_blit (s := { s with freelist := rest }) hp hr.aligned hne).cell j

/-- A new table in place of an entry that was absent. -/
theorem grows_madeTable (h : s.Tree t) (hT : s.Leads t is (k + 2) T) (hi : i < shape.width (k + 1))
    (hold : shape.next (s.cell T i) = none) (hfree : s.freelist = r :: rest) :
    Grows t s (s.madeTable T i r rest) ∧
    (∀ vb < userTop, (s.madeTable T i r rest).pte t vb = s.pte t vb) ∧
    (s.madeTable T i r rest).Leads t (is ++ [i]) (k + 1) r ∧
    ∀ js, (s.madeTable T i r rest).Has t js ↔ s.Has t js ∨ js = is ++ [i] := by
  have hi' : i < NPDENTRIES := hi.trans_le (width_le _)
  have hrmem : r ∈ s.freelist := by
    rw [hfree]
    exact mem_cons_self
  have hr := h.valid_free hrmem
  have hTmem : T ∈ s.pages t := Leads.mem_pages hT
  have hTr : T ≠ r := h.ne_of_free hTmem hrmem
  have hTal := (h.valid_page hTmem).aligned
  have hst : StoresAt s (s.madeTable T i r rest) t T i := by
    intro x hx _ j hj
    have hxmem : x.2 ∈ s.pages t := mem_pages hx
    rw [cell_madeTable (h.valid_page hxmem).aligned hTal hr hi', if_neg (by tauto),
      if_neg (h.ne_of_free hxmem hrmem)]
  have hnext : shape.next ((s.madeTable T i r rest).cell T i) = some r := by
    rw [cell_madeTable hTal hTal hr hi', if_pos ⟨rfl, rfl⟩]
    exact (tableEntry_eq hr.aligned).2
  have hblank : ∀ j, (s.madeTable T i r rest).cell r j = 0 := by
    intro j
    rw [cell_madeTable hr.aligned hTal hr hi', if_neg (fun hc => hTr hc.1.symm), if_pos rfl]
  have hnodes : shape.nodes (s.madeTable T i r rest).cell (k + 1) r = [(k + 1, r)] :=
    nodes_blank fun j _ => by rw [hblank, next_zero]
  have hT' := Radix.Leads.store_table h.pages_nodup hT hst
  have hleads : ∀ js m p, s.Leads t js m p → (s.madeTable T i r rest).Leads t js m p := by
    intro js m p hl
    by_cases hpre : is ++ [i] <+: js
    · obtain ⟨js', rfl⟩ := hpre
      rw [append_assoc, singleton_append, Leads, leads_behind hT] at hl
      obtain ⟨-, q, hq, -⟩ := hl
      rw [hold] at hq
      cases hq
    · exact (leads_store h.pages_nodup hT hst hpre).mpr hl
  have hr' : (s.madeTable T i r rest).Leads t (is ++ [i]) (k + 1) r :=
    (leads_behind hT').mpr ⟨hi, r, hnext, .here⟩
  refine ⟨⟨rfl, rfl, ⟨[(k + 1, r)], ?_, ?_⟩, hleads, ?_, ?_⟩, ?_, hr', fun js => ⟨?_, ?_⟩⟩
  · obtain ⟨others, hbefore, hafter⟩ := nodes_store h.pages_nodup hT hi hst
    rw [below_of_none hold, nil_append] at hbefore
    rw [below_of_next hnext, hnodes] at hafter
    exact hafter.trans (hbefore.symm.append_left _)
  · exact hfree
  · intro p hp hnot htable
    have hpr : p ≠ r := fun heq => hnot (heq ▸ hrmem)
    have hpT : p ≠ T := by
      rintro rfl
      exact htable (k + 1) hT.mem_nodes
    have hzero := same_blit (s := { s with freelist := rest }) (f := fun _ => 0) hp hr.aligned hpr
    exact Same.trans hzero (same_setWord
      (s := { s with freelist := rest, mem := blit s.mem r PGSIZE fun _ => 0 }) hp hTal hi' hpT)
  · intro j hj
    have htmem : t ∈ s.pages t := Leads.mem_pages (s := s) .here
    refine (cell_madeTable (h.valid_page htmem).aligned hTal hr hi' j).trans ?_
    rw [if_neg, if_neg (h.ne_of_free htmem hrmem)]
    -- the entries of the top table that are in the tree are the user's
    rintro ⟨rfl, rfl⟩
    have hlevel := hT.level_unique h.pages_nodup .here
    have hk : k = 2 := by omega
    subst hk
    exact absurd hi (Nat.not_lt.mpr hj)
  · intro vb hvb
    exact pte_store_table h hvb hT hst hold hnext hblank
  · rintro ⟨m, p, hl⟩
    by_cases hpre : is ++ [i] <+: js
    · -- the new table is blank, so that no path goes on from there
      obtain ⟨js', rfl⟩ := hpre
      rw [append_assoc, singleton_append, leads_behind hT'] at hl
      obtain ⟨-, q, hq, hrest⟩ := hl
      cases hnext.symm.trans hq
      cases js' with
      | nil => exact .inr (append_nil _)
      | cons j js' =>
        obtain ⟨-, q, hq, -⟩ := leads_cons.mp hrest
        rw [hblank, next_zero] at hq
        cases hq
    · exact .inl ⟨m, p, (leads_store h.pages_nodup hT hst hpre).mp hl⟩
  · rintro (⟨m, p, hl⟩ | rfl)
    · exact ⟨m, p, hleads js (m + 1) p hl⟩
    · exact ⟨k, r, hr'⟩

end Phys

/-! ## The walk -/

/-- A walk that does not allocate only looks. -/
theorem ends_walkpgdir {Q : Option ℕ → Phys → Prop} :
    Ends (walkpgdir t va false) s E Q ↔
      Q ((s.lastTable t va).map fun T => T + 8 * index 0 va) s := by
  unfold walkpgdir lastTable
  cases h3 : shape.next (s.cell t (index 3 va)) with
  | none =>
    rw [ends_bind, ends_descend_absent (index_lt 3 va) h3]
    exact ends_pure
  | some pdp =>
    rw [ends_bind, ends_descend_present (index_lt 3 va) h3, Option.bind_some]
    dsimp only
    cases h2 : shape.next (s.cell pdp (index 2 va)) with
    | none =>
      rw [ends_bind, ends_descend_absent (index_lt 2 va) h2]
      exact ends_pure
    | some pd =>
      rw [ends_bind, ends_descend_present (index_lt 2 va) h2, Option.bind_some]
      dsimp only
      cases h1 : shape.next (s.cell pd (index 1 va)) with
      | none =>
        rw [ends_bind, ends_descend_absent (index_lt 1 va) h1]
        exact ends_pure
      | some pgtab =>
        rw [ends_bind, ends_descend_present (index_lt 1 va) h1]
        exact ends_pure

/-- The tables on the list were added to the tree, as far as they were not there, and the user's pages
stayed as they were. -/
structure Widens (t : ℕ) (l : List (List ℕ)) (s s' : Phys) : Prop extends Phys.Grows t s s' where
  ptes : ∀ vb < userTop, s'.pte t vb = s.pte t vb
  has : ∀ js, s'.Has t js ↔ s.Has t js ∨ js ∈ l
  count : s.freelist.length = s'.freelist.length + missing (s.Has t) l

theorem Widens.trans {s'' : Phys} {l l' : List (List ℕ)} (w : Widens t l s s')
    (w' : Widens t l' s' s'') : Widens t (l ++ l') s s'' where
  toGrows := w.toGrows.trans w'.toGrows
  ptes vb hvb := (w'.ptes vb hvb).trans (w.ptes vb hvb)
  has js := by rw [w'.has, w.has, mem_append, or_assoc]
  count := by
    rw [w.count, w'.count, missing_append w.has]
    omega

/-- Where the pages run out later, there were too few from the start. -/
theorem Widens.short {l l' l'' : List (List ℕ)} (w : Widens t l s s') (hl : l ++ l' ⊆ l'')
    (h : s'.freelist.length < missing (s'.Has t) l') :
    s.freelist.length < missing (s.Has t) l'' := by
  have hmono := missing_mono (P := s.Has t) hl
  rw [missing_append w.has] at hmono
  have := w.count
  omega

/-- One level: the next table is there in the end. -/
theorem descend_widens {T k : ℕ} {is : List ℕ} (h : s.Tree t) (hT : s.Leads t is (k + 2) T)
    (hi : i < shape.width (k + 1)) :
    Ends (descend T i true) s
      (fun e => e = .outOfMemory ∧ s.freelist.length < missing (s.Has t) [is ++ [i]])
      fun o s' => ∃ q, o = some q ∧ Widens t [is ++ [i]] s s' ∧ s'.Leads t (is ++ [i]) (k + 1) q := by
  have hi' : i < NPDENTRIES := hi.trans_le (width_le _)
  cases hnext : shape.next (s.cell T i) with
  | some q =>
    have hq : s.Leads t (is ++ [i]) (k + 1) q :=
      (leads_behind hT).mpr ⟨hi, q, hnext, .here⟩
    have hthere : s.Has t (is ++ [i]) := ⟨k, q, hq⟩
    rw [ends_descend_present hi' hnext]
    refine ⟨q, rfl, ⟨.refl t s, fun _ _ => rfl, fun js => ?_, ?_⟩, hq⟩
    · rw [mem_singleton]
      exact ⟨.inl, fun hjs => hjs.elim id fun heq => heq ▸ hthere⟩
    · rw [missing_of hthere, Nat.add_zero]
  | none =>
    have hnew : missing (s.Has t) [is ++ [i]] = 1 := by
      refine missing_of_not ?_
      rintro ⟨m, p, hl⟩
      obtain ⟨-, q, hq, -⟩ := (leads_behind hT).mp hl
      cases hnext.symm.trans hq
    cases hfree : s.freelist with
    | nil =>
      rw [ends_descend_exhausted hi' hnext hfree, hnew]
      exact ⟨rfl, Nat.one_pos⟩
    | cons r rest =>
      rw [ends_descend_alloc hi' hnext hfree]
      obtain ⟨hgrows, hptes, hleads, hhas⟩ := grows_madeTable h hT hi hnext hfree
      refine ⟨r, rfl, ⟨hgrows, hptes, fun js => by rw [hhas, mem_singleton], ?_⟩, hleads⟩
      rw [hnew, hfree]
      rfl

/-- The tables on the way to a page. -/
def ways (va : ℕ) : List (List ℕ) := [[index 3 va], [index 3 va, index 2 va], path va]

/-- A walk that allocates finds the entry, and takes a page for each table that is not there. -/
theorem walkpgdir_widens (h : s.Tree t) (hva : va < userTop) :
    Ends (walkpgdir t va true) s
      (fun e => e = .outOfMemory ∧ s.freelist.length < missing (s.Has t) (ways va))
      fun o s' => ∃ T, o = some (T + 8 * index 0 va) ∧ Widens t (ways va) s s' ∧
        s'.Leads t (path va) 1 T := by
  rw [walkpgdir, ends_bind]
  refine (descend_widens h .here (index_lt_width hva 3)).mono ?_ ?_
  · rintro e ⟨rfl, hfew⟩
    exact ⟨rfl, hfew.trans_le (missing_mono (by simp [ways]))⟩
  rintro - s₃ ⟨pdp, rfl, hw₃, hpdp⟩
  dsimp only
  rw [ends_bind]
  refine (descend_widens (hw₃.tree h) hpdp (index_lt_width hva 2)).mono ?_ ?_
  · rintro e ⟨rfl, hfew⟩
    exact ⟨rfl, hw₃.short (by simp [ways]) hfew⟩
  rintro - s₂ ⟨pd, rfl, hw₂, hpd⟩
  dsimp only
  rw [ends_bind]
  refine (descend_widens (hw₂.tree (hw₃.tree h)) hpd (index_lt_width hva 1)).mono ?_ ?_
  · rintro e ⟨rfl, hfew⟩
    exact ⟨rfl, (hw₃.trans hw₂).short (by simp [ways, path]) hfew⟩
  rintro - s₁ ⟨pgtab, rfl, hw₁, hpgtab⟩
  exact ends_pure.mpr ⟨pgtab, rfl, (hw₃.trans hw₂).trans hw₁, hpgtab⟩

/-! ## Mapping a page -/

theorem ends_load {Q : ℕ → Phys → Prop} (h : i < NPDENTRIES) :
    Ends (load (t + 8 * i)) s E Q ↔ Q (s.cell t i) s := by
  rw [load, entry, ends_bind, ends_get, ends_pure, cell_of_lt h]
  rfl

theorem mappages_one {perm : ℕ} (h : va % PGSIZE = 0) :
    mappages t va PGSIZE q perm = mappagesLoop t perm 1 va q := by
  rw [pgsize_eq] at h
  have hstart : pgrounddown va = va := by
    rw [pgrounddown, pgsize_eq]
    omega
  have hlast : pgrounddown (va + PGSIZE - 1) = va := by
    rw [pgrounddown, pgsize_eq]
    omega
  rw [mappages, hlast, hstart, Nat.sub_self, Nat.zero_div]

namespace Phys

variable {T e k : ℕ} {f : ℕ → Byte} {rest is : List ℕ}

/-- The state after `kalloc` gave out a page and it was filled. -/
def filled (s : Phys) (q : ℕ) (f : ℕ → Byte) (rest : List ℕ) : Phys :=
  { s with freelist := rest, mem := blit s.mem q PGSIZE f }

theorem same_filled (hp : p % PGSIZE = 0) (hq : q % PGSIZE = 0) (hne : p ≠ q) :
    Same s (s.filled q f rest) p :=
  same_blit (s := { s with freelist := rest }) hp hq hne

theorem filled_mem {o : ℕ} (ho : o < PGSIZE) : (s.filled q f rest).mem (q + o) = f o :=
  blit_of_lt ho

namespace Tree

theorem sameTables_filled (h : s.Tree t) (hfree : s.freelist = q :: rest) :
    SameTables s (s.filled q f rest) t := by
  intro k p hp
  have hq : q ∈ s.freelist := hfree ▸ mem_cons_self
  exact same_filled (h.valid_page (mem_pages hp)).aligned (h.valid_free hq).aligned
    (h.ne_of_free (mem_pages hp) hq)

theorem filled (h : s.Tree t) (hfree : s.freelist = q :: rest) : (s.filled q f rest).Tree t := by
  have hpages := (h.sameTables_filled hfree (f := f)).pages
  have hnodup := h.nodup
  have hvalid := h.valid
  rw [hfree] at hnodup hvalid
  refine ⟨?_, ?_, h.kend⟩
  · rw [hpages]
    exact (nodup_cons.mp hnodup).2
  · rw [hpages]
    exact fun p hp => (hvalid p (mem_cons_of_mem _ hp)).of_kend rfl

/-- The page that was given out is neither free nor in the tree. -/
theorem taken_fresh (h : s.Tree t) (hfree : s.freelist = q :: rest) : q ∉ rest ++ s.pages t := by
  have hnodup := h.nodup
  rw [hfree] at hnodup
  exact (nodup_cons.mp hnodup).1

end Tree

/-- The state after a store to an entry. -/
def stored (s : Phys) (T i e : ℕ) : Phys := { s with mem := setWord s.mem (T + 8 * i) e }

theorem storesAt_stored (h : s.Tree t) (hT : T ∈ s.pages t) (hi : i < NPDENTRIES)
    (he : e < 2 ^ 64) : StoresAt s (s.stored T i e) t T i := by
  intro x hx _ j hj
  refine (cell_setWord (h.valid_page (mem_pages hx)).aligned (h.valid_page hT).aligned hi
    he).trans (if_neg ?_)
  rintro ⟨hxT, hji⟩
  exact hj.elim (· hxT) (· hji)

theorem cell_stored (hT : T % PGSIZE = 0) (hi : i < NPDENTRIES) (he : e < 2 ^ 64) :
    (s.stored T i e).cell T i = e :=
  (cell_setWord hT hT hi he).trans (if_pos ⟨rfl, rfl⟩)

/-- An entry of a last table leads to a page, which is no table. -/
theorem has_stored_leaf (h : s.Tree t) (hT : s.Leads t (path va) 1 T) (he : e < 2 ^ 64)
    (js : List ℕ) : (s.stored T (index 0 va) e).Has t js ↔ s.Has t js := by
  have hst := storesAt_stored h (Leads.mem_pages hT) (index_lt 0 va) he
  have hpage : ∀ {u : Phys} {js m p}, u.Leads t (path va) 1 T →
      u.Leads t (path va ++ [index 0 va] ++ js) (m + 1) p → False := by
    intro u js m p hu hl
    rw [append_assoc, singleton_append, Leads, leads_behind hu] at hl
    obtain ⟨-, q, -, hrest⟩ := hl
    cases hrest
  refine exists_congr fun m => exists_congr fun p => ?_
  by_cases hpre : path va ++ [index 0 va] <+: js
  · obtain ⟨js', rfl⟩ := hpre
    exact iff_of_false (hpage (Radix.Leads.store_table h.pages_nodup hT hst)) (hpage hT)
  · exact leads_store h.pages_nodup hT hst hpre

/-- An entry that was absent comes to point to the page `q`. -/
theorem stored_leaf (h : s.Tree t) (hva : va < userTop) (hT : s.Leads t (path va) 1 T)
    (hold : present (s.pte t va) = false) (he : e < 2 ^ 64) (hnew : shape.next e = some q) :
    ((s.stored T (index 0 va) e).nodes t).Perm ((0, q) :: s.nodes t) ∧
    (∀ is k p, s.Leads t is k p → (s.stored T (index 0 va) e).Leads t is k p) ∧
    (∀ is, (s.stored T (index 0 va) e).Has t is ↔ s.Has t is) ∧
    ∀ vb < userTop, (s.stored T (index 0 va) e).pte t vb =
      if vb / PGSIZE = va / PGSIZE then e else s.pte t vb := by
  have hTmem : T ∈ s.pages t := Leads.mem_pages hT
  have hi := index_lt 0 va
  have hst := storesAt_stored h hTmem hi he
  have hcell := cell_stored (s := s) (h.valid_page hTmem).aligned hi he
  rw [pte_of_leads hva hT] at hold
  have hnone := next_of_absent hold
  have hleads : ∀ js m p, s.Leads t js m p → (s.stored T (index 0 va) e).Leads t js m p := by
    intro js m p hl
    by_cases hpre : path va ++ [index 0 va] <+: js
    · obtain ⟨js', rfl⟩ := hpre
      rw [append_assoc, singleton_append, Leads, leads_behind hT] at hl
      obtain ⟨-, q, hq, -⟩ := hl
      rw [hnone] at hq
      cases hq
    · exact (leads_store h.pages_nodup hT hst hpre).mpr hl
  refine ⟨?_, hleads, has_stored_leaf h hT he, ?_⟩
  · obtain ⟨others, hbefore, hafter⟩ :=
      nodes_store h.pages_nodup hT (index_lt_width hva 0) hst
    rw [below_of_none hnone, nil_append] at hbefore
    rw [hcell, below_of_next hnew] at hafter
    exact hafter.trans (hbefore.symm.cons _)
  · intro vb hvb
    rw [pte_store_leaf h hva hvb hT hst, hcell]

end Phys

/-- A page from the free list was mapped at `va` with the entry `e`, and filled with `f`. -/
structure Places (t va e q : ℕ) (f : ℕ → Byte) (s s' : Phys) : Prop extends
    Phys.Grows t s s' where
  absent : present (s.pte t va) = false
  ptes : ∀ vb < userTop, s'.pte t vb = if vb / PGSIZE = va / PGSIZE then e else s.pte t vb
  filled : ∀ o < PGSIZE, s'.mem (q + o) = f o
  has : ∀ js, s'.Has t js ↔ s.Has t js ∨ js ∈ ways va
  count : s.freelist.length = s'.freelist.length + (1 + missing (s.Has t) (ways va))

/-- `mappages` on a page that `kalloc` gave out and that was filled. -/
theorem mappages_places {rest : List ℕ} {f : ℕ → Byte} {perm : ℕ} (h : s.Tree t)
    (hfree : s.freelist = q :: rest) (hal : va % PGSIZE = 0) (hva : va < userTop)
    (hperm : perm < PGSIZE) :
    Ends (mappages t va PGSIZE q perm) (s.filled q f rest)
      (fun e => e = .remap ∧ present (s.pte t va) = true ∨
        e = .outOfMemory ∧ s.freelist.length < 1 + missing (s.Has t) (ways va))
      fun done s' => done = true ∧ Places t va (q ||| perm ||| PTE_P) q f s s' := by
  have hqmem : q ∈ s.freelist := hfree ▸ mem_cons_self
  have hq := h.valid_free hqmem
  have hsame : Phys.SameTables s (s.filled q f rest) t := h.sameTables_filled hfree
  have hmissing : missing ((s.filled q f rest).Has t) (ways va) =
      missing (s.Has t) (ways va) := missing_congr fun js _ => hsame.has js
  rw [mappages_one hal, mappagesLoop, ends_bind]
  refine (walkpgdir_widens (h.filled hfree) hva).mono ?_ ?_
  · rintro e ⟨rfl, hfew⟩
    refine .inr ⟨rfl, ?_⟩
    rw [hmissing] at hfew
    rw [hfree, length_cons, Nat.add_comm 1]
    exact Nat.succ_lt_succ hfew
  rintro - s₂ ⟨T, rfl, hw, hT⟩
  have h₂ := hw.tree (h.filled hfree)
  have hpte : s₂.pte t va = s.pte t va := (hw.ptes va hva).trans (hsame.pte hva)
  dsimp only
  rw [ends_bind, ends_load (index_lt 0 va), ← pte_of_leads hva hT, hpte]
  split
  · next hpresent =>
      exact ends_throw.mpr (.inl ⟨rfl, hpresent⟩)
  next habsent =>
  have habsent' : present (s.pte t va) = false := by simpa using habsent
  rw [ends_bind, ends_setPte, mappagesLoop, ends_pure]
  refine ⟨rfl, ?_⟩
  -- the page is neither free nor in the tree when its entry is stored
  have hTmem := Phys.Leads.mem_pages hT
  have hqfresh : q ∉ s₂.freelist ++ s₂.pages t := by
    rw [hw.perm.mem_iff, hsame.pages]
    exact h.taken_fresh hfree
  have hqT : q ≠ T := fun heq => hqfresh (mem_append_right _ (heq ▸ hTmem))
  have hTal := (h₂.valid_page hTmem).aligned
  have he : q ||| perm ||| PTE_P < 2 ^ 64 := by
    have hlt := hq.below
    obtain ⟨heq, hsmall, -⟩ := entry_eq hq.aligned hperm
    rw [pgsize_eq] at hsmall
    unfold PHYSTOP at hlt
    omega
  have hnext : shape.next (q ||| perm ||| PTE_P) = some q := by
    rw [next_of_present (present_entry hq.aligned hperm), pteAddr_entry hq.aligned hperm]
  obtain ⟨hnodes, hleads, hhas, hptes⟩ :=
    stored_leaf h₂ hva hT ((congrArg present hpte).trans habsent') he hnext
  obtain ⟨new, hnew, hrest⟩ := hw.grow
  rw [hsame.nodes] at hnew
  refine ⟨⟨hw.kend, hw.kpdpt, ⟨(0, q) :: new, ?_, ?_⟩, ?_, ?_, ?_⟩, habsent', ?_, ?_, ?_, ?_⟩
  · exact hnodes.trans (hnew.cons _)
  · rw [hfree, map_cons, cons_append]
    exact congrArg (List.cons q) hrest
  · intro is k p hl
    exact hleads is k p (hw.leads is k p (hsame.leads.mpr hl))
  · intro p hp hpfree hptable
    have hpq : p ≠ q := fun heq => hpfree (heq ▸ hqmem)
    have hpT : p ≠ T := by
      rintro rfl
      rcases mem_append.mp (hnew.mem_iff.mp hT.mem_nodes) with hin | hin
      · refine hpfree ?_
        rw [hfree]
        refine mem_cons_of_mem _ ?_
        rw [show rest = new.map Prod.snd ++ s₂.freelist from hrest]
        exact mem_append_left _ (mem_map_of_mem hin)
      · exact hptable 0 hin
    refine (same_filled hp hq.aligned hpq).trans ((hw.same p hp ?_ ?_).trans ?_)
    · intro hin
      exact hpfree (hfree ▸ mem_cons_of_mem _ hin)
    · rw [hsame.nodes]
      exact hptable
    · exact same_setWord hp hTal (index_lt 0 va) hpT
  · intro j hj
    have htT : t ≠ T := by
      rintro rfl
      have hlevel := hT.level_unique h₂.pages_nodup .here
      omega
    have ht := h₂.valid_page (Phys.Leads.mem_pages (s := s₂) (t := t) .here)
    have hwalk := (hw.half j hj).trans (hsame.cells (4, t) root_mem_nodes (Nat.succ_pos 3) j)
    exact ((same_setWord ht.aligned hTal (index_lt 0 va) htT).cell j).trans hwalk
  · intro vb hvb
    exact (hptes vb hvb).trans (by rw [hw.ptes vb hvb, hsame.pte hvb])
  · intro o ho
    have hwalk := hw.same q hq.aligned (fun hin => h.taken_fresh hfree (mem_append_left _ hin))
      (fun k hk => by
        rw [hsame.nodes] at hk
        exact h.taken_fresh hfree (mem_append_right _ (mem_pages hk)))
    have hstore := same_setWord (s := s₂) (v := q ||| perm ||| PTE_P) hq.aligned hTal
      (index_lt 0 va) hqT
    exact (hstore o ho).trans ((hwalk o ho).trans (filled_mem ho))
  · intro js
    exact (hhas js).trans ((hw.has js).trans (or_congr_left (hsame.has js)))
  · have hcount : rest.length = s₂.freelist.length + _ := hw.count
    rw [hmissing] at hcount
    rw [hfree, length_cons, hcount]
    show _ = s₂.freelist.length + _
    omega

end Xv6.Vm
