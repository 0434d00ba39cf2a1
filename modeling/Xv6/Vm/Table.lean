import Xv6.Common.Radix
import Xv6.Vm.Memory

/-!
# Page tables as finite maps

The tables `walkpgdir` walks are the tables of tables of `Common.Radix`: four levels, of which the
user half has 256 entries in the top one. The functions of `vm.c` are specified here by what they do
to that tree and to the entry `pte` of each user page.
-/

namespace Xv6.Vm

open Blit Fallible List
open Bytes (Byte)
open Sched (PGSIZE)

/-! ## Entries -/

theorem pgsize_eq : PGSIZE = 4096 := rfl

variable {e p f : ℕ}

theorem present_iff : present e = true ↔ e % 2 = 1 := by
  unfold present PTE_P
  rw [Nat.and_one_is_mod, decide_eq_true_iff]
  omega

theorem present_zero : present 0 = false := by decide

theorem entry_eq (hp : p % PGSIZE = 0) (hf : f < PGSIZE) :
    p ||| f ||| PTE_P = p + (f ||| 1) ∧ f ||| 1 < PGSIZE ∧ (f ||| 1) % 2 = 1 := by
  obtain ⟨a, rfl⟩ : ∃ a, p = 2 ^ 12 * a := ⟨p / 2 ^ 12, by rw [pgsize_eq] at hp; omega⟩
  have hlt : f ||| 1 < 2 ^ 12 := Nat.or_lt_two_pow hf (by decide)
  refine ⟨?_, hlt, ?_⟩
  · rw [PTE_P, Nat.or_assoc, Nat.two_pow_add_eq_or_of_lt hlt]
  · rw [← Nat.and_one_is_mod, Nat.and_or_distrib_right, Nat.and_self]
    have hbit : f &&& 1 = 0 ∨ f &&& 1 = 1 := by
      rw [Nat.and_one_is_mod]
      omega
    rcases hbit with h | h <;> rw [h] <;> rfl

theorem present_entry (hp : p % PGSIZE = 0) (hf : f < PGSIZE) :
    present (p ||| f ||| PTE_P) = true := by
  obtain ⟨heq, -, hodd⟩ := entry_eq hp hf
  rw [present_iff, heq]
  rw [pgsize_eq] at hp
  omega

theorem pteAddr_entry (hp : p % PGSIZE = 0) (hf : f < PGSIZE) :
    pteAddr (p ||| f ||| PTE_P) = p := by
  obtain ⟨heq, hlt, -⟩ := entry_eq hp hf
  rw [pteAddr, heq]
  rw [pgsize_eq] at *
  omega

theorem pteFlags_entry (hp : p % PGSIZE = 0) (hf : f < PGSIZE) :
    pteFlags (p ||| f ||| PTE_P) = f ||| 1 := by
  obtain ⟨heq, hlt, -⟩ := entry_eq hp hf
  rw [pteFlags, heq]
  rw [pgsize_eq] at *
  omega

/-- The flags of an entry that is present have the bit already. -/
theorem pteFlags_or_one (h : present e = true) : pteFlags e ||| 1 = pteFlags e := by
  rw [present_iff] at h
  have hodd : pteFlags e % 2 = 1 := by
    rw [pteFlags, pgsize_eq]
    omega
  apply Nat.eq_of_testBit_eq
  intro i
  rw [Nat.testBit_or]
  cases i with
  | zero => simp [Nat.testBit_zero, hodd]
  | succ i => simp [Nat.testBit_succ]

/-! ## Pages -/

namespace Phys

variable {s s' : Phys} {p q i j v : ℕ}

/-- What `kfree` accepts. -/
structure Valid (s : Phys) (p : ℕ) : Prop where
  aligned : p % PGSIZE = 0
  above : s.kend ≤ p
  below : p < PHYSTOP

theorem Valid.of_kend (h : s.Valid p) (hk : s'.kend = s.kend) : s'.Valid p :=
  ⟨h.aligned, hk ▸ h.above, h.below⟩

/-- Entry `i` of a page; a page has 512. -/
def cell (s : Phys) (p i : ℕ) : ℕ := if i < NPDENTRIES then word s.mem (p + 8 * i) else 0

theorem cell_of_lt (h : i < NPDENTRIES) : s.cell p i = word s.mem (p + 8 * i) := if_pos h

/-- The page has the same contents in both states. -/
def Same (s s' : Phys) (p : ℕ) : Prop := ∀ o < PGSIZE, s'.mem (p + o) = s.mem (p + o)

theorem Same.cell (h : Same s s' p) (i : ℕ) : s'.cell p i = s.cell p i := by
  unfold Phys.cell
  split
  · next hi =>
      refine word_congr fun x hlo hhi => ?_
      obtain ⟨o, rfl⟩ : ∃ o, x = p + o := ⟨x - p, by omega⟩
      exact h o (by rw [pgsize_eq]; rw [NPDENTRIES] at hi; omega)
  · rfl

theorem same_blit {f : ℕ → Byte} (hp : p % PGSIZE = 0) (hq : q % PGSIZE = 0) (hne : p ≠ q) :
    Same s { s with mem := blit s.mem q PGSIZE f } p := by
  intro o ho
  apply blit_of_not
  rw [pgsize_eq] at *
  omega

theorem cell_blit_zero (i : ℕ) : ({ s with mem := blit s.mem p PGSIZE fun _ => 0 } : Phys).cell p i
    = 0 := by
  unfold cell
  split
  · next hi =>
      rw [NPDENTRIES] at hi
      have hzero : ∀ a n, p ≤ a → a + n ≤ p + PGSIZE →
          leNat (blit s.mem p PGSIZE fun _ => 0) a n = 0 := by
        intro a n
        induction n generalizing a with
        | zero => intro _ _; rfl
        | succ n ih =>
          intro hlo hhi
          obtain ⟨o, rfl⟩ : ∃ o, a = p + o := ⟨a - p, by omega⟩
          rw [leNat, blit_of_lt (by omega), ih _ (by omega) (by omega)]
          rfl
      exact hzero _ 8 (by omega) (by rw [pgsize_eq]; omega)
  · rfl

theorem cell_setWord (hp : p % PGSIZE = 0) (hq : q % PGSIZE = 0) (hi : i < NPDENTRIES)
    (hv : v < 2 ^ 64) : ({ s with mem := setWord s.mem (q + 8 * i) v } : Phys).cell p j =
      if p = q ∧ j = i then v else s.cell p j := by
  unfold cell
  by_cases hj : j < NPDENTRIES
  · rw [if_pos hj, if_pos hj]
    split
    · next heq =>
        rw [heq.1, heq.2]
        exact word_setWord hv
    · next hne =>
        apply word_setWord_ne
        rw [NPDENTRIES] at *
        rw [pgsize_eq] at *
        by_contra hover
        refine hne ?_
        omega
  · rw [if_neg hj, if_neg hj, if_neg]
    rintro ⟨-, rfl⟩
    exact hj hi

theorem same_setWord (hp : p % PGSIZE = 0) (hq : q % PGSIZE = 0) (hi : i < NPDENTRIES)
    (hne : p ≠ q) : Same s { s with mem := setWord s.mem (q + 8 * i) v } p := by
  intro o ho
  apply setWord_of_not
  rw [NPDENTRIES] at hi
  rw [pgsize_eq] at *
  omega

theorem Same.refl (p : ℕ) : Same s s p := fun _ _ => rfl

theorem Same.trans {s'' : Phys} (h : Same s s' p) (h' : Same s' s'' p) : Same s s'' p :=
  fun o ho => (h' o ho).trans (h o ho)

end Phys

/-! ## Paths -/

/-- The first address that is not in the user half. -/
def userTop : ℕ := 2 ^ 47

/-- The path from the top table to the last table for an address. -/
def path (va : ℕ) : List ℕ := [index 3 va, index 2 va, index 1 va]

theorem index_lt (ℓ va : ℕ) : index ℓ va < NPDENTRIES := Nat.mod_lt _ (by decide)

variable {va vb e : ℕ}

/-- The page of an address of the user half is told by its path. -/
theorem page_eq_of_path (ha : va < userTop) (hb : vb < userTop) (hpath : path va = path vb)
    (hlast : index 0 va = index 0 vb) : va / PGSIZE = vb / PGSIZE := by
  simp only [path, List.cons.injEq, and_true] at hpath
  obtain ⟨h3, h2, h1⟩ := hpath
  unfold userTop at ha hb
  unfold index at *
  rw [pgsize_eq]
  simp only [Nat.reduceMul, Nat.reduceAdd, Nat.reducePow] at *
  omega

theorem path_eq_of_page (h : va / PGSIZE = vb / PGSIZE) :
    path va = path vb ∧ index 0 va = index 0 vb := by
  have hindex : ∀ ℓ, index ℓ va = index ℓ vb := by
    intro ℓ
    have hpow : (2 : ℕ) ^ (12 + 9 * ℓ) = PGSIZE * 2 ^ (9 * ℓ) := by rw [pow_add]; rfl
    rw [index, index, hpow, ← Nat.div_div_eq_div_mul, ← Nat.div_div_eq_div_mul, h]
  exact ⟨by rw [path, path, hindex, hindex, hindex], hindex 0⟩

/-! ## The tree of a page table -/

/-- Entries as pointers; the user half of the top table has 256 of them. -/
def shape : Radix ℕ ℕ where
  next e := if present e then some (pteAddr e) else none
  width ℓ := if ℓ = 3 then NPDENTRIES / 2 else NPDENTRIES

theorem next_of_present (h : present e = true) : shape.next e = some (pteAddr e) := if_pos h

theorem next_of_absent (h : present e = false) : shape.next e = none := by
  simp [shape, h]

theorem next_zero : shape.next 0 = none := next_of_absent present_zero

theorem width_le (ℓ : ℕ) : shape.width ℓ ≤ NPDENTRIES := by
  unfold shape NPDENTRIES
  dsimp only
  split <;> omega

theorem index_lt_width (h : va < userTop) (ℓ : ℕ) : index ℓ va < shape.width ℓ := by
  unfold shape
  dsimp only
  split
  · next hl =>
      subst hl
      unfold userTop at h
      unfold index NPDENTRIES
      simp only [Nat.reduceMul, Nat.reduceAdd, Nat.reducePow, Nat.reduceDiv] at *
      omega
  · exact index_lt ℓ va

namespace Phys

variable {s s' : Phys} {t p q i va : ℕ}

/-- The pages of the tree with their levels: four for the top table, 0 for the user's pages. -/
def nodes (s : Phys) (t : ℕ) : List (ℕ × ℕ) := shape.nodes s.cell 4 t

def pages (s : Phys) (t : ℕ) : List ℕ := shape.pages s.cell 4 t

abbrev Leads (s : Phys) (t : ℕ) (is : List ℕ) (k p : ℕ) : Prop := shape.Leads s.cell 4 t is k p

abbrev Has (s : Phys) (t : ℕ) (is : List ℕ) : Prop := shape.Has s.cell 4 t is

/-- The pages of the list are ones that the allocator gave out, each to one place. -/
structure Heap (s : Phys) (l : List ℕ) : Prop where
  nodup : (s.freelist ++ l).Nodup
  valid : ∀ p ∈ s.freelist ++ l, s.Valid p
  kend : 0 < s.kend

/-- The tree at `t` consists of such pages. -/
abbrev Tree (s : Phys) (t : ℕ) : Prop := s.Heap (s.pages t)

namespace Heap

variable {l l' : List ℕ}

/-- Pages have changed hands. -/
theorem moved (h : s.Heap l) (hkend : s'.kend = s.kend)
    (hperm : (s'.freelist ++ l').Perm (s.freelist ++ l)) : s'.Heap l' where
  nodup := hperm.nodup_iff.mpr h.nodup
  valid p hp := (h.valid p (hperm.mem_iff.mp hp)).of_kend hkend
  kend := hkend ▸ h.kend

theorem perm (h : s.Heap l) (hl : l.Perm l') : s.Heap l' := h.moved rfl (hl.symm.append_left _)

theorem sublist (h : s.Heap l) (hl : l'.Sublist l) : s.Heap l' where
  nodup := h.nodup.sublist (hl.append_left _)
  valid p hp := h.valid p ((hl.append_left _).subset hp)
  kend := h.kend

theorem left (h : s.Heap (l ++ l')) : s.Heap l := h.sublist (sublist_append_left l l')

theorem right (h : s.Heap (l ++ l')) : s.Heap l' := h.sublist (sublist_append_right l l')

theorem pop (h : s.Heap l) (hfree : s.freelist = q :: l') :
    Heap { s with freelist := l' } (q :: l) := by
  refine h.moved rfl ?_
  rw [hfree]
  exact perm_middle

theorem pos (h : s.Heap l) (hp : p ∈ l) : 0 < p :=
  h.kend.trans_le (h.valid p (mem_append_right _ hp)).above

theorem not_free (h : s.Heap l) (hp : p ∈ l) : p ∉ s.freelist :=
  fun hfree => (nodup_append.mp h.nodup).2.2 p hfree p hp rfl

end Heap

theorem mem_pages {k : ℕ} (h : (k, p) ∈ s.nodes t) : p ∈ s.pages t :=
  mem_map_of_mem h

theorem Leads.mem_pages {is : List ℕ} {k : ℕ} (h : s.Leads t is k p) : p ∈ s.pages t :=
  Phys.mem_pages (Radix.Leads.mem_nodes h)

namespace Tree

theorem pages_nodup (h : s.Tree t) : (s.pages t).Nodup := (nodup_append.mp h.nodup).2.1

theorem valid_free (h : s.Tree t) (hp : p ∈ s.freelist) : s.Valid p :=
  h.valid p (mem_append_left _ hp)

theorem valid_page (h : s.Tree t) (hp : p ∈ s.pages t) : s.Valid p :=
  h.valid p (mem_append_right _ hp)

theorem ne_of_free (h : s.Tree t) (hp : p ∈ s.pages t) (hq : q ∈ s.freelist) : p ≠ q :=
  fun heq => (nodup_append.mp h.nodup).2.2 q hq p hp heq.symm

end Tree

/-- The last table for an address, as `walkpgdir` finds it. -/
def lastTable (s : Phys) (t va : ℕ) : Option ℕ :=
  (shape.next (s.cell t (index 3 va))).bind fun pdp =>
    (shape.next (s.cell pdp (index 2 va))).bind fun pd => shape.next (s.cell pd (index 1 va))

/-- The entry for an address; 0 where there is no table for it. -/
def pte (s : Phys) (t va : ℕ) : ℕ := (s.lastTable t va).elim 0 fun T => s.cell T (index 0 va)

theorem lastTable_eq_some (hva : va < userTop) :
    s.lastTable t va = some p ↔ s.Leads t (path va) 1 p := by
  unfold lastTable path Leads
  simp only [Option.bind_eq_some_iff, Radix.leads_cons, Radix.leads_nil, true_and,
    index_lt_width hva]
  constructor
  · rintro ⟨pdp, h3, pd, h2, h1⟩
    exact ⟨pdp, h3, pd, h2, p, h1, rfl⟩
  · rintro ⟨pdp, h3, pd, h2, q, h1, rfl⟩
    exact ⟨pdp, h3, pd, h2, h1⟩

theorem pte_of_leads (hva : va < userTop) (h : s.Leads t (path va) 1 p) :
    s.pte t va = s.cell p (index 0 va) := by
  rw [pte, (lastTable_eq_some hva).mpr h]
  rfl

theorem pte_of_not (hva : va < userTop) (h : ∀ p, ¬ s.Leads t (path va) 1 p) :
    s.pte t va = 0 := by
  have hnone : s.lastTable t va = none := by
    rw [Option.eq_none_iff_forall_ne_some]
    intro p hp
    exact h p ((lastTable_eq_some hva).mp hp)
  rw [pte, hnone]
  rfl

/-- An entry that is present is in a table. -/
theorem lastTable_of_present (h : present (s.pte t va) = true) : s.lastTable t va ≠ none := by
  intro hnone
  rw [pte, hnone, Option.elim_none, present_zero] at h
  cases h

/-- An entry that is present is a leaf of the tree. -/
theorem leaf_of_present (hva : va < userTop) (h : present (s.pte t va) = true) :
    s.Leads t (path va ++ [index 0 va]) 0 (pteAddr (s.pte t va)) := by
  by_cases hlast : ∃ T, s.Leads t (path va) 1 T
  · obtain ⟨T, hT⟩ := hlast
    rw [pte_of_leads hva hT] at h ⊢
    rw [Leads, Radix.leads_behind hT]
    exact ⟨index_lt_width hva 0, _, next_of_present h, .here⟩
  · rw [pte_of_not hva fun T hT => hlast ⟨T, hT⟩] at h
    cases h

/-! ## Stores elsewhere -/

/-- The tables of the tree are the same in both states. -/
def SameTables (s s' : Phys) (t : ℕ) : Prop := ∀ k p, (k + 1, p) ∈ s.nodes t → Same s s' p

namespace SameTables

section

variable (h : SameTables s s' t)

include h

theorem cells (x : ℕ × ℕ) (hx : x ∈ s.nodes t) (hpos : 0 < x.1) (i : ℕ) :
    s'.cell x.2 i = s.cell x.2 i := by
  obtain ⟨k, p⟩ := x
  obtain ⟨k, rfl⟩ := Nat.exists_eq_succ_of_ne_zero hpos.ne'
  exact (h k p hx).cell i

theorem nodes : s'.nodes t = s.nodes t := Radix.nodes_congr h.cells

theorem pages : s'.pages t = s.pages t :=
  congrArg (List.map Prod.snd) h.nodes

theorem leads {is : List ℕ} {k : ℕ} :
    s'.Leads t is k p ↔ s.Leads t is k p := Radix.leads_congr h.cells

theorem has (is : List ℕ) : s'.Has t is ↔ s.Has t is :=
  exists_congr fun _ => exists_congr fun _ => h.leads

theorem lastTable (hva : va < userTop) :
    s'.lastTable t va = s.lastTable t va := by
  refine Option.ext fun T => ?_
  rw [lastTable_eq_some hva, lastTable_eq_some hva, h.leads]

theorem pte (hva : va < userTop) : s'.pte t va = s.pte t va := by
  rw [Phys.pte, Phys.pte, h.lastTable hva]
  cases hlast : s.lastTable t va with
  | none => rw [Option.elim_none, Option.elim_none]
  | some T => exact h.cells (1, T) ((lastTable_eq_some hva).mp hlast).mem_nodes Nat.one_pos _

end

end SameTables

/-! ## Stores to an entry -/

section

variable {T r vb k : ℕ} {is : List ℕ}

/-- No entry but entry `i` of `T` changes in the tables of the tree. -/
abbrev StoresAt (s s' : Phys) (t T i : ℕ) : Prop :=
  Radix.StoresAt s.cell s'.cell T i (s.nodes t)

/-- A store to an entry of a last table. -/
theorem pte_store_leaf (h : s.Tree t) (hva : va < userTop) (hvb : vb < userTop)
    (hT : s.Leads t (path va) 1 T) (hst : StoresAt s s' t T (index 0 va)) : s'.pte t vb =
      if vb / PGSIZE = va / PGSIZE then s'.cell T (index 0 va) else s.pte t vb := by
  -- paths of three steps end before the entry
  have hlast : ∀ U, s'.Leads t (path vb) 1 U ↔ s.Leads t (path vb) 1 U := by
    intro U
    refine Radix.leads_store h.pages_nodup hT hst ?_
    intro hpre
    have hlen := hpre.length_le
    simp [path] at hlen
  split
  · next hpage =>
      obtain ⟨hpath, hindex⟩ := path_eq_of_page hpage
      rw [pte_of_leads hvb ((hlast T).mpr (hpath ▸ hT)), hindex]
  · next hpage =>
      by_cases hU : ∃ U, s.Leads t (path vb) 1 U
      · obtain ⟨U, hU⟩ := hU
        rw [pte_of_leads hvb ((hlast U).mpr hU), pte_of_leads hvb hU]
        refine hst (1, U) hU.mem_nodes Nat.one_pos _ ?_
        by_contra hsame
        push Not at hsame
        obtain ⟨rfl, hindex⟩ := hsame
        exact hpage (page_eq_of_path hvb hva (hU.inj h.pages_nodup hT) hindex)
      · rw [pte_of_not hvb fun U hl => hU ⟨U, hl⟩,
          pte_of_not hvb fun U hl => hU ⟨U, (hlast U).mp hl⟩]

/-- A table without entries is put where there was none: no entry of a user page changes. -/
theorem pte_store_table (h : s.Tree t) (hvb : vb < userTop) (hT : s.Leads t is (k + 2) T)
    (hst : StoresAt s s' t T i) (hold : shape.next (s.cell T i) = none)
    (hnew : shape.next (s'.cell T i) = some r) (hr : ∀ j, s'.cell r j = 0) :
    s'.pte t vb = s.pte t vb := by
  have hT' : s'.Leads t is (k + 2) T := Radix.Leads.store_table h.pages_nodup hT hst
  by_cases hpre : is ++ [i] <+: path vb
  · -- behind the entry there was nothing, and there are only entries that are 0
    obtain ⟨js, hjs⟩ := hpre
    rw [append_assoc, singleton_append] at hjs
    have hnone : s.pte t vb = 0 := by
      refine pte_of_not hvb fun U hU => ?_
      rw [← hjs, Phys.Leads, Radix.leads_behind hT] at hU
      obtain ⟨-, q, hq, -⟩ := hU
      rw [hold] at hq
      cases hq
    rw [hnone]
    by_cases hU : ∃ U, s'.Leads t (path vb) 1 U
    · obtain ⟨U, hU⟩ := hU
      rw [pte_of_leads hvb hU]
      rw [← hjs, Phys.Leads, Radix.leads_behind hT'] at hU
      obtain ⟨-, q, hq, hrest⟩ := hU
      cases hnew.symm.trans hq
      cases hrest with
      | here => exact hr _
      | step _ hnext _ =>
        rw [hr, next_zero] at hnext
        cases hnext
    · exact pte_of_not hvb fun U hl => hU ⟨U, hl⟩
  · have hlast : ∀ U, s'.Leads t (path vb) 1 U ↔ s.Leads t (path vb) 1 U := fun U =>
      Radix.leads_store h.pages_nodup hT hst hpre
    by_cases hU : ∃ U, s.Leads t (path vb) 1 U
    · obtain ⟨U, hU⟩ := hU
      rw [pte_of_leads hvb ((hlast U).mpr hU), pte_of_leads hvb hU]
      refine hst (1, U) hU.mem_nodes Nat.one_pos _ (.inl ?_)
      rintro rfl
      have hlevel := hT.level_unique h.pages_nodup hU
      omega
    · rw [pte_of_not hvb fun U hl => hU ⟨U, hl⟩,
        pte_of_not hvb fun U hl => hU ⟨U, (hlast U).mp hl⟩]

end

/-! ## Growth -/

/-- Pages from the head of the free list were added to the tree; nothing was taken out of it, and
nothing was stored but in those pages and in its tables, and there not in the kernel's half. -/
structure Grows (t : ℕ) (s s' : Phys) : Prop where
  kend : s'.kend = s.kend
  kpdpt : s'.kpdpt = s.kpdpt
  grow : ∃ new, (s'.nodes t).Perm (new ++ s.nodes t) ∧ s.freelist = new.map Prod.snd ++ s'.freelist
  leads : ∀ is k p, s.Leads t is k p → s'.Leads t is k p
  same : ∀ p, p % PGSIZE = 0 → p ∉ s.freelist → (∀ k, (k + 1, p) ∉ s.nodes t) → Same s s' p
  half : ∀ i, NPDENTRIES / 2 ≤ i → s'.cell t i = s.cell t i

namespace Grows

variable {s'' : Phys}

theorem refl (t : ℕ) (s : Phys) : Grows t s s where
  kend := rfl
  kpdpt := rfl
  grow := ⟨[], .refl _, rfl⟩
  leads _ _ _ h := h
  same p _ _ _ := Same.refl p
  half _ _ := rfl

theorem perm (g : Grows t s s') :
    (s'.freelist ++ s'.pages t).Perm (s.freelist ++ s.pages t) := by
  obtain ⟨new, hnodes, hfree⟩ := g.grow
  have hpages : (s'.pages t).Perm (new.map Prod.snd ++ s.pages t) := by
    refine (hnodes.map Prod.snd).trans ?_
    rw [map_append]
    exact .refl _
  rw [hfree, append_assoc]
  exact (hpages.append_left _).trans (perm_append_comm_assoc _ _ _)

theorem tree (g : Grows t s s') (h : s.Tree t) : s'.Tree t := h.moved g.kend g.perm

theorem suffix (g : Grows t s s') : s'.freelist <:+ s.freelist := by
  obtain ⟨new, -, hfree⟩ := g.grow
  exact ⟨_, hfree.symm⟩

theorem trans (g : Grows t s s') (g' : Grows t s' s'') : Grows t s s'' where
  kend := g'.kend.trans g.kend
  kpdpt := g'.kpdpt.trans g.kpdpt
  grow := by
    obtain ⟨new, hnodes, hfree⟩ := g.grow
    obtain ⟨new', hnodes', hfree'⟩ := g'.grow
    refine ⟨new ++ new', ?_, ?_⟩
    · refine hnodes'.trans ((hnodes.append_left _).trans ?_)
      rw [append_assoc]
      exact perm_append_comm_assoc _ _ _
    · rw [hfree, hfree', map_append, append_assoc]
  leads is k p h := g'.leads is k p (g.leads is k p h)
  same p hp hfree htable := by
    refine (g.same p hp hfree htable).trans (g'.same p hp ?_ ?_)
    · exact fun hmem => hfree (g.suffix.subset hmem)
    · intro k hmem
      obtain ⟨new, hnodes, hnew⟩ := g.grow
      rcases mem_append.mp (hnodes.mem_iff.mp hmem) with hin | hin
      · refine hfree ?_
        rw [hnew]
        exact mem_append_left _ (mem_map_of_mem hin)
      · exact htable k hin
  half i hi := (g'.half i hi).trans (g.half i hi)

end Grows

end Phys

end Xv6.Vm
