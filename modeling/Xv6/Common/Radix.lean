import Mathlib.Data.Finset.Card
import Mathlib.Data.List.Flatten
import Mathlib.Data.List.Nodup
import Mathlib.Data.List.Perm.Basic
import Mathlib.Data.List.Range

/-!
# Tables of tables

A memory of cells, `c p i` being entry `i` of page `p`. An entry points to a page or to nothing. A
page of level 0 is a leaf; a page of level `ℓ + 1` is a table, and what its first `width ℓ` entries
point to are pages of level `ℓ`. A page of some level is the root of a tree, and `nodes` lists the
pages of the tree with their levels, each table after what is below it.

Nothing in the memory keeps such a tree from sharing pages or from running into itself. When no page
is in it twice, it is a finite map from paths to pages: no two paths lead to one page (`Leads.inj`),
a store to an entry changes what lies behind that entry and nothing else (`nodes_store`,
`leads_store`), and stores outside the tables of the tree do not change it at all (`nodes_congr`,
`Leads.congr`).
-/

namespace Xv6

open List

/-- What an entry points to, and how many entries a table has whose entries point to level `ℓ`. -/
structure Radix (π ε : Type) where
  next : ε → Option π
  width : ℕ → ℕ

namespace Radix

variable {π ε : Type} (S : Radix π ε) {c c' : π → ℕ → ε} {t T p q : π} {i j k k' ℓ : ℕ}
  {is js : List ℕ}

/-- The pages of a tree with their levels. -/
def nodes (c : π → ℕ → ε) : ℕ → π → List (ℕ × π)
  | 0, p => [(0, p)]
  | ℓ + 1, t =>
    ((List.range (S.width ℓ)).flatMap fun i => (S.next (c t i)).elim [] (nodes c ℓ)) ++ [(ℓ + 1, t)]

/-- What lies behind an entry. -/
def below (c : π → ℕ → ε) (ℓ : ℕ) (e : ε) : List (ℕ × π) := (S.next e).elim [] (S.nodes c ℓ)

def pages (c : π → ℕ → ε) (ℓ : ℕ) (t : π) : List π := (S.nodes c ℓ t).map Prod.snd

/-- From the page `t` of level `ℓ` the path leads to the page `p` of level `k`. -/
inductive Leads (c : π → ℕ → ε) : ℕ → π → List ℕ → ℕ → π → Prop where
  | here {ℓ : ℕ} {t : π} : Leads c ℓ t [] ℓ t
  | step {ℓ i k : ℕ} {t q p : π} {is : List ℕ} : i < S.width ℓ → S.next (c t i) = some q →
      Leads c ℓ q is k p → Leads c (ℓ + 1) t (i :: is) k p

variable {S}

theorem nodes_zero : S.nodes c 0 p = [(0, p)] := rfl

theorem nodes_succ : S.nodes c (ℓ + 1) t =
    ((List.range (S.width ℓ)).flatMap fun i => S.below c ℓ (c t i)) ++ [(ℓ + 1, t)] := rfl

theorem root_mem_nodes : (ℓ, t) ∈ S.nodes c ℓ t := by
  cases ℓ with
  | zero => exact mem_cons_self
  | succ ℓ => exact mem_append_right _ mem_cons_self

theorem below_of_next {e : ε} (h : S.next e = some p) : S.below c ℓ e = S.nodes c ℓ p := by
  rw [below, h]
  rfl

theorem below_of_none {e : ε} (h : S.next e = none) : S.below c ℓ e = [] := by
  rw [below, h]
  rfl

/-- What lies behind an entry of a table belongs to the tree of the table. -/
theorem below_subset (hi : i < S.width ℓ) {x : ℕ × π} (hx : x ∈ S.below c ℓ (c t i)) :
    x ∈ S.nodes c (ℓ + 1) t :=
  mem_append_left _ (mem_flatMap.mpr ⟨i, mem_range.mpr hi, hx⟩)

/-- The tree behind a path is part of the tree. -/
theorem Leads.nodes_subset (h : S.Leads c ℓ t is k p) {x : ℕ × π} (hx : x ∈ S.nodes c k p) :
    x ∈ S.nodes c ℓ t := by
  induction h with
  | here => exact hx
  | step hi hq _ ih => exact below_subset hi (below_of_next hq ▸ ih hx)

theorem Leads.mem_nodes (h : S.Leads c ℓ t is k p) : (k, p) ∈ S.nodes c ℓ t :=
  h.nodes_subset root_mem_nodes

theorem Leads.trans {p' : π} (h : S.Leads c ℓ t is k p) (h' : S.Leads c k p js k' p') :
    S.Leads c ℓ t (is ++ js) k' p' := by
  induction h with
  | here => exact h'
  | step hi hq _ ih => exact .step hi hq (ih h')

theorem leads_nil : S.Leads c ℓ t [] k p ↔ k = ℓ ∧ p = t := by
  constructor
  · intro h
    cases h
    exact ⟨rfl, rfl⟩
  · rintro ⟨rfl, rfl⟩
    exact .here

theorem leads_cons : S.Leads c (ℓ + 1) t (i :: is) k p ↔
    i < S.width ℓ ∧ ∃ q, S.next (c t i) = some q ∧ S.Leads c ℓ q is k p := by
  constructor
  · intro h
    cases h with
    | step hi hq hrest => exact ⟨hi, _, hq, hrest⟩
  · rintro ⟨hi, q, hq, hrest⟩
    exact .step hi hq hrest

/-- A path is walked one part after the other. -/
theorem leads_append : S.Leads c ℓ t (is ++ js) k' q ↔
    ∃ k p, S.Leads c ℓ t is k p ∧ S.Leads c k p js k' q := by
  constructor
  · induction is generalizing ℓ t with
    | nil => exact fun h => ⟨ℓ, t, .here, h⟩
    | cons i is ih =>
      intro h
      cases h with
      | step hi hq hrest =>
        obtain ⟨k, p, hfirst, hlast⟩ := ih hrest
        exact ⟨k, p, .step hi hq hfirst, hlast⟩
  · rintro ⟨k, p, hfirst, hlast⟩
    exact hfirst.trans hlast

/-- A path leads to one page at most. -/
theorem Leads.unique {p' : π} (h : S.Leads c ℓ t is k p) (h' : S.Leads c ℓ t is k' p') :
    k = k' ∧ p = p' := by
  induction h with
  | here =>
    cases h'
    exact ⟨rfl, rfl⟩
  | step _ hq _ ih =>
    cases h' with
    | step _ hq' hrest =>
      cases hq.symm.trans hq'
      exact ih hrest

/-- What lies behind an entry of the table at the end of a path. -/
theorem leads_behind {m : ℕ} (hT : S.Leads c ℓ t is (k + 1) T) :
    S.Leads c ℓ t (is ++ i :: js) m q ↔
      i < S.width k ∧ ∃ p, S.next (c T i) = some p ∧ S.Leads c k p js m q := by
  rw [leads_append, ← leads_cons]
  constructor
  · rintro ⟨k', p, hfirst, hlast⟩
    obtain ⟨rfl, rfl⟩ := hT.unique hfirst
    exact hlast
  · intro hlast
    exact ⟨_, _, hT, hlast⟩

/-- Every page of a tree lies at the end of a path. -/
theorem exists_leads {x : ℕ × π} (h : x ∈ S.nodes c ℓ t) : ∃ is, S.Leads c ℓ t is x.1 x.2 := by
  induction ℓ generalizing t with
  | zero =>
    rw [nodes, mem_singleton] at h
    subst h
    exact ⟨[], .here⟩
  | succ ℓ ih =>
    rcases mem_append.mp h with hbelow | hroot
    · obtain ⟨i, hi, hx⟩ := mem_flatMap.mp hbelow
      cases hq : S.next (c t i) with
      | none =>
        rw [hq] at hx
        cases hx
      | some q =>
        rw [hq] at hx
        obtain ⟨is, his⟩ := ih hx
        exact ⟨i :: is, .step (mem_range.mp hi) hq his⟩
    · rw [mem_singleton] at hroot
      subst hroot
      exact ⟨[], .here⟩

/-- A table of entries that point to nothing. -/
theorem nodes_blank (h : ∀ i < S.width ℓ, S.next (c t i) = none) :
    S.nodes c (ℓ + 1) t = [(ℓ + 1, t)] := by
  have hnone : ((List.range (S.width ℓ)).flatMap fun i => S.below c ℓ (c t i)) = [] :=
    flatMap_eq_nil_iff.mpr fun i hi => below_of_none (h i (mem_range.mp hi))
  rw [nodes_succ, hnone, nil_append]

/-! ## Stores elsewhere -/

section

variable (h : ∀ x ∈ S.nodes c ℓ t, 0 < x.1 → ∀ i, c' x.2 i = c x.2 i)

include h

/-- A tree depends on its tables only. -/
theorem nodes_congr :
    S.nodes c' ℓ t = S.nodes c ℓ t := by
  induction ℓ generalizing t with
  | zero => rfl
  | succ ℓ ih =>
    have hroot := h _ root_mem_nodes (Nat.succ_pos ℓ)
    rw [nodes_succ, nodes_succ]
    congr 1
    refine flatMap_congr fun i hi => ?_
    rw [mem_range] at hi
    rw [hroot i]
    cases hnext : S.next (c t i) with
    | none => rw [below_of_none hnext, below_of_none hnext]
    | some q =>
      rw [below_of_next hnext, below_of_next hnext]
      exact ih fun x hx => h x (below_subset hi (below_of_next hnext ▸ hx))

theorem Leads.congr (hl : S.Leads c ℓ t is k p) : S.Leads c' ℓ t is k p := by
  induction hl with
  | here => exact .here
  | step hi hq _ ih =>
    refine .step hi ?_ (ih fun x hx => h x (below_subset hi (below_of_next hq ▸ hx)))
    rw [h _ root_mem_nodes (Nat.succ_pos _)]
    exact hq

theorem leads_congr :
    S.Leads c' ℓ t is k p ↔ S.Leads c ℓ t is k p := by
  refine ⟨fun hl => hl.congr ?_, fun hl => hl.congr h⟩
  rw [nodes_congr h]
  exact fun x hx hpos i => (h x hx hpos i).symm

end

/-! ## Trees without repetition -/

/-- In a table, nothing lies behind two entries, and the table behind none of them. -/
theorem nodup_table (h : (S.pages c (ℓ + 1) t).Nodup) :
    (∀ i < S.width ℓ, ((S.below c ℓ (c t i)).map Prod.snd).Nodup) ∧
    (∀ i < S.width ℓ, ∀ x ∈ S.below c ℓ (c t i), x.2 ≠ t) ∧
    ∀ i < S.width ℓ, ∀ j < S.width ℓ, i ≠ j →
      ∀ x ∈ S.below c ℓ (c t i), ∀ y ∈ S.below c ℓ (c t j), x.2 ≠ y.2 := by
  rw [pages, nodes_succ, map_append, map_flatMap, nodup_append] at h
  obtain ⟨hflat, -, hroot⟩ := h
  rw [nodup_flatMap] at hflat
  obtain ⟨heach, hpair⟩ := hflat
  refine ⟨fun i hi => heach i (mem_range.mpr hi), ?_, ?_⟩
  · intro i hi x hx
    refine hroot x.2 (mem_flatMap.mpr ⟨i, mem_range.mpr hi, ?_⟩) t ?_
    · exact mem_map_of_mem hx
    · exact mem_cons_self
  · intro i hi j hj hij x hx y hy heq
    have hsymm : Std.Symm (Function.onFun List.Disjoint fun a =>
        (S.below c ℓ (c t a)).map Prod.snd) := ⟨fun _ _ hd _ ha hb => hd hb ha⟩
    have hdisj := hpair.forall (mem_range.mpr hi) (mem_range.mpr hj) hij
    exact hdisj (mem_map_of_mem hx) (heq ▸ mem_map_of_mem hy)

theorem nodup_child (h : (S.pages c (ℓ + 1) t).Nodup) (hi : i < S.width ℓ)
    (hq : S.next (c t i) = some q) : (S.pages c ℓ q).Nodup := by
  have hchild := (nodup_table h).1 i hi
  rwa [below_of_next hq] at hchild

/-- A path that goes on leads behind the entry it starts with. -/
theorem Leads.behind (h : S.Leads c (ℓ + 1) t (i :: is) k p) :
    i < S.width ℓ ∧ (k, p) ∈ S.below c ℓ (c t i) := by
  cases h with
  | step hi hq hrest => exact ⟨hi, below_of_next hq ▸ hrest.mem_nodes⟩

/-- No two paths lead to the same page. -/
theorem Leads.inj (hn : (S.pages c ℓ t).Nodup) (h : S.Leads c ℓ t is k p)
    (h' : S.Leads c ℓ t js k' p) : is = js := by
  induction h generalizing js with
  | here =>
    cases js with
    | nil => rfl
    | cons j js =>
      cases h' with
      | step hj hq hrest =>
        have hbehind := (Leads.step hj hq hrest).behind
        exact absurd rfl ((nodup_table hn).2.1 j hj _ hbehind.2)
  | @step ℓ i k t q p is hi hq hrest ih =>
    have hbehind := (Leads.step hi hq hrest).behind
    cases js with
    | nil =>
      cases h'
      exact absurd rfl ((nodup_table hn).2.1 i hi _ hbehind.2)
    | cons j js =>
      obtain ⟨hj, hbehind'⟩ := h'.behind
      obtain rfl : i = j := by
        by_contra hne
        exact (nodup_table hn).2.2 i hi j hj hne _ hbehind.2 _ hbehind' rfl
      cases h' with
      | step _ hq' hrest' =>
        cases hq.symm.trans hq'
        rw [ih (nodup_child hn hi hq) hrest']

/-- A page has one level. -/
theorem Leads.level_unique (hn : (S.pages c ℓ t).Nodup) (h : S.Leads c ℓ t is k p)
    (h' : S.Leads c ℓ t js k' p) : k = k' := by
  obtain rfl := h.inj hn h'
  exact (h.unique h').1

/-! ## Stores to an entry -/

/-- `c'` is `c` but for entry `i` of the page `T`, as far as the tables of a tree go. -/
def StoresAt (c c' : π → ℕ → ε) (T : π) (i : ℕ) (l : List (ℕ × π)) : Prop :=
  ∀ x ∈ l, 0 < x.1 → ∀ j, x.2 ≠ T ∨ j ≠ i → c' x.2 j = c x.2 j

theorem StoresAt.below (h : StoresAt c c' T i (S.nodes c (ℓ + 1) t)) (hj : j < S.width ℓ)
    (hq : S.next (c t j) = some q) : StoresAt c c' T i (S.nodes c ℓ q) :=
  fun x hx => h x (below_subset hj (below_of_next hq ▸ hx))

/-- Behind an entry that does not lead to `T`, nothing changes. -/
theorem below_store (h : StoresAt c c' T i (S.nodes c (ℓ + 1) t)) (hj : j < S.width ℓ)
    (hT : ∀ x ∈ S.below c ℓ (c t j), x.2 ≠ T) :
    S.below c' ℓ (c t j) = S.below c ℓ (c t j) := by
  cases hq : S.next (c t j) with
  | none => rw [below_of_none hq, below_of_none hq]
  | some q =>
    rw [below_of_next hq] at hT ⊢
    rw [below_of_next hq]
    exact nodes_congr fun x hx hpos a => (h.below hj hq) x hx hpos a (.inl (hT x hx))

/-- What lies behind one entry of a table, and the rest of its tree. -/
theorem nodes_split (hj : j < S.width ℓ) : (S.nodes c (ℓ + 1) t).Perm
    (S.below c ℓ (c t j) ++ ((((List.range (S.width ℓ)).erase j).flatMap fun a =>
      S.below c ℓ (c t a)) ++ [(ℓ + 1, t)])) := by
  rw [nodes_succ, ← append_assoc]
  refine List.Perm.append_right _ ?_
  exact (perm_cons_erase (mem_range.mpr hj)).flatMap_right _

/-- The entries of `t` other than `j` do not change, and nothing changes behind them. -/
theorem siblings_store (h : StoresAt c c' T i (S.nodes c (ℓ + 1) t))
    (hentry : ∀ a, a ≠ j → c' t a = c t a)
    (hT : ∀ a < S.width ℓ, a ≠ j → ∀ x ∈ S.below c ℓ (c t a), x.2 ≠ T) :
    (((List.range (S.width ℓ)).erase j).flatMap fun a => S.below c' ℓ (c' t a)) =
      (((List.range (S.width ℓ)).erase j).flatMap fun a => S.below c ℓ (c t a)) := by
  refine flatMap_congr fun a ha => ?_
  obtain ⟨hne, hmem⟩ := (List.Nodup.mem_erase_iff nodup_range).mp ha
  have haw := mem_range.mp hmem
  rw [hentry a hne]
  exact below_store h haw (hT a haw hne)

/-- A store to entry `i` of the table `T` replaces what lies behind that entry. -/
theorem nodes_store (hn : (S.pages c ℓ t).Nodup) (hT : S.Leads c ℓ t is (k + 1) T)
    (hi : i < S.width k) (h : StoresAt c c' T i (S.nodes c ℓ t)) : ∃ rest,
    (S.nodes c ℓ t).Perm (S.below c k (c T i) ++ rest) ∧
    (S.nodes c' ℓ t).Perm (S.below c' k (c' T i) ++ rest) := by
  generalize hk : k + 1 = m at hT
  induction hT with
  | here =>
    subst hk
    refine ⟨_, nodes_split hi, (nodes_split hi).trans (List.Perm.of_eq ?_)⟩
    rw [siblings_store h]
    · intro a ha
      exact h _ root_mem_nodes (Nat.succ_pos k) a (.inr ha)
    · intro a haw _
      exact (nodup_table hn).2.1 a haw
  | @step ℓ j m t q T is hj hq hrest ih =>
    obtain ⟨-, hroot, hdisj⟩ := nodup_table hn
    obtain ⟨-, hbehind⟩ := (Leads.step hj hq hrest).behind
    have hentry : ∀ a, c' t a = c t a := fun a =>
      h _ root_mem_nodes (Nat.succ_pos ℓ) a (.inl fun heq => hroot j hj _ hbehind heq.symm)
    obtain ⟨rest, hold, hnew⟩ := ih (nodup_child hn hj hq) (h.below hj hq) hk
    refine ⟨rest ++ ((((List.range (S.width ℓ)).erase j).flatMap fun a =>
      S.below c ℓ (c t a)) ++ [(ℓ + 1, t)]), ?_, ?_⟩
    · refine (nodes_split hj).trans ?_
      rw [below_of_next hq, ← append_assoc (S.below c k (c T i))]
      exact hold.append_right _
    · refine (nodes_split hj).trans ?_
      rw [siblings_store h (fun a _ => hentry a), hentry j, below_of_next hq,
        ← append_assoc (S.below c' k (c' T i))]
      · exact hnew.append_right _
      · intro a haw hne x hx
        exact hdisj a haw j hj hne x hx _ hbehind

/-- Behind an entry that does not lead to `T`, paths stay as they are. -/
theorem leads_store_below (h : StoresAt c c' T i (S.nodes c (ℓ + 1) t)) (hentry : c' t j = c t j)
    (hT : j < S.width ℓ → ∀ x ∈ S.below c ℓ (c t j), x.2 ≠ T) :
    S.Leads c' (ℓ + 1) t (j :: js) k p ↔ S.Leads c (ℓ + 1) t (j :: js) k p := by
  rw [leads_cons, leads_cons, hentry]
  refine and_congr_right fun hj => exists_congr fun q => and_congr_right fun hq => ?_
  refine leads_congr fun x hx hpos a => h.below hj hq x hx hpos a (.inl ?_)
  exact hT hj x (below_of_next hq ▸ hx)

/-- A store to entry `i` of the table `T` changes no path but those through that entry. -/
theorem leads_store {m : ℕ} (hn : (S.pages c ℓ t).Nodup) (hT : S.Leads c ℓ t is (k + 1) T)
    (h : StoresAt c c' T i (S.nodes c ℓ t)) (hno : ¬ is ++ [i] <+: js) :
    S.Leads c' ℓ t js m p ↔ S.Leads c ℓ t js m p := by
  generalize hk : k + 1 = n at hT
  cases js with
  | nil => rw [leads_nil, leads_nil]
  | cons a js =>
    induction hT generalizing a js with
    | here =>
      subst hk
      have ha : a ≠ i := by
        rintro rfl
        exact hno (prefix_iff_eq_append.mpr rfl)
      refine leads_store_below h (h _ root_mem_nodes (Nat.succ_pos k) a (.inr ha)) fun haw => ?_
      exact (nodup_table hn).2.1 a haw
    | @step ℓ j n t q T is hj hq hrest ih =>
      obtain ⟨-, hroot, hdisj⟩ := nodup_table hn
      obtain ⟨-, hbehind⟩ := (Leads.step hj hq hrest).behind
      have hentry : c' t a = c t a :=
        h _ root_mem_nodes (Nat.succ_pos ℓ) a (.inl fun heq => hroot j hj _ hbehind heq.symm)
      by_cases haj : a = j
      · subst haj
        have hno' : ¬ is ++ [i] <+: js := fun hpre => hno (cons_prefix_cons.mpr ⟨rfl, hpre⟩)
        rw [leads_cons, leads_cons, hentry]
        refine and_congr_right fun _ => exists_congr fun q' => and_congr_right fun hq' => ?_
        cases hq.symm.trans hq'
        cases js with
        | nil => rw [leads_nil, leads_nil]
        | cons b js => exact ih (nodup_child hn hj hq) (h.below hj hq) hk b js hno'
      · refine leads_store_below h hentry fun haw x hx => ?_
        exact hdisj a haw j hj haj x hx _ hbehind

/-- The table itself is found as before. -/
theorem Leads.store_table (hn : (S.pages c ℓ t).Nodup) (hT : S.Leads c ℓ t is (k + 1) T)
    (h : StoresAt c c' T i (S.nodes c ℓ t)) : S.Leads c' ℓ t is (k + 1) T := by
  refine (leads_store hn hT h ?_).mpr hT
  intro hpre
  have hlen := hpre.length_le
  rw [length_append, length_singleton] at hlen
  omega

/-! ## New tables

Whoever follows paths and makes the tables that are not there makes each of them once, also where
several paths go through it. -/

/-- There is a table at the end of the path. -/
def Has (S : Radix π ε) (c : π → ℕ → ε) (ℓ : ℕ) (t : π) (is : List ℕ) : Prop :=
  ∃ k p, S.Leads c ℓ t is (k + 1) p

section

variable {α : Type} [DecidableEq α] {P P' : α → Prop} {x : α} {l l' : List α}

open Classical in
/-- How many members of the list are not there. -/
noncomputable def missing (P : α → Prop) (l : List α) : ℕ := (l.toFinset.filter fun x => ¬ P x).card

theorem missing_append (h : ∀ x, P' x ↔ P x ∨ x ∈ l) :
    missing P (l ++ l') = missing P l + missing P' l' := by
  classical
  rw [missing, missing, missing, ← Finset.card_union_of_disjoint]
  · congr 1
    ext x
    simp only [Finset.mem_filter, Finset.mem_union, mem_toFinset, mem_append, h]
    tauto
  · refine Finset.disjoint_left.mpr fun x hx hx' => ?_
    rw [Finset.mem_filter, mem_toFinset] at hx hx'
    exact hx'.2 ((h x).mpr (.inr hx.1))

theorem missing_congr (h : ∀ x ∈ l, P' x ↔ P x) : missing P' l = missing P l := by
  classical
  refine congrArg Finset.card (Finset.filter_congr fun x hx => ?_)
  rw [h x (mem_toFinset.mp hx)]

theorem missing_of_none (h : ∀ x ∈ l, ¬ P x) : missing P l = l.toFinset.card := by
  classical
  exact congrArg Finset.card (Finset.filter_true_of_mem fun x hx => h x (mem_toFinset.mp hx))

theorem missing_mono (h : l ⊆ l') : missing P l ≤ missing P l' := by
  classical
  refine Finset.card_le_card (Finset.filter_subset_filter _ fun x hx => ?_)
  exact mem_toFinset.mpr (h (mem_toFinset.mp hx))

theorem missing_le_length : missing P l ≤ l.length := by
  classical
  exact (Finset.card_filter_le _ _).trans (toFinset_card_le l)

theorem missing_of (h : P x) : missing P [x] = 0 := by
  simpa [missing] using h

theorem missing_of_not (h : ¬ P x) : missing P [x] = 1 := by
  simp [missing, Finset.filter_singleton, h]

end

end Radix

end Xv6
