import Mathlib.Data.List.Nodup
import Mathlib.Logic.Function.Basic

/-!
# Circular lists through two links

Every node has a link to the next and to the previous one; `none` is the head, which is not an
element. `Linked k l` says that the links of `k` run through the elements of `l` in order, forwards
and backwards. The operations are assignments to single links; each is described by what it does to
the list.
-/

namespace Xv6.Circular

open List
open Function (update update_of_ne update_self)

variable {α : Type}

structure Links (α : Type) where
  next : Option α → Option α
  prev : Option α → Option α

open Links

/-- From node `a` through the elements of `l` to node `b`. -/
def Path (k : Links α) : Option α → List α → Option α → Prop
  | a, [], b => k.next a = b ∧ k.prev b = a
  | a, x :: l, b => k.next a = some x ∧ k.prev (some x) = a ∧ Path k (some x) l b

structure Linked (k : Links α) (l : List α) : Prop where
  path : Path k none l none
  nodup : l.Nodup

/-- The elements met on the way from a node to the head, at most `fuel` of them. -/
def walk (link : Option α → Option α) : Nat → Option α → List α
  | 0, _ => []
  | _ + 1, none => []
  | fuel + 1, some x => x :: walk link fuel (link (some x))

variable {k k' : Links α} {a b v : Option α} {x : α} {l l' : List α}

/-! ## Paths -/

theorem path_append : Path k a (l ++ x :: l') b ↔ Path k a l (some x) ∧ Path k (some x) l' b := by
  induction l generalizing a with
  | nil => simp [Path, and_assoc]
  | cons y l ih => simp [Path, ih, and_assoc]

theorem Path.congr (h : Path k a l b) (hnext : ∀ c, c = a ∨ (∃ x ∈ l, c = some x) →
      k'.next c = k.next c) (hprev : ∀ c, c = b ∨ (∃ x ∈ l, c = some x) → k'.prev c = k.prev c) :
    Path k' a l b := by
  induction l generalizing a with
  | nil => exact ⟨(hnext a (.inl rfl)).trans h.1, (hprev b (.inl rfl)).trans h.2⟩
  | cons y l ih =>
    have hy : ∃ x ∈ y :: l, some y = some x := ⟨y, mem_cons_self .., rfl⟩
    refine ⟨(hnext a (.inl rfl)).trans h.1, (hprev _ (.inr hy)).trans h.2.1, ih h.2.2 ?_ ?_⟩
    · rintro c (rfl | ⟨x, hx, rfl⟩)
      · exact hnext _ (.inr hy)
      · exact hnext _ (.inr ⟨x, mem_cons_of_mem y hx, rfl⟩)
    · rintro c (rfl | ⟨x, hx, rfl⟩)
      · exact hprev c (.inl rfl)
      · exact hprev _ (.inr ⟨x, mem_cons_of_mem y hx, rfl⟩)

/-- The node before the end of a path is its start or one of its elements. -/
theorem Path.prev_mem (h : Path k a l b) : k.prev b = a ∨ ∃ x ∈ l, k.prev b = some x := by
  induction l generalizing a with
  | nil => exact .inl h.2
  | cons y l ih =>
    rcases ih h.2.2 with hy | ⟨x, hx, hprev⟩
    · exact .inr ⟨y, mem_cons_self .., hy⟩
    · exact .inr ⟨x, mem_cons_of_mem y hx, hprev⟩

theorem walk_next {fuel : Nat} (h : Path k a l none) (hfuel : l.length ≤ fuel) :
    walk k.next fuel (k.next a) = l := by
  induction l generalizing a fuel with
  | nil =>
    rw [h.1]
    cases fuel <;> rfl
  | cons y l ih =>
    cases fuel with
    | zero => cases hfuel
    | succ fuel =>
      rw [h.1, walk, ih h.2.2 (Nat.le_of_succ_le_succ hfuel)]

/-! ## Assignments -/

section Assign

variable [DecidableEq α]

def Links.setNext (k : Links α) (a b : Option α) : Links α :=
  { k with next := update k.next a b }

def Links.setPrev (k : Links α) (a b : Option α) : Links α :=
  { k with prev := update k.prev a b }

/-- Take an element out. -/
def Links.unlink (k : Links α) (x : α) : Links α :=
  let k := k.setPrev (k.next (some x)) (k.prev (some x))
  k.setNext (k.prev (some x)) (k.next (some x))

/-- Put an element in behind the head. -/
def Links.push (k : Links α) (x : α) : Links α :=
  let k := k.setNext (some x) (k.next none)
  let k := k.setPrev (some x) none
  let k := k.setPrev (k.next none) (some x)
  k.setNext none (some x)

theorem Path.relink (h : Path k a l b) (ha : ∀ y ∈ l, a ≠ some y) (hl : l.Nodup)
    (hv : ∀ y ∈ l, v ≠ some y) : Path ((k.setPrev v (k.prev b)).setNext (k.prev b) v) a l v := by
  induction l generalizing a with
  | nil =>
    obtain ⟨-, rfl⟩ := h
    exact ⟨update_self .., update_self ..⟩
  | cons y l ih =>
    obtain ⟨hnext, hprev, hpath⟩ := h
    have hay := ha y (mem_cons_self ..)
    have hvy := hv y (mem_cons_self ..)
    have hnodup := nodup_cons.mp hl
    have hlast : k.prev b ≠ a := by
      rcases hpath.prev_mem with heq | ⟨z, hz, heq⟩
      · rw [heq]
        exact Ne.symm hay
      · rw [heq]
        exact Ne.symm (ha z (mem_cons_of_mem y hz))
    refine ⟨?_, ?_, ih hpath ?_ hnodup.2 fun z hz => hv z (mem_cons_of_mem y hz)⟩
    · exact (update_of_ne (Ne.symm hlast) ..).trans hnext
    · exact (update_of_ne (Ne.symm hvy) ..).trans hprev
    · intro z hz heq
      exact hnodup.1 (Option.some_inj.mp heq ▸ hz)

theorem unlink_eq : k.unlink x =
    (k.setPrev (k.next (some x)) (k.prev (some x))).setNext (k.prev (some x))
      (k.next (some x)) := by
  by_cases hself : some x = k.next (some x)
  · simp [unlink, setNext, setPrev, ← hself]
  · simp [unlink, setNext, setPrev, update_of_ne hself]

theorem Linked.unlink (h : Linked k (l ++ x :: l')) : Linked (k.unlink x) (l ++ l') := by
  obtain ⟨hl, hl'⟩ := path_append.mp h.path
  have hnodup := nodup_append.mp h.nodup
  have hx := nodup_cons.mp hnodup.2.1
  have hdisj : ∀ y ∈ l, ∀ z ∈ l', y ≠ z := fun y hy z hz =>
    hnodup.2.2 y hy z (mem_cons_of_mem x hz)
  refine ⟨?_, nodup_append.mpr ⟨hnodup.1, hx.2, hdisj⟩⟩
  rw [unlink_eq]
  cases l' with
  | nil =>
    rw [hl'.1, append_nil]
    exact hl.relink (by simp) hnodup.1 (by simp)
  | cons y l' =>
    obtain ⟨hnext, -, hpath⟩ := hl'
    rw [hnext]
    refine path_append.mpr ⟨hl.relink (by simp) hnodup.1 fun z hz heq => ?_, hpath.congr ?_ ?_⟩
    · exact hdisj z hz y (mem_cons_self ..) (Option.some_inj.mp heq).symm
    · -- the one before `x` is not behind it
      intro c hc
      refine update_of_ne ?_ ..
      rintro rfl
      have hc' : ∃ z ∈ y :: l', k.prev (some x) = some z := by
        rcases hc with heq | ⟨z, hz, heq⟩
        · exact ⟨y, mem_cons_self .., heq⟩
        · exact ⟨z, mem_cons_of_mem y hz, heq⟩
      obtain ⟨z, hz, heq⟩ := hc'
      rcases hl.prev_mem with hnone | ⟨w, hw, hsome⟩
      · rw [hnone] at heq
        cases heq
      · rw [hsome] at heq
        exact hdisj w hw z hz (Option.some_inj.mp heq)
    · intro c hc
      refine update_of_ne ?_ ..
      rintro rfl
      rcases hc with hnone | ⟨z, hz, heq⟩
      · cases hnone
      · exact (nodup_cons.mp hx.2).1 (Option.some_inj.mp heq ▸ hz)

theorem Linked.push (h : Linked k l) (hx : x ∉ l) : Linked (k.push x) (x :: l) := by
  refine ⟨?_, nodup_cons.mpr ⟨hx, h.nodup⟩⟩
  have hpath := h.path
  cases l with
  | nil =>
    obtain ⟨hnext, -⟩ := hpath
    simp [Path, push, setNext, setPrev, hnext]
  | cons y l =>
    obtain ⟨hnext, -, hrest⟩ := hpath
    have hxy : x ≠ y := fun heq => hx (heq ▸ mem_cons_self ..)
    have hxl : ∀ z ∈ l, x ≠ z := fun z hz heq => hx (heq ▸ mem_cons_of_mem y hz)
    have hyl := (nodup_cons.mp h.nodup).1
    refine ⟨?_, ?_, ?_, ?_, hrest.congr ?_ ?_⟩
    · simp [push, setNext, setPrev]
    · simp [push, setNext, setPrev, hnext, hxy]
    · simp [push, setNext, setPrev, hnext]
    · simp [push, setNext, setPrev, hnext]
    · rintro c (rfl | ⟨z, hz, rfl⟩)
      · simp [push, setNext, setPrev, Ne.symm hxy]
      · simp [push, setNext, setPrev,
          Ne.symm (hxl z hz)]
    · rintro c (rfl | ⟨z, hz, rfl⟩)
      · simp [push, setNext, setPrev, hnext]
      · have hzy : z ≠ y := fun heq => hyl (heq ▸ hz)
        simp [push, setNext, setPrev, hnext,
          Ne.symm (hxl z hz), hzy]

/-- The links of the head alone. -/
def Links.empty (α : Type) : Links α := ⟨fun _ => none, fun _ => none⟩

omit [DecidableEq α] in
theorem linked_empty : Linked (empty α) [] := ⟨⟨rfl, rfl⟩, nodup_nil⟩

end Assign

end Xv6.Circular
