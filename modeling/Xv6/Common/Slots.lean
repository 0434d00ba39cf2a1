import Mathlib.Data.List.Basic
import Mathlib.Order.Nat

/-!
# A finite map in a table of slots

A slot of the table is empty or holds a key with its value. A key is found by looking at one slot
after the other; it is entered in the first slot that is empty, or in a new one at the end; and it
is taken out by emptying its slot. As long as no two slots hold the same key (`Distinct`), this is a
finite map: `lookup_insert` and `lookup_erase` say what the operations do to `lookup`, and both keep
the keys distinct.
-/

namespace Xv6.Slots

open List Option

variable {κ ν : Type} {t : List (Option (κ × ν))} {x : Option (κ × ν)} {k : κ} {v : ν} {i j : Nat}

/-- No two slots hold the same key. -/
def Distinct (t : List (Option (κ × ν))) : Prop :=
  ∀ (i j : Nat) (e e' : κ × ν), t[i]? = some (some e) → t[j]? = some (some e') → e.1 = e'.1 → i = j

theorem distinct_of_pairwise (h : t.Pairwise fun x y => ∀ e ∈ x, ∀ e' ∈ y, e.1 ≠ e'.1) :
    Distinct t := by
  intro i j e e' hi hj hkey
  obtain ⟨hi', hei⟩ := List.getElem?_eq_some_iff.mp hi
  obtain ⟨hj', hej⟩ := List.getElem?_eq_some_iff.mp hj
  rw [pairwise_iff_getElem] at h
  rcases Nat.lt_trichotomy i j with hlt | heq | hgt
  · exact absurd hkey (h i j hi' hj' hlt e hei e' hej)
  · exact heq
  · exact absurd hkey.symm (h j i hj' hi' hgt e' hej e hei)

/-- The table with `x` in slot `j`, which may be the one behind the last. -/
def put (t : List (Option (κ × ν))) (j : Nat) (x : Option (κ × ν)) : List (Option (κ × ν)) :=
  if j < t.length then t.set j x else t ++ [x]

/-- The first empty slot, or the one behind the last. -/
def vacant (t : List (Option (κ × ν))) : Nat := (t.findIdx? isNone).getD t.length

theorem getElem?_put (hj : j ≤ t.length) :
    (put t j x)[i]? = if i = j then some x else t[i]? := by
  unfold put
  split
  · next hlt =>
    rw [List.getElem?_set]
    by_cases hij : i = j
    · subst hij
      simp [hlt]
    · rw [if_neg (Ne.symm hij), if_neg hij]
  · next hge =>
    obtain rfl : j = t.length := by omega
    rw [List.getElem?_append]
    by_cases hij : i = t.length
    · subst hij
      simp
    · rw [if_neg hij]
      split
      · rfl
      · rw [List.getElem?_eq_none (by simp; omega), List.getElem?_eq_none (by omega)]

theorem vacant_le (t : List (Option (κ × ν))) : vacant t ≤ t.length := by
  unfold vacant
  cases h : t.findIdx? isNone with
  | none => exact le_rfl
  | some j =>
    obtain ⟨hlt, -⟩ := List.findIdx?_eq_some_iff_getElem.mp h
    exact hlt.le

/-- The table grows only when no slot is empty. -/
theorem vacant_eq_length : vacant t = t.length ↔ none ∉ t := by
  unfold vacant
  cases h : t.findIdx? isNone with
  | none =>
    refine ⟨fun _ hmem => ?_, fun _ => rfl⟩
    exact absurd (List.findIdx?_eq_none_iff.mp h none hmem) Bool.noConfusion
  | some j =>
    obtain ⟨hlt, hnone, -⟩ := List.findIdx?_eq_some_iff_getElem.mp h
    refine ⟨fun heq => absurd heq hlt.ne, fun hmem => absurd ?_ hmem⟩
    rw [← isNone_iff_eq_none.mp hnone]
    exact getElem_mem hlt

theorem vacant_empty (e : κ × ν) : t[vacant t]? ≠ some (some e) := by
  unfold vacant
  cases h : t.findIdx? isNone with
  | none =>
    rw [getD_none, List.getElem?_eq_none le_rfl]
    simp
  | some j =>
    obtain ⟨hlt, hnone, -⟩ := List.findIdx?_eq_some_iff_getElem.mp h
    rw [getD_some, List.getElem?_eq_getElem hlt, isNone_iff_eq_none.mp hnone]
    simp

/-- A table whose slots are given by their numbers. -/
theorem findIdx?_map_range (f : Nat → Option (κ × ν)) (p : Option (κ × ν) → Bool) (m : Nat) :
    ((List.range m).map f).findIdx? p = (List.range m).find? fun j => p (f j) := by
  refine ext fun j => ?_
  rw [List.findIdx?_eq_some_iff_getElem, List.find?_range_eq_some]
  simp

section

variable [DecidableEq κ]

/-- Whether the slot holds the key. -/
def holds (k : κ) (x : Option (κ × ν)) : Bool := x.map Prod.fst = some k

/-- The first slot that holds the key. -/
def place (t : List (Option (κ × ν))) (k : κ) : Option Nat := t.findIdx? (holds k)

/-- The value of the key. -/
def lookup (t : List (Option (κ × ν))) (k : κ) : Option ν :=
  (place t k).bind fun j => (t.getD j none).map Prod.snd

/-- Enter a key that is not there. -/
def insert (t : List (Option (κ × ν))) (k : κ) (v : ν) : List (Option (κ × ν)) :=
  put t (vacant t) (some (k, v))

/-- Take a key out. -/
def erase (t : List (Option (κ × ν))) (k : κ) : List (Option (κ × ν)) :=
  match place t k with
  | some j => put t j none
  | none => t

theorem holds_iff : holds k x = true ↔ ∃ v, x = some (k, v) := by
  cases x with
  | none => simp [holds]
  | some e =>
    obtain ⟨k', v⟩ := e
    simp [holds, eq_comm]

theorem place_eq_none : place t k = none ↔ ∀ (j : Nat) (v : ν), t[j]? ≠ some (some (k, v)) := by
  unfold place
  rw [List.findIdx?_eq_none_iff]
  constructor
  · intro h j v hj
    have hfalse := h _ (mem_of_getElem? hj)
    rw [holds_iff.mpr ⟨v, rfl⟩] at hfalse
    cases hfalse
  · intro h x hx
    obtain ⟨j, hj⟩ := mem_iff_getElem?.mp hx
    rw [Bool.eq_false_iff]
    intro hholds
    obtain ⟨v, rfl⟩ := holds_iff.mp hholds
    exact h j v hj

theorem place_spec (h : place t k = some j) : ∃ v, t[j]? = some (some (k, v)) := by
  obtain ⟨hlt, hholds, -⟩ := List.findIdx?_eq_some_iff_getElem.mp h
  obtain ⟨v, hv⟩ := holds_iff.mp hholds
  exact ⟨v, by rw [List.getElem?_eq_getElem hlt, hv]⟩

theorem lt_of_place (h : place t k = some j) : j < t.length :=
  (List.findIdx?_eq_some_iff_getElem.mp h).1

theorem lookup_eq_none : lookup t k = none ↔ place t k = none := by
  unfold lookup
  cases h : place t k with
  | none => simp
  | some j =>
    obtain ⟨v, hv⟩ := place_spec h
    simp [getD_eq_getElem?_getD, hv]

theorem lookup_of_place (h : place t k = some j) (hj : t[j]? = some (some (k, v))) :
    lookup t k = some v := by
  simp [lookup, h, getD_eq_getElem?_getD, hj]

namespace Distinct

theorem lookup_eq_some (h : Distinct t) :
    lookup t k = some v ↔ ∃ j : Nat, t[j]? = some (some (k, v)) := by
  cases hplace : place t k with
  | none =>
    rw [lookup_eq_none.mpr hplace]
    refine ⟨fun hnone => (by cases hnone), fun ⟨j, hj⟩ => absurd hj (place_eq_none.mp hplace j v)⟩
  | some j =>
    obtain ⟨w, hw⟩ := place_spec hplace
    rw [lookup_of_place hplace hw]
    constructor
    · rintro ⟨⟩
      exact ⟨j, hw⟩
    · rintro ⟨i, hi⟩
      obtain rfl := h i j _ _ hi hw rfl
      rw [hi] at hw
      cases hw
      rfl

theorem put (h : Distinct t) (hj : j ≤ t.length) (hnew : ∀ e, x = some e → lookup t e.1 = none) :
    Distinct (put t j x) := by
  have habsent : ∀ (i : Nat) (e e' : κ × ν), t[i]? = some (some e) → x = some e' → e.1 ≠ e'.1 := by
    intro i e e' hi hx heq
    have hnone := lookup_eq_none.mp (hnew e' hx)
    refine place_eq_none.mp hnone i e.2 ?_
    rw [hi, ← heq]
  intro a b e e' ha hb hkey
  rw [getElem?_put hj] at ha hb
  by_cases haj : a = j <;> by_cases hbj : b = j
  · exact haj.trans hbj.symm
  · rw [if_pos haj] at ha
    rw [if_neg hbj] at hb
    exact absurd hkey.symm (habsent b e' e hb (some.inj ha))
  · rw [if_neg haj] at ha
    rw [if_pos hbj] at hb
    exact absurd hkey (habsent a e e' ha (some.inj hb))
  · rw [if_neg haj] at ha
    rw [if_neg hbj] at hb
    exact h a b e e' ha hb hkey

theorem insert (h : Distinct t) (hk : lookup t k = none) : Distinct (insert t k v) := by
  refine h.put (vacant_le t) ?_
  rintro e ⟨⟩
  exact hk

theorem erase (h : Distinct t) (k : κ) : Distinct (erase t k) := by
  unfold Slots.erase
  split
  · next j hplace => exact h.put (lt_of_place hplace).le fun e he => by cases he
  · exact h

theorem lookup_insert (h : Distinct t) (hk : lookup t k = none) :
    lookup (Slots.insert t k v) = Function.update (lookup t) k (some v) := by
  funext k'
  refine ext fun v' => ?_
  rw [(h.insert hk).lookup_eq_some]
  simp only [Slots.insert, getElem?_put (vacant_le t)]
  by_cases hkk : k' = k
  · subst hkk
    rw [Function.update_self]
    constructor
    · rintro ⟨j, hj⟩
      split at hj
      · cases hj
        rfl
      · exact absurd hj (place_eq_none.mp (lookup_eq_none.mp hk) j v')
    · rintro ⟨⟩
      exact ⟨vacant t, if_pos rfl⟩
  · rw [Function.update_of_ne hkk, h.lookup_eq_some]
    refine exists_congr fun j => ?_
    by_cases hj : j = vacant t
    · subst hj
      rw [if_pos rfl]
      refine iff_of_false (fun heq => hkk ?_) (vacant_empty _)
      cases heq
      rfl
    · rw [if_neg hj]

theorem lookup_erase (h : Distinct t) (k : κ) :
    lookup (Slots.erase t k) = Function.update (lookup t) k none := by
  cases hplace : place t k with
  | none =>
    rw [Slots.erase, hplace, ← lookup_eq_none.mpr hplace, Function.update_eq_self]
  | some j =>
    obtain ⟨v, hv⟩ := place_spec hplace
    funext k'
    refine ext fun v' => ?_
    rw [(h.erase k).lookup_eq_some]
    simp only [Slots.erase, hplace, getElem?_put (lt_of_place hplace).le]
    by_cases hkk : k' = k
    · subst hkk
      rw [Function.update_self]
      refine iff_of_false ?_ fun hnone => by cases hnone
      rintro ⟨i, hi⟩
      split at hi
      · cases hi
      · next hne => exact hne (h i j _ _ hi hv rfl)
    · rw [Function.update_of_ne hkk, h.lookup_eq_some]
      refine exists_congr fun i => ?_
      by_cases hi : i = j
      · subst hi
        rw [if_pos rfl, hv]
        refine iff_of_false (fun heq => by cases heq) fun heq => hkk ?_
        cases heq
        rfl
      · rw [if_neg hi]

end Distinct

end

end Xv6.Slots
