import Mathlib.Algebra.Group.Fin.Basic
import Mathlib.Algebra.GroupWithZero.Nat
import Mathlib.Data.Fin.Basic
import Mathlib.Data.List.FinRange
import Mathlib.Data.List.Sort

/-!
# A scan that starts where the last one stopped

Entries in a circle, and a scan that takes the first eligible entry from a starting point on. The
next scan starts behind the entry that was taken. An entry `p` that stays eligible is reached: the
way from the starting point to `p` gets shorter with every scan, and the entries taken before lie on
it in order, so none of them is taken twice. Which other entries are eligible does not matter.
-/

namespace Xv6.Rotation

open List

variable {N : ℕ} {r p b i : Fin N} {P : Fin N → Bool}

/-- The first eligible entry from `r` on. -/
def next (r : Fin N) (P : Fin N → Bool) : Option (Fin N) :=
  ((List.finRange N).map (r + ·)).find? P

/-- How far it is from `r` on to `i`. -/
def ahead (r i : Fin N) : ℕ := (i - r).val

theorem ahead_lt (r i : Fin N) : ahead r i < N := (i - r).isLt

section

variable [NeZero N]

theorem exists_next (hi : P i = true) : ∃ b, next r P = some b := by
  rw [← Option.isSome_iff_exists]
  unfold next
  rw [List.find?_isSome]
  refine ⟨i, mem_map.mpr ⟨i - r, mem_finRange _, ?_⟩, hi⟩
  exact add_sub_cancel r i

/-- No eligible entry is nearer than the one that is taken. -/
theorem ahead_next_le (h : next r P = some b) (hi : P i = true) : ahead r b ≤ ahead r i := by
  unfold next at h
  rw [List.find?_map, Option.map_eq_some_iff] at h
  obtain ⟨j, hj, rfl⟩ := h
  obtain ⟨-, before, after, hlist, hnot⟩ := List.find?_eq_some_iff_append.mp hj
  unfold ahead
  rw [add_sub_cancel_left]
  have hsorted := sortedLT_finRange N
  rw [hlist, sortedLT_iff_pairwise, pairwise_append] at hsorted
  have hmem : i - r ∈ before ++ j :: after := hlist ▸ mem_finRange (i - r)
  rcases mem_append.mp hmem with hbefore | hafter
  · have hno := hnot _ hbefore
    rw [Function.comp_apply, add_sub_cancel, hi] at hno
    cases hno
  · rcases mem_cons.mp hafter with heq | hlater
    · exact (congrArg Fin.val heq).ge
    · exact (rel_of_pairwise_cons hsorted.2.1 hlater).le

theorem ahead_add_one (h : b ≠ p) : ahead (b + 1) p + 1 = ahead b p := by
  have hne : p - b ≠ 0 := sub_ne_zero.mpr (Ne.symm h)
  have hpos : (p - b).val ≠ 0 := Fin.val_ne_zero_iff.mpr hne
  unfold ahead
  rw [← sub_sub, Fin.val_sub_one_of_ne_zero hne]
  omega

/-- The entry that is taken lies on the way to `p`. -/
theorem ahead_le_of_next (h : next r P = some b) (hp : P p = true) : ahead b p ≤ ahead r p := by
  have hle : b - r ≤ p - r := ahead_next_le h hp
  have heq : p - b = (p - r) - (b - r) := (sub_sub_sub_cancel_right p b r).symm
  unfold ahead
  rw [heq, Fin.sub_val_of_le hle]
  omega

end

/-! ## Scan after scan -/

/-- Scans `0, 1, …, N - 1`: each one starts behind what the one before took, and `p` is eligible
until it is taken. -/
structure Turns (p : Fin N) (start : ℕ → Fin N) (eligible : ℕ → Fin N → Bool) [NeZero N] :
    Prop where
  move : ∀ n < N, ∀ b, next (start n) (eligible n) = some b → start (n + 1) = b + 1
  stays : ∀ n < N, (∀ m < n, next (start m) (eligible m) ≠ some p) → eligible n p = true

namespace Turns

variable [NeZero N] {start : ℕ → Fin N} {eligible : ℕ → Fin N → Bool} {n m : ℕ}

/-- A scan that takes another entry leaves less of the way than there was ahead of that entry. -/
theorem shorter (h : Turns p start eligible) (hn : n < N)
    (hmiss : ∀ m ≤ n, next (start m) (eligible m) ≠ some p) :
    ∃ b, next (start n) (eligible n) = some b ∧ ahead (start (n + 1)) p < ahead b p ∧
      ahead b p ≤ ahead (start n) p := by
  have hp : eligible n p = true := h.stays n hn (fun m hm => hmiss m hm.le)
  obtain ⟨b, hb⟩ := exists_next (r := start n) hp
  refine ⟨b, hb, ?_, ahead_le_of_next hb hp⟩
  have hne : b ≠ p := by
    rintro rfl
    exact hmiss n le_rfl hb
  have hstep := ahead_add_one hne
  rw [h.move n hn b hb]
  omega

/-- While `p` is not taken, the way to it gets shorter with each scan. -/
theorem ahead_add_le (h : Turns p start eligible) (hmn : m ≤ n) (hn : n ≤ N)
    (hmiss : ∀ i < n, next (start i) (eligible i) ≠ some p) :
    ahead (start n) p + (n - m) ≤ ahead (start m) p := by
  induction n, hmn using Nat.le_induction with
  | base => omega
  | succ n hmn ih =>
    have hbefore := ih (by omega) (fun i hi => hmiss i (by omega))
    obtain ⟨b, -, hlt, hle⟩ := h.shorter (n := n) (by omega) (fun i hi => hmiss i (by omega))
    omega

/-- `p` is taken by one of the first `N` scans. -/
theorem taken (h : Turns p start eligible) :
    ∃ n < N, next (start n) (eligible n) = some p ∧
      ∀ m < n, next (start m) (eligible m) ≠ some p := by
  have hex : ∃ n, n < N ∧ next (start n) (eligible n) = some p := by
    by_contra hno
    have hmiss : ∀ i < N, next (start i) (eligible i) ≠ some p := fun i hi htake =>
      hno ⟨i, hi, htake⟩
    have hway := h.ahead_add_le (Nat.zero_le N) le_rfl hmiss
    have hlt := ahead_lt (start 0) p
    omega
  classical
  refine ⟨Nat.find hex, (Nat.find_spec hex).1, (Nat.find_spec hex).2, ?_⟩
  intro m hm htake
  exact Nat.find_min hex hm ⟨by have := (Nat.find_spec hex).1; omega, htake⟩

/-- Until then no entry is taken twice. -/
theorem once (h : Turns p start eligible) (hn : n ≤ N)
    (hmiss : ∀ m < n, next (start m) (eligible m) ≠ some p) {j : ℕ} (hij : m < j) (hj : j < n)
    (hm : next (start m) (eligible m) = some b) : next (start j) (eligible j) ≠ some b := by
  intro hagain
  obtain ⟨b₁, hb₁, hlt, -⟩ := h.shorter (n := m) (by omega) (fun i hi => hmiss i (by omega))
  obtain ⟨b₂, hb₂, -, hle⟩ := h.shorter (n := j) (by omega) (fun i hi => hmiss i (by omega))
  obtain rfl : b₁ = b := Option.some.inj (hb₁.symm.trans hm)
  obtain rfl : b₂ = b₁ := Option.some.inj (hb₂.symm.trans hagain)
  have hway := h.ahead_add_le (m := m + 1) (n := j) hij (by omega) (fun i hi => hmiss i (by omega))
  omega

end Turns

end Xv6.Rotation
