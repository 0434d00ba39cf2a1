import Mathlib.Data.List.Nodup
import Mathlib.Data.List.MinMax

/-!
# Loops over a table

A C loop `for (p = table; p < end; p++) body` is a left fold of `body` over the list of indices.
When `body` touches only the entry it stands on, the fold is the pointwise map
(`foldl_pointwise`); whatever `body` never touches, the fold never touches (`foldl_frame`). A loop
that keeps the entry of least key seen so far ends with `firstLeast`.
-/

namespace Xv6.Scan

open List

variable {σ ι α : Type} {f : σ → ι → σ}

/-- What no iteration changes, the loop does not change. -/
theorem foldl_frame {β : Type} (obs : σ → β) (h : ∀ s i, obs (f s i) = obs s) (l : List ι) (s : σ) :
    obs (l.foldl f s) = obs s := by
  induction l generalizing s with
  | nil => rfl
  | cons i l ih => rw [foldl_cons, ih, h]

variable {l : List ι} {k : ι → Int}

/-- A loop whose body rewrites only the entry it stands on, visiting no entry twice, rewrites
exactly the visited entries. -/
theorem foldl_pointwise [DecidableEq ι] (get : σ → ι → α) {g : α → α}
    (hself : ∀ s i, get (f s i) i = g (get s i)) (hne : ∀ s i j, j ≠ i → get (f s i) j = get s j)
    (hl : l.Nodup) (s : σ) (j : ι) :
    get (l.foldl f s) j = if j ∈ l then g (get s j) else get s j := by
  induction l generalizing s with
  | nil => simp
  | cons i l ih =>
    obtain ⟨hi, hl⟩ := nodup_cons.mp hl
    rw [foldl_cons, ih hl]
    by_cases hji : j = i
    · subst hji
      simp [hi, hself]
    · simp [hji, hne s i j hji]

/-- A flag that an iteration raises when the entry it stands on satisfies `p`, and that nothing
lowers, is up after the loop exactly when it was up before or a visited entry satisfied `p`. -/
theorem foldl_any [DecidableEq ι] (get : σ → ι → α) (flag : σ → Bool) (p : α → Bool)
    (hflag : ∀ s i, flag (f s i) = (flag s || p (get s i)))
    (hne : ∀ s i j, j ≠ i → get (f s i) j = get s j) (hl : l.Nodup) (s : σ) :
    flag (l.foldl f s) = (flag s || l.any (fun i => p (get s i))) := by
  induction l generalizing s with
  | nil => simp
  | cons i l ih =>
    obtain ⟨hi, hl⟩ := nodup_cons.mp hl
    have hsame : ∀ j ∈ l, p (get (f s i) j) = p (get s j) := by
      intro j hj
      rw [hne s i j (fun h => hi (h ▸ hj))]
    rw [foldl_cons, ih hl, hflag, any_cons, Bool.or_assoc]
    congr 2
    rw [Bool.eq_iff_iff, any_eq_true, any_eq_true]
    exact exists_congr fun j => and_congr_right fun hj => by rw [hsame j hj]

/-- The first entry of `l` with the least key: Mathlib's `argmin`, at the order that `Int` is
compared with in the code. -/
def firstLeast (k : ι → Int) (l : List ι) : Option ι :=
  @List.argmin ι Int Int.instLinearOrder.toPreorder Int.instLinearOrder.toDecidableLT k l

theorem firstLeast_concat (k : ι → Int) (l : List ι) (i : ι) :
    firstLeast k (l ++ [i]) = match firstLeast k l with
      | none => some i
      | some b => if k i < k b then some i else some b := by
  unfold firstLeast
  rw [argmin_concat]
  cases @List.argmin ι Int Int.instLinearOrder.toPreorder Int.instLinearOrder.toDecidableLT k l
  · rfl
  · rfl

theorem firstLeast_eq_none : firstLeast k l = none ↔ l = [] :=
  argmin_eq_none

theorem firstLeast_mem {b : ι} (h : firstLeast k l = some b) : b ∈ l :=
  argmin_mem h

theorem firstLeast_le {b i : ι} (h : firstLeast k l = some b) (hi : i ∈ l) : k b ≤ k i :=
  le_of_mem_argmin hi h

/-- Among equal keys the first one in the list is kept. -/
theorem firstLeast_first {r : ι → ι → Prop} {b i : ι} (hl : l.Pairwise r)
    (h : firstLeast k l = some b) (hi : i ∈ l) (hle : k i ≤ k b) : i = b ∨ r b i := by
  induction l using List.reverseRecOn with
  | nil => cases hi
  | append_singleton l j ih =>
    obtain ⟨hl, -, hlast⟩ := pairwise_append.mp hl
    have hmem := mem_append.mp hi
    rw [mem_singleton] at hmem
    rw [firstLeast_concat] at h
    cases hbest : firstLeast k l with
    | none =>
      rw [hbest] at h
      cases h
      rw [firstLeast_eq_none.mp hbest] at hmem
      exact .inl (hmem.resolve_left not_mem_nil)
    | some c =>
      simp only [hbest] at h
      split at h
      · next hlt =>
          cases h
          -- whoever is in `l` has at least the key of `c`
          refine .inl (hmem.resolve_left fun hil => ?_)
          have := firstLeast_le hbest hil
          omega
      · cases h
        rcases hmem with hil | rfl
        · exact ih hl hbest hil
        · exact .inr (hlast b (firstLeast_mem hbest) i mem_cons_self)

end Xv6.Scan
