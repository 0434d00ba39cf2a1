import Mathlib.Order.Basic

/-!
# Counting changes with a potential

A total step function `f : σ → ε → σ` fed with an arbitrarily long list of inputs. If an observed
value can only change by using up some of a potential, it changes at most as often as its first
potential allows, however long the run.
-/

namespace Xv6.Potential

variable {σ ε α : Type} {f : σ → ε → σ} {obs : σ → α} {I : σ → Prop}

/-- The number of steps of the run in which `obs` changes. -/
def changes [DecidableEq α] (f : σ → ε → σ) (obs : σ → α) : σ → List ε → Nat
  | _, [] => 0
  | s, e :: es => (if obs (f s e) = obs s then 0 else 1) + changes f obs (f s e) es

/-- A move from `x` to `x'` that pays for itself: if the value changes, the potential drops. -/
def Pays (φ : α → Nat) (x x' : α) : Prop := x' ≠ x → φ x' < φ x

theorem Pays.refl (φ : α → Nat) (x : α) : Pays φ x x := fun h => absurd rfl h

theorem Pays.trans {φ : α → Nat} {x x' x'' : α} (h : Pays φ x x') (h' : Pays φ x' x'') :
    Pays φ x x'' := by
  intro hne
  by_cases heq : x'' = x'
  · subst heq
    exact h hne
  · by_cases heq' : x' = x
    · subst heq'
      exact h' heq
    · exact Nat.lt_trans (h' heq) (h heq')

theorem foldl_invariant (hI : ∀ s e, I s → I (f s e)) {s : σ} (h0 : I s) (es : List ε) :
    I (es.foldl f s) := by
  induction es generalizing s with
  | nil => exact h0
  | cons e es ih => exact ih (hI s e h0)

/-- **A value that pays for every change changes boundedly often.** -/
theorem changes_le [DecidableEq α] {φ : α → Nat} (hI : ∀ s e, I s → I (f s e))
    (hφ : ∀ s e, I s → Pays φ (obs s) (obs (f s e))) {s : σ} (h0 : I s)
    (es : List ε) : changes f obs s es ≤ φ (obs s) := by
  induction es generalizing s with
  | nil => exact Nat.zero_le _
  | cons e es ih =>
    have hrest := ih (hI s e h0)
    simp only [changes]
    split
    · next heq =>
        rw [heq] at hrest
        omega
    · next hne =>
        have := hφ s e h0 hne
        omega

end Xv6.Potential
