import Mathlib.Data.Fintype.Card

/-!
# Counting references

Holders `ι` refer to at most one object `α` each, and `tally` counts the holders of an object.
`bump K a` is one reference to `a` more than `K`: what a holder that had none adds when it takes
one.
-/

namespace Xv6

open Function (update update_eq_self update_idem update_of_ne update_self)

variable {ι α : Type} [DecidableEq α]

/-- One more reference to `a`. -/
def bump (K : α → Nat) (a : α) : α → Nat := update K a (K a + 1)

section

variable {K : α → Nat} {a b : α}

@[simp] theorem bump_self : bump K a a = K a + 1 := update_self _ _ _

theorem bump_of_ne (h : b ≠ a) : bump K a b = K b := update_of_ne h _ _

theorem le_bump (K : α → Nat) (a b : α) : K b ≤ bump K a b := by
  by_cases h : b = a
  · subst h
    rw [bump_self]
    exact Nat.le_succ _
  · rw [bump_of_ne h]

theorem bump_pos (K : α → Nat) (a : α) : 0 < bump K a a := by
  rw [bump_self]
  exact Nat.succ_pos _

theorem bump_comm (K : α → Nat) (a b : α) : bump (bump K a) b = bump (bump K b) a := by
  funext c
  by_cases ha : c = a <;> by_cases hb : c = b
  · subst ha
    subst hb
    rfl
  · subst ha
    rw [bump_of_ne hb, bump_self, bump_self, bump_of_ne hb]
  · subst hb
    rw [bump_self, bump_of_ne ha, bump_of_ne ha, bump_self]
  · rw [bump_of_ne hb, bump_of_ne ha, bump_of_ne ha, bump_of_ne hb]

theorem update_bump (K : α → Nat) (a : α) : update (bump K a) a (K a) = K := by
  rw [bump, update_idem, update_eq_self]

theorem bump_add (K L : α → Nat) (a : α) : bump K a + L = bump (K + L) a := by
  funext b
  by_cases h : b = a
  · subst h
    simp only [Pi.add_apply, bump_self]
    omega
  · simp only [Pi.add_apply, bump_of_ne h]

theorem add_bump (K L : α → Nat) (a : α) : K + bump L a = bump (K + L) a := by
  funext b
  by_cases h : b = a
  · subst h
    simp only [Pi.add_apply, bump_self]
    omega
  · simp only [Pi.add_apply, bump_of_ne h]

end

variable [Fintype ι] [DecidableEq ι]

/-- The number of holders of `a`. -/
def tally (f : ι → Option α) (a : α) : Nat := (Finset.univ.filter fun x => f x = some a).card

variable {f : ι → Option α} {x : ι} {a : α}

omit [DecidableEq ι] in
theorem tally_pos (h : f x = some a) : 0 < tally f a :=
  Finset.card_pos.mpr ⟨x, Finset.mem_filter.mpr ⟨Finset.mem_univ x, h⟩⟩

omit [DecidableEq ι] in
theorem tally_none : tally (fun _ : ι => (none : Option α)) a = 0 := by
  simp [tally]

omit [DecidableEq ι] in
theorem exists_of_tally_pos (h : 0 < tally f a) : ∃ x, f x = some a := by
  obtain ⟨x, hx⟩ := Finset.card_pos.mp h
  exact ⟨x, (Finset.mem_filter.mp hx).2⟩

theorem tally_update_of_ne {o : Option α} (hf : f x ≠ some a) (ho : o ≠ some a) :
    tally (update f x o) a = tally f a := by
  unfold tally
  congr 1
  ext y
  by_cases hy : y = x
  · subst hy
    simp [hf, ho]
  · simp [hy]

theorem tally_take (h : f x = none) : tally (update f x (some a)) = bump (tally f) a := by
  funext b
  by_cases hb : b = a
  · subst hb
    have hset : (Finset.univ.filter fun y => update f x (some b) y = some b) =
        insert x (Finset.univ.filter fun y => f y = some b) := by
      ext y
      by_cases hy : y = x
      · subst hy
        simp
      · simp [hy]
    rw [bump_self, tally, hset, Finset.card_insert_of_notMem (by simp [h])]
    rfl
  · rw [bump_of_ne hb, tally_update_of_ne (by simp [h]) (by simpa using Ne.symm hb)]

theorem tally_drop (h : f x = some a) : tally f = bump (tally (update f x none)) a := by
  rw [← tally_take (update_self x none f), update_idem, ← h,
    update_eq_self]

end Xv6
