import Mathlib.Data.Finset.Card
import Mathlib.Data.Fintype.Card
import Mathlib.Order.Basic

/-!
# Bounded bypass by aging

Finitely many contenders, each with a waiting time. In a round everybody who takes part waits one
longer, one contender wins, and the winner starts again from zero. A contender that `p` has
*outwaited* by `K` or more no longer wins against `p`.

Then `p` loses only so often. As long as it has waited less than `K` there is nothing to show. From
then on every winner is a contender that `p` had not outwaited yet, and by winning it becomes one
that `p` has outwaited, for good. So each contender wins at most once more.
-/

namespace Xv6.Aging

variable {ι : Type} [Fintype ι] [DecidableEq ι] {K : Int} {p w : ι} {wait wait' : ι → Int}

/-- The contenders that `p` has outwaited by `K`. -/
def outwaited (K : Int) (p : ι) (wait : ι → Int) : Finset ι :=
  Finset.univ.filter fun r => r ≠ p ∧ 0 ≤ wait r ∧ wait r + K ≤ wait p

theorem mem_outwaited {r : ι} :
    r ∈ outwaited K p wait ↔ r ≠ p ∧ 0 ≤ wait r ∧ wait r + K ≤ wait p := by
  simp [outwaited]

/-- The invariant: `p` has waited less than `K` plus one round for each contender it has
outwaited. -/
def Patient (K : Int) (p : ι) (wait : ι → Int) : Prop :=
  wait p < K + (outwaited K p wait).card

/-- A round that `p` loses to `w`. -/
structure Lost (K : Int) (p w : ι) (wait wait' : ι → Int) : Prop where
  ne : w ≠ p
  loser : wait' p = wait p + 1
  winner : wait' w = 0
  /-- Who is outwaited does not win. -/
  fresh : w ∉ outwaited K p wait
  others : ∀ r ∈ outwaited K p wait, wait' r = wait r ∨ wait' r = wait r + 1 ∨ wait' r = 0

/-- Who is outwaited stays so, if no waiting time grows faster than that of `p`. -/
theorem outwaited_subset (hp : wait p ≤ wait' p)
    (hr : ∀ r ∈ outwaited K p wait, wait' r = 0 ∨ wait r ≤ wait' r ∧
      wait' r - wait r ≤ wait' p - wait p) :
    outwaited K p wait ⊆ outwaited K p wait' := by
  intro r hmem
  obtain ⟨hne, hpos, hle⟩ := mem_outwaited.mp hmem
  rw [mem_outwaited]
  rcases hr r hmem with hzero | ⟨hge, hgrow⟩
  · exact ⟨hne, by omega, by omega⟩
  · exact ⟨hne, by omega, by omega⟩

/-- Between rounds: `p` keeps its waiting time and the others keep theirs or start afresh. -/
theorem Patient.rest (h : Patient K p wait) (hp : wait' p = wait p)
    (hr : ∀ r, r ≠ p → wait' r = wait r ∨ wait' r = 0) : Patient K p wait' := by
  have hsub : outwaited K p wait ⊆ outwaited K p wait' := by
    apply outwaited_subset
    · omega
    · intro r hmem
      rcases hr r (mem_outwaited.mp hmem).1 with hsame | hzero
      · exact .inr ⟨by omega, by omega⟩
      · exact .inl hzero
  have hcard := Finset.card_le_card hsub
  unfold Patient at h ⊢
  omega

/-- **A lost round**: either `p` has still waited less than `K`, or the winner is one more
contender that `p` has outwaited. -/
theorem Patient.lose (h : Patient K p wait) (hl : Lost K p w wait wait') : Patient K p wait' := by
  have hsub : outwaited K p wait ⊆ outwaited K p wait' := by
    apply outwaited_subset
    · have := hl.loser
      omega
    · intro r hmem
      have := hl.loser
      rcases hl.others r hmem with hsame | hmore | hzero
      · exact .inr ⟨by omega, by omega⟩
      · exact .inr ⟨by omega, by omega⟩
      · exact .inl hzero
  unfold Patient at h ⊢
  by_cases hK : wait' p < K
  · omega
  · have hw : w ∈ outwaited K p wait' := by
      rw [mem_outwaited, hl.winner]
      exact ⟨hl.ne, by omega, by omega⟩
    have hcard : (outwaited K p wait).card + 1 ≤ (outwaited K p wait').card := by
      rw [← Finset.card_insert_of_notMem hl.fresh]
      exact Finset.card_le_card (Finset.insert_subset hw hsub)
    have := hl.loser
    omega

/-- **Bounded bypass.** -/
theorem Patient.lt_card (h : Patient K p wait) : wait p < K + Fintype.card ι := by
  have hcard : (outwaited K p wait).card ≤ Fintype.card ι := Finset.card_le_univ _
  unfold Patient at h
  omega

/-- A contender that has not waited `K` yet is fine. -/
theorem patient_of_lt (h : wait p < K) : Patient K p wait := by
  unfold Patient
  omega

end Xv6.Aging
