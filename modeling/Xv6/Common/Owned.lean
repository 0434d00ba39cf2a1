import Mathlib.Logic.Function.Basic
import Mathlib.Algebra.Notation.Defs

/-!
# Who owns a block

Blocks `β` are handed out to places `ρ`. A place holds the address of its block, or 0 if it has
none; some blocks are fixed and never handed out; and a bit says of each block whether it is in use.
`Owned` says that no two places hold the same block and that the bits are right. It is kept when a
place that has no block takes a free one (`Owned.assign`), and when a place gives up its block
(`Owned.release`).
-/

namespace Xv6

open Function (update update_of_ne update_self)

variable {ρ β : Type} [Zero β]

structure Owned (fixed inside : β → Prop) (addr : ρ → β) (used : β → Bool) : Prop where
  null : fixed 0
  inj : ∀ x y, addr x ≠ 0 → addr x = addr y → x = y
  range : ∀ x, addr x ≠ 0 → ¬ fixed (addr x) ∧ inside (addr x)
  used_iff : ∀ b, inside b → (used b = true ↔ fixed b ∨ ∃ x, addr x = b ∧ b ≠ 0)

namespace Owned

variable {fixed inside : β → Prop} {addr : ρ → β} {used : β → Bool} {b : β} {x y : ρ}

theorem ne_of_ne (h : Owned fixed inside addr used) (hx : addr x ≠ 0) (hxy : x ≠ y) :
    addr x ≠ addr y :=
  fun heq => hxy (h.inj x y hx heq)

/-- A free block is not fixed, and no place holds it. -/
theorem fresh (h : Owned fixed inside addr used) (hb : inside b) (hfree : used b = false) :
    ¬ fixed b ∧ b ≠ 0 ∧ ∀ x, addr x ≠ b := by
  have hnot : ¬ (fixed b ∨ ∃ x, addr x = b ∧ b ≠ 0) := fun hused => by
    rw [(h.used_iff b hb).mpr hused] at hfree
    cases hfree
  have hne : b ≠ 0 := by
    rintro rfl
    exact hnot (.inl h.null)
  exact ⟨fun hf => hnot (.inl hf), hne, fun x hx => hnot (.inr ⟨x, hx, hne⟩)⟩

variable [DecidableEq ρ] [DecidableEq β]

theorem assign (h : Owned fixed inside addr used) (hx : addr x = 0) (hb : inside b)
    (hfree : used b = false) :
    Owned fixed inside (update addr x b) (update used b true) where
  null := h.null
  inj y z hy hyz := by
    obtain ⟨-, -, hnot⟩ := h.fresh hb hfree
    by_cases hyx : y = x <;> by_cases hzx : z = x
    · exact hyx.trans hzx.symm
    · subst hyx
      rw [update_self, update_of_ne hzx] at hyz
      exact absurd hyz.symm (hnot z)
    · subst hzx
      rw [update_self, update_of_ne hyx] at hyz
      exact absurd hyz (hnot y)
    · rw [update_of_ne hyx] at hy hyz
      rw [update_of_ne hzx] at hyz
      exact h.inj y z hy hyz
  range y hy := by
    by_cases hyx : y = x
    · subst hyx
      rw [update_self]
      exact ⟨(h.fresh hb hfree).1, hb⟩
    · rw [update_of_ne hyx] at hy ⊢
      exact h.range y hy
  used_iff c hc := by
    by_cases hcb : c = b
    · subst hcb
      rw [update_self]
      exact ⟨fun _ => .inr ⟨x, update_self x c addr, (h.fresh hb hfree).2.1⟩,
        fun _ => rfl⟩
    · rw [update_of_ne hcb, h.used_iff c hc]
      refine or_congr_right (exists_congr fun y => and_congr_left fun hc0 => ?_)
      by_cases hyx : y = x
      · subst hyx
        rw [update_self, hx]
        exact ⟨fun h0 => absurd h0.symm hc0, fun hb => absurd hb.symm hcb⟩
      · rw [update_of_ne hyx]

theorem release (h : Owned fixed inside addr used) (hx : addr x = b) (hb : b ≠ 0) :
    Owned fixed inside (update addr x 0) (update used b false) := by
  subst hx
  refine ⟨h.null, fun y z hy hyz => ?_, fun y hy => ?_, fun c hc => ?_⟩
  · by_cases hyx : y = x
    · subst hyx
      exact absurd (update_self y 0 addr) hy
    · rw [update_of_ne hyx] at hy hyz
      by_cases hzx : z = x
      · subst hzx
        rw [update_self] at hyz
        exact absurd hyz hy
      · rw [update_of_ne hzx] at hyz
        exact h.inj y z hy hyz
  · by_cases hyx : y = x
    · subst hyx
      exact absurd (update_self y 0 addr) hy
    · rw [update_of_ne hyx] at hy ⊢
      exact h.range y hy
  · by_cases hcx : c = addr x
    · subst hcx
      rw [update_self]
      refine ⟨fun hfalse => absurd hfalse Bool.false_ne_true, ?_⟩
      rintro (hfixed | ⟨y, hy, -⟩)
      · exact absurd hfixed (h.range x hb).1
      · by_cases hyx : y = x
        · subst hyx
          rw [update_self] at hy
          exact absurd hy.symm hb
        · rw [update_of_ne hyx] at hy
          exact absurd (h.inj x y hb hy.symm).symm hyx
    · rw [update_of_ne hcx, h.used_iff c hc]
      refine or_congr_right (exists_congr fun y => and_congr_left fun hc0 => ?_)
      by_cases hyx : y = x
      · subst hyx
        rw [update_self]
        exact ⟨fun hc => absurd hc.symm hcx, fun h0 => absurd h0.symm hc0⟩
      · rw [update_of_ne hyx]

end Owned

end Xv6
