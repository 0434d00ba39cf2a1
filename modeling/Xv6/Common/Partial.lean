import Mathlib.Logic.Basic

/-!
# Programs with a state that may panic

A program is a `StateT σ Option α`: it runs in a state and gives a value and a new state, or
panics. What a program does is read off a successful run with one rule per construct: a run of a
sequence is a run of its first part followed by a run of the rest (`bind_iff`), and so on.
-/

namespace Xv6.Partial

variable {σ α β : Type}

variable {x : StateT σ Option α} {f : α → StateT σ Option β} {s s' t : σ}

theorem bind_iff {b : β} :
    (x >>= f).run s = some (b, s') ↔
      ∃ a t, x.run s = some (a, t) ∧ (f a).run t = some (b, s') := by
  rw [StateT.run_bind, Option.bind_eq_bind, Option.bind_eq_some_iff]
  constructor
  · rintro ⟨⟨a, t⟩, hx, hf⟩
    exact ⟨a, t, hx, hf⟩
  · rintro ⟨a, t, hx, hf⟩
    exact ⟨(a, t), hx, hf⟩

theorem bind_of_run {a : α} (h : x.run s = some (a, t)) : (x >>= f).run s = (f a).run t := by
  rw [StateT.run_bind, h]
  rfl

theorem pure_iff {a b : α} :
    (pure a : StateT σ Option α).run s = some (b, s') ↔ a = b ∧ s = s' := by
  rw [StateT.run_pure, Option.pure_def, Option.some.injEq, Prod.mk.injEq]

theorem map_iff {f : α → β} {b : β} :
    (f <$> x).run s = some (b, s') ↔ ∃ a, x.run s = some (a, s') ∧ f a = b := by
  rw [StateT.run_map]
  constructor
  · intro h
    obtain ⟨⟨a, t⟩, hx, heq⟩ := Option.map_eq_some_iff.mp h
    cases heq
    exact ⟨a, hx, rfl⟩
  · rintro ⟨a, hx, rfl⟩
    exact Option.map_eq_some_iff.mpr ⟨(a, s'), hx, rfl⟩

theorem get_iff : (get : StateT σ Option σ).run s = some (t, s') ↔ s = t ∧ s = s' := by
  rw [StateT.run_get, Option.pure_def, Option.some.injEq, Prod.mk.injEq]

theorem get_bind {f : σ → StateT σ Option β} :
    ((get : StateT σ Option σ) >>= f).run s = (f s).run s :=
  rfl

theorem modify_bind {g : σ → σ} {f : PUnit → StateT σ Option β} :
    ((modify g : StateT σ Option PUnit) >>= f).run s = (f ⟨⟩).run (g s) :=
  rfl

theorem modify_iff {f : σ → σ} {u : PUnit} :
    (modify f : StateT σ Option PUnit).run s = some (u, s') ↔ f s = s' := by
  rw [StateT.run_modify, Option.pure_def, Option.some.injEq, Prod.mk.injEq]
  simp

end Xv6.Partial
