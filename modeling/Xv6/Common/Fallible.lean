import Mathlib.Logic.Basic

/-!
# Programs with a state that may fail with an error

A program is a `StateT σ (Except ε) α`. `Ends` says what a run comes to: a value and a state that
satisfy `Q`, or an error that `E` allows. There is one rule for each construct of a program, and
`Ends.mono` to weaken what was shown of a part.
-/

namespace Xv6.Fallible

variable {σ ε α β : Type} {x : StateT σ (Except ε) α} {f : α → StateT σ (Except ε) β} {s t : σ}
  {E E' : ε → Prop} {Q Q' : α → σ → Prop} {R : β → σ → Prop} {a : α}

/-- Run from `s`, the program ends in `Q`, or fails with an error that `E` allows. -/
def Ends (x : StateT σ (Except ε) α) (s : σ) (E : ε → Prop) (Q : α → σ → Prop) : Prop :=
  (∀ a t, x.run s = .ok (a, t) → Q a t) ∧ ∀ e, x.run s = .error e → E e

theorem ends_of_ok (h : x.run s = .ok (a, t)) : Ends x s E Q ↔ Q a t := by
  constructor
  · intro hends
    exact hends.1 a t h
  · intro hq
    refine ⟨fun b u hb => ?_, fun e he => ?_⟩
    · cases h.symm.trans hb
      exact hq
    · cases h.symm.trans he

theorem ends_of_error {e : ε} (h : x.run s = .error e) : Ends x s E Q ↔ E e := by
  constructor
  · intro hends
    exact hends.2 e h
  · intro he
    refine ⟨fun b u hb => ?_, fun e' he' => ?_⟩
    · cases h.symm.trans hb
    · cases h.symm.trans he'
      exact he

theorem ends_pure : Ends (pure a : StateT σ (Except ε) α) s E Q ↔ Q a s := ends_of_ok rfl

theorem ends_throw {e : ε} : Ends (throw e : StateT σ (Except ε) α) s E Q ↔ E e :=
  ends_of_error rfl

theorem ends_get {Q : σ → σ → Prop} :
    Ends (get : StateT σ (Except ε) σ) s E Q ↔ Q s s := ends_of_ok rfl

theorem ends_set {Q : PUnit → σ → Prop} :
    Ends (set t : StateT σ (Except ε) PUnit) s E Q ↔ Q ⟨⟩ t := ends_of_ok rfl

theorem ends_modify {g : σ → σ} {Q : PUnit → σ → Prop} :
    Ends (modify g : StateT σ (Except ε) PUnit) s E Q ↔ Q ⟨⟩ (g s) := ends_of_ok rfl

theorem ends_bind : Ends (x >>= f) s E R ↔ Ends x s E fun a t => Ends (f a) t E R := by
  cases h : x.run s with
  | error e =>
    have hbind : (x >>= f).run s = .error e := by
      rw [StateT.run_bind, h]
      rfl
    rw [ends_of_error h, ends_of_error hbind]
  | ok p =>
    obtain ⟨a, t⟩ := p
    have hbind : (x >>= f).run s = (f a).run t := by
      rw [StateT.run_bind, h]
      rfl
    rw [ends_of_ok h]
    unfold Ends
    rw [hbind]

theorem ends_map {g : α → β} : Ends (g <$> x) s E R ↔ Ends x s E fun a t => R (g a) t := by
  rw [map_eq_pure_bind, ends_bind]
  simp only [ends_pure]

theorem Ends.mono (h : Ends x s E Q) (hE : ∀ e, E e → E' e) (hQ : ∀ a t, Q a t → Q' a t) :
    Ends x s E' Q' :=
  ⟨fun a t hok => hQ a t (h.1 a t hok), fun e herr => hE e (h.2 e herr)⟩

/-- A loop over a list. The invariant speaks of the part that is done. -/
theorem ends_forM {ι : Type} {l : List ι} {f : ι → StateT σ (Except ε) PUnit}
    {I : List ι → σ → Prop} (h : I [] s)
    (hstep : ∀ done x rest t, l = done ++ x :: rest → I done t →
      Ends (f x) t E fun _ t' => I (done ++ [x]) t') :
    Ends (l.forM f) s E fun _ t => I l t := by
  suffices hgen : ∀ (rest done : List ι) (t : σ), l = done ++ rest → I done t →
      Ends (rest.forM f) t E fun _ t' => I l t' from hgen l [] s rfl h
  intro rest
  induction rest with
  | nil =>
    intro done t hl hI
    rw [List.append_nil] at hl
    subst hl
    exact ends_pure.mpr hI
  | cons x rest ih =>
    intro done t hl hI
    show Ends (f x >>= fun _ => rest.forM f) t E _
    rw [ends_bind]
    refine (hstep done x rest t hl hI).mono (fun _ he => he) fun _ t' hI' => ?_
    exact ih (done ++ [x]) t' (by rw [hl, List.append_assoc, List.singleton_append]) hI'

/-- A program that cannot fail runs to the end. -/
theorem Ends.exists_ok (h : Ends x s (fun _ => False) Q) : ∃ a t, x.run s = .ok (a, t) ∧ Q a t := by
  cases hrun : x.run s with
  | error e => exact (h.2 e hrun).elim
  | ok p => exact ⟨p.1, p.2, rfl, h.1 p.1 p.2 hrun⟩

/-- A program that fails only without `P`, and where the result tells of `P`. -/
theorem Ends.exists_ok_iff {P : Prop} (h : Ends x s (fun _ => ¬ P) fun a t => Q a t ↔ P) :
    (∃ a t, x.run s = .ok (a, t) ∧ Q a t) ↔ P := by
  constructor
  · rintro ⟨a, t, hrun, hq⟩
    exact (h.1 a t hrun).mp hq
  · intro hp
    cases hrun : x.run s with
    | error e => exact absurd hp (h.2 e hrun)
    | ok r => exact ⟨r.1, r.2, rfl, (h.1 r.1 r.2 hrun).mpr hp⟩

/-- A program that can only fail does. -/
theorem Ends.exists_error (h : Ends x s E fun _ _ => False) : ∃ e, x.run s = .error e ∧ E e := by
  cases hrun : x.run s with
  | error e => exact ⟨e, rfl, h.2 e hrun⟩
  | ok p => exact (h.1 p.1 p.2 hrun).elim

theorem Ends.eq_error {e : ε} (h : Ends x s (fun e' => e' = e) fun _ _ => False) :
    x.run s = .error e := by
  obtain ⟨e', hrun, rfl⟩ := h.exists_error
  exact hrun

end Xv6.Fallible
