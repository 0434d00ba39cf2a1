import Mathlib.Data.Set.Basic

/-!
# Runs of a partial step function

A system is a step function `step : σ → ε → Option σ`: `step s e = some s'` when the event `e`
can happen in `s` and leads to `s'`. Everything the development proves about a system is proved
about its *runs*, the event lists `es` with `run step s es = some s'`.

Two rules carry all of it:

* `run_track` — what every step keeps, every run keeps, for a state paired with a *history*. A
  history is computed from the run by `track`, from the state before each event and the event
  itself, so it never restricts what the system does; it only remembers what happened.
  `run_allowed` and `run_invariant` are the rule for invariants that need no history.
* `occurs_of_broken` — what holds at the start of a run and not at its end was ended by one of
  the events that can end it.
-/

namespace Xv6.Transition

open List

variable {σ ε γ : Type}

/-- Perform a list of events in order. `none` as soon as one of them cannot happen. -/
def run (step : σ → ε → Option σ) : σ → List ε → Option σ
  | s, [] => some s
  | s, e :: es => (step s e).bind (fun s' => run step s' es)

/-- The history of a run: fold `upd` over the events, each with the state it happens in. -/
def track (step : σ → ε → Option σ) (upd : γ → σ → ε → γ) : σ → γ → List ε → γ
  | _, g, [] => g
  | s, g, e :: es =>
    match step s e with
    | some s' => track step upd s' (upd g s e) es
    | none => g

/-- Every state the run passes through satisfies `P`, the first and the last included. -/
def Along (step : σ → ε → Option σ) (P : σ → Prop) : σ → List ε → Prop
  | s, [] => P s
  | s, e :: es => P s ∧ ∀ s', step s e = some s' → Along step P s' es

/-- Every event of the run happens in a state it is allowed in. -/
def Allowed (step : σ → ε → Option σ) (C : σ → ε → Prop) : σ → List ε → Prop
  | _, [] => True
  | s, e :: es => C s e ∧ ∀ s', step s e = some s' → Allowed step C s' es

/-- Somewhere along the run, an event happens in a state with which it satisfies `P`. -/
def Occurs (step : σ → ε → Option σ) (P : σ → ε → Prop) : σ → List ε → Prop
  | _, [] => False
  | s, e :: es => P s e ∨ ∃ s', step s e = some s' ∧ Occurs step P s' es

variable {step : σ → ε → Option σ} {s s' : σ} {e : ε} {es es' : List ε}

/-! ## Unfolding -/

@[simp] theorem run_nil : run step s [] = some s := rfl

theorem run_cons_iff : run step s (e :: es) = some s' ↔
    ∃ t, step s e = some t ∧ run step t es = some s' := by
  simp [run, Option.bind_eq_some_iff]

theorem run_append : run step s (es ++ es') = (run step s es).bind (run step · es') := by
  induction es generalizing s with
  | nil => rfl
  | cons e es ih =>
    simp only [cons_append, run]
    cases step s e with
    | none => rfl
    | some t => exact ih

theorem run_append_iff : run step s (es ++ es') = some s' ↔
    ∃ t, run step s es = some t ∧ run step t es' = some s' := by
  simp [run_append, Option.bind_eq_some_iff]

variable {upd : γ → σ → ε → γ} {C C' : σ → ε → Prop} {I P : σ → Prop}

theorem track_cons {g : γ} {t : σ} (h : step s e = some t) :
    track step upd s g (e :: es) = track step upd t (upd g s e) es := by
  simp [track, h]

theorem track_append {g : γ} {t : σ} (h : run step s es = some t) :
    track step upd s g (es ++ es') = track step upd t (track step upd s g es) es' := by
  induction es generalizing s g with
  | nil => cases h; rfl
  | cons e es ih =>
    obtain ⟨u, hu, hrest⟩ := run_cons_iff.mp h
    rw [cons_append, track_cons hu, track_cons hu, ih hrest]

/-! ## The induction rules -/

/-- **What every step keeps, every run keeps**, for a state and its history, under a condition on
the steps of the run. -/
theorem run_track {I : σ → γ → Prop}
    (hstep : ∀ s g e s', I s g → C s e → step s e = some s' → I s' (upd g s e)) {g : γ}
    (h : run step s es = some s') (hC : Allowed step C s es) (h0 : I s g) :
    I s' (track step upd s g es) := by
  induction es generalizing s g with
  | nil => cases h; exact h0
  | cons e es ih =>
    obtain ⟨t, ht, hrest⟩ := run_cons_iff.mp h
    rw [track_cons ht]
    exact ih hrest (hC.2 t ht) (hstep s g e t h0 hC.1 ht)

theorem allowed_true : Allowed step (fun _ _ => True) s es := by
  induction es generalizing s with
  | nil => trivial
  | cons e es ih => exact ⟨trivial, fun _ _ => ih⟩

theorem run_allowed (hstep : ∀ s e s', I s → C s e → step s e = some s' → I s')
    (h : run step s es = some s') (hC : Allowed step C s es) (h0 : I s) : I s' :=
  @run_track σ ε Unit step s s' es (fun g _ _ => g) C (fun s _ => I s)
    (fun s _ => hstep s) () h hC h0

theorem run_invariant (hstep : ∀ s e s', I s → step s e = some s' → I s')
    (h : run step s es = some s') (h0 : I s) : I s' :=
  run_allowed (fun s e s' hI _ => hstep s e s' hI) h allowed_true h0

theorem allowed_of_forall_mem {C : ε → Prop} (h : ∀ e ∈ es, C e) :
    Allowed step (fun _ e => C e) s es := by
  induction es generalizing s with
  | nil => trivial
  | cons e es ih =>
    exact ⟨h e (mem_cons_self ..), fun _ _ => ih fun e' he' =>
      h e' (mem_cons_of_mem e he')⟩

theorem Allowed.imp (h : ∀ s e, C s e → C' s e) (hC : Allowed step C s es) :
    Allowed step C' s es := by
  induction es generalizing s with
  | nil => trivial
  | cons e es ih => exact ⟨h s e hC.1, fun t ht => ih (hC.2 t ht)⟩

theorem Allowed.and (h : Allowed step C s es) (h' : Allowed step C' s es) :
    Allowed step (fun s e => C s e ∧ C' s e) s es := by
  induction es generalizing s with
  | nil => trivial
  | cons e es ih => exact ⟨⟨h.1, h'.1⟩, fun t ht => ih (h.2 t ht) (h'.2 t ht)⟩

theorem Allowed.concat (h : Allowed step C s es) (hr : run step s es = some s') (hC : C s' e) :
    Allowed step C s (es ++ [e]) := by
  induction es generalizing s with
  | nil => cases hr; exact ⟨hC, fun _ _ => trivial⟩
  | cons e₁ es ih =>
    obtain ⟨u, hu, hrest⟩ := run_cons_iff.mp hr
    refine ⟨h.1, fun t ht => ?_⟩
    obtain rfl : u = t := Option.some.inj (hu.symm.trans ht)
    exact ih (h.2 u hu) hrest

/-- On a given run, whether its events are allowed can be computed. -/
instance Allowed.decidable {C : σ → ε → Prop} [∀ s, DecidablePred (C s)] :
    ∀ (s : σ) (es : List ε), Decidable (Allowed step C s es)
  | _, [] => isTrue trivial
  | s, e :: es =>
    match h : step s e with
    | none => decidable_of_iff (C s e) (by simp [Allowed, h])
    | some t =>
      have := Allowed.decidable (C := C) t es
      decidable_of_iff (C s e ∧ Allowed step C t es) (by simp [Allowed, h])

/-- What holds along a run holds at its end, and allows each of its events. -/
theorem Along.allowed (h : Along step P s es) : Allowed step (fun s _ => P s) s es := by
  induction es generalizing s with
  | nil => trivial
  | cons e es ih => exact ⟨h.1, fun s' hs' => ih (h.2 s' hs')⟩

theorem Along.last (h : Along step P s es) (hr : run step s es = some s') : P s' := by
  induction es generalizing s with
  | nil => cases hr; exact h
  | cons e es ih =>
    obtain ⟨t, ht, hrest⟩ := run_cons_iff.mp hr
    exact ih (h.2 t ht) hrest

/-- On a given run, what holds along it can be computed. -/
instance Along.decidable {P : σ → Prop} [DecidablePred P] :
    ∀ (s : σ) (es : List ε), Decidable (Along step P s es)
  | s, [] => inferInstanceAs (Decidable (P s))
  | s, e :: es =>
    match h : step s e with
    | none => decidable_of_iff (P s) (by simp [Along, h])
    | some t =>
      have := Along.decidable (P := P) t es
      decidable_of_iff (P s ∧ Along step P t es) (by simp [Along, h])

/-- **What holds first and not last was ended by something**: if only events satisfying `P` can
break `J`, a run that breaks `J` has one. -/
theorem occurs_of_broken {P : σ → ε → Prop} {J : σ → Prop}
    (hI : ∀ s e s', I s → step s e = some s' → I s')
    (hJ : ∀ s e s', I s → J s → ¬ P s e → step s e = some s' → J s') (h : run step s es = some s')
    (h0 : I s) (hfirst : J s) (hlast : ¬ J s') : Occurs step P s es := by
  induction es generalizing s with
  | nil => cases h; exact absurd hfirst hlast
  | cons e es ih =>
    obtain ⟨t, ht, hrest⟩ := run_cons_iff.mp h
    by_cases hP : P s e
    · exact .inl hP
    · exact .inr ⟨t, ht, ih hrest (hI s e t h0 ht) (hJ s e t h0 hfirst hP ht)⟩

end Xv6.Transition
