import Xv6.Common.Transition

/-!
# Signals

A flag in the state of a system: one party raises it, another reads it, a third clears it. A
signal is *lost* when the flag goes down before anybody has read it.

`Hist` watches the flag itself, before and after every step. `Calls` watches only the order of the
calls. `lost_eq_overwritten` says that for a flag that behaves as one would expect the two tell the
same story: a signal is lost exactly when a clearing call follows a raising one with no fetching
call in between.
-/

namespace Xv6.Signal

open Transition List

variable {σ ε : Type}

/-- What has become of the flag. -/
structure Hist where
  /-- It went up and nobody has read it since. -/
  unseen : Bool
  /-- It once went down while it was unseen. -/
  lost : Bool

/-- Nothing has happened yet. -/
def Hist.start : Hist := ⟨false, false⟩

/-- Compare the flag before and after a step. -/
def Hist.update (step : σ → ε → Option σ) (flag : σ → Bool) (reads : σ → ε → Bool)
    (g : Hist) (s : σ) (e : ε) : Hist :=
  match step s e with
  | none => g
  | some s' =>
    if !flag s && flag s' then ⟨true, g.lost⟩
    else if flag s && !flag s' then ⟨false, g.lost || (g.unseen && !reads s e)⟩
    else ⟨g.unseen && !reads s e, g.lost⟩

/-- What the order of the calls shows. -/
structure Calls where
  /-- There has been no fetch since the last raise. -/
  unread : Bool
  /-- There was a clear while there was something unread. -/
  overwritten : Bool

def Calls.start : Calls := ⟨false, false⟩

/-- The kinds of calls. -/
inductive Kind where
  | raise
  | fetch
  | clear
  | other
  deriving DecidableEq

def Calls.update (kind : σ → ε → Kind) (c : Calls) (s : σ) (e : ε) : Calls :=
  match kind s e with
  | .raise => { c with unread := true }
  | .fetch => { c with unread := false }
  | .clear => ⟨false, c.overwritten || c.unread⟩
  | .other => c

/-- How the calls treat the flag. -/
structure Discipline (step : σ → ε → Option σ) (flag : σ → Bool) (reads : σ → ε → Bool)
    (kind : σ → ε → Kind) (I : σ → Prop) : Prop where
  inv : ∀ {s e s'}, I s → step s e = some s' → I s'
  raise : ∀ {s e s'}, I s → step s e = some s' → kind s e = .raise →
    flag s = false ∧ flag s' = true
  clear : ∀ {s e s'}, step s e = some s' → kind s e = .clear → flag s' = false
  keep : ∀ {s e s'}, step s e = some s' → kind s e ≠ .raise → kind s e ≠ .clear →
    flag s' = flag s
  fetch : ∀ {s e}, kind s e = .fetch → reads s e = flag s
  not_fetch : ∀ {s e}, kind s e ≠ .fetch → reads s e = false

variable {step : σ → ε → Option σ} {flag : σ → Bool} {reads : σ → ε → Bool}
  {kind : σ → ε → Kind} {I : σ → Prop} {s s' : σ} {e : ε} {es : List ε} {g : Hist} {c : Calls}

/-- The two histories agree, and what is unseen is up. -/
structure Agree (flag : σ → Bool) (s : σ) (g : Hist) (c : Calls) : Prop where
  unread : c.unread = g.unseen
  overwritten : c.overwritten = g.lost
  up : g.unseen = true → flag s = true

theorem Agree.advance (D : Discipline step flag reads kind I) (h : Agree flag s g c) (hI : I s)
    (hs : step s e = some s') :
    Agree flag s' (g.update step flag reads s e) (c.update kind s e) := by
  obtain ⟨hu, ho, hup⟩ := h
  have hno : flag s = false → g.unseen = false := by
    intro hf
    by_contra hne
    simp [hup (by simpa using hne)] at hf
  unfold Hist.update Calls.update
  simp only [hs]
  cases hk : kind s e with
  | raise =>
    obtain ⟨h0, h1⟩ := D.raise hI hs hk
    rw [h0, h1]
    exact ⟨rfl, ho, fun _ => h1⟩
  | fetch =>
    -- the flag keeps, and what was unseen has been up, so the fetch reads it
    have hkeep := D.keep hs (by simp [hk]) (by simp [hk])
    rw [hkeep, D.fetch hk]
    cases hf : flag s with
    | true => exact ⟨by simp, ho, by simp⟩
    | false => exact ⟨by simp [hno hf], ho, by simp [hno hf]⟩
  | clear =>
    rw [D.clear hs hk, D.not_fetch (by simp [hk])]
    cases hf : flag s with
    | true => exact ⟨rfl, by simp [ho, hu], by simp⟩
    | false => exact ⟨by simp [hno hf], by simp [ho, hu, hno hf], by simp [hno hf]⟩
  | other =>
    have hkeep := D.keep hs (by simp [hk]) (by simp [hk])
    rw [hkeep, D.not_fetch (by simp [hk])]
    cases hf : flag s with
    | true => exact ⟨by simp [hu], ho, fun _ => hkeep.trans hf⟩
    | false => exact ⟨by simp [hu], ho, by simp [hno hf]⟩

/-- **A signal is lost exactly when it is overwritten before it is fetched.** -/
theorem lost_eq_overwritten (D : Discipline step flag reads kind I) (hI : I s)
    (h : Agree flag s g c) : (track step (Hist.update step flag reads) s g es).lost =
      (track step (Calls.update kind) s c es).overwritten := by
  induction es generalizing s g c with
  | nil => exact h.overwritten.symm
  | cons e es ih =>
    cases hs : step s e with
    | none => simpa [track, hs] using h.overwritten.symm
    | some t =>
      rw [track_cons hs, track_cons hs]
      exact ih (D.inv hI hs) (h.advance D hI hs)

/-! ## Following a flag through a run -/

theorem unseen_of_unseen (hread : ∀ e ∈ es, ∀ s, reads s e = false)
    (hkeep : ∀ e ∈ es, ∀ s s', step s e = some s' → flag s = true → flag s' = true)
    (hf : flag s = true) (hg : g.unseen = true) :
    (track step (Hist.update step flag reads) s g es).unseen = true := by
  induction es generalizing s g with
  | nil => exact hg
  | cons e es ih =>
    cases hs : step s e with
    | none => simpa [track, hs] using hg
    | some t =>
      rw [track_cons hs]
      have ht := hkeep e (mem_cons_self ..) s t hs hf
      refine ih (fun e' he' => hread e' (mem_cons_of_mem e he'))
        (fun e' he' => hkeep e' (mem_cons_of_mem e he')) ht ?_
      simp [Hist.update, hs, hf, ht, hg, hread e (mem_cons_self ..) s]

theorem unseen_of_raised (hread : ∀ e ∈ es, ∀ s, reads s e = false)
    (hkeep : ∀ e ∈ es, ∀ s s', step s e = some s' → flag s = true → flag s' = true)
    (hrun : run step s es = some s') (hs : flag s = false) (hs' : flag s' = true) :
    (track step (Hist.update step flag reads) s g es).unseen = true := by
  induction es generalizing s g with
  | nil =>
    cases hrun
    rw [hs] at hs'
    cases hs'
  | cons e es ih =>
    obtain ⟨t, ht, hrest⟩ := run_cons_iff.mp hrun
    have hread' := fun e' he' => hread e' (mem_cons_of_mem e he')
    have hkeep' := fun e' he' => hkeep e' (mem_cons_of_mem e he')
    rw [track_cons ht]
    cases hft : flag t with
    | true =>
      refine unseen_of_unseen hread' hkeep' hft ?_
      simp [Hist.update, ht, hs, hft]
    | false => exact ih hread' hkeep' hrest hft

end Xv6.Signal
