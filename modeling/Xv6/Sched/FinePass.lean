import Xv6.Sched.Step

/-!
# The pass, one access at a time

`Machine` takes a scheduler pass as one step. That is right for everything under `ptable.lock`, and
for the tunables, which the pass reads once. It is not the whole truth about `schedp.sched_alert`:
the aging loop tests the alert without a lock, takes `schedp.lock` to raise it, and
`setschedparam`, which needs only `schedp.lock`, can come in anywhere.

`Fine` is the same machine with the aging loop taken apart. While a pass is on, `ptable.lock` is
held and the CPU it runs on takes no interrupts; every other step may happen in between.
`run_lift` is the connection: an uninterrupted fine pass does what the pass of `Machine` does, so
each run of `Machine` is a run of `Fine`.
-/

namespace Xv6.Sched

open Transition

variable {ncpu : Nat}

/-- A pass between its boost and its selection. -/
structure PassAt (ncpu : Nat) where
  cpu : Fin ncpu
  snap : Snap
  /-- What is left of the aging loop. -/
  todo : List Slot
  /-- The unlocked test has found the alert clear; raising it under the lock comes next. -/
  raising : Bool

/-- The machine, and the pass that is on. -/
structure Fine (ncpu : Nat) extends Machine ncpu where
  pass : Option (PassAt ncpu)

/-- The steps: a pass in pieces, and the steps of `Machine` other than the pass. -/
inductive FineEvent (ncpu : Nat) where
  | start (c : Fin ncpu)
  | age
  | raise
  | finish
  | other (e : Event ncpu)

/-- The event is a whole pass. -/
def Event.isPass : Event ncpu → Bool
  | .pass _ => true
  | _ => false

namespace Fine

/-- A machine with no pass on. -/
def ofMachine (m : Machine ncpu) : Fine ncpu := ⟨m, none⟩

def boot (ncpu : Nat) : Fine ncpu := ofMachine (Machine.boot ncpu)

/-- One step. -/
def step (f : Fine ncpu) : FineEvent ncpu → Option (Fine ncpu)
  | .start c =>
    if f.toMachine.Enabled (.pass c) ∧ f.pass.isNone then
      some
        { toMachine := { f.toMachine.onKernel (boost f.schedp.snap) with ptableLocked := true }
          pass := some ⟨c, f.schedp.snap, List.finRange NPROC, false⟩ }
    else none
  | .age =>
    match f.pass with
    | some ⟨c, snap, i :: todo, false⟩ =>
      some
        { toMachine := f.toMachine.setProc i (f.proc i).aged
          pass := some ⟨c, snap, todo, (f.proc i).aged.starving ∧ f.schedp.schedAlert = 0⟩ }
    | _ => none
  | .raise =>
    match f.pass with
    | some ⟨c, snap, todo, true⟩ =>
      some { toMachine := f.toMachine.onKernel raiseAlert, pass := some ⟨c, snap, todo, false⟩ }
    | _ => none
  | .finish =>
    match f.pass with
    | some ⟨c, snap, [], false⟩ =>
      some
        { toMachine :=
            { f.toMachine.onKernel (fun k => (selectDispatch snap k).1) with
              cpu := Function.update f.cpu c (selectDispatch snap f.toKernel).2
              ptableLocked := false }
          pass := none }
    | _ => none
  | .other e =>
    if !e.isPass ∧ ∀ p ∈ f.pass, e.trapCpu ≠ some p.cpu then
      (f.toMachine.step e).map fun m => { f with toMachine := m }
    else none

abbrev run (f : Fine ncpu) (es : List (FineEvent ncpu)) : Option (Fine ncpu) :=
  Transition.run step f es

/-! ## Uninterrupted passes -/

/-- The aging loop over `l`, with a raise wherever the test asks for one. -/
def ageEvents : Kernel → List Slot → List (FineEvent ncpu)
  | _, [] => []
  | k, i :: l =>
    if (k.proc i).aged.starving ∧ k.schedp.schedAlert = 0 then
      .age :: .raise :: ageEvents (ageSlot k i) l
    else .age :: ageEvents (ageSlot k i) l

/-- The pieces of one step of `Machine`. -/
def pieces (m : Machine ncpu) : Event ncpu → List (FineEvent ncpu)
  | .pass c => .start c ::
      (ageEvents (boost m.schedp.snap m.toKernel) (List.finRange NPROC) ++ [.finish])
  | e => [.other e]

/-- The pieces of a run. -/
def lift (m : Machine ncpu) : List (Event ncpu) → List (FineEvent ncpu)
  | [] => []
  | e :: es => pieces m e ++ lift (m.effect e) es

/-- The aging loop one access at a time is the aging loop. -/
theorem run_ageEvents (m : Machine ncpu) (c : Fin ncpu) (snap : Snap) (l : List Slot) (k : Kernel) :
    run ⟨{ m with toKernel := k }, some ⟨c, snap, l, false⟩⟩ (ageEvents k l) =
      some ⟨{ m with toKernel := l.foldl ageSlot k }, some ⟨c, snap, [], false⟩⟩ := by
  induction l generalizing k with
  | nil => rfl
  | cons i l ih =>
    rw [List.foldl_cons, ← ih, ageEvents]
    by_cases h : (k.proc i).aged.starving ∧ k.schedp.schedAlert = 0
    · have hk : ageSlot k i = raiseAlert (k.setProc i (k.proc i).aged) := if_pos h
      rw [if_pos h, hk]
      simp [run, Transition.run, step, h]
    · have hk : ageSlot k i = k.setProc i (k.proc i).aged := if_neg h
      rw [if_neg h, hk]
      simp [run, Transition.run, step, h]

theorem run_loop (m : Machine ncpu) (c : Fin ncpu) (snap : Snap) (l : List Slot) (k : Kernel) :
    run ⟨{ m with toKernel := k }, some ⟨c, snap, l, false⟩⟩ (ageEvents k l ++ [.finish]) =
      some (ofMachine { m with
        toKernel := (selectDispatch snap (l.foldl ageSlot k)).1
        cpu := Function.update m.cpu c (selectDispatch snap (l.foldl ageSlot k)).2
        ptableLocked := false }) :=
  run_append_iff.mpr ⟨_, run_ageEvents m c snap l k, rfl⟩

variable {m m' : Machine ncpu}

theorem run_pass {c : Fin ncpu} (he : m.Enabled (.pass c)) :
    (ofMachine m).run (pieces m (.pass c)) = some (ofMachine (m.effect (.pass c))) := by
  have hstart : (ofMachine m).step (.start c) =
      some ⟨{ m with toKernel := boost m.schedp.snap m.toKernel, ptableLocked := true },
        some ⟨c, m.schedp.snap, List.finRange NPROC, false⟩⟩ := if_pos ⟨he, rfl⟩
  have hloop := run_loop { m with ptableLocked := true } c m.schedp.snap (List.finRange NPROC)
    (boost m.schedp.snap m.toKernel)
  have hlock : m.ptableLocked = false := he.2.2
  rw [pieces, run, Transition.run, hstart, Option.bind_some]
  rw [run] at hloop
  rw [hloop, ← age_eq]
  simp [Machine.effect, scheduler, hlock]

/-- With no pass on, the other steps are those of the machine. -/
theorem step_other {e : Event ncpu} (he : m.step e = some m') (hpass : e.isPass = false) :
    (ofMachine m).step (.other e) = some (ofMachine m') := by
  simp [step, ofMachine, hpass, he]

/-- **An uninterrupted pass is the pass**, and the other steps are taken over as they are. -/
theorem run_pieces {e : Event ncpu} (he : m.Enabled e) :
    (ofMachine m).run (pieces m e) = some (ofMachine (m.effect e)) := by
  by_cases hp : ∃ c, e = .pass c
  · obtain ⟨c, rfl⟩ := hp
    exact run_pass he
  · have hpass : e.isPass = false := by
      cases e with
      | pass c => exact absurd ⟨c, rfl⟩ hp
      | _ => rfl
    have hpieces : pieces m e = [.other e] := by
      cases e with
      | pass c => exact absurd ⟨c, rfl⟩ hp
      | _ => rfl
    rw [hpieces]
    exact run_cons_iff.mpr
      ⟨_, step_other (Machine.step_of_enabled he) hpass, rfl⟩

theorem run_lift {es : List (Event ncpu)} (h : m.run es = some m') :
    (ofMachine m).run (lift m es) = some (ofMachine m') := by
  induction es generalizing m with
  | nil =>
    cases h
    rfl
  | cons e es ih =>
    obtain ⟨t, ht, hrest⟩ := run_cons_iff.mp h
    obtain ⟨he, rfl⟩ := Machine.step_eq_some.mp ht
    exact run_append_iff.mpr ⟨_, run_pieces he, ih hrest⟩

end Fine

end Xv6.Sched
