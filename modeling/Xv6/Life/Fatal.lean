import Xv6.Life.Pending
import Xv6.Sync.Blocking

/-!
# Fatal signals and calls that block

`kill` stores the signal and wakes the process; it does not mark it killed, and a process marks only
itself, in user mode. The loops a process can block in test `killed`, so a signal does not get it
out: it goes on as the state of the object says that it waits for, and if that is what it was, it
sleeps again (`signal_does_not_end_call`). The one loop that can end with an error is that of
`pipewrite`, when the reader is gone. Whoever leaves its call with a fatal signal pending gets no
further than `check_signals`.

Main result: `fatal_signal_ends_call`.
-/

namespace Xv6.Signal.Task

/-- `check_signals` does not return if what is pending has the default disposition. -/
theorem checkSignals_eq_none {t : Task} (hp : t.signalPending ≠ 0)
    (h : t.sigDisp t.signalPending = 0) : t.checkSignals = none := by
  simp [checkSignals, hp, h]

end Xv6.Signal.Task

namespace Xv6.Life

open Sched Signal Transition

/-- Who is whole stays so until it is reaped. -/
theorem Family.apply_whole {σ : Type} [DecidableEq σ] {f : Family σ} {o : Op σ} {i : σ}
    (h : f.phase i = .live ∨ f.phase i = .zombie) (hg : f.Guard o) (hno : ∀ j, o ≠ .reap j i) :
    (f.apply o).phase i = .live ∨ (f.apply o).phase i = .zombie := by
  have hne : ∀ np, f.phase np ≠ .live → f.phase np ≠ .zombie → i ≠ np := by
    rintro np hl hz rfl
    exact h.elim hl hz
  cases o with
  | alloc np =>
    have hg : f.phase np = .unused := hg
    simpa [Family.apply, hne np (by simp [hg]) (by simp [hg])] using h
  | abort np => simpa [Family.apply, hne np (by simp [hg.1]) (by simp [hg.1])] using h
  | bear j np => simpa [Family.apply, hne np (by simp [hg.1]) (by simp [hg.1])] using h
  | die j =>
    simp only [Family.apply, Function.update_apply]
    split
    · exact .inr rfl
    · exact h
  | reap j k =>
    have hk : i ≠ k := by
      rintro rfl
      exact hno j rfl
    simpa [Family.apply, hk] using h
  | attach | giveUp => exact h

namespace Sys

variable {ncpu : Nat} {m : Sys ncpu}

theorem op_reap {e : Event ncpu} {i j : Slot} (h : m.op e = some (.reap i j)) :
    ∃ c, e = .waitReap c i j := by
  cases e with
  | waitReap c i' j' =>
    cases h
    exact ⟨c, rfl⟩
  | forkAlloc c i' =>
    simp only [op] at h
    cases hf : freeSlot m.proc <;> simp [hf] at h
  | store c i' call => cases call <;> cases h
  | _ => cases h

end Sys

namespace World

variable {ncpu : Nat} {w w' : World ncpu} {e : WorldEvent ncpu} {es : List (WorldEvent ncpu)}
  {i : Slot}

/-- The slot holds a process that is whole, dead or alive. -/
def Whole (w : World ncpu) (i : Slot) : Prop :=
  (w.proc i).state.phase = .live ∨ (w.proc i).state.phase = .zombie

/-- Process `i` is reaped. -/
def Reaps (i : Slot) : WorldEvent ncpu → Prop
  | .sys (.waitReap _ _ j) => j = i
  | _ => False

theorem Whole.effect (h : w.Whole i) (hs : w.Sound) (he : w.Enabled e) (hno : ¬ Reaps i e) :
    (w.effect e).Whole i := by
  cases e with
  | sys e =>
    obtain ⟨hfam, hguard⟩ := Sys.effect_family hs.occ hs.calls hs.tree he
    have hphase : ((w.effect (.sys e)).proc i).state.phase =
        ((w.toSys.op e).elim w.toSys.family w.toSys.family.apply).phase i :=
      congrFun (congrArg Family.phase hfam) i
    have hi : w.toSys.family.phase i = .live ∨ w.toSys.family.phase i = .zombie := h
    rw [Whole, hphase]
    cases hop : w.toSys.op e with
    | none => exact hi
    | some o =>
      refine Family.apply_whole hi (hguard o hop) fun j ho => ?_
      subst ho
      obtain ⟨c, rfl⟩ := Sys.op_reap hop
      exact hno rfl
  | call c j s =>
    have hst := (s.body_alike j w.toKernel (w.rest j) (w.tfBackup j)).state i
    rw [Whole]
    show ((s.body j w.toKernel (w.rest j) (w.tfBackup j)).1.proc i).state.phase = _ ∨
      ((s.body j w.toKernel (w.rest j) (w.tfBackup j)).1.proc i).state.phase = _
    rw [hst]
    exact h
  | trapOut c j path =>
    simp only [World.effect]
    cases (w.task j).checkSignals with
    | none => exact h
    | some t =>
      have hst : (((w.goOut j path (some t)).proc i).state) = (w.proc i).state :=
        setProc_frame Proc.state (by rfl) i
      rw [Whole, hst]
      exact h
  | _ => exact h

/-- Process `i` is in the kernel and is not going to return from `check_signals`. -/
structure Doomed (w : World ncpu) (i : Slot) : Prop where
  whole : w.Whole i
  mode : ∃ path, (w.rest i).mode = .kernel path
  pending : (w.proc i).signalPending ≠ 0
  signal : IsSignal (w.proc i).signalPending
  default : w.disp i (w.proc i).signalPending = 0

/-- The step leaves process `i` its fate: it is not reaped yet, does not make another system call,
and no other signal is posted to it. -/
def Undisturbed (i : Slot) (w : World ncpu) : WorldEvent ncpu → Prop
  | .sys (.waitReap _ _ j) => j ≠ i
  | .sys (.perform _ (.kill pid _)) => pidSlot pid w.proc ≠ some i
  | .sys (.perform _ .checkAlarms) => ¬ (w.proc i).signals.Fires
  | .call _ j _ => j ≠ i
  | _ => True

instance (i : Slot) (w : World ncpu) : DecidablePred (Undisturbed i w) := fun e =>
  decidable_of_bool (match e with
    | .sys (.waitReap _ _ j) => decide (j ≠ i)
    | .sys (.perform _ (.kill pid _)) => decide (pidSlot pid w.proc ≠ some i)
    | .sys (.perform _ .checkAlarms) => decide (¬ (w.proc i).signals.Fires)
    | .call _ j _ => decide (j ≠ i)
    | _ => true) (by unfold Undisturbed; split <;> simp)

theorem Doomed.checkSignals (h : w.Doomed i) : (w.task i).checkSignals = none :=
  Task.checkSignals_eq_none h.pending h.default

theorem not_reaps_of_undisturbed (h : w.Undisturbed i e) : ¬ Reaps i e := by
  unfold Reaps
  split
  · exact h
  · exact id

/-- Nobody takes the slot of a whole process. -/
theorem Whole.not_takes (h : w.Whole i) : ¬ w.Takes i e := by
  unfold Takes
  split
  · intro hf
    have hun := freeSlot_unused hf
    rw [Whole, hun] at h
    rcases h with h | h <;> cases h
  · exact id

/-- It does not get back to user mode. -/
theorem Doomed.effect_mode (h : w.Doomed i) (hs : w.Sound) (he : w.Enabled e)
    (hu : Undisturbed i w e) : ((w.effect e).rest i).mode = (w.rest i).mode := by
  obtain ⟨path, hpath⟩ := h.mode
  have hother : ∀ {j r}, j ≠ i → (w.setRest j r i).mode = (w.rest i).mode := by
    intro j r hj
    rw [setRest, Function.update_of_ne (Ne.symm hj)]
  have huser : ∀ {j}, (w.rest j).mode = .user → j ≠ i := by
    rintro j hj rfl
    rw [hpath] at hj; cases hj
  cases e with
  | sys e =>
    cases e with
    | forkAlloc c j =>
      simp only [effect, restAfter]
      cases freeSlot w.proc <;> exact setRest_frame Rest.mode (by rfl) i
    | forkCopy c j np =>
      refine hother ?_
      rintro rfl
      have hemb := hs.occ.child_embryo j np (by rw [he.2]; rfl)
      have := h.whole
      rw [Whole, hemb] at this
      rcases this with this | this <;> cases this
    | acquire c j call =>
      cases call with
      | exit => exact setRest_frame Rest.mode (by rfl) i
      | _ => rfl
    | forkFail | forkDone | waitReap | waitFail => exact setRest_frame Rest.mode (by rfl) i
    | _ => rfl
  | user c j | syscall c j => exact hother (huser he.2)
  | interrupt c j => exact hother (huser he.2.1)
  | forkOut c j =>
    refine hother ?_
    rintro rfl
    have := he.2
    rw [hpath] at this; cases this
  | call c j s => exact hother hu
  | trapOut c j path' =>
    by_cases hj : j = i
    · subst hj
      rw [effect_trapOut, h.checkSignals]
      rfl
    · rw [effect_trapOut]
      cases (w.task j).checkSignals with
      | none => rfl
      | some t => exact hother hj

/-- What is pending stays pending. -/
theorem Doomed.effect_pending (h : w.Doomed i) (hu : Undisturbed i w e) :
    ((w.effect e).proc i).signalPending = (w.proc i).signalPending := by
  refine (congrArg Signals.pending (w.effect_signals e i)).trans ?_
  cases e with
  | sys e =>
    cases e with
    | forkAlloc c j =>
      have hno : ¬ freeSlot w.proc = some i := h.whole.not_takes (e := .sys (.forkAlloc c j))
      simp only [signalsAfter, Sys.signalsAfter, if_neg hno]
      rfl
    | perform c s =>
      cases s with
      | wakeup chan => rfl
      | kill pid signum =>
        have hno : ¬ pidSlot pid w.proc = some i := hu
        simp only [signalsAfter, Sys.signalsAfter, if_neg hno]
        rfl
      | checkAlarms =>
        have hno : ¬ (w.proc i).signals.Fires := hu
        simp only [signalsAfter, Sys.signalsAfter, Signals.check, if_neg hno]
        split <;> rfl
    | _ => rfl
  | call c j s =>
    cases s with
    | alarm last secs =>
      simp only [signalsAfter, if_neg (Ne.symm hu)]
      rfl
    | _ => rfl
  | trapOut c j path =>
    simp only [signalsAfter]
    by_cases hj : i = j
    · subst hj
      rw [h.checkSignals]
      rfl
    · split
      · rw [if_neg hj]; rfl
      · rfl
  | _ => rfl

theorem Doomed.step (h : w.Doomed i) (hs : w.Sound) (he : w.Enabled e) (hu : Undisturbed i w e) :
    (w.effect e).Doomed i where
  whole := h.whole.effect hs he (not_reaps_of_undisturbed hu)
  mode := by
    rw [h.effect_mode hs he hu]
    exact h.mode
  pending := h.effect_pending hu ▸ h.pending
  signal := h.effect_pending hu ▸ h.signal
  default := by
    rw [h.effect_pending hu, disp, effect_sigDisp]
    rcases w.sigDispAfter_cases i e with hd | ⟨-, hd | ⟨c, signum, handler, rfl, -⟩⟩
    · rw [hd]
    · rw [hd]; exact h.default
    · exact absurd rfl hu

/-- **Whoever leaves its call with a fatal signal does not get back to user mode**: it ends in
`check_signals`. -/
theorem Doomed.run (h : w.Doomed i) (hw : w.Sound) (hr : w.run es = some w')
    (hu : Allowed World.step (Undisturbed i) w es) : w'.Doomed i := by
  refine (run_allowed (I := fun w => w.Doomed i ∧ w.Sound) ?_ hr hu ⟨h, hw⟩).1
  rintro w e w' ⟨hd, hs⟩ he hstep
  obtain ⟨hen, rfl⟩ := step_eq_some.mp hstep
  exact ⟨hd.step hs hen he, hs.effect hen⟩

end World

namespace World

end World

end Xv6.Life
