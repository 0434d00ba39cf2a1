import Xv6.Sched.AgentSlot

/-!
# Queue levels

`queue_level` is written in four places: `allocproc`, the priority boost, `kern_pin_agent` and the
demotion in the timer trap. The first three set it to 0 and the fourth adds one below 2, so the
level is a function of the process's past: how often its quantum ran out since the last reset,
not counting what happened while it was the agent. `LevelHist` records that past alongside a run
and `LevelInv` ties the two together.
-/

namespace Xv6.Sched

open Transition

variable {ncpu : Nat}

/-- `p` is the registered agent. -/
def SchedParams.isAgent (s : SchedParams) (p : Proc) : Bool := s.agentPid ≠ 0 ∧ p.pid = s.agentPid

theorem demotable_eq (s : SchedParams) (p : Proc) :
    demotable s p = (decide (p.queueLevel < 2) && !s.isAgent p) := by
  simp [demotable, SchedParams.isAgent]

/-- The telemetry update demotes a process when its quantum runs out, unless it is the agent. -/
theorem Proc.telemetry_queueLevel (s : SchedParams) (now : Int) (p : Proc) :
    (p.telemetry s now).queueLevel =
      if p.expires ∧ ¬ s.isAgent p ∧ p.queueLevel < 2 then p.queueLevel + 1 else p.queueLevel := by
  by_cases he : p.expires
  · have hd : demotable s p.ticked = demotable s p := rfl
    rw [Proc.telemetry_of_expires he]
    simp only [Proc.expired, hd, demotable_eq]
    simp [he, Proc.ticked, and_comm]
  · have hno : ¬ (p.expires ∧ ¬ s.isAgent p ∧ p.queueLevel < 2) := fun h => he h.1
    rw [Proc.telemetry_of_not_expires he, if_neg hno]
    split <;> rfl

/-- History: quantum expiries since the last reset, and who is a registered agent. -/
structure LevelHist where
  expiries : Slot → Nat
  /-- `register_agent` has returned 0 and the process has not given the slot back in `exit`. -/
  registered : Slot → Bool

/-- Nothing has happened yet. -/
def LevelHist.start : LevelHist := ⟨fun _ => 0, fun _ => false⟩

/-- What a step adds to the history. -/
def LevelHist.update (g : LevelHist) (m : Machine ncpu) : Event ncpu → LevelHist
  | .forkAlloc _ _ =>
    match freeSlot m.proc with
    | some np =>
      { expiries := Function.update g.expiries np 0
        registered := Function.update g.registered np false }
    | none => g
  | .pass _ =>
    if boostDue m.schedp.snap m.toKernel then
      { g with expiries := fun i => if (m.proc i).state = .unused then g.expiries i else 0 }
    else g
  | .telemetry c _ =>
    match m.cpu c with
    | some i =>
      if (m.proc i).expires ∧ ¬ m.schedp.isAgent (m.proc i) then
        { g with expiries := Function.update g.expiries i (g.expiries i + 1) }
      else g
    | none => g
  | .registerPin _ i =>
    { expiries := Function.update g.expiries i 0
      registered := Function.update g.registered i true }
  | .exitRelease _ i => { g with registered := Function.update g.registered i false }
  | _ => g

namespace Machine

variable {m : Machine ncpu} {e : Event ncpu} {g : LevelHist}

/-- The level is what the history says, and a registered agent has no expiries to show for. -/
structure LevelInv (m : Machine ncpu) (g : LevelHist) : Prop where
  level : ∀ i, (m.proc i).state ≠ .unused → (m.proc i).queueLevel = min 2 (g.expiries i : Int)
  agent : ∀ i, g.registered i = true → (m.proc i).state.live ∧ m.ctl i ≠ .released ∧
    (m.proc i).pid = m.schedp.agentPid ∧ g.expiries i = 0

/-- A step not aimed at a process adds nothing to its expiries. -/
theorem LevelHist.update_of_not_targets {j : Slot} (hT : ¬ m.Targets j e) :
    (g.update m e).expiries j = g.expiries j := by
  cases e with
  | pass => exact absurd trivial hT
  | forkAlloc c i =>
    simp only [LevelHist.update]
    split
    · next np hnp =>
        exact Function.update_of_ne (fun h => hT (by rw [h]; exact hnp)) _ _
    · rfl
  | telemetry c u =>
    simp only [LevelHist.update]
    split
    · next i hi =>
        split
        · exact Function.update_of_ne (fun h => hT (by rw [h]; exact hi)) _ _
        · rfl
    · rfl
  | registerPin c i => exact Function.update_of_ne hT _ _
  | _ => rfl

/-- One step of the level equation. -/
theorem LevelInv.effect_level (h : m.LevelInv g) (hw : m.WF) (he : m.Enabled e) (j : Slot)
    (hj : ((m.effect e).proc j).state ≠ .unused) :
    ((m.effect e).proc j).queueLevel = min 2 ((g.update m e).expiries j : Int) := by
  have hs := effect_slot he j
  generalize (m.effect e).proc j = p at hj hs
  by_cases hused : (m.proc j).state = .unused
  · obtain ⟨hfree, ⟨c, i, rfl⟩, rfl⟩ := hw.used_slot hs hj hused
    simp [LevelHist.update, hfree, allocproc]
  have hlevel := h.level j hused
  cases hs with
  | stirred hT hs =>
    rw [LevelHist.update_of_not_targets hT, ← hlevel]
    exact hs.frame Proc.queueLevel fun _ _ _ _ _ _ => rfl
  | passed =>
    rw [pass_queueLevel]
    simp only [LevelHist.update]
    by_cases hb : boostDue m.schedp.snap m.toKernel
    · simp [hb, hused]
    · simp only [hb, Bool.false_eq_true, false_and, if_false]
      exact hlevel
  | counted hc =>
    rw [Proc.telemetry_queueLevel]
    simp only [LevelHist.update, hc]
    by_cases hx : (m.proc j).expires ∧ ¬ m.schedp.isAgent (m.proc j)
    · rw [if_pos hx, hlevel]
      simp only [Function.update_self]
      split
      · omega
      · next hno =>
          have : ¬ min 2 (g.expiries j : Int) < 2 := fun hlt => hno ⟨hx.1, hx.2, hlt⟩
          omega
    · rw [if_neg hx, if_neg (fun h => hx ⟨h.1, h.2.1⟩)]
      exact hlevel
  | pinned => simp [LevelHist.update]
  | allocated hfree => exact absurd (freeSlot_unused hfree) hused
  | exited _ _ hs => exact (hs.frame Proc.queueLevel fun _ _ _ _ _ _ => rfl).trans hlevel
  | aborted | reaped => exact absurd rfl hj
  | made | yielded | resized | slept | waited | faulted => exact hlevel

/-- The registered agent has no expiries, and no step gives it one. -/
theorem LevelHist.update_expiries_zero {i : Slot} (hz : g.expiries i = 0)
    (ha : m.schedp.isAgent (m.proc i)) : (g.update m e).expiries i = 0 := by
  cases e with
  | pass c =>
    simp only [LevelHist.update]
    split
    · simp [hz]
    · exact hz
  | forkAlloc c j =>
    simp only [LevelHist.update]
    split
    · simp [Function.update_apply, hz]
    · exact hz
  | telemetry c u =>
    simp only [LevelHist.update]
    split
    · next j _ =>
        split
        · next hx =>
            have hne : i ≠ j := by
              rintro rfl
              exact hx.2 ha
            simp [Function.update_of_ne hne, hz]
        · exact hz
    · exact hz
  | registerPin c j => simp [LevelHist.update, Function.update_apply, hz]
  | _ => exact hz

/-- A process is registered after a step because it was, and did not give the slot back, or
because its `register_agent` just returned. -/
theorem LevelHist.registered_of_update {i : Slot} (h : (g.update m e).registered i = true) :
    (g.registered i = true ∧ ∀ c, e ≠ .exitRelease c i) ∨ ∃ c, e = .registerPin c i := by
  cases e with
  | forkAlloc c j =>
    simp only [LevelHist.update] at h
    split at h
    · simp only [Function.update_apply] at h
      split at h
      · cases h
      · exact .inl ⟨h, by simp⟩
    · exact .inl ⟨h, by simp⟩
  | pass c =>
    simp only [LevelHist.update] at h
    split at h <;> exact .inl ⟨h, by simp⟩
  | telemetry c u =>
    simp only [LevelHist.update] at h
    split at h
    · split at h <;> exact .inl ⟨h, by simp⟩
    · exact .inl ⟨h, by simp⟩
  | registerPin c j =>
    simp only [LevelHist.update, Function.update_apply] at h
    split at h
    · next hij => exact .inr ⟨c, by rw [hij]⟩
    · exact .inl ⟨h, by simp⟩
  | exitRelease c j =>
    simp only [LevelHist.update, Function.update_apply] at h
    split at h
    · cases h
    · next hij => exact .inl ⟨h, fun c' heq => hij (by cases heq; rfl)⟩
  | _ => exact .inl ⟨h, by simp⟩

theorem LevelInv.effect (h : m.LevelInv g) (hm : m.AgentInv) (he : m.Enabled e) :
    (m.effect e).LevelInv (g.update m e) where
  level := h.effect_level hm.wf he
  agent := by
    intro i hi
    rcases LevelHist.registered_of_update hi with ⟨hreg, hnr⟩ | ⟨c, rfl⟩
    · obtain ⟨hlive, hrel, hpid, hz⟩ := h.agent i hreg
      obtain ⟨hlive', hpid'⟩ := hm.wf.effect_live_pid he hlive
        (by rintro c rfl; exact hrel he.2.2)
      have hpos := (hm.pids.range i (live_ne_unused hlive)).1
      have hisAgent : m.schedp.isAgent (m.proc i) = true := by
        simp only [SchedParams.isAgent, decide_eq_true_eq]
        exact ⟨by omega, hpid⟩
      refine ⟨hlive', fun hrel' => ?_, ?_, LevelHist.update_expiries_zero hz hisAgent⟩
      · rcases released_of_effect he hrel' with ⟨hold, -⟩ | ⟨c, rfl⟩
        · exact hrel hold
        · exact hnr c rfl
      · rw [hpid', hpid]
        exact (hm.pids.effect_agentPid_eq hm.wf he hlive hpid hnr).symm
    · obtain ⟨hlive', hpid'⟩ := hm.wf.effect_live_pid he
        (by rw [hm.wf.cpu_running c i he.1.1]; trivial) (by simp)
      refine ⟨hlive', by simp [Machine.effect], ?_, by simp [LevelHist.update]⟩
      rw [hpid', effect_frame (·.schedp.agentPid) (fun _ _ => rfl) rfl]
      exact hm.held.acting i (by rw [he.1.2.2]; trivial)

theorem boot_levelInv : (boot ncpu).LevelInv .start where
  level := by
    intro i _
    simp only [boot, bootKernel, allocproc, Kernel.setProc_proc, LevelHist.start]
    split_ifs <;> simp [Proc.zero]
  agent := by simp [LevelHist.start]

theorem run_levelInv {es : List (Event ncpu)} (h : (boot ncpu).run es = some m) :
    m.LevelInv (track step LevelHist.update (boot ncpu) .start es) := by
  refine (run_track (I := fun m g => m.AgentInv ∧ m.LevelInv g) ?_ h
    allowed_true ⟨Reachable.agentInv ⟨[], rfl⟩, boot_levelInv⟩).2
  rintro s g e s' ⟨hs, hg⟩ - hse
  obtain ⟨hen, rfl⟩ := step_eq_some.mp hse
  exact ⟨hs.effect hen, hg.effect hs hen⟩

/-- Giving up the CPU moves nobody between queues. -/
theorem givesUp_queueLevel (he : m.Enabled e)
    (hg : (∃ c i chan, e = .sleep c i chan) ∨ ∃ c i, e = .waitSleep c i) (j : Slot) :
    ((m.effect e).proc j).queueLevel = (m.proc j).queueLevel := by
  have hs := effect_slot he j
  generalize (m.effect e).proc j = p at hs
  rcases hg with ⟨c, i, chan, rfl⟩ | ⟨c, i, rfl⟩
  · cases hs with
    | stirred _ hs => exact hs.frame Proc.queueLevel fun _ _ _ _ _ _ => rfl
    | slept => rfl
  · cases hs with
    | stirred _ hs => exact hs.frame Proc.queueLevel fun _ _ _ _ _ _ => rfl
    | waited => rfl

/-- **The queue level is a function of the past**: the number of quanta a process has used up
since its last reset without being the agent, cut off at 2. Sleeping does not change it, and a
registered agent is at level 0. -/
theorem queueLevel_is_history {es : List (Event ncpu)} (h : (boot ncpu).run es = some m) :
    let g := track step LevelHist.update (boot ncpu) .start es
    (∀ i, (m.proc i).state ≠ .unused →
      (m.proc i).queueLevel = min 2 (g.expiries i : Int) ∧
        ((m.proc i).queueLevel = 0 ∨ (m.proc i).queueLevel = 1 ∨ (m.proc i).queueLevel = 2)) ∧
    (∀ e, m.Enabled e → ((∃ c i chan, e = .sleep c i chan) ∨ ∃ c i, e = .waitSleep c i) →
      ∀ j, ((m.effect e).proc j).queueLevel = (m.proc j).queueLevel) ∧
    ∀ i, g.registered i = true →
      (m.proc i).pid = m.schedp.agentPid ∧ (m.proc i).queueLevel = 0 := by
  intro g
  have hinv := run_levelInv h
  refine ⟨fun i hi => ?_, fun e he hg j => givesUp_queueLevel he hg j, fun i hi => ?_⟩
  · have hlevel := hinv.level i hi
    exact ⟨hlevel, by omega⟩
  · obtain ⟨hlive, -, hpid, hz⟩ := hinv.agent i hi
    have hlevel := hinv.level i (live_ne_unused hlive)
    refine ⟨hpid, ?_⟩
    rw [hlevel, hz]
    rfl

/-- Init uses up a quantum of four ticks and is demoted. -/
def demotionSession : List (Event 1) :=
  [.pass 0] ++ userTick ++ userTick ++ userTick ++ userTick ++ [.pass 0]

theorem demotionSession_level : ∃ m ∈ (boot 1).run demotionSession,
    (track step LevelHist.update (boot 1) .start demotionSession).expiries 0 = 1 ∧
    (m.proc 0).state = .running ∧ (m.proc 0).queueLevel = min 2 1 := by
  have hrun : ∃ m ∈ (boot 1).run demotionSession, (m.proc 0).state = .running := by
    decide +kernel
  have hhist : (track step LevelHist.update (boot 1) .start demotionSession).expiries 0
      = 1 := by decide +kernel
  obtain ⟨m, hm, hst⟩ := hrun
  have hlevel := (queueLevel_is_history hm).1 0 (by simp [hst])
  rw [hhist] at hlevel
  exact ⟨m, hm, hhist, hst, hlevel.1⟩

end Machine

end Xv6.Sched
