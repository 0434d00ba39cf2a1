import Xv6.Agent.Signals
import Xv6.Sched.Tunables

/-!
# The agent's system call

At the end of each epoch the agent fills in a `struct sched_update` on its stack and passes it to
`setschedparam`. It assigns seven of the eight fields. The eighth, `rr_mode`, is whatever the stack
held before, and the kernel takes it for the scheduling mode the agent asks for.

The seven assigned fields always pass the kernel's tests (`Policy.Good.accepted`), so what happens
to the call depends on the eighth alone.
-/

namespace Xv6.Agent

open Sched Sched.Machine

variable {ncpu : Nat} {m : Machine ncpu} {c : Fin ncpu} {i : Slot} {updAddr : Nat}
  {upd : SchedUpdate}

/-- The policy after a history of telemetry buffers. -/
def Policy.afterTelemetry (history : List (List Schedstat)) : Policy :=
  history.foldl (fun p stats => (p.observe (some stats)).1) Policy.init

theorem Policy.Good.observe {p : Policy} (h : p.Good) (result : Option (List Schedstat)) :
    (p.observe result).1.Good := by
  unfold Policy.observe
  split
  · exact (h.next _).good
  · exact h

theorem Policy.afterTelemetry_good (history : List (List Schedstat)) :
    (Policy.afterTelemetry history).Good :=
  Potential.foldl_invariant (fun _ stats h => h.observe (some stats)) Policy.init_good history

/-- Process `i` is the registered agent, and its `upd` lies in its own memory. -/
structure CanActuate (m : Machine ncpu) (i : Slot) (updAddr : Nat) : Prop where
  agent : m.schedp.agentPid ≠ 0 ∧ (m.proc i).pid = m.schedp.agentPid
  address : PGSIZE ≤ updAddr ∧ addr64 (updAddr + sizeofSchedUpdate) ≤ (m.proc i).sz

/-- The call of process `i` with `upd` that begins in `m` returns 0 and leaves `rr_mode` as it is
in `m`: it gets past its tests, and whatever runs before it has the lock, its write returns 0 and
stores the mode that was there. -/
def CallKeepsMode (m : Machine ncpu) (c : Fin ncpu) (i : Slot) (updAddr : Nat) (upd : SchedUpdate) :
    Prop :=
  (m.effect (.setparamTest c i updAddr upd)).Enabled (.setparamWrite c i upd) ∧
  ∀ es m' c', (m.effect (.setparamTest c i updAddr upd)).run es = some m' →
    m'.Enabled (.setparamWrite c' i upd) → m'.Returns (.setparamWrite c' i upd) i 0 ∧
      (m'.effect (.setparamWrite c' i upd)).schedp.rrMode = m.schedp.rrMode

/-- **The mode the agent happens to pass decides**: for a policy in range, the call succeeds and
keeps the mode exactly when the stale word is the mode in force. -/
theorem callKeepsMode_iff (h : m.Reachable) (he : m.Enabled (.setparamTest c i updAddr upd))
    (hcan : CanActuate m i updAddr) {p : Policy} (hp : p.Good) {stale : Int}
    (hupd : upd = p.update stale) :
    CallKeepsMode m c i updAddr upd ↔ stale = m.schedp.rrMode := by
  have hrr : upd.rrMode = stale := by rw [hupd]; rfl
  constructor
  · rintro ⟨hen, hall⟩
    -- Nobody else moves: the write follows at once and stores the stale word.
    obtain ⟨-, hkept⟩ := hall [] _ c rfl hen
    exact hrr.symm.trans hkept
  · intro hstale
    have hacc : upd.Accepted := by
      rw [hupd]
      exact hp.accepted (hstale ▸ h.inBounds.tunables.rr_bit)
    refine ⟨(setparamTest_enables he).mpr
      (setschedparamTest_iff.mpr ⟨hcan.agent, hcan.address, hacc⟩), fun es m' c' _ _ => ?_⟩
    refine ⟨⟨rfl, by simp [effect], by simp [effect]⟩, ?_⟩
    exact hrr.trans hstale

/-- **Actuation works exactly on the stacks that hold the mode already.** For every telemetry
history, the agent's call returns 0 and leaves the scheduling mode alone if and only if the word
under `upd.rr_mode` equals `schedp.rr_mode`. -/
theorem actuation_keeps_mode_iff (h : m.Reachable) (hcan : CanActuate m i updAddr)
    (history : List (List Schedstat)) (stale : Int)
    (he : m.Enabled (.setparamTest c i updAddr ((Policy.afterTelemetry history).update stale))) :
    CallKeepsMode m c i updAddr ((Policy.afterTelemetry history).update stale) ↔
      stale = m.schedp.rrMode :=
  callKeepsMode_iff h he hcan (Policy.afterTelemetry_good history) rfl

/-- Init registers as the agent. -/
def registerSession : List (Event 1) :=
  [.pass 0, .registerTest 0 0, .registerLock 0 0, .registerPin 0 0]

theorem registerSession_run : ∃ m ∈ (boot 1).run registerSession,
    CanActuate m 0 4096 ∧ m.At 0 0 .elsewhere ∧ m.schedp.rrMode = 0 := by
  have hrun : ∃ m ∈ (boot 1).run registerSession,
      ((m.schedp.agentPid ≠ 0 ∧ (m.proc 0).pid = m.schedp.agentPid) ∧
        PGSIZE ≤ 4096 ∧ addr64 (4096 + sizeofSchedUpdate) ≤ (m.proc 0).sz) ∧
      m.At 0 0 .elsewhere ∧ m.schedp.rrMode = 0 := by decide +kernel
  obtain ⟨m, hm, ⟨hagent, haddr⟩, hrest⟩ := hrun
  exact ⟨m, hm, ⟨hagent, haddr⟩, hrest⟩

/-- In its first epoch the agent can be refused, and it can switch the kernel to round robin:
both happen with nothing but another word on the stack. -/
theorem stale_mode_breaks_actuation : ∃ m : Machine 1, m.Reachable ∧ CanActuate m 0 4096 ∧
    m.schedp.rrMode = 0 ∧
    m.Returns (.setparamTest 0 0 4096 ((Policy.afterTelemetry []).update 2)) 0 (-1) ∧
    ¬ CallKeepsMode m 0 0 4096 ((Policy.afterTelemetry []).update 2) ∧
    ¬ CallKeepsMode m 0 0 4096 ((Policy.afterTelemetry []).update 1) := by
  obtain ⟨m, hm, hcan, hat, hrr⟩ := registerSession_run
  have hreach : m.Reachable := ⟨_, hm⟩
  have hno : ∀ stale : Int, stale ≠ 0 →
      ¬ CallKeepsMode m 0 0 4096 ((Policy.afterTelemetry []).update stale) := by
    intro stale hne hkeeps
    exact hne ((callKeepsMode_iff hreach hat hcan (Policy.afterTelemetry_good []) rfl).mp hkeeps
      |>.trans hrr)
  refine ⟨m, hreach, hcan, hrr, ?_, hno 2 (by decide), hno 1 (by decide)⟩
  have hrej :
      setschedparamTest m.toKernel 0 4096 ((Policy.afterTelemetry []).update 2) = false := by
    have : ((Policy.afterTelemetry []).update 2).rejected = true := by decide
    simp [setschedparamTest, setschedparamReads, this]
  exact ⟨rfl, by simp [effect, hrej], by simp [effect, hrej]⟩

theorem registerSession_actuates : ∃ m ∈ (boot 1).run registerSession,
    CallKeepsMode m 0 0 4096 ((Policy.afterTelemetry []).update 0) := by
  obtain ⟨m, hm, hcan, hat, hrr⟩ := registerSession_run
  exact ⟨m, hm, (actuation_keeps_mode_iff ⟨_, hm⟩ hcan [] 0 hat).mpr hrr.symm⟩

end Xv6.Agent
