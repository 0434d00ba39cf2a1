import Xv6.Sched.Step

/-!
# The parameter block

`pinit` fills `schedp` with values that pass the tests of `sys_setschedparam`, and the write under
`schedp.lock` is the only one that ever replaces them. So the bounds hold of every reachable
machine, which is what `scheduler()` relies on when it divides by `aging_factor` and loads
`ticks_remaining` from a quantum without checking either.

The tests are made before the lock is taken, on memory that only the caller can write. That is why
the invariant also speaks about the updates still waiting for the lock.
-/

namespace Xv6.Sched

variable {s : SchedParams}

theorem SchedUpdate.Accepted.quantum_pos (h : s.toSchedUpdate.Accepted) (level : Int) :
    0 < s.snap.quantum level := by
  obtain ⟨_, _, _, _, _, _, _, _, _, _, _, _, _, _, _⟩ := h
  unfold Snap.quantum
  simp only [SchedParams.snap_q0, SchedParams.snap_q1, SchedParams.snap_q2]
  split_ifs <;> omega

theorem SchedUpdate.Accepted.quantum_le (h : s.toSchedUpdate.Accepted) (level : Int) :
    s.snap.quantum level ≤ 40 := by
  obtain ⟨_, _, _, _, _, _, _, _, _, _, _, _, _, _, _⟩ := h
  unfold Snap.quantum
  simp only [SchedParams.snap_q0, SchedParams.snap_q1, SchedParams.snap_q2]
  split_ifs <;> omega

theorem SchedUpdate.Accepted.aging_ne_zero (h : s.toSchedUpdate.Accepted) : s.snap.aging ≠ 0 := by
  have := h.aging_pos
  simp only [SchedParams.snap_aging]
  omega

namespace Machine

variable {ncpu : Nat} {m : Machine ncpu} {e : Event ncpu}

/-- The block is within bounds, and so is every update that is about to replace it. -/
structure InBounds (m : Machine ncpu) : Prop where
  tunables : m.schedp.toSchedUpdate.Accepted
  pending : ∀ i upd, m.ctl i = .setting upd → upd.Accepted

theorem boot_inBounds : (boot ncpu).InBounds where
  tunables := pinit_accepted
  pending := by simp [boot]

theorem InBounds.effect (h : m.InBounds) (he : m.Enabled e) : (m.effect e).InBounds where
  tunables := by
    by_cases hw : ∃ c i upd, e = .setparamWrite c i upd
    · obtain ⟨c, i, upd, rfl⟩ := hw
      exact h.pending i upd he.2.2
    · rw [effect_tunables fun c i upd he => hw ⟨c, i, upd, he⟩]
      exact h.tunables
  pending := by
    intro i upd hi
    have hctl := effect_ctl he i
    generalize (m.effect e).ctl i = x at hi hctl
    cases hctl with
    | same => exact h.pending i upd hi
    | accepted _ ht =>
      cases hi
      exact (setschedparamTest_iff.mp ht).2.2
    | _ => cases hi

theorem Reachable.inBounds (h : m.Reachable) : m.InBounds :=
  h.induction boot_inBounds fun _ _ hm he => hm.effect he

/-- Step `e` of process `i` returns `v` from the system call the process is in. -/
def Returns (m : Machine ncpu) (e : Event ncpu) (i : Slot) (v : Int) : Prop :=
  e.caller = some i ∧ (m.effect e).ctl i = .elsewhere ∧ (m.effect e).rax i = v

variable {c : Fin ncpu} {i : Slot} {updAddr : Nat} {upd : SchedUpdate}

/-- A call goes on to write exactly when it gets past its tests. -/
theorem setparamTest_enables (he : m.Enabled (.setparamTest c i updAddr upd)) :
    (m.effect (.setparamTest c i updAddr upd)).Enabled (.setparamWrite c i upd) ↔
      setschedparamTest m.toKernel i updAddr upd = true := by
  by_cases ht : setschedparamTest m.toKernel i updAddr upd = true
  · simpa [Enabled, effect, ht, At] using ⟨he.1, he.2.1⟩
  · simp [Enabled, effect, ht, At]

/-- A `setschedparam` that fails does so at its tests, before the lock. -/
theorem setparamTest_returns {v : Int} (h : m.Returns (.setparamTest c i updAddr upd) i v) :
    v = -1 ∧ (m.effect (.setparamTest c i updAddr upd)).toKernel = m.toKernel := by
  obtain ⟨-, hctl, hrax⟩ := h
  by_cases ht : setschedparamTest m.toKernel i updAddr upd = true
  · simp [effect, ht] at hctl
  · simp only [effect, ht] at hrax ⊢
    exact ⟨by simpa using hrax.symm, rfl⟩

theorem setparamWrite_returns {v : Int} (h : m.Returns (.setparamWrite c i upd) i v) : v = 0 := by
  obtain ⟨-, -, hrax⟩ := h
  simpa [effect] using hrax.symm

/-- **The parameter block is always within the bounds that `setschedparam` checks**, a call that
returns `-1` changes no field of it, and the next pass divides by a non-zero aging factor and hands
out positive quanta. -/
theorem reachable_schedp_within_bounds (h : m.Reachable) :
    m.schedp.toSchedUpdate.Accepted ∧
    (∀ c i updAddr upd, ∀ e ∈ [Event.setparamTest c i updAddr upd, .setparamWrite c i upd],
      m.Enabled e → m.Returns e i (-1) → (m.effect e).schedp = m.schedp) ∧
    m.schedp.snap.aging ≠ 0 ∧ ∀ level, 0 < m.schedp.snap.quantum level := by
  have hacc := h.inBounds.tunables
  refine ⟨hacc, ?_, hacc.aging_ne_zero, hacc.quantum_pos⟩
  intro c i updAddr upd e hmem _ hret
  rcases List.mem_pair.mp hmem with rfl | rfl
  · rw [(setparamTest_returns hret).2]
  · exact absurd (setparamWrite_returns hret) (by decide)

/-- Init registers as the agent, switches to round robin, and is refused a zero quantum. -/
def boundsSession : List (Event 1) :=
  [.pass 0, .registerTest 0 0, .registerLock 0 0, .registerPin 0 0,
    .setparamTest 0 0 4096 { pinit.toSchedUpdate with rrMode := 1 },
    .setparamWrite 0 0 { pinit.toSchedUpdate with rrMode := 1 },
    .setparamTest 0 0 4096 { pinit.toSchedUpdate with q0Quantum := 0 }]

theorem boundsSession_within_bounds : ∃ m ∈ (boot 1).run boundsSession,
    m.rax 0 = -1 ∧ m.schedp.rrMode = 1 ∧ m.schedp.toSchedUpdate.Accepted := by
  have hrun : ∃ m ∈ (boot 1).run boundsSession, m.rax 0 = -1 ∧ m.schedp.rrMode = 1 := by
    decide +kernel
  obtain ⟨m, hm, hrax, hrr⟩ := hrun
  exact ⟨m, hm, hrax, hrr, (reachable_schedp_within_bounds ⟨_, hm⟩).1⟩

end Machine

end Xv6.Sched
