import Xv6.Sched.Wf

/-!
# Atomic traps

The machine in which a timer trap is one step: clock, telemetry update and final preemption with
nothing in between. Every run of it is a run of the full machine (`atomicStep` performs the three
events in a row), so everything proved there holds here; what is new is that the telemetry update
and the preemption see the same `ticks_remaining`. So a process is preempted exactly when the
telemetry update counted a preemption, and the two counters of a process never differ.
-/

namespace Xv6.Sched

open Transition

variable {ncpu : Nat}

/-- A step of the atomic machine: an event outside the timer trap, or a whole trap. -/
inductive Block (ncpu : Nat) where
  | one (e : Event ncpu) (h : e.trapCpu = none)
  | trap (c : Fin ncpu) (user : Bool)

/-- The events of a block. -/
def Block.events : Block ncpu → List (Event ncpu)
  | .one e _ => [e]
  | .trap c user => [.irq c user, .telemetry c user, .trapEnd c]

/-- The two counters of a process: `yield_count` and `preempt_count`. -/
def Proc.counts (p : Proc) : Int × Int := (p.yieldCount, p.preemptCount)

namespace Machine

variable {m m' : Machine ncpu}

/-- One step of the atomic machine. -/
def atomicStep (m : Machine ncpu) (b : Block ncpu) : Option (Machine ncpu) := m.run b.events

theorem atomicStep_one {e : Event ncpu} {h : e.trapCpu = none} :
    m.atomicStep (.one e h) = some m' ↔ m.Enabled e ∧ m' = m.effect e := by
  simp only [atomicStep, Block.events, ← step_eq_some]
  constructor
  · intro hrun
    obtain ⟨t, ht, hrest⟩ := run_cons_iff.mp hrun
    cases hrest
    exact ht
  · intro hstep
    exact run_cons_iff.mpr ⟨m', hstep, rfl⟩

variable {c : Fin ncpu} {user : Bool}

theorem atomicStep_trap (h : m.atomicStep (.trap c user) = some m') :
    ∃ m₁ m₂, (m.Enabled (.irq c user) ∧ m₁ = m.effect (.irq c user)) ∧
      (m₁.Enabled (.telemetry c user) ∧ m₂ = m₁.effect (.telemetry c user)) ∧
      m₂.Enabled (.trapEnd c) ∧ m' = m₂.effect (.trapEnd c) := by
  simp only [atomicStep, Block.events] at h
  obtain ⟨m₁, h₁, h⟩ := run_cons_iff.mp h
  obtain ⟨m₂, h₂, h⟩ := run_cons_iff.mp h
  obtain ⟨m₃, h₃, h⟩ := run_cons_iff.mp h
  cases h
  exact ⟨m₁, m₂, step_eq_some.mp h₁, step_eq_some.mp h₂, step_eq_some.mp h₃⟩

theorem WF.atomicStep (h : m.WF) {b : Block ncpu} (hs : m.atomicStep b = some m') : m'.WF :=
  h.run hs

/-! ## Yields and preemptions -/

/-- Outside the trap the counters are written by allocation only. -/
theorem SlotStep.counts {e : Event ncpu} (ht : e.trapCpu = none) {j : Slot} {p : Proc}
    (hs : SlotStep m e j p) : p.counts = (m.proc j).counts ∨ freeSlot m.proc = some j := by
  cases hs with
  | stirred _ hs => exact .inl (hs.frame Proc.counts fun _ _ _ _ _ _ => rfl)
  | passed => exact .inl (scheduler_proc_frame Proc.counts fun _ _ _ _ _ _ _ _ => rfl)
  | allocated hfree => exact .inr hfree
  | exited _ _ hs => exact .inl (hs.frame Proc.counts fun _ _ _ _ _ _ => rfl)
  | counted | yielded => cases ht
  | aborted | made | resized | slept | waited | pinned | faulted | reaped => exact .inl rfl

/-- A trap leaves every process but the one it interrupts as it was, but for wakeups. -/
theorem trap_other (hs : m.atomicStep (.trap c user) = some m') {j : Slot} (hj : m.cpu c ≠ some j) :
    (m.proc j).Stirred (m'.proc j) := by
  obtain ⟨m₁, m₂, ⟨he₁, rfl⟩, ⟨he₂, rfl⟩, he₃, rfl⟩ := atomicStep_trap hs
  have hcpu₁ : (m.effect (.irq c user)).cpu c ≠ some j := by rwa [effect_cpu_eq rfl]
  have hcpu₂ : ((m.effect (.irq c user)).effect (.telemetry c user)).cpu c ≠ some j := by
    rwa [effect_cpu_eq rfl]
  have h₁ := effect_not_targets he₁ (j := j) id
  have h₂ := effect_not_targets he₂ hcpu₁
  have h₃ := effect_not_targets he₃ (j := j) fun hT => hcpu₂ hT.1
  exact h₁.trans (h₂.trans h₃)

/-- **The process a trap interrupts** is preempted exactly when a preemption is counted. -/
theorem WF.trap_self (h : m.WF) (hs : m.atomicStep (.trap c user) = some m') {j : Slot}
    (hj : m.cpu c = some j) :
    (m'.proc j).counts = (m.proc j).counts ∨
    (m'.proc j).counts = (i32 ((m.proc j).yieldCount + 1), i32 ((m.proc j).preemptCount + 1)) := by
  obtain ⟨m₁, m₂, ⟨he₁, rfl⟩, ⟨he₂, hm₂⟩, he₃, rfl⟩ := atomicStep_trap hs
  have hw₁ := h.effect he₁
  have hj₁ : (m.effect (.irq c user)).cpu c = some j := by rwa [effect_cpu_eq rfl]
  have hcounts : ((m.effect (.irq c user)).proc j).counts = (m.proc j).counts :=
    (effect_not_targets he₁ (j := j) id).frame Proc.counts fun _ _ _ _ _ _ => rfl
  have hrun := hw₁.cpu_running c j hj₁
  generalize m.effect (.irq c user) = m₁ at *
  obtain ⟨hy, hp⟩ := Prod.mk.inj hcounts
  have hw₂ : m₂.WF := hm₂ ▸ hw₁.effect he₂
  have hj₂ : m₂.cpu c = some j := by rwa [hm₂, effect_cpu_eq rfl]
  have htel : m₂.proc j = (m₁.proc j).telemetry m₁.schedp m₁.ticks := hm₂ ▸ telemetry_proc hj₁
  have hleft : (m₂.proc j).ticksRemaining = (m₁.proc j).ticked.ticksRemaining := by
    rw [htel, Proc.telemetry_ticksRemaining hrun]
    rfl
  have hexp : (m₁.proc j).expires = true ↔ m₂.yields c j := by
    rw [hw₂.yields_iff hj₂, hleft]
    simp [Proc.expires, hrun]
  by_cases hx : (m₁.proc j).expires = true
  · right
    rw [Proc.telemetry_of_expires hx] at htel
    rw [trapEnd_proc hj₂ (hexp.mp hx), htel, ← hy, ← hp]
    rfl
  · left
    rw [Proc.telemetry_of_not_expires hx, if_pos hrun] at htel
    have hstir := effect_not_targets he₃ (j := j) fun hT => hx (hexp.mpr hT.2)
    rw [hstir.frame Proc.counts fun _ _ _ _ _ _ => rfl, htel, ← hcounts]
    rfl

/-- What a block does to the counters of a process: it clears them, leaves them, or counts an end of
the quantum. -/
theorem WF.atomicStep_counts (h : m.WF) {b : Block ncpu} (hs : m.atomicStep b = some m') {j : Slot}
    (hj : (m'.proc j).state ≠ .unused) : (m'.proc j).counts = (0, 0) ∨
      (m.proc j).state ≠ .unused ∧ ((m'.proc j).counts = (m.proc j).counts ∨
        (m'.proc j).counts =
          (i32 ((m.proc j).yieldCount + 1), i32 ((m.proc j).preemptCount + 1))) := by
  cases b with
  | one e ht =>
    obtain ⟨he, rfl⟩ := atomicStep_one.mp hs
    by_cases hused : (m.proc j).state = .unused
    · obtain ⟨-, -, hp⟩ := h.used_slot (effect_slot he j) hj hused
      exact .inl (by simp [hp, allocproc, Proc.counts])
    · exact .inr ⟨hused, .inl (((effect_slot he j).counts ht).resolve_right fun hfree =>
        hused (freeSlot_unused hfree))⟩
  | trap c user =>
    by_cases hc : m.cpu c = some j
    · exact .inr ⟨by simp [h.cpu_running c j hc], h.trap_self hs hc⟩
    · have hstir := trap_other hs hc
      exact .inr ⟨mt hstir.unused_iff.mpr hj,
        .inl (hstir.frame Proc.counts fun _ _ _ _ _ _ => rfl)⟩

/-- Every process in use has been preempted as often as it has yielded. -/
structure Balanced (m : Machine ncpu) : Prop where
  wf : m.WF
  even : ∀ j, (m.proc j).state ≠ .unused → (m.proc j).yieldCount = (m.proc j).preemptCount

theorem boot_balanced : (boot ncpu).Balanced where
  wf := boot_wf
  even := by
    intro j _
    simp only [boot, bootKernel, allocproc, Kernel.setProc_proc]
    split_ifs <;> simp [Proc.zero]

/-- **One block keeps the counters even.** -/
theorem Balanced.atomicStep (h : m.Balanced) {b : Block ncpu} (hs : m.atomicStep b = some m') :
    m'.Balanced := by
  refine ⟨h.wf.atomicStep hs, fun j hj => ?_⟩
  obtain hcounts | ⟨hused, hcounts | hcounts⟩ := h.wf.atomicStep_counts hs hj
  · rw [(Prod.mk.inj hcounts).1, (Prod.mk.inj hcounts).2]
  · rw [(Prod.mk.inj hcounts).1, (Prod.mk.inj hcounts).2, h.even j hused]
  · rw [(Prod.mk.inj hcounts).1, (Prod.mk.inj hcounts).2, h.even j hused]

end Machine

end Xv6.Sched
