import Xv6.Sched.Proc

/-!
# The timer trap

The parts of `trap()` a timer interrupt runs through (`trap.c`): the clock on CPU 0, the telemetry
update of the interrupted process, and the final preemption. They are separate functions because
`ptable.lock` is not held across them: another CPU can run a scheduler pass between the telemetry
update and the preemption test.
-/

namespace Xv6.Sched

/-- `ticks++`, `wakeup(&ticks)` and `check_alarms()`, on CPU 0 only. -/
def clock (k : Kernel) : Kernel :=
  checkAlarms (wakeup1 .ticks { k with ticks := u32 (k.ticks + 1) })

/-! ## Telemetry -/

/-- `old + (alpha * (burst_len * 100 - old)) / 100`, each operation in `int`. -/
def emaStep (alpha burstLen old : Int) : Int :=
  i32 (old + (i32 (alpha * i32 (i32 (burstLen * 100) - old))).tdiv 100)

/-- The two caps on an EMA. -/
def emaCap (x : Int) : Int := if x > 5000 then 5000 else if x < 0 then 0 else x

/-- Demotion is for everybody but the registered agent. -/
def demotable (s : SchedParams) (p : Proc) : Bool :=
  p.queueLevel < 2 ∧ (s.agentPid = 0 ∨ p.pid ≠ s.agentPid)

/-- What the trap does when `ticks_remaining` has dropped to zero or below. -/
def Proc.expired (s : SchedParams) (now : Int) (p : Proc) : Proc :=
  let burstLen := i32 (now - p.burstStartTick)
  let fast := emaCap (emaStep s.emaAlphaFast burstLen p.burstEmaFast)
  let slow := emaCap (emaStep s.emaAlphaSlow burstLen p.burstEmaSlow)
  { p with
    burstEmaFast := fast
    burstEmaSlow := slow
    burstVariance := if i32 (fast - slow) < 0 then i32 (-i32 (fast - slow)) else i32 (fast - slow)
    preemptCount := i32 (p.preemptCount + 1)
    queueLevel := if demotable s p then p.queueLevel + 1 else p.queueLevel }

/-- `proc->ticks_remaining--`. -/
def Proc.ticked (p : Proc) : Proc := { p with ticksRemaining := i32 (p.ticksRemaining - 1) }

/-- The telemetry block, for the process the interrupt found on its CPU. -/
def Proc.telemetry (s : SchedParams) (now : Int) (p : Proc) : Proc :=
  if p.state = .running then
    if p.ticked.ticksRemaining ≤ 0 then p.ticked.expired s now else p.ticked
  else p

/-- The telemetry update finds the quantum of `p` used up. -/
def Proc.expires (p : Proc) : Bool := p.state = .running ∧ p.ticked.ticksRemaining ≤ 0

variable {s : SchedParams} {now : Int} {p : Proc}

theorem Proc.telemetry_of_expires (h : p.expires) : p.telemetry s now = p.ticked.expired s now := by
  have h' : p.state = .running ∧ p.ticked.ticksRemaining ≤ 0 := by simpa [Proc.expires] using h
  rw [Proc.telemetry, if_pos h'.1, if_pos h'.2]

theorem Proc.telemetry_of_not_expires (h : ¬ p.expires) :
    p.telemetry s now = if p.state = .running then p.ticked else p := by
  have h' : ¬ (p.state = .running ∧ p.ticked.ticksRemaining ≤ 0) := by
    simpa [Proc.expires] using h
  unfold Proc.telemetry
  split_ifs with hrun hleft
  · exact absurd ⟨hrun, hleft⟩ h'
  · rfl
  · rfl

/-! ## Preemption -/

/-- `yield()`, up to the switch to the scheduler. -/
def Proc.yielded (p : Proc) : Proc :=
  { p with yieldCount := i32 (p.yieldCount + 1), state := .runnable }

/-! ## What they leave alone -/

theorem clock_stirred (k : Kernel) (i : Slot) : (k.proc i).Stirred ((clock k).proc i) :=
  (wakeup1_stirred .ticks { k with ticks := u32 (k.ticks + 1) } i).trans (checkAlarm_stirred _)

/-- The telemetry update writes six fields. -/
theorem Proc.telemetry_frame {β : Type} (obs : Proc → β)
    (hobs : ∀ (p : Proc) left fast slow var pre level, obs { p with
      ticksRemaining := left, burstEmaFast := fast, burstEmaSlow := slow, burstVariance := var,
      preemptCount := pre, queueLevel := level } = obs p) : obs (p.telemetry s now) = obs p := by
  unfold Proc.telemetry
  split_ifs
  · exact hobs p _ _ _ _ _ _
  · exact hobs p _ p.burstEmaFast p.burstEmaSlow p.burstVariance p.preemptCount p.queueLevel
  · rfl

@[simp] theorem Proc.telemetry_state (s : SchedParams) (now : Int) (p : Proc) :
    (p.telemetry s now).state = p.state :=
  Proc.telemetry_frame Proc.state fun _ _ _ _ _ _ _ => rfl

theorem Proc.telemetry_ticksRemaining (h : p.state = .running) :
    (p.telemetry s now).ticksRemaining = i32 (p.ticksRemaining - 1) := by
  unfold Proc.telemetry
  rw [if_pos h]
  split <;> rfl

/-- An expiry keeps both EMAs in `0..5000`, whatever they were. -/
theorem emaCap_range (x : Int) : 0 ≤ emaCap x ∧ emaCap x ≤ 5000 := by
  unfold emaCap
  split_ifs <;> omega

end Xv6.Sched
