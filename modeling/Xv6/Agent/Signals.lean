import Mathlib.Algebra.Order.BigOperators.Group.List
import Mathlib.Algebra.Order.Ring.Int
import Xv6.Agent.Policy
import Xv6.Sched.Syscall

/-!
# What the agent makes of its telemetry

The five functions of `sagent.c` that turn a telemetry buffer into the signals of the policy. The
list is the buffer's first `n` entries, and every accumulator is a C `int`.
-/

namespace Xv6.Agent

open Sched List

/-- `sum += x`, over a buffer. -/
def accumulate (f : Schedstat → Int) (stats : List Schedstat) : Int :=
  stats.foldl (fun sum st => i32 (sum + f st)) 0

/-- `compute_avg_wait`. -/
def computeAvgWait (stats : List Schedstat) : Int :=
  let sum := accumulate (fun st => if st.state = 3 then st.waitTicks else 0) stats
  let count := accumulate (fun st => if st.state = 3 then 1 else 0) stats
  if count = 0 then 0 else sum.tdiv count

/-- `compute_queue_pressure`. -/
def computeQueuePressure (stats : List Schedstat) : Int :=
  let countRunnable := accumulate (fun st => if st.state = 3 then 1 else 0) stats
  let countQ2 := accumulate (fun st => if st.state = 3 ∧ st.queueLevel = 2 then 1 else 0) stats
  if countRunnable = 0 then 0 else (i32 (countQ2 * 100)).tdiv countRunnable

/-- `compute_workload_type`. -/
def computeWorkloadType (stats : List Schedstat) : Int :=
  let totalYield := accumulate Schedstat.yieldCount stats
  let totalPreempt := accumulate Schedstat.preemptCount stats
  if i32 (totalYield + totalPreempt) = 0 then 50
  else (i32 (totalYield * 100)).tdiv (i32 (totalYield + totalPreempt))

/-- `diff = fast - slow; if(diff < 0) diff = -diff;` -/
def divergence (st : Schedstat) : Int :=
  let diff := i32 (st.burstEmaFast - st.burstEmaSlow)
  if diff < 0 then i32 (-diff) else diff

/-- `detect_phase_change`. -/
def detectPhaseChange (stats : List Schedstat) : Int :=
  let total := accumulate divergence stats
  let mean := if stats.length > 0 then total.tdiv stats.length else total
  if mean > 50 then 1 else 0

/-- `detect_sjf_abuse`. -/
def detectSjfAbuse (stats : List Schedstat) : Int :=
  if stats.any (fun st => st.burstVariance < 5 ∧ st.yieldCount > 20) then 1 else 0

/-- The signals of one epoch. -/
def signals (stats : List Schedstat) : Signals where
  avgWait := computeAvgWait stats
  queuePressure := computeQueuePressure stats
  workloadType := computeWorkloadType stats
  phaseChange := detectPhaseChange stats
  abuseDetected := detectSjfAbuse stats

/-- One turn of the main loop up to the decision, on what `getschedstats` returned: nothing on
an error or an empty buffer. -/
def Policy.observe (p : Policy) (result : Option (List Schedstat)) : Policy × Nat :=
  match result with
  | some (st :: stats) => decideAndUpdate (signals (st :: stats)) p
  | _ => (p, 0)

/-! ## Accumulators

An addition that wraps can wrap at the end as well. -/

theorem accumulate_eq_i32 (f : Schedstat → Int) (stats : List Schedstat) :
    accumulate f stats = i32 (stats.map f).sum := by
  -- generalised over the accumulator's start
  have main : ∀ (l : List Schedstat) (acc : Int),
      l.foldl (fun sum st => i32 (sum + f st)) (i32 acc) = i32 (acc + (l.map f).sum) := by
    intro l
    induction l with
    | nil => simp
    | cons st l ih =>
      intro acc
      rw [foldl_cons, i32_add, ih, map_cons, sum_cons, Int.add_assoc]
  rw [accumulate, ← Int.zero_add (stats.map f).sum, ← main]
  rfl

theorem accumulate_eq_sum {f : Schedstat → Int} {stats : List Schedstat}
    (hpos : ∀ st ∈ stats, 0 ≤ f st) (hsum : (stats.map f).sum < 2147483648) :
    accumulate f stats = (stats.map f).sum := by
  have hnonneg : 0 ≤ (stats.map f).sum := sum_nonneg (by simpa using hpos)
  rw [accumulate_eq_i32, i32_eq_self (by omega) hsum]

/-- **Equal totals read as an even mix**: with as many preemptions as yields in every entry, and
no overflow, the workload type is 50. -/
theorem computeWorkloadType_even {stats : List Schedstat}
    (heq : ∀ st ∈ stats, st.preemptCount = st.yieldCount) (hpos : ∀ st ∈ stats, 0 ≤ st.yieldCount)
    (hsum : (stats.map Schedstat.yieldCount).sum * 200 < 2147483648) :
    computeWorkloadType stats = 50 := by
  have hnonneg : 0 ≤ (stats.map Schedstat.yieldCount).sum :=
    sum_nonneg (by simpa using hpos)
  have hmap : stats.map Schedstat.preemptCount = stats.map Schedstat.yieldCount :=
    map_congr_left heq
  have hy := accumulate_eq_sum hpos (by omega)
  have hp : accumulate Schedstat.preemptCount stats = (stats.map Schedstat.yieldCount).sum := by
    rw [accumulate_eq_sum (fun st h => (heq st h).symm ▸ hpos st h) (by rw [hmap]; omega), hmap]
  unfold computeWorkloadType
  simp only [hy, hp]
  generalize (stats.map Schedstat.yieldCount).sum = t at hnonneg hsum
  rw [i32_eq_self (by omega) (by omega), i32_eq_self (by omega) (by omega)]
  split
  · rfl
  · next hne =>
      rw [show t * 100 = 0 + 50 * (t + t) by omega, tdiv_add_mul 50 le_rfl (by omega) (by decide),
        Int.zero_tdiv]
      rfl

end Xv6.Agent
