import Xv6.Agent.Signals

/-!
# The signals as numbers

What three of the signals are meant to be: a mean, and two percentages. The functions of `sagent.c`
compute them in C `int`s. The sums grow as long as the system runs, and leave the range at some time.
The mean is then wrong. The percentage of yields is right after that only if it is 0 and is rounded
to 0 also by the wrapped divisor, or by a coincidence of two products that have both wrapped.
-/

namespace Xv6.Agent

open Sched List Schedstat

variable {stats : List Schedstat}

/-! ## Sums

A loop that adds up an `int` yields the sum, wrapped once. -/

/-- The entries of RUNNABLE processes. -/
def runnables (stats : List Schedstat) : List Schedstat := stats.filter fun st => st.state = 3

/-- The ones of them in Q2. -/
def runnablesQ2 (stats : List Schedstat) : List Schedstat :=
  (runnables stats).filter fun st => st.queueLevel = 2

/-- The sum of a field. -/
def total (f : Schedstat → Int) (stats : List Schedstat) : Int := (stats.map f).sum

theorem total_nonneg {f : Schedstat → Int} (h : ∀ st ∈ stats, 0 ≤ f st) : 0 ≤ total f stats :=
  sum_nonneg (by simpa using h)

theorem total_ite (f : Schedstat → Int) (p : Schedstat → Prop) [DecidablePred p]
    (stats : List Schedstat) :
    (stats.map fun st => if p st then f st else 0).sum = total f (stats.filter p) := by
  unfold total
  induction stats with
  | nil => rfl
  | cons st stats ih =>
    rw [map_cons, sum_cons, ih]
    by_cases hp : p st
    · simp [hp]
    · simp [hp]

theorem total_one (stats : List Schedstat) : total (fun _ => 1) stats = stats.length := by
  simp [total]

theorem accumulate_ite {f : Schedstat → Int} {p : Schedstat → Prop} [DecidablePred p] :
    accumulate (fun st => if p st then f st else 0) stats = i32 (total f (stats.filter p)) := by
  rw [accumulate_eq_i32, total_ite]

theorem accumulate_count {p : Schedstat → Prop} [DecidablePred p] (hlen : stats.length ≤ 64) :
    accumulate (fun st => if p st then 1 else 0) stats = (stats.filter p).length := by
  have hle := length_filter_le p stats
  rw [accumulate_ite, total_one, i32_eq_self (by omega) (by omega)]

/-! ## Divisions

Each function ends in one division, or in none. -/

/-- The divisions that the processor refuses: by zero, and the one whose quotient is no `int`. -/
def Traps (a b : Int) : Prop := b = 0 ∨ a = -2147483648 ∧ b = -1

instance (a b : Int) : Decidable (Traps a b) := inferInstanceAs (Decidable (_ ∨ _))

/-- The division of `compute_avg_wait`, if it comes to it. -/
def avgWaitDivision (stats : List Schedstat) : Option (Int × Int) :=
  let sum := accumulate (fun st => if st.state = 3 then st.waitTicks else 0) stats
  let count := accumulate (fun st => if st.state = 3 then 1 else 0) stats
  if count = 0 then none else some (sum, count)

/-- The division of `compute_queue_pressure`. -/
def queuePressureDivision (stats : List Schedstat) : Option (Int × Int) :=
  let countRunnable := accumulate (fun st => if st.state = 3 then 1 else 0) stats
  let countQ2 := accumulate (fun st => if st.state = 3 ∧ st.queueLevel = 2 then 1 else 0) stats
  if countRunnable = 0 then none else some (i32 (countQ2 * 100), countRunnable)

/-- The division of `compute_workload_type`. -/
def workloadTypeDivision (stats : List Schedstat) : Option (Int × Int) :=
  let totalYield := accumulate yieldCount stats
  let totalPreempt := accumulate preemptCount stats
  if i32 (totalYield + totalPreempt) = 0 then none
  else some (i32 (totalYield * 100), i32 (totalYield + totalPreempt))

theorem computeAvgWait_eq (stats : List Schedstat) :
    computeAvgWait stats = ((avgWaitDivision stats).map fun x => x.1.tdiv x.2).getD 0 := by
  unfold computeAvgWait avgWaitDivision
  dsimp only
  split <;> rfl

theorem computeQueuePressure_eq (stats : List Schedstat) : computeQueuePressure stats =
    ((queuePressureDivision stats).map fun x => x.1.tdiv x.2).getD 0 := by
  unfold computeQueuePressure queuePressureDivision
  dsimp only
  split <;> rfl

theorem computeWorkloadType_eq (stats : List Schedstat) : computeWorkloadType stats =
    ((workloadTypeDivision stats).map fun x => x.1.tdiv x.2).getD 50 := by
  unfold computeWorkloadType workloadTypeDivision
  dsimp only
  split <;> rfl

/-- The division of a natural number does not trap. -/
theorem division_no_trap {d : Option (Int × Int)} {a b : Int}
    (hd : d = if b = 0 then none else some (a, b)) (ha : 0 ≤ a) (x : Int × Int) (hx : d = some x) :
    ¬ Traps x.1 x.2 := by
  subst hd
  split at hx
  · cases hx
  · next hne =>
    cases hx
    rintro (hzero | ⟨hmin, -⟩)
    · exact hne hzero
    · have hmin : a = -2147483648 := hmin
      omega

/-- A part of a whole, in percent. -/
theorem percent_range {a b : Int} (ha : 0 ≤ a) (hab : a ≤ b) (hb : 0 < b) :
    0 ≤ a * 100 / b ∧ a * 100 / b ≤ 100 := by
  refine ⟨Int.ediv_nonneg (by omega) (by omega), ?_⟩
  have hle : a * 100 / b ≤ b * 100 / b := Int.ediv_le_ediv hb (by omega)
  rwa [Int.mul_ediv_cancel_left 100 (by omega)] at hle

/-! ## The three signals -/

theorem avgWaitDivision_wraps (hlen : stats.length ≤ 64) :
    avgWaitDivision stats = if ((runnables stats).length : Int) = 0 then none
      else some (i32 (total waitTicks (runnables stats)),
        ((runnables stats).length : Int)) := by
  unfold avgWaitDivision
  rw [accumulate_count hlen, accumulate_ite]
  rfl

theorem queuePressureDivision_exact (hlen : stats.length ≤ 64) :
    queuePressureDivision stats = if ((runnables stats).length : Int) = 0 then none
      else some (((runnablesQ2 stats).length : Int) * 100, ((runnables stats).length : Int)) := by
  have hfilter : stats.filter (fun st => st.state = 3 ∧ st.queueLevel = 2) = runnablesQ2 stats := by
    simp [runnablesQ2, runnables, filter_filter, Bool.and_comm]
  have hle : (runnablesQ2 stats).length ≤ 64 :=
    (length_filter_le ..).trans ((length_filter_le ..).trans hlen)
  unfold queuePressureDivision
  rw [accumulate_count hlen, accumulate_count hlen, hfilter]
  dsimp only
  rw [i32_eq_self (by omega) (by omega)]
  rfl

theorem workloadTypeDivision_wraps (stats : List Schedstat) :
    workloadTypeDivision stats =
      if i32 (total yieldCount stats + total preemptCount stats) = 0 then none
      else some (i32 (total yieldCount stats * 100),
        i32 (total yieldCount stats + total preemptCount stats)) := by
  have hmul : ∀ x, i32 (i32 x * 100) = i32 (x * 100) := by
    intro x
    unfold i32
    omega
  have hadd : ∀ x y, i32 (i32 x + i32 y) = i32 (x + y) := by
    intro x y
    rw [i32_add, Int.add_comm, i32_add, Int.add_comm]
  unfold workloadTypeDivision
  rw [accumulate_eq_i32, accumulate_eq_i32]
  dsimp only
  rw [hmul, hadd]
  rfl

/-- What has left the range is lower by `2 ^ 32` at least. -/
theorem i32_le_sub {x : Int} (h : 2147483648 ≤ x) : i32 x ≤ x - 4294967296 := by
  unfold i32
  omega

/-- The signals are the numbers they stand for, rounded down. -/
structure SignalsExact (stats : List Schedstat) : Prop where
  avgWait : computeAvgWait stats = if ((runnables stats).length : Int) = 0 then 0
    else total waitTicks (runnables stats) / (runnables stats).length
  queuePressure : computeQueuePressure stats = if ((runnables stats).length : Int) = 0 then 0
    else ((runnablesQ2 stats).length : Int) * 100 / (runnables stats).length
  workloadType : computeWorkloadType stats =
    if total yieldCount stats + total preemptCount stats = 0 then 50
    else total yieldCount stats * 100 /
      (total yieldCount stats + total preemptCount stats)
  queuePressure_range : 0 ≤ computeQueuePressure stats ∧ computeQueuePressure stats ≤ 100
  workloadType_range : 0 ≤ computeWorkloadType stats ∧ computeWorkloadType stats ≤ 100
  no_trap : ∀ x, avgWaitDivision stats = some x ∨ queuePressureDivision stats = some x ∨
    workloadTypeDivision stats = some x → ¬ Traps x.1 x.2

theorem avgWait_iff (hlen : stats.length ≤ 64) (hpos : ∀ st ∈ stats, 0 ≤ st.waitTicks) :
    (computeAvgWait stats = if ((runnables stats).length : Int) = 0 then 0
      else total waitTicks (runnables stats) / (runnables stats).length) ↔
    total waitTicks (runnables stats) < 2147483648 := by
  have hle : (runnables stats).length ≤ 64 := (length_filter_le ..).trans hlen
  have hw : 0 ≤ total waitTicks (runnables stats) :=
    total_nonneg fun st hst => hpos st (mem_of_mem_filter hst)
  rw [computeAvgWait_eq, avgWaitDivision_wraps hlen]
  by_cases hnone : (runnables stats).length = 0
  · rw [hnone, length_eq_zero_iff.mp hnone]
    decide
  · rw [if_neg (by omega), if_neg (by omega)]
    show (i32 _).tdiv _ = _ ↔ _
    constructor
    · intro hexact
      by_contra hlarge
      have hwrap := i32_le_sub (Int.not_lt.mp hlarge)
      exact tdiv_ne_ediv (by omega) (by omega) (by omega) hexact
    · intro hsum
      rw [i32_eq_self (by omega) hsum, Int.tdiv_eq_ediv_of_nonneg hw]

/-- The sums of `compute_workload_type` in range, or so that the quotient is rounded to 0 anyway. -/
def WorkloadInRange (stats : List Schedstat) : Prop :=
  let yields := total yieldCount stats
  let preempts := total preemptCount stats
  yields * 100 < 2147483648 ∧
    (yields + preempts < 2147483648 ∨ yields * 100 < (i32 (yields + preempts)).natAbs)

instance (stats : List Schedstat) : Decidable (WorkloadInRange stats) :=
  inferInstanceAs (Decidable (_ ∧ _))

section

variable (hpos : ∀ st ∈ stats, 0 ≤ st.yieldCount ∧ 0 ≤ st.preemptCount)

include hpos

theorem workloadType_of_inRange (h : WorkloadInRange stats) : computeWorkloadType stats =
    if total yieldCount stats + total preemptCount stats = 0 then 50
    else total yieldCount stats * 100 /
      (total yieldCount stats + total preemptCount stats) := by
  have hy := total_nonneg fun st hst => (hpos st hst).1
  have hp := total_nonneg fun st hst => (hpos st hst).2
  obtain ⟨hyield, hsum⟩ := h
  rw [computeWorkloadType_eq, workloadTypeDivision_wraps, i32_eq_self (by omega) hyield]
  generalize total yieldCount stats = y at *
  generalize total preemptCount stats = p at *
  by_cases hlt : y + p < 2147483648
  · rw [i32_eq_self (by omega) hlt]
    split
    · rfl
    · exact Int.tdiv_eq_ediv_of_nonneg (by omega)
  · have hsmall := hsum.resolve_left hlt
    have hne : i32 (y + p) ≠ 0 := by
      intro hzero
      rw [hzero, Int.natAbs_zero] at hsmall
      omega
    rw [if_neg hne, if_neg (by omega), Int.ediv_eq_zero_of_lt (by omega) (by omega)]
    exact (tdiv_eq_zero_iff hne).mpr (by omega)

/-- Where it is right otherwise, both the product and the sum have wrapped. -/
theorem inRange_of_workloadType (h : computeWorkloadType stats =
    if total yieldCount stats + total preemptCount stats = 0 then 50
    else total yieldCount stats * 100 /
      (total yieldCount stats + total preemptCount stats)) :
    WorkloadInRange stats ∨ 2147483648 ≤ total yieldCount stats * 100 ∧
      2147483648 ≤ total yieldCount stats + total preemptCount stats := by
  have hy := total_nonneg fun st hst => (hpos st hst).1
  have hp := total_nonneg fun st hst => (hpos st hst).2
  rw [computeWorkloadType_eq, workloadTypeDivision_wraps] at h
  unfold WorkloadInRange
  generalize total yieldCount stats = y at *
  generalize total preemptCount stats = p at *
  by_cases hyield : y * 100 < 2147483648
  · refine .inl ⟨hyield, or_iff_not_imp_left.mpr fun hlarge => ?_⟩
    rw [i32_eq_self (by omega) hyield, if_neg (by omega : ¬ y + p = 0),
      Int.ediv_eq_zero_of_lt (by omega) (by omega)] at h
    split at h
    · cases h
    · next hne =>
      have hlt := (tdiv_eq_zero_iff hne).mp h
      omega
  · refine .inr ⟨by omega, ?_⟩
    by_contra hsum
    have hwrap := i32_le_sub (Int.not_lt.mp hyield)
    rw [i32_eq_self (by omega) (by omega), if_neg (by omega), if_neg (by omega)] at h
    exact tdiv_ne_ediv (by omega) (by omega) (by omega) h

theorem workloadTypeDivision_no_trap (hyield : total yieldCount stats * 100 < 2147483648)
    (x : Int × Int) (hx : workloadTypeDivision stats = some x) : ¬ Traps x.1 x.2 := by
  have hy := total_nonneg fun st hst => (hpos st hst).1
  rw [workloadTypeDivision_wraps, i32_eq_self (by omega) hyield] at hx
  exact division_no_trap rfl (by omega) x hx

end

/-- **The signals are exact and in range** when the sums are: for telemetry of any processes, where
the waits are an `int`, and the yields and preemptions are as in `WorkloadInRange`. Otherwise they
are not, or both the product and the sum of `compute_workload_type` have wrapped. -/
theorem signals_exact (hlen : stats.length ≤ 64)
    (hpos : ∀ st ∈ stats, 0 ≤ st.waitTicks ∧ 0 ≤ st.yieldCount ∧ 0 ≤ st.preemptCount) :
    (total waitTicks (runnables stats) < 2147483648 ∧ WorkloadInRange stats →
      SignalsExact stats) ∧
    (SignalsExact stats → total waitTicks (runnables stats) < 2147483648 ∧
      (WorkloadInRange stats ∨ 2147483648 ≤ total yieldCount stats * 100 ∧
        2147483648 ≤ total yieldCount stats + total preemptCount stats)) := by
  have hwait := avgWait_iff hlen fun st hst => (hpos st hst).1
  have hcounts := fun st hst => (hpos st hst).2
  refine ⟨fun ⟨hwaits, hin⟩ => ?_, fun h =>
    ⟨hwait.mp h.avgWait, inRange_of_workloadType hcounts h.workloadType⟩⟩
  have hqueueDiv := queuePressureDivision_exact hlen
  have hw : 0 ≤ total waitTicks (runnables stats) :=
    total_nonneg fun st hst => (hpos st (mem_of_mem_filter hst)).1
  have hy := total_nonneg fun st hst => (hcounts st hst).1
  have hp := total_nonneg fun st hst => (hcounts st hst).2
  have hq : ((runnablesQ2 stats).length : Int) ≤ (runnables stats).length :=
    Int.ofNat_le.mpr (length_filter_le ..)
  have hq0 : 0 ≤ ((runnablesQ2 stats).length : Int) := Int.natCast_nonneg _
  have hwaitDiv := avgWaitDivision_wraps hlen
  rw [i32_eq_self (by omega) hwaits] at hwaitDiv
  have hqueue : computeQueuePressure stats = if ((runnables stats).length : Int) = 0 then 0
      else ((runnablesQ2 stats).length : Int) * 100 / (runnables stats).length := by
    rw [computeQueuePressure_eq, hqueueDiv]
    split
    · rfl
    · have hnum : 0 ≤ ((runnablesQ2 stats).length : Int) * 100 := by omega
      rw [Option.map_some, Option.getD_some, Int.tdiv_eq_ediv_of_nonneg hnum]
  have hwork := workloadType_of_inRange hcounts hin
  refine ⟨hwait.mpr hwaits, hqueue, hwork, ?_, ?_, ?_⟩
  · rw [hqueue]
    split
    · exact ⟨le_rfl, by omega⟩
    · exact percent_range hq0 hq (by omega)
  · rw [hwork]
    split
    · exact ⟨by omega, by omega⟩
    · exact percent_range hy (by omega) (by omega)
  · rintro x (h | h | h)
    · exact division_no_trap hwaitDiv hw x h
    · exact division_no_trap hqueueDiv (by omega) x h
    · exact workloadTypeDivision_no_trap hcounts hin.1 x h

/-- An entry with these counters, of a RUNNABLE process. -/
def entryWith (waitTicks yieldCount preemptCount : Int) : Schedstat :=
  { Proc.zero.schedstat 0 with state := 3, waitTicks, yieldCount, preemptCount }

theorem one_entry_exact : SignalsExact [entryWith 7 3 1] ∧ SignalsExact
    [entryWith 0 0 1073741824, entryWith 0 0 1073741824] :=
  ⟨(signals_exact (by decide) (by decide)).1 (by decide),
    (signals_exact (by decide) (by decide)).1 (by decide)⟩

/-- Two processes that wait 2³⁰ passes each have a negative average; 21474837 yields are -99
percent of themselves; and with these yields and preemptions the division traps. -/
theorem signals_overflow :
    computeAvgWait [entryWith 1073741824 0 0, entryWith 1073741824 0 0] = -1073741824 ∧
    computeWorkloadType [entryWith 0 21474837 0] = -99 ∧
    workloadTypeDivision [entryWith 0 536870912 2147483647, entryWith 0 0 1610612736] =
      some (-2147483648, -1) := by
  decide

end Xv6.Agent
