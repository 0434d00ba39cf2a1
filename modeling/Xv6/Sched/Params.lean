import Xv6.Common.Word

/-!
# The tunable scheduler parameters

`struct sched_update` (`schedstat.h`) is what the agent hands to `setschedparam`;
`struct sched_params` (`proc.h`) is the kernel's copy of the same eight fields, together with
the agent slot and the starvation alert. The spinlock of `sched_params` is not a field: the
machine's steps are the sections it protects.
-/

namespace Xv6.Sched

/-- `struct sched_update`. -/
structure SchedUpdate where
  q0Quantum : Int
  q1Quantum : Int
  q2Quantum : Int
  boostInterval : Int
  emaAlphaFast : Int
  emaAlphaSlow : Int
  agingFactor : Int
  rrMode : Int
  deriving DecidableEq, Repr

/-- `struct sched_params`: the tunables, and two fields the agent does not send. -/
structure SchedParams extends SchedUpdate where
  agentPid : Int
  schedAlert : Int
  deriving DecidableEq, Repr

/-- The values `pinit` stores in `schedp`. -/
def pinit : SchedParams where
  q0Quantum := 4
  q1Quantum := 6
  q2Quantum := 8
  boostInterval := 500
  emaAlphaFast := 50
  emaAlphaSlow := 10
  agingFactor := 50
  agentPid := 0
  schedAlert := 0
  rrMode := 0

/-- The ten `return -1` tests of `sys_setschedparam` on the fields of `upd`, in the order of the
source: `true` when one of them rejects the update. -/
def SchedUpdate.rejected (upd : SchedUpdate) : Bool :=
  (upd.q0Quantum < 1 || upd.q0Quantum > 10)
  || (upd.q1Quantum < 1 || upd.q1Quantum > 20)
  || (upd.q2Quantum < 1 || upd.q2Quantum > 40)
  || (upd.boostInterval < 10 || upd.boostInterval > 500)
  || (upd.emaAlphaFast < 1 || upd.emaAlphaFast > 90)
  || (upd.emaAlphaSlow < 1 || upd.emaAlphaSlow > 50)
  || (upd.agingFactor < 1 || upd.agingFactor > 100)
  || upd.emaAlphaSlow ≥ upd.emaAlphaFast
  || (upd.q1Quantum < upd.q0Quantum || upd.q2Quantum < upd.q1Quantum)
  || (upd.rrMode != 0 && upd.rrMode != 1)

/-- What the scheduler relies on. The chain of quanta carries their lower bounds: only the first
is stated. -/
structure SchedUpdate.Accepted (upd : SchedUpdate) : Prop where
  q0_pos : 1 ≤ upd.q0Quantum
  q0_le_q1 : upd.q0Quantum ≤ upd.q1Quantum
  q1_le_q2 : upd.q1Quantum ≤ upd.q2Quantum
  q0_le : upd.q0Quantum ≤ 10
  q1_le : upd.q1Quantum ≤ 20
  q2_le : upd.q2Quantum ≤ 40
  boost_ge : 10 ≤ upd.boostInterval
  boost_le : upd.boostInterval ≤ 500
  slow_pos : 1 ≤ upd.emaAlphaSlow
  slow_lt_fast : upd.emaAlphaSlow < upd.emaAlphaFast
  fast_le : upd.emaAlphaFast ≤ 90
  slow_le : upd.emaAlphaSlow ≤ 50
  aging_pos : 1 ≤ upd.agingFactor
  aging_le : upd.agingFactor ≤ 100
  rr_bit : upd.rrMode = 0 ∨ upd.rrMode = 1

/-- **The ten tests decide exactly the invariant**: an update passes all of them if and only if
it satisfies every bound. -/
theorem SchedUpdate.rejected_eq_false_iff (upd : SchedUpdate) :
    upd.rejected = false ↔ upd.Accepted := by
  simp only [SchedUpdate.rejected, Bool.or_eq_false_iff, Bool.and_eq_false_iff,
    decide_eq_false_iff_not, bne_eq_false_iff_eq]
  constructor
  · intro h
    constructor <;> omega
  · rintro ⟨_, _, _, _, _, _, _, _, _, _, _, _, _, _, _⟩
    omega

/-- A parameter set that `setschedparam` accepts, with the proof that it does. -/
abbrev AcceptedParams := { upd : SchedUpdate // upd.Accepted }

theorem pinit_accepted : pinit.toSchedUpdate.Accepted := by
  rw [← SchedUpdate.rejected_eq_false_iff]
  decide

end Xv6.Sched
