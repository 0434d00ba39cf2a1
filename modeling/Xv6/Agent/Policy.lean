import Mathlib.Logic.Function.Basic
import Xv6.Common.Potential
import Xv6.Sched.Params

/-!
# The agent's policy

`decide_and_update` of `sagent.c`: six rules that read five signals and move seven parameters,
then a repair of the order of the quanta. The parameters and the counters are `static`, so they
are the state here, and one call is one step of it.

The parameters stay below 500 in absolute value, so their arithmetic is exact. The counters are
only ever incremented and wrap.
-/

namespace Xv6.Agent

open Sched Potential

/-- The `static` variables of `sagent.c`, except the epoch number that is only printed. -/
structure Policy where
  curQ0 : Int
  curQ1 : Int
  curQ2 : Int
  curBoost : Int
  curAf : Int
  curAs : Int
  curAging : Int
  /-- `cnt`; entry 4 is never used. -/
  cnt : Fin 6 → Int

/-- The values the variables are initialised with. -/
def Policy.init : Policy where
  curQ0 := 4
  curQ1 := 6
  curQ2 := 8
  curBoost := 500
  curAf := 50
  curAs := 10
  curAging := 50
  cnt := fun _ => 0

/-- The arguments of `decide_and_update`. -/
structure Signals where
  avgWait : Int
  queuePressure : Int
  workloadType : Int
  phaseChange : Int
  abuseDetected : Int
  deriving DecidableEq, Repr

/-- `clamp`. -/
def clamp (val lo hi : Int) : Int := if val < lo then lo else if val > hi then hi else val

/-! ## The rules

A rule works on the parameters and on `fired`, the bitmask the call returns. -/

/-- `if(holds) cnt[i]++; else cnt[i] = 0;` -/
def tally (holds : Bool) (count : Int) : Int := if holds then i32 (count + 1) else 0

/-- Rules 1, 2, 3, 4 and 6: count the epochs in a row in which the condition held, and act from
the `threshold`-th on. -/
def sustained (i : Fin 6) (threshold : Int) (mask : Nat) (holds : Bool) (act : Policy → Policy)
    (st : Policy × Nat) : Policy × Nat :=
  let p := { st.1 with cnt := Function.update st.1.cnt i (tally holds (st.1.cnt i)) }
  if tally holds (st.1.cnt i) ≥ threshold then (act p, st.2 ||| mask) else (p, st.2)

/-- Q2 overloaded: boost more frequently. -/
def rule1 (s : Signals) : Policy × Nat → Policy × Nat :=
  sustained 0 1 0x01 (s.queuePressure > 40) fun p =>
    { p with curBoost := clamp (p.curBoost - 20) 10 500, curQ0 := clamp (p.curQ0 - 1) 1 10 }

/-- I/O-dominant: widen the Q0 quantum. -/
def rule2 (s : Signals) : Policy × Nat → Policy × Nat :=
  sustained 1 2 0x02 (s.workloadType > 70) fun p => { p with curQ0 := clamp (p.curQ0 + 1) 1 10 }

/-- CPU-dominant: tighten Q0. -/
def rule3 (s : Signals) : Policy × Nat → Policy × Nat :=
  sustained 2 2 0x04 (s.workloadType < 30) fun p => { p with curQ0 := clamp (p.curQ0 - 1) 1 10 }

/-- Starvation: a tighter boost interval. -/
def rule4 (s : Signals) : Policy × Nat → Policy × Nat :=
  sustained 3 1 0x08 (s.avgWait > 10) fun p => { p with curBoost := clamp (p.curBoost - 10) 10 500 }

/-- Phase change: no deadband, and a decay branch that runs every other epoch. -/
def rule5 (s : Signals) (st : Policy × Nat) : Policy × Nat :=
  if s.phaseChange ≠ 0 then
    ({ st.1 with curAf := clamp (st.1.curAf + 10) (st.1.curAs + 1) 90 }, st.2 ||| 0x10)
  else ({ st.1 with curAf := clamp (st.1.curAf - 5) (st.1.curAs + 1) 90 }, st.2)

/-- SJF abuse: age faster. -/
def rule6 (s : Signals) : Policy × Nat → Policy × Nat :=
  sustained 5 2 0x20 (s.abuseDetected ≠ 0) fun p =>
    { p with curAging := clamp (p.curAging - 3) 1 100 }

/-- The repair of `q0 <= q1 <= q2`. -/
def Policy.repair (p : Policy) : Policy :=
  let p₁ := { p with curQ1 := if p.curQ1 < p.curQ0 then p.curQ0 else p.curQ1 }
  { p₁ with curQ2 := if p₁.curQ2 < p₁.curQ1 then p₁.curQ1 else p₁.curQ2 }

/-- The rules in order. -/
def applyRules (s : Signals) (p : Policy) : Policy × Nat :=
  rule6 s (rule5 s (rule4 s (rule3 s (rule2 s (rule1 s (p, 0))))))

/-- `decide_and_update`: the new state and the bitmask of the rules that fired. -/
def decideAndUpdate (s : Signals) (p : Policy) : Policy × Nat :=
  ((applyRules s p).1.repair, (applyRules s p).2)

/-- One epoch of the policy. -/
def Policy.next (p : Policy) (s : Signals) : Policy := (decideAndUpdate s p).1

/-- The update the agent fills in, apart from the field it leaves as it finds it. -/
def Policy.update (p : Policy) (rrMode : Int) : SchedUpdate where
  q0Quantum := p.curQ0
  q1Quantum := p.curQ1
  q2Quantum := p.curQ2
  boostInterval := p.curBoost
  emaAlphaFast := p.curAf
  emaAlphaSlow := p.curAs
  agingFactor := p.curAging
  rrMode := rrMode

/-! ## Ranges -/

theorem clamp_range {val lo hi : Int} (h : lo ≤ hi) :
    lo ≤ clamp val lo hi ∧ clamp val lo hi ≤ hi := by
  unfold clamp
  split_ifs <;> omega

/-- The ranges the parameters never leave, tighter than the kernel's. -/
structure Policy.InRange (p : Policy) : Prop where
  q0 : 1 ≤ p.curQ0 ∧ p.curQ0 ≤ 10
  q1 : 6 ≤ p.curQ1 ∧ p.curQ1 ≤ 10
  q2 : 8 ≤ p.curQ2 ∧ p.curQ2 ≤ 10
  boost : 10 ≤ p.curBoost ∧ p.curBoost ≤ 500
  boost_dvd : 10 ∣ p.curBoost
  af : 11 ≤ p.curAf ∧ p.curAf ≤ 90
  as : p.curAs = 10
  aging : 1 ≤ p.curAging ∧ p.curAging ≤ 100

/-- How often `cur_boost` can still go down: in steps of ten, to ten. -/
def boostRoom (b : Int) : Nat := ((b - 10) / 10).toNat

/-- How often `cur_aging` can still go down: in steps of three, the last one cut short at one. -/
def agingRoom (a : Int) : Nat := ((a + 1) / 3).toNat

/-- How often a quantum can still go up to ten. -/
def quantumRoom (q : Int) : Nat := (10 - q).toNat

/-- What the rules can do to the parameters: `cur_boost` and `cur_aging` only go down, each time
by a full step, and `cur_q1` and `cur_q2` are left to the repair. -/
structure Policy.Steered (p p' : Policy) : Prop where
  inRange : p'.InRange
  boost_le : p'.curBoost ≤ p.curBoost
  boost_pays : Pays boostRoom p.curBoost p'.curBoost
  aging_le : p'.curAging ≤ p.curAging
  aging_pays : Pays agingRoom p.curAging p'.curAging
  q1 : p'.curQ1 = p.curQ1
  q2 : p'.curQ2 = p.curQ2

namespace Policy.Steered

variable {p p' p'' : Policy}

/-- The counters are no parameters. -/
theorem of_cnt (h : p.InRange) (cnt : Fin 6 → Int) : p.Steered { p with cnt := cnt } where
  inRange := ⟨h.q0, h.q1, h.q2, h.boost, h.boost_dvd, h.af, h.as, h.aging⟩
  boost_le := Int.le_refl _
  boost_pays := .refl _ _
  aging_le := Int.le_refl _
  aging_pays := .refl _ _
  q1 := rfl
  q2 := rfl

theorem trans (h : p.Steered p') (h' : p'.Steered p'') : p.Steered p'' where
  inRange := h'.inRange
  boost_le := Int.le_trans h'.boost_le h.boost_le
  boost_pays := h.boost_pays.trans h'.boost_pays
  aging_le := Int.le_trans h'.aging_le h.aging_le
  aging_pays := h.aging_pays.trans h'.aging_pays
  q1 := h'.q1.trans h.q1
  q2 := h'.q2.trans h.q2

/-- A sustained rule steers if its action does. -/
theorem of_sustained {i : Fin 6} {threshold : Int} {mask : Nat} {holds : Bool}
    {act : Policy → Policy} {st : Policy × Nat} (h : st.1.InRange)
    (hact : ∀ p : Policy, p.InRange → p.Steered (act p)) :
    st.1.Steered (sustained i threshold mask holds act st).1 := by
  have hcnt := of_cnt h (Function.update st.1.cnt i (tally holds (st.1.cnt i)))
  unfold sustained
  dsimp only
  split
  · exact hcnt.trans (hact _ hcnt.inRange)
  · exact hcnt

end Policy.Steered

variable {p : Policy}

/-- Lowering `cur_boost` by a multiple of ten uses up room, or finds none. -/
theorem Policy.InRange.boost_down (h : p.InRange) {d : Int} (hd : 10 ∣ d) (hpos : 0 < d) :
    p.Steered { p with curBoost := clamp (p.curBoost - d) 10 500 } := by
  have hb := h.boost
  have hdvd := h.boost_dvd
  refine ⟨⟨h.q0, h.q1, h.q2, clamp_range (by decide), ?_, h.af, h.as, h.aging⟩, ?_, fun hne => ?_,
    Int.le_refl _, .refl _ _, rfl, rfl⟩
  · simp only [clamp]
    split_ifs <;> omega
  · simp only [clamp]
    split_ifs <;> omega
  · simp only [clamp, boostRoom] at hne ⊢
    split_ifs at hne ⊢ <;> omega

theorem Policy.InRange.aging_down (h : p.InRange) :
    p.Steered { p with curAging := clamp (p.curAging - 3) 1 100 } := by
  have ha := h.aging
  refine ⟨⟨h.q0, h.q1, h.q2, h.boost, h.boost_dvd, h.af, h.as, clamp_range (by decide)⟩,
    Int.le_refl _, .refl _ _, ?_, fun hne => ?_, rfl, rfl⟩
  · simp only [clamp]
    split_ifs <;> omega
  · simp only [clamp, agingRoom] at hne ⊢
    split_ifs at hne ⊢ <;> omega

theorem Policy.InRange.set_q0 (h : p.InRange) (v : Int) :
    p.Steered { p with curQ0 := clamp v 1 10 } :=
  ⟨⟨clamp_range (by decide), h.q1, h.q2, h.boost, h.boost_dvd, h.af, h.as, h.aging⟩,
    Int.le_refl _, .refl _ _, Int.le_refl _, .refl _ _, rfl, rfl⟩

theorem Policy.InRange.set_af (h : p.InRange) (v : Int) :
    p.Steered { p with curAf := clamp v (p.curAs + 1) 90 } := by
  have hrange : 11 ≤ clamp v (p.curAs + 1) 90 ∧ clamp v (p.curAs + 1) 90 ≤ 90 := by
    rw [h.as]
    exact clamp_range (by decide)
  exact ⟨⟨h.q0, h.q1, h.q2, h.boost, h.boost_dvd, hrange, h.as, h.aging⟩,
    Int.le_refl _, .refl _ _, Int.le_refl _, .refl _ _, rfl, rfl⟩

/-! ## One epoch -/

section Rules

variable {st : Policy × Nat} (h : st.1.InRange) (s : Signals)
include h

theorem rule1_steered : st.1.Steered (rule1 s st).1 := by
  refine .of_sustained h fun p hp => ?_
  have hb := hp.boost_down (d := 20) (by decide) (by decide)
  exact hb.trans (hb.inRange.set_q0 _)

theorem rule2_steered : st.1.Steered (rule2 s st).1 := .of_sustained h fun _ hp => hp.set_q0 _

theorem rule3_steered : st.1.Steered (rule3 s st).1 := .of_sustained h fun _ hp => hp.set_q0 _

theorem rule4_steered : st.1.Steered (rule4 s st).1 :=
  .of_sustained h fun _ hp => hp.boost_down (d := 10) (by decide) (by decide)

theorem rule5_steered : st.1.Steered (rule5 s st).1 := by
  unfold rule5
  split
  · exact h.set_af _
  · exact h.set_af _

theorem rule6_steered : st.1.Steered (rule6 s st).1 := .of_sustained h fun _ hp => hp.aging_down

end Rules

variable {p : Policy}

/-- **The six rules steer.** -/
theorem applyRules_steered (h : p.InRange) (s : Signals) : p.Steered (applyRules s p).1 := by
  have h1 : p.Steered _ := @rule1_steered (p, 0) h s
  have h2 := h1.trans (rule2_steered h1.inRange s)
  have h3 := h2.trans (rule3_steered h2.inRange s)
  have h4 := h3.trans (rule4_steered h3.inRange s)
  have h5 := h4.trans (rule5_steered h4.inRange s)
  exact h5.trans (rule6_steered h5.inRange s)

/-- In range, and the quanta in order. -/
structure Policy.Good (p : Policy) : Prop extends p.InRange where
  q0_le_q1 : p.curQ0 ≤ p.curQ1
  q1_le_q2 : p.curQ1 ≤ p.curQ2

/-- The repair raises `cur_q1` and `cur_q2` as far as needed and touches nothing else. -/
theorem Policy.InRange.repair (h : p.InRange) : p.repair.Good where
  q0 := h.q0
  q1 := by
    have := h.q0
    have := h.q1
    simp only [Policy.repair]
    split <;> omega
  q2 := by
    have := h.q0
    have := h.q1
    have := h.q2
    simp only [Policy.repair]
    split_ifs <;> omega
  boost := h.boost
  boost_dvd := h.boost_dvd
  af := h.af
  as := h.as
  aging := h.aging
  q0_le_q1 := by
    simp only [Policy.repair]
    split <;> omega
  q1_le_q2 := by
    simp only [Policy.repair]
    split_ifs <;> omega

theorem Policy.repair_q1_ge (p : Policy) : p.curQ1 ≤ p.repair.curQ1 := by
  simp only [Policy.repair]
  split <;> omega

theorem Policy.repair_q2_ge (p : Policy) : p.curQ2 ≤ p.repair.curQ2 := by
  simp only [Policy.repair]
  split_ifs <;> omega

/-- A quantum that only goes up, below ten, pays for every change. -/
theorem quantum_pays {q q' : Int} (hle : q ≤ q') (h10 : q' ≤ 10) : Pays quantumRoom q q' := by
  intro hne
  unfold quantumRoom
  omega

/-- **What one epoch does to a good state.** -/
structure Policy.Progress (p p' : Policy) : Prop where
  good : p'.Good
  boost_le : p'.curBoost ≤ p.curBoost
  boost_pays : Pays boostRoom p.curBoost p'.curBoost
  aging_le : p'.curAging ≤ p.curAging
  aging_pays : Pays agingRoom p.curAging p'.curAging
  q1_ge : p.curQ1 ≤ p'.curQ1
  q1_pays : Pays quantumRoom p.curQ1 p'.curQ1
  q2_ge : p.curQ2 ≤ p'.curQ2
  q2_pays : Pays quantumRoom p.curQ2 p'.curQ2

open Policy

theorem Policy.Good.next (h : p.Good) (s : Signals) : p.Progress (p.next s) := by
  have hrules := applyRules_steered h.toInRange s
  have hgood := hrules.inRange.repair
  have hq1 : p.curQ1 ≤ (p.next s).curQ1 := hrules.q1 ▸ (applyRules s p).1.repair_q1_ge
  have hq2 : p.curQ2 ≤ (p.next s).curQ2 := hrules.q2 ▸ (applyRules s p).1.repair_q2_ge
  exact ⟨hgood, hrules.boost_le, hrules.boost_pays, hrules.aging_le, hrules.aging_pays,
    hq1, quantum_pays hq1 hgood.q1.2, hq2, quantum_pays hq2 hgood.q2.2⟩

theorem Policy.init_good : init.Good := by
  refine ⟨⟨?_, ?_, ?_, ?_, ?_, ?_, ?_, ?_⟩, ?_, ?_⟩ <;> decide

/-- The policy state after a sequence of epochs with the given signals. -/
def Policy.after (ss : List Signals) : Policy := ss.foldl next init

theorem Policy.after_good (ss : List Signals) : (after ss).Good :=
  foldl_invariant (fun _ s h => (h.next s).good) init_good ss

/-- A good state is within the kernel's bounds, whichever mode comes with it. -/
theorem Policy.Good.accepted (h : p.Good) {rr : Int} (hrr : rr = 0 ∨ rr = 1) :
    (p.update rr).Accepted := by
  obtain ⟨⟨_, _, _, _, _, _, _, _⟩, _, _⟩ := h
  constructor <;> simp only [update] <;> omega

/-! ## A mixed workload -/

/-- A stretch of `decide_and_update` in which `cur_q0` is not written and neither rule 2 nor
rule 3 fires: their bits in `fired` stay. -/
structure Silent (st st' : Policy × Nat) : Prop where
  q0 : st'.1.curQ0 = st.1.curQ0
  bit1 : st'.2.testBit 1 = st.2.testBit 1
  bit2 : st'.2.testBit 2 = st.2.testBit 2

theorem Silent.trans {st st' st'' : Policy × Nat} (h : Silent st st') (h' : Silent st' st'') :
    Silent st st'' :=
  ⟨h'.q0.trans h.q0, h'.bit1.trans h.bit1, h'.bit2.trans h.bit2⟩

/-- A bit outside the mask is not set. -/
theorem testBit_or_mask (fired : Nat) {mask n : Nat} (h : mask.testBit n = false) :
    (fired ||| mask).testBit n = fired.testBit n := by
  simp [h]

section Sustained

variable {i : Fin 6} {threshold : Int} {mask : Nat} {holds : Bool} {act : Policy → Policy}
  {st : Policy × Nat}

/-- A rule with another mask, whose action leaves `cur_q0` alone. -/
theorem sustained_silent (hact : ∀ p : Policy, (act p).curQ0 = p.curQ0)
    (h1 : mask.testBit 1 = false) (h2 : mask.testBit 2 = false) :
    Silent st (sustained i threshold mask holds act st) := by
  unfold sustained
  dsimp only
  split
  · exact ⟨hact _, testBit_or_mask _ h1, testBit_or_mask _ h2⟩
  · exact ⟨rfl, rfl, rfl⟩

/-- A rule whose condition does not hold. -/
theorem sustained_silent_of_off (hoff : holds = false) (ht : 0 < threshold) :
    Silent st (sustained i threshold mask holds act st) := by
  have hno : ¬ tally holds (st.1.cnt i) ≥ threshold := by
    simp only [tally, hoff, Bool.false_eq_true, if_false]
    omega
  unfold sustained
  rw [if_neg hno]
  exact ⟨rfl, rfl, rfl⟩

end Sustained

theorem rule4_silent (s : Signals) (st : Policy × Nat) : Silent st (rule4 s st) :=
  sustained_silent (fun _ => rfl) (by decide) (by decide)

theorem rule6_silent (s : Signals) (st : Policy × Nat) : Silent st (rule6 s st) :=
  sustained_silent (fun _ => rfl) (by decide) (by decide)

theorem rule5_silent (s : Signals) (st : Policy × Nat) : Silent st (rule5 s st) := by
  unfold rule5
  split
  · exact ⟨rfl, testBit_or_mask _ (by decide), testBit_or_mask _ (by decide)⟩
  · exact ⟨rfl, rfl, rfl⟩

/-- Rule 1 lowers `cur_q0`, if anything, and fires under its own bit. -/
theorem rule1_lowers {p : Policy} (h : p.InRange) (s : Signals) :
    (rule1 s (p, 0)).1.curQ0 ≤ p.curQ0 ∧ (rule1 s (p, 0)).2.testBit 1 = false ∧
      (rule1 s (p, 0)).2.testBit 2 = false := by
  have := h.q0
  unfold rule1 sustained
  dsimp only
  split
  · refine ⟨?_, (by decide : Nat.testBit (0 ||| 1) 1 = false),
      (by decide : Nat.testBit (0 ||| 1) 2 = false)⟩
    simp only [clamp]
    split_ifs <;> omega
  · exact ⟨Int.le_refl _, Nat.zero_testBit 1, Nat.zero_testBit 2⟩

/-- **With a workload between the two thresholds rules 2 and 3 stay silent**, and then nothing
raises `cur_q0`. -/
theorem decideAndUpdate_mixed {p : Policy} (h : p.InRange) {s : Signals}
    (hlo : 30 ≤ s.workloadType) (hhi : s.workloadType ≤ 70) :
    (decideAndUpdate s p).2.testBit 1 = false ∧ (decideAndUpdate s p).2.testBit 2 = false ∧
    (decideAndUpdate s p).1.curQ0 ≤ p.curQ0 := by
  obtain ⟨hq0, hb1, hb2⟩ := rule1_lowers h s
  have h2 : Silent (rule1 s (p, 0)) (rule2 s (rule1 s (p, 0))) :=
    sustained_silent_of_off (decide_eq_false (by omega)) (by decide)
  have h3 : Silent (rule1 s (p, 0)) (rule3 s (rule2 s (rule1 s (p, 0)))) :=
    h2.trans (sustained_silent_of_off (decide_eq_false (by omega)) (by decide))
  have h6 : Silent (rule1 s (p, 0)) (applyRules s p) :=
    ((h3.trans (rule4_silent s _)).trans (rule5_silent s _)).trans (rule6_silent s _)
  exact ⟨h6.bit1.trans hb1, h6.bit2.trans hb2, Int.le_trans (Int.le_of_eq h6.q0) hq0⟩

/-! ## Whole runs -/

/-- **The policy is stable**, whatever signals it is fed with and for however long: its values
always pass the kernel's checks, four of the parameters are monotone, and each of the four settles
after a fixed number of changes. -/
theorem policy_stable (ss : List Signals) :
    (∀ rr, rr = 0 ∨ rr = 1 → ((after ss).update rr).Accepted) ∧
    (∀ s, ((after ss).next s).curBoost ≤ (after ss).curBoost ∧
      ((after ss).next s).curAging ≤ (after ss).curAging ∧
      (after ss).curQ1 ≤ ((after ss).next s).curQ1 ∧
      (after ss).curQ2 ≤ ((after ss).next s).curQ2) ∧
    changes next curBoost init ss ≤ 49 ∧
    changes next curAging init ss ≤ 17 ∧
    changes next curQ1 init ss ≤ 4 ∧
    changes next curQ2 init ss ≤ 2 := by
  have hgood := after_good ss
  have hstep : ∀ p s, Policy.Good p → (p.next s).Good := fun p s h => (h.next s).good
  refine ⟨fun rr hrr => hgood.accepted hrr, fun s => ?_, ?_, ?_, ?_, ?_⟩
  · have h := hgood.next s
    exact ⟨h.boost_le, h.aging_le, h.q1_ge, h.q2_ge⟩
  · exact changes_le hstep (fun p s h => (h.next s).boost_pays) init_good ss
  · exact changes_le hstep (fun p s h => (h.next s).aging_pays) init_good ss
  · exact changes_le hstep (fun p s h => (h.next s).q1_pays) init_good ss
  · exact changes_le hstep (fun p s h => (h.next s).q2_pays) init_good ss

/-- Sixty epochs of overload, starvation and abuse: `cur_boost` goes down to its floor. -/
theorem overload_settles :
    let ss := List.replicate 60 (Signals.mk 11 41 50 1 1)
    ((after ss).update 0).Accepted ∧ (after ss).curBoost = 10 ∧
      changes next curBoost init ss ≤ 49 := by
  intro ss
  exact ⟨(policy_stable ss).1 0 (.inl rfl), by decide +kernel, (policy_stable ss).2.2.1⟩

end Xv6.Agent
