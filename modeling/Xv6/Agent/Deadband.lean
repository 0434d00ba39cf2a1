import Mathlib.Algebra.GroupWithZero.Nat
import Mathlib.Data.List.Induction
import Xv6.Agent.Policy

/-!
# The deadband

Rules 1, 2, 3, 4 and 6 are meant to react to a signal only in the second epoch in a row that has
it. `twoEpochs` is that policy, without counters: it looks at the signals of two epochs. The rules
of `sagent.c` count, and compare the count with a threshold, which is 2 for three of them and 1 for
rules 1 and 4. So the two agree as long as rules 1 and 4 find no signal that is new.
-/

namespace Xv6.Agent

open Policy

variable {ss : List Signals} {s : Signals} {p : Policy} {st st' : Policy × Nat}

/-- The rules with a counter. -/
inductive Rule where
  | r1
  | r2
  | r3
  | r4
  | r6
  deriving DecidableEq

open Rule

namespace Rule

/-- The rule's bit of `fired`, and its entry of `cnt`. -/
def bit : Rule → Nat
  | r1 => 0
  | r2 => 1
  | r3 => 2
  | r4 => 3
  | r6 => 5

theorem bit_lt (r : Rule) : r.bit < 6 := by
  cases r <;> decide

theorem bit_inj {r r' : Rule} (h : r.bit = r'.bit) : r = r' := by
  cases r <;> cases r' <;> first | rfl | cases h

def index (r : Rule) : Fin 6 := ⟨r.bit, r.bit_lt⟩

def threshold : Rule → Int
  | r1 => 1
  | r2 => 2
  | r3 => 2
  | r4 => 1
  | r6 => 2

def trigger : Rule → Signals → Bool
  | r1, s => s.queuePressure > 40
  | r2, s => s.workloadType > 70
  | r3, s => s.workloadType < 30
  | r4, s => s.avgWait > 10
  | r6, s => s.abuseDetected ≠ 0

def act : Rule → Policy → Policy
  | r1, p =>
    { p with curBoost := clamp (p.curBoost - 20) 10 500, curQ0 := clamp (p.curQ0 - 1) 1 10 }
  | r2, p => { p with curQ0 := clamp (p.curQ0 + 1) 1 10 }
  | r3, p => { p with curQ0 := clamp (p.curQ0 - 1) 1 10 }
  | r4, p => { p with curBoost := clamp (p.curBoost - 10) 10 500 }
  | r6, p => { p with curAging := clamp (p.curAging - 3) 1 100 }

/-- The rule as it stands in `decide_and_update`. -/
def apply (r : Rule) (s : Signals) : Policy × Nat → Policy × Nat :=
  sustained r.index r.threshold (2 ^ r.bit) (r.trigger s) r.act

/-- The rule as it is meant: it fires if its trigger holds in this epoch and held before. -/
def fires (r : Rule) (before : Option Signals) (s : Signals) : Bool :=
  r.trigger s && before.any r.trigger

def react (r : Rule) (before : Option Signals) (s : Signals) (st : Policy × Nat) : Policy × Nat :=
  if r.fires before s then (r.act st.1, st.2 ||| 2 ^ r.bit) else st

end Rule

/-- `decide_and_update`, with a deadband of two epochs for the five rules. -/
def twoEpochs (before : Option Signals) (s : Signals) (p : Policy) : Policy × Nat :=
  let st := r4.react before s (r3.react before s (r2.react before s
    (r1.react before s (p, 0))))
  let st := r6.react before s (rule5 s st)
  (st.1.repair, st.2)

theorem applyRules_eq (s : Signals) (p : Policy) : applyRules s p =
    r6.apply s (rule5 s (r4.apply s (r3.apply s (r2.apply s
      (r1.apply s (p, 0)))))) := rfl

/-! ## The counters -/

theorem Rule.act_cnt (r : Rule) (p : Policy) : (r.act p).cnt = p.cnt := by
  cases r <;> rfl

theorem rule5_cnt (s : Signals) (st : Policy × Nat) : (rule5 s st).1.cnt = st.1.cnt := by
  unfold rule5
  split <;> rfl

/-- A rule writes its own counter. -/
theorem Rule.apply_cnt (r : Rule) (s : Signals) (st : Policy × Nat) : (r.apply s st).1.cnt =
    Function.update st.1.cnt r.index (tally (r.trigger s) (st.1.cnt r.index)) := by
  unfold apply sustained
  dsimp only
  split
  · exact r.act_cnt _
  · rfl

theorem Rule.apply_cnt_ne {r r' : Rule} (h : r' ≠ r) (s : Signals) (st : Policy × Nat) :
    (r.apply s st).1.cnt r'.index = st.1.cnt r'.index := by
  rw [r.apply_cnt]
  exact Function.update_of_ne (fun heq => h (bit_inj (congrArg Fin.val heq))) ..

/-- What an epoch does to the counter of a rule. -/
theorem next_cnt (r : Rule) (p : Policy) (s : Signals) :
    (p.next s).cnt r.index = tally (r.trigger s) (p.cnt r.index) := by
  have hself (r : Rule) (st : Policy × Nat) :
      (r.apply s st).1.cnt r.index = tally (r.trigger s) (st.1.cnt r.index) := by
    rw [r.apply_cnt, Function.update_self]
  have hcnt : (p.next s).cnt = (applyRules s p).1.cnt := rfl
  rw [hcnt, applyRules_eq]
  cases r <;>
    simp only [hself, rule5_cnt, apply_cnt_ne, ne_eq, reduceCtorEq, not_false_eq_true]

/-- The counter of a rule is positive exactly after an epoch with its signal. -/
structure Counted (r : Rule) (ss : List Signals) (p : Policy) : Prop where
  nonneg : 0 ≤ p.cnt r.index
  le : p.cnt r.index ≤ ss.length
  pos_iff : 0 < p.cnt r.index ↔ ss.getLast?.any r.trigger

theorem after_append (ss : List Signals) (s : Signals) :
    after (ss ++ [s]) = (after ss).next s := by
  simp [after]

/-- The counters do not overflow in fewer than 2³¹ epochs. -/
theorem after_counted (r : Rule) (ss : List Signals) (hlen : ss.length < 2147483648) :
    Counted r ss (after ss) := by
  induction ss using List.reverseRecOn with
  | nil =>
    have hzero : (after []).cnt r.index = 0 := rfl
    refine ⟨by omega, by omega, ?_⟩
    simp [hzero]
  | append_singleton ss s ih =>
    rw [List.length_append, List.length_singleton] at hlen
    obtain ⟨hnonneg, hle, -⟩ := ih (by omega)
    have hcnt := next_cnt r (after ss) s
    have hlast : (ss ++ [s]).getLast?.any r.trigger = r.trigger s := by simp
    have hcount : (((ss ++ [s]).length : Nat) : Int) = ss.length + 1 := by simp
    rw [after_append]
    unfold tally at hcnt
    by_cases htrigger : r.trigger s
    · rw [if_pos htrigger, i32_eq_self (by omega) (by omega)] at hcnt
      refine ⟨by omega, by omega, ?_⟩
      rw [hlast, hcnt]
      exact ⟨fun _ => htrigger, fun _ => by omega⟩
    · rw [if_neg htrigger] at hcnt
      refine ⟨by omega, by omega, ?_⟩
      rw [hlast, hcnt]
      exact ⟨fun h => absurd h (Int.lt_irrefl 0), fun h => absurd h htrigger⟩

/-! ## One epoch -/

/-- The parameters, without the counters. -/
def Policy.params (p : Policy) : Policy := { p with cnt := fun _ => 0 }

theorem Rule.act_params (r : Rule) (p : Policy) : (r.act p).params = r.act p.params := by
  cases r <;> rfl

/-- The same parameters, and the same bits. -/
def Same (st st' : Policy × Nat) : Prop := st.1.params = st'.1.params ∧ st.2 = st'.2

theorem rule5_same (s : Signals) (h : Same st st') : Same (rule5 s st) (rule5 s st') := by
  obtain ⟨p, b⟩ := st
  obtain ⟨p', b'⟩ := st'
  obtain ⟨hp, rfl⟩ := h
  obtain ⟨q0, q1, q2, boost, af, as, aging, cnt⟩ := p
  obtain ⟨q0', q1', q2', boost', af', as', aging', cnt'⟩ := p'
  simp only [params, mk.injEq, and_true] at hp
  obtain ⟨rfl, rfl, rfl, rfl, rfl, rfl, rfl⟩ := hp
  unfold rule5
  split
  · exact ⟨rfl, rfl⟩
  · exact ⟨rfl, rfl⟩

variable {before : Option Signals}

/-- A rule that compares its counter with its threshold fires as it is meant to. -/
theorem Rule.apply_same {r : Rule} (h : Same st st')
    (hfires : tally (r.trigger s) (st.1.cnt r.index) ≥ r.threshold ↔ r.fires before s) :
    Same (r.apply s st) (r.react before s st') := by
  obtain ⟨hp, hb⟩ := h
  unfold apply react sustained
  dsimp only
  by_cases hf : r.fires before s
  · rw [if_pos (hfires.mpr hf), if_pos hf]
    refine ⟨?_, by rw [hb]⟩
    rw [r.act_params, r.act_params]
    exact congrArg r.act hp
  · rw [if_neg fun hge => hf (hfires.mp hge), if_neg hf]
    exact ⟨hp, hb⟩

/-- Rules 1 and 4 find no signal that was not there in the epoch before. -/
def Unbroken (before : Option Signals) (s : Signals) : Prop :=
  (s.queuePressure > 40 → before.any fun b => b.queuePressure > 40) ∧
    (s.avgWait > 10 → before.any fun b => b.avgWait > 10)

instance (before : Option Signals) (s : Signals) : Decidable (Unbroken before s) :=
  inferInstanceAs (Decidable (_ ∧ _))

/-- The thresholds come to the same as looking at two epochs. -/
theorem Rule.threshold_iff {r : Rule} (hc : Counted r ss p) (hlen : ss.length < 2147483647)
    (hunbroken : Unbroken ss.getLast? s) :
    tally (r.trigger s) (p.cnt r.index) ≥ r.threshold ↔ r.fires ss.getLast? s := by
  have hnonneg := hc.nonneg
  have hle := hc.le
  have hpos := hc.pos_iff
  unfold tally fires
  by_cases htrigger : r.trigger s
  · rw [if_pos htrigger, i32_eq_self (by omega) (by omega), htrigger, Bool.true_and, ← hpos]
    have hone : r.threshold = 1 → 0 < p.cnt r.index := by
      intro h1
      rw [hpos]
      cases r with
      | r1 => exact hunbroken.1 (by simpa [trigger] using htrigger)
      | r4 => exact hunbroken.2 (by simpa [trigger] using htrigger)
      | r2 | r3 | r6 => exact absurd h1 (by decide)
    have htwo : r.threshold = 1 ∨ r.threshold = 2 := by cases r <;> decide
    omega
  · rw [if_neg htrigger]
    have hthreshold : 0 < r.threshold := by cases r <;> decide
    simp only [htrigger, Bool.false_and, Bool.false_eq_true, iff_false]
    omega

/-- **`decide_and_update` is the policy with a deadband of two epochs**, as far as the parameters and
the bits go. -/
theorem decideAndUpdate_same (hlen : ss.length < 2147483647) (hunbroken : Unbroken ss.getLast? s) :
    Same (decideAndUpdate s (after ss)) (twoEpochs ss.getLast? s (after ss)) := by
  have hfires (r : Rule) : tally (r.trigger s) ((after ss).cnt r.index) ≥ r.threshold ↔
      r.fires ss.getLast? s :=
    threshold_iff (after_counted r ss (by omega)) hlen hunbroken
  have h1 : Same (r1.apply s (after ss, 0)) _ := apply_same ⟨rfl, rfl⟩ (hfires .r1)
  have h2 : Same (r2.apply s _) _ := apply_same h1 (by
    rw [apply_cnt_ne (by decide)]
    exact hfires .r2)
  have h3 : Same (r3.apply s _) _ := apply_same h2 (by
    rw [apply_cnt_ne (by decide), apply_cnt_ne (by decide)]
    exact hfires .r3)
  have h4 : Same (r4.apply s _) _ := apply_same h3 (by
    rw [apply_cnt_ne (by decide), apply_cnt_ne (by decide), apply_cnt_ne (by decide)]
    exact hfires .r4)
  have h6 : Same (r6.apply s _) _ := apply_same (rule5_same s h4) (by
    rw [rule5_cnt, apply_cnt_ne (by decide), apply_cnt_ne (by decide),
      apply_cnt_ne (by decide), apply_cnt_ne (by decide)]
    exact hfires .r6)
  exact ⟨congrArg repair h6.1, h6.2⟩

theorem rule5_testBit (s : Signals) (st : Policy × Nat) {b : Nat} (hb : b ≠ 4) :
    (rule5 s st).2.testBit b = st.2.testBit b := by
  have hmask : Nat.testBit 0x10 b = false := by
    rw [show 0x10 = 2 ^ 4 from rfl, Nat.testBit_two_pow]
    exact decide_eq_false hb.symm
  unfold rule5
  split
  · exact testBit_or_mask _ hmask
  · rfl

theorem Rule.react_of_not {r : Rule} (h : r.fires before s = false) : r.react before s st = st := by
  unfold react
  rw [h]
  rfl

/-- With no rule of the five firing, only rule 5 moves a parameter. -/
theorem twoEpochs_quiet (h : ∀ r : Rule, r.fires before s = false) (hgood : p.Good) :
    ∃ af, (twoEpochs before s p).1 = { p with curAf := af } := by
  have hq1 := hgood.q0_le_q1
  have hq2 := hgood.q1_le_q2
  have hrepair (af : Int) : { p with curAf := af }.repair = { p with curAf := af } := by
    unfold repair
    dsimp only
    rw [if_neg (by omega), if_neg (by omega)]
  unfold twoEpochs
  simp only [react_of_not (h _)]
  unfold rule5
  split
  · exact ⟨_, hrepair _⟩
  · exact ⟨_, hrepair _⟩

theorem Rule.apply_testBit (r : Rule) (s : Signals) (st : Policy × Nat) (b : Nat) :
    (r.apply s st).2.testBit b = (st.2.testBit b ||
      (decide (tally (r.trigger s) (st.1.cnt r.index) ≥ r.threshold) && decide (r.bit = b))) := by
  unfold apply sustained
  dsimp only
  split
  · next hge => simp [hge, Nat.testBit_two_pow]
  · next hlt => simp [hlt]

/-- A rule's bit is set when its counter has reached its threshold. -/
theorem decideAndUpdate_testBit (r : Rule) (s : Signals) (p : Policy) :
    (decideAndUpdate s p).2.testBit r.bit =
      decide (tally (r.trigger s) (p.cnt r.index) ≥ r.threshold) := by
  have hb : r.bit ≠ 4 := by cases r <;> decide
  show (r6.apply s (rule5 s (r4.apply s (r3.apply s (r2.apply s (r1.apply s
    (p, 0))))))).2.testBit _ = _
  simp only [apply_testBit, rule5_testBit s _ hb, rule5_cnt, Nat.zero_testBit, Bool.false_or]
  cases r <;> simp [bit] <;> simp (disch := decide) [apply_cnt_ne]

/-- **The deadband of two epochs**, in any epoch of the first 2³¹: a rule's bit is set exactly when
its trigger held in this epoch and in the one before, what happens to the parameters is what these
rules and rule 5 do, and a signal of a single epoch moves nothing. This holds if and only if rules 1
and 4 find no signal that is new. -/
theorem deadband_iff_unbroken (ss : List Signals) (s : Signals) (hlen : ss.length < 2147483647) :
    ((∀ r : Rule, (decideAndUpdate s (after ss)).2.testBit r.bit ↔
      r.trigger s ∧ ss.getLast?.any r.trigger) ∧
    ((after ss).next s).params = (twoEpochs ss.getLast? s (after ss)).1.params ∧
    ((∀ r : Rule, ¬ (r.trigger s ∧ ss.getLast?.any r.trigger)) →
      ∃ af, ((after ss).next s).params = { (after ss).params with curAf := af })) ↔
    Unbroken ss.getLast? s := by
  refine ⟨fun ⟨hbits, _⟩ => ?_, fun hunbroken => ?_⟩
  · have hold : ∀ r : Rule, r.threshold = 1 → r.trigger s → ss.getLast?.any r.trigger := by
      intro r hone htrigger
      have hc := after_counted r ss (by omega)
      have hnonneg := hc.nonneg
      have hle := hc.le
      refine ((hbits r).mp ?_).2
      rw [decideAndUpdate_testBit, tally, if_pos htrigger, hone, i32_eq_self (by omega) (by omega)]
      exact decide_eq_true (by omega)
    exact ⟨fun h => hold .r1 rfl (decide_eq_true h), fun h => hold .r4 rfl (decide_eq_true h)⟩
  · obtain ⟨hparams, -⟩ := decideAndUpdate_same hlen hunbroken
    have hfires (r : Rule) : r.fires ss.getLast? s ↔ r.trigger s ∧ ss.getLast?.any r.trigger := by
      simp [fires]
    refine ⟨fun r => ?_, hparams, fun hquiet => ?_⟩
    · rw [decideAndUpdate_testBit, decide_eq_true_eq, ← hfires]
      exact threshold_iff (after_counted r ss (by omega)) hlen hunbroken
    · have hnone (r : Rule) : r.fires ss.getLast? s = false :=
        Bool.eq_false_iff.mpr fun hf => hquiet r ((hfires r).mp hf)
      obtain ⟨af, haf⟩ := twoEpochs_quiet hnone (after_good ss)
      refine ⟨af, hparams.trans ?_⟩
      rw [haf]
      rfl

/-- Two epochs of an I/O-bound workload: rule 2 fires in the second. -/
theorem two_io_epochs :
    (decideAndUpdate ⟨0, 0, 80, 0, 0⟩ (after [⟨0, 0, 80, 0, 0⟩])).2.testBit 1 :=
  (((deadband_iff_unbroken [⟨0, 0, 80, 0, 0⟩] ⟨0, 0, 80, 0, 0⟩ (by decide)).mpr (by decide)).1
    .r2).mpr (by decide)

/-- Rules 1 and 4 fire in the first epoch that has their signal, and move the boost interval. -/
theorem single_epoch_fires :
    (decideAndUpdate ⟨0, 41, 50, 0, 0⟩ (after [])).2.testBit r1.bit ∧
    ((after []).next ⟨0, 41, 50, 0, 0⟩).curBoost = 480 ∧
    (decideAndUpdate ⟨11, 0, 50, 0, 0⟩ (after [⟨0, 0, 50, 0, 0⟩])).2.testBit r4.bit ∧
    ((after [⟨0, 0, 50, 0, 0⟩]).next ⟨11, 0, 50, 0, 0⟩).curBoost = 490 := by
  decide

end Xv6.Agent
