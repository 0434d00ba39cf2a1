import Mathlib.Data.Prod.Lex
import Xv6.Sched.Pass

/-!
# Which process an MLFQ+SJF pass dispatches

The selection of a pass is a three-level scan that rescores in place, compares with the best so far
and leaves at the first queue that has a contender. What it computes is the least RUNNABLE slot in
one linear order: the queue level, then the score, then the place in the table, the first two as
boost and aging left them.
-/

namespace Xv6.Sched

variable {k : Kernel} {b i : Slot}

/-- What a pass ranks a slot by. -/
def Kernel.rank (k : Kernel) (i : Slot) : ℤ ×ₗ ℤ ×ₗ Slot :=
  toLex ((ripened k i).queueLevel, toLex ((ripened k i).score k.schedp.agingFactor, i))

theorem rank_le_iff : k.rank b ≤ k.rank i ↔
    (ripened k b).queueLevel ≤ (ripened k i).queueLevel ∧
      ((ripened k b).queueLevel = (ripened k i).queueLevel →
        (ripened k b).score k.schedp.agingFactor ≤ (ripened k i).score k.schedp.agingFactor ∧
          ((ripened k b).score k.schedp.agingFactor = (ripened k i).score k.schedp.agingFactor →
            b ≤ i)) := by
  rw [Kernel.rank, Kernel.rank, Prod.Lex.toLex_le_toLex', Prod.Lex.toLex_le_toLex']

theorem rank_injective (k : Kernel) : Function.Injective k.rank := by
  intro b i h
  have hle := rank_le_iff.mp h.le
  have hge := rank_le_iff.mp h.ge
  have hlevel := le_antisymm hle.1 hge.1
  have hscore := le_antisymm (hle.2 hlevel).1 (hge.2 hlevel.symm).1
  exact le_antisymm ((hle.2 hlevel).2 hscore) ((hge.2 hlevel.symm).2 hscore.symm)

/-- The levels of the table are queues. -/
def Kernel.Queued (k : Kernel) : Prop :=
  ∀ i, (k.proc i).state ≠ .unused → (k.proc i).queueLevel ∈ [(0 : Int), 1, 2]

theorem Kernel.Queued.ripened (h : k.Queued) (hi : (k.proc i).state ≠ .unused) :
    (ripened k i).queueLevel ∈ [(0 : Int), 1, 2] := by
  rw [ripened_queueLevel]
  split_ifs
  · exact List.mem_cons_self
  · exact h i hi

/-- A pass that finds a RUNNABLE process in one of the queues dispatches. -/
theorem picks_of_queue (hrr : k.schedp.rrMode = 0) (hi : (k.proc i).state = .runnable)
    (hmem : (ripened k i).queueLevel ∈ [(0 : Int), 1, 2]) : ∃ b, picked k = some b := by
  cases hpick : picked k with
  | some b => exact ⟨b, rfl⟩
  | none =>
    rw [picked_mlfq hrr] at hpick
    have hi' : (ripened k i).state = .runnable := by rw [ripened_state, hi]
    exact absurd hmem (selectMlfq_eq_none hpick hi')

/-- A pass is work-conserving. -/
theorem Kernel.Queued.picks (h : k.Queued) (hrr : k.schedp.rrMode = 0)
    (hi : (k.proc i).state = .runnable) : ∃ b, picked k = some b :=
  picks_of_queue hrr hi (h.ripened (by simp [hi]))

/-- What it dispatches comes first in the order. -/
theorem Kernel.Queued.rank_le (h : k.Queued) (hrr : k.schedp.rrMode = 0)
    (hb : picked k = some b) (hi : (k.proc i).state = .runnable) : k.rank b ≤ k.rank i := by
  rw [picked_mlfq hrr] at hb
  have hwins := selectMlfq_wins hb
  have hi' : (Sched.ripened k i).state = .runnable := by rw [ripened_state, hi]
  have hu : (k.proc i).state ≠ .unused := by simp [hi]
  refine rank_le_iff.mpr ⟨hwins.level_le i hi' (h.ripened hu), ?_⟩
  intro hlevel
  refine ⟨hwins.score_le i hi' hlevel.symm, ?_⟩
  intro hscore
  exact selectMlfq_first hb hi' hlevel.symm hscore.ge

/-- The dispatched process is the least RUNNABLE one, and there is only one such. -/
theorem Kernel.Queued.picked_iff (h : k.Queued) (hrr : k.schedp.rrMode = 0) :
    picked k = some b ↔
      (k.proc b).state = .runnable ∧ ∀ i, (k.proc i).state = .runnable → k.rank b ≤ k.rank i := by
  constructor
  · intro hb
    exact ⟨picked_runnable hb, fun i hi => h.rank_le hrr hb hi⟩
  · rintro ⟨hrun, hleast⟩
    obtain ⟨w, hw⟩ := h.picks hrr hrun
    have heq := le_antisymm (hleast w (picked_runnable hw)) (h.rank_le hrr hw hrun)
    rw [rank_injective k heq]
    exact hw

/-! ## What it does to the others -/

theorem Proc.rescored_rescored (aging : Int) (p : Proc) :
    (p.rescored aging).rescored aging = p.rescored aging := rfl

theorem scanLevel_cases (aging q : Int) (t : Table) (i : Slot) :
    (scanLevel aging q t).1 i = t i ∨ (scanLevel aging q t).1 i = (t i).rescored aging := by
  rw [scanLevel_fst]
  split
  · exact .inr rfl
  · exact .inl rfl

/-- The scan stores no score but the one it computes. -/
theorem scanLevels_cases (aging : Int) (qs : List Int) (t : Table) (i : Slot) :
    (scanLevels aging qs t).1 i = t i ∨ (scanLevels aging qs t).1 i = (t i).rescored aging := by
  induction qs generalizing t with
  | nil => exact .inl rfl
  | cons q qs ih =>
    rw [scanLevels]
    split
    · exact scanLevel_cases aging q t i
    · have hfirst := scanLevel_cases aging q t i
      rcases ih (scanLevel aging q t).1 with hsame | hnew
      · rw [hsame]
        exact hfirst
      · right
        rw [hnew]
        rcases hfirst with h | h
        · rw [h]
        · rw [h, Proc.rescored_rescored]

theorem selected_cases (hrr : k.schedp.rrMode = 0) (i : Slot) :
    selected k i = ripened k i ∨ selected k i = (ripened k i).rescored k.schedp.agingFactor := by
  have hsnap : ¬ k.schedp.snap.rr ≠ 0 := fun hne => hne hrr
  rw [selected, select, if_neg hsnap, age_boost_proc]
  exact scanLevels_cases _ _ _ i

/-! ## The score -/

/-- The score is the number the C expression says, where no `int` overflows on the way. -/
theorem score_eq {p : Proc} {aging : Int} (ha : 1 ≤ aging) (hema : 0 ≤ p.burstEmaFast)
    (hema' : p.burstEmaFast < 2147483648) (hwait : 0 ≤ p.waitTicks)
    (hwait' : p.waitTicks < 2147483648) :
    p.score aging = p.burstEmaFast.tdiv 100 - p.waitTicks.tdiv aging := by
  have hburst : 0 ≤ p.burstEmaFast.tdiv 100 ∧ p.burstEmaFast.tdiv 100 < 2147483648 := by
    rw [Int.tdiv_eq_ediv_of_nonneg hema]
    omega
  have hlo : 0 ≤ p.waitTicks.tdiv aging := Int.tdiv_nonneg hwait (by omega)
  have hhi : p.waitTicks.tdiv aging ≤ p.waitTicks := by
    rw [Int.tdiv_eq_ediv_of_nonneg hwait]
    exact Int.ediv_le_self _ hwait
  unfold Proc.score
  rw [i32_eq_self (by omega) (by omega)]

/-! ## The whole pass -/

/-- **MLFQ+SJF selection is exact and work-conserving.** A pass dispatches a process if and only if
one is RUNNABLE; it is the least one by level after the boost, score after aging and table index;
it is left RUNNING with no wait and the quantum of its level; no other slot gets anything but the
boost, the aging and its score; and these are what they should be. -/
theorem selection_exact (hqueued : k.Queued) (hacc : k.schedp.toSchedUpdate.Accepted)
    (hrr : k.schedp.rrMode = 0) :
    ((∃ b, picked k = some b) ↔ ∃ i, (k.proc i).state = .runnable) ∧
    (∀ b, picked k = some b ↔ (k.proc b).state = .runnable ∧
      ∀ i, (k.proc i).state = .runnable → k.rank b ≤ k.rank i) ∧
    (∀ b, picked k = some b →
      ((scheduler k).1.proc b).state = .running ∧
      ((scheduler k).1.proc b).waitTicks = 0 ∧
      ((scheduler k).1.proc b).queueLevel = (ripened k b).queueLevel ∧
      ((scheduler k).1.proc b).ticksRemaining =
        k.schedp.snap.quantum (ripened k b).queueLevel) ∧
    (∀ i, picked k ≠ some i → (scheduler k).1.proc i = ripened k i ∨
      (scheduler k).1.proc i = (ripened k i).rescored k.schedp.agingFactor) ∧
    (∀ i, ripened k i =
      let boosted := boostDue k.schedp.snap k ∧ (k.proc i).state ≠ .unused
      let wait := if boosted then 0 else (k.proc i).waitTicks
      { k.proc i with
        queueLevel := if boosted then 0 else (k.proc i).queueLevel
        ticksRemaining := if boosted then k.schedp.q0Quantum else (k.proc i).ticksRemaining
        waitTicks := if (k.proc i).state = .runnable then i32 (wait + 1) else wait }) ∧
    ∀ i, 0 ≤ (ripened k i).burstEmaFast → (ripened k i).burstEmaFast < 2147483648 →
      0 ≤ (ripened k i).waitTicks → (ripened k i).waitTicks < 2147483648 →
      (ripened k i).score k.schedp.agingFactor =
        (ripened k i).burstEmaFast.tdiv 100 -
          (ripened k i).waitTicks.tdiv k.schedp.agingFactor := by
  refine ⟨⟨?_, ?_⟩, fun b => hqueued.picked_iff hrr, ?_, ?_, ?_, ?_⟩
  · rintro ⟨b, hb⟩
    exact ⟨b, picked_runnable hb⟩
  · rintro ⟨i, hi⟩
    exact hqueued.picks hrr hi
  · intro b hb
    have hlevel : ((scheduler k).1.proc b).queueLevel = (ripened k b).queueLevel := by
      rw [pass_queueLevel, ripened_queueLevel]
    refine ⟨by rw [scheduler_state, if_pos hb], by rw [pass_waitTicks, if_pos hb], hlevel, ?_⟩
    rw [pass_ticksRemaining_picked hb, hlevel]
  · intro i hi
    rw [scheduler_proc_selected, if_neg hi]
    exact selected_cases hrr i
  · intro i
    unfold ripened Proc.aged Proc.boosted
    cases k.proc i
    split_ifs <;> simp_all
  · intro i hema hema' hwait hwait'
    exact score_eq hacc.aging_pos hema hema' hwait hwait'

/-- A process in queue 1, and two in queue 0 of which the later one has the shorter bursts. -/
def threeWay : Kernel where
  proc i :=
    if i = 3 then { Proc.zero with state := .runnable, queueLevel := 1 }
    else if i = 5 then { Proc.zero with state := .runnable, burstEmaFast := 300 }
    else if i = 7 then { Proc.zero with state := .runnable, burstEmaFast := 200 }
    else Proc.zero
  schedp := pinit
  nextpid := 8
  ticks := 0
  initproc := 3
  lastBoostTick := 0
  rrNext := 0

theorem threeWay_picks : picked threeWay = some 7 ∧
    ((scheduler threeWay).1.proc 7).state = .running ∧
    ((scheduler threeWay).1.proc 7).ticksRemaining = pinit.q0Quantum := by
  have hqueued : threeWay.Queued := by
    unfold Kernel.Queued
    decide
  obtain ⟨-, hpicked, hleft, -⟩ := selection_exact hqueued pinit_accepted rfl
  have hseven : picked threeWay = some 7 := by
    refine (hpicked 7).mpr ⟨rfl, ?_⟩
    simp only [rank_le_iff]
    decide
  obtain ⟨hrun, -, -, hquantum⟩ := hleft 7 hseven
  exact ⟨hseven, hrun, hquantum⟩

end Xv6.Sched
