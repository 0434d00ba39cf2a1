import Xv6.Common.Aging
import Xv6.Sched.Level
import Xv6.Sched.Selection

/-!
# Starvation

A process that is RUNNABLE waits for a pass to pick it. `passedOver` counts the passes in a row
that did not. Three things hold it back: RUNNABLE processes in a lower-numbered queue, shorter
bursts in its own queue, and the boost, which takes away the `wait_ticks` it has collected.

Only the second is bounded. `burst_ema_fast / 100` is at most 50, so a process that has waited
`51 * aging_factor` passes longer than a rival beats it, and what is left is the bounded bypass of
`Aging`. The bound is `51 * aging_factor + NPROC`.
-/

namespace Xv6.Sched

open Transition

variable {ncpu : Nat}

/-! ## Scores -/

/-- What a process in use keeps: its level is one of the three queues, its burst estimate is
capped. -/
def Proc.Ranged (p : Proc) : Prop :=
  p.state ≠ .unused →
    (0 ≤ p.queueLevel ∧ p.queueLevel ≤ 2) ∧ 0 ≤ p.burstEmaFast ∧ p.burstEmaFast ≤ 5000

theorem Proc.Ranged.level_mem {p : Proc} (h : p.Ranged) (hp : p.state ≠ .unused) :
    p.queueLevel ∈ [(0 : Int), 1, 2] := by
  obtain ⟨⟨hlo, hhi⟩, -⟩ := h hp
  simp only [List.mem_cons, List.not_mem_nil, or_false]
  omega

theorem Proc.Ranged.ema {p : Proc} (h : p.Ranged) (hp : p.state ≠ .unused) :
    0 ≤ p.burstEmaFast ∧ p.burstEmaFast ≤ 5000 := (h hp).2

/-- **A wait that is longer by `51 * aging` outweighs any burst**, as the part of the score that
comes from the bursts is between 0 and 50. The upper bound on the wait is there for the `int` the
score is stored in. -/
theorem score_lt_of_outwaited {p r : Proc} {aging : Int}
    (hp : 0 ≤ p.burstEmaFast ∧ p.burstEmaFast ≤ 5000)
    (hr : 0 ≤ r.burstEmaFast ∧ r.burstEmaFast ≤ 5000) (ha : 1 ≤ aging)
    (hpos : 0 ≤ r.waitTicks) (hlong : r.waitTicks + 51 * aging ≤ p.waitTicks)
    (hsmall : p.waitTicks < 2147483648) : p.score aging < r.score aging := by
  have hdiv : r.waitTicks.tdiv aging + 51 ≤ p.waitTicks.tdiv aging := by
    rw [← tdiv_add_mul 51 hpos (by omega) (by omega)]
    exact Int.tdiv_le_tdiv (by omega) hlong
  rw [score_eq ha hp.1 (by omega) (by omega) hsmall, score_eq ha hr.1 (by omega) hpos (by omega),
    Int.tdiv_eq_ediv_of_nonneg hp.1, Int.tdiv_eq_ediv_of_nonneg hr.1]
  omega

/-- A pass that does not boost, and whose lowest queue in use is that of `i`, does not pick a
process that `i` has outwaited. -/
theorem not_picked_of_outwaited {k : Kernel} {i w : Slot} (hrr : k.schedp.rrMode = 0)
    (ha : 1 ≤ k.schedp.agingFactor) (hboost : ¬ boostDue k.schedp.snap k)
    (hi : (k.proc i).state = .runnable) (hmem : (k.proc i).queueLevel ∈ [(0 : Int), 1, 2])
    (hlow : ∀ r, (k.proc r).state = .runnable → (k.proc i).queueLevel ≤ (k.proc r).queueLevel)
    (hema : ∀ r, (k.proc r).state = .runnable →
      0 ≤ (k.proc r).burstEmaFast ∧ (k.proc r).burstEmaFast ≤ 5000)
    (hpos : 0 ≤ (k.proc w).waitTicks)
    (hlong : (k.proc w).waitTicks + 51 * k.schedp.agingFactor ≤ (k.proc i).waitTicks)
    (hsmall : (k.proc i).waitTicks < 2147483647) : picked k ≠ some w := by
  intro hpick
  have hw := picked_runnable hpick
  have hwins := selectMlfq_wins (picked_mlfq hrr ▸ hpick)
  have hi' : (ripened k i).state = .runnable := by rw [ripened_state, hi]
  have hlevel : ∀ j, (ripened k j).queueLevel = (k.proc j).queueLevel := fun j => by
    rw [ripened_queueLevel, if_neg fun hb => hboost hb.1]
  have haged : ∀ j, (k.proc j).state = .runnable → 0 ≤ (k.proc j).waitTicks →
      (k.proc j).waitTicks < 2147483647 →
      (ripened k j).waitTicks = (k.proc j).waitTicks + 1 := fun j hj hlo hhi => by
    rw [ripened_waitTicks_runnable hj, if_neg hboost, i32_eq_self (by omega) (by omega)]
  have hwait_i := haged i hi (by omega) hsmall
  have hwait_w := haged w hw hpos (by omega)
  -- `i` and `w` meet in one queue, and there the longer wait has the lower score
  have hsame : (ripened k i).queueLevel = (ripened k w).queueLevel := by
    have hle := hwins.level_le i hi' (by rw [hlevel]; exact hmem)
    have hge := hlow w hw
    rw [hlevel, hlevel] at *
    omega
  have hle := hwins.score_le i hi' hsame
  have hlt : (ripened k i).score k.schedp.agingFactor < (ripened k w).score k.schedp.agingFactor :=
    score_lt_of_outwaited (by rw [ripened_burstEmaFast]; exact hema i hi)
      (by rw [ripened_burstEmaFast]; exact hema w hw) ha (by omega) (by omega) (by omega)
  omega

theorem ripened_ranged {k : Kernel} {j : Slot} (h : (k.proc j).Ranged) : (ripened k j).Ranged := by
  intro hu
  rw [ripened_state] at hu
  obtain ⟨hl, hema⟩ := h hu
  rw [ripened_queueLevel, ripened_burstEmaFast]
  split_ifs
  · exact ⟨by omega, hema⟩
  · exact ⟨hl, hema⟩

/-! ## The history -/

/-- What a step adds to the number of passes in a row that found a process RUNNABLE and did not
pick it. -/
def passedOver (g : Slot → Nat) (m : Machine ncpu) : Event ncpu → Slot → Nat
  | .pass _ => fun i =>
    if (m.proc i).state = .runnable ∧ picked m.toKernel ≠ some i then g i + 1 else 0
  | _ => g

/-- Nothing but the aging term holds process `i` back in this step: a pass that finds it RUNNABLE
either boosts when it has no `wait_ticks` to lose, or does not boost and finds no RUNNABLE process
in a lower-numbered queue. -/
def NotHeldBack (i : Slot) (m : Machine ncpu) : Event ncpu → Prop
  | .pass _ => (m.proc i).state = .runnable →
    if boostDue m.schedp.snap m.toKernel then (m.proc i).waitTicks = 0
    else ∀ r, (m.proc r).state = .runnable → (m.proc i).queueLevel ≤ (m.proc r).queueLevel
  | _ => True

instance (i : Slot) (m : Machine ncpu) : DecidablePred (NotHeldBack i m)
  | .pass _ => inferInstanceAs (Decidable (_ → @ite Prop _ _ _ _))
  | .irq _ _ | .telemetry _ _ | .trapEnd _ | .forkAlloc _ _ | .forkFail _ _ _ | .forkDone _ _ _
  | .exec _ _ _ | .sleep _ _ _ | .wakeup _ | .kill _ _ | .alarm _ _ _ | .registerTest _ _
  | .registerLock _ _ | .registerPin _ _ | .setparamTest _ _ _ _ | .setparamWrite _ _ _
  | .getschedstats _ _ _ _ | .fault _ _ _ | .exitCall _ _ | .exitRelease _ _ | .exitZombie _ _
  | .reap _ _ _ | .waitSleep _ _ => .isTrue trivial

/-- Scheduler passes, timer traps, sleeps, wakeups and process creation. -/
def Event.schedules : Event ncpu → Bool
  | .pass _ | .irq _ _ | .telemetry _ _ | .trapEnd _ | .sleep _ _ _ | .wakeup _
  | .forkAlloc _ _ | .forkFail _ _ _ | .forkDone _ _ _ => true
  | _ => false

namespace Machine

variable {m : Machine ncpu} {e : Event ncpu}

/-- With the tunables `P`, no process is ever passed over more than some number of times in a
row. -/
def StarvationFree (P : SchedUpdate) : Prop :=
  ∃ B : Nat, ∀ (ncpu : Nat) (es : List (Event ncpu)) (m : Machine ncpu),
    (∀ e ∈ es, e.schedules) → (bootWith P ncpu).run es = some m →
    ∀ i, track step passedOver (bootWith P ncpu) (fun _ => 0) es i ≤ B

/-! ## One step -/

theorem WF.slot_ranged (h : m.WF) {j : Slot} {p : Proc} (hs : SlotStep m e j p)
    (hj : (m.proc j).Ranged) : p.Ranged := by
  have hrun : ∀ c, m.cpu c = some j → (m.proc j).state ≠ .unused := by
    intro c hc
    rw [h.cpu_running c j hc]
    simp
  intro hp
  cases hs with
  | stirred _ hs =>
    rw [hs.frame Proc.queueLevel fun _ _ _ _ _ _ => rfl,
      hs.frame Proc.burstEmaFast fun _ _ _ _ _ _ => rfl]
    exact hj fun hu => hp (hs.unused_iff.mpr hu)
  | passed =>
    have hu : (m.proc j).state ≠ .unused := fun hu =>
      hp (by rw [scheduler_state, hu, if_neg fun hpick => by simp [picked_runnable hpick] at hu])
    rw [pass_queueLevel, scheduler_proc_frame Proc.burstEmaFast fun _ _ _ _ _ _ _ _ => rfl]
    obtain ⟨hl, hema⟩ := hj hu
    split_ifs
    · exact ⟨by omega, hema⟩
    · exact ⟨hl, hema⟩
  | counted hc =>
    obtain ⟨hl, hema⟩ := hj (hrun _ hc)
    refine ⟨?_, ?_⟩
    · rw [Proc.telemetry_queueLevel]
      split_ifs <;> omega
    · unfold Proc.telemetry
      split_ifs
      · exact emaCap_range _
      · exact hema
      · exact hema
  | allocated => simp [allocproc]
  | made hctl => exact hj (by rw [h.forking_embryo _ _ hctl]; simp)
  | exited hc _ hs =>
    have := hj (hrun _ hc)
    rw [← hs.frame Proc.queueLevel fun _ _ _ _ _ _ => rfl,
      ← hs.frame Proc.burstEmaFast fun _ _ _ _ _ _ => rfl] at this
    exact this
  | pinned hc => exact ⟨by simp, (hj (hrun _ hc)).2⟩
  | yielded hc | resized hc | slept hc | waited hc | faulted hc => exact hj (hrun _ hc)
  | aborted | reaped => exact absurd rfl hp

/-- Outside a pass a wait changes only when its slot is allocated afresh. -/
theorem SlotStep.waitTicks {j : Slot} {p : Proc} (hs : SlotStep m e j p)
    (hpass : ∀ c, e ≠ .pass c) :
    p.waitTicks = (m.proc j).waitTicks ∨ p.waitTicks = 0 ∧ (m.proc j).state = .unused := by
  cases hs with
  | stirred _ hs => exact .inl (hs.frame Proc.waitTicks fun _ _ _ _ _ _ => rfl)
  | passed => exact absurd rfl (hpass _)
  | counted => exact .inl (Proc.telemetry_frame Proc.waitTicks fun _ _ _ _ _ _ _ => rfl)
  | allocated hfree => exact .inr ⟨by simp [allocproc], freeSlot_unused hfree⟩
  | exited _ _ hs => exact .inl (hs.frame Proc.waitTicks fun _ _ _ _ _ _ => rfl)
  | _ => exact .inl rfl

/-- Outside a pass a RUNNABLE process stays RUNNABLE. -/
theorem WF.slot_runnable (h : m.WF) {j : Slot} {p : Proc} (hs : SlotStep m e j p)
    (hpass : ∀ c, e ≠ .pass c) (hj : (m.proc j).state = .runnable) : p.state = .runnable := by
  have hcpu : ∀ c, m.cpu c ≠ some j := by
    intro c hc
    rw [h.cpu_running c j hc] at hj
    cases hj
  cases hs with
  | stirred _ hs => rw [hs.state_eq (by simp [hj]), hj]
  | passed => exact absurd rfl (hpass _)
  | allocated hfree => rw [freeSlot_unused hfree] at hj; cases hj
  | aborted hctl => rw [h.forking_embryo _ _ hctl] at hj; cases hj
  | reaped hz => rw [hz] at hj; cases hj
  | made => rfl
  | counted hc | yielded hc | resized hc | slept hc | waited hc | pinned hc | faulted hc
  | exited hc => exact absurd hc (hcpu _)

/-! ## The invariant -/

/-- Process `i` has been waiting for as long as it has been passed over, and has been patient. -/
structure WaitInv (P : SchedUpdate) (i : Slot) (m : Machine ncpu) (g : Slot → Nat) : Prop where
  wf : m.WF
  ranged : ∀ j, (m.proc j).Ranged
  params : m.schedp.toSchedUpdate = P
  wait : (m.proc i).waitTicks = g i
  rested : (m.proc i).state ≠ .runnable → g i = 0
  patient : Aging.Patient (51 * P.agingFactor) i fun j => (m.proc j).waitTicks

variable {P : SchedUpdate} {i w : Slot} {g : Slot → Nat}

section

variable (h : m.WaitInv P i g)

include h

theorem WaitInv.wait_lt (ha : P.Accepted) :
    (m.proc i).waitTicks < 51 * P.agingFactor + NPROC ∧ (m.proc i).waitTicks < 10000 := by
  have hlt := h.patient.lt_card
  rw [Fintype.card_fin] at hlt
  have := ha.aging_le
  have hN : (NPROC : Int) = 64 := rfl
  omega

/-- In MLFQ mode a pass that finds `i` RUNNABLE picks somebody. -/
theorem WaitInv.picks (hrr : P.rrMode = 0)
    (hi : (m.proc i).state = .runnable) : ∃ w, picked m.toKernel = some w := by
  have hu : (ripened m.toKernel i).state ≠ .unused := by simp [hi]
  exact picks_of_queue (by rw [h.params, hrr]) hi ((ripened_ranged (h.ranged i)).level_mem hu)

/-- A pass that does not boost, and whose lowest queue in use is that of `i`, does not pick a
process that `i` has outwaited. -/
theorem WaitInv.fresh (ha : P.Accepted) (hrr : P.rrMode = 0)
    (hi : (m.proc i).state = .runnable) (hboost : ¬ boostDue m.schedp.snap m.toKernel)
    (hlow : ∀ r, (m.proc r).state = .runnable → (m.proc i).queueLevel ≤ (m.proc r).queueLevel)
    (hpick : picked m.toKernel = some w) :
    w ∉ Aging.outwaited (51 * P.agingFactor) i fun j => (m.proc j).waitTicks := by
  intro hmem
  obtain ⟨-, hpos, hlong⟩ := Aging.mem_outwaited.mp hmem
  have hsmall := (h.wait_lt ha).2
  have huse : ∀ r, (m.proc r).state = .runnable → (m.proc r).state ≠ .unused := by
    intro r hr
    simp [hr]
  refine not_picked_of_outwaited (k := m.toKernel) (by rw [h.params, hrr]) ?_ hboost hi
    ((h.ranged i).level_mem (huse i hi)) hlow (fun r hr => (h.ranged r).ema (huse r hr)) hpos ?_
    (by omega) hpick
  · rw [h.params]
    exact ha.aging_pos
  · rw [h.params]
    exact hlong

/-- A pass that does not boost and passes `i` over is a lost round. -/
theorem WaitInv.lost (ha : P.Accepted) (hrr : P.rrMode = 0)
    (hi : (m.proc i).state = .runnable) (hboost : ¬ boostDue m.schedp.snap m.toKernel)
    (hlow : ∀ r, (m.proc r).state = .runnable → (m.proc i).queueLevel ≤ (m.proc r).queueLevel)
    (hpick : picked m.toKernel = some w) (hne : w ≠ i) :
    Aging.Lost (51 * P.agingFactor) i w (fun j => (m.proc j).waitTicks)
      fun j => ((scheduler m.toKernel).1.proc j).waitTicks := by
  have hsmall := (h.wait_lt ha).2
  have hstep : ∀ j, picked m.toKernel ≠ some j → (m.proc j).state = .runnable →
      0 ≤ (m.proc j).waitTicks → (m.proc j).waitTicks < 10000 →
      ((scheduler m.toKernel).1.proc j).waitTicks = (m.proc j).waitTicks + 1 := by
    intro j hj hjr hlo hhi
    rw [pass_waitTicks, if_neg hj, ripened_waitTicks_runnable hjr, if_neg hboost,
      i32_eq_self (by omega) (by omega)]
  refine ⟨hne, ?_, ?_, h.fresh ha hrr hi hboost hlow hpick, ?_⟩
  · refine hstep i ?_ hi (by rw [h.wait]; omega) hsmall
    rw [hpick]
    exact fun heq => hne (Option.some.inj heq)
  · show ((scheduler m.toKernel).1.proc w).waitTicks = 0
    rw [pass_waitTicks, if_pos hpick]
  · intro r hmem
    obtain ⟨-, hpos, hlong⟩ := Aging.mem_outwaited.mp hmem
    have := ha.aging_pos
    by_cases hr : picked m.toKernel = some r
    · exact .inr (.inr (by simp only [pass_waitTicks, if_pos hr]))
    · by_cases hrun : (m.proc r).state = .runnable
      · exact .inr (.inl (hstep r hr hrun hpos (by omega)))
      · simp only [pass_waitTicks, if_neg hr]
        rcases ripened_waitTicks_of_not hrun with hsame | hzero
        · exact .inl hsame
        · exact .inr (.inr hzero)

/-- What a pass does to the books of process `i`. -/
theorem WaitInv.pass (ha : P.Accepted) (hrr : P.rrMode = 0) {c : Fin ncpu}
    (hfair : NotHeldBack i m (.pass c)) :
    (((scheduler m.toKernel).1.proc i).waitTicks = passedOver g m (.pass c) i) ∧
      Aging.Patient (51 * P.agingFactor) i fun j =>
        ((scheduler m.toKernel).1.proc j).waitTicks := by
  have hK : 1 < 51 * P.agingFactor := by
    have := ha.aging_pos
    omega
  by_cases hi : (m.proc i).state = .runnable
  · obtain ⟨w, hpick⟩ := h.picks hrr hi
    by_cases hw : w = i
    · -- `i` is picked
      subst hw
      have hzero : ((scheduler m.toKernel).1.proc w).waitTicks = 0 := by
        rw [pass_waitTicks, if_pos hpick]
      refine ⟨?_, Aging.patient_of_lt (by show _ < _; omega)⟩
      rw [hzero]
      simp [passedOver, hpick]
    · have hno : picked m.toKernel ≠ some i := by
        rw [hpick]
        exact fun heq => hw (Option.some.inj heq)
      have hover : passedOver g m (.pass c) i = g i + 1 := by simp [passedOver, hi, hno]
      have hcond := hfair hi
      by_cases hboost : boostDue m.schedp.snap m.toKernel
      · -- a boost that takes nothing away
        rw [if_pos hboost] at hcond
        have hone : ((scheduler m.toKernel).1.proc i).waitTicks = 1 := by
          rw [pass_waitTicks, if_neg hno, ripened_waitTicks_runnable hi, if_pos hboost]
          rfl
        refine ⟨?_, Aging.patient_of_lt (by show _ < _; omega)⟩
        rw [hone, hover]
        have := h.wait
        omega
      · rw [if_neg hboost] at hcond
        have hlost := h.lost ha hrr hi hboost hcond hpick hw
        refine ⟨?_, h.patient.lose hlost⟩
        rw [hover, show _ = _ from hlost.loser, h.wait]
        rfl
  · have hzero : ((scheduler m.toKernel).1.proc i).waitTicks = 0 := by
      have hno : picked m.toKernel ≠ some i := fun hp => hi (picked_runnable hp)
      rw [pass_waitTicks, if_neg hno]
      rcases ripened_waitTicks_of_not hi with hsame | hzero
      · rw [hsame, h.wait, h.rested hi]
        rfl
      · exact hzero
    refine ⟨?_, Aging.patient_of_lt (by show _ < _; omega)⟩
    rw [hzero]
    simp [passedOver, hi]

theorem WaitInv.other (he : m.Enabled e) (hpass : ∀ c, e ≠ .pass c) :
    ((m.effect e).proc i).waitTicks = (m.proc i).waitTicks ∧
      Aging.Patient (51 * P.agingFactor) i fun j => ((m.effect e).proc j).waitTicks := by
  have hi : ((m.effect e).proc i).waitTicks = (m.proc i).waitTicks := by
    rcases (effect_slot he i).waitTicks hpass with hsame | ⟨hzero, hu⟩
    · exact hsame
    · rw [hzero, h.wait, h.rested (by rw [hu]; simp)]
      rfl
  refine ⟨hi, h.patient.rest hi ?_⟩
  intro r _
  rcases (effect_slot he r).waitTicks hpass with hsame | ⟨hzero, -⟩
  · exact .inl hsame
  · exact .inr hzero

/-- **One step of the invariant.** -/
theorem WaitInv.effect (ha : P.Accepted) (hrr : P.rrMode = 0)
    (he : m.Enabled e) (hset : ∀ c j upd, e ≠ .setparamWrite c j upd)
    (hfair : NotHeldBack i m e) : (m.effect e).WaitInv P i (passedOver g m e) := by
  have hwf := h.wf.effect he
  have hranged : ∀ j, ((m.effect e).proc j).Ranged := fun j =>
    h.wf.slot_ranged (effect_slot he j) (h.ranged j)
  have hparams := (effect_tunables (m := m) hset).trans h.params
  by_cases hpass : ∃ c, e = .pass c
  · obtain ⟨c, rfl⟩ := hpass
    obtain ⟨hwait, hpatient⟩ := h.pass ha hrr hfair
    refine ⟨hwf, hranged, hparams, hwait, ?_, hpatient⟩
    intro hi
    have hst : ((m.effect (.pass c)).proc i).state = _ := scheduler_state m.toKernel i
    refine if_neg fun hover => hi ?_
    rw [hst, if_neg hover.2, hover.1]
  · have hpass : ∀ c, e ≠ .pass c := fun c hc => hpass ⟨c, hc⟩
    have hover : passedOver g m e = g := by
      cases e with
      | pass c => exact absurd rfl (hpass c)
      | _ => rfl
    obtain ⟨hwait, hpatient⟩ := h.other he hpass
    refine ⟨hwf, hranged, hparams, by rw [hover, hwait, h.wait], ?_, hpatient⟩
    intro hi
    rw [hover]
    exact h.rested fun hr => hi (h.wf.slot_runnable (effect_slot he i) hpass hr)

end

theorem bootWith_waitInv (P : SchedUpdate) (ncpu : Nat) (i : Slot) (ha : P.Accepted) :
    (bootWith P ncpu).WaitInv P i fun _ => 0 := by
  have hage := ha.aging_pos
  have hwait : ∀ j, ((bootWith P ncpu).proc j).waitTicks = 0 := by
    intro j
    simp only [bootWith, boot, bootKernel, allocproc, Kernel.setProc_proc]
    split_ifs <;> rfl
  refine ⟨bootWith_wf, ?_, rfl, hwait i, fun _ => rfl, ?_⟩
  · intro j hu
    simp only [bootWith, boot, bootKernel, allocproc, Kernel.setProc_proc] at hu ⊢
    split_ifs at hu ⊢ with hj
    · simp
    · exact absurd rfl hu
  · apply Aging.patient_of_lt
    rw [hwait]
    omega

/-- **No starvation by shorter bursts alone**: with the tunables held fixed, a process that is not
held back by a lower-numbered queue or by a boost is passed over at most
`51 * aging_factor + NPROC` times in a row, whatever the other processes and the CPUs do. -/
theorem passedOver_le (P : AcceptedParams) (hrr : P.1.rrMode = 0) {es : List (Event ncpu)}
    (h : (bootWith P ncpu).run es = some m)
    (hset : ∀ e ∈ es, ∀ c j upd, e ≠ .setparamWrite c j upd) (i : Slot)
    (hfair : Allowed step (NotHeldBack i) (bootWith P ncpu) es) :
    (track step passedOver (bootWith P ncpu) (fun _ => 0) es i : Int) ≤
      51 * P.1.agingFactor + NPROC := by
  have hinv : m.WaitInv P i
      (track step passedOver (bootWith P ncpu) (fun _ => 0) es) := by
    refine run_track (I := fun m g => m.WaitInv P i g) ?_ h
      ((allowed_of_forall_mem hset).and hfair) (bootWith_waitInv P ncpu i P.2)
    rintro s g e s' hs ⟨hne, hf⟩ hse
    obtain ⟨hen, rfl⟩ := step_eq_some.mp hse
    exact hs.effect P.2 hrr hen hne hf
  have hlt := (hinv.wait_lt P.2).1
  rw [hinv.wait] at hlt
  omega

/-- Init forks, sleeps and is woken; the next pass prefers it to its child. -/
def contestSession : List (Event 1) :=
  [.pass 0, .forkAlloc 0 0, .forkDone 0 0 1, .sleep 0 0 .ticks, .wakeup .ticks, .pass 0]

theorem contestSession_passedOver :
    (∃ m ∈ (bootWith pinit.toSchedUpdate 1).run contestSession, (m.proc 0).state = .running) ∧
    track step passedOver (bootWith pinit.toSchedUpdate 1) (fun _ => 0)
      contestSession 1 = 1 ∧
    (track step passedOver (bootWith pinit.toSchedUpdate 1) (fun _ => 0)
      contestSession 1 : Int) ≤ 51 * pinit.agingFactor + NPROC := by
  have hrun : ∃ m ∈ (bootWith pinit.toSchedUpdate 1).run contestSession,
      (m.proc 0).state = .running := by decide +kernel
  refine ⟨hrun, by decide +kernel, ?_⟩
  obtain ⟨m, hm, -⟩ := hrun
  exact passedOver_le ⟨pinit.toSchedUpdate, pinit_accepted⟩ rfl hm
    (by simp [contestSession]) 1 (by decide +kernel)

end Machine

end Xv6.Sched
