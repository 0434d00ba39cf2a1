import Xv6.Sched.Starvation

/-!
# How often aging lets a process be overtaken

Consecutive passes that do not boost, and a process `p` that is RUNNABLE at each of them in the
lowest-numbered queue in use. The other processes may have waited for any time when the stretch
begins, and in between they run, sleep, wake, exit and are replaced by new ones.

The waits themselves do not bound how often `p` loses: a rival may start far ahead. What counts is
how long ago each rival was dispatched *within the stretch*, `since`. A rival that was dispatched
has waited no longer than that, and `p` has waited since the stretch began, so `since` plays the
part of the waiting time in `Common.Aging`, with a negative value for a rival that has not been
dispatched yet.
-/

namespace Xv6.Sched

variable {a L : Int} {p w : Slot} {k : ℕ → Kernel} {n : ℕ}

/-- The number of passes in which `p` is to be dispatched. -/
def overtakingBound (a : Int) : ℕ := (51 * a).toNat + NPROC

/-- A pass with aging factor `a` and without a boost that finds `p` RUNNABLE in queue `L`, nobody
RUNNABLE in a queue before `L`, and no `wait_ticks` about to overflow. -/
structure AgingPass (a : Int) (p : Slot) (L : Int) (k : Kernel) : Prop where
  aging : k.schedp.agingFactor = a
  mlfq : k.schedp.rrMode = 0
  noBoost : ¬ boostDue k.schedp.snap k
  runnable : (k.proc p).state = .runnable
  level : (k.proc p).queueLevel = L
  lowest : ∀ r, (k.proc r).state = .runnable → L ≤ (k.proc r).queueLevel
  ema : ∀ r, (k.proc r).state = .runnable →
    0 ≤ (k.proc r).burstEmaFast ∧ (k.proc r).burstEmaFast ≤ 5000
  wait : ∀ r, (k.proc r).state = .runnable →
    0 ≤ (k.proc r).waitTicks ∧ (k.proc r).waitTicks < 2147483647

/-- A stretch of such passes, as far as `p` is not dispatched. `k n` is the kernel the `n`-th pass
finds. Between passes a `wait_ticks` stays as it is, or is that of a new process. -/
structure AgingPasses (a : Int) (p : Slot) (L : Int) (k : ℕ → Kernel) : Prop where
  queue : L ∈ [(0 : Int), 1, 2]
  pass : ∀ n < overtakingBound a, (∀ m < n, picked (k m) ≠ some p) → AgingPass a p L (k n)
  between : ∀ n < overtakingBound a, (∀ m ≤ n, picked (k m) ≠ some p) → ∀ r,
    ((k (n + 1)).proc r).waitTicks = ((scheduler (k n)).1.proc r).waitTicks ∨
      ((k (n + 1)).proc r).waitTicks = 0 ∧ r ≠ p

/-- How many passes ago `r` was dispatched in the stretch, or for `p` how many there were; negative
for a process that was not dispatched yet. -/
def since (p : Slot) (k : ℕ → Kernel) : ℕ → Slot → Int
  | 0, r => if r = p then 0 else -1
  | n + 1, r =>
    if picked (k n) = some r then 0 else if 0 ≤ since p k n r then since p k n r + 1 else -1

/-- What a pass makes of the wait of a process that it does not dispatch. -/
theorem pass_waitTicks_le {k : Kernel} {r : Slot} (hboost : ¬ boostDue k.schedp.snap k)
    (hr : picked k ≠ some r) (hwait : (k.proc r).state = .runnable →
      0 ≤ (k.proc r).waitTicks ∧ (k.proc r).waitTicks < 2147483647) :
    ((scheduler k).1.proc r).waitTicks ≤ (k.proc r).waitTicks + 1 ∧
      ((k.proc r).state = .runnable →
        ((scheduler k).1.proc r).waitTicks = (k.proc r).waitTicks + 1) := by
  rw [pass_waitTicks, if_neg hr]
  by_cases hrun : (k.proc r).state = .runnable
  · obtain ⟨hlo, hhi⟩ := hwait hrun
    rw [ripened_waitTicks_runnable hrun, if_neg hboost, i32_eq_self (by omega) (by omega)]
    exact ⟨le_rfl, fun _ => rfl⟩
  · refine ⟨?_, fun h => absurd h hrun⟩
    rw [ripened, if_neg hboost, Proc.aged, if_neg hrun]
    omega

namespace AgingPasses

/-- What holds before the `n`-th pass if `p` was not dispatched before. -/
structure Waiting (a : Int) (p : Slot) (k : ℕ → Kernel) (n : ℕ) : Prop where
  count : since p k n p = n
  own : (n : Int) ≤ ((k n).proc p).waitTicks
  rivals : ∀ r, r ≠ p → 0 ≤ since p k n r → ((k n).proc r).waitTicks ≤ since p k n r
  patient : Aging.Patient (51 * a) p (since p k n)

theorem waiting_zero (h : AgingPasses a p L k) (ha : 1 ≤ a) : Waiting a p k 0 := by
  have hbound : 0 < overtakingBound a := by
    unfold overtakingBound NPROC
    omega
  have hpass := h.pass 0 hbound (fun m hm => absurd hm (Nat.not_lt_zero m))
  refine ⟨if_pos rfl, (hpass.wait p hpass.runnable).1, ?_, ?_⟩
  · intro r hr hpos
    rw [since, if_neg hr] at hpos
    omega
  · apply Aging.patient_of_lt
    rw [since, if_pos rfl]
    omega

/-- Who has been outwaited is not dispatched. -/
theorem Waiting.fresh (hw : Waiting a p k n) (hpass : AgingPass a p L (k n))
    (hqueue : L ∈ [(0 : Int), 1, 2]) (ha : 1 ≤ a) (hpick : picked (k n) = some w) :
    w ∉ Aging.outwaited (51 * a) p (since p k n) := by
  intro hmem
  obtain ⟨hne, hpos, hlong⟩ := Aging.mem_outwaited.mp hmem
  have hown := hw.own
  have hrival := hw.rivals w hne hpos
  rw [hw.count] at hlong
  refine not_picked_of_outwaited hpass.mlfq (by rw [hpass.aging]; exact ha) hpass.noBoost
    hpass.runnable (by rw [hpass.level]; exact hqueue) (by rw [hpass.level]; exact hpass.lowest)
    hpass.ema (hpass.wait w (picked_runnable hpick)).1 ?_ (hpass.wait p hpass.runnable).2 hpick
  rw [hpass.aging]
  omega

/-- A pass that dispatches another process is a lost round. -/
theorem Waiting.lost (hw : Waiting a p k n) (hpass : AgingPass a p L (k n))
    (hqueue : L ∈ [(0 : Int), 1, 2]) (ha : 1 ≤ a) (hpick : picked (k n) = some w) (hne : w ≠ p) :
    Aging.Lost (51 * a) p w (since p k n) (since p k (n + 1)) := by
  have hcount := hw.count
  refine ⟨hne, ?_, ?_, hw.fresh hpass hqueue ha hpick, ?_⟩
  · have hno : picked (k n) ≠ some p := by
      rw [hpick]
      exact fun heq => hne (Option.some.inj heq)
    rw [since, if_neg hno, if_pos (by omega)]
  · rw [since, if_pos hpick]
  · intro r hmem
    obtain ⟨-, hpos, -⟩ := Aging.mem_outwaited.mp hmem
    rw [since, if_pos hpos]
    by_cases hr : picked (k n) = some r
    · exact .inr (.inr (if_pos hr))
    · exact .inr (.inl (if_neg hr))

/-- **One pass.** -/
theorem waiting_succ (h : AgingPasses a p L k) (ha : 1 ≤ a) (hn : n < overtakingBound a)
    (hmiss : ∀ m ≤ n, picked (k m) ≠ some p) (hw : Waiting a p k n) : Waiting a p k (n + 1) := by
  have hpass := h.pass n hn (fun m hm => hmiss m hm.le)
  have hqueue : (ripened (k n) p).queueLevel ∈ [(0 : Int), 1, 2] := by
    rw [ripened_queueLevel, if_neg fun hb => hpass.noBoost hb.1, hpass.level]
    exact h.queue
  obtain ⟨w, hpick⟩ := picks_of_queue hpass.mlfq hpass.runnable hqueue
  have hne : w ≠ p := by
    rintro rfl
    exact hmiss n le_rfl hpick
  have hlost := hw.lost hpass h.queue ha hpick hne
  have hbetween := h.between n hn hmiss
  refine ⟨?_, ?_, ?_, hw.patient.lose hlost⟩
  · rw [hlost.loser, hw.count]
    omega
  · have hgrow := (pass_waitTicks_le hpass.noBoost (hmiss n le_rfl) (hpass.wait p)).2 hpass.runnable
    have hown := hw.own
    rcases hbetween p with hsame | ⟨-, hself⟩
    · omega
    · exact absurd rfl hself
  · intro r hr hpos
    by_cases hrp : picked (k n) = some r
    · have hzero : ((scheduler (k n)).1.proc r).waitTicks = 0 := by
        rw [pass_waitTicks, if_pos hrp]
      rcases hbetween r with hsame | ⟨hnew, -⟩ <;> omega
    · rw [since, if_neg hrp] at hpos ⊢
      split_ifs at hpos ⊢ with hold
      · have hle := (pass_waitTicks_le hpass.noBoost hrp (hpass.wait r)).1
        have hrival := hw.rivals r hr hold
        rcases hbetween r with hsame | ⟨hnew, -⟩ <;> omega
      · omega

theorem waiting (h : AgingPasses a p L k) (ha : 1 ≤ a) (hn : n ≤ overtakingBound a)
    (hmiss : ∀ m < n, picked (k m) ≠ some p) : Waiting a p k n := by
  induction n with
  | zero => exact h.waiting_zero ha
  | succ n ih =>
    have hw := ih (by omega) (fun m hm => hmiss m (by omega))
    exact h.waiting_succ ha (by omega) (fun m hm => hmiss m (by omega)) hw

end AgingPasses

/-- **Aging bounds overtaking between boosts**: `p` is dispatched within `51 * a + NPROC`
passes. -/
theorem aging_bounds_overtaking (P : AcceptedParams) (h : AgingPasses P.1.agingFactor p L k) :
    ∃ n : ℕ, (n : Int) < 51 * P.1.agingFactor + NPROC ∧ picked (k n) = some p := by
  have ha := P.2.aging_pos
  have hbound : (overtakingBound P.1.agingFactor : Int) = 51 * P.1.agingFactor + NPROC := by
    unfold overtakingBound
    omega
  by_contra hno
  have hmiss : ∀ m < overtakingBound P.1.agingFactor, picked (k m) ≠ some p := by
    intro m hm hpick
    exact hno ⟨m, by omega, hpick⟩
  have hw := h.waiting ha le_rfl hmiss
  have hlt := hw.patient.lt_card
  rw [hw.count, Fintype.card_fin] at hlt
  omega

/-! ## The passes of a machine

What a machine with any number of CPUs does between two passes leaves the waits alone, so its passes
are such stretches. -/

namespace Machine

variable {ncpu : ℕ} {m m' : Machine ncpu} {es : List (Event ncpu)}

/-- Since `m`, process `r` has stayed RUNNABLE if it was, and has another wait only if it was not. -/
def Rests (m : Machine ncpu) (r : Slot) (s : Machine ncpu) : Prop :=
  ((m.proc r).state = .runnable → (s.proc r).state = .runnable) ∧
    ((s.proc r).waitTicks = (m.proc r).waitTicks ∨
      (s.proc r).waitTicks = 0 ∧ (m.proc r).state ≠ .runnable)

theorem WF.run_rests (hwf : m.WF) (h : m.run es = some m') (hes : ∀ e ∈ es, ∀ c, e ≠ .pass c)
    (r : Slot) : m'.WF ∧ m.Rests r m' := by
  refine Transition.run_allowed (I := fun s => s.WF ∧ m.Rests r s) ?_ h
    (Transition.allowed_of_forall_mem hes) ⟨hwf, id, .inl rfl⟩
  rintro s e s' ⟨hs, hstays, hwait⟩ hpass hse
  obtain ⟨he, rfl⟩ := step_eq_some.mp hse
  refine ⟨hs.effect he, fun hr => hs.slot_runnable (effect_slot he r) hpass (hstays hr), ?_⟩
  obtain hsame | ⟨hzero, hunused⟩ := (effect_slot he r).waitTicks hpass
  · rwa [hsame]
  · refine .inr ⟨hzero, fun hr => ?_⟩
    rw [hstays hr] at hunused
    cases hunused

theorem agingPasses_of_runs {M : ℕ → Machine ncpu} (hqueue : L ∈ [(0 : Int), 1, 2])
    (hruns : ∀ n < overtakingBound a, (M n).WF ∧ ∃ c es, (M n).Enabled (.pass c) ∧
      (∀ e ∈ es, ∀ c, e ≠ .pass c) ∧ ((M n).effect (.pass c)).run es = some (M (n + 1)))
    (hpass : ∀ n < overtakingBound a, (∀ j < n, picked (M j).toKernel ≠ some p) →
      AgingPass a p L (M n).toKernel) : AgingPasses a p L fun n => (M n).toKernel where
  queue := hqueue
  pass := hpass
  between n hn hmiss r := by
    obtain ⟨hwf, c, es, he, hes, hrun⟩ := hruns n hn
    refine ((hwf.effect he).run_rests hrun hes r).2.2.imp_right ?_
    rintro ⟨hzero, hrest⟩
    refine ⟨hzero, ?_⟩
    rintro rfl
    refine hrest ?_
    show ((scheduler (M n).toKernel).1.proc r).state = .runnable
    rw [scheduler_state, if_neg (hmiss n le_rfl)]
    exact (hpass n hn fun j hj => hmiss j hj.le).runnable

end Machine

/-! ## A duel -/

/-- Process 3 has waited for `n` passes, process 5 has shorter bursts and was dispatched each
time. -/
def duel (n : ℕ) : Kernel where
  proc i :=
    if i = 3 then { Proc.zero with state := .runnable, burstEmaFast := 300, waitTicks := n }
    else if i = 5 then { Proc.zero with state := .runnable }
    else Proc.zero
  schedp := pinit
  nextpid := 6
  ticks := 0
  initproc := 3
  lastBoostTick := 0
  rrNext := 0

theorem duel_runnable {n : ℕ} {r : Slot} (h : ((duel n).proc r).state = .runnable) :
    r = 3 ∨ r = 5 := by
  simp only [duel] at h
  split_ifs at h with h3 h5
  · exact .inl h3
  · exact .inr h5
  · cases h

theorem duel_pass {n : ℕ} (hn : n < 2147483647) : AgingPass pinit.agingFactor 3 0 (duel n) where
  aging := rfl
  mlfq := rfl
  noBoost := by
    show ¬ boostDue pinit.snap (duel 0)
    decide
  runnable := rfl
  level := rfl
  lowest r hr := by
    rcases duel_runnable hr with rfl | rfl <;> exact le_rfl
  ema r hr := by
    rcases duel_runnable hr with rfl | rfl
    · show (0 : Int) ≤ 300 ∧ (300 : Int) ≤ 5000
      decide
    · show (0 : Int) ≤ 0 ∧ (0 : Int) ≤ 5000
      decide
  wait r hr := by
    rcases duel_runnable hr with rfl | rfl
    · show (0 : Int) ≤ (n : Int) ∧ (n : Int) < 2147483647
      omega
    · show (0 : Int) ≤ 0 ∧ (0 : Int) < 2147483647
      decide

theorem duel_passes : AgingPasses pinit.agingFactor 3 0 duel where
  queue := List.mem_cons_self
  pass n hn _ := by
    apply duel_pass
    have hbound : overtakingBound pinit.agingFactor < 2147483647 := by decide
    omega
  between n hn hmiss r := by
    have hbound : overtakingBound pinit.agingFactor < 2147483647 := by decide
    have hpass : AgingPass pinit.agingFactor 3 0 (duel n) := duel_pass (by omega)
    left
    by_cases hrun : ((duel n).proc r).state = .runnable
    · rcases duel_runnable hrun with rfl | rfl
      · exact ((pass_waitTicks_le hpass.noBoost (hmiss n le_rfl) (hpass.wait 3)).2 hrun).symm
      · -- process 5 is the only other one, so it is the one dispatched
        obtain ⟨w, hpick⟩ := picks_of_queue hpass.mlfq hrun (by
          rw [ripened_queueLevel, if_neg fun hb => hpass.noBoost hb.1]
          exact List.mem_cons_self)
        rcases duel_runnable (picked_runnable hpick) with rfl | rfl
        · exact absurd hpick (hmiss n le_rfl)
        · rw [pass_waitTicks, if_pos hpick]
          rfl
    · have hno : picked (duel n) ≠ some r := fun hpick => hrun (picked_runnable hpick)
      rw [pass_waitTicks, if_neg hno, ripened, if_neg hpass.noBoost, Proc.aged, if_neg hrun]
      simp only [duel]
      split_ifs with h3
      · subst h3
        exact absurd rfl hrun
      · rfl
      · rfl

theorem duel_ends :
    ∃ n : ℕ, (n : Int) < 51 * pinit.agingFactor + NPROC ∧ picked (duel n) = some 3 :=
  aging_bounds_overtaking ⟨pinit.toSchedUpdate, pinit_accepted⟩ duel_passes

end Xv6.Sched
