import Xv6.Sched.Starvation

/-!
# Starvation by boosting

The boost is meant against starvation and can cause it. Two processes hand the CPU back and forth:
each wakes the other and goes to sleep, long before its quantum is used up, so that both keep the
burst estimate 100 they were created with. The victim has used up one quantum of ten ticks in its
life and has the estimate 910. It loses every contest for queue 0 until it has waited 800 passes,
and every 500 ticks the boost throws away what it has waited.

`Cast` holds the facts that never change, `Scene` is the machine between two turns, and `turn` is
one turn: the players have changed places and the victim has been passed over once more.
-/

namespace Xv6.Sched

open Transition Proc

/-- Parameters that `setschedparam` accepts: long quanta and the slowest aging, with the boost
interval of `pinit`. -/
def slowAging : SchedUpdate where
  q0Quantum := 10
  q1Quantum := 10
  q2Quantum := 10
  boostInterval := 500
  emaAlphaFast := 90
  emaAlphaSlow := 10
  agingFactor := 100
  rrMode := 0

theorem slowAging_accepted : slowAging.Accepted := by
  rw [← SchedUpdate.rejected_eq_false_iff]
  decide

/-- Ticks since the last boost. -/
def Kernel.sinceBoost (k : Kernel) : Int := u32 (k.ticks - k.lastBoostTick)

/-- A player: in queue 0, with the burst estimate of a new process, and not waiting for long. -/
def Proc.Player (p : Proc) : Prop :=
  p.queueLevel = 0 ∧ p.burstEmaFast = 100 ∧ 0 ≤ p.waitTicks ∧ p.waitTicks ≤ 10

theorem Proc.Stirred.player {p p' : Proc} (h : p.Stirred p') (hp : p.Player) : p'.Player := by
  unfold Proc.Player
  rw [h.frame queueLevel fun _ _ _ _ _ _ => rfl,
    h.frame burstEmaFast fun _ _ _ _ _ _ => rfl,
    h.frame waitTicks fun _ _ _ _ _ _ => rfl]
  exact hp

namespace Machine

variable {m : Machine 1} {e : Event 1} {x y : Slot} {w t left : Int}

/-- The victim is in slot 0, the players are in slots `x` and `y`, and nobody else is there. The
victim has waited `w` passes, and the last boost was `t` ticks ago. -/
structure Cast (x y : Slot) (w t : Int) (m : Machine 1) : Prop where
  wf : m.WF
  params : m.schedp.toSchedUpdate = slowAging
  unlocked : m.ptableLocked = false
  ctl : m.ctl x = .elsewhere ∧ m.ctl y = .elsewhere
  victim : (m.proc 0).state = .runnable ∧ (m.proc 0).burstEmaFast = 910 ∧ 0 ≤ (m.proc 0).queueLevel
  wait : (m.proc 0).waitTicks = w
  since : m.sinceBoost = t
  players : (m.proc x).Player ∧ (m.proc y).Player
  distinct : x ≠ 0 ∧ y ≠ 0 ∧ x ≠ y
  others : ∀ j, j ≠ 0 → j ≠ x → j ≠ y → (m.proc j).state = .unused

/-- Between two turns: it is the turn of `x`, and `y` waits for `x` to wake it. -/
structure Scene (x y : Slot) (w t : Int) (m : Machine 1) : Prop extends Cast x y w t m where
  idle : m.cpu 0 = none ∧ m.intr 0 = none
  awake : (m.proc x).state = .runnable
  asleep : (m.proc y).state = .sleeping ∧ (m.proc y).chan = .object y
  bounds : 0 ≤ w ∧ w ≤ t ∧ t ≤ 500

/-- During the turn of `x`. The clock may have woken `y` early. -/
structure Turn (x y : Slot) (w t : Int) (intr : Option Intr) (left : Int) (m : Machine 1) : Prop
    extends Cast x y w t m where
  cpu : m.cpu 0 = some x
  intr : m.intr 0 = intr
  running : (m.proc x).state = .running
  left : (m.proc x).ticksRemaining = left
  waiting : ((m.proc y).state = .sleeping ∨ (m.proc y).state = .runnable) ∧
    (m.proc y).chan = .object y

theorem Cast.boostDue_iff (h : Cast x y w t m) :
    boostDue m.schedp.snap m.toKernel ↔ 500 ≤ t := by
  have hb : m.schedp.boostInterval = 500 := by rw [h.params]; rfl
  have ht : u32 (m.ticks - m.lastBoostTick) = t := h.since
  have h500 : u32 500 = 500 := rfl
  simp [boostDue, hb, h500, ht]

/-- **A step that does not touch the victim, or the sleeping player, or the empty slots.** -/
theorem Cast.effect {t' : Int} (h : Cast x y w t m) (he : m.Enabled e)
    (hT : ∀ j, m.Targets j e → j = x) (hx : ((m.effect e).proc x).Player)
    (hctl : (m.effect e).ctl = m.ctl) (hlock : (m.effect e).ptableLocked = m.ptableLocked)
    (hset : ∀ c i upd, e ≠ .setparamWrite c i upd) (hsince : (m.effect e).sinceBoost = t') :
    Cast x y w t' (m.effect e) := by
  obtain ⟨hx0, hy0, hxy⟩ := h.distinct
  have hstir : ∀ j, j ≠ x → (m.proc j).Stirred ((m.effect e).proc j) := fun j hj =>
    effect_not_targets he fun ht => hj (hT j ht)
  have h0 := hstir 0 hx0.symm
  obtain ⟨hv1, hv2, hv3⟩ := h.victim
  refine ⟨h.wf.effect he, (effect_tunables hset).trans h.params, hlock.trans h.unlocked, ?_,
    ⟨?_, ?_, ?_⟩, ?_, hsince, ⟨hx, (hstir y hxy.symm).player h.players.2⟩, h.distinct, ?_⟩
  · rw [hctl]
    exact h.ctl
  · rw [h0.state_eq (by simp [hv1]), hv1]
  · rw [h0.frame burstEmaFast fun _ _ _ _ _ _ => rfl, hv2]
  · rwa [h0.frame queueLevel fun _ _ _ _ _ _ => rfl]
  · rw [h0.frame waitTicks fun _ _ _ _ _ _ => rfl, h.wait]
  · intro j hj0 hjx hjy
    exact (hstir j hjx).unused_iff.mpr (h.others j hj0 hjx hjy)

/-! ## The pass -/

/-- Below 600 passes of waiting, the victim's score is 4 or more. -/
theorem four_le_score {p : Proc} (hema : p.burstEmaFast = 910) (hlo : 0 ≤ p.waitTicks)
    (hhi : p.waitTicks < 600) : 4 ≤ p.score 100 := by
  rw [score, hema, Int.tdiv_eq_ediv_of_nonneg hlo, i32]
  simp only [Int.reduceTDiv]
  omega

theorem score_eq_one {p : Proc} (h : p.burstEmaFast = 100) (hlo : 0 ≤ p.waitTicks)
    (hhi : p.waitTicks < 100) : p.score 100 = 1 := by
  rw [score, h, Int.tdiv_eq_zero_of_lt hlo hhi]
  rfl

/-- Aging adds one to a wait that is short, a boost takes it away first. -/
theorem ripened_short_wait {k : Kernel} {j : Slot} {n : Int} (hj : (k.proc j).state = .runnable)
    (hlo : 0 ≤ (k.proc j).waitTicks) (hhi : (k.proc j).waitTicks ≤ n) (hn : n < 1000) :
    1 ≤ (ripened k j).waitTicks ∧ (ripened k j).waitTicks ≤ n + 1 := by
  rw [ripened_waitTicks_runnable hj]
  split_ifs
  · rw [i32_eq_self (by omega) (by omega)]
    omega
  · rw [i32_eq_self (by omega) (by omega)]
    omega

/-- Only the victim and the player whose turn it is contend. -/
theorem Scene.contender (h : Scene x y w t m) {j : Slot} (hj : (m.proc j).state = .runnable) :
    j = 0 ∨ j = x := by
  by_contra hne
  push Not at hne
  by_cases hjy : j = y
  · rw [hjy, h.asleep.1] at hj
    cases hj
  · rw [h.others j hne.1 hne.2 hjy] at hj
    cases hj

/-- **The player wins**: if the victim is in queue 0 at all, its score is at least 4
against 1. -/
theorem Scene.picked_eq (h : Scene x y w t m) : picked m.toKernel = some x := by
  obtain ⟨hl, hema, hlo, hhi⟩ := h.players.1
  obtain ⟨hv, hvema, hvl⟩ := h.victim
  have hrr : m.schedp.rrMode = 0 := by rw [h.params]; rfl
  have hage : m.schedp.agingFactor = 100 := by rw [h.params]; rfl
  have hlevel_x : (ripened m.toKernel x).queueLevel = 0 := by
    rw [ripened_queueLevel, hl]
    split <;> rfl
  have hx : (ripened m.toKernel x).state = .runnable := by rw [ripened_state, h.awake]
  rw [picked_mlfq hrr]
  cases hsel : (selectMlfq m.schedp.agingFactor (ripened m.toKernel)).2 with
  | none => exact absurd (by rw [hlevel_x]; simp) (selectMlfq_eq_none hsel hx)
  | some b =>
    have hwins := selectMlfq_wins hsel
    have hb : (m.proc b).state = .runnable := by rw [← hwins.runnable, ripened_state]
    rcases h.contender hb with rfl | rfl
    · exfalso
      -- the victim can only have won in queue 0, and there its score is too high
      have hle := hwins.level_le x hx (by rw [hlevel_x]; simp)
      have hge : 0 ≤ (ripened m.toKernel 0).queueLevel := by
        rw [ripened_queueLevel]
        split_ifs <;> omega
      have hscore := hwins.score_le x hx (by omega)
      have hw := h.wait
      have hb := h.bounds
      obtain ⟨h1, h2⟩ := ripened_short_wait h.awake hlo hhi (by omega)
      obtain ⟨h3, h4⟩ := ripened_short_wait (n := 500) hv (by omega) (by omega) (by omega)
      have hfour := four_le_score ((ripened_burstEmaFast _ _).trans hvema) (by omega) (by omega)
      have hone := score_eq_one ((ripened_burstEmaFast _ _).trans hema) (by omega) (by omega)
      rw [hage] at hscore
      omega
    · rfl

theorem Cast.pass_sinceBoost (h : Cast x y w t m) (c : Fin 1) :
    (m.effect (.pass c)).sinceBoost = if t < 500 then t else 0 := by
  have ht : (m.effect (.pass c)).ticks = m.ticks := scheduler_ticks
  have hl : (m.effect (.pass c)).lastBoostTick = _ := scheduler_lastBoostTick
  by_cases hb : t < 500
  · rw [Kernel.sinceBoost, ht, hl, if_neg fun hd => absurd (h.boostDue_iff.mp hd) (by omega),
      if_pos hb]
    exact h.since
  · rw [Kernel.sinceBoost, ht, hl, if_pos (h.boostDue_iff.mpr (by omega)), if_neg hb, Int.sub_self]
    rfl

/-- Passed over, the victim waits one pass longer, or starts again after a boost. -/
theorem Scene.pass_wait (h : Scene x y w t m) : ((m.effect (.pass 0)).proc 0).waitTicks =
    if t < 500 then w + 1 else 1 := by
  have hno : picked m.toKernel ≠ some 0 := fun heq =>
    h.distinct.1 (Option.some.inj (h.picked_eq.symm.trans heq))
  have hwait : ((m.effect (.pass 0)).proc 0).waitTicks = _ := pass_waitTicks m.toKernel 0
  have hb := h.bounds
  rw [hwait, if_neg hno, ripened_waitTicks_runnable h.victim.1, h.wait]
  by_cases ht : t < 500
  · rw [if_neg fun hd => absurd (h.boostDue_iff.mp hd) (by omega), if_pos ht,
      i32_eq_self (by omega) (by omega)]
  · rw [if_pos (h.boostDue_iff.mpr (by omega)), if_neg ht]
    rfl

/-- The pass passes the victim over, and perhaps boosts. -/
theorem Scene.pass (h : Scene x y w t m) :
    Turn x y (if t < 500 then w + 1 else 1) (if t < 500 then t else 0) none 10
      (m.effect (.pass 0)) := by
  have hen : m.Enabled (.pass 0) := ⟨h.idle.1, h.idle.2, h.unlocked⟩
  have hpick := h.picked_eq
  obtain ⟨hx0, hy0, hxy⟩ := h.distinct
  obtain ⟨hv, hvema, hvl⟩ := h.victim
  have hno : ∀ j, j ≠ x → picked m.toKernel ≠ some j := fun j hj heq =>
    hj (Option.some.inj (heq.symm.trans hpick))
  have hstate : ∀ j, j ≠ x → ((m.effect (.pass 0)).proc j).state = (m.proc j).state :=
    fun j hj => (scheduler_state m.toKernel j).trans (if_neg (hno j hj))
  have hema : ∀ j, ((m.effect (.pass 0)).proc j).burstEmaFast = (m.proc j).burstEmaFast :=
    fun j => scheduler_proc_frame burstEmaFast fun _ _ _ _ _ _ _ _ => rfl
  have hlevel : ∀ j, ((m.effect (.pass 0)).proc j).queueLevel = _ :=
    fun j => pass_queueLevel m.toKernel j
  have hwait : ∀ j, ((m.effect (.pass 0)).proc j).waitTicks = _ :=
    fun j => pass_waitTicks m.toKernel j
  have hlevel_x : ((m.effect (.pass 0)).proc x).queueLevel = 0 := by
    rw [hlevel, h.players.1.1]
    split <;> rfl
  refine ⟨⟨h.wf.effect hen, scheduler_tunables.trans h.params, h.unlocked, h.ctl, ⟨?_, ?_, ?_⟩,
    h.pass_wait, h.pass_sinceBoost 0, ⟨⟨hlevel_x, ?_, ?_⟩, ⟨?_, ?_, ?_⟩⟩, h.distinct, ?_⟩,
    ?_, h.idle.2, ?_, ?_, ?_⟩
  · rw [hstate 0 hx0.symm, hv]
  · rw [hema, hvema]
  · rw [hlevel]
    split_ifs <;> omega
  · rw [hema, h.players.1.2.1]
  · rw [hwait, if_pos hpick]
    omega
  · rw [hlevel, h.players.2.1]
    split <;> rfl
  · rw [hema, h.players.2.2.1]
  · rw [hwait, if_neg (hno y hxy.symm)]
    have := h.players.2.2.2
    have hy : (m.proc y).state ≠ .runnable := by rw [h.asleep.1]; simp
    rcases ripened_waitTicks_of_not hy with hw | hw <;> omega
  · intro j hj0 hjx hjy
    rw [hstate j hjx, h.others j hj0 hjx hjy]
  · exact hpick
  · exact (scheduler_state m.toKernel x).trans (if_pos hpick)
  · have hleft : ((m.effect (.pass 0)).proc x).ticksRemaining = _ :=
      pass_ticksRemaining_picked hpick
    rw [hleft, show ((scheduler m.toKernel).1.proc x).queueLevel = 0 from hlevel_x]
    show m.schedp.toSchedUpdate.q0Quantum = 10
    rw [h.params]
    rfl
  · rw [hstate y hxy.symm, h.asleep.1]
    exact ⟨.inl rfl, (scheduler_proc_frame chan fun _ _ _ _ _ _ _ _ => rfl).trans h.asleep.2⟩

/-! ## The rest of the turn -/

theorem Turn.effect {t' left' : Int} {intr intr' : Option Intr} (h : Turn x y w t intr left m)
    (he : m.Enabled e) (hT : ∀ j, m.Targets j e → j = x) (hx : ((m.effect e).proc x).Player)
    (hrun : ((m.effect e).proc x).state = .running)
    (hleft : ((m.effect e).proc x).ticksRemaining = left') (hcpu : (m.effect e).cpu = m.cpu)
    (hctl : (m.effect e).ctl = m.ctl) (hlock : (m.effect e).ptableLocked = m.ptableLocked)
    (hset : ∀ c i upd, e ≠ .setparamWrite c i upd) (hintr : (m.effect e).intr 0 = intr')
    (hsince : (m.effect e).sinceBoost = t') : Turn x y w t' intr' left' (m.effect e) := by
  have hy : (m.proc y).Stirred ((m.effect e).proc y) :=
    effect_not_targets he fun hj => h.distinct.2.2 (hT y hj).symm
  refine ⟨h.toCast.effect he hT hx hctl hlock hset hsince, by rw [hcpu, h.cpu], hintr, hrun, hleft,
    ⟨?_, ?_⟩⟩
  · rcases hy.state with hsame | ⟨-, hr⟩
    · rw [hsame]
      exact h.waiting.1
    · exact .inr hr
  · rw [hy.frame chan fun _ _ _ _ _ _ => rfl, h.waiting.2]

theorem Turn.stir {t' : Int} {intr intr' : Option Intr} (h : Turn x y w t intr left m)
    (he : m.Enabled e) (hT : ∀ j, ¬ m.Targets j e) (hcpu : (m.effect e).cpu = m.cpu)
    (hctl : (m.effect e).ctl = m.ctl) (hlock : (m.effect e).ptableLocked = m.ptableLocked)
    (hset : ∀ c i upd, e ≠ .setparamWrite c i upd) (hintr : (m.effect e).intr 0 = intr')
    (hsince : (m.effect e).sinceBoost = t') : Turn x y w t' intr' left (m.effect e) := by
  have hx := effect_not_targets he (hT x)
  refine h.effect he (fun j hj => absurd hj (hT j)) (hx.player h.players.1)
    (hx.running_iff.mpr h.running) ?_ hcpu hctl hlock hset hintr hsince
  rw [hx.frame ticksRemaining fun _ _ _ _ _ _ => rfl, h.left]

theorem Turn.irq (h : Turn x y w t none left m) (ht : t < 500) : m.Enabled (.irq 0 true) ∧
    Turn x y w (t + 1) (some (.entered true)) left (m.effect (.irq 0 true)) := by
  have hen : m.Enabled (.irq 0 true) := by
    simp [Enabled, Interruptible, h.cpu, h.intr, h.unlocked, h.ctl.1]
  refine ⟨hen, h.stir hen (fun _ hT => hT) rfl rfl rfl (by simp) ?_ ?_⟩
  · simp [Machine.effect, Machine.irq]
  · have hs : u32 (m.ticks - m.lastBoostTick) = t := h.since
    show u32 (u32 (m.ticks + 1) - m.lastBoostTick) = t + 1
    unfold u32 at hs ⊢
    omega

theorem Turn.telemetry (h : Turn x y w t (some (.entered true)) 10 m) :
    m.Enabled (.telemetry 0 true) ∧
      Turn x y w t (some (.counted true)) 9 (m.effect (.telemetry 0 true)) := by
  have hen : m.Enabled (.telemetry 0 true) := h.intr
  have hx : (m.effect (.telemetry 0 true)).proc x = (m.proc x).ticked := by
    have hne : ¬ (m.proc x).expires := by simp [expires, ticked, h.left, i32]
    rw [telemetry_proc h.cpu, telemetry_of_not_expires hne, if_pos h.running]
  refine ⟨hen, h.effect hen (fun j hj => Option.some.inj (hj.symm.trans h.cpu)) ?_ ?_ ?_
    (effect_cpu_eq rfl) ?_ (effect_ptableLocked (by simp) (by simp)) (by simp) ?_ ?_⟩
  · rw [hx]
    exact h.players.1
  · rw [hx]
    exact h.running
  · rw [hx, ticked, h.left]
    rfl
  · simp [Machine.effect, Machine.telemetry, h.cpu]
  · simp [Machine.effect, Machine.telemetry]
  · rw [effect_frame Kernel.sinceBoost (fun _ _ => rfl) rfl, h.since]

theorem Turn.trapEnd (h : Turn x y w t (some (.counted true)) 9 m) :
    m.Enabled (.trapEnd 0) ∧ Turn x y w t none 9 (m.effect (.trapEnd 0)) := by
  have hno : ∀ j, ¬ m.Targets j (.trapEnd 0) := by
    rintro j ⟨hj, hy⟩
    cases hj.symm.trans h.cpu
    have := (yields_iff.mp hy).2.2
    rw [h.left] at this
    omega
  have hen : m.Enabled (.trapEnd 0) := ⟨.inl h.intr, fun i hi hy => absurd ⟨hi, hy⟩ (hno i)⟩
  have heff : m.effect (.trapEnd 0) = m.iret 0 := by
    rcases m.trapEnd_cases 0 with ⟨heff, -⟩ | ⟨i, hc, hk, -, -⟩ | ⟨i, hc, hy, -⟩
    · exact heff
    · -- a killed process is on its way out, and `x` is in user code
      cases hc.symm.trans h.cpu
      have := h.wf.killed_exiting x hk
      simp [h.ctl.1, h.running] at this
    · exact absurd ⟨hc, hy⟩ (hno i)
  refine ⟨hen, h.stir hen hno ?_ ?_ ?_ (by simp) ?_ ?_⟩
  all_goals simp [heff, h.since]

theorem Turn.wakeup (h : Turn x y w t none left m) : m.Enabled (.wakeup (.object y)) ∧
    Turn x y w t none left (m.effect (.wakeup (.object y))) ∧
    ((m.effect (.wakeup (.object y))).proc y).state = .runnable := by
  have hen : m.Enabled (.wakeup (.object y)) := h.unlocked
  refine ⟨hen, h.stir hen (fun _ hT => hT) rfl rfl rfl (by simp) h.intr h.since, ?_⟩
  rcases h.waiting.1 with hs | hr
  · simp [Machine.effect, wakeup1, hs, h.waiting.2]
  · simp [Machine.effect, wakeup1, hr]

theorem Cast.symm (h : Cast x y w t m) : Cast y x w t m where
  wf := h.wf
  params := h.params
  unlocked := h.unlocked
  ctl := h.ctl.symm
  victim := h.victim
  wait := h.wait
  since := h.since
  players := h.players.symm
  distinct := ⟨h.distinct.2.1, h.distinct.1, h.distinct.2.2.symm⟩
  others := fun j h0 hy hx => h.others j h0 hx hy

theorem Turn.sleep (h : Turn x y w t none left m) (hy : (m.proc y).state = .runnable)
    (hb : 0 ≤ w ∧ w ≤ t ∧ t ≤ 500) :
    m.Enabled (.sleep 0 x (.object x)) ∧ Scene y x w t (m.effect (.sleep 0 x (.object x))) := by
  have hen : m.Enabled (.sleep 0 x (.object x)) :=
    ⟨.inl ⟨h.cpu, h.intr, h.ctl.1⟩, h.unlocked⟩
  have hcast : Cast x y w t (m.effect (.sleep 0 x (.object x))) := by
    refine h.toCast.effect hen (fun _ hT => hT) ?_ rfl rfl (by simp) h.since
    simpa [Machine.effect, Proc.Player] using h.players.1
  refine ⟨hen, hcast.symm, ⟨?_, h.intr⟩, ?_, ?_, hb⟩
  · simp [Machine.effect]
  · simp [Machine.effect, Kernel.setProc_proc, h.distinct.2.2.symm, hy]
  · simp [Machine.effect]

/-! ## The game -/

/-- `x` gets the CPU and is interrupted once. -/
def startTurn : List (Event 1) := .pass 0 :: userTick

/-- `x` wakes `y` and goes to sleep. -/
def endTurn (x y : Slot) : List (Event 1) := [.wakeup (.object y), .sleep 0 x (.object x)]

/-- One turn. -/
def turn (x y : Slot) : List (Event 1) := startTurn ++ endTurn x y

/-- `n` turns. -/
def pingPong : Nat → Slot → Slot → List (Event 1)
  | 0, _, _ => []
  | n + 1, x, y => turn x y ++ pingPong n y x

/-- The victim's wait after a turn, and the ticks since the last boost. -/
theorem Scene.start (h : Scene x y w t m) (g : Slot → Nat) : ∃ m', m.run startTurn = some m' ∧
    Turn x y (if t < 500 then w + 1 else 1) (if t < 500 then t + 1 else 1) none 9 m' ∧
    m'.schedp.schedAlert = (m.effect (.pass 0)).schedp.schedAlert ∧
    track step passedOver m g startTurn 0 = g 0 + 1 := by
  have hover : passedOver g m (.pass 0) 0 = g 0 + 1 := by
    have hx : ¬ x = 0 := h.distinct.1
    simp [passedOver, h.victim.1, h.picked_eq, hx]
  have hen₁ : m.Enabled (.pass 0) := ⟨h.idle.1, h.idle.2, h.unlocked⟩
  obtain ⟨hen₂, h₂⟩ := h.pass.irq (by split_ifs <;> omega)
  obtain ⟨hen₃, h₃⟩ := h₂.telemetry
  obtain ⟨hen₄, h₄⟩ := h₃.trapEnd
  have ht : (if t < 500 then t + 1 else 1) = (if t < 500 then t else 0) + 1 := by
    split_ifs <;> rfl
  rw [ht]
  refine ⟨_, ?_, h₄, ?_, ?_⟩
  · simp only [startTurn, userTick, Machine.run, Transition.run, step_of_enabled hen₁,
      step_of_enabled hen₂, step_of_enabled hen₃, step_of_enabled hen₄, Option.bind_some]
  · refine (effect_schedAlert ?_ ?_).trans ((effect_schedAlert ?_ ?_).trans
      (effect_schedAlert ?_ ?_)) <;> simp
  · simp only [startTurn, userTick, track, step_of_enabled hen₁, step_of_enabled hen₂,
      step_of_enabled hen₃, step_of_enabled hen₄]
    exact hover

theorem Turn.finish (h : Turn x y w t none left m) (hb : 0 ≤ w ∧ w ≤ t ∧ t ≤ 500)
    (g : Slot → Nat) : ∃ m', m.run (endTurn x y) = some m' ∧ Scene y x w t m' ∧
      m'.schedp.schedAlert = m.schedp.schedAlert ∧
      track step passedOver m g (endTurn x y) = g := by
  obtain ⟨hen₁, h₁, hy⟩ := h.wakeup
  obtain ⟨hen₂, h₂⟩ := h₁.sleep hy hb
  refine ⟨_, ?_, h₂, rfl, ?_⟩
  · simp only [endTurn, Machine.run, Transition.run, step_of_enabled hen₁, step_of_enabled hen₂,
      Option.bind_some]
  · simp only [endTurn, track, step_of_enabled hen₁, step_of_enabled hen₂]
    rfl

/-- **One turn costs the victim one pass.** -/
theorem Scene.turn (h : Scene x y w t m) (g : Slot → Nat) : ∃ m', m.run (turn x y) = some m' ∧
    Scene y x (if t < 500 then w + 1 else 1) (if t < 500 then t + 1 else 1) m' ∧
    m'.schedp.schedAlert = (m.effect (.pass 0)).schedp.schedAlert ∧
    track step passedOver m g (turn x y) 0 = g 0 + 1 := by
  have hb := h.bounds
  obtain ⟨m₁, hrun₁, hturn, halert₁, htrack₁⟩ := h.start g
  obtain ⟨m₂, hrun₂, hscene, halert₂, htrack₂⟩ := hturn.finish (by split_ifs <;> omega)
    (track step passedOver m g startTurn)
  refine ⟨m₂, run_append_iff.mpr ⟨m₁, hrun₁, hrun₂⟩, hscene,
    halert₂.trans halert₁, ?_⟩
  rw [Machine.turn, track_append hrun₁, htrack₂, htrack₁]

theorem Scene.pingPong (h : Scene x y w t m) (g : Slot → Nat) (n : Nat) :
    ∃ m', m.run (pingPong n x y) = some m' ∧
      track step passedOver m g (pingPong n x y) 0 = g 0 + n := by
  induction n generalizing x y w t m g with
  | zero => exact ⟨m, rfl, rfl⟩
  | succ n ih =>
    obtain ⟨m₁, hrun₁, hscene, -, htrack⟩ := h.turn g
    obtain ⟨m₂, hrun₂, htrack'⟩ :=
      ih hscene (track step passedOver m g (Machine.turn x y))
    refine ⟨m₂, run_append_iff.mpr ⟨m₁, hrun₁, hrun₂⟩, ?_⟩
    rw [Machine.pingPong, track_append hrun₁, htrack', htrack]
    omega

/-! ## The first moves -/

/-- The part of a scene that can be computed. -/
def Staged (x y : Slot) (w t : Int) (m : Machine 1) : Prop :=
  (m.schedp.toSchedUpdate = slowAging ∧ m.ptableLocked = false ∧ m.ctl x = .elsewhere ∧
    m.ctl y = .elsewhere) ∧
  ((m.proc 0).state = .runnable ∧ (m.proc 0).burstEmaFast = 910 ∧ 0 ≤ (m.proc 0).queueLevel ∧
    (m.proc 0).waitTicks = w ∧ m.sinceBoost = t) ∧
  ((m.proc x).Player ∧ (m.proc y).Player) ∧ (x ≠ 0 ∧ y ≠ 0 ∧ x ≠ y) ∧
  (∀ j, j ≠ 0 → j ≠ x → j ≠ y → (m.proc j).state = .unused) ∧
  (m.cpu 0 = none ∧ m.intr 0 = none) ∧ (m.proc x).state = .runnable ∧
  ((m.proc y).state = .sleeping ∧ (m.proc y).chan = .object y) ∧ (0 ≤ w ∧ w ≤ t ∧ t ≤ 500)

instance (p : Proc) : Decidable p.Player := by
  unfold Proc.Player
  infer_instance

instance (x y : Slot) (w t : Int) (m : Machine 1) : Decidable (Staged x y w t m) := by
  unfold Staged
  infer_instance

theorem Staged.scene (h : Staged x y w t m) (hwf : m.WF) : Scene x y w t m := by
  obtain ⟨⟨hp, hl, hcx, hcy⟩, ⟨hv, hema, hlv, hw, ht⟩, hpl, hd, hoth, hidle, hx, hy, hb⟩ := h
  exact ⟨⟨hwf, hp, hl, ⟨hcx, hcy⟩, ⟨hv, hema, hlv⟩, hw, ht, hpl, hd, hoth⟩, hidle, hx, hy, hb⟩

/-- Init makes two children and uses up its quantum, and the first child goes to sleep. -/
def opening : List (Event 1) :=
  [.pass 0, .forkAlloc 0 0, .forkDone 0 0 1, .forkAlloc 0 0, .forkDone 0 0 2] ++
    (List.replicate 10 userTick).flatten ++ [.pass 0, .sleep 0 1 (.object 1)]

theorem opening_scene :
    ∃ m, (bootWith slowAging 1).run opening = some m ∧ Scene 2 1 1 10 m := by
  have hstaged : ∃ m ∈ (bootWith slowAging 1).run opening, Staged 2 1 1 10 m := by decide +kernel
  obtain ⟨m, hrun, h⟩ := hstaged
  exact ⟨m, hrun, h.scene (bootWith_wf.run hrun)⟩

/-- What holds of the events of every turn holds of all events of the game. -/
theorem forall_mem_pingPong {P : Event 1 → Prop} (h : ∀ x y, ∀ e ∈ turn x y, P e) (n : Nat)
    (x y : Slot) : ∀ e ∈ pingPong n x y, P e := by
  induction n generalizing x y with
  | zero => simp [pingPong]
  | succ n ih =>
    rw [pingPong, List.forall_mem_append]
    exact ⟨h x y, ih y x⟩

theorem turn_schedules (x y : Slot) : ∀ e ∈ turn x y, e.schedules := by
  simp [turn, startTurn, endTurn, userTick, Event.schedules]

/-- **Nothing bounds how often a process is passed over.** -/
theorem not_starvationFree : ¬ ∀ P : AcceptedParams, P.1.rrMode = 0 → StarvationFree P := by
  intro hall
  obtain ⟨B, hB⟩ := hall ⟨slowAging, slowAging_accepted⟩ rfl
  obtain ⟨m, hrun, hscene⟩ := opening_scene
  obtain ⟨m', hrun', htrack⟩ := hscene.pingPong
    (track step passedOver (bootWith slowAging 1) (fun _ => 0) _) (B + 1)
  have hle := hB 1 (opening ++ pingPong (B + 1) 2 1) m' ?_
    (run_append_iff.mpr ⟨m, hrun, hrun'⟩) 0
  · rw [track_append hrun, htrack] at hle
    omega
  · rw [List.forall_mem_append]
    exact ⟨by decide, forall_mem_pingPong turn_schedules _ _ _⟩

end Machine

end Xv6.Sched
