import Xv6.Sched.Tunables
import Xv6.Sched.Wf

/-!
# Round-robin mode

With `rr_mode = 1` selection looks at nothing but process states and `rr_next`. Dispatch and the
timer trap are shared with the MLFQ mode: a dispatch still loads the quantum of the process's
queue level, and levels still move. So the schedule depends on the MLFQ state after all, unless the
quanta are all the same.

`Agree` relates two machines that differ in the MLFQ state only. When all quanta are equal it is a
bisimulation (`Agree.effect`), and otherwise there are two machines that it relates and one process
that is preempted at different ticks.
-/

namespace Xv6.Sched

open List

variable {ncpu : Nat}

/-! ## What is left when the MLFQ state is taken away -/

/-- A process without its queue level, burst estimates, wait and score. -/
def Proc.plain (p : Proc) : Proc :=
  { p with
    queueLevel := 0, waitTicks := 0, burstEmaFast := 0, burstEmaSlow := 0, burstVariance := 0
    effectiveScore := 0 }

/-- The tunables without the quanta and the aging factor. -/
def SchedUpdate.plain (s : SchedUpdate) : SchedUpdate :=
  { s with q0Quantum := 0, q1Quantum := 0, q2Quantum := 0, agingFactor := 0 }

/-- All three quanta are `q`. -/
def SchedUpdate.Uniform (q : Int) (s : SchedUpdate) : Prop :=
  s.q0Quantum = q ∧ s.q1Quantum = q ∧ s.q2Quantum = q

/-- The events a workload is made of: passes, the pieces of timer traps, sleeps and wakeups. -/
def Event.workload : Event ncpu → Bool
  | .pass _ | .irq _ _ | .telemetry _ _ | .trapEnd _ | .sleep _ _ _ | .wakeup _ => true
  | _ => false

/-- What a schedule shows. -/
inductive Obs (ncpu : Nat) where
  | dispatched (c : Fin ncpu) (i : Slot)
  | preempted (c : Fin ncpu) (i : Slot) (tick : Int)
  deriving DecidableEq

/-! ## One process

Each thing a workload does to a process, it does to what is left of it. -/

section Plain

variable {p p' : Proc}

theorem Proc.plain_frame {β : Type} (obs : Proc → β) (hobs : ∀ p : Proc, obs p.plain = obs p)
    (h : p.plain = p'.plain) : obs p = obs p' := by
  rw [← hobs p, h, hobs]

theorem Proc.plain_telemetry (s : SchedParams) (now : Int) (p : Proc) :
    (p.telemetry s now).plain =
      if p.plain.state = .running then
        if p.plain.ticked.ticksRemaining ≤ 0 then
          { p.plain.ticked with preemptCount := i32 (p.plain.preemptCount + 1) }
        else p.plain.ticked
      else p.plain := by
  show _ = if p.state = .running then if p.ticked.ticksRemaining ≤ 0 then _ else _ else _
  unfold Proc.telemetry
  split_ifs <;> rfl

theorem Proc.plain_checkAlarm (p : Proc) : p.checkAlarm.plain = p.plain.checkAlarm := by
  unfold Proc.checkAlarm Proc.plain
  split_ifs <;> rfl

theorem plain_wakeup1 (chan : Chan) (k : Kernel) (i : Slot) : ((wakeup1 chan k).proc i).plain =
    if (k.proc i).plain.state = .sleeping ∧ (k.proc i).plain.chan = chan then
      { (k.proc i).plain with state := .runnable }
    else (k.proc i).plain := by
  show _ = if (k.proc i).state = .sleeping ∧ (k.proc i).chan = chan then _ else _
  simp only [wakeup1]
  split_ifs <;> rfl

theorem Proc.Rescored.plain (h : p.Rescored p') : p'.plain = p.plain := by
  obtain ⟨sc, rfl⟩ := h
  rfl

theorem ripened_plain (k : Kernel) (i : Slot) : (ripened k i).plain =
    if boostDue k.schedp.snap k ∧ (k.proc i).plain.state ≠ .unused then
      { (k.proc i).plain with ticksRemaining := k.schedp.snap.q0 }
    else (k.proc i).plain := by
  show _ = if boostDue k.schedp.snap k ∧ (k.proc i).state ≠ .unused then _ else _
  unfold ripened Proc.aged Proc.boosted
  split_ifs <;> simp_all [Proc.plain]

theorem SchedUpdate.Uniform.quantum {q : Int} {s : SchedParams} (h : s.toSchedUpdate.Uniform q)
    (level : Int) : s.snap.quantum level = q := by
  unfold Snap.quantum
  split_ifs
  · exact h.1
  · exact h.2.1
  · exact h.2.2

theorem Proc.plain_dispatched {q now : Int} {s : SchedParams} (h : s.toSchedUpdate.Uniform q) :
    (p.dispatched s.snap now).plain = { p.plain with
      burstStartTick := i32 now
      firstRunTick := if p.plain.firstRunTick = 0 then i32 now else p.plain.firstRunTick
      ticksRemaining := q
      state := .running } := by
  rw [← h.quantum p.queueLevel]
  rfl

end Plain

namespace Machine

/-- What a step shows. -/
def observe (m : Machine ncpu) : Event ncpu → List (Obs ncpu)
  | .pass c => ((picked m.toKernel).map (Obs.dispatched c)).toList
  | .trapEnd c =>
    match m.cpu c with
    | some i => if m.yields c i then [.preempted c i m.ticks] else []
    | none => []
  | _ => []

/-- The schedule of a workload. A request that cannot happen (a sleep of a process that is not
running, a pass on a busy CPU) is skipped. -/
def schedule : Machine ncpu → List (Event ncpu) → List (Obs ncpu)
  | _, [] => []
  | m, e :: es =>
    if m.Enabled e then m.observe e ++ schedule (m.effect e) es else schedule m es

/-- Two machines that agree on everything but the MLFQ state: queue levels, burst estimates, waits
and scores, the quanta and the aging factor, and the alert, which is derived from the waits. -/
structure Agree (m m' : Machine ncpu) : Prop where
  proc : ∀ i, (m.proc i).plain = (m'.proc i).plain
  tunables : m.schedp.toSchedUpdate.plain = m'.schedp.toSchedUpdate.plain
  agentPid : m.schedp.agentPid = m'.schedp.agentPid
  nextpid : m.nextpid = m'.nextpid
  ticks : m.ticks = m'.ticks
  initproc : m.initproc = m'.initproc
  lastBoostTick : m.lastBoostTick = m'.lastBoostTick
  rrNext : m.rrNext = m'.rrNext
  cpu : m.cpu = m'.cpu
  intr : m.intr = m'.intr
  ctl : m.ctl = m'.ctl
  ptableLocked : m.ptableLocked = m'.ptableLocked
  rax : m.rax = m'.rax

/-- In round-robin mode with the tunables `P` and `P'`, the MLFQ state has no influence on the
schedule of any workload. -/
def Oblivious (P P' : SchedUpdate) : Prop :=
  ∀ (ncpu : Nat) (m m' : Machine ncpu) (es : List (Event ncpu)),
    m.schedp.toSchedUpdate = P → m'.schedp.toSchedUpdate = P' → m.Agree m' →
    (∀ e ∈ es, e.workload) → m.schedule es = m'.schedule es

/-! ## Uniform quanta -/

variable {m m' : Machine ncpu} {e : Event ncpu}

theorem Agree.state (h : m.Agree m') (i : Slot) : (m.proc i).state = (m'.proc i).state :=
  Proc.plain_frame Proc.state (fun _ => rfl) (h.proc i)

theorem Agree.yields (h : m.Agree m') (c : Fin ncpu) (i : Slot) : m.yields c i = m'.yields c i := by
  have hkilled := Proc.plain_frame Proc.killed (fun _ => rfl) (h.proc i)
  have hleft := Proc.plain_frame Proc.ticksRemaining (fun _ => rfl) (h.proc i)
  simp only [Machine.yields, h.state i, hkilled, hleft, h.intr]

theorem Agree.enabled (h : m.Agree m') (hw : e.workload) : m.Enabled e ↔ m'.Enabled e := by
  cases e with
  | trapEnd c => simp only [Enabled, h.cpu, h.intr, h.ptableLocked, h.yields]
  | pass | irq | telemetry | sleep | wakeup =>
    simp only [Enabled, At, Interruptible, h.cpu, h.intr, h.ctl, h.ptableLocked]
  | _ => cases hw

theorem Agree.picked_eq (h : m.Agree m') (hrr : m.schedp.rrMode ≠ 0) (hrr' : m'.schedp.rrMode ≠ 0) :
    picked m.toKernel = picked m'.toKernel := by
  rw [picked_rr hrr, picked_rr hrr', h.rrNext]
  apply selectRr_congr
  intro i
  rw [ripened_state, ripened_state, h.state i]

theorem Agree.boostDue_eq (h : m.Agree m') :
    boostDue m.schedp.snap m.toKernel = boostDue m'.schedp.snap m'.toKernel := by
  have hplain : m.schedp.toSchedUpdate.plain.boostInterval =
      m'.schedp.toSchedUpdate.plain.boostInterval := by rw [h.tunables]
  have hb : m.schedp.boostInterval = m'.schedp.boostInterval := hplain
  unfold boostDue
  rw [SchedParams.snap_boost, SchedParams.snap_boost, h.ticks, h.lastBoostTick, hb]

theorem Agree.observe_eq (h : m.Agree m') (hrr : m.schedp.rrMode ≠ 0)
    (hrr' : m'.schedp.rrMode ≠ 0) : m.observe e = m'.observe e := by
  cases e with
  | pass c => simp only [Machine.observe, h.picked_eq hrr hrr']
  | trapEnd c => simp only [Machine.observe, h.cpu, h.yields, h.ticks]
  | _ => rfl

variable {q : Int} {P P' : SchedUpdate}

section

variable (h : m.Agree m')

include h

/-- A pass does the same to what is left of each process, when every quantum is `q`. -/
theorem Agree.pass_proc (hrr : m.schedp.rrMode ≠ 0) (hrr' : m'.schedp.rrMode ≠ 0)
    (hu : m.schedp.Uniform q) (hu' : m'.schedp.Uniform q) (i : Slot) :
    ((scheduler m.toKernel).1.proc i).plain = ((scheduler m'.toKernel).1.proc i).plain := by
  obtain ⟨p, hp, hproc⟩ := scheduler_proc m.toKernel i
  obtain ⟨p', hp', hproc'⟩ := scheduler_proc m'.toKernel i
  have hplain : p.plain = p'.plain := by
    rw [hp.plain, hp'.plain, ripened_plain, ripened_plain, h.boostDue_eq, h.proc i,
      SchedParams.snap_q0, SchedParams.snap_q0, hu.1, hu'.1]
  rw [hproc, hproc', h.picked_eq hrr hrr']
  split_ifs
  · -- the level the quantum is read from makes no difference
    rw [Proc.plain_dispatched hu, Proc.plain_dispatched hu', hplain, h.ticks]
  · exact hplain

theorem Agree.setProc {i : Slot} {p p' : Proc} (hp : p.plain = p'.plain) :
    (m.setProc i p).Agree (m'.setProc i p') := by
  refine { h with proc := ?_ }
  intro j
  simp only [Machine.setProc, onKernel, Kernel.setProc_proc]
  split_ifs
  · exact hp
  · exact h.proc j

theorem Agree.leave {c : Fin ncpu} : (m.leave c).Agree (m'.leave c) :=
  { h with cpu := by simp only [Machine.leave, h.cpu] }

theorem Agree.setIntr {f : (Fin ncpu → Option Intr) → Fin ncpu → Option Intr} :
    Agree { m with intr := f m.intr } { m' with intr := f m'.intr } :=
  { h with intr := congrArg f h.intr }

theorem Agree.iret {c : Fin ncpu} : (m.iret c).Agree (m'.iret c) :=
  h.setIntr (f := fun i => Function.update i c none)

theorem Agree.wakeup (chan : Chan) :
    Agree (m.onKernel (wakeup1 chan)) (m'.onKernel (wakeup1 chan)) := by
  refine { h with proc := ?_ }
  intro i
  show ((wakeup1 chan m.toKernel).proc i).plain = _
  rw [plain_wakeup1, h.proc i]
  exact (plain_wakeup1 chan m'.toKernel i).symm

theorem Agree.tick : Agree (m.onKernel clock) (m'.onKernel clock) := by
  refine { h with proc := ?_, ticks := congrArg (fun t => u32 (t + 1)) h.ticks }
  intro i
  have htick :
      Agree { m with ticks := u32 (m.ticks + 1) } { m' with ticks := u32 (m'.ticks + 1) } :=
    { h with ticks := congrArg (fun t => u32 (t + 1)) h.ticks }
  show ((wakeup1 .ticks { m.toKernel with ticks := u32 (m.ticks + 1) }).proc i).checkAlarm.plain
    = ((wakeup1 .ticks { m'.toKernel with ticks := u32 (m'.ticks + 1) }).proc i).checkAlarm.plain
  rw [Proc.plain_checkAlarm, Proc.plain_checkAlarm]
  exact congrArg Proc.checkAlarm ((htick.wakeup .ticks).proc i)

/-- A pass keeps agreement when every quantum is `q`. -/
theorem Agree.pass (hrr : m.schedp.rrMode ≠ 0) (hrr' : m'.schedp.rrMode ≠ 0)
    (hu : m.schedp.Uniform q) (hu' : m'.schedp.Uniform q) (c : Fin ncpu) :
    (m.effect (.pass c)).Agree (m'.effect (.pass c)) where
  proc := h.pass_proc hrr hrr' hu hu'
  tunables := by
    show (scheduler m.toKernel).1.schedp.toSchedUpdate.plain = _
    rw [scheduler_tunables, h.tunables]
    exact congrArg SchedUpdate.plain scheduler_tunables.symm
  agentPid := scheduler_agentPid.trans (h.agentPid.trans scheduler_agentPid.symm)
  nextpid := scheduler_nextpid.trans (h.nextpid.trans scheduler_nextpid.symm)
  ticks := scheduler_ticks.trans (h.ticks.trans scheduler_ticks.symm)
  initproc := scheduler_initproc.trans (h.initproc.trans scheduler_initproc.symm)
  lastBoostTick := by
    show (scheduler m.toKernel).1.lastBoostTick = (scheduler m'.toKernel).1.lastBoostTick
    rw [scheduler_lastBoostTick, scheduler_lastBoostTick, h.boostDue_eq, h.ticks, h.lastBoostTick]
  rrNext := by
    show (scheduler m.toKernel).1.rrNext = (scheduler m'.toKernel).1.rrNext
    rw [scheduler_rrNext hrr, scheduler_rrNext hrr', h.picked_eq hrr hrr', h.rrNext]
  cpu := by
    show Function.update m.cpu c (picked m.toKernel) = Function.update m'.cpu c _
    rw [h.picked_eq hrr hrr', h.cpu]
    rfl
  intr := h.intr
  ctl := h.ctl
  ptableLocked := h.ptableLocked
  rax := h.rax

theorem Agree.irq (c : Fin ncpu) (user : Bool) :
    (m.irq c user).Agree (m'.irq c user) := by
  have hclock : Agree (m.onKernel fun k => if c.val = 0 then clock k else k)
      (m'.onKernel fun k => if c.val = 0 then clock k else k) := by
    by_cases hc : c.val = 0
    · simp only [hc, if_true]
      exact h.tick
    · simp only [hc, if_false]
      exact h
  exact hclock.setIntr (f := fun i => Function.update i c (some (.entered user)))

theorem Agree.telemetry (c : Fin ncpu) (user : Bool) :
    (m.telemetry c user).Agree (m'.telemetry c user) := by
  cases hc : m'.cpu c with
  | none =>
    have hc₀ : m.cpu c = none := by rw [h.cpu, hc]
    simp only [Machine.telemetry, hc, hc₀]
    exact h.setIntr (f := fun i => Function.update i c (some (.counted user)))
  | some i =>
    have hc₀ : m.cpu c = some i := by rw [h.cpu, hc]
    have hp : ((m.proc i).telemetry m.schedp m.ticks).plain =
        ((m'.proc i).telemetry m'.schedp m'.ticks).plain := by
      rw [Proc.plain_telemetry, Proc.plain_telemetry, h.proc i]
    simp only [Machine.telemetry, hc, hc₀]
    exact (h.setProc hp).setIntr (f := fun i => Function.update i c (some (.counted user)))

theorem Agree.trapEnd (c : Fin ncpu) :
    (m.trapEnd c).Agree (m'.trapEnd c) := by
  simp only [Machine.trapEnd]
  cases hc : m'.cpu c with
  | none =>
    have hc₀ : m.cpu c = none := by rw [h.cpu, hc]
    simp only [hc₀]
    exact h.iret
  | some i =>
    have hc₀ : m.cpu c = some i := by rw [h.cpu, hc]
    have hkilled := Proc.plain_frame Proc.killed (fun _ => rfl) (h.proc i)
    have hleft := Proc.plain_frame Proc.ticksRemaining (fun _ => rfl) (h.proc i)
    have hp : (m.proc i).yielded.plain = (m'.proc i).yielded.plain :=
      congrArg Proc.yielded (h.proc i)
    have hexit : (m.goto i .exiting).Agree (m'.goto i .exiting) :=
      { h with ctl := by simp only [goto, h.ctl] }
    simp only [hc₀, hkilled, h.intr, h.state i, hleft]
    split_ifs
    · exact hexit.iret
    · exact (h.setProc hp).leave.iret
    · exact h.iret

/-- **Agreement is kept** by every step of a workload, when every quantum is `q`. -/
theorem Agree.effect (hrr : m.schedp.rrMode ≠ 0) (hrr' : m'.schedp.rrMode ≠ 0)
    (hu : m.schedp.Uniform q) (hu' : m'.schedp.Uniform q) (hw : e.workload) :
    (m.effect e).Agree (m'.effect e) := by
  cases e with
  | pass c => exact h.pass hrr hrr' hu hu' c
  | irq c user => exact h.irq c user
  | telemetry c user => exact h.telemetry c user
  | trapEnd c => exact h.trapEnd c
  | sleep c i chan =>
    exact (h.setProc (congrArg (fun p : Proc => { p with chan := chan, state := .sleeping })
      (h.proc i))).leave
  | wakeup chan => exact h.wakeup chan
  | _ => cases hw

end

theorem workload_tunables (hw : e.workload) :
    (m.effect e).schedp.toSchedUpdate = m.schedp.toSchedUpdate := by
  apply effect_tunables
  rintro c i upd rfl
  cases hw

/-- **With uniform quanta the MLFQ state has no influence.** -/
theorem oblivious_of_uniform (hrr : P.rrMode ≠ 0) (hrr' : P'.rrMode ≠ 0) (hu : P.Uniform q)
    (hu' : P'.Uniform q) : Oblivious P P' := by
  intro ncpu m m' es hm hm' h hw
  induction es generalizing m m' with
  | nil => rfl
  | cons e es ih =>
    obtain ⟨hwe, hwes⟩ := forall_mem_cons.mp hw
    subst hm hm'
    simp only [schedule, h.enabled hwe, h.observe_eq hrr hrr']
    split_ifs
    · rw [ih (m.effect e) (m'.effect e) (workload_tunables hwe)
        (workload_tunables hwe) (h.effect hrr hrr' hu hu' hwe) hwes]
    · exact ih m m' rfl rfl h hwes

/-! ## Quanta that differ -/

/-- The only CPU runs process 0, which has `left` ticks to go. -/
structure Busy (left : Int) (m : Machine 1) : Prop where
  cpu : m.cpu 0 = some 0
  intr : m.intr 0 = none
  unlocked : m.ptableLocked = false
  ctl : m.ctl 0 = .elsewhere
  running : (m.proc 0).state = .running
  alive : (m.proc 0).killed = false
  left : (m.proc 0).ticksRemaining = left

variable {b : Machine 1} {left : Int}

theorem Busy.count (h : Busy left b) (hleft : 1 ≤ left) (hsmall : left ≤ 40) :
    ∃ b₂ : Machine 1, (∀ es, b.schedule (userTick ++ es) = b₂.schedule (.trapEnd 0 :: es)) ∧
      b₂.intr 0 = some (.counted true) ∧ Busy (left - 1) (b₂.iret 0) := by
  have hen₁ : b.Enabled (.irq 0 true) := by
    simp [Enabled, Interruptible, h.cpu, h.intr, h.unlocked, h.ctl]
  have hstir := effect_not_targets hen₁ (j := 0) id
  have hrun : ((b.effect (.irq 0 true)).proc 0).state = .running :=
    hstir.running_iff.mpr h.running
  have hen₂ : (b.effect (.irq 0 true)).Enabled (.telemetry 0 true) := by
    simp [Enabled, effect, irq]
  have hproc : ((b.effect (.irq 0 true)).effect (.telemetry 0 true)).proc 0 = _ :=
    telemetry_proc h.cpu
  have hkilled : ((b.effect (.irq 0 true)).proc 0).killed = false :=
    (hstir.frame Proc.killed fun _ _ _ _ _ _ => rfl).trans h.alive
  have hleft' : ((b.effect (.irq 0 true)).proc 0).ticksRemaining = left :=
    (hstir.frame Proc.ticksRemaining fun _ _ _ _ _ _ => rfl).trans h.left
  refine ⟨(b.effect (.irq 0 true)).effect (.telemetry 0 true), ?_, ?_, ⟨?_, ?_, ?_, ?_, ?_, ?_, ?_⟩⟩
  · intro es
    simp only [userTick, cons_append, nil_append]
    rw [schedule, if_pos hen₁, schedule, if_pos hen₂]
    rfl
  · simp [effect, telemetry]
  · show ((b.effect (.irq 0 true)).effect (.telemetry 0 true)).cpu 0 = some 0
    rw [effect_cpu_eq rfl]
    exact h.cpu
  · simp
  · show ((b.effect (.irq 0 true)).effect (.telemetry 0 true)).ptableLocked = false
    refine (effect_ptableLocked ?_ ?_).trans h.unlocked <;> simp
  · simpa [effect, telemetry, irq, h.cpu] using h.ctl
  · show (((b.effect (.irq 0 true)).effect (.telemetry 0 true)).proc 0).state = .running
    rw [hproc, Proc.telemetry_state, hrun]
  · show (((b.effect (.irq 0 true)).effect (.telemetry 0 true)).proc 0).killed = false
    rw [hproc, Proc.telemetry_frame Proc.killed fun _ _ _ _ _ _ _ => rfl, hkilled]
  · show (((b.effect (.irq 0 true)).effect (.telemetry 0 true)).proc 0).ticksRemaining = left - 1
    rw [hproc, Proc.telemetry_ticksRemaining hrun, hleft', i32_eq_self (by omega) (by omega)]

/-- A tick before the last one is not seen. -/
theorem Busy.tick (h : Busy left b) (hleft : 1 < left) (hsmall : left ≤ 40) :
    ∃ b' : Machine 1, Busy (left - 1) b' ∧
      ∀ es, b.schedule (userTick ++ es) = b'.schedule es := by
  obtain ⟨b₂, hsched, hintr, hbusy⟩ := h.count (by omega) hsmall
  have hno : ¬ b₂.yields 0 0 := by
    intro hy
    have hle : (b₂.proc 0).ticksRemaining ≤ 0 := (yields_iff.mp hy).2.2
    have hl : (b₂.proc 0).ticksRemaining = left - 1 := hbusy.left
    omega
  have hcpu : b₂.cpu 0 = some 0 := hbusy.cpu
  have hen : b₂.Enabled (.trapEnd 0) := ⟨.inl hintr, fun i hi hy => by
    cases hcpu.symm.trans hi
    exact absurd hy hno⟩
  have heff : b₂.effect (.trapEnd 0) = b₂.iret 0 := by
    have halive : (b₂.proc 0).killed = false := hbusy.alive
    rcases b₂.trapEnd_cases 0 with ⟨heff, -⟩ | ⟨i, hc, hk, -, -⟩ | ⟨i, hc, hy, -⟩
    · exact heff
    · cases hcpu.symm.trans hc
      rw [halive] at hk
      cases hk
    · cases hcpu.symm.trans hc
      exact absurd hy hno
  refine ⟨b₂.iret 0, hbusy, fun es => ?_⟩
  rw [hsched, schedule, if_pos hen, heff]
  simp [observe, hcpu, hno]

/-- The last tick ends in a preemption. -/
theorem Busy.last (h : Busy 1 b) : (b.schedule userTick).length = 1 := by
  obtain ⟨b₂, hsched, hintr, hbusy⟩ := h.count (by omega) (by omega)
  have hcpu : b₂.cpu 0 = some 0 := hbusy.cpu
  have hy : b₂.yields 0 0 := by
    have halive : (b₂.proc 0).killed = false := hbusy.alive
    have hl : (b₂.proc 0).ticksRemaining = 1 - 1 := hbusy.left
    exact yields_iff.mpr ⟨by simp [halive], hbusy.running, by omega⟩
  have hen : b₂.Enabled (.trapEnd 0) := ⟨.inl hintr, fun _ _ _ => hbusy.unlocked⟩
  have hnil := hsched []
  rw [append_nil] at hnil
  rw [hnil, schedule, if_pos hen, schedule]
  simp [observe, hcpu, hy]

/-- `n` ticks of the clock. -/
def userTicks (n : Nat) : List (Event 1) := (List.replicate n userTick).flatten

theorem userTicks_workload (n : Nat) :
    ∀ e ∈ Event.pass (0 : Fin 1) :: userTicks n, e.workload := by
  intro e he
  rcases mem_cons.mp he with rfl | he
  · rfl
  · obtain ⟨l, hl, he⟩ := mem_flatten.mp he
    obtain rfl := eq_of_mem_replicate hl
    simp only [userTick, mem_cons, not_mem_nil, or_false] at he
    rcases he with rfl | rfl | rfl <;> rfl

theorem Busy.schedule_userTicks {n : Nat} (h : Busy left b) (hleft : 1 ≤ left) (hsmall : left ≤ 40)
    (hn : n ≤ left) : (b.schedule (userTicks n)).length = if (n : Int) = left then 1 else 0 := by
  induction n generalizing left b with
  | zero =>
    rw [if_neg (by simp; omega)]
    rfl
  | succ n ih =>
    have hcons : userTicks (n + 1) = userTick ++ userTicks n := rfl
    rw [hcons]
    by_cases hone : left = 1
    · subst hone
      obtain rfl : n = 0 := by omega
      exact h.last
    · obtain ⟨b', hb', hsched⟩ := h.tick (by omega) hsmall
      rw [hsched, ih hb' (by omega) (by omega) (by omega)]
      congr 1
      simp only [eq_iff_iff]
      omega

/-- The machine at boot with the tunables `P`, its one process in queue `level`. -/
def bootAt (P : SchedUpdate) (level : Int) : Machine 1 :=
  (bootWith P 1).setProc 0 { (bootWith P 1).proc 0 with queueLevel := level }

theorem bootAt_agree (h : P.plain = P'.plain) (level level' : Int) :
    (bootAt P level).Agree (bootAt P' level') where
  proc := fun i => by
    simp only [bootAt, setProc, onKernel, Kernel.setProc_proc]
    split_ifs <;> rfl
  tunables := h
  agentPid := rfl
  nextpid := rfl
  ticks := rfl
  initproc := rfl
  lastBoostTick := rfl
  rrNext := rfl
  cpu := rfl
  intr := rfl
  ctl := rfl
  ptableLocked := rfl
  rax := rfl

theorem bootAt_state (P : SchedUpdate) (level : Int) (i : Slot) :
    ((bootAt P level).proc i).state = (bootKernel.proc i).state := by
  simp only [bootAt, setProc, onKernel, Kernel.setProc_proc]
  split_ifs with hi
  · rw [hi]
    rfl
  · rfl

theorem bootAt_picked (hrr : P.rrMode ≠ 0) (level : Int) :
    picked (bootAt P level).toKernel = some 0 := by
  have hboot : selectRr 0 bootKernel.proc = some 0 := by decide +kernel
  rw [picked_rr (k := (bootAt P level).toKernel) hrr, ← hboot]
  apply selectRr_congr
  intro i
  rw [ripened_state]
  exact bootAt_state P level i

/-- The pass dispatches it with the quantum of its level. -/
theorem bootAt_pass (ha : P.Accepted) (hrr : P.rrMode ≠ 0) (level : Int) :
    Busy ((bootAt P level).schedp.snap.quantum level) ((bootAt P level).effect (.pass 0)) := by
  have hpick := bootAt_picked hrr level
  refine ⟨hpick, rfl, rfl, rfl, ?_, ?_, ?_⟩
  · exact (scheduler_state _ _).trans (if_pos hpick)
  · exact scheduler_proc_frame Proc.killed fun _ _ _ _ _ _ _ _ => rfl
  · have hnot : ¬ (boostDue (bootAt P level).schedp.snap (bootAt P level).toKernel ∧
        ((bootAt P level).proc 0).state ≠ .unused) := by
      rintro ⟨hb, -⟩
      have hdue : u32 (0 - 0) ≥ u32 P.boostInterval := of_decide_eq_true hb
      have hlo := ha.boost_ge
      have hhi := ha.boost_le
      rw [u32_eq_self (by omega) (by omega), u32_eq_self (by omega) (by omega)] at hdue
      omega
    have hlevel : ((scheduler (bootAt P level).toKernel).1.proc 0).queueLevel = level := by
      rw [pass_queueLevel, if_neg hnot]
      rfl
    exact (pass_ticksRemaining_picked hpick).trans (by rw [hlevel])

theorem bootAt_schedule (ha : P.Accepted) (hrr : P.rrMode ≠ 0) (level : Int) {n : Nat}
    (hn : n ≤ (bootAt P level).schedp.snap.quantum level) :
    ((bootAt P level).schedule (.pass 0 :: userTicks n)).length =
      if (n : Int) = (bootAt P level).schedp.snap.quantum level then 2 else 1 := by
  have hen : (bootAt P level).Enabled (.pass 0) := ⟨rfl, rfl, rfl⟩
  have hpos : 0 < (bootAt P level).schedp.snap.quantum level := ha.quantum_pos level
  have hsmall : (bootAt P level).schedp.snap.quantum level ≤ 40 := ha.quantum_le level
  have hticks := (bootAt_pass ha hrr level).schedule_userTicks hpos hsmall hn
  rw [schedule, if_pos hen, length_append, hticks]
  simp only [observe, bootAt_picked hrr]
  split_ifs <;> rfl

/-- Two processes with different quanta are told apart by the clock. -/
theorem not_oblivious_of_ne (ha : P.Accepted) (ha' : P'.Accepted) (hrr : P.rrMode ≠ 0)
    (hrr' : P'.rrMode ≠ 0) (hplain : P.plain = P'.plain) {level level' : Int}
    (hne : (bootAt P level).schedp.snap.quantum level ≠
      (bootAt P' level').schedp.snap.quantum level') : ¬ Oblivious P P' := by
  intro hobl
  have hpos : 0 < (bootAt P level).schedp.snap.quantum level := ha.quantum_pos level
  have hpos' : 0 < (bootAt P' level').schedp.snap.quantum level' := ha'.quantum_pos level'
  -- as many ticks as the shorter quantum has
  obtain ⟨n, hn⟩ : ∃ n : Nat, (n : Int) = min ((bootAt P level).schedp.snap.quantum level)
      ((bootAt P' level').schedp.snap.quantum level') := ⟨_, Int.toNat_of_nonneg (by omega)⟩
  have hsame := hobl 1 (bootAt P level) (bootAt P' level') (.pass 0 :: userTicks n) rfl rfl
    (bootAt_agree hplain level level') (userTicks_workload n)
  have hlen := bootAt_schedule ha hrr level (n := n) (by omega)
  have hlen' := bootAt_schedule ha' hrr' level' (n := n) (by omega)
  rw [hsame, hlen'] at hlen
  split_ifs at hlen <;> omega

/-- **When round-robin mode ignores the MLFQ state**: exactly when the three quanta of both
parameter sets are one and the same number. -/
theorem oblivious_iff_uniform (P P' : AcceptedParams) (hrr : P.1.rrMode = 1)
    (hrr' : P'.1.rrMode = 1) (hplain : P.1.plain = P'.1.plain) :
    Oblivious P P' ↔ ∃ q, P.1.Uniform q ∧ P'.1.Uniform q := by
  have hne : P.1.rrMode ≠ 0 := by omega
  have hne' : P'.1.rrMode ≠ 0 := by omega
  constructor
  · intro hobl
    -- otherwise two levels with different quanta would give it away
    have hall : ∀ level level', (bootAt P level).schedp.snap.quantum level =
        (bootAt P' level').schedp.snap.quantum level' := by
      intro level level'
      by_contra hq
      exact not_oblivious_of_ne P.2 P'.2 hne hne' hplain hq hobl
    have h00 : P.1.q0Quantum = P'.1.q0Quantum := hall 0 0
    have h01 : P.1.q0Quantum = P'.1.q1Quantum := hall 0 1
    have h02 : P.1.q0Quantum = P'.1.q2Quantum := hall 0 2
    have h10 : P.1.q1Quantum = P'.1.q0Quantum := hall 1 0
    have h20 : P.1.q2Quantum = P'.1.q0Quantum := hall 2 0
    refine ⟨P.1.q0Quantum, ⟨rfl, ?_, ?_⟩, ?_, ?_, ?_⟩ <;> omega
  · rintro ⟨q, hu, hu'⟩
    exact oblivious_of_uniform hne hne' hu hu'

/-- The parameters of `config_rr`. -/
def configRr : SchedUpdate where
  q0Quantum := 1
  q1Quantum := 2
  q2Quantum := 4
  boostInterval := 100
  emaAlphaFast := 50
  emaAlphaSlow := 10
  agingFactor := 10
  rrMode := 1

/-- One quantum for all, and any aging factor. -/
def evenRr (aging : Int) : SchedUpdate :=
  { configRr with q0Quantum := 4, q1Quantum := 4, q2Quantum := 4, agingFactor := aging }

theorem configRr_accepted : configRr.Accepted := by
  rw [← SchedUpdate.rejected_eq_false_iff]
  decide

theorem evenRr_oblivious : Oblivious (evenRr 10) (evenRr 100) :=
  (oblivious_iff_uniform
    ⟨evenRr 10, (SchedUpdate.rejected_eq_false_iff _).mp (by decide)⟩
    ⟨evenRr 100, (SchedUpdate.rejected_eq_false_iff _).mp (by decide)⟩ rfl rfl rfl).mpr
    ⟨4, ⟨rfl, rfl, rfl⟩, rfl, rfl, rfl⟩

/-- **Round-robin mode does not ignore the MLFQ state**: with the parameters of `config_rr`, a
process in queue 0 is preempted at the first tick and one in queue 1 at the second. -/
theorem config_rr_not_oblivious :
    ¬ ∀ P P' : AcceptedParams, P.1.rrMode = 1 → P'.1.rrMode = 1 → P.1.plain = P'.1.plain →
      Oblivious P P' := by
  intro hall
  have hobl := hall ⟨configRr, configRr_accepted⟩ ⟨configRr, configRr_accepted⟩ rfl rfl rfl
  have hquanta : (bootAt configRr 0).schedp.snap.quantum 0 ≠
      (bootAt configRr 1).schedp.snap.quantum 1 := by decide
  exact not_oblivious_of_ne configRr_accepted configRr_accepted (by decide) (by decide) rfl hquanta
    hobl

end Machine

end Xv6.Sched
