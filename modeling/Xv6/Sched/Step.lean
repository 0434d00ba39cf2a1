import Xv6.Sched.Machine
import Xv6.Sched.Pass

/-!
# What a step can do

One inversion lemma for each component of the machine. `SlotStep`, `CtlStep` and `CpuStep` list
everything an enabled step can do to one process, one control point and one CPU, guards included;
`effect_slot`, `effect_ctl` and `effect_cpu` say the lists are complete. Invariants are proved by
cases on these lists and never unfold `effect`.
-/

namespace Xv6.Sched

open Function (update update_apply)

variable {ncpu : Nat}

/-- The process whose control point the event sets. -/
def Event.caller : Event ncpu → Option Slot
  | .forkAlloc _ i | .forkFail _ i _ | .forkDone _ i _ | .registerTest _ i | .registerLock _ i
  | .registerPin _ i | .setparamTest _ i _ _ | .setparamWrite _ i _ | .getschedstats _ i _ _
  | .fault _ i _ | .exitCall _ i | .exitRelease _ i | .exitZombie _ i | .reap _ i _ => some i
  | _ => none

/-- The events that can switch a process in or out. -/
def Event.switches : Event ncpu → Bool
  | .pass _ | .trapEnd _ | .sleep _ _ _ | .waitSleep _ _ | .exitZombie _ _ => true
  | _ => false

/-- The CPU whose timer trap the event is a piece of. -/
def Event.trapCpu : Event ncpu → Option (Fin ncpu)
  | .irq c _ | .telemetry c _ | .trapEnd c => some c
  | _ => none

/-- The events that can write kernel data other than the process table. -/
def Event.writesGlobals : Event ncpu → Bool
  | .pass _ | .irq _ _ | .forkAlloc _ _ | .registerLock _ _ | .setparamWrite _ _ _
  | .exitRelease _ _ => true
  | _ => false

namespace Machine

variable {m : Machine ncpu} {e : Event ncpu}

/-! ## Processes -/

/-- Step `e` is aimed at process `j`: it does more to it than wake it up. -/
def Targets (m : Machine ncpu) (j : Slot) : Event ncpu → Prop
  | .pass _ => True
  | .telemetry c _ => m.cpu c = some j
  | .trapEnd c => m.cpu c = some j ∧ m.yields c j
  | .forkAlloc _ _ => freeSlot m.proc = some j
  | .forkFail _ _ np | .forkDone _ _ np => j = np
  | .exec _ i _ | .sleep _ i _ | .waitSleep _ i | .registerPin _ i | .fault _ i _
  | .exitZombie _ i => j = i
  | .reap _ _ j' => j = j'
  | _ => False

/-- What step `e` can make of process `j`. -/
inductive SlotStep (m : Machine ncpu) : Event ncpu → Slot → Proc → Prop where
  /-- Untouched, or woken up, or given other signal, alarm or parent fields. -/
  | stirred {e : Event ncpu} {j : Slot} {p : Proc} : ¬ m.Targets j e → (m.proc j).Stirred p →
      SlotStep m e j p
  | passed {c : Fin ncpu} {j : Slot} : SlotStep m (.pass c) j ((scheduler m.toKernel).1.proc j)
  | counted {c : Fin ncpu} {u : Bool} {j : Slot} : m.cpu c = some j →
      SlotStep m (.telemetry c u) j ((m.proc j).telemetry m.schedp m.ticks)
  | yielded {c : Fin ncpu} {j : Slot} : m.cpu c = some j → m.yields c j →
      SlotStep m (.trapEnd c) j (m.proc j).yielded
  | allocated {c : Fin ncpu} {i j : Slot} : freeSlot m.proc = some j →
      SlotStep m (.forkAlloc c i) j ((allocproc j m.toKernel).proc j)
  | aborted {c : Fin ncpu} {i j : Slot} : m.ctl i = .forking j →
      SlotStep m (.forkFail c i j) j { m.proc j with state := .unused }
  | made {c : Fin ncpu} {i j : Slot} : m.ctl i = .forking j →
      SlotStep m (.forkDone c i j) j
        { m.proc j with sz := (m.proc i).sz, parent := some i, state := .runnable }
  | resized {c : Fin ncpu} {j : Slot} {sz : Nat} : m.cpu c = some j →
      SlotStep m (.exec c j sz) j { m.proc j with sz := sz }
  | slept {c : Fin ncpu} {j : Slot} {chan : Chan} : m.cpu c = some j →
      SlotStep m (.sleep c j chan) j { m.proc j with chan := chan, state := .sleeping }
  | waited {c : Fin ncpu} {j : Slot} : m.cpu c = some j →
      SlotStep m (.waitSleep c j) j { m.proc j with chan := .proc j, state := .sleeping }
  | pinned {c : Fin ncpu} {j : Slot} : m.cpu c = some j → m.ctl j = .pinning →
      SlotStep m (.registerPin c j) j
        { m.proc j with queueLevel := 0, ticksRemaining := m.schedp.q0Quantum }
  | faulted {c : Fin ncpu} {j : Slot} {pf : Bool} {n : Int} : m.cpu c = some j →
      SlotStep m (.fault c j pf) j { m.proc j with pageFaultCount := n, killed := true }
  | exited {c : Fin ncpu} {j : Slot} {p : Proc} : m.cpu c = some j → m.ctl j = .released →
      (m.proc j).Stirred p → SlotStep m (.exitZombie c j) j { p with state := .zombie }
  | reaped {c : Fin ncpu} {i j : Slot} : (m.proc j).state = .zombie →
      SlotStep m (.reap c i j) j
        { m.proc j with pid := 0, parent := none, killed := false, state := .unused }

variable {i j : Slot} {c : Fin ncpu}

theorem zombieChild_zombie {t : Table} (h : zombieChild t i = some j) : (t j).state = .zombie := by
  rw [zombieChild] at h
  have := List.find?_some h
  simp at this
  exact this.2

theorem adopt_stirred (i : Slot) (k : Kernel) (j : Slot) :
    (k.proc j).Stirred ((adopt i k).proc j) := by
  simp only [adopt]
  split
  · exact ⟨_, _, _, _, _, rfl, .inl rfl⟩
  · exact .refl _

theorem zombify_proc (i : Slot) (k : Kernel) (j : Slot) : ∃ p, (k.proc j).Stirred p ∧
    (zombify i k).proc j = if j = i then { p with state := .zombie } else p := by
  obtain ⟨k₂, hk₂, h⟩ : ∃ k₂ : Kernel, (∀ j, (k.proc j).Stirred (k₂.proc j)) ∧
      zombify i k = k₂.setProc i { k₂.proc i with state := .zombie } := by
    refine ⟨_, fun j => ?_, rfl⟩
    have h₁ := (wakeup1_stirred (((k.proc i).parent.map Chan.proc).getD .null) k j).trans
      (adopt_stirred i _ j)
    rw [apply_ite Kernel.proc, ite_apply]
    split_ifs
    · exact h₁.trans (wakeup1_stirred _ _ j)
    · exact h₁
  refine ⟨k₂.proc j, hk₂ j, ?_⟩
  rw [h, Kernel.setProc_proc]
  split_ifs with hj
  · rw [hj]
  · rfl

theorem yields_iff : m.yields c i = true ↔
    ¬ ((m.proc i).killed = true ∧ m.intr c = some (.counted true)) ∧
      (m.proc i).state = .running ∧ (m.proc i).ticksRemaining ≤ 0 := by
  cases hk : (m.proc i).killed <;> simp [yields, hk]

/-- The three ways a timer trap ends: back to where it came from, into `exit`, or switched out. -/
theorem trapEnd_cases (m : Machine ncpu) (c : Fin ncpu) :
    (m.trapEnd c = m.iret c ∧ ∀ i, m.cpu c = some i → ¬ m.yields c i) ∨
    (∃ i, m.cpu c = some i ∧ (m.proc i).killed = true ∧ m.intr c = some (.counted true) ∧
      m.trapEnd c = (m.goto i .exiting).iret c) ∨
    ∃ i, m.cpu c = some i ∧ m.yields c i ∧
      m.trapEnd c = ((m.setProc i (m.proc i).yielded).leave c).iret c := by
  unfold trapEnd
  split
  · next i hc =>
      split_ifs with hk hy
      · exact .inr (.inl ⟨i, hc, hk.1, hk.2, rfl⟩)
      · exact .inr (.inr ⟨i, hc, yields_iff.mpr ⟨hk, hy⟩, rfl⟩)
      · refine .inl ⟨rfl, fun j hj hyj => ?_⟩
        cases hc.symm.trans hj
        exact hy (yields_iff.mp hyj).2
  · next hc => exact .inl ⟨rfl, fun j hj => by simp [hc] at hj⟩

/-- Storing process `b` does to slot `j` what it is given to do there, and nothing elsewhere. -/
theorem SlotStep.store {b : Slot} {p : Proc} (hT : m.Targets j e → j = b) (h : SlotStep m e b p) :
    SlotStep m e j ((m.setProc b p).proc j) := by
  simp only [setProc, onKernel, Kernel.setProc_proc]
  split
  · next hj => exact hj ▸ h
  · next hj => exact .stirred (fun h => hj (hT h)) (.refl _)

/-- **What a step can make of a process.** -/
theorem effect_slot (he : m.Enabled e) (j : Slot) : SlotStep m e j ((m.effect e).proc j) := by
  have hrefl : ∀ e : Event ncpu, ¬ m.Targets j e → SlotStep m e j (m.proc j) :=
    fun _ hT => .stirred hT (.refl _)
  cases e with
  | pass c => exact .passed
  | irq c user =>
    by_cases hc : c.val = 0
    · simp only [effect, irq, hc, onKernel, if_true]
      exact .stirred id (clock_stirred m.toKernel j)
    · simp only [effect, irq, hc, onKernel, if_false]
      exact hrefl _ id
  | telemetry c user =>
    cases hc : m.cpu c with
    | none =>
      simp only [effect, telemetry, hc]
      exact hrefl _ (by simp [Targets, hc])
    | some i =>
      simp only [effect, telemetry, hc]
      exact .store (by simp [Targets, hc, eq_comm]) (.counted hc)
  | trapEnd c =>
    rcases m.trapEnd_cases c with ⟨heff, hno⟩ | ⟨i, hc, hk, hu, heff⟩ | ⟨i, hc, hy, heff⟩ <;>
      rw [effect, heff]
    · exact hrefl _ fun hT => hno j hT.1 hT.2
    · refine hrefl _ fun hT => ?_
      cases hc.symm.trans hT.1
      exact (yields_iff.mp hT.2).1 ⟨hk, hu⟩
    · exact .store (fun hT => Option.some.inj (hT.1.symm.trans hc)) (.yielded hc hy)
  | forkAlloc c i =>
    simp only [effect]
    split
    · next np hnp =>
        by_cases hj : j = np
        · subst hj
          exact .allocated hnp
        · simp only [onKernel, goto, allocproc, Kernel.setProc_ne _ _ hj]
          exact hrefl _ fun hT => hj (Option.some.inj (hT.symm.trans hnp))
    · next hnone => exact hrefl _ (by simp [Targets, hnone])
  | forkFail c i np => exact .store id (.aborted he.2.2)
  | forkDone c i np => exact .store id (.made he.2.2)
  | exec c i sz => exact .store id (.resized he.1)
  | sleep c i chan => exact .store id (.slept (he.1.elim (·.1) (·.1)))
  | wakeup chan => exact .stirred id (wakeup1_stirred chan _ j)
  | kill pid signum => exact .stirred id (kill_stirred pid signum _ j)
  | alarm c i secs => exact .store (by simp [Targets]) (.stirred id ⟨_, _, _, _, _, rfl, .inl rfl⟩)
  | registerTest c i =>
    simp only [effect]
    split_ifs <;> exact hrefl _ id
  | registerLock c i =>
    simp only [effect]
    split_ifs <;> exact hrefl _ id
  | registerPin c i => exact .store id (.pinned he.1.1 he.1.2.2)
  | setparamTest c i updAddr upd =>
    simp only [effect]
    split_ifs <;> exact hrefl _ id
  | setparamWrite c i upd => exact hrefl _ id
  | getschedstats c i bufAddr maxproc => exact hrefl _ id
  | fault c i pageFault => exact .store id (.faulted he.1.1)
  | exitCall c i => exact hrefl _ id
  | exitRelease c i =>
    have hsame : (releaseAgentSlot i m.toKernel).proc j = m.proc j := by
      unfold releaseAgentSlot
      split <;> rfl
    simp only [effect, onKernel, goto, hsame]
    exact hrefl _ id
  | exitZombie c i =>
    obtain ⟨p, hp, hz⟩ := zombify_proc i m.toKernel j
    simp only [effect, onKernel, leave, goto, hz]
    split
    · next hj =>
        subst hj
        exact .exited he.1 he.2.2 hp
    · next hj => exact .stirred hj hp
  | reap c i j' => exact .store id (.reaped (zombieChild_zombie he.2.2))
  | waitSleep c i => exact .store id (.waited he.1.1)

theorem telemetry_proc {user : Bool} (hc : m.cpu c = some j) :
    (m.effect (.telemetry c user)).proc j = (m.proc j).telemetry m.schedp m.ticks := by
  simp [effect, telemetry, hc]

/-- The end of the trap switches out the process that has no time left. -/
theorem trapEnd_proc (hc : m.cpu c = some j) (hy : m.yields c j) :
    (m.effect (.trapEnd c)).proc j = (m.proc j).yielded := by
  have hy' := yields_iff.mp hy
  simp [effect, trapEnd, hc, hy'.1, hy'.2]

/-- A process the step is not aimed at is woken up at most. -/
theorem effect_not_targets (he : m.Enabled e) (hT : ¬ m.Targets j e) :
    (m.proc j).Stirred ((m.effect e).proc j) := by
  have hs := effect_slot he j
  generalize (m.effect e).proc j = p at hs
  cases hs with
  | stirred _ h => exact h
  | passed => exact absurd trivial hT
  | counted hc => exact absurd hc hT
  | yielded hc hy => exact absurd ⟨hc, hy⟩ hT
  | allocated hfree => exact absurd hfree hT
  | aborted | made | resized | slept | waited | pinned | faulted | exited | reaped =>
    exact absurd rfl hT

/-! ## Control points -/

/-- Where step `e` can leave process `j`. -/
inductive CtlStep (m : Machine ncpu) : Event ncpu → Slot → Ctl → Prop where
  | same {e : Event ncpu} {j : Slot} : e.caller ≠ some j → CtlStep m e j (m.ctl j)
  | returned {e : Event ncpu} {c : Fin ncpu} {j : Slot} : m.cpu c = some j → m.intr c = none →
      m.ctl j ≠ .exiting → m.ctl j ≠ .released → CtlStep m e j .elsewhere
  | forked {c : Fin ncpu} {j np : Slot} : m.At c j .elsewhere → freeSlot m.proc = some np →
      CtlStep m (.forkAlloc c j) j (.forking np)
  | tested {c : Fin ncpu} {j : Slot} : m.At c j .elsewhere → m.schedp.agentPid = 0 →
      CtlStep m (.registerTest c j) j .registering
  | taken {c : Fin ncpu} {j : Slot} : m.At c j .registering → m.schedp.agentPid = 0 →
      CtlStep m (.registerLock c j) j .pinning
  | accepted {c : Fin ncpu} {j : Slot} {updAddr : Nat} {upd : SchedUpdate} :
      m.At c j .elsewhere → setschedparamTest m.toKernel j updAddr upd = true →
      CtlStep m (.setparamTest c j updAddr upd) j (.setting upd)
  | faulted {c : Fin ncpu} {j : Slot} {pf : Bool} : m.At c j .elsewhere →
      CtlStep m (.fault c j pf) j .exiting
  | exitCalled {c : Fin ncpu} {j : Slot} : m.At c j .elsewhere →
      CtlStep m (.exitCall c j) j .exiting
  | killed {c : Fin ncpu} {j : Slot} : m.cpu c = some j → (m.proc j).killed = true →
      m.intr c = some (.counted true) → CtlStep m (.trapEnd c) j .exiting
  | released {c : Fin ncpu} {j : Slot} : m.At c j .exiting →
      CtlStep m (.exitRelease c j) j .released
  | exited {c : Fin ncpu} {j : Slot} : m.At c j .released →
      CtlStep m (.exitZombie c j) j .elsewhere

theorem CtlStep.still (hcaller : e.caller = none) : CtlStep m e j (m.ctl j) :=
  .same (by simp [hcaller])

/-- Moving process `i` does to `j` what it is given to do there, and nothing elsewhere. -/
theorem CtlStep.move {x : Ctl} (hcaller : e.caller = some i) (h : CtlStep m e i x) :
    CtlStep m e j (update m.ctl i x j) := by
  rw [update_apply]
  split
  · next hj => exact hj ▸ h
  · next hj =>
      refine .same ?_
      rw [hcaller]
      exact fun h => hj (Option.some.inj h).symm

/-- **Where a step can leave a process.** -/
theorem effect_ctl (he : m.Enabled e) (j : Slot) : CtlStep m e j ((m.effect e).ctl j) := by
  -- Returning from a call whose control point is neither of those of `exit`.
  have hret : ∀ {c i ctl} {e : Event ncpu}, m.At c i ctl → ctl ≠ .exiting → ctl ≠ .released →
      CtlStep m e i .elsewhere :=
    fun h he hr => .returned h.1 h.2.1 (h.2.2 ▸ he) (h.2.2 ▸ hr)
  cases e with
  | pass c => exact .still rfl
  | irq c user => exact .still rfl
  | telemetry c user =>
    have hsame : (m.telemetry c user).ctl = m.ctl := by
      unfold telemetry
      cases m.cpu c <;> rfl
    simp only [effect, hsame]
    exact .still rfl
  | trapEnd c =>
    rcases m.trapEnd_cases c with ⟨heff, -⟩ | ⟨i, hc, hk, hu, heff⟩ | ⟨i, -, -, heff⟩ <;>
      rw [effect, heff]
    · exact .still rfl
    · simp only [goto, iret, update_apply]
      split
      · next hj => exact hj ▸ .killed hc hk hu
      · exact .still rfl
    · exact .still rfl
  | forkAlloc c i =>
    simp only [effect]
    split
    · next np hnp => exact .move rfl (.forked he.1 hnp)
    · exact .move rfl (hret he.1 (by simp) (by simp))
  | forkFail c i np => exact .move rfl (hret he (by simp) (by simp))
  | forkDone c i np => exact .move rfl (hret he (by simp) (by simp))
  | exec c i sz => exact .still rfl
  | sleep c i chan => exact .still rfl
  | wakeup chan => exact .still rfl
  | kill pid signum => exact .still rfl
  | alarm c i secs => exact .still rfl
  | registerTest c i =>
    simp only [effect]
    split_ifs with ha
    · exact .move rfl (hret he (by simp) (by simp))
    · exact .move rfl (.tested he (not_not.mp ha))
  | registerLock c i =>
    simp only [effect]
    split_ifs with ha
    · exact .move rfl (hret he (by simp) (by simp))
    · exact .move rfl (.taken he (not_not.mp ha))
  | registerPin c i => exact .move rfl (hret he.1 (by simp) (by simp))
  | setparamTest c i updAddr upd =>
    simp only [effect]
    split_ifs with ht
    · exact .move rfl (.accepted he ht)
    · exact .move rfl (hret he (by simp) (by simp))
  | setparamWrite c i upd => exact .move rfl (hret he (by simp) (by simp))
  | getschedstats c i bufAddr maxproc => exact .move rfl (hret he.1 (by simp) (by simp))
  | fault c i pageFault => exact .move rfl (.faulted he.1)
  | exitCall c i => exact .move rfl (.exitCalled he.1)
  | exitRelease c i => exact .move rfl (.released he.1)
  | exitZombie c i => exact .move rfl (.exited he)
  | reap c i j' => exact .move rfl (hret he.1 (by simp) (by simp))
  | waitSleep c i => exact .still rfl

/-! ## CPUs -/

/-- What step `e` can do to the CPUs: nothing, give one up, or dispatch on one. -/
inductive CpuStep (m : Machine ncpu) (e : Event ncpu) : Prop where
  | keep : (m.effect e).cpu = m.cpu →
      (∀ j, ((m.effect e).proc j).state = .running ↔ (m.proc j).state = .running) → CpuStep m e
  | park (c : Fin ncpu) (i : Slot) : m.cpu c = some i →
      (m.effect e).cpu = update m.cpu c none →
      (∀ j, ((m.effect e).proc j).state = .running ↔ (m.proc j).state = .running ∧ j ≠ i) →
      CpuStep m e
  | dispatch (c : Fin ncpu) : e = .pass c → m.cpu c = none → m.intr c = none →
      (m.effect e).cpu = update m.cpu c (picked m.toKernel) →
      (∀ j, ((m.effect e).proc j).state = .running ↔
        (m.proc j).state = .running ∨ picked m.toKernel = some j) → CpuStep m e

/-- A pass makes RUNNING exactly the process it picks. -/
theorem pass_running (k : Kernel) (j : Slot) :
    ((scheduler k).1.proc j).state = .running ↔
      (k.proc j).state = .running ∨ picked k = some j := by
  rw [scheduler_state]
  split
  · next h => simp [h]
  · next h => simp [h]

/-- A step outside the scheduler leaves the RUNNING processes running. A child that `fork` is
still making is an EMBRYO, so giving it up or setting it going takes no CPU away. -/
theorem SlotStep.running_iff (hfork : ∀ i np, m.ctl i = .forking np → (m.proc np).state = .embryo)
    (hswitch : e.switches = false) {p : Proc} (h : SlotStep m e j p) :
    p.state = .running ↔ (m.proc j).state = .running := by
  cases h with
  | stirred _ h => exact h.running_iff
  | counted => rw [Proc.telemetry_state]
  | allocated h => simp [allocproc, freeSlot_unused h]
  | aborted h => simp [hfork _ _ h]
  | made h => simp [hfork _ _ h]
  | reaped h => simp [h]
  | resized | pinned | faulted => rfl
  | passed | yielded | slept | waited | exited => cases hswitch

theorem effect_cpu_eq (hswitch : e.switches = false) : (m.effect e).cpu = m.cpu := by
  cases e with
  | telemetry c user =>
    simp only [effect, telemetry]
    cases m.cpu c <;> rfl
  | forkAlloc | registerTest | registerLock | setparamTest =>
    simp only [effect]
    split <;> rfl
  | pass | trapEnd | sleep | waitSleep | exitZombie => cases hswitch
  | _ => rfl

/-- **What a step can do to the CPUs.** -/
theorem effect_cpu (hfork : ∀ i np, m.ctl i = .forking np → (m.proc np).state = .embryo)
    (he : m.Enabled e) : CpuStep m e := by
  by_cases hswitch : e.switches = false
  · exact .keep (effect_cpu_eq hswitch) fun j => (effect_slot he j).running_iff hfork hswitch
  cases e with
  | pass c => exact .dispatch c rfl he.1 he.2.1 rfl (pass_running m.toKernel)
  | trapEnd c =>
    rcases m.trapEnd_cases c with ⟨heff, -⟩ | ⟨i, -, -, -, heff⟩ | ⟨i, hc, -, heff⟩
    · exact .keep (by rw [effect, heff]; rfl) fun j => by rw [effect, heff]; rfl
    · exact .keep (by rw [effect, heff]; rfl) fun j => by rw [effect, heff]; rfl
    · refine .park c i hc (by rw [effect, heff]; rfl) fun j => ?_
      rw [effect, heff]
      simp only [iret, leave, setProc, onKernel, Kernel.setProc_proc]
      split <;> simp_all [Proc.yielded]
  | sleep c i chan =>
    refine .park c i (he.1.elim (·.1) (·.1)) rfl fun j => ?_
    simp only [effect, sleepOn, leave, setProc, onKernel, Kernel.setProc_proc]
    split <;> simp_all
  | waitSleep c i =>
    refine .park c i he.1.1 rfl fun j => ?_
    simp only [effect, sleepOn, leave, setProc, onKernel, Kernel.setProc_proc]
    split <;> simp_all
  | exitZombie c i =>
    refine .park c i he.1 rfl fun j => ?_
    obtain ⟨p, hp, hz⟩ := zombify_proc i m.toKernel j
    simp only [effect, leave, goto, onKernel, hz]
    split
    · next hj => simp [hj]
    · next hj => simp [hj, hp.running_iff]
  | _ => exact absurd rfl hswitch

/-! ## Traps -/

/-- What step `e` can do to the trap CPU `c` is in. -/
inductive IntrStep (m : Machine ncpu) : Event ncpu → Fin ncpu → Option Intr → Prop where
  | same {e : Event ncpu} {c : Fin ncpu} : e.trapCpu ≠ some c → IntrStep m e c (m.intr c)
  | entered {c : Fin ncpu} {user : Bool} : m.intr c = none → m.Interruptible c user →
      IntrStep m (.irq c user) c (some (.entered user))
  | counted {c : Fin ncpu} {user : Bool} : m.intr c = some (.entered user) →
      IntrStep m (.telemetry c user) c (some (.counted user))
  | left {c : Fin ncpu} : IntrStep m (.trapEnd c) c none

theorem IntrStep.still (htrap : e.trapCpu = none) : IntrStep m e c (m.intr c) :=
  .same (by simp [htrap])

/-- **What a step can do to a trap.** -/
theorem effect_intr (he : m.Enabled e) (c : Fin ncpu) :
    IntrStep m e c ((m.effect e).intr c) := by
  cases e with
  | irq c' user =>
    simp only [effect, irq, update_apply]
    split
    · next hc =>
        subst hc
        exact .entered he.1 he.2.2
    · next hc => exact .same fun h => hc (Option.some.inj h).symm
  | telemetry c' user =>
    simp only [effect, telemetry, update_apply]
    split
    · next hc =>
        subst hc
        exact .counted he
    · next hc => exact .same fun h => hc (Option.some.inj h).symm
  | trapEnd c' =>
    have hintr : (m.trapEnd c').intr = update m.intr c' none := by
      rcases m.trapEnd_cases c' with ⟨heff, -⟩ | ⟨i, -, -, -, heff⟩ | ⟨i, -, -, heff⟩ <;>
        rw [heff] <;> rfl
    rw [effect, hintr, update_apply]
    split
    · next hc => exact hc ▸ .left
    · next hc => exact .same fun h => hc (Option.some.inj h).symm
  | forkAlloc | registerTest | registerLock | setparamTest =>
    simp only [effect]
    split <;> exact .still rfl
  | _ => exact .still rfl

/-! ## The lock -/

theorem effect_ptableLocked (hr : ∀ c i, e ≠ .exitRelease c i) (hz : ∀ c i, e ≠ .exitZombie c i) :
    (m.effect e).ptableLocked = m.ptableLocked := by
  cases e with
  | telemetry c user =>
    simp only [effect, telemetry]
    cases m.cpu c <;> rfl
  | trapEnd c =>
    rcases m.trapEnd_cases c with ⟨heff, -⟩ | ⟨i, -, -, -, heff⟩ | ⟨i, -, -, heff⟩ <;>
      rw [effect, heff] <;> rfl
  | forkAlloc | registerTest | registerLock | setparamTest =>
    simp only [effect]
    split <;> rfl
  | exitRelease c i => exact absurd rfl (hr c i)
  | exitZombie c i => exact absurd rfl (hz c i)
  | _ => rfl

/-! ## The parameter block and the counters -/

theorem zombify_eq (i : Slot) (k : Kernel) :
    zombify i k = { k with proc := (zombify i k).proc } := by
  unfold zombify
  dsimp only
  split_ifs <;> rfl

/-- Most events write the process table and nothing else of the kernel. -/
theorem effect_frame {β : Type} (obs : Kernel → β) (hobs : ∀ k t, obs { k with proc := t } = obs k)
    (hd : e.writesGlobals = false) : obs (m.effect e).toKernel = obs m.toKernel := by
  cases e with
  | telemetry c user =>
    simp only [effect, telemetry]
    cases m.cpu c with
    | none => rfl
    | some i => exact hobs _ _
  | trapEnd c =>
    rcases m.trapEnd_cases c with ⟨heff, -⟩ | ⟨i, -, -, -, heff⟩ | ⟨i, -, -, heff⟩ <;>
      rw [effect, heff]
    · rfl
    · rfl
    · exact hobs _ _
  | kill pid signum => exact kill_frame obs (fun _ _ _ => hobs _ _) pid signum _
  | exitZombie c i =>
    simp only [effect, leave, goto, onKernel]
    rw [zombify_eq]
    exact hobs _ _
  | registerTest | setparamTest =>
    simp only [effect]
    split <;> rfl
  | pass | irq | forkAlloc | registerLock | setparamWrite | exitRelease => cases hd
  | getschedstats | exitCall => rfl
  | _ => exact hobs _ _

/-- Outside passes and `setschedparam`, a step writes nothing of the parameter block but the agent
slot. -/
theorem effect_schedp {β : Type} (obs : SchedParams → β)
    (hobs : ∀ (s : SchedParams) pid, obs { s with agentPid := pid } = obs s)
    (hp : ∀ c, e ≠ .pass c) (hw : ∀ c i upd, e ≠ .setparamWrite c i upd) :
    obs (m.effect e).schedp = obs m.schedp := by
  by_cases hd : e.writesGlobals = false
  · exact effect_frame (fun k => obs k.schedp) (fun _ _ => rfl) hd
  cases e with
  | pass c => exact absurd rfl (hp c)
  | irq c user =>
    simp only [effect, irq, onKernel]
    split <;> rfl
  | forkAlloc c i =>
    simp only [effect]
    split <;> rfl
  | registerLock c i =>
    simp only [effect]
    split
    · rfl
    · exact hobs m.schedp _
  | exitRelease c i =>
    simp only [effect, onKernel, goto, releaseAgentSlot]
    split
    · exact hobs m.schedp 0
    · rfl
  | setparamWrite c i upd => exact absurd rfl (hw c i upd)
  | _ => exact absurd rfl hd

/-- The tunables are written in one place. -/
theorem effect_tunables (hw : ∀ c i upd, e ≠ .setparamWrite c i upd) :
    (m.effect e).schedp.toSchedUpdate = m.schedp.toSchedUpdate := by
  by_cases hp : ∃ c, e = .pass c
  · obtain ⟨c, rfl⟩ := hp
    exact scheduler_tunables
  · exact effect_schedp (·.toSchedUpdate) (fun _ _ => rfl) (fun c he => hp ⟨c, he⟩) hw

/-- The alert is raised by passes and cleared by `setschedparam`. -/
theorem effect_schedAlert (hp : ∀ c, e ≠ .pass c) (hw : ∀ c i upd, e ≠ .setparamWrite c i upd) :
    (m.effect e).schedp.schedAlert = m.schedp.schedAlert :=
  effect_schedp (·.schedAlert) (fun _ _ => rfl) hp hw

/-- What step `e` can make of `schedp.agent_pid`. -/
inductive AgentStep (m : Machine ncpu) : Event ncpu → Int → Prop where
  | same {e : Event ncpu} :
      (∀ c i, e = .exitRelease c i → m.schedp.agentPid ≠ (m.proc i).pid) →
      AgentStep m e m.schedp.agentPid
  | taken {c : Fin ncpu} {i : Slot} : m.At c i .registering → m.schedp.agentPid = 0 →
      AgentStep m (.registerLock c i) (m.proc i).pid
  | released {c : Fin ncpu} {i : Slot} : m.At c i .exiting →
      m.schedp.agentPid = (m.proc i).pid → AgentStep m (.exitRelease c i) 0

/-- **What a step can make of the agent slot.** -/
theorem effect_agentPid (he : m.Enabled e) : AgentStep m e (m.effect e).schedp.agentPid := by
  by_cases hd : e.writesGlobals = false
  · rw [effect_frame (·.schedp.agentPid) (fun _ _ => rfl) hd]
    exact .same fun c i h => by cases h; cases hd
  cases e with
  | pass c =>
    rw [show (m.effect (.pass c)).schedp.agentPid = _ from scheduler_agentPid]
    exact .same (by simp)
  | irq c user =>
    simp only [effect, irq, onKernel]
    split <;> exact .same (by simp)
  | forkAlloc c i =>
    simp only [effect]
    split <;> exact .same (by simp)
  | registerLock c i =>
    simp only [effect]
    split_ifs with ha
    · exact .same (by simp)
    · exact .taken he (not_not.mp ha)
  | setparamWrite c i upd => exact .same (by simp)
  | exitRelease c i =>
    simp only [effect, onKernel, goto, releaseAgentSlot]
    split_ifs with ha
    · exact .released he.1 ha
    · exact .same fun c' i' h => by cases h; exact ha
  | _ => exact absurd rfl hd

/-- `nextpid` grows when `fork` finds a slot, and never otherwise. -/
theorem forkAlloc_nextpid {np : Slot} (h : freeSlot m.proc = some np) :
    (m.effect (.forkAlloc c i)).nextpid = m.nextpid + 1 := by
  simp [effect, h, allocproc]

theorem effect_nextpid_le (m : Machine ncpu) (e : Event ncpu) :
    m.nextpid ≤ (m.effect e).nextpid := by
  by_cases hd : e.writesGlobals = false
  · exact (effect_frame (·.nextpid) (fun _ _ => rfl) hd).ge
  cases e with
  | pass c => exact scheduler_nextpid.ge
  | irq c user =>
    simp only [effect, irq, onKernel]
    split <;> exact le_rfl
  | forkAlloc c i =>
    cases hf : freeSlot m.proc with
    | some np =>
      rw [forkAlloc_nextpid hf]
      omega
    | none => simp [effect, hf]
  | registerLock c i =>
    simp only [effect]
    split <;> exact le_rfl
  | setparamWrite c i upd => exact le_rfl
  | exitRelease c i =>
    simp only [effect, onKernel, goto, releaseAgentSlot]
    split <;> exact le_rfl
  | _ => exact absurd rfl hd

end Machine

end Xv6.Sched
