import Xv6.Sched.Tunables
import Xv6.Sched.Wf

/-!
# The agent slot

`schedp.agent_pid` is a lock by convention: whoever holds it may write the tunables. It is taken
by `sys_register_agent` and given back by `exit`, and the two system calls that depend on it read
it without a lock first. What makes that safe is that only the holder's own `exit` can empty the
slot, and a process inside `register_agent` or `setschedparam` is not inside `exit`.

The argument needs pids to name processes: `nextpid` only grows, so no two processes in the table
share a pid and no pid comes back after `wait` has dropped it.
-/

namespace Xv6.Sched

open List Transition

/-- A process in the two control points that follow a successful look at the slot. -/
def Ctl.acting : Ctl → Prop
  | .pinning | .setting _ => True
  | _ => False

namespace Machine

variable {ncpu : Nat} {m : Machine ncpu} {e : Event ncpu}

/-! ## Pids -/

/-- A pid names at most one process, and a pid not yet given out names none. -/
structure PidsUnique (m : Machine ncpu) : Prop where
  nextpid_pos : 0 < m.nextpid
  range : ∀ i, (m.proc i).state ≠ .unused → 0 < (m.proc i).pid ∧ (m.proc i).pid < m.nextpid
  inj : ∀ i j, (m.proc i).state ≠ .unused → (m.proc j).state ≠ .unused →
    (m.proc i).pid = (m.proc j).pid → i = j

variable {j i : Slot}

/-- Nothing but allocation and reaping writes a pid. -/
theorem SlotStep.pid {p : Proc} (hs : SlotStep m e j p) (hp : p.state ≠ .unused) :
    p.pid = (m.proc j).pid ∨ freeSlot m.proc = some j := by
  cases hs with
  | stirred _ hs => exact .inl (hs.frame Proc.pid fun _ _ _ _ _ _ => rfl)
  | passed => exact .inl (scheduler_proc_frame Proc.pid fun _ _ _ _ _ _ _ _ => rfl)
  | counted => exact .inl (Proc.telemetry_frame Proc.pid fun _ _ _ _ _ _ _ => rfl)
  | allocated hfree => exact .inr hfree
  | exited _ _ hs => exact .inl (hs.frame Proc.pid fun _ _ _ _ _ _ => rfl)
  | reaped => exact absurd rfl hp
  | yielded | aborted | made | resized | slept | waited | pinned | faulted => exact .inl rfl

/-- A process in use after a step was just allocated, with a fresh pid, or was in use before,
with the same pid. -/
theorem WF.pid_slot (h : m.WF) {p : Proc} (hs : SlotStep m e j p) (hp : p.state ≠ .unused) :
    (∃ c i, e = .forkAlloc c i ∧ freeSlot m.proc = some j ∧ p.pid = m.nextpid) ∨
    (m.proc j).state ≠ .unused ∧ p.pid = (m.proc j).pid := by
  by_cases hj : (m.proc j).state = .unused
  · obtain ⟨hfree, ⟨c, i, rfl⟩, rfl⟩ := h.used_slot hs hp hj
    exact .inl ⟨c, i, rfl, hfree, by simp [allocproc]⟩
  · rcases hs.pid hp with hpid | hfree
    · exact .inr ⟨hj, hpid⟩
    · exact absurd (freeSlot_unused hfree) hj

theorem boot_pidsUnique : (boot ncpu).PidsUnique := by
  have hused : ∀ i, ((boot ncpu).proc i).state ≠ .unused → i = 0 := by
    intro i
    simp only [boot, bootKernel, allocproc, Kernel.setProc_proc]
    split_ifs with hi <;> simp [Proc.zero, hi]
  refine ⟨by simp [boot, bootKernel, allocproc], fun i hi => ?_, fun i j hi hj _ => ?_⟩
  · cases hused i hi
    simp [boot, bootKernel, allocproc]
  · rw [hused i hi, hused j hj]

theorem PidsUnique.effect (h : m.PidsUnique) (hw : m.WF) (he : m.Enabled e) :
    (m.effect e).PidsUnique := by
  have hnext := effect_nextpid_le m e
  have hslot := fun j hj => hw.pid_slot (p := (m.effect e).proc j) (effect_slot he j) hj
  refine ⟨by have := h.nextpid_pos; omega, fun i hi => ?_, fun i j hi hj hij => ?_⟩
  · rcases hslot i hi with ⟨c, i', rfl, hfree, hpid⟩ | ⟨hold, hpid⟩
    · have := h.nextpid_pos
      rw [hpid, forkAlloc_nextpid hfree]
      omega
    · have := h.range i hold
      rw [hpid]
      omega
  · -- A fresh pid is `nextpid`, which no process in use has.
    rcases hslot i hi with ⟨c, i', rfl, hfree, hpid⟩ | ⟨hold, hpid⟩
    · rcases hslot j hj with ⟨c', j', heq, hfree', -⟩ | ⟨hold', hpid'⟩
      · rw [hfree] at hfree'
        exact Option.some.inj hfree'
      · have := h.range j hold'
        omega
    · rcases hslot j hj with ⟨c', j', rfl, hfree', hpid'⟩ | ⟨hold', hpid'⟩
      · have := h.range i hold
        omega
      · exact h.inj i j hold hold' (by omega)

/-! ## Holding the slot -/

/-- The slot is empty or held by a live process that has not begun to give it back, and a process
that acts on having seen the slot as its own still holds it. -/
structure SlotHeld (m : Machine ncpu) : Prop where
  holder : m.schedp.agentPid ≠ 0 →
    ∃ i, (m.proc i).state.live ∧ m.ctl i ≠ .released ∧ (m.proc i).pid = m.schedp.agentPid
  acting : ∀ i, (m.ctl i).acting → (m.proc i).pid = m.schedp.agentPid

theorem boot_slotHeld : (boot ncpu).SlotHeld where
  holder := by simp [boot, bootKernel, allocproc, pinit]
  acting := by simp [boot, Ctl.acting]

/-- A process in use before and after a step keeps its pid. -/
theorem WF.effect_pid (h : m.WF) (he : m.Enabled e) (hj : (m.proc j).state ≠ .unused)
    (hj' : ((m.effect e).proc j).state ≠ .unused) : ((m.effect e).proc j).pid = (m.proc j).pid := by
  rcases h.pid_slot (effect_slot he j) hj' with ⟨c, i, -, hfree, -⟩ | ⟨-, hpid⟩
  · exact absurd (freeSlot_unused hfree) hj
  · exact hpid

theorem live_ne_unused {st : Procstate} (h : st.live) : st ≠ .unused := by
  rintro rfl
  cases h

/-- A live process that is not just becoming a ZOMBIE stays live under its pid. -/
theorem WF.effect_live_pid (h : m.WF) (he : m.Enabled e) (hj : (m.proc j).state.live)
    (hz : ∀ c, e ≠ .exitZombie c j) : ((m.effect e).proc j).state.live ∧
      ((m.effect e).proc j).pid = (m.proc j).pid := by
  have hlive := h.live_slot (effect_slot he j) hj hz
  exact ⟨hlive, h.effect_pid he (live_ne_unused hj) (live_ne_unused hlive)⟩

theorem registerLock_agentPid {c : Fin ncpu} (h : m.schedp.agentPid = 0) :
    (m.effect (.registerLock c i)).schedp.agentPid = (m.proc i).pid := by
  simp [effect, h, takeAgentSlot]

/-- The holder keeps the slot until it releases it itself. -/
theorem SlotHeld.effect_holder (h : m.SlotHeld) (hw : m.WF) (he : m.Enabled e)
    (ha : (m.effect e).schedp.agentPid ≠ 0) :
    ∃ i, ((m.effect e).proc i).state.live ∧ (m.effect e).ctl i ≠ .released ∧
      ((m.effect e).proc i).pid = (m.effect e).schedp.agentPid := by
  have hagent := effect_agentPid he
  generalize (m.effect e).schedp.agentPid = a at ha hagent
  cases hagent with
  | same hkeep =>
    obtain ⟨i, hlive, hrel, hpid⟩ := h.holder ha
    obtain ⟨hlive', hpid'⟩ := hw.effect_live_pid he hlive
      (by rintro c rfl; exact hrel he.2.2)
    refine ⟨i, hlive', fun hrel' => ?_, hpid'.trans hpid⟩
    rcases released_of_effect he hrel' with ⟨hold, -⟩ | ⟨c, rfl⟩
    · exact hrel hold
    · exact hkeep c i rfl hpid.symm
  | @taken c i hat hzero =>
    obtain ⟨hlive, hpid⟩ := hw.effect_live_pid he
      (by rw [hw.cpu_running c i hat.1]; trivial) (by simp)
    exact ⟨i, hlive, by simp [effect, hzero], hpid⟩
  | released => exact absurd rfl ha

/-- Only the holder's own release empties the slot. -/
theorem PidsUnique.effect_agentPid_eq (h : m.PidsUnique) (hw : m.WF) (he : m.Enabled e)
    (hlive : (m.proc i).state.live) (hpid : (m.proc i).pid = m.schedp.agentPid)
    (hnr : ∀ c, e ≠ .exitRelease c i) : (m.effect e).schedp.agentPid = m.schedp.agentPid := by
  have hagent := effect_agentPid he
  generalize (m.effect e).schedp.agentPid = a at hagent
  cases hagent with
  | same => rfl
  | taken _ hzero =>
    have := h.range i (live_ne_unused hlive)
    omega
  | @released c k hat hown =>
    -- The releasing process has the same pid, so it is the same process.
    have hk : (m.proc k).state ≠ .unused := by simp [hw.cpu_running c k hat.1]
    cases h.inj i k (live_ne_unused hlive) hk (hpid.trans hown)
    exact absurd rfl (hnr c)

/-- A process acting on the slot has the slot: it is in the middle of a call, so it is not the
one process that could empty it. -/
theorem SlotHeld.effect_acting (h : m.SlotHeld) (hw : m.WF) (hp : m.PidsUnique)
    (he : m.Enabled e) (i : Slot) (hi : ((m.effect e).ctl i).acting) :
    ((m.effect e).proc i).pid = (m.effect e).schedp.agentPid := by
  have hctl := effect_ctl he i
  generalize (m.effect e).ctl i = x at hi hctl
  cases hctl with
  | same hne =>
    have hlive : (m.proc i).state.live :=
      hw.ctl_live i (by rintro hx; rw [hx] at hi; cases hi)
    have hpid := h.acting i hi
    rw [(hw.effect_live_pid he hlive (by rintro c rfl; exact hne rfl)).2, hpid]
    exact (hp.effect_agentPid_eq hw he hlive hpid (by rintro c rfl; exact hne rfl)).symm
  | @taken c _ hat hzero =>
    rw [registerLock_agentPid hzero]
    exact (hw.effect_live_pid he (by rw [hw.cpu_running c i hat.1]; trivial) (by simp)).2
  | @accepted c _ updAddr upd hat ht =>
    rw [(hw.effect_live_pid he (by rw [hw.cpu_running c i hat.1]; trivial) (by simp)).2,
      (setschedparamTest_iff.mp ht).1.2,
      effect_frame (·.schedp.agentPid) (fun _ _ => rfl) rfl]
  | _ => cases hi

/-- Everything the slot's safety rests on. -/
structure AgentInv (m : Machine ncpu) : Prop where
  wf : m.WF
  pids : m.PidsUnique
  held : m.SlotHeld

theorem AgentInv.effect (h : m.AgentInv) (he : m.Enabled e) : (m.effect e).AgentInv where
  wf := h.wf.effect he
  pids := h.pids.effect h.wf he
  held := ⟨h.held.effect_holder h.wf he, h.held.effect_acting h.wf h.pids he⟩

theorem Reachable.agentInv (h : m.Reachable) : m.AgentInv :=
  h.induction ⟨boot_wf, boot_pidsUnique, boot_slotHeld⟩ fun _ _ hm he => hm.effect he

/-! ## What follows -/

/-- The slot never names a ZOMBIE: its holder is live, and no other process has the pid. -/
theorem AgentInv.not_zombie (h : m.AgentInv) {k : Slot} (hk : (m.proc k).state = .zombie) :
    (m.proc k).pid ≠ m.schedp.agentPid := by
  intro hpid
  have hused : (m.proc k).state ≠ .unused := by simp [hk]
  have hpos := (h.pids.range k hused).1
  obtain ⟨i, hlive, -, hi⟩ := h.held.holder (by omega)
  cases h.pids.inj i k (live_ne_unused hlive) hused (hi.trans hpid.symm)
  rw [hk] at hlive
  cases hlive

/-- History: the pids `wait` has dropped. -/
def reapedPids (g : List Int) (m : Machine ncpu) : Event ncpu → List Int
  | .reap _ _ j => (m.proc j).pid :: g
  | _ => g

/-- A reaped pid was given out once and names no process any more. -/
def ReapedGone (m : Machine ncpu) (g : List Int) : Prop :=
  ∀ p ∈ g, 0 < p ∧ p < m.nextpid ∧ ∀ k, (m.proc k).state ≠ .unused → (m.proc k).pid ≠ p

theorem ReapedGone.effect {g : List Int} (h : m.ReapedGone g) (hm : m.AgentInv)
    (he : m.Enabled e) : (m.effect e).ReapedGone (reapedPids g m e) := by
  have hnext := effect_nextpid_le m e
  have hold : ∀ p, (0 < p ∧ p < m.nextpid ∧ ∀ k, (m.proc k).state ≠ .unused →
      ((m.effect e).proc k).state ≠ .unused → (m.proc k).pid ≠ p) →
      0 < p ∧ p < (m.effect e).nextpid ∧
        ∀ k, ((m.effect e).proc k).state ≠ .unused → ((m.effect e).proc k).pid ≠ p := by
    rintro p ⟨hpos, hlt, hne⟩
    refine ⟨hpos, by omega, fun k hk => ?_⟩
    rcases hm.wf.pid_slot (effect_slot he k) hk with ⟨-, -, -, -, hpid⟩ | ⟨hk', hpid⟩
    · omega
    · rw [hpid]
      exact hne k hk' hk
  intro p hp
  refine hold p ?_
  by_cases hr : ∃ c i j, e = .reap c i j ∧ p = (m.proc j).pid
  · obtain ⟨c, i, j, rfl, rfl⟩ := hr
    have hz : (m.proc j).state ≠ .unused := by simp [zombieChild_zombie he.2.2]
    refine ⟨(hm.pids.range j hz).1, (hm.pids.range j hz).2, fun k hk hk' hpid => ?_⟩
    cases hm.pids.inj k j hk hz hpid
    simp [effect] at hk'
  · have hp' : p ∈ g := by
      cases e with
      | reap c i j =>
        rcases mem_cons.mp hp with rfl | hp
        · exact absurd ⟨c, i, j, rfl, rfl⟩ hr
        · exact hp
      | _ => exact hp
    obtain ⟨hpos, hlt, hne⟩ := h p hp'
    exact ⟨hpos, hlt, fun k hk _ => hne k hk⟩

/-- The steps of `sys_register_agent`. -/
def registerSteps (c : Fin ncpu) (i : Slot) : List (Event ncpu) :=
  [.registerTest c i, .registerLock c i, .registerPin c i]

/-- `register_agent` returns 0 at its last step only. -/
theorem register_returns_zero {c : Fin ncpu} (hmem : e ∈ registerSteps c i)
    (hret : m.Returns e i 0) : e = .registerPin c i := by
  obtain ⟨-, hctl, hrax⟩ := hret
  simp only [registerSteps, mem_cons, not_mem_nil, or_false] at hmem
  rcases hmem with rfl | rfl | rfl
  · by_cases ha : m.schedp.agentPid = 0 <;> simp [effect, ha] at hctl hrax
  · by_cases ha : m.schedp.agentPid = 0 <;> simp [effect, ha] at hctl hrax
  · rfl

/-- The process with pid `p` holds the slot, or is inside `exit` past its release. -/
def Keeps (m : Machine ncpu) (p : Int) : Prop :=
  m.schedp.agentPid = p ∨ ∃ k, m.ctl k = .released ∧ (m.proc k).pid = p

/-- Only the holder's own `exit` ends that. -/
theorem AgentInv.keeps_effect (h : m.AgentInv) {p : Int} (hp : p ≠ 0) (hk : m.Keeps p)
    (hz : ¬ ∃ c k, e = .exitZombie c k ∧ (m.proc k).pid = p) (he : m.Enabled e) :
    (m.effect e).Keeps p := by
  rcases hk with ha | ⟨k, hrel, hpid⟩
  · have hagent := effect_agentPid he
    generalize hx : (m.effect e).schedp.agentPid = a at hagent
    cases hagent with
    | same => exact .inl (hx.trans ha)
    | taken _ hzero => exact absurd (ha.symm.trans hzero) hp
    | @released c k hat hown =>
      refine .inr ⟨k, by simp [Machine.effect], ?_⟩
      rw [(h.wf.effect_live_pid he (by rw [h.wf.cpu_running c k hat.1]; trivial) (by simp)).2]
      exact hown.symm.trans ha
  · have hne : ∀ c, e ≠ .exitZombie c k := fun c hc => hz ⟨c, k, hc, hpid⟩
    have hlive := h.wf.ctl_live k (by simp [hrel])
    refine .inr ⟨k, ?_, (h.wf.effect_live_pid he hlive hne).2.trans hpid⟩
    have hctl := effect_ctl he k
    generalize (m.effect e).ctl k = x at hctl
    cases hctl with
    | same => exact hrel
    | returned _ _ _ hnr => exact absurd hrel hnr
    | exited => exact absurd rfl (hne _)
    | released => rfl
    | killed hc hk hu =>
      rw [h.wf.user_elsewhere _ k hc (.inr hu)] at hrel
      cases hrel
    | forked hat | tested hat | accepted hat | faulted hat | exitCalled hat | taken hat =>
      rw [hat.2.2] at hrel
      cases hrel

/-- **A handover of the slot goes through the first holder's `exit`.** -/
theorem AgentInv.handover (h : m.AgentInv) {c c' : Fin ncpu} {m' : Machine ncpu}
    {es : List (Event ncpu)} (he : m.Enabled (.registerPin c i))
    (hrun : (m.effect (.registerPin c i)).run es = some m') (he' : m'.Enabled (.registerPin c' j))
    (hne : (m'.proc j).pid ≠ (m.proc i).pid) :
    Occurs step
      (fun s e => ∃ c k, e = .exitZombie c k ∧ (s.proc k).pid = (m.proc i).pid)
      (m.effect (.registerPin c i)) es := by
  have hused : (m.proc i).state ≠ .unused := by simp [h.wf.cpu_running c i he.1.1]
  have hpos := (h.pids.range i hused).1
  have hstep : ∀ (s : Machine ncpu) e s', s.AgentInv → s.step e = some s' → s'.AgentInv := by
    intro s e s' hs hse
    obtain ⟨hen, rfl⟩ := step_eq_some.mp hse
    exact hs.effect hen
  refine occurs_of_broken (J := fun s => s.Keeps (m.proc i).pid) hstep ?_ hrun
    (h.effect he) ?_ ?_
  · intro s e s' hs hk hP hse
    obtain ⟨hen, rfl⟩ := step_eq_some.mp hse
    exact hs.keeps_effect (by omega) hk hP hen
  · refine .inl (Eq.symm ?_)
    rw [effect_frame (·.schedp.agentPid) (fun _ _ => rfl) rfl]
    exact h.held.acting i (by rw [he.1.2.2]; trivial)
  · -- The second call is about to return: it holds the slot, and nobody is inside `exit`.
    have h' := run_invariant hstep hrun (h.effect he)
    have hown := h'.held.acting j (by rw [he'.1.2.2]; trivial)
    rintro (hp | ⟨k, hrel, -⟩)
    · exact hne (hown.trans hp)
    · have hl := h'.wf.released_locked k hrel
      rw [he'.2] at hl
      cases hl

/-! ## The agent slot is safe -/

/-- What the agent slot guarantees in a machine whose run has reaped the pids `reaped`. -/
structure SlotSafe (m : Machine ncpu) (reaped : List Int) : Prop where
  /-- At most one live process holds the slot. -/
  sole : ∀ i j, (m.proc i).state.live → (m.proc j).state.live →
    (m.proc i).pid = m.schedp.agentPid → (m.proc j).pid = m.schedp.agentPid → i = j
  /-- If a `register_agent` call returns 0 here and one of another process returns 0 later, the
  first process has gone through `exit` in between. -/
  handover : ∀ c i e es c' j e' m', e ∈ registerSteps c i → m.Enabled e → m.Returns e i 0 →
    (m.effect e).run es = some m' → e' ∈ registerSteps c' j → m'.Enabled e' →
    m'.Returns e' j 0 → (m'.proc j).pid ≠ (m.proc i).pid →
    Occurs step
      (fun s e => ∃ c k, e = .exitZombie c k ∧ (s.proc k).pid = (m.proc i).pid) (m.effect e) es
  not_zombie : ∀ k, (m.proc k).state = .zombie → (m.proc k).pid ≠ m.schedp.agentPid
  not_reaped : m.schedp.agentPid ∉ reaped
  /-- A write to the tunables is made by the live process that holds the slot. -/
  writer : ∀ c i upd, m.Enabled (.setparamWrite c i upd) →
    (m.proc i).state.live ∧ (m.proc i).pid = m.schedp.agentPid
  /-- And no other step writes them. -/
  only_writer : ∀ e, m.Enabled e → (∀ c i upd, e ≠ .setparamWrite c i upd) →
    (m.effect e).schedp.toSchedUpdate = m.schedp.toSchedUpdate

/-- **The agent slot is exclusive**, in every interleaving of any number of processes: one holder
at a time, handed over through `exit` only, never left to a dead process, and the only licence to
write the tunables. -/
theorem agent_slot_exclusive {es : List (Event ncpu)} (h : (boot ncpu).run es = some m) :
    m.SlotSafe (track step reapedPids (boot ncpu) [] es) := by
  have hinv : m.AgentInv := Reachable.agentInv ⟨es, h⟩
  have hreaped : m.AgentInv ∧
      m.ReapedGone (track step reapedPids (boot ncpu) [] es) := by
    refine run_track (I := fun m g => m.AgentInv ∧ m.ReapedGone g) ?_ h
      allowed_true ⟨Reachable.agentInv ⟨[], rfl⟩, fun _ hp => absurd hp not_mem_nil⟩
    rintro s g e s' ⟨hs, hg⟩ - hse
    obtain ⟨hen, rfl⟩ := step_eq_some.mp hse
    exact ⟨hs.effect hen, hg.effect hs hen⟩
  refine ⟨?_, ?_, fun k => hinv.not_zombie, ?_, ?_, fun e _ => effect_tunables⟩
  · intro i j hi hj hpi hpj
    exact hinv.pids.inj i j (live_ne_unused hi) (live_ne_unused hj) (hpi.trans hpj.symm)
  · intro c i e es c' j e' m' hmem he hret hrun hmem' he' hret' hne
    cases register_returns_zero hmem hret
    cases register_returns_zero hmem' hret'
    exact hinv.handover he hrun he' hne
  · intro hmem
    obtain ⟨hpos, -, hgone⟩ := hreaped.2 _ hmem
    obtain ⟨i, hlive, -, hpid⟩ := hinv.held.holder (by omega)
    exact hgone i (live_ne_unused hlive) hpid
  · intro c i upd he
    refine ⟨?_, hinv.held.acting i (by rw [he.2.2]; trivial)⟩
    rw [hinv.wf.cpu_running c i he.1]
    trivial

/-- A child registers and exits, init reaps it and registers in turn. -/
def handoverSession : List (Event 1) :=
  [.pass 0, .forkAlloc 0 0, .forkDone 0 0 1, .waitSleep 0 0,
    .pass 0, .registerTest 0 1, .registerLock 0 1, .registerPin 0 1,
    .exitCall 0 1, .exitRelease 0 1, .exitZombie 0 1,
    .pass 0, .reap 0 0 1, .registerTest 0 0, .registerLock 0 0, .registerPin 0 0]

theorem handoverSession_slotSafe : ∃ m ∈ (boot 1).run handoverSession, m.schedp.agentPid = 1 ∧
    track step reapedPids (boot 1) [] handoverSession = [2] ∧ m.SlotSafe [2] := by
  have hrun : ∃ m ∈ (boot 1).run handoverSession, m.schedp.agentPid = 1 := by decide +kernel
  have hreaped : track step reapedPids (boot 1) [] handoverSession = [2] := by
    decide +kernel
  obtain ⟨m, hm, hpid⟩ := hrun
  exact ⟨m, hm, hpid, hreaped, hreaped ▸ agent_slot_exclusive hm⟩

end Machine

end Xv6.Sched
