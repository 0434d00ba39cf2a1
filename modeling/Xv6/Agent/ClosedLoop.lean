import Xv6.Agent.Signals
import Xv6.Sched.Atomic

/-!
# The closed loop

The agent reads the kernel's counters and steers the kernel. With atomic traps the counters it
reads are always even (`Sched.Machine.Balanced`), so the workload type it computes from them is 50
in every epoch, and the two rules that act on the workload type never fire.

The policy is carried along a run as a history. It starts anywhere in the run, where the agent is
started, and moves at every `getschedstats` of one chosen process, on what that call returns. What the
process does otherwise, and what everybody else does, is left open, so every run of the agent against
the kernel is among these runs.
-/

namespace Xv6.Agent

open Transition

open Sched Sched.Machine List

variable {ncpu : Nat} {m m' m₀ : Machine ncpu}

/-! ## Totals -/

/-- The sum of `yield_count` over the processes in use. -/
def totalYields (k : Kernel) : Int := ((listed NPROC k.proc).map fun i => (k.proc i).yieldCount).sum

theorem listed_eq_take (n : Nat) (t : Table) : listed n t = (listed NPROC t).take n := by
  rw [listed_all, listed]

/-- No process in use has a negative count. -/
def NonNeg (k : Kernel) : Prop := ∀ j, (k.proc j).state ≠ .unused → 0 ≤ (k.proc j).yieldCount

theorem yieldCount_le_total {k : Kernel} (h : NonNeg k) {j : Slot}
    (hj : (k.proc j).state ≠ .unused) : (k.proc j).yieldCount ≤ totalYields k := by
  refine single_le_sum ?_ _ (mem_map.mpr ⟨j, mem_listed_all hj, rfl⟩)
  intro x hx
  obtain ⟨i, hi, rfl⟩ := mem_map.mp hx
  exact h i (mem_listed hi)

theorem snapshot_counts {k : Kernel} {n : Nat} {st : Schedstat} (h : st ∈ kernGetschedstats n k) :
    ∃ i, (k.proc i).state ≠ .unused ∧ st.yieldCount = (k.proc i).yieldCount ∧
      st.preemptCount = (k.proc i).preemptCount := by
  obtain ⟨a, ha, rfl⟩ := mem_mapIdx.mp h
  exact ⟨_, mem_listed (getElem_mem ha), rfl, rfl⟩

/-- A snapshot's yields do not exceed the total, whatever the size of the buffer. -/
theorem snapshot_sum_le {k : Kernel} (h : NonNeg k) (n : Nat) :
    ((kernGetschedstats n k).map Schedstat.yieldCount).sum ≤ totalYields k := by
  have hmap : (kernGetschedstats n k).map Schedstat.yieldCount =
      ((listed NPROC k.proc).take n).map fun i => (k.proc i).yieldCount := by
    rw [← listed_eq_take]
    refine ext_getElem (by simp [kernGetschedstats]) fun i _ _ => ?_
    simp [kernGetschedstats, Proc.schedstat]
  rw [hmap]
  refine List.Sublist.sum_le_sum ((take_sublist _ _).map _) ?_
  intro x hx
  obtain ⟨i, hi, rfl⟩ := mem_map.mp hx
  exact h i (mem_listed hi)

/-! ## The agent's view

A snapshot is as even as the counters it is taken from. -/

/-- The total is small enough for `compute_workload_type`. -/
def Small (m : Machine ncpu) : Prop := totalYields m.toKernel * 200 < 2147483648

instance : DecidablePred (@Small ncpu) := fun m =>
  inferInstanceAs (Decidable (totalYields m.toKernel * 200 < 2147483648))

/-- Even counters, none of them negative. -/
structure LoopInv (m : Machine ncpu) : Prop extends m.Balanced where
  nonNeg : NonNeg m.toKernel

/-- **Every snapshot is an even mix.** -/
theorem LoopInv.workloadType (h : LoopInv m) (hsmall : Small m) (n : Nat) :
    computeWorkloadType (kernGetschedstats n m.toKernel) = 50 := by
  refine computeWorkloadType_even (fun st hst => ?_) (fun st hst => ?_) ?_
  · obtain ⟨i, hi, hy, hp⟩ := snapshot_counts hst
    rw [hy, hp, h.even i hi]
  · obtain ⟨i, hi, hy, -⟩ := snapshot_counts hst
    rw [hy]
    exact h.nonNeg i hi
  · have := snapshot_sum_le h.nonNeg n
    unfold Small at hsmall
    omega

/-- A block keeps the counters non-negative while the total is small: the only increment is of a
count below the total. -/
theorem LoopInv.atomicStep (h : LoopInv m) (hsmall : Small m) {b : Block ncpu}
    (hs : m.atomicStep b = some m') : LoopInv m' := by
  refine ⟨h.toBalanced.atomicStep hs, fun j hj => ?_⟩
  obtain hcounts | ⟨hused, hcounts | hcounts⟩ := h.wf.atomicStep_counts hs hj <;>
    rw [(Prod.mk.inj hcounts).1]
  · exact h.nonNeg j hused
  · have hnonneg := h.nonNeg j hused
    have hle := yieldCount_le_total h.nonNeg hused
    unfold Small at hsmall
    rw [i32_eq_self (by omega) (by omega)]
    omega

/-! ## The agent in the loop -/

/-- History: the policy of the agent in some slot, and the bitmasks its epochs returned. -/
structure AgentHist where
  policy : Policy
  fired : List Nat

def AgentHist.start : AgentHist := ⟨Policy.init, []⟩

/-- The agent's loop turns at its `getschedstats`. -/
def AgentHist.update (i : Slot) (g : AgentHist) (m : Machine ncpu) : Block ncpu → AgentHist
  | .one (.getschedstats _ j bufAddr maxproc) _ =>
    if j = i then
      let r := g.policy.observe (sysGetschedstats m.toKernel i bufAddr maxproc)
      ⟨r.1, r.2 :: g.fired⟩
    else g
  | _ => g

/-- The policy is in range, and rules 2 and 3 have never fired. -/
structure AgentHist.Quiet (g : AgentHist) : Prop where
  good : g.policy.Good
  silent : ∀ f ∈ g.fired, f.testBit 1 = false ∧ f.testBit 2 = false

/-- One epoch on a snapshot of an even kernel. -/
theorem LoopInv.observe (h : LoopInv m) (hsmall : Small m) {p : Policy} (hp : p.Good) (i : Slot)
    (bufAddr : Nat) (maxproc : Int) :
    let r := p.observe (sysGetschedstats m.toKernel i bufAddr maxproc)
    r.1.Good ∧ r.2.testBit 1 = false ∧ r.2.testBit 2 = false ∧ r.1.curQ0 ≤ p.curQ0 := by
  have hnone : p.Good ∧ Nat.testBit 0 1 = false ∧ Nat.testBit 0 2 = false ∧ p.curQ0 ≤ p.curQ0 :=
    ⟨hp, Nat.zero_testBit 1, Nat.zero_testBit 2, le_rfl⟩
  unfold sysGetschedstats
  split_ifs
  · exact hnone
  · exact hnone
  · have hwt := h.workloadType hsmall maxproc.toNat
    generalize kernGetschedstats maxproc.toNat m.toKernel = stats at hwt
    cases stats with
    | nil => exact hnone
    | cons st stats =>
      have hsig : (signals (st :: stats)).workloadType = 50 := hwt
      obtain ⟨h1, h2, hq0⟩ := decideAndUpdate_mixed hp.toInRange
        (s := signals (st :: stats)) (by omega) (by omega)
      exact ⟨(hp.next _).good, h1, h2, hq0⟩

theorem AgentHist.Quiet.update {g : AgentHist} (hg : g.Quiet) (h : LoopInv m) (hsmall : Small m)
    (i : Slot) (b : Block ncpu) : (g.update i m b).Quiet ∧
      (g.update i m b).policy.curQ0 ≤ g.policy.curQ0 := by
  have hsame : g.Quiet ∧ g.policy.curQ0 ≤ g.policy.curQ0 := ⟨hg, le_rfl⟩
  cases b with
  | trap => exact hsame
  | one e ht =>
    cases e with
    | getschedstats c j bufAddr maxproc =>
      simp only [AgentHist.update]
      split
      · obtain ⟨hgood, h1, h2, hq0⟩ := h.observe hsmall hg.good i bufAddr maxproc
        refine ⟨⟨hgood, fun f hf => ?_⟩, hq0⟩
        rcases mem_cons.mp hf with rfl | hf
        · exact ⟨h1, h2⟩
        · exact hg.silent f hf
      · exact hsame
    | _ => exact hsame

theorem boot_loopInv : LoopInv (boot ncpu) := by
  refine ⟨boot_balanced, fun j _ => ?_⟩
  simp only [boot, bootKernel, allocproc, Kernel.setProc_proc]
  split_ifs <;> simp [Proc.zero]

theorem run_loop {bs : List (Block ncpu)} (h₀ : LoopInv m₀) (h : run atomicStep m₀ bs = some m)
    (hsmall : Along atomicStep Small m₀ bs) (i : Slot) :
    LoopInv m ∧ (track atomicStep (AgentHist.update i) m₀ .start bs).Quiet := by
  refine run_track (I := fun m g => LoopInv m ∧ AgentHist.Quiet g) ?_ h hsmall.allowed
    ⟨h₀, Policy.init_good, by simp [AgentHist.start]⟩
  rintro s g b s' ⟨hs, hg⟩ hsm hse
  exact ⟨hs.atomicStep hsm hse, (hg.update hs hsm i b).1⟩

/-- **The closed loop never sees a workload.** With atomic traps every process in use has yielded
as often as it was preempted. So, while the total number of yields is small enough not to
overflow, every snapshot classifies as 50, the rules 2 and 3 of an agent that was started at any time
never fire, and its `cur_q0` never goes up. -/
theorem closed_loop_even_workload {bs₀ bs : List (Block ncpu)}
    (h₀ : run atomicStep (boot ncpu) bs₀ = some m₀) (h : run atomicStep m₀ bs = some m) :
    (∀ j, (m.proc j).state ≠ .unused → (m.proc j).yieldCount = (m.proc j).preemptCount) ∧
    (Along atomicStep Small (boot ncpu) bs₀ → Along atomicStep Small m₀ bs →
      (∀ n, computeWorkloadType (kernGetschedstats n m.toKernel) = 50) ∧
      ∀ i, let g := track atomicStep (AgentHist.update i) m₀ .start bs
        (∀ f ∈ g.fired, f.testBit 1 = false ∧ f.testBit 2 = false) ∧
        ∀ b, (g.update i m b).policy.curQ0 ≤ g.policy.curQ0) := by
  have hkeeps : ∀ (s : Machine ncpu) b s', s.Balanced → s.atomicStep b = some s' → s'.Balanced :=
    fun _ _ _ hs hse => hs.atomicStep hse
  refine ⟨(run_invariant hkeeps h (run_invariant hkeeps h₀ boot_balanced)).even,
    fun hsmall₀ hsmall => ?_⟩
  have hinv₀ := (run_loop boot_loopInv h₀ hsmall₀ 0).1
  refine ⟨fun n => (run_loop hinv₀ h hsmall 0).1.workloadType (hsmall.last h) n, fun i => ?_⟩
  obtain ⟨hinv, hquiet⟩ := run_loop hinv₀ h hsmall i
  exact ⟨hquiet.silent, fun b => (hquiet.update hinv (hsmall.last h) i b).2⟩

/-- Init takes a snapshot, starts as the agent, uses up a quantum, is dispatched again and takes
another one. -/
def snapshotSession : List (Block 1) :=
  [.trap 0 true, .trap 0 true, .trap 0 true, .trap 0 true,
    .one (.pass 0) rfl, .one (.getschedstats 0 0 4096 64) rfl]

theorem snapshotSession_even :
    ∃ m₀ ∈ run atomicStep (boot 1) [.one (.pass 0) rfl, .one (.getschedstats 0 0 4096 64) rfl],
    ∃ m ∈ run atomicStep m₀ snapshotSession, (m.proc 0).yieldCount = 1 ∧
      computeWorkloadType (kernGetschedstats 64 m.toKernel) = 50 := by
  have hrun : ∃ m₀ ∈ run atomicStep (boot 1)
        [.one (.pass 0) rfl, .one (.getschedstats 0 0 4096 64) rfl],
      Along atomicStep Small m₀ snapshotSession ∧
      ∃ m ∈ run atomicStep m₀ snapshotSession, (m.proc 0).yieldCount = 1 := by decide +kernel
  obtain ⟨m₀, hm₀, hsmall, m, hm, hy⟩ := hrun
  exact ⟨m₀, hm₀, m, hm, hy,
    ((closed_loop_even_workload hm₀ hm).2 (by decide +kernel) hsmall).1 64⟩

end Xv6.Agent
