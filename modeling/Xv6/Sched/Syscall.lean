import Xv6.Sched.Proc

/-!
# The agent's system calls

`sys_register_agent`, `sys_setschedparam` and `sys_getschedstats` (`sysproc.c`), with the two
kernel helpers in `proc.c`. Each of the first two is cut where it takes or drops a lock, since
other processes run in between; the machine takes the pieces one at a time.
-/

namespace Xv6.Sched

open List

/-- `PGSIZE`. -/
def PGSIZE : Nat := 4096

/-- 64-bit address arithmetic. -/
def addr64 (a : Nat) : Nat := a % 18446744073709551616

/-! ## `sys_setschedparam` -/

/-- `sizeof(struct sched_update)`: eight `int`s. -/
def sizeofSchedUpdate : Nat := 32

/-- The ownership test, read without the lock, and the address check: `true` when the call goes on to
read the fields of `*upd`. -/
def setschedparamReads (k : Kernel) (i : Slot) (updAddr : Nat) : Bool :=
  !(k.schedp.agentPid = 0 || (k.proc i).pid != k.schedp.agentPid)
  && !(updAddr < PGSIZE || addr64 (updAddr + sizeofSchedUpdate) > (k.proc i).sz)

/-- Everything before `acquire(&schedp.lock)`, the ten field tests included. `true` when the call
goes on to write. -/
def setschedparamTest (k : Kernel) (i : Slot) (updAddr : Nat) (upd : SchedUpdate) : Bool :=
  setschedparamReads k i updAddr && !upd.rejected

/-- The section under `schedp.lock`. -/
def setschedparamWrite (upd : SchedUpdate) (k : Kernel) : Kernel :=
  { k with schedp := { k.schedp with toSchedUpdate := upd, schedAlert := 0 } }

/-- The whole call, when nothing runs in between: the kernel after it and the value returned. -/
def sysSetschedparam (k : Kernel) (i : Slot) (updAddr : Nat) (upd : SchedUpdate) : Kernel × Int :=
  if setschedparamTest k i updAddr upd then (setschedparamWrite upd k, 0) else (k, -1)

theorem setschedparamReads_iff {k : Kernel} {i : Slot} {updAddr : Nat} :
    setschedparamReads k i updAddr = true ↔
      (k.schedp.agentPid ≠ 0 ∧ (k.proc i).pid = k.schedp.agentPid) ∧
      PGSIZE ≤ updAddr ∧ addr64 (updAddr + sizeofSchedUpdate) ≤ (k.proc i).sz := by
  simp [setschedparamReads]

theorem setschedparamTest_iff {k : Kernel} {i : Slot} {updAddr : Nat} {upd : SchedUpdate} :
    setschedparamTest k i updAddr upd = true ↔
      (k.schedp.agentPid ≠ 0 ∧ (k.proc i).pid = k.schedp.agentPid) ∧
      (PGSIZE ≤ updAddr ∧ addr64 (updAddr + sizeofSchedUpdate) ≤ (k.proc i).sz) ∧
      upd.Accepted := by
  simp [setschedparamTest, setschedparamReads_iff, ← SchedUpdate.rejected_eq_false_iff, and_assoc]

/-! ## `sys_register_agent` -/

/-- `schedp.agent_pid = proc->pid`, under `schedp.lock`. -/
def takeAgentSlot (i : Slot) (k : Kernel) : Kernel :=
  { k with schedp := { k.schedp with agentPid := (k.proc i).pid } }

/-- `kern_pin_agent`. The quantum is read from `schedp` without its lock. -/
def kernPinAgent (i : Slot) (k : Kernel) : Kernel :=
  k.setProc i { k.proc i with queueLevel := 0, ticksRemaining := k.schedp.q0Quantum }

/-- The agent slot's release in `exit`, under `schedp.lock`. -/
def releaseAgentSlot (i : Slot) (k : Kernel) : Kernel :=
  if k.schedp.agentPid = (k.proc i).pid then
    { k with schedp := { k.schedp with agentPid := 0 } }
  else k

/-! ## `sys_getschedstats` -/

/-- `struct schedstat`. -/
structure Schedstat where
  pid : Int
  state : Int
  queueLevel : Int
  burstEmaFast : Int
  burstEmaSlow : Int
  waitTicks : Int
  yieldCount : Int
  preemptCount : Int
  burstVariance : Int
  pageFaultCount : Int
  effectiveScore : Int
  schedAlert : Int
  firstRunTick : Int
  createTick : Int
  deriving DecidableEq, Repr

/-- One entry of the telemetry buffer; the alert rides on entry 0. -/
def Proc.schedstat (alert : Int) (p : Proc) : Schedstat where
  pid := p.pid
  state := p.state.code
  queueLevel := p.queueLevel
  burstEmaFast := p.burstEmaFast
  burstEmaSlow := p.burstEmaSlow
  waitTicks := p.waitTicks
  yieldCount := p.yieldCount
  preemptCount := p.preemptCount
  burstVariance := p.burstVariance
  pageFaultCount := p.pageFaultCount
  effectiveScore := p.effectiveScore
  schedAlert := alert
  firstRunTick := p.firstRunTick
  createTick := p.createTick

/-- The slots `kern_getschedstats` lists. -/
@[irreducible] def listed (maxproc : Nat) (t : Table) : List Slot :=
  ((List.finRange NPROC).filter (fun i => (t i).state ≠ .unused)).take maxproc

/-- `kern_getschedstats`: the entries written to `buf`. -/
def kernGetschedstats (maxproc : Nat) (k : Kernel) : List Schedstat :=
  (listed maxproc k.proc).mapIdx fun n i =>
    (k.proc i).schedstat (if n = 0 then k.schedp.schedAlert else 0)

/-- `sizeof(struct schedstat)`: fourteen `int`s. -/
def sizeofSchedstat : Nat := 56

/-- `sys_getschedstats`; `none` is the return value `-1`. -/
def sysGetschedstats (k : Kernel) (i : Slot) (bufAddr : Nat) (maxproc : Int) :
    Option (List Schedstat) :=
  if maxproc ≤ 0 ∨ maxproc > NPROC then none
  else if bufAddr < PGSIZE ∨ bufAddr ≥ (k.proc i).sz ∨
      addr64 (bufAddr + maxproc.toNat * sizeofSchedstat) > (k.proc i).sz then none
  else some (kernGetschedstats maxproc.toNat k)

theorem mem_listed {maxproc : Nat} {t : Table} {i : Slot} (h : i ∈ listed maxproc t) :
    (t i).state ≠ .unused := by
  rw [listed] at h
  have := mem_filter.mp (mem_of_mem_take h)
  simpa using this.2

/-- A buffer of `NPROC` entries has room for every process. -/
theorem listed_all (t : Table) :
    listed NPROC t = (List.finRange NPROC).filter fun i => (t i).state ≠ .unused := by
  rw [listed, take_of_length_le]
  simpa using length_filter_le (fun i => decide ((t i).state ≠ .unused)) (List.finRange NPROC)

theorem mem_listed_all {t : Table} {i : Slot} (h : (t i).state ≠ .unused) : i ∈ listed NPROC t := by
  rw [listed_all]
  simpa using h

end Xv6.Sched
