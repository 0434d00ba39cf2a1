import Mathlib.Data.Fintype.Basic
import Xv6.Common.Transition
import Xv6.Sched.Scheduler
import Xv6.Sched.Trap
import Xv6.Sched.Syscall

/-!
# The machine

Any number of CPUs over one kernel. A step is a maximal stretch of kernel code that no other CPU
can observe half done: a section under `ptable.lock` or `schedp.lock`, or an unlocked read followed
by the branch on it. A system call that takes a lock in the middle is several steps, and every
other CPU may move in between; `Ctl` says where inside such a call a process is.

An event names the CPU, and for a step of a process the process too. It is `Enabled` when the
source would let that step happen there, and `effect` is what the step does.

Three things are left out on purpose. User code and the kernel paths that touch none of this state
are the control point `elsewhere`. A default-action signal ends in `exit()` and is an `exitCall`
like any other: `exitCall` is allowed wherever user code could be. A pass and a telemetry update
are one step each: what another CPU does to `ticks` or to a `ticks_remaining` without taking
`ptable.lock` comes before or after them, never in the middle.
-/

namespace Xv6.Sched

open Function (update)

/-- Where a process is in the system calls that are cut into several steps. -/
inductive Ctl where
  /-- User code, or kernel code outside the sections below. -/
  | elsewhere
  /-- In `fork`: `allocproc` returned `np`. -/
  | forking (np : Slot)
  /-- In `sys_register_agent`: the unlocked test passed. -/
  | registering
  /-- In `sys_register_agent`: the slot is taken, `kern_pin_agent` comes next. -/
  | pinning
  /-- In `sys_setschedparam`: every test passed, the locked write of `upd` comes next. -/
  | setting (upd : SchedUpdate)
  /-- In `exit`, before it takes `ptable.lock`. -/
  | exiting
  /-- In `exit`, `ptable.lock` held, the agent slot released. -/
  | released
  deriving DecidableEq

/-- Where a CPU is in a timer trap, and whether the trap interrupted user mode. -/
inductive Intr where
  /-- The clock part is done. -/
  | entered (user : Bool)
  /-- The telemetry update is done, the preemption test comes next. -/
  | counted (user : Bool)
  deriving DecidableEq

/-- The kernel, the CPUs and the control points. -/
structure Machine (ncpu : Nat) extends Kernel where
  /-- Each CPU's `proc`. -/
  cpu : Fin ncpu → Option Slot
  /-- The timer trap a CPU is inside of, if any. -/
  intr : Fin ncpu → Option Intr
  ctl : Slot → Ctl
  /-- `ptable.lock` is held across steps. -/
  ptableLocked : Bool
  /-- `proc->tf->rax`: what the last system call returned. -/
  rax : Slot → Int

/-- The steps. `c` is the CPU, `i` the process running on it. -/
inductive Event (ncpu : Nat) where
  | pass (c : Fin ncpu)
  | irq (c : Fin ncpu) (user : Bool)
  | telemetry (c : Fin ncpu) (user : Bool)
  | trapEnd (c : Fin ncpu)
  | forkAlloc (c : Fin ncpu) (i : Slot)
  | forkFail (c : Fin ncpu) (i np : Slot)
  | forkDone (c : Fin ncpu) (i np : Slot)
  | exec (c : Fin ncpu) (i : Slot) (sz : Nat)
  | sleep (c : Fin ncpu) (i : Slot) (chan : Chan)
  | wakeup (chan : Chan)
  | kill (pid signum : Int)
  | alarm (c : Fin ncpu) (i : Slot) (secs : Int)
  | registerTest (c : Fin ncpu) (i : Slot)
  | registerLock (c : Fin ncpu) (i : Slot)
  | registerPin (c : Fin ncpu) (i : Slot)
  | setparamTest (c : Fin ncpu) (i : Slot) (updAddr : Nat) (upd : SchedUpdate)
  | setparamWrite (c : Fin ncpu) (i : Slot) (upd : SchedUpdate)
  | getschedstats (c : Fin ncpu) (i : Slot) (bufAddr : Nat) (maxproc : Int)
  | fault (c : Fin ncpu) (i : Slot) (pageFault : Bool)
  | exitCall (c : Fin ncpu) (i : Slot)
  | exitRelease (c : Fin ncpu) (i : Slot)
  | exitZombie (c : Fin ncpu) (i : Slot)
  | reap (c : Fin ncpu) (i j : Slot)
  | waitSleep (c : Fin ncpu) (i : Slot)

namespace Machine

variable {ncpu : Nat}

/-! ## Booting -/

/-- The kernel `main()` leaves behind: `pinit()`, then `userinit()`. -/
def bootKernel : Kernel :=
  let k : Kernel := allocproc 0
    { proc := fun _ => Proc.zero, schedp := pinit, nextpid := 1, ticks := 0, initproc := 0,
      lastBoostTick := 0, rrNext := 0 }
  k.setProc 0 { k.proc 0 with sz := 2 * PGSIZE, state := .runnable }

/-- Every CPU in its scheduler loop, one process in the table. -/
def boot (ncpu : Nat) : Machine ncpu where
  toKernel := bootKernel
  cpu := fun _ => none
  intr := fun _ => none
  ctl := fun _ => .elsewhere
  ptableLocked := false
  rax := fun _ => 0

/-- A uniprocessor has a CPU `0`. -/
instance uniprocessor : NeZero 1 := ⟨Nat.one_ne_zero⟩

/-- The same with the tunables `upd` in place of those of `pinit`. -/
def bootWith (upd : SchedUpdate) (ncpu : Nat) : Machine ncpu :=
  { boot ncpu with schedp := { pinit with toSchedUpdate := upd } }

/-! ## When a step can happen -/

/-- Process `i` is running on CPU `c`, outside a trap, at control point `ctl`. -/
def At (m : Machine ncpu) (c : Fin ncpu) (i : Slot) (ctl : Ctl) : Prop :=
  m.cpu c = some i ∧ m.intr c = none ∧ m.ctl i = ctl

instance (m : Machine ncpu) (c : Fin ncpu) (i : Slot) (ctl : Ctl) : Decidable (m.At c i ctl) :=
  inferInstanceAs (Decidable (_ ∧ _ ∧ _))

/-- The lowest ZOMBIE child of `i`, which is the one the scan of `wait` stops at. -/
@[irreducible] def zombieChild (t : Table) (i : Slot) : Option Slot :=
  (List.finRange NPROC).find? (fun j => (t j).parent = some i ∧ (t j).state = .zombie)

/-- The `yield()` at the bottom of `trap()` is reached. -/
def yields (m : Machine ncpu) (c : Fin ncpu) (i : Slot) : Bool :=
  !((m.proc i).killed && m.intr c == some (.counted true)) &&
    ((m.proc i).state = .running ∧ (m.proc i).ticksRemaining ≤ 0)

/-- A timer interrupt can be taken: not while the CPU holds a spinlock, and in user mode only
when the process is in user code. -/
def Interruptible (m : Machine ncpu) (c : Fin ncpu) (user : Bool) : Prop :=
  match m.cpu c with
  | some i => m.ctl i ≠ .released ∧ (user = true → m.ctl i = .elsewhere)
  | none => user = false

instance (m : Machine ncpu) (c : Fin ncpu) (user : Bool) : Decidable (m.Interruptible c user) := by
  unfold Interruptible
  split <;> infer_instance

/-- The source lets this step happen here. -/
def Enabled (m : Machine ncpu) : Event ncpu → Prop
  | .pass c => m.cpu c = none ∧ m.intr c = none ∧ m.ptableLocked = false
  | .irq c user =>
    m.intr c = none ∧ (c.val = 0 → m.ptableLocked = false) ∧ m.Interruptible c user
  | .telemetry c user => m.intr c = some (.entered user)
  | .trapEnd c =>
    (m.intr c = some (.counted true) ∨ m.intr c = some (.counted false)) ∧
      ∀ i, m.cpu c = some i → m.yields c i → m.ptableLocked = false
  | .forkAlloc c i => m.At c i .elsewhere ∧ m.ptableLocked = false
  | .forkFail c i np => m.At c i (.forking np)
  | .forkDone c i np => m.At c i (.forking np)
  | .exec c i _ => m.At c i .elsewhere
  | .sleep c i _ => (m.At c i .elsewhere ∨ m.At c i .exiting) ∧ m.ptableLocked = false
  | .wakeup _ => m.ptableLocked = false
  | .kill _ _ => m.ptableLocked = false
  | .alarm c i _ => m.At c i .elsewhere
  | .registerTest c i => m.At c i .elsewhere
  | .registerLock c i => m.At c i .registering
  | .registerPin c i => m.At c i .pinning ∧ m.ptableLocked = false
  | .setparamTest c i _ _ => m.At c i .elsewhere
  | .setparamWrite c i upd => m.At c i (.setting upd)
  | .getschedstats c i _ _ => m.At c i .elsewhere ∧ m.ptableLocked = false
  | .fault c i _ => m.At c i .elsewhere ∧ i ≠ m.initproc
  | .exitCall c i => m.At c i .elsewhere ∧ i ≠ m.initproc
  | .exitRelease c i => m.At c i .exiting ∧ m.ptableLocked = false
  | .exitZombie c i => m.At c i .released
  | .reap c i j => m.At c i .elsewhere ∧ m.ptableLocked = false ∧ zombieChild m.proc i = some j
  | .waitSleep c i =>
    m.At c i .elsewhere ∧ m.ptableLocked = false ∧ zombieChild m.proc i = none ∧
      (∃ j, (m.proc j).parent = some i) ∧ (m.proc i).killed = false

instance (m : Machine ncpu) : DecidablePred m.Enabled := fun e => by
  cases e <;> unfold Enabled <;> infer_instance

/-! ## What a step does -/

/-- A step that writes kernel data only. -/
@[simp] def onKernel (m : Machine ncpu) (f : Kernel → Kernel) : Machine ncpu :=
  { m with toKernel := f m.toKernel }

/-- Store one process. -/
@[simp] def setProc (m : Machine ncpu) (i : Slot) (p : Proc) : Machine ncpu :=
  m.onKernel (Kernel.setProc · i p)

/-- Return CPU `c` to its scheduler loop. -/
@[simp] def leave (m : Machine ncpu) (c : Fin ncpu) : Machine ncpu :=
  { m with cpu := update m.cpu c none }

/-- `sleep` and `sched`: the current process of `c` waits on `chan`. Its `chan` is cleared when it
next runs; nothing reads the field of a process that is not SLEEPING. -/
@[simp] def sleepOn (m : Machine ncpu) (c : Fin ncpu) (i : Slot) (chan : Chan) : Machine ncpu :=
  (m.setProc i { m.proc i with chan := chan, state := .sleeping }).leave c

/-- Move process `i` to another control point. -/
@[simp] def goto (m : Machine ncpu) (i : Slot) (ctl : Ctl) : Machine ncpu :=
  { m with ctl := update m.ctl i ctl }

/-- Return `v` from the system call process `i` is in. -/
@[simp] def ret (m : Machine ncpu) (i : Slot) (v : Int) : Machine ncpu :=
  { m with ctl := update m.ctl i .elsewhere, rax := update m.rax i v }

/-- Return CPU `c` from its trap. -/
@[simp] def iret (m : Machine ncpu) (c : Fin ncpu) : Machine ncpu :=
  { m with intr := update m.intr c none }

/-- The timer interrupt, up to the end of its clock part, which only CPU 0 runs. -/
def irq (m : Machine ncpu) (c : Fin ncpu) (user : Bool) : Machine ncpu :=
  { m.onKernel (fun k => if c.val = 0 then clock k else k) with
    intr := update m.intr c (some (.entered user)) }

/-- The telemetry update, of the process on CPU `c` if there is one. -/
def telemetry (m : Machine ncpu) (c : Fin ncpu) (user : Bool) : Machine ncpu :=
  { (match m.cpu c with
      | some i => m.setProc i ((m.proc i).telemetry m.schedp m.ticks)
      | none => m) with
    intr := update m.intr c (some (.counted user)) }

/-- The end of the trap: `exit()` if the process was killed and is in user mode, else `yield()` if
its quantum is used up. -/
def trapEnd (m : Machine ncpu) (c : Fin ncpu) : Machine ncpu :=
  match m.cpu c with
  | some i =>
    if (m.proc i).killed ∧ m.intr c = some (.counted true) then (m.goto i .exiting).iret c
    else if (m.proc i).state = .running ∧ (m.proc i).ticksRemaining ≤ 0 then
      ((m.setProc i (m.proc i).yielded).leave c).iret c
    else m.iret c
  | none => m.iret c

/-- `exit` passes the children of process `i` to init. -/
def adopt (i : Slot) (k : Kernel) : Kernel :=
  { k with
    proc := fun j =>
      if (k.proc j).parent = some i then { k.proc j with parent := some k.initproc }
      else k.proc j }

/-- The section of `exit` after the agent slot's release: wake the parent, pass the children to
init (waking it if one of them is a ZOMBIE), become a ZOMBIE. -/
def zombify (i : Slot) (k : Kernel) : Kernel :=
  let k₁ := wakeup1 (((k.proc i).parent.map Chan.proc).getD .null) k
  let k₂ :=
    if ∃ j, (k₁.proc j).parent = some i ∧ (k₁.proc j).state = .zombie then
      wakeup1 (.proc k₁.initproc) (adopt i k₁)
    else adopt i k₁
  k₂.setProc i { k₂.proc i with state := .zombie }

/-- What the step does. -/
def effect (m : Machine ncpu) : Event ncpu → Machine ncpu
  | .pass c => { m.onKernel (fun k => (scheduler k).1) with
      cpu := update m.cpu c (scheduler m.toKernel).2 }
  | .irq c user => m.irq c user
  | .telemetry c user => m.telemetry c user
  | .trapEnd c => m.trapEnd c
  | .forkAlloc _ i =>
    match freeSlot m.proc with
    | some np => (m.onKernel (allocproc np)).goto i (.forking np)
    | none => m.ret i (-1)
  | .forkFail _ i np => (m.setProc np { m.proc np with state := .unused }).ret i (-1)
  | .forkDone _ i np =>
    (m.setProc np { m.proc np with
      sz := (m.proc i).sz, parent := some i, state := .runnable }).ret i (m.proc np).pid
  | .exec _ i sz => m.setProc i { m.proc i with sz := sz }
  | .sleep c i chan => m.sleepOn c i chan
  | .wakeup chan => m.onKernel (wakeup1 chan)
  | .kill pid signum => m.onKernel (kill pid signum)
  | .alarm _ i secs => m.setProc i { m.proc i with
      alarmTicks := i32 (secs * 100), alarmCountdown := i32 (i32 (secs + 1) * 100) }
  | .registerTest _ i => if m.schedp.agentPid ≠ 0 then m.ret i (-1) else m.goto i .registering
  | .registerLock _ i =>
    if m.schedp.agentPid ≠ 0 then m.ret i (-1)
    else (m.onKernel (takeAgentSlot i)).goto i .pinning
  | .registerPin _ i => (m.onKernel (kernPinAgent i)).ret i 0
  | .setparamTest _ i updAddr upd =>
    if setschedparamTest m.toKernel i updAddr upd then m.goto i (.setting upd) else m.ret i (-1)
  | .setparamWrite _ i upd => (m.onKernel (setschedparamWrite upd)).ret i 0
  | .getschedstats _ i bufAddr maxproc =>
    m.ret i
      (((sysGetschedstats m.toKernel i bufAddr maxproc).map fun l => (l.length : Int)).getD (-1))
  | .fault _ i pageFault =>
    (m.setProc i { m.proc i with
      pageFaultCount :=
        if pageFault then i32 ((m.proc i).pageFaultCount + 1) else (m.proc i).pageFaultCount
      killed := true }).goto i .exiting
  | .exitCall _ i => m.goto i .exiting
  | .exitRelease _ i =>
    { m.onKernel (releaseAgentSlot i) with ptableLocked := true }.goto i .released
  | .exitZombie c i =>
    ({ m.onKernel (zombify i) with ptableLocked := false }.leave c).goto i .elsewhere
  | .reap _ i j =>
    (m.setProc j { m.proc j with
      pid := 0, parent := none, killed := false, state := .unused }).ret i (m.proc j).pid
  | .waitSleep c i => m.sleepOn c i (.proc i)

/-- A whole timer trap that finds the only CPU in user mode. -/
def userTick : List (Event 1) := [.irq 0 true, .telemetry 0 true, .trapEnd 0]

/-- One step of the machine. -/
def step (m : Machine ncpu) (e : Event ncpu) : Option (Machine ncpu) :=
  if m.Enabled e then some (m.effect e) else none

theorem step_eq_some {m m' : Machine ncpu} {e : Event ncpu} :
    m.step e = some m' ↔ m.Enabled e ∧ m' = m.effect e := by
  unfold step
  split
  · next h => simp [h, eq_comm]
  · next h => simp [h]

theorem step_of_enabled {m : Machine ncpu} {e : Event ncpu} (he : m.Enabled e) :
    m.step e = some (m.effect e) :=
  step_eq_some.mpr ⟨he, rfl⟩

/-- Perform a list of events from `m`. -/
abbrev run (m : Machine ncpu) (es : List (Event ncpu)) : Option (Machine ncpu) :=
  Transition.run step m es

/-- What the machine can reach from boot. -/
def Reachable (m : Machine ncpu) : Prop := ∃ es, (boot ncpu).run es = some m

/-- **Every invariant of the machine is proved this way**: it holds at boot, and every enabled
step keeps it. -/
theorem Reachable.induction {I : Machine ncpu → Prop} (h0 : I (boot ncpu))
    (hstep : ∀ m e, I m → m.Enabled e → I (m.effect e)) {m : Machine ncpu} (h : m.Reachable) :
    I m := by
  obtain ⟨es, h⟩ := h
  refine Transition.run_invariant ?_ h h0
  intro s e s' hs hstep'
  obtain ⟨hen, rfl⟩ := step_eq_some.mp hstep'
  exact hstep s e hs hen

end Machine

end Xv6.Sched
