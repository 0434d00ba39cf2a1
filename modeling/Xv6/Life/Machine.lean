import Xv6.Sched.Step

/-!
# The machine with the context switch taken apart

`Machine` in `Xv6.Sched` puts a process on a CPU, and takes it off again, in one step. Here every
step in between is visible. `ptable.lock` has an owner; `scheduler()` stores `proc`, then
`best->state`, then calls `swtch`; a process that gives the CPU up stores its own state, then calls
`swtch`, and the scheduler thread it lands in still has to clear `proc` and drop the lock. The lock
is taken by one thread and dropped by another, and between any two steps every other CPU may move.

A CPU runs either its scheduler thread or the kernel thread of a process (`Loc`). A process thread
has a `Point`, where it is in the code that runs without `ptable.lock`, and a `Stage`, how far it
is in a section under the lock. On top of either kind of thread, interrupt handlers and system
calls run short sections (`wakeup`, `kill`, `check_alarms`) that take the lock and drop it again.

`saved` says that `p->context` is the place `p` has to be resumed at: `allocproc` builds the first
context, `swtch` stores the later ones, and a process that is running has outrun its context.

User code, and kernel code that touches none of this, is the point `user`. Two stores are made
without the lock, both to a child nobody else can reach yet: `fork` storing its child's `parent`,
and `fork` storing its child's `state`.
-/

namespace Xv6.Life

open Sched
open Function (update)

/-- The functions in which a process gives up the CPU or returns with `ptable.lock` dropped. -/
inductive Call where
  | yield
  | sleep (chan : Chan)
  | wait
  | fork
  | exit
  deriving DecidableEq

/-- How far a process's thread is in a section under `ptable.lock`. -/
inductive Stage where
  /-- There is no thread to resume. -/
  | dead
  /-- The thread does not hold `ptable.lock`. -/
  | out
  /-- At `forkret`, where `allocproc` points a new context. -/
  | forkret
  /-- `call` has acquired `ptable.lock`. -/
  | held (call : Call)
  /-- `call` has stored the process's new state, `sched()` comes next. -/
  | set (call : Call)
  /-- `sched()` has called `swtch`; `call` goes on from here when the process runs again. -/
  | back (call : Call)
  deriving DecidableEq

/-- A thread `swtch` can go on with. `exit` does not expect to come back. -/
def Stage.Resumes : Stage → Prop
  | .forkret => True
  | .back call => call ≠ .exit
  | _ => False

instance : DecidablePred Stage.Resumes
  | .forkret => .isTrue trivial
  | .back call => inferInstanceAs (Decidable (call ≠ .exit))
  | .dead | .out | .held _ | .set _ => .isFalse id

/-- Where a process is in code that runs without `ptable.lock`. -/
inductive Point where
  /-- User code, or kernel code outside the functions below. -/
  | user
  /-- In `fork`: `allocproc` has taken the slot `np`. -/
  | forking (np : Slot)
  /-- In `fork`: the kernel stack and the first context of `np` are set up. -/
  | prepared (np : Slot)
  /-- In `fork`: the process state is copied to `np`, the store of RUNNABLE comes next. -/
  | copied (np : Slot)
  /-- In `exit`, before it takes `ptable.lock`. -/
  | exiting
  deriving DecidableEq

/-- The child a process at this point is making. -/
def Point.child : Point → Option Slot
  | .forking np | .prepared np | .copied np => some np
  | _ => none

/-- The point `call` is entered from. A timer interrupt can make a process yield anywhere. -/
def Call.From : Call → Point → Prop
  | .wait, q | .fork, q => q = .user
  | .exit, q => q = .exiting
  | _, _ => True

instance : (call : Call) → (q : Point) → Decidable (call.From q)
  | .wait, q | .fork, q => inferInstanceAs (Decidable (q = .user))
  | .exit, q => inferInstanceAs (Decidable (q = .exiting))
  | .yield, _ | .sleep _, _ => .isTrue trivial

/-- What a CPU is executing. -/
inductive Loc where
  /-- The scheduler loop, `ptable.lock` not held. -/
  | loop
  /-- `scheduler()` has acquired `ptable.lock`. -/
  | held
  /-- `best = b`, its quantum and its tick stamps are stored. -/
  | chosen (b : Slot)
  /-- `proc = best` is stored. -/
  | armed (b : Slot)
  /-- `best->state = RUNNING` is stored, `swtch` comes next. -/
  | ready (b : Slot)
  /-- The thread of process `i`. -/
  | thread (i : Slot)
  /-- The scheduler thread again, back from `swtch`; `proc` is still `b`. -/
  | back (b : Slot)
  /-- `proc = 0`, or nothing was found; the release of `ptable.lock` comes next. -/
  | cleared
  deriving DecidableEq

/-- The process a CPU is busy with. -/
def Loc.mine : Loc → Option Slot
  | .chosen b | .armed b | .ready b | .thread b | .back b => some b
  | _ => none

/-- What `proc` has to be. -/
def Loc.proc : Loc → Option Slot
  | .armed b | .ready b | .thread b | .back b => some b
  | _ => none

/-- Where the selection of a pass leads. -/
def Loc.found : Option Slot → Loc
  | some b => .chosen b
  | none => .cleared

/-- The short sections under `ptable.lock`. -/
inductive Section where
  | wakeup (chan : Chan)
  | kill (pid signum : Int)
  | checkAlarms
  deriving DecidableEq

/-- The kernel, the CPUs, the threads and `ptable.lock`. -/
structure Sys (ncpu : Nat) extends Kernel where
  /-- Each CPU's `proc`. -/
  current : Fin ncpu → Option Slot
  loc : Fin ncpu → Loc
  /-- The short section a CPU is in, and whether its body has run. -/
  inside : Fin ncpu → Option (Section × Bool)
  /-- `ptable.lock`: the CPU that holds it. -/
  lock : Option (Fin ncpu)
  point : Slot → Point
  stage : Slot → Stage
  saved : Slot → Bool

/-- The steps. `c` is the CPU, `i` the process whose thread it executes. -/
inductive Event (ncpu : Nat) where
  -- `scheduler()`
  | passAcquire (c : Fin ncpu)
  | passSelect (c : Fin ncpu)
  | passProc (c : Fin ncpu) (b : Slot)
  | passRun (c : Fin ncpu) (b : Slot)
  | swtchIn (c : Fin ncpu) (b : Slot)
  | passClear (c : Fin ncpu) (b : Slot)
  | passRelease (c : Fin ncpu)
  -- `yield`, `sleep`, `wait`, `fork`, `exit`
  | acquire (c : Fin ncpu) (i : Slot) (call : Call)
  | store (c : Fin ncpu) (i : Slot) (call : Call)
  | swtchOut (c : Fin ncpu) (i : Slot) (call : Call)
  | resume (c : Fin ncpu) (i : Slot)
  | waitReap (c : Fin ncpu) (i j : Slot)
  | waitFail (c : Fin ncpu) (i : Slot)
  | forkAlloc (c : Fin ncpu) (i : Slot)
  | forkContext (c : Fin ncpu) (i np : Slot)
  | forkFail (c : Fin ncpu) (i np : Slot)
  | forkCopy (c : Fin ncpu) (i np : Slot)
  | forkDone (c : Fin ncpu) (i np : Slot)
  | exitCall (c : Fin ncpu) (i : Slot)
  | fault (c : Fin ncpu) (i : Slot)
  -- interrupt handlers and the other system calls
  | enter (c : Fin ncpu) (s : Section)
  | perform (c : Fin ncpu) (s : Section)
  | leave (c : Fin ncpu) (s : Section)
  | tick
  | telemetry (c : Fin ncpu) (i : Slot)

/-- A pass up to `proc = best`: all it stores but `best->state`. -/
def choose (k : Kernel) : Kernel × Option Slot :=
  match scheduler k with
  | (k', some b) => (k'.setProc b { k'.proc b with state := (k.proc b).state }, some b)
  | (k', none) => (k', none)

/-- The body of a short section. -/
def Section.body : Section → Kernel → Kernel
  | .wakeup chan => wakeup1 chan
  | .kill pid signum => Sched.kill pid signum
  | .checkAlarms => Sched.checkAlarms

/-- What `call` stores before it calls `sched()`, for process `i`. -/
def Call.body (i : Slot) : Call → Kernel → Kernel
  | .yield, k => k.setProc i (k.proc i).yielded
  | .sleep chan, k => k.setProc i { k.proc i with chan := chan, state := .sleeping }
  | .wait, k => k.setProc i { k.proc i with chan := .proc i, state := .sleeping }
  | .exit, k => Machine.zombify i (releaseAgentSlot i k)
  | .fork, k => k

namespace Sys

variable {ncpu : Nat}

/-- Every CPU in its scheduler loop, `userinit`'s process in the table. -/
def boot (ncpu : Nat) : Sys ncpu where
  toKernel := Machine.bootKernel
  current := fun _ => none
  loc := fun _ => .loop
  inside := fun _ => none
  lock := none
  point := fun _ => .user
  stage := fun i => if i = 0 then .forkret else .dead
  saved := fun i => i = 0

/-! ## When a step can happen -/

/-- CPU `c` executes the thread of `i`, which is at `stage`, and no handler on top of it. -/
def At (m : Sys ncpu) (c : Fin ncpu) (i : Slot) (stage : Stage) : Prop :=
  m.loc c = .thread i ∧ m.inside c = none ∧ m.stage i = stage

instance (m : Sys ncpu) (c : Fin ncpu) (i : Slot) (stage : Stage) :
    Decidable (m.At c i stage) :=
  inferInstanceAs (Decidable (_ ∧ _ ∧ _))

/-- CPU `c` executes code that does not hold `ptable.lock`. -/
def Free (m : Sys ncpu) (c : Fin ncpu) : Prop :=
  match m.loc c with
  | .loop => True
  | .thread i => m.stage i = .out
  | _ => False

instance (m : Sys ncpu) (c : Fin ncpu) : Decidable (m.Free c) := by
  unfold Free
  exact match m.loc c with
    | .loop => .isTrue trivial
    | .thread i => inferInstanceAs (Decidable (m.stage i = .out))
    | .held | .chosen _ | .armed _ | .ready _ | .back _ | .cleared => .isFalse id

/-- `havekids`. -/
def HasKids (m : Sys ncpu) (i : Slot) : Prop := ∃ j, (m.proc j).parent = some i

instance (m : Sys ncpu) (i : Slot) : Decidable (m.HasKids i) :=
  inferInstanceAs (Decidable (∃ _, _))

/-- `call` gets to the point where it stores the state of process `i`. -/
def Stores (m : Sys ncpu) (i : Slot) : Call → Prop
  | .wait => Machine.zombieChild m.proc i = none ∧ m.HasKids i ∧ (m.proc i).killed = false
  | .fork => False
  | _ => True

instance (m : Sys ncpu) (i : Slot) : DecidablePred (m.Stores i)
  | .wait => inferInstanceAs (Decidable (_ ∧ _ ∧ _))
  | .fork => .isFalse id
  | .yield | .sleep _ | .exit => .isTrue trivial

/-- The source lets this step happen here. -/
def Enabled (m : Sys ncpu) : Event ncpu → Prop
  | .passAcquire c => m.loc c = .loop ∧ m.inside c = none ∧ m.lock = none
  | .passSelect c => m.loc c = .held
  | .passProc c b => m.loc c = .chosen b
  | .passRun c b => m.loc c = .armed b
  | .swtchIn c b => m.loc c = .ready b
  | .passClear c b => m.loc c = .back b
  | .passRelease c => m.loc c = .cleared
  | .acquire c i call => m.At c i .out ∧ call.From (m.point i) ∧ m.lock = none
  | .store c i call => m.At c i (.held call) ∧ m.Stores i call
  | .swtchOut c i call => m.At c i (.set call)
  | .resume c i =>
    m.loc c = .thread i ∧ m.inside c = none ∧ (m.stage i).Resumes
  | .waitReap c i j => m.At c i (.held .wait) ∧ Machine.zombieChild m.proc i = some j
  | .waitFail c i =>
    m.At c i (.held .wait) ∧ Machine.zombieChild m.proc i = none ∧
      (¬ m.HasKids i ∨ (m.proc i).killed = true)
  | .forkAlloc c i => m.At c i (.held .fork)
  | .forkContext c i np => m.At c i .out ∧ m.point i = .forking np
  | .forkFail c i np => m.At c i .out ∧ (m.point i = .forking np ∨ m.point i = .prepared np)
  | .forkCopy c i np => m.At c i .out ∧ m.point i = .prepared np
  | .forkDone c i np => m.At c i .out ∧ m.point i = .copied np
  | .exitCall c i => m.At c i .out ∧ m.point i = .user ∧ i ≠ m.initproc
  | .fault c i => m.At c i .out ∧ m.point i = .user ∧ i ≠ m.initproc
  | .enter c _ => m.Free c ∧ m.inside c = none ∧ m.lock = none
  | .perform c s => m.inside c = some (s, false)
  | .leave c s => m.inside c = some (s, true)
  | .tick => True
  | .telemetry c i => m.At c i .out

instance (m : Sys ncpu) : DecidablePred m.Enabled := fun e => by
  cases e <;> unfold Enabled <;> infer_instance

/-! ## What a step does -/

/-- A step that writes kernel data only. -/
@[simp] def onKernel (m : Sys ncpu) (f : Kernel → Kernel) : Sys ncpu :=
  { m with toKernel := f m.toKernel }

/-- Store one process. -/
@[simp] def setProc (m : Sys ncpu) (i : Slot) (p : Proc) : Sys ncpu :=
  m.onKernel (Kernel.setProc · i p)

/-- Move CPU `c` to another place. -/
@[simp] def goto (m : Sys ncpu) (c : Fin ncpu) (l : Loc) : Sys ncpu :=
  { m with loc := update m.loc c l }

@[simp] def setStage (m : Sys ncpu) (i : Slot) (st : Stage) : Sys ncpu :=
  { m with stage := update m.stage i st }

@[simp] def setPoint (m : Sys ncpu) (i : Slot) (q : Point) : Sys ncpu :=
  { m with point := update m.point i q }

@[simp] def setSaved (m : Sys ncpu) (i : Slot) (b : Bool) : Sys ncpu :=
  { m with saved := update m.saved i b }

@[simp] def setCurrent (m : Sys ncpu) (c : Fin ncpu) (p : Option Slot) : Sys ncpu :=
  { m with current := update m.current c p }

/-- `release(&ptable.lock)` by the thread of process `i`. -/
@[simp] def release (m : Sys ncpu) (i : Slot) : Sys ncpu :=
  { m.setStage i .out with lock := none }

/-- What the step does. -/
def effect (m : Sys ncpu) : Event ncpu → Sys ncpu
  | .passAcquire c => { m.goto c .held with lock := some c }
  | .passSelect c =>
    (m.onKernel fun k => (choose k).1).goto c (.found (choose m.toKernel).2)
  | .passProc c b => (m.setCurrent c (some b)).goto c (.armed b)
  | .passRun c b => (m.setProc b { m.proc b with state := .running }).goto c (.ready b)
  | .swtchIn c b => (m.setSaved b false).goto c (.thread b)
  | .passClear c _ => (m.setCurrent c none).goto c .cleared
  | .passRelease c => { m.goto c .loop with lock := none }
  | .acquire c i call => { m.setStage i (.held call) with lock := some c }
  | .store _ i call => (m.onKernel (call.body i)).setStage i (.set call)
  | .swtchOut c i call => ((m.setSaved i true).setStage i (.back call)).goto c (.back i)
  | .resume _ i =>
    match m.stage i with
    | .back (.sleep _) => (m.setProc i { m.proc i with chan := .null }).release i
    | .back .wait => (m.setProc i { m.proc i with chan := .null }).setStage i (.held .wait)
    | _ => m.release i
  | .waitReap _ i j =>
    (((m.setProc j { m.proc j with pid := 0, parent := none, killed := false, state := .unused
      }).setStage j .dead).setPoint j .user).release i
  | .waitFail _ i => m.release i
  | .forkAlloc _ i =>
    match freeSlot m.proc with
    | some np => ((m.onKernel (allocproc np)).setPoint i (.forking np)).release i
    | none => m.release i
  | .forkContext _ i np =>
    ((m.setSaved np true).setStage np .forkret).setPoint i (.prepared np)
  | .forkFail _ i np =>
    ((m.setProc np { m.proc np with state := .unused }).setStage np .dead).setPoint i .user
  | .forkCopy _ i np =>
    (m.setProc np { m.proc np with sz := (m.proc i).sz, parent := some i }).setPoint i (.copied np)
  | .forkDone _ i np => (m.setProc np { m.proc np with state := .runnable }).setPoint i .user
  | .exitCall _ i => m.setPoint i .exiting
  | .fault _ i => (m.setProc i { m.proc i with killed := true }).setPoint i .exiting
  | .enter c s => { m with inside := update m.inside c (some (s, false)), lock := some c }
  | .perform c s =>
    { m.onKernel s.body with inside := update m.inside c (some (s, true)) }
  | .leave c _ => { m with inside := update m.inside c none, lock := none }
  | .tick => { m with ticks := u32 (m.ticks + 1) }
  | .telemetry _ i => m.setProc i ((m.proc i).telemetry m.schedp m.ticks)

/-- One step. -/
def step (m : Sys ncpu) (e : Event ncpu) : Option (Sys ncpu) :=
  if m.Enabled e then some (m.effect e) else none

theorem step_eq_some {m m' : Sys ncpu} {e : Event ncpu} :
    m.step e = some m' ↔ m.Enabled e ∧ m' = m.effect e := by
  unfold step
  split
  · next h => simp [h, eq_comm]
  · next h => simp [h]

/-- Perform a list of events from `m`. -/
abbrev run (m : Sys ncpu) (es : List (Event ncpu)) : Option (Sys ncpu) :=
  Transition.run step m es

/-- What the machine can reach from boot. -/
def Reachable (m : Sys ncpu) : Prop := ∃ es, (boot ncpu).run es = some m

end Sys

end Xv6.Life
