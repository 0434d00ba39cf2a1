import Xv6.Common.Scan
import Xv6.Sched.Proc

/-!
# One pass of `scheduler()`

`scheduler` is one iteration of the `for(;;)` of `proc.c`, from the acquisition of `ptable.lock`
to the `swtch`: snapshot `schedp`, boost, age, select, dispatch. The result is the kernel after
the pass and the process it dispatched, if any.

The pass holds `ptable.lock` throughout and reads the tunables once, into the snapshot, so it is
one step as far as the process table and the tunables go. Its only other access to `schedp` is the
starvation alert; the loop body `ageSlot` stands on its own so that the alert can also be studied
one iteration at a time.
-/

namespace Xv6.Sched

/-- The `snap_*` locals of `scheduler()`. -/
structure Snap where
  boost : Int
  q0 : Int
  q1 : Int
  q2 : Int
  aging : Int
  rr : Int
  deriving DecidableEq, Repr

/-- The snapshot of `schedp` at the top of a pass. -/
def SchedParams.snap (s : SchedParams) : Snap where
  boost := s.boostInterval
  q0 := s.q0Quantum
  q1 := s.q1Quantum
  q2 := s.q2Quantum
  aging := s.agingFactor
  rr := s.rrMode

@[simp] theorem SchedParams.snap_boost (s : SchedParams) : s.snap.boost = s.boostInterval := rfl
@[simp] theorem SchedParams.snap_q0 (s : SchedParams) : s.snap.q0 = s.q0Quantum := rfl
@[simp] theorem SchedParams.snap_q1 (s : SchedParams) : s.snap.q1 = s.q1Quantum := rfl
@[simp] theorem SchedParams.snap_q2 (s : SchedParams) : s.snap.q2 = s.q2Quantum := rfl
@[simp] theorem SchedParams.snap_aging (s : SchedParams) : s.snap.aging = s.agingFactor := rfl
@[simp] theorem SchedParams.snap_rr (s : SchedParams) : s.snap.rr = s.rrMode := rfl

/-! ## Step 1: priority boost -/

/-- `ticks - last_boost_tick >= (uint)snap_boost`. -/
def boostDue (snap : Snap) (k : Kernel) : Bool :=
  u32 (k.ticks - k.lastBoostTick) ≥ u32 snap.boost

/-- The body of the boost loop. -/
def Proc.boosted (q0 : Int) (p : Proc) : Proc :=
  if p.state = .unused then p else { p with queueLevel := 0, ticksRemaining := q0, waitTicks := 0 }

/-- The whole of step 1. -/
def boost (snap : Snap) (k : Kernel) : Kernel :=
  if boostDue snap k then
    { k with proc := fun i => (k.proc i).boosted snap.q0, lastBoostTick := k.ticks }
  else k

/-! ## Step 2: aging -/

/-- `p->wait_ticks++`. -/
def Proc.aged (p : Proc) : Proc :=
  if p.state = .runnable then { p with waitTicks := i32 (p.waitTicks + 1) } else p

/-- The starvation test of the aging loop, on a process whose `wait_ticks` was just incremented. -/
def Proc.starving (p : Proc) : Bool := p.state = .runnable ∧ p.waitTicks > 100

/-- `schedp.sched_alert = 1`, under `schedp.lock`. -/
def raiseAlert (k : Kernel) : Kernel := { k with schedp := { k.schedp with schedAlert := 1 } }

/-- The body of the aging loop. -/
def ageSlot (k : Kernel) (i : Slot) : Kernel :=
  let k' := k.setProc i (k.proc i).aged
  if (k.proc i).aged.starving ∧ k.schedp.schedAlert = 0 then raiseAlert k' else k'

/-- The whole of step 2. -/
@[irreducible] def age (k : Kernel) : Kernel := (List.finRange NPROC).foldl ageSlot k

theorem age_eq (k : Kernel) : age k = (List.finRange NPROC).foldl ageSlot k := by
  unfold age
  rfl

/-! ## Step 3: selection -/

/-- `p->burst_ema_fast / 100 - (p->wait_ticks / snap_aging)`. -/
def Proc.score (aging : Int) (p : Proc) : Int :=
  i32 (p.burstEmaFast.tdiv 100 - p.waitTicks.tdiv aging)

/-- `p` takes part in the contest of queue `q`. -/
def Proc.contends (q : Int) (p : Proc) : Bool := p.state = .runnable ∧ p.queueLevel = q

/-- The score update made to a contender. -/
def Proc.rescored (aging : Int) (p : Proc) : Proc := { p with effectiveScore := p.score aging }

/-- The body of the inner selection loop: rescore `p` in place, and keep it if it beats `best`. -/
def scanSlot (aging q : Int) (st : Table × Option Slot) (i : Slot) : Table × Option Slot :=
  if (st.1 i).contends q then
    let t := Function.update st.1 i ((st.1 i).rescored aging)
    match st.2 with
    | none => (t, some i)
    | some b => if (t i).effectiveScore < (t b).effectiveScore then (t, some i) else (t, some b)
  else st

/-- The inner loop, over one queue. The loops over the table are irreducible: an elaborator that
unfolds them would walk the 64 slots. -/
@[irreducible] def scanLevel (aging q : Int) (t : Table) : Table × Option Slot :=
  (List.finRange NPROC).foldl (scanSlot aging q) (t, none)

/-- The outer loop over the queues, left at the first one that yields a process. -/
def scanLevels (aging : Int) : List Int → Table → Table × Option Slot
  | [], t => (t, none)
  | q :: qs, t =>
    if (scanLevel aging q t).2.isSome then scanLevel aging q t
    else scanLevels aging qs (scanLevel aging q t).1

/-- `snap_rr = 0`: MLFQ+SJF. -/
def selectMlfq (aging : Int) (t : Table) : Table × Option Slot := scanLevels aging [0, 1, 2] t

/-- `snap_rr = 1`: the first RUNNABLE slot at or after `rr_next`, cyclically. -/
@[irreducible] def selectRr (rrNext : Slot) (t : Table) : Option Slot :=
  ((List.finRange NPROC).map (rrNext + ·)).find? (fun i => (t i).state = .runnable)

/-- The whole of step 3. -/
def select (snap : Snap) (k : Kernel) : Kernel × Option Slot :=
  if snap.rr ≠ 0 then
    match selectRr k.rrNext k.proc with
    | some b => ({ k with rrNext := b + 1 }, some b)
    | none => (k, none)
  else ({ k with proc := (selectMlfq snap.aging k.proc).1 }, (selectMlfq snap.aging k.proc).2)

/-! ## Step 4: dispatch -/

/-- The quantum of a queue level. -/
def Snap.quantum (snap : Snap) (level : Int) : Int :=
  if level = 0 then snap.q0 else if level = 1 then snap.q1 else snap.q2

/-- The stores `scheduler()` makes to the process it dispatches. -/
def Proc.dispatched (snap : Snap) (now : Int) (p : Proc) : Proc :=
  { p with
    waitTicks := 0
    burstStartTick := i32 now
    firstRunTick := if p.firstRunTick = 0 then i32 now else p.firstRunTick
    ticksRemaining := snap.quantum p.queueLevel
    state := .running }

/-- The whole of step 4. -/
def dispatch (snap : Snap) (b : Slot) (k : Kernel) : Kernel :=
  k.setProc b ((k.proc b).dispatched snap k.ticks)

/-- Steps 3 and 4: the part of the pass that follows the aging loop. -/
def selectDispatch (snap : Snap) (k : Kernel) : Kernel × Option Slot :=
  match select snap k with
  | (k', some b) => (dispatch snap b k', some b)
  | (k', none) => (k', none)

/-- One pass. -/
def scheduler (k : Kernel) : Kernel × Option Slot :=
  selectDispatch k.schedp.snap (age (boost k.schedp.snap k))

end Xv6.Sched
