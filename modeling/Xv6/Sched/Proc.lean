import Mathlib.Algebra.GroupWithZero.Nat
import Mathlib.Data.List.FinRange
import Mathlib.Logic.Function.Basic
import Xv6.Sched.Params

/-!
# The process table

`struct proc` cut to the fields the scheduler, the timer trap, the agent's system calls and the
process life cycle read or write, and the kernel state around it: `ptable`, `schedp`, `nextpid`,
`ticks`, `initproc` and the two `static` variables of `scheduler()`.

Pids are not wrapped: `nextpid` is an unbounded counter, which is the C `int` up to the
2³¹-th process.
-/

namespace Xv6.Sched

/-- `NPROC` (`param.h`). -/
def NPROC : Nat := 64

instance : NeZero NPROC := ⟨by decide⟩

/-- A `struct proc *` into `ptable.proc`. -/
abbrev Slot := Fin NPROC

/-- `enum procstate`. -/
inductive Procstate where
  | unused
  | embryo
  | sleeping
  | runnable
  | running
  | zombie
  deriving DecidableEq, Repr

/-- `(int)p->state`. -/
def Procstate.code : Procstate → Int
  | .unused => 0
  | .embryo => 1
  | .sleeping => 2
  | .runnable => 3
  | .running => 4
  | .zombie => 5

/-- A sleep channel: the address of `ticks`, of a process, or of some other kernel object. -/
inductive Chan where
  | null
  | ticks
  | proc (i : Slot)
  | object (addr : Nat)
  deriving DecidableEq, Repr

/-- `struct proc`. -/
structure Proc where
  sz : Nat
  state : Procstate
  pid : Int
  parent : Option Slot
  chan : Chan
  killed : Bool
  signalPending : Int
  alarmTicks : Int
  alarmCountdown : Int
  -- MLFQ+SJF scheduler fields
  queueLevel : Int
  ticksRemaining : Int
  waitTicks : Int
  burstEmaFast : Int
  burstEmaSlow : Int
  burstStartTick : Int
  yieldCount : Int
  preemptCount : Int
  burstVariance : Int
  pageFaultCount : Int
  effectiveScore : Int
  firstRunTick : Int
  createTick : Int
  deriving DecidableEq, Repr

/-- A `struct proc` as the loader leaves it: all zero. -/
def Proc.zero : Proc where
  sz := 0
  state := .unused
  pid := 0
  parent := none
  chan := .null
  killed := false
  signalPending := 0
  alarmTicks := 0
  alarmCountdown := 0
  queueLevel := 0
  ticksRemaining := 0
  waitTicks := 0
  burstEmaFast := 0
  burstEmaSlow := 0
  burstStartTick := 0
  yieldCount := 0
  preemptCount := 0
  burstVariance := 0
  pageFaultCount := 0
  effectiveScore := 0
  firstRunTick := 0
  createTick := 0

/-- `ptable.proc`. -/
abbrev Table := Slot → Proc

/-- The kernel's global data. -/
structure Kernel where
  proc : Table
  schedp : SchedParams
  nextpid : Int
  ticks : Int
  initproc : Slot
  /-- `static uint last_boost_tick` of `scheduler()`. -/
  lastBoostTick : Int
  /-- `static int rr_next` of `scheduler()`, always reduced modulo `NPROC`. -/
  rrNext : Slot

/-- Store one process. -/
def Kernel.setProc (k : Kernel) (i : Slot) (p : Proc) : Kernel :=
  { k with proc := Function.update k.proc i p }

/-! ### Reading back a store -/

@[simp] theorem Kernel.setProc_self (k : Kernel) (i : Slot) (p : Proc) :
    (k.setProc i p).proc i = p := by
  simp [Kernel.setProc]

theorem Kernel.setProc_ne (k : Kernel) {i j : Slot} (p : Proc) (h : j ≠ i) :
    (k.setProc i p).proc j = k.proc j := by
  simp [Kernel.setProc, h]

theorem Kernel.setProc_proc (k : Kernel) (i j : Slot) (p : Proc) :
    (k.setProc i p).proc j = if j = i then p else k.proc j := by
  simp [Kernel.setProc, Function.update_apply]

@[simp] theorem Kernel.setProc_schedp (k : Kernel) (i : Slot) (p : Proc) :
    (k.setProc i p).schedp = k.schedp := rfl

@[simp] theorem Kernel.setProc_nextpid (k : Kernel) (i : Slot) (p : Proc) :
    (k.setProc i p).nextpid = k.nextpid := rfl

@[simp] theorem Kernel.setProc_ticks (k : Kernel) (i : Slot) (p : Proc) :
    (k.setProc i p).ticks = k.ticks := rfl

@[simp] theorem Kernel.setProc_initproc (k : Kernel) (i : Slot) (p : Proc) :
    (k.setProc i p).initproc = k.initproc := rfl

@[simp] theorem Kernel.setProc_lastBoostTick (k : Kernel) (i : Slot) (p : Proc) :
    (k.setProc i p).lastBoostTick = k.lastBoostTick := rfl

@[simp] theorem Kernel.setProc_rrNext (k : Kernel) (i : Slot) (p : Proc) :
    (k.setProc i p).rrNext = k.rrNext := rfl

/-! ## Allocation -/

/-- The first loop of `allocproc`: the lowest UNUSED slot. -/
@[irreducible] def freeSlot (t : Table) : Option Slot :=
  (List.finRange NPROC).find? (fun i => (t i).state = .unused)

theorem freeSlot_unused {t : Table} {i : Slot} (h : freeSlot t = some i) :
    (t i).state = .unused := by
  rw [freeSlot] at h
  simpa using List.find?_some h

/-- `found:` in `allocproc`, up to the release of `ptable.lock`. `sz`, `parent`, `chan` and
`killed` keep what the slot's last occupant left there. -/
def allocproc (i : Slot) (k : Kernel) : Kernel :=
  { k.setProc i
      { k.proc i with
        state := .embryo
        signalPending := 0
        alarmTicks := 0
        alarmCountdown := 0
        pid := k.nextpid
        queueLevel := 0
        ticksRemaining := 1
        waitTicks := 0
        burstEmaFast := 100
        burstEmaSlow := 100
        burstStartTick := 0
        yieldCount := 0
        preemptCount := 0
        burstVariance := 0
        pageFaultCount := 0
        effectiveScore := 0
        firstRunTick := 0
        createTick := i32 k.ticks } with
    nextpid := k.nextpid + 1 }

/-- `wakeup1`, with `ptable.lock` held. -/
def wakeup1 (chan : Chan) (k : Kernel) : Kernel :=
  { k with
    proc := fun i =>
      if (k.proc i).state = .sleeping ∧ (k.proc i).chan = chan then
        { k.proc i with state := .runnable }
      else k.proc i }

/-- `SIGALRM`. -/
def SIGALRM : Int := 14

/-- One iteration of `check_alarms`. -/
def Proc.checkAlarm (p : Proc) : Proc :=
  if p.alarmTicks > 0 then
    if i32 (p.alarmCountdown - 1) ≤ 0 then
      { p with
        signalPending := SIGALRM
        alarmTicks := 0
        alarmCountdown := 0
        state := if p.state = .sleeping then .runnable else p.state }
    else { p with alarmCountdown := i32 (p.alarmCountdown - 1) }
  else p

/-- `check_alarms`. -/
def checkAlarms (k : Kernel) : Kernel :=
  { k with proc := fun i => (k.proc i).checkAlarm }

/-- The lowest slot whose `pid` field is `pid`, whatever its state. -/
@[irreducible] def pidSlot (pid : Int) (t : Table) : Option Slot :=
  (List.finRange NPROC).find? (fun i => (t i).pid = pid)

/-- `kill`. -/
def kill (pid signum : Int) (k : Kernel) : Kernel :=
  match pidSlot pid k.proc with
  | none => k
  | some i =>
    k.setProc i
      { k.proc i with
        signalPending := signum
        state := if (k.proc i).state = .sleeping then .runnable else (k.proc i).state }

/-! ## Wakeups

Everything that wakes processes does the same kind of thing to a slot: it may turn SLEEPING into
RUNNABLE, and it may write the signal, alarm and parent fields. No scheduling field is touched. -/

/-- `p'` is `p`, perhaps woken up, with any signal, alarm and parent fields. -/
def Proc.Stirred (p p' : Proc) : Prop :=
  ∃ st par sig at' cd, p' = { p with
      state := st, parent := par, signalPending := sig, alarmTicks := at', alarmCountdown := cd } ∧
    (st = p.state ∨ p.state = .sleeping ∧ st = .runnable)

theorem Proc.Stirred.refl (p : Proc) : p.Stirred p :=
  ⟨p.state, p.parent, p.signalPending, p.alarmTicks, p.alarmCountdown, rfl, .inl rfl⟩

variable {p p' : Proc}

theorem Proc.Stirred.trans {p'' : Proc} (h : p.Stirred p') (h' : p'.Stirred p'') :
    p.Stirred p'' := by
  obtain ⟨st, par, sig, at', cd, rfl, hst⟩ := h
  obtain ⟨st', par', sig', at'', cd', rfl, hst'⟩ := h'
  refine ⟨st', par', sig', at'', cd', rfl, ?_⟩
  rcases hst' with rfl | ⟨hs, rfl⟩
  · exact hst
  · rcases hst with rfl | ⟨-, rfl⟩
    · exact .inr ⟨hs, rfl⟩
    · cases hs

/-- Waking changes no field but the five. -/
theorem Proc.Stirred.frame {β : Type} (h : p.Stirred p') (obs : Proc → β)
    (hobs : ∀ (p : Proc) st par sig at' cd, obs { p with
      state := st, parent := par, signalPending := sig, alarmTicks := at',
      alarmCountdown := cd } = obs p) : obs p' = obs p := by
  obtain ⟨st, par, sig, at', cd, rfl, -⟩ := h
  exact hobs _ _ _ _ _ _

theorem Proc.Stirred.state (h : p.Stirred p') :
    p'.state = p.state ∨ p.state = .sleeping ∧ p'.state = .runnable := by
  obtain ⟨st, par, sig, at', cd, rfl, hst⟩ := h
  exact hst

/-- A process that is not SLEEPING is not moved by a wakeup. -/
theorem Proc.Stirred.state_eq (h : p.Stirred p') (hp : p.state ≠ .sleeping) :
    p'.state = p.state := by
  rcases h.state with h | ⟨hs, -⟩
  · exact h
  · exact absurd hs hp

theorem Proc.Stirred.running_iff (h : p.Stirred p') : p'.state = .running ↔ p.state = .running := by
  rcases h.state with h | ⟨hs, hr⟩
  · rw [h]
  · simp [hs, hr]

theorem Proc.Stirred.unused_iff (h : p.Stirred p') : p'.state = .unused ↔ p.state = .unused := by
  rcases h.state with h | ⟨hs, hr⟩
  · rw [h]
  · simp [hs, hr]

theorem wakeup1_stirred (chan : Chan) (k : Kernel) (i : Slot) :
    (k.proc i).Stirred ((wakeup1 chan k).proc i) := by
  simp only [wakeup1]
  split
  · next h => exact ⟨_, _, _, _, _, rfl, .inr ⟨h.1, rfl⟩⟩
  · exact .refl _

theorem checkAlarm_stirred (p : Proc) : p.Stirred p.checkAlarm := by
  unfold Proc.checkAlarm
  split
  · split
    · refine ⟨_, _, _, _, _, rfl, ?_⟩
      split
      · next h => exact .inr ⟨h, rfl⟩
      · exact .inl rfl
    · exact ⟨_, _, _, _, _, rfl, .inl rfl⟩
  · exact .refl _

theorem kill_stirred (pid signum : Int) (k : Kernel) (i : Slot) :
    (k.proc i).Stirred ((kill pid signum k).proc i) := by
  unfold kill
  split
  · exact .refl _
  · next b _ =>
      rw [Kernel.setProc_proc]
      split
      · next h =>
          subst h
          refine ⟨_, _, _, _, _, rfl, ?_⟩
          split
          · next h => exact .inr ⟨h, rfl⟩
          · exact .inl rfl
      · exact .refl _

theorem kill_frame {β : Type} (obs : Kernel → β)
    (hset : ∀ k i p, obs (Kernel.setProc k i p) = obs k) (pid signum : Int) (k : Kernel) :
    obs (kill pid signum k) = obs k := by
  unfold kill
  split
  · rfl
  · exact hset _ _ _

end Xv6.Sched
