import Xv6.Life.Residue

/-!
# Who writes the signal fields

`signal_pending`, `alarm_ticks` and `alarm_countdown` are written by `kill`, by `check_alarms`, by
`sys_alarm`, by `check_signals` and by `allocproc`, and `sig_disp` by `sys_signal` and `allocproc`.
Nothing else in the machine touches them: `effect_signals` and `effect_sigDisp` say what each step
makes of them, and what is true of pending signals and of alarms is derived from these two.
-/

namespace Xv6.Sched

/-- The fields of `struct proc` that are about signals and alarms. -/
structure Signals where
  pending : Int
  ticks : Int
  countdown : Int
  deriving DecidableEq

def Proc.signals (p : Proc) : Signals := ⟨p.signalPending, p.alarmTicks, p.alarmCountdown⟩

/-- The next `check_alarms` posts SIGALRM. -/
def Signals.Fires (s : Signals) : Prop := 0 < s.ticks ∧ i32 (s.countdown - 1) ≤ 0

instance (s : Signals) : Decidable s.Fires := inferInstanceAs (Decidable (_ ∧ _))

/-- What `check_alarms` makes of them. -/
def Signals.check (s : Signals) : Signals :=
  if s.Fires then ⟨SIGALRM, 0, 0⟩
  else if 0 < s.ticks then { s with countdown := i32 (s.countdown - 1) }
  else s

theorem Proc.checkAlarm_signals (p : Proc) : p.checkAlarm.signals = p.signals.check := by
  unfold checkAlarm Signals.check
  by_cases ht : 0 < p.alarmTicks
  · by_cases hc : i32 (p.alarmCountdown - 1) ≤ 0
    · simp [signals, Signals.Fires, ht, hc]
    · simp [signals, Signals.Fires, ht, hc]
  · simp [signals, Signals.Fires, ht]

end Xv6.Sched

namespace Xv6.Life

open Sched Signal Proc Rest

/-- Storing a process writes its own signal fields. -/
theorem setProc_signals (k : Kernel) (i j : Slot) (p : Proc) :
    ((k.setProc i p).proc j).signals = if j = i then p.signals else (k.proc j).signals := by
  rw [Kernel.setProc_proc]
  split <;> rfl

theorem kill_signals (pid signum : Int) (k : Kernel) (j : Slot) :
    ((Sched.kill pid signum k).proc j).signals =
      if pidSlot pid k.proc = some j then { (k.proc j).signals with pending := signum }
      else (k.proc j).signals := by
  unfold Sched.kill
  split
  · next h => simp [h]
  · next i h =>
      rw [setProc_signals, h]
      simp only [Option.some.injEq, eq_comm (a := i)]
      split
      · next hj => rw [hj]; rfl
      · rfl

theorem Call.body_signals (i j : Slot) (call : Call) (k : Kernel) :
    ((call.body i k).proc j).signals = (k.proc j).signals := by
  cases call with
  | yield | sleep | wait => exact setProc_frame signals (by rfl) j
  | fork => rfl
  | exit =>
    have hwake : ∀ chan k, ((wakeup1 chan k).proc j).signals = (k.proc j).signals := fun chan k =>
      wakeup1_frame signals (fun _ _ => rfl) chan k j
    have hadopt : ∀ k, ((Machine.adopt i k).proc j).signals = (k.proc j).signals := fun k =>
      adopt_frame signals (fun _ _ => rfl) i k j
    have hzombie : ∀ k : Kernel, ((k.setProc i { k.proc i with state := .zombie }).proc j).signals =
        (k.proc j).signals := fun k => setProc_frame signals (by rfl) j
    simp only [Call.body, Machine.zombify, hzombie]
    split <;> simp only [hwake, hadopt, releaseAgentSlot_proc]

namespace Sys

variable {ncpu : Nat}

/-- The signal fields after a step of the machine. -/
def signalsAfter (m : Sys ncpu) (j : Slot) : Event ncpu → Signals
  | .forkAlloc _ _ => if freeSlot m.proc = some j then ⟨0, 0, 0⟩ else (m.proc j).signals
  | .perform _ (.kill pid signum) =>
    if pidSlot pid m.proc = some j then { (m.proc j).signals with pending := signum }
    else (m.proc j).signals
  | .perform _ .checkAlarms => (m.proc j).signals.check
  | _ => (m.proc j).signals

theorem effect_signals (m : Sys ncpu) (e : Event ncpu) (j : Slot) :
    ((m.effect e).proc j).signals = m.signalsAfter j e := by
  cases e with
  | passSelect c => exact choose_proc_frame signals fun _ _ _ _ _ _ _ _ => rfl
  | store c i call => exact call.body_signals i j m.toKernel
  | resume c i =>
    simp only [effect]
    split
    · exact setProc_frame signals (by rfl) j
    · exact setProc_frame signals (by rfl) j
    · rfl
  | forkAlloc c i =>
    simp only [effect, signalsAfter]
    cases hf : freeSlot m.proc with
    | none => simp
    | some np =>
      simp only [Option.some.injEq, eq_comm (a := np)]
      exact setProc_signals m.toKernel np j _
  | perform c s =>
    cases s with
    | wakeup chan => exact wakeup1_frame signals (fun _ _ => rfl) chan m.toKernel j
    | kill pid signum => exact kill_signals pid signum m.toKernel j
    | checkAlarms => exact checkAlarm_signals _
  | telemetry c i =>
    exact setProc_frame signals
      (telemetry_frame signals fun _ _ _ _ _ _ _ => rfl) j
  | passRun | waitReap | forkFail | forkCopy | forkDone | fault =>
    exact setProc_frame signals (by rfl) j
  | _ => rfl

end Sys

namespace World

variable {ncpu : Nat}

/-- `allocproc` gives slot `j` to a new process. -/
def Takes (w : World ncpu) (j : Slot) : WorldEvent ncpu → Prop
  | .sys (.forkAlloc _ _) => freeSlot w.proc = some j
  | _ => False

instance (w : World ncpu) (i : Slot) : DecidablePred (w.Takes i) := fun e =>
  decidable_of_bool (match e with
    | .sys (.forkAlloc _ _) => decide (freeSlot w.proc = some i)
    | _ => false) (by unfold Takes; split <;> simp)

/-- The signal fields after a step. -/
def signalsAfter (w : World ncpu) (j : Slot) : WorldEvent ncpu → Signals
  | .sys e => w.toSys.signalsAfter j e
  | .call _ i (.alarm last secs) =>
    if j = i then
      if last then { (w.proc j).signals with countdown := i32 (i32 (secs + 1) * 100) }
      else { (w.proc j).signals with ticks := i32 (secs * 100) }
    else (w.proc j).signals
  | .trapOut _ i _ =>
    match (w.task i).checkSignals with
    | some t => if j = i then { (w.proc j).signals with pending := t.signalPending }
      else (w.proc j).signals
    | none => (w.proc j).signals
  | _ => (w.proc j).signals

local instance neZero_NSIG : NeZero 32 := ⟨by decide⟩

/-- `sig_disp` after a step. -/
def sigDispAfter (w : World ncpu) (j : Slot) : WorldEvent ncpu → Fin 32 → BitVec 64
  | .sys (.forkAlloc _ _) =>
    if freeSlot w.proc = some j then fun _ => 0 else (w.rest j).sigDisp
  | .call _ i (.signal signum handler) =>
    if j = i ∧ 0 ≤ signum ∧ signum < 32 then
      Function.update (w.rest j).sigDisp (Fin.ofNat 32 signum.toNat) handler
    else (w.rest j).sigDisp
  | _ => (w.rest j).sigDisp

theorem effect_signals (w : World ncpu) (e : WorldEvent ncpu) (j : Slot) :
    ((w.effect e).proc j).signals = w.signalsAfter j e := by
  cases e with
  | sys e => exact Sys.effect_signals w.toSys e j
  | call c i s =>
    cases s with
    | alarm last secs =>
      cases last <;>
      · refine (setProc_signals w.toKernel i j _).trans ?_
        simp only [signalsAfter]
        split
        · next hj => rw [hj]; rfl
        · rfl
    | sbrk => exact setProc_frame signals (by rfl) j
    | exec argc argv sz image =>
      cases image with
      | none => rfl
      | some im => exact setProc_frame signals (by rfl) j
    | registerAgent =>
      simp only [effect, serve, Service.body, signalsAfter]
      split
      · rfl
      · exact setProc_frame signals (by rfl) j
    | setschedparam updAddr upd =>
      simp only [effect, serve, Service.body, signalsAfter, sysSetschedparam]
      split <;> rfl
    | signal | getschedstats | close | dup =>
      simp only [effect, serve, Service.body, signalsAfter]
      split <;> rfl
    | _ => rfl
  | trapOut c i path =>
    simp only [effect, signalsAfter]
    cases (w.task i).checkSignals with
    | none => rfl
    | some t =>
      refine (setProc_signals w.toKernel i j _).trans ?_
      split
      · next hj => rw [hj]; rfl
      · rfl
  | _ => rfl

theorem setRest_frame {β : Type} {w : World ncpu} {i : Slot} {r : Rest} (obs : Rest → β)
    (h : obs r = obs (w.rest i)) (j : Slot) : obs (w.setRest i r j) = obs (w.rest j) := by
  simp only [setRest, Function.update_apply]
  split
  · next hj => rw [hj, h]
  · rfl

theorem effect_sigDisp (w : World ncpu) (e : WorldEvent ncpu) (j : Slot) :
    ((w.effect e).rest j).sigDisp = w.sigDispAfter j e := by
  cases e with
  | sys e =>
    cases e with
    | forkAlloc c i =>
      simp only [effect, restAfter, sigDispAfter]
      cases hf : freeSlot w.proc with
      | none => exact setRest_frame sigDisp (by rfl) j
      | some np =>
        simp only [Option.some.injEq, setRest, Function.update_apply, eq_comm (a := np)]
        split <;> rfl
    | acquire c i call =>
      cases call with
      | exit => exact setRest_frame sigDisp (by rfl) j
      | _ => rfl
    | forkFail | forkCopy | forkDone | waitReap | waitFail => exact setRest_frame sigDisp (by rfl) j
    | _ => rfl
  | call c i s =>
    cases s with
    | signal signum handler =>
      simp only [effect, serve, Service.body, sigDispAfter]
      by_cases hs : 0 ≤ signum ∧ signum < 32
      · simp only [if_pos hs, setRest, Function.update_apply]
        split
        · next hj => rw [if_pos ⟨hj, hs⟩, hj]
        · next hj => rw [if_neg fun h => hj h.1]
      · rw [if_neg hs, if_neg fun h => hs h.2]
        exact setRest_frame sigDisp (by rfl) j
    | exec argc argv sz image =>
      cases image <;> exact setRest_frame sigDisp (by rfl) j
    | registerAgent =>
      simp only [effect, serve, Service.body, sigDispAfter]
      split <;> exact setRest_frame sigDisp (by rfl) j
    | openFile f =>
      simp only [effect, serve, Service.body, sigDispAfter, install]
      split <;> exact setRest_frame sigDisp (by rfl) j
    | dup fd =>
      simp only [effect, serve, Service.body, sigDispAfter, install]
      split
      · split <;> exact setRest_frame sigDisp (by rfl) j
      · exact setRest_frame sigDisp (by rfl) j
    | getschedstats | close =>
      simp only [effect, serve, Service.body, sigDispAfter]
      split <;> exact setRest_frame sigDisp (by rfl) j
    | _ => exact setRest_frame sigDisp (by rfl) j
  | trapOut c i path =>
    simp only [effect, sigDispAfter]
    cases (w.task i).checkSignals with
    | none => rfl
    | some t => exact setRest_frame sigDisp (by rfl) j
  | _ => exact setRest_frame sigDisp (by rfl) j

end World

end Xv6.Life
