import Xv6.Sched.Tunables
import Xv6.Sched.Wf

/-!
# Quanta

How long can a process keep its CPU? A dispatch loads `ticks_remaining` with the quantum of the
process's level, every timer interrupt of its CPU takes one away, and the trap that takes the last
one switches the process out. Two things load the field again while the process is running: the
priority boost of a pass on another CPU, and the process's own `register_agent`. So the bound is
on the interrupts since the last *refill*, and it is the dispatching quantum as long as there has
been none but the dispatch.

The trap is not atomic. Between the interrupt and the telemetry update the interrupt is counted
but not yet paid for, which is the `+ 1` of `Paid`. And the update is not atomic: no lock is held, and
`ticks_remaining--` is a load and a store. A boost that comes between the two is overwritten, and is
no refill (`Split`).
-/

namespace Xv6.Sched

open Function (update update_of_ne update_self)

variable {ncpu : Nat}

/-- History of one process's time on the CPU. -/
structure Stint where
  /-- Timer interrupts of its CPU since the last refill. -/
  used : Nat
  /-- What the last refill put into `ticks_remaining`. -/
  quantum : Int
  /-- Timer interrupts of its CPU since the dispatch. -/
  ticks : Nat
  /-- The quantum the dispatching pass read for the process's level. -/
  dispatchQuantum : Int
  /-- There has been another refill since the dispatch. -/
  refilled : Bool

/-- Before the first dispatch. -/
def Stint.start : Stint := ⟨0, 0, 0, 0, false⟩

def Stint.dispatch (q : Int) : Stint := ⟨0, q, 0, q, false⟩

def Stint.refill (g : Stint) (q : Int) : Stint :=
  { g with used := 0, quantum := q, refilled := true }

def Stint.tick (g : Stint) : Stint := { g with used := g.used + 1, ticks := g.ticks + 1 }

/-! ## The decrement

The load is an event of its own; between it and the store the other CPUs take their steps. -/

/-- The machine with what each CPU has loaded from `ticks_remaining` and not stored yet. -/
structure Split (ncpu : Nat) extends Machine ncpu where
  reg : Fin ncpu → Option Int

/-- The steps: the load, and all others. The telemetry update stores what was loaded. -/
inductive SplitEvent (ncpu : Nat) where
  | load (c : Fin ncpu)
  | step (e : Event ncpu)

namespace Split

def boot (ncpu : Nat) : Split ncpu := { Machine.boot ncpu with reg := fun _ => none }

/-- The process is running on a CPU that has loaded its `ticks_remaining`. -/
def Between (s : Split ncpu) (j : Slot) : Prop := ∃ c, s.cpu c = some j ∧ (s.reg c).isSome

instance (s : Split ncpu) : DecidablePred s.Between := fun _ =>
  inferInstanceAs (Decidable (∃ _, _))

/-- The load comes before the store. -/
def Loaded (s : Split ncpu) : Event ncpu → Bool
  | .telemetry c _ => (s.cpu c).isNone || (s.reg c).isSome
  | _ => true

/-- The source lets this step happen here. -/
def Enabled (s : Split ncpu) : SplitEvent ncpu → Prop
  | .load c =>
    (s.intr c = some (.entered true) ∨ s.intr c = some (.entered false)) ∧ (s.cpu c).isSome ∧
      s.reg c = none
  | .step e => s.toMachine.Enabled e ∧ s.Loaded e

instance (s : Split ncpu) : DecidablePred s.Enabled := fun e =>
  match e with
  | .load _ => inferInstanceAs (Decidable (_ ∧ _))
  | .step _ => inferInstanceAs (Decidable (_ ∧ _))

/-- The machine with the field of the process on `c` as it was when it was loaded. -/
def settle (s : Split ncpu) (c : Fin ncpu) : Machine ncpu :=
  { s.toMachine with
    proc := fun j =>
      if s.cpu c = some j then
        { s.proc j with ticksRemaining := (s.reg c).getD (s.proc j).ticksRemaining }
      else s.proc j }

def effect (s : Split ncpu) : SplitEvent ncpu → Split ncpu
  | .load c =>
    { s with reg := update s.reg c ((s.cpu c).map fun i => (s.proc i).ticksRemaining) }
  | .step (.telemetry c user) =>
    { (s.settle c).telemetry c user with reg := update s.reg c none }
  | .step e => { s.toMachine.effect e with reg := s.reg }

def step (s : Split ncpu) (e : SplitEvent ncpu) : Option (Split ncpu) :=
  if s.Enabled e then some (s.effect e) else none

/-- Perform a list of events from `s`. -/
abbrev run (s : Split ncpu) (es : List (SplitEvent ncpu)) : Option (Split ncpu) :=
  Transition.run step s es

end Split

/-- What a step adds to the history. -/
def Stint.update (g : Slot → Stint) (s : Split ncpu) : SplitEvent ncpu → Slot → Stint
  | .step (.pass _) => fun j =>
    if picked s.toKernel = some j then
      .dispatch (s.schedp.snap.quantum ((scheduler s.toKernel).1.proc j).queueLevel)
    else if boostDue s.schedp.snap s.toKernel ∧ (s.proc j).state ≠ .unused ∧ ¬ s.Between j then
      (g j).refill s.schedp.snap.q0
    else g j
  | .step (.irq c _) => fun j => if s.cpu c = some j then (g j).tick else g j
  | .step (.registerPin _ i) => fun j => if j = i then (g j).refill s.schedp.q0Quantum else g j
  | _ => g

/-! ## Books

One lemma for each thing that moves them: an interrupt, the store, the return, a refill. -/

/-- Where the trap is, `ticks_remaining` covers what is left of the quantum. -/
def Stint.Paid (g : Stint) (left : Int) : Option Intr → Prop
  | none => 1 ≤ left ∧ left ≤ g.quantum - g.used
  | some (.entered _) => 1 ≤ left ∧ left ≤ g.quantum - g.used + 1
  | some (.counted _) => 0 ≤ left ∧ left ≤ g.quantum - g.used

/-- The books of a process on a CPU are in order. -/
structure Stint.Sound (g : Stint) (left : Int) (intr : Option Intr) : Prop where
  paid : g.Paid left intr
  small : g.quantum ≤ 40
  only_dispatch : g.refilled = false → g.ticks = g.used ∧ g.dispatchQuantum = g.quantum

variable {g : Stint} {left : Int}

/-- An interrupt is counted before it is paid for. -/
theorem Stint.Sound.tick (h : g.Sound left none) (user : Bool) :
    g.tick.Sound left (some (.entered user)) := by
  obtain ⟨⟨h1, h2⟩, h3, h4⟩ := h
  refine ⟨⟨h1, ?_⟩, h3, fun hr => ?_⟩
  · simp only [Stint.tick]
    omega
  · simpa [Stint.tick] using h4 hr

/-- The telemetry update pays for it; the load is far from wrapping around. -/
theorem Stint.Sound.pay {user : Bool} (h : g.Sound left (some (.entered user))) :
    g.Sound (i32 (left - 1)) (some (.counted user)) := by
  obtain ⟨⟨h1, h2⟩, h3, h4⟩ := h
  rw [i32_eq_self (by omega) (by omega)]
  exact ⟨⟨by omega, by omega⟩, h3, h4⟩

/-- A trap that does not switch the process out leaves it something to spend. -/
theorem Stint.Sound.leave {user : Bool} (h : g.Sound left (some (.counted user)))
    (hpos : 0 < left) : g.Sound left none :=
  ⟨⟨hpos, h.paid.2⟩, h.small, h.only_dispatch⟩

/-- Never more interrupts than the quantum, and one fewer outside the trap. -/
theorem Stint.Sound.used_le {intr : Option Intr} (h : g.Sound left intr) :
    (g.used : Int) ≤ g.quantum := by
  have hp := h.paid
  rcases intr with _ | _ | _ <;> simp only [Stint.Paid] at hp <;> omega

theorem Stint.Sound.used_lt (h : g.Sound left none) : (g.used : Int) < g.quantum := by
  have hp := h.paid
  simp only [Stint.Paid] at hp
  omega

/-- A fresh load is sound wherever the trap is. -/
theorem Stint.Sound.load {q : Int} {intr : Option Intr} (hu : g.used = 0) (hg : g.quantum = q)
    (hpos : 1 ≤ q) (hq : q ≤ 40)
    (hd : g.refilled = false → g.ticks = g.used ∧ g.dispatchQuantum = g.quantum) :
    g.Sound q intr := by
  refine ⟨?_, by omega, hd⟩
  rcases intr with _ | _ | _ <;> simp only [Stint.Paid] <;> omega

namespace Split

open Machine Transition

variable {s s' : Split ncpu} {e : Event ncpu} {g : Slot → Stint} {c : Fin ncpu} {i : Slot}

theorem update_eq (hT : ¬ s.Targets i e) (hirq : ∀ c u, e = .irq c u → s.cpu c ≠ some i) :
    Stint.update g s (.step e) i = g i := by
  cases e with
  | pass => exact absurd trivial hT
  | irq c u => exact if_neg (hirq c u rfl)
  | registerPin c j => exact if_neg hT
  | _ => rfl

/-- A process the step is not aimed at: only its own CPU's trap concerns it. -/
theorem sound_stirred (hold : (g i).Sound (s.proc i).ticksRemaining (s.intr c)) (hw : s.WF)
    (he : s.toMachine.Enabled e) (hc : s.cpu c = some i) (hT : ¬ s.Targets i e) :
    (Stint.update g s (.step e) i).Sound (s.proc i).ticksRemaining
      ((s.toMachine.effect e).intr c) := by
  have hintr := effect_intr he c
  generalize (s.toMachine.effect e).intr c = x at hintr
  cases hintr with
  | same hne =>
    rw [update_eq hT]
    · exact hold
    · rintro c' u rfl hc'
      exact hne (congrArg some (hw.cpu_inj c' c i hc' hc))
  | entered hnone =>
    rw [hnone] at hold
    simp only [Stint.update, if_pos hc]
    exact hold.tick _
  | counted => exact absurd hc hT
  | left =>
    rw [update_eq hT (by simp)]
    -- The trap does not switch the process out, so it has time left.
    have hpos : 0 < (s.proc i).ticksRemaining := by
      by_contra hle
      exact hT ⟨hc, (hw.yields_iff hc).mpr (by omega)⟩
    rcases he.1 with hu | hu <;> rw [hu] at hold <;> exact hold.leave hpos

/-- A step other than a telemetry update, for a CPU that has nothing loaded. -/
theorem sound_effect (hw : s.WF) (hb : s.InBounds) (he : s.toMachine.Enabled e)
    (htel : ∀ c u, e ≠ .telemetry c u) (hc : (s.toMachine.effect e).cpu c = some i)
    (hreg : s.reg c = none)
    (hold : s.cpu c = some i → (g i).Sound (s.proc i).ticksRemaining (s.intr c)) :
    (Stint.update g s (.step e) i).Sound ((s.toMachine.effect e).proc i).ticksRemaining
      ((s.toMachine.effect e).intr c) := by
  have hrun' := (hw.effect he).cpu_running c i hc
  by_cases hpass : e = .pass c
  · -- The process has just been dispatched on this CPU.
    subst hpass
    have hpick : picked s.toKernel = some i := by simpa [Machine.effect, picked] using hc
    have hleft := pass_ticksRemaining_picked hpick
    simp only [Stint.update, if_pos hpick]
    rw [show ((s.toMachine.effect (.pass c)).proc i).ticksRemaining = _ from hleft]
    exact .load rfl rfl (hb.tunables.quantum_pos _) (hb.tunables.quantum_le _) fun _ => ⟨rfl, rfl⟩
  have hcpu := effect_cpu_of_trap hw.forking_embryo he hc hpass
  have hrun := hw.cpu_running c i hcpu
  have hold := hold hcpu
  have hs := effect_slot he i
  generalize (s.toMachine.effect e).proc i = p at hs hrun'
  cases hs with
  | stirred hT hs =>
    rw [hs.frame Proc.ticksRemaining fun _ _ _ _ _ _ => rfl]
    exact sound_stirred hold hw he hcpu hT
  | passed =>
    have hpick : picked s.toKernel ≠ some i := by
      intro hpick
      rw [picked_runnable hpick] at hrun
      cases hrun
    have hbetween : ¬ s.Between i := by
      rintro ⟨c', hc', hsome⟩
      rw [hw.cpu_inj c' c i hc' hcpu, hreg] at hsome
      cases hsome
    rw [pass_ticksRemaining hpick]
    simp only [Stint.update, if_neg hpick, hbetween, not_false_iff, and_true]
    split
    · exact .load rfl rfl (hb.tunables.quantum_pos 0) (hb.tunables.quantum_le 0)
        (by simp [Stint.refill])
    · exact hold
  | @counted c' user => exact absurd rfl (htel c' user)
  | pinned =>
    simp only [Stint.update, if_true]
    exact .load rfl rfl hb.tunables.q0_pos (by have := hb.tunables.q0_le; omega)
      (by simp [Stint.refill])
  | allocated hfree => rw [freeSlot_unused hfree] at hrun; cases hrun
  | reaped hz => rw [hz] at hrun; cases hrun
  | aborted | made | yielded | slept | waited | exited => cases hrun'
  | resized | faulted => exact hold

/-- A CPU between load and store stays there until its own store. -/
theorem intr_between (he : s.toMachine.Enabled e) (htel : ∀ c u, e ≠ .telemetry c u)
    (hin : s.intr c = some (.entered true) ∨ s.intr c = some (.entered false)) :
    (s.toMachine.effect e).intr c = s.intr c := by
  have hintr := effect_intr he c
  generalize (s.toMachine.effect e).intr c = x at hintr
  cases hintr with
  | same => rfl
  | entered hnone => rcases hin with hin | hin <;> rw [hnone] at hin <;> cases hin
  | @counted _ u => exact absurd rfl (htel c u)
  | left =>
    rcases he.1 with hu | hu <;> rcases hin with hin | hin <;> rw [hu] at hin <;> cases hin

/-- And no other step refills its process or counts an interrupt. -/
theorem update_between (hw : s.WF) (he : s.toMachine.Enabled e) (hc : s.cpu c = some i)
    (hreg : (s.reg c).isSome) (hin : s.intr c ≠ none) : Stint.update g s (.step e) i = g i := by
  have hbusy : ∀ c', s.cpu c' = some i → s.intr c' ≠ none := by
    intro c' hc'
    rwa [hw.cpu_inj c' c i hc' hc]
  cases e with
  | pass c' =>
    have hpick : picked s.toKernel ≠ some i := by
      intro hpick
      have hrun := hw.cpu_running c i hc
      rw [picked_runnable hpick] at hrun
      cases hrun
    have hbetween : s.Between i := ⟨c, hc, hreg⟩
    simp [Stint.update, hpick, hbetween]
  | irq c' u => exact if_neg fun hc' => hbusy c' hc' he.1
  | registerPin c' j => exact if_neg fun hij : i = j => hbusy c' (hij ▸ he.1.1) he.1.2.1
  | _ => rfl

@[simp] theorem settle_cpu (s : Split ncpu) (c : Fin ncpu) : (s.settle c).cpu = s.cpu := rfl

@[simp] theorem settle_ctl (s : Split ncpu) (c : Fin ncpu) : (s.settle c).ctl = s.ctl := rfl

@[simp] theorem settle_state (s : Split ncpu) (c : Fin ncpu) (j : Slot) :
    ((s.settle c).proc j).state = (s.proc j).state := by
  simp only [settle]
  split <;> rfl

@[simp] theorem settle_killed (s : Split ncpu) (c : Fin ncpu) (j : Slot) :
    ((s.settle c).proc j).killed = (s.proc j).killed := by
  simp only [settle]
  split <;> rfl

theorem settle_wf (h : s.WF) (c : Fin ncpu) : (s.settle c).WF where
  cpu_running := by simpa using h.cpu_running
  running_cpu := by simpa using h.running_cpu
  cpu_inj := h.cpu_inj
  ctl_live := by simpa using h.ctl_live
  forking_embryo := by simpa using h.forking_embryo
  forking_inj := h.forking_inj
  killed_exiting := by simpa using h.killed_exiting
  user_elsewhere := h.user_elsewhere
  released_locked := h.released_locked
  released_inj := h.released_inj

/-- What holds of a machine and its books. -/
structure Inv (s : Split ncpu) (g : Slot → Stint) : Prop where
  wf : s.WF
  inBounds : s.InBounds
  reg : ∀ c, (s.reg c).isSome →
    s.intr c = some (.entered true) ∨ s.intr c = some (.entered false)
  sound : ∀ c i, s.cpu c = some i →
    (g i).Sound ((s.reg c).getD (s.proc i).ticksRemaining) (s.intr c)

theorem boot_inv : (boot ncpu).Inv fun _ => .start where
  wf := boot_wf
  inBounds := boot_inBounds
  reg c h := by cases h
  sound c i hc := by cases hc

theorem Inv.load (h : s.Inv g) (he : s.Enabled (.load c)) : (s.effect (.load c)).Inv g where
  wf := h.wf
  inBounds := h.inBounds
  reg c' hc' := by
    by_cases heq : c' = c
    · exact heq ▸ he.1
    · simp only [effect, update_of_ne heq] at hc'
      exact h.reg c' hc'
  sound c' i hc' := by
    have hcpu : s.cpu c' = some i := hc'
    have hold := h.sound c' i hcpu
    by_cases heq : c' = c
    · subst heq
      rw [he.2.2] at hold
      simp only [effect, update_self]
      rwa [hcpu]
    · simpa [effect, update_of_ne heq] using hold

/-- The store. -/
theorem Inv.store {user : Bool} (h : s.Inv g) (he : s.Enabled (.step (.telemetry c user))) :
    (s.effect (.step (.telemetry c user))).Inv g := by
  obtain ⟨hin, hloaded⟩ := he
  have hin : s.intr c = some (.entered user) := hin
  have hwf := settle_wf h.wf c
  have hstep : (s.settle c).Enabled (.telemetry c user) := hin
  have hbounds : (s.settle c).InBounds := ⟨h.inBounds.tunables, h.inBounds.pending⟩
  refine ⟨hwf.effect hstep, hbounds.effect hstep, fun c' hc' => ?_, fun c' i hc' => ?_⟩
  · by_cases heq : c' = c
    · subst heq
      simp [effect] at hc'
    · simp only [effect, update_of_ne heq] at hc'
      simpa [effect, telemetry, update_of_ne heq, settle] using h.reg c' hc'
  · have hcpu : (s.settle c).cpu c' = some i :=
      effect_cpu_of_trap hwf.forking_embryo hstep hc' (by simp)
    rw [settle_cpu] at hcpu
    have hold := h.sound c' i hcpu
    by_cases heq : c' = c
    · subst heq
      have hreg : (s.reg c').isSome := by simpa [Loaded, hcpu] using hloaded
      obtain ⟨x, hx⟩ := Option.isSome_iff_exists.mp hreg
      have hproc : ((s.settle c').telemetry c' user).proc i =
          ({ s.proc i with ticksRemaining := x } : Proc).telemetry s.schedp s.ticks := by
        simp [telemetry, settle, hcpu, hx]
      have hleft : (((s.settle c').telemetry c' user).proc i).ticksRemaining = i32 (x - 1) := by
        rw [hproc]
        exact Proc.telemetry_ticksRemaining (h.wf.cpu_running c' i hcpu)
      rw [hx, hin] at hold
      simp only [effect, update_self, Option.getD_none, hleft]
      simpa [telemetry] using hold.pay
    · have hother : s.cpu c ≠ some i := fun hci => heq (h.wf.cpu_inj c' c i hcpu hci)
      have hproc : ((s.settle c).telemetry c user).proc i = s.proc i := by
        cases hci : s.cpu c with
        | none => simp [telemetry, settle, hci]
        | some j =>
          have hij : i ≠ j := fun hij => hother (hij ▸ hci)
          simp [telemetry, settle, hci, Kernel.setProc_ne _ _ hij, hij.symm]
      simp only [effect, update_of_ne heq, hproc]
      simpa [telemetry, update_of_ne heq, settle] using hold

theorem Inv.effect {e : SplitEvent ncpu} (h : s.Inv g) (he : s.Enabled e) :
    (s.effect e).Inv (Stint.update g s e) := by
  cases e with
  | load c => exact h.load he
  | step e =>
    by_cases htel : ∃ c u, e = .telemetry c u
    · obtain ⟨c, u, rfl⟩ := htel
      exact h.store he
    have htel : ∀ c u, e ≠ .telemetry c u := fun c u heq => htel ⟨c, u, heq⟩
    have heff : s.effect (.step e) = { s.toMachine.effect e with reg := s.reg } := by
      cases e <;> first | rfl | exact absurd rfl (htel _ _)
    rw [heff]
    refine ⟨h.wf.effect he.1, h.inBounds.effect he.1, fun c hc => ?_, fun c i hc => ?_⟩
    · show (s.toMachine.effect e).intr c = _ ∨ (s.toMachine.effect e).intr c = _
      rw [intr_between he.1 htel (h.reg c hc)]
      exact h.reg c hc
    · show (Stint.update g s (.step e) i).Sound
        ((s.reg c).getD ((s.toMachine.effect e).proc i).ticksRemaining)
        ((s.toMachine.effect e).intr c)
      cases hreg : s.reg c with
      | none =>
        refine sound_effect h.wf h.inBounds he.1 htel hc hreg fun hcpu => ?_
        have hold := h.sound c i hcpu
        rwa [hreg] at hold
      | some x =>
        have hsome : (s.reg c).isSome := by rw [hreg]; rfl
        have hin := h.reg c hsome
        have hne : s.intr c ≠ none := by rcases hin with hin | hin <;> rw [hin] <;> simp
        have hcpu : s.cpu c = some i := effect_cpu_of_trap h.wf.forking_embryo he.1 hc
          (by rintro rfl; exact hne he.1.2.1)
        have hold := h.sound c i hcpu
        rw [hreg] at hold
        rw [intr_between he.1 htel hin, update_between h.wf he.1 hcpu hsome hne]
        exact hold

/-! ## The bound -/

theorem run_inv {es : List (SplitEvent ncpu)} (h : (boot ncpu).run es = some s) :
    s.Inv (track step Stint.update (boot ncpu) (fun _ => .start) es) := by
  refine run_track (I := Inv) ?_ h allowed_true boot_inv
  intro s g e s' hs _ hse
  unfold step at hse
  split at hse
  · next he =>
    cases hse
    exact hs.effect he
  · cases hse

/-- **A running process never has more timer interrupts behind it than its last refill allows**,
and while its dispatch is the last refill, not more than the quantum the dispatching pass read for
its level. It does not get past the trap of the last one. -/
theorem running_within_quantum {es : List (SplitEvent ncpu)} (h : (boot ncpu).run es = some s)
    (i : Slot) (hi : (s.proc i).state = .running) :
    let g := track step Stint.update (boot ncpu) (fun _ => .start) es i
    (g.used : Int) ≤ g.quantum ∧ (g.refilled = false → (g.ticks : Int) ≤ g.dispatchQuantum) ∧
    ∀ c, s.cpu c = some i → s.intr c = none →
      (g.used : Int) < g.quantum ∧ (g.refilled = false → (g.ticks : Int) < g.dispatchQuantum) := by
  intro g
  have hinv := run_inv h
  obtain ⟨c, hc⟩ := hinv.wf.running_cpu i hi
  have hsound := hinv.sound c i hc
  have hle := hsound.used_le
  refine ⟨hle, fun hr => ?_, fun c' hc' hnone => ?_⟩
  · obtain ⟨ht, hd⟩ := hsound.only_dispatch hr
    rw [ht, hd]
    exact hle
  · have hsound' := hinv.sound c' i hc'
    rw [hnone] at hsound'
    refine ⟨hsound'.used_lt, fun hr => ?_⟩
    obtain ⟨ht, hd⟩ := hsound'.only_dispatch hr
    rw [ht, hd]
    exact hsound'.used_lt

/-- A run with each decrement in two steps. -/
def spelled (es : List (Event ncpu)) : List (SplitEvent ncpu) := es.flatMap fun e =>
  match e with
  | .telemetry c _ => [.load c, .step e]
  | _ => [.step e]

/-- Init, dispatched with four ticks, uses three and registers as the agent, which refills its
quantum. After two more it is still running. -/
def refillSession : List (SplitEvent 1) := spelled <|
  [.pass 0] ++ userTick ++ userTick ++ userTick ++
    [.registerTest 0 0, .registerLock 0 0, .registerPin 0 0] ++ userTick ++ userTick

theorem refillSession_running : ∃ s ∈ (boot 1).run refillSession, (s.proc 0).state = .running := by
  decide +kernel

/-- So the dispatching quantum alone is no bound. -/
theorem dispatch_quantum_exceeded :
    ¬ ∀ (es : List (SplitEvent 1)) (s : Split 1), (boot 1).run es = some s →
      ∀ i, (s.proc i).state = .running →
        ((track step Stint.update (boot 1) (fun _ => .start) es i).ticks : Int) ≤
          (track step Stint.update (boot 1) (fun _ => .start) es i).dispatchQuantum := by
  intro hall
  obtain ⟨s, hs, hst⟩ := refillSession_running
  have hle := hall refillSession s hs 0 hst
  revert hle
  decide +kernel

theorem refillSession_within_quantum : ∃ s ∈ (boot 1).run refillSession,
    (s.proc 0).state = .running ∧
    ((track step Stint.update (boot 1) (fun _ => .start) refillSession 0).used : Int) ≤
      (track step Stint.update (boot 1) (fun _ => .start) refillSession 0).quantum := by
  obtain ⟨s, hs, hst⟩ := refillSession_running
  exact ⟨s, hs, hst, (running_within_quantum hs 0 hst).1⟩

end Split

end Xv6.Sched
