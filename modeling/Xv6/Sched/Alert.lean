import Xv6.Common.Signal
import Xv6.Sched.FinePass
import Xv6.Sched.PingPong

/-!
# The starvation alert

`schedp.sched_alert` is raised by the aging loop, reported by `getschedstats` in the first entry of
the buffer, and cleared by `setschedparam`, which does not look at it. The agent observes and then
actuates, and an alert that is raised in between is gone before it is seen.

The alert is a `Signal`: it is lost exactly when a `setschedparam` comes after a raise with no
successful `getschedstats` in between.
-/

namespace Xv6.Sched

open List Transition

variable {ncpu : Nat}

/-- Entry 0 of the buffer carries the alert. -/
theorem kernGetschedstats_head {maxproc : Nat} {k : Kernel} {s : Schedstat} {l : List Schedstat}
    (h : kernGetschedstats maxproc k = s :: l) : s.schedAlert = k.schedp.schedAlert := by
  unfold kernGetschedstats at h
  cases hl : listed maxproc k.proc with
  | nil => simp [hl] at h
  | cons i is =>
    rw [hl, mapIdx_cons] at h
    rw [← (List.cons.inj h).1]
    rfl

theorem sysGetschedstats_head {k : Kernel} {i : Slot} {bufAddr : Nat} {maxproc : Int}
    {s : Schedstat} {l : List Schedstat}
    (h : sysGetschedstats k i bufAddr maxproc = some (s :: l)) :
    s.schedAlert = k.schedp.schedAlert := by
  unfold sysGetschedstats at h
  split_ifs at h
  exact kernGetschedstats_head (Option.some.inj h)

namespace Fine

/-- The alert is up. -/
def alertUp (f : Fine ncpu) : Bool := f.schedp.schedAlert ≠ 0

/-- The step is a `getschedstats` that reports the alert. -/
def reports (f : Fine ncpu) : FineEvent ncpu → Bool
  | .other (.getschedstats _ i bufAddr maxproc) =>
    match sysGetschedstats f.toKernel i bufAddr maxproc with
    | some (s :: _) => s.schedAlert ≠ 0
    | _ => false
  | _ => false

/-- The part a step plays for the alert. A `getschedstats` counts as a fetch when it returns at
least one entry. -/
def kind (f : Fine ncpu) : FineEvent ncpu → Signal.Kind
  | .raise => .raise
  | .other (.setparamWrite _ _ _) => .clear
  | .other (.getschedstats _ i bufAddr maxproc) =>
    match sysGetschedstats f.toKernel i bufAddr maxproc with
    | some (_ :: _) => .fetch
    | _ => .other
  | _ => .other

/-- What has become of the alerts in a run. -/
abbrev alerts (f : Fine ncpu) (es : List (FineEvent ncpu)) : Signal.Hist :=
  track step (Signal.Hist.update step alertUp reports) f .start es

/-- The order of raises, `getschedstats` and `setschedparam` in a run. -/
abbrev calls (f : Fine ncpu) (es : List (FineEvent ncpu)) : Signal.Calls :=
  track step (Signal.Calls.update kind) f .start es

/-- A pass that is about to raise the alert has found it clear, and nobody else raises it. -/
def Sole (f : Fine ncpu) : Prop := ∀ p ∈ f.pass, p.raising = true → f.schedp.schedAlert = 0

/-- What the steps do to the alert. -/
inductive AlertStep (f : Fine ncpu) : FineEvent ncpu → Fine ncpu → Prop where
  | raised {f' : Fine ncpu} {p : PassAt ncpu} : f.pass = some p → p.raising = true →
      f'.schedp.schedAlert = 1 → f'.pass = some { p with raising := false } →
      AlertStep f .raise f'
  | cleared {c : Fin ncpu} {i : Slot} {upd : SchedUpdate} {f' : Fine ncpu} :
      f'.schedp.schedAlert = 0 → AlertStep f (.other (.setparamWrite c i upd)) f'
  | kept {e : FineEvent ncpu} {f' : Fine ncpu} : e ≠ .raise →
      (∀ c i upd, e ≠ .other (.setparamWrite c i upd)) →
      f'.schedp.schedAlert = f.schedp.schedAlert →
      (f'.pass = f.pass ∨ ∀ p ∈ f'.pass, p.raising = true → f.schedp.schedAlert = 0) →
      AlertStep f e f'

variable {f f' : Fine ncpu} {e : FineEvent ncpu}

/-- **What a step does to the alert.** -/
theorem step_alert (h : f.step e = some f') : AlertStep f e f' := by
  cases e with
  | start c =>
    simp only [step] at h
    split_ifs at h
    cases h
    exact .kept (by simp) (by simp) (by simp) (.inr (by simp))
  | age =>
    simp only [step] at h
    split at h
    · next hp =>
        cases h
        exact .kept (by simp) (by simp) rfl (.inr (by simp))
    · cases h
  | raise =>
    simp only [step] at h
    split at h
    · next hp =>
        cases h
        exact .raised hp rfl rfl rfl
    · cases h
  | finish =>
    simp only [step] at h
    split at h
    · next snap hp =>
        cases h
        exact .kept (by simp) (by simp)
          (selectDispatch_frame (fun k => k.schedp.schedAlert) (fun _ _ => rfl) (fun _ _ => rfl))
          (.inr (by simp))
    · cases h
  | other e =>
    simp only [step] at h
    split_ifs at h with hg
    obtain ⟨m, hm, rfl⟩ := Option.map_eq_some_iff.mp h
    obtain ⟨-, rfl⟩ := Machine.step_eq_some.mp hm
    by_cases hw : ∃ c i upd, e = .setparamWrite c i upd
    · obtain ⟨c, i, upd, rfl⟩ := hw
      exact .cleared rfl
    · have hne : ∀ c i upd, e ≠ .setparamWrite c i upd := fun c i upd he => hw ⟨c, i, upd, he⟩
      have hp : ∀ c, e ≠ .pass c := by
        rintro c rfl
        simp [Event.isPass] at hg
      refine .kept (by simp) (fun c i upd he => hne c i upd ?_) (Machine.effect_schedAlert hp hne)
        (.inl rfl)
      cases he
      rfl

theorem kind_eq_raise (h : f.kind e = .raise) : e = .raise := by
  unfold kind at h
  split at h
  · rfl
  · cases h
  · split at h <;> cases h
  · cases h

theorem kind_eq_clear (h : f.kind e = .clear) : ∃ c i upd, e = .other (.setparamWrite c i upd) := by
  unfold kind at h
  split at h
  · cases h
  · exact ⟨_, _, _, rfl⟩
  · split at h <;> cases h
  · cases h

theorem Sole.step (h : f.Sole) (hs : f.step e = some f') : f'.Sole := by
  intro p hp hr
  have hstep := step_alert hs
  cases hstep with
  | raised _ _ _ hpass =>
    rw [hpass] at hp
    cases hp
    cases hr
  | cleared halert => exact halert
  | kept _ _ halert hpass =>
    rw [halert]
    rcases hpass with hsame | hnew
    · rw [hsame] at hp
      exact h p hp hr
    · exact hnew p hp hr

/-- **The alert is a signal.** -/
theorem alert_discipline : Signal.Discipline (@step ncpu) alertUp reports kind Sole where
  inv := Sole.step
  raise := by
    intro f e f' hI hs hk
    cases kind_eq_raise hk
    have hstep := step_alert hs
    cases hstep with
    | raised hp hr halert _ => exact ⟨by simp [alertUp, hI _ hp hr], by simp [alertUp, halert]⟩
    | kept hne => exact absurd rfl hne
  clear := by
    intro f e f' hs hk
    obtain ⟨c, i, upd, rfl⟩ := kind_eq_clear hk
    have hstep := step_alert hs
    cases hstep with
    | cleared halert => simp [alertUp, halert]
    | kept _ hne => exact absurd rfl (hne c i upd)
  keep := by
    intro f e f' hs hr hc
    have hstep := step_alert hs
    cases hstep with
    | raised => exact absurd rfl hr
    | cleared => exact absurd rfl hc
    | kept _ _ halert => simp [alertUp, halert]
  fetch := by
    intro f e hk
    unfold kind at hk
    split at hk
    · cases hk
    · cases hk
    · split at hk
      · next s l hres => simp [reports, hres, alertUp, sysGetschedstats_head hres]
      · cases hk
    · cases hk
  not_fetch := by
    intro f e hk
    unfold reports
    split
    · split
      · next s l hres => simp [kind, hres] at hk
      · rfl
    · rfl

/-- **When an alert is lost**: in every run of passes, `getschedstats`, `setschedparam` and
everything else, an alert goes down unreported if and only if the write of a `setschedparam` comes
after a raise with no `getschedstats` that returned an entry in between. -/
theorem alert_lost_iff (ncpu : Nat) (es : List (FineEvent ncpu)) :
    ((boot ncpu).alerts es).lost = false ↔ ((boot ncpu).calls es).overwritten = false := by
  have hsole : (boot ncpu).Sole := by simp [Sole, boot, ofMachine]
  have hagree : Signal.Agree alertUp (boot ncpu) .start .start :=
    ⟨rfl, rfl, by simp [Signal.Hist.start]⟩
  rw [alerts, calls, Signal.lost_eq_overwritten alert_discipline hsole hagree]

end Fine

/-! ## A run that loses an alert

The game of `PingPong` once more, now with a player that is the agent. The victim waits until it is
found starving, and in its first turn after that the agent calls `setschedparam`. -/

namespace Machine

variable {m : Machine 1} {e : Event 1} {x y : Slot} {w t left : Int}

/-- Up to a wait of 100 nobody is starving. -/
theorem Scene.calm (h : Scene x y w t m) (hw : w < 100) (ha : m.schedp.schedAlert = 0) :
    (m.effect (.pass 0)).schedp.schedAlert = 0 := by
  by_contra hne
  rcases scheduler_schedAlert.mp hne with hup | ⟨j, hj⟩
  · exact hup ha
  · simp only [Proc.starving, ripened_state, Bool.decide_and, Bool.and_eq_true,
      decide_eq_true_eq] at hj
    obtain ⟨hrun, hlong⟩ := hj
    rcases h.contender hrun with rfl | rfl
    · have hwait := h.wait
      have hb := h.bounds
      have := ripened_short_wait (n := 99) hrun (by omega) (by omega) (by omega)
      omega
    · obtain ⟨-, -, hlo, hhi⟩ := h.players.1
      have := ripened_short_wait hrun hlo hhi (by omega)
      omega

/-- The next pass raises the alert. -/
theorem Scene.alarming (h : Scene x y w t m) (hw : 100 ≤ w) (ht : t < 500) :
    (m.effect (.pass 0)).schedp.schedAlert ≠ 0 := by
  refine scheduler_schedAlert.mpr (.inr ⟨0, ?_⟩)
  have hb := h.bounds
  have hwait : (ripened m.toKernel 0).waitTicks = w + 1 := by
    rw [ripened_waitTicks_runnable h.victim.1,
      if_neg fun hd => absurd (h.boostDue_iff.mp hd) (by omega), h.wait,
      i32_eq_self (by omega) (by omega)]
  simp only [Proc.starving, ripened_state, h.victim.1, hwait]
  simp only [gt_iff_lt, true_and, decide_eq_true_eq]
  omega

theorem Scene.turn_calm (h : Scene x y w t m) (hw : w < 100) (ht : t < 500)
    (ha : m.schedp.schedAlert = 0) : ∃ m', m.run (Machine.turn x y) = some m' ∧
      Scene y x (w + 1) (t + 1) m' ∧ m'.schedp.schedAlert = 0 := by
  obtain ⟨m', hrun, hscene, halert, -⟩ := h.turn fun _ => 0
  rw [if_pos ht, if_pos ht] at hscene
  exact ⟨m', hrun, hscene, halert.trans (h.calm hw ha)⟩

/-- An even number of turns. -/
theorem Scene.rounds (h : Scene x y w t m) (ha : m.schedp.schedAlert = 0) (n : Nat)
    (hw : w + 2 * n ≤ 100) (ht : t + 2 * n ≤ 500) :
    ∃ m', m.run (Machine.pingPong (2 * n) x y) = some m' ∧
      Scene x y (w + 2 * n) (t + 2 * n) m' ∧ m'.schedp.schedAlert = 0 := by
  induction n generalizing w t m with
  | zero => exact ⟨m, rfl, by simpa using h, ha⟩
  | succ n ih =>
    obtain ⟨m₁, hrun₁, h₁, ha₁⟩ := h.turn_calm (by omega) (by omega) ha
    obtain ⟨m₂, hrun₂, h₂, ha₂⟩ := h₁.turn_calm (by omega) (by omega) ha₁
    obtain ⟨m₃, hrun₃, h₃, ha₃⟩ := ih h₂ ha₂ (by omega) (by omega)
    refine ⟨m₃, run_append_iff.mpr ⟨m₁, hrun₁,
      run_append_iff.mpr ⟨m₂, hrun₂, hrun₃⟩⟩, ?_, ha₃⟩
    have hcast : ((n + 1 : Nat) : Int) = n + 1 := rfl
    rw [hcast, show w + 2 * ((n : Int) + 1) = w + 1 + 1 + 2 * n by omega,
      show t + 2 * ((n : Int) + 1) = t + 1 + 1 + 2 * n by omega]
    exact h₃

/-- The process in slot 2 is the agent, and has room for a `struct sched_update`. -/
def Agency (m : Machine 1) : Prop :=
  m.schedp.agentPid = 3 ∧ (m.proc 2).pid = 3 ∧ (m.proc 2).sz = 2 * PGSIZE

instance : DecidablePred Agency := fun m => by
  unfold Agency
  infer_instance

/-- Passes, traps, sleeps, wakeups and `getschedstats`. -/
def quiet : Event 1 → Bool
  | .pass _ | .irq _ _ | .telemetry _ _ | .trapEnd _ | .sleep _ _ _ | .wakeup _
  | .getschedstats _ _ _ _ => true
  | _ => false

/-- None of them changes who anybody is. -/
theorem SlotStep.identity {j : Slot} {p : Proc} (hs : SlotStep m e j p) (hq : quiet e = true) :
    p.pid = (m.proc j).pid ∧ p.sz = (m.proc j).sz := by
  cases hs with
  | stirred _ h =>
    exact ⟨h.frame Proc.pid fun _ _ _ _ _ _ => rfl, h.frame Proc.sz fun _ _ _ _ _ _ => rfl⟩
  | passed =>
    exact ⟨scheduler_proc_frame Proc.pid fun _ _ _ _ _ _ _ _ => rfl,
      scheduler_proc_frame Proc.sz fun _ _ _ _ _ _ _ _ => rfl⟩
  | counted =>
    exact ⟨Proc.telemetry_frame Proc.pid fun _ _ _ _ _ _ _ => rfl,
      Proc.telemetry_frame Proc.sz fun _ _ _ _ _ _ _ => rfl⟩
  | yielded | slept => exact ⟨rfl, rfl⟩
  | allocated | aborted | made | resized | waited | pinned | faulted | exited | reaped => cases hq

theorem Agency.run {m' : Machine 1} {es : List (Event 1)} (h : Agency m)
    (hq : ∀ e ∈ es, quiet e = true) (hr : m.run es = some m') : Agency m' := by
  refine run_allowed ?_ hr (allowed_of_forall_mem hq) h
  rintro s e s' ⟨ha, hp, hz⟩ hqe hse
  obtain ⟨hen, rfl⟩ := step_eq_some.mp hse
  obtain ⟨hpid, hsz⟩ := (effect_slot hen 2).identity hqe
  refine ⟨?_, hpid.trans hp, hsz.trans hz⟩
  have hagent := effect_agentPid hen
  generalize (s.effect e).schedp.agentPid = a at hagent
  cases hagent with
  | same => exact ha
  | taken | released => cases hqe

/-- Init makes two children and sleeps. The first child goes to sleep, the second becomes the
agent, sets the parameters and lets init use up its quantum. -/
def agentOpening : List (Event 1) :=
  [.pass 0, .forkAlloc 0 0, .forkDone 0 0 1, .forkAlloc 0 0, .forkDone 0 0 2,
    .sleep 0 0 (.object 0), .pass 0, .sleep 0 1 (.object 1), .pass 0, .registerTest 0 2,
    .registerLock 0 2, .registerPin 0 2, .setparamTest 0 2 PGSIZE slowAging,
    .setparamWrite 0 2 slowAging, .wakeup (.object 0), .sleep 0 2 (.object 2), .pass 0,
    .wakeup (.object 2)] ++ (List.replicate 10 userTick).flatten

theorem agentOpening_scene : ∃ m, (boot 1).run agentOpening = some m ∧ Scene 2 1 0 10 m ∧
    m.schedp.schedAlert = 0 ∧ Agency m := by
  have hstaged : ∃ m ∈ (boot 1).run agentOpening,
      Staged 2 1 0 10 m ∧ m.schedp.schedAlert = 0 ∧ Agency m := by decide +kernel
  obtain ⟨m, hrun, hs, ha, hag⟩ := hstaged
  exact ⟨m, hrun, hs.scene (boot_wf.run hrun), ha, hag⟩

theorem turn_quiet (x y : Slot) : ∀ e ∈ turn x y, quiet e = true := by
  simp [turn, startTurn, endTurn, userTick, quiet]

/-- The machine just before the alert: the agent is about to be dispatched again. -/
theorem reach_alarm : ∃ es m, (boot 1).run es = some m ∧ Scene 2 1 100 110 m ∧
    m.schedp.schedAlert = 0 ∧ Agency m := by
  obtain ⟨m₀, hrun₀, h₀, ha₀, hag⟩ := agentOpening_scene
  obtain ⟨m₁, hrun₁, h₁, ha₁⟩ := h₀.rounds ha₀ 50 (by decide) (by decide)
  exact ⟨_, m₁, run_append_iff.mpr ⟨m₀, hrun₀, hrun₁⟩, h₁, ha₁,
    hag.run (forall_mem_pingPong turn_quiet _ _ _) hrun₁⟩

/-- Dispatched, the agent passes the tests of `setschedparam` and writes. -/
theorem Scene.actuates (h : Scene 2 1 w t m) (hag : Agency m) :
    ∃ m₁ m₂, (m.effect (.pass 0)).step (.setparamTest 0 2 PGSIZE slowAging) = some m₁ ∧
      m₁.step (.setparamWrite 0 2 slowAging) = some m₂ := by
  have hturn := h.pass
  have hrun : m.run [.pass 0] = some (m.effect (.pass 0)) := by
    have hen : m.Enabled (.pass 0) := ⟨h.idle.1, h.idle.2, h.unlocked⟩
    simp only [Machine.run, Transition.run, step_of_enabled hen, Option.bind_some]
  obtain ⟨ha, hp, hz⟩ := hag.run (by simp [quiet]) hrun
  have htest : setschedparamTest (m.effect (.pass 0)).toKernel 2 PGSIZE slowAging = true :=
    setschedparamTest_iff.mpr ⟨⟨by rw [ha]; decide, by rw [ha, hp]⟩,
      ⟨Nat.le_refl _, by rw [hz]; decide⟩, slowAging_accepted⟩
  have hen₁ : (m.effect (.pass 0)).Enabled (.setparamTest 0 2 PGSIZE slowAging) :=
    ⟨hturn.cpu, hturn.intr, hturn.ctl.1⟩
  exact ⟨_, _, step_of_enabled hen₁, step_of_enabled ((setparamTest_enables hen₁).mpr htest)⟩

end Machine

namespace Fine

variable {e : FineEvent ncpu}

theorem mem_ageEvents {k : Kernel} {l : List Slot} (h : e ∈ ageEvents k l) :
    e = .age ∨ e = .raise := by
  induction l generalizing k with
  | nil => cases h
  | cons i l ih =>
    rw [ageEvents] at h
    split_ifs at h
    · rcases mem_cons.mp h with rfl | h
      · exact .inl rfl
      · rcases mem_cons.mp h with rfl | h
        · exact .inr rfl
        · exact ih h
    · rcases mem_cons.mp h with rfl | h
      · exact .inl rfl
      · exact ih h

/-- The pieces of a pass neither report the alert nor clear it. -/
theorem pieces_pass_kind {m : Machine ncpu} {c : Fin ncpu} (h : e ∈ pieces m (.pass c))
    (f : Fine ncpu) : f.kind e ≠ .fetch ∧ f.kind e ≠ .clear := by
  rcases mem_cons.mp h with rfl | h
  · exact ⟨by simp [kind], by simp [kind]⟩
  · rcases mem_append.mp h with h | h
    · rcases mem_ageEvents h with rfl | rfl <;> exact ⟨by simp [kind], by simp [kind]⟩
    · cases mem_singleton.mp h
      exact ⟨by simp [kind], by simp [kind]⟩

/-- Only a clearing step takes the alert down. -/
theorem alertUp_kept {f f' : Fine ncpu} (hs : f.step e = some f') (hk : f.kind e ≠ .clear)
    (hf : f.alertUp = true) : f'.alertUp = true := by
  have hstep := step_alert hs
  cases hstep with
  | raised _ _ halert => simp [alertUp, halert]
  | cleared => exact absurd rfl hk
  | kept _ _ halert => simpa [alertUp, halert] using hf

/-- **Alerts are lost**: not every alert is reported before it is cleared. -/
theorem not_all_alerts_reported :
    ¬ ∀ (ncpu : Nat) (es : List (FineEvent ncpu)), ((boot ncpu).alerts es).lost = false := by
  intro hall
  obtain ⟨es, m, hrun, hscene, halert, hag⟩ := Machine.reach_alarm
  obtain ⟨m₁, m₂, htest, hwrite⟩ := hscene.actuates hag
  have hen : m.Enabled (.pass 0) := ⟨hscene.idle.1, hscene.idle.2, hscene.unlocked⟩
  have hlift : (boot 1).run (lift (Machine.boot 1) es) = some (ofMachine m) := run_lift hrun
  have hup : (ofMachine (m.effect (.pass 0))).alertUp = true :=
    decide_eq_true (hscene.alarming (by decide) (by decide))
  have htest' := step_other htest rfl
  have hwrite' := step_other hwrite rfl
  have hup₁ := alertUp_kept htest' (by simp [kind]) hup
  have hdown := alert_discipline.clear hwrite' rfl
  -- the pass raises the alert, and nobody has read it
  have hraised : ∀ g, (track step (Signal.Hist.update step alertUp reports)
      (ofMachine m) g (pieces m (.pass 0))).unseen = true := by
    intro g
    refine Signal.unseen_of_raised ?_ ?_ (run_pass hen) ?_ hup
    · exact fun e he f => alert_discipline.not_fetch (pieces_pass_kind he f).1
    · exact fun e he f f' hs hf => alertUp_kept hs (pieces_pass_kind he f).2 hf
    · simp [alertUp, ofMachine, halert]
  -- so the write loses it
  have hlost := hall 1 (lift (Machine.boot 1) es ++ (pieces m (.pass 0) ++
    [.other (.setparamTest 0 2 PGSIZE slowAging), .other (.setparamWrite 0 2 slowAging)]))
  rw [alerts, track_append hlift, track_append (run_pass hen),
    track_cons htest', track_cons hwrite', track] at hlost
  have hseen := hraised (track step (Signal.Hist.update step alertUp reports)
    (boot 1) .start (lift (Machine.boot 1) es))
  generalize track step (Signal.Hist.update step alertUp reports) (ofMachine m) _
    (pieces m (.pass 0)) = g at hlost hseen
  simp [Signal.Hist.update, htest', hwrite', hup, hup₁, hdown, reports, hseen] at hlost

end Fine

end Xv6.Sched
