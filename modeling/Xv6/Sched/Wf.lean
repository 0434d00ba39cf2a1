import Xv6.Sched.Step

/-!
# Well-formed machines

The bookkeeping every other invariant rests on: who is running where, which processes can be in
the middle of a system call, who owns a half-made child, and where a killed process can be.
-/

namespace Xv6.Sched

/-- A process that has been created and has not exited. -/
def Procstate.live : Procstate → Prop
  | .sleeping | .runnable | .running => True
  | _ => False

namespace Machine

variable {ncpu : Nat} {m : Machine ncpu} {e : Event ncpu}

/-- The invariant. -/
structure WF (m : Machine ncpu) : Prop where
  cpu_running : ∀ c i, m.cpu c = some i → (m.proc i).state = .running
  running_cpu : ∀ i, (m.proc i).state = .running → ∃ c, m.cpu c = some i
  cpu_inj : ∀ c c' i, m.cpu c = some i → m.cpu c' = some i → c = c'
  ctl_live : ∀ i, m.ctl i ≠ .elsewhere → (m.proc i).state.live
  forking_embryo : ∀ i np, m.ctl i = .forking np → (m.proc np).state = .embryo
  forking_inj : ∀ i j np, m.ctl i = .forking np → m.ctl j = .forking np → i = j
  killed_exiting : ∀ i, (m.proc i).killed = true →
    m.ctl i = .exiting ∨ m.ctl i = .released ∨ (m.proc i).state = .zombie
  user_elsewhere : ∀ c i, m.cpu c = some i →
    m.intr c = some (.entered true) ∨ m.intr c = some (.counted true) → m.ctl i = .elsewhere
  released_locked : ∀ i, m.ctl i = .released → m.ptableLocked = true
  released_inj : ∀ i j, m.ctl i = .released → m.ctl j = .released → i = j

theorem boot_wf : (boot ncpu).WF where
  cpu_running := by simp [boot]
  running_cpu := by
    intro i
    simp only [boot, bootKernel, allocproc, Kernel.setProc_proc]
    split_ifs <;> simp [Proc.zero]
  cpu_inj := by simp [boot]
  ctl_live := by simp [boot]
  forking_embryo := by simp [boot]
  forking_inj := by simp [boot]
  killed_exiting := by
    intro i
    simp only [boot, bootKernel, allocproc, Kernel.setProc_proc]
    split_ifs <;> simp [Proc.zero]
  user_elsewhere := by simp [boot]
  released_locked := by simp [boot]
  released_inj := by simp [boot]

theorem bootWith_wf {P : SchedUpdate} : (bootWith P ncpu).WF := by
  obtain ⟨h₁, h₂, h₃, h₄, h₅, h₆, h₇, h₈, h₉, h₁₀⟩ : (boot ncpu).WF := boot_wf
  exact ⟨h₁, h₂, h₃, h₄, h₅, h₆, h₇, h₈, h₉, h₁₀⟩

/-! ## One step -/

variable {j i np : Slot} {p : Proc} {c : Fin ncpu}

theorem WF.live_slot (h : m.WF) (hs : SlotStep m e j p) (hlive : (m.proc j).state.live)
    (hz : ∀ c, e ≠ .exitZombie c j) : p.state.live := by
  cases hs with
  | stirred _ hs =>
    rcases hs.state with hst | ⟨-, hst⟩
    · rwa [hst]
    · rw [hst]; trivial
  | passed =>
    rw [scheduler_state]
    split
    · trivial
    · exact hlive
  | counted => rwa [Proc.telemetry_state]
  | allocated hu => rw [freeSlot_unused hu] at hlive; cases hlive
  | aborted hc => rw [h.forking_embryo _ _ hc] at hlive; cases hlive
  | exited => exact absurd rfl (hz _)
  | reaped hzb => rw [hzb] at hlive; cases hlive
  | yielded | made | slept | waited => trivial
  | resized | pinned | faulted => exact hlive

/-- A slot comes into use by allocation only. -/
theorem WF.used_slot (h : m.WF) (hs : SlotStep m e j p) (hp : p.state ≠ .unused)
    (hj : (m.proc j).state = .unused) :
    freeSlot m.proc = some j ∧ (∃ c i, e = .forkAlloc c i) ∧
      p = (allocproc j m.toKernel).proc j := by
  have hcpu : ∀ c, m.cpu c ≠ some j := by
    intro c hc
    rw [h.cpu_running c j hc] at hj
    cases hj
  cases hs with
  | stirred _ hs =>
    rw [hs.state_eq (by simp [hj])] at hp
    exact absurd hj hp
  | passed =>
    rw [scheduler_state] at hp
    split at hp
    · next hpick => rw [picked_runnable hpick] at hj; cases hj
    · exact absurd hj hp
  | allocated hfree => exact ⟨hfree, ⟨_, _, rfl⟩, rfl⟩
  | made hctl => rw [h.forking_embryo _ _ hctl] at hj; cases hj
  | aborted | reaped => exact absurd rfl hp
  | counted hc | yielded hc | resized hc | slept hc | waited hc | pinned hc | faulted hc
  | exited hc => exact absurd hc (hcpu _)

theorem WF.effect_occupied (h : m.WF) (he : m.Enabled e) :
    (∀ c i, (m.effect e).cpu c = some i → ((m.effect e).proc i).state = .running) ∧
    (∀ i, ((m.effect e).proc i).state = .running → ∃ c, (m.effect e).cpu c = some i) ∧
    ∀ c c' i, (m.effect e).cpu c = some i → (m.effect e).cpu c' = some i → c = c' := by
  obtain ⟨hcr, hrc, hinj, -⟩ := id h
  rcases effect_cpu h.forking_embryo he with ⟨hcpu, hrun⟩ | ⟨c₀, i₀, hc₀, hcpu, hrun⟩ |
    ⟨c₀, rfl, hc₀, -, hcpu, hrun⟩
  · simp only [hcpu, hrun]
    exact ⟨hcr, hrc, hinj⟩
  · simp only [hcpu, hrun, Function.update_apply]
    grind
  · have hpick : ∀ i, picked m.toKernel = some i → (m.proc i).state ≠ .running := by
      intro i hi
      simp [picked_runnable hi]
    simp only [hcpu, hrun, Function.update_apply]
    grind

/-- A process on a CPU is live after any step but its own `exitZombie`. -/
theorem WF.effect_live (h : m.WF) (he : m.Enabled e) (hc : m.cpu c = some j)
    (hz : ∀ c, e ≠ .exitZombie c j) : ((m.effect e).proc j).state.live := by
  refine h.live_slot (effect_slot he j) ?_ hz
  rw [h.cpu_running c j hc]
  trivial

theorem WF.effect_ctl_live (h : m.WF) (he : m.Enabled e) (i : Slot)
    (hi : (m.effect e).ctl i ≠ .elsewhere) : ((m.effect e).proc i).state.live := by
  have hctl := effect_ctl he i
  generalize (m.effect e).ctl i = x at hi hctl
  cases hctl with
  | same hne =>
    refine h.live_slot (effect_slot he i) (h.ctl_live i hi) fun c hz => ?_
    exact hne (by rw [hz]; rfl)
  | returned => exact absurd rfl hi
  | exited => exact absurd rfl hi
  | killed hc => exact h.effect_live he hc (by simp)
  | forked hat | tested hat | taken hat | accepted hat | faulted hat | exitCalled hat
  | released hat => exact h.effect_live he hat.1 (by simp)

/-- A child in the making stays an EMBRYO until its own `fork` moves on. -/
theorem WF.embryo_slot (h : m.WF) (hs : SlotStep m e np p) (hi : m.ctl i = .forking np)
    (hcaller : e.caller ≠ some i) : p.state = .embryo := by
  have hemb := h.forking_embryo i np hi
  -- Nothing that happens to processes on a CPU happens to an EMBRYO.
  have hcpu : ∀ c, m.cpu c ≠ some np := by
    intro c hc
    rw [h.cpu_running c np hc] at hemb
    cases hemb
  cases hs with
  | stirred _ hs => rw [hs.state_eq (by simp [hemb]), hemb]
  | passed =>
    rw [scheduler_state, if_neg, hemb]
    intro hpick
    rw [picked_runnable hpick] at hemb
    cases hemb
  | allocated hu => rw [freeSlot_unused hu] at hemb; cases hemb
  | aborted hc => exact absurd (congrArg some (h.forking_inj _ _ _ hc hi)) hcaller
  | made hc => exact absurd (congrArg some (h.forking_inj _ _ _ hc hi)) hcaller
  | reaped hz => rw [hz] at hemb; cases hemb
  | counted hc | yielded hc | resized hc | slept hc | waited hc | pinned hc | faulted hc
  | exited hc => exact absurd hc (hcpu _)

theorem forkAlloc_embryo (h : freeSlot m.proc = some np) :
    ((m.effect (.forkAlloc c i)).proc np).state = .embryo := by
  simp [effect, h, allocproc]

theorem WF.effect_forking (h : m.WF) (he : m.Enabled e) :
    (∀ i np, (m.effect e).ctl i = .forking np → ((m.effect e).proc np).state = .embryo) ∧
    ∀ i j np, (m.effect e).ctl i = .forking np → (m.effect e).ctl j = .forking np → i = j := by
  -- A process is `forking np` after the step because it was before, or because it just allocated.
  have hinv : ∀ i np, (m.effect e).ctl i = .forking np →
      m.ctl i = .forking np ∧ e.caller ≠ some i ∨
      ∃ c, e = .forkAlloc c i ∧ freeSlot m.proc = some np := by
    intro i np hi
    have hctl := effect_ctl he i
    generalize (m.effect e).ctl i = x at hi hctl
    cases hctl with
    | same hne => exact .inl ⟨hi, hne⟩
    | forked hat hfree =>
      cases hi
      exact .inr ⟨_, rfl, hfree⟩
    | _ => cases hi
  refine ⟨fun i np hi => ?_, fun i j np hi hj => ?_⟩
  · rcases hinv i np hi with ⟨hold, hne⟩ | ⟨c, rfl, hfree⟩
    · exact h.embryo_slot (effect_slot he np) hold hne
    · exact forkAlloc_embryo hfree
  · have hold_new : ∀ i', m.ctl i' = .forking np → freeSlot m.proc ≠ some np := by
      intro i' hi' hfree
      have hemb := h.forking_embryo i' np hi'
      rw [freeSlot_unused hfree] at hemb
      cases hemb
    rcases hinv i np hi with ⟨hi', -⟩ | ⟨c, rfl, hfree⟩
    · rcases hinv j np hj with ⟨hj', -⟩ | ⟨c, rfl, hfree⟩
      · exact h.forking_inj i j np hi' hj'
      · exact absurd hfree (hold_new i hi')
    · rcases hinv j np hj with ⟨hj', -⟩ | ⟨c', heq, -⟩
      · exact absurd hfree (hold_new j hj')
      · cases heq
        rfl

theorem SlotStep.killed (hs : SlotStep m e j p) (hk : p.killed = true) :
    (m.proc j).killed = true ∨ ∃ c pf, e = .fault c j pf := by
  cases hs with
  | stirred _ hs => exact .inl (hs.frame Proc.killed (fun _ _ _ _ _ _ => rfl) ▸ hk)
  | passed => exact .inl (scheduler_proc_frame Proc.killed (fun _ _ _ _ _ _ _ _ => rfl) ▸ hk)
  | counted => exact .inl (Proc.telemetry_frame Proc.killed (fun _ _ _ _ _ _ _ => rfl) ▸ hk)
  | allocated => exact .inl (by simpa [allocproc] using hk)
  | faulted => exact .inr ⟨_, _, rfl⟩
  | exited _ _ hs => exact .inl (hs.frame Proc.killed (fun _ _ _ _ _ _ => rfl) ▸ hk)
  | reaped => cases hk
  | yielded | aborted | made | resized | slept | waited | pinned => exact .inl hk

/-- A ZOMBIE stays one until it is reaped, and a reaped slot is not killed. -/
theorem WF.zombie_slot (h : m.WF) (hs : SlotStep m e j p) (hz : (m.proc j).state = .zombie)
    (hk : p.killed = true) : p.state = .zombie := by
  have hcpu : ∀ c, m.cpu c ≠ some j := by
    intro c hc
    rw [h.cpu_running c j hc] at hz
    cases hz
  cases hs with
  | stirred _ hs => rw [hs.state_eq (by simp [hz]), hz]
  | passed =>
    rw [scheduler_state, if_neg, hz]
    intro hpick
    rw [picked_runnable hpick] at hz
    cases hz
  | allocated hu => rw [freeSlot_unused hu] at hz; cases hz
  | aborted hc => rw [h.forking_embryo _ _ hc] at hz; cases hz
  | made hc => rw [h.forking_embryo _ _ hc] at hz; cases hz
  | reaped => cases hk
  | counted hc | yielded hc | resized hc | slept hc | waited hc | pinned hc | faulted hc
  | exited hc => exact absurd hc (hcpu _)

theorem exitZombie_zombie : ((m.effect (.exitZombie c i)).proc i).state = .zombie := by
  obtain ⟨p, -, hz⟩ := zombify_proc i m.toKernel i
  simp [effect, hz]

/-- Inside `exit` there is no way back. -/
theorem effect_exiting (he : m.Enabled e) (hi : m.ctl i = .exiting ∨ m.ctl i = .released) :
    (m.effect e).ctl i = .exiting ∨ (m.effect e).ctl i = .released ∨
      ((m.effect e).proc i).state = .zombie := by
  have hctl := effect_ctl he i
  generalize (m.effect e).ctl i = x at hctl
  cases hctl with
  | same => exact hi.elim .inl (.inr ∘ .inl)
  | returned _ _ h1 h2 => exact (hi.elim h1 h2).elim
  | forked hat | tested hat | taken hat | accepted hat => simp [hat.2.2] at hi
  | faulted | exitCalled | killed => exact .inl rfl
  | released => exact .inr (.inl rfl)
  | exited => exact .inr (.inr exitZombie_zombie)

/-- A killed process is on its way through `exit`. -/
theorem WF.effect_killed (h : m.WF) (he : m.Enabled e) (i : Slot)
    (hk : ((m.effect e).proc i).killed = true) :
    (m.effect e).ctl i = .exiting ∨ (m.effect e).ctl i = .released ∨
      ((m.effect e).proc i).state = .zombie := by
  rcases (effect_slot he i).killed hk with hold | ⟨c, pf, rfl⟩
  · rcases h.killed_exiting i hold with hx | hr | hz
    · exact effect_exiting he (.inl hx)
    · exact effect_exiting he (.inr hr)
    · exact .inr (.inr (h.zombie_slot (effect_slot he i) hz hk))
  · exact .inl (by simp [effect])

/-- A CPU inside a trap had its process before the step. -/
theorem effect_cpu_of_trap (hfork : ∀ i np, m.ctl i = .forking np → (m.proc np).state = .embryo)
    (he : m.Enabled e) (hc : (m.effect e).cpu c = some i) (hpass : e ≠ .pass c) :
    m.cpu c = some i := by
  rcases effect_cpu hfork he with ⟨hcpu, -⟩ | ⟨c₀, i₀, hc₀, hcpu, -⟩ | ⟨c₀, rfl, -, -, hcpu, -⟩
  · rwa [hcpu] at hc
  · rw [hcpu, Function.update_apply] at hc
    split at hc
    · cases hc
    · exact hc
  · have hne : c ≠ c₀ := fun h => hpass (by rw [h])
    rwa [hcpu, Function.update_of_ne hne] at hc

/-- A trap from user mode finds its process in user code for as long as it lasts. -/
theorem WF.effect_user (h : m.WF) (he : m.Enabled e) (c : Fin ncpu) (i : Slot)
    (hc : (m.effect e).cpu c = some i)
    (hu : (m.effect e).intr c = some (.entered true) ∨ (m.effect e).intr c = some (.counted true)) :
    (m.effect e).ctl i = .elsewhere := by
  -- The step leaves the CPU its process, which was in user code, and has no say over it: either
  -- the CPU was in the trap already, or the step is the interrupt or the telemetry update itself.
  obtain ⟨hold, hctl, hin⟩ : m.cpu c = some i ∧ m.ctl i = .elsewhere ∧
      (e ≠ .trapEnd c ∧ m.intr c ≠ none ∨ e.caller = none ∧ ∀ c, e ≠ .trapEnd c) := by
    have hintr := effect_intr he c
    generalize (m.effect e).intr c = x at hu hintr
    cases hintr with
    | same hne =>
      have hin : m.intr c ≠ none := by rcases hu with hu | hu <;> simp [hu]
      have hold := effect_cpu_of_trap h.forking_embryo he hc (by rintro rfl; exact hin he.2.1)
      exact ⟨hold, h.user_elsewhere c i hold hu, .inl ⟨fun h => hne (by rw [h]; rfl), hin⟩⟩
    | entered hnone hint =>
      have hold := effect_cpu_of_trap h.forking_embryo he hc (by simp)
      rw [Interruptible, hold] at hint
      exact ⟨hold, hint.2 (by simpa using hu), .inr ⟨rfl, by simp⟩⟩
    | counted hent =>
      have hold := effect_cpu_of_trap h.forking_embryo he hc (by simp)
      simp only [reduceCtorEq, Option.some.injEq, Intr.counted.injEq, false_or] at hu
      rw [hu] at hent
      exact ⟨hold, h.user_elsewhere c i hold (.inl hent), .inr ⟨rfl, by simp⟩⟩
    | left => simp at hu
  have hstep := effect_ctl he i
  generalize (m.effect e).ctl i = x at hstep
  have hat : ∀ c' x, m.At c' i x → e.caller = none := by
    intro c' x hat
    cases h.cpu_inj c c' i hold hat.1
    exact hin.elim (fun hin => absurd hat.2.1 hin.2) (·.1)
  cases hstep with
  | same => exact hctl
  | returned | exited => rfl
  | killed hc' =>
    cases h.cpu_inj _ _ _ hc' hold
    exact absurd rfl (hin.elim (·.1) (·.2 _))
  | forked hat' | tested hat' | accepted hat' | faulted hat' | exitCalled hat' | taken hat'
  | released hat' => cases hat _ _ hat'

/-- A process past the agent slot's release was there before, or has just released. -/
theorem released_of_effect (he : m.Enabled e) (hi : (m.effect e).ctl i = .released) :
    m.ctl i = .released ∧ e.caller ≠ some i ∨ ∃ c, e = .exitRelease c i := by
  have hctl := effect_ctl he i
  generalize (m.effect e).ctl i = x at hi hctl
  cases hctl with
  | same hne => exact .inl ⟨hi, hne⟩
  | released => exact .inr ⟨_, rfl⟩
  | _ => cases hi

/-- `exit` holds `ptable.lock` from the agent slot's release to its end, and it is the only one
to hold it across steps. -/
theorem WF.effect_released (h : m.WF) (he : m.Enabled e) :
    (∀ i, (m.effect e).ctl i = .released → (m.effect e).ptableLocked = true) ∧
    ∀ i j, (m.effect e).ctl i = .released → (m.effect e).ctl j = .released → i = j := by
  -- While one process is inside, the lock keeps every other one from entering.
  have hexcl : ∀ i c j, m.ctl i = .released → e ≠ .exitRelease c j := by
    rintro i c j hi rfl
    have hl := h.released_locked i hi
    rw [he.2] at hl
    cases hl
  refine ⟨fun i hi => ?_, fun i j hi hj => ?_⟩
  · rcases released_of_effect he hi with ⟨hold, hne⟩ | ⟨c, rfl⟩
    · rw [effect_ptableLocked (hexcl i · · hold)]
      · exact h.released_locked i hold
      · rintro c j rfl
        exact hne (congrArg some (h.released_inj j i he.2.2 hold))
    · rfl
  · rcases released_of_effect he hi with ⟨hi', -⟩ | ⟨c, rfl⟩
    · rcases released_of_effect he hj with ⟨hj', -⟩ | ⟨c, rfl⟩
      · exact h.released_inj i j hi' hj'
      · exact absurd rfl (hexcl i c j hi')
    · rcases released_of_effect he hj with ⟨hj', -⟩ | ⟨c', heq⟩
      · exact absurd rfl (hexcl j c i hj')
      · cases heq
        rfl

/-- **Every step keeps the machine well formed.** -/
theorem WF.effect (h : m.WF) (he : m.Enabled e) : (m.effect e).WF := by
  obtain ⟨hcr, hrc, hinj⟩ := h.effect_occupied he
  obtain ⟨hfe, hfi⟩ := h.effect_forking he
  obtain ⟨hrl, hri⟩ := h.effect_released he
  exact ⟨hcr, hrc, hinj, h.effect_ctl_live he, hfe, hfi, h.effect_killed he, h.effect_user he,
    hrl, hri⟩

theorem WF.yields_iff (h : m.WF) (hc : m.cpu c = some i) :
    m.yields c i ↔ (m.proc i).ticksRemaining ≤ 0 := by
  rw [Machine.yields_iff]
  refine ⟨fun hy => hy.2.2, fun hle => ⟨?_, h.cpu_running c i hc, hle⟩⟩
  rintro ⟨hk, hu⟩
  have hctl := h.user_elsewhere c i hc (.inr hu)
  rcases h.killed_exiting i hk with hx | hx | hx
  · rw [hctl] at hx; cases hx
  · rw [hctl] at hx; cases hx
  · rw [h.cpu_running c i hc] at hx; cases hx

theorem WF.run {m m' : Machine ncpu} {es : List (Event ncpu)} (h : m.WF)
    (hr : m.run es = some m') : m'.WF := by
  refine Transition.run_invariant ?_ hr h
  intro s e s' hs hse
  obtain ⟨hen, rfl⟩ := step_eq_some.mp hse
  exact hs.effect hen

end Machine

end Xv6.Sched
