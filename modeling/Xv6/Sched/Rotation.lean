import Xv6.Common.Rotation
import Xv6.Sched.Starvation

/-!
# Round-robin passes over one process

With `rr_mode = 1` a pass scans the table from `rr_next` on and leaves `rr_next` behind the process
it dispatches. That is the rotating scan of `Common.Rotation`, so a process that stays RUNNABLE is
dispatched within `NPROC` passes and overtaken at most once by each other slot.

Between two passes the table may change in any way: only `rr_next` has to survive, and nothing but
a pass writes it (`effect_rrNext`).
-/

namespace Xv6.Sched

variable {k : ℕ → Kernel} {p : Slot} {n m : ℕ}

/-- The eligible slots of a round-robin scan. -/
def Kernel.runnable (k : Kernel) (i : Slot) : Bool := (k.proc i).state = .runnable

theorem picked_eq_next {k : Kernel} (h : k.schedp.rrMode ≠ 0) :
    picked k = Rotation.next k.rrNext k.runnable := by
  rw [picked_rr h, selectRr_congr (fun _ => ripened_state), selectRr]
  rfl

/-- Consecutive round-robin passes, `p` RUNNABLE at each until it is dispatched. `k n` is the kernel
the `n`-th pass finds. -/
structure RrPasses (p : Slot) (k : ℕ → Kernel) : Prop where
  rr : ∀ n < NPROC, (k n).schedp.rrMode = 1
  rrNext : ∀ n < NPROC, (k (n + 1)).rrNext = (scheduler (k n)).1.rrNext
  stays : ∀ n < NPROC, (∀ m < n, picked (k m) ≠ some p) → ((k n).proc p).state = .runnable

namespace RrPasses

theorem picked_eq (h : RrPasses p k) (hn : n < NPROC) :
    picked (k n) = Rotation.next (k n).rrNext (k n).runnable := by
  apply picked_eq_next
  rw [h.rr n hn]
  decide

theorem turns (h : RrPasses p k) :
    Rotation.Turns p (fun n => (k n).rrNext) (fun n => (k n).runnable) where
  move n hn b hb := by
    have hrr : (k n).schedp.rrMode ≠ 0 := by
      rw [h.rr n hn]
      decide
    rw [h.rrNext n hn, scheduler_rrNext hrr, h.picked_eq hn, hb]
    rfl
  stays n hn hmiss := by
    apply decide_eq_true
    refine h.stays n hn (fun m hm => ?_)
    rw [h.picked_eq (hm.trans hn)]
    exact hmiss m hm

end RrPasses

/-- **Bounded bypass**: `p` is dispatched within `NPROC` passes, and before that no slot is
dispatched by two of them. -/
theorem rr_bounded_bypass (h : RrPasses p k) : ∃ n < NPROC, picked (k n) = some p ∧
    ∀ b, ∀ j < n, ∀ i < j, picked (k i) = some b → picked (k j) ≠ some b := by
  obtain ⟨n, hn, htaken, hmiss⟩ := h.turns.taken
  refine ⟨n, hn, ?_, ?_⟩
  · rw [h.picked_eq hn]
    exact htaken
  · intro b j hj i hij hi
    rw [h.picked_eq (hj.trans hn)]
    rw [h.picked_eq ((hij.trans hj).trans hn)] at hi
    exact h.turns.once hn.le hmiss hij hj hi

/-- Processes 3 and 5, and the scan about to start at `r`. -/
def pair (r : Slot) : Kernel where
  proc i := if i = 3 ∨ i = 5 then { Proc.zero with state := .runnable } else Proc.zero
  schedp := { pinit with rrMode := 1 }
  nextpid := 6
  ticks := 0
  initproc := 3
  lastBoostTick := 0
  rrNext := r

theorem picked_pair_four : picked (pair 4) = some 5 := by
  rw [picked_eq_next (by decide)]
  decide

theorem picked_pair_six : picked (pair 6) = some 3 := by
  rw [picked_eq_next (by decide)]
  decide

/-- They take turns, and 3 has to wait for 5 once. -/
theorem pair_take_turns : ∃ n < NPROC, picked (pair (if n % 2 = 0 then 4 else 6)) = some 3 ∧
    ∀ b, ∀ j < n, ∀ i < j, picked (pair (if i % 2 = 0 then 4 else 6)) = some b →
      picked (pair (if j % 2 = 0 then 4 else 6)) ≠ some b := by
  have hrr : ∀ r, (pair r).schedp.rrMode ≠ 0 := fun r => by
    show (1 : Int) ≠ 0
    decide
  refine rr_bounded_bypass (k := fun n => pair (if n % 2 = 0 then 4 else 6)) ⟨?_, ?_, ?_⟩
  · intro n hn
    rfl
  · intro n hn
    rw [scheduler_rrNext (hrr _)]
    rcases Nat.mod_two_eq_zero_or_one n with h | h
    · have hnext : ¬ (n + 1) % 2 = 0 := by omega
      rw [if_pos h, if_neg hnext, picked_pair_four]
      rfl
    · have hnow : ¬ n % 2 = 0 := by omega
      have hnext : (n + 1) % 2 = 0 := by omega
      rw [if_neg hnow, if_pos hnext, picked_pair_six]
      rfl
  · intro n hn hmiss
    rfl

/-! ## Passes of a run -/

namespace Machine

open Rotation Transition

variable {ncpu : Nat} {m m' : Machine ncpu} {e : Event ncpu} {es : List (Event ncpu)}

theorem effect_rrNext (hp : ∀ c, e ≠ .pass c) : (m.effect e).rrNext = m.rrNext := by
  by_cases hg : e.writesGlobals = false
  · exact effect_frame Kernel.rrNext (fun _ _ => rfl) hg
  · cases e with
    | pass c => exact absurd rfl (hp c)
    | irq c user =>
      simp only [effect, irq]
      split <;> rfl
    | forkAlloc c i =>
      simp only [effect]
      split <;> rfl
    | registerLock c i =>
      simp only [effect]
      split <;> rfl
    | setparamWrite c i upd => rfl
    | exitRelease c i =>
      simp only [effect, goto, onKernel, releaseAgentSlot]
      split <;> rfl
    | _ => exact absurd rfl hg

/-- How often a process was passed over, and how far it still is ahead of the scan. -/
def RrWait (m : Machine ncpu) (g : Slot → Nat) : Prop :=
  m.WF ∧ ∀ i, g i = 0 ∨
    (m.proc i).state = .runnable ∧ g i + ahead m.rrNext i < NPROC

theorem RrWait.pass {g : Slot → Nat} {c : Fin ncpu} (h : m.RrWait g) (he : m.Enabled (.pass c))
    (hrr : m.schedp.rrMode ≠ 0) : (m.effect (.pass c)).RrWait (passedOver g m (.pass c)) := by
  refine ⟨h.1.effect he, fun i => ?_⟩
  simp only [passedOver]
  split
  · next hover =>
    obtain ⟨hrun, hmiss⟩ := hover
    have hnext := picked_eq_next hrr
    have hi : m.runnable i = true := decide_eq_true hrun
    obtain ⟨b, hb⟩ := exists_next (r := m.rrNext) hi
    have hne : b ≠ i := by
      rintro rfl
      exact hmiss (hnext.trans hb)
    -- the scan stops before `i`, so the way to `i` is shorter by at least one
    have hway := ahead_le_of_next hb hi
    have hstep := ahead_add_one hne
    have hold : g i + ahead m.rrNext i < NPROC := by
      rcases h.2 i with hzero | hwait
      · rw [hzero, Nat.zero_add]
        exact ahead_lt _ _
      · exact hwait.2
    have hmove : (scheduler m.toKernel).1.rrNext = b + 1 := by
      rw [scheduler_rrNext hrr, hnext, hb]
      rfl
    refine .inr ⟨?_, ?_⟩
    · show ((scheduler m.toKernel).1.proc i).state = .runnable
      rw [scheduler_state, if_neg hmiss, hrun]
    · show g i + 1 + ahead (scheduler m.toKernel).1.rrNext i < NPROC
      rw [hmove]
      omega
  · exact .inl rfl

theorem RrWait.step {g : Slot → Nat} (h : m.RrWait g) (hrr : m.schedp.rrMode ≠ 0)
    (hs : m.step e = some m') : m'.RrWait (passedOver g m e) := by
  obtain ⟨he, rfl⟩ := step_eq_some.mp hs
  by_cases hpass : ∃ c, e = .pass c
  · obtain ⟨c, rfl⟩ := hpass
    exact h.pass he hrr
  · push Not at hpass
    have hsame : passedOver g m e = g := by
      cases e with
      | pass c => exact absurd rfl (hpass c)
      | _ => rfl
    rw [hsame]
    refine ⟨h.1.effect he, fun i => (h.2 i).imp_right fun hi => ⟨?_, ?_⟩⟩
    · exact h.1.slot_runnable (effect_slot he i) hpass hi.1
    · rw [effect_rrNext hpass]
      exact hi.2

/-- **Round robin starves nobody**: while `rr_mode` is on, a process is passed over fewer than
`NPROC` times in a row, whatever the other processes and the CPUs do. -/
theorem rr_passedOver_lt (hwf : m.WF) (h : m.run es = some m')
    (hrr : Along step (fun m => m.schedp.rrMode ≠ 0) m es) (i : Slot) :
    track step passedOver m (fun _ => 0) es i < NPROC := by
  have hwait : m'.RrWait (track step passedOver m (fun _ => 0) es) :=
    run_track (fun _ _ _ _ hs hC hse => hs.step hC hse) h hrr.allowed
      ⟨hwf, fun _ => .inl rfl⟩
  rcases hwait.2 i with hzero | hi
  · rw [hzero]
    decide
  · omega

/-- Init forks, sleeps and is woken; the scan goes on behind it and takes its child. -/
theorem contestSession_rr : ∃ m' ∈ (bootWith { pinit.toSchedUpdate with rrMode := 1 } 1).run
      contestSession, (m'.proc 1).state = .running ∧
    track step passedOver (bootWith { pinit.toSchedUpdate with rrMode := 1 } 1)
      (fun _ => 0) contestSession 0 < NPROC := by
  obtain ⟨m', hm', hchild⟩ : ∃ m' ∈ (bootWith { pinit.toSchedUpdate with rrMode := 1 } 1).run
    contestSession, (m'.proc 1).state = .running := by decide +kernel
  exact ⟨m', hm', hchild, rr_passedOver_lt bootWith_wf hm' (by decide +kernel) 0⟩

end Machine

end Xv6.Sched
