import Xv6.Life.Reuse
import Xv6.Life.Posting

/-!
# What `check_signals` looks up

`check_signals` uses `signal_pending` as an index into `sig_disp`. Only `sys_signal` checks its
number; `sys_kill` stores what it is given. As long as every `kill` is given one of the 32 numbers,
the index lies in the array and what it leads to was put there by the process itself, or is the
default (`pending_indexes_sig_disp`). One `kill` with another number, and `check_signals` takes
scheduler fields for a handler (`kill_overruns_sig_disp`).
-/

namespace Xv6.Signal.Task

/-- Whoever comes back from `check_signals` has no signal pending. -/
theorem checkSignals_pending {t t' : Task} (h : t.checkSignals = some t') :
    t'.signalPending = 0 := by
  unfold checkSignals at h
  split_ifs at h with hk hp h1 h0
  · cases h; exact hp
  · cases h; rfl
  · cases h; rfl

end Xv6.Signal.Task

namespace Xv6.Life

open Sched Signal Transition

/-- The `int` fields behind `sig_disp`, in the order of `struct proc`. -/
def fieldsBehind (p : Proc) : List Int :=
  [p.queueLevel, p.ticksRemaining, p.waitTicks, p.burstEmaFast, p.burstEmaSlow, p.burstStartTick,
    p.yieldCount, p.preemptCount, p.burstVariance, p.pageFaultCount, p.effectiveScore,
    p.firstRunTick, p.createTick]

/-- The number of a signal. -/
def IsSignal (n : Int) : Prop := 0 ≤ n ∧ n < 32

instance (n : Int) : Decidable (IsSignal n) := inferInstanceAs (Decidable (_ ∧ _))

namespace World

variable {ncpu : Nat} {w w' : World ncpu} {e : WorldEvent ncpu} {es : List (WorldEvent ncpu)}

/-- The eight bytes at `&proc->sig_disp[n]`, where they are fields of the same `struct proc`. -/
def dispWord (w : World ncpu) (i : Slot) (n : Int) : Option (BitVec 64) :=
  if IsSignal n then some (w.disp i n)
  else if 32 ≤ n then do
    let lo ← (fieldsBehind (w.proc i))[2 * (n.toNat - 32)]?
    let hi ← (fieldsBehind (w.proc i))[2 * (n.toNat - 32) + 1]?
    some (BitVec.ofInt 32 hi ++ BitVec.ofInt 32 lo)
  else none

/-- If this is a `kill`, of `sys_kill` or of the console with its SIGINT, it is given the number of a
signal. -/
def KillsSignal : WorldEvent ncpu → Prop
  | .sys (.perform _ (.kill _ signum)) => IsSignal signum
  | _ => True

/-- Along the run `es` from boot, the process that has slot `i` at the end called
`signal(signum, handler)`. -/
def Installed (es : List (WorldEvent ncpu)) (i : Slot) (n : Fin 32) (handler : BitVec 64) : Prop :=
  ∃ es₁ c, ∃ signum : Int, ∃ es₂ x, es = es₁ ++ .call c i (.signal signum handler) :: es₂ ∧
    signum = n ∧ (boot ncpu).run es₁ = some x ∧
    Allowed step (fun y e => ¬ y.Takes i e) x (.call c i (.signal signum handler) :: es₂)

instance : DecidablePred (@KillsSignal ncpu) := fun e =>
  decidable_of_bool (match e with
    | .sys (.perform _ (.kill _ signum)) => decide (IsSignal signum)
    | _ => true) (by unfold KillsSignal; split <;> simp)

theorem signalsAfter_pending (he : KillsSignal e) {j : Slot}
    (hw : IsSignal (w.proc j).signalPending) : IsSignal (w.signalsAfter j e).pending := by
  have hzero : IsSignal 0 := by decide
  cases e with
  | sys e =>
    cases e with
    | forkAlloc c i =>
      simp only [signalsAfter, Sys.signalsAfter]
      split
      · exact hzero
      · exact hw
    | perform c s =>
      cases s with
      | wakeup chan => exact hw
      | kill pid signum =>
        simp only [signalsAfter, Sys.signalsAfter]
        split
        · exact he
        · exact hw
      | checkAlarms =>
        simp only [signalsAfter, Sys.signalsAfter, Signals.check]
        split_ifs
        · exact (by decide : IsSignal SIGALRM)
        · exact hw
        · exact hw
    | _ => exact hw
  | call c i s =>
    cases s with
    | alarm last secs =>
      cases last <;> (simp only [signalsAfter]; split <;> exact hw)
    | _ => exact hw
  | trapOut c i path =>
    simp only [signalsAfter]
    split
    · next t ht =>
        split
        · exact Task.checkSignals_pending ht ▸ hzero
        · exact hw
    · exact hw
  | _ => exact hw

/-- What is pending is the number of a signal, if that is all `kill` is ever given. -/
theorem run_pending (hr : (boot ncpu).run es = some w) (hk : ∀ e ∈ es, KillsSignal e) (j : Slot) :
    IsSignal (w.proc j).signalPending := by
  refine run_allowed (I := fun w => IsSignal (w.proc j).signalPending) ?_ hr
    (allowed_of_forall_mem hk) ?_
  · intro w e w' hw he hs
    obtain ⟨-, rfl⟩ := step_eq_some.mp hs
    have hafter : ((w.effect e).proc j).signalPending = (w.signalsAfter j e).pending :=
      congrArg Signals.pending (w.effect_signals e j)
    rw [hafter]
    exact signalsAfter_pending he hw
  · have hboot : ∀ j, IsSignal (Machine.bootKernel.proc j).signalPending := by decide
    exact hboot j

/-- A step that changes `sig_disp` gives the slot away or is a `signal` call of its process. -/
theorem sigDispAfter_cases (w : World ncpu) (j : Slot) (e : WorldEvent ncpu) :
    (w.sigDispAfter j e = fun _ => 0) ∨ ¬ w.Takes j e ∧
      (w.sigDispAfter j e = (w.rest j).sigDisp ∨
        ∃ c signum handler, e = .call c j (.signal signum handler) ∧ IsSignal signum ∧
          w.sigDispAfter j e =
            Function.update (w.rest j).sigDisp (Fin.ofNat 32 signum.toNat) handler) := by
  cases e with
  | sys e =>
    cases e with
    | forkAlloc c i =>
      simp only [sigDispAfter, Takes]
      split
      · exact .inl rfl
      · next h => exact .inr ⟨h, .inl rfl⟩
    | _ => exact .inr ⟨id, .inl rfl⟩
  | call c i s =>
    cases s with
    | signal signum handler =>
      simp only [sigDispAfter]
      split
      · next h =>
          obtain ⟨rfl, hs⟩ := h
          exact .inr ⟨id, .inr ⟨c, signum, handler, rfl, hs, rfl⟩⟩
      · exact .inr ⟨id, .inl rfl⟩
    | _ => exact .inr ⟨id, .inl rfl⟩
  | _ => exact .inr ⟨id, .inl rfl⟩

theorem Installed.concat {j : Slot} {n : Fin 32} {handler : BitVec 64}
    (h : Installed es j n handler) (hr : (boot ncpu).run es = some w) (ht : ¬ w.Takes j e) :
    Installed (es ++ [e]) j n handler := by
  obtain ⟨es₁, c, signum, es₂, x, rfl, hn, hx, ha⟩ := h
  obtain ⟨x', hx', hrest⟩ := run_append_iff.mp hr
  obtain rfl : x = x' := Option.some.inj (hx.symm.trans hx')
  exact ⟨es₁, c, signum, es₂ ++ [e], x, by simp, hn, hx, ha.concat hrest ht⟩

/-- Every disposition is the default or was installed by the process itself. -/
theorem run_sigDisp (hr : (boot ncpu).run es = some w) (j : Slot) (n : Fin 32) :
    (w.rest j).sigDisp n = 0 ∨ Installed es j n ((w.rest j).sigDisp n) := by
  -- from the right, since it is the last call that counts
  induction es using List.reverseRecOn generalizing w with
  | nil =>
    cases hr
    refine .inl ?_
    simp only [boot]
    split <;> rfl
  | append_singleton es e ih =>
    obtain ⟨x, hx, hlast⟩ := run_append_iff.mp hr
    obtain ⟨x', hx', hnil⟩ := run_cons_iff.mp hlast
    cases hnil
    obtain ⟨-, rfl⟩ := step_eq_some.mp hx'
    rw [effect_sigDisp]
    rcases x.sigDispAfter_cases j e with h | ⟨ht, h | ⟨c, signum, handler, rfl, hs, h⟩⟩
    · exact .inl (congrFun h n)
    · rw [h]
      exact (ih hx).imp_right fun hi => hi.concat hx ht
    · rw [h, Function.update_apply]
      split
      · next hn =>
          refine .inr ⟨es, c, signum, [], x, rfl, ?_, hx, id, fun _ _ => trivial⟩
          have hval : (n : ℕ) = signum.toNat := by
            rw [hn, Fin.val_ofNat, Nat.mod_eq_of_lt (by have := hs.1; have := hs.2; omega)]
          have := hs.1
          omega
      · exact (ih hx).imp_right fun hi => hi.concat hx ht

/-- **What `check_signals` looks up is a disposition of the process**: after any run in which every
`kill` is given the number of a signal, `signal_pending` is an index into `sig_disp`, and what is
found there is the default or was installed by the process itself. -/
theorem pending_indexes_sig_disp (hr : (boot ncpu).run es = some w)
    (hk : ∀ e ∈ es, KillsSignal e) (i : Slot) :
    ∃ n : Fin 32, (w.proc i).signalPending = n ∧
      w.dispWord i (w.proc i).signalPending = some ((w.rest i).sigDisp n) ∧
      ((w.rest i).sigDisp n = 0 ∨ Installed es i n ((w.rest i).sigDisp n)) := by
  have hp := run_pending hr hk i
  refine ⟨Fin.ofNat 32 (w.proc i).signalPending.toNat, ?_, ?_, run_sigDisp hr i _⟩
  · rw [Fin.val_ofNat, Nat.mod_eq_of_lt (by have := hp.1; have := hp.2; omega)]
    have := hp.1
    omega
  · rw [dispWord, if_pos hp]
    rfl

/-- CPU 0 goes through a short section. -/
def performs (s : Section) : List (WorldEvent 1) :=
  [.sys (.enter 0 s), .sys (.perform 0 s), .sys (.leave 0 s)]

/-- The first process asks for a handler and sends itself the signal. -/
def heeded : List (WorldEvent 1) := List.flatten
  [dispatch 0, [.forkOut 0 0], asks 0 23 0, [.call 0 0 (.signal 2 0x1000), .trapOut 0 0 .syscall],
    asks 0 6 0, performs (.kill 1 2)]

theorem heeded_indexes_sig_disp : ∃ w ∈ (boot 1).run heeded, (∀ e ∈ heeded, KillsSignal e) ∧
    ∃ n : Fin 32, (w.proc 0).signalPending = n ∧
      w.dispWord 0 (w.proc 0).signalPending = some ((w.rest 0).sigDisp n) ∧
      ((w.rest 0).sigDisp n = 0 ∨ Installed heeded 0 n ((w.rest 0).sigDisp n)) := by
  have hrun : ((boot 1).run heeded).isSome := by decide +kernel
  have hk : ∀ e ∈ heeded, KillsSignal e := by decide +kernel
  obtain ⟨w, hw⟩ := Option.isSome_iff_exists.mp hrun
  exact ⟨w, hw, hk, pending_indexes_sig_disp hw hk 0⟩

/-- The first process sends itself the signal 32. -/
def overrun : List (WorldEvent 1) := List.flatten
  [dispatch 0, [.forkOut 0 0], asks 0 6 0, performs (.kill 1 32)]

/-- **A `kill` with another number makes `check_signals` read past the array**: the first process is
on its way out of `kill(1, 32)`, nobody has called `signal`, and what `check_signals` is about to
take for a disposition is `queue_level` and `ticks_remaining`, neither the default nor SIG_IGN. -/
theorem kill_overruns_sig_disp : ∃ w ∈ (boot 1).run overrun,
    w.Runs 0 0 ∧ (w.rest 0).mode = .kernel .syscall ∧ (w.proc 0).killed = false ∧
    (w.proc 0).signalPending = 32 ∧ (∀ n, (w.rest 0).sigDisp n = 0) ∧
    w.dispWord 0 (w.proc 0).signalPending = some 0x400000000 := by
  decide +kernel

end World

end Xv6.Life
