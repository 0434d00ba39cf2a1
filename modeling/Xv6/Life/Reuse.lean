import Xv6.Life.Residue

/-!
# Slots that are used again

What a process leaves behind in its slot of the process table is overwritten piece by piece when the
slot is used again: by `wait` when the process is reaped, by `allocproc`, by `fork`. `tf_backup` is
not. Two machines that differ only in what an UNUSED slot holds are, once `fork` has filled the slot,
equal but for the slot's `tf_backup` (`fork_forgets`); from there on they stay so, step by step,
until the new process asks for its `tf_backup` with a `sigret` of its own, or gets a new one when a
signal is delivered to it (`effect_setBackup`).

Main result: `reused_slot_leaks_nothing`.
-/

namespace Xv6.Signal.Task

/-- Whether and how `check_signals` returns does not depend on `tf_backup`; a new one is stored when
a handler starts. -/
theorem checkSignals_backup (t : Task) (b : Backup) :
    ({ t with tfBackup := b } : Task).checkSignals =
      if t.Redirects then t.checkSignals
      else t.checkSignals.map fun t' => { t' with tfBackup := b } := by
  split_ifs with h
  · have h' : ({ t with tfBackup := b } : Task).Redirects := h
    rw [checkSignals_redirects h, checkSignals_redirects h']
    rfl
  · unfold checkSignals
    split_ifs with hk hp h1 h0 <;> first | rfl | skip
    exact absurd ⟨by simpa using hk, hp, h0, h1⟩ h

end Xv6.Signal.Task

namespace Xv6.Life

open Sched Signal Transition

namespace World

variable {ncpu : Nat} {w w' v : World ncpu} {u : Slot} {e : WorldEvent ncpu}

/-! ## Two machines in step -/

/-- The same machine with another `tf_backup` in slot `u`. -/
def setBackup (w : World ncpu) (u : Slot) (b : Backup) : World ncpu :=
  { w with tfBackup := Function.update w.tfBackup u b }

/-- The process in slot `u` calls `sigret`. -/
def Sigrets (u : Slot) : WorldEvent ncpu → Prop
  | .call _ i .sigret => i = u
  | _ => False

/-- A handler starts in slot `u`. -/
def Delivers (w : World ncpu) (u : Slot) : WorldEvent ncpu → Prop
  | .trapOut _ i _ => i = u ∧ (w.task i).Redirects
  | _ => False

instance (u : Slot) : DecidablePred (@Sigrets ncpu u)
  | .call _ i .sigret => inferInstanceAs (Decidable (i = u))
  | .call _ _ (.signal _ _) | .call _ _ (.alarm _ _) | .call _ _ (.exec _ _ _ _)
  | .call _ _ (.sbrk _ _) | .call _ _ .registerAgent | .call _ _ (.setschedparam _ _)
  | .call _ _ (.getschedstats _ _) | .call _ _ (.openFile _) | .call _ _ (.close _)
  | .call _ _ (.dup _) | .call _ _ (.chdir _) | .call _ _ (.other _ _ _)
  | .sys _ | .user _ _ _ _ | .interrupt _ _ _ _ _ _ | .syscall _ _ | .trapOut _ _ _
  | .forkOut _ _ => .isFalse id

instance (w : World ncpu) (u : Slot) : DecidablePred (w.Delivers u)
  | .trapOut _ i _ => inferInstanceAs (Decidable (i = u ∧ (w.task i).Redirects))
  | .sys _ | .user _ _ _ _ | .interrupt _ _ _ _ _ _ | .syscall _ _ | .call _ _ _
  | .forkOut _ _ => .isFalse id

theorem task_setBackup (b : Backup) :
    (w.setBackup u b).task u = { w.task u with tfBackup := b } := by
  simp only [task, setBackup, Function.update_self]
  rfl

variable {i : Slot} {es : List (WorldEvent ncpu)} {b : Backup} {c : Fin ncpu}

theorem task_setBackup_ne (b : Backup) (hi : i ≠ u) : (w.setBackup u b).task i = w.task i := by
  simp only [task, setBackup, Function.update_of_ne hi]
  rfl

theorem enabled_setBackup (b : Backup) : (w.setBackup u b).Enabled e ↔ w.Enabled e := by
  cases e with
  | trapOut c i path =>
    have hnone : ((w.setBackup u b).task i).checkSignals.isNone =
        (w.task i).checkSignals.isNone := by
      by_cases hi : i = u
      · subst hi
        rw [task_setBackup, Task.checkSignals_backup]
        split_ifs
        · rfl
        · rw [Option.isNone_map]
      · rw [task_setBackup_ne b hi]
    simp only [Enabled, hnone]
    exact Iff.rfl
  | _ => exact Iff.rfl

/-- A call other than `sigret` does not read `tf_backup`. -/
theorem Service.body_backup {k : Kernel} {r : Rest} {s : Service} (b b' : Backup)
    (h : s ≠ .sigret) : s.body i k r b = s.body i k r b' := by
  cases s with
  | sigret => exact absurd rfl h
  | exec argc argv sz image => cases image <;> rfl
  | _ => rfl

/-- **What a step does to two machines that differ in a `tf_backup`**: unless it is a `sigret`
there, they still differ in it and nothing else, or, if a handler starts there, not at all. -/
theorem effect_setBackup (b : Backup) (h : ¬ Sigrets u e) : (w.setBackup u b).effect e =
    if w.Delivers u e then w.effect e else (w.effect e).setBackup u b := by
  cases e with
  | call c i s =>
    have hbody : s.body i w.toKernel (w.rest i) ((w.setBackup u b).tfBackup i) =
        s.body i w.toKernel (w.rest i) (w.tfBackup i) := by
      by_cases hs : s = .sigret
      · subst hs
        have hi : i ≠ u := h
        simp [setBackup, hi]
      · exact Service.body_backup _ _ hs
    have hno : ¬ w.Delivers u (.call c i s) := id
    rw [if_neg hno]
    exact congrArg ((w.setBackup u b).serve i) hbody
  | trapOut c i path =>
    by_cases hi : i = u
    · subst hi
      have hd : w.Delivers i (.trapOut c i path) ↔ (w.task i).Redirects := by simp [Delivers]
      simp only [effect, hd, task_setBackup, Task.checkSignals_backup]
      split_ifs with hr
      · rw [Task.checkSignals_redirects hr]
        simp [goOut, setBackup, setRest]
      · cases (w.task i).checkSignals with
        | none => rfl
        | some t => simp [goOut, setBackup, setRest]
    · have hd : ¬ w.Delivers u (.trapOut c i path) := fun h => hi h.1
      rw [if_neg hd]
      simp only [effect, task_setBackup_ne b hi]
      cases (w.task i).checkSignals with
      | none => rfl
      | some t =>
        simp only [goOut, setBackup, Function.update_comm hi]
        rfl
  | _ => exact (if_neg id).symm

/-! ## The new process is watched -/

/-- The machine, and whether a handler has started in the slot that is watched. -/
structure Watch (ncpu : Nat) where
  world : World ncpu
  delivered : Bool

/-- A step of the machine, watched in slot `u`. -/
def Watch.step (u : Slot) (x : Watch ncpu) (e : WorldEvent ncpu) : Option (Watch ncpu) :=
  (x.world.step e).map fun w => ⟨w, x.delivered || decide (x.world.Delivers u e)⟩

/-- The process in slot `u` calls `sigret` only after a handler has started there. -/
def Watch.Orderly (u : Slot) (x : Watch ncpu) (e : WorldEvent ncpu) : Prop :=
  Sigrets u e → x.delivered = true

/-- **Two machines that differ in one `tf_backup` stay in step.** -/
theorem run_setBackup {x y : Watch ncpu} (hr : Transition.run (Watch.step u) x es = some y)
    (ho : Allowed (Watch.step u) (Watch.Orderly u) x es)
    (hb : x.delivered = true → x.world.setBackup u b = x.world) :
    ∃ b', (x.world.setBackup u b).run es = some (y.world.setBackup u b') := by
  induction es generalizing x b with
  | nil => cases hr; exact ⟨b, rfl⟩
  | cons e es ih =>
    obtain ⟨z, hz, hrest⟩ := run_cons_iff.mp hr
    obtain ⟨v, hv, rfl⟩ := Option.map_eq_some_iff.mp hz
    obtain ⟨hen, rfl⟩ := step_eq_some.mp hv
    have hen' : (x.world.setBackup u b).step e = some ((x.world.setBackup u b).effect e) :=
      step_eq_some.mpr ⟨(enabled_setBackup b).mpr hen, rfl⟩
    -- after the step the machines differ in some `tf_backup` there, or, once a handler has
    -- started, not at all
    obtain ⟨b₁, hb₁, heq⟩ : ∃ b₁, (x.world.setBackup u b).effect e =
        (x.world.effect e).setBackup u b₁ ∧
        ((x.delivered || decide (x.world.Delivers u e)) = true →
          (x.world.effect e).setBackup u b₁ = x.world.effect e) := by
      have hself : ∀ v : World ncpu, v.setBackup u (v.tfBackup u) = v := by
        intro v
        simp [setBackup]
      cases hdel : x.delivered with
      | true =>
        rw [hb hdel]
        exact ⟨_, (hself _).symm, fun _ => hself _⟩
      | false =>
        have hns : ¬ Sigrets u e := fun hs => by
          have := ho.1 hs
          rw [hdel] at this; cases this
        rw [effect_setBackup b hns]
        split_ifs with hd
        · exact ⟨_, (hself _).symm, fun _ => hself _⟩
        · exact ⟨b, rfl, by simp [hd]⟩
    obtain ⟨b₂, hb₂⟩ := ih hrest (ho.2 _ hz) heq
    exact ⟨b₂, run_cons_iff.mpr ⟨_, hen', hb₁ ▸ hb₂⟩⟩

/-! ## `fork` fills the slot -/

/-- The same machine with something else in slot `u`. -/
def patch (w : World ncpu) (u : Slot) (p : Proc) (saved : Bool) (r : Rest) (b : Backup) :
    World ncpu :=
  { w with
    toKernel := w.toKernel.setProc u p
    saved := Function.update w.saved u saved
    rest := Function.update w.rest u r
    tfBackup := Function.update w.tfBackup u b }

/-- The machines agree everywhere but in what the UNUSED slot `u` is left with. -/
def AgreeBut (u : Slot) (w w' : World ncpu) : Prop :=
  (w.proc u).state = .unused ∧ ∃ p saved r b, p.state = .unused ∧ w' = w.patch u p saved r b

/-- Process `i` forks, and the child gets slot `u`. -/
def forkInto (c : Fin ncpu) (i u : Slot) : List (WorldEvent ncpu) :=
  [.sys (.forkAlloc c i), .sys (.forkContext c i u), .sys (.forkCopy c i u),
    .sys (.forkDone c i u)]

theorem freeSlot_congr {t t' : Table} (h : ∀ j, (t' j).state = (t j).state) :
    freeSlot t' = freeSlot t := by
  rw [freeSlot, freeSlot]
  simp only [h]

/-- `allocproc` and the rest of `fork`, one step after the other. -/
def forked (w : World ncpu) (c : Fin ncpu) (i u : Slot) : World ncpu :=
  (((w.effect (.sys (.forkAlloc c i))).effect (.sys (.forkContext c i u))).effect
    (.sys (.forkCopy c i u))).effect (.sys (.forkDone c i u))

theorem forked_patch {p : Proc} {saved : Bool} {r : Rest} (hfree : freeSlot w.proc = some u)
    (hi : i ≠ u) (hs : p.state = .unused) (hk : p.killed = (w.proc u).killed)
    (hc : p.chan = (w.proc u).chan) (hf : r.ofile = (w.rest u).ofile) :
    (w.patch u p saved r b).forked c i u = (w.forked c i u).setBackup u b := by
  have hfree' : freeSlot (w.patch u p saved r b).proc = some u := by
    rw [← hfree]
    refine freeSlot_congr fun j => ?_
    simp only [patch, Kernel.setProc_proc]
    split
    · next hj => rw [hj, hs, freeSlot_unused hfree]
    · rfl
  simp only [forked, effect, restAfter, Sys.effect, hfree, hfree']
  simp [patch, setBackup, setRest, ret, allocproc, Kernel.setProc, hi, hk, hc, hf]

theorem run_forkInto (ha : w.toSys.At c i (.held .fork)) (hfree : freeSlot w.proc = some u)
    (hi : i ≠ u) : w.run (forkInto c i u) = some (w.forked c i u) := by
  have h₁ : w.Enabled (.sys (.forkAlloc c i)) := ha
  have h₂ : (w.effect (.sys (.forkAlloc c i))).Enabled (.sys (.forkContext c i u)) := by
    simp only [effect, Enabled, Sys.Enabled, Sys.effect, hfree]
    simp [Sys.At, ha.1, ha.2.1]
  have h₃ : ((w.effect (.sys (.forkAlloc c i))).effect (.sys (.forkContext c i u))).Enabled
      (.sys (.forkCopy c i u)) := by
    simp only [effect, Enabled, Sys.Enabled, Sys.effect, hfree]
    simp [Sys.At, ha.1, ha.2.1, hi]
  have h₄ : (((w.effect (.sys (.forkAlloc c i))).effect (.sys (.forkContext c i u))).effect
      (.sys (.forkCopy c i u))).Enabled (.sys (.forkDone c i u)) := by
    simp only [effect, Enabled, Sys.Enabled, Sys.effect, hfree]
    simp [Sys.At, ha.1, ha.2.1, hi]
  simp only [forkInto, run, Transition.run, step, if_pos h₁, if_pos h₂, if_pos h₃, if_pos h₄,
    Option.bind_some]
  rfl

/-- A `fork` that gets as far as the second step has found the slot. -/
theorem Sound.forkInto_cases (h : w.Sound) (hr : w.run (forkInto c i u) = some v) :
    w.toSys.At c i (.held .fork) ∧ freeSlot w.proc = some u ∧ i ≠ u := by
  obtain ⟨w₁, hw₁, hrest⟩ := run_cons_iff.mp hr
  obtain ⟨w₂, hw₂, -⟩ := run_cons_iff.mp hrest
  obtain ⟨he₁, rfl⟩ := step_eq_some.mp hw₁
  have he₂ := (step_eq_some.mp hw₂).1
  have hat : w.toSys.At c i (.held .fork) := he₁
  have hpoint : w.point i = .user := (h.calls i).2 .fork (by rw [hat.2.2]; rfl)
  have hfree : freeSlot w.proc = some u := by
    have hp : (w.toSys.effect (.forkAlloc c i)).point i = .forking u := he₂.2
    simp only [Sys.effect] at hp
    cases hf : freeSlot w.proc with
    | none => simp [hf, hpoint] at hp
    | some np =>
      obtain rfl : np = u := by simpa [hf] using hp
      rfl
  refine ⟨hat, hfree, ?_⟩
  rintro rfl
  have hrun : (w.proc i).state = .running := h.occ.row_at hat
  have := freeSlot_unused hfree
  rw [hrun] at this; cases this

/-- **`fork` forgets what the slot held**, but for `tf_backup`. -/
theorem fork_forgets (h : w.Sound) (h' : w'.Sound) (ha : AgreeBut u w w')
    (hr : w.run (forkInto c i u) = some v) :
    ∃ b, w'.run (forkInto c i u) = some (v.setBackup u b) := by
  obtain ⟨hu, p, saved, r, b, hp, rfl⟩ := ha
  obtain ⟨hat, hfree, hi⟩ := h.forkInto_cases hr
  have hu' : ((w.patch u p saved r b).proc u).state = .unused := by simpa [patch] using hp
  -- the fields `fork` does not write are the same in every free slot
  have hclean := h.clean u
  have hclean' : Clean p (w.stage u) r.ofile := by simpa [patch] using h'.clean u
  have hnull := hclean.chan_null (h.not_asleep (.inl hu))
  have hnull' := hclean'.chan_null (h.not_asleep (.inl hu))
  obtain ⟨hk, hf⟩ := hclean.bare (.inl hu)
  obtain ⟨hk', hf'⟩ := hclean'.bare (.inl hp)
  have hfree' : freeSlot (w.patch u p saved r b).proc = some u := by
    rw [← hfree]
    refine freeSlot_congr fun j => ?_
    simp only [patch, Kernel.setProc_proc]
    split
    · next hj => rw [hj, hp, hu]
    · rfl
  refine ⟨b, ?_⟩
  have hv : v = w.forked c i u :=
    Option.some.inj (hr.symm.trans (run_forkInto hat hfree hi))
  rw [run_forkInto (w := w.patch u p saved r b) hat hfree' hi, hv,
    forked_patch hfree hi hp (hk'.trans hk.symm) (hnull'.trans hnull.symm)
      (funext fun fd => (hf' fd).trans (hf fd).symm)]

/-! ## The result -/

/-- What a process can find out about itself. -/
structure Observed where
  regs : Regs
  mem : Bytes.Mem
  signalPending : Int
  alarmTicks : Int
  alarmCountdown : Int
  sigDisp : Fin 32 → BitVec 64
  ofile : Fin NOFILE → Option Nat
  cwd : Option Nat
  telemetry : Schedstat

def observe (w : World ncpu) (u : Slot) : Observed where
  regs := (w.rest u).regs
  mem := (w.rest u).mem
  signalPending := (w.proc u).signalPending
  alarmTicks := (w.proc u).alarmTicks
  alarmCountdown := (w.proc u).alarmCountdown
  sigDisp := (w.rest u).sigDisp
  ofile := (w.rest u).ofile
  cwd := (w.rest u).cwd
  telemetry := (w.proc u).schedstat w.schedp.schedAlert

theorem run_watch {x : Watch ncpu} (hr : x.world.run es = some v) :
    ∃ d, Transition.run (Watch.step u) x es = some ⟨v, d⟩ := by
  induction es generalizing x with
  | nil => cases hr; exact ⟨x.delivered, rfl⟩
  | cons e es ih =>
    obtain ⟨z, hz, hrest⟩ := run_cons_iff.mp hr
    obtain ⟨d, hd⟩ := ih (x := ⟨z, x.delivered || decide (x.world.Delivers u e)⟩) hrest
    exact ⟨d, run_cons_iff.mpr ⟨_, by simp [Watch.step, hz], hd⟩⟩

/-- **A slot that is used again leaks nothing**, as long as the new process calls `sigret` only
after a handler of its own has started. Take two reachable machines that agree everywhere but in
what an UNUSED slot is left with, and let a process of theirs fork into that slot. Whatever all the
processes then do, the new one finds the same in both. -/
theorem reused_slot_leaks_nothing {c : Fin ncpu} {i : Slot} {x : World ncpu}
    {es : List (WorldEvent ncpu)} (hw : w.Reachable) (hw' : w'.Reachable) (ha : AgreeBut u w w')
    (hv : w.run (forkInto c i u) = some v) (hx : v.run es = some x)
    (ho : Allowed (Watch.step u) (Watch.Orderly u) ⟨v, false⟩ es) :
    ∃ x', w'.run (forkInto c i u ++ es) = some x' ∧ x'.observe u = x.observe u := by
  obtain ⟨b, hb⟩ := fork_forgets hw.sound hw'.sound ha hv
  obtain ⟨d, hd⟩ := run_watch (u := u) (x := ⟨v, false⟩) hx
  obtain ⟨b', hb'⟩ := run_setBackup hd ho (b := b) (by simp)
  exact ⟨x.setBackup u b', run_append_iff.mpr ⟨_, hb, hb'⟩, rfl⟩

/-! ## What `sigret` gives away -/

/-- Registers with `rbx`, on the way to the system call `rax`. -/
def asking (rax rbx : BitVec 64) : Regs :=
  { rax, rbx, rcx := 0, rdx := 0, rbp := 0, rsi := 0, rdi := 0, r8 := 0, r9 := 0, r10 := 0,
    r11 := 0, r12 := 0, r13 := 0, r14 := 0, r15 := 0, rip := 0x1000, rflags := 0x202,
    rsp := 0x2000 }

/-- The program in slot `i` makes the system call `rax`. -/
def asks (i : Slot) (rax rbx : BitVec 64) : List (WorldEvent 1) :=
  [.user 0 i (asking rax rbx) fun _ => 0, .syscall 0 i]

/-- A pass finds `b`, which runs. -/
def dispatch (b : Slot) : List (WorldEvent 1) :=
  [.sys (.passAcquire 0), .sys (.passSelect 0), .sys (.passProc 0 b), .sys (.passRun 0 b),
    .sys (.swtchIn 0 b), .sys (.resume 0 b)]

/-- Process `i` gives the CPU up in `call`. -/
def giveUp (i : Slot) (call : Call) : List (WorldEvent 1) :=
  [.sys (.acquire 0 i call), .sys (.store 0 i call), .sys (.swtchOut 0 i call),
    .sys (.passClear 0 i), .sys (.passRelease 0)]

/-- The first process forks, sends its child a SIGALRM and waits; the child starts. -/
def prologue : List (WorldEvent 1) := List.flatten
  [dispatch 0, [.forkOut 0 0], asks 0 1 0, [.sys (.acquire 0 0 .fork)], forkInto 0 0 1,
    [.trapOut 0 0 .syscall], asks 0 6 0,
    [.sys (.enter 0 (.kill 2 14)), .sys (.perform 0 (.kill 2 14)), .sys (.leave 0 (.kill 2 14)),
      .trapOut 0 0 .syscall],
    asks 0 3 0, giveUp 0 .wait, dispatch 1, [.forkOut 0 1]]

/-- With `secret` in `rbx` the child asks for a handler. It starts at once, and calls `exit`. -/
def confide (secret : BitVec 64) : List (WorldEvent 1) := List.flatten
  [asks 1 23 secret, [.call 0 1 (.signal 14 0x1000), .trapOut 0 1 .syscall], asks 1 2 0]

/-- The child is gone, and the first process is about to fork again. -/
def epilogue : List (WorldEvent 1) := List.flatten
  [[.sys (.exitCall 0 1)], giveUp 1 .exit, dispatch 0,
    [.sys (.waitReap 0 0 1), .trapOut 0 0 .syscall], asks 0 1 0, [.sys (.acquire 0 0 .fork)]]

/-- The first process waits again, and the new child makes the system call `s`. -/
def sequel (s : Service) : List (WorldEvent 1) := List.flatten
  [[.trapOut 0 0 .syscall], asks 0 3 0, giveUp 0 .wait, dispatch 1, [.forkOut 0 1],
    asks 1 s.num 0, [.call 0 1 s, .trapOut 0 1 .syscall]]

theorem Watch.orderly_of_quiet {x : Watch ncpu} (h : ∀ e ∈ es, ¬ Sigrets u e) :
    Allowed (Watch.step u) (Watch.Orderly u) x es := by
  induction es generalizing x with
  | nil => trivial
  | cons e es ih =>
    exact ⟨fun hs => absurd hs (h e (List.mem_cons_self ..)),
      fun _ _ => ih fun e' he' => h e' (List.mem_cons_of_mem e he')⟩

theorem run_foldl (h : w.run es = some v) : v = es.foldl effect w := by
  induction es generalizing w with
  | nil => cases h; rfl
  | cons e es ih =>
    obtain ⟨z, hz, hrest⟩ := run_cons_iff.mp h
    obtain ⟨-, rfl⟩ := step_eq_some.mp hz
    exact ih hrest

/-- The secret is in `tf_backup` and nowhere else. -/
theorem confide_backup {x y y' : World 1} {s s' : BitVec 64} (hk : (x.proc 1).killed = false)
    (hp : (x.proc 1).signalPending = 14) (hy : x.run (confide s) = some y)
    (hy' : x.run (confide s') = some y') : ∃ b, y' = y.setBackup 1 b := by
  rw [run_foldl hy, run_foldl hy']
  refine ⟨((confide s').foldl effect x).tfBackup 1, ?_⟩
  have hr : ∀ t, ((((x.effect (.user 0 1 (asking 23 t) fun _ => 0)).effect (.syscall 0 1)).effect
      (.call 0 1 (.signal 14 0x1000))).task 1).Redirects := by
    intro t
    refine ⟨hk, ?_, ?_, ?_⟩ <;>
      simp [effect, serve, setRest, task, disp, Service.body, hp, asking]
  simp only [confide, asks, List.flatten_cons, List.flatten_nil, List.cons_append, List.nil_append,
    List.append_nil, List.foldl]
  simp only [effect_trapOut, Task.checkSignals_redirects (hr _)]
  simp [effect, serve, goOut, setBackup, setRest, Service.body, Task.redirect, task, asking,
    syscallEntry]

theorem agreeBut_setBackup (h : (w.proc u).state = .unused) : AgreeBut u w (w.setBackup u b) :=
  ⟨h, w.proc u, w.saved u, w.rest u, b, h, by simp [setBackup, patch, Kernel.setProc]⟩

/-- The machine before the second `fork`, the first child having had `secret` in `rbx`. -/
def afterSecret (secret : BitVec 64) : Option (World 1) :=
  (boot 1).run (prologue ++ confide secret ++ epilogue)

/-- The machines left by two secrets agree but in what is left in slot 1. -/
theorem afterSecret_agree {w w' : World 1} {s s' : BitVec 64} (hw : afterSecret s = some w)
    (hw' : afterSecret s' = some w') (hu : (w.proc 1).state = .unused) : AgreeBut 1 w w' := by
  obtain ⟨y, hy, he⟩ := run_append_iff.mp hw
  obtain ⟨x, hx, hy⟩ := run_append_iff.mp hy
  obtain ⟨y', hy', he'⟩ := run_append_iff.mp hw'
  obtain ⟨x', hx', hy'⟩ := run_append_iff.mp hy'
  obtain rfl : x = x' := Option.some.inj (hx.symm.trans hx')
  have hstart : ∃ x ∈ (boot 1).run prologue,
      (x.proc 1).killed = false ∧ (x.proc 1).signalPending = 14 := by decide +kernel
  obtain ⟨x₁, hx₁, hk, hp⟩ := hstart
  obtain rfl : x = x₁ := Option.some.inj (hx.symm.trans hx₁)
  obtain ⟨b, rfl⟩ := confide_backup hk hp hy hy'
  -- from here on nobody in slot 1 calls `sigret`
  obtain ⟨d, hd⟩ := run_watch (u := 1) (x := ⟨y, false⟩) he
  have ho : Allowed (Watch.step 1) (Watch.Orderly 1) ⟨y, false⟩ epilogue :=
    Watch.orderly_of_quiet (by decide +kernel)
  obtain ⟨b', hb'⟩ := run_setBackup hd ho (b := b) (by simp)
  obtain rfl : w' = w.setBackup 1 b' := Option.some.inj (he'.symm.trans hb')
  exact agreeBut_setBackup hu

/-- A child that asks for its pid finds the same whatever the secret was. -/
theorem afterSecret_leaks_nothing : ∃ w ∈ afterSecret 0, ∃ w' ∈ afterSecret 1,
    AgreeBut 1 w w' ∧ (w.tfBackup 1).rbx = 0 ∧ (w'.tfBackup 1).rbx = 1 ∧
    ∃ x ∈ w.run (forkInto 0 0 1 ++ sequel (.other 11 3 fun _ => 0)),
    ∃ x' ∈ w'.run (forkInto 0 0 1 ++ sequel (.other 11 3 fun _ => 0)),
      x'.observe 1 = x.observe 1 := by
  have h₀ : ∃ w ∈ afterSecret 0, (w.proc 1).state = .unused ∧ (w.tfBackup 1).rbx = 0 ∧
      (w.run (forkInto 0 0 1 ++ sequel (.other 11 3 fun _ => 0))).isSome := by decide +kernel
  have h₁ : ∃ w ∈ afterSecret 1, (w.tfBackup 1).rbx = 1 := by decide +kernel
  obtain ⟨w, hw, hu, hb, hx⟩ := h₀
  obtain ⟨w', hw', hb'⟩ := h₁
  have ha := afterSecret_agree hw hw' hu
  obtain ⟨x, hx⟩ := Option.isSome_iff_exists.mp hx
  obtain ⟨v, hv, hrest⟩ := run_append_iff.mp hx
  have ho : Allowed (Watch.step 1) (Watch.Orderly 1) ⟨v, false⟩
      (sequel (.other 11 3 fun _ => 0)) :=
    Watch.orderly_of_quiet (by decide +kernel)
  obtain ⟨x', hx', heq⟩ := reused_slot_leaks_nothing ⟨_, hw⟩ ⟨_, hw'⟩ ha hv hrest ho
  exact ⟨w, hw, w', hw', ha, hb, hb', x, hx, x', hx', heq⟩

/-- A child that calls `sigret` gets the registers of the process that had the slot before. -/
theorem sigret_leaks_backup : ∃ w ∈ afterSecret 0, ∃ w' ∈ afterSecret 1, AgreeBut 1 w w' ∧
    ∃ x ∈ w.run (forkInto 0 0 1 ++ sequel .sigret),
    ∃ x' ∈ w'.run (forkInto 0 0 1 ++ sequel .sigret),
      (x.observe 1).regs.rbx = 0 ∧ (x'.observe 1).regs.rbx = 1 := by
  have h₀ : ∃ w ∈ afterSecret 0, (w.proc 1).state = .unused ∧
      ∃ x ∈ w.run (forkInto 0 0 1 ++ sequel .sigret), (x.observe 1).regs.rbx = 0 := by
    decide +kernel
  have h₁ : ∃ w ∈ afterSecret 1,
      ∃ x ∈ w.run (forkInto 0 0 1 ++ sequel .sigret), (x.observe 1).regs.rbx = 1 := by
    decide +kernel
  obtain ⟨w, hw, hu, x, hx, hrbx⟩ := h₀
  obtain ⟨w', hw', x', hx', hrbx'⟩ := h₁
  exact ⟨w, hw, w', hw', afterSecret_agree hw hw' hu, x, hx, x', hx', hrbx, hrbx'⟩

end World

end Xv6.Life
