import Xv6.Signal.Sigret

/-!
# Signals inside handlers

A handler runs in user mode like any other code, so a trap it takes can end in another handler. The
kernel keeps no record of that: there is one `tf_backup` for each process. The record kept here,
`contexts`, is for the statement only: the registers that were interrupted by handlers which have
not returned yet, the latest first. A start of a handler adds to it, a `sigret` removes from it, an
`exec` throws it away together with the handlers.

When no handler is interrupted by another one, `tf_backup` is the one context there is (`Home`), and
the return of the handler leads back to it. When one is, its own context is gone.

Main result: `handlers_return_home`.
-/

namespace Xv6.Signal

/-- A process and the contexts its running handlers have interrupted. -/
structure Nest where
  task : Task
  contexts : List Regs

namespace Nest

/-- The contexts that are left when the trap has done its own work: `sigret` ends the latest
handler, an `exec` that succeeds ends all of them. -/
def left (n : Nest) : Trap → List Regs
  | .syscall .sigret => n.contexts.tail
  | .syscall (.exec _ _ (some _)) => []
  | _ => n.contexts

/-- The contexts after the step. -/
def after (n : Nest) : Event → List Regs
  | .trap t => if n.task.Delivers t then n.task.interrupted t :: n.left t else n.left t
  | _ => n.contexts

def step (n : Nest) (e : Event) : Option Nest := (n.task.step e).map fun q => ⟨q, n.after e⟩

abbrev run (n : Nest) (es : List Event) : Option Nest := Transition.run step n es

/-- A handler starts only when no other one is running. -/
def Alone (n : Nest) : Event → Prop
  | .trap t => n.task.Delivers t → n.left t = []
  | _ => True

instance (n : Nest) : DecidablePred n.Alone
  | .trap t => inferInstanceAs (Decidable (n.task.Delivers t → n.left t = []))
  | .user _ _ | .post _ => .isTrue trivial

/-- `tf_backup` leads home. -/
def Home (n : Nest) : Prop :=
  ∀ u ∈ n.contexts, n.contexts = [u] ∧ n.task.tfBackup.rip = u.rip ∧ n.task.tfBackup.rsp = u.rsp

/-- What `check_signals` saves is where the program was. -/
theorem redirect_tfBackup (p : Task) (t : Trap) :
    (p.enter t).redirect.tfBackup.rip = (p.interrupted t).rip ∧
      (p.enter t).redirect.tfBackup.rsp = (p.interrupted t).rsp := by
  cases t with
  | interrupt => exact ⟨rfl, rfl⟩
  | syscall call => exact ⟨(p.enter_syscall_rcx call).symm, rfl⟩

/-- The contexts that are left are among those that were there. -/
theorem mem_of_mem_left {n : Nest} {t : Trap} {u : Regs} (h : u ∈ n.left t) : u ∈ n.contexts := by
  unfold left at h
  split at h
  · exact List.mem_of_mem_tail h
  · cases h
  · exact h

theorem Home.step {n n' : Nest} {e : Event} (h : n.Home) (ha : n.Alone e)
    (hs : n.step e = some n') : n'.Home := by
  obtain ⟨q, hq, rfl⟩ := Option.map_eq_some_iff.mp hs
  cases e with
  | user | post => cases hq; exact h
  | trap t =>
    by_cases hd : n.task.Delivers t
    · have hq' := Task.step_delivers hd hq
      intro u hu
      simp only [after, if_pos hd, ha hd, List.mem_singleton] at hu ⊢
      subst hu hq'
      exact ⟨rfl, redirect_tfBackup n.task t⟩
    · have hback := (Task.step_tfBackup hq fun t' ht => by cases ht; exact hd).1
      intro u hu
      simp only [after, if_neg hd] at hu ⊢
      obtain ⟨hone, hrip, hrsp⟩ := h u (mem_of_mem_left hu)
      rw [hback]
      refine ⟨?_, hrip, hrsp⟩
      -- a handler that returned would have left nothing
      unfold left at hu ⊢
      split at hu
      · simp [hone] at hu
      · cases hu
      · exact hone

theorem Home.run {n n' : Nest} {es : List Event} (h : n.Home)
    (ha : Transition.Allowed Nest.step Alone n es) (hr : n.run es = some n') : n'.Home :=
  Transition.run_allowed (fun _ _ _ hI hC he => Home.step hI hC he) hr ha h

/-- **Handlers return home.** In every run of a process that starts outside handlers, and in which a
handler starts only when no other one is running: when the last handler returns, the program goes
on at the `rip` and with the `rsp` of the context that was interrupted first. -/
theorem handlers_return_home {p q : Task} {n : Nest} {es : List Event} {u : Regs}
    (hr : Nest.run ⟨p, []⟩ es = some n)
    (ha : Transition.Allowed Nest.step Alone ⟨p, []⟩ es) (hn : n.contexts = [u])
    (hq : n.task.step (.trap (.syscall .sigret)) = some q)
    (hno : ¬ n.task.Delivers (.syscall .sigret)) :
    q.regs.rip = u.rip ∧ q.regs.rsp = u.rsp := by
  have hhome : n.Home := Home.run (n := ⟨p, []⟩) (fun u hu => by cases hu) ha hr
  obtain ⟨-, hrip, hrsp⟩ := hhome u (by simp [hn])
  rw [Task.step_quiet hno hq]
  exact ⟨n.task.tfBackup.rcx_eq.trans hrip, hrsp⟩

/-- The process of `alarmed`, with nothing running but itself. -/
def alone : Nest := ⟨Task.alarmed 5 7 0, []⟩

/-- The handler runs through to the system call of the trampoline. -/
def finish (n : Nest) : Option Nest :=
  n.task.leave.bind fun s => n.step (.user s.regs s.mem)

/-- The registers of the context that is interrupted first. -/
def first : Regs := (Task.alarmed 5 7 0).interrupted Task.timer

/-- A timer interrupt starts the handler, which goes on to a `sigret` of its own. -/
def aloneSession : List Event :=
  [.trap Task.timer, .user { first with rax := SYS_sigret } fun _ => 0]

theorem alone_returns_home : ∃ n ∈ alone.run aloneSession, n.contexts = [first] ∧
    ∃ q ∈ n.task.step (.trap (.syscall .sigret)),
      q.regs.rip = first.rip ∧ q.regs.rsp = first.rsp := by
  have hrun : ∃ n ∈ alone.run aloneSession, n.contexts = [first] ∧
      ∃ q ∈ n.task.step (.trap (.syscall .sigret)), ¬ n.task.Delivers (.syscall .sigret) := by
    decide +kernel
  obtain ⟨n, hn, hone, q, hq, hno⟩ := hrun
  have hallowed : Transition.Allowed Nest.step Alone alone aloneSession := by decide +kernel
  exact ⟨n, hn, hone, q, hq, handlers_return_home hn hallowed hone hq hno⟩

/-- A second signal arrives while the handler runs. Its handler has returned, and the first one is
about to. -/
def nested : Option Nest := do
  let n₁ ← alone.run [.trap Task.timer, .post 14, .trap Task.timer]
  let s₁ ← n₁.finish
  let n₂ ← s₁.step (.trap (.syscall .sigret))
  n₂.finish

/-- When the first handler returns, the program goes on in the handler. -/
theorem nested_loses_context :
    ∃ n ∈ nested, n.contexts = [first] ∧
      ∃ q ∈ n.task.step (.trap (.syscall .sigret)), ¬ n.task.Delivers (.syscall .sigret) ∧
        first.rip = 0x2000 ∧ q.regs.rip = 0x1000 ∧
        first.rsp = 0x8000 ∧ q.regs.rsp = 0x7fe8 := by
  decide +kernel

end Nest

end Xv6.Signal
