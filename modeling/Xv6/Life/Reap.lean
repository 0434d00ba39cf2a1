import Xv6.Life.Family
import Xv6.Life.Occupancy

/-!
# `fork`, `exit` and `wait`

Every step of the machine is an operation on the family of its processes, or leaves the family
alone (`effect_family`). So the chronicle of a run is proper, whatever the interleaving
(`chronicle_proper`): no pid is returned by two calls of `wait`, and `wait` fails only when there
is nothing to wait for.

The other half is about sleeping: `exit` wakes the parent before it becomes a ZOMBIE, and wakes
init when it passes a ZOMBIE on to it, all in one section under `ptable.lock`; so nobody sleeps in
`wait` who has a ZOMBIE to collect (`Attends`).

Main result: `children_reaped_once`.
-/

namespace Xv6.Sched

/-- How far a process is in its life. -/
def Procstate.phase : Procstate → Life.Phase
  | .unused => .unused
  | .embryo => .embryo
  | .sleeping | .runnable | .running => .live
  | .zombie => .zombie

end Xv6.Sched

namespace Xv6.Life

open Sched Transition Machine Kernel Proc Sys
open Family (apply deeds ext)

/-- The call a thread is in. -/
def Stage.call : Stage → Option Call
  | .held call | .set call | .back call => some call
  | _ => none

/-- The thread sleeps in `wait`. -/
def Stage.InWait (st : Stage) : Prop := st = .set .wait ∨ st = .back .wait

/-- The child that already has this process for parent. -/
def Point.making : Point → Option Slot
  | .copied np => some np
  | _ => none

namespace Sys

variable {ncpu : Nat} {m m' : Sys ncpu} {e : Event ncpu}

/-! ## The family of a machine -/

/-- The processes of a kernel, whose threads are at the points `q`, as a family. -/
def familyOf (k : Kernel) (q : Slot → Point) : Family Slot where
  pid i := (k.proc i).pid
  parent i := (k.proc i).parent
  phase i := (k.proc i).state.phase
  making i := (q i).making
  nextpid := k.nextpid
  init := k.initproc

/-- The processes of the machine as a family. -/
abbrev family (m : Sys ncpu) : Family Slot := familyOf m.toKernel m.point

/-- The operation a step is. -/
def op (m : Sys ncpu) : Event ncpu → Option (Op Slot)
  | .forkAlloc _ _ => (freeSlot m.proc).map .alloc
  | .forkFail _ _ np => some (.abort np)
  | .forkCopy _ i np => some (.attach i np)
  | .forkDone _ i np => some (.bear i np)
  | .store _ i .exit => some (.die i)
  | .waitReap _ i j => some (.reap i j)
  | .waitFail _ i => some (.giveUp i (m.proc i).killed)
  | _ => none

/-- The chronicle of a run: what `fork` and `wait` return, and the exits. -/
def record (H : Chronicle) (m : Sys ncpu) : Event ncpu → Chronicle
  | .forkDone _ i np => H ++ [.forked (m.proc i).pid (m.proc np).pid]
  | .store _ i .exit => H ++ [.exited (m.proc i).pid]
  | .waitReap _ i j => H ++ [.waited (m.proc i).pid (m.proc j).pid]
  | .waitFail _ i => H ++ [.waitFailed (m.proc i).pid (m.proc i).killed]
  | _ => H

theorem record_eq (H : Chronicle) (m : Sys ncpu) (e : Event ncpu) :
    record H m e = H ++ ((m.op e).map m.family.deeds).getD [] := by
  cases e with
  | store c i call => cases call <;> simp [record, op, deeds, familyOf]
  | forkAlloc c i =>
    simp only [record, op]
    cases freeSlot m.proc <;> simp [deeds]
  | _ => simp [record, op, deeds, familyOf]

theorem familyOf_eq {k k' : Kernel} (q : Slot → Point)
    (hpid : ∀ j, (k'.proc j).pid = (k.proc j).pid)
    (hparent : ∀ j, (k'.proc j).parent = (k.proc j).parent)
    (hphase : ∀ j, (k'.proc j).state.phase = (k.proc j).state.phase)
    (hnext : k'.nextpid = k.nextpid) (hinit : k'.initproc = k.initproc) :
    familyOf k' q = familyOf k q := by
  simp [familyOf, hpid, hparent, hphase, hnext, hinit]

theorem familyOf_setProc (k : Kernel) (q : Slot → Point) (i : Slot) (p : Proc) :
    familyOf (k.setProc i p) q =
      { familyOf k q with
        pid := Function.update (familyOf k q).pid i p.pid
        parent := Function.update (familyOf k q).parent i p.parent
        phase := Function.update (familyOf k q).phase i p.state.phase } := by
  have hcomp : ∀ {β : Type} (obs : Proc → β), (fun j => obs ((k.setProc i p).proc j)) =
      Function.update (fun j => obs (k.proc j)) i (obs p) := by
    intro β obs
    funext j
    rw [setProc_proc, Function.update_apply]
    split <;> rfl
  exact ext (hcomp pid) (hcomp parent) (hcomp fun p => p.state.phase) rfl rfl rfl

theorem familyOf_setPoint (k : Kernel) (q : Slot → Point) (i : Slot) (x : Point) :
    familyOf k (Function.update q i x) =
      { familyOf k q with making := Function.update (familyOf k q).making i x.making } := by
  refine ext rfl rfl rfl (funext fun j => ?_) rfl rfl
  simp only [familyOf, Function.update_apply]
  split <;> rfl

theorem familyOf_same {k : Kernel} {q : Slot → Point} {i : Slot} {p : Proc}
    (hpid : p.pid = (k.proc i).pid) (hparent : p.parent = (k.proc i).parent)
    (hphase : p.state.phase = (k.proc i).state.phase) :
    familyOf (k.setProc i p) q = familyOf k q := by
  rw [familyOf_setProc, hpid, hparent, hphase]
  simp [familyOf]

/-- Moving to a point where no child has its parent yet, from another one. -/
theorem familyOf_point {k : Kernel} {q : Slot → Point} {i : Slot} {x : Point}
    (hx : x.making = (q i).making) : familyOf k (Function.update q i x) = familyOf k q := by
  rw [familyOf_setPoint, hx]
  simp [familyOf]

end Sys

/-! ## What the steps do to the family -/

variable {k : Kernel} {j i : Slot}

theorem choose_proc_frame {β : Type} (obs : Proc → β)
    (hobs : ∀ (p : Proc) level left wait sc start first st, obs { p with
      queueLevel := level, ticksRemaining := left, waitTicks := wait, effectiveScore := sc,
      burstStartTick := start, firstRunTick := first, state := st } = obs p) :
    obs ((choose k).1.proc j) = obs (k.proc j) := by
  have hframe := scheduler_proc_frame (k := k) (i := j) obs hobs
  unfold choose
  split
  · next k' b h =>
      rw [h] at hframe
      rw [← hframe, setProc_proc]
      split
      · next hj => rw [hj]; exact hobs (k'.proc b) _ _ _ _ _ _ _
      · rfl
  · next k' h =>
      rw [h] at hframe
      exact hframe

theorem choose_nextpid (k : Kernel) : (choose k).1.nextpid = k.nextpid := by
  have hframe := scheduler_nextpid (k := k)
  unfold choose
  split <;> next h => rw [h] at hframe; exact hframe

theorem choose_initproc (k : Kernel) : (choose k).1.initproc = k.initproc := by
  have hframe := scheduler_initproc (k := k)
  unfold choose
  split <;> next h => rw [h] at hframe; exact hframe

theorem Stir.phase {s s' : Procstate} (h : Stir s s') : s'.phase = s.phase := by
  rcases h with rfl | ⟨rfl, rfl⟩ <;> rfl

/-- A state no wakeup leads to was there before. -/
theorem Stir.of_ne {s s' x : Procstate} (h : Stir s s') (hx : s' = x) (hne : x ≠ .runnable) :
    s = x := by
  rcases h with h | ⟨-, h⟩
  · exact h.symm.trans hx
  · exact absurd (hx.symm.trans h) hne

theorem Section.body_pid (s : Section) (k : Kernel) (j : Slot) :
    ((s.body k).proc j).pid = (k.proc j).pid :=
  (s.body_stirred k j).frame pid fun _ _ _ _ _ _ => rfl

theorem Section.body_parent (s : Section) (k : Kernel) (j : Slot) :
    ((s.body k).proc j).parent = (k.proc j).parent := by
  cases s with
  | wakeup chan => simp only [Section.body, wakeup1]; split <;> rfl
  | kill pid signum =>
    simp only [Section.body, Sched.kill]
    split
    · rfl
    · rw [setProc_proc]
      split
      · next h => rw [h]
      · rfl
  | checkAlarms =>
    simp only [Section.body, Sched.checkAlarms, checkAlarm]
    split_ifs <;> rfl

theorem Section.body_nextpid (s : Section) (k : Kernel) : (s.body k).nextpid = k.nextpid := by
  cases s with
  | kill pid signum => exact kill_frame nextpid (fun _ _ _ => rfl) pid signum k
  | _ => rfl

theorem Section.body_initproc (s : Section) (k : Kernel) : (s.body k).initproc = k.initproc := by
  cases s with
  | kill pid signum => exact kill_frame initproc (fun _ _ _ => rfl) pid signum k
  | _ => rfl

theorem releaseAgentSlot_globals (i : Slot) (k : Kernel) :
    (releaseAgentSlot i k).initproc = k.initproc ∧ (releaseAgentSlot i k).nextpid = k.nextpid := by
  unfold releaseAgentSlot
  split <;> exact ⟨rfl, rfl⟩

theorem wakeup1_frame {β : Type} (obs : Proc → β) (hobs : ∀ p s, obs { p with state := s } = obs p)
    (chan : Chan) (k : Kernel) (j : Slot) : obs ((wakeup1 chan k).proc j) = obs (k.proc j) := by
  simp only [wakeup1]
  split
  · exact hobs _ _
  · rfl

theorem wakeup1_asleep {chan : Chan} (h : ((wakeup1 chan k).proc j).state = .sleeping) :
    (k.proc j).state = .sleeping ∧ (k.proc j).chan ≠ chan := by
  simp only [wakeup1] at h
  split at h
  · cases h
  · next hno => exact ⟨h, fun hc => hno ⟨h, hc⟩⟩

theorem wakeup1_zombie (chan : Chan) (k : Kernel) (j : Slot) :
    ((wakeup1 chan k).proc j).state = .zombie ↔ (k.proc j).state = .zombie := by
  simp only [wakeup1]
  split <;> simp_all

theorem adopt_frame {β : Type} (obs : Proc → β) (hobs : ∀ p q, obs { p with parent := q } = obs p)
    (i : Slot) (k : Kernel) (j : Slot) : obs ((adopt i k).proc j) = obs (k.proc j) := by
  simp only [adopt]
  split
  · exact hobs _ _
  · rfl

theorem adopt_parent (i : Slot) (k : Kernel) (j : Slot) : ((adopt i k).proc j).parent =
    if (k.proc j).parent = some i then some k.initproc else (k.proc j).parent := by
  simp only [adopt]
  split <;> rfl

/-- `exit` passes its children to init. -/
theorem zombify_parent (i : Slot) (k : Kernel) (j : Slot) : ((zombify i k).proc j).parent =
    if (k.proc j).parent = some i then some k.initproc else (k.proc j).parent := by
  have hwake := wakeup1_frame parent (fun _ _ => rfl)
  have hset : ∀ k₂ : Kernel, ((k₂.setProc i { k₂.proc i with state := .zombie }).proc j).parent =
      (k₂.proc j).parent := by
    intro k₂
    rw [setProc_proc]
    split
    · next h => rw [h]
    · rfl
  simp only [zombify, hset]
  split
  · rw [hwake, adopt_parent, hwake]; rfl
  · rw [adopt_parent, hwake]; rfl

/-- **Who still sleeps after an `exit`** slept neither on the parent nor, if a ZOMBIE was passed
on, on init. -/
theorem zombify_asleep (h : ((zombify i k).proc j).state = .sleeping) :
    (k.proc j).state = .sleeping ∧ (k.proc j).chan ≠ ((k.proc i).parent.map Chan.proc).getD .null ∧
      ((∃ z, (k.proc z).parent = some i ∧ (k.proc z).state = .zombie) →
        (k.proc j).chan ≠ .proc k.initproc) := by
  have hparent := wakeup1_frame parent (fun _ _ => rfl)
  have hchan := wakeup1_frame chan (fun _ _ => rfl)
  have hset : ∀ k₂ : Kernel,
      ((k₂.setProc i { k₂.proc i with state := .zombie }).proc j).state = .sleeping →
      (k₂.proc j).state = .sleeping := by
    intro k₂ h₂
    rw [setProc_proc] at h₂
    split at h₂
    · cases h₂
    · exact h₂
  have hadopt := adopt_frame state (fun _ _ => rfl) i
  simp only [zombify, hparent, wakeup1_zombie] at h
  have h := hset _ h
  split at h
  · next hex =>
      obtain ⟨h₁, hne⟩ := wakeup1_asleep h
      rw [hadopt] at h₁
      rw [adopt_frame chan (fun _ _ => rfl), hchan] at hne
      obtain ⟨h₂, hne'⟩ := wakeup1_asleep h₁
      exact ⟨h₂, hne', fun _ => hne⟩
  · next hex =>
      rw [hadopt] at h
      obtain ⟨h₂, hne'⟩ := wakeup1_asleep h
      exact ⟨h₂, hne', fun hz => absurd hz hex⟩

theorem zombieChild_parent {t : Table} (h : zombieChild t i = some j) :
    (t j).parent = some i := by
  rw [zombieChild] at h
  simpa using And.left (by simpa using List.find?_some h)

/-- `wait` overlooks no ZOMBIE. -/
theorem zombieChild_none {t : Table} (h : zombieChild t i = none)
    (hj : (t j).parent = some i) : (t j).state ≠ .zombie := by
  rw [zombieChild, List.find?_eq_none] at h
  simpa [hj] using h j (List.mem_finRange j)

namespace Sys

variable {ncpu : Nat} {m m' : Sys ncpu} {e : Event ncpu}

/-- A process in `exit` is not init, and a process in a call is at the point the call is entered
from. -/
def Calls (m : Sys ncpu) : Prop :=
  ∀ i, (m.point i = .exiting → i ≠ m.initproc) ∧
    ∀ call, (m.stage i).call = some call → call.From (m.point i)

theorem effect_initproc : (m.effect e).initproc = m.initproc := by
  cases e with
  | passSelect c => exact choose_initproc _
  | store c i call =>
    cases call with
    | exit =>
      simp only [effect, setStage, onKernel, Call.body]
      rw [zombify_eq]
      exact (releaseAgentSlot_globals i m.toKernel).1
    | _ => rfl
  | resume c i => simp only [effect]; split <;> rfl
  | forkAlloc c i => simp only [effect]; split <;> rfl
  | perform c s => exact s.body_initproc _
  | _ => rfl

theorem Calls.effect (h : m.Calls) (he : m.Enabled e) : (m.effect e).Calls := by
  intro j
  rw [effect_initproc]
  have hj := h j
  cases e with
  | acquire c i call =>
    obtain ⟨-, hfrom, -⟩ := he
    refine ⟨hj.1, fun call' hst => ?_⟩
    by_cases hji : j = i
    · subst hji
      obtain rfl : call = call' := by simpa [effect, Stage.call] using hst
      exact hfrom
    · exact hj.2 call' (by simpa [effect, hji] using hst)
  | resume c i =>
    simp only [effect]
    split <;> simp only [onKernel, setProc, setStage, release, Function.update_apply] <;>
      grind [Stage.call]
  | forkAlloc c i =>
    simp only [effect]
    split <;> simp only [onKernel, setPoint, setStage, release, Function.update_apply] <;>
      grind [Stage.call]
  | forkContext | forkFail | forkCopy | forkDone | exitCall | fault | waitReap | waitFail
  | store | swtchOut =>
    simp only [Enabled, At] at he
    simp only [effect, onKernel, setProc, setPoint, setStage, setSaved, goto, release,
      Function.update_apply]
    grind [Stage.call]
  | _ => exact hj

/-- The last section of `exit` in the family. -/
theorem familyOf_exit (i : Slot) (k : Kernel) (q : Slot → Point) :
    familyOf (zombify i (releaseAgentSlot i k)) q = (familyOf k q).apply (.die i) := by
  have hrel := releaseAgentSlot_proc i k
  have hinit := (releaseAgentSlot_globals i k).1
  refine ext (funext fun j => ?_) (funext fun j => ?_) (funext fun j => ?_) rfl ?_ ?_
  · obtain ⟨p, hp, hz⟩ := zombify_proc i (releaseAgentSlot i k) j
    have hpid : p.pid = (k.proc j).pid := by
      rw [hp.frame pid fun _ _ _ _ _ _ => rfl, hrel]
    simp only [familyOf, hz, apply]
    split <;> exact hpid
  · simp only [familyOf, zombify_parent, hrel, hinit, apply]
    by_cases hj : (k.proc j).parent = some i <;> simp [hj]
  · obtain ⟨p, hp, hz⟩ := zombify_proc i (releaseAgentSlot i k) j
    simp only [familyOf, apply, Function.update_apply, hz]
    split
    · rfl
    · rw [hrel] at hp
      exact Stir.phase hp.state
  · rw [familyOf, zombify_eq]; exact (releaseAgentSlot_globals i k).2
  · rw [familyOf, zombify_eq]; exact hinit

/-- **Every step is an operation on the family, or leaves it alone.** -/
theorem effect_family (h : m.Occ) (hc : m.Calls) (t : m.family.Tree) (he : m.Enabled e) :
    (m.effect e).family = (m.op e).elim m.family m.family.apply ∧
      ∀ o ∈ m.op e, m.family.Guard o := by
  have hchild : ∀ i np, (m.point i).making = some np → (m.point i).child = some np := by
    intro i np
    cases m.point i <;> simp [Point.making, Point.child]
  -- a child that does not have its parent yet is in the making of nobody
  have hnone : ∀ i np, (m.point i).child = some np → (m.point i).making = none →
      ∀ j, m.family.making j ≠ some np := by
    intro i np hi hi' j hj
    obtain rfl := h.child_inj i j np hi (hchild j np hj)
    exact absurd (hi'.symm.trans hj) (by simp)
  have hembryo : ∀ i np, (m.point i).child = some np → m.family.phase np = .embryo := by
    intro i np hi
    simp [familyOf, h.child_embryo i np hi, Procstate.phase]
  have hlive : ∀ i, (m.proc i).state = .running → m.family.phase i = .live := by
    intro i hi
    simp [familyOf, hi, Procstate.phase]
  cases e with
  | passSelect c =>
    refine ⟨familyOf_eq _ (fun j => ?_) (fun j => ?_) (fun j => ?_) (choose_nextpid _)
      (choose_initproc _), by simp [op]⟩
    · exact choose_proc_frame pid fun _ _ _ _ _ _ _ _ => rfl
    · exact choose_proc_frame parent fun _ _ _ _ _ _ _ _ => rfl
    · exact congrArg Procstate.phase (choose_state _ j)
  | passRun c b =>
    have hloc : m.loc c = .armed b := he
    have hrow := h.row_mine c b (by rw [hloc]; rfl)
    rw [Row, hloc] at hrow
    exact ⟨familyOf_same rfl rfl (by rw [hrow.1]; rfl), by simp [op]⟩
  | store c i call =>
    have hrun : (m.proc i).state = .running := h.row_at he.1
    have hphase : ∀ s : Procstate, s = .runnable ∨ s = .sleeping →
        s.phase = (m.proc i).state.phase := by
      rintro s (rfl | rfl) <;> rw [hrun] <;> rfl
    cases call with
    | yield => exact ⟨familyOf_same rfl rfl (hphase _ (.inl rfl)), by simp [op]⟩
    | sleep chan => exact ⟨familyOf_same rfl rfl (hphase _ (.inr rfl)), by simp [op]⟩
    | wait => exact ⟨familyOf_same rfl rfl (hphase _ (.inr rfl)), by simp [op]⟩
    | fork => exact absurd he.2 id
    | exit =>
      have hpoint : m.point i = .exiting := (hc i).2 .exit (by rw [he.1.2.2]; rfl)
      refine ⟨familyOf_exit i _ _, ?_⟩
      simp only [op, Option.mem_some_iff, forall_eq']
      exact ⟨hlive i hrun, (hc i).1 hpoint, by simp [familyOf, hpoint, Point.making]⟩
  | resume c i =>
    refine ⟨?_, by simp [op]⟩
    simp only [effect]
    split
    · exact familyOf_same rfl rfl rfl
    · exact familyOf_same rfl rfl rfl
    · rfl
  | waitReap c i j =>
    obtain ⟨ha, hz⟩ := he
    have hzombie : m.family.phase j = .zombie := by
      simp [familyOf, zombieChild_zombie hz, Procstate.phase]
    have hmaking : (m.point j).making = none := by
      by_contra hne
      obtain ⟨np, hnp⟩ := Option.ne_none_iff_exists'.mp hne
      have := t.parent_live np j (t.making_parent j np hnp).1
      rw [hzombie] at this; cases this
    refine ⟨?_, ?_⟩
    · refine (familyOf_point (q := m.point) (x := .user) hmaking.symm).trans ?_
      exact familyOf_setProc _ _ _ _
    · simp only [op, Option.mem_some_iff, forall_eq']
      exact ⟨hlive i (h.row_at ha), hzombie, zombieChild_parent hz⟩
  | waitFail c i =>
    obtain ⟨ha, hz, hkids⟩ := he
    refine ⟨rfl, ?_⟩
    simp only [op, Option.mem_some_iff, forall_eq']
    refine ⟨hlive i (h.row_at ha), fun hk j hj => ?_⟩
    rcases hkids with hno | hk'
    · exact hno ⟨j, hj⟩
    · rw [hk] at hk'; cases hk'
  | forkAlloc c i =>
    have hpoint : (m.point i).making = none := by
      rw [(hc i).2 .fork (by rw [he.2.2]; rfl)]; rfl
    simp only [effect, op]
    cases hfree : freeSlot m.proc with
    | none => exact ⟨rfl, by simp⟩
    | some np =>
      simp only [Option.map_some, Option.elim, Option.mem_some_iff, forall_eq']
      refine ⟨?_, by simp [Family.Guard, familyOf, freeSlot_unused hfree, Procstate.phase]⟩
      refine (familyOf_point (q := m.point) (x := .forking np) hpoint.symm).trans ?_
      refine (congrArg (fun f : Family Slot => { f with nextpid := f.nextpid + 1 })
        (familyOf_setProc m.toKernel m.point np _)).trans ?_
      simp [apply, familyOf, Procstate.phase]
  | forkContext c i np =>
    have hpoint : (m.point i).making = none := by rw [he.2]; rfl
    exact ⟨familyOf_point (q := m.point) (x := .prepared np) hpoint.symm, by simp [op]⟩
  | forkFail c i np =>
    obtain ⟨-, hp⟩ := he
    have hpoint : (m.point i).child = some np ∧ (m.point i).making = none := by
      rcases hp with hp | hp <;> rw [hp] <;> exact ⟨rfl, rfl⟩
    refine ⟨(familyOf_point (q := m.point) (x := .user) hpoint.2.symm).trans ?_, ?_⟩
    · refine (familyOf_setProc _ _ _ _).trans ?_
      simp [op, apply, familyOf, Procstate.phase]
    · simp only [op, Option.mem_some_iff, forall_eq']
      exact ⟨hembryo i np hpoint.1, hnone i np hpoint.1 hpoint.2⟩
  | forkCopy c i np =>
    obtain ⟨ha, hp⟩ := he
    have hpoint : (m.point i).child = some np ∧ (m.point i).making = none := by
      rw [hp]; exact ⟨rfl, rfl⟩
    refine ⟨(familyOf_setPoint (m.toKernel.setProc np _) m.point i _).trans ?_, ?_⟩
    · rw [familyOf_setProc]
      simp [op, apply, familyOf, Point.making]
    · simp only [op, Option.mem_some_iff, forall_eq']
      exact ⟨hembryo i np hpoint.1, hlive i (h.row_at ha), hnone i np hpoint.1 hpoint.2, hpoint.2⟩
  | forkDone c i np =>
    obtain ⟨ha, hp⟩ := he
    refine ⟨(familyOf_setPoint (m.toKernel.setProc np _) m.point i _).trans ?_, ?_⟩
    · rw [familyOf_setProc]
      simp [op, apply, familyOf, Point.making, Procstate.phase]
    · simp only [op, Option.mem_some_iff, forall_eq']
      exact ⟨hembryo i np (by rw [hp]; rfl), hlive i (h.row_at ha),
        by simp [familyOf, hp, Point.making]⟩
  | exitCall c i =>
    have hpoint : (m.point i).making = none := by rw [he.2.1]; rfl
    exact ⟨familyOf_point (q := m.point) (x := .exiting) hpoint.symm, by simp [op]⟩
  | fault c i =>
    have hpoint : (m.point i).making = none := by rw [he.2.1]; rfl
    refine ⟨(familyOf_point (q := m.point) (x := .exiting) hpoint.symm).trans ?_, by simp [op]⟩
    exact familyOf_same rfl rfl rfl
  | perform c s =>
    refine ⟨familyOf_eq _ (s.body_pid _) (s.body_parent _) (fun j => ?_) (s.body_nextpid _)
      (s.body_initproc _), by simp [op]⟩
    exact Stir.phase (s.body_stirred _ j).state
  | telemetry c i =>
    refine ⟨familyOf_same ?_ ?_ ?_, by simp [op]⟩
    · exact telemetry_frame pid fun _ _ _ _ _ _ _ => rfl
    · exact telemetry_frame parent fun _ _ _ _ _ _ _ => rfl
    · rw [telemetry_state]
  | _ => exact ⟨rfl, by simp [op]⟩

/-! ## The chronicle of a run -/

/-- The machine and its chronicle agree. -/
structure Recorded (m : Sys ncpu) (H : Chronicle) : Prop where
  occ : m.Occ
  calls : m.Calls
  tree : m.family.Tree
  kin : m.family.Kin H
  proper : H.Proper 1
  init_pid : m.family.pid m.family.init = 1

theorem Recorded.effect {H : Chronicle} (h : m.Recorded H) (he : m.Enabled e) :
    (m.effect e).Recorded (record H m e) := by
  obtain ⟨hfam, hguard⟩ := effect_family h.occ h.calls h.tree he
  have hocc := h.occ.effect he
  have hcalls := h.calls.effect he
  rw [record_eq]
  cases hop : m.op e with
  | none =>
    rw [hop] at hfam
    simp only [Option.map_none, Option.getD_none, List.append_nil]
    exact ⟨hocc, hcalls, hfam ▸ h.tree, hfam ▸ h.kin, h.proper, hfam ▸ h.init_pid⟩
  | some o =>
    have hg := hguard o hop
    rw [hop] at hfam
    have hdeeds := h.kin.proper h.tree hg
    rw [h.init_pid] at hdeeds
    refine ⟨hocc, hcalls, hfam ▸ h.tree.apply hg, hfam ▸ h.kin.op h.tree hg, ?_, ?_⟩
    · simp only [Option.map_some, Option.getD_some]
      cases o with
      | bear | die | reap | giveUp => exact h.proper.append (hdeeds _ (by simp [deeds]))
      | alloc | abort | attach => simpa [deeds] using h.proper
    · rw [hfam]
      exact (h.tree.init_pid hg).trans h.init_pid

theorem boot_proc (i : Slot) :
    ((boot ncpu).proc i).pid = (if i = 0 then 1 else 0) ∧ ((boot ncpu).proc i).parent = none ∧
      ((boot ncpu).proc i).state = if i = 0 then .runnable else .unused := by
  by_cases hi : i = 0 <;>
    simp [boot, bootKernel, allocproc, setProc_proc, zero, hi]

theorem boot_recorded : (boot ncpu).Recorded [] := by
  have hphase : ∀ i : Slot, (boot ncpu).family.phase i = if i = 0 then .live else .unused := by
    intro i
    simp only [familyOf, (boot_proc i).2.2]
    split <;> rfl
  have hused : ∀ i : Slot, (boot ncpu).family.phase i ≠ .unused → i = 0 := by
    intro i hi
    by_contra hne
    exact hi ((hphase i).trans (if_neg hne))
  have hpid : (boot ncpu).family.pid 0 = 1 := by
    simpa [familyOf] using (@boot_proc ncpu 0).1
  have hparent : ∀ i : Slot, (boot ncpu).family.parent i = none := fun i => (boot_proc i).2.1
  have hmaking : ∀ i : Slot, (boot ncpu).family.making i = none := fun _ => rfl
  have hmade : ∀ i : Slot, ¬ (boot ncpu).family.Made i := by
    rintro i ⟨hi, hne⟩
    exact hne (hused i (by rcases hi with hi | hi <;> simp [hi]))
  refine ⟨boot_occ, fun i => ?_, ?_, ?_, ?_, hpid⟩
  · refine ⟨fun hi => by simp [boot] at hi, fun call hcall => ?_⟩
    simp only [boot] at hcall
    split at hcall <;> simp [Stage.call] at hcall
  · refine ⟨fun i hi => ?_, fun i j hi hj _ => ?_, hphase 0, ?_, ?_, ?_, ?_, hparent _, ?_⟩
    · rw [hused i hi, hpid]
      exact (by decide : (1 : Int) < 2)
    · rw [hused i hi, hused j hj]
    all_goals simp [hparent, hmaking]
  · refine ⟨?_, ?_, ?_, ?_, ?_, ?_, fun j hj => absurd hj (hmade j), ?_⟩ <;> simp
  · intro past d later heq
    simp at heq

/-! ## Nobody sleeps past a ZOMBIE -/

/-- A process that sleeps in `wait` has no ZOMBIE to collect. -/
def Attends (m : Sys ncpu) : Prop :=
  ∀ i, (m.proc i).state = .sleeping → (m.stage i).InWait →
    (m.proc i).chan = .proc i ∧ ∀ j, (m.proc j).parent = some i → (m.proc j).state ≠ .zombie

theorem Attends.mono (h : m.Attends)
    (hsleep : ∀ i, (m'.proc i).state = .sleeping → (m'.stage i).InWait →
      (m.proc i).state = .sleeping ∧ (m.stage i).InWait ∧ (m'.proc i).chan = (m.proc i).chan)
    (hzombie : ∀ j, (m'.proc j).state = .zombie →
      (m.proc j).state = .zombie ∧ (m.proc j).parent = (m'.proc j).parent) : m'.Attends := by
  intro i hi hw
  obtain ⟨hi', hw', hchan⟩ := hsleep i hi hw
  obtain ⟨hc, hkids⟩ := h i hi' hw'
  refine ⟨hchan.trans hc, fun j hj hz => ?_⟩
  obtain ⟨hz', hpar⟩ := hzombie j hz
  exact hkids j (hpar.trans hj) hz'

theorem Attends.rewrite (h : m.Attends) (i : Slot) (hproc : ∀ j, j ≠ i → m'.proc j = m.proc j)
    (hstage : ∀ j, j ≠ i → (m'.stage j).InWait → (m.stage j).InWait)
    (hz : (m'.proc i).state ≠ .zombie)
    (hs : (m'.proc i).state = .sleeping → ¬ (m'.stage i).InWait) : m'.Attends := by
  refine h.mono (fun j hj hw => ?_) fun j hj => ?_
  · have hji : j ≠ i := by
      rintro rfl
      exact hs hj hw
    rw [hproc j hji] at hj ⊢
    exact ⟨hj, hstage j hji hw, rfl⟩
  · have hji : j ≠ i := by
      rintro rfl
      exact hz hj
    rw [hproc j hji] at hj ⊢
    exact ⟨hj, rfl⟩

theorem Attends.release (h : m.Attends) (i : Slot) : (m.release i).Attends := by
  refine h.mono (fun j hj hw => ⟨hj, ?_, rfl⟩) fun j hj => ⟨hj, rfl⟩
  by_cases hji : j = i
  · subst hji; simp [Stage.InWait] at hw
  · simpa [hji] using hw

/-- The last section of `exit` leaves nobody asleep in `wait` who has a ZOMBIE to collect. -/
theorem Attends.exit {c : Fin ncpu} {i : Slot} (h : m.Attends) (t : m.family.Tree) :
    (m.effect (.store c i .exit)).Attends := by
  intro x hx hw
  have hrel := releaseAgentSlot_proc i m.toKernel
  have hinit := (releaseAgentSlot_globals i m.toKernel).1
  obtain ⟨hasleep, hparent, hpassed⟩ := zombify_asleep hx
  have hxi : x ≠ i := by
    rintro rfl
    obtain ⟨p, -, hz⟩ := zombify_proc x (releaseAgentSlot x m.toKernel) x
    have hx : ((zombify x (releaseAgentSlot x m.toKernel)).proc x).state = .sleeping := hx
    rw [hz, if_pos rfl] at hx; cases hx
  rw [hrel] at hasleep hparent hpassed
  rw [hinit] at hpassed
  obtain ⟨hchan, hkids⟩ := h x hasleep (by simpa [effect, hxi] using hw)
  refine ⟨?_, fun j hj hz => ?_⟩
  · obtain ⟨p, hp, hz⟩ := zombify_proc i (releaseAgentSlot i m.toKernel) x
    rw [hrel] at hp
    refine Eq.trans (congrArg chan (hz.trans (if_neg hxi))) ?_
    exact (hp.frame chan fun _ _ _ _ _ _ => rfl).trans hchan
  · have hj : ((zombify i (releaseAgentSlot i m.toKernel)).proc j).parent = some x := hj
    rw [zombify_parent, hrel, hinit] at hj
    by_cases hji : j = i
    · -- the process that exits: its parent was woken
      subst hji
      have hne : (m.proc j).parent ≠ some j := t.parent_ne j
      rw [if_neg hne] at hj
      rw [hj] at hparent
      exact hparent hchan
    · have hzj : (m.proc j).state = .zombie := by
        obtain ⟨p, hp, hz'⟩ := zombify_proc i (releaseAgentSlot i m.toKernel) j
        have hz : ((zombify i (releaseAgentSlot i m.toKernel)).proc j).state = .zombie := hz
        rw [hz', if_neg hji] at hz
        rw [hrel] at hp
        exact Stir.of_ne hp.state hz (by simp)
      split at hj
      · -- a ZOMBIE that is passed on: init was woken
        next hpar =>
          obtain rfl : m.initproc = x := Option.some.inj hj
          exact hpassed ⟨j, hpar, hzj⟩ hchan
      · exact hkids j hj hzj

/-- `wait` goes to sleep after it has found no ZOMBIE. -/
theorem Attends.wait {c : Fin ncpu} {i : Slot} (h : m.Attends)
    (he : m.Enabled (.store c i .wait)) : (m.effect (.store c i .wait)).Attends := by
  obtain ⟨-, hz, -⟩ := he
  have hproc : ∀ j, j ≠ i → (m.effect (.store c i .wait)).proc j = m.proc j := by
    intro j hj
    simp [effect, Call.body, setProc_ne, hj]
  have hi : (m.effect (.store c i .wait)).proc i =
      { m.proc i with chan := .proc i, state := .sleeping } := by
    simp [effect, Call.body]
  -- who is a ZOMBIE afterwards was one before, with the same parent
  have hold : ∀ j, ((m.effect (.store c i .wait)).proc j).state = .zombie →
      (m.effect (.store c i .wait)).proc j = m.proc j := by
    intro j hj
    refine hproc j ?_
    rintro rfl
    rw [hi] at hj; cases hj
  intro x hx hw
  by_cases hxi : x = i
  · subst hxi
    refine ⟨by rw [hi], fun j hj hzj => ?_⟩
    rw [hold j hzj] at hj hzj
    exact zombieChild_none hz hj hzj
  · rw [hproc x hxi] at hx ⊢
    obtain ⟨hchan, hkids⟩ := h x hx (by simpa [effect, hxi] using hw)
    refine ⟨hchan, fun j hj hzj => ?_⟩
    rw [hold j hzj] at hj hzj
    exact hkids j hj hzj

theorem Attends.effect (h : m.Attends) (hocc : m.Occ) (t : m.family.Tree) (he : m.Enabled e) :
    (m.effect e).Attends := by
  cases e with
  | passSelect c =>
    refine h.mono (fun j hj hw => ⟨?_, hw, ?_⟩) fun j hj => ⟨?_, ?_⟩
    · rwa [← choose_state]
    · exact choose_proc_frame chan fun _ _ _ _ _ _ _ _ => rfl
    · rwa [← choose_state]
    · exact (choose_proc_frame parent fun _ _ _ _ _ _ _ _ => rfl).symm
  | passRun c b =>
    exact h.rewrite b (fun j hj => by simp [effect, setProc_ne, hj]) (fun _ _ hw => hw)
      (by simp [effect]) (by simp [effect])
  | acquire c i call =>
    refine h.mono (fun j hj hw => ⟨hj, ?_, rfl⟩) fun j hj => ⟨hj, rfl⟩
    by_cases hji : j = i
    · subst hji; simp [effect, Stage.InWait] at hw
    · simpa [effect, hji] using hw
  | swtchOut c i call =>
    refine h.mono (fun j hj hw => ⟨hj, ?_, rfl⟩) fun j hj => ⟨hj, rfl⟩
    by_cases hji : j = i
    · subst hji
      rw [he.2.2]
      rcases hw with hw | hw <;> simp [effect] at hw
      exact .inl (by rw [hw])
    · simpa [effect, hji] using hw
  | store c i call =>
    have hstage : ∀ j, j ≠ i → ((m.effect (.store c i call)).stage j).InWait →
        (m.stage j).InWait := fun j hj hw => by simpa [effect, hj] using hw
    cases call with
    | exit => exact h.exit t
    | fork => exact absurd he.2 id
    | yield =>
      exact h.rewrite i (fun j hj => by simp [effect, Call.body, setProc_ne, hj]) hstage
        (by simp [effect, Call.body, yielded])
        (by simp [effect, Call.body, yielded])
    | sleep chan =>
      exact h.rewrite i (fun j hj => by simp [effect, Call.body, setProc_ne, hj]) hstage
        (by simp [effect, Call.body]) (by simp [effect, Stage.InWait])
    | wait => exact h.wait he
  | resume c i =>
    -- whatever it goes back to, the process is RUNNING
    have hrun : (m.proc i).state = .running := (hocc.resume_running he).1
    simp only [effect]
    split
    · exact h.rewrite i (fun j hj => by simp [setProc_ne, hj])
        (fun j hj hw => by simpa [hj] using hw) (by simp [hrun]) (by simp [hrun])
    · exact h.rewrite i (fun j hj => by simp [setProc_ne, hj])
        (fun j hj hw => by simpa [hj] using hw) (by simp [hrun]) (by simp [hrun])
    · exact h.release i
  | waitReap c i j =>
    refine h.rewrite j (fun k hk => by simp [effect, setProc_ne, hk]) (fun k hk hw => ?_)
      (by simp [effect]) (by simp [effect])
    by_cases hki : k = i
    · subst hki; simp [effect, Stage.InWait] at hw
    · simpa [effect, hk, hki] using hw
  | waitFail c i => exact h.release i
  | forkAlloc c i =>
    simp only [effect]
    split
    · next np hnp =>
        have halloc : ((m.onKernel (allocproc np)).setPoint i (.forking np)).Attends :=
          h.rewrite np (fun j hj => by simp [allocproc, setProc_ne, hj]) (fun _ _ hw => hw)
            (by simp [allocproc]) (by simp [allocproc])
        exact halloc.release i
    · exact h.release i
  | forkContext c i np =>
    have hemb := hocc.child_embryo i np (by rw [he.2]; rfl)
    exact h.rewrite np (fun _ _ => rfl) (fun j hj hw => by simpa [effect, hj] using hw)
      (by simp [effect, hemb]) (by simp [effect, hemb])
  | forkFail c i np =>
    exact h.rewrite np (fun j hj => by simp [effect, setProc_ne, hj])
      (fun j hj hw => by simpa [effect, hj] using hw) (by simp [effect])
      (by simp [effect])
  | forkCopy c i np =>
    have hemb := hocc.child_embryo i np (by rw [he.2]; rfl)
    exact h.rewrite np (fun j hj => by simp [effect, setProc_ne, hj])
      (fun j hj hw => hw) (by simp [effect, hemb]) (by simp [effect, hemb])
  | forkDone c i np =>
    exact h.rewrite np (fun j hj => by simp [effect, setProc_ne, hj])
      (fun j hj hw => hw) (by simp [effect]) (by simp [effect])
  | exitCall c i => exact h
  | fault c i =>
    have hrun : (m.proc i).state = .running := hocc.row_at he.1
    exact h.rewrite i (fun j hj => by simp [effect, setProc_ne, hj])
      (fun j hj hw => hw) (by simp [effect, hrun]) (by simp [effect, hrun])
  | perform c s =>
    refine h.mono (fun j hj hw => ⟨?_, hw, ?_⟩) fun j hj => ⟨?_, (s.body_parent _ j).symm⟩
    · exact Stir.of_ne (s.body_stirred _ j).state hj (by simp)
    · exact (s.body_stirred _ j).frame chan fun _ _ _ _ _ _ => rfl
    · exact Stir.of_ne (s.body_stirred _ j).state hj (by simp)
  | telemetry c i =>
    have hrun : (m.proc i).state = .running := hocc.row_at he
    exact h.rewrite i (fun j hj => by simp [effect, setProc_ne, hj])
      (fun j hj hw => hw) (by simp [effect, hrun]) (by simp [effect, hrun])
  | _ => exact h

/-! ## The result -/

/-- **Children are reaped exactly once and no parent sleeps past a ZOMBIE**, in every run. In the
chronicle of the run, a pid that `wait` returns was returned by a `fork` before, to the process that
waits, or to one that has exited while init (pid 1) waits; no other `wait` returns it, before or
after. When `wait` fails for a process that is not marked killed, every child it could wait for has
been waited for. And while `ptable.lock` is free, who is SLEEPING in `wait` has no ZOMBIE child. -/
theorem children_reaped_once {es : List (Event ncpu)} (h : (boot ncpu).run es = some m)
    {H : Chronicle} (hH : H = track step record (boot ncpu) [] es) :
    (∀ past w c later, H = past ++ .waited w c :: later →
      (∃ p, .forked p c ∈ past ∧ (w = p ∨ w = 1 ∧ .exited p ∈ past)) ∧
      ∀ w', .waited w' c ∉ past ∧ .waited w' c ∉ later) ∧
    (∀ past w later, H = past ++ .waitFailed w false :: later →
      ∀ p c, .forked p c ∈ past → w = p ∨ w = 1 ∧ .exited p ∈ past → ∃ w', .waited w' c ∈ past) ∧
    (m.lock = none → ∀ i j, (m.proc i).state = .sleeping → m.stage i = .back .wait →
      (m.proc j).parent = some i → (m.proc j).state ≠ .zombie) := by
  obtain ⟨hrec, hatt⟩ : m.Recorded H ∧ m.Attends := by
    subst hH
    refine run_track (C := fun _ _ => True) (I := fun m H => m.Recorded H ∧ m.Attends)
      (fun s g e s' hI _ he => ?_) h allowed_true ⟨boot_recorded, ?_⟩
    · obtain ⟨hen, rfl⟩ := step_eq_some.mp he
      exact ⟨hI.1.effect hen, hI.2.effect hI.1.occ hI.1.tree hen⟩
    · intro i hi
      rw [(boot_proc i).2.2] at hi
      split at hi <;> cases hi
  refine ⟨fun past w c later heq => ?_, fun past w later heq => ?_, fun _ i j hs hst hp => ?_⟩
  · have hproper := hrec.proper past _ later heq
    exact ⟨hproper.1, (heq ▸ hrec.proper).waited_once⟩
  · exact hrec.proper past _ later heq
  · exact (hatt i hs (.inr hst)).2 j hp

/-- Init forks, waits in its sleep, collects the child that exits, and finds no other. -/
def familySession : List (Event 1) :=
  [.passAcquire 0, .passSelect 0, .passProc 0 0, .passRun 0 0, .swtchIn 0 0, .resume 0 0,
    .acquire 0 0 .fork, .forkAlloc 0 0, .forkContext 0 0 1, .forkCopy 0 0 1, .forkDone 0 0 1,
    .acquire 0 0 .wait, .store 0 0 .wait, .swtchOut 0 0 .wait, .passClear 0 0, .passRelease 0,
    .passAcquire 0, .passSelect 0, .passProc 0 1, .passRun 0 1, .swtchIn 0 1, .resume 0 1,
    .exitCall 0 1, .acquire 0 1 .exit, .store 0 1 .exit, .swtchOut 0 1 .exit, .passClear 0 1,
    .passRelease 0, .passAcquire 0, .passSelect 0, .passProc 0 0, .passRun 0 0, .swtchIn 0 0,
    .resume 0 0, .waitReap 0 0 1, .acquire 0 0 .wait, .waitFail 0 0]

theorem familySession_reaped_once : ∃ m ∈ (boot 1).run familySession,
    track step record (boot 1) [] familySession =
      [.forked 1 2, .exited 2, .waited 1 2, .waitFailed 1 false] ∧
    (∀ w', .waited w' 2 ∉ ([.waitFailed 1 false] : Chronicle)) ∧
    (∃ w', .waited w' 2 ∈ ([.forked 1 2, .exited 2, .waited 1 2] : Chronicle)) ∧
    (m.lock = none → (m.proc 0).state = .sleeping → m.stage 0 = .back .wait →
      (m.proc 1).parent = some 0 → (m.proc 1).state ≠ .zombie) := by
  have hrun : ((boot 1).run familySession).isSome ∧
      track step record (boot 1) [] familySession =
        [.forked 1 2, .exited 2, .waited 1 2, .waitFailed 1 false] := by decide +kernel
  obtain ⟨hsome, hH⟩ := hrun
  obtain ⟨m, hm⟩ := Option.isSome_iff_exists.mp hsome
  obtain ⟨honce, hfail, hatt⟩ := children_reaped_once hm hH.symm
  refine ⟨m, hm, hH, fun w' => ?_, ?_, fun hl => hatt hl 0 1⟩
  · exact ((honce [.forked 1 2, .exited 2] 1 2 [.waitFailed 1 false] rfl).2 w').2
  · exact hfail [.forked 1 2, .exited 2, .waited 1 2] 1 [] rfl 1 2 (by simp) (.inl rfl)

end Sys

end Xv6.Life
