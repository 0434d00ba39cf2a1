import Xv6.Sync.Pipe
import Xv6.Sync.Waiting

/-!
# Pipes, log, sleep locks and console together

The monitors of the kernel as one system of processes that sleep and wake each other. A pipe is
identified by the number of its `pipealloc`.
-/

namespace Xv6.Sync

open List Transition
open Bytes (Byte)

inductive Mon where
  | pipe (k : Nat)
  | log
  | sleeplock (j : Nat)
  | input
  deriving DecidableEq

@[reducible] def kernel : Mon → Monitor Chan
  | .pipe k => Pipe.monitor k
  | .log => Log.monitor
  | .sleeplock j => SleepLock.monitor j
  | .input => Input.monitor

variable {P : Type} [DecidableEq P] {s s' : Sys P kernel} {es : List (Event P kernel)}

/-! ## Pipes are queues -/

/-- The bytes that the calls on a pipe have stored in it and copied out of it, in the order of its
lock. -/
structure Traffic where
  stored : List Byte
  got : List Byte

namespace Traffic

/-- What the next action of a call on the pipe stores or copies out. -/
def upd (t : Traffic) (k : Nat) (killed : Bool) (p : Pipe) : Phase Chan Pipe.Op → Traffic
  | .locked (.writing addr n i) =>
    match Pipe.act k killed p (.writing addr n i) with
    | .set _ (.filled _ _ i') => { t with stored := t.stored ++ Pipe.slice addr i i' }
    | _ => t
  | .locked (.reading n) =>
    match Pipe.act k killed p (.reading n) with
    | .set _ (.copied bytes) => { t with got := t.got ++ bytes }
    | _ => t
  | _ => t

/-- The traffic on the pipe `k` when an event happens. -/
def step (k : Nat) (t : Traffic) (s : Sys P kernel) : Event P kernel → Traffic
  | .go (.pipe k') p =>
    if k' = k then t.upd k (s.killed p) (s.data (.pipe k)) (s.call (.pipe k) p) else t
  | _ => t

end Traffic

/-- What has been stored and not copied out is what the pipe holds. -/
def Flows (p : Pipe) (t : Traffic) : Prop := ∃ q, p.Holds q ∧ t.stored = t.got ++ q

variable {p : Pipe} {t : Traffic}

theorem Flows.set_fill (h : Flows p t) (addr : Nat → Byte) (m i : Nat) :
    Flows (Pipe.fill addr m i p).2
      { t with stored := t.stored ++ Pipe.slice addr i (Pipe.fill addr m i p).1 } := by
  obtain ⟨q, hq, hstored⟩ := h
  exact ⟨_, (hq.fill m i).2, by rw [hstored, append_assoc]⟩

theorem Flows.set_drain (h : Flows p t) (m : Nat) :
    Flows (Pipe.drain m p).2 { t with got := t.got ++ (Pipe.drain m p).1 } := by
  obtain ⟨q, hq, hstored⟩ := h
  refine ⟨_, (hq.drain m).2, ?_⟩
  rw [hstored, (hq.drain m).1, append_assoc, take_append_drop]

theorem Flows.close (h : Flows p t) (writable : Bool) :
    Flows (if writable then { p with writeopen := false } else { p with readopen := false }) t := by
  cases writable <;> exact h

theorem Flows.go (h : Flows p t) (k : Nat) (killed : Bool) (ph : Phase Chan Pipe.Op) :
    Flows ((Pipe.monitor k).written killed p ph) (t.upd k killed p ph) := by
  cases ph with
  | locked o =>
    cases o with
    | writing addr n i => exact h.set_fill addr _ i
    | reading n =>
      by_cases hempty : (p.isEmpty && p.writeopen) = true
      · cases killed <;>
          simpa [Monitor.written, Pipe.monitor, Traffic.upd, Pipe.act, hempty] using h
      · simpa [Monitor.written, Pipe.monitor, Traffic.upd, Pipe.act, hempty] using
          h.set_drain n.toNat
    | closing writable => exact h.close writable
    | filled addr n i =>
      simp only [Monitor.written, Pipe.monitor, Pipe.act, Traffic.upd]
      split <;> try exact h
      case h_1 hact =>
        split at hact
        · split at hact <;> cases hact
        · cases hact
    | call x => cases x <;> exact h
    | blocked | copied | closed | leaving | ended => exact h
  | away o =>
    have hsame : (Pipe.monitor k).written killed p (.away o) = p := by
      simp only [Monitor.written]
      split
      case h_1 hact => exact absurd hact Pipe.act_ne_write
      case h_2 => rfl
    rw [hsame]
    exact h
  | out | spin | waking | handing | handed | asleep => exact h

theorem flows_step {k : Nat} {e : Event P kernel} (h : Flows (s.data (.pipe k)) t)
    (hstep : step s e = some s') : Flows (s'.data (.pipe k)) (t.step k s e) := by
  by_cases he : ∃ p, e = .go (.pipe k) p
  · obtain ⟨p, rfl⟩ := he
    rw [go_data hstep, Function.update_self]
    simp only [Traffic.step]
    rw [if_pos trivial]
    exact h.go k _ _
  · push Not at he
    rw [step_data hstep he]
    have hstep' : t.step k s e = t := by
      cases e with
      | go i p =>
        cases i with
        | pipe k' =>
          refine if_neg ?_
          rintro rfl
          exact he p rfl
        | log | sleeplock | input => rfl
      | call | wake | fault => rfl
    rwa [hstep']

/-- The bytes in the buffer, the oldest first. -/
def Pipe.buffered (p : Pipe) : List Byte :=
  (List.range ((p.nwrite + Pipe.UINT - p.nread) % Pipe.UINT)).map fun j =>
    p.data ((p.nread + j) % PIPESIZE)

theorem Pipe.Holds.eq_buffered {q : List Byte} (h : p.Holds q) : q = p.buffered := by
  have hcount := Ring.Holds.count h Pipe.PIPESIZE_lt
  refine ext_getElem ?_ fun j hj hj' => ?_
  · rw [buffered, hcount, length_map, length_range]
  · simp only [buffered, getElem_map, getElem_range]
    exact (Ring.Holds.cell h j hj).symm

/-- The traffic on the pipe `k` in a run. -/
def traffic (k : Nat) (s : Sys P kernel) (es : List (Event P kernel)) : Traffic :=
  track step (Traffic.step k) s ⟨[], []⟩ es

/-- Pipes are loss-free queues: whatever the interleaving of the calls, the bytes copied out are a
prefix of the bytes stored, the rest is what the buffer holds, and once the write end is closed a
read of positive size copies out of that rest, so that it returns 0 only when nothing is left. -/
theorem pipe_is_fifo (k : Nat) (hread : Pipe.nread (s.data (.pipe k)) = 0)
    (hwrite : Pipe.nwrite (s.data (.pipe k)) = 0)
    (hrun : run step s es = some s') :
    (traffic k s es).stored = (traffic k s es).got ++ Pipe.buffered (s'.data (.pipe k)) ∧
      (Pipe.buffered (s'.data (.pipe k))).length =
        (Pipe.nwrite (s'.data (.pipe k)) + 2 ^ 32 - Pipe.nread (s'.data (.pipe k))) % 2 ^ 32 ∧
      (Pipe.buffered (s'.data (.pipe k))).length ≤ PIPESIZE ∧
      ∀ killed (n : Int), 0 < n → Pipe.writeopen (s'.data (.pipe k)) = false →
        ∃ p' bytes, Pipe.act k killed (s'.data (.pipe k)) (.reading n) = .set p' (.copied bytes) ∧
          bytes = (Pipe.buffered (s'.data (.pipe k))).take n.toNat ∧
          (bytes.length = 0 → (traffic k s es).got = (traffic k s es).stored) := by
  have hstart : Flows (s.data (.pipe k)) ⟨[], []⟩ := by
    refine ⟨[], ?_, rfl⟩
    unfold Pipe.Holds
    rw [hread, hwrite]
    exact Ring.holds_nil (by decide)
  obtain ⟨q, hq, hstored⟩ := run_track (I := fun s t => Flows (s.data (.pipe k)) t)
    (fun _ _ _ _ h _ hstep => flows_step h hstep) hrun allowed_true hstart
  obtain rfl := hq.eq_buffered
  refine ⟨hstored, ?_, hq.length_le, fun killed n hn hclosed => ?_⟩
  · rw [Pipe.buffered, length_map, length_range]
  refine ⟨(Pipe.drain n.toNat (s'.data (.pipe k))).2, _, ?_, rfl, fun hnone => ?_⟩
  · simp only [Pipe.act, hclosed, Bool.and_false, Bool.false_eq_true, if_false, (hq.drain _).1]
  · have hnil : Pipe.buffered (s'.data (.pipe k)) = [] := by
      rw [length_take] at hnone
      exact length_eq_zero_iff.mp (by omega)
    rw [hnil, append_nil] at hstored
    exact hstored.symm

/-- The system before any call, with new pipes. -/
def quiet (P : Type) : Sys P kernel where
  data
    | .pipe _ => ⟨fun _ => 0, 0, 0, true, true⟩
    | .log => ⟨Log.LOGSIZE, 0, false, []⟩
    | .sleeplock _ => ⟨false, 0⟩
    | .input => ⟨fun _ => 0, 0, 0, 0⟩
  lock _ := none
  ptable := none
  call _ _ := .out
  killed _ := false

omit [DecidableEq P] in
theorem quiet_quiet : Quiet (quiet P) := ⟨fun _ => rfl, rfl, fun _ _ => rfl⟩

/-- One process writes three bytes to a new pipe and another reads two of them. -/
def exchange : List (Event Bool kernel) :=
  .call (.pipe 0) false (.pipewrite (fun i => BitVec.ofNat 8 i) 3) ::
    List.replicate 7 (.go (.pipe 0) false) ++
    .call (.pipe 0) true (.piperead 2) :: List.replicate 7 (.go (.pipe 0) true)

theorem exchange_is_fifo : ∃ s', run step (quiet Bool) exchange = some s' ∧
    (traffic 0 (quiet Bool) exchange).got = [0, 1] ∧
    (traffic 0 (quiet Bool) exchange).stored = [0, 1] ++ Pipe.buffered (s'.data (.pipe 0)) := by
  have hrun : (run step (quiet Bool) exchange).isSome = true := by decide +kernel
  obtain ⟨s', hs'⟩ := Option.isSome_iff_exists.mp hrun
  have hgot : (traffic 0 (quiet Bool) exchange).got = [0, 1] := by decide +kernel
  exact ⟨s', hs', hgot, hgot ▸ (pipe_is_fifo 0 rfl rfl hs').1⟩

/-! ## No wakeup is lost -/

def rules : ∀ i, Rules (kernel i)
  | .pipe k => Pipe.rules k
  | .log => Log.rules
  | .sleeplock j => SleepLock.rules j
  | .input => Input.rules

theorem rules_sound : ∀ i, (rules i).Sound
  | .pipe k => Pipe.rules_sound k
  | .log => Log.rules_sound
  | .sleeplock j => SleepLock.rules_sound j
  | .input => Input.rules_sound

/-- A call on an end of a pipe is made by a process that is not killed, through a descriptor that is
open and stays so: the end is not closed while somebody is in a call on it. A process is marked
killed by a fault in user mode. -/
def Given (s : Sys P kernel) : Event P kernel → Prop
  | .call (.pipe k) p x =>
    (∀ writable, Pipe.Op.uses (.call x) = some writable →
      s.killed p = false ∧ Pipe.isOpen (s.data (.pipe k)) writable ∧
        ∀ q o, (s.call (.pipe k) q).op = some o → Pipe.Op.ends o ≠ some writable) ∧
    ∀ writable, Pipe.Op.ends (.call x) = some writable →
      ∀ q o, (s.call (.pipe k) q).op = some o → Pipe.Op.uses o ≠ some writable
  | .fault p => ∀ i, s.call i p = .out
  | _ => True

omit [DecidableEq P] in
theorem Given.admits {e : Event P kernel} (h : Given s e) : Admits rules s e := by
  cases e with
  | go | wake => trivial
  | fault p =>
    intro i o ho
    rw [h i] at ho
    cases ho
  | call i p x =>
    cases i with
    | pipe k =>
      refine ⟨⟨fun b hb => ?_, ?_⟩, fun q w hw => ⟨fun b hb => h.2 b hb q w hw, fun b hb hu => ?_⟩⟩
      · exact ⟨(h.1 b hb).2.1, (h.1 b hb).1⟩
      · cases x <;> trivial
      · exact (h.1 b hu).2.2 q w hw hb
    | log =>
      refine ⟨fun hc => ?_, fun q w _ hc => ?_⟩
      · cases hc
      · cases hc.1
    | sleeplock | input => exact ⟨trivial, fun _ _ _ => trivial⟩

/-- No wakeup is lost: whoever sleeps while the lock is free waits for what still holds, the reader
of a pipe for bytes while it is empty with its write end open, the writer for room while it is full
with its read end open, `begin_op` while a commit is running or the log may be exhausted,
`acquiresleep` while the lock is held and `consoleread` while there is no input. -/
theorem no_lost_wakeup (hs : Quiet s) (hrun : run step s es = some s')
    (hgiven : Allowed step Given s es) (p : P) (c : Chan) :
    (∀ k o, s'.lock (.pipe k) = none → s'.call (.pipe k) p = .asleep c o →
      Pipe.Op.uses o = some false ∧
          Pipe.isEmpty (s'.data (.pipe k)) ∧ Pipe.writeopen (s'.data (.pipe k)) ∨
        Pipe.Op.uses o = some true ∧
          Pipe.isFull (s'.data (.pipe k)) ∧ Pipe.readopen (s'.data (.pipe k))) ∧
    (∀ o, s'.lock .log = none → s'.call .log p = .asleep c o →
      o = .beginning ∧ (Log.committing (s'.data .log) ∨ Log.exhausted (s'.data .log))) ∧
    (∀ j o, s'.lock (.sleeplock j) = none → s'.call (.sleeplock j) p = .asleep c o →
      SleepLock.locked (s'.data (.sleeplock j))) ∧
    ∀ o, s'.lock .input = none → s'.call .input p = .asleep c o →
      Input.r (s'.data .input) = Input.w (s'.data .input) := by
  have hadm : Allowed step (Admits rules) s es :=
    hgiven.imp fun _ _ h => h.admits
  have hawaited {i} {o : (kernel i).Op} (hlock : s'.lock i = none)
      (hp : s'.call i p = .asleep c o) : (rules i).waits c o ∧ (rules i).cond c (s'.data i) :=
    run_awaited rules_sound hs hrun hadm hlock hp
  refine ⟨fun k o hlock hp => ?_, fun o hlock hp => ?_, fun j o hlock hp => ?_,
    fun o hlock hp => ?_⟩
  · obtain ⟨⟨hc, huses⟩ | ⟨hc, huses⟩, hcond⟩ := hawaited hlock hp
    · exact .inl ⟨huses, hcond.1 hc⟩
    · exact .inr ⟨huses, hcond.2 hc⟩
  · obtain ⟨⟨-, ho⟩, hcond⟩ := hawaited hlock hp
    exact ⟨ho, hcond⟩
  · exact (hawaited hlock hp).2
  · exact (hawaited hlock hp).2

/-- A process reads from an empty pipe and sleeps. -/
def wait : List (Event Unit kernel) :=
  .call (.pipe 0) () (.piperead 1) :: List.replicate 5 (.go (.pipe 0) ())

/-- Two processes hand a sleep lock over. The second one sleeps until the first releases it, and then
the first one, which wants it back, sleeps. -/
def handover : List (Event Bool kernel) :=
  List.flatten [.call (.sleeplock 0) true (.acquiresleep 1) :: steps 5 true,
    .call (.sleeplock 0) false (.acquiresleep 2) :: steps 5 false,
    .call (.sleeplock 0) true .releasesleep :: steps 7 true, steps 4 false,
    .call (.sleeplock 0) true (.acquiresleep 1) :: steps 5 true]
where
  steps n p := List.replicate n (.go (.sleeplock 0) p)

theorem handover_has_reason : ∃ s', run step (quiet Bool) handover = some s' ∧
    s'.call (.sleeplock 0) true = .asleep (.sleeplock 0) (.acquiring 1) ∧
    s'.call (.sleeplock 0) false = .out ∧ SleepLock.locked (s'.data (.sleeplock 0)) := by
  have hgiven : Allowed step Given (quiet Bool) handover := by
    simp [handover, handover.steps, Allowed, Given, List.replicate_succ]
  have hrun : run step (quiet Bool) handover = some _ := rfl
  obtain ⟨-, -, hlock, -⟩ := no_lost_wakeup quiet_quiet hrun hgiven true (.sleeplock 0)
  exact ⟨_, hrun, rfl, rfl, hlock 0 (.acquiring 1) rfl rfl⟩

end Xv6.Sync
