import Mathlib.Data.List.Sort
import Xv6.Sched.Scheduler

/-!
# What a scheduler pass does

The loops of `scheduler()` in closed form. A pass does the same thing to every slot, `ripened`
(boost if one is due, then age), then rewrites scores, then dispatches one process:

* `scheduler_proc` — the process table after a pass, slot by slot.
* `picked_mlfq` / `picked_rr` — which process it dispatches.
* `scheduler_tunables`, … — what it leaves alone.

Callers use these and never unfold the loops.
-/

namespace Xv6.Sched

open List Kernel Proc

variable {k : Kernel} {snap : Snap} {t : Table} {aging q : Int} {i j b : Slot}

/-! ## Boost and aging -/

theorem boost_proc : (boost snap k).proc i =
    if boostDue snap k then (k.proc i).boosted snap.q0 else k.proc i := by
  unfold boost
  split <;> rfl

theorem boost_lastBoostTick : (boost snap k).lastBoostTick =
    if boostDue snap k then k.ticks else k.lastBoostTick := by
  unfold boost
  split <;> rfl

@[simp] theorem boost_schedp : (boost snap k).schedp = k.schedp := by unfold boost; split <;> rfl
@[simp] theorem boost_nextpid : (boost snap k).nextpid = k.nextpid := by unfold boost; split <;> rfl
@[simp] theorem boost_ticks : (boost snap k).ticks = k.ticks := by unfold boost; split <;> rfl
@[simp] theorem boost_initproc : (boost snap k).initproc = k.initproc := by
  unfold boost; split <;> rfl
@[simp] theorem boost_rrNext : (boost snap k).rrNext = k.rrNext := by unfold boost; split <;> rfl

theorem ageSlot_proc : (ageSlot k i).proc j = if j = i then (k.proc i).aged else k.proc j := by
  unfold ageSlot raiseAlert
  split <;> simp [setProc_proc]

variable {β : Type} {l : List Slot} {p p' : Proc}

theorem ageSlot_frame (obs : Kernel → β) (hset : ∀ k i p, obs (setProc k i p) = obs k)
    (hraise : ∀ k, obs (raiseAlert k) = obs k) : obs (ageSlot k i) = obs k := by
  unfold ageSlot
  split
  · rw [hraise, hset]
  · rw [hset]

/-- A field of the kernel that neither `setProc` nor `raiseAlert` writes is not written by the
aging loop. -/
theorem age_frame (obs : Kernel → β) (hset : ∀ k i p, obs (setProc k i p) = obs k)
    (hraise : ∀ k, obs (raiseAlert k) = obs k) : obs (age k) = obs k := by
  rw [age_eq]
  exact Scan.foldl_frame (f := ageSlot) obs (fun _ _ => ageSlot_frame obs hset hraise) _ _

theorem age_proc : (age k).proc i = (k.proc i).aged := by
  rw [age_eq, Scan.foldl_pointwise proc (g := aged)
    (fun s i => by simp [ageSlot_proc]) (fun s i j hji => by simp [ageSlot_proc, hji])
    (nodup_finRange NPROC), if_pos (mem_finRange i)]

@[simp] theorem age_tunables : (age k).schedp.toSchedUpdate = k.schedp.toSchedUpdate :=
  age_frame (fun k => k.schedp.toSchedUpdate) (fun _ _ _ => rfl) (fun _ => rfl)

@[simp] theorem age_agentPid : (age k).schedp.agentPid = k.schedp.agentPid :=
  age_frame (fun k => k.schedp.agentPid) (fun _ _ _ => rfl) (fun _ => rfl)

@[simp] theorem age_nextpid : (age k).nextpid = k.nextpid :=
  age_frame nextpid (fun _ _ _ => rfl) (fun _ => rfl)

@[simp] theorem age_ticks : (age k).ticks = k.ticks :=
  age_frame ticks (fun _ _ _ => rfl) (fun _ => rfl)

@[simp] theorem age_initproc : (age k).initproc = k.initproc :=
  age_frame initproc (fun _ _ _ => rfl) (fun _ => rfl)

@[simp] theorem age_lastBoostTick : (age k).lastBoostTick = k.lastBoostTick :=
  age_frame lastBoostTick (fun _ _ _ => rfl) (fun _ => rfl)

@[simp] theorem age_rrNext : (age k).rrNext = k.rrNext :=
  age_frame rrNext (fun _ _ _ => rfl) (fun _ => rfl)

/-! ## Selection -/

/-- The processes that contend in queue `q`, in table order. -/
def contenders (q : Int) (t : Table) : List Slot :=
  (List.finRange NPROC).filter (fun i => (t i).contends q)

/-- The table once the slots of `l` have been visited. -/
def visited (aging q : Int) (l : List Slot) (t : Table) : Table := fun j =>
  if j ∈ l ∧ (t j).contends q then (t j).rescored aging else t j

theorem visited_of_not_mem (hi : i ∉ l) : visited aging q l t i = t i := by
  simp [visited, hi]

theorem visited_of_mem (hi : i ∈ l) (hc : (t i).contends q) :
    visited aging q l t i = (t i).rescored aging := by
  simp [visited, hi, hc]

theorem update_visited (hc : (t i).contends q) :
    Function.update (visited aging q l t) i ((t i).rescored aging) =
      visited aging q (l ++ [i]) t := by
  funext j
  by_cases hji : j = i
  · subst hji
    simp [visited, hc]
  · simp [visited, hji]

theorem visited_append_of_not (hc : ¬ (t i).contends q) :
    visited aging q (l ++ [i]) t = visited aging q l t := by
  funext j
  by_cases hji : j = i
  · subst hji
    simp [visited, hc]
  · simp [visited, hji]

/-- The inner loop after the slots of `l`: the contenders among them are rescored, and `best` is
the first of them with the least score. The induction is on the end of `l`, as the loop appends
one slot at a time. -/
theorem foldl_scanSlot (hl : l.Nodup) :
    l.foldl (scanSlot aging q) (t, none) = (visited aging q l t,
      Scan.firstLeast (fun i => (t i).score aging) (l.filter (fun i => (t i).contends q))) := by
  induction l using List.reverseRecOn with
  | nil => exact Prod.ext (funext fun j => by simp [visited]) rfl
  | append_singleton l i ih =>
    obtain ⟨hl, hi⟩ : l.Nodup ∧ i ∉ l := by
      have h := nodup_append.mp hl
      exact ⟨h.1, fun hmem => h.2.2 i hmem i (by simp) rfl⟩
    rw [foldl_append, ih hl, foldl_cons, foldl_nil, filter_append]
    by_cases hc : (t i).contends q = true
    · rw [filter_cons_of_pos (p := fun i => (t i).contends q) hc, filter_nil,
        Scan.firstLeast_concat]
      simp only [scanSlot, visited_of_not_mem hi, hc, if_true, update_visited hc]
      cases hbest : Scan.firstLeast (fun i => (t i).score aging)
          (l.filter (fun i => (t i).contends q)) with
      | none => rfl
      | some b =>
        -- the best so far is a visited contender, so its stored score is current
        obtain ⟨hbl, hbc⟩ := mem_filter.mp (Scan.firstLeast_mem hbest)
        have hb : visited aging q (l ++ [i]) t b = (t b).rescored aging :=
          visited_of_mem (by simp [hbl]) hbc
        have hi' : visited aging q (l ++ [i]) t i = (t i).rescored aging :=
          visited_of_mem (by simp) hc
        simp only [hb, hi', rescored]
        split <;> rfl
    · rw [filter_cons_of_neg (p := fun i => (t i).contends q) hc, filter_nil,
        append_nil, visited_append_of_not hc]
      simp [scanSlot, visited_of_not_mem hi, hc]

theorem scanLevel_snd : (scanLevel aging q t).2 =
    Scan.firstLeast (fun i => (t i).score aging) (contenders q t) := by
  unfold scanLevel
  rw [foldl_scanSlot (nodup_finRange NPROC)]
  rfl

theorem scanLevel_fst : (scanLevel aging q t).1 j =
    if (t j).contends q then (t j).rescored aging else t j := by
  unfold scanLevel
  rw [foldl_scanSlot (nodup_finRange NPROC)]
  simp [visited]

/-- `p'` is `p` with perhaps another `effective_score`. -/
def Proc.Rescored (p p' : Proc) : Prop := ∃ sc, p' = { p with effectiveScore := sc }

theorem Proc.Rescored.refl (p : Proc) : p.Rescored p := ⟨p.effectiveScore, rfl⟩

theorem Proc.Rescored.trans {p'' : Proc} (h : p.Rescored p') (h' : p'.Rescored p'') :
    p.Rescored p'' := by
  obtain ⟨sc, rfl⟩ := h
  obtain ⟨sc', rfl⟩ := h'
  exact ⟨sc', rfl⟩

theorem Proc.Rescored.contends (h : p.Rescored p') : p'.contends q = p.contends q := by
  obtain ⟨sc, rfl⟩ := h
  rfl

theorem Proc.Rescored.score (h : p.Rescored p') : p'.score aging = p.score aging := by
  obtain ⟨sc, rfl⟩ := h
  rfl

theorem scanLevel_rescored : (t j).Rescored ((scanLevel aging q t).1 j) := by
  rw [scanLevel_fst]
  split
  · exact ⟨_, rfl⟩
  · exact .refl _

/-- The contest of a queue: the first contender with the least score. -/
def contest (aging q : Int) (t : Table) : Option Slot :=
  Scan.firstLeast (fun i => (t i).score aging) (contenders q t)

/-- Scores stored in the table have no influence on a contest. -/
theorem contest_rescored {t t' : Table} (h : ∀ i, (t i).Rescored (t' i)) :
    contest aging q t' = contest aging q t := by
  simp only [contest, contenders, (h _).contends, (h _).score]

/-- The outer loop selects in the first queue that has contenders. -/
theorem scanLevels_snd {qs : List Int} :
    (scanLevels aging qs t).2 = qs.findSome? (contest aging · t) := by
  induction qs generalizing t with
  | nil => rfl
  | cons q qs ih =>
    have hsnd : (scanLevel aging q t).2 = contest aging q t := scanLevel_snd
    rw [scanLevels, List.findSome?_cons]
    cases hc : contest aging q t with
    | some b => simp [hsnd, hc]
    | none =>
      simp only [hsnd, hc, Option.isSome_none, Bool.false_eq_true, if_false]
      have hsame : (fun q' => contest aging q' (scanLevel aging q t).1) = (contest aging · t) :=
        funext fun q' => contest_rescored fun i => scanLevel_rescored
      rw [ih, hsame]

theorem scanLevels_rescored {qs : List Int} : (t j).Rescored ((scanLevels aging qs t).1 j) := by
  induction qs generalizing t with
  | nil => exact .refl _
  | cons q qs ih =>
    rw [scanLevels]
    split
    · exact scanLevel_rescored
    · exact scanLevel_rescored.trans ih

/-- What it means to be selected by the MLFQ+SJF contest over queues `0`, `1`, `2`. -/
structure Wins (aging : Int) (t : Table) (b : Slot) : Prop where
  runnable : (t b).state = .runnable
  level_mem : (t b).queueLevel ∈ [(0 : Int), 1, 2]
  level_le : ∀ i, (t i).state = .runnable → (t i).queueLevel ∈ [(0 : Int), 1, 2] →
    (t b).queueLevel ≤ (t i).queueLevel
  score_le : ∀ i, (t i).state = .runnable → (t i).queueLevel = (t b).queueLevel →
    (t b).score aging ≤ (t i).score aging

theorem contends_iff : p.contends q = true ↔ p.state = .runnable ∧ p.queueLevel = q := by
  simp [contends]

theorem mem_contenders : i ∈ contenders q t ↔ (t i).state = .runnable ∧ (t i).queueLevel = q := by
  simp [contenders, contends_iff]

theorem contest_eq_none : contest aging q t = none ↔
    ∀ i, ¬ ((t i).state = .runnable ∧ (t i).queueLevel = q) := by
  rw [contest, Scan.firstLeast_eq_none, eq_nil_iff_forall_not_mem]
  simp only [mem_contenders]

theorem contest_eq_some (h : contest aging q t = some b) :
    ((t b).state = .runnable ∧ (t b).queueLevel = q) ∧
      ∀ i, (t i).state = .runnable → (t i).queueLevel = q →
        (t b).score aging ≤ (t i).score aging :=
  ⟨mem_contenders.mp (Scan.firstLeast_mem h),
    fun _ hr hq => Scan.firstLeast_le (k := fun i => (t i).score aging) h
      (mem_contenders.mpr ⟨hr, hq⟩)⟩

/-- The three queues, tried in order. -/
theorem selectMlfq_snd : (selectMlfq aging t).2 =
    (contest aging 0 t).or ((contest aging 1 t).or (contest aging 2 t)) := by
  rw [selectMlfq, scanLevels_snd]
  simp only [List.findSome?_cons, List.findSome?_nil]
  cases contest aging 0 t <;> cases contest aging 1 t <;> cases contest aging 2 t <;> rfl

/-- The queue the selected process comes from, and the emptiness of the queues before it. -/
theorem selectMlfq_queue (h : (selectMlfq aging t).2 = some b) :
    ∃ q ∈ [(0 : Int), 1, 2], contest aging q t = some b ∧
      ∀ q' ∈ [(0 : Int), 1, 2], q' < q → contest aging q' t = none := by
  rw [selectMlfq_snd] at h
  cases h0 : contest aging 0 t with
  | some c =>
    simp only [h0, Option.some_or, Option.some.injEq] at h
    exact ⟨0, by simp, by rw [h0, h], by simp⟩
  | none =>
    cases h1 : contest aging 1 t with
    | some c =>
      simp only [h0, h1, Option.some_or, Option.none_or, Option.some.injEq] at h
      refine ⟨1, by simp, by rw [h1, h], ?_⟩
      intro q' hq' hlt
      obtain rfl : q' = 0 := by simp at hq'; omega
      exact h0
    | none =>
      simp only [h0, h1, Option.none_or] at h
      refine ⟨2, by simp, h, ?_⟩
      intro q' hq' hlt
      obtain rfl | rfl : q' = 0 ∨ q' = 1 := by simp at hq'; omega
      · exact h0
      · exact h1

theorem selectMlfq_wins (h : (selectMlfq aging t).2 = some b) : Wins aging t b := by
  obtain ⟨q, hmem, hsome, hbefore⟩ := selectMlfq_queue h
  obtain ⟨⟨hrun, rfl⟩, hscore⟩ := contest_eq_some hsome
  refine ⟨hrun, hmem, ?_, hscore⟩
  intro i hi hlevel
  by_contra hlt
  exact contest_eq_none.mp (hbefore _ hlevel (by omega)) i ⟨hi, rfl⟩

/-- Among equal scores the lowest slot is selected. -/
theorem selectMlfq_first (h : (selectMlfq aging t).2 = some b) (hi : (t i).state = .runnable)
    (hlevel : (t i).queueLevel = (t b).queueLevel)
    (hscore : (t i).score aging ≤ (t b).score aging) : b ≤ i := by
  obtain ⟨q, -, hsome, -⟩ := selectMlfq_queue h
  obtain ⟨⟨-, rfl⟩, -⟩ := contest_eq_some hsome
  have hsorted : (contenders (t b).queueLevel t).Pairwise (· < ·) :=
    (sortedLT_finRange NPROC).pairwise.filter _
  rcases Scan.firstLeast_first (k := fun i => (t i).score aging) hsorted hsome
    (mem_contenders.mpr ⟨hi, hlevel⟩) hscore with rfl | hlt
  · exact le_rfl
  · exact hlt.le

/-- MLFQ selection is work-conserving over the three queues. -/
theorem selectMlfq_eq_none (h : (selectMlfq aging t).2 = none) (hi : (t i).state = .runnable) :
    (t i).queueLevel ∉ [(0 : Int), 1, 2] := by
  rw [selectMlfq_snd] at h
  simp only [Option.or_eq_none_iff, contest_eq_none] at h
  intro hmem
  simp only [mem_cons, not_mem_nil, or_false] at hmem
  rcases hmem with hl | hl | hl
  · exact h.1 i ⟨hi, hl⟩
  · exact h.2.1 i ⟨hi, hl⟩
  · exact h.2.2 i ⟨hi, hl⟩

theorem selectMlfq_rescored : (t i).Rescored ((selectMlfq aging t).1 i) := by
  rw [selectMlfq]
  exact scanLevels_rescored

theorem selectRr_runnable {r : Slot} (h : selectRr r t = some b) : (t b).state = .runnable := by
  rw [selectRr] at h
  simpa using List.find?_some h

theorem selectRr_congr {r : Slot} {t' : Table} (h : ∀ i, (t i).state = (t' i).state) :
    selectRr r t = selectRr r t' := by
  rw [selectRr, selectRr]
  simp only [h]

/-! ## The whole pass -/

/-- What steps 1 and 2 of a pass make of a slot. -/
def ripened (k : Kernel) (i : Slot) : Proc :=
  (if boostDue k.schedp.snap k then (k.proc i).boosted k.schedp.snap.q0 else k.proc i).aged

theorem age_boost_proc : (age (boost k.schedp.snap k)).proc = ripened k := by
  funext i
  rw [age_proc, boost_proc, ripened]

/-- Boosting and aging write three fields only. -/
theorem ripened_eq (k : Kernel) (i : Slot) : ∃ level left wait, ripened k i =
    { k.proc i with queueLevel := level, ticksRemaining := left, waitTicks := wait } := by
  unfold ripened boosted aged
  split_ifs <;> exact ⟨_, _, _, rfl⟩

@[simp] theorem ripened_state : (ripened k i).state = (k.proc i).state := by
  obtain ⟨_, _, _, h⟩ := ripened_eq k i
  rw [h]

@[simp] theorem ripened_burstEmaFast (k : Kernel) (i : Slot) :
    (ripened k i).burstEmaFast = (k.proc i).burstEmaFast := by
  obtain ⟨_, _, _, h⟩ := ripened_eq k i
  rw [h]

/-- A pass resets the level exactly when it boosts. -/
theorem ripened_queueLevel (k : Kernel) (j : Slot) : (ripened k j).queueLevel =
    if boostDue k.schedp.snap k ∧ (k.proc j).state ≠ .unused then 0
    else (k.proc j).queueLevel := by
  unfold ripened aged boosted
  split_ifs <;> simp_all

theorem ripened_waitTicks_runnable {k : Kernel} {i : Slot} (h : (k.proc i).state = .runnable) :
    (ripened k i).waitTicks =
      i32 ((if boostDue k.schedp.snap k then 0 else (k.proc i).waitTicks) + 1) := by
  unfold ripened aged boosted
  split_ifs <;> simp_all

theorem ripened_waitTicks_of_not {k : Kernel} {i : Slot} (h : (k.proc i).state ≠ .runnable) :
    (ripened k i).waitTicks = (k.proc i).waitTicks ∨ (ripened k i).waitTicks = 0 := by
  unfold ripened aged boosted
  split_ifs <;> simp_all

/-- The process a pass dispatches. -/
def picked (k : Kernel) : Option Slot := (scheduler k).2

theorem selectDispatch_snd : (selectDispatch snap k).2 = (select snap k).2 := by
  unfold selectDispatch
  split <;> next h => rw [h]

theorem picked_mlfq (h : k.schedp.rrMode = 0) :
    picked k = (selectMlfq k.schedp.agingFactor (ripened k)).2 := by
  have hrr : ¬ k.schedp.snap.rr ≠ 0 := fun hne => hne h
  rw [picked, scheduler, selectDispatch_snd, select, if_neg hrr, age_boost_proc,
    SchedParams.snap_aging]

theorem picked_rr (h : k.schedp.rrMode ≠ 0) : picked k = selectRr k.rrNext (ripened k) := by
  have hrr : k.schedp.snap.rr ≠ 0 := h
  rw [picked, scheduler, selectDispatch_snd, select, if_pos hrr, age_boost_proc, age_rrNext,
    boost_rrNext]
  split <;> next h => rw [h]

/-- A pass dispatches only a RUNNABLE process. -/
theorem picked_runnable (h : picked k = some b) : (k.proc b).state = .runnable := by
  rw [← ripened_state]
  by_cases hrr : k.schedp.rrMode = 0
  · exact (selectMlfq_wins (picked_mlfq hrr ▸ h)).runnable
  · exact selectRr_runnable (picked_rr hrr ▸ h)

theorem select_rescored : (k.proc i).Rescored ((select snap k).1.proc i) := by
  unfold select
  split
  · split <;> exact .refl _
  · exact selectMlfq_rescored

theorem select_frame (obs : Kernel → β)
    (hproc : ∀ (k : Kernel) t, obs { k with proc := t } = obs k)
    (hrr : ∀ (k : Kernel) r, obs { k with rrNext := r } = obs k) :
    obs (select snap k).1 = obs k := by
  unfold select
  split
  · split
    · exact hrr _ _
    · rfl
  · exact hproc _ _

/-- The table between selection and dispatch: boosted if due, aged, rescored. -/
def selected (k : Kernel) : Table := (select k.schedp.snap (age (boost k.schedp.snap k))).1.proc

theorem selected_rescored (k : Kernel) (i : Slot) : (ripened k i).Rescored (selected k i) := by
  rw [← age_boost_proc]
  exact select_rescored

theorem scheduler_proc_selected (k : Kernel) (i : Slot) : (scheduler k).1.proc i =
    if picked k = some i then (selected k i).dispatched k.schedp.snap k.ticks
    else selected k i := by
  have hticks : ∀ k', select k.schedp.snap (age (boost k.schedp.snap k)) = k' →
      k'.1.ticks = k.ticks := by
    rintro k' rfl
    rw [select_frame ticks (fun _ _ => rfl) (fun _ _ => rfl), age_ticks, boost_ticks]
  rw [picked, scheduler, selectDispatch, selected]
  split
  · next k' b h =>
      have ht := hticks _ h
      simp only [h, dispatch, setProc_proc, Option.some.injEq] at ht ⊢
      by_cases hib : i = b
      · subst hib
        simp [ht]
      · simp [hib, Ne.symm hib]
  · next k' h => simp [h]

/-- **The table after a pass, slot by slot**: boosted if due, aged, rescored, and dispatched if
it is the one selected. -/
theorem scheduler_proc (k : Kernel) (i : Slot) : ∃ p, (ripened k i).Rescored p ∧
    (scheduler k).1.proc i =
      if picked k = some i then p.dispatched k.schedp.snap k.ticks else p :=
  ⟨selected k i, selected_rescored k i, scheduler_proc_selected k i⟩

@[simp] theorem scheduler_state (k : Kernel) (i : Slot) : ((scheduler k).1.proc i).state =
    if picked k = some i then .running else (k.proc i).state := by
  obtain ⟨p, ⟨sc, rfl⟩, hp⟩ := scheduler_proc k i
  rw [hp]
  split
  · rfl
  · exact ripened_state

/-- A pass leaves a slot's identity and its history counters alone. -/
theorem scheduler_proc_frame {k : Kernel} {i : Slot} (obs : Proc → β)
    (hobs : ∀ (p : Proc) level left wait sc start first st, obs { p with
      queueLevel := level, ticksRemaining := left, waitTicks := wait, effectiveScore := sc,
      burstStartTick := start, firstRunTick := first, state := st } = obs p) :
    obs ((scheduler k).1.proc i) = obs (k.proc i) := by
  obtain ⟨p, ⟨sc, rfl⟩, hp⟩ := scheduler_proc k i
  obtain ⟨level, left, wait, hr⟩ := ripened_eq k i
  rw [hp, hr]
  split
  · exact hobs (k.proc i) level _ 0 sc _ _ _
  · exact hobs (k.proc i) level left wait sc (k.proc i).burstStartTick (k.proc i).firstRunTick
      (k.proc i).state

theorem pass_queueLevel (k : Kernel) (j : Slot) : ((scheduler k).1.proc j).queueLevel =
    if boostDue k.schedp.snap k ∧ (k.proc j).state ≠ .unused then 0
    else (k.proc j).queueLevel := by
  obtain ⟨p, ⟨sc, rfl⟩, hp⟩ := scheduler_proc k j
  rw [hp, ← ripened_queueLevel]
  split <;> rfl

/-- The picked process starts again from zero, the others are as aging left them. -/
theorem pass_waitTicks (k : Kernel) (j : Slot) : ((scheduler k).1.proc j).waitTicks =
    if picked k = some j then 0 else (ripened k j).waitTicks := by
  obtain ⟨p, ⟨sc, rfl⟩, hp⟩ := scheduler_proc k j
  rw [hp]
  split <;> rfl

/-- A dispatch loads the quantum of the level the process is dispatched from. -/
theorem pass_ticksRemaining_picked {k : Kernel} {j : Slot} (h : picked k = some j) :
    ((scheduler k).1.proc j).ticksRemaining =
      k.schedp.snap.quantum ((scheduler k).1.proc j).queueLevel := by
  obtain ⟨p, -, hp⟩ := scheduler_proc k j
  rw [hp, if_pos h]
  rfl

/-- For everybody else a pass loads `q0` if it boosts, and otherwise does nothing. -/
theorem pass_ticksRemaining {k : Kernel} {j : Slot} (h : picked k ≠ some j) :
    ((scheduler k).1.proc j).ticksRemaining =
      if boostDue k.schedp.snap k ∧ (k.proc j).state ≠ .unused then k.schedp.snap.q0
      else (k.proc j).ticksRemaining := by
  obtain ⟨p, ⟨sc, rfl⟩, hp⟩ := scheduler_proc k j
  rw [hp, if_neg h]
  simp only [ripened, aged, boosted]
  split_ifs <;> simp_all

/-- A field that neither selection nor dispatch stores to. -/
theorem selectDispatch_frame (obs : Kernel → β)
    (hproc : ∀ (k : Kernel) t, obs { k with proc := t } = obs k)
    (hrr : ∀ (k : Kernel) r, obs { k with rrNext := r } = obs k) :
    obs (selectDispatch snap k).1 = obs k := by
  rw [selectDispatch]
  have hsel := @select_frame k snap β obs hproc hrr
  split
  · next k' b h =>
      rw [h] at hsel
      rw [← hsel]
      exact hproc _ _
  · next k' h =>
      rw [h] at hsel
      exact hsel

theorem scheduler_frame (obs : Kernel → β)
    (hproc : ∀ (k : Kernel) t, obs { k with proc := t } = obs k)
    (hrr : ∀ (k : Kernel) r, obs { k with rrNext := r } = obs k) :
    obs (scheduler k).1 = obs (age (boost k.schedp.snap k)) :=
  selectDispatch_frame obs hproc hrr

@[simp] theorem scheduler_tunables :
    (scheduler k).1.schedp.toSchedUpdate = k.schedp.toSchedUpdate := by
  rw [scheduler_frame (fun k => k.schedp.toSchedUpdate) (fun _ _ => rfl) (fun _ _ => rfl),
    age_tunables, boost_schedp]

@[simp] theorem scheduler_agentPid : (scheduler k).1.schedp.agentPid = k.schedp.agentPid := by
  rw [scheduler_frame (fun k => k.schedp.agentPid) (fun _ _ => rfl) (fun _ _ => rfl),
    age_agentPid, boost_schedp]

@[simp] theorem scheduler_nextpid : (scheduler k).1.nextpid = k.nextpid := by
  rw [scheduler_frame nextpid (fun _ _ => rfl) (fun _ _ => rfl), age_nextpid, boost_nextpid]

@[simp] theorem scheduler_ticks : (scheduler k).1.ticks = k.ticks := by
  rw [scheduler_frame ticks (fun _ _ => rfl) (fun _ _ => rfl), age_ticks, boost_ticks]

@[simp] theorem scheduler_initproc : (scheduler k).1.initproc = k.initproc := by
  rw [scheduler_frame initproc (fun _ _ => rfl) (fun _ _ => rfl), age_initproc,
    boost_initproc]

/-- In round-robin mode `rr_next` moves behind the process dispatched. -/
theorem scheduler_rrNext (h : k.schedp.rrMode ≠ 0) :
    (scheduler k).1.rrNext = ((picked k).map (· + 1)).getD k.rrNext := by
  have hrr : k.schedp.snap.rr ≠ 0 := h
  rw [picked_rr h, scheduler, selectDispatch, select, if_pos hrr, age_boost_proc, age_rrNext,
    boost_rrNext]
  cases selectRr k.rrNext (ripened k) with
  | none => simp
  | some b => rfl

theorem scheduler_lastBoostTick : (scheduler k).1.lastBoostTick =
    if boostDue k.schedp.snap k then k.ticks else k.lastBoostTick := by
  rw [scheduler_frame lastBoostTick (fun _ _ => rfl) (fun _ _ => rfl), age_lastBoostTick,
    boost_lastBoostTick]

/-- One iteration of the aging loop raises the alert when it finds a starving process. -/
theorem ageSlot_schedAlert : (ageSlot k i).schedp.schedAlert ≠ 0 ↔
    k.schedp.schedAlert ≠ 0 ∨ (k.proc i).aged.starving := by
  unfold ageSlot raiseAlert
  split_ifs with h
  · simp [h.1]
  · simp only [setProc_schedp]
    constructor
    · exact .inl
    · rintro (ha | hs)
      · exact ha
      · exact fun h0 => h ⟨hs, h0⟩

/-- **The alert after a pass**: up if it was up, or if the pass finds a process starving. -/
theorem scheduler_schedAlert : (scheduler k).1.schedp.schedAlert ≠ 0 ↔
    k.schedp.schedAlert ≠ 0 ∨ ∃ i, (ripened k i).starving := by
  have hany := Scan.foldl_any (f := ageSlot) (l := List.finRange NPROC) proc
    (fun k => decide (k.schedp.schedAlert ≠ 0)) (fun p => p.aged.starving)
    (fun k i => by
      rw [Bool.eq_iff_iff, decide_eq_true_iff, ageSlot_schedAlert, Bool.or_eq_true,
        decide_eq_true_iff])
    (fun k i j hji => by simp [ageSlot_proc, hji]) (nodup_finRange NPROC)
    (boost k.schedp.snap k)
  rw [Bool.eq_iff_iff] at hany
  simp only [decide_eq_true_eq, Bool.or_eq_true, any_eq_true, mem_finRange, true_and,
    boost_schedp] at hany
  rw [scheduler_frame (fun k => k.schedp.schedAlert) (fun _ _ => rfl) (fun _ _ => rfl), age_eq,
    hany]
  simp only [boost_proc, ripened]

end Xv6.Sched
