import Mathlib.Logic.Function.Basic
import Xv6.Common.Transition

/-!
# Sleeping and waking under a lock

Data is protected by a spin lock; a process that has to wait sleeps on a channel, and one that
changes the data wakes the channel. A `Monitor` is such data with the calls on it: `next` gives what
a call does at each of its control points. A system is a family of monitors. They share
`ptable.lock`, which `sleep` takes before it releases the lock it was given, and `wakeup` around its
scan of the processes.

A process can be inside calls of several monitors, as one call may make another where it holds no
lock; that it does one thing at a time is not used.

`Rules.Sound` collects what has to be checked of a monitor, one action at a time and against one
other process: whoever changes what a sleeper waits for has still to wake it. Then no wakeup is
lost, whatever the interleaving (`run_awaited`).
-/

namespace Xv6.Sync

open Function (apply_update update update_eq_self_iff update_of_ne update_self)

/-- What a call does next. -/
inductive Act (C D O : Type) where
  | acquire (o : O)
  | write (d : D) (o : O)
  | ret (r : Int)
  | set (d : D) (o : O)
  | wakeup (c : C) (o : O)
  | sleep (c : C) (o : O)
  | release (o : O)
  | panic

/-- Data, the control points of the calls on it, and what is done at each of them: without the lock
`acquire`, `write` or `ret`, with the lock the other four. -/
structure Monitor (C : Type) where
  Data : Type
  Op : Type
  Call : Type
  start : Call → Op
  next : Bool → Data → Op → Act C Data Op

/-- Where a process is in a monitor. -/
inductive Phase (C O : Type) where
  | out
  | away (o : O)
  | spin (o : O)
  | locked (o : O)
  | waking (c : C) (o : O)
  | handing (c : C) (o : O)
  | handed (c : C) (o : O)
  | asleep (c : C) (o : O)

open Phase

/-- The addresses that are slept on: two in each pipe, the log, each sleep lock and the console's
input. -/
inductive Chan where
  | nread (k : Nat)
  | nwrite (k : Nat)
  | log
  | sleeplock (j : Nat)
  | input
  deriving DecidableEq

variable {P ι C : Type} {M : ι → Monitor C}

/-- What the next action in this phase makes of the data. -/
def Monitor.written (N : Monitor C) (killed : Bool) (d : N.Data) : Phase C N.Op → N.Data
  | .away o =>
    match N.next killed d o with
    | .write d' _ => d'
    | _ => d
  | .locked o =>
    match N.next killed d o with
    | .set d' _ => d'
    | _ => d
  | _ => d

structure Sys (P : Type) (M : ι → Monitor C) where
  data : ∀ i, (M i).Data
  lock : ι → Option P
  ptable : Option (ι × P)
  call : ∀ i, P → Phase C (M i).Op
  killed : P → Bool

inductive Event (P : Type) (M : ι → Monitor C) where
  | call (i : ι) (p : P) (x : (M i).Call)
  | go (i : ι) (p : P)
  | wake (i : ι) (p : P)
  | fault (p : P)

namespace Phase

variable {O : Type}

/-- The control point of a process inside a call. -/
def op : Phase C O → Option O
  | .out => none
  | .away o | .spin o | .locked o => some o
  | .waking _ o | .handing _ o | .handed _ o | .asleep _ o => some o

def holds : Phase C O → Bool
  | .locked _ | .waking _ _ | .handing _ _ => true
  | _ => false

/-- Holds the lock and is not on its way to sleep. -/
def within : Phase C O → Bool
  | .locked _ | .waking _ _ => true
  | _ => false

def holdsPtable : Phase C O → Bool
  | .waking _ _ | .handing _ _ | .handed _ _ => true
  | _ => false

/-- The channel of a process that sleeps or is about to, and where it goes on. -/
def sleeper : Phase C O → Option (C × O)
  | .handing c o | .handed c o | .asleep c o => some (c, o)
  | _ => none

/-- Made runnable if it sleeps on `c`: it is then to take the lock again. -/
def wakeup1 [DecidableEq C] (c : C) : Phase C O → Phase C O
  | .asleep c' o => if c' = c then .spin o else .asleep c' o
  | ph => ph

end Phase

namespace Sys

def wakeup1 [DecidableEq C] (s : Sys P M) (c : C) : Sys P M :=
  { s with call := fun i q => (s.call i q).wakeup1 c }

/-- What the next action of a process makes of the data of a monitor. -/
def written (s : Sys P M) (i : ι) (p : P) : (M i).Data :=
  (M i).written (s.killed p) (s.data i) (s.call i p)

variable [DecidableEq P] [DecidableEq ι]

def move (s : Sys P M) (i : ι) (p : P) (ph : Phase C (M i).Op) : Sys P M :=
  { s with call := update s.call i (update (s.call i) p ph) }

def setData (s : Sys P M) (i : ι) (d : (M i).Data) : Sys P M :=
  { s with data := update s.data i d }

def setLock (s : Sys P M) (i : ι) (l : Option P) : Sys P M :=
  { s with lock := update s.lock i l }

/-- What a call does next where it holds no lock. -/
def goAway (s : Sys P M) (i : ι) (p : P) (o : (M i).Op) : Option (Sys P M) :=
  match (M i).next (s.killed p) (s.data i) o with
  | .acquire o' => some (s.move i p (.spin o'))
  | .write d o' => some ((s.setData i d).move i p (.away o'))
  | .ret _ => some (s.move i p .out)
  | _ => none

/-- What a call does next where it holds the lock. -/
def goLocked (s : Sys P M) (i : ι) (p : P) (o : (M i).Op) : Option (Sys P M) :=
  match (M i).next (s.killed p) (s.data i) o with
  | .set d o' => some ((s.setData i d).move i p (.locked o'))
  | .wakeup c o' =>
    if s.ptable = none then some ({ s with ptable := some (i, p) }.move i p (.waking c o'))
    else none
  | .sleep c o' =>
    if s.ptable = none then some ({ s with ptable := some (i, p) }.move i p (.handing c o'))
    else none
  | .release o' => some ((s.setLock i none).move i p (.away o'))
  | _ => none

/-- The next action of a process in a monitor. Nothing happens while it spins for a lock that is
held, and nothing any more after a panic. -/
def go [DecidableEq C] (s : Sys P M) (i : ι) (p : P) : Option (Sys P M) :=
  match s.call i p with
  | .away o => s.goAway i p o
  | .spin o =>
    if s.lock i = none then some ((s.setLock i (some p)).move i p (.locked o)) else none
  | .locked o => s.goLocked i p o
  | .waking c o => some (({ s with ptable := none }.wakeup1 c).move i p (.locked o))
  | .handing c o => some ((s.setLock i none).move i p (.handed c o))
  -- now SLEEPING; the scheduler it switches to gives up `ptable.lock`
  | .handed c o => some ({ s with ptable := none }.move i p (.asleep c o))
  | .out | .asleep _ _ => none

end Sys

variable [DecidableEq P] [DecidableEq ι] [DecidableEq C]

/-- A process starts a call, goes on with one, is made runnable without a wakeup, or marks itself
killed. It does that in user mode; that it is in no call then is for those to say who need it, as a
process may be in calls of any number of monitors. -/
def step (s : Sys P M) : Event P M → Option (Sys P M)
  | .call i p x =>
    match s.call i p with
    | .out => some (s.move i p (.away ((M i).start x)))
    | _ => none
  | .go i p => s.go i p
  | .wake i p =>
    match s.call i p with
    | .asleep _ o => some (s.move i p (.spin o))
    | _ => none
  | .fault p => some { s with killed := update s.killed p true }


/-! ## What a step does to the data -/

section Data

variable {s s' : Sys P M} {e : Event P M} {i j : ι} {p : P}

omit [DecidableEq C] in
@[simp] theorem Sys.move_data {ph : Phase C (M i).Op} : (s.move i p ph).data = s.data := rfl

theorem go_data (h : s.go i p = some s') :
    s'.data = update s.data i (s.written i p) := by
  simp only [Sys.go] at h
  simp only [Sys.written, Monitor.written]
  split at h
  case h_1 o hp =>
    simp only [Sys.goAway] at h
    rw [hp]
    dsimp only
    split at h <;> cases h
    all_goals simp [*, Sys.setData]
  case h_3 o hp =>
    simp only [Sys.goLocked] at h
    rw [hp]
    dsimp only
    split at h
    · cases h
      simp [*, Sys.setData]
    · split at h <;> cases h
      simp [*]
    · split at h <;> cases h
      simp [*]
    · cases h
      simp [*, Sys.setLock]
    · cases h
  case h_2 o hp =>
    split at h <;> cases h
    simp [hp, Sys.setLock]
  case h_4 c o hp =>
    cases h
    simp [hp, Sys.wakeup1]
  case h_5 c o hp =>
    cases h
    simp [hp, Sys.setLock]
  case h_6 c o hp =>
    cases h
    simp [hp]
  all_goals cases h

theorem step_data (h : step s e = some s') (he : ∀ p, e ≠ .go j p) : s'.data j = s.data j := by
  cases e with
  | call i p x =>
    simp only [step] at h
    split at h <;> cases h
    rfl
  | wake i p =>
    simp only [step] at h
    split at h <;> cases h
    rfl
  | fault p =>
    cases h
    rfl
  | go i p =>
    rw [go_data h]
    refine update_of_ne ?_ ..
    rintro rfl
    exact he p rfl

end Data

/-! ## Rules for one monitor -/

/-- The data and the control point after an action. -/
def Act.after {D O : Type} (d : D) : Act C D O → Option (D × O)
  | .acquire o | .wakeup _ o | .sleep _ o | .release o => some (d, o)
  | .write d' o | .set d' o => some (d', o)
  | .ret _ | .panic => none

/-- Where the call goes on without the lock, or takes it anew. -/
def Act.outside {D O : Type} : Act C D O → Option O
  | .acquire o | .sleep _ o | .release o | .write _ o => some o
  | _ => none

def Act.isSet {D O : Type} : Act C D O → Bool
  | .set _ _ => true
  | _ => false

/-- What is to be known of a monitor. A call at `o` relies on `fits`, and on `compat` with the other
calls. The lock is held throughout at the points `inside`. Who sleeps on `c` goes on at a point with
`waits`, and waits while `cond`; a call at a point that `owes c` is going to wake `c`. -/
structure Rules (M : Monitor C) where
  fits : Bool → M.Data → M.Op → Prop
  compat : M.Op → M.Op → Prop
  inside : M.Op → Prop
  cond : C → M.Data → Prop
  waits : C → M.Op → Prop
  owes : M.Op → C → Prop

namespace Rules

variable {N : Monitor C} {R : Rules N}

def Owes (R : Rules N) : Act C N.Data N.Op → C → Prop
  | .set _ o, c => R.owes o c
  | .wakeup c' o, c => c' = c ∨ R.owes o c
  | _, _ => False

/-- Each action, against one other call at `w`, keeps what the calls rely on, and what a sleeper
waits for until it is woken. -/
structure Sound (R : Rules N) : Prop where
  symm {o w} : R.compat o w → R.compat w o
  start (x) : ¬ R.inside (N.start x)
  outside {k d o o'} : (N.next k d o).outside = some o' → ¬ R.inside o'
  fits {k d o d' o'} : (N.next k d o).after d = some (d', o') → R.fits k d o → R.fits k d' o'
  compat {k d o d' o' k' w} : (N.next k d o).after d = some (d', o') → R.fits k d o →
    R.fits k' d w → R.compat o w → R.compat o' w
  others {k d o d' o' k' w} : (N.next k d o).after d = some (d', o') → R.fits k d o →
    R.fits k' d w → R.compat o w → ((N.next k d o).isSet → ¬ R.inside w) → R.fits k' d' w
  sleep {k d o c w} : N.next k d o = .sleep c w → R.fits k d o → R.waits c w ∧ R.cond c d
  cond {k d o d' o' k' w c} : (N.next k d o).after d = some (d', o') → R.fits k d o →
    R.fits k' d w → R.compat o w → R.waits c w → R.cond c d ∨ R.owes o c →
    R.cond c d' ∨ R.Owes (N.next k d o) c

end Rules

/-- The wakeups a process has still to make before it gives up the lock. -/
def Phase.Owes {N : Monitor C} (R : Rules N) : Phase C N.Op → C → Prop
  | .locked o, c => R.owes o c
  | .waking c' o, c => c' = c ∨ R.owes o c
  | _, _ => False

/-! ## What every step keeps -/

namespace Phase

variable {O : Type} (c : C) (ph : Phase C O)

@[simp] theorem wakeup1_op : (ph.wakeup1 c).op = ph.op := by
  cases ph <;> simp only [wakeup1]
  split <;> rfl

@[simp] theorem wakeup1_holds : (ph.wakeup1 c).holds = ph.holds := by
  cases ph <;> simp only [wakeup1]
  split <;> rfl

@[simp] theorem wakeup1_within : (ph.wakeup1 c).within = ph.within := by
  cases ph <;> simp only [wakeup1]
  split <;> rfl

omit [DecidableEq C] in
theorem holds_of_within {ph : Phase C O} (h : ph.within) : ph.holds := by
  cases ph with
  | locked | waking => rfl
  | out | away | spin | handing | handed | asleep => cases h

@[simp] theorem wakeup1_holdsPtable : (ph.wakeup1 c).holdsPtable = ph.holdsPtable := by
  cases ph <;> simp only [wakeup1]
  split <;> rfl

@[simp] theorem wakeup1_owes {N : Monitor C} (R : Rules N) (ph : Phase C N.Op) (c' : C) :
    (ph.wakeup1 c).Owes R c' = ph.Owes R c' := by
  cases ph <;> simp only [wakeup1]
  split <;> rfl

/-- Who still sleeps after a wakeup of `c` does so on another channel, or is only about to. -/
theorem sleeper_of_wakeup1 {x : C × O} (h : (ph.wakeup1 c).sleeper = some x) :
    ph.sleeper = some x ∧ (x.1 ≠ c ∨ ph.holdsPtable) := by
  cases ph with
  | asleep c' o =>
    simp only [wakeup1] at h
    split at h
    · cases h
    · cases h
      exact ⟨rfl, .inl ‹_›⟩
  | handing c' o => exact ⟨h, .inr rfl⟩
  | handed c' o => exact ⟨h, .inr rfl⟩
  | out | away | spin | locked | waking => cases h

end Phase

/-- What is known of the calls on one monitor. -/
structure Good {N : Monitor C} (R : Rules N) (k : P → Bool) (d : N.Data) (f : P → Phase C N.Op) :
    Prop where
  fits {p o} : (f p).op = some o → R.fits (k p) d o
  compat {p q o w} : p ≠ q → (f p).op = some o → (f q).op = some w → R.compat o w
  inside {p o} : (f p).op = some o → R.inside o → (f p).within
  awaited {p c w} : (f p).sleeper = some (c, w) →
    R.waits c w ∧ (R.cond c d ∨ ∃ q, (f q).Owes R c)

namespace Good

variable {N : Monitor C} {R : Rules N} {k : P → Bool} {d d' : N.Data} {f : P → Phase C N.Op}
  {p : P} {ph₀ ph : Phase C N.Op} {o o' : N.Op} {c : C}

omit [DecidableEq C] in
theorem update (hR : R.Sound) (h : Good R k d f)
    (hop : ∀ o, ph.op = some o → R.fits (k p) d' o ∧ (R.inside o → ph.within) ∧
      ∀ q w, q ≠ p → (f q).op = some w → R.compat o w)
    (hother : ∀ q w, q ≠ p → (f q).op = some w → R.fits (k q) d' w)
    (hsleep : ∀ c w, ph.sleeper = some (c, w) →
      R.waits c w ∧ (R.cond c d' ∨ ∃ q ≠ p, (f q).Owes R c))
    (hcond : ∀ q c w, q ≠ p → (f q).sleeper = some (c, w) →
      R.cond c d ∨ (f p).Owes R c → R.cond c d' ∨ ph.Owes R c) :
    Good R k d' (update f p ph) where
  fits {q w} hq := by
    by_cases hqp : q = p
    · subst hqp
      rw [update_self] at hq
      exact (hop w hq).1
    · rw [update_of_ne hqp] at hq
      exact hother q w hqp hq
  compat {q r w v} hqr hq hr := by
    by_cases hqp : q = p
    · subst hqp
      rw [update_self] at hq
      rw [update_of_ne (Ne.symm hqr)] at hr
      exact (hop w hq).2.2 r v (Ne.symm hqr) hr
    · rw [update_of_ne hqp] at hq
      by_cases hrp : r = p
      · subst hrp
        rw [update_self] at hr
        exact hR.symm ((hop v hr).2.2 q w hqp hq)
      · rw [update_of_ne hrp] at hr
        exact h.compat hqr hq hr
  inside {q w} hq hin := by
    by_cases hqp : q = p
    · subst hqp
      rw [update_self] at hq ⊢
      exact (hop w hq).2.1 hin
    · rw [update_of_ne hqp] at hq ⊢
      exact h.inside hq hin
  awaited {q c w} hq := by
    by_cases hqp : q = p
    · subst hqp
      rw [update_self] at hq
      obtain ⟨hwaits, hcov⟩ := hsleep c w hq
      refine ⟨hwaits, hcov.imp_right ?_⟩
      rintro ⟨r, hr, howes⟩
      exact ⟨r, by rwa [update_of_ne hr]⟩
    · rw [update_of_ne hqp] at hq
      obtain ⟨hwaits, hcov⟩ := h.awaited hq
      refine ⟨hwaits, ?_⟩
      -- the wakeup is owed by `p`, or by somebody whose phase is as it was
      have hp : (R.cond c d ∨ (f p).Owes R c) ∨ ∃ r ≠ p, (f r).Owes R c := by
        rcases hcov with hcov | ⟨r, hr⟩
        · exact .inl (.inl hcov)
        · by_cases hrp : r = p
          · subst hrp
            exact .inl (.inr hr)
          · exact .inr ⟨r, hrp, hr⟩
      rcases hp with hp | ⟨r, hrp, hr⟩
      · refine (hcond q c w hqp hq hp).imp_right fun howes => ⟨p, ?_⟩
        rwa [update_self]
      · exact .inr ⟨r, by rwa [update_of_ne hrp]⟩

omit [DecidableEq C] in
theorem act (hR : R.Sound) (h : Good R k d f) {a : Act C N.Data N.Op} (hp : f p = ph₀)
    (hop : ph₀.op = some o) (hnext : N.next (k p) d o = a) (hafter : a.after d = some (d', o'))
    (hph : ph.op = some o') (hmutex : a.isSet → ∀ q ≠ p, ¬ (f q).holds)
    (hinside : R.inside o' → ph.within)
    (hsleep : ∀ c w, ph.sleeper = some (c, w) → a = .sleep c w)
    (howes : ∀ c, ph₀.Owes R c → R.owes o c) (howes' : ∀ c, R.Owes a c → ph.Owes R c) :
    Good R k d' (Function.update f p ph) := by
  subst hp hnext
  have hfits := h.fits hop
  refine h.update hR (fun v hv => ?_) (fun q w hq hw => ?_) (fun c w hc => ?_)
    fun q c w hq hw hcov => ?_
  · obtain rfl : o' = v := Option.some_inj.mp (hph.symm.trans hv)
    exact ⟨hR.fits hafter hfits, hinside, fun q w hq hw =>
      hR.compat hafter hfits (h.fits hw) (h.compat (Ne.symm hq) hop hw)⟩
  · exact hR.others hafter hfits (h.fits hw) (h.compat (Ne.symm hq) hop hw) fun hset hin =>
      hmutex hset q hq (holds_of_within (h.inside hw hin))
  · have hnext := hsleep c w hc
    rw [hnext] at hafter
    cases hafter
    obtain ⟨hwaits, hcond⟩ := hR.sleep hnext hfits
    exact ⟨hwaits, .inl hcond⟩
  · have hw' : (f q).op = some w := by
      revert hw
      cases f q <;> simp [sleeper, op]
    exact (hR.cond hafter hfits (h.fits hw') (h.compat (Ne.symm hq) hop hw') (h.awaited hw).1
      (hcov.imp_right (howes c))).imp_right (howes' c)

omit [DecidableEq P] [DecidableEq C] in
theorem not_inside (h : Good R k d f) (hp : f p = ph₀) (hw : ph₀.within = false)
    (hop : ph₀.op = some o) : ¬ R.inside o := by
  subst hp
  intro hin
  rw [h.inside hop hin] at hw
  cases hw

omit [DecidableEq C] in
theorem shift (hR : R.Sound) (h : Good R k d f) (hp : f p = ph₀) (hop : ph.op = ph₀.op)
    (hinside : ∀ o, ph₀.op = some o → R.inside o → ph.within)
    (hsleep : ∀ x, ph.sleeper = some x → ph₀.sleeper = some x ∧ ∀ c, ¬ ph₀.Owes R c)
    (howes : ∀ q c w, q ≠ p → (f q).sleeper = some (c, w) → ph₀.Owes R c → ph.Owes R c) :
    Good R k d (Function.update f p ph) := by
  subst hp
  refine h.update hR (fun v hv => ?_) (fun q w _ hw => h.fits hw) (fun c w hc => ?_)
    fun q c w hq hw hcov => hcov.imp_right (howes q c w hq hw)
  · have hv' := hop ▸ hv
    exact ⟨h.fits hv', hinside v hv', fun q w hq hw => h.compat (Ne.symm hq) hv' hw⟩
  · obtain ⟨hp, hnot⟩ := hsleep (c, w) hc
    obtain ⟨hwaits, hcov⟩ := h.awaited hp
    refine ⟨hwaits, hcov.imp_right ?_⟩
    rintro ⟨q, hq⟩
    refine ⟨q, ?_, hq⟩
    rintro rfl
    exact hnot c hq

omit [DecidableEq C] in
theorem leave (hR : R.Sound) (h : Good R k d f) (hp : f p = .away o) :
    Good R k d (Function.update f p .out) := by
  refine h.update hR ?_ (fun q w _ hw => h.fits hw) ?_ ?_
  · intro v hv
    cases hv
  · intro c w hc
    cases hc
  · rintro q c w - - (hcov | howes)
    · exact .inl hcov
    · rw [hp] at howes
      exact howes.elim

omit [DecidableEq C] in
theorem enter (hR : R.Sound) (h : Good R k d f) (hp : f p = .out) {x : N.Call}
    (hfits : R.fits (k p) d (N.start x))
    (hcompat : ∀ q w, (f q).op = some w → R.compat (N.start x) w) :
    Good R k d (Function.update f p (.away (N.start x))) := by
  refine h.update hR ?_ (fun q w _ hw => h.fits hw) ?_ ?_
  · intro v hv
    cases hv
    exact ⟨hfits, fun hin => absurd hin (hR.start x), fun q w _ hw => hcompat q w hw⟩
  · intro c w hc
    cases hc
  · rintro q c w - - (hcov | howes)
    · exact .inl hcov
    · rw [hp] at howes
      exact howes.elim

omit [DecidableEq P] in
theorem wakeup1 (h : Good R k d f) (c : C) : Good R k d fun p => (f p).wakeup1 c where
  fits hp := h.fits (by rwa [wakeup1_op] at hp)
  compat hne hp hq := h.compat hne (by rwa [wakeup1_op] at hp)
    (by rwa [wakeup1_op] at hq)
  inside hp hin := by
    rw [wakeup1_op] at hp
    rw [wakeup1_within]
    exact h.inside hp hin
  awaited hp := by
    simp only [wakeup1_owes]
    exact h.awaited (sleeper_of_wakeup1 c _ hp).1

end Good

/-- A lock and what its holders are: nobody, or the one that `g` says holds it. -/
def Owner {X : Type} (l : Option X) (g : X → Bool) : Prop := ∀ x, l = some x ↔ g x = true

namespace Owner

variable {X : Type} [DecidableEq X] {l : Option X} {g : X → Bool} {x y : X}

theorem take (h : Owner none g) : Owner (some x) (update g x true) := by
  intro y
  by_cases hy : y = x
  · subst hy
    simp
  · rw [update_of_ne hy, ← h y]
    simpa using Ne.symm hy

theorem drop (h : Owner l g) (hx : g x = true) : Owner none (update g x false) := by
  intro y
  by_cases hy : y = x
  · subst hy
    simp
  · rw [update_of_ne hy, ← h y, (h x).mpr hx]
    simpa using Ne.symm hy

theorem keep (h : Owner l g) {b : Bool} (hx : g x = b) : Owner l (update g x b) := by
  rwa [update_eq_self_iff.mpr hx.symm]

omit [DecidableEq X] in
theorem unique (h : Owner l g) (hx : g x = true) (hy : g y = true) : x = y :=
  Option.some_inj.mp (((h x).mpr hx).symm.trans ((h y).mpr hy))

end Owner

/-- What holds in every state of a system whose monitors follow their rules. -/
structure Inv (R : ∀ i, Rules (M i)) (s : Sys P M) : Prop where
  lock (i) : Owner (s.lock i) fun p => (s.call i p).holds
  ptable : Owner s.ptable fun x => (s.call x.1 x.2).holdsPtable
  good (i) : Good (R i) s.killed (s.data i) (s.call i)

namespace Inv

variable {R : ∀ i, Rules (M i)} {s t : Sys P M} {i : ι} {p : P} {ph : Phase C (M i).Op}

omit [DecidableEq C] in
theorem move (h : Inv R s) (hcall : t.call = (s.move i p ph).call) (hkilled : t.killed = s.killed)
    (hdata : ∀ j ≠ i, t.data j = s.data j) (hlock : ∀ j ≠ i, t.lock j = s.lock j)
    (hlocki : Owner (t.lock i) (update (fun q => (s.call i q).holds) p ph.holds))
    (hptable : Owner t.ptable
      (update (fun x => (s.call x.1 x.2).holdsPtable) (i, p) ph.holdsPtable))
    (hgood : Good (R i) s.killed (t.data i) (update (s.call i) p ph)) : Inv R t := by
  have hi : t.call i = update (s.call i) p ph := by
    rw [hcall]
    exact update_self ..
  have hj (j) (hji : j ≠ i) : t.call j = s.call j := by
    rw [hcall]
    exact update_of_ne hji ..
  refine ⟨fun j => ?_, ?_, fun j => ?_⟩
  · by_cases hji : j = i
    · subst hji
      rw [hi]
      convert hlocki using 1
      funext q
      exact apply_update (fun _ => holds) (s.call j) p ph q
    · rw [hj j hji, hlock j hji]
      exact h.lock j
  · convert hptable using 1
    funext ⟨j, q⟩
    by_cases hji : j = i
    · subst hji
      rw [hi]
      by_cases hqp : q = p
      · subst hqp
        rw [update_self, update_self]
      · rw [update_of_ne hqp, update_of_ne fun heq => hqp (Prod.mk.inj heq).2]
    · rw [hj j hji, update_of_ne fun heq => hji (Prod.mk.inj heq).1]
  · by_cases hji : j = i
    · subst hji
      rwa [hi, hkilled]
    · rw [hj j hji, hkilled, hdata j hji]
      exact h.good j

omit [DecidableEq P] [DecidableEq ι] in
theorem wakeup1 (h : Inv R s) (c : C) : Inv R (s.wakeup1 c) where
  lock i := by simpa [Sys.wakeup1] using h.lock i
  ptable := by simpa [Sys.wakeup1] using h.ptable
  good i := (h.good i).wakeup1 c

variable (hR : ∀ i, (R i).Sound)

include hR

omit [DecidableEq C] in
theorem goAway {o : (M i).Op} (h : Inv R s) (hp : s.call i p = .away o)
    (hstep : s.goAway i p o = some t) : Inv R t := by
  have hgood := h.good i
  have hholds : (s.call i p).holds = false := by rw [hp]; rfl
  have hptable : (s.call i p).holdsPtable = false := by rw [hp]; rfl
  simp only [Sys.goAway] at hstep
  split at hstep
  case h_1 o' hnext =>
    cases hstep
    refine h.move rfl rfl (fun _ _ => rfl) (fun _ _ => rfl) ((h.lock i).keep hholds)
      (h.ptable.keep hptable) ?_
    refine hgood.act (hR i) hp rfl hnext rfl rfl ?_ ?_ ?_ ?_ ?_
    · simp [Act.isSet]
    · exact fun hin => absurd hin ((hR i).outside (by rw [hnext]; rfl))
    · simp [sleeper]
    · simp [Phase.Owes]
    · simp [Rules.Owes]
  case h_2 d' o' hnext =>
    cases hstep
    refine h.move rfl rfl (fun j hj => update_of_ne hj ..) (fun _ _ => rfl)
      ((h.lock i).keep hholds) (h.ptable.keep hptable) ?_
    rw [show ((s.setData i d').move i p (.away o')).data i = d' from update_self ..]
    refine hgood.act (hR i) hp rfl hnext rfl rfl ?_ ?_ ?_ ?_ ?_
    · simp [Act.isSet]
    · exact fun hin => absurd hin ((hR i).outside (by rw [hnext]; rfl))
    · simp [sleeper]
    · simp [Phase.Owes]
    · simp [Rules.Owes]
  case h_3 =>
    cases hstep
    exact h.move rfl rfl (fun _ _ => rfl) (fun _ _ => rfl) ((h.lock i).keep hholds)
      (h.ptable.keep hptable) (hgood.leave (hR i) hp)
  case h_4 => cases hstep

omit [DecidableEq C] in
theorem goLocked {o : (M i).Op} (h : Inv R s) (hp : s.call i p = .locked o)
    (hstep : s.goLocked i p o = some t) : Inv R t := by
  have hgood := h.good i
  have hholds : (s.call i p).holds = true := by rw [hp]; rfl
  have hptable : (s.call i p).holdsPtable = false := by rw [hp]; rfl
  simp only [Sys.goLocked] at hstep
  split at hstep
  case h_1 d' o' hnext =>
    cases hstep
    refine h.move rfl rfl (fun j hj => update_of_ne hj ..) (fun _ _ => rfl)
      ((h.lock i).keep hholds) (h.ptable.keep hptable) ?_
    rw [show ((s.setData i d').move i p (.locked o')).data i = d' from update_self ..]
    refine hgood.act (hR i) hp rfl hnext rfl rfl ?_ ?_ ?_ ?_ ?_
    · exact fun _ q hq hq' => hq ((h.lock i).unique hq' hholds)
    · exact fun _ => rfl
    · simp [sleeper]
    · simp [Phase.Owes]
    · simp [Rules.Owes, Phase.Owes]
  case h_2 c o' hnext =>
    split at hstep
    case isFalse => cases hstep
    case isTrue hfree =>
      cases hstep
      refine h.move rfl rfl (fun _ _ => rfl) (fun _ _ => rfl) ((h.lock i).keep hholds)
        (Owner.take (hfree ▸ h.ptable)) ?_
      refine hgood.act (hR i) hp rfl hnext rfl rfl ?_ ?_ ?_ ?_ ?_
      · simp [Act.isSet]
      · exact fun _ => rfl
      · simp [sleeper]
      · simp [Phase.Owes]
      · simp [Rules.Owes, Phase.Owes]
  case h_3 c o' hnext =>
    split at hstep
    case isFalse => cases hstep
    case isTrue hfree =>
      cases hstep
      refine h.move rfl rfl (fun _ _ => rfl) (fun _ _ => rfl) ((h.lock i).keep hholds)
        (Owner.take (hfree ▸ h.ptable)) ?_
      refine hgood.act (hR i) hp rfl hnext rfl rfl ?_ ?_ ?_ ?_ ?_
      · simp [Act.isSet]
      · exact fun hin => absurd hin ((hR i).outside (by rw [hnext]; rfl))
      · simp [sleeper]
      · simp [Phase.Owes]
      · simp [Rules.Owes]
  case h_4 o' hnext =>
    cases hstep
    refine h.move rfl rfl (fun _ _ => rfl) (fun j hj => update_of_ne hj ..) ?_
      (h.ptable.keep hptable) ?_
    · rw [show ((s.setLock i none).move i p (.away o')).lock i = none from
        update_self ..]
      exact (h.lock i).drop hholds
    · refine hgood.act (hR i) hp rfl hnext rfl rfl ?_ ?_ ?_ ?_ ?_
      · simp [Act.isSet]
      · exact fun hin => absurd hin ((hR i).outside (by rw [hnext]; rfl))
      · simp [sleeper]
      · simp [Phase.Owes]
      · simp [Rules.Owes]
  case h_5 => cases hstep

theorem go (h : Inv R s) (hstep : s.go i p = some t) : Inv R t := by
  have hgood := h.good i
  simp only [Sys.go] at hstep
  split at hstep
  case h_1 o hp => exact h.goAway hR hp hstep
  case h_2 o hp =>
    split at hstep
    case isFalse => cases hstep
    case isTrue hfree =>
      cases hstep
      refine h.move rfl rfl (fun _ _ => rfl) (fun j hj => update_of_ne hj ..) ?_
        (h.ptable.keep (by rw [hp]; rfl)) ?_
      · rw [show ((s.setLock i (some p)).move i p (.locked o)).lock i = some p from
          update_self ..]
        exact Owner.take (hfree ▸ h.lock i)
      · refine hgood.shift (hR i) hp rfl ?_ ?_ ?_
        · exact fun _ _ _ => rfl
        · simp [sleeper]
        · simp [Phase.Owes]
  case h_3 o hp => exact h.goLocked hR hp hstep
  case h_4 c o hp =>
    cases hstep
    have hpt : (s.call i p).holdsPtable = true := by rw [hp]; rfl
    have hp' : (s.call i p).wakeup1 c = .waking c o := by rw [hp]; rfl
    refine (h.wakeup1 c).move rfl rfl (fun _ _ => rfl) (fun _ _ => rfl)
      (((h.wakeup1 c).lock i).keep ?_) ((h.wakeup1 c).ptable.drop ?_) ?_
    · show ((s.call i p).wakeup1 c).holds = true
      rw [hp']
      rfl
    · show ((s.call i p).wakeup1 c).holdsPtable = true
      rw [hp']
      rfl
    · refine (hgood.wakeup1 c).shift (hR i) hp' rfl ?_ ?_ ?_
      · exact fun _ _ _ => rfl
      · simp [sleeper]
      -- nobody is about to sleep while this process holds `ptable.lock`
      · intro q c' w hq hw howes
        obtain ⟨-, hne | hq'⟩ := sleeper_of_wakeup1 c _ hw
        · exact howes.resolve_left fun heq => hne heq.symm
        · exact absurd (Prod.mk.inj (h.ptable.unique (x := (i, q)) (y := (i, p)) hq' hpt)).2 hq
  case h_5 c o hp =>
    cases hstep
    refine h.move rfl rfl (fun _ _ => rfl) (fun j hj => update_of_ne hj ..) ?_
      (h.ptable.keep (by rw [hp]; rfl)) ?_
    · rw [show ((s.setLock i none).move i p (.handed c o)).lock i = none from
        update_self ..]
      exact (h.lock i).drop (by rw [hp]; rfl)
    · refine hgood.shift (hR i) hp rfl ?_ ?_ ?_
      · exact fun _ hv hin => absurd hin (hgood.not_inside hp rfl hv)
      · simp [sleeper, Phase.Owes]
      · simp [Phase.Owes]
  case h_6 c o hp =>
    cases hstep
    refine h.move rfl rfl (fun _ _ => rfl) (fun _ _ => rfl) ((h.lock i).keep (by rw [hp]; rfl))
      (h.ptable.drop (by rw [hp]; rfl)) ?_
    refine hgood.shift (hR i) hp rfl ?_ ?_ ?_
    · exact fun _ hv hin => absurd hin (hgood.not_inside hp rfl hv)
    · simp [sleeper, Phase.Owes]
    · simp [Phase.Owes]
  case h_7 => cases hstep
  case h_8 => cases hstep

end Inv

/-- Calls are started, and processes marked killed, where that fits the calls that are going on. -/
def Admits (R : ∀ i, Rules (M i)) (s : Sys P M) : Event P M → Prop
  | .call i p x => (R i).fits (s.killed p) (s.data i) ((M i).start x) ∧
    ∀ q w, (s.call i q).op = some w → (R i).compat ((M i).start x) w
  | .fault p => ∀ i o, (s.call i p).op = some o → (R i).fits true (s.data i) o
  | .go _ _ | .wake _ _ => True

variable {R : ∀ i, Rules (M i)} {s s' : Sys P M} {e : Event P M} {es : List (Event P M)}

theorem step_inv (hR : ∀ i, (R i).Sound) (h : Inv R s) (hadm : Admits R s e)
    (hstep : step s e = some s') : Inv R s' := by
  cases e with
  | go i p => exact h.go hR hstep
  | call i p x =>
    simp only [step] at hstep
    split at hstep
    case h_2 => cases hstep
    case h_1 hp =>
      cases hstep
      exact h.move rfl rfl (fun _ _ => rfl) (fun _ _ => rfl) ((h.lock i).keep (by rw [hp]; rfl))
        (h.ptable.keep (by rw [hp]; rfl)) ((h.good i).enter (hR i) hp hadm.1 hadm.2)
  | wake i p =>
    simp only [step] at hstep
    split at hstep
    case h_2 => cases hstep
    case h_1 c o hp =>
      cases hstep
      refine h.move rfl rfl (fun _ _ => rfl) (fun _ _ => rfl) ((h.lock i).keep (by rw [hp]; rfl))
        (h.ptable.keep (by rw [hp]; rfl)) ((h.good i).shift (hR i) hp rfl ?_ ?_ ?_)
      · exact fun _ hv hin => absurd hin ((h.good i).not_inside hp rfl hv)
      · simp [sleeper]
      · simp [Phase.Owes]
  | fault p =>
    cases hstep
    refine ⟨h.lock, h.ptable, fun i => ?_⟩
    have hgood := h.good i
    refine ⟨fun {q o} hq => ?_, hgood.compat, hgood.inside, hgood.awaited⟩
    by_cases hqp : q = p
    · subst hqp
      show (R i).fits (update s.killed q true q) _ _
      rw [update_self]
      exact hadm i o hq
    · show (R i).fits (update s.killed p true q) _ _
      rw [update_of_ne hqp]
      exact hgood.fits hq

/-- Nobody is in a call. -/
structure Quiet (s : Sys P M) : Prop where
  lock (i) : s.lock i = none
  ptable : s.ptable = none
  call (i p) : s.call i p = .out

omit [DecidableEq P] [DecidableEq ι] [DecidableEq C] in
theorem Quiet.inv (h : Quiet s) : Inv R s where
  lock i p := by simp [h.lock i, h.call i p, holds]
  ptable x := by simp [h.ptable, h.call x.1 x.2, holdsPtable]
  good i := by
    refine ⟨fun {p o} hp => ?_, fun {p q o w} _ hp => ?_, fun {p o} hp => ?_, fun {p c w} hp => ?_⟩
    all_goals
      rw [h.call i p] at hp
      cases hp

omit [DecidableEq P] [DecidableEq ι] [DecidableEq C] in
/-- Where the lock is free, everybody who sleeps waits for what still holds. -/
theorem Inv.awaited (h : Inv R s) {i : ι} {p : P} {c : C} {o : (M i).Op} (hlock : s.lock i = none)
    (hp : s.call i p = .asleep c o) : (R i).waits c o ∧ (R i).cond c (s.data i) := by
  obtain ⟨hwaits, hcond | ⟨q, hq⟩⟩ := (h.good i).awaited (p := p) (by rw [hp]; rfl)
  · exact ⟨hwaits, hcond⟩
  · have hholds : (s.call i q).holds = true := by
      revert hq
      cases s.call i q <;> simp [Phase.Owes, holds]
    have := (h.lock i q).mpr hholds
    rw [hlock] at this
    cases this

/-- **No wakeup is lost**: in a run of calls that fit each other, whoever sleeps while its lock is
free waits for what still holds. -/
theorem run_awaited (hR : ∀ i, (R i).Sound) (hs : Quiet s)
    (hrun : Transition.run step s es = some s') (hadm : Transition.Allowed step (Admits R) s es)
    {i : ι} {p : P} {c : C} {o : (M i).Op} (hlock : s'.lock i = none)
    (hp : s'.call i p = .asleep c o) : (R i).waits c o ∧ (R i).cond c (s'.data i) := by
  have hinv : Inv R s' :=
    Transition.run_allowed (fun _ _ _ h hC hstep => step_inv hR h hC hstep) hrun hadm hs.inv
  exact hinv.awaited hlock hp

end Xv6.Sync
