import Xv6.Agent.Signals
import Xv6.Sched.Selection
import Xv6.Sched.Wf

/-!
# What the abuse signal counts

`detect_sjf_abuse` looks for a process with a low `burst_variance` and a high `yield_count`, and
takes the second for voluntary departures from the CPU. A process leaves the CPU in two ways: it
sleeps before its quantum is used up, or the timer trap finds the quantum used up and calls
`yield()`. Only the second writes `yield_count`. `Departures` counts both along a run,
`YieldInv` says which of the two the kernel counts, and the signal follows. The first process to
leave for the 21st time in either way makes it wrong.
-/

namespace Xv6.Sched

variable {ncpu : Nat}

/-- How often each process has left the CPU since its slot was allocated: at the end of a quantum,
and before. -/
structure Departures where
  expired : Slot → Nat
  early : Slot → Nat

namespace Machine

/-- The process that gets a slot. -/
def born (m : Machine ncpu) : Event ncpu → Option Slot
  | .forkAlloc _ _ => freeSlot m.proc
  | _ => none

/-- The process whose quantum runs out. -/
def expiring (m : Machine ncpu) : Event ncpu → Option Slot
  | .trapEnd c => (m.cpu c).filter (m.yields c)
  | _ => none

/-- The process that goes to sleep with some of its quantum left. -/
def napping (m : Machine ncpu) : Event ncpu → Option Slot
  | .sleep _ i _ | .waitSleep _ i => if 0 < (m.proc i).ticksRemaining then some i else none
  | _ => none

end Machine

/-- Counts that start again for one process and go up for another. -/
def recount (f : Slot → Nat) (fresh more : Option Slot) (j : Slot) : Nat :=
  if fresh = some j then 0 else if more = some j then f j + 1 else f j

theorem recount_self (f : Slot → Nat) (j : Slot) : recount f none (some j) j = f j + 1 := by
  simp [recount]

theorem recount_le {f : Slot → Nat} {fresh more : Option Slot} {j : Slot} (h : more ≠ some j) :
    recount f fresh more j ≤ f j := by
  rw [recount, if_neg h]
  split
  · exact Nat.zero_le _
  · exact Nat.le_refl _

theorem recount_le_succ (f : Slot → Nat) (fresh more : Option Slot) (j : Slot) :
    recount f fresh more j ≤ f j + 1 := by
  unfold recount
  split_ifs <;> omega

namespace Departures

/-- Nobody has run yet. -/
def start : Departures := ⟨fun _ => 0, fun _ => 0⟩

/-- What a step adds to the history. -/
def update (g : Departures) (m : Machine ncpu) (e : Event ncpu) : Departures where
  expired := recount g.expired (m.born e) (m.expiring e)
  early := recount g.early (m.born e) (m.napping e)

/-- Nobody has left the CPU more than 20 times in one of the two ways. -/
def Few (g : Departures) : Prop := ∀ j, g.expired j ≤ 20 ∧ g.early j ≤ 20

end Departures

/-- The kernel with its history. -/
abbrev Observed (ncpu : Nat) := Machine ncpu × Departures

namespace Observed

def boot : Observed ncpu := (Machine.boot ncpu, .start)

def step (s : Observed ncpu) (e : Event ncpu) : Option (Observed ncpu) :=
  (s.1.step e).map fun m' => (m', s.2.update s.1 e)

/-- No process leaves the CPU for the 21st time in one of the two ways. -/
def Seldom (s : Observed ncpu) (e : Event ncpu) : Prop :=
  (∀ j ∈ s.1.expiring e, s.2.expired j < 20) ∧ ∀ j ∈ s.1.napping e, s.2.early j < 20

instance (s : Observed ncpu) : DecidablePred s.Seldom := fun _ =>
  inferInstanceAs (Decidable (_ ∧ _))

end Observed

namespace Machine

variable {m : Machine ncpu} {e : Event ncpu} {g : Departures}

/-- A step not aimed at a process takes no quantum from it. -/
theorem expired_of_not_targets {j : Slot} (hT : ¬ m.Targets j e) :
    (g.update m e).expired j = g.expired j := by
  have hborn : m.born e ≠ some j := by
    intro hb
    cases e <;> first | exact hT hb | cases hb
  have hexp : m.expiring e ≠ some j := by
    intro he
    cases e <;> first | exact hT (Option.filter_eq_some_iff.mp he) | cases he
  show recount g.expired (m.born e) (m.expiring e) j = g.expired j
  rw [recount, if_neg hborn, if_neg hexp]

theorem expiring_alone {j : Slot} (h : m.expiring e = some j) :
    m.born e = none ∧ m.napping e = none := by
  cases e <;> first | exact ⟨rfl, rfl⟩ | cases h

theorem napping_alone {j : Slot} (h : m.napping e = some j) :
    m.born e = none ∧ m.expiring e = none := by
  cases e <;> first | exact ⟨rfl, rfl⟩ | cases h

/-- `yield_count` is the number of quanta that ran out, as an `int`. -/
structure YieldInv (m : Machine ncpu) (g : Departures) : Prop where
  wf : m.WF
  count : ∀ j, (m.proc j).state ≠ .unused → (m.proc j).yieldCount = i32 (g.expired j)

theorem boot_yieldInv : (boot ncpu).YieldInv .start where
  wf := boot_wf
  count := by
    intro j _
    simp only [boot, bootKernel, allocproc, Kernel.setProc_proc]
    split_ifs <;> simp [Proc.zero, Departures.start, i32]

theorem YieldInv.effect_count (h : m.YieldInv g) (he : m.Enabled e) (j : Slot)
    (hj : ((m.effect e).proc j).state ≠ .unused) :
    ((m.effect e).proc j).yieldCount = i32 ((g.update m e).expired j) := by
  have hs := effect_slot he j
  generalize (m.effect e).proc j = p at hj hs
  by_cases hused : (m.proc j).state = .unused
  · obtain ⟨hfree, ⟨c, i, rfl⟩, rfl⟩ := h.wf.used_slot hs hj hused
    have hborn : m.born (.forkAlloc c i) = some j := hfree
    simp only [Departures.update, recount, hborn, allocproc, Kernel.setProc_proc, if_true]
    rfl
  have hcount := h.count j hused
  cases hs with
  | stirred hT hs =>
    rw [expired_of_not_targets hT, ← hcount]
    exact hs.frame Proc.yieldCount fun _ _ _ _ _ _ => rfl
  | passed =>
    rw [scheduler_proc_frame Proc.yieldCount fun _ _ _ _ _ _ _ _ => rfl]
    exact hcount
  | counted =>
    rw [Proc.telemetry_frame Proc.yieldCount fun _ _ _ _ _ _ _ => rfl]
    exact hcount
  | yielded hc hy =>
    have hexp : m.expiring (.trapEnd _) = some j := Option.filter_eq_some_iff.mpr ⟨hc, hy⟩
    simp only [Departures.update, hexp, born, recount_self, Proc.yielded, hcount, i32]
    omega
  | allocated hfree => exact absurd (freeSlot_unused hfree) hused
  | exited _ _ hs => exact (hs.frame Proc.yieldCount fun _ _ _ _ _ _ => rfl).trans hcount
  | aborted | reaped => exact absurd rfl hj
  | slept | waited | made | resized | pinned | faulted => exact hcount

theorem YieldInv.step {s s' : Observed ncpu} (h : s.1.YieldInv s.2) (hstep : s.step e = some s') :
    s'.1.YieldInv s'.2 := by
  obtain ⟨m', hm', rfl⟩ := Option.map_eq_some_iff.mp hstep
  obtain ⟨hen, rfl⟩ := step_eq_some.mp hm'
  exact ⟨h.wf.effect hen, h.effect_count hen⟩

/-- **What `yield_count` counts**: in every run, the quanta that ran out. -/
theorem run_yieldInv {es : List (Event ncpu)} {s : Observed ncpu}
    (h : Transition.run Observed.step .boot es = some s) : s.1.YieldInv s.2 :=
  Transition.run_invariant (I := fun s : Observed ncpu => s.1.YieldInv s.2)
    (fun _ _ _ hs hstep => hs.step hstep) h boot_yieldInv

end Machine

theorem Observed.step_few {s s' : Observed ncpu} {e : Event ncpu} (h : s.2.Few)
    (hseldom : s.Seldom e) (hstep : s.step e = some s') : s'.2.Few := by
  obtain ⟨m', -, rfl⟩ := Option.map_eq_some_iff.mp hstep
  have hle : ∀ {f : Slot → Nat} {fresh more : Option Slot} {j : Slot}, f j ≤ 20 →
      (more = some j → f j < 20) → recount f fresh more j ≤ 20 := by
    intro f fresh more j hf hmore
    by_cases hj : more = some j
    · exact (recount_le_succ f fresh more j).trans (hmore hj)
    · exact (recount_le hj).trans hf
  exact fun j => ⟨hle (h j).1 (hseldom.1 j), hle (h j).2 (hseldom.2 j)⟩

theorem Observed.run_few {es : List (Event ncpu)} {s : Observed ncpu}
    (h : Transition.run Observed.step .boot es = some s)
    (hseldom : Transition.Allowed Observed.step Seldom .boot es) : s.2.Few :=
  Transition.run_allowed (I := fun s : Observed ncpu => s.2.Few)
    (fun _ _ _ hs hC hstep => step_few hs hC hstep) h hseldom
    fun _ => ⟨Nat.zero_le _, Nat.zero_le _⟩

end Xv6.Sched

namespace Xv6.Agent

open Sched Sched.Machine

variable {ncpu : Nat} {m : Machine ncpu} {g : Departures}

variable {stats : List Schedstat} {k : Kernel}

theorem detectSjfAbuse_eq_one :
    detectSjfAbuse stats = 1 ↔ ∃ st ∈ stats, st.burstVariance < 5 ∧ 20 < st.yieldCount := by
  unfold detectSjfAbuse
  split
  · next h => simpa using h
  · next h => simpa using h

/-- A snapshot shows the listed processes and nothing else. -/
theorem exists_mem_snapshot {n : Nat} {P : Schedstat → Prop}
    (hP : ∀ (p : Proc) alert alert', P (p.schedstat alert) → P (p.schedstat alert')) :
    (∃ st ∈ kernGetschedstats n k, P st) ↔ ∃ j ∈ listed n k.proc, P ((k.proc j).schedstat 0) := by
  constructor
  · rintro ⟨st, hst, hp⟩
    obtain ⟨a, ha, rfl⟩ := List.mem_mapIdx.mp hst
    exact ⟨_, List.getElem_mem ha, hP _ _ _ hp⟩
  · rintro ⟨j, hj, hp⟩
    obtain ⟨a, ha, rfl⟩ := List.getElem_of_mem hj
    exact ⟨_, List.mem_mapIdx.mpr ⟨a, ha, rfl⟩, hP _ _ _ hp⟩

theorem sysGetschedstats_eq {i : Slot} {bufAddr : Nat} {maxproc : Int}
    (h : sysGetschedstats k i bufAddr maxproc = some stats) :
    stats = kernGetschedstats maxproc.toNat k := by
  unfold sysGetschedstats at h
  split_ifs at h
  exact (Option.some.inj h).symm

/-- The signal counts quanta that ran out. -/
theorem abuse_iff_expired (h : m.YieldInv g) {i : Slot} {bufAddr : Nat} {maxproc : Int}
    (hstats : sysGetschedstats m.toKernel i bufAddr maxproc = some stats)
    (hsmall : ∀ j, g.expired j < 2147483648) :
    detectSjfAbuse stats = 1 ↔ ∃ j ∈ listed maxproc.toNat m.proc,
      (m.proc j).burstVariance < 5 ∧ 20 < g.expired j := by
  rw [sysGetschedstats_eq hstats, detectSjfAbuse_eq_one, exists_mem_snapshot (fun _ _ _ hp => hp)]
  refine exists_congr fun j => and_congr_right fun hj => and_congr_right fun _ => ?_
  have hcount := h.count j (mem_listed hj)
  have hlt := hsmall j
  rw [i32_eq_self (by omega) (by omega)] at hcount
  show 20 < (m.proc j).yieldCount ↔ _
  rw [hcount]
  omega

/-- What the signal is to mean in a snapshot: some process in it has a low variance, and has slept
early more than 20 times. -/
def AbuseMeant (m : Machine ncpu) (g : Departures) (n : Nat) (stats : List Schedstat) : Prop :=
  detectSjfAbuse stats = 1 ↔
    ∃ j ∈ listed n m.proc, (m.proc j).burstVariance < 5 ∧ 20 < g.early j

/-- **The signal means what it says until a process leaves the CPU for the 21st time** in one of the
two ways; and when one does, every snapshot that shows it with a low variance is wrong. -/
theorem abuse_signal_until {es : List (Event ncpu)}
    (h : Transition.run Observed.step .boot es = some (m, g))
    (hseldom : Transition.Allowed Observed.step Observed.Seldom .boot es) :
    (∀ i bufAddr maxproc stats, sysGetschedstats m.toKernel i bufAddr maxproc = some stats →
      AbuseMeant m g maxproc.toNat stats) ∧
    ∀ e m' g' j, Observed.step (m, g) e = some (m', g') → ¬ Observed.Seldom (m, g) e →
      (m.expiring e = some j ∨ m.napping e = some j) →
      ∀ i bufAddr maxproc stats, sysGetschedstats m'.toKernel i bufAddr maxproc = some stats →
        j ∈ listed maxproc.toNat m'.proc → (m'.proc j).burstVariance < 5 →
        ¬ AbuseMeant m' g' maxproc.toNat stats := by
  have hinv : m.YieldInv g := run_yieldInv h
  have hfew : g.Few := Observed.run_few h hseldom
  refine ⟨fun i bufAddr maxproc stats hstats => ?_, ?_⟩
  · refine (abuse_iff_expired hinv hstats fun j => by have := hfew j; omega).trans ?_
    refine iff_of_false ?_ ?_
    · rintro ⟨j, -, -, hj⟩
      exact absurd (hfew j).1 (Nat.not_le.mpr hj)
    · rintro ⟨j, -, -, hj⟩
      exact absurd (hfew j).2 (Nat.not_le.mpr hj)
  · intro e m' g' j hstep hoften hj i bufAddr maxproc stats hstats hlisted hvar hmeant
    have hinv' : m'.YieldInv g' := (YieldInv.step (s := (m, g)) hinv hstep :)
    obtain ⟨m₁, -, heq⟩ := Option.map_eq_some_iff.mp hstep
    obtain ⟨-, rfl⟩ := Prod.mk.inj heq
    dsimp only at hinv' hmeant
    have hmany : ∃ k, (m.expiring e = some k ∧ 20 ≤ g.expired k) ∨
        m.napping e = some k ∧ 20 ≤ g.early k := by
      by_contra hno
      push Not at hno
      exact hoften ⟨fun k hk => (hno k).1 hk, fun k hk => (hno k).2 hk⟩
    obtain ⟨k, ⟨hk, hcount⟩ | ⟨hk, hcount⟩⟩ := hmany
    · -- a quantum runs out: the signal is there, and nobody has slept so often
      obtain ⟨hborn, hnap⟩ := expiring_alone hk
      rw [Departures.update, hborn, hnap, hk] at hinv' hmeant
      obtain rfl : k = j := Option.some.inj (hk.symm.trans (hj.resolve_right (by simp [hnap])))
      have hsmall : ∀ l, recount g.expired none (some k) l < 2147483648 := by
        intro l
        have hle := recount_le_succ g.expired none (some k) l
        have := hfew l
        omega
      have hsignal := (abuse_iff_expired hinv' hstats hsmall).mpr
        ⟨k, hlisted, hvar, by dsimp only; rw [recount_self]; omega⟩
      obtain ⟨l, -, -, hl⟩ := hmeant.mp hsignal
      have hle : recount g.early none none l ≤ g.early l := recount_le (Option.some_ne_none l).symm
      exact absurd (hle.trans (hfew l).2) (Nat.not_le.mpr hl)
    · -- a process sleeps early: it has slept often enough, and the signal is not there
      obtain ⟨hborn, hexp⟩ := napping_alone hk
      rw [Departures.update, hborn, hexp, hk] at hinv' hmeant
      obtain rfl : k = j := Option.some.inj (hk.symm.trans (hj.resolve_left (by simp [hexp])))
      have hle : ∀ l, recount g.expired none none l ≤ 20 := fun l =>
        (recount_le (Option.some_ne_none l).symm).trans (hfew l).1
      have hsignal := hmeant.mpr ⟨k, hlisted, hvar, by dsimp only; rw [recount_self]; omega⟩
      rw [abuse_iff_expired hinv' hstats fun l => Nat.lt_of_le_of_lt (hle l) (by decide)] at hsignal
      obtain ⟨l, -, -, hl⟩ := hsignal
      exact absurd (hle l) (Nat.not_le.mpr hl)

/-- A process of two pages can take a snapshot of the whole table. -/
theorem sysGetschedstats_of_size (h : (k.proc 0).sz = 2 * PGSIZE) :
    sysGetschedstats k 0 4096 64 = some (kernGetschedstats 64 k) := by
  unfold sysGetschedstats
  rw [if_neg (by decide), if_neg]
  · rfl
  · rw [h]
    decide

/-! ## A process that only ever sleeps -/

/-- Init runs, sleeps before its quantum is used up, and is woken. -/
def nap : List (Event 1) := [.pass 0, .sleep 0 0 .ticks, .wakeup .ticks]

/-- Over and over. -/
def naps (n : ℕ) : List (Event 1) := (List.replicate n nap).flatten

/-- After five naps the signal is right: it is silent, and nobody has slept more than 20 times. -/
theorem five_naps_signal : ∃ (m : Machine 1) (g : Departures) (stats : List Schedstat),
    Transition.run Observed.step .boot (naps 5) = some (m, g) ∧
    sysGetschedstats m.toKernel 0 4096 64 = some stats ∧ AbuseMeant m g 64 stats := by
  have hsession : ∃ s ∈ Transition.run Observed.step .boot (naps 5),
      (s.1.proc 0).sz = 2 * PGSIZE := by decide +kernel
  have hseldom : Transition.Allowed Observed.step Observed.Seldom (.boot : Observed 1) (naps 5) := by
    decide +kernel
  obtain ⟨⟨m, g⟩, hrun, hsize⟩ := hsession
  have hstats := sysGetschedstats_of_size hsize
  exact ⟨m, g, _, hrun, hstats, (abuse_signal_until hrun hseldom).1 0 4096 64 _ hstats⟩

/-- Init sleeps 21 times, each time well before its quantum is used up. Then it runs, takes a
snapshot, and finds no abuse in it. -/
theorem sleeper_undetected : ∃ (m : Machine 1) (g : Departures) (stats : List Schedstat),
    Transition.run Observed.step .boot (naps 21 ++ [.pass 0]) = some (m, g) ∧
    m.Enabled (.getschedstats 0 0 4096 64) ∧
    sysGetschedstats m.toKernel 0 4096 64 = some stats ∧ ¬ AbuseMeant m g 64 stats := by
  have hsession : ∃ s ∈ Transition.run Observed.step .boot (naps 21 ++ [.pass 0]),
      s.1.Enabled (.getschedstats 0 0 4096 64) ∧
      (∃ stats ∈ sysGetschedstats s.1.toKernel 0 4096 64, detectSjfAbuse stats ≠ 1) ∧
      ∃ j ∈ listed 64 s.1.proc, (s.1.proc j).burstVariance < 5 ∧ 20 < s.2.early j := by
    decide +kernel
  obtain ⟨⟨m, g⟩, hrun, henabled, ⟨stats, hstats, hsilent⟩, hslept⟩ := hsession
  exact ⟨m, g, stats, hrun, henabled, hstats, fun hmeant => hsilent (hmeant.mpr hslept)⟩

end Xv6.Agent
