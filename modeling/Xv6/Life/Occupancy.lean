import Xv6.Life.Machine

/-!
# Who runs where

`Occ` is the invariant of the machine: who owns `ptable.lock`, which CPU is busy with which
process, and what the process looks like there. The last part is the table `Fits`: what `state`,
the thread's stage and the saved context can be, for a process no CPU is busy with and for a
process at each place a CPU can be at. A step moves one CPU, and with it at most one process, from
one row of the table to another; wakeups move a SLEEPING process to RUNNABLE, and the table does
not tell the two apart. `Occ.act` is that argument, once; `Occ.effect` applies it to every step.

Main result: `running_on_one_cpu`.
-/

namespace Xv6.Life

open Sched
open Function (update update_eq_self update_self)

/-! ## What the steps do to `state` -/

/-- A wakeup, perhaps. -/
def Stir (s s' : Procstate) : Prop := s' = s ∨ s = .sleeping ∧ s' = .runnable

theorem Stir.refl (s : Procstate) : Stir s s := .inl rfl

theorem choose_snd (k : Kernel) : (choose k).2 = picked k := by
  unfold choose picked
  split <;> next h => rw [h]

/-- A pass stores no state before it stores `proc`. -/
theorem choose_state (k : Kernel) (j : Slot) :
    ((choose k).1.proc j).state = (k.proc j).state := by
  have hst := scheduler_state k j
  unfold picked at hst
  unfold choose
  split
  · next k' b h =>
      rw [h] at hst
      rw [Kernel.setProc_proc]
      split
      · next hj => rw [hj]
      · next hj =>
          rw [hst, if_neg]
          simpa using Ne.symm hj
  · next k' h =>
      rw [h] at hst
      simpa using hst

theorem Section.body_stirred (s : Section) (k : Kernel) (j : Slot) :
    (k.proc j).Stirred ((s.body k).proc j) := by
  cases s with
  | wakeup chan => exact wakeup1_stirred chan k j
  | kill pid signum => exact kill_stirred pid signum k j
  | checkAlarms => exact checkAlarm_stirred _

theorem releaseAgentSlot_proc (i : Slot) (k : Kernel) : (releaseAgentSlot i k).proc = k.proc := by
  unfold releaseAgentSlot
  split <;> rfl

theorem Call.body_stirred {i j : Slot} (call : Call) (k : Kernel) (h : j ≠ i) :
    (k.proc j).Stirred ((call.body i k).proc j) := by
  cases call with
  | yield | sleep | wait => simpa [Call.body, Kernel.setProc_proc, h] using .refl _
  | fork => exact .refl _
  | exit =>
    obtain ⟨p, hp, hz⟩ := Machine.zombify_proc i (releaseAgentSlot i k) j
    rw [releaseAgentSlot_proc] at hp
    rw [Call.body, hz, if_neg h]
    exact hp

/-- The states in which `call` may leave the CPU. -/
def Call.Leaves : Call → Procstate → Prop
  | .exit, s => s = .zombie
  | _, s => s = .runnable ∨ s = .sleeping

theorem Call.body_leaves (i : Slot) (call : Call) (k : Kernel) (h : call ≠ .fork) :
    call.Leaves ((call.body i k).proc i).state := by
  cases call with
  | yield => left; simp [Call.body, Proc.yielded]
  | sleep | wait => right; simp [Call.body]
  | fork => exact absurd rfl h
  | exit =>
    obtain ⟨p, -, hz⟩ := Machine.zombify_proc i (releaseAgentSlot i k) i
    rw [Call.Leaves, Call.body, hz, if_pos rfl]

theorem Point.child_of {q : Point} {np : Slot} (h : q = .prepared np ∨ q = .copied np) :
    q.child = some np := by
  rcases h with rfl | rfl <;> rfl

/-! ## The table -/

/-- What a process looks like: `none`, when no CPU is busy with it; `some l`, when a CPU at `l`
is. -/
def Fits : Option Loc → Stage → Procstate → Bool → Prop
  | none, st, .unused, _ => st = .dead
  | none, st, .embryo, sv => st = .dead ∨ st = .forkret ∧ sv = true
  | none, st, .runnable, sv => st.Resumes ∧ sv = true
  | none, st, .sleeping, sv => st.Resumes ∧ sv = true
  | none, st, .zombie, _ => st = .back .exit
  | none, _, .running, _ => False
  | some (.chosen _), st, s, sv => s = .runnable ∧ st.Resumes ∧ sv = true
  | some (.armed _), st, s, sv => s = .runnable ∧ st.Resumes ∧ sv = true
  | some (.ready _), st, s, sv => s = .running ∧ st.Resumes ∧ sv = true
  | some (.thread _), .dead, _, _ => False
  | some (.thread _), .set call, s, _ => call.Leaves s
  | some (.thread _), _, s, _ => s = .running
  | some (.back _), .back call, s, sv => call.Leaves s ∧ sv = true
  | some _, _, _, _ => False

variable {st : Stage} {s : Procstate} {sv : Bool}

/-- The table does not tell RUNNABLE from SLEEPING where a wakeup can reach. -/
theorem Fits.stir {l : Option Loc} {s' : Procstate} (h : Fits l st s sv) (hs : Stir s s') :
    Fits l st s' sv := by
  rcases hs with rfl | ⟨rfl, rfl⟩
  · exact h
  · cases l with
    | none => exact h
    | some l => cases l <;> cases st <;> simp_all [Fits, Call.Leaves] <;> grind [Call.Leaves]

theorem Fits.made {l : Loc} (h : Fits (some l) st s sv) : s ≠ .unused ∧ s ≠ .embryo := by
  cases l <;> cases st <;> simp_all [Fits] <;> grind [Call.Leaves]

/-- `swtch` into a process that was parked. -/
theorem Fits.swtchIn {b : Slot} (h : Fits (some (.ready b)) st s sv) :
    Fits (some (.thread b)) st s false ∧ st ≠ .out := by
  obtain ⟨hs, hst, -⟩ := h
  cases st <;> simp_all [Fits, Stage.Resumes]

/-- The scheduler thread lets go of a process that left the CPU. -/
theorem Fits.passClear {b : Slot} (h : Fits (some (.back b)) st s sv) : Fits none st s sv := by
  cases st with
  | back call => cases call <;> cases s <;> simp_all [Fits, Call.Leaves, Stage.Resumes]
  | _ => simp_all [Fits]

namespace Sys

variable {ncpu : Nat} {m m' : Sys ncpu} {e : Event ncpu}

/-! ## The invariant -/

/-- The row of process `i`, seen from `l`. -/
def Row (m : Sys ncpu) (l : Option Loc) (i : Slot) : Prop :=
  Fits l (m.stage i) (m.proc i).state (m.saved i)

/-- CPU `c` holds `ptable.lock`. -/
def Holds (m : Sys ncpu) (c : Fin ncpu) : Prop := m.inside c ≠ none ∨ ¬ m.Free c

structure Occ (m : Sys ncpu) : Prop where
  lock_iff : ∀ c, m.lock = some c ↔ m.Holds c
  inside_free : ∀ c, m.inside c ≠ none → m.Free c
  current_eq : ∀ c, m.current c = (m.loc c).proc
  mine_inj : ∀ c c' i, (m.loc c).mine = some i → (m.loc c').mine = some i → c = c'
  row_mine : ∀ c i, (m.loc c).mine = some i → m.Row (some (m.loc c)) i
  row_off : ∀ i, (∀ c, (m.loc c).mine ≠ some i) → m.Row none i
  child_embryo : ∀ i np, (m.point i).child = some np → (m.proc np).state = .embryo
  child_inj : ∀ i j np, (m.point i).child = some np → (m.point j).child = some np → i = j
  child_forkret : ∀ i np, m.point i = .prepared np ∨ m.point i = .copied np →
    m.stage np = .forkret

variable {c c' : Fin ncpu} {o : Option Slot} {i b j np : Slot} {st : Stage}

theorem free_iff : m.Free c ↔ m.loc c = .loop ∨ ∃ i, m.loc c = .thread i ∧ m.stage i = .out := by
  unfold Free
  split <;> simp_all

/-- What is at stake at CPU `c` when it makes a step: it was busy with `o`. -/
structure Acts (m m' : Sys ncpu) (c : Fin ncpu) (o : Option Slot) : Prop where
  cpu : ∀ c', c' ≠ c →
    m'.loc c' = m.loc c' ∧ m'.inside c' = m.inside c' ∧ m'.current c' = m.current c'
  slot : ∀ j, o ≠ some j → m'.stage j = m.stage j ∧ m'.saved j = m.saved j ∧
    Stir (m.proc j).state (m'.proc j).state
  point : ∀ j, m'.point j = m.point j ∨ (m'.point j).child = none
  mine : (m.loc c).mine = o
  owner : m.lock = some c ∨ m.lock = none
  holds : m'.lock = some c ∧ m'.Holds c ∨ m'.lock = none ∧ ¬ m'.Holds c
  inside : m'.inside c ≠ none → m'.Free c
  current : m'.current c = (m'.loc c).proc
  gets : ∀ j, (m'.loc c).mine = some j →
    (o = some j ∨ ∀ c', (m.loc c').mine ≠ some j) ∧ m'.Row (some (m'.loc c)) j
  drops : ∀ j, o = some j → (m'.loc c).mine ≠ some j → m'.Row none j

theorem Acts.free (h : m.Occ) (ha : m.Acts m' c o) (hc : c' ≠ c) : m'.Free c' ↔ m.Free c' := by
  rw [free_iff, free_iff, (ha.cpu c' hc).1]
  have hstage : ∀ i, m.loc c' = .thread i → m'.stage i = m.stage i := by
    intro i hi
    refine (ha.slot i fun ho => hc ?_).1
    exact h.mine_inj c' c i (by rw [hi]; rfl) (ha.mine.trans ho)
  constructor
  · rintro (hl | ⟨i, hi, hst⟩)
    · exact .inl hl
    · exact .inr ⟨i, hi, hstage i hi ▸ hst⟩
  · rintro (hl | ⟨i, hi, hst⟩)
    · exact .inl hl
    · exact .inr ⟨i, hi, (hstage i hi).symm ▸ hst⟩

/-- Only the CPU that acts can hold the lock afterwards. -/
theorem Acts.lock_iff (h : m.Occ) (ha : m.Acts m' c o) (c' : Fin ncpu) :
    m'.lock = some c' ↔ m'.Holds c' := by
  by_cases hc : c' = c
  · subst hc
    rcases ha.holds with ⟨hl, hh⟩ | ⟨hl, hh⟩ <;> simp [hl, hh]
  · have hold : ¬ m.Holds c' := by
      rw [← h.lock_iff]
      rcases ha.owner with hl | hl <;> simp [hl, Ne.symm hc]
    have hnew : m'.lock ≠ some c' := by
      rcases ha.holds with ⟨hl, -⟩ | ⟨hl, -⟩ <;> simp [hl, Ne.symm hc]
    rw [Holds, (ha.cpu c' hc).2.1, ha.free h hc]
    exact ⟨fun hl => absurd hl hnew, fun hh => absurd hh hold⟩

/-- **A step that moves one CPU and the process it is busy with keeps the invariant**, if that
process ends up in a row of the table. -/
theorem Occ.act (h : m.Occ) (ha : m.Acts m' c o) : m'.Occ := by
  have hstir : ∀ j l, o ≠ some j → m.Row l j → m'.Row l j := by
    intro j l hj hrow
    obtain ⟨hst, hsv, hs⟩ := ha.slot j hj
    rw [Row, hst, hsv]
    exact hrow.stir hs
  have hmade : ∀ j, o = some j → (m.proc j).state ≠ .embryo := by
    intro j hj
    exact (h.row_mine c j (ha.mine.trans hj)).made.2
  -- the child of a `fork` is not the process that acts
  have hchild : ∀ i np, (m'.point i).child = some np →
      (m.point i).child = some np ∧ o ≠ some np := by
    intro i np hnp
    have hold : (m.point i).child = some np := by
      rcases ha.point i with hp | hp
      · rwa [hp] at hnp
      · rw [hp] at hnp; cases hnp
    exact ⟨hold, fun ho => hmade np ho (h.child_embryo i np hold)⟩
  refine
    { lock_iff := ha.lock_iff h
      inside_free := ?_, current_eq := ?_, mine_inj := ?_, row_mine := ?_, row_off := ?_
      child_embryo := ?_, child_inj := ?_, child_forkret := ?_ }
  · intro c' hin
    by_cases hc : c' = c
    · subst hc; exact ha.inside hin
    · rw [ha.free h hc]
      exact h.inside_free c' ((ha.cpu c' hc).2.1 ▸ hin)
  · intro c'
    by_cases hc : c' = c
    · subst hc; exact ha.current
    · obtain ⟨hl, -, hcur⟩ := ha.cpu c' hc
      rw [hl, hcur, h.current_eq]
  · -- a process the acting CPU takes up was nobody's
    have hother : ∀ c' i, c' ≠ c → (m'.loc c).mine = some i → (m'.loc c').mine ≠ some i := by
      intro c' i hc hi hi'
      rw [(ha.cpu c' hc).1] at hi'
      rcases (ha.gets i hi).1 with ho | hno
      · exact hc (h.mine_inj c' c i hi' (ha.mine.trans ho))
      · exact hno c' hi'
    intro c₁ c₂ i h₁ h₂
    by_cases hc₁ : c₁ = c
    · by_cases hc₂ : c₂ = c
      · rw [hc₁, hc₂]
      · exact absurd h₂ (hother c₂ i hc₂ (hc₁ ▸ h₁))
    · by_cases hc₂ : c₂ = c
      · exact absurd h₁ (hother c₁ i hc₁ (hc₂ ▸ h₂))
      · rw [(ha.cpu c₁ hc₁).1] at h₁
        rw [(ha.cpu c₂ hc₂).1] at h₂
        exact h.mine_inj c₁ c₂ i h₁ h₂
  · intro c' i hi
    by_cases hc : c' = c
    · subst hc; exact (ha.gets i hi).2
    · rw [(ha.cpu c' hc).1] at hi ⊢
      refine hstir i _ (fun ho => hc ?_) (h.row_mine c' i hi)
      exact h.mine_inj c' c i hi (ha.mine.trans ho)
  · intro i hoff
    by_cases ho : o = some i
    · exact ha.drops i ho (hoff c)
    · refine hstir i none ho (h.row_off i fun c' hi => ?_)
      by_cases hc : c' = c
      · exact ho (ha.mine.symm.trans (hc ▸ hi))
      · exact hoff c' ((ha.cpu c' hc).1 ▸ hi)
  · intro i np hnp
    obtain ⟨hold, ho⟩ := hchild i np hnp
    have hemb := h.child_embryo i np hold
    rcases (ha.slot np ho).2.2 with hs | ⟨hs, -⟩
    · rw [hs, hemb]
    · rw [hemb] at hs; cases hs
  · intro i j np hi hj
    exact h.child_inj i j np (hchild i np hi).1 (hchild j np hj).1
  · intro i np hnp
    have hsome := Point.child_of hnp
    rcases ha.point i with hp | hp
    · rw [(ha.slot np (hchild i np hsome).2).1]
      exact h.child_forkret i np (hp ▸ hnp)
    · rw [hp] at hsome; cases hsome

/-- A slot no CPU is busy with is rewritten, by process `i`: the child of a `fork`, or a child that
is reaped. -/
structure Rewrites (m m' : Sys ncpu) (i np : Slot) : Prop where
  loc : m'.loc = m.loc
  inside : m'.inside = m.inside
  current : m'.current = m.current
  lock : m'.lock = m.lock
  off : ∀ c, (m.loc c).mine ≠ some np
  slot : ∀ j, j ≠ np → m'.stage j = m.stage j ∧ m'.saved j = m.saved j ∧
    (m'.proc j).state = (m.proc j).state
  row : m'.Row none np
  point : ∀ j, m'.point j = m.point j ∧ (m.point j).child ≠ some np ∨
    j = i ∧ ∀ np', (m'.point j).child = some np' → np' = np ∧ (m'.proc np).state = .embryo ∧
      (m'.point j = .prepared np ∨ m'.point j = .copied np → m'.stage np = .forkret)

/-- **Rewriting a slot that is nobody's keeps the invariant**, if the slot ends up in a row of the
table and only the process that rewrites it has it for a child. -/
theorem Occ.rewrite {n : Slot} (h : m.Occ) (hr : m.Rewrites m' i n) : m'.Occ := by
  have hne : ∀ c j, (m.loc c).mine = some j → j ≠ n := by
    rintro c j hj rfl
    exact hr.off c hj
  have hfree : ∀ c, m'.Free c ↔ m.Free c := by
    intro c
    have hstage : ∀ j, m.loc c = .thread j → m'.stage j = m.stage j := fun j hj =>
      (hr.slot j (hne c j (by rw [hj]; rfl))).1
    rw [free_iff, free_iff, hr.loc]
    grind
  have hrow : ∀ l j, j ≠ n → m.Row l j → m'.Row l j := by
    intro l j hj hrow
    obtain ⟨hst, hsv, hs⟩ := hr.slot j hj
    rwa [Row, hst, hsv, hs]
  refine
    { lock_iff := ?_, inside_free := ?_, current_eq := ?_, mine_inj := ?_, row_mine := ?_
      row_off := ?_, child_embryo := ?_, child_inj := ?_, child_forkret := ?_ }
  · intro c
    rw [Holds, hr.lock, hr.inside, hfree]
    exact h.lock_iff c
  · intro c
    rw [hr.inside, hfree]
    exact h.inside_free c
  · rw [hr.current, hr.loc]
    exact h.current_eq
  · rw [hr.loc]
    exact h.mine_inj
  · intro c j hj
    rw [hr.loc] at hj ⊢
    exact hrow _ j (hne c j hj) (h.row_mine c j hj)
  · intro j hoff
    by_cases hj : j = n
    · exact hj ▸ hr.row
    · exact hrow none j hj (h.row_off j (hr.loc ▸ hoff))
  · intro j np' hnp
    rcases hr.point j with ⟨hp, hnot⟩ | ⟨-, hchild⟩
    · rw [hp] at hnp
      rw [(hr.slot np' (by rintro rfl; exact hnot hnp)).2.2]
      exact h.child_embryo j np' hnp
    · obtain ⟨rfl, hemb, -⟩ := hchild np' hnp
      exact hemb
  · intro j₁ j₂ np' h₁ h₂
    rcases hr.point j₁ with ⟨hp₁, hnot₁⟩ | ⟨rfl, hchild₁⟩ <;>
      rcases hr.point j₂ with ⟨hp₂, hnot₂⟩ | ⟨rfl, hchild₂⟩
    · exact h.child_inj j₁ j₂ np' (hp₁ ▸ h₁) (hp₂ ▸ h₂)
    · obtain ⟨rfl, -⟩ := hchild₂ np' h₂
      exact absurd (hp₁ ▸ h₁) hnot₁
    · obtain ⟨rfl, -⟩ := hchild₁ np' h₁
      exact absurd (hp₂ ▸ h₂) hnot₂
    · rfl
  · intro j np' hnp
    have hsome := Point.child_of hnp
    rcases hr.point j with ⟨hp, hnot⟩ | ⟨-, hchild⟩
    · rw [hp] at hnp hsome
      rw [(hr.slot np' (by rintro rfl; exact hnot hsome)).1]
      exact h.child_forkret j np' hnp
    · obtain ⟨rfl, -, hfk⟩ := hchild np' hsome
      exact hfk hnp

/-! ## The step -/

/-- A CPU at this place, with its thread at this stage, does not hold `ptable.lock`. -/
def Unlocked : Loc → Stage → Prop
  | .loop, _ => True
  | .thread _, st => st = .out
  | _, _ => False

/-- The acting CPU `c`, busy with process `i`, goes to `l`; the process's thread goes to `st`. -/
theorem Occ.move (h : m.Occ) (hmine : (m.loc c).mine = some i) (k : Kernel) (l : Loc) (st : Stage)
    (sv : Bool) (q : Point) (lk : Option (Fin ncpu)) {cur : Fin ncpu → Option Slot}
    (hcur : cur = update m.current c l.proc) (hin : m.inside c = none)
    (howner : m.lock = some c ∨ m.lock = none)
    (hlk : lk = some c ∧ ¬ Unlocked l st ∨ lk = none ∧ Unlocked l st)
    (hstir : ∀ j, j ≠ i → Stir (m.proc j).state (k.proc j).state)
    (hq : q = m.point i ∨ q.child = none)
    (hrow : l.mine = some i ∧ Fits (some l) st (k.proc i).state sv ∨
      l.mine = none ∧ Fits none st (k.proc i).state sv) :
    Occ { m with
      toKernel := k
      loc := update m.loc c l
      current := cur
      stage := update m.stage i st
      saved := update m.saved i sv
      point := update m.point i q
      lock := lk } := by
  subst hcur
  refine h.act (c := c) (o := some i) ⟨?_, ?_, ?_, hmine, howner, ?_, ?_, ?_, ?_, ?_⟩
  · intro c' hc
    simp [hc]
  · intro j hj
    have hj : j ≠ i := fun hji => hj (by rw [hji])
    simp [hj, hstir j hj]
  · intro j
    by_cases hj : j = i
    · subst hj; simpa using hq
    · simp [hj]
  · have hfree : ∀ n : Sys ncpu, n.loc c = l → n.stage i = st → (n.Free c ↔ Unlocked l st) := by
      rintro n rfl rfl
      rcases hrow with ⟨hm, -⟩ | ⟨hm, -⟩ <;> rw [free_iff] <;>
        cases hn : n.loc c <;> simp_all [Unlocked, Loc.mine]
    simpa [Holds, hin, hfree] using hlk
  · simp [hin]
  · simp
  · intro j hj
    simp only [update_self] at hj ⊢
    rcases hrow with ⟨hm, hr⟩ | ⟨hm, -⟩
    · obtain rfl : i = j := by simpa using hm.symm.trans hj
      exact ⟨.inl rfl, by simpa [Row] using hr⟩
    · rw [hm] at hj; cases hj
  · rintro j hj hne
    obtain rfl : i = j := by simpa using hj
    rcases hrow with ⟨hm, -⟩ | ⟨-, hr⟩
    · exact absurd (by simpa using hm) hne
    · simpa [Row] using hr

theorem At.mine (h : m.At c i st) : (m.loc c).mine = some i := by
  rw [h.1]; rfl

section

variable (h : m.Occ)

include h

theorem Occ.row_at (ha : m.At c i st) :
    Fits (some (.thread i)) st (m.proc i).state (m.saved i) := by
  have := h.row_mine c i ha.mine
  rwa [Row, ha.1, ha.2.2] at this

/-- A CPU that is not free owns `ptable.lock`, and no handler runs on it. -/
theorem Occ.locked (hf : ¬ m.Free c) : m.lock = some c ∧ m.inside c = none := by
  refine ⟨(h.lock_iff c).mpr (.inr hf), ?_⟩
  by_contra hin
  exact hf (h.inside_free c hin)

theorem Occ.locked_at (ha : m.At c i st) (hst : st ≠ .out) : m.lock = some c := by
  refine (h.locked ?_).1
  simp [free_iff, ha.1, ha.2.2, hst]

theorem Occ.current_same {l : Loc} (hl : l.proc = (m.loc c).proc) :
    m.current = update m.current c l.proc := by
  rw [hl, ← h.current_eq, update_eq_self]

/-- The steps of the scheduler thread between choosing a process and letting go of it. -/
theorem Occ.effect_pass :
    (m.loc c = .chosen b → (m.effect (.passProc c b)).Occ) ∧
    (m.loc c = .armed b → (m.effect (.passRun c b)).Occ) ∧
    (m.loc c = .ready b → (m.effect (.swtchIn c b)).Occ) ∧
    (m.loc c = .back b → (m.effect (.passClear c b)).Occ) := by
  refine ⟨fun hloc => ?_, fun hloc => ?_, fun hloc => ?_, fun hloc => ?_⟩
  all_goals
    obtain ⟨hlock, hin⟩ := h.locked (c := c) (by simp [free_iff, hloc])
    have hmine : (m.loc c).mine = some b := by rw [hloc]; rfl
    have hrow := h.row_mine c b hmine
    rw [Row, hloc] at hrow
  · have := h.move hmine m.toKernel (.armed b) (m.stage b) (m.saved b) (m.point b) (some c) rfl hin
      (.inl hlock) (.inl ⟨rfl, id⟩) (fun _ _ => .refl _) (.inl rfl) (.inl ⟨rfl, hrow⟩)
    simpa [effect, Loc.proc, ← hlock] using this
  · have := h.move hmine (m.toKernel.setProc b { m.proc b with state := .running }) (.ready b)
      (m.stage b) (m.saved b) (m.point b) (some c) (h.current_same (by rw [hloc]; rfl)) hin
      (.inl hlock) (.inl ⟨rfl, id⟩) (fun j hj => by simp [Kernel.setProc_ne _ _ hj, Stir.refl])
      (.inl rfl) (.inl ⟨rfl, by simpa [Fits] using hrow.2⟩)
    simpa [effect, ← hlock] using this
  · have := h.move hmine m.toKernel (.thread b) (m.stage b) false (m.point b) (some c)
      (h.current_same (by rw [hloc]; rfl)) hin (.inl hlock) (.inl ⟨rfl, hrow.swtchIn.2⟩)
      (fun _ _ => .refl _) (.inl rfl) (.inl ⟨rfl, hrow.swtchIn.1⟩)
    simpa [effect, ← hlock] using this
  · have := h.move hmine m.toKernel .cleared (m.stage b) (m.saved b) (m.point b) (some c) rfl hin
      (.inl hlock) (.inl ⟨rfl, id⟩) (fun _ _ => .refl _) (.inl rfl) (.inr ⟨rfl, hrow.passClear⟩)
    simpa [effect, Loc.proc, ← hlock] using this

theorem Occ.thread {st₀ : Stage} (ha : m.At c i st₀) (k : Kernel) (st : Stage)
    (q : Point) (lk : Option (Fin ncpu)) (howner : m.lock = some c ∨ m.lock = none)
    (hlk : lk = some c ∧ st ≠ .out ∨ lk = none ∧ st = .out)
    (hstir : ∀ j, j ≠ i → Stir (m.proc j).state (k.proc j).state)
    (hq : q = m.point i ∨ q.child = none)
    (hrow : Fits (some (.thread i)) st (k.proc i).state (m.saved i)) :
    Occ { m with
      toKernel := k
      stage := update m.stage i st
      point := update m.point i q
      lock := lk } := by
  have := h.move ha.mine k (.thread i) st (m.saved i) q lk (h.current_same (by rw [ha.1]))
    ha.2.1 howner hlk hstir hq (.inl ⟨rfl, hrow⟩)
  rwa [← ha.1, update_eq_self, update_eq_self] at this

/-- The steps of a process thread that give up the CPU, or come back to it. -/
theorem Occ.effect_call {call : Call} :
    (m.Enabled (.acquire c i call) → (m.effect (.acquire c i call)).Occ) ∧
    (m.Enabled (.store c i call) → (m.effect (.store c i call)).Occ) ∧
    (m.Enabled (.swtchOut c i call) → (m.effect (.swtchOut c i call)).Occ) := by
  refine ⟨?_, ?_, ?_⟩
  · rintro ⟨ha, -, hlock⟩
    have hrun : (m.proc i).state = .running := h.row_at ha
    have := h.thread ha m.toKernel (.held call) (m.point i) (some c) (.inr hlock)
      (.inl ⟨rfl, by simp⟩) (fun _ _ => .refl _) (.inl rfl) hrun
    simpa [effect] using this
  · rintro ⟨ha, hstores⟩
    have hlock := h.locked_at ha (by simp)
    have hfork : call ≠ .fork := by rintro rfl; exact hstores
    have := h.thread ha (call.body i m.toKernel) (.set call) (m.point i) (some c) (.inl hlock)
      (.inl ⟨rfl, by simp⟩) (fun j hj => (call.body_stirred m.toKernel hj).state) (.inl rfl)
      (call.body_leaves i m.toKernel hfork)
    simpa [effect, ← hlock] using this
  · intro ha
    have hlock := h.locked_at ha (by simp)
    have := h.move ha.mine m.toKernel (.back i) (.back call) true (m.point i) (some c)
      (h.current_same (by rw [ha.1]; rfl)) ha.2.1 (.inl hlock) (.inl ⟨rfl, id⟩)
      (fun _ _ => .refl _) (.inl rfl) (.inl ⟨rfl, h.row_at ha, rfl⟩)
    simpa [effect, ← hlock] using this

/-- A thread that comes back from `swtch` belongs to a RUNNING process, under the lock. -/
theorem Occ.resume_running (he : m.Enabled (.resume c i)) :
    (m.proc i).state = .running ∧ m.stage i ≠ .out := by
  obtain ⟨hloc, hin, hres⟩ := he
  have hrow := h.row_at ⟨hloc, hin, rfl⟩
  revert hres hrow
  cases m.stage i <;> simp [Fits, Stage.Resumes]

theorem Occ.effect_resume (he : m.Enabled (.resume c i)) :
    (m.effect (.resume c i)).Occ := by
  have hrun := h.resume_running he
  have ha : m.At c i (m.stage i) := ⟨he.1, he.2.1, rfl⟩
  have hlock := h.locked_at ha hrun.2
  -- the thread drops the lock, or, in `wait`, goes on with its scan under it
  have hout : ∀ k : Kernel, (∀ j, (k.proc j).state = (m.proc j).state) →
      Occ { m with toKernel := k, stage := update m.stage i .out, lock := none } := by
    intro k hk
    have := h.thread ha k .out (m.point i) none (.inl hlock) (.inr ⟨rfl, rfl⟩)
      (fun j _ => .inl (hk j)) (.inl rfl) ((hk i).trans hrun.1)
    simpa using this
  have hstate : ∀ j, ((m.toKernel.setProc i { m.proc i with chan := .null }).proc j).state =
      (m.proc j).state := by
    intro j
    rw [Kernel.setProc_proc]
    split
    · next hj => rw [hj]
    · rfl
  simp only [effect]
  split
  · exact hout _ hstate
  · have := h.thread ha (m.toKernel.setProc i { m.proc i with chan := .null }) (.held .wait)
      (m.point i) (some c) (.inl hlock) (.inl ⟨rfl, by simp⟩) (fun j _ => .inl (hstate j))
      (.inl rfl) ((hstate i).trans hrun.1)
    simpa [← hlock] using this
  · exact hout m.toKernel fun _ => rfl

theorem Occ.release {k : Call} (ha : m.At c i (.held k)) : (m.release i).Occ := by
  have hrun : (m.proc i).state = .running := h.row_at ha
  have := h.thread ha m.toKernel .out (m.point i) none (.inl (h.locked_at ha (by simp)))
    (.inr ⟨rfl, rfl⟩) (fun _ _ => .refl _) (.inl rfl) hrun
  simpa using this

/-- With the lock held by `c`, what another CPU is busy with is RUNNING. -/
theorem Occ.others_running (hlock : m.lock = some c) (hc : c' ≠ c)
    (hj : (m.loc c').mine = some j) : (m.proc j).state = .running := by
  have hfree : m.Free c' := by
    by_contra hf
    exact hc (Option.some.inj ((h.locked hf).1.symm.trans hlock))
  have hrow := h.row_mine c' j hj
  rcases free_iff.mp hfree with hl | ⟨k, hk, hout⟩
  · rw [hl] at hj; cases hj
  · obtain rfl : k = j := by simpa [hk, Loc.mine] using hj
    rw [Row, hk, hout] at hrow
    exact hrow

/-- A process that is not RUNNING, found under `ptable.lock`, has left its CPU. -/
theorem Occ.off_of_not_running (hlock : m.lock = some c)
    (hmine : (m.loc c).mine ≠ some j) (hj : (m.proc j).state ≠ .running) :
    ∀ c', (m.loc c').mine ≠ some j := by
  intro c' hc'
  by_cases hc : c' = c
  · exact hmine (hc ▸ hc')
  · exact hj (h.others_running hlock hc hc')

theorem Occ.effect_waitReap (he : m.Enabled (.waitReap c i j)) :
    (m.effect (.waitReap c i j)).Occ := by
  obtain ⟨ha, hz⟩ := he
  have hzombie := Machine.zombieChild_zombie hz
  have hrun : (m.proc i).state = .running := h.row_at ha
  have hne : j ≠ i := by
    rintro rfl
    rw [hrun] at hzombie; cases hzombie
  have hchild : ∀ k, (m.point k).child ≠ some j := by
    intro k hk
    have := h.child_embryo k j hk
    rw [hzombie] at this; cases this
  refine Occ.release (c := c) (k := .wait) (h.rewrite (i := j) (n := j)
    ⟨rfl, rfl, rfl, rfl, h.off_of_not_running (h.locked_at ha (by simp))
      (by simp [ha.mine, Ne.symm hne]) (by simp [hzombie]), ?_, ?_, ?_⟩) ?_
  · intro k hk
    simp [hk, Kernel.setProc_ne]
  · simp [Row, Fits]
  · intro k
    by_cases hk : k = j
    · exact .inr ⟨hk, by simp [hk, Point.child]⟩
    · exact .inl ⟨by simp [hk], hchild k⟩
  · simpa [At, Ne.symm hne] using ha

/-- The child of a `fork` in progress is nobody's. -/
theorem Occ.child_off (hnp : (m.proc np).state = .embryo) :
    ∀ c, (m.loc c).mine ≠ some np := fun c hc => (h.row_mine c np hc).made.2 hnp

/-- The steps of `fork` after `allocproc`: the child is rewritten without `ptable.lock`. -/
theorem Occ.effect_fork (hp : (m.point i).child = some np) (k : Kernel) (st : Stage)
    (sv : Bool) (q : Point) (hk : ∀ j, j ≠ np → k.proc j = m.proc j)
    (hrow : Fits none st (k.proc np).state sv)
    (hq : q.child = none ∨ q.child = some np ∧ (k.proc np).state = .embryo ∧
      (q = .prepared np ∨ q = .copied np → st = .forkret)) :
    Occ { m with
      toKernel := k
      stage := update m.stage np st
      saved := update m.saved np sv
      point := update m.point i q } := by
  have hemb := h.child_embryo i np hp
  refine h.rewrite (i := i) (n := np)
    ⟨rfl, rfl, rfl, rfl, h.child_off hemb, ?_, by simpa [Row] using hrow, ?_⟩
  · intro j hj
    simp [hj, hk j hj]
  · intro j
    by_cases hj : j = i
    · subst hj
      refine .inr ⟨rfl, fun np' hnp => ?_⟩
      simp only [update_self] at hnp ⊢
      rcases hq with hq | ⟨hq, hst, hfk⟩
      · rw [hq] at hnp; cases hnp
      · exact ⟨Option.some.inj (hnp.symm.trans hq), hst, hfk⟩
    · refine .inl ⟨by simp [hj], fun hc => hj ?_⟩
      exact h.child_inj j i np hc hp

theorem Occ.effect_forkAlloc (he : m.Enabled (.forkAlloc c i)) :
    (m.effect (.forkAlloc c i)).Occ := by
  have ha : m.At c i (.held .fork) := he
  have hrun : (m.proc i).state = .running := h.row_at ha
  simp only [effect]
  split
  · next np hfree =>
      have hunused := freeSlot_unused hfree
      have hne : i ≠ np := by
        rintro rfl
        rw [hrun] at hunused; cases hunused
      have hoff : ∀ c, (m.loc c).mine ≠ some np := fun c hc =>
        (h.row_mine c np hc).made.1 hunused
      have hdead : m.stage np = .dead := by
        have := h.row_off np hoff
        rwa [Row, hunused] at this
      refine Occ.release (c := c) (k := .fork)
        (h.rewrite (i := i) (n := np) ⟨rfl, rfl, rfl, rfl, hoff, ?_, ?_, ?_⟩) ha
      · intro j hj
        simp [allocproc, Kernel.setProc_ne, hj]
      · simp [Row, Fits, allocproc, hdead]
      · intro j
        by_cases hj : j = i
        · refine .inr ⟨hj, fun np' hnp => ?_⟩
          subst hj
          simp [Point.child] at hnp
          simp [hnp, allocproc]
        · refine .inl ⟨by simp [hj], fun hc => ?_⟩
          have := h.child_embryo j np hc
          rw [hunused] at this; cases this
  · exact h.release ha

/-- Steps after which every CPU is where it was, and wakeups are all that happened to the
processes. -/
theorem Occ.handler (k : Kernel) (s : Option (Section × Bool))
    (lk : Option (Fin ncpu)) (hfree : m.Free c) (howner : m.lock = some c ∨ m.lock = none)
    (hlk : lk = some c ∧ s ≠ none ∨ lk = none ∧ s = none)
    (hstir : ∀ j, Stir (m.proc j).state (k.proc j).state) :
    Occ { m with toKernel := k, inside := update m.inside c s, lock := lk } := by
  have hfree' : ∀ n : Sys ncpu, n.loc = m.loc → n.stage = m.stage → n.Free c := by
    intro n hl hst
    rwa [Free, hl, hst]
  refine h.act (c := c) (o := (m.loc c).mine) ⟨?_, ?_, ?_, rfl, howner, ?_, ?_, ?_, ?_, ?_⟩
  · intro c' hc
    simp [hc]
  · exact fun j _ => ⟨rfl, rfl, hstir j⟩
  · exact fun j => .inl rfl
  · rcases hlk with ⟨hl, hs⟩ | ⟨hl, hs⟩
    · exact .inl ⟨hl, .inl (by simpa using hs)⟩
    · refine .inr ⟨hl, ?_⟩
      simp only [Holds, update_self, hs, ne_eq, not_true, false_or, not_not]
      exact hfree' _ rfl rfl
  · exact fun _ => hfree' _ rfl rfl
  · exact h.current_eq c
  · exact fun j hj => ⟨.inl hj, (h.row_mine c j hj).stir (hstir j)⟩
  · exact fun j hj hne => absurd hj hne

/-- A step that stores no state and moves no CPU; a process may move to a point where it has no
child in the making. -/
theorem Occ.frame (k : Kernel) (hk : ∀ j, (k.proc j).state = (m.proc j).state)
    (q : Slot → Point) (hq : ∀ j, q j = m.point j ∨ (q j).child = none) :
    Occ { m with toKernel := k, point := q } := by
  have hchild : ∀ i np, (q i).child = some np → q i = m.point i := by
    intro i np hi
    rcases hq i with hp | hp
    · exact hp
    · rw [hp] at hi; cases hi
  obtain ⟨h₁, h₂, h₃, h₄, h₅, h₆, h₇, h₈, h₉⟩ := h
  refine ⟨h₁, h₂, h₃, h₄, ?_, ?_, ?_, ?_, ?_⟩
  · intro c i hi
    simpa [Row, hk] using h₅ c i hi
  · intro i hi
    simpa [Row, hk] using h₆ i hi
  · intro i np hi
    simpa [hk] using h₇ i np (hchild i np hi ▸ hi)
  · intro i j np hi hj
    exact h₈ i j np (hchild i np hi ▸ hi) (hchild j np hj ▸ hj)
  · intro i np hi
    exact h₉ i np (hchild i np (Point.child_of hi) ▸ hi)

/-- `exit` starts, by a system call or by a fault, which marks the process killed first. -/
theorem Occ.exiting (p : Proc) (hp : p.state = (m.proc i).state) :
    Occ ((m.setProc i p).setPoint i .exiting) := by
  refine h.frame _ (fun j => ?_) _ fun j => ?_
  · simp only [setProc, onKernel, Kernel.setProc_proc]
    split
    · next hj => rw [hj, hp]
    · rfl
  · by_cases hj : j = i
    · subst hj; exact .inr (by simp [Point.child])
    · exact .inl (by simp [hj])

/-- A CPU that is busy with no process goes to `l`, perhaps with a process it found under the
lock. -/
theorem Occ.idle (hmine : (m.loc c).mine = none) (k : Kernel) (l : Loc)
    (lk : Option (Fin ncpu)) (hin : m.inside c = none) (howner : m.lock = some c ∨ m.lock = none)
    (hlk : lk = some c ∧ l ≠ .loop ∨ lk = none ∧ l = .loop) (hproc : l.proc = none)
    (hk : ∀ j, (k.proc j).state = (m.proc j).state)
    (hgets : ∀ b, l.mine = some b → (∀ c', (m.loc c').mine ≠ some b) ∧ m.Row (some l) b) :
    Occ { m with toKernel := k, loc := update m.loc c l, lock := lk } := by
  refine h.act (c := c) (o := none) ⟨?_, ?_, fun _ => .inl rfl, hmine, howner, ?_, ?_, ?_, ?_, ?_⟩
  · intro c' hc
    simp [hc]
  · exact fun j _ => ⟨rfl, rfl, .inl (hk j)⟩
  · have hthread : ∀ i, l ≠ .thread i := by
      rintro i rfl
      cases hproc
    simpa [Holds, hin, free_iff, hthread] using hlk
  · simp [hin]
  · have hcur : (m.loc c).proc = none := by
      revert hmine
      cases m.loc c <;> simp [Loc.mine, Loc.proc]
    simp [h.current_eq, hcur, hproc]
  · intro j hj
    simp only [update_self] at hj ⊢
    obtain ⟨hoff, hrow⟩ := hgets j hj
    refine ⟨.inr hoff, ?_⟩
    simpa [Row, hk] using hrow
  · simp

theorem Occ.effect_passSelect (hloc : m.loc c = .held) :
    (m.effect (.passSelect c)).Occ := by
  obtain ⟨hlock, hin⟩ := h.locked (c := c) (by simp [free_iff, hloc])
  have hmine : (m.loc c).mine = none := by rw [hloc]; rfl
  have := h.idle hmine (choose m.toKernel).1
    (.found (choose m.toKernel).2) (some c) hin (.inl hlock) (.inl ⟨rfl, ?_⟩) ?_
    (choose_state m.toKernel) ?_
  · simpa [effect, ← hlock] using this
  · cases (choose m.toKernel).2 <;> simp [Loc.found]
  · cases (choose m.toKernel).2 <;> rfl
  · intro b hb
    have hpick : (choose m.toKernel).2 = some b := by
      revert hb
      cases (choose m.toKernel).2 <;> simp [Loc.found, Loc.mine]
    have hrun : (m.proc b).state = .runnable := picked_runnable (choose_snd m.toKernel ▸ hpick)
    have hoff := h.off_of_not_running hlock (j := b) (by simp [hmine]) (by simp [hrun])
    have hpark := h.row_off b hoff
    rw [Row, hrun] at hpark
    rw [hpick]
    exact ⟨hoff, hrun, hpark⟩

theorem Occ.effect (he : m.Enabled e) : (m.effect e).Occ := by
  cases e with
  | passAcquire c =>
    obtain ⟨hloc, hin, hlock⟩ := he
    exact h.idle (by rw [hloc]; rfl) m.toKernel .held (some c) hin (.inr hlock)
      (.inl ⟨rfl, by simp⟩) rfl (fun _ => rfl) (by simp [Loc.mine])
  | passSelect c => exact h.effect_passSelect he
  | passProc c b => exact h.effect_pass.1 he
  | passRun c b => exact h.effect_pass.2.1 he
  | swtchIn c b => exact h.effect_pass.2.2.1 he
  | passClear c b => exact h.effect_pass.2.2.2 he
  | passRelease c =>
    have hloc : m.loc c = .cleared := he
    obtain ⟨hlock, hin⟩ := h.locked (c := c) (by simp [free_iff, hloc])
    exact h.idle (by rw [hloc]; rfl) m.toKernel .loop none hin (.inl hlock)
      (.inr ⟨rfl, rfl⟩) rfl (fun _ => rfl) (by simp [Loc.mine])
  | acquire c i call => exact h.effect_call.1 he
  | store c i call => exact h.effect_call.2.1 he
  | swtchOut c i call => exact h.effect_call.2.2 he
  | resume c i => exact h.effect_resume he
  | waitReap c i j => exact h.effect_waitReap he
  | waitFail c i => exact h.release he.1
  | forkAlloc c i => exact h.effect_forkAlloc he
  | forkContext c i np =>
    have hemb := h.child_embryo i np (by rw [he.2]; rfl)
    exact h.effect_fork (by rw [he.2]; rfl) m.toKernel .forkret true (.prepared np) (fun _ _ => rfl)
      (by simp [hemb, Fits]) (.inr ⟨rfl, hemb, fun _ => rfl⟩)
  | forkFail c i np =>
    have hp : (m.point i).child = some np := by rcases he.2 with hp | hp <;> rw [hp] <;> rfl
    have := h.effect_fork hp (m.toKernel.setProc np { m.proc np with state := .unused }) .dead
      (m.saved np) .user (fun j hj => Kernel.setProc_ne _ _ hj) (by simp [Fits]) (.inl rfl)
    simpa [Sys.effect] using this
  | forkCopy c i np =>
    have hemb := h.child_embryo i np (by rw [he.2]; rfl)
    have hst := h.child_forkret i np (.inl he.2)
    have hrow := h.row_off np (h.child_off hemb)
    have := h.effect_fork (by rw [he.2]; rfl)
      (m.toKernel.setProc np { m.proc np with sz := (m.proc i).sz, parent := some i })
      (m.stage np) (m.saved np) (.copied np) (fun j hj => Kernel.setProc_ne _ _ hj)
      (by simpa [Row] using hrow) (.inr ⟨rfl, by simpa using hemb, fun _ => hst⟩)
    simpa [Sys.effect] using this
  | forkDone c i np =>
    have hemb := h.child_embryo i np (by rw [he.2]; rfl)
    have hst := h.child_forkret i np (.inr he.2)
    have hrow := h.row_off np (h.child_off hemb)
    rw [Row, hemb, hst] at hrow
    have := h.effect_fork (by rw [he.2]; rfl)
      (m.toKernel.setProc np { m.proc np with state := .runnable })
      (m.stage np) (m.saved np) .user (fun j hj => Kernel.setProc_ne _ _ hj)
      (by simpa [Fits, hst, Stage.Resumes] using hrow) (.inl rfl)
    simpa [Sys.effect] using this
  | exitCall c i =>
    have := h.exiting (m.proc i) rfl
    simpa [Sys.effect, Kernel.setProc] using this
  | fault c i => exact h.exiting _ rfl
  | enter c s =>
    obtain ⟨hfree, -, hlock⟩ := he
    exact h.handler m.toKernel (some (s, false)) (some c) hfree (.inr hlock)
      (.inl ⟨rfl, by simp⟩) fun _ => .refl _
  | perform c s =>
    have hin : m.inside c = some (s, false) := he
    have hlock := (h.lock_iff c).mpr (.inl (by simp [hin]))
    have := h.handler (s.body m.toKernel) (some (s, true)) (some c)
      (h.inside_free c (by simp [hin])) (.inl hlock) (.inl ⟨rfl, by simp⟩)
      fun j => (s.body_stirred m.toKernel j).state
    simpa [Sys.effect, ← hlock] using this
  | leave c s =>
    have hin : m.inside c = some (s, true) := he
    have hlock := (h.lock_iff c).mpr (.inl (by simp [hin]))
    exact h.handler m.toKernel none none (h.inside_free c (by simp [hin])) (.inl hlock)
      (.inr ⟨rfl, rfl⟩) fun _ => .refl _
  | tick =>
    exact h.frame { m.toKernel with ticks := u32 (m.ticks + 1) } (fun _ => rfl) m.point
      fun _ => .inl rfl
  | telemetry c i =>
    refine h.frame _ (fun j => ?_) _ fun _ => .inl rfl
    rw [Kernel.setProc_proc]
    split
    · next hj => rw [hj, Proc.telemetry_state]
    · rfl

end

/-! ## Every run -/

theorem boot_occ : (boot ncpu).Occ where
  lock_iff := by simp [boot, Holds, free_iff]
  inside_free := by simp [boot]
  current_eq := by simp [boot, Loc.proc]
  mine_inj := by simp [boot, Loc.mine]
  row_mine := by simp [boot, Loc.mine]
  row_off := by
    intro i _
    simp only [Row, boot, Machine.bootKernel, Kernel.setProc_proc]
    split
    · next hi => simp [hi, Fits, Stage.Resumes]
    · next hi => simp [hi, allocproc, Kernel.setProc_ne, Proc.zero, Fits]
  child_embryo := by simp [boot, Point.child]
  child_inj := by simp [boot, Point.child]
  child_forkret := by simp [boot]

theorem Occ.run {es : List (Event ncpu)} (h : m.Occ) (hr : m.run es = some m') : m'.Occ := by
  refine Transition.run_invariant (fun s e s' hs he => ?_) hr h
  obtain ⟨hen, rfl⟩ := step_eq_some.mp he
  exact hs.effect hen

theorem Reachable.occ (h : m.Reachable) : m.Occ := by
  obtain ⟨es, hr⟩ := h
  exact boot_occ.run hr

theorem Occ.running_mine (h : m.Occ) (hi : (m.proc i).state = .running) :
    ∃ c, m.current c = some i := by
  by_contra hno
  have hoff : ∀ c, (m.loc c).mine = some i → ∃ b, m.loc c = .chosen b := by
    intro c hc
    have hcur := mt (fun hcur => (⟨c, hcur⟩ : ∃ c, m.current c = some i)) hno
    rw [h.current_eq] at hcur
    revert hc hcur
    cases m.loc c <;> simp [Loc.mine, Loc.proc]
  have hnone : ∀ c, (m.loc c).mine ≠ some i := by
    intro c hc
    obtain ⟨b, hb⟩ := hoff c hc
    have hrow := h.row_mine c i hc
    rw [Row, hb, hi] at hrow
    exact absurd hrow.1 (by simp)
  have hrow := h.row_off i hnone
  rwa [Row, hi] at hrow

theorem Occ.mine_of_current (h : m.Occ) (hc : m.current c = some i) : (m.loc c).mine = some i := by
  rw [h.current_eq] at hc
  revert hc
  cases m.loc c <;> simp [Loc.mine, Loc.proc]

/-- **No process runs on two CPUs.** A RUNNING process is the current process of exactly one CPU;
while `ptable.lock` is free, every current process is RUNNING; and from the moment a pass chooses a
process until `swtch` loads its context, that context is saved and no CPU still executes the
process. -/
theorem running_on_one_cpu (h : m.Reachable) :
    (∀ i, (m.proc i).state = .running → ∃! c, m.current c = some i) ∧
    (m.lock = none → ∀ c i, m.current c = some i → (m.proc i).state = .running) ∧
    ∀ c i, m.loc c = .chosen i ∨ m.loc c = .armed i ∨ m.loc c = .ready i →
      m.saved i = true ∧ ∀ c', m.loc c' ≠ .thread i := by
  have hocc := h.occ
  refine ⟨?_, ?_, ?_⟩
  · intro i hi
    obtain ⟨c, hc⟩ := hocc.running_mine hi
    refine ⟨c, hc, fun c' hc' => ?_⟩
    exact hocc.mine_inj c' c i (hocc.mine_of_current hc') (hocc.mine_of_current hc)
  · intro hlock c i hc
    have hfree : m.Free c := by
      by_contra hf
      rw [(hocc.locked hf).1] at hlock; cases hlock
    have hmine := hocc.mine_of_current hc
    have hrow := hocc.row_mine c i hmine
    rcases free_iff.mp hfree with hl | ⟨j, hj, hout⟩
    · rw [hl] at hmine; cases hmine
    · obtain rfl : j = i := by simpa [hj, Loc.mine] using hmine
      rw [Row, hj, hout] at hrow
      exact hrow
  · intro c i hc
    have hmine : (m.loc c).mine = some i := by rcases hc with hl | hl | hl <;> rw [hl] <;> rfl
    have hrow := hocc.row_mine c i hmine
    refine ⟨?_, ?_⟩
    · rcases hc with hl | hl | hl <;> rw [Row, hl] at hrow <;> exact hrow.2.2
    · intro c' hc'
      obtain rfl := hocc.mine_inj c' c i (by rw [hc']; rfl) hmine
      rw [hc'] at hc
      simp at hc

/-- CPU 0 dispatches init, which forks a child; CPU 1 has chosen the child and is about to switch
to it. -/
def twoCpuSession : List (Event 2) :=
  [.passAcquire 0, .passSelect 0, .passProc 0 0, .passRun 0 0, .swtchIn 0 0, .resume 0 0,
    .acquire 0 0 .fork, .forkAlloc 0 0, .forkContext 0 0 1, .forkCopy 0 0 1, .forkDone 0 0 1,
    .passAcquire 1, .passSelect 1, .passProc 1 1, .passRun 1 1]

theorem twoCpuSession_on_one_cpu : ∃ m ∈ (boot 2).run twoCpuSession,
    (m.proc 1).state = .running ∧ (∃! c, m.current c = some 1) ∧
      m.loc 1 = .ready 1 ∧ m.saved 1 = true := by
  have hrun : ∃ m ∈ (boot 2).run twoCpuSession,
      (m.proc 1).state = .running ∧ m.loc 1 = .ready 1 := by decide +kernel
  obtain ⟨m, hm, hst, hloc⟩ := hrun
  obtain ⟨hone, -, hsaved⟩ := running_on_one_cpu ⟨twoCpuSession, hm⟩
  exact ⟨m, hm, hst, hone 1 hst, hloc, (hsaved 1 1 (.inr (.inr hloc))).1⟩

end Sys

end Xv6.Life
