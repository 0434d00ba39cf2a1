import Mathlib.Logic.Function.Basic

/-!
# Parents and children

What `fork`, `exit` and `wait` do to the family of processes, and nothing else: who has which
process id, who is whose parent, and how far each slot is in its life. The slots are any type; the
operations are those of the kernel, each with the condition under which the kernel performs it.

A *chronicle* lists what the processes got to see: the pids `fork` and `wait` returned, the exits,
and the failed calls of `wait`. `Kin` ties the chronicle to the family: every pid `fork` returned
has been returned by `wait`, or belongs to a process whose parent is the one that forked it, or
init after that one exited. `Kin.op` says that every operation keeps it, and with it that the
chronicle is `Proper`.
-/

namespace Xv6.Life

open List
open Function (update update_apply)

/-- How far a slot is in its life: RUNNABLE, SLEEPING and RUNNING are all `live`. -/
inductive Phase where
  | unused
  | embryo
  | live
  | zombie
  deriving DecidableEq

/-- The family. `making i = some np` when `i` is in `fork` and `np` already has it for parent. -/
@[ext] structure Family (σ : Type) where
  pid : σ → Int
  parent : σ → Option σ
  phase : σ → Phase
  making : σ → Option σ
  nextpid : Int
  init : σ

/-- What can happen to a family. -/
inductive Op (σ : Type) where
  | alloc (np : σ)
  | abort (np : σ)
  | attach (i np : σ)
  | bear (i np : σ)
  | die (i : σ)
  | reap (i j : σ)
  | giveUp (i : σ) (killed : Bool)

/-- What the processes got to see. -/
inductive Deed where
  /-- `fork` returned `child` to `parent`. -/
  | forked (parent child : Int)
  /-- The process exited. -/
  | exited (pid : Int)
  /-- `wait` returned `child` to `parent`. -/
  | waited (parent child : Int)
  /-- `wait` returned -1 to a process that was marked killed or not. -/
  | waitFailed (pid : Int) (killed : Bool)
  deriving DecidableEq

/-- The chronicle, oldest first. -/
abbrev Chronicle := List Deed

/-- The process that may collect a child that `p` forked: `p` itself, or init once `p` is gone. -/
def Chronicle.Collector (H : Chronicle) (initPid p w : Int) : Prop :=
  w = p ∨ w = initPid ∧ .exited p ∈ H

/-- What has to be true of the past when a deed is done. -/
def Deed.Proper (initPid : Int) (past : Chronicle) : Deed → Prop
  | .waited w c =>
    (∃ p, .forked p c ∈ past ∧ past.Collector initPid p w) ∧ ∀ w', .waited w' c ∉ past
  | .waitFailed w false =>
    ∀ p c, .forked p c ∈ past → past.Collector initPid p w → ∃ w', .waited w' c ∈ past
  | _ => True

/-- Every deed was proper when it was done. -/
def Chronicle.Proper (initPid : Int) (H : Chronicle) : Prop :=
  ∀ past d later, H = past ++ d :: later → d.Proper initPid past

theorem Chronicle.Proper.append {initPid : Int} {H : Chronicle} {d : Deed}
    (h : H.Proper initPid) (hd : d.Proper initPid H) : (H ++ [d]).Proper initPid := by
  intro past d' later heq
  rcases eq_nil_or_concat later with rfl | ⟨later', x, rfl⟩
  · obtain ⟨rfl, hd'⟩ := append_inj' heq rfl
    obtain rfl : d = d' := by simpa using hd'
    exact hd
  · have heq : H ++ [d] = (past ++ d' :: later') ++ [x] := by simpa using heq
    obtain ⟨rfl, -⟩ := append_inj' heq rfl
    exact h past d' later' rfl

/-- In a proper chronicle no pid is returned by two calls of `wait`. -/
theorem Chronicle.Proper.waited_once {initPid : Int} {past later : Chronicle} {w c : Int}
    (h : Chronicle.Proper initPid (past ++ .waited w c :: later)) (w' : Int) :
    .waited w' c ∉ past ∧ .waited w' c ∉ later := by
  refine ⟨(h past (.waited w c) later rfl).2 w', fun hmem => ?_⟩
  obtain ⟨l₁, l₂, rfl⟩ := append_of_mem hmem
  have hlater := (h (past ++ .waited w c :: l₁) (.waited w' c) l₂ (by simp)).2 w
  exact hlater (by simp)

namespace Family

variable {σ : Type}

/-- The kernel performs this operation here. -/
def Guard (f : Family σ) : Op σ → Prop
  | .alloc np => f.phase np = .unused
  | .abort np => f.phase np = .embryo ∧ ∀ i, f.making i ≠ some np
  | .attach i np =>
    f.phase np = .embryo ∧ f.phase i = .live ∧ (∀ j, f.making j ≠ some np) ∧ f.making i = none
  | .bear i np => f.phase np = .embryo ∧ f.phase i = .live ∧ f.making i = some np
  | .die i => f.phase i = .live ∧ i ≠ f.init ∧ f.making i = none
  | .reap i j => f.phase i = .live ∧ f.phase j = .zombie ∧ f.parent j = some i
  | .giveUp i killed => f.phase i = .live ∧ (killed = false → ∀ j, f.parent j ≠ some i)

/-- What the operation does. -/
def apply [DecidableEq σ] (f : Family σ) : Op σ → Family σ
  | .alloc np =>
    { f with
      phase := update f.phase np .embryo
      pid := update f.pid np f.nextpid
      nextpid := f.nextpid + 1 }
  | .abort np => { f with phase := update f.phase np .unused }
  | .attach i np =>
    { f with
      parent := update f.parent np (some i)
      making := update f.making i (some np) }
  | .bear i np =>
    { f with
      phase := update f.phase np .live
      making := update f.making i none }
  | .die i =>
    { f with
      phase := update f.phase i .zombie
      parent := fun j => if f.parent j = some i then some f.init else f.parent j }
  | .reap _ j =>
    { f with
      phase := update f.phase j .unused
      pid := update f.pid j 0
      parent := update f.parent j none }
  | .giveUp _ _ => f

/-- What the operation adds to the chronicle. -/
def deeds (f : Family σ) : Op σ → Chronicle
  | .bear i np => [.forked (f.pid i) (f.pid np)]
  | .die i => [.exited (f.pid i)]
  | .reap i j => [.waited (f.pid i) (f.pid j)]
  | .giveUp i killed => [.waitFailed (f.pid i) killed]
  | _ => []

/-- A slot holds a process somebody can wait for. -/
def Made (f : Family σ) (j : σ) : Prop := (f.phase j = .live ∨ f.phase j = .zombie) ∧ j ≠ f.init

/-- The family alone: pids, parents and children in the making. -/
structure Tree (f : Family σ) : Prop where
  pid_lt : ∀ j, f.phase j ≠ .unused → f.pid j < f.nextpid
  pid_inj : ∀ i j, f.phase i ≠ .unused → f.phase j ≠ .unused → f.pid i = f.pid j → i = j
  init_live : f.phase f.init = .live
  /-- So that a slot `allocproc` takes is nobody's child. -/
  parent_used : ∀ j i, f.parent j = some i → f.phase j ≠ .unused
  parent_live : ∀ j i, f.parent j = some i → f.phase i = .live
  parent_embryo : ∀ j i, f.parent j = some i → f.phase j = .embryo → f.making i = some j
  making_parent : ∀ i j, f.making i = some j → f.parent j = some i ∧ f.phase j = .embryo
  /-- So that init does not adopt itself. -/
  init_orphan : f.parent f.init = none
  parent_ne : ∀ j, f.parent j ≠ some j

/-- The family and its chronicle agree. -/
structure Kin (f : Family σ) (H : Chronicle) : Prop where
  forked_lt : ∀ p c, .forked p c ∈ H → c < f.nextpid
  forked_inj : ∀ p p' c, .forked p c ∈ H → .forked p' c ∈ H → p = p'
  exited_lt : ∀ p, .exited p ∈ H → p < f.nextpid
  exited_zombie : ∀ p j, .exited p ∈ H → f.phase j ≠ .unused → f.pid j = p → f.phase j = .zombie
  waited_lt : ∀ w c, .waited w c ∈ H → c < f.nextpid
  unreaped : ∀ w j, f.phase j ≠ .unused → .waited w (f.pid j) ∉ H
  born : ∀ j, f.Made j → ∃ p i, .forked p (f.pid j) ∈ H ∧ f.parent j = some i ∧
    (f.pid i = p ∧ .exited p ∉ H ∨ i = f.init ∧ .exited p ∈ H)
  accounted : ∀ p c, .forked p c ∈ H →
    (∃ w, .waited w c ∈ H) ∨ ∃ j, f.Made j ∧ f.pid j = c

variable {f : Family σ} {H : Chronicle}

variable {np i j : σ} {o : Op σ}

/-- A pid that `fork` is about to return is new to the chronicle. -/
theorem Kin.embryo_fresh {p : Int} (t : f.Tree) (h : f.Kin H) (hnp : f.phase np = .embryo) :
    .forked p (f.pid np) ∉ H := by
  intro hmem
  rcases h.accounted p _ hmem with ⟨w, hw⟩ | ⟨j, ⟨hj, -⟩, hpid⟩
  · exact h.unreaped w np (by simp [hnp]) hw
  · obtain rfl : j = np :=
      t.pid_inj j np (by rcases hj with hj | hj <;> simp [hj]) (by simp [hnp]) hpid
    rcases hj with hj | hj <;> rw [hnp] at hj <;> cases hj

/-- A live process has not exited. -/
theorem Kin.live_not_exited (h : f.Kin H) (hi : f.phase i = .live) : .exited (f.pid i) ∉ H := by
  intro hmem
  have := h.exited_zombie _ i hmem (by simp [hi]) rfl
  rw [hi] at this; cases this

/-- The pids of two processes in use differ. -/
theorem Tree.pid_ne (t : f.Tree) (hi : f.phase i ≠ .unused) (hj : f.phase j ≠ .unused)
    (hne : j ≠ i) : f.pid j ≠ f.pid i := fun hpid => hne (t.pid_inj j i hj hi hpid)

/-- **What an operation adds to the chronicle is proper**: `wait` returns a pid to the process that
may collect it, for the first time; and it fails, for a process that was not killed, only when there
is nothing left to collect. -/
theorem Kin.proper (t : f.Tree) (h : f.Kin H) (hg : f.Guard o) :
    ∀ d ∈ f.deeds o, d.Proper (f.pid f.init) H := by
  cases o with
  | reap i j =>
    obtain ⟨hi, hj, hpar⟩ := hg
    have hinit : j ≠ f.init := by
      rintro rfl
      rw [t.init_live] at hj; cases hj
    obtain ⟨p, k, hp, hk, hor⟩ := h.born j ⟨.inr hj, hinit⟩
    obtain rfl : i = k := Option.some.inj (hpar.symm.trans hk)
    simp only [deeds, mem_singleton, forall_eq]
    refine ⟨⟨p, hp, ?_⟩, fun w => h.unreaped w j (by simp [hj])⟩
    rcases hor with ⟨hpid, -⟩ | ⟨hk', hyes⟩
    · exact .inl hpid
    · exact .inr ⟨by rw [hk'], hyes⟩
  | giveUp i killed =>
    obtain ⟨hi, hnone⟩ := hg
    simp only [deeds, mem_singleton, forall_eq]
    cases killed with
    | true => trivial
    | false =>
      intro p c hp hcol
      rcases h.accounted p c hp with hw | ⟨j, hj, rfl⟩
      · exact hw
      · -- the child is still there, so its parent is somebody else
        exfalso
        obtain ⟨p', k, hp', hk, hor⟩ := h.born j hj
        obtain rfl := h.forked_inj p p' _ hp hp'
        have hki : k ≠ i := by
          rintro rfl
          exact hnone rfl j hk
        have hpids := t.pid_ne (i := i) (j := k) (by simp [hi]) (by simp [t.parent_live j k hk]) hki
        rcases hcol with rfl | ⟨hw, hyes⟩
        · rcases hor with ⟨hpid, -⟩ | ⟨-, hyes⟩
          · exact hpids hpid
          · exact h.live_not_exited hi hyes
        · rcases hor with ⟨-, hno⟩ | ⟨rfl, -⟩
          · exact hno hyes
          · exact hpids hw.symm
  | _ => simp [deeds, Deed.Proper]

theorem Kin.giveUp {killed : Bool} (h : f.Kin H) : f.Kin (H ++ f.deeds (.giveUp i killed)) := by
  obtain ⟨h₁, h₂, h₃, h₄, h₅, h₆, h₇, h₈⟩ := h
  constructor <;> simp only [deeds, mem_append, mem_singleton, reduceCtorEq, or_false] <;>
    assumption

variable [DecidableEq σ]

theorem Tree.apply (h : f.Tree) (hg : f.Guard o) : (f.apply o).Tree := by
  obtain ⟨h₁, h₂, h₃, h₄, h₅, h₆, h₇, h₈, h₉⟩ := h
  cases o with
  | alloc np =>
    have hnp : f.phase np = .unused := hg
    refine ⟨?_, ?_, ?_, ?_, ?_, ?_, ?_, h₈, h₉⟩ <;>
      simp only [Family.apply, update_apply] <;> grind
  | abort np =>
    obtain ⟨hnp, hmaking⟩ := hg
    refine ⟨?_, ?_, ?_, ?_, ?_, ?_, ?_, h₈, h₉⟩ <;>
      simp only [Family.apply, update_apply] <;> grind
  | attach i np =>
    obtain ⟨hnp, hi, hmaking, hnone⟩ := hg
    refine ⟨h₁, h₂, h₃, ?_, ?_, ?_, ?_, ?_, ?_⟩ <;>
      simp only [Family.apply, update_apply] <;> grind
  | bear i np =>
    obtain ⟨hnp, hi, hmaking⟩ := hg
    refine ⟨?_, ?_, ?_, ?_, ?_, ?_, ?_, h₈, h₉⟩ <;>
      simp only [Family.apply, update_apply] <;> grind
  | die i =>
    obtain ⟨hi, hinit, hmaking⟩ := hg
    refine ⟨?_, ?_, ?_, ?_, ?_, ?_, ?_, ?_, ?_⟩ <;>
      simp only [Family.apply, update_apply] <;> grind
  | reap i j =>
    obtain ⟨hi, hj, hpar⟩ := hg
    refine ⟨?_, ?_, ?_, ?_, ?_, ?_, ?_, ?_, ?_⟩ <;>
      simp only [Family.apply, update_apply] <;> grind
  | giveUp => exact ⟨h₁, h₂, h₃, h₄, h₅, h₆, h₇, h₈, h₉⟩

theorem Tree.init_pid (h : f.Tree) (hg : f.Guard o) :
    (f.apply o).pid (f.apply o).init = f.pid f.init := by
  have hlive := h.init_live
  cases o with
  | alloc np =>
    have hne : f.init ≠ np := by
      rintro rfl
      exact absurd (hlive.symm.trans hg) (by simp)
    simp [Family.apply, hne]
  | reap i j =>
    have hne : f.init ≠ j := by
      rintro rfl
      exact absurd (hlive.symm.trans hg.2.1) (by simp)
    simp [Family.apply, hne]
  | _ => rfl

theorem Kin.alloc (t : f.Tree) (h : f.Kin H) (hg : f.Guard (.alloc np)) :
    (f.apply (.alloc np)).Kin H := by
  have hnp : f.phase np = .unused := hg
  have hpar : ∀ j, f.parent j ≠ some np := by
    intro j hj
    rw [t.parent_live j np hj] at hnp; cases hnp
  obtain ⟨h₁, h₂, h₃, h₄, h₅, h₆, h₇, h₈⟩ := h
  refine ⟨?_, h₂, ?_, ?_, ?_, ?_, ?_, ?_⟩ <;>
    simp only [apply, Made, update_apply] at * <;> grind

theorem Kin.abort (h : f.Kin H) (hg : f.Guard (.abort np)) : (f.apply (.abort np)).Kin H := by
  obtain ⟨hnp, -⟩ := hg
  obtain ⟨h₁, h₂, h₃, h₄, h₅, h₆, h₇, h₈⟩ := h
  refine ⟨h₁, h₂, h₃, ?_, h₅, ?_, ?_, ?_⟩ <;>
    simp only [apply, Made, update_apply] at * <;> grind

theorem Kin.attach (h : f.Kin H) (hg : f.Guard (.attach i np)) :
    (f.apply (.attach i np)).Kin H := by
  obtain ⟨hnp, -⟩ := hg
  obtain ⟨h₁, h₂, h₃, h₄, h₅, h₆, h₇, h₈⟩ := h
  refine ⟨h₁, h₂, h₃, h₄, h₅, h₆, ?_, h₈⟩
  intro j hj
  obtain ⟨p, k, hp, hk, hor⟩ := h₇ j hj
  have hne : j ≠ np := by
    rintro rfl
    rcases hj.1 with hj | hj <;> exact absurd (hnp.symm.trans hj) (by simp)
  exact ⟨p, k, hp, by simpa [apply, hne] using hk, hor⟩

theorem Kin.bear (t : f.Tree) (h : f.Kin H) (hg : f.Guard (.bear i np)) :
    (f.apply (.bear i np)).Kin (H ++ f.deeds (.bear i np)) := by
  obtain ⟨hnp, hi, hmaking⟩ := hg
  have hfresh := fun p => h.embryo_fresh (p := p) t hnp
  have hinit : np ≠ f.init := by
    rintro rfl
    rw [t.init_live] at hnp; cases hnp
  have hmade : ∀ j, (f.apply (.bear i np)).Made j ↔ j = np ∨ f.Made j := by
    intro j
    by_cases hj : j = np
    · subst hj; simp [apply, Made, hinit]
    · simp [apply, Made, hj]
  refine ⟨?_, ?_, ?_, ?_, ?_, ?_, ?_, ?_⟩
  · intro p c hmem
    rcases mem_append.mp hmem with hmem | hmem
    · exact h.forked_lt p c hmem
    · obtain ⟨-, rfl⟩ : p = f.pid i ∧ c = f.pid np := by simpa [apply, deeds] using hmem
      exact t.pid_lt np (by simp [hnp])
  · intro p p' c h₁ h₂
    simp only [deeds, mem_append, mem_singleton, Deed.forked.injEq] at h₁ h₂
    rcases h₁ with h₁ | ⟨rfl, rfl⟩ <;> rcases h₂ with h₂ | ⟨rfl, hc⟩
    · exact h.forked_inj p p' c h₁ h₂
    · exact absurd (hc ▸ h₁) (hfresh p)
    · exact absurd h₂ (hfresh p')
    · rfl
  · simpa [apply, deeds] using h.exited_lt
  · intro p j hmem hj hpid
    have hold : Deed.exited p ∈ H := by simpa [deeds] using hmem
    by_cases hjnp : j = np
    · subst hjnp
      have := h.exited_zombie p j hold (by simp [hnp]) hpid
      rw [hnp] at this; cases this
    · simp only [apply, update_apply, if_neg hjnp] at hj ⊢
      exact h.exited_zombie p j hold hj hpid
  · simpa [apply, deeds] using h.waited_lt
  · intro w j hj hmem
    refine h.unreaped w j ?_ (by simpa [apply, deeds] using hmem)
    by_cases hjnp : j = np
    · simp [hjnp, hnp]
    · simpa [apply, hjnp] using hj
  · intro j hj
    rcases (hmade j).mp hj with rfl | hj
    · refine ⟨f.pid i, i, by simp [apply, deeds], (t.making_parent i j hmaking).1, .inl ⟨rfl, ?_⟩⟩
      simpa [apply, deeds] using h.live_not_exited hi
    · obtain ⟨p, k, hp, hk, hor⟩ := h.born j hj
      refine ⟨p, k, by simp [apply, hp], hk, ?_⟩
      simpa [apply, deeds] using hor
  · intro p c hmem
    simp only [deeds, mem_append, mem_singleton, Deed.forked.injEq] at hmem
    rcases hmem with hmem | ⟨rfl, rfl⟩
    · rcases h.accounted p c hmem with ⟨w, hw⟩ | ⟨j, hj, hpid⟩
      · exact .inl ⟨w, by simp [hw]⟩
      · exact .inr ⟨j, (hmade j).mpr (.inr hj), hpid⟩
    · exact .inr ⟨np, (hmade np).mpr (.inl rfl), rfl⟩

theorem Kin.die (t : f.Tree) (h : f.Kin H) (hg : f.Guard (.die i)) :
    (f.apply (.die i)).Kin (H ++ f.deeds (.die i)) := by
  obtain ⟨hi, hinit, -⟩ := hg
  have hphase : ∀ j, j ≠ i → (f.apply (.die i)).phase j = f.phase j := by
    intro j hj
    simp [apply, hj]
  have hused : ∀ j, (f.apply (.die i)).phase j ≠ .unused ↔ f.phase j ≠ .unused := by
    intro j
    by_cases hj : j = i
    · subst hj; simp [apply, hi]
    · rw [hphase j hj]
  have hmade : ∀ j, (f.apply (.die i)).Made j ↔ f.Made j := by
    intro j
    by_cases hj : j = i
    · subst hj; simp [apply, Made, hi]
    · simp [apply, Made, hj]
  refine ⟨?_, ?_, ?_, ?_, ?_, ?_, ?_, ?_⟩
  · simpa [apply, deeds] using h.forked_lt
  · simpa [apply, deeds] using h.forked_inj
  · intro p hmem
    rcases mem_append.mp hmem with hmem | hmem
    · exact h.exited_lt p hmem
    · obtain rfl : p = f.pid i := by simpa [apply, deeds] using hmem
      exact t.pid_lt i (by simp [hi])
  · intro p j hmem hj hpid
    by_cases hji : j = i
    · subst hji; simp [apply]
    · rw [hphase j hji]
      rcases mem_append.mp hmem with hmem | hmem
      · exact h.exited_zombie p j hmem ((hused j).mp hj) hpid
      · obtain rfl : p = f.pid i := by simpa [apply, deeds] using hmem
        exact absurd hpid (t.pid_ne (by simp [hi]) ((hused j).mp hj) hji)
  · simpa [apply, deeds] using h.waited_lt
  · intro w j hj hmem
    exact h.unreaped w j ((hused j).mp hj) (by simpa [apply, deeds] using hmem)
  · intro j hj
    obtain ⟨p, k, hp, hk, hor⟩ := h.born j ((hmade j).mp hj)
    by_cases hki : k = i
    · -- the children of `i` go to init, and `i` has exited
      subst hki
      have hpk : f.pid k = p := by
        rcases hor with ⟨hpid, -⟩ | ⟨hk', -⟩
        · exact hpid
        · exact absurd hk' hinit
      refine ⟨p, f.init, by simp [apply, hp], by simp [apply, hk], .inr ⟨rfl, ?_⟩⟩
      simp [deeds, hpk]
    · refine ⟨p, k, by simp [apply, hp], by simp [apply, hk, hki], ?_⟩
      rcases hor with ⟨hpid, hno⟩ | ⟨hk', hyes⟩
      · refine .inl ⟨hpid, ?_⟩
        have hne := t.pid_ne (i := i) (j := k) (by simp [hi]) (by simp [t.parent_live j k hk]) hki
        simpa [apply, deeds, hno] using hpid ▸ hne
      · exact .inr ⟨hk', by simp [hyes]⟩
  · intro p c hmem
    rcases h.accounted p c (by simpa [apply, deeds] using hmem) with ⟨w, hw⟩ | ⟨j, hj, hpid⟩
    · exact .inl ⟨w, by simp [hw]⟩
    · exact .inr ⟨j, (hmade j).mpr hj, hpid⟩

theorem Kin.reap (t : f.Tree) (h : f.Kin H) (hg : f.Guard (.reap i j)) :
    (f.apply (.reap i j)).Kin (H ++ f.deeds (.reap i j)) := by
  obtain ⟨hi, hj, hpar⟩ := hg
  have hne : ∀ k, (f.apply (.reap i j)).phase k ≠ .unused → k ≠ j ∧ f.phase k ≠ .unused := by
    intro k hk
    have hkj : k ≠ j := by
      rintro rfl
      simp [apply] at hk
    exact ⟨hkj, by simpa [apply, hkj] using hk⟩
  have hmade : ∀ k, (f.apply (.reap i j)).Made k ↔ k ≠ j ∧ f.Made k := by
    intro k
    by_cases hk : k = j
    · subst hk; simp [apply, Made]
    · simp [apply, Made, hk]
  refine ⟨?_, ?_, ?_, ?_, ?_, ?_, ?_, ?_⟩
  · simpa [apply, deeds] using h.forked_lt
  · simpa [apply, deeds] using h.forked_inj
  · simpa [apply, deeds] using h.exited_lt
  · intro p k hmem hk hpid
    obtain ⟨hkj, hk'⟩ := hne k hk
    simp only [apply, update_apply, if_neg hkj] at hpid ⊢
    exact h.exited_zombie p k (by simpa [apply, deeds] using hmem) hk' hpid
  · intro w c hmem
    rcases mem_append.mp hmem with hmem | hmem
    · exact h.waited_lt w c hmem
    · obtain ⟨-, rfl⟩ : w = f.pid i ∧ c = f.pid j := by simpa [apply, deeds] using hmem
      exact t.pid_lt j (by simp [hj])
  · intro w k hk hmem
    obtain ⟨hkj, hk'⟩ := hne k hk
    simp only [apply, update_apply, if_neg hkj] at hmem
    rcases mem_append.mp hmem with hmem | hmem
    · exact h.unreaped w k hk' hmem
    · obtain ⟨-, hpid⟩ : w = f.pid i ∧ f.pid k = f.pid j := by simpa [apply, deeds] using hmem
      exact t.pid_ne (by simp [hj]) hk' hkj hpid
  · intro k hk
    obtain ⟨hkj, hk⟩ := (hmade k).mp hk
    obtain ⟨p, q, hp, hq, hor⟩ := h.born k hk
    have hqj : q ≠ j := by
      rintro rfl
      have := t.parent_live k q hq
      rw [hj] at this; cases this
    refine ⟨p, q, by simp [apply, hkj, hp], by simp [apply, hkj, hq], ?_⟩
    simpa [apply, deeds, hqj] using hor
  · intro p c hmem
    rcases h.accounted p c (by simpa [apply, deeds] using hmem) with ⟨w, hw⟩ | ⟨k, hk, hpid⟩
    · exact .inl ⟨w, by simp [hw]⟩
    · by_cases hkj : k = j
      · exact .inl ⟨f.pid i, by simp [deeds, ← hpid, hkj]⟩
      · exact .inr ⟨k, (hmade k).mpr ⟨hkj, hk⟩, by simpa [apply, hkj] using hpid⟩

/-- **Every operation keeps the family and its chronicle in agreement.** -/
theorem Kin.op (t : f.Tree) (h : f.Kin H) (hg : f.Guard o) : (f.apply o).Kin (H ++ f.deeds o) := by
  cases o with
  | alloc np => simpa [deeds] using h.alloc t hg
  | abort np => simpa [deeds] using h.abort hg
  | attach i np => simpa [deeds] using h.attach hg
  | bear i np => exact h.bear t hg
  | die i => exact h.die t hg
  | reap i j => exact h.reap t hg
  | giveUp i killed => exact h.giveUp

end Family

end Xv6.Life
