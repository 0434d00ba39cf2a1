import Mathlib.Data.Fintype.Card
import Xv6.Mkfs.Program

/-!
# The disk driver

The request queue of ide.c. A section under `idelock` is one event: the whole of `iderw` up to the
first test of its loop, a further test of the loop after a wakeup, meant for this process or not,
and `ideintr`. The controller raises one interrupt for each command it was given. What goes through
its ports, and the data of the buffers, is left out.
-/

namespace Xv6.Ide

open List Transition
open Function (update update_of_ne update_self)
open Mkfs (FSSIZE)

/-- The fields of `struct buf` that the driver reads. -/
structure Buf where
  dev : Nat
  blockno : Nat
  valid : Bool
  dirty : Bool

/-- `(b->flags & (B_VALID|B_DIRTY)) == B_VALID`. -/
def Buf.synced (x : Buf) : Bool := x.valid && !x.dirty

/-- The driver with the sleep locks of the buffers. `started` has the buffers of all commands given
to the controller, `raised` counts its interrupts, and `caller` has the buffer of the `iderw` that a
process is in. -/
structure Disk (n : Nat) (P : Type) where
  idequeue : Option (Fin n)
  qnext : Fin n → Option (Fin n)
  buf : Fin n → Buf
  havedisk1 : Bool
  lock : Fin n → Option P
  caller : P → Option (Fin n)
  started : List (Fin n)
  raised : Nat

variable {n : Nat} {P : Type}

def start (n : Nat) (P : Type) (havedisk1 : Bool) : Disk n P where
  idequeue := none
  qnext _ := none
  buf _ := ⟨0, 0, false, false⟩
  havedisk1 := havedisk1
  lock _ := none
  caller _ := none
  started := []
  raised := 0

/-- Gives the controller the command for a buffer; a panic is `none`. -/
def idestart (s : Disk n P) : Option (Fin n) → Option (Disk n P)
  | none => none
  | some b => if (s.buf b).blockno < FSSIZE then some { s with started := s.started ++ [b] } else none

def ideintr (s : Disk n P) : Option (Disk n P) :=
  match s.idequeue with
  | none => some s
  | some b =>
    let s := { s with
      idequeue := s.qnext b
      buf := update s.buf b { s.buf b with valid := true, dirty := false } }
    if s.idequeue.isSome then idestart s s.idequeue else some s

/-- The walk of `pp` to the end of the queue: the buffer whose `qnext` it points to. -/
def last (qnext : Fin n → Option (Fin n)) : Nat → Fin n → Option (Fin n)
  | 0, _ => none
  | k + 1, b =>
    match qnext b with
    | none => some b
    | some c => last qnext k c

/-- Append `b` to `idequeue`. A walk that does not end within the `n` buffers never does. -/
def append (s : Disk n P) (b : Fin n) : Option (Disk n P) :=
  let qnext := update s.qnext b none
  match s.idequeue with
  | none => some { s with idequeue := some b, qnext }
  | some a => (last qnext n a).map fun l => { s with qnext := update qnext l (some b) }

section

variable [DecidableEq P]

/-- The test of the loop: return, or sleep on the buffer. -/
def await (s : Disk n P) (p : P) (b : Fin n) : Disk n P :=
  { s with caller := update s.caller p (if (s.buf b).synced then none else some b) }

/-- `iderw`, called by `p` when the buffer's fields are `x`. -/
def iderw (s : Disk n P) (p : P) (b : Fin n) (x : Buf) : Option (Disk n P) :=
  if s.lock b ≠ some p then none
  else if x.synced then none
  else if x.dev ≠ 0 ∧ ¬ s.havedisk1 then none
  else do
    let s ← append { s with buf := update s.buf b x } b
    let s ← if s.idequeue = some b then idestart s (some b) else some s
    return await s p b

/-- What can happen: a process takes or gives up the lock of a buffer, calls `iderw` with one, or is
woken in it, and the controller raises an interrupt. -/
inductive Event (n : Nat) (P : Type) where
  | acquiresleep (p : P) (b : Fin n)
  | releasesleep (p : P) (b : Fin n)
  | iderw (p : P) (b : Fin n) (x : Buf)
  | woken (p : P)
  | ideintr

def step (s : Disk n P) : Event n P → Option (Disk n P)
  | .acquiresleep p b =>
    if s.caller p = none ∧ s.lock b = none then some { s with lock := update s.lock b (some p) }
    else none
  | .releasesleep p b =>
    if s.caller p = none ∧ s.lock b = some p then some { s with lock := update s.lock b none }
    else none
  | .iderw p b x => if s.caller p = none then iderw s p b x else none
  | .woken p => (s.caller p).map (await s p)
  | .ideintr =>
    if s.raised < s.started.length then ideintr { s with raised := s.raised + 1 } else none

end

/-! ## The queue -/

/-- The buffers on the way from `a` along `qnext`. -/
def Chain (qnext : Fin n → Option (Fin n)) : Option (Fin n) → List (Fin n) → Prop
  | a, [] => a = none
  | a, b :: q => a = some b ∧ Chain qnext (qnext b) q

variable {f g : Fin n → Option (Fin n)} {a : Option (Fin n)} {b : Fin n} {q : List (Fin n)}

theorem Chain.congr (h : Chain f a q) (hfg : ∀ b ∈ q, f b = g b) : Chain g a q := by
  induction q generalizing a with
  | nil => exact h
  | cons b q ih =>
    rw [forall_mem_cons] at hfg
    refine ⟨h.1, ih ?_ hfg.2⟩
    rw [← hfg.1]
    exact h.2

/-- The walk ends at the last buffer, and linking `b` there puts it at the end. -/
theorem Chain.snoc {c : Fin n} (h : Chain f (some c) q) (hnd : (q ++ [b]).Nodup) (hb : f b = none)
    {k : Nat} (hk : q.length ≤ k) :
    ∃ l ∈ q, last f k c = some l ∧ Chain (update f l (some b)) (some c) (q ++ [b]) := by
  induction q generalizing c k with
  | nil => cases h
  | cons d q ih =>
    obtain ⟨hc, h⟩ := h
    cases hc
    obtain ⟨hd, hnd⟩ := nodup_cons.mp hnd
    obtain ⟨k, rfl⟩ : ∃ j, k = j + 1 := Nat.exists_eq_succ_of_ne_zero (by simp at hk; omega)
    cases q with
    | nil =>
      have hne : b ≠ d := by
        rintro rfl
        simp at hd
      have hend : f d = none := h
      refine ⟨d, mem_singleton_self d, ?_, rfl, ?_, ?_⟩
      · simp [last, hend]
      · exact update_self ..
      · rw [update_of_ne hne]
        exact hb
    | cons e q =>
      obtain ⟨he, h⟩ := h
      obtain ⟨l, hl, hlast, hchain⟩ := ih ⟨rfl, h⟩ hnd (Nat.le_of_succ_le_succ hk)
      have hne : d ≠ l := by
        rintro rfl
        exact hd (mem_append_left _ hl)
      refine ⟨l, mem_cons_of_mem _ hl, ?_, rfl, ?_⟩
      · simp only [last, he, hlast]
      · rwa [update_of_ne hne, he]

variable {s t : Disk n P} {done : List (Fin n)} {p : P} {x : Buf}

theorem append_eq (h : Chain s.qnext s.idequeue q) (hnd : (q ++ [b]).Nodup) :
    ∃ i f, append s b = some { s with idequeue := i, qnext := f } ∧ Chain f i (q ++ [b]) := by
  obtain ⟨hq, -, hdis⟩ := nodup_append.mp hnd
  have hb : b ∉ q := fun hb => hdis b hb b (mem_singleton_self b) rfl
  have hchain : Chain (update s.qnext b none) s.idequeue q :=
    h.congr fun c hc => (update_of_ne (fun hcb : c = b => hb (hcb ▸ hc)) ..).symm
  cases hi : s.idequeue with
  | none =>
    rw [hi] at hchain
    cases q with
    | cons c q => cases hchain.1
    | nil =>
      refine ⟨some b, update s.qnext b none, ?_, rfl, update_self ..⟩
      simp only [append, hi]
  | some c =>
    rw [hi] at hchain
    have hlen : q.length ≤ n := by simpa using hq.length_le_card
    obtain ⟨l, -, hl, hsnoc⟩ := hchain.snoc hnd (update_self ..) hlen
    refine ⟨some c, _, ?_, hsnoc⟩
    simp only [append, hi, hl, Option.map_some]

/-! ## What every step keeps -/

/-- The requests `done` are finished and `q` is the queue, whose first buffer has the only command
that is not finished. A buffer is on the queue while its process waits in `iderw`, until it is
valid and clean. -/
structure Inv (s : Disk n P) (done q : List (Fin n)) : Prop where
  chain : Chain s.qnext s.idequeue q
  nodup : q.Nodup
  started : s.started = done ++ q.take 1
  raised : s.raised = done.length
  waiting : ∀ b ∈ q, (s.buf b).synced = false ∧ ∃ p, s.caller p = some b
  caller : ∀ p b, s.caller p = some b → s.lock b = some p ∧ (b ∈ q ∨ (s.buf b).synced = true)

theorem inv_start {havedisk1 : Bool} : Inv (start n P havedisk1) [] [] where
  chain := rfl
  nodup := nodup_nil
  started := rfl
  raised := rfl
  waiting _ hb := absurd hb not_mem_nil
  caller _ _ h := by cases h

section Inv

variable (h : Inv s done q)
include h

/-- A buffer that a process has locked outside `iderw` is not in another's. -/
theorem Inv.caller_ne (hp : s.caller p = none) (hl : s.lock b = some p) (p' : P) :
    s.caller p' ≠ some b := by
  intro hp'
  have hl' := (h.caller p' b hp').1
  rw [hl, Option.some.injEq] at hl'
  rw [hl', hp'] at hp
  cases hp

theorem Inv.not_mem (hp : s.caller p = none) (hl : s.lock b = some p) : b ∉ q := by
  intro hb
  obtain ⟨-, p', hp'⟩ := h.waiting b hb
  exact h.caller_ne hp hl p' hp'

variable [DecidableEq P]

/-- A request goes to the end of the queue, and to the controller if there is no other. -/
theorem Inv.request (hp : s.caller p = none) (hl : s.lock b = some p) (hx : x.synced = false) :
    ∃ t, Inv t done (q ++ [b]) ∧ t.caller = update s.caller p (some b) ∧ iderw s p b x =
      if x.dev ≠ 0 ∧ ¬ s.havedisk1 ∨ q = [] ∧ ¬ x.blockno < FSSIZE then none else some t := by
  have hb := h.not_mem hp hl
  have hnd : (q ++ [b]).Nodup := by
    simpa using h.nodup.concat hb
  obtain ⟨i, f, happ, hchain⟩ := append_eq (s := { s with buf := update s.buf b x }) h.chain hnd
  refine ⟨{ s with
    idequeue := i, qnext := f, buf := update s.buf b x, caller := update s.caller p (some b)
    started := s.started ++ if q = [] then [b] else [] }, ⟨hchain, hnd, ?_, h.raised, ?_, ?_⟩,
    rfl, ?_⟩
  · cases q <;> simp [h.started]
  · intro c hc
    rcases mem_append.mp hc with hc | hc
    · obtain ⟨hsync, p', hp'⟩ := h.waiting c hc
      have hcb : c ≠ b := fun hcb => hb (hcb ▸ hc)
      have hpp : p' ≠ p := by
        rintro rfl
        rw [hp] at hp'
        cases hp'
      exact ⟨by simpa [update_of_ne hcb], p', by simpa [update_of_ne hpp]⟩
    · rw [mem_singleton] at hc
      subst hc
      exact ⟨by simpa, p, by simp⟩
  · intro p' c hc
    by_cases hpp : p' = p
    · subst hpp
      obtain rfl : b = c := by simpa using hc
      exact ⟨hl, .inl (mem_append_right _ (mem_singleton_self b))⟩
    · simp only [update_of_ne hpp] at hc
      have hcb : c ≠ b := fun hcb => h.caller_ne hp hl p' (hcb ▸ hc)
      obtain ⟨hlock, hmem⟩ := h.caller p' c hc
      refine ⟨hlock, hmem.imp (mem_append_left _) fun hsync => ?_⟩
      simpa [update_of_ne hcb]
  · have hhead : i = some b ↔ q = [] := by
      cases q with
      | nil => simpa using hchain.1
      | cons c q =>
        have hcb : c ≠ b := fun hcb => hb (hcb ▸ mem_cons_self)
        simp [hchain.1, hcb]
    by_cases hdev : x.dev ≠ 0 ∧ ¬ s.havedisk1
    · simp [iderw, hl, hx, hdev]
    · by_cases hq : q = [] <;> by_cases hno : x.blockno < FSSIZE <;>
        simp [iderw, hl, hx, happ, hhead, hq, hno, idestart, await]

/-- A process that is woken returns only with its buffer done. -/
theorem Inv.await (hp : s.caller p = some b) : Inv (await s p b) done q := by
  by_cases hsync : (s.buf b).synced
  · refine ⟨h.chain, h.nodup, h.started, h.raised, fun c hc => ?_, fun p' c hc => ?_⟩
    · obtain ⟨hc', p', hp'⟩ := h.waiting c hc
      refine ⟨hc', p', ?_⟩
      have hpp : p' ≠ p := by
        rintro rfl
        obtain rfl : b = c := by simpa [hp] using hp'
        rw [hsync] at hc'
        cases hc'
      simpa [Ide.await, update_of_ne hpp]
    · by_cases hpp : p' = p
      · subst hpp
        simp [Ide.await, hsync] at hc
      · exact h.caller p' c (by simpa [Ide.await, update_of_ne hpp] using hc)
  · have hsame : Ide.await s p b = s := by
      simp [Ide.await, hsync, ← hp]
    rwa [hsame]

end Inv

/-- The interrupt finishes the head of the queue and starts the next request. -/
theorem Inv.interrupt (h : Inv s done (b :: q)) :
    ∃ t, Inv t (done ++ [b]) q ∧ t.caller = s.caller ∧
      (∀ c, (t.buf c).blockno = (s.buf c).blockno) ∧
      ideintr { s with raised := s.raised + 1 } =
        if ∀ c ∈ q.take 1, (s.buf c).blockno < FSSIZE then some t else none := by
  obtain ⟨hhead, hrest⟩ := h.chain
  obtain ⟨hb, hnd⟩ := nodup_cons.mp h.nodup
  refine ⟨{ s with
    idequeue := s.qnext b
    buf := update s.buf b { s.buf b with valid := true, dirty := false }
    started := s.started ++ q.take 1, raised := s.raised + 1 },
    ⟨hrest, hnd, ?_, ?_, ?_, ?_⟩, rfl, ?_, ?_⟩
  · simp [h.started]
  · simp [h.raised]
  · intro c hc
    have hcb : c ≠ b := fun hcb => hb (hcb ▸ hc)
    simpa [update_of_ne hcb] using h.waiting c (mem_cons_of_mem b hc)
  · intro p c hc
    obtain ⟨hlock, hmem⟩ := h.caller p c hc
    refine ⟨hlock, ?_⟩
    by_cases hcb : c = b
    · subst hcb
      exact .inr (by simp [Buf.synced])
    · simpa [update_of_ne hcb, hcb] using hmem
  · intro c
    by_cases hcb : c = b
    · subst hcb
      simp
    · simp [update_of_ne hcb]
  · cases q with
    | nil =>
      have hend : s.qnext b = none := hrest
      simp [ideintr, hhead, hend]
    | cons c q =>
      have hcb : c ≠ b := fun hcb => hb (hcb ▸ mem_cons_self)
      simp [ideintr, hhead, hrest.1, idestart, update_of_ne hcb]

/-- The buffers for which `iderw` was called. -/
def Event.request : Event n P → List (Fin n)
  | .iderw _ b _ => [b]
  | _ => []

variable [DecidableEq P] {e : Event n P} {es : List (Event n P)}

/-- **What a step does**: a request goes to the end of the queue, an interrupt takes its head, and
a process stays in `iderw` unless its buffer is done. -/
theorem Inv.step (h : Inv s done q) (hs : step s e = some t) :
    ∃ done' q', Inv t done' q' ∧ done' ++ q' = done ++ q ++ e.request ∧
      (∀ p b x, e = .iderw p b x → t.caller p = some b) ∧
      ∀ p b, s.caller p = some b → t.caller p = some b ∨ (s.buf b).synced := by
  cases e with
  | acquiresleep p b =>
    obtain ⟨⟨-, hfree⟩, rfl⟩ : (s.caller p = none ∧ s.lock b = none) ∧ _ = t := by
      simpa [Ide.step] using hs
    refine ⟨done, q, { h with caller := fun p' c hc => ?_ }, by simp [Event.request],
      by rintro _ _ _ ⟨⟩, fun _ _ => .inl⟩
    have hcb : c ≠ b := by
      rintro rfl
      simp [(h.caller p' c hc).1] at hfree
    simpa [update_of_ne hcb] using h.caller p' c hc
  | releasesleep p b =>
    obtain ⟨⟨hp, hl⟩, rfl⟩ : (s.caller p = none ∧ s.lock b = some p) ∧ _ = t := by
      simpa [Ide.step] using hs
    refine ⟨done, q, { h with caller := fun p' c hc => ?_ }, by simp [Event.request],
      by rintro _ _ _ ⟨⟩, fun _ _ => .inl⟩
    have hcb : c ≠ b := fun hcb => h.caller_ne hp hl p' (hcb ▸ hc)
    simpa [update_of_ne hcb] using h.caller p' c hc
  | iderw p b x =>
    have hp : s.caller p = none := by
      by_contra hp
      simp [Ide.step, hp] at hs
    have hl : s.lock b = some p := by
      by_contra hl
      simp [Ide.step, iderw, hl] at hs
    have hx : x.synced = false := by
      by_contra hx
      simp [Ide.step, iderw, hx] at hs
    obtain ⟨u, hu, hcaller, heq⟩ := h.request hp hl hx
    simp only [Ide.step, hp, if_true, heq, Option.ite_none_left_eq_some, Option.some.injEq] at hs
    obtain ⟨-, rfl⟩ := hs
    refine ⟨done, q ++ [b], hu, by simp [Event.request], ?_, fun p' c hc => .inl ?_⟩
    · rintro _ _ _ ⟨⟩
      rw [hcaller, update_self]
    · have hpp : p' ≠ p := by
        rintro rfl
        rw [hp] at hc
        cases hc
      rwa [hcaller, update_of_ne hpp]
  | woken p =>
    obtain ⟨b, hp, rfl⟩ := Option.map_eq_some_iff.mp hs
    refine ⟨done, q, h.await hp, by simp [Event.request], by rintro _ _ _ ⟨⟩, fun p' c hc => ?_⟩
    by_cases hpp : p' = p
    · subst hpp
      obtain rfl : b = c := by simpa [hp] using hc
      cases hsync : (s.buf b).synced <;> simp [Ide.await, hsync]
    · exact .inl (by simpa [Ide.await, update_of_ne hpp])
  | ideintr =>
    cases q with
    | nil => simp [Ide.step, h.started, h.raised] at hs
    | cons b q =>
      obtain ⟨u, hu, hcaller, -, heq⟩ := h.interrupt
      have hlt : s.raised < s.started.length := by simp [h.started, h.raised]
      simp only [Ide.step, hlt, if_true, heq, Option.ite_none_right_eq_some,
        Option.some.injEq] at hs
      obtain ⟨-, rfl⟩ := hs
      refine ⟨done ++ [b], q, hu, by simp [Event.request], by rintro _ _ _ ⟨⟩, fun p c hc => .inl ?_⟩
      rwa [hcaller]

theorem Inv.run (h : Inv s done q) (hr : Transition.run Ide.step s es = some t) :
    ∃ done' q', Inv t done' q' ∧ done' ++ q' = done ++ q ++ es.flatMap Event.request := by
  induction es generalizing s done q with
  | nil =>
    cases hr
    exact ⟨done, q, h, by simp⟩
  | cons e es ih =>
    obtain ⟨u, hu, hr⟩ := run_cons_iff.mp hr
    obtain ⟨done₁, q₁, h₁, heq₁, -⟩ := h.step hu
    obtain ⟨done₂, q₂, h₂, heq₂⟩ := ih h₁ hr
    exact ⟨done₂, q₂, h₂, by simp [heq₂, heq₁]⟩

/-- As many interrupts as there are requests on the queue finish them all. -/
theorem Inv.drain (h : Inv s done q) (hno : ∀ c ∈ q, (s.buf c).blockno < FSSIZE) :
    ∃ t, Transition.run Ide.step s (.replicate q.length .ideintr) = some t ∧
      Inv t (done ++ q) [] := by
  induction q generalizing s done with
  | nil => exact ⟨s, rfl, by simpa using h⟩
  | cons b q ih =>
    obtain ⟨u, hu, -, hsame, heq⟩ := h.interrupt
    have hlt : s.raised < s.started.length := by simp [h.started, h.raised]
    have hnext : ∀ c ∈ q.take 1, (s.buf c).blockno < FSSIZE := fun c hc =>
      hno c (mem_cons_of_mem b (mem_of_mem_take hc))
    have hstep : Ide.step s .ideintr = some u := by
      simp only [Ide.step, hlt, if_true, heq, if_pos hnext]
    obtain ⟨t, ht, hinv⟩ := ih hu fun c hc => by
      rw [hsame]
      exact hno c (mem_cons_of_mem b hc)
    refine ⟨t, run_cons_iff.mpr ⟨u, hstep, ht⟩, by simpa using hinv⟩

/-- **Disk requests complete once and in order.** In every run the requests made are those whose
commands have finished and then the queue, which has no buffer twice; the commands given to the
controller are those that have finished and that of the head of the queue. A call of `iderw` waits,
and returns only with its buffer valid, clean and off the queue, its commands finished. The queue
takes every request that does not end in a panic, and is emptied by an interrupt for each. -/
theorem disk_requests_complete_in_order {havedisk1 : Bool}
    (hr : Transition.run step (start n P havedisk1) es = some s) :
    ∃ q, Chain s.qnext s.idequeue q ∧ q.Nodup ∧
      es.flatMap Event.request = s.started.take s.raised ++ q ∧
      s.started = s.started.take s.raised ++ q.take 1 ∧
      s.raised ≤ s.started.length ∧ s.started.length ≤ s.raised + 1 ∧
      (∀ p b x t, step s (.iderw p b x) = some t → t.caller p = some b) ∧
      (∀ e t p b, step s e = some t → s.caller p = some b → t.caller p ≠ some b →
        (s.buf b).valid ∧ ¬ (s.buf b).dirty ∧ b ∉ q) ∧
      (∀ p b x, s.caller p = none → s.lock b = some p → ¬ x.synced → x.dev = 0 ∨ s.havedisk1 →
        x.blockno < FSSIZE → ∃ t, step s (.iderw p b x) = some t) ∧
      ((∀ c ∈ q, (s.buf c).blockno < FSSIZE) →
        ∃ t, Transition.run step s (.replicate q.length .ideintr) = some t ∧
          t.idequeue = none ∧ t.started = es.flatMap Event.request) := by
  obtain ⟨done, q, h, heq⟩ := inv_start.run hr
  have hdone : s.started.take s.raised = done := by
    simp [h.started, h.raised]
  have hlen : (q.take 1).length ≤ 1 := by simp
  refine ⟨q, h.chain, h.nodup, by simpa [hdone] using heq.symm, by rw [hdone]; exact h.started, ?_,
    ?_, fun p b x t ht => ?_, fun e t p b ht hp hret => ?_, fun p b x hp hl hx hdev hno => ?_,
    fun hno => ?_⟩
  · simp [h.started, h.raised]
  · rw [h.started, h.raised, length_append]
    omega
  · obtain ⟨_, _, -, -, hcall, -⟩ := h.step ht
    exact hcall p b x rfl
  · obtain ⟨_, _, -, -, -, hstay⟩ := h.step ht
    have hsync : (s.buf b).synced := (hstay p b hp).resolve_left hret
    obtain ⟨hvalid, hclean⟩ : (s.buf b).valid ∧ ¬ (s.buf b).dirty := by
      simpa [Buf.synced] using hsync
    refine ⟨hvalid, hclean, fun hb => ?_⟩
    rw [(h.waiting b hb).1] at hsync
    cases hsync
  · obtain ⟨t, -, -, ht⟩ := h.request hp hl (Bool.eq_false_iff.mpr hx)
    refine ⟨t, ?_⟩
    rw [Ide.step, if_pos hp, ht, if_neg]
    rintro (⟨hd, hh⟩ | ⟨-, hn⟩)
    · exact hdev.elim hd hh
    · exact hn hno
  · obtain ⟨t, ht, hinv⟩ := h.drain hno
    exact ⟨t, ht, hinv.chain, by simpa [heq] using hinv.started⟩

theorem two_requests_complete : ∃ (es : List (Event 2 Bool)) (s : Disk 2 Bool),
    Transition.run step (start 2 Bool false) es = some s ∧ s.started = [0, 1] ∧
      s.caller false = none ∧ ∃ q, Chain s.qnext s.idequeue q ∧
        es.flatMap Event.request = s.started.take s.raised ++ q := by
  obtain ⟨es, s, hr, hstarted, hret⟩ : ∃ (es : List (Event 2 Bool)) (s : Disk 2 Bool),
      Transition.run step (start 2 Bool false) es = some s ∧ s.started = [0, 1] ∧
        s.caller false = none :=
    ⟨[.acquiresleep false 0, .acquiresleep true 1, .iderw false 0 ⟨0, 5, false, false⟩,
      .iderw true 1 ⟨0, 7, true, true⟩, .woken true, .ideintr, .woken false, .ideintr],
      _, rfl, rfl, rfl⟩
  obtain ⟨q, hq, -, heq, -⟩ := disk_requests_complete_in_order hr
  exact ⟨es, s, hr, hstarted, hret, q, hq, heq⟩

end Xv6.Ide
