import Xv6.Common.Bytes
import Xv6.Common.Ring
import Xv6.Sync.Sleep

/-!
# Pipes

The calls of pipe.c on one pipe, as a monitor. The loops over bytes run with the lock held and are
one action each, `fill` until the buffer is full and `drain` until it is empty.
-/

namespace Xv6.Sync

open Bytes (Byte)

def PIPESIZE : Nat := 512

structure Pipe where
  data : Nat → Byte
  nread : Nat
  nwrite : Nat
  readopen : Bool
  writeopen : Bool

namespace Pipe

/-- The counters are `uint`. -/
abbrev UINT : Nat := 2 ^ 32

def isEmpty (p : Pipe) : Bool := p.nread = p.nwrite

def isFull (p : Pipe) : Bool := p.nwrite = (p.nread + PIPESIZE) % UINT

def put (p : Pipe) (b : Byte) : Pipe :=
  { p with
    data := Function.update p.data (p.nwrite % PIPESIZE) b
    nwrite := (p.nwrite + 1) % UINT }

def next (p : Pipe) : Pipe := { p with nread := (p.nread + 1) % UINT }

/-- Store up to `m` bytes from `addr[i]` on; the index at which the loop stops. -/
def fill (addr : Nat → Byte) : Nat → Nat → Pipe → Nat × Pipe
  | 0, i, p => (i, p)
  | m + 1, i, p => if p.isFull then (i, p) else fill addr m (i + 1) (p.put (addr i))

/-- Copy up to `m` bytes out. -/
def drain : Nat → Pipe → List Byte × Pipe
  | 0, p => ([], p)
  | m + 1, p =>
    if p.isEmpty then ([], p)
    else ((p.data (p.nread % PIPESIZE)) :: (drain m p.next).1, (drain m p.next).2)

inductive Call where
  | pipewrite (addr : Nat → Byte) (n : Int)
  | piperead (n : Int)
  | pipeclose (writable : Bool)

inductive Op where
  | call (x : Call)
  | writing (addr : Nat → Byte) (n : Int) (i : Nat)
  | filled (addr : Nat → Byte) (n : Int) (i : Nat)
  | blocked (addr : Nat → Byte) (n : Int) (i : Nat)
  | reading (n : Int)
  | copied (bytes : List Byte)
  | closing (writable : Bool)
  | closed (writable : Bool)
  | leaving (r : Int)
  | ended (r : Int)

open Op

/-- The calls on the pipe `k`. -/
def act (k : Nat) (killed : Bool) (p : Pipe) : Op → Act Chan Pipe Op
  | .call (.pipewrite addr n) => .acquire (.writing addr n 0)
  | .call (.piperead n) => .acquire (.reading n)
  | .call (.pipeclose writable) => .acquire (.closing writable)
  | .writing addr n i =>
    .set (fill addr (n - i).toNat i p).2 (.filled addr n (fill addr (n - i).toNat i p).1)
  | .filled addr n i =>
    if i < n then
      if p.readopen = false || killed then .release (.ended (-1))
      else .wakeup (.nread k) (.blocked addr n i)
    else .wakeup (.nread k) (.leaving n)
  | .blocked addr n i => .sleep (.nwrite k) (.writing addr n i)
  | .reading n =>
    if p.isEmpty && p.writeopen then
      if killed then .release (.ended (-1)) else .sleep (.nread k) (.reading n)
    else .set (drain n.toNat p).2 (.copied (drain n.toNat p).1)
  | .copied bytes => .wakeup (.nwrite k) (.leaving bytes.length)
  | .closing writable =>
    .set (if writable then { p with writeopen := false } else { p with readopen := false })
      (.closed writable)
  | .closed writable => .wakeup (if writable then .nread k else .nwrite k) (.leaving 0)
  | .leaving r => .release (.ended r)
  | .ended r => .ret r

@[reducible] def monitor (k : Nat) : Monitor Chan where
  Data := Pipe
  Op := Op
  Call := Call
  start := .call
  next := act k

/-! ## The buffer as a queue -/

/-- The pipe holds the bytes `q`, the oldest first. -/
def Holds (p : Pipe) (q : List Byte) : Prop :=
  Ring.Holds PIPESIZE UINT p.data p.nread p.nwrite q

theorem PIPESIZE_dvd : PIPESIZE ∣ UINT := by decide

theorem PIPESIZE_lt : PIPESIZE < UINT := by decide

section Queue

variable {p : Pipe} {q : List Byte} {addr : Nat → Byte}

theorem Holds.isEmpty_iff (h : p.Holds q) : p.isEmpty = true ↔ q = [] := by
  rw [isEmpty, decide_eq_true_iff]
  exact Ring.Holds.empty_iff h PIPESIZE_lt

theorem Holds.isFull_iff (h : p.Holds q) : p.isFull = true ↔ q.length = PIPESIZE := by
  rw [isFull, decide_eq_true_iff]
  exact Ring.Holds.full_iff h PIPESIZE_lt

theorem Holds.put (h : p.Holds q) (hfull : p.isFull = false) (b : Byte) :
    (p.put b).Holds (q ++ [b]) := by
  have hne : q.length ≠ PIPESIZE := fun hlen => by simp [h.isFull_iff.mpr hlen] at hfull
  exact Ring.Holds.push PIPESIZE_dvd h (Nat.lt_of_le_of_ne h.length_le hne) b

/-- The bytes of a buffer from `i` to `i'`. -/
def slice (addr : Nat → Byte) (i i' : Nat) : List Byte := (List.range' i (i' - i)).map addr

/-- What is stored goes behind what the pipe holds, and the loop stops early only if it is full. -/
theorem Holds.fill (h : p.Holds q) (m i : Nat) :
    i ≤ (fill addr m i p).1 ∧
      (fill addr m i p).2.Holds (q ++ slice addr i (fill addr m i p).1) := by
  induction m generalizing p q i with
  | zero => exact ⟨le_refl i, by simpa [Pipe.fill, slice] using h⟩
  | succ m ih =>
    simp only [Pipe.fill]
    split
    case isTrue => exact ⟨le_refl i, by simpa [slice] using h⟩
    case isFalse hfull =>
      obtain ⟨hle, hholds⟩ := ih (h.put (Bool.eq_false_iff.mpr hfull) (addr i)) (i + 1)
      refine ⟨Nat.le_of_succ_le hle, ?_⟩
      convert hholds using 1
      have hlen : (Pipe.fill addr m (i + 1) (p.put (addr i))).1 - i
          = (Pipe.fill addr m (i + 1) (p.put (addr i))).1 - (i + 1) + 1 := by omega
      rw [List.append_assoc, slice, hlen, List.range'_succ]
      rfl

theorem fill_stops (m i : Nat) :
    (fill addr m i p).2.isFull = true ∨ (fill addr m i p).1 = i + m := by
  induction m generalizing p i with
  | zero => exact .inr rfl
  | succ m ih =>
    simp only [fill]
    split
    case isTrue hfull => exact .inl hfull
    case isFalse =>
      refine (ih (i + 1)).imp_right fun heq => ?_
      omega

theorem Holds.drain (h : p.Holds q) (m : Nat) :
    (drain m p).1 = q.take m ∧ (drain m p).2.Holds (q.drop m) := by
  induction m generalizing p q with
  | zero => exact ⟨by simp [Pipe.drain], by simpa [Pipe.drain] using h⟩
  | succ m ih =>
    simp only [Pipe.drain]
    split
    case isTrue hempty =>
      obtain rfl := h.isEmpty_iff.mp hempty
      exact ⟨rfl, h⟩
    case isFalse hempty =>
      cases q with
      | nil => exact absurd (h.isEmpty_iff.mpr rfl) hempty
      | cons b q =>
        obtain ⟨hb, hq⟩ := Ring.Holds.pop PIPESIZE_dvd h
        obtain ⟨htake, hdrop⟩ := ih (p := p.next) (q := q) hq
        exact ⟨by rw [hb, htake]; rfl, hdrop⟩

end Queue

/-! ## Sleeping and waking -/

/-- The end of the pipe, `true` for the write end, that a call uses while it may sleep. -/
def Op.uses : Op → Option Bool
  | .call (.pipewrite _ _) | .writing _ _ _ | .filled _ _ _ | .blocked _ _ _ => some true
  | .call (.piperead _) | .reading _ => some false
  | _ => none

/-- The end of the pipe that a call is about to close. -/
def Op.ends : Op → Option Bool
  | .call (.pipeclose writable) | .closing writable => some writable
  | _ => none

def isOpen (p : Pipe) (writable : Bool) : Bool := if writable then p.writeopen else p.readopen

/-- What a writer that has run into the full buffer has seen, and is so until it sleeps. -/
def Stands (p : Pipe) : Op → Prop
  | .filled _ n i => i < n → p.isFull
  | .blocked _ _ _ => p.isFull ∧ p.readopen
  | _ => True

def rules (k : Nat) : Rules (monitor k) where
  fits killed p o := (∀ b, uses o = some b → p.isOpen b ∧ killed = false) ∧ p.Stands o
  compat o w := (∀ b, ends o = some b → uses w ≠ some b) ∧
    ∀ b, ends w = some b → uses o ≠ some b
  inside
    | .filled _ _ _ | .blocked _ _ _ => True
    | _ => False
  cond c p := (c = .nread k → p.isEmpty ∧ p.writeopen) ∧ (c = .nwrite k → p.isFull ∧ p.readopen)
  waits c o := (c = .nread k ∧ uses o = some false) ∨ (c = .nwrite k ∧ uses o = some true)
  owes
    | .filled _ _ _, c | .closed true, c => c = .nread k
    | .copied _, c | .closed false, c => c = .nwrite k
    | _, _ => False

section Sound

variable {k : Nat} {killed : Bool} {p p' : Pipe} {o o' : Op} {addr : Nat → Byte}

theorem isOpen_fill (m i : Nat) (b : Bool) : (fill addr m i p).2.isOpen b = p.isOpen b := by
  induction m generalizing p i with
  | zero => rfl
  | succ m ih =>
    simp only [fill]
    split
    · rfl
    · rw [ih]
      rfl

theorem isOpen_drain (m : Nat) (b : Bool) : (drain m p).2.isOpen b = p.isOpen b := by
  induction m generalizing p with
  | zero => rfl
  | succ m ih =>
    simp only [drain]
    split
    · rfl
    · rw [ih]
      rfl

theorem fill_of_isFull (h : p.isFull) (m i : Nat) : fill addr m i p = (i, p) := by
  cases m <;> simp [fill, h]

/-- A call goes on using the end it uses, and never turns to closing one. -/
theorem act_after (h : (act k killed p o).after p = some (p', o')) :
    (∀ b, o'.uses = some b → o.uses = some b) ∧ (∀ b, o'.ends = some b → o.ends = some b) := by
  cases o with
  | call x =>
    cases x <;> (cases h; simp [uses, ends])
  | filled addr n i =>
    simp only [act] at h
    split at h
    · split at h <;> (cases h; simp [uses, ends])
    · cases h
      simp [uses, ends]
  | reading n =>
    simp only [act] at h
    split at h
    · split at h <;> (cases h; simp [uses, ends])
    · cases h
      simp [uses, ends]
  | ended r => cases h
  | writing | blocked | copied | closing | closed | leaving =>
    cases h
    simp [uses, ends]

theorem act_isOpen (h : (act k killed p o).after p = some (p', o')) {b : Bool}
    (hends : o.ends ≠ some b) : p'.isOpen b = p.isOpen b := by
  cases o with
  | call x => cases x <;> (cases h; rfl)
  | writing addr n i =>
    cases h
    exact isOpen_fill ..
  | filled addr n i =>
    simp only [act] at h
    split at h
    · split at h <;> (cases h; rfl)
    · cases h
      rfl
  | reading n =>
    simp only [act] at h
    split at h
    · split at h <;> (cases h; rfl)
    · cases h
      exact isOpen_drain ..
  | closing writable =>
    cases h
    cases writable <;> cases b <;> simp_all [ends, isOpen]
  | ended r => cases h
  | blocked | copied | closed | leaving =>
    cases h
    rfl

/-- What a writer sees when it stops. -/
theorem act_stands (h : (act k killed p o).after p = some (p', o')) (hs : p.Stands o) :
    p'.Stands o' := by
  cases o with
  | call x => cases x <;> (cases h; trivial)
  | writing addr n i =>
    cases h
    intro hlt
    refine (fill_stops _ i).resolve_right fun heq => ?_
    rw [heq] at hlt
    omega
  | filled addr n i =>
    simp only [act] at h
    split at h
    case isTrue hlt =>
      split at h
      · cases h
        trivial
      case isFalse hopen =>
        cases h
        exact ⟨hs hlt, by simp_all⟩
    · cases h
      trivial
  | reading n =>
    simp only [act] at h
    split at h
    · split at h <;> (cases h; trivial)
    · cases h
      trivial
  | ended r => cases h
  | blocked | copied | closing | closed | leaving =>
    cases h
    trivial

/-- No call on a pipe writes without the lock. -/
theorem act_ne_write : act k killed p o ≠ .write p' o' := by
  intro h
  cases o <;> simp only [act] at h
  case call x => cases x <;> cases h
  case filled addr n i =>
    split at h
    · split at h <;> cases h
    · cases h
  case reading n =>
    split at h
    · split at h <;> cases h
    · cases h
  all_goals cases h

theorem act_eq_of_not_isSet (h : (act k killed p o).after p = some (p', o'))
    (hset : (act k killed p o).isSet = false) : p' = p := by
  cases hact : act k killed p o with
  | write => exact absurd hact act_ne_write
  | set =>
    rw [hact] at hset
    cases hset
  | ret | panic =>
    rw [hact] at h
    cases h
  | acquire | wakeup | sleep | release =>
    rw [hact] at h
    cases h
    rfl

theorem act_outside (h : (act k killed p o).outside = some o') : ¬ (rules k).inside o' := by
  cases o with
  | call x => cases x <;> (cases h; exact id)
  | filled addr n i =>
    simp only [act] at h
    split at h
    · split at h <;> cases h
      exact id
    · cases h
  | reading n =>
    simp only [act] at h
    split at h
    · split at h <;> (cases h; exact id)
    · cases h
  | writing | copied | closing | closed | ended => cases h
  | blocked | leaving =>
    cases h
    exact id

theorem act_sleep {c : Chan} {w : Op} (h : act k killed p o = .sleep c w) (hs : p.Stands o) :
    (rules k).waits c w ∧ (rules k).cond c p := by
  cases o with
  | call x => cases x <;> cases h
  | filled addr n i =>
    simp only [act] at h
    split at h
    · split at h <;> cases h
    · cases h
  | blocked addr n i =>
    cases h
    exact ⟨.inr ⟨rfl, rfl⟩, by simp, fun _ => hs⟩
  | reading n =>
    simp only [act] at h
    split at h
    case isTrue hempty =>
      split at h <;> cases h
      exact ⟨.inl ⟨rfl, rfl⟩, fun _ => by simpa using hempty, by simp⟩
    case isFalse => cases h
  | writing | copied | closing | closed | leaving | ended => cases h

/-- Whoever ends what another waits for has still to wake it. -/
theorem act_cond {killed' : Bool} {c : Chan} {w : Op}
    (h : (act k killed p o).after p = some (p', o')) (hfits : (rules k).fits killed p o)
    (hw : (rules k).fits killed' p w) (hwaits : (rules k).waits c w)
    (hcov : (rules k).cond c p ∨ (rules k).owes o c) :
    (rules k).cond c p' ∨ (rules k).Owes (act k killed p o) c := by
  cases o with
  | call x => cases x <;> (cases h; exact hcov)
  | writing addr n i =>
    cases h
    rcases hwaits with ⟨rfl, -⟩ | ⟨rfl, -⟩
    · exact .inr rfl
    · -- a writer can only be waiting if there is no room for another
      have hcond := hcov.resolve_right id
      refine .inl ⟨by simp, fun _ => ?_⟩
      rw [fill_of_isFull (hcond.2 rfl).1]
      exact hcond.2 rfl
  | filled addr n i =>
    simp only [act] at h ⊢
    split at h
    · split at h
      case isTrue hlt hgone =>
        cases h
        rw [if_pos hlt, if_pos hgone]
        refine hcov.imp_right fun howes => ?_
        -- no wakeup: but the readers' end is open as one waits, and the writer is not killed
        obtain rfl : c = .nread k := howes
        have hkilled := (hfits.1 true rfl).2
        have hopen := (hw.1 false (hwaits.resolve_right (by simp)).2).1
        simp_all [isOpen]
      case isFalse hlt hgone =>
        cases h
        rw [if_pos hlt, if_neg hgone]
        exact hcov.imp_right fun howes => .inl (Eq.symm howes)
    case isFalse hlt =>
      cases h
      rw [if_neg hlt]
      exact hcov.imp_right fun howes => .inl (Eq.symm howes)
  | reading n =>
    have hcond := hcov.resolve_right id
    simp only [act] at h ⊢
    split at h
    case isTrue hempty =>
      split at h <;> (cases h; exact .inl hcond)
    case isFalse hempty =>
      cases h
      rw [if_neg hempty]
      rcases hwaits with ⟨rfl, -⟩ | ⟨rfl, -⟩
      · have := hcond.1 rfl
        simp_all
      · exact .inr rfl
  | copied bytes =>
    cases h
    exact hcov.imp_right fun howes => .inl (Eq.symm howes)
  | closing writable =>
    have hcond := hcov.resolve_right (by cases writable <;> exact id)
    cases h
    rcases hwaits with ⟨rfl, -⟩ | ⟨rfl, -⟩
    · cases writable
      · exact .inl ⟨fun _ => hcond.1 rfl, by simp⟩
      · exact .inr rfl
    · cases writable
      · exact .inr rfl
      · exact .inl ⟨by simp, fun _ => hcond.2 rfl⟩
  | closed writable =>
    cases h
    refine hcov.imp_right fun howes => .inl ?_
    cases writable <;> exact Eq.symm howes
  | ended r => cases h
  | blocked | leaving =>
    cases h
    exact hcov

theorem rules_sound (k : Nat) : (rules k).Sound where
  symm h := ⟨h.2, h.1⟩
  start _ := id
  outside h := act_outside h
  fits {killed p o p' o'} h hfits := by
    refine ⟨fun b hb => ?_, act_stands h hfits.2⟩
    have hb' := (act_after h).1 b hb
    have hends : ends o ≠ some b := by
      intro hends
      cases o with
      | call x => cases x <;> simp [uses, ends] at hb' hends
      | closing | writing | filled | blocked | reading | copied | closed | leaving | ended =>
        simp [uses, ends] at hb' hends
    rw [act_isOpen h hends]
    exact hfits.1 b hb'
  compat {killed p o p' o' killed' w} h _ _ hcompat :=
    ⟨fun b hb => hcompat.1 b ((act_after h).2 b hb),
      fun b hb hu => hcompat.2 b hb ((act_after h).1 b hu)⟩
  others {killed p o p' o' killed' w} h _ hw hcompat hin := by
    refine ⟨fun b hb => ?_, ?_⟩
    · rw [act_isOpen h fun hends => hcompat.1 b hends hb]
      exact hw.1 b hb
    · cases hset : (act k killed p o).isSet with
      | false => exact act_eq_of_not_isSet h hset ▸ hw.2
      | true =>
        have hout := hin hset
        cases w <;> first | trivial | exact absurd trivial hout
  sleep h hfits := act_sleep h hfits.2
  cond h hfits hw _ hwaits hcov := act_cond h hfits hw hwaits hcov

end Sound

end Pipe

end Xv6.Sync
