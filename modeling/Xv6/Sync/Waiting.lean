import Xv6.Common.Bytes
import Xv6.Log.Machine
import Xv6.Sync.Sleep

/-!
# The other places where the kernel sleeps

`begin_op` waits for room in the log, `acquiresleep` for a sleep lock and `consoleread` for a line of
input. Each is a monitor here, with the calls that change what is waited for.
-/

namespace Xv6.Sync

open Bytes (Byte)
open Log (MAXOPBLOCKS LOGSIZE)

/-! ## The log -/

/-- `struct log`; `lh` are the blocks of the log header. -/
structure Log where
  size : Int
  outstanding : Int
  committing : Bool
  lh : List Nat

namespace Log

inductive Call where
  | begin_op
  | end_op
  | log_write (blockno : Nat)

inductive Op where
  | call (x : Call)
  | beginning
  | ending
  | elected
  | commit
  | committed
  | finishing
  | waking
  | logging (blockno : Nat)
  | leaving
  | ended

/-- This operation might exhaust the log space. -/
def exhausted (l : Log) : Bool := l.lh.length + (l.outstanding + 1) * MAXOPBLOCKS > LOGSIZE

def act (_killed : Bool) (l : Log) : Op → Act Chan Log Op
  | .call .begin_op => .acquire .beginning
  | .call .end_op => .acquire .ending
  | .call (.log_write blockno) =>
    if l.lh.length ≥ LOGSIZE || l.lh.length ≥ l.size - 1 then .panic
    else if l.outstanding < 1 then .panic
    else .acquire (.logging blockno)
  | .beginning =>
    if l.committing then .sleep .log .beginning
    else if l.exhausted then .sleep .log .beginning
    else .set { l with outstanding := l.outstanding + 1 } .leaving
  | .ending =>
    if l.committing then .panic
    else if l.outstanding - 1 = 0 then
      .set { l with outstanding := l.outstanding - 1, committing := true } .elected
    else .set { l with outstanding := l.outstanding - 1 } .waking
  | .elected => .release .commit
  -- `commit` copies the blocks without the lock, and sleeps for their buffers
  | .commit => .write (if l.lh.length > 0 then { l with lh := [] } else l) .committed
  | .committed => .acquire .finishing
  | .finishing => .set { l with committing := false } .waking
  | .waking => .wakeup .log .leaving
  | .logging blockno =>
    .set (if blockno ∈ l.lh then l else { l with lh := l.lh ++ [blockno] }) .leaving
  | .leaving => .release .ended
  | .ended => .ret 0

@[reducible] def monitor : Monitor Chan where
  Data := Log
  Op := Op
  Call := Call
  start := .call
  next := act

/-- From the last `end_op` of a transaction until the log is free again. -/
def Op.commits : Op → Bool
  | .elected | .commit | .committed | .finishing => true
  | _ => false

def rules : Rules monitor where
  fits _ l o := Op.commits o → l.committing
  compat o w := ¬ (Op.commits o ∧ Op.commits w)
  inside _ := False
  cond _ l := l.committing ∨ l.exhausted
  waits c o := c = .log ∧ o = .beginning
  owes
    | .waking, c => c = .log
    | _, _ => False

section Sound

variable {k : Bool} {l l' : Log} {o o' : Op}

/-- A call that commits was committing already or starts it while nobody else does; and only a call
that commits ends it. -/
theorem act_commits (h : (act k l o).after l = some (l', o')) :
    (o'.commits → o.commits ∧ (l.committing → l'.committing) ∨
      l.committing = false ∧ l'.committing) ∧
    (l.committing → l'.committing ∨ o.commits) := by
  cases o with
  | call x =>
    cases x with
    | begin_op | end_op =>
      cases h
      simp [Op.commits]
    | log_write b =>
      simp only [act] at h
      split at h
      · cases h
      · split at h <;> cases h
        simp [Op.commits]
  | beginning =>
    simp only [act] at h
    split at h
    · cases h
      simp [Op.commits]
    · split at h <;> (cases h; simp [Op.commits])
  | ending =>
    simp only [act] at h
    split at h
    · cases h
    case isFalse hfree =>
      split at h <;> (cases h; simp [Op.commits, hfree])
  | commit =>
    cases h
    split <;> simp [Op.commits]
  | logging b =>
    cases h
    split <;> simp [Op.commits]
  | ended => cases h
  | elected | committed | finishing | waking | leaving =>
    cases h
    simp [Op.commits]

theorem exhausted_mono (hlh : l.lh.length ≤ l'.lh.length)
    (hout : l.outstanding ≤ l'.outstanding) (h : l.exhausted) : l'.exhausted := by
  simp only [exhausted, decide_eq_true_eq] at h ⊢
  simp only [MAXOPBLOCKS, LOGSIZE] at h ⊢
  omega

theorem cond_mono {c : Chan} (hlh : l.lh.length ≤ l'.lh.length)
    (hout : l.outstanding ≤ l'.outstanding) (hcommit : l'.committing = l.committing)
    (h : rules.cond c l) : rules.cond c l' :=
  h.imp (fun hc => hcommit ▸ hc) (exhausted_mono hlh hout)

theorem act_cond {c : Chan} (h : (act k l o).after l = some (l', o'))
    (hfits : rules.fits k l o) (hc : c = .log) (hcov : rules.cond c l ∨ rules.owes o c) :
    rules.cond c l' ∨ rules.Owes (act k l o) c := by
  cases o with
  | call x =>
    cases x with
    | begin_op | end_op =>
      cases h
      exact hcov
    | log_write b =>
      have hcond := hcov.resolve_right id
      simp only [act] at h
      split at h
      · cases h
      · split at h <;> cases h
        exact .inl hcond
  | beginning =>
    have hcond := hcov.resolve_right id
    simp only [act] at h
    split at h
    · cases h
      exact .inl hcond
    · split at h <;> cases h
      · exact .inl hcond
      · exact .inl (cond_mono (l := l) (le_refl _) (by simp) rfl hcond)
  | ending =>
    simp only [act] at h ⊢
    split at h
    · cases h
    case isFalse hfree =>
      split at h
      · cases h
        exact .inl (.inl rfl)
      case isFalse hlast =>
        rw [if_neg hfree, if_neg hlast]
        exact .inr hc
  | commit =>
    cases h
    have hcommit : l.committing = true := hfits rfl
    refine .inl (.inl ?_)
    split <;> exact hcommit
  | finishing => exact .inr hc
  | waking => exact .inr (.inl hc.symm)
  | logging b =>
    have hcond := hcov.resolve_right id
    cases h
    refine .inl ?_
    split
    · exact hcond
    · exact cond_mono (l := l) (by simp) (le_refl _) rfl hcond
  | ended => cases h
  | elected | committed | leaving =>
    cases h
    exact hcov

theorem rules_sound : rules.Sound where
  symm h := fun hc => h hc.symm
  start _ := id
  outside _ := id
  fits {k _ _ _ _} h hfits := by
    intro ho'
    rcases (act_commits (k := k) h).1 ho' with ⟨ho, hkeep⟩ | ⟨-, hnow⟩
    · exact hkeep (hfits ho)
    · exact hnow
  compat {k _ _ _ _ _ _} h _ hw hcompat := by
    rintro ⟨ho', hw'⟩
    rcases (act_commits (k := k) h).1 ho' with ⟨ho, -⟩ | ⟨hfree, -⟩
    · exact hcompat ⟨ho, hw'⟩
    · rw [hw hw'] at hfree
      cases hfree
  others {k _ _ _ _ _ _} h _ hw hcompat _ := by
    intro hw'
    exact ((act_commits (k := k) h).2 (hw hw')).resolve_right fun ho => hcompat ⟨ho, hw'⟩
  sleep {k l o c w} h _ := by
    cases o with
    | call x =>
      cases x with
      | begin_op | end_op => cases h
      | log_write b =>
        simp only [monitor, act] at h
        split at h
        · cases h
        · split at h <;> cases h
    | beginning =>
      simp only [monitor, act] at h
      split at h
      case isTrue hcommit =>
        cases h
        exact ⟨⟨rfl, rfl⟩, .inl hcommit⟩
      · split at h <;> cases h
        exact ⟨⟨rfl, rfl⟩, .inr ‹_›⟩
    | ending =>
      simp only [monitor, act] at h
      split at h
      · cases h
      · split at h <;> cases h
    | elected | commit | committed | finishing | waking | logging | leaving | ended => cases h
  cond h hfits _ _ hwaits hcov := act_cond h hfits hwaits.1 hcov

end Sound

end Log

/-! ## Sleep locks -/

structure SleepLock where
  locked : Bool
  pid : Nat

namespace SleepLock

inductive Call where
  | acquiresleep (pid : Nat)
  | releasesleep
  | holdingsleep

inductive Op where
  | call (x : Call)
  | acquiring (pid : Nat)
  | freeing
  | waking
  | testing
  | leaving
  | ended (r : Int)

def act (j : Nat) (_killed : Bool) (lk : SleepLock) : Op → Act Chan SleepLock Op
  | .call (.acquiresleep pid) => .acquire (.acquiring pid)
  | .call .releasesleep => .acquire .freeing
  | .call .holdingsleep => .acquire .testing
  | .acquiring pid =>
    if lk.locked then .sleep (.sleeplock j) (.acquiring pid) else .set ⟨true, pid⟩ .leaving
  | .freeing => .set ⟨false, 0⟩ .waking
  | .waking => .wakeup (.sleeplock j) .leaving
  | .testing => .release (.ended lk.locked.toNat)
  | .leaving => .release (.ended 0)
  | .ended r => .ret r

@[reducible] def monitor (j : Nat) : Monitor Chan where
  Data := SleepLock
  Op := Op
  Call := Call
  start := .call
  next := act j

def rules (j : Nat) : Rules (monitor j) where
  fits _ _ _ := True
  compat _ _ := True
  inside _ := False
  cond _ lk := lk.locked
  waits c _ := c = .sleeplock j
  owes
    | .waking, c => c = .sleeplock j
    | _, _ => False

theorem rules_sound (j : Nat) : (rules j).Sound where
  symm _ := trivial
  start _ := id
  outside _ := id
  fits _ _ := trivial
  compat _ _ _ _ := trivial
  others _ _ _ _ _ := trivial
  sleep {k lk o c w} h _ := by
    cases o with
    | call x => cases x <;> cases h
    | acquiring pid =>
      simp only [monitor, act] at h
      split at h <;> cases h
      exact ⟨rfl, ‹_›⟩
    | freeing | waking | testing | leaving | ended => cases h
  cond {k lk o lk' o' _ w c} h _ _ _ hwaits hcov := by
    cases o with
    | call x => cases x <;> (cases h; exact hcov)
    | acquiring pid =>
      simp only [monitor, act] at h
      split at h <;> cases h
      · exact .inl (hcov.resolve_right id)
      · exact .inl rfl
    | freeing => exact .inr hwaits
    | waking => exact .inr (.inl (Eq.symm hwaits))
    | ended => cases h
    | testing | leaving =>
      cases h
      exact hcov

end SleepLock

/-! ## The console's input -/

def INPUT_BUF : Nat := 128

/-- `input`: what is typed goes to `e`, can be edited down to `w` and is read at `r`. -/
structure Input where
  buf : Nat → Byte
  r : Nat
  w : Nat
  e : Nat

namespace Input

/-- The indices are `uint`. -/
abbrev UINT : Nat := 2 ^ 32

/-- `C('D')`, the end of file. -/
def ctrlD : Nat := 4

def newline : Nat := 10

inductive Call where
  | consoleread (n : Int)
  | consoleintr (typed : List Nat)

inductive Op where
  | call (x : Call)
  | reading (target n : Int) (dst : List Byte)
  | typing (typed : List Nat)
  | waking (typed : List Nat)
  | leaving (r : Int) (dst : List Byte)
  | ended (r : Int)

/-- One character back. -/
def back (e : Nat) : Nat := (e + UINT - 1) % UINT

/-- The edit index after erasing back to `w` or to a newline, at most `fuel` characters. -/
def killLine (buf : Nat → Byte) (w : Nat) : Nat → Nat → Nat
  | 0, e => e
  | fuel + 1, e =>
    if e ≠ w ∧ buf (back e % INPUT_BUF) ≠ BitVec.ofNat 8 newline then killLine buf w fuel (back e)
    else e

/-- The character at `r`, and what `consoleread` does with it. -/
def readChar (p : Input) (target n : Int) (dst : List Byte) : Act Chan Input Op :=
  let c := p.buf (p.r % INPUT_BUF)
  let p' := { p with r := (p.r + 1) % UINT }
  if c = BitVec.ofNat 8 ctrlD then .set (if n < target then p else p') (.leaving (target - n) dst)
  else if c = BitVec.ofNat 8 newline then .set p' (.leaving (target - (n - 1)) (dst ++ [c]))
  else .set p' (.reading target (n - 1) (dst ++ [c]))

/-- Store a character, and give the line to readers if it is whole. -/
def store (p : Input) (c : Nat) (typed : List Nat) : Act Chan Input Op :=
  let p' := { p with
    buf := Function.update p.buf (p.e % INPUT_BUF) (BitVec.ofNat 8 c)
    e := (p.e + 1) % UINT }
  if c = newline ∨ c = ctrlD ∨ p'.e = (p.r + INPUT_BUF) % UINT then
    .set { p' with w := p'.e } (.waking typed)
  else .set p' (.typing typed)

/-- A character that is not an editing key. -/
def typeChar (p : Input) (c : Nat) (typed : List Nat) : Act Chan Input Op :=
  if c ≠ 0 ∧ (p.e + UINT - p.r) % UINT < INPUT_BUF then
    p.store (if c = 13 then newline else c) typed
  else .set p (.typing typed)

def act (killed : Bool) (p : Input) : Op → Act Chan Input Op
  | .call (.consoleread n) => .acquire (.reading n n [])
  | .call (.consoleintr typed) => .acquire (.typing typed)
  | .reading target n dst =>
    if n > 0 then
      if p.r = p.w then
        if killed then .release (.ended (-1)) else .sleep .input (.reading target n dst)
      else p.readChar target n dst
    else .release (.ended (target - n))
  | .typing [] => .release (.ended 0)
  | .typing (c :: typed) =>
    -- `C('Z')`, `C('P')` and `C('C')` leave the input alone
    if c = 26 ∨ c = 16 ∨ c = 3 then .set p (.typing typed)
    else if c = 21 then
      .set { p with e := killLine p.buf p.w ((p.e + UINT - p.w) % UINT) p.e } (.typing typed)
    else if c = 8 ∨ c = 127 then
      .set { p with e := if p.e ≠ p.w then back p.e else p.e } (.typing typed)
    else p.typeChar c typed
  | .waking typed => .wakeup .input (.typing typed)
  | .leaving r _ => .release (.ended r)
  | .ended r => .ret r

@[reducible] def monitor : Monitor Chan where
  Data := Input
  Op := Op
  Call := Call
  start := .call
  next := act

def rules : Rules monitor where
  fits _ _ _ := True
  compat _ _ := True
  inside _ := False
  cond _ p := p.r = p.w
  waits c _ := c = .input
  owes
    | .waking _, c => c = .input
    | _, _ => False

section Sound

variable {k : Bool} {p p' : Input} {o o' : Op} {c : Chan} {typed : List Nat} {t : Nat}

theorem store_cond (h : (p.store t typed).after p = some (p', o')) (hc : c = .input)
    (hcond : p.r = p.w) : p'.r = p'.w ∨ rules.Owes (p.store t typed) c := by
  simp only [store] at h ⊢
  split at h
  case isTrue hline =>
    rw [if_pos hline]
    exact .inr hc
  case isFalse =>
    cases h
    exact .inl hcond

theorem typeChar_cond (h : (p.typeChar t typed).after p = some (p', o')) (hc : c = .input)
    (hcond : p.r = p.w) : p'.r = p'.w ∨ rules.Owes (p.typeChar t typed) c := by
  rw [typeChar] at h ⊢
  split at h
  case isTrue hroom =>
    rw [if_pos hroom]
    exact store_cond h hc hcond
  case isFalse =>
    cases h
    exact .inl hcond

theorem readChar_ne_sleep {target n : Int} {dst : List Byte} {w : Op} :
    p.readChar target n dst ≠ .sleep c w := by
  intro h
  simp only [readChar] at h
  split at h
  · cases h
  · split at h <;> cases h

theorem store_ne_sleep {w : Op} : p.store t typed ≠ .sleep c w := by
  intro h
  simp only [store] at h
  split at h <;> cases h

theorem typeChar_ne_sleep {w : Op} : p.typeChar t typed ≠ .sleep c w := by
  intro h
  rw [typeChar] at h
  split at h
  · exact store_ne_sleep h
  · cases h

theorem rules_sound : rules.Sound where
  symm _ := trivial
  start _ := id
  outside _ := id
  fits _ _ := trivial
  compat _ _ _ _ := trivial
  others _ _ _ _ _ := trivial
  sleep {k p o c w} h _ := by
    cases o with
    | call x => cases x <;> cases h
    | reading target n dst =>
      simp only [monitor, act] at h
      split at h
      · split at h
        case isTrue hempty =>
          split at h <;> cases h
          exact ⟨rfl, hempty⟩
        case isFalse => exact absurd h readChar_ne_sleep
      · cases h
    | typing typed =>
      cases typed with
      | nil => cases h
      | cons t typed =>
        simp only [monitor, act] at h
        split at h
        · cases h
        · split at h
          · cases h
          · split at h
            · cases h
            · exact absurd h typeChar_ne_sleep
    | waking | leaving | ended => cases h
  cond {k p o p' o' _ w c} h _ _ _ hwaits hcov := by
    cases o with
    | call x => cases x <;> (cases h; exact hcov)
    | reading target n dst =>
      have hcond : p.r = p.w := hcov.resolve_right id
      simp only [monitor, act, if_pos hcond] at h
      split at h
      · split at h <;> (cases h; exact .inl hcond)
      · cases h
        exact .inl hcond
    | typing typed =>
      have hcond : p.r = p.w := hcov.resolve_right id
      cases typed with
      | nil =>
        cases h
        exact .inl hcond
      | cons t typed =>
        simp only [monitor, act] at h ⊢
        split at h
        · cases h
          exact .inl hcond
        case isFalse hkey =>
          rw [if_neg hkey]
          split at h
          · cases h
            exact .inl hcond
          case isFalse hkill =>
            rw [if_neg hkill]
            split at h
            · cases h
              exact .inl hcond
            case isFalse hback =>
              rw [if_neg hback]
              exact typeChar_cond h hwaits hcond
    | waking typed => exact .inr (.inl (Eq.symm hwaits))
    | leaving =>
      cases h
      exact hcov
    | ended => cases h

end Sound

end Input

end Xv6.Sync
