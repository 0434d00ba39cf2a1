import Mathlib.Data.Finset.Card
import Mathlib.Data.Fintype.Pi
import Xv6.Common.Redo
import Xv6.Common.Transition

/-!
# The file-system log

`begin_op`, `log_write` and `end_op` by any number of processes, the block writes of `commit()`, and
`recover_from_log`, one block write at a time.

`bread` gives the cached copy of a block if there is one and the disk's block otherwise. A cached
copy differs from the disk only where `log_write` has marked it dirty, and a dirty buffer stays in
the cache; so `buf`, what `bread` gives, is one function, equal to the disk after a reboot, and
`bwrite` stores to both. When all the buffers are dirty, `bread` of a log block panics.

`log_write` makes its tests before it takes `log.lock` and the rest under it, so it is two steps
(`logCheck`, `logWrite`). Waiting in `begin_op` is not being able to take the step.
-/

namespace Xv6.Log

open List
open Function (update update_apply)

/-- `MAXOPBLOCKS`. -/
def MAXOPBLOCKS : Nat := 10

/-- `LOGSIZE`. -/
def LOGSIZE : Nat := MAXOPBLOCKS * 3

/-- `NBUF`. -/
def NBUF : Nat := MAXOPBLOCKS * 3

abbrev BlockNo := BitVec 32

/-- A block of 512 bytes, as the words in which the log reads and writes its header. -/
abbrev Block := Fin 128 → BitVec 32

abbrev Disk := BlockNo → Block

/-- `log.start` and `log.size`. The header is one of the log's blocks. -/
structure Layout where
  start : BlockNo
  size : Nat
  size_pos : 0 < size

/-- The log that `mkfs` creates. -/
def Layout.mkfs : Layout := ⟨2, LOGSIZE, by decide⟩

namespace Layout

variable (L : Layout)

/-- A block of the log region. -/
def Region (b : BlockNo) : Prop := (b - L.start).toNat < L.size

instance : DecidablePred L.Region := fun _ => inferInstanceAs (Decidable (_ < _))

/-- A home block. -/
def Home (b : BlockNo) : Prop := ¬ L.Region b

instance : DecidablePred L.Home := fun _ => inferInstanceAs (Decidable (¬ _))

/-- The log block of the entry `tail`. -/
def slot (tail : Nat) : BlockNo := L.start + BitVec.ofNat 32 tail + 1

end Layout

/-! ## The header -/

/-- The block numbers a header block lists: `n` comes first, then `block[]`. -/
def headOf (x : Block) : List BlockNo :=
  (List.ofFn fun i : Fin 127 => x i.succ).take (x 0).toInt.toNat

/-- What `write_head` makes of a header block. -/
def setHead (x : Block) (lh : List BlockNo) : Block :=
  Fin.cases (BitVec.ofNat 32 lh.length) fun i : Fin 127 => lh[i.val]?.getD (x i.succ)

theorem headOf_setHead {x : Block} {l : List BlockNo} (h : l.length ≤ 127) :
    headOf (setHead x l) = l := by
  have hn : (setHead x l 0).toInt.toNat = l.length := by
    show (BitVec.ofNat 32 l.length).toInt.toNat = l.length
    rw [BitVec.toInt_eq_toNat_cond, BitVec.toNat_ofNat]
    split <;> omega
  have hlen : (headOf (setHead x l)).length = l.length := by
    rw [headOf, hn, length_take, length_ofFn]
    omega
  refine ext_getElem hlen fun i h₁ h₂ => ?_
  rw [getElem_of_eq (headOf.eq_1 _), getElem_take, List.getElem_ofFn]
  show l[i]?.getD _ = l[i]
  rw [List.getElem?_eq_getElem h₂, Option.getD_some]

/-! ## Disk, buffers and header in memory -/

/-- The disk, the buffers, and the first `n` entries of `log.lh.block`. -/
structure Core where
  disk : Disk
  buf : Disk
  lh : List BlockNo

namespace Core

variable (L : Layout)

def bwrite (c : Core) (b : BlockNo) (x : Block) : Core :=
  { c with disk := update c.disk b x, buf := update c.buf b x }

/-- One round of `write_log`. -/
def writeLog (c : Core) (tail : Nat) : Core := c.bwrite (L.slot tail) (c.buf (c.lh.getD tail 0))

/-- One round of `install_trans`. -/
def installTrans (c : Core) (tail : Nat) : Core :=
  c.bwrite (c.lh.getD tail 0) (c.buf (L.slot tail))

def writeHead (c : Core) : Core := c.bwrite L.start (setHead (c.buf L.start) c.lh)

def readHead (c : Core) : Core := { c with lh := headOf (c.buf L.start) }

end Core

/-- Where `commit` is: in `write_log`, in `install_trans`, or through with the disk. -/
inductive Stage where
  | writeLog (tail : Nat)
  | install (tail : Nat)
  | done
  deriving DecidableEq

/-- The next block write of `commit`. `recover_from_log` is the same from `install_trans` on. -/
def Stage.step (L : Layout) : Stage × Core → Stage × Core
  | (.writeLog tail, c) =>
    if tail < c.lh.length then (.writeLog (tail + 1), c.writeLog L tail)
    else (.install 0, c.writeHead L)
  | (.install tail, c) =>
    if tail < c.lh.length then (.install (tail + 1), c.installTrans L tail)
    else (.done, { c with lh := [] }.writeHead L)
  | (.done, c) => (.done, c)

/-! ## Recovery -/

/-- `recover_from_log` after its `read_head`; the buffers are those of a kernel that has just
started. -/
def reboot (L : Layout) (d : Disk) : Stage × Core :=
  (.install 0, ({ disk := d, buf := d, lh := [] } : Core).readHead L)

/-- The disk after the first `k` block writes of `recover_from_log`. -/
def attempt (L : Layout) (d : Disk) (k : Nat) : Disk := ((Stage.step L)^[k] (reboot L d)).2.disk

/-- `recover_from_log`: as many block writes as the header lists, and the one that clears it. -/
def recoverFromLog (L : Layout) (d : Disk) : Core :=
  ((Stage.step L)^[(headOf (d L.start)).length + 1] (reboot L d)).2

/-! ## The operations -/

/-- What a process is doing. -/
inductive Phase where
  | idle
  /-- Between `begin_op` and `end_op`. -/
  | op
  /-- In `log_write`, past its tests, with what is in the buffer. -/
  | writing (b : BlockNo) (data : Block)
  /-- In the `commit` of `end_op`. -/
  | commit (stage : Stage)
  deriving DecidableEq

/-- The process is counted in `log.outstanding`. -/
def Phase.Open : Phase → Prop
  | .op | .writing _ _ => True
  | _ => False

/-- The process is in `commit`. -/
def Phase.Commits : Phase → Prop
  | .commit _ => True
  | _ => False

instance : DecidablePred Phase.Commits
  | .commit _ => .isTrue trivial
  | .idle | .op | .writing _ _ => .isFalse id

inductive Event (P : Type) where
  | beginOp (p : P)
  /-- `log_write` of a buffer that now holds `data`, up to its tests. -/
  | logCheck (p : P) (b : BlockNo) (data : Block)
  /-- The part of `log_write` under `log.lock`. -/
  | logWrite (p : P)
  /-- `end_op` up to `commit`. -/
  | endOp (p : P)
  /-- The next block write of `commit`, or the end of `end_op` after it. -/
  | commit (p : P)

/-- `struct log`, disk and buffers, and the processes. -/
structure Fs (P : Type) extends Core where
  outstanding : Nat
  committing : Bool
  phase : P → Phase

namespace Fs

variable {P : Type} [DecidableEq P] (L : Layout)

/-- `initlog`. -/
def initlog (d : Disk) : Fs P where
  toCore := recoverFromLog L d
  outstanding := 0
  committing := false
  phase := fun _ => .idle

/-- "too big a transaction". -/
def TooBig (s : Fs P) : Prop := LOGSIZE ≤ s.lh.length ∨ L.size - 1 ≤ s.lh.length

instance (s : Fs P) : Decidable (s.TooBig L) := inferInstanceAs (Decidable (_ ∨ _))

/-- `log_write` gets to its locked part and stays within `log.lh.block`. -/
def Writes (s : Fs P) : Phase → Prop
  | .writing b _ => b ∈ s.lh ∨ s.lh.length < LOGSIZE
  | _ => False

instance (s : Fs P) : DecidablePred s.Writes
  | .writing _ _ => inferInstanceAs (Decidable (_ ∨ _))
  | .idle | .op | .commit _ => .isFalse id

/-- The source lets this step happen here, without a panic. -/
def Enabled (s : Fs P) : Event P → Prop
  | .beginOp p =>
    s.phase p = .idle ∧ s.committing = false ∧
      s.lh.length + (s.outstanding + 1) * MAXOPBLOCKS ≤ LOGSIZE
  | .logCheck p _ _ => s.phase p = .op ∧ ¬ s.TooBig L ∧ 1 ≤ s.outstanding
  | .logWrite p => s.Writes (s.phase p)
  | .endOp p => s.phase p = .op ∧ s.committing = false
  | .commit p => (s.phase p).Commits ∧ s.lh.length < NBUF

instance (s : Fs P) : DecidablePred (s.Enabled L) := fun e => by
  cases e <;> unfold Enabled <;> infer_instance

/-- Under `log.lock`, the block is entered into the header unless it is there already. -/
def absorb (lh : List BlockNo) (b : BlockNo) : List BlockNo := if b ∈ lh then lh else lh ++ [b]

theorem mem_absorb {lh : List BlockNo} {b b' : BlockNo} :
    b' ∈ absorb lh b ↔ b' ∈ lh ∨ b' = b := by
  unfold absorb
  split_ifs with h
  · constructor
    · exact .inl
    · rintro (h' | rfl)
      · exact h'
      · exact h
  · simp

def setPhase (s : Fs P) (p : P) (q : Phase) : Fs P :=
  { s with phase := update s.phase p q }

@[simp] theorem setPhase_toCore (s : Fs P) (p : P) (q : Phase) :
    (s.setPhase p q).toCore = s.toCore := rfl

/-- What the step does. -/
def effect (s : Fs P) : Event P → Fs P
  | .beginOp p => { s.setPhase p .op with outstanding := s.outstanding + 1 }
  | .logCheck p b data => s.setPhase p (.writing b data)
  | .logWrite p =>
    match s.phase p with
    | .writing b data =>
      { s.setPhase p .op with lh := absorb s.lh b, buf := update s.buf b data }
    | _ => s
  | .endOp p =>
    if s.outstanding - 1 = 0 then
      -- `commit` has nothing to write when nothing was logged
      { s.setPhase p (.commit (if 0 < s.lh.length then .writeLog 0 else .done)) with
        outstanding := s.outstanding - 1, committing := true }
    else { s.setPhase p .idle with outstanding := s.outstanding - 1 }
  | .commit p =>
    match s.phase p with
    | .commit .done => { s.setPhase p .idle with committing := false }
    | .commit stage =>
      { s.setPhase p (.commit (Stage.step L (stage, s.toCore)).1) with
        toCore := (Stage.step L (stage, s.toCore)).2 }
    | _ => s

def step (s : Fs P) (e : Event P) : Option (Fs P) :=
  if s.Enabled L e then some (s.effect L e) else none

variable {L}

theorem step_eq_some {s s' : Fs P} {e : Event P} :
    s.step L e = some s' ↔ s.Enabled L e ∧ s' = s.effect L e := by
  unfold step
  split
  · next h => simp [h, eq_comm]
  · next h => simp [h]

/-- Perform a list of events from `s`. -/
abbrev run (L : Layout) (s : Fs P) (es : List (Event P)) : Option (Fs P) :=
  Transition.run (step L) s es

/-- Log block `b`, filled with its own number. -/
def logs (p : P) (b : BlockNo) : List (Event P) := [.logCheck p b fun _ => b, .logWrite p]

/-! ## Who is in an operation -/

variable {s : Fs P} {e : Event P}

/-- `log.outstanding` counts the processes in an operation. -/
def Counted (s : Fs P) : Prop :=
  ∃ S : Finset P, (∀ p, p ∈ S ↔ (s.phase p).Open) ∧ S.card = s.outstanding

omit [DecidableEq P] in
theorem Counted.none_open (h : s.Counted) (h0 : s.outstanding = 0) (p : P) :
    ¬ (s.phase p).Open := by
  obtain ⟨S, hS, hcard⟩ := h
  rw [← hS, Finset.card_eq_zero.mp (hcard.trans h0)]
  exact Finset.notMem_empty p

omit [DecidableEq P] in
theorem Counted.pos (h : s.Counted) {p : P} (hp : (s.phase p).Open) : 0 < s.outstanding :=
  Nat.pos_of_ne_zero fun h0 => h.none_open h0 p hp

omit [DecidableEq P] in
theorem Counted.same (h : s.Counted) {s' : Fs P} (ho : s'.outstanding = s.outstanding)
    (hp : ∀ p, (s'.phase p).Open ↔ (s.phase p).Open) : s'.Counted := by
  obtain ⟨S, hS, hcard⟩ := h
  exact ⟨S, fun p => (hS p).trans (hp p).symm, hcard.trans ho.symm⟩

theorem Counted.effect (h : s.Counted) (he : s.Enabled L e) : (s.effect L e).Counted := by
  cases e with
  | beginOp p =>
    obtain ⟨S, hS, hcard⟩ := h
    have hp : p ∉ S := by simp [hS, he.1, Phase.Open]
    refine ⟨insert p S, fun q => ?_, ?_⟩
    · by_cases hq : q = p
      · simp [Fs.effect, setPhase, hq, Phase.Open]
      · simp [Fs.effect, setPhase, hq, hS]
    · rw [Finset.card_insert_of_notMem hp, hcard]
      rfl
  | logCheck p b data =>
    refine h.same rfl fun q => ?_
    by_cases hq : q = p
    · simp [Fs.effect, setPhase, hq, he.1, Phase.Open]
    · simp [Fs.effect, setPhase, hq]
  | logWrite p =>
    have hw : s.Writes (s.phase p) := he
    cases hph : s.phase p with
    | writing b data =>
      refine h.same (by simp [Fs.effect, hph, setPhase]) fun q => ?_
      by_cases hq : q = p
      · simp [Fs.effect, setPhase, hq, hph, Phase.Open]
      · simp [Fs.effect, setPhase, hq, hph]
    | _ => simp [hph, Writes] at hw
  | endOp p =>
    obtain ⟨S, hS, hcard⟩ := h
    have hp : p ∈ S := by simp [hS, he.1, Phase.Open]
    have herase : (S.erase p).card = s.outstanding - 1 := by rw [Finset.card_erase_of_mem hp, hcard]
    refine ⟨S.erase p, fun q => ?_, ?_⟩
    · by_cases hq : q = p
      · simp only [Fs.effect]
        split_ifs <;> simp [setPhase, hq, Phase.Open]
      · simp only [Fs.effect]
        split_ifs <;> simp [setPhase, hq, hS]
    · simp only [Fs.effect]
      split_ifs <;> exact herase
  | commit p =>
    have hc : (s.phase p).Commits := he.1
    cases hph : s.phase p with
    | commit st =>
      refine h.same (by cases st <;> simp [Fs.effect, hph, setPhase]) fun q => ?_
      by_cases hq : q = p
      · cases st <;> simp [Fs.effect, setPhase, hq, hph, Phase.Open]
      · cases st <;> simp [Fs.effect, setPhase, hq, hph]
    | _ => simp [hph, Phase.Commits] at hc

/-- At most one process is in `commit`, and then no operation is in progress. -/
def Exclusive (s : Fs P) : Prop :=
  ∀ p, (s.phase p).Commits →
    s.committing = true ∧ s.outstanding = 0 ∧ ∀ q, (s.phase q).Commits → q = p

omit [DecidableEq P] in
theorem Exclusive.idle (h : s.Exclusive) (hc : s.committing = false) (p : P) :
    ¬ (s.phase p).Commits := by
  intro hp
  rw [(h p hp).1] at hc; cases hc

omit [DecidableEq P] in
/-- While a process is in an operation, none is in `commit`. -/
theorem Exclusive.idle_of_open (h : s.Exclusive) (hc : s.Counted) {p : P} (hp : (s.phase p).Open)
    (q : P) : ¬ (s.phase q).Commits :=
  fun hq => hc.none_open (h q hq).2.1 p hp

theorem Exclusive.of_idle (hidle : ∀ q, ¬ (s.phase q).Commits) {s' : Fs P} {p : P} {ph : Phase}
    (hphase : s'.phase = update s.phase p ph) (hp : ¬ ph.Commits) : s'.Exclusive := by
  intro q hq
  rw [hphase, update_apply] at hq
  split at hq
  · exact absurd hq hp
  · exact absurd hq (hidle q)

theorem Exclusive.effect (h : s.Exclusive) (hc : s.Counted) (he : s.Enabled L e) :
    (s.effect L e).Exclusive := by
  cases e with
  | beginOp p => exact .of_idle (h.idle he.2.1) rfl id
  | logCheck p b data =>
    exact .of_idle (h.idle_of_open hc (p := p) (by simp [he.1, Phase.Open])) rfl id
  | logWrite p =>
    have hw : s.Writes (s.phase p) := he
    cases hph : s.phase p with
    | writing b data =>
      simp only [Fs.effect, hph]
      exact .of_idle (h.idle_of_open hc (p := p) (by simp [hph, Phase.Open])) rfl id
    | _ => simp [hph, Writes] at hw
  | endOp p =>
    have hidle := h.idle he.2
    by_cases h0 : s.outstanding - 1 = 0
    · simp only [Fs.effect, if_pos h0]
      have hp : ∀ q, (update s.phase p
          (.commit (if 0 < s.lh.length then .writeLog 0 else .done)) q).Commits → q = p := by
        intro q hq
        by_contra hne
        exact hidle q (by simpa [hne] using hq)
      exact fun q hq => ⟨rfl, h0, fun r hr => (hp r hr).trans (hp q hq).symm⟩
    · simp only [Fs.effect, if_neg h0]
      exact .of_idle hidle rfl id
  | commit p =>
    have hp : (s.phase p).Commits := he.1
    obtain ⟨hcomm, hout, halone⟩ := h p hp
    cases hph : s.phase p with
    | commit st =>
      have hothers : ∀ q, q ≠ p → ¬ (s.phase q).Commits := fun q hq hq' => hq (halone q hq')
      cases st with
      | done =>
        simp only [Fs.effect, hph]
        intro q hq
        by_cases hqp : q = p
        · simp [setPhase, hqp, Phase.Commits] at hq
        · exact absurd (by simpa [setPhase, hqp] using hq) (hothers q hqp)
      | _ =>
        simp only [Fs.effect, hph]
        have hq' : ∀ q ph, (update s.phase p ph q).Commits → q = p := by
          intro q ph hq
          by_contra hqp
          exact hothers q hqp (by simpa [hqp] using hq)
        exact fun q hq => ⟨hcomm, hout, fun r hr => (hq' r _ hr).trans (hq' q _ hq).symm⟩
    | _ => simp [hph, Phase.Commits] at hp

end Fs

end Xv6.Log
