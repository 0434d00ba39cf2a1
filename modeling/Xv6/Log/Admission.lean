import Mathlib.Algebra.Order.BigOperators.Group.Finset
import Xv6.Log.Recovery

/-!
# Admission to the log

`begin_op` reserves `MAXOPBLOCKS` of the `LOGSIZE` blocks in the header for each operation. But the
log that `mkfs` creates has `LOGSIZE` blocks with its header, and `log_write` wants `log.lh.n` below
`log.size - 1` before it looks whether the block is there already; so three operations that use
what was reserved for them do not fit (`reserved_too_big`). They do if each leaves one block of its
reservation unused.

The invariant is a budget. Each operation in progress may still add to the header as many blocks as
it has not logged yet, and one more if it is just about to (`credit`); the header and all credits
together stay within 28 blocks.
-/

namespace Xv6.Log

open List Transition

/-- The machine, and which blocks each process has logged in its operation. -/
structure Tally (P : Type) extends Fs P where
  logged : P → Finset BlockNo

namespace Tally

variable {P : Type} [DecidableEq P] {t : Tally P} {e : Event P}

def start (L : Layout) (d : Disk) : Tally P := { Fs.initlog L d with logged := fun _ => ∅ }

/-- What the step adds to the tally. -/
def note (logged : P → Finset BlockNo) : Event P → P → Finset BlockNo
  | .beginOp p => Function.update logged p ∅
  | .logCheck p b _ => Function.update logged p (insert b (logged p))
  | _ => logged

def effect (L : Layout) (t : Tally P) (e : Event P) : Tally P :=
  { t.toFs.effect L e with logged := note t.logged e }

def step (L : Layout) (t : Tally P) (e : Event P) : Option (Tally P) :=
  if t.toFs.Enabled L e then some (t.effect L e) else none

theorem step_eq_some {L : Layout} {t' : Tally P} :
    t.step L e = some t' ↔ t.toFs.Enabled L e ∧ t' = t.effect L e := by
  unfold step
  split
  · next h => simp [h, eq_comm]
  · next h => simp [h]

/-- An operation logs at most `k` different blocks. -/
def Modest (k : Nat) (t : Tally P) : Event P → Prop
  | .logCheck p b _ => (insert b (t.logged p)).card ≤ k
  | _ => True

instance (k : Nat) (t : Tally P) : DecidablePred (t.Modest k)
  | .logCheck _ _ _ => inferInstanceAs (Decidable (_ ≤ _))
  | .beginOp _ | .logWrite _ | .endOp _ | .commit _ => .isTrue trivial

/-! ## The budget -/

/-- The process is about to append a block. -/
def appends (t : Tally P) : Phase → Nat
  | .writing b _ => (Fs.absorb t.lh b).length - t.lh.length
  | _ => 0

omit [DecidableEq P] in
theorem appends_writing (t : Tally P) (b : BlockNo) (data : Block) :
    t.appends (.writing b data) = if b ∈ t.lh then 0 else 1 := by
  simp only [appends, Fs.absorb]
  split
  · exact Nat.sub_self _
  · simp

/-- How many blocks the process may still append. -/
def credit (t : Tally P) (p : P) : Nat := 9 - (t.logged p).card + t.appends (t.phase p)

/-- What the tally says of a process: its blocks are in the header, or about to be. -/
structure Keeps (t : Tally P) (p : P) : Prop where
  entered : (t.phase p).Open → ∀ b ∈ t.logged p, b ∈ t.lh ∨ ∃ data, t.phase p = .writing b data
  writing : ∀ b data, t.phase p = .writing b data → b ∈ t.logged p
  modest : (t.phase p).Open → (t.logged p).card ≤ 9

structure Inv (t : Tally P) : Prop where
  exclusive : t.Exclusive
  keeps : ∀ p, t.Keeps p
  budget : ∃ S : Finset P, (∀ p, p ∈ S ↔ (t.phase p).Open) ∧ S.card = t.outstanding ∧
    t.lh.length + ∑ p ∈ S, t.credit p ≤ 28
  rest : t.committing = false → t.outstanding = 0 → t.lh = []
  done : ∀ p, t.phase p = .commit .done → t.lh = []

section

omit [DecidableEq P]

theorem Keeps.closed {p : P} (h : ¬ (t.phase p).Open) : t.Keeps p where
  entered ho := absurd ho h
  writing b data hp := absurd (by simp [hp, Phase.Open]) h
  modest ho := absurd ho h

theorem Inv.counted (h : t.Inv) : t.Counted := by
  obtain ⟨S, hS, hcard, -⟩ := h.budget
  exact ⟨S, hS, hcard⟩

theorem Inv.credit_le (h : t.Inv) (p : P) : t.credit p ≤ 9 := by
  unfold credit
  cases hp : t.phase p with
  | writing b data =>
    have : 0 < (t.logged p).card := Finset.card_pos.mpr ⟨b, (h.keeps p).writing b data hp⟩
    rw [appends_writing]
    split <;> omega
  | _ => simp [appends]

/-- The process itself does not move, and blocks are only added to the header. -/
structure Stays (t t' : Tally P) (q : P) : Prop where
  phase : t'.phase q = t.phase q
  logged : t'.logged q = t.logged q
  lh : ∀ b ∈ t.lh, b ∈ t'.lh

theorem Stays.keeps {t' : Tally P} {q : P} (h : t.Stays t' q) (hk : t.Keeps q) : t'.Keeps q where
  entered ho b hb := by
    rw [h.phase] at ho ⊢
    exact (hk.entered ho b (h.logged ▸ hb)).imp_left (h.lh b)
  writing b data hp := h.logged ▸ hk.writing b data (h.phase ▸ hp)
  modest ho := h.logged ▸ hk.modest (h.phase ▸ ho)

theorem Stays.credit_le {t' : Tally P} {q : P} (h : t.Stays t' q) : t'.credit q ≤ t.credit q := by
  unfold credit
  rw [h.phase, h.logged]
  refine Nat.add_le_add_left ?_ _
  cases t.phase q with
  | writing b data =>
    simp only [appends_writing]
    by_cases hb : b ∈ t.lh
    · simp [hb, h.lh b hb]
    · simp only [if_neg hb]
      split <;> omega
  | _ => exact le_rfl

end

/-! ## What a step does to it -/

variable {L : Layout} {p : P}

/-- A new operation has nine blocks to go, and they are there. -/
theorem Inv.beginOp (h : t.Inv) (he : t.toFs.Enabled L (.beginOp p)) :
    (t.effect L (.beginOp p)).Inv := by
  have hexcl := h.exclusive.effect h.counted he
  obtain ⟨hidle, hcomm, hadmit⟩ := he
  obtain ⟨S, hS, hcard, hbudget⟩ := h.budget
  have hp : p ∉ S := by simp [hS, hidle, Phase.Open]
  have hstay : ∀ q, q ≠ p → t.Stays (t.effect L (.beginOp p)) q := fun q hq =>
    ⟨by simp [effect, Fs.effect, Fs.setPhase, hq], by simp [effect, note, hq], fun b hb => hb⟩
  have hphase : (t.effect L (.beginOp p)).phase p = .op := by simp [effect, Fs.effect, Fs.setPhase]
  have hlogged : (t.effect L (.beginOp p)).logged p = ∅ := by simp [effect, note]
  refine ⟨hexcl, fun q => ?_, ⟨insert p S, fun q => ?_, ?_, ?_⟩, fun _ h0 => ?_, fun q hq => ?_⟩
  · by_cases hqp : q = p
    · subst hqp
      exact ⟨by simp [hlogged], by simp [hphase], by simp [hlogged]⟩
    · exact (hstay q hqp).keeps (h.keeps q)
  · by_cases hqp : q = p
    · simp [hqp, hphase, Phase.Open]
    · simp [hqp, hS, (hstay q hqp).phase]
  · rw [Finset.card_insert_of_notMem hp, hcard]
    rfl
  · have hold : ∑ q ∈ S, (t.effect L (.beginOp p)).credit q ≤ 9 * t.outstanding := by
      rw [← hcard, Nat.mul_comm]
      refine Finset.sum_le_card_nsmul S _ 9 fun q hq => ?_
      exact (hstay q fun heq => hp (heq ▸ hq)).credit_le.trans (h.credit_le q)
    have hnew : (t.effect L (.beginOp p)).credit p = 9 := by
      simp [credit, hphase, hlogged, appends]
    rw [Finset.sum_insert hp, hnew]
    show t.lh.length + (9 + _) ≤ 28
    simp only [LOGSIZE, MAXOPBLOCKS] at hadmit
    by_cases h0 : t.outstanding = 0
    · -- with nobody in an operation, the header is empty
      rw [h.rest hcomm h0, length_nil]
      omega
    · omega
  · exact absurd h0 (Nat.succ_ne_zero _)
  · by_cases hqp : q = p
    · simp [hqp, hphase] at hq
    · exact h.done q ((hstay q hqp).phase ▸ hq)

/-- A block that is logged for the first time is paid for here. -/
theorem Inv.logCheck {b : BlockNo} {data : Block} (h : t.Inv)
    (he : t.toFs.Enabled L (.logCheck p b data)) (hm : t.Modest 9 (.logCheck p b data)) :
    (t.effect L (.logCheck p b data)).Inv := by
  have hexcl := h.exclusive.effect h.counted he
  obtain ⟨S, hS, hcard, hbudget⟩ := h.budget
  have hop : t.phase p = .op := he.1
  have hstay : ∀ q, q ≠ p → t.Stays (t.effect L (.logCheck p b data)) q := fun q hq =>
    ⟨by simp [effect, Fs.effect, Fs.setPhase, hq], by simp [effect, note, hq], fun b hb => hb⟩
  have hphase : (t.effect L (.logCheck p b data)).phase p = .writing b data := by
    simp [effect, Fs.effect, Fs.setPhase]
  have hlogged : (t.effect L (.logCheck p b data)).logged p = insert b (t.logged p) := by
    simp [effect, note]
  have hlh : (t.effect L (.logCheck p b data)).lh = t.lh := rfl
  have hin : ∀ b' ∈ t.logged p, b' ∈ t.lh := fun b' hb' =>
    ((h.keeps p).entered (by simp [hop, Phase.Open]) b' hb').resolve_right (by simp [hop])
  refine ⟨hexcl, fun q => ?_, ⟨S, fun q => ?_, hcard, ?_⟩, h.rest, fun q hq => ?_⟩
  · by_cases hqp : q = p
    · subst hqp
      refine ⟨fun _ b' hb' => ?_, fun b' data' hq => ?_, fun _ => ?_⟩
      · rw [hlogged, Finset.mem_insert] at hb'
        rcases hb' with rfl | hb'
        · exact .inr ⟨data, hphase⟩
        · exact .inl (hin b' hb')
      · obtain ⟨rfl, -⟩ : b = b' ∧ data = data' := by simpa [hphase] using hq
        simp [hlogged]
      · rw [hlogged]
        exact hm
    · exact (hstay q hqp).keeps (h.keeps q)
  · by_cases hqp : q = p
    · simp [hqp, hS, hphase, hop, Phase.Open]
    · rw [hS, (hstay q hqp).phase]
  · refine le_trans (Nat.add_le_add_left (Finset.sum_le_sum fun q _ => ?_) _) hbudget
    by_cases hqp : q = p
    · subst hqp
      simp only [credit, hphase, hlogged, hop, appends_writing, hlh]
      by_cases hb : b ∈ t.logged q
      · simp [hb, hin b hb]
      · have hm : (insert b (t.logged q)).card ≤ 9 := hm
        rw [Finset.card_insert_of_notMem hb] at hm ⊢
        split <;> omega
    · exact (hstay q hqp).credit_le
  · by_cases hqp : q = p
    · simp [hqp, hphase] at hq
    · exact h.done q ((hstay q hqp).phase ▸ hq)

/-- A block that is appended has been paid for. -/
theorem Inv.logWrite {b : BlockNo} {data : Block} (h : t.Inv)
    (he : t.toFs.Enabled L (.logWrite p)) (hw : t.phase p = .writing b data) :
    (t.effect L (.logWrite p)).Inv := by
  have hexcl := h.exclusive.effect h.counted he
  obtain ⟨S, hS, hcard, hbudget⟩ := h.budget
  have hphase' : (t.effect L (.logWrite p)).phase = Function.update t.phase p .op := by
    simp [effect, Fs.effect, hw, Fs.setPhase]
  have hlh : (t.effect L (.logWrite p)).lh = Fs.absorb t.lh b := by simp [effect, Fs.effect, hw]
  have hlogged : (t.effect L (.logWrite p)).logged = t.logged := rfl
  have hphase : (t.effect L (.logWrite p)).phase p = .op := by rw [hphase', Function.update_self]
  have hout : (t.effect L (.logWrite p)).outstanding = t.outstanding := by
    simp [effect, Fs.effect, hw, Fs.setPhase]
  have hstay : ∀ q, q ≠ p → t.Stays (t.effect L (.logWrite p)) q := fun q hq =>
    ⟨by rw [hphase', Function.update_of_ne hq], rfl,
      fun b' hb' => hlh ▸ Fs.mem_absorb.mpr (.inl hb')⟩
  have hcredit : (t.effect L (.logWrite p)).credit p + t.appends (t.phase p) = t.credit p := by
    simp [credit, hphase, hlogged, appends]
  refine ⟨hexcl, fun q => ?_, ⟨S, fun q => ?_, hcard.trans hout.symm, ?_⟩, fun _ h0 => ?_,
    fun q hq => ?_⟩
  · by_cases hqp : q = p
    · subst hqp
      refine ⟨fun _ b' hb' => .inl ?_, by simp [hphase], fun _ => ?_⟩
      · rw [hlh, Fs.mem_absorb]
        refine ((h.keeps q).entered (by simp [hw, Phase.Open]) b' hb').imp_right ?_
        rintro ⟨data', heq⟩
        obtain ⟨rfl, -⟩ : b = b' ∧ data = data' := by simpa [hw] using heq
        rfl
      · exact (h.keeps q).modest (by simp [hw, Phase.Open])
    · exact (hstay q hqp).keeps (h.keeps q)
  · by_cases hqp : q = p
    · simp [hqp, hS, hphase, hw, Phase.Open]
    · rw [hS, (hstay q hqp).phase]
  · have hp : p ∈ S := by simp [hS, hw, Phase.Open]
    have hrest : ∑ q ∈ S.erase p, (t.effect L (.logWrite p)).credit q ≤
        ∑ q ∈ S.erase p, t.credit q :=
      Finset.sum_le_sum fun q hq => (hstay q (Finset.ne_of_mem_erase hq)).credit_le
    rw [← Finset.add_sum_erase S _ hp] at hbudget ⊢
    rw [← hcredit, hw, appends_writing] at hbudget
    rw [hlh, Fs.absorb]
    split_ifs at hbudget ⊢
    · omega
    · rw [length_append, length_singleton]
      omega
  · have := h.counted.pos (p := p) (by simp [hw, Phase.Open])
    omega
  · by_cases hqp : q = p
    · simp [hqp, hphase] at hq
    · have hidle := h.exclusive.idle_of_open h.counted (p := p) (by simp [hw, Phase.Open]) q
      rw [(hstay q hqp).phase] at hq
      exact absurd (by simp [hq, Phase.Commits]) hidle

theorem Inv.endOp (h : t.Inv) (he : t.toFs.Enabled L (.endOp p)) :
    (t.effect L (.endOp p)).Inv := by
  have hexcl := h.exclusive.effect h.counted he
  obtain ⟨S, hS, hcard, hbudget⟩ := h.budget
  have hp : p ∈ S := by simp [hS, he.1, Phase.Open]
  have hpos := h.counted.pos (p := p) (by simp [he.1, Phase.Open])
  have hlh : (t.effect L (.endOp p)).lh = t.lh := by
    simp only [effect, Fs.effect]
    split <;> rfl
  have hstay : ∀ q, q ≠ p → t.Stays (t.effect L (.endOp p)) q := fun q hq =>
    ⟨by simp only [effect, Fs.effect]; split <;> simp [Fs.setPhase, hq], rfl, fun b hb => hlh ▸ hb⟩
  have hphase : ¬ ((t.effect L (.endOp p)).phase p).Open := by
    simp only [effect, Fs.effect]
    split <;> simp [Fs.setPhase, Phase.Open]
  have hout : (t.effect L (.endOp p)).outstanding = t.outstanding - 1 := by
    simp only [effect, Fs.effect]
    split <;> rfl
  refine ⟨hexcl, fun q => ?_, ⟨S.erase p, fun q => ?_, ?_, ?_⟩, fun hc h0 => ?_, fun q hq => ?_⟩
  · by_cases hqp : q = p
    · subst hqp
      exact .closed hphase
    · exact (hstay q hqp).keeps (h.keeps q)
  · by_cases hqp : q = p
    · simp [hqp, hphase]
    · simp [hqp, hS, (hstay q hqp).phase]
  · rw [Finset.card_erase_of_mem hp, hcard, hout]
  · have hrest : ∑ q ∈ S.erase p, (t.effect L (.endOp p)).credit q ≤ ∑ q ∈ S.erase p, t.credit q :=
      Finset.sum_le_sum fun q hq => (hstay q (Finset.ne_of_mem_erase hq)).credit_le
    rw [← Finset.add_sum_erase S _ hp] at hbudget
    rw [hlh]
    omega
  · -- the last one out is committing
    rw [hout] at h0
    simp [effect, Fs.effect, h0] at hc
  · rw [hlh]
    by_cases hqp : q = p
    · subst hqp
      simp only [effect, Fs.effect] at hq
      split at hq
      · by_contra hne
        have hlen : 0 < t.lh.length := length_pos_iff.mpr hne
        simp [Fs.setPhase, hlen] at hq
      · simp [Fs.setPhase] at hq
    · have hidle := h.exclusive.idle he.2 q
      rw [(hstay q hqp).phase] at hq
      exact absurd (by simp [hq, Phase.Commits]) hidle

/-- `commit` keeps the header until it is through. -/
theorem lh_stage (st : Stage) (c : Core) : st ≠ .done →
    (Stage.step L (st, c)).2.lh = c.lh ∧ (Stage.step L (st, c)).1 ≠ .done ∨
      (Stage.step L (st, c)).2.lh = [] := by
  intro hst
  cases st with
  | writeLog tail =>
    simp only [Stage.step]
    split
    · exact .inl ⟨rfl, by simp⟩
    · exact .inl ⟨rfl, by simp⟩
  | install tail =>
    simp only [Stage.step]
    split
    · exact .inl ⟨rfl, by simp⟩
    · exact .inr rfl
  | done => exact absurd rfl hst

theorem Inv.commit {st : Stage} (h : t.Inv) (he : t.toFs.Enabled L (.commit p))
    (hst : t.phase p = .commit st) : (t.effect L (.commit p)).Inv := by
  have hexcl := h.exclusive.effect h.counted he
  have hcount : (t.effect L (.commit p)).Counted := h.counted.effect he
  obtain ⟨hcomm, hout, halone⟩ := h.exclusive p he.1
  obtain ⟨S, hS, hcard, hbudget⟩ := h.budget
  have hout' : (t.effect L (.commit p)).outstanding = 0 := by
    rw [← hout]
    cases st <;> simp [effect, Fs.effect, hst, Fs.setPhase]
  have hopen := hcount.none_open hout'
  have hothers : ∀ q, q ≠ p → t.phase q ≠ .commit .done := fun q hq heq =>
    hq (halone q (by simp [heq, Phase.Commits]))
  -- what is left of the header: all of it, or nothing
  have hlh : (t.effect L (.commit p)).lh.length ≤ t.lh.length ∧
      ((t.effect L (.commit p)).committing = false → (t.effect L (.commit p)).lh = []) ∧
      ∀ q, (t.effect L (.commit p)).phase q = .commit .done → (t.effect L (.commit p)).lh = [] := by
    by_cases hdone : st = .done
    · subst hdone
      have hnil := h.done p hst
      simp [effect, Fs.effect, hst, hnil]
    · have heq : t.effect L (.commit p) =
          { t with
            toCore := (Stage.step L (st, t.toCore)).2
            phase := Function.update t.phase p (.commit (Stage.step L (st, t.toCore)).1) } := by
        cases st <;> simp_all [effect, Fs.effect, Fs.setPhase, note]
      rw [heq]
      rcases lh_stage (L := L) st t.toCore hdone with ⟨hl, hd⟩ | hl
      · refine ⟨hl ▸ le_rfl, by simp [hcomm], fun q hq => ?_⟩
        by_cases hqp : q = p
        · simp [hqp, hd] at hq
        · exact absurd (by simpa [hqp] using hq) (hothers q hqp)
      · exact ⟨by simp [hl], fun _ => hl, fun _ _ => hl⟩
  refine ⟨hexcl, fun q => .closed (hopen q), ⟨∅, fun q => ?_, ?_, ?_⟩, fun hc _ => hlh.2.1 hc,
    hlh.2.2⟩
  · simpa using hopen q
  · rw [hout', Finset.card_empty]
  · rw [Finset.sum_empty]
    omega

theorem Inv.effect (h : t.Inv) (he : t.toFs.Enabled L e) (hm : t.Modest 9 e) :
    (t.effect L e).Inv := by
  cases e with
  | beginOp p => exact h.beginOp he
  | logCheck p b data => exact h.logCheck he hm
  | logWrite p =>
    have hw : t.Writes (t.phase p) := he
    cases hph : t.phase p with
    | writing b data => exact h.logWrite he hph
    | _ => simp [hph, Fs.Writes] at hw
  | endOp p => exact h.endOp he
  | commit p =>
    have hc : (t.phase p).Commits := he.1
    cases hph : t.phase p with
    | commit st => exact h.commit he hph
    | _ => simp [hph, Phase.Commits] at hc

omit [DecidableEq P] in
theorem start_inv (L : Layout) (d : Disk) : (start L d : Tally P).Inv := by
  have hlh : (start L d : Tally P).lh = [] := (recoverFromLog_clear L d).1
  refine ⟨fun p hp => absurd hp id, fun p => .closed id, ⟨∅, fun p => ?_, rfl, ?_⟩, fun _ _ => hlh,
    fun p hp => hlh⟩
  · simp [start, Fs.initlog, Phase.Open]
  · simp [hlh]

/-! ## The result -/

/-- **`log_write` does not panic**, in whatever order any number of operations run, as long as each
logs at most `MAXOPBLOCKS - 1` different blocks. -/
theorem log_write_not_tooBig {d : Disk} {es : List (Event P)}
    (hrun : run (step Layout.mkfs) (start Layout.mkfs d) es = some t)
    (hm : Allowed (step Layout.mkfs) (Modest (MAXOPBLOCKS - 1))
      (start Layout.mkfs d) es) : ¬ t.TooBig Layout.mkfs := by
  have hinv : t.Inv := by
    refine run_allowed (fun t e t' hI hC ht => ?_) hrun hm (start_inv _ d)
    obtain ⟨hen, rfl⟩ := step_eq_some.mp ht
    exact hI.effect hen hC
  obtain ⟨S, -, -, hbudget⟩ := hinv.budget
  simp only [Fs.TooBig, Layout.mkfs, LOGSIZE, MAXOPBLOCKS]
  omega

/-- Three operations log nine blocks each. -/
def modestSession : List (Event (Fin 3)) :=
  (List.finRange 3).map Event.beginOp ++ (List.range 9).flatMap fun i =>
    (List.finRange 3).flatMap fun p => Fs.logs p (BitVec.ofNat 32 (100 * (p.val + 1) + i))

theorem modestSession_not_tooBig :
    ∃ t ∈ run (step Layout.mkfs) (start Layout.mkfs fun _ _ => 0) modestSession,
      t.lh.length = 27 ∧ ¬ t.TooBig Layout.mkfs := by
  have hrun : ∃ t ∈ run (step Layout.mkfs) (start Layout.mkfs fun _ _ => 0) modestSession,
      t.lh.length = 27 := by decide +kernel
  obtain ⟨t, ht, hlen⟩ := hrun
  exact ⟨t, ht, hlen, log_write_not_tooBig ht (by decide +kernel)⟩

/-- Three operations log what was reserved for them; the thirtieth block is still to come. -/
def reservedSession : List (Event (Fin 3)) :=
  (List.finRange 3).map Event.beginOp ++ (List.finRange 3).flatMap fun p =>
    (List.range (if p.val = 2 then 9 else 10)).flatMap fun i =>
      Fs.logs p (BitVec.ofNat 32 (100 * (p.val + 1) + i))

/-- The tenth block of the third operation panics. -/
theorem reserved_too_big :
    Allowed (step Layout.mkfs) (Modest MAXOPBLOCKS) (start Layout.mkfs fun _ _ => 0)
      reservedSession ∧
    ∃ t ∈ run (step Layout.mkfs) (start Layout.mkfs fun _ _ => 0) reservedSession,
      t.phase 2 = .op ∧ t.Modest MAXOPBLOCKS (.logCheck 2 309 fun _ => 309) ∧
        t.TooBig Layout.mkfs := by
  decide +kernel

end Tally

end Xv6.Log
