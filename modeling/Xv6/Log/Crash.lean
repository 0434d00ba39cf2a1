import Xv6.Log.Recovery

/-!
# Crash atomicity

A `Chronicle` records what the processes log. The writes between two commits are a group; a group is
closed by the `end_op` that finds no other operation outstanding, and every operation is in one
group. Whenever the machine crashes, and however often `recover_from_log` is cut short after that,
the home blocks come out as the first groups left them, with every group whose `commit` has returned
among them.

One thing has to be asked for. `log_write` tests `log.lh.n` before it takes `log.lock`, so several
processes can pass the test and then append one block each, and the log outgrows its region: the
block after it, the first one of the inodes, is overwritten (`overrun_corrupts`).
-/

namespace Xv6.Log

open Redo List Transition

/-- A `log_write`, with the number of the operation that made it. -/
structure Entry where
  op : Nat
  block : BlockNo
  data : Block

/-- The home blocks after these groups. -/
def stateAfter (d : Disk) (groups : List (List Entry)) : Disk :=
  replay (groups.flatten.map fun w => (w.block, w.data)) d

/-- What has been logged so far. Operations are numbered in the order of their `begin_op`. -/
structure Chronicle (P : Type) where
  groups : List (List Entry)
  current : List Entry
  /-- The number of each process's last operation. -/
  op : P → Nat
  next : Nat
  /-- How many groups have been committed by a `commit` that has returned. -/
  finished : Nat
  /-- The operations whose `end_op` has returned after its `commit`. -/
  returned : List Nat

open Chronicle

namespace Chronicle

variable {P : Type} [DecidableEq P]

def start : Chronicle P := ⟨[], [], fun _ => 0, 0, 0, []⟩

/-- What the step adds to the record. -/
def record (H : Chronicle P) (s : Fs P) : Event P → Chronicle P
  | .beginOp p => { H with op := Function.update H.op p H.next, next := H.next + 1 }
  | .logWrite p =>
    match s.phase p with
    | .writing b data => { H with current := H.current ++ [⟨H.op p, b, data⟩] }
    | _ => H
  | .endOp _ =>
    if s.outstanding - 1 = 0 then { H with groups := H.groups ++ [H.current], current := [] } else H
  | .commit p =>
    match s.phase p with
    | .commit .done => { H with finished := H.finished + 1, returned := H.op p :: H.returned }
    | _ => H
  | .logCheck _ _ _ => H

/-- All entries. -/
def entries (H : Chronicle P) : List Entry := (H.groups ++ [H.current]).flatten

/-- The entries that no `commit` has returned for. -/
def unfinished (H : Chronicle P) : List Entry := (H.groups.drop H.finished ++ [H.current]).flatten

omit [DecidableEq P] in
theorem entries_eq (H : Chronicle P) :
    H.entries = (H.groups.take H.finished).flatten ++ H.unfinished := by
  rw [entries, unfinished, ← flatten_append, ← append_assoc, take_append_drop]

end Chronicle

theorem stateAfter_snoc (d : Disk) (groups : List (List Entry)) (g : List Entry) (w : Entry) :
    stateAfter d (groups ++ [g ++ [w]]) =
      Function.update (stateAfter d (groups ++ [g])) w.block w.data := by
  simp only [stateAfter, flatten_append, flatten_singleton, map_append,
    ← append_assoc, map_cons, map_nil, replay_snoc]

@[simp] theorem stateAfter_nil (d : Disk) (groups : List (List Entry)) :
    stateAfter d (groups ++ [[]]) = stateAfter d groups := by
  simp [stateAfter]

namespace Fs

variable {P : Type} [DecidableEq P] {L : Layout} {d : Disk} {s : Fs P} {H : Chronicle P}
  {e : Event P}

/-- No operation logs a block of the log region. -/
def Outside (L : Layout) (_ : Fs P) : Event P → Prop
  | .logCheck _ b _ => L.Home b
  | _ => True

instance (s : Fs P) : DecidablePred (s.Outside L)
  | .logCheck _ b _ => inferInstanceAs (Decidable (L.Home b))
  | .beginOp _ | .logWrite _ | .endOp _ | .commit _ => .isTrue trivial

/-- The block is in the header, or there is room for it: `log.lh.n < log.size - 1`. -/
def Fits (L : Layout) (s : Fs P) : Phase → Prop
  | .writing b _ => b ∈ s.lh ∨ s.lh.length < L.size - 1
  | _ => True

instance (s : Fs P) : DecidablePred (s.Fits L)
  | .writing _ _ => inferInstanceAs (Decidable (_ ∨ _))
  | .idle | .op | .commit _ => .isTrue trivial

/-- When `log_write` has taken `log.lock`, its test for room would still succeed, unless it has no
block to append. -/
def Room (L : Layout) (s : Fs P) : Event P → Prop
  | .logWrite p => s.Fits L (s.phase p)
  | _ => True

instance (s : Fs P) : DecidablePred (s.Room L)
  | .logWrite p => inferInstanceAs (Decidable (s.Fits L (s.phase p)))
  | .beginOp _ | .logCheck _ _ _ | .endOp _ | .commit _ => .isTrue trivial

/-! ## Disk, buffers and record -/

/-- No `commit` is in progress. -/
structure Quiet (L : Layout) (d : Disk) (s : Fs P) (H : Chronicle P) : Prop where
  committing : s.committing = false
  listed : Listed L s.lh
  clear : headOf (s.disk L.start) = []
  disk : ∀ b, L.Home b → s.disk b = stateAfter d H.groups b
  buf : ∀ b, L.Home b → s.buf b = stateAfter d (H.groups ++ [H.current]) b
  same : ∀ b, L.Home b → b ∉ s.lh → s.buf b = s.disk b
  finished : H.finished = H.groups.length

/-- Process `p` is in `commit`. -/
structure Busy (L : Layout) (d : Disk) (s : Fs P) (H : Chronicle P) (p : P) (st : Stage) :
    Prop where
  phase : s.phase p = .commit st
  current : H.current = []
  finished : H.finished + 1 = H.groups.length
  sound : st.Sound L (stateAfter d (H.groups.take H.finished)) (stateAfter d H.groups) s.toCore

/-- The invariant. -/
structure Inv (L : Layout) (d : Disk) (s : Fs P) (H : Chronicle P) : Prop where
  counted : s.Counted
  exclusive : s.Exclusive
  home : ∀ p b data, s.phase p = .writing b data → L.Home b
  state : Quiet L d s H ∨ ∃ p st, Busy L d s H p st

omit [DecidableEq P] in
/-- A process can enter or leave an operation, or write, only while there is no `commit`. -/
theorem Inv.quiet (h : Inv L d s H) (hc : s.committing = false) : Quiet L d s H := by
  rcases h.state with hq | ⟨p, st, hb⟩
  · exact hq
  · exact absurd (by simp [hb.phase, Phase.Commits]) (h.exclusive.idle hc p)

variable {p : P} {b : BlockNo}

omit [DecidableEq P] in
theorem Inv.quiet_of_open (h : Inv L d s H) (hp : (s.phase p).Open) : Quiet L d s H := by
  rcases h.state with hq | ⟨q, st, hb⟩
  · exact hq
  · exact absurd (by simp [hb.phase, Phase.Commits]) (h.exclusive.idle_of_open h.counted hp q)

omit [DecidableEq P] in
theorem Inv.busy (h : Inv L d s H) (hp : (s.phase p).Commits) : ∃ st, Busy L d s H p st := by
  rcases h.state with hq | ⟨q, st, hb⟩
  · exact absurd hp (h.exclusive.idle hq.committing p)
  · obtain rfl : q = p := (h.exclusive p hp).2.2 q (by simp [hb.phase, Phase.Commits])
    exact ⟨st, hb⟩

theorem Quiet.move (h : Quiet L d s H) {q : Phase} {n next : Nat} {op : P → Nat} :
    Quiet L d { s.setPhase p q with outstanding := n } { H with op := op, next := next } where
  committing := h.committing
  listed := h.listed
  clear := h.clear
  disk := h.disk
  buf := h.buf
  same := h.same
  finished := h.finished

theorem listed_absorb {lh : List BlockNo} (h : Listed L lh) (hb : L.Home b)
    (hroom : b ∈ lh ∨ lh.length < L.size - 1) (hshort : b ∈ lh ∨ lh.length < LOGSIZE) :
    Listed L (absorb lh b) := by
  refine ⟨?_, ?_, fun b' hb' => ?_⟩
  · unfold absorb
    split_ifs with hm
    · exact h.room
    · have := hroom.resolve_left hm
      rw [length_append, length_singleton]
      omega
  · unfold absorb
    split_ifs with hm
    · exact h.short
    · have := hshort.resolve_left hm
      rw [length_append, length_singleton]
      simp only [LOGSIZE, MAXOPBLOCKS] at this
      omega
  · rcases mem_absorb.mp hb' with hm | rfl
    · exact h.home b' hm
    · exact hb

theorem Quiet.logWrite (h : Quiet L d s H) {data : Block} (hp : s.phase p = .writing b data)
    (hb : L.Home b) (hroom : b ∈ s.lh ∨ s.lh.length < L.size - 1)
    (hshort : b ∈ s.lh ∨ s.lh.length < LOGSIZE) :
    Quiet L d (s.effect L (.logWrite p)) (H.record s (.logWrite p)) := by
  simp only [effect, record, hp]
  exact
    { committing := h.committing
      listed := listed_absorb h.listed hb hroom hshort
      clear := h.clear
      disk := h.disk
      buf := fun b' hb' => by
        rw [stateAfter_snoc]
        simp only [Function.update_apply, h.buf b' hb']
      same := fun b' hb' hnot => by
        obtain ⟨hnot, hne⟩ := not_or.mp (mem_absorb.not.mp hnot)
        simpa [hne] using h.same b' hb' hnot
      finished := h.finished }

/-- The last `end_op` closes the group and goes on to `commit`. -/
theorem Quiet.close (h : Quiet L d s H) (ho : s.outstanding - 1 = 0) :
    ∃ st, Busy L d (s.effect L (.endOp p)) (H.record s (.endOp p)) p st := by
  simp only [effect, record, if_pos ho]
  refine ⟨if 0 < s.lh.length then .writeLog 0 else .done, ?_⟩
  have hold : (H.groups ++ [H.current]).take H.finished = H.groups := by
    rw [h.finished, take_left]
  exact
    { phase := by simp [setPhase]
      current := rfl
      finished := by simp [h.finished]
      sound := by
        rw [hold]
        split_ifs with hlen
        · exact ⟨h.listed, h.clear, h.disk, h.buf,
            fun b hb hnot => (h.disk b hb).symm.trans ((h.same b hb hnot).symm.trans (h.buf b hb)),
            fun t _ ht => absurd ht (Nat.not_lt_zero t)⟩
        · have hnil : s.lh = [] := length_eq_zero_iff.mp (Nat.eq_zero_of_not_pos hlen)
          exact ⟨hnil, h.clear,
            fun b hb => (h.same b hb (by simp [hnil])).symm.trans (h.buf b hb), h.buf⟩ }

theorem Busy.commit {st : Stage} (h : Busy L d s H p st) (hst : st ≠ .done) :
    Busy L d (s.effect L (.commit p)) (H.record s (.commit p)) p
      (Stage.step L (st, s.toCore)).1 := by
  have heff : s.effect L (.commit p) =
      { s.setPhase p (.commit (Stage.step L (st, s.toCore)).1) with
        toCore := (Stage.step L (st, s.toCore)).2 } := by
    cases st <;> simp_all [effect, h.phase]
  have hrec : H.record s (.commit p) = H := by
    cases st <;> simp_all [record, h.phase]
  rw [heff, hrec]
  exact
    { phase := by simp [setPhase]
      current := h.current
      finished := h.finished
      sound := h.sound.step }

theorem Busy.done (h : Busy L d s H p .done) :
    Quiet L d (s.effect L (.commit p)) (H.record s (.commit p)) := by
  simp only [effect, record, h.phase]
  have hf : Finished L (stateAfter d H.groups) s.toCore := h.sound
  exact
    { committing := rfl
      listed := hf.lh ▸ Listed.nil
      clear := hf.clear
      disk := hf.disk
      buf := fun b hb => by simpa [h.current] using hf.buf b hb
      same := fun b hb _ => (hf.buf b hb).trans (hf.disk b hb).symm
      finished := h.finished }

/-- **Every step keeps the invariant**, under the two conditions. -/
theorem Inv.effect (h : Inv L d s H) (he : s.Enabled L e) (ho : s.Outside L e)
    (hr : s.Room L e) : Inv L d (s.effect L e) (H.record s e) := by
  have hcount := h.counted.effect he
  have hexcl := h.exclusive.effect h.counted he
  cases e with
  | beginOp p =>
    refine ⟨hcount, hexcl, fun q b data hq => ?_, .inl (h.quiet he.2.1).move⟩
    by_cases hqp : q = p
    · simp [Fs.effect, setPhase, hqp] at hq
    · exact h.home q b data (by simpa [Fs.effect, setPhase, hqp] using hq)
  | logCheck p b data =>
    have hq := h.quiet_of_open (p := p) (by simp [he.1, Phase.Open])
    refine ⟨hcount, hexcl, fun q b' data' hq' => ?_, .inl hq.move⟩
    by_cases hqp : q = p
    · obtain ⟨rfl, rfl⟩ : b = b' ∧ data = data' := by simpa [Fs.effect, setPhase, hqp] using hq'
      exact ho
    · exact h.home q b' data' (by simpa [Fs.effect, setPhase, hqp] using hq')
  | logWrite p =>
    have hw : s.Writes (s.phase p) := he
    cases hph : s.phase p with
    | writing b data =>
      have hq := h.quiet_of_open (p := p) (by simp [hph, Phase.Open])
      refine ⟨hcount, hexcl, fun q b' data' hq' => ?_, .inl ?_⟩
      · by_cases hqp : q = p
        · simp [Fs.effect, hph, setPhase, hqp] at hq'
        · exact h.home q b' data' (by simpa [Fs.effect, hph, setPhase, hqp] using hq')
      · exact hq.logWrite hph (h.home p b data hph) (by simpa [Room, Fits, hph] using hr)
          (by simpa [hph, Writes] using hw)
    | _ => simp [hph, Writes] at hw
  | endOp p =>
    have hq := h.quiet he.2
    refine ⟨hcount, hexcl, fun q b data hq' => ?_, ?_⟩
    · by_cases hqp : q = p
      · simp only [Fs.effect] at hq'
        split_ifs at hq' <;> simp [setPhase, hqp] at hq'
      · refine h.home q b data ?_
        simp only [Fs.effect] at hq'
        split_ifs at hq' <;> simpa [setPhase, hqp] using hq'
    · by_cases h0 : s.outstanding - 1 = 0
      · exact .inr ⟨p, hq.close h0⟩
      · left
        simp only [Fs.effect, record, if_neg h0]
        exact hq.move
  | commit p =>
    have hc : (s.phase p).Commits := he.1
    obtain ⟨st, hb⟩ := h.busy hc
    refine ⟨hcount, hexcl, fun q b data hq' => ?_, ?_⟩
    · by_cases hqp : q = p
      · cases st <;> simp [Fs.effect, hb.phase, setPhase, hqp] at hq'
      · refine h.home q b data ?_
        cases st <;> simpa [Fs.effect, hb.phase, setPhase, hqp] using hq'
    · by_cases hst : st = .done
      · subst hst
        exact .inl hb.done
      · exact .inr ⟨p, _, hb.commit hst⟩

/-! ## Operations and groups -/

/-- Operations are numbered in the order of the groups, and those in progress come last. -/
structure Ordered (s : Fs P) (H : Chronicle P) : Prop where
  pairwise : (H.groups ++ [H.current]).Pairwise fun g g' => ∀ w ∈ g, ∀ w' ∈ g', w.op < w'.op
  fresh : ∀ w ∈ H.entries, w.op < H.next
  numbered : ∀ p, s.phase p ≠ .idle → H.op p < H.next
  later : ∀ p, (s.phase p).Open → ∀ w ∈ H.groups.flatten, w.op < H.op p
  returned : ∀ o ∈ H.returned, o < H.next ∧ (∀ p, (s.phase p).Open → o < H.op p) ∧
    ∀ w ∈ H.unfinished, o < w.op

omit [DecidableEq P] in
theorem Ordered.move (h : Ordered s H) {s' : Fs P}
    (hidle : ∀ p, s'.phase p ≠ .idle → s.phase p ≠ .idle)
    (hopen : ∀ p, (s'.phase p).Open → (s.phase p).Open) : Ordered s' H where
  pairwise := h.pairwise
  fresh := h.fresh
  numbered p hp := h.numbered p (hidle p hp)
  later p hp := h.later p (hopen p hp)
  returned o ho := ⟨(h.returned o ho).1, fun p hp => (h.returned o ho).2.1 p (hopen p hp),
    (h.returned o ho).2.2⟩

theorem Ordered.beginOp (h : Ordered s H) (p : P) :
    Ordered (s.effect L (.beginOp p)) (H.record s (.beginOp p)) where
  pairwise := h.pairwise
  fresh w hw := Nat.lt_succ_of_lt (h.fresh w hw)
  numbered q hq := by
    by_cases hqp : q = p
    · simp [record, hqp]
    · have := h.numbered q (by simpa [effect, setPhase, hqp] using hq)
      simp only [record, Function.update_of_ne hqp]
      omega
  later q hq w hw := by
    by_cases hqp : q = p
    · have hlt : w.op < H.next := h.fresh w (by
        rw [entries, flatten_append]
        exact mem_append_left _ hw)
      simpa [record, hqp] using hlt
    · have := h.later q (by simpa [effect, setPhase, hqp] using hq) w hw
      simpa [record, hqp] using this
  returned o ho := by
    obtain ⟨hlt, hopen, hun⟩ := h.returned o ho
    refine ⟨Nat.lt_succ_of_lt hlt, fun q hq => ?_, hun⟩
    by_cases hqp : q = p
    · simpa [record, hqp] using hlt
    · have := hopen q (by simpa [effect, setPhase, hqp] using hq)
      simpa [record, hqp] using this

theorem Ordered.logWrite (h : Ordered s H) {data : Block} (hp : s.phase p = .writing b data) :
    Ordered (s.effect L (.logWrite p)) (H.record s (.logWrite p)) := by
  simp only [effect, record, hp]
  have hpo : (s.phase p).Open := by simp [hp, Phase.Open]
  have hopen : ∀ q, (Function.update s.phase p .op q).Open → (s.phase q).Open := by
    intro q hq
    by_cases hqp : q = p
    · exact hqp ▸ hpo
    · simpa [hqp] using hq
  refine ⟨?_, fun w hw => ?_, fun q hq => ?_, fun q hq => h.later q (hopen q hq), fun o ho => ?_⟩
  · obtain ⟨hg, -, hcross⟩ := pairwise_append.mp h.pairwise
    refine pairwise_append.mpr ⟨hg, pairwise_singleton _ _, fun g hgm g' hg' w hw w' hw' => ?_⟩
    obtain rfl := mem_singleton.mp hg'
    rcases mem_append.mp hw' with hw' | hw'
    · exact hcross g hgm _ (mem_singleton_self _) w hw w' hw'
    · obtain rfl := mem_singleton.mp hw'
      exact h.later p hpo w (mem_flatten.mpr ⟨g, hgm, hw⟩)
  · simp only [entries, flatten_append, flatten_singleton,
      ← append_assoc] at hw
    rcases mem_append.mp hw with hw | hw
    · exact h.fresh w (by simpa [entries] using hw)
    · obtain rfl := mem_singleton.mp hw
      exact h.numbered p (by simp [hp])
  · refine h.numbered q ?_
    by_cases hqp : q = p
    · simp [hqp, hp]
    · simpa [setPhase, hqp] using hq
  · obtain ⟨hlt, hop, hun⟩ := h.returned o ho
    refine ⟨hlt, fun q hq => hop q (hopen q hq), fun w hw => ?_⟩
    simp only [unfinished, flatten_append, flatten_singleton,
      ← append_assoc] at hw
    rcases mem_append.mp hw with hw | hw
    · exact hun w (by simpa [unfinished] using hw)
    · obtain rfl := mem_singleton.mp hw
      exact hop p hpo

omit [DecidableEq P] in
theorem Ordered.close (h : Ordered s H) {s' : Fs P} (hle : H.finished ≤ H.groups.length)
    (hidle : ∀ p, s'.phase p ≠ .idle → s.phase p ≠ .idle) (hopen : ∀ p, ¬ (s'.phase p).Open) :
    Ordered s' { H with groups := H.groups ++ [H.current], current := [] } where
  pairwise := pairwise_append.mpr ⟨h.pairwise, pairwise_singleton _ _, by simp⟩
  fresh w hw := h.fresh w (by simpa [entries] using hw)
  numbered p hp := h.numbered p (hidle p hp)
  later p hp := absurd hp (hopen p)
  returned o ho := by
    refine ⟨(h.returned o ho).1, fun p hp => absurd hp (hopen p), fun w hw => ?_⟩
    refine (h.returned o ho).2.2 w ?_
    simpa [unfinished, drop_append_of_le_length hle] using hw

theorem Busy.ordered (hb : Busy L d s H p .done) (hopen : ∀ q, ¬ (s.phase q).Open)
    (h : Ordered s H) : Ordered (s.effect L (.commit p)) (H.record s (.commit p)) := by
  simp only [effect, record, hb.phase]
  have hopen' : ∀ q, ¬ (Function.update s.phase p .idle q).Open := by
    intro q
    by_cases hqp : q = p
    · simp [hqp, Phase.Open]
    · simpa [hqp] using hopen q
  refine ⟨h.pairwise, h.fresh, fun q hq => ?_, fun q hq => absurd hq (hopen' q), fun o ho => ?_⟩
  · by_cases hqp : q = p
    · simp [setPhase, hqp] at hq
    · exact h.numbered q (by simpa [setPhase, hqp] using hq)
  · refine ⟨?_, fun q hq => absurd hq (hopen' q), fun w hw => ?_⟩
    · rcases mem_cons.mp ho with rfl | ho
      · exact h.numbered p (by simp [hb.phase])
      · exact (h.returned o ho).1
    · simp [unfinished, hb.finished, hb.current] at hw

theorem Ordered.effect (h : Ordered s H) (hi : Inv L d s H) (he : s.Enabled L e) :
    Ordered (s.effect L e) (H.record s e) := by
  cases e with
  | beginOp p => exact h.beginOp p
  | logCheck p b data =>
    refine h.move (fun q hq => ?_) fun q hq => ?_ <;> by_cases hqp : q = p
    · simp [hqp, he.1]
    · simpa [Fs.effect, setPhase, hqp] using hq
    · simp [hqp, he.1, Phase.Open]
    · simpa [Fs.effect, setPhase, hqp] using hq
  | logWrite p =>
    have hw : s.Writes (s.phase p) := he
    cases hph : s.phase p with
    | writing b data => exact h.logWrite hph
    | _ => simp [hph, Writes] at hw
  | endOp p =>
    have hcount := hi.counted.effect he
    by_cases h0 : s.outstanding - 1 = 0
    · simp only [Fs.effect, record, if_pos h0] at hcount ⊢
      refine h.close (hi.quiet he.2).finished.le (fun q hq => ?_) (hcount.none_open h0)
      by_cases hqp : q = p
      · simp [hqp, he.1]
      · simpa [setPhase, hqp] using hq
    · simp only [Fs.effect, record, if_neg h0]
      refine h.move (fun q hq => ?_) fun q hq => ?_ <;> by_cases hqp : q = p
      · simp [hqp, he.1]
      · simpa [setPhase, hqp] using hq
      · simp [setPhase, hqp, Phase.Open] at hq
      · simpa [setPhase, hqp] using hq
  | commit p =>
    have hc : (s.phase p).Commits := he.1
    obtain ⟨st, hb⟩ := hi.busy hc
    cases st with
    | done => exact hb.ordered (hi.counted.none_open (hi.exclusive p hc).2.1) h
    | _ =>
      simp only [Fs.effect, record, hb.phase]
      refine h.move (fun q hq => ?_) fun q hq => ?_ <;> by_cases hqp : q = p
      · simp [hqp, hb.phase]
      · simpa [setPhase, hqp] using hq
      · simp [setPhase, hqp, Phase.Open] at hq
      · simpa [setPhase, hqp] using hq

omit [DecidableEq P] in
/-- An operation has all its entries in the first `k` groups, or none. -/
theorem Ordered.all_or_none (h : Ordered s H) (k o : Nat) :
    (∀ w ∈ H.entries, w.op = o → w ∈ (H.groups.take k).flatten) ∨
      ∀ w ∈ (H.groups.take k).flatten, w.op ≠ o := by
  have hsplit : H.groups ++ [H.current] = H.groups.take k ++ (H.groups.drop k ++ [H.current]) := by
    rw [← append_assoc, take_append_drop]
  have hcross := (pairwise_append.mp (hsplit ▸ h.pairwise)).2.2
  by_contra! hno
  obtain ⟨⟨w, hw, rfl, hnot⟩, v, hv, heq⟩ := hno
  obtain ⟨g, hg, hvg⟩ := mem_flatten.mp hv
  rw [entries, hsplit, flatten_append, mem_append] at hw
  obtain ⟨g', hg', hwg⟩ := mem_flatten.mp (hw.resolve_left hnot)
  have := hcross g hg g' hg' v hvg w hwg
  omega

/-! ## The result -/

omit [DecidableEq P] in
theorem initlog_inv (L : Layout) (d : Disk) :
    Inv L (initlog L d : Fs P).disk (initlog L d : Fs P) .start := by
  obtain ⟨hlh, hclear, hbuf⟩ := recoverFromLog_clear L d
  refine ⟨⟨∅, fun p => by simp [initlog, Phase.Open], rfl⟩, fun p hp => absurd hp id,
    fun p b data hp => ?_, .inl ?_⟩
  · simp [initlog] at hp
  · exact
      { committing := rfl
        listed := (show (initlog L d : Fs P).lh = [] from hlh) ▸ Listed.nil
        clear := hclear
        disk := fun b _ => rfl
        buf := fun b _ => congrFun hbuf b
        same := fun b _ _ => congrFun hbuf b
        finished := rfl }

omit [DecidableEq P] in
theorem initlog_ordered (L : Layout) (d : Disk) : Ordered (initlog L d : Fs P) .start := by
  refine ⟨by simp [start], by simp [start, entries], fun p hp => ?_,
    by simp [start], by simp [start]⟩
  exact absurd rfl hp

omit [DecidableEq P] in
theorem Inv.holds (h : Inv L d s H) :
    ∃ k, H.finished ≤ k ∧ k ≤ H.groups.length ∧ Holds L s.disk (stateAfter d (H.groups.take k)) := by
  rcases h.state with hq | ⟨p, st, hb⟩
  · refine ⟨H.groups.length, hq.finished.le, le_rfl, .of_clear hq.clear fun b hb => ?_⟩
    rw [take_length]
    exact hq.disk b hb
  · have hfin := hb.finished
    rcases hb.sound.holds with hold | hnew
    · exact ⟨H.finished, le_rfl, by omega, hold⟩
    · refine ⟨H.groups.length, by omega, le_rfl, ?_⟩
      rwa [take_length]

/-- **Crash atomicity.** The machine runs from any disk and crashes anywhere; recovery is cut short
after some block writes, again and again (`ks`), and at last runs to its end. The home blocks are
then those after the first `k` groups, every operation is in them with all it logged or nothing,
and those whose `end_op` returned after its `commit` are. -/
theorem crash_atomic {es : List (Event P)} (hrun : (initlog L d).run L es = some s)
    (hout : Allowed (step L) (Outside L) (initlog L d) es)
    (hroom : Allowed (step L) (Room L) (initlog L d) es)
    (hH : H = track (step L) record (initlog L d) .start es)
    (ks : List Nat) :
    ∃ k, H.finished ≤ k ∧ k ≤ H.groups.length ∧
      (∀ b, L.Home b → (recoverFromLog L (ks.foldl (attempt L) s.disk)).disk b =
        stateAfter (initlog L d : Fs P).disk (H.groups.take k) b) ∧
      (∀ o, (∀ w ∈ H.entries, w.op = o → w ∈ (H.groups.take k).flatten) ∨
        ∀ w ∈ (H.groups.take k).flatten, w.op ≠ o) ∧
      ∀ o ∈ H.returned, ∀ w ∈ H.entries, w.op = o → w ∈ (H.groups.take k).flatten := by
  obtain ⟨hinv, hord⟩ : Inv L (initlog L d : Fs P).disk s H ∧ Ordered s H := by
    subst hH
    refine run_track (C := fun s e => s.Outside L e ∧ s.Room L e)
      (I := fun s H => Inv L (initlog L d : Fs P).disk s H ∧ Ordered s H)
      (fun s g e s' hI hC he => ?_) hrun (hout.and hroom) ⟨initlog_inv L d, initlog_ordered L d⟩
    obtain ⟨hen, rfl⟩ := step_eq_some.mp he
    exact ⟨hI.1.effect hen hC.1 hC.2, hI.2.effect hI.1 hen⟩
  obtain ⟨k, hle, hk, hholds⟩ := hinv.holds
  refine ⟨k, hle, hk, (hholds.attempts ks).recover.disk, hord.all_or_none k, fun o ho w hw hwo => ?_⟩
  -- what is not among the first `k` groups is unfinished, and comes after what has returned
  by_contra hnot
  have hun : w ∈ H.unfinished := by
    rw [entries_eq, mem_append] at hw
    refine hw.resolve_left fun hmem => hnot ?_
    obtain ⟨g, hg, hwg⟩ := mem_flatten.mp hmem
    exact mem_flatten.mpr ⟨g, take_subset_take_left _ hle hg, hwg⟩
  have := (hord.returned o ho).2.2 w hun
  omega

/-- Two operations in one group; the crash comes after the header and one home block. -/
def crashSession : List (Event (Fin 2)) :=
  let p : Fin 2 := ⟨0, Nat.two_pos⟩
  let q : Fin 2 := ⟨1, Nat.one_lt_two⟩
  List.flatten
    [[.beginOp p, .beginOp q], logs p 100, logs q 101, logs p 101, [.endOp p, .endOp q],
      List.replicate 4 (.commit q)]

/-- Recovery is cut short after one write, then runs to its end. -/
theorem crashSession_atomic :
    let L := Layout.mkfs
    let H := track (step L) record (initlog L fun _ _ => 0) .start crashSession
    ∃ s ∈ (initlog L fun _ _ => 0).run L crashSession, ∃ k, H.finished ≤ k ∧ k ≤ H.groups.length ∧
      ∀ b, L.Home b → (recoverFromLog L (attempt L s.disk 1)).disk b =
        stateAfter (initlog L fun _ _ => 0 : Fs (Fin 2)).disk (H.groups.take k) b := by
  intro L H
  have hsome : ((initlog L fun _ _ => 0).run L crashSession).isSome := by decide +kernel
  have hout : Allowed (step L) (Outside L) (initlog L fun _ _ => 0) crashSession := by
    decide +kernel
  have hroom : Allowed (step L) (Room L) (initlog L fun _ _ => 0) crashSession := by
    decide +kernel
  obtain ⟨s, hs⟩ := Option.isSome_iff_exists.mp hsome
  obtain ⟨k, hle, hk, heq, -⟩ := crash_atomic hs hout hroom rfl [1]
  exact ⟨s, hs, k, hle, hk, heq⟩

/-- A log of 20 blocks. -/
def smallLog : Layout := ⟨2, 20, by decide⟩

/-- Two operations of ten blocks each. When 18 blocks are in the header, two processes pass the
tests of `log_write` before either takes `log.lock`. -/
def overrun : List (Event (Fin 2)) :=
  let p : Fin 2 := ⟨0, Nat.two_pos⟩
  let q : Fin 2 := ⟨1, Nat.one_lt_two⟩
  List.flatten
    [[.beginOp p, .beginOp q],
      (List.range 9).flatMap fun i => logs p (BitVec.ofNat 32 (100 + i)),
      (List.range 9).flatMap fun i => logs q (BitVec.ofNat 32 (200 + i)),
      [.logCheck p 109 fun _ => 109, .logCheck q 209 fun _ => 209, .logWrite p, .logWrite q],
      [.endOp p, .endOp q], List.replicate 43 (.commit q)]

/-- The twentieth log block is block 22, the first one after the log. -/
theorem overrun_corrupts :
    let L := smallLog
    let H := track (step L) record (initlog L fun _ _ => 0) .start overrun
    Allowed (step L) (Outside L) (initlog L fun _ _ => 0) overrun ∧
    ∃ s ∈ (initlog L fun _ _ => 0).run L overrun, L.Home 22 ∧ ∀ k ≤ H.groups.length,
      (recoverFromLog L s.disk).disk 22 0 = 209 ∧
      stateAfter (initlog L fun _ _ => 0 : Fs (Fin 2)).disk (H.groups.take k) 22 0 = 0 := by
  decide +kernel

end Fs

end Xv6.Log
