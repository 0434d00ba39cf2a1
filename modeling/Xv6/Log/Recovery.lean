import Xv6.Log.Machine

/-!
# What `commit` and recovery leave on the disk

`commit` goes through three kinds of disks. While the log blocks are written the header is clear,
and the home blocks are the `old` ones (`Writing`). The write of the header is the commit: from
there on the disk owes its home blocks to the log (`Installing`), until they are all copied and the
header is clear again (`Finished`). `recover_from_log` starts anywhere in the last two.

`Holds L d target` is what all of them have in common: `recover_from_log` turns the home blocks of
`d` into those of `target` (`Holds.recover`), and an attempt that is cut short leaves that as it is
(`Holds.attempt`).
-/

namespace Xv6.Log

open Redo Log.Core

variable {L : Layout} {c : Core} {d old target : Disk} {tail : Nat}

/-! ## Where the log blocks are -/

namespace Layout

theorem slot_sub {t : Nat} (h : t < 127) : (L.slot t - L.start).toNat = t + 1 := by
  have heq : L.slot t - L.start = BitVec.ofNat 32 (t + 1) := by
    simp only [slot, BitVec.ofNat_add]
    grind
  rw [heq, BitVec.toNat_ofNat]
  omega

theorem region_start : L.Region L.start := by
  simpa [Region] using L.size_pos

theorem region_slot {t : Nat} (h : t < 127) (hs : t + 1 < L.size) : L.Region (L.slot t) := by
  rw [Region, slot_sub h]
  exact hs

theorem slot_ne_start {t : Nat} (h : t < 127) : L.slot t ≠ L.start := by
  intro heq
  have := slot_sub (L := L) h
  simp [heq] at this

theorem slot_inj {t u : Nat} (ht : t < 127) (hu : u < 127) (heq : L.slot t = L.slot u) : t = u := by
  have h₁ := slot_sub (L := L) ht
  have h₂ := slot_sub (L := L) hu
  rw [heq] at h₁
  omega

theorem Home.ne {b b' : BlockNo} (h : L.Home b) (h' : L.Region b') : b ≠ b' :=
  fun heq => h (heq ▸ h')

end Layout

/-! ## The header in memory -/

/-- The header fits the log, and lists home blocks. -/
structure Listed (L : Layout) (lh : List BlockNo) : Prop where
  room : lh.length < L.size
  short : lh.length ≤ 127
  home : ∀ b ∈ lh, L.Home b

theorem Listed.nil : Listed L [] := ⟨L.size_pos, by simp, by simp⟩

variable {lh : List BlockNo} {t : Nat}

theorem Listed.region_slot (h : Listed L lh) (ht : t < lh.length) : L.Region (L.slot t) := by
  have := h.room
  have := h.short
  exact Layout.region_slot (by omega) (by omega)

/-- A home block is not touched by a write to the log. -/
theorem Listed.ne_slot (h : Listed L lh) (ht : t < lh.length) {b : BlockNo} (hb : L.Home b) :
    b ≠ L.slot t :=
  hb.ne (h.region_slot ht)

theorem Listed.slot_ne_start (h : Listed L lh) (ht : t < lh.length) : L.slot t ≠ L.start :=
  Layout.slot_ne_start (Nat.lt_of_lt_of_le ht h.short)

theorem getD_eq (ht : t < lh.length) : lh.getD t 0 = lh[t] := by
  simp [List.getD, ht]

/-! ## The stages -/

/-- In `write_log`. -/
structure Writing (L : Layout) (old target : Disk) (tail : Nat) (c : Core) : Prop where
  listed : Listed L c.lh
  clear : headOf (c.disk L.start) = []
  disk : ∀ b, L.Home b → c.disk b = old b
  buf : ∀ b, L.Home b → c.buf b = target b
  same : ∀ b, L.Home b → b ∉ c.lh → old b = target b
  logged : ∀ t (h : t < c.lh.length), t < tail →
    c.disk (L.slot t) = target c.lh[t] ∧ c.buf (L.slot t) = target c.lh[t]

/-- In `install_trans`. In `commit` the buffers hold the new home blocks already; after a reboot
they are what is on the disk. -/
structure Installing (L : Layout) (target : Disk) (tail : Nat) (c : Core) : Prop where
  listed : Listed L c.lh
  head : headOf (c.disk L.start) = c.lh
  owes : Owes c.lh L.slot L.Home c.disk target
  slots : ∀ t, t < c.lh.length → c.buf (L.slot t) = c.disk (L.slot t)
  copied : ∀ b ∈ c.lh.take tail, c.disk b = target b
  buf : ∀ b, L.Home b → c.buf b = target b ∨ c.buf b = c.disk b

/-- Through with the disk. -/
structure Finished (L : Layout) (target : Disk) (c : Core) : Prop where
  lh : c.lh = []
  clear : headOf (c.disk L.start) = []
  disk : ∀ b, L.Home b → c.disk b = target b
  buf : ∀ b, L.Home b → c.buf b = target b

theorem Writing.step (h : Writing L old target tail c) (ht : tail < c.lh.length) :
    Writing L old target (tail + 1) (c.writeLog L tail) := by
  have hval : c.buf (c.lh.getD tail 0) = target c.lh[tail] := by
    rw [getD_eq ht]
    exact h.buf _ (h.listed.home _ (List.getElem_mem ht))
  have hne : ∀ b, L.Home b → b ≠ L.slot tail := fun b hb => h.listed.ne_slot ht hb
  refine ⟨h.listed, ?_, fun b hb => ?_, fun b hb => ?_, h.same, fun t hlt hle => ?_⟩
  · simpa [writeLog, bwrite, (h.listed.slot_ne_start ht).symm] using h.clear
  · simpa [writeLog, bwrite, hne b hb] using h.disk b hb
  · simpa [writeLog, bwrite, hne b hb] using h.buf b hb
  · simp only [writeLog, bwrite, hval] at hlt ⊢
    by_cases heq : t = tail
    · subst heq
      simp
    · have hslot : L.slot t ≠ L.slot tail := fun h' => heq <|
        Layout.slot_inj (Nat.lt_of_lt_of_le hlt h.listed.short)
          (Nat.lt_of_lt_of_le ht h.listed.short) h'
      simpa [hslot] using h.logged t hlt (by omega)

/-- The write of the header commits. -/
theorem Writing.commit (h : Writing L old target tail c) (ht : ¬ tail < c.lh.length) :
    Installing L target 0 (c.writeHead L) := by
  have hne : ∀ b, L.Home b → b ≠ L.start := fun b hb => hb.ne Layout.region_start
  have hlogged : ∀ t (hlt : t < c.lh.length),
      c.disk (L.slot t) = target c.lh[t] ∧ c.buf (L.slot t) = target c.lh[t] :=
    fun t hlt => h.logged t hlt (by omega)
  refine ⟨h.listed, ?_, ⟨fun t hlt => ?_, fun b hb hnot => ?_⟩, fun t hlt => ?_,
    by simp [writeHead, bwrite], fun b hb => .inl ?_⟩
  · simpa [writeHead, bwrite] using headOf_setHead h.listed.short
  · show Function.update c.disk L.start _ (L.slot t) = target c.lh[t]
    rw [Function.update_of_ne (h.listed.slot_ne_start hlt)]
    exact (hlogged t hlt).1
  · simpa [writeHead, bwrite, hne b hb] using (h.disk b hb).trans (h.same b hb hnot)
  · have hs := h.listed.slot_ne_start hlt
    simpa [writeHead, bwrite, hs] using (hlogged t hlt).2.trans (hlogged t hlt).1.symm
  · simpa [writeHead, bwrite, hne b hb] using h.buf b hb

theorem Installing.step (h : Installing L target tail c) (ht : tail < c.lh.length) :
    Installing L target (tail + 1) (c.installTrans L tail) := by
  have hc : c.installTrans L tail = c.bwrite c.lh[tail] (c.disk (L.slot tail)) := by
    rw [installTrans, getD_eq ht, h.slots tail ht]
  have hhome := h.listed.home _ (List.getElem_mem ht)
  have hval : c.disk (L.slot tail) = target c.lh[tail] := h.owes.logged tail ht
  have hnot : ∀ t, t < c.lh.length → ¬ L.Home (L.slot t) :=
    fun t hlt => not_not.mpr (h.listed.region_slot hlt)
  have hstart : L.start ≠ c.lh[tail] := (hhome.ne Layout.region_start).symm
  rw [hc]
  refine ⟨h.listed, ?_, h.owes.install h.listed.home hnot ht, fun t hlt => ?_,
    h.owes.install_take ht h.copied, fun b hb => ?_⟩
  · simpa [bwrite, hstart] using h.head
  · have hne : L.slot t ≠ c.lh[tail] := (h.listed.ne_slot hlt hhome).symm
    simpa [bwrite, hne] using h.slots t hlt
  · by_cases heq : b = c.lh[tail]
    · simp [bwrite, heq]
    · simpa [bwrite, heq] using h.buf b hb

theorem Installing.finish (h : Installing L target tail c) (ht : ¬ tail < c.lh.length) :
    Finished L target ({ c with lh := [] }.writeHead L) := by
  have hne : ∀ b, L.Home b → b ≠ L.start := fun b hb => hb.ne Layout.region_start
  have hall : ∀ b ∈ c.lh, c.disk b = target b := by
    have := h.copied
    rwa [List.take_of_length_le (Nat.le_of_not_lt ht)] at this
  have hdisk := h.owes.finish hall
  refine ⟨rfl, ?_, fun b hb => ?_, fun b hb => ?_⟩
  · simpa [writeHead, bwrite] using headOf_setHead (l := []) (by simp)
  · simpa [writeHead, bwrite, hne b hb] using hdisk b hb
  · have hbuf : c.buf b = target b := (h.buf b hb).elim id fun h' => h'.trans (hdisk b hb)
    simpa [writeHead, bwrite, hne b hb] using hbuf

/-- What a process in `commit` can rely on, from the home blocks `old` to `target`. -/
def Stage.Sound (L : Layout) (old target : Disk) : Stage → Core → Prop
  | .writeLog tail => Writing L old target tail
  | .install tail => Installing L target tail
  | .done => Finished L target

theorem Stage.Sound.step {st : Stage} (h : st.Sound L old target c) :
    (Stage.step L (st, c)).1.Sound L old target (Stage.step L (st, c)).2 := by
  cases st with
  | writeLog tail =>
    simp only [Stage.step]
    split
    · next ht => exact Writing.step h ht
    · next ht => exact Writing.commit h ht
  | install tail =>
    simp only [Stage.step]
    split
    · next ht => exact Installing.step h ht
    · next ht => exact Installing.finish h ht
  | done => exact h

/-! ## Disks that recover -/

/-- The log of the disk makes its home blocks those of `target`. -/
structure Holds (L : Layout) (d target : Disk) : Prop where
  listed : Listed L (headOf (d L.start))
  owes : Owes (headOf (d L.start)) L.slot L.Home d target

theorem Holds.of_clear (h : headOf (d L.start) = []) (hd : ∀ b, L.Home b → d b = target b) :
    Holds L d target := by
  refine ⟨?_, ?_⟩ <;> rw [h]
  · exact Listed.nil
  · exact Owes.nil_iff.mpr hd

theorem Stage.Sound.holds {st : Stage} (h : st.Sound L old target c) :
    Holds L c.disk old ∨ Holds L c.disk target := by
  cases st with
  | writeLog tail => exact .inl (.of_clear (Writing.clear h) (Writing.disk h))
  | install tail =>
    have h : Installing L target tail c := h
    refine .inr ⟨?_, ?_⟩ <;> rw [h.head]
    · exact h.listed
    · exact h.owes
  | done => exact .inr (.of_clear (Finished.clear h) (Finished.disk h))

/-- After `read_head` recovery is in `install_trans`. -/
theorem Holds.reboot (h : Holds L d target) :
    (reboot L d).1.Sound L target target (reboot L d).2 where
  listed := h.listed
  head := rfl
  owes := h.owes
  slots _ _ := rfl
  copied := by simp
  buf _ _ := .inr rfl

theorem Stage.Sound.iterate {x : Stage × Core} (h : x.1.Sound L old target x.2) (k : Nat) :
    ((Stage.step L)^[k] x).1.Sound L old target ((Stage.step L)^[k] x).2 := by
  induction k generalizing x with
  | zero => exact h
  | succ k ih => exact ih h.step

/-- **Recovery can be cut short.** -/
theorem Holds.attempt (h : Holds L d target) (k : Nat) : Holds L (attempt L d k) target :=
  (h.reboot.iterate k).holds.elim id id

theorem Holds.attempts (h : Holds L d target) (ks : List Nat) :
    Holds L (ks.foldl (Log.attempt L) d) target := by
  induction ks generalizing d with
  | nil => exact h
  | cons k ks ih => exact ih (h.attempt k)

/-- `install_trans` ends, and the header is cleared. -/
theorem iterate_install {m : Nat} (hlen : c.lh.length = tail + m) (hbuf : c.buf = c.disk) :
    ∃ c' : Core, c'.buf = c'.disk ∧
      (Stage.step L)^[m + 1] (.install tail, c) = (.done, { c' with lh := [] }.writeHead L) := by
  induction m generalizing tail c with
  | zero =>
    refine ⟨c, hbuf, ?_⟩
    simp [Stage.step, hlen]
  | succ m ih =>
    have hstep : Stage.step L (.install tail, c) = (.install (tail + 1), c.installTrans L tail) := by
      simp [Stage.step, hlen]
    rw [Function.iterate_succ_apply, hstep]
    refine ih ?_ ?_
    · show c.lh.length = tail + 1 + m
      omega
    · simp [installTrans, bwrite, hbuf]

/-- Whatever was on the disk, after `recover_from_log` the log is empty. -/
theorem recoverFromLog_clear (L : Layout) (d : Disk) : (recoverFromLog L d).lh = [] ∧
    headOf ((recoverFromLog L d).disk L.start) = [] ∧
    (recoverFromLog L d).buf = (recoverFromLog L d).disk := by
  obtain ⟨c', hbuf, heq⟩ := iterate_install (L := L) (c := (reboot L d).2)
    (Nat.zero_add _).symm rfl
  have hrec : recoverFromLog L d = { c' with lh := [] }.writeHead L := congrArg Prod.snd heq
  rw [hrec]
  refine ⟨rfl, ?_, ?_⟩
  · simpa [writeHead, bwrite] using headOf_setHead (l := []) (by simp)
  · simp [writeHead, bwrite, hbuf]

/-- **Recovery pays what the disk owes.** -/
theorem Holds.recover (h : Holds L d target) : Finished L target (recoverFromLog L d) := by
  obtain ⟨c', -, heq⟩ := iterate_install (L := L) (c := (Log.reboot L d).2)
    (Nat.zero_add _).symm rfl
  have hsound := h.reboot.iterate ((headOf (d L.start)).length + 1)
  have hdone : ((Stage.step L)^[(headOf (d L.start)).length + 1] (Log.reboot L d)).1 = .done :=
    congrArg Prod.fst heq
  rw [hdone] at hsound
  exact hsound

end Xv6.Log
