import Xv6.Bio.Cache

/-!
# The cache is a block store

What a buffer holds is what was last stored in it or in an earlier buffer for its block: a buffer
that is recycled is clean, so that the disk has its contents, and a buffer is filled from the disk
only while no other stands for the block.
-/

namespace Xv6.Bio

open Circular Transition Cache
open Function (update update_idem update_of_ne update_self)

variable {P B : Type} [Fintype P] {s s' : Cache P B} {v : Nat → B} {b : Fin NBUF} {p : P}
  {disksize : Nat}

/-- The cache and the disk together have the contents `v`. -/
structure Contents (s : Cache P B) (v : Nat → B) : Prop where
  unique : ∀ b c, (s.buf b).dev = 1 → (s.buf c).dev = 1 →
    (s.buf b).blockno = (s.buf c).blockno → b = c
  held : ∀ p b, s.lock b = .held p → (s.buf b).valid
  dirty : ∀ b, (s.buf b).dirty → (s.buf b).valid
  saved : ∀ b, s.saved b = false → ∃ p, s.lock b = .held p
  valid : ∀ b, (s.buf b).valid → (s.buf b).dev = 1 ∧ (s.buf b).data = v (s.buf b).blockno
  clean : ∀ b, (s.buf b).valid → (s.buf b).dirty = false → s.saved b = true →
    s.disk (s.buf b).blockno = (s.buf b).data
  rest : ∀ n, (∀ b, (s.buf b).valid → (s.buf b).blockno ≠ n) → v n = s.disk n

omit [Fintype P] in
theorem iderw_inv (h : s.iderw disksize b = some s') : (s.buf b).dev = 1 ∧
    ((s.buf b).dirty = true ∧ s' = { s.setBuf b { s.buf b with dirty := false, valid := true } with
        disk := update s.disk (s.buf b).blockno (s.buf b).data } ∨
      (s.buf b).valid = false ∧
        s' = s.setBuf b { s.buf b with data := s.disk (s.buf b).blockno, valid := true }) := by
  unfold iderw at h
  split at h
  · cases h
  · next hidle =>
    split at h
    · cases h
    · next hdev =>
      split at h
      · cases h
      · split at h
        · next hdirty =>
          cases h
          exact ⟨by simpa using hdev, .inl ⟨hdirty, rfl⟩⟩
        · next hdirty =>
          cases h
          refine ⟨by simpa using hdev, .inr ⟨?_, rfl⟩⟩
          simp only [Bool.not_eq_true] at hdirty
          simpa [hdirty] using hidle

omit [Fintype P] in
theorem unref_same (s : Cache P B) (b : Fin NBUF) :
    (s.unref b).buf =
        update s.buf b { s.buf b with refcnt := (s.buf b).refcnt - 1 } ∧
      (s.unref b).lock = s.lock ∧ (s.unref b).phase = s.phase ∧ (s.unref b).disk = s.disk ∧
      (s.unref b).saved = s.saved := by
  unfold unref
  dsimp only
  split <;> exact ⟨rfl, rfl, rfl, rfl, rfl⟩

namespace Contents

omit [Fintype P] in
/-- Reference counts, links and phases do not concern contents, nor do locks that are not held. -/
theorem congr (h : Contents s v)
    (hbuf : ∀ b, ∃ n, s'.buf b = { s.buf b with refcnt := n }) (hdisk : s'.disk = s.disk)
    (hsaved : s'.saved = s.saved) (hheld : ∀ p b, s'.lock b = .held p → s.lock b = .held p)
    (hkept : ∀ p b, s.lock b = .held p → s.saved b = false → s'.lock b = .held p) :
    Contents s' v := by
  choose n hbuf using hbuf
  refine ⟨?_, fun p b hp => ?_, ?_, fun b hb => ?_, ?_, ?_, ?_⟩
  · simpa only [hbuf] using h.unique
  · simp only [hbuf]
    exact h.held p b (hheld p b hp)
  · simpa only [hbuf] using h.dirty
  · rw [hsaved] at hb
    obtain ⟨p, hp⟩ := h.saved b hb
    exact ⟨p, hkept p b hp hb⟩
  · simpa only [hbuf] using h.valid
  · simpa only [hbuf, hdisk, hsaved] using h.clean
  · simpa only [hbuf, hdisk] using h.rest

omit [Fintype P] in
theorem hold (h : Contents s v) (hv : (s.buf b).valid) (hlock : ∀ q, s.lock b ≠ .held q) :
    Contents (s.setLock b (.held p)) v where
  unique := h.unique
  held q c hq := by
    by_cases hc : c = b
    · exact hc ▸ hv
    · exact h.held q c (by simpa [setLock, hc] using hq)
  dirty := h.dirty
  saved c hc := by
    obtain ⟨q, hq⟩ := h.saved c hc
    have hcb : c ≠ b := by
      rintro rfl
      exact hlock q hq
    exact ⟨q, by simpa [setLock, hcb] using hq⟩
  valid := h.valid
  clean := h.clean
  rest := h.rest

/-- A buffer nobody uses is taken for another block. -/
theorem recycle {dev blockno : Nat} (h : Contents s v) (hr : Refs s)
    (hnone : ∀ c, ¬ ((s.buf c).dev = dev ∧ (s.buf c).blockno = blockno))
    (hfree : (s.buf b).refcnt = 0 ∧ (s.buf b).dirty = false) :
    Contents (s.setBuf b ⟨false, false, dev, blockno, 1, (s.buf b).data⟩) v := by
  have hlock := hr.lock_free hfree.1
  have hsaved : s.saved b = true := by
    by_contra hb
    obtain ⟨p, hp⟩ := h.saved b (by simpa using hb)
    rw [hlock] at hp
    cases hp
  have hb : (s.setBuf b ⟨false, false, dev, blockno, 1, (s.buf b).data⟩).buf b =
      ⟨false, false, dev, blockno, 1, (s.buf b).data⟩ := update_self ..
  have hne (c) (hc : c ≠ b) :
      (s.setBuf b ⟨false, false, dev, blockno, 1, (s.buf b).data⟩).buf c = s.buf c :=
    update_of_ne hc ..
  have hvne {c} (hv : ((s.setBuf b ⟨false, false, dev, blockno, 1,
      (s.buf b).data⟩).buf c).valid = true) : c ≠ b := by
    rintro rfl
    rw [hb] at hv
    cases hv
  refine ⟨fun c c' hc hc' heq => ?_, fun p c hp => ?_, fun c hc => ?_, h.saved, fun c hc => ?_,
    fun c hc => ?_, fun n hn => ?_⟩
  · by_cases hcb : c = b
    · by_cases hcb' : c' = b
      · rw [hcb, hcb']
      · rw [hcb, hb] at hc heq
        rw [hne c' hcb'] at hc' heq
        exact absurd ⟨hc'.trans hc.symm, heq.symm⟩ (hnone c')
    · by_cases hcb' : c' = b
      · rw [hcb', hb] at hc' heq
        rw [hne c hcb] at hc heq
        exact absurd ⟨hc.trans hc'.symm, heq⟩ (hnone c)
      · rw [hne c hcb] at hc heq
        rw [hne c' hcb'] at hc' heq
        exact h.unique c c' hc hc' heq
  · have hcb : c ≠ b := by
      rintro rfl
      rw [show s.lock c = .held p from hp] at hlock
      cases hlock
    rw [hne c hcb]
    exact h.held p c hp
  · by_cases hcb : c = b
    · rw [hcb, hb] at hc
      cases hc
    · rw [hne c hcb] at hc ⊢
      exact h.dirty c hc
  · have hcb := hvne hc
    rw [hne c hcb] at hc ⊢
    exact h.valid c hc
  · have hcb := hvne hc
    rw [hne c hcb] at hc ⊢
    exact h.clean c hc
  · -- the block that the buffer stood for is on the disk as it was in the buffer
    by_cases hold : (s.buf b).valid = true ∧ (s.buf b).blockno = n
    · obtain ⟨hv, rfl⟩ := hold
      rw [← (h.valid b hv).2]
      exact (h.clean b hv hfree.2 hsaved).symm
    · refine h.rest n fun c hc heq => ?_
      by_cases hcb : c = b
      · subst hcb
        exact hold ⟨hc, heq⟩
      · refine hn c ?_ ?_
        · rwa [hne c hcb]
        · rwa [hne c hcb]

omit [Fintype P] in
theorem update {v' : Nat → B} (h : Contents s v)
    (hothers : ∀ c ≠ b, s'.buf c = s.buf c ∧ s'.saved c = s.saved c) (hlock : s'.lock = s.lock)
    (hdev : (s.buf b).dev = 1)
    (hname : (s'.buf b).dev = 1 ∧ (s'.buf b).blockno = (s.buf b).blockno)
    (hvalid : (s'.buf b).valid = true) (hdata : (s'.buf b).data = v' (s.buf b).blockno)
    (hclean : (s'.buf b).dirty = false → s'.saved b = true →
      s'.disk (s.buf b).blockno = (s'.buf b).data)
    (hsaved : s'.saved b = false → ∃ p, s.lock b = .held p)
    (hrest : ∀ n ≠ (s.buf b).blockno, v' n = v n ∧ s'.disk n = s.disk n) : Contents s' v' := by
  have hname' (c) : ((s'.buf c).dev = 1 → (s.buf c).dev = 1) ∧
      (s'.buf c).blockno = (s.buf c).blockno := by
    by_cases hc : c = b
    · subst hc
      exact ⟨fun _ => hdev, hname.2⟩
    · rw [(hothers c hc).1]
      exact ⟨id, rfl⟩
  have hapart {c} (hc : c ≠ b) (hv : (s.buf c).valid = true) :
      (s.buf c).blockno ≠ (s.buf b).blockno :=
    fun heq => hc (h.unique c b (h.valid c hv).1 hdev heq)
  refine ⟨fun c c' hc hc' heq => ?_, fun p c hp => ?_, fun c hd => ?_, fun c hs => ?_,
    fun c hv => ?_, fun c hv hd hs => ?_, fun n hn => ?_⟩
  · rw [(hname' c).2, (hname' c').2] at heq
    exact h.unique c c' ((hname' c).1 hc) ((hname' c').1 hc') heq
  · by_cases hc : c = b
    · rwa [hc]
    · rw [hlock] at hp
      rw [(hothers c hc).1]
      exact h.held p c hp
  · by_cases hc : c = b
    · rwa [hc]
    · rw [(hothers c hc).1] at hd ⊢
      exact h.dirty c hd
  · rw [hlock]
    by_cases hc : c = b
    · subst hc
      exact hsaved hs
    · rw [(hothers c hc).2] at hs
      exact h.saved c hs
  · by_cases hc : c = b
    · subst hc
      rw [hname.2]
      exact ⟨hname.1, hdata⟩
    · rw [(hothers c hc).1] at hv ⊢
      rw [(hrest _ (hapart hc hv)).1]
      exact h.valid c hv
  · by_cases hc : c = b
    · subst hc
      rw [hname.2]
      exact hclean hd hs
    · rw [(hothers c hc).1] at hv hd ⊢
      rw [(hothers c hc).2] at hs
      rw [(hrest _ (hapart hc hv)).2]
      exact h.clean c hv hd hs
  · have hnb : n ≠ (s.buf b).blockno := by
      rw [← hname.2]
      exact (hn b hvalid).symm
    rw [(hrest n hnb).1, (hrest n hnb).2]
    refine h.rest n fun c hv => ?_
    by_cases hc : c = b
    · rw [hc]
      exact hnb.symm
    · have := hn c
      rw [(hothers c hc).1] at this
      exact this hv

omit [Fintype P] in
theorem disk_eq (h : Contents s v) (hdev : (s.buf b).dev = 1) (hv : (s.buf b).valid = false) :
    v (s.buf b).blockno = s.disk (s.buf b).blockno := by
  refine h.rest _ fun c hc heq => ?_
  rw [h.unique c b (h.valid c hc).1 hdev heq, hv] at hc
  cases hc

end Contents

/-! ## Steps -/

/-- What holds between any two steps. -/
structure Inv (s : Cache P B) (v : Nat → B) : Prop where
  list : OnList s.links
  refs : Refs s
  contents : Contents s v

namespace Inv

variable [DecidableEq P] {e : Event P B} {d n : Nat}

omit [DecidableEq P] in
theorem binit (data : Fin NBUF → B) (disk : Nat → B) : Inv (P := P) (binit data disk) disk where
  list := onList_binit
  refs := by
    refine ⟨fun b => ?_, fun p d n b hp => ?_, fun p b => ?_⟩
    · have hslot : (Bio.binit (P := P) data disk).slot = fun _ => none := rfl
      rw [hslot, tally_none]
      rfl
    · simp [Bio.binit] at hp
    · simp [Bio.binit]
  contents := by
    refine ⟨fun b c hb => ?_, fun p b hp => ?_, fun b hb => ?_, fun b hb => ?_, fun b hb => ?_,
      fun b hb => ?_, fun n hn => rfl⟩ <;> cases ‹_ = _›

theorem bread (h : Inv s v) (hp : s.phase p = .idle) (hs : s.bget d n = some (b, s')) :
    Inv (s'.setPhase p (.waiting d n b)) v := by
  obtain ⟨hname, rfl⟩ | ⟨hnone, hfree, rfl⟩ := bget_inv h.list hs
  · refine ⟨h.list, h.refs.take hp (fun c hc => ?_) ?_ (fun _ => hname) rfl rfl,
      h.contents.congr (fun c => ?_) rfl rfl (fun _ _ => id) (fun _ _ hp _ => hp)⟩
    · exact update_of_ne hc ..
    · simpa [setBuf] using hname
    · by_cases hc : c = b
      · subst hc
        exact ⟨_, update_self ..⟩
      · exact ⟨_, update_of_ne hc ..⟩
  · refine ⟨h.list, h.refs.take hp (fun c hc => ?_) ?_ (fun hpos => ?_) rfl rfl,
      (h.contents.recycle h.refs hnone hfree).congr (fun c => ⟨_, rfl⟩) rfl rfl (fun _ _ => id)
        (fun _ _ hp _ => hp)⟩
    · exact update_of_ne hc ..
    · simp [setBuf, hfree.1]
    · omega

theorem lock (h : Inv s v) (hp : s.phase p = .waiting d n b) (hfree : s.lock b = .free) :
    Inv ((s.setLock b (.taken p)).setPhase p (.locked d n b)) v := by
  refine ⟨h.list, h.refs.lock hp hfree,
    h.contents.congr (fun c => ⟨_, rfl⟩) rfl rfl (fun q c hq => ?_) (fun q c hq _ => ?_)⟩
  · by_cases hc : c = b
    · subst hc
      simp [setPhase, setLock] at hq
    · simpa [setPhase, setLock, hc] using hq
  · have hc : c ≠ b := by
      rintro rfl
      rw [hfree] at hq
      cases hq
    simpa [setPhase, setLock, hc] using hq

omit [DecidableEq P] in
theorem update {x : Buf B} {v' : Nat → B} (h : Inv s v) (hlinks : s'.links = s.links)
    (hlock : s'.lock = s.lock) (hphase : s'.phase = s.phase)
    (hbuf : s'.buf = update s.buf b x) (hothers : ∀ c ≠ b, s'.saved c = s.saved c)
    (hdev : (s.buf b).dev = 1) (hname : x.dev = (s.buf b).dev ∧ x.blockno = (s.buf b).blockno)
    (hrefcnt : x.refcnt = (s.buf b).refcnt) (hvalid : x.valid = true)
    (hdata : x.data = v' (s.buf b).blockno)
    (hclean : x.dirty = false → s'.saved b = true → s'.disk (s.buf b).blockno = x.data)
    (hsaved : s'.saved b = false → ∃ p, s.lock b = .held p)
    (hrest : ∀ n ≠ (s.buf b).blockno, v' n = v n ∧ s'.disk n = s.disk n) : Inv s' v' := by
  have hb : s'.buf b = x := by rw [hbuf, update_self]
  have hne (c) (hc : c ≠ b) : s'.buf c = s.buf c := by rw [hbuf, update_of_ne hc]
  have hsame (c) : (s'.buf c).refcnt = (s.buf c).refcnt ∧ (s'.buf c).dev = (s.buf c).dev ∧
      (s'.buf c).blockno = (s.buf c).blockno := by
    by_cases hc : c = b
    · rw [hc, hb]
      exact ⟨hrefcnt, hname⟩
    · rw [hne c hc]
      exact ⟨rfl, rfl, rfl⟩
  refine ⟨hlinks ▸ h.list, h.refs.congr (fun c => (hsame c).1) (fun c => (hsame c).2.1)
    (fun c => (hsame c).2.2) hlock hphase, ?_⟩
  refine h.contents.update (fun c hc => ⟨hne c hc, hothers c hc⟩) hlock hdev ?_ ?_ ?_ ?_ hsaved hrest
  · rw [hb, ← hdev]
    exact hname
  · rwa [hb]
  · rwa [hb]
  · rwa [hb]

theorem fetch (h : Inv s v) (hp : s.phase p = .locked d n b)
    (hs : (if (s.buf b).valid then some s else s.iderw disksize b) = some s') :
    Inv ((s'.setLock b (.held p)).setPhase p .idle) v ∧ (s'.buf b).valid ∧
      (s'.buf b).dev = d ∧ (s'.buf b).blockno = n := by
  have hasked := h.refs.asked p d n b (.inr hp)
  have hlock := (h.refs.taken p b).mpr ⟨d, n, hp⟩
  -- filling the buffer keeps the invariant, and the lock can then be given to the process
  have hgive (hinv : Inv s' v) (hphase : s'.phase = s.phase) (hv : (s'.buf b).valid = true)
      (hlock' : s'.lock = s.lock) : Inv ((s'.setLock b (.held p)).setPhase p .idle) v := by
    rw [← hphase] at hp
    refine ⟨hinv.list, hinv.refs.fetch hp, ?_⟩
    refine (hinv.contents.hold hv fun q hq => ?_).congr (fun c => ⟨_, rfl⟩) rfl rfl
      (fun _ _ => id) (fun _ _ hp _ => hp)
    rw [hlock', hlock] at hq
    cases hq
  split at hs
  · next hv =>
    cases hs
    exact ⟨hgive h rfl hv rfl, hv, hasked⟩
  · next hv =>
    obtain ⟨hdev, ⟨hdirty, -⟩ | ⟨hinvalid, rfl⟩⟩ := iderw_inv hs
    · exact absurd (h.contents.dirty b hdirty) hv
    · have hbuf : (s.setBuf b { s.buf b with
          data := s.disk (s.buf b).blockno, valid := true }).buf b =
          { s.buf b with data := s.disk (s.buf b).blockno, valid := true } :=
        update_self ..
      refine ⟨hgive ?_ rfl ?_ rfl, ?_⟩
      · exact h.update rfl rfl rfl rfl (fun _ _ => rfl) hdev ⟨rfl, rfl⟩ rfl rfl
          (h.contents.disk_eq hdev hinvalid).symm (fun _ _ => rfl) (h.contents.saved b)
          (fun _ _ => ⟨rfl, rfl⟩)
      · rw [hbuf]
      · rw [hbuf]
        exact ⟨rfl, hasked⟩

omit [DecidableEq P] in
theorem modify {data : B} (h : Inv s v) (hb : s.Holds p b) :
    Inv ((s.setBuf b { s.buf b with data }).setSaved b false)
      (Function.update v (s.buf b).blockno data) := by
  have hvalid := h.contents.held p b hb.1
  refine h.update rfl rfl rfl rfl (fun c hc => ?_) (h.contents.valid b hvalid).1 ⟨rfl, rfl⟩ rfl
    hvalid ?_ (fun _ hs => ?_) (fun _ => ⟨p, hb.1⟩) (fun n hn => ⟨?_, rfl⟩)
  · exact update_of_ne hc ..
  · rw [update_self]
  · simp [setSaved] at hs
  · exact update_of_ne hn ..

omit [DecidableEq P] in
theorem bwrite (h : Inv s v) (hb : s.Holds p b)
    (hs : (s.setBuf b { s.buf b with dirty := true }).iderw disksize b = some s') :
    Inv (s'.setSaved b true) v := by
  have hbuf : (s.setBuf b { s.buf b with dirty := true }).buf b =
      { s.buf b with dirty := true } := update_self ..
  have hvalid := h.contents.held p b hb.1
  have hcontents := h.contents.valid b hvalid
  obtain ⟨-, ⟨-, rfl⟩ | ⟨hinvalid, -⟩⟩ := iderw_inv hs
  · rw [hbuf]
    refine h.update (x := { s.buf b with dirty := false, valid := true }) rfl rfl rfl ?_
      (fun c hc => ?_) hcontents.1 ⟨rfl, rfl⟩ rfl rfl hcontents.2 (fun _ _ => ?_) (fun hsaved => ?_)
      (fun n hn => ⟨rfl, ?_⟩)
    · exact update_idem ..
    · exact update_of_ne hc ..
    · exact update_self ..
    · simp [setSaved] at hsaved
    · exact update_of_ne hn ..
  · rw [hbuf] at hinvalid
    rw [show (s.buf b).valid = false from hinvalid] at hvalid
    cases hvalid

omit [DecidableEq P] in
theorem log_write (h : Inv s v) (hb : s.Holds p b) :
    Inv ((s.setBuf b { s.buf b with dirty := true }).setSaved b true) v := by
  have hvalid := h.contents.held p b hb.1
  have hcontents := h.contents.valid b hvalid
  refine h.update rfl rfl rfl rfl (fun c hc => ?_) hcontents.1 ⟨rfl, rfl⟩ rfl hvalid hcontents.2
    (fun hd => ?_) (fun hsaved => ?_) (fun n hn => ⟨rfl, rfl⟩)
  · exact update_of_ne hc ..
  · cases hd
  · simp [setSaved] at hsaved

theorem brelse (h : Inv s v) (hb : s.Holds p b) (hs : s.saved b = true) :
    Inv ((s.setLock b .free).setPhase p (.leaving b)) v := by
  refine ⟨h.list, h.refs.brelse hb.2 hb.1,
    h.contents.congr (fun c => ⟨_, rfl⟩) rfl rfl (fun q c hq => ?_) (fun q c hq hc => ?_)⟩
  · by_cases hc : c = b
    · subst hc
      simp [setPhase, setLock] at hq
    · simpa [setPhase, setLock, hc] using hq
  · have hcb : c ≠ b := by
      rintro rfl
      rw [hs] at hc
      cases hc
    simpa [setPhase, setLock, hcb] using hq

theorem drop (h : Inv s v) (hp : s.phase p = .leaving b) :
    Inv ((s.unref b).setPhase p .idle) v := by
  obtain ⟨hbuf, hlock, hphase, hdisk, hsaved⟩ := unref_same s b
  have hne (c) (hc : c ≠ b) : (s.unref b).buf c = s.buf c := by
    rw [hbuf, update_of_ne hc]
  have hb : (s.unref b).buf b = { s.buf b with refcnt := (s.buf b).refcnt - 1 } := by
    rw [hbuf, update_self]
  refine ⟨?_, h.refs.drop hp hne hb hlock hphase,
    h.contents.congr (fun c => ?_) hdisk hsaved (fun q c hq => hlock ▸ hq)
      (fun q c hq _ => by rwa [← hlock] at hq)⟩
  · show OnList (s.unref b).links
    unfold unref
    dsimp only
    split
    · exact h.list.touch b
    · exact h.list
  · by_cases hc : c = b
    · subst hc
      exact ⟨_, hb⟩
    · exact ⟨_, hne c hc⟩

/-- A step keeps the invariant, and what it stores is stored. -/
theorem step (h : Inv s v) (hs : s.step disksize e = some s') : Inv s' (store v s e) := by
  cases e with
  | bread p d n =>
    simp only [step] at hs
    split at hs
    · next hp =>
      obtain ⟨⟨b, t⟩, ht, rfl⟩ := Option.map_eq_some_iff.mp hs
      exact h.bread hp ht
    · cases hs
  | lock p =>
    simp only [step] at hs
    split at hs
    · next d n b hp =>
      split at hs
      · next hfree =>
        cases hs
        exact h.lock hp hfree
      · cases hs
    · cases hs
  | fetch p =>
    simp only [step] at hs
    split at hs
    · next d n b hp =>
      obtain ⟨t, ht, rfl⟩ := Option.map_eq_some_iff.mp hs
      exact (h.fetch hp ht).1
    · cases hs
  | modify p b data =>
    simp only [step] at hs
    split at hs
    · next hb =>
      cases hs
      exact h.modify hb
    · cases hs
  | bwrite p b =>
    simp only [step] at hs
    split at hs
    · next hb =>
      obtain ⟨t, ht, rfl⟩ := Option.map_eq_some_iff.mp hs
      exact h.bwrite hb ht
    · cases hs
  | log_write p b =>
    simp only [step] at hs
    split at hs
    · next hb =>
      cases hs
      exact h.log_write hb
    · cases hs
  | brelse p b =>
    simp only [step] at hs
    split at hs
    · next hb =>
      cases hs
      exact h.brelse hb.1 hb.2
    · cases hs
  | drop p =>
    simp only [step] at hs
    split at hs
    · next b hp =>
      cases hs
      exact h.drop hp
    · cases hs

end Inv

/-! ## What is never recycled -/

/-- The buffer stands for the same block, and has not lost its data. -/
def Kept (x y : Buf B) : Prop :=
  y.dev = x.dev ∧ y.blockno = x.blockno ∧ (x.valid = true → y.valid = true)

omit [Fintype P] in
theorem kept_setBuf (s : Cache P B) {c : Fin NBUF} {x : Buf B} (h : Kept (s.buf c) x)
    (b : Fin NBUF) : Kept (s.buf b) ((s.setBuf c x).buf b) := by
  unfold setBuf
  by_cases hc : b = c
  · subst hc
    simpa using h
  · simp only [update_of_ne hc]
    exact ⟨rfl, rfl, id⟩

omit [Fintype P] in
theorem iderw_kept (h : s.iderw disksize b = some s') (c : Fin NBUF) :
    Kept (s.buf c) (s'.buf c) := by
  obtain ⟨-, ⟨-, rfl⟩ | ⟨-, rfl⟩⟩ := iderw_inv h
  · refine kept_setBuf s ?_ c
    exact ⟨rfl, rfl, fun _ => rfl⟩
  · refine kept_setBuf s ?_ c
    exact ⟨rfl, rfl, fun _ => rfl⟩

omit [Fintype P] in
theorem bget_kept {d n : Nat} {c : Fin NBUF} (hlist : OnList s.links)
    (h : s.bget d n = some (c, s')) (hb : 0 < (s.buf b).refcnt ∨ (s.buf b).dirty = true) :
    Kept (s.buf b) (s'.buf b) := by
  obtain ⟨-, rfl⟩ | ⟨-, ⟨hfree, hclean⟩, rfl⟩ := bget_inv hlist h
  · refine kept_setBuf s ?_ b
    exact ⟨rfl, rfl, id⟩
  · have hbc : b ≠ c := by
      rintro rfl
      rw [hfree, hclean] at hb
      simp at hb
    simp only [setBuf, update_of_ne hbc]
    exact ⟨rfl, rfl, id⟩

omit [Fintype P] in
/-- Only `bget` gives a buffer another block, and only one that is free and clean. -/
theorem step_kept [DecidableEq P] {e : Event P B} (hlist : OnList s.links)
    (hs : s.step disksize e = some s') (hb : 0 < (s.buf b).refcnt ∨ (s.buf b).dirty = true) :
    Kept (s.buf b) (s'.buf b) := by
  have hrefl (x : Buf B) : Kept x x := ⟨rfl, rfl, id⟩
  cases e with
  | bread p d n =>
    simp only [step] at hs
    split at hs
    · obtain ⟨⟨c, t⟩, ht, rfl⟩ := Option.map_eq_some_iff.mp hs
      exact (bget_kept hlist ht hb :)
    · cases hs
  | lock p =>
    simp only [step] at hs
    split at hs
    · split at hs
      · cases hs
        exact hrefl _
      · cases hs
    · cases hs
  | fetch p =>
    simp only [step] at hs
    split at hs
    · next c hp =>
      obtain ⟨t, ht, rfl⟩ := Option.map_eq_some_iff.mp hs
      split at ht
      · cases ht
        exact hrefl _
      · exact iderw_kept ht b
    · cases hs
  | modify p c data =>
    simp only [step] at hs
    split at hs
    · cases hs
      refine kept_setBuf s ?_ b
      exact ⟨rfl, rfl, id⟩
    · cases hs
  | bwrite p c =>
    simp only [step] at hs
    split at hs
    · obtain ⟨t, ht, rfl⟩ := Option.map_eq_some_iff.mp hs
      have hmark : Kept (s.buf b) ((s.setBuf c { s.buf c with dirty := true }).buf b) := by
        refine kept_setBuf s ?_ b
        exact ⟨rfl, rfl, id⟩
      have hwrite := iderw_kept ht b
      exact ⟨hwrite.1.trans hmark.1, hwrite.2.1.trans hmark.2.1, hwrite.2.2 ∘ hmark.2.2⟩
    · cases hs
  | log_write p c =>
    simp only [step] at hs
    split at hs
    · cases hs
      refine kept_setBuf s ?_ b
      exact ⟨rfl, rfl, id⟩
    · cases hs
  | brelse p c =>
    simp only [step] at hs
    split at hs
    · cases hs
      exact hrefl _
    · cases hs
  | drop p =>
    simp only [step] at hs
    split at hs
    · next c hp =>
      cases hs
      show Kept (s.buf b) ((s.unref c).buf b)
      rw [(unref_same s c).1]
      refine kept_setBuf s ?_ b
      exact ⟨rfl, rfl, id⟩
    · cases hs

/-! ## Runs -/

variable [DecidableEq P]

theorem run_inv {data : Fin NBUF → B} {disk : Nat → B} {es : List (Event P B)}
    (h : run (step disksize) (binit data disk) es = some s) :
    Inv s (track (step disksize) store (binit data disk) disk es) := by
  have hstep (s : Cache P B) (v : Nat → B) (e : Event P B) (s' : Cache P B) (hi : Inv s v)
      (_ : True) (hs : s.step disksize e = some s') : Inv s' (store v s e) := hi.step hs
  exact run_track hstep h allowed_true (Inv.binit data disk)

/-- **The cache is a block store**: after any run, the list has each buffer once, no two buffers
stand for one block of the disk, a buffer that is used or dirty is not recycled, and `bread` returns
a buffer with the contents that were last stored in the block. -/
theorem cache_refines_store (data : Fin NBUF → B) (disk : Nat → B) (es : List (Event P B))
    (h : run (step disksize) (binit data disk) es = some s) :
    (∃ l, Linked s.links l ∧ l.Perm (List.finRange NBUF)) ∧
      (∀ b c, (s.buf b).dev = 1 → (s.buf c).dev = 1 →
        (s.buf b).blockno = (s.buf c).blockno → b = c) ∧
      (∀ e s' b, s.step disksize e = some s' →
        0 < (s.buf b).refcnt ∨ (s.buf b).dirty = true → Kept (s.buf b) (s'.buf b)) ∧
      ∀ p d n b s', s.phase p = .locked d n b → s.step disksize (.fetch p) = some s' →
        s'.Holds p b ∧ (s'.buf b).dev = d ∧ (s'.buf b).blockno = n ∧
          (s'.buf b).data =
            track (step disksize) store (binit data disk) disk es n := by
  have hinv := run_inv h
  refine ⟨?_, hinv.contents.unique, fun e s' b hs hb => step_kept hinv.list hs hb,
    fun p d n b s' hp hs => ?_⟩
  · obtain ⟨l, hl, hall⟩ := hinv.list
    refine ⟨l, hl, (List.perm_ext_iff_of_nodup hl.nodup (List.nodup_finRange NBUF)).mpr ?_⟩
    simpa using hall
  · simp only [step, hp] at hs
    obtain ⟨t, ht, rfl⟩ := Option.map_eq_some_iff.mp hs
    obtain ⟨hinv', hvalid, hname⟩ := hinv.fetch hp ht
    refine ⟨⟨update_self .., update_self ..⟩, hname.1, hname.2, ?_⟩
    have hdata := (hinv'.contents.valid b hvalid).2
    rw [← hname.2]
    exact hdata

/-- The buffer that is recycled first. -/
def firstBuf : Fin NBUF := ⟨0, by decide⟩

/-- A process logs a change of block 7, and another reads the block. -/
def changed : List (Event Bool Nat) :=
  [.bread false 1 7, .lock false, .fetch false, .modify false firstBuf 5, .bread true 1 7,
    .log_write false firstBuf, .brelse false firstBuf, .drop false, .lock true]

theorem change_is_read : ∃ s s' : Cache Bool Nat,
    run (step 1000) (binit (fun _ => 0) fun _ => 0) changed = some s ∧
      s.step 1000 (.fetch true) = some s' ∧ (s'.buf firstBuf).data = 5 := by
  have hrun : ∃ s ∈ run (step 1000) (binit (fun _ => 0) fun _ => 0) changed,
      s.phase true = .locked 1 7 firstBuf ∧ (s.step 1000 (.fetch true)).isSome = true := by
    decide +kernel
  obtain ⟨s, hs, hp, hfetch⟩ := hrun
  obtain ⟨s', hs'⟩ := Option.isSome_iff_exists.mp hfetch
  have hread := (cache_refines_store _ _ changed hs).2.2.2 true 1 7 firstBuf s' hp hs'
  exact ⟨s, s', hs, hs', hread.2.2.2.trans (by decide +kernel)⟩

/-- **Reference counts are exact**: after any run, `refcnt` counts the processes on their way into or
out of a buffer, and its holder. Who waits for a buffer finds it standing for the block that was
asked for, and nobody has a buffer whose count is 0. -/
theorem refcnt_exact (data : Fin NBUF → B) (disk : Nat → B) (es : List (Event P B))
    (h : run (step disksize) (binit data disk) es = some s) :
    (∀ b, (s.buf b).refcnt = tally s.slot b + (s.lock b).count) ∧
      (∀ p d n b, s.phase p = .waiting d n b ∨ s.phase p = .locked d n b →
        (s.buf b).dev = d ∧ (s.buf b).blockno = n) ∧
      ∀ b, (s.buf b).refcnt = 0 → ∀ p, s.slot p ≠ some b ∧ s.lock b ≠ .held p := by
  have hrefs := (run_inv h).refs
  refine ⟨hrefs.count, hrefs.asked, fun b hb p => ⟨hrefs.slot_ne hb p, fun hheld => ?_⟩⟩
  have hcount := hrefs.count b
  rw [hb, hheld, Lock.count] at hcount
  omega

theorem changed_refcnt : ∃ s ∈ run (step 1000)
      (binit (P := Bool) (fun _ => 0) fun _ => 0) changed,
    1 = tally s.slot firstBuf + (s.lock firstBuf).count := by
  obtain ⟨s, hs, hone⟩ : ∃ s ∈ run (step 1000)
    (binit (P := Bool) (fun _ => 0) fun _ => 0) changed, (s.buf firstBuf).refcnt = 1 := by
    decide +kernel
  exact ⟨s, hs, hone ▸ (refcnt_exact _ _ changed hs).1 firstBuf⟩

end Xv6.Bio
