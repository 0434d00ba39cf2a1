import Xv6.Fs.Files

/-!
# Between system calls

Between system calls the references are those the tables show: a slot of the file table is referred
to by descriptors, an entry of the inode table by slots and current directories. Each call that
changes these tables keeps it so.
-/

namespace Xv6.Fs

open Bytes Partial List
open Function (update update_eq_self update_eq_self_iff update_idem update_of_ne update_self)

variable {P : Type} [Fintype P]

/-- The references to inodes between system calls. -/
def State.held (s : State P) : Refs := tally s.cwd + tally s.ptr

structure Settled (sb : Superblock) (s : State P) : Prop where
  live : Live sb (tally s.cwd) (tally s.desc) s
  absent : ∀ p, s.cwd p = none → ∀ fd, s.ofile p fd = none

variable {sb : Superblock} {s s' t : State P} {K X : Refs} {D : Fin NFILE → Nat} {p q : P}
  {f : Fin NFILE} {fd : Fin NOFILE} {u : Unit} {r : Int}

theorem Settled.sound (h : Settled sb s) : Sound sb s s.held := h.live.sound

/-- A current directory is in use. -/
theorem State.held_cwd (s : State P) (p : P) (c : Fin NINODE) (hc : s.cwd p = some c) :
    0 < s.held c :=
  Nat.add_pos_left (tally_pos hc) _

theorem Keeps.held (h : Keeps K s s') : s'.held = s.held := by
  rw [State.held, State.held, h.cwd, State.ptr_congr h.file]

theorem Settled.keeps (h : Settled sb s) (hsound : Sound sb s' s.held) (hk : Keeps K s s') :
    Settled sb s' where
  live := by
    rw [hk.cwd, State.desc_congr hk.ofile]
    exact h.live.congr hsound hk.file hk.pipe
  absent := by
    rw [hk.cwd, hk.ofile]
    exact h.absent

/-- A call that changes the descriptors of a process that has a current directory. -/
theorem Settled.absent_of (h : Settled sb s) (hp : s.cwd p ≠ none) (hcwd : s'.cwd = s.cwd)
    (hofile : ∀ q, q ≠ p → s'.ofile q = s.ofile q) (q : P) (hq : s'.cwd q = none)
    (fd : Fin NOFILE) : s'.ofile q fd = none := by
  rw [hcwd] at hq
  have hqp : q ≠ p := by
    rintro rfl
    exact hp hq
  rw [hofile q hqp]
  exact h.absent q hq fd

/-- A section of a call sees the current directory. -/
theorem Quiet.held_cwd (h : Quiet s s') (p : P) (c : Fin NINODE) (hc : s'.cwd p = some c) :
    0 < s.held c :=
  s.held_cwd p c (h.cwd ▸ hc)

/-! ## `open` -/

/-- There is a slot of the file table, and a descriptor. -/
def HasRoom (p : P) (s : State P) : Prop := (∃ f, (s.file f).ref = 0) ∧ ∃ fd, s.ofile p fd = none

/-- What `open` does, where `C` says whether it makes an inode: that is left behind if there is no
room for a file. -/
structure OpenCall (sb : Superblock) (p : P) (C : Prop) (r : Int) (s s' : State P) : Prop where
  settled : Settled sb s'
  failed : r = -1 → s'.held = s.held ∧ s'.cwd = s.cwd ∧ s'.file = s.file ∧ s'.ofile = s.ofile
  same : Anchored s.held s → ((r = -1 → SameDisk s s') ↔ (C → HasRoom p s))

variable {omode : Nat} {C : Prop}

theorem OpenCall.ofKeeps (h : Settled sb s) (hsound : Sound sb s' s.held) (hk : Keeps s.held s s')
    (hsame : Anchored s.held s → (SameDisk s s' ↔ (C → HasRoom p s))) :
    OpenCall sb p C (-1) s s' :=
  ⟨h.keeps hsound hk, fun _ => ⟨hk.held, hk.cwd, hk.file, hk.ofile⟩, by simpa using hsame⟩

theorem OpenCall.full {ip : Fin NINODE} {t' : State P} (h : Settled sb s)
    (hmade : Made sb s.held .file C (some ip) s t) (hfull : ¬ HasRoom p s)
    (hput : (iput sb ip).run t = some (u, t')) (hend : endOp.run t' = some (u, s')) :
    OpenCall sb p C (-1) s s' := by
  have hsound : Sound sb t (bump s.held ip) := hmade.sound
  have hput := iput_put hsound hput
  have hq := endOp_quiet hend
  have hk : Keeps s.held s s' := hmade.keeps.trans (hput.keeps.trans (hq.keeps _))
  refine .ofKeeps h (hput.sound.congr hq.disk hq.inode) hk fun hanch => ⟨fun hsame hc => ?_,
    fun hroom => ?_⟩
  · -- the new inode has a link, so it is still there
    obtain ⟨_, hip, hnew⟩ := hmade.fresh hc
    obtain rfl := Option.some.inj hip
    obtain ⟨hfree, hlink⟩ := hnew IType.noConfusion hanch
    have hi := bump_pos s.held ip
    have hdisk := (hput.disk fun hcond => by rw [hlink] at hcond; cases hcond.2.2).trans hq.disk
    refine absurd ?_ (hsound.type_ne_free hi (hmade.valid ip rfl))
    rw [hsound.din_eq hi (hmade.valid ip rfl), ← hdisk.dinode, hsame.dinode]
    exact hfree
  · have hsame := hmade.same (fun hc => hfull (hroom hc)) hanch
    exact hsame.trans ((hput.same hsound (hanch.congr hsame hmade.keeps _)).trans hq.disk)

variable [DecidableEq P]

theorem OpenCall.done {ip : Fin NINODE} {t₁ t₂ t₄ : State P} {x : File} (h : Settled sb s)
    (hp : s.cwd p ≠ none) (hmade : Made sb s.held .file C (some ip) s t₁)
    (hlive₁ : Live sb (bump (tally s.cwd) ip) (tally s.desc) t₁) (hD : tally s.desc f = 0)
    (hlive₂ : Live sb (bump (tally s.cwd) ip) (bump (tally s.desc) f) t₂)
    (ht₂ : t₂ = t₁.setFile f { t₁.file f with ref := 1 }) (hfree : s.ofile p fd = none)
    (hq : Quiet (t₂.setOfile p fd (some f)) t₄) (hs' : s' = t₄.setFile f x)
    (hx : x.ref = (t₄.file f).ref ∧ x.type = .inode ip) (hr : 0 ≤ r) :
    OpenCall sb p C r s s' := by
  have hk := hmade.keeps
  have hlive₄ : Live sb (bump (tally s.cwd) ip) (bump (tally s.desc) f) t₄ :=
    (hlive₂.setOfile p fd (some f)).quiet hq
  have hfile : t₄.file f = { t₁.file f with ref := 1 } := by
    rw [hq.file, ht₂]
    simp [State.setOfile, State.setFile]
  have htype : (t₄.file f).type = .none := by
    rw [hfile]
    exact hlive₁.closed f ((hlive₁.files f).trans hD)
  have hptr : t₄.ptr f = none := t₄.ptr_of_type htype
  have hpend : update t₄.pend f x.pend = t₄.pend := by
    refine update_eq_self_iff.mpr ?_
    rw [t₄.pend_of_none htype, File.pend, hx.2]
  have hcwd : s'.cwd = s.cwd := by
    rw [hs', ← show t₄.cwd = s.cwd by rw [hq.cwd, ht₂]; exact hk.cwd]
    rfl
  have hofile : s'.ofile = (s.setOfile p fd (some f)).ofile := by
    rw [hs']
    show t₄.ofile = _
    rw [hq.ofile, ht₂]
    simp only [State.setOfile, State.setFile, hk.ofile]
  have hdesc : tally s'.desc = bump (tally s.desc) f := tally_desc_take hfree hofile
  have href : update (bump (tally s.desc) f) f x.ref = bump (tally s.desc) f := by
    rw [hx.1, hlive₄.files f, update_eq_self]
  have hlive : Live sb (tally s'.cwd) (tally s'.desc) s' := by
    rw [hcwd, hdesc, ← href, hs']
    refine hlive₄.setFile ?_ (fun h0 => ?_) ?_
    · rw [hx.2]
      show _ + tally (update t₄.ptr f (some ip)) = _
      rw [tally_take hptr, add_bump, bump_add]
    · rw [hx.1, hlive₄.files f, bump_self] at h0
      cases h0
    · rw [hpend]
      exact hlive₄.piped
  refine ⟨⟨hlive, h.absent_of hp hcwd fun q hqp => ?_⟩, fun hr' => ?_,
    fun _ => iff_of_true (fun hr' => ?_) fun _ => ⟨⟨f, (h.live.files f).trans hD⟩, fd, hfree⟩⟩
  · rw [hofile]
    exact update_of_ne hqp _ _
  · omega
  · omega

theorem sysOpen_call {path : List Byte} (h : Settled sb s) (hp : s.cwd p ≠ none)
    (hrun : (sysOpen sb p path omode).run s = some (r, s')) :
    OpenCall sb p (omode &&& O_CREATE ≠ 0 ∧ Makes sb p path { s with logged := [] }) r s s' := by
  simp only [sysOpen, bind_iff] at hrun
  obtain ⟨_, s₀, hbegin, r₁, t₁, hopen, hrun⟩ := hrun
  have hq := beginOp_quiet hbegin
  obtain rfl : { s with logged := [] } = s₀ := (modify_iff.mp hbegin)
  have hmade := (openInode_made (h.sound.congr hq.disk hq.inode) (hq.held_cwd p) hopen).begin hq
  split at hrun
  · simp only [bind_iff, pure_iff] at hrun
    obtain ⟨_, _, hend, rfl, rfl⟩ := hrun
    have hq' := endOp_quiet hend
    refine .ofKeeps h (hmade.sound.congr hq'.disk hq'.inode) (hmade.keeps.trans (hq'.keeps _))
      fun hanch => iff_of_true ((hmade.undone hanch).trans hq'.disk) fun hc => ?_
    obtain ⟨_, hip, -⟩ := hmade.fresh hc
    cases hip
  · next ip =>
    have hlive₁ : Live sb (bump (tally s.cwd) ip) (tally s.desc) t₁ := by
      refine h.live.congr ?_ hmade.keeps.file hmade.keeps.pipe
      rw [bump_add]
      exact hmade.sound
    rw [bind_iff] at hrun
    obtain ⟨r₂, t₂, halloc, hrun⟩ := hrun
    obtain ⟨rfl, rfl, hnone⟩ | ⟨f, rfl, hD, ht₂, hlive₂⟩ := filealloc_live hlive₁ halloc
    · simp only [bind_iff, pure_iff] at hrun
      obtain ⟨_, _, hput, _, _, hend, rfl, rfl⟩ := hrun
      refine .full h hmade (fun hfree => ?_) hput hend
      obtain ⟨f, hf⟩ := hfree.1
      rw [hmade.keeps.file] at hnone
      exact hnone f hf
    · simp only [bind_iff] at hrun
      obtain ⟨r₃, t₃, hfd, hrun⟩ := hrun
      have hofile : t₂.ofile = s.ofile := by
        rw [ht₂]
        exact hmade.keeps.ofile
      obtain ⟨rfl, rfl, hnone⟩ | ⟨fd, rfl, hfree, ht₃⟩ := fdalloc_inv hfd
      · simp only [bind_iff, pure_iff] at hrun
        obtain ⟨_, t₄, hclose, _, _, hput, _, _, hend, rfl, rfl⟩ := hrun
        rw [ht₂] at hclose
        obtain rfl := filealloc_undo hlive₁ hD hclose
        refine .full h hmade (fun hfree => ?_) hput hend
        obtain ⟨fd, hfd⟩ := hfree.2
        rw [hofile] at hnone
        exact hnone fd hfd
      · simp only [Fs.setFile, bind_iff, get_iff, modify_iff,
          pure_iff] at hrun
        obtain ⟨_, t₄, hend, _, _, ⟨rfl, rfl⟩, _, _, hs', rfl, rfl⟩ := hrun
        have hq' := endOp_quiet hend
        exact .done h hp hmade hlive₁ hD hlive₂ ht₂ (hofile ▸ hfree) (ht₃ ▸ hq') hs'.symm
          ⟨rfl, rfl⟩ (Int.natCast_nonneg _)

/-! ## `dup` -/

omit [DecidableEq P] in
/-- The descriptors of process `p` have changed, and the tables they refer to. -/
theorem Settled.shuffled (h : Settled sb s) (hp : s.cwd p ≠ none) (hcwd : s'.cwd = s.cwd)
    (hofile : ∀ q, q ≠ p → s'.ofile q = s.ofile q)
    (hlive : Live sb (tally s.cwd) (tally s'.desc) s') : Settled sb s' :=
  ⟨by rwa [hcwd], h.absent_of hp hcwd hofile⟩

theorem sysDup_settled (h : Settled sb s) (hp : s.cwd p ≠ none)
    (hrun : (sysDup p fd).run s = some (r, s')) : Settled sb s' := by
  simp only [sysDup, argfd, bind_iff, get_iff, pure_iff] at hrun
  obtain ⟨_, _, ⟨_, _, ⟨rfl, rfl⟩, rfl, rfl⟩, hrun⟩ := hrun
  split at hrun
  · obtain ⟨-, rfl⟩ := pure_iff.mp hrun
    exact h
  · next f hf =>
    rw [bind_iff] at hrun
    obtain ⟨r', t, hfd, hrun⟩ := hrun
    obtain ⟨rfl, rfl, -⟩ | ⟨fd', rfl, hfree, rfl⟩ := fdalloc_inv hfd
    · obtain ⟨-, rfl⟩ := pure_iff.mp hrun
      exact h
    · simp only [bind_iff, pure_iff] at hrun
      obtain ⟨_, t', hdup, rfl, rfl⟩ := hrun
      obtain ⟨ht', hlive⟩ := filedup_live (h.live.setOfile p fd' (some f)) hdup
      have hdesc : tally t'.desc = bump (tally s.desc) f :=
        tally_desc_take hfree (by rw [ht']; rfl)
      refine h.shuffled hp (by rw [ht']; rfl) (fun q hq => ?_) (hdesc ▸ hlive)
      rw [ht']
      exact update_of_ne hq _ _

/-! ## `pipe` -/

/-- What `pipealloc` stores. -/
def State.openPipe (s : State P) (pi : Nat) (f₀ f₁ : Fin NFILE) : State P :=
  ((s.setPipe pi (some ⟨true, true⟩)).setFile f₀
      { s.file f₀ with type := .pipe pi, readable := true, writable := false }).setFile f₁
    { s.file f₁ with type := .pipe pi, readable := false, writable := true }

section OpenPipe

variable {pi : Nat} {f₀ f₁ : Fin NFILE} (htype₀ : (s.file f₀).type = .none)
  (htype₁ : (s.file f₁).type = .none)

include htype₀ htype₁

omit [Fintype P] [DecidableEq P] in
theorem State.ptr_openPipe : (s.openPipe pi f₀ f₁).ptr = s.ptr := by
  have hptr₀ : update s.ptr f₀ none = s.ptr :=
    update_eq_self_iff.mpr (s.ptr_of_type htype₀).symm
  rw [State.openPipe, State.ptr_setFile, State.ptr_setFile]
  show update (update s.ptr f₀ none) f₁ none = s.ptr
  rw [hptr₀]
  exact update_eq_self_iff.mpr (s.ptr_of_type htype₁).symm

omit [Fintype P] [DecidableEq P] in
/-- Two slots that were taken become the ends of a pipe. -/
theorem Live.openPipe (h : Live sb X D s) (hne : f₀ ≠ f₁) (href₀ : (s.file f₀).ref ≠ 0)
    (href₁ : (s.file f₁).ref ≠ 0) (hpi : s.pipe pi = none) :
    Live sb X D (s.openPipe pi f₀ f₁) := by
  have hpend : (s.openPipe pi f₀ f₁).pend =
      update (update s.pend f₀ (some (pi, false))) f₁ (some (pi, true)) := by
    rw [State.openPipe, State.pend_setFile, State.pend_setFile]
    rfl
  have hfile : ∀ g, ((s.openPipe pi f₀ f₁).file g).ref = (s.file g).ref := by
    intro g
    by_cases hg₁ : g = f₁
    · subst hg₁
      simp [State.openPipe, State.setFile]
    · by_cases hg₀ : g = f₀
      · subst hg₀
        simp [State.openPipe, State.setFile, hg₁]
      · simp [State.openPipe, State.setFile, State.setPipe, hg₁, hg₀]
  refine ⟨?_, fun g => (hfile g).trans (h.files g), fun g hg => ?_, ?_⟩
  · rw [s.ptr_openPipe htype₀ htype₁]
    exact h.sound.congr ⟨rfl, rfl, rfl⟩ rfl
  · rw [hfile] at hg
    have hg₀ : g ≠ f₀ := by
      rintro rfl
      exact href₀ hg
    have hg₁ : g ≠ f₁ := by
      rintro rfl
      exact href₁ hg
    simp only [State.openPipe, State.setFile, State.setPipe, update_of_ne hg₀,
      update_of_ne hg₁]
    exact h.closed g hg
  · rw [hpend]
    exact h.piped.alloc hne (s.pend_of_none htype₀) (s.pend_of_none htype₁) hpi

end OpenPipe

omit [Fintype P] [DecidableEq P] in
theorem closeBoth {f₀ f₁ : Fin NFILE} {u' : Unit} (h : Live sb X (bump (bump D f₀) f₁) s)
    (hclose₀ : (fileclose sb f₀).run s = some (u, t))
    (hclose₁ : (fileclose sb f₁).run t = some (u', s')) : Closed sb X D s s' := by
  rw [bump_comm] at h
  have hc₀ := fileclose_closed h hclose₀
  have hc₁ := fileclose_closed hc₀.live hclose₁
  exact ⟨hc₁.live, hc₁.cwd.trans hc₀.cwd, hc₁.ofile.trans hc₀.ofile⟩

omit [Fintype P] [DecidableEq P] in
theorem pipealloc_live {page : Option Nat} {r : Option (Fin NFILE × Fin NFILE)}
    (h : Live sb X D s) (hrun : (pipealloc sb page).run s = some (r, s')) :
    s'.cwd = s.cwd ∧ s'.ofile = s.ofile ∧ (r = none ∧ Live sb X D s' ∨
      ∃ f₀ f₁, r = some (f₀, f₁) ∧ Live sb X (bump (bump D f₀) f₁) s') := by
  simp only [pipealloc, bind_iff] at hrun
  obtain ⟨r₀, t₀, halloc, hrun⟩ := hrun
  obtain ⟨rfl, rfl, -⟩ | ⟨f₀, rfl, hD₀, ht₀, hlive₀⟩ := filealloc_live h halloc
  · obtain ⟨rfl, rfl⟩ := pure_iff.mp hrun
    exact ⟨rfl, rfl, .inl ⟨rfl, h⟩⟩
  · rw [bind_iff] at hrun
    obtain ⟨r₁, t₁, halloc', hrun⟩ := hrun
    obtain ⟨rfl, rfl, -⟩ | ⟨f₁, rfl, hD₁, ht₁, hlive₁⟩ := filealloc_live hlive₀ halloc'
    · simp only [bind_iff, pure_iff] at hrun
      obtain ⟨_, t, hclose, rfl, rfl⟩ := hrun
      rw [ht₀] at hclose
      obtain rfl := filealloc_undo h hD₀ hclose
      exact ⟨rfl, rfl, .inl ⟨rfl, h⟩⟩
    · have hne : f₀ ≠ f₁ := by
        rintro rfl
        rw [bump_self] at hD₁
        omega
      have hfile₀ : (t₁.file f₀).type = .none := by
        rw [ht₁, ht₀]
        simp only [State.setFile, update_of_ne hne, update_self]
        exact h.closed f₀ ((h.files f₀).trans hD₀)
      have hfile₁ : (t₁.file f₁).type = .none := by
        rw [ht₁]
        simp only [State.setFile, update_self]
        exact hlive₀.closed f₁ ((hlive₀.files f₁).trans hD₁)
      have hcwd : t₁.cwd = s.cwd := by
        rw [ht₁, ht₀]
        rfl
      have hofile : t₁.ofile = s.ofile := by
        rw [ht₁, ht₀]
        rfl
      dsimp only at hrun
      split at hrun
      · simp only [bind_iff, pure_iff] at hrun
        obtain ⟨_, t₂, hclose₀, _, t₃, hclose₁, rfl, rfl⟩ := hrun
        have hclosed := closeBoth hlive₁ hclose₀ hclose₁
        exact ⟨hclosed.cwd.trans hcwd, hclosed.ofile.trans hofile, .inl ⟨rfl, hclosed.live⟩⟩
      · next pi =>
        simp only [get_bind] at hrun
        split at hrun
        · cases hrun
        · next hpi =>
          simp only [Fs.setPipe, Fs.setFile, bind_iff, modify_iff,
            pure_iff] at hrun
          obtain ⟨_, t₂, rfl, _, t₃, rfl, _, t₄, ht₄, rfl, rfl⟩ := hrun
          have ht₄ : t₄ = t₁.openPipe pi f₀ f₁ := ht₄.symm
          have href₀ : (t₁.file f₀).ref ≠ 0 := by
            rw [hlive₁.files, bump_of_ne hne, bump_self]
            exact Nat.succ_ne_zero _
          have href₁ : (t₁.file f₁).ref ≠ 0 := by
            rw [hlive₁.files, bump_self]
            exact Nat.succ_ne_zero _
          subst ht₄
          exact ⟨hcwd, hofile, .inr ⟨f₀, f₁, rfl, hlive₁.openPipe hfile₀ hfile₁ hne href₀ href₁ hpi⟩⟩

theorem sysPipe_settled {page : Option Nat} (h : Settled sb s) (hp : s.cwd p ≠ none)
    (hrun : (sysPipe sb p page).run s = some (r, s')) : Settled sb s' := by
  simp only [sysPipe, bind_iff] at hrun
  obtain ⟨r₁, t₁, halloc, hrun⟩ := hrun
  obtain ⟨hcwd, hofile, ⟨rfl, hlive⟩ | ⟨rf, wf, rfl, hlive⟩⟩ := pipealloc_live h.live halloc
  · obtain ⟨-, rfl⟩ := pure_iff.mp hrun
    exact h.shuffled hp hcwd (fun q _ => by rw [hofile]) (State.desc_congr hofile ▸ hlive)
  · -- without two descriptors both ends are given up
    have hundo : ∀ {u₀ u₁ : Unit} {t₃ t₄ : State P}, (fileclose sb rf).run t₁ = some (u₀, t₃) →
        (fileclose sb wf).run t₃ = some (u₁, t₄) → Settled sb t₄ := by
      intro _ _ t₃ t₄ hclose₀ hclose₁
      have hclosed := closeBoth hlive hclose₀ hclose₁
      have hofile' := hclosed.ofile.trans hofile
      exact h.shuffled hp (hclosed.cwd.trans hcwd) (fun q _ => by rw [hofile'])
        (State.desc_congr hofile' ▸ hclosed.live)
    rw [bind_iff] at hrun
    obtain ⟨r₂, t₂, hfd, hrun⟩ := hrun
    obtain ⟨rfl, rfl, -⟩ | ⟨fd₀, rfl, hfree₀, ht₂⟩ := fdalloc_inv hfd
    · simp only [bind_iff, pure_iff] at hrun
      obtain ⟨_, t₃, hclose₀, _, t₄, hclose₁, rfl, rfl⟩ := hrun
      exact hundo hclose₀ hclose₁
    · rw [bind_iff] at hrun
      obtain ⟨r₃, t₃, hfd', hrun⟩ := hrun
      obtain ⟨rfl, rfl, -⟩ | ⟨fd₁, rfl, hfree₁, ht₃⟩ := fdalloc_inv hfd'
      · simp only [Fs.setOfile, bind_iff, modify_iff, pure_iff] at hrun
        obtain ⟨_, t₄, ht₄, _, t₅, hclose₀, _, t₆, hclose₁, rfl, rfl⟩ := hrun
        -- the descriptor is given back
        have hback : t₄ = t₁ := by
          rw [← ht₄, ht₂]
          exact (t₁.setOfile_setOfile p fd₀ _ none).trans (State.setOfile_eq_self hfree₀)
        subst hback
        exact hundo hclose₀ hclose₁
      · obtain ⟨-, rfl⟩ := pure_iff.mp hrun
        have hdesc₂ : tally t₂.desc = bump (tally t₁.desc) rf := tally_desc_take hfree₀ (by rw [ht₂])
        have hdesc₃ : tally t₃.desc = bump (tally t₂.desc) wf := tally_desc_take hfree₁ (by rw [ht₃])
        refine h.shuffled hp (by rw [ht₃, ht₂]; exact hcwd) (fun q hq => ?_) ?_
        · rw [ht₃, ht₂, ← hofile]
          simp only [State.setOfile, update_of_ne hq]
        · rw [hdesc₃, hdesc₂, State.desc_congr hofile, ht₃, ht₂]
          exact (hlive.setOfile p fd₀ _).setOfile p fd₁ _

/-! ## Giving up files and directories -/

theorem Closed.settled {x : Option (Fin NFILE)} (h : Settled sb s) (hp : s.cwd p ≠ none)
    (hclosed : Closed sb (tally s.cwd) (tally (s.setOfile p fd none).desc) (s.setOfile p fd x) t) :
    Settled sb (t.setOfile p fd none) := by
  have hofile : (t.setOfile p fd none).ofile = (s.setOfile p fd none).ofile := by
    have ht : t.ofile = (s.setOfile p fd x).ofile := hclosed.ofile
    simp only [State.setOfile, ht, update_self, update_idem]
  refine h.shuffled hp hclosed.cwd (fun q hqp => ?_) ?_
  · rw [hofile]
    exact update_of_ne hqp _ _
  · rw [State.desc_congr hofile]
    exact hclosed.live.setOfile p fd none

theorem sysClose_settled (h : Settled sb s) (hp : s.cwd p ≠ none)
    (hrun : (sysClose sb p fd).run s = some (r, s')) : Settled sb s' := by
  simp only [sysClose, argfd, bind_iff, get_iff, pure_iff] at hrun
  obtain ⟨_, _, ⟨_, _, ⟨rfl, rfl⟩, rfl, rfl⟩, hrun⟩ := hrun
  split at hrun
  · obtain ⟨-, rfl⟩ := pure_iff.mp hrun
    exact h
  · next f hf =>
    simp only [Fs.setOfile, bind_iff, modify_iff, pure_iff] at hrun
    obtain ⟨_, t, rfl, _, t', hclose, rfl, rfl⟩ := hrun
    have hlive : Live sb (tally s.cwd) (bump (tally (s.setOfile p fd none).desc) f)
        (s.setOfile p fd none) := by
      rw [← tally_desc_drop hf]
      exact h.live.setOfile p fd none
    have hclosed := fileclose_closed hlive hclose
    have hback : t'.setOfile p fd none = t' := by
      refine State.setOfile_eq_self ?_
      rw [hclosed.ofile]
      simp [State.setOfile]
    rw [← hback]
    exact hclosed.settled (x := none) h hp

variable {fds : List (Fin NOFILE)}

theorem exitFiles_settled (h : Settled sb s) (hp : s.cwd p ≠ none)
    (hrun : (exitFiles sb p fds).run s = some (u, s')) : Settled sb s' ∧ s'.cwd = s.cwd ∧
      (∀ fd, fd ∈ fds ∨ s.ofile p fd = none → s'.ofile p fd = none) := by
  induction fds generalizing s with
  | nil =>
    obtain ⟨-, rfl⟩ := pure_iff.mp hrun
    exact ⟨h, rfl, fun fd hfd => hfd.resolve_left (not_mem_nil)⟩
  | cons fd fds ih =>
    simp only [exitFiles, argfd, bind_iff, get_iff, pure_iff] at hrun
    obtain ⟨_, _, ⟨_, _, ⟨rfl, rfl⟩, rfl, rfl⟩, hrun⟩ := hrun
    split at hrun
    · next f hf =>
      simp only [Fs.setOfile, bind_iff, modify_iff] at hrun
      obtain ⟨_, t, hclose, _, _, rfl, hrun⟩ := hrun
      have hlive : Live sb (tally s.cwd) (bump (tally (s.setOfile p fd none).desc) f) s := by
        rw [← tally_desc_drop hf]
        exact h.live
      have hclosed := fileclose_closed hlive hclose
      have hlost : Settled sb (t.setOfile p fd none) := by
        refine Closed.settled (x := some f) h hp ?_
        rw [State.setOfile_eq_self hf]
        exact hclosed
      have hcwd : (t.setOfile p fd none).cwd = s.cwd := hclosed.cwd
      obtain ⟨hsettled, hcwd', hnone⟩ := ih hlost (hcwd ▸ hp) hrun
      refine ⟨hsettled, hcwd'.trans hcwd, fun fd' hfd' => hnone fd' ?_⟩
      by_cases heq : fd' = fd
      · subst heq
        exact .inr (by simp [State.setOfile])
      · refine hfd'.imp (fun hmem => (mem_cons.mp hmem).resolve_left heq) fun hfree => ?_
        simpa [State.setOfile, heq, hclosed.ofile] using hfree
    · next hf =>
      obtain ⟨hsettled, hcwd', hnone⟩ := ih h hp hrun
      refine ⟨hsettled, hcwd', fun fd' hfd' => hnone fd' ?_⟩
      obtain hmem | hfree := hfd'
      · obtain rfl | hmem := mem_cons.mp hmem
        · exact .inr hf
        · exact .inl hmem
      · exact .inr hfree

/-- The current directory of `p` is stored by a call that before has changed the table of inodes
only. -/
theorem Live.setCwd {x : Option (Fin NINODE)} (h : Live sb X (tally s.desc) s) (hk : Keeps K s t)
    (hsound : Sound sb t (tally (update s.cwd p x) + tally s.ptr))
    (habsent : ∀ q, update s.cwd p x q = none → ∀ fd, s.ofile q fd = none) :
    Settled sb (t.setCwd p x) := by
  have hcwd : (t.setCwd p x).cwd = update s.cwd p x := by simp only [State.setCwd, hk.cwd]
  have hdesc : (t.setCwd p x).desc = s.desc := State.desc_congr hk.ofile
  refine ⟨?_, ?_⟩
  · rw [hdesc, hcwd]
    exact h.congr (hsound.congr ⟨rfl, rfl, rfl⟩ rfl) hk.file hk.pipe
  · rw [hcwd, show (t.setCwd p x).ofile = s.ofile from hk.ofile]
    exact habsent

theorem exit_settled {init : P} (h : Settled sb s) (hp : s.cwd p ≠ none)
    (hrun : (exit sb init p).run s = some (r, s')) : Settled sb s' := by
  rw [exit] at hrun
  split at hrun
  · cases hrun
  · simp only [bind_iff, get_iff] at hrun
    obtain ⟨_, t, hfiles, _, _, ⟨rfl, rfl⟩, hrun⟩ := hrun
    obtain ⟨hsettled, -, hnone⟩ := exitFiles_settled h hp hfiles
    split at hrun
    · cases hrun
    · next c hc =>
      simp only [Fs.setCwd, bind_iff, modify_iff, pure_iff] at hrun
      obtain ⟨_, t₁, hbegin, _, t₂, hput, _, t₃, hend, _, t₄, rfl, rfl, rfl⟩ := hrun
      have hq := beginOp_quiet hbegin
      have hq' := endOp_quiet hend
      have hsound : Sound sb t₁ (bump (tally (update t.cwd p none) + tally t.ptr) c) := by
        have hsound := hsettled.sound.congr hq.disk hq.inode
        rwa [State.held, tally_drop hc, bump_add] at hsound
      have hput := iput_put hsound hput
      have hk := ((hq.keeps _).trans hput.keeps).trans (hq'.keeps _)
      refine hsettled.live.setCwd hk (hput.sound.congr hq'.disk hq'.inode) fun q hfree fd => ?_
      by_cases hqp : q = p
      · subst hqp
        exact hnone fd (.inl (mem_finRange fd))
      · rw [update_of_ne hqp] at hfree
        exact hsettled.absent q hfree fd

/-! ## `chdir` -/

/-- What `chdir` does. -/
inductive ChdirCall (sb : Superblock) (s s' : State P) : Int → Prop
  | failed : Named sb s.held none s s' → ChdirCall sb s s' (-1)
  | moved : Settled sb s' → ChdirCall sb s s' 0

theorem sysChdir_call {path : List Byte} (h : Settled sb s)
    (hrun : (sysChdir sb p path).run s = some (r, s')) : ChdirCall sb s s' r := by
  simp only [sysChdir, bind_iff] at hrun
  obtain ⟨_, s₀, hbegin, r₁, t₁, hnamei, hrun⟩ := hrun
  have hq := beginOp_quiet hbegin
  have hnamed : Named sb s.held r₁ s t₁ :=
    (namei_named (h.sound.congr hq.disk hq.inode) (hq.held_cwd p) hnamei).begin hq
  split at hrun
  · simp only [bind_iff, pure_iff] at hrun
    obtain ⟨_, _, hend, rfl, rfl⟩ := hrun
    exact .failed (hnamed.finish (endOp_quiet hend))
  · next ip =>
    simp only [bind_iff, get_iff] at hrun
    obtain ⟨_, t₂, hlock, _, _, ⟨rfl, rfl⟩, hrun⟩ := hrun
    have hlocked := hnamed.lock hlock
    split at hrun
    · simp only [bind_iff, pure_iff] at hrun
      obtain ⟨_, _, hput, _, _, hend, rfl, rfl⟩ := hrun
      exact .failed ((hlocked.put hput).finish (endOp_quiet hend))
    · split at hrun
      · cases hrun
      · next c hc =>
        simp only [Fs.setCwd, bind_iff, modify_iff, pure_iff] at hrun
        obtain ⟨_, t₃, hput, _, t₄, hend, _, t₅, rfl, rfl, rfl⟩ := hrun
        have hq' := endOp_quiet hend
        rw [hlocked.keeps.cwd] at hc
        -- the references without the old directory
        have hheld : bump s.held ip =
            bump (bump (tally (update s.cwd p none) + tally s.ptr) ip) c := by
          rw [State.held, tally_drop hc, bump_add, bump_comm]
        have hsound : Sound sb t₂ (bump s.held ip) := hlocked.sound
        rw [hheld] at hsound
        have hput := iput_put hsound hput
        have hks : Keeps s.held s t₂ := hlocked.keeps
        have hks' : Keeps 0 s t₄ := (hks.mono fun _ => Nat.zero_le _).trans
          ((hput.keeps.trans (hq'.keeps _)).mono fun _ => Nat.zero_le _)
        have htally : tally (update s.cwd p (some ip)) =
            bump (tally (update s.cwd p none)) ip := by
          rw [← tally_take (update_self p none s.cwd), update_idem]
        refine .moved (h.live.setCwd hks' ?_ fun q hfree fd => ?_)
        · rw [htally, bump_add]
          exact hput.sound.congr hq'.disk hq'.inode
        · by_cases hqp : q = p
          · subst hqp
            rw [update_self] at hfree
            cases hfree
          · rw [update_of_ne hqp] at hfree
            exact h.absent q hfree fd

/-! ## `fork` -/

theorem forkFiles_live (hlive : Live sb X (tally s.desc) s) (hnodup : fds.Nodup)
    (hnone : ∀ fd ∈ fds, s.ofile q fd = none) (hrun : (forkFiles p q fds).run s = some (u, s')) :
    Live sb X (tally s'.desc) s' ∧ s'.cwd = s.cwd ∧ ∀ q', q' ≠ q → s'.ofile q' = s.ofile q' := by
  induction fds generalizing s with
  | nil =>
    obtain ⟨-, rfl⟩ := pure_iff.mp hrun
    exact ⟨hlive, rfl, fun _ _ => rfl⟩
  | cons fd fds ih =>
    simp only [forkFiles, argfd, bind_iff, get_iff, pure_iff] at hrun
    obtain ⟨_, _, ⟨_, _, ⟨rfl, rfl⟩, rfl, rfl⟩, hrun⟩ := hrun
    rw [nodup_cons] at hnodup
    split at hrun
    · next f hf =>
      simp only [Fs.setOfile, bind_iff, modify_iff] at hrun
      obtain ⟨_, t, hdup, _, t', ht', hrun⟩ := hrun
      obtain ⟨ht, hlive'⟩ := filedup_live hlive hdup
      have ht' : t' = t.setOfile q fd (some f) := ht'.symm
      have hofile : t.ofile = s.ofile := by
        rw [ht]
        rfl
      have hdesc : tally t'.desc = bump (tally s.desc) f := by
        refine tally_desc_take (hnone fd mem_cons_self) ?_
        rw [ht']
        simp only [State.setOfile, hofile]
      have hlive₁ : Live sb X (tally t'.desc) t' := by
        rw [hdesc, ht']
        exact hlive'.setOfile q fd (some f)
      have hnone' : ∀ k ∈ fds, t'.ofile q k = none := by
        intro k hk
        have hkfd : k ≠ fd := by
          rintro rfl
          exact hnodup.1 hk
        rw [ht']
        simp only [State.setOfile, update_self, update_of_ne hkfd, hofile]
        exact hnone k (mem_cons_of_mem _ hk)
      obtain ⟨hlive₂, hcwd, hothers⟩ := ih hlive₁ hnodup.2 hnone' hrun
      refine ⟨hlive₂, hcwd.trans (by rw [ht', ht]; rfl), fun q' hq => (hothers q' hq).trans ?_⟩
      rw [ht', ← hofile]
      exact update_of_ne hq _ _
    · exact ih hlive hnodup.2 (fun k hk => hnone k (mem_cons_of_mem _ hk)) hrun

theorem fork_settled (h : Settled sb s) (hrun : (fork p q).run s = some (r, s')) :
    Settled sb s' := by
  simp only [fork, get_bind] at hrun
  split at hrun
  · next c hc hq =>
    simp only [Fs.setCwd, bind_iff, modify_iff, pure_iff] at hrun
    obtain ⟨_, t, hfiles, c', t', hdup, _, _, rfl, rfl, rfl⟩ := hrun
    obtain ⟨hlive, hcwd, hothers⟩ := forkFiles_live h.live (nodup_finRange _)
      (fun fd _ => h.absent q hq fd) hfiles
    obtain ⟨rfl, htook⟩ := idup_took hlive.sound (Nat.add_pos_left (tally_pos hc) _) hdup
    refine hlive.setCwd htook.keeps ?_ fun q' hfree fd => ?_
    · rw [hcwd, tally_take hq, bump_add]
      exact htook.sound
    · have hqq : q' ≠ q := by
        rintro rfl
        rw [update_self] at hfree
        cases hfree
      rw [update_of_ne hqq, hcwd] at hfree
      rw [hothers q' hqq]
      exact h.absent q' hfree fd
  · cases hrun

/-! ## `write` -/

section Wrote

variable {n off : Nat} {src : List Byte}

omit [Fintype P] [DecidableEq P]

theorem Wrote.congr (hsame : SameDisk s t) (h : Wrote n off src t s') : Wrote n off src s s' := by
  have hbyte : fbyte t = fbyte s := by
    funext m p
    unfold fbyte
    rw [hsame.dinode, hsame.data]
  obtain ⟨htype, hnlink, hsize, hbytes, hdinode, hothers⟩ := h
  rw [hsame.dinode] at htype hnlink hsize hdinode hothers
  rw [hbyte] at hbytes hothers
  exact ⟨htype, hnlink, hsize, hbytes, hdinode, hothers⟩

theorem Wrote.congr_right (h : Wrote n off src s t) (hsame : SameDisk t s') :
    Wrote n off src s s' := by
  have hbyte : fbyte s' = fbyte t := by
    funext m p
    unfold fbyte
    rw [hsame.dinode, hsame.data]
  obtain ⟨htype, hnlink, hsize, hbytes, hdinode, hothers⟩ := h
  rw [← hsame.dinode] at htype hnlink hsize hbytes hdinode
  rw [← hbyte] at hbytes hothers
  exact ⟨htype, hnlink, hsize, hbytes, hdinode, hothers⟩

end Wrote

/-- What one section of `filewrite` does, in which `off` becomes the offset of slot `f`. -/
structure Chunked (sb : Superblock) (f : Fin NFILE) (off : Nat) (s s' : State P) : Prop where
  settled : Settled sb s'
  inum : ∀ i, 0 < s.held i → (s'.inode i).inum = (s.inode i).inum
  file : s'.file = update s.file f { s.file f with off := off }

omit [DecidableEq P] in
theorem Chunked.ofKeeps {off : Nat} (h : Settled sb s) (hsound : Sound sb t s.held)
    (hk : Keeps s.held s t) (hq : Quiet (t.setFile f { s.file f with off := off }) s') :
    Chunked sb f off s s' := by
  have hfile : s'.file = update s.file f { s.file f with off := off } := by
    rw [hq.file, State.setFile, hk.file]
  have hcwd : s'.cwd = s.cwd := hq.cwd.trans hk.cwd
  have hofile : s'.ofile = s.ofile := hq.ofile.trans hk.ofile
  refine ⟨⟨?_, ?_⟩, fun i hi => ?_, hfile⟩
  · rw [hcwd, State.desc_congr hofile]
    have ht : Live sb (tally s.cwd) (tally s.desc) t := h.live.congr hsound hk.file hk.pipe
    have hset := ht.setRef (f := f) (x := { s.file f with off := off }) (by rw [hk.file])
      (by rw [hk.file]) (fun h0 => h.live.closed f h0)
    have hupd : update (tally s.desc) f (s.file f).ref = tally s.desc := by
      rw [h.live.files f, update_eq_self]
    simp only [hupd] at hset
    exact hset.quiet hq
  · rw [hcwd, hofile]
    exact h.absent
  · rw [hq.inode]
    exact hk.inum i hi

/-- The offset after writing. -/
def offAfter (off : Nat) : Option Nat → Nat
  | none => off
  | some n => (off + n) % 2 ^ 32

variable {src : List Byte}

omit [DecidableEq P] in
theorem filewriteChunk_chunked {ip : Fin NINODE} {r : Option Nat} (h : Settled sb s)
    (hf : (s.file f).type = .inode ip) (hrun : (filewriteChunk sb f ip src).run s = some (r, s')) :
    Chunked sb f (offAfter (s.file f).off r) s s' ∧
      (SameDisk s s' ∧ (r = none ∨ (s.dinode (s.inode ip).inum).type = .dev) ∨
        r = some src.length ∧ (s.file f).off ≤ (s.dinode (s.inode ip).inum).size ∧
          Wrote (s.inode ip).inum (s.file f).off src s s') := by
  simp only [filewriteChunk, bind_iff, get_iff] at hrun
  obtain ⟨_, s₀, hbegin, _, t₁, hlock, _, _, ⟨rfl, rfl⟩, r₁, t₂, hwrite, hrun⟩ := hrun
  have hi : 0 < s.held ip := Nat.add_pos_right _ (tally_pos (s.ptr_of_type hf))
  have hq := beginOp_quiet hbegin
  obtain ⟨h₁, hk₁, hdisk₁, hv₁, hinum₁⟩ := ilock_sound (h.sound.congr hq.disk hq.inode) hlock
  obtain ⟨h₂, hk₂, hres⟩ := writei_sound h₁ hi hv₁ hwrite
  have hk₀ : Keeps s.held s t₁ := (hq.keeps _).trans hk₁
  have hk : Keeps s.held s t₂ := hk₀.trans hk₂
  have hdisk : SameDisk s t₁ := hq.disk.trans hdisk₁
  have hinum : (t₁.inode ip).inum = (s.inode ip).inum := hk₀.inum ip hi
  have hend : r = r₁ ∧
      Quiet (t₂.setFile f { s.file f with off := offAfter (s.file f).off r₁ }) s' := by
    rw [← hk.file]
    split at hrun
    · simp only [Fs.setFile, bind_iff, get_iff, modify_iff,
        pure_iff] at hrun
      obtain ⟨_, _, ⟨rfl, rfl⟩, _, _, rfl, _, _, hend, rfl, rfl⟩ := hrun
      exact ⟨rfl, endOp_quiet hend⟩
    · simp only [bind_iff, pure_iff] at hrun
      obtain ⟨_, _, hend, rfl, rfl⟩ := hrun
      refine ⟨rfl, ?_⟩
      have hself : t₂.setFile f { t₂.file f with off := offAfter (t₂.file f).off none } = t₂ :=
        congrArg (fun file => { t₂ with file := file }) (update_eq_self f t₂.file)
      rw [hself]
      exact endOp_quiet hend
  obtain ⟨rfl, hq'⟩ := hend
  have hdisk' : SameDisk t₂ s' := ⟨hq'.disk.dinode, hq'.disk.data, hq'.disk.bitmap⟩
  refine ⟨.ofKeeps h h₂ hk hq', ?_⟩
  rw [h₁.din_eq hi hv₁, hdisk.dinode, hinum, hk₀.file] at hres
  obtain ⟨rfl, hr⟩ | ⟨hr, hle, hwrote⟩ := hres
  · exact .inl ⟨hdisk.trans hdisk', hr⟩
  · exact .inr ⟨hr, hle, (hwrote.congr hdisk).congr_right hdisk'⟩

omit [DecidableEq P] in
theorem filewriteLoop_settled {ip : Fin NINODE} {fuel : Nat} {done : Bool} (h : Settled sb s)
    (hf : (s.file f).type = .inode ip)
    (hrun : (filewriteLoop sb f ip fuel src).run s = some (done, s')) : Settled sb s' := by
  induction fuel generalizing s src with
  | zero =>
    obtain ⟨-, rfl⟩ := pure_iff.mp hrun
    exact h
  | succ fuel ih =>
    rw [filewriteLoop] at hrun
    split at hrun
    · obtain ⟨-, rfl⟩ := pure_iff.mp hrun
      exact h
    · rw [bind_iff] at hrun
      obtain ⟨r, t, hchunk, hrun⟩ := hrun
      obtain ⟨hchunked, -⟩ := filewriteChunk_chunked h hf hchunk
      split at hrun
      · obtain ⟨-, rfl⟩ := pure_iff.mp hrun
        exact hchunked.settled
      · split at hrun
        · refine ih hchunked.settled ?_ hrun
          rw [hchunked.file, update_self]
          exact hf
        · cases hrun

omit [DecidableEq P] in
theorem sysWrite_settled (h : Settled sb s) (hrun : (sysWrite sb p fd src).run s = some (r, s')) :
    Settled sb s' := by
  simp only [sysWrite, argfd, bind_iff, get_iff, pure_iff] at hrun
  obtain ⟨_, _, ⟨_, _, ⟨rfl, rfl⟩, rfl, rfl⟩, hrun⟩ := hrun
  split at hrun
  · obtain ⟨-, rfl⟩ := pure_iff.mp hrun
    exact h
  · simp only [filewrite, get_bind] at hrun
    split at hrun
    · obtain ⟨-, rfl⟩ := pure_iff.mp hrun
      exact h
    · split at hrun
      · next ip hf =>
        rw [bind_iff] at hrun
        obtain ⟨done, t, hloop, hrun⟩ := hrun
        have hsettled := filewriteLoop_settled h hf hloop
        split at hrun <;> obtain ⟨-, rfl⟩ := pure_iff.mp hrun <;> exact hsettled
      · cases hrun
      · cases hrun

end Xv6.Fs
