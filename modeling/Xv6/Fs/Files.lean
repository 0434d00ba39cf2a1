import Mathlib.Data.Fintype.Prod
import Xv6.Fs.Calls

/-!
# Open files and pipes

A slot of the file table counts the descriptors that refer to it, an entry of the inode table the
slots and current directories, and a pipe is there as long as a slot is one of its ends. `Live X D`
says this of the tables, where `D` counts the references to the slots and `X` those to inodes that
are not from slots; a system call that is at work adds its own references to both.
-/

namespace Xv6.Fs

open Partial
open Function (update update_eq_self update_eq_self_iff update_idem update_of_ne update_self)

/-! ## Pipes -/

/-- Whether the end that is written, or the one that is read, is open. -/
def Ends.isOpen (e : Ends) : Bool → Bool
  | true => e.writeopen
  | false => e.readopen

/-- The pipe and the end of it that a slot is. -/
def File.pend (x : File) : Option (Nat × Bool) :=
  match x.type with
  | .pipe pi => some (pi, x.writable)
  | _ => none

/-- Every open end of a pipe is one slot, and every pipe has an open end. -/
structure Piped (pend : Fin NFILE → Option (Nat × Bool)) (pipe : Nat → Option Ends) : Prop where
  one : ∀ f g x, pend f = some x → pend g = some x → f = g
  opened : ∀ pi w, (∃ e, pipe pi = some e ∧ e.isOpen w = true) ↔ ∃ f, pend f = some (pi, w)
  alive : ∀ pi e, pipe pi = some e → ∃ w, e.isOpen w = true

/-- What `pipeclose` makes of a pipe. -/
def Ends.close (e : Ends) (w : Bool) : Option Ends :=
  let e := if w then { e with writeopen := false } else { e with readopen := false }
  if e.readopen = false ∧ e.writeopen = false then none else some e

theorem Ends.close_isOpen (e : Ends) (w v : Bool) :
    (∃ e', e.close w = some e' ∧ e'.isOpen v = true) ↔ v ≠ w ∧ e.isOpen v = true := by
  obtain ⟨readopen, writeopen⟩ := e
  cases w <;> cases v <;> cases readopen <;> cases writeopen <;> simp [close, isOpen]

theorem Ends.close_alive {e e' : Ends} {w : Bool} (h : e.close w = some e') :
    ∃ v, e'.isOpen v = true := by
  obtain ⟨readopen, writeopen⟩ := e
  cases w <;> cases readopen <;> cases writeopen <;> cases h
  · exact ⟨true, rfl⟩
  · exact ⟨true, rfl⟩
  · exact ⟨false, rfl⟩
  · exact ⟨false, rfl⟩

namespace Piped

variable {pend : Fin NFILE → Option (Nat × Bool)} {pipe : Nat → Option Ends} {pi : Nat}

theorem close {f : Fin NFILE} {w : Bool} {e : Ends} (h : Piped pend pipe)
    (hf : pend f = some (pi, w)) (he : pipe pi = some e) :
    Piped (update pend f none) (update pipe pi (e.close w)) where
  one g g' x hg hg' := by
    have hne : ∀ {k}, update pend f none k = some x → pend k = some x := by
      intro k hk
      by_cases hkf : k = f
      · subst hkf
        rw [update_self] at hk
        cases hk
      · rwa [update_of_ne hkf] at hk
    exact h.one g g' x (hne hg) (hne hg')
  opened pi' w' := by
    -- the slots that are this end now
    have hslot : (∃ g, update pend f none g = some (pi', w')) ↔
        ¬ (pi' = pi ∧ w' = w) ∧ ∃ g, pend g = some (pi', w') := by
      constructor
      · rintro ⟨g, hg⟩
        have hgf : g ≠ f := by
          rintro rfl
          rw [update_self] at hg
          cases hg
        rw [update_of_ne hgf] at hg
        refine ⟨?_, g, hg⟩
        rintro ⟨rfl, rfl⟩
        exact hgf (h.one g f _ hg hf)
      · rintro ⟨hne, g, hg⟩
        have hgf : g ≠ f := by
          rintro rfl
          rw [hf] at hg
          cases hg
          exact hne ⟨rfl, rfl⟩
        exact ⟨g, by rwa [update_of_ne hgf]⟩
    rw [hslot]
    by_cases hpi : pi' = pi
    · subst hpi
      rw [update_self, e.close_isOpen, ← h.opened]
      simp [he]
    · rw [update_of_ne hpi, h.opened]
      simp [hpi]
  alive pi' e' he' := by
    by_cases hpi : pi' = pi
    · subst hpi
      rw [update_self] at he'
      exact e.close_alive he'
    · rw [update_of_ne hpi] at he'
      exact h.alive pi' e' he'

theorem alloc {f₀ f₁ : Fin NFILE} (h : Piped pend pipe) (hne : f₀ ≠ f₁) (h₀ : pend f₀ = none)
    (h₁ : pend f₁ = none) (hpi : pipe pi = none) :
    Piped (update (update pend f₀ (some (pi, false))) f₁ (some (pi, true)))
      (update pipe pi (some ⟨true, true⟩)) := by
  have hnone : ∀ g w, pend g ≠ some (pi, w) := by
    intro g w hg
    obtain ⟨e, he, -⟩ := (h.opened pi w).mpr ⟨g, hg⟩
    rw [hpi] at he
    cases he
  have hends : ∀ g x, update (update pend f₀ (some (pi, false))) f₁
      (some (pi, true)) g = some x ↔
        g = f₀ ∧ x = (pi, false) ∨ g = f₁ ∧ x = (pi, true) ∨ pend g = some x := by
    intro g x
    by_cases hg₁ : g = f₁
    · subst hg₁
      simp [Ne.symm hne, h₁, eq_comm]
    · by_cases hg₀ : g = f₀
      · subst hg₀
        simp [hne, h₀, eq_comm]
      · simp [hg₀, hg₁]
  refine ⟨fun g g' x hg hg' => ?_, fun pi' w => ?_, fun pi' e he => ?_⟩
  · rw [hends] at hg hg'
    obtain ⟨rfl, rfl⟩ | ⟨rfl, rfl⟩ | hg := hg <;> obtain ⟨rfl, hx⟩ | ⟨rfl, hx⟩ | hg' := hg'
    · rfl
    · cases hx
    · exact absurd hg' (hnone g' _)
    · cases hx
    · rfl
    · exact absurd hg' (hnone g' _)
    · exact absurd hg (hx ▸ hnone g _)
    · exact absurd hg (hx ▸ hnone g _)
    · exact h.one g g' x hg hg'
  · simp only [hends]
    by_cases hpi' : pi' = pi
    · subst hpi'
      rw [update_self]
      cases w with
      | false => exact iff_of_true ⟨_, rfl, rfl⟩ ⟨f₀, .inl ⟨rfl, rfl⟩⟩
      | true => exact iff_of_true ⟨_, rfl, rfl⟩ ⟨f₁, .inr (.inl ⟨rfl, rfl⟩)⟩
    · rw [update_of_ne hpi', h.opened]
      simp [hpi']
  · by_cases hpi' : pi' = pi
    · subst hpi'
      rw [update_self] at he
      cases he
      exact ⟨true, rfl⟩
    · rw [update_of_ne hpi'] at he
      exact h.alive pi' e he

end Piped

/-! ## The file table -/

/-- The inode that a slot of this type refers to. -/
def FileType.ip : FileType → Option (Fin NINODE)
  | .inode ip => some ip
  | _ => .none

variable {P : Type}

namespace State

/-- The inodes the slots refer to. -/
def ptr (s : State P) (f : Fin NFILE) : Option (Fin NINODE) := (s.file f).type.ip

/-- The ends of pipes the slots are. -/
def pend (s : State P) (f : Fin NFILE) : Option (Nat × Bool) := (s.file f).pend

/-- The slots the descriptors of the processes refer to. -/
def desc (s : State P) (x : P × Fin NOFILE) : Option (Fin NFILE) := s.ofile x.1 x.2

/-- Store slot `f`. -/
def setFile (s : State P) (f : Fin NFILE) (x : File) : State P :=
  { s with file := update s.file f x }

/-- Store pipe `pi`. -/
def setPipe (s : State P) (pi : Nat) (x : Option Ends) : State P :=
  { s with pipe := update s.pipe pi x }

variable {s s' : State P} {f : Fin NFILE}

theorem ptr_congr (h : s'.file = s.file) : s'.ptr = s.ptr := by
  unfold ptr
  rw [h]

theorem desc_congr (h : s'.ofile = s.ofile) : s'.desc = s.desc := by
  unfold desc
  rw [h]

theorem ptr_of_type {x : FileType} (h : (s.file f).type = x) : s.ptr f = x.ip := by
  rw [ptr, h]

theorem pend_of_pipe {pi : Nat} (h : (s.file f).type = .pipe pi) :
    s.pend f = some (pi, (s.file f).writable) := by
  rw [pend, File.pend, h]

theorem pend_of_inode {ip : Fin NINODE} (h : (s.file f).type = .inode ip) : s.pend f = none := by
  rw [pend, File.pend, h]

theorem pend_of_none (h : (s.file f).type = .none) : s.pend f = none := by
  rw [pend, File.pend, h]

theorem ptr_eq_some {ip : Fin NINODE} : s.ptr f = some ip ↔ (s.file f).type = .inode ip := by
  rw [ptr]
  cases (s.file f).type <;> simp [FileType.ip]

theorem type_of_pend {pi : Nat} {w : Bool} (h : s.pend f = some (pi, w)) :
    (s.file f).type = .pipe pi := by
  rw [pend, File.pend] at h
  split at h
  · next hpi =>
    cases h
    exact hpi
  · cases h

theorem ptr_setFile (s : State P) (f : Fin NFILE) (x : File) :
    (s.setFile f x).ptr = update s.ptr f x.type.ip := by
  funext g
  by_cases hg : g = f
  · subst hg
    simp [ptr, setFile]
  · simp [ptr, setFile, hg]

theorem pend_setFile (s : State P) (f : Fin NFILE) (x : File) :
    (s.setFile f x).pend = update s.pend f x.pend := by
  funext g
  by_cases hg : g = f
  · subst hg
    simp [pend, setFile]
  · simp [pend, setFile, hg]

end State

structure Live (sb : Superblock) (X : Refs) (D : Fin NFILE → Nat) (s : State P) : Prop where
  sound : Sound sb s (X + tally s.ptr)
  files : ∀ f, (s.file f).ref = D f
  closed : ∀ f, (s.file f).ref = 0 → (s.file f).type = .none
  piped : Piped s.pend s.pipe

variable {sb : Superblock} {s s' t : State P} {X X' K : Refs} {D : Fin NFILE → Nat}
  {f : Fin NFILE} {u : Unit}

theorem Live.congr (h : Live sb X D s) (hsound : Sound sb s' (X' + tally s.ptr))
    (hfile : s'.file = s.file) (hpipe : s'.pipe = s.pipe) : Live sb X' D s' := by
  have hptr : s'.ptr = s.ptr := State.ptr_congr hfile
  have hpend : s'.pend = s.pend := by
    unfold State.pend
    rw [hfile]
  refine ⟨by rwa [hptr], ?_, ?_, ?_⟩
  · rw [hfile]
    exact h.files
  · rw [hfile]
    exact h.closed
  · rw [hpend, hpipe]
    exact h.piped

theorem Live.setFile {x : File} {pipe : Nat → Option Ends} (h : Live sb X D s)
    (hX : X' + tally (update s.ptr f x.type.ip) = X + tally s.ptr)
    (hclosed : x.ref = 0 → x.type = .none) (hpiped : Piped (update s.pend f x.pend) pipe) :
    Live sb X' (update D f x.ref) { s.setFile f x with pipe := pipe } := by
  have hptr : ({ s.setFile f x with pipe := pipe } : State P).ptr =
      update s.ptr f x.type.ip := s.ptr_setFile f x
  have hpend : ({ s.setFile f x with pipe := pipe } : State P).pend =
      update s.pend f x.pend := s.pend_setFile f x
  refine ⟨?_, fun g => ?_, fun g hg => ?_, ?_⟩
  · rw [hptr, hX]
    exact h.sound.congr ⟨rfl, rfl, rfl⟩ rfl
  · by_cases hgf : g = f
    · subst hgf
      simp [State.setFile]
    · simpa [State.setFile, hgf] using h.files g
  · by_cases hgf : g = f
    · subst hgf
      simp only [State.setFile, update_self] at hg ⊢
      exact hclosed hg
    · simp only [State.setFile, update_of_ne hgf] at hg ⊢
      exact h.closed g hg
  · rw [hpend]
    exact hpiped

theorem Live.setRef {x : File} (h : Live sb X D s) (htype : x.type = (s.file f).type)
    (hwritable : x.writable = (s.file f).writable) (hclosed : x.ref = 0 → x.type = .none) :
    Live sb X (update D f x.ref) (s.setFile f x) := by
  have hptr : x.type.ip = s.ptr f := by
    rw [htype]
    rfl
  have hpend : x.pend = s.pend f := by
    unfold State.pend File.pend
    rw [htype, hwritable]
  refine h.setFile ?_ hclosed ?_
  · rw [hptr, update_eq_self]
  · rw [hpend, update_eq_self]
    exact h.piped

theorem filealloc_live {r : Option (Fin NFILE)} (h : Live sb X D s)
    (hrun : filealloc.run s = some (r, s')) :
    r = none ∧ s' = s ∧ (∀ f, (s.file f).ref ≠ 0) ∨ ∃ f, r = some f ∧ D f = 0 ∧
      s' = s.setFile f { s.file f with ref := 1 } ∧ Live sb X (bump D f) s' := by
  simp only [filealloc, get_bind] at hrun
  split at hrun
  · next f hfind =>
    simp only [Fs.setFile, bind_iff, modify_iff, pure_iff] at hrun
    obtain ⟨_, _, rfl, rfl, rfl⟩ := hrun
    have href : (s.file f).ref = 0 := by simpa using List.find?_some hfind
    have hD : D f = 0 := (h.files f).symm.trans href
    refine .inr ⟨f, rfl, hD, rfl, ?_⟩
    have hset := h.setRef (f := f) (x := { s.file f with ref := 1 }) rfl rfl
      (fun h0 => absurd h0 Nat.one_ne_zero)
    unfold bump
    rw [hD]
    exact hset
  · next hnone =>
    obtain ⟨rfl, rfl⟩ := pure_iff.mp hrun
    exact .inl ⟨rfl, rfl, by simpa using hnone⟩

theorem filedup_live (h : Live sb X D s) (hrun : (filedup f).run s = some (u, s')) :
    s' = s.setFile f { s.file f with ref := (s.file f).ref + 1 } ∧ Live sb X (bump D f) s' := by
  simp only [filedup, get_bind] at hrun
  split at hrun
  · cases hrun
  · obtain rfl := modify_iff.mp hrun
    refine ⟨rfl, ?_⟩
    have hset := h.setRef (f := f) (x := { s.file f with ref := (s.file f).ref + 1 }) rfl rfl
      (fun h0 => absurd h0 (Nat.succ_ne_zero _))
    unfold bump
    rw [← h.files f]
    exact hset

/-! ## Closing -/

/-- What `fileclose` does. -/
structure Closed (sb : Superblock) (X : Refs) (D : Fin NFILE → Nat) (s s' : State P) : Prop where
  live : Live sb X D s'
  cwd : s'.cwd = s.cwd
  ofile : s'.ofile = s.ofile

theorem pipeclose_inv {pi : Nat} {w : Bool} (h : (pipeclose pi w).run s = some (u, s')) :
    ∃ e, s.pipe pi = some e ∧ s' = s.setPipe pi (e.close w) := by
  simp only [pipeclose, get_bind] at h
  split at h
  · cases h
  · next e he => exact ⟨e, he, (modify_iff.mp h).symm⟩

/-- What `fileclose` leaves of a slot. -/
def File.shut (x : File) : File := { x with ref := 0, type := .none }

section Shut

variable (h : Live sb X (bump D f) s) (hD : D f = 0)

include h hD

theorem Live.shut {pipe : Nat → Option Ends}
    (hX : X' + tally (update s.ptr f none) = X + tally s.ptr)
    (hpiped : Piped (update s.pend f none) pipe) :
    Live sb X' D { s.setFile f (s.file f).shut with pipe := pipe } := by
  have hset : Live sb X' (update (bump D f) f 0) _ :=
    h.setFile (f := f) (x := (s.file f).shut) hX (fun _ => rfl) hpiped
  rwa [← hD, update_bump] at hset

theorem shut_pipe {pi : Nat} (htype : (s.file f).type = .pipe pi)
    (hrun : (pipeclose pi (s.file f).writable).run (s.setFile f (s.file f).shut) = some (u, s')) :
    Closed sb X D s s' := by
  have hptr : update s.ptr f none = s.ptr :=
    update_eq_self_iff.mpr (s.ptr_of_type htype).symm
  obtain ⟨e, he, rfl⟩ := pipeclose_inv hrun
  exact ⟨h.shut hD (by rw [hptr]) (h.piped.close (s.pend_of_pipe htype) he), rfl, rfl⟩

theorem shut_inode {ip : Fin NINODE} (htype : (s.file f).type = .inode ip)
    (hrun : (do beginOp; iput sb ip; endOp : M P Unit).run (s.setFile f (s.file f).shut) =
      some (u, s')) : Closed sb X D s s' := by
  have htally := tally_drop (s.ptr_of_type htype)
  have hpend : update s.pend f none = s.pend :=
    update_eq_self_iff.mpr (s.pend_of_inode htype).symm
  have hlive : Live sb (bump X ip) D (s.setFile f (s.file f).shut) := by
    refine h.shut hD ?_ (by rw [hpend]; exact h.piped)
    rw [htally, bump_add, add_bump]
  simp only [bind_iff] at hrun
  obtain ⟨_, t₁, hbegin, _, t₂, hput, hend⟩ := hrun
  have hq := beginOp_quiet hbegin
  have hq' := endOp_quiet hend
  have hptr : (s.setFile f (s.file f).shut).ptr = update s.ptr f none :=
    s.ptr_setFile f _
  have hsound : Sound sb t₁ (bump (X + tally (update s.ptr f none)) ip) := by
    have hsound := hlive.sound.congr hq.disk hq.inode
    rwa [hptr, bump_add] at hsound
  have hput := iput_put hsound hput
  have hkeeps := ((hq.keeps _).trans hput.keeps).trans (hq'.keeps _)
  have hlive' : Live sb X D s' :=
    hlive.congr (by rw [hptr]; exact hput.sound.congr hq'.disk hq'.inode) hkeeps.file hkeeps.pipe
  exact ⟨hlive', hkeeps.cwd, hkeeps.ofile⟩

theorem shut_none (htype : (s.file f).type = .none) :
    Closed sb X D s (s.setFile f (s.file f).shut) := by
  have hptr : update s.ptr f none = s.ptr :=
    update_eq_self_iff.mpr (s.ptr_of_type htype).symm
  have hpend : update s.pend f none = s.pend :=
    update_eq_self_iff.mpr (s.pend_of_none htype).symm
  exact ⟨h.shut hD (by rw [hptr]) (by rw [hpend]; exact h.piped), rfl, rfl⟩

end Shut

theorem fileclose_closed (h : Live sb X (bump D f) s) (hrun : (fileclose sb f).run s = some (u, s')) :
    Closed sb X D s s' := by
  have href := h.files f
  rw [bump_self] at href
  simp only [fileclose, get_bind] at hrun
  split at hrun
  · cases hrun
  · split at hrun
    · -- there are other references
      next hmany =>
      obtain rfl := modify_iff.mp hrun
      have hset := h.setRef (f := f) (x := { s.file f with ref := (s.file f).ref - 1 }) rfl rfl
        (fun h0 => by simp only at h0; omega)
      have hD : (s.file f).ref - 1 = D f := by omega
      simp only [hD, update_bump] at hset ⊢
      exact ⟨hset, rfl, rfl⟩
    · next hone =>
      have hD : D f = 0 := by omega
      simp only [Fs.setFile, bind_iff, modify_iff] at hrun
      obtain ⟨_, t, ht, hrun⟩ := hrun
      have ht : s.setFile f (s.file f).shut = t := ht
      subst ht
      split at hrun
      · next pi htype => exact shut_pipe h hD htype hrun
      · next ip htype => exact shut_inode h hD htype (by simpa only [bind_iff] using hrun)
      · next htype =>
        obtain ⟨-, rfl⟩ := pure_iff.mp hrun
        exact shut_none h hD htype

/-- A slot that has been taken and is closed at once. -/
theorem filealloc_undo (h : Live sb X D s) (hD : D f = 0)
    (hrun : (fileclose sb f).run (s.setFile f { s.file f with ref := 1 }) = some (u, s')) :
    s' = s := by
  have href : (s.file f).ref = 0 := (h.files f).trans hD
  have htype : (s.file f).type = .none := h.closed f href
  have hfile : ∀ x, (s.setFile f x).file f = x := fun x => by
    unfold State.setFile
    exact update_self f x s.file
  simp only [fileclose, get_bind] at hrun
  simp only [hfile, htype, lt_irrefl, if_false] at hrun
  simp only [Fs.setFile, bind_iff, modify_iff, pure_iff] at hrun
  obtain ⟨_, _, rfl, -, rfl⟩ := hrun
  have hback : update s.file f (s.file f).shut = s.file := by
    have hshut : (s.file f).shut = s.file f := by
      unfold File.shut
      rw [← href, ← htype]
    rw [hshut, update_eq_self]
  simp only [State.setFile, update_idem]
  exact congrArg (fun file => { s with file := file }) hback

/-! ## Descriptors -/

theorem Live.quiet (h : Live sb X D s) (hq : Quiet s s') : Live sb X D s' :=
  h.congr (h.sound.congr hq.disk hq.inode) hq.file hq.pipe

section Descriptors

variable [DecidableEq P] {p : P} {fd : Fin NOFILE}

namespace State

/-- Store a descriptor of process `p`. -/
def setOfile (s : State P) (p : P) (fd : Fin NOFILE) (x : Option (Fin NFILE)) : State P :=
  { s with ofile := update s.ofile p (update (s.ofile p) fd x) }

/-- Store the current directory of process `p`. -/
def setCwd (s : State P) (p : P) (x : Option (Fin NINODE)) : State P :=
  { s with cwd := update s.cwd p x }

theorem desc_setOfile (s : State P) (p : P) (fd : Fin NOFILE) (x : Option (Fin NFILE)) :
    (s.setOfile p fd x).desc = update s.desc (p, fd) x := by
  funext x
  obtain ⟨q, k⟩ := x
  by_cases hq : q = p
  · subst hq
    by_cases hk : k = fd
    · subst hk
      simp [desc, setOfile]
    · simp [desc, setOfile, hk]
  · simp [desc, setOfile, hq]

theorem setOfile_eq_self {x : Option (Fin NFILE)} (h : s.ofile p fd = x) :
    s.setOfile p fd x = s := by
  subst h
  unfold setOfile
  rw [update_eq_self, update_eq_self]

theorem setOfile_setOfile (s : State P) (p : P) (fd : Fin NOFILE) (x y : Option (Fin NFILE)) :
    (s.setOfile p fd x).setOfile p fd y = s.setOfile p fd y := by
  simp only [setOfile, update_self, update_idem]

end State

theorem Live.setOfile (h : Live sb X D s) (p : P) (fd : Fin NOFILE) (x : Option (Fin NFILE)) :
    Live sb X D (s.setOfile p fd x) :=
  h.congr (h.sound.congr ⟨rfl, rfl, rfl⟩ rfl) rfl rfl

theorem fdalloc_inv {r : Option (Fin NOFILE)} (hrun : (fdalloc p f).run s = some (r, s')) :
    r = none ∧ s' = s ∧ (∀ fd, s.ofile p fd ≠ none) ∨
      ∃ fd, r = some fd ∧ s.ofile p fd = none ∧ s' = s.setOfile p fd (some f) := by
  simp only [fdalloc, get_bind] at hrun
  split at hrun
  · next fd hfind =>
    simp only [Fs.setOfile, bind_iff, modify_iff, pure_iff] at hrun
    obtain ⟨_, _, rfl, rfl, rfl⟩ := hrun
    exact .inr ⟨fd, rfl, by simpa using List.find?_some hfind, rfl⟩
  · next hnone =>
    obtain ⟨rfl, rfl⟩ := pure_iff.mp hrun
    refine .inl ⟨rfl, rfl, fun fd hfd => ?_⟩
    have := List.find?_eq_none.mp hnone fd (List.mem_finRange fd)
    simp [hfd] at this

variable [Fintype P]

theorem tally_desc_take (h : s.ofile p fd = none)
    (hofile : s'.ofile = (s.setOfile p fd (some f)).ofile) :
    tally s'.desc = bump (tally s.desc) f := by
  rw [State.desc_congr hofile, s.desc_setOfile]
  exact tally_take h

theorem tally_desc_drop (h : s.ofile p fd = some f) :
    tally s.desc = bump (tally (s.setOfile p fd none).desc) f := by
  rw [s.desc_setOfile]
  exact tally_drop h

end Descriptors

end Xv6.Fs
