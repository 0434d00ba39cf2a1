import Xv6.Fs.Directory

/-!
# What the system calls do to the disk

One lemma for each system call that looks up a path. Each says that the cache stays sound and, if
every inode is pinned, that a call that fails has undone all it did to the disk.
-/

namespace Xv6.Fs

open Bytes Partial

variable {P : Type} {sb : Superblock} {s s' t : State P} {K : Refs} {i dp : Fin NINODE} {u : Unit}

theorem Sound.congr (h : Sound sb s K) (hdisk : SameDisk s s') (hinode : s'.inode = s.inode) :
    Sound sb s' K where
  own := by
    rw [hdisk.dinode, hdisk.data, hdisk.bitmap]
    exact h.own
  sized := by
    rw [hdisk.dinode, hdisk.data]
    exact h.sized
  agree := by
    rw [hinode, hdisk.dinode]
    exact h.agree
  unique := by
    rw [hinode]
    exact h.unique
  refs := by
    rw [hinode]
    exact h.refs

/-- A change of the log only. -/
structure Quiet (s s' : State P) : Prop where
  disk : SameDisk s s'
  inode : s'.inode = s.inode
  cwd : s'.cwd = s.cwd
  file : s'.file = s.file
  pipe : s'.pipe = s.pipe
  ofile : s'.ofile = s.ofile

theorem Quiet.keeps (h : Quiet s s') (K : Refs) : Keeps K s s' where
  inum i _ := by rw [h.inode]
  valid i _ hv := by rwa [h.inode]
  cwd := h.cwd
  file := h.file
  pipe := h.pipe
  ofile := h.ofile

theorem beginOp_quiet (h : beginOp.run s = some (u, s')) : Quiet s s' := by
  obtain rfl := modify_iff.mp h
  exact ⟨⟨rfl, rfl, rfl⟩, rfl, rfl, rfl, rfl, rfl⟩

theorem endOp_quiet (h : endOp.run s = some (u, s')) : Quiet s s' := by
  obtain rfl := modify_iff.mp h
  exact ⟨⟨rfl, rfl, rfl⟩, rfl, rfl, rfl, rfl, rfl⟩

section Begin

variable {r : Option (Fin NINODE)}

theorem Named.begin (h : Named sb K r t s') (hq : Quiet s t) : Named sb K r s s' where
  sound := h.sound
  keeps := (hq.keeps K).trans h.keeps
  same hanch := hq.disk.trans (h.same (hanch.congr hq.disk (hq.keeps K)))

theorem Named.finish (h : Named sb K r s t) (hq : Quiet t s') : Named sb K r s s' where
  sound := h.sound.congr hq.disk hq.inode
  keeps := h.keeps.trans (hq.keeps K)
  same hanch := (h.same hanch).trans hq.disk

end Begin

/-! ## Link counts -/

/-- The link count of inode `n` has been set to `v`. -/
structure Relinked (n : Nat) (v : Int) (s s' : State P) : Prop where
  dinode : s'.dinode = Function.update s.dinode n { s.dinode n with nlink := v }
  data : s'.data = s.data
  bitmap : s'.bitmap = s.bitmap

theorem addNlink_spec {n : Int} (h : Sound sb s K) (hi : 0 < K i) (hv : (s.inode i).valid = true)
    (hrun : (addNlink sb i n).run s = some (u, s')) : Sound sb s' K ∧ Keeps K s s' ∧
      Relinked (s.inode i).inum (i16 ((s.dinode (s.inode i).inum).nlink + n)) s s' := by
  simp only [addNlink, bind_iff, modify_iff] at hrun
  obtain ⟨_, _, rfl, hup⟩ := hrun
  rw [iupdate_inv hup]
  obtain ⟨hsound, hkeeps⟩ := meta_sound
    (d := { (s.inode i).din with nlink := i16 ((s.inode i).din.nlink + n) }) h hi hv rfl rfl rfl
  refine ⟨hsound, hkeeps, ?_, rfl, rfl⟩
  simp [State.flush, State.setDin, State.setInode, h.din_eq hi hv]

variable {n off omode : Nat} {v major minor r : Int} {name path new : List Byte} {ip : Fin NINODE}
  {type : IType} {p : P} {reads : List (Nat × Nat)}

/-- The link count of an inode that is held may change. -/
theorem Anchored.relinked (h : Anchored K s) (hkeeps : Keeps K s s')
    (hr : Relinked (s.inode i).inum v s s') (hi : 0 < K i) : Anchored K s' := by
  intro n
  by_cases hni : n = (s.inode i).inum
  · exact .inr (.inr ⟨i, hi, (hkeeps.inum i hi).trans hni.symm⟩)
  · unfold Pinned
    rw [hr.dinode, Function.update_of_ne hni]
    exact (h n).imp_right (Or.imp_right fun ⟨j, hj, hinum⟩ =>
      ⟨j, hj, (hkeeps.inum j hj).trans hinum⟩)

/-- A link count fits in a `short`. -/
def Short (s : State P) : Prop := ∀ n, -32768 ≤ (s.dinode n).nlink ∧ (s.dinode n).nlink < 32768

theorem Short.congr (h : Short s) (hsame : SameDisk s s') : Short s' := by
  unfold Short
  rw [hsame.dinode]
  exact h

/-- Raising a link count and lowering it again changes nothing. -/
theorem Relinked.undo (h₁ : Relinked n (i16 ((s.dinode n).nlink + 1)) s t) (hshort : Short s)
    (h₂ : Relinked n (i16 ((t.dinode n).nlink + -1)) t s') : SameDisk s s' := by
  refine ⟨?_, h₂.data.trans h₁.data, h₂.bitmap.trans h₁.bitmap⟩
  rw [h₂.dinode, h₁.dinode, Function.update_self, Function.update_idem]
  have hback : i16 (i16 ((s.dinode n).nlink + 1) + -1) = (s.dinode n).nlink := by
    have hn := hshort n
    unfold i16
    omega
  simp only [hback]
  exact Function.update_eq_self n s.dinode

theorem Relinked.congr_right (h : Relinked n v s t) (hsame : SameDisk t s') : Relinked n v s s' :=
  ⟨hsame.dinode.trans h.dinode, hsame.data.trans h.data, hsame.bitmap.trans h.bitmap⟩

/-! ## `create` -/

theorem enter_spec {inum : Nat} (h : Sound sb s K) (hi : 0 < K dp)
    (hv : (s.inode dp).valid = true) (hrun : (enter sb dp name inum).run s = some (u, s')) :
    Sound sb s' K ∧ Keeps K s s' ∧ ∀ n, n ≠ (s.inode dp).inum → s'.dinode n = s.dinode n := by
  rw [enter, bind_iff] at hrun
  obtain ⟨ok, t, hlink, hrun⟩ := hrun
  obtain ⟨hsound, hkeeps, -, hothers⟩ := dirlink_spec h hi hv hlink
  cases ok with
  | true =>
    obtain ⟨-, rfl⟩ := pure_iff.mp hrun
    exact ⟨hsound, hkeeps, hothers rfl⟩
  | false => cases hrun

/-- The end of `create`: the new inode is entered in its directory. -/
theorem createEnd_spec {ip' : Fin NINODE} (h : Sound sb s (bump (bump K dp) ip))
    (hv : (s.inode dp).valid = true)
    (hrun : (do enter sb dp name n; iput sb dp; return ip : M P (Fin NINODE)).run s =
      some (ip', s')) : ip' = ip ∧ Sound sb s' (bump K ip) ∧ Keeps (bump K ip) s s' ∧
      ∀ n, n ≠ (s.inode dp).inum → s'.dinode n = s.dinode n := by
  simp only [bind_iff, pure_iff] at hrun
  obtain ⟨_, t, henter, _, _, hput, rfl, rfl⟩ := hrun
  have hd : 0 < bump (bump K dp) ip dp := Nat.lt_of_lt_of_le (bump_pos K dp) (le_bump _ _ _)
  obtain ⟨hsound, hkeeps, hothers⟩ := enter_spec h hd hv henter
  have hinum := hkeeps.inum dp hd
  rw [bump_comm] at hsound hkeeps
  have hput := iput_put hsound hput
  exact ⟨rfl, hput.sound, hkeeps.of_bump.trans hput.keeps, fun n hn =>
    (hput.others n (hinum ▸ hn)).trans (hothers n hn)⟩

theorem createNew_spec (h : Sound sb s (bump K dp)) (hv : (s.inode dp).valid = true)
    (hrun : (createNew sb dp name type major minor).run s = some (ip, s')) :
    Sound sb s' (bump K ip) ∧ Keeps K s s' ∧ (s'.inode ip).valid = true ∧
      (type ≠ .dir → (s.dinode (s'.inode ip).inum).type = .free ∧ (s'.inode ip).din.nlink = 1) := by
  simp only [createNew, bind_iff, modify_iff, get_iff] at hrun
  obtain ⟨ip', t₁, halloc, _, t₂, hlock, _, _, rfl, _, t₃, hup, _, _, ⟨rfl, rfl⟩, hrun⟩ := hrun
  have hd := bump_pos K dp
  obtain ⟨h₁, hk₁, hfree⟩ := ialloc_took h halloc
  obtain ⟨h₂, hk₂, -, hv₂, -⟩ := ilock_sound h₁ hlock
  have hi := bump_pos (bump K dp) ip'
  have hdp : 0 < bump (bump K dp) ip' dp := Nat.lt_of_lt_of_le hd (le_bump _ _ _)
  obtain ⟨h₃, hk₃⟩ := meta_sound (d := { (t₂.inode ip').din with major, minor, nlink := 1 }) h₂ hi
    hv₂ rfl rfl rfl
  rw [← iupdate_inv hup] at h₃ hk₃
  have hkeeps : Keeps (bump K dp) s t₃ := hk₁.trans (hk₂.of_bump.trans hk₃.of_bump)
  have hv₃ := hkeeps.valid dp hd hv
  split at hrun
  · simp only [bind_iff] at hrun
    obtain ⟨_, t₄, hlink, _, t₅, hdot, _, t₆, hdotdot, hrun⟩ := hrun
    obtain ⟨h₄, hk₄, -⟩ := addNlink_spec h₃ hdp hv₃ hlink
    have hv₄ := hk₄.valid ip' hi (hk₃.valid ip' hi hv₂)
    obtain ⟨h₅, hk₅, -⟩ := enter_spec h₄ hi hv₄ hdot
    obtain ⟨h₆, hk₆, -⟩ := enter_spec h₅ hi (hk₅.valid ip' hi hv₄) hdotdot
    have hk := hk₄.trans (hk₅.trans hk₆)
    have hrun' : (do enter sb dp name (t₃.inode ip').inum; iput sb dp; return ip' :
        M P (Fin NINODE)).run t₆ = some (ip, s') := by
      simpa only [bind_iff] using hrun
    obtain ⟨rfl, hsound, hkeeps', -⟩ := createEnd_spec h₆ (hk.valid dp hdp hv₃) hrun'
    exact ⟨hsound, hkeeps.of_bump.trans (hk.of_bump.of_bump.trans hkeeps'.of_bump),
      hkeeps'.valid ip (bump_pos K ip) (hk.valid ip hi (hk₃.valid ip hi hv₂)), by simp [*]⟩
  · obtain ⟨rfl, hsound, hkeeps', hothers⟩ := createEnd_spec h₃ hv₃ hrun
    have hv' := hkeeps'.valid ip (bump_pos K ip) (hk₃.valid ip hi hv₂)
    refine ⟨hsound, hkeeps.of_bump.trans hkeeps'.of_bump, hv', fun _ => ?_⟩
    -- it is another inode than the directory, so its link count stays
    have hnum₃ := hk₃.inum ip hi
    have hnum := (hkeeps'.inum ip (bump_pos K ip)).trans hnum₃
    rw [← hk₂.inum ip hi] at hfree
    have hne : (t₂.inode ip).inum ≠ (t₃.inode dp).inum := by
      rw [hkeeps.inum dp hd]
      intro heq
      refine h.type_ne_free hd hv ?_
      rw [h.din_eq hd hv, ← heq]
      exact hfree
    refine ⟨hnum ▸ hfree, ?_⟩
    rw [hsound.din_eq (bump_pos K ip) hv', hnum, hothers _ hne, iupdate_inv hup]
    simp [State.flush, State.setDin, State.setInode]

/-- What `create` looks for first: whether the directory of `path` is there, without the name. -/
def lacks (sb : Superblock) (p : P) (path : List Byte) : M P Bool := do
  match ← nameiparent sb p path with
  | none => return false
  | some (dp, name) =>
    ilock dp
    return (← dirlookup sb dp name).isNone

/-- `create` makes an inode. -/
def Makes (sb : Superblock) (p : P) (path : List Byte) (s : State P) : Prop :=
  ∃ t, (lacks sb p path).run s = some (true, t)

/-- What `create` does, where `C` says whether it makes an inode. -/
structure Made (sb : Superblock) (K : Refs) (type : IType) (C : Prop) (r : Option (Fin NINODE))
    (s s' : State P) : Prop where
  sound : Sound sb s' (plus K r)
  keeps : Keeps K s s'
  valid : ∀ ip, r = some ip → (s'.inode ip).valid = true
  same : ¬ C → Anchored K s → SameDisk s s'
  fresh : C → ∃ ip, r = some ip ∧ (type ≠ .dir → Anchored K s →
    (s.dinode (s'.inode ip).inum).type = .free ∧ (s'.inode ip).din.nlink = 1)

theorem Named.made {C : Prop} (h : Named sb K none s s') (hC : ¬ C) : Made sb K type C none s s' :=
  ⟨h.sound, h.keeps, fun _ hip => (by cases hip), fun _ => h.same, fun hc => absurd hc hC⟩

theorem create_made {r : Option (Fin NINODE)} (h : Sound sb s K)
    (hcwd : ∀ c, s.cwd p = some c → 0 < K c)
    (hrun : (create sb p path type major minor).run s = some (r, s')) :
    Made sb K type (Makes sb p path s) r s s' := by
  simp only [create, bind_iff] at hrun
  obtain ⟨r₁, t₁, hparent, hrun⟩ := hrun
  have hwalk := namex_named h hcwd hparent
  have hmakes : ∀ {b t}, (lacks sb p path).run s = some (b, t) → (Makes sb p path s ↔ b = true) := by
    intro b t hb
    simp [Makes, hb]
  rw [lacks, bind_of_run hparent] at hmakes
  split at hrun
  · obtain ⟨rfl, rfl⟩ := pure_iff.mp hrun
    exact hwalk.made (by rw [hmakes rfl]; exact Bool.false_ne_true)
  · next dp name =>
    simp only [bind_iff] at hrun
    obtain ⟨_, t₂, hlock, r₂, t₃, hlook, hrun⟩ := hrun
    have hlocked : Locked sb K dp s t₂ := hwalk.lock hlock
    have hsound : Sound sb t₂ (bump K dp) := hlocked.sound
    dsimp only at hmakes
    rw [bind_of_run hlock, bind_of_run hlook] at hmakes
    obtain ⟨rfl, rfl⟩ | ⟨off, ip, rfl, htook⟩ :=
      dirlookup_spec hsound (bump_pos K dp) hlocked.valid hlook
    · -- there is no such entry
      simp only [map_iff] at hrun
      obtain ⟨ip, hnew, rfl⟩ := hrun
      obtain ⟨hsound', hkeeps, hvalid, hfresh⟩ := createNew_spec hsound hlocked.valid hnew
      refine ⟨hsound', hlocked.keeps.trans hkeeps, fun ip' hip => ?_,
        fun hno => absurd ((hmakes rfl).mpr rfl) hno, fun _ => ⟨ip, rfl, fun htype hanch => ?_⟩⟩
      · cases hip
        exact hvalid
      · rw [← (hlocked.same hanch).dinode]
        exact hfresh htype
    · simp only [bind_iff, get_iff] at hrun
      obtain ⟨_, t₄, hput, _, t₅, hlock', _, _, ⟨rfl, rfl⟩, hrun⟩ := hrun
      have hnext : Locked sb K ip s t₅ := (hlocked.next htook hput).lock hlock'
      split at hrun
      · obtain ⟨rfl, rfl⟩ := pure_iff.mp hrun
        refine ⟨hnext.sound, hnext.keeps, fun ip' hip => ?_, fun _ => hnext.same,
          fun hc => absurd ((hmakes rfl).mp hc) Bool.false_ne_true⟩
        cases hip
        exact hnext.valid
      · simp only [bind_iff, pure_iff] at hrun
        obtain ⟨_, _, hput', rfl, rfl⟩ := hrun
        exact (hnext.put hput').made fun hc => absurd ((hmakes rfl).mp hc) Bool.false_ne_true

theorem Made.begin {C : Prop} {r : Option (Fin NINODE)} (h : Made sb K type C r t s')
    (hq : Quiet s t) : Made sb K type C r s s' where
  sound := h.sound
  keeps := (hq.keeps K).trans h.keeps
  valid := h.valid
  same hno hanch := hq.disk.trans (h.same hno (hanch.congr hq.disk (hq.keeps K)))
  fresh hc := by
    obtain ⟨ip, hr, hnew⟩ := h.fresh hc
    refine ⟨ip, hr, fun htype hanch => ?_⟩
    rw [← hq.disk.dinode]
    exact hnew htype (hanch.congr hq.disk (hq.keeps K))

theorem Made.undone {C : Prop} (h : Made sb K type C none s s') : Anchored K s → SameDisk s s' := by
  refine h.same fun hc => ?_
  obtain ⟨_, hr, -⟩ := h.fresh hc
  cases hr

/-- What a call does that changes names: when it fails, it has undone all it did. -/
structure PathCall (sb : Superblock) (K : Refs) (r : Int) (s s' : State P) : Prop where
  sound : Sound sb s' K
  keeps : Keeps K s s'
  undone : r = -1 → Anchored K s → Short s → SameDisk s s'

theorem Named.pathCall (h : Named sb K none s s') (r : Int) : PathCall sb K r s s' :=
  ⟨h.sound, h.keeps, fun _ hanch _ => h.same hanch⟩

theorem PathCall.done (hsound : Sound sb s' K) (hkeeps : Keeps K s s') : PathCall sb K 0 s s' :=
  ⟨hsound, hkeeps, fun hr => by cases hr⟩

/-! ## `link` -/

/-- The part of `link` that looks up the new name. -/
theorem linkEntry_spec {done : Bool} (h : Sound sb s K) (hcwd : ∀ c, s.cwd p = some c → 0 < K c)
    (hrun : (linkEntry sb p new n).run s = some (done, s')) :
    Sound sb s' K ∧ Keeps K s s' ∧ (done = false → Anchored K s → SameDisk s s') := by
  rw [linkEntry, bind_iff] at hrun
  obtain ⟨r, t₁, hparent, hrun⟩ := hrun
  have hwalk := namex_named h hcwd hparent
  split at hrun
  · obtain ⟨rfl, rfl⟩ := pure_iff.mp hrun
    exact ⟨hwalk.sound, hwalk.keeps, fun _ => hwalk.same⟩
  · next dp name =>
    simp only [bind_iff, pure_iff] at hrun
    obtain ⟨_, t₂, hlock, ok, t₃, hlink, _, t₄, hput, rfl, rfl⟩ := hrun
    have hlocked : Locked sb K dp s t₂ := hwalk.lock hlock
    obtain ⟨h₃, hk₃, hfalse, -⟩ :=
      dirlink_spec (K := bump K dp) hlocked.sound (bump_pos K dp) hlocked.valid hlink
    have hput := iput_put h₃ hput
    have hk : Keeps K s t₃ := hlocked.keeps.trans hk₃.of_bump
    refine ⟨hput.sound, hk.trans hput.keeps, fun hok hanch => ?_⟩
    have hsame := hlocked.same hanch
    have hsame₃ := hsame.trans (hfalse hok ((hanch.congr hsame hlocked.keeps).bump dp))
    exact hsame₃.trans (hput.same h₃ (hanch.congr hsame₃ hk _))

theorem sysLink_spec {old : List Byte} (h : Sound sb s K) (hcwd : ∀ c, s.cwd p = some c → 0 < K c)
    (hrun : (sysLink sb p old new).run s = some (r, s')) : PathCall sb K r s s' := by
  simp only [sysLink, bind_iff] at hrun
  obtain ⟨_, s₀, hbegin, r₁, t₁, hnamei, hrun⟩ := hrun
  have hq := beginOp_quiet hbegin
  have hnamed : Named sb K r₁ s t₁ :=
    (namei_named (h.congr hq.disk hq.inode) (hq.cwd ▸ hcwd) hnamei).begin hq
  split at hrun
  · simp only [bind_iff, pure_iff] at hrun
    obtain ⟨_, _, hend, rfl, rfl⟩ := hrun
    exact (hnamed.finish (endOp_quiet hend)).pathCall _
  · next ip =>
    simp only [bind_iff, get_iff] at hrun
    obtain ⟨_, t₂, hlock, _, _, ⟨rfl, rfl⟩, hrun⟩ := hrun
    have hi := bump_pos K ip
    have hlocked := hnamed.lock hlock
    have h₂ : Sound sb t₂ (bump K ip) := hlocked.sound
    have hv₂ := hlocked.valid
    split at hrun
    · simp only [bind_iff, pure_iff] at hrun
      obtain ⟨_, t₃, hput, _, _, hend, rfl, rfl⟩ := hrun
      exact ((hlocked.put hput).finish (endOp_quiet hend)).pathCall _
    · simp only [bind_iff] at hrun
      obtain ⟨_, t₃, hraise, done, t₄, hentry, hrun⟩ := hrun
      obtain ⟨h₃, hk₃, hrel⟩ := addNlink_spec h₂ hi hv₂ hraise
      have hk : Keeps K s t₃ := hlocked.keeps.trans hk₃.of_bump
      have hcwd₃ : ∀ c, t₃.cwd p = some c → 0 < bump K ip c := by
        intro c hc
        rw [hk.cwd] at hc
        exact Nat.lt_of_lt_of_le (hcwd c hc) (le_bump K ip c)
      obtain ⟨h₄, hk₄, hentered⟩ := linkEntry_spec h₃ hcwd₃ hentry
      have hk' : Keeps K s t₄ := hk.trans hk₄.of_bump
      split at hrun
      · simp only [bind_iff, pure_iff] at hrun
        obtain ⟨_, t₅, hput, _, _, hend, rfl, rfl⟩ := hrun
        have hput := iput_put h₄ hput
        have hq' := endOp_quiet hend
        exact .done (hput.sound.congr hq'.disk hq'.inode)
          (hk'.trans (hput.keeps.trans (hq'.keeps K)))
      · next hdone =>
        simp only [bind_iff, pure_iff] at hrun
        obtain ⟨_, t₅, hlock', _, t₆, hlower, _, t₇, hput, _, _, hend, rfl, rfl⟩ := hrun
        obtain ⟨h₅, hk₅, hdisk₅, hv₅, hinum₅⟩ := ilock_sound h₄ hlock'
        obtain ⟨h₆, hk₆, hrel'⟩ := addNlink_spec h₅ hi hv₅ hlower
        have hput := iput_put h₆ hput
        have hq' := endOp_quiet hend
        have hk₆' : Keeps K s t₆ := hk'.trans (hk₅.of_bump.trans hk₆.of_bump)
        refine ⟨hput.sound.congr hq'.disk hq'.inode, hk₆'.trans (hput.keeps.trans (hq'.keeps K)),
          fun _ hanch hshort => ?_⟩
        have hsame := hlocked.same hanch
        have hanch₃ : Anchored (bump K ip) t₃ :=
          ((hanch.congr hsame hlocked.keeps).bump ip).relinked hk₃ hrel hi
        have hsame₄ := hentered (by simpa using hdone) hanch₃
        rw [hinum₅, hk₄.inum ip hi, hk₃.inum ip hi] at hrel'
        have hback : SameDisk t₂ t₆ :=
          (hrel.congr_right (hsame₄.trans hdisk₅)).undo (hshort.congr hsame) hrel'
        have hsame₆ := hsame.trans hback
        exact hsame₆.trans ((hput.same h₆ (hanch.congr hsame₆ hk₆' _)).trans hq'.disk)

/-! ## `unlink` -/

theorem unlinkEnd_spec (h : Sound sb s (bump (bump K dp) ip)) (hv : (s.inode ip).valid = true)
    (hrun : (do iput sb dp; addNlink sb ip (-1); iput sb ip : M P Unit).run s = some (u, s')) :
    Sound sb s' K ∧ Keeps K s s' := by
  simp only [bind_iff] at hrun
  obtain ⟨_, t, hput, _, t', hlower, hput'⟩ := hrun
  have hi := bump_pos K ip
  rw [bump_comm] at h
  have hput := iput_put h hput
  obtain ⟨h₂, hk₂, -⟩ := addNlink_spec hput.sound hi (hput.keeps.valid ip hi hv) hlower
  have hput' := iput_put h₂ hput'
  exact ⟨hput'.sound, hput.keeps.of_bump.trans (hk₂.of_bump.trans hput'.keeps)⟩

theorem unlinkEntry_spec (h : Sound sb s (bump (bump K dp) ip)) (hvd : (s.inode dp).valid = true)
    (hvi : (s.inode ip).valid = true) (hrun : (unlinkEntry sb dp ip off).run s = some (u, s')) :
    Sound sb s' K ∧ Keeps K s s' := by
  have hi := bump_pos (bump K dp) ip
  have hd : 0 < bump (bump K dp) ip dp := Nat.lt_of_lt_of_le (bump_pos K dp) (le_bump _ _ _)
  simp only [unlinkEntry, bind_iff] at hrun
  obtain ⟨r, t₁, hwrite, hrun⟩ := hrun
  obtain ⟨h₁, hk₁, -⟩ := writei_sound h hd hvd hwrite
  split at hrun
  · have hk₁' : Keeps K s t₁ := hk₁.of_bump.of_bump
    have hv₁ := hk₁.valid ip hi hvi
    simp only [get_bind] at hrun
    split at hrun
    · rw [bind_iff] at hrun
      obtain ⟨_, t₂, hlower, hrun⟩ := hrun
      obtain ⟨h₂, hk₂, -⟩ := addNlink_spec h₁ hd (hk₁.valid dp hd hvd) hlower
      obtain ⟨hsound, hkeeps⟩ := unlinkEnd_spec h₂ (hk₂.valid ip hi hv₁) hrun
      exact ⟨hsound, hk₁'.trans (hk₂.of_bump.of_bump.trans hkeeps)⟩
    · obtain ⟨hsound, hkeeps⟩ := unlinkEnd_spec h₁ hv₁ hrun
      exact ⟨hsound, hk₁'.trans hkeeps⟩
  · cases hrun

theorem isFull_same {full : Bool} (h : Sound sb s K) (hi : 0 < K i)
    (hv : (s.inode i).valid = true) (hrun : (isFull sb i).run s = some (full, s')) : s' = s := by
  simp only [isFull, get_bind] at hrun
  split at hrun
  · simp only [bind_iff, pure_iff] at hrun
    obtain ⟨empty, _, hempty, rfl, rfl⟩ := hrun
    exact isdirempty_same h hi hv hempty
  · exact (pure_iff.mp hrun).2.symm

theorem unlinkFound_spec (h : Locked sb K dp s t) {t' : State P}
    (htook : Took sb (bump K dp) ip t t')
    (hrun : (unlinkFound sb dp ip off).run t' = some (r, s')) : PathCall sb K r s s' := by
  simp only [unlinkFound, bind_iff, get_iff] at hrun
  obtain ⟨_, t₁, hlock, _, _, ⟨rfl, rfl⟩, hrun⟩ := hrun
  obtain ⟨h₁, hk₁, hdisk₁, hv₁, -⟩ := ilock_sound htook.sound hlock
  have hk : Keeps (bump K dp) t t₁ := htook.keeps.trans hk₁.of_bump
  have hlocked : Locked sb (bump K dp) ip t t₁ :=
    ⟨⟨h₁, hk, fun _ => htook.disk.trans hdisk₁⟩, hv₁⟩
  split at hrun
  · cases hrun
  · rw [bind_iff] at hrun
    obtain ⟨full, t₂, hfull, hrun⟩ := hrun
    obtain rfl := isFull_same h₁ (bump_pos (bump K dp) ip) hv₁ hfull
    split at hrun
    · simp only [bind_iff, pure_iff] at hrun
      obtain ⟨_, _, hput, _, _, hput', _, _, hend, rfl, rfl⟩ := hrun
      exact (((h.toNamed.trans (hlocked.put hput)).put hput').finish (endOp_quiet hend)).pathCall _
    · simp only [bind_iff, pure_iff] at hrun
      obtain ⟨_, t₃, hcut, _, _, hend, rfl, rfl⟩ := hrun
      have hvd := hk.valid dp (bump_pos K dp) h.valid
      obtain ⟨hsound, hkeeps⟩ := unlinkEntry_spec h₁ hvd hv₁ hcut
      have hq := endOp_quiet hend
      exact .done (hsound.congr hq.disk hq.inode)
        (h.keeps.trans (hk.of_bump.trans (hkeeps.trans (hq.keeps K))))

theorem sysUnlink_spec (h : Sound sb s K) (hcwd : ∀ c, s.cwd p = some c → 0 < K c)
    (hrun : (sysUnlink sb p path).run s = some (r, s')) : PathCall sb K r s s' := by
  simp only [sysUnlink, bind_iff] at hrun
  obtain ⟨_, s₀, hbegin, r₁, t₁, hparent, hrun⟩ := hrun
  have hq := beginOp_quiet hbegin
  have hnamed : Named sb K (r₁.map Prod.fst) s t₁ :=
    (namex_named (h.congr hq.disk hq.inode) (hq.cwd ▸ hcwd) hparent).begin hq
  split at hrun
  · simp only [bind_iff, pure_iff] at hrun
    obtain ⟨_, _, hend, rfl, rfl⟩ := hrun
    exact (hnamed.finish (endOp_quiet hend)).pathCall _
  · next dp name =>
    rw [bind_iff] at hrun
    obtain ⟨_, t₂, hlock, hrun⟩ := hrun
    have hlocked : Locked sb K dp s t₂ := hnamed.lock hlock
    have h₂ : Sound sb t₂ (bump K dp) := hlocked.sound
    split at hrun
    · simp only [bind_iff, pure_iff] at hrun
      obtain ⟨_, _, hput, _, _, hend, rfl, rfl⟩ := hrun
      exact ((hlocked.put hput).finish (endOp_quiet hend)).pathCall _
    · rw [bind_iff] at hrun
      obtain ⟨r₂, t₃, hlook, hrun⟩ := hrun
      obtain ⟨rfl, rfl⟩ | ⟨off, ip, rfl, htook⟩ :=
        dirlookup_spec h₂ (bump_pos K dp) hlocked.valid hlook
      · simp only [bind_iff, pure_iff] at hrun
        obtain ⟨_, _, hput, _, _, hend, rfl, rfl⟩ := hrun
        exact ((hlocked.put hput).finish (endOp_quiet hend)).pathCall _
      · exact unlinkFound_spec hlocked htook hrun

/-! ## `mkdir`, `mknod`, `open` and `exec` -/

theorem sysMake_spec (h : Sound sb s K) (hcwd : ∀ c, s.cwd p = some c → 0 < K c)
    (hrun : (sysMake sb p path type major minor).run s = some (r, s')) : PathCall sb K r s s' := by
  simp only [sysMake, bind_iff] at hrun
  obtain ⟨_, s₀, hbegin, r₁, t₁, hcreate, hrun⟩ := hrun
  have hq := beginOp_quiet hbegin
  have hmade := (create_made (h.congr hq.disk hq.inode) (hq.cwd ▸ hcwd) hcreate).begin hq
  have hk := hmade.keeps
  split at hrun
  · simp only [bind_iff, pure_iff] at hrun
    obtain ⟨_, _, hend, rfl, rfl⟩ := hrun
    have hq' := endOp_quiet hend
    exact ⟨hmade.sound.congr hq'.disk hq'.inode, hk.trans (hq'.keeps K), fun _ hanch _ =>
      (hmade.undone hanch).trans hq'.disk⟩
  · simp only [bind_iff, pure_iff] at hrun
    obtain ⟨_, t₂, hput, _, _, hend, rfl, rfl⟩ := hrun
    have hq' := endOp_quiet hend
    have hput := iput_put hmade.sound hput
    exact .done (hput.sound.congr hq'.disk hq'.inode) (hk.trans (hput.keeps.trans (hq'.keeps K)))

/-- What `open` does to find the inode. -/
theorem openInode_made {r : Option (Fin NINODE)} (h : Sound sb s K)
    (hcwd : ∀ c, s.cwd p = some c → 0 < K c)
    (hrun : (openInode sb p path omode).run s = some (r, s')) :
    Made sb K .file (omode &&& O_CREATE ≠ 0 ∧ Makes sb p path s) r s s' := by
  rw [openInode] at hrun
  split at hrun
  · next hmode =>
    have hmade := create_made h hcwd hrun
    exact ⟨hmade.sound, hmade.keeps, hmade.valid, fun hno => hmade.same fun hc => hno ⟨hmode, hc⟩,
      fun hc => hmade.fresh hc.2⟩
  · next hmode =>
    rw [bind_iff] at hrun
    obtain ⟨r₁, t₁, hnamei, hrun⟩ := hrun
    have hnamed := namei_named h hcwd hnamei
    split at hrun
    · obtain ⟨rfl, rfl⟩ := pure_iff.mp hrun
      exact hnamed.made fun hc => hmode hc.1
    · next ip =>
      simp only [bind_iff, get_iff] at hrun
      obtain ⟨_, t₂, hlock, _, _, ⟨rfl, rfl⟩, hrun⟩ := hrun
      have hlocked := hnamed.lock hlock
      split at hrun
      · simp only [bind_iff, pure_iff] at hrun
        obtain ⟨_, _, hput, rfl, rfl⟩ := hrun
        exact (hlocked.put hput).made fun hc => hmode hc.1
      · obtain ⟨rfl, rfl⟩ := pure_iff.mp hrun
        refine ⟨hlocked.sound, hlocked.keeps, fun ip' hip => ?_, fun _ => hlocked.same,
          fun hc => absurd hc.1 hmode⟩
        cases hip
        exact hlocked.valid

theorem execReads_same (h : Sound sb s K) (hi : 0 < K i) (hv : (s.inode i).valid = true)
    (hrun : (execReads sb i reads).run s = some (u, s')) : s' = s := by
  induction reads with
  | nil => exact (pure_iff.mp hrun).2.symm
  | cons read reads ih =>
    rw [execReads, bind_iff] at hrun
    obtain ⟨_, t, hread, hrun⟩ := hrun
    obtain ⟨rfl, -⟩ := readi_same h hi hv (Nat.mod_lt _ (by decide)) hread
    exact ih hrun

theorem exec_named {r' : Int} (h : Sound sb s K) (hcwd : ∀ c, s.cwd p = some c → 0 < K c)
    (hrun : (exec sb p path reads r).run s = some (r', s')) : Named sb K none s s' := by
  simp only [exec, bind_iff] at hrun
  obtain ⟨_, s₀, hbegin, r₁, t₁, hnamei, hrun⟩ := hrun
  have hq := beginOp_quiet hbegin
  have hnamed : Named sb K r₁ s t₁ :=
    (namei_named (h.congr hq.disk hq.inode) (hq.cwd ▸ hcwd) hnamei).begin hq
  split at hrun
  · simp only [bind_iff, pure_iff] at hrun
    obtain ⟨_, _, hend, rfl, rfl⟩ := hrun
    exact hnamed.finish (endOp_quiet hend)
  · next ip =>
    simp only [bind_iff, pure_iff] at hrun
    obtain ⟨_, t₂, hlock, _, t₃, hreads, _, _, hput, _, _, hend, rfl, rfl⟩ := hrun
    have hlocked := hnamed.lock hlock
    obtain rfl := execReads_same (K := bump K ip) hlocked.sound (bump_pos K ip) hlocked.valid hreads
    exact (hlocked.put hput).finish (endOp_quiet hend)

end Xv6.Fs
