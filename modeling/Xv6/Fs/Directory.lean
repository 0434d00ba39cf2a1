import Xv6.Fs.Cache
import Xv6.Fs.Syscall

/-!
# Directories and paths

The directory functions read entries, which changes nothing. A path is followed from one inode to
another, and the reference to each is given up again. `Anchored` says that this frees no inode, as
each has links or is referred to otherwise; then following a path leaves the disk alone.
-/

namespace Xv6.Fs

open Bytes Partial List

variable {P : Type} {sb : Superblock} {s s' t : State P} {K : Refs} {i dp : Fin NINODE}

section Entries

variable (h : Sound sb s K) (hi : 0 < K dp) (hv : (s.inode dp).valid = true)

include h hi hv

theorem readDirent_same {off : Nat} {de : Nat × List Byte}
    (hrun : (readDirent sb dp off).run s = some (de, s')) : s' = s := by
  simp only [readDirent, bind_iff] at hrun
  obtain ⟨r, t, hread, hrun⟩ := hrun
  obtain ⟨rfl, -⟩ := readi_same h hi hv (by decide) hread
  split at hrun
  · split at hrun
    · exact (pure_iff.mp hrun).2.symm
    · cases hrun
  · cases hrun

variable {offs : List Nat} {r : Option (Nat × Fin NINODE)}

theorem dirlookupLoop_spec {name : List Byte}
    (hrun : (dirlookupLoop sb dp name offs).run s = some (r, s')) :
    r = none ∧ s' = s ∨ ∃ off ip, r = some (off, ip) ∧ Took sb K ip s s' := by
  induction offs with
  | nil =>
    obtain ⟨rfl, rfl⟩ := pure_iff.mp hrun
    exact .inl ⟨rfl, rfl⟩
  | cons off offs ih =>
    rw [dirlookupLoop, bind_iff] at hrun
    obtain ⟨de, t, hread, hrun⟩ := hrun
    obtain rfl := readDirent_same h hi hv hread
    split at hrun
    · simp only [bind_iff, pure_iff] at hrun
      obtain ⟨ip, _, hget, rfl, rfl⟩ := hrun
      exact .inr ⟨off, ip, rfl, (iget_took h hget).1⟩
    · exact ih hrun

theorem emptyLoop_same {last off' : Nat}
    (hrun : (emptyLoop sb dp last offs).run s = some (off', s')) : s' = s := by
  induction offs with
  | nil => exact (pure_iff.mp hrun).2.symm
  | cons off offs ih =>
    rw [emptyLoop, bind_iff] at hrun
    obtain ⟨de, t, hread, hrun⟩ := hrun
    obtain rfl := readDirent_same h hi hv hread
    split at hrun
    · exact (pure_iff.mp hrun).2.symm
    · exact ih hrun

theorem isdirempty_same {r : Bool} (hrun : (isdirempty sb dp offs).run s = some (r, s')) :
    s' = s := by
  induction offs with
  | nil => exact (pure_iff.mp hrun).2.symm
  | cons off offs ih =>
    rw [isdirempty, bind_iff] at hrun
    obtain ⟨de, t, hread, hrun⟩ := hrun
    obtain rfl := readDirent_same h hi hv hread
    split at hrun
    · exact (pure_iff.mp hrun).2.symm
    · exact ih hrun

/-- `dirlookup` finds no entry, or it returns the inode an entry names. -/
theorem dirlookup_spec {name : List Byte} (hrun : (dirlookup sb dp name).run s = some (r, s')) :
    r = none ∧ s' = s ∨ ∃ off ip, r = some (off, ip) ∧ Took sb K ip s s' := by
  simp only [dirlookup, get_bind] at hrun
  split at hrun
  · exact dirlookupLoop_spec h hi hv hrun
  · cases hrun

end Entries

/-! ## References that come and go -/

/-- Inode `n` has links, or is referred to by `K`, so no reference that comes and goes frees it. -/
def Pinned (K : Refs) (s : State P) (n : Nat) : Prop :=
  (s.dinode n).type = .free ∨ (s.dinode n).nlink ≠ 0 ∨ ∃ i, 0 < K i ∧ (s.inode i).inum = n

/-- Every inode is pinned. -/
def Anchored (K : Refs) (s : State P) : Prop := ∀ n, Pinned K s n

theorem Pinned.congr {n : Nat} (h : Pinned K s n) (hdisk : SameDisk s s') (hkeeps : Keeps K s s') :
    Pinned K s' n := by
  unfold Pinned
  rw [hdisk.dinode]
  exact h.imp_right (Or.imp_right fun ⟨i, hi, hinum⟩ => ⟨i, hi, (hkeeps.inum i hi).trans hinum⟩)

theorem Anchored.congr (h : Anchored K s) (hdisk : SameDisk s s') (hkeeps : Keeps K s s') :
    Anchored K s' :=
  fun n => (h n).congr hdisk hkeeps

theorem Pinned.bump {n : Nat} (h : Pinned K s n) (i : Fin NINODE) : Pinned (bump K i) s n :=
  h.imp_right (Or.imp_right fun ⟨j, hj, hinum⟩ =>
    ⟨j, Nat.lt_of_lt_of_le hj (le_bump K i j), hinum⟩)

theorem Anchored.bump (h : Anchored K s) (i : Fin NINODE) : Anchored (Xv6.bump K i) s :=
  fun n => (h n).bump i

/-- A pinned inode is not freed. -/
theorem Put.same (h : Put sb K i s s') (hs : Sound sb s (bump K i))
    (hpin : Pinned K s (s.inode i).inum) : SameDisk s s' := by
  refine h.disk fun ⟨href, hv, hlink⟩ => ?_
  have hi := bump_pos K i
  have hK : K i = 0 := by
    have hrefs := hs.refs i
    rw [bump_self] at hrefs
    omega
  have hfree := hs.type_ne_free hi hv
  rw [hs.din_eq hi hv] at hlink hfree
  obtain hpin | hpin | ⟨j, hj, hinum⟩ := hpin
  · exact hfree hpin
  · exact hpin hlink
  · have hj' : 0 < (s.inode j).ref := hs.ref_pos (Nat.lt_of_lt_of_le hj (le_bump K i j))
    obtain rfl := hs.unique j i hj' (by omega) hinum
    omega

/-! ## Entering a name in a directory -/

theorem length_direntBytes (inum : Nat) (name : List Byte) :
    (direntBytes inum name).length = 16 := by
  have hlen : (cname name).length ≤ DIRSIZ := by
    have hstart : cname name <+: name.take DIRSIZ := takeWhile_prefix _
    refine hstart.length_le.trans ?_
    rw [length_take]
    exact min_le_left _ _
  simp only [direntBytes, length_append, length_cons, length_nil,
    length_replicate, DIRSIZ] at *
  omega

theorem dirlink_spec {name : List Byte} {inum : Nat} {ok : Bool} (h : Sound sb s K)
    (hi : 0 < K dp) (hv : (s.inode dp).valid = true)
    (hrun : (dirlink sb dp name inum).run s = some (ok, s')) :
    Sound sb s' K ∧ Keeps K s s' ∧ (ok = false → Anchored K s → SameDisk s s') ∧
      (ok = true → ∀ n, n ≠ (s.inode dp).inum → s'.dinode n = s.dinode n) := by
  simp only [dirlink, bind_iff] at hrun
  obtain ⟨r, t, hlook, hrun⟩ := hrun
  obtain ⟨rfl, rfl⟩ | ⟨off, ip, rfl, htook⟩ := dirlookup_spec h hi hv hlook
  · simp only [bind_iff, get_iff] at hrun
    obtain ⟨_, _, ⟨rfl, rfl⟩, off, t', hempty, w, t'', hwrite, hrun⟩ := hrun
    obtain rfl := emptyLoop_same h hi hv hempty
    obtain ⟨hsound, hkeeps, hres⟩ := writei_sound h hi hv hwrite
    split at hrun
    · obtain ⟨rfl, rfl⟩ := pure_iff.mp hrun
      refine ⟨hsound, hkeeps, fun hfalse => (by cases hfalse), fun _ n hn => ?_⟩
      obtain ⟨rfl, -⟩ | ⟨-, -, hwrote⟩ := hres
      · rfl
      · exact hwrote.dinode n hn
    · cases hrun
  · simp only [bind_iff, pure_iff] at hrun
    obtain ⟨_, _, hput, rfl, rfl⟩ := hrun
    have hput := iput_put htook.sound hput
    exact ⟨hput.sound, htook.keeps.trans hput.keeps, fun _ hanch =>
      htook.disk.trans (hput.same htook.sound (hanch.congr htook.disk htook.keeps _)),
      fun htrue => by cases htrue⟩

/-! ## Paths -/

/-- `K` and the reference that a function returns. -/
def plus (K : Refs) : Option (Fin NINODE) → Refs
  | none => K
  | some i => bump K i

/-- What functions do that look up names: they may return an entry, and leave the disk alone. -/
structure Named (sb : Superblock) (K : Refs) (r : Option (Fin NINODE)) (s s' : State P) :
    Prop where
  sound : Sound sb s' (plus K r)
  keeps : Keeps K s s'
  same : Anchored K s → SameDisk s s'

/-- The entry that has been looked up is locked. -/
structure Locked (sb : Superblock) (K : Refs) (i : Fin NINODE) (s s' : State P) : Prop
    extends Named sb K (some i) s s' where
  valid : (s'.inode i).valid = true

theorem Took.named (h : Took sb K i s s') : Named sb K (some i) s s' :=
  ⟨h.sound, h.keeps, fun _ => h.disk⟩

section Named

variable {u : Unit} {j : Fin NINODE} (h : Named sb K (some i) s t)

include h

theorem Named.lock (hrun : (ilock i).run t = some (u, s')) : Locked sb K i s s' := by
  obtain ⟨hsound, hkeeps, hdisk, hv, -⟩ := ilock_sound (K := bump K i) h.sound hrun
  exact ⟨⟨hsound, h.keeps.trans hkeeps.of_bump, fun hanch => (h.same hanch).trans hdisk⟩, hv⟩

theorem Named.put (hrun : (iput sb i).run t = some (u, s')) : Named sb K none s s' := by
  have hsound : Sound sb t (bump K i) := h.sound
  have hput := iput_put hsound hrun
  refine ⟨hput.sound, h.keeps.trans hput.keeps, fun hanch => ?_⟩
  have hsame := h.same hanch
  exact hsame.trans (hput.same hsound (hanch.congr hsame h.keeps _))

theorem Named.trans (h' : Named sb (bump K i) none t s') : Named sb K (some i) s s' where
  sound := h'.sound
  keeps := h.keeps.trans h'.keeps.of_bump
  same hanch := (h.same hanch).trans (h'.same ((hanch.congr (h.same hanch) h.keeps).bump i))

/-- From a directory to an entry of it. -/
theorem Named.next {t' : State P} (htook : Took sb (bump K i) j t t')
    (hrun : (iput sb i).run t' = some (u, s')) : Named sb K (some j) s s' := by
  have hsound := htook.sound
  rw [bump_comm] at hsound
  have hput := iput_put hsound hrun
  have hkeeps : Keeps K s t' := h.keeps.trans htook.keeps.of_bump
  refine ⟨hput.sound, hkeeps.trans hput.keeps.of_bump, fun hanch => ?_⟩
  have hsame := (h.same hanch).trans htook.disk
  exact hsame.trans (hput.same hsound ((hanch.congr hsame hkeeps).bump j _))

end Named

/-- What following a path does. -/
theorem namexLoop_named {parent : Bool} {fuel : Nat} {ip : Fin NINODE} {path : List Byte}
    {r : Option (Fin NINODE × List Byte)} (h : Named sb K (some ip) s t)
    (hrun : (namexLoop sb parent fuel ip path).run t = some (r, s')) :
    Named sb K (r.map Prod.fst) s s' := by
  induction fuel generalizing t ip path with
  | zero => cases hrun
  | succ fuel ih =>
    rw [namexLoop] at hrun
    split at hrun
    · -- the path is at its end
      split at hrun
      · simp only [bind_iff, pure_iff] at hrun
        obtain ⟨_, _, hput, rfl, rfl⟩ := hrun
        exact h.put hput
      · obtain ⟨rfl, rfl⟩ := pure_iff.mp hrun
        exact h
    · next name rest _ =>
      simp only [bind_iff, get_iff] at hrun
      obtain ⟨_, t', hlock, _, _, ⟨rfl, rfl⟩, hrun⟩ := hrun
      have hlocked := h.lock hlock
      split at hrun
      · simp only [bind_iff, pure_iff] at hrun
        obtain ⟨_, _, hput, rfl, rfl⟩ := hrun
        exact hlocked.put hput
      · split at hrun
        · obtain ⟨rfl, rfl⟩ := pure_iff.mp hrun
          exact hlocked.toNamed
        · rw [bind_iff] at hrun
          obtain ⟨r', t'', hlook, hrun⟩ := hrun
          obtain ⟨rfl, rfl⟩ | ⟨off, next, rfl, htook⟩ :=
            dirlookup_spec (K := bump K ip) hlocked.sound (bump_pos K ip) hlocked.valid hlook
          · simp only [bind_iff, pure_iff] at hrun
            obtain ⟨_, _, hput, rfl, rfl⟩ := hrun
            exact hlocked.put hput
          · simp only [bind_iff] at hrun
            obtain ⟨_, t₃, hput, hrun⟩ := hrun
            exact ih (hlocked.next htook hput) hrun

section Namex

variable {p : P} {path : List Byte} (h : Sound sb s K) (hcwd : ∀ c, s.cwd p = some c → 0 < K c)

include h hcwd

theorem namex_named {parent : Bool} {r : Option (Fin NINODE × List Byte)}
    (hrun : (namex sb p parent path).run s = some (r, s')) :
    Named sb K (r.map Prod.fst) s s' := by
  simp only [namex, get_bind] at hrun
  split at hrun
  · rw [bind_iff] at hrun
    obtain ⟨ip, t, hget, hloop⟩ := hrun
    exact namexLoop_named (iget_took h hget).1.named hloop
  · split at hrun
    · next c hc =>
      rw [bind_iff] at hrun
      obtain ⟨ip, t, hdup, hloop⟩ := hrun
      obtain ⟨rfl, htook⟩ := idup_took h (hcwd c hc) hdup
      exact namexLoop_named htook.named hloop
    · cases hrun

theorem namei_named {r : Option (Fin NINODE)} (hrun : (namei sb p path).run s = some (r, s')) :
    Named sb K r s s' := by
  simp only [namei, bind_iff, pure_iff] at hrun
  obtain ⟨r', _, hnamex, rfl, rfl⟩ := hrun
  exact namex_named h hcwd hnamex

end Namex

end Xv6.Fs
