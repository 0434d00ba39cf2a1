import Xv6.Fs.Ownership

/-!
# Calls that fail

A call on paths that returns -1 has undone all it did, but for one exit: `open` with `O_CREATE`
makes the file before it looks for a slot and a descriptor, and leaves it there when it finds none.
-/

namespace Xv6.Fs

open Bytes Partial

variable {P : Type} [Fintype P] [DecidableEq P] {sb : Superblock} {s s' : State P} {init : P}
  {c : Call P}

/-- The calls that take a path and change the file system. -/
def Call.OnPath : Call P → Prop
  | .open .. | .link .. | .unlink .. | .mkdir .. | .mknod .. | .chdir .. => True
  | _ => False

/-- `open` is not to make a file, or has none to make, as the name is there or its directory is not,
or it finds a slot and a descriptor for the file. -/
def Call.Undone (sb : Superblock) (s : State P) : Call P → Prop
  | .open p path omode =>
    omode &&& O_CREATE ≠ 0 ∧ Makes sb p path { s with logged := [] } → HasRoom p s
  | _ => True

/-- The disk, the tables of the processes and all reference counts are the same. -/
structure Unchanged (s s' : State P) : Prop where
  disk : SameDisk s s'
  cwd : s'.cwd = s.cwd
  ofile : s'.ofile = s.ofile
  inode : ∀ i, (s'.inode i).ref = (s.inode i).ref
  file : ∀ f, (s'.file f).ref = (s.file f).ref

omit [DecidableEq P] in
theorem Keeps.unchanged {K : Refs} (h : Keeps K s s') (hs : Settled sb s)
    (hsound : Sound sb s' s.held) (hdisk : SameDisk s s') : Unchanged s s' where
  disk := hdisk
  cwd := h.cwd
  ofile := h.ofile
  inode i := by rw [hsound.refs i, hs.sound.refs i]
  file f := by rw [h.file]

/-- **A call that fails changes nothing**, but for `open` when it makes a file and finds no room for
it. Every allocated inode has a link or is in use, and link counts are `short`s. -/
theorem failed_call_changes_nothing {r : Int} (hs : Settled sb s) (hanch : Anchored s.held s)
    (hshort : Short s) (hc : c.OnPath) (hp : s.cwd c.caller ≠ none)
    (hrun : (c.perform sb init).run s = some (r, s')) :
    (r = -1 → Unchanged s s') ↔ c.Undone sb s := by
  have hpath : PathCall sb s.held r s s' → r = -1 → Unchanged s s' := fun hcall hr =>
    hcall.keeps.unchanged hs hcall.sound (hcall.undone hr hanch hshort)
  cases c with
  | «open» p path omode =>
    have hcall := sysOpen_call hs hp hrun
    refine Iff.trans (forall_congr' fun hr => ?_) (hcall.same hanch)
    obtain ⟨hheld, hcwd, hfile, hofile⟩ := hcall.failed hr
    refine ⟨Unchanged.disk, fun hdisk => ⟨hdisk, hcwd, hofile, fun i => ?_, fun f => by rw [hfile]⟩⟩
    rw [hcall.settled.sound.refs i, hs.sound.refs i, hheld]
  | link p old new =>
    exact iff_of_true (hpath (sysLink_spec hs.sound (s.held_cwd p) hrun)) trivial
  | unlink p path =>
    exact iff_of_true (hpath (sysUnlink_spec hs.sound (s.held_cwd p) hrun)) trivial
  | mkdir p path | mknod p path major minor =>
    exact iff_of_true (hpath (sysMake_spec hs.sound (s.held_cwd p) hrun)) trivial
  | chdir p path =>
    refine iff_of_true (fun hr => ?_) trivial
    cases sysChdir_call hs hrun with
    | failed hnamed => exact hnamed.keeps.unchanged hs hnamed.sound (hnamed.same hanch)
    | moved => cases hr
  | _ => exact hc.elim

omit [Fintype P] [DecidableEq P] in
/-- On the image without files the root directory has a link, and no other inode is allocated. -/
theorem mkfs_anchored (hs : s.dinode = (State.mkfs (P := P)).dinode) (K : Refs) :
    Anchored K s ∧ Short s := by
  have hroot : ((State.mkfs (P := P)).dinode ROOTINO).nlink = 1 := rfl
  refine ⟨fun n => ?_, fun n => ?_⟩ <;> by_cases hn : n = ROOTINO
  · exact .inr (.inl (by rw [hs, hn, hroot]; decide))
  · exact .inl (by rw [hs]; simp [State.mkfs, hn, Dinode.zero])
  · rw [hs, hn, hroot]
    decide
  · rw [hs]
    simp [State.mkfs, hn, Dinode.zero]

/-- A process that has the root directory open, at all its descriptors. -/
def crowded : Option (State Unit) :=
  State.run .mkfs () (State.mkfs.boot ()) (.open () [47] 0 :: List.replicate 15 (.dup () 0))

/-- Without a descriptor left, `open` gives back the slot and the inode it has taken. -/
theorem crowded_open_changes_nothing : ∃ s ∈ crowded,
    ∃ s', ((Call.open () [47] 0).perform .mkfs ()).run s = some (-1, s') ∧ Unchanged s s' := by
  have hrun : ∃ s ∈ crowded, s.cwd () ≠ none ∧
      ∃ x ∈ ((Call.open () [47] 0).perform .mkfs ()).run s, x.1 = -1 := by decide +kernel
  obtain ⟨s, hs, hcwd, ⟨r, s'⟩, hrun, rfl⟩ := hrun
  have hdinode : crowded.map State.dinode = some (State.mkfs (P := Unit)).dinode := rfl
  rw [hs, Option.map_some, Option.some_inj] at hdinode
  refine ⟨s, hs, s', hrun, (failed_call_changes_nothing (c := .open () [47] 0)
    (run_settled mkfs_consistent hs) (mkfs_anchored hdinode _).1 (mkfs_anchored hdinode s.held).2
    trivial hcwd hrun).mpr (fun h => absurd rfl h.1) rfl⟩

/-- But a new file it has made stays. -/
theorem failed_open_leaves_file : ∃ s ∈ crowded,
    ∃ x ∈ ((Call.open () [120] O_CREATE).perform .mkfs ()).run s,
      x.1 = -1 ∧ (s.dinode 2).type = .free ∧ (x.2.dinode 2).type = .file := by
  decide +kernel

end Xv6.Fs
