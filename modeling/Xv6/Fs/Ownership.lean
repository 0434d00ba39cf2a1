import Xv6.Fs.Settled

/-!
# Blocks and references, over whole runs

From an image that is consistent, every run of system calls keeps the tables settled. So no block is
in two places and the bitmap is right, and every count of references is the number of those who
refer.
-/

namespace Xv6.Fs

open Bytes Partial State

variable {P : Type} [Fintype P] [DecidableEq P] {sb : Superblock} {s s' : State P} {init : P}

/-! ## The run -/

theorem step_settled {c : Call P} (h : Settled sb s) (hstep : s.step sb init c = some s') :
    Settled sb s' := by
  unfold step at hstep
  split at hstep
  · next hcaller =>
    obtain ⟨⟨r, _⟩, hrun, rfl⟩ := Option.map_eq_some_iff.mp hstep
    have hp : s.cwd c.caller ≠ none := Option.isSome_iff_ne_none.mp hcaller
    cases c with
    | «open» p path omode => exact (sysOpen_call h hp hrun).settled
    | link p old new =>
      have hcall := sysLink_spec h.sound (s.held_cwd p) hrun
      exact h.keeps hcall.sound hcall.keeps
    | unlink p path =>
      have hcall := sysUnlink_spec h.sound (s.held_cwd p) hrun
      exact h.keeps hcall.sound hcall.keeps
    | mkdir p path =>
      have hcall := sysMake_spec h.sound (s.held_cwd p) hrun
      exact h.keeps hcall.sound hcall.keeps
    | mknod p path major minor =>
      have hcall := sysMake_spec h.sound (s.held_cwd p) hrun
      exact h.keeps hcall.sound hcall.keeps
    | chdir p path =>
      obtain hnamed | hsettled := sysChdir_call h hrun
      · exact h.keeps hnamed.sound hnamed.keeps
      · exact hsettled
    | write p fd src => exact sysWrite_settled h hrun
    | close p fd => exact sysClose_settled h hp hrun
    | dup p fd => exact sysDup_settled h hp hrun
    | pipe p page => exact sysPipe_settled h hp hrun
    | exec p path reads r' =>
      have hnamed := exec_named h.sound (s.held_cwd p) hrun
      exact h.keeps hnamed.sound hnamed.keeps
    | fork p q => exact fork_settled h hrun
    | exit p => exact exit_settled h hp hrun
  · cases hstep

/-- The blocks on the disk are owned, and every inode has those that its size says. -/
structure Consistent (sb : Superblock) (s : State P) : Prop where
  own : Owned (· < sb.nmeta) (· < sb.size) (addrOf s.dinode s.data) s.bitmap
  sized : Sized s.dinode s.data

theorem boot_settled (h : Consistent sb s) (init : P) : Settled sb (s.boot init) := by
  have hptr : (s.boot init).ptr = fun _ => none := rfl
  have hdesc : (s.boot init).desc = fun _ => none := rfl
  have hpend : (s.boot init).pend = fun _ => none := rfl
  have hcwd : (s.boot init).cwd = Function.update (fun _ => none) init (some 0) := by
    funext p
    simp [boot, Function.update_apply]
  have hinode : ∀ i, ((s.boot init).inode i).valid = false ∧
      (0 < ((s.boot init).inode i).ref → i = 0) := by
    intro i
    simp only [boot]
    split
    · next hi => exact ⟨rfl, fun _ => hi⟩
    · exact ⟨rfl, fun hpos => absurd hpos (lt_irrefl 0)⟩
  have hrefs : ∀ i, ((s.boot init).inode i).ref =
      (tally (s.boot init).cwd + tally (s.boot init).ptr) i := by
    intro i
    rw [Pi.add_apply, hptr, tally_none, hcwd, tally_take rfl]
    by_cases hi : i = 0
    · subst hi
      rw [bump_self, tally_none]
      simp [boot]
    · rw [bump_of_ne hi, tally_none]
      simp [boot, hi]
  refine ⟨⟨⟨h.own, h.sized, fun i _ hv => ?_, fun i j hi hj _ => ?_, hrefs⟩, fun f => ?_,
    fun _ _ => rfl, ?_⟩, fun _ _ _ => rfl⟩
  · rw [(hinode i).1] at hv
    cases hv
  · rw [(hinode i).2 hi, (hinode j).2 hj]
  · rw [hdesc, tally_none]
    rfl
  · rw [hpend]
    refine ⟨fun _ _ _ hf => (by cases hf), fun _ _ => ⟨?_, ?_⟩, fun _ _ he => (by cases he)⟩
    · rintro ⟨_, he, _⟩
      cases he
    · rintro ⟨_, hf⟩
      cases hf

theorem run_settled {cs : List (Call P)} (h : Consistent sb s)
    (hrun : run sb init (s.boot init) cs = some s') : Settled sb s' :=
  Transition.run_invariant (fun _ _ _ => step_settled) hrun (boot_settled h init)

/-! ## A consistent image -/

omit [Fintype P] [DecidableEq P] in
/-- The only block that the image without files holds is that of its root directory. -/
theorem mkfs_addrOf (x : Nat × Slot) :
    addrOf (mkfs (P := P)).dinode (mkfs (P := P)).data x =
      if x = (ROOTINO, .addr 0) then 59 else 0 := by
  obtain ⟨n, slot⟩ := x
  by_cases hn : n = ROOTINO
  · subst hn
    cases slot with
    | addr k =>
      by_cases hk : k = 0
      · subst hk
        simp [addrOf, mkfs, Dinode.slot]
      · simp [addrOf, mkfs, Dinode.slot, hk]
    | entry j =>
      have hne : indirect ≠ 0 := by decide
      simp [addrOf, mkfs, Dinode.slot, hne]
  · simp [addrOf, mkfs, Dinode.zero, hn]

omit [Fintype P] [DecidableEq P] in
theorem mkfs_consistent : Consistent .mkfs (mkfs (P := P)) where
  own := by
    have hmeta : Superblock.mkfs.nmeta = 59 := rfl
    have hsize : Superblock.mkfs.size = 2000 := rfl
    refine ⟨by decide, fun x y hx hxy => ?_, fun x hx => ?_, fun b hb => ?_⟩
    · simp only [mkfs_addrOf] at hx hxy
      split at hx
      · next hx' =>
        rw [if_pos hx'] at hxy
        split at hxy
        · next hy' => exact hx'.trans hy'.symm
        · cases hxy
      · exact absurd rfl hx
    · simp only [mkfs_addrOf] at hx ⊢
      split at hx
      · next hx' =>
        rw [if_pos hx']
        decide
      · exact absurd rfl hx
    · have hbit : (mkfs (P := P)).bitmap b = true ↔ b < 60 := decide_eq_true_iff
      rw [hbit, hmeta]
      simp only [mkfs_addrOf]
      constructor
      · intro hlt
        by_cases h59 : b = 59
        · exact .inr ⟨(ROOTINO, .addr 0), by rw [if_pos rfl, h59], by omega⟩
        · exact .inl (by omega)
      · rintro (hlt | ⟨x, hx, h0⟩)
        · omega
        · split at hx <;> omega
  sized n hn := by
    by_cases hroot : n = ROOTINO
    · subst hroot
      have hsize : ((mkfs (P := P)).dinode ROOTINO).size = BSIZE := rfl
      rw [hsize]
      refine ⟨by decide, fun p hp => ?_⟩
      have hblock : p / BSIZE = 0 := Nat.div_eq_of_lt hp
      have hslot : Slot.block 0 = .addr 0 := rfl
      rw [hblock, hslot, mkfs_addrOf, if_pos rfl]
      decide
    · simp [mkfs, hroot, Dinode.zero] at hn

/-! ## Blocks -/

/-- **Every block has one owner**, in every state that system calls reach from a consistent image.
No two slots of allocated inodes hold the same block; a bit of the bitmap is set exactly for the
metadata and the blocks that slots hold; all slots below the size of an inode are filled, so `readi`
changes nothing; and the copy of an inode in the cache is the inode on the disk. -/
theorem blocks_have_one_owner {cs : List (Call P)} (h : Consistent sb s)
    (hrun : run sb init (s.boot init) cs = some s') :
    (∀ x y, addrOf s'.dinode s'.data x ≠ 0 →
      addrOf s'.dinode s'.data x = addrOf s'.dinode s'.data y → x = y) ∧
    (∀ b < sb.size, s'.bitmap b = true ↔
      b < sb.nmeta ∨ ∃ x, addrOf s'.dinode s'.data x = b ∧ b ≠ 0) ∧
    (∀ n, (s'.dinode n).type ≠ .free → ∀ bn < ((s'.dinode n).size + BSIZE - 1) / BSIZE,
      addrOf s'.dinode s'.data (n, .block bn) ≠ 0) ∧
    (∀ i, 0 < (s'.inode i).ref → (s'.inode i).valid = true →
      (s'.inode i).din = s'.dinode (s'.inode i).inum ∧
        ∀ off n r t, n < 2 ^ 32 → (readi sb i off n).run s' = some (r, t) → t = s') := by
  have hsound := (run_settled h hrun).sound
  refine ⟨hsound.own.inj, hsound.own.used_iff, fun n hn bn hbn => ?_, fun i hi hv =>
    ⟨(hsound.agree i hi hv).1, fun off n r t hlt hread => ?_⟩⟩
  · have hfilled := (hsound.sized n hn).2 (bn * BSIZE)
    simp only [BSIZE] at hbn hfilled
    rw [Nat.mul_div_cancel bn (by decide)] at hfilled
    exact hfilled (by omega)
  · have hK : 0 < s'.held i := hsound.refs i ▸ hi
    exact (readi_same hsound hK hv hlt hread).1

/-- A file of two blocks is made, written and unlinked. -/
theorem unlinked_file_has_one_owner :
    Consistent .mkfs (mkfs (P := Fin 2)) ∧
      ∃ s' ∈ run .mkfs 0 ((mkfs (P := Fin 2)).boot 0)
        [.open 0 [120] (O_CREATE ||| O_RDWR), .write 0 0 (List.replicate 600 1), .mkdir 0 [121],
          .unlink 0 [120], .fork 0 1, .exit 1],
        ∀ x y, addrOf s'.dinode s'.data x ≠ 0 →
          addrOf s'.dinode s'.data x = addrOf s'.dinode s'.data y → x = y := by
  refine ⟨mkfs_consistent, (Option.isSome_iff_exists.mp ?_).imp fun s' hs' =>
    ⟨hs', (blocks_have_one_owner mkfs_consistent hs').1⟩⟩
  decide +kernel

/-! ## References -/

/-- **Reference counts are exact** between system calls: a slot of the file table counts the
descriptors that refer to it, an entry of the inode table counts the slots in use and the current
directories that refer to it, and a pipe is there exactly as long as a descriptor refers to one of
its ends. -/
theorem references_are_exact {cs : List (Call P)} (h : Consistent sb s)
    (hrun : run sb init (s.boot init) cs = some s') :
    (∀ f, (s'.file f).ref =
      (Finset.univ.filter fun x : P × Fin NOFILE => s'.ofile x.1 x.2 = some f).card) ∧
    (∀ i, (s'.inode i).ref =
      (Finset.univ.filter fun f => 0 < (s'.file f).ref ∧ (s'.file f).type = .inode i).card +
        (Finset.univ.filter fun p => s'.cwd p = some i).card) ∧
    (∀ pi, s'.pipe pi = none ↔
      ∀ p fd f, s'.ofile p fd = some f → (s'.file f).type ≠ .pipe pi) := by
  have hsettled := run_settled h hrun
  have hlive := hsettled.live
  have hopen : ∀ f, (s'.file f).type ≠ .none → 0 < (s'.file f).ref := fun f htype =>
    Nat.pos_of_ne_zero fun h0 => htype (hlive.closed f h0)
  refine ⟨hlive.files, fun i => ?_, fun pi => ?_⟩
  · have hfilter : (Finset.univ.filter fun f => 0 < (s'.file f).ref ∧ (s'.file f).type = .inode i) =
        Finset.univ.filter fun f => s'.ptr f = some i := by
      refine Finset.filter_congr fun f _ => ?_
      rw [ptr_eq_some]
      exact ⟨And.right, fun htype => ⟨hopen f (by rw [htype]; exact FileType.noConfusion), htype⟩⟩
    rw [hfilter, hlive.sound.refs i, Nat.add_comm]
    rfl
  · constructor
    · intro hnone p fd f _ htype
      obtain ⟨e, he, -⟩ := (hlive.piped.opened pi _).mpr ⟨f, s'.pend_of_pipe htype⟩
      rw [hnone] at he
      cases he
    · intro hall
      cases hpi : s'.pipe pi with
      | none => rfl
      | some e =>
        obtain ⟨w, hw⟩ := hlive.piped.alive pi e hpi
        obtain ⟨f, hf⟩ := (hlive.piped.opened pi w).mp ⟨e, hpi, hw⟩
        have htype := type_of_pend hf
        have hdesc : 0 < tally s'.desc f := by
          rw [← hlive.files f]
          exact hopen f (by rw [htype]; exact FileType.noConfusion)
        obtain ⟨⟨p, fd⟩, hfd⟩ := exists_of_tally_pos hdesc
        exact absurd htype (hall p fd f hfd)

/-- A pipe is made and shared, and one process has closed its end. -/
theorem shared_pipe_references :
    Consistent .mkfs (mkfs (P := Fin 2)) ∧
      ∃ s' ∈ run .mkfs 0 ((mkfs (P := Fin 2)).boot 0)
        [.pipe 0 (some 7), .fork 0 1, .close 0 1, .chdir 1 [47], .exec 1 [47, 120] [] (-1)],
        ∀ f, (s'.file f).ref =
          (Finset.univ.filter fun x : Fin 2 × Fin NOFILE => s'.ofile x.1 x.2 = some f).card := by
  refine ⟨mkfs_consistent, (Option.isSome_iff_exists.mp ?_).imp fun s' hs' =>
    ⟨hs', (references_are_exact mkfs_consistent hs').1⟩⟩
  decide +kernel

end Xv6.Fs
