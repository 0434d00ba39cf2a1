import Xv6.Mkfs.Build

/-!
# The image

The loops of mkfs over the files of the command line, and the image it leaves: `mkfs_inv` says what
is in it, and `mkfs_run` that there is one when everything fits.
-/

namespace Xv6.Mkfs

open Bytes Fs Partial List
open Function (update update_eq_self_iff update_of_ne update_self)

variable {s s' : Image} {n : Nat} {text : Nat → List Byte} {p q : List Byte} {files : List Input}

/-! ## Copying a file -/

theorem copyLoop_grown {fuel : Nat} (h : Good s text) (hn : n < NINODES) (hpos : 0 < n)
    (hlt : n < s.freeinode) (hfuel : p.length ≤ fuel)
    (hrun : (copyLoop n fuel p).run s = some ((), s')) : Grown n p text s s' := by
  induction fuel generalizing s text p with
  | zero =>
    obtain rfl := length_eq_zero_iff.mp (Nat.le_zero.mp hfuel)
    cases hrun
    exact .nil h n
  | succ fuel ih =>
    rw [copyLoop] at hrun
    split at hrun
    · next hp =>
      subst hp
      cases hrun
      exact .nil h n
    · next hp =>
      rw [bind_iff] at hrun
      obtain ⟨_, t, hround, hrest⟩ := hrun
      have hgrown := iappend_grown h hn hpos hlt hround
      have hdrop : (p.drop BSIZE).length ≤ fuel := by
        have hlen := length_pos_iff.mpr hp
        rw [length_drop]
        simp only [BSIZE]
        omega
      rw [← take_append_drop BSIZE p]
      exact hgrown.append (ih hgrown.good (hgrown.freeinode.symm ▸ hlt) hdrop hrest)

theorem copyLoop_run (fuel : Nat) (h : Good s text) (hn : n < NINODES) (hpos : 0 < n)
    (hlt : n < s.freeinode) (hshort : (text n ++ p).length ≤ MAXFILE * BSIZE)
    (hroom : s.freeblock + blocks (text n ++ p).length ≤ FSSIZE + blocks (text n).length) :
    ∃ s', (copyLoop n fuel p).run s = some ((), s') := by
  induction fuel generalizing s text p with
  | zero => exact ⟨s, rfl⟩
  | succ fuel ih =>
    rw [copyLoop]
    split
    · exact ⟨s, rfl⟩
    · have hsplit : text n ++ p = (text n ++ p.take BSIZE) ++ p.drop BSIZE := by
        rw [append_assoc, take_append_drop]
      have hle : (text n ++ p.take BSIZE).length ≤ (text n ++ p).length := by
        rw [length_append, length_append]
        exact Nat.add_le_add_left (length_take_le' ..) _
      have hmono := blocks_mono hle
      obtain ⟨t, hround⟩ := iappend_run (p := p.take BSIZE) h hn hpos hlt (hle.trans hshort)
        (by omega)
      have hgrown := iappend_grown h hn hpos hlt hround
      have hcount := hgrown.count
      have htext : update text n (text n ++ p.take BSIZE) n ++ p.drop BSIZE =
          text n ++ p := by
        rw [update_self, ← hsplit]
      obtain ⟨s', hrest⟩ := ih (p := p.drop BSIZE) hgrown.good (hgrown.freeinode.symm ▸ hlt)
        (by rw [htext]; exact hshort) (by rw [htext, update_self]; omega)
      exact ⟨s', bind_iff.mpr ⟨(), t, hround, hrest⟩⟩

/-! ## The files -/

/-- The contents with one more file, which has inode `k`. -/
def withFile (text : Nat → List Byte) (k : Nat) (f : Input) : Nat → List Byte :=
  update (update text ROOTINO (text ROOTINO ++ direntBytes k f.name)) k f.contents

theorem addFile_inv {f : Input} (hrun : (addFile ROOTINO f).run s = some ((), s'))
    (hs : s.sectors = FSSIZE) (hn : s.freeinode < NINODES) : slash ∉ f.arg ∧
      ∃ t, (iappend ROOTINO (direntBytes s.freeinode f.name)).run (s.alloc 2) = some ((), t) ∧
        (copyLoop s.freeinode f.contents.length f.contents).run t = some ((), s') := by
  unfold addFile at hrun
  split at hrun
  · cases hrun
  · next hslash =>
    rw [bind_iff] at hrun
    obtain ⟨inum, t, halloc, hrun⟩ := hrun
    rw [ialloc_run hs hn] at halloc
    cases halloc
    rw [bind_iff] at hrun
    obtain ⟨_, t, hroot, hcopy⟩ := hrun
    exact ⟨fun hmem => hslash (contains_iff_mem.mpr hmem), t, hroot, hcopy⟩

theorem Good.first_file (h : Good s text) (hn : s.freeinode < NINODES) (hlt : 1 < s.freeinode) :
    Good (s.alloc 2) text :=
  h.alloc hn (Nat.zero_lt_of_lt hlt) (if_neg (Nat.ne_of_gt hlt)).symm

/-- How the counters move with one more file. -/
structure Added (k : Nat) (f : Input) (text : Nat → List Byte) (s s' : Image) : Prop where
  good : Good s' (withFile text k f)
  freeinode : s'.freeinode = s.freeinode + 1
  count : s'.freeblock + blocks (text ROOTINO).length =
    s.freeblock + blocks ((text ROOTINO).length + 16) + blocks f.contents.length

theorem blocks_nil : blocks ([] : List Byte).length = 0 := by decide

theorem addFile_added {f : Input} (h : Good s text) (hn : s.freeinode < NINODES)
    (hlt : 1 < s.freeinode) (hrun : (addFile ROOTINO f).run s = some ((), s')) :
    Added s.freeinode f text s s' := by
  obtain ⟨-, t, hroot, hcopy⟩ := addFile_inv hrun h.blank.sectors hn
  have hk : s.freeinode < (s.alloc 2).freeinode := Nat.lt_succ_self _
  have hgrown : Grown ROOTINO _ text _ t := iappend_grown (h.first_file hn hlt) (by decide)
    (by decide) (hlt.trans hk) hroot
  have hcopied := copyLoop_grown hgrown.good hn (Nat.zero_lt_of_lt hlt)
    (hgrown.freeinode.symm ▸ hk) le_rfl hcopy
  have hnil : update text ROOTINO (text ROOTINO ++ direntBytes s.freeinode f.name)
      s.freeinode = [] := by
    rw [update_of_ne (Nat.ne_of_gt hlt)]
    exact h.text_free hn (.inr le_rfl)
  have hcount₁ := hgrown.count
  have hcount₂ := hcopied.count
  have hgood := hcopied.good
  rw [hnil, nil_append] at hcount₂ hgood
  rw [blocks_nil] at hcount₂
  rw [length_append, length_direntBytes] at hcount₁
  have hfirst : t.freeinode = s.freeinode + 1 := hgrown.freeinode
  have hblock : (s.alloc 2).freeblock = s.freeblock := rfl
  exact ⟨hgood, hcopied.freeinode.trans hfirst, by omega⟩

theorem addFile_run {f : Input} (h : Good s text) (hn : s.freeinode < NINODES)
    (hlt : 1 < s.freeinode) (hslash : slash ∉ f.arg)
    (hroot : (text ROOTINO).length + 16 ≤ MAXFILE * BSIZE)
    (hshort : f.contents.length ≤ MAXFILE * BSIZE)
    (hroom : s.freeblock + blocks ((text ROOTINO).length + 16) + blocks f.contents.length ≤
      FSSIZE + blocks (text ROOTINO).length) :
    ∃ s', (addFile ROOTINO f).run s = some ((), s') := by
  have hk : s.freeinode < (s.alloc 2).freeinode := Nat.lt_succ_self _
  have hblock : (s.alloc 2).freeblock = s.freeblock := rfl
  have hgood := h.first_file hn hlt
  have hlen : (text ROOTINO ++ direntBytes s.freeinode f.name).length =
      (text ROOTINO).length + 16 := by
    rw [length_append, length_direntBytes]
  have hroot' : ROOTINO < (s.alloc 2).freeinode := hlt.trans hk
  obtain ⟨t, hentry⟩ := iappend_run (p := direntBytes s.freeinode f.name) hgood (by decide)
    (by decide) hroot' (hlen ▸ hroot) (by rw [hlen]; omega)
  have hgrown := iappend_grown hgood (by decide) (by decide) hroot' hentry
  have hcount := hgrown.count
  rw [hlen] at hcount
  have hnil : update text ROOTINO (text ROOTINO ++ direntBytes s.freeinode f.name)
      s.freeinode = [] := by
    rw [update_of_ne (Nat.ne_of_gt hlt)]
    exact h.text_free hn (.inr le_rfl)
  obtain ⟨s', hcopy⟩ := copyLoop_run (p := f.contents) f.contents.length hgrown.good hn
    (Nat.zero_lt_of_lt hlt) (hgrown.freeinode.symm ▸ hk) (by rw [hnil]; exact hshort)
    (by rw [hnil, blocks_nil]; simp only [nil_append]; omega)
  refine ⟨s', ?_⟩
  unfold addFile
  rw [if_neg fun hcontains => hslash (contains_iff_mem.mp hcontains)]
  simp only [bind_iff]
  exact ⟨_, _, ialloc_run h.blank.sectors hn 2, (), t, hentry, hcopy⟩

/-- The contents with all the files, which have the inodes from `k` on. -/
def withFiles : (Nat → List Byte) → Nat → List Input → Nat → List Byte
  | text, _, [] => text
  | text, k, f :: files => withFiles (withFile text k f) (k + 1) files

theorem withFile_root (hk : 1 < n) (f : Input) :
    withFile text n f ROOTINO = text ROOTINO ++ direntBytes n f.name := by
  unfold withFile
  rw [update_of_ne (Nat.ne_of_lt hk), update_self]

theorem addFiles_good (h : Good s text) (hn : s.freeinode + files.length ≤ NINODES)
    (hlt : 1 < s.freeinode) (hrun : (addFiles ROOTINO files).run s = some ((), s')) :
    Good s' (withFiles text s.freeinode files) ∧ s'.freeinode = s.freeinode + files.length := by
  induction files generalizing s text with
  | nil =>
    cases hrun
    exact ⟨h, rfl⟩
  | cons f files ih =>
    rw [length_cons] at hn
    rw [addFiles, bind_iff] at hrun
    obtain ⟨_, t, hfile, hrest⟩ := hrun
    have hadded := addFile_added h (by omega) hlt hfile
    have hfirst := hadded.freeinode
    obtain ⟨hgood, hend⟩ := ih hadded.good (by omega) (by omega) hrest
    rw [hfirst] at hgood
    refine ⟨hgood, ?_⟩
    rw [hend, hfirst, length_cons]
    omega

/-- The blocks the contents of the files take. -/
def blocksOf (files : List Input) : Nat := (files.map fun f => blocks f.contents.length).sum

theorem addFiles_run (h : Good s text) (hn : s.freeinode + files.length ≤ NINODES)
    (hlt : 1 < s.freeinode) (hslash : ∀ f ∈ files, slash ∉ f.arg)
    (hshort : ∀ f ∈ files, f.contents.length ≤ MAXFILE * BSIZE)
    (hroot : (text ROOTINO).length + 16 * files.length ≤ MAXFILE * BSIZE)
    (hroom : s.freeblock + blocks ((text ROOTINO).length + 16 * files.length) + blocksOf files ≤
      FSSIZE + blocks (text ROOTINO).length) :
    ∃ s', (addFiles ROOTINO files).run s = some ((), s') := by
  induction files generalizing s text with
  | nil => exact ⟨s, rfl⟩
  | cons f files ih =>
    simp only [length_cons, forall_mem_cons, blocksOf, map_cons,
      sum_cons] at hn hslash hshort hroot hroom
    have hmono : blocks ((text ROOTINO).length + 16) ≤
        blocks ((text ROOTINO).length + 16 * (files.length + 1)) := blocks_mono (by omega)
    obtain ⟨t, hfile⟩ := addFile_run h (by omega) hlt hslash.1 (by omega) hshort.1 (by omega)
    have hadded := addFile_added h (by omega) hlt hfile
    have hfirst := hadded.freeinode
    have hcount := hadded.count
    have hlen : (withFile text s.freeinode f ROOTINO).length = (text ROOTINO).length + 16 := by
      rw [withFile_root hlt, length_append, length_direntBytes]
    have hwhole : (text ROOTINO).length + 16 + 16 * files.length =
        (text ROOTINO).length + 16 * (files.length + 1) := by omega
    obtain ⟨s', hrest⟩ := ih hadded.good (by omega) (by omega) hslash.2 hshort.2
      (by rw [hlen]; omega) (by rw [hlen, hwhole, blocksOf]; omega)
    exact ⟨s', bind_iff.mpr ⟨(), t, hfile, hrest⟩⟩

/-! ## The beginning -/

theorem zeroLoop_run (k m : Nat) (s : Image) (hdisk : s.disk = fun _ _ => 0) (hk : s.sectors = k) :
    (zeroLoop (List.range' k m)).run s = some ((), { s with sectors := k + m }) := by
  induction m generalizing k s with
  | zero =>
    subst hk
    rfl
  | succ m ih =>
    rw [range'_succ, zeroLoop, bind_iff]
    have hwrite : (wsect k fun _ => 0).run s = some ((), { s with sectors := k + 1 }) := by
      rw [wsect, modify_iff, hk, hdisk, update_eq_self_iff.mpr rfl,
        Nat.max_eq_right (Nat.le_succ k)]
    refine ⟨(), _, hwrite, ?_⟩
    rw [ih (k + 1) { s with sectors := k + 1 } hdisk rfl, Nat.add_right_comm, Nat.add_assoc]

/-- The image with no inodes. -/
def start : Image := ⟨update (fun _ _ => 0) 1 superblock, FSSIZE, 1, nmeta⟩

theorem inodeAt_start (n : Nat) : inodeAt sb start.disk n = DiskInode.zero := by
  have hne : sb.iblock n ≠ 1 := by
    simp only [Superblock.iblock, sb, nlog, Log.LOGSIZE, Log.MAXOPBLOCKS]
    omega
  simp only [inodeAt, start, update_of_ne hne]
  rfl

theorem start_good : Good start fun _ => [] := by
  have hfree (n : Nat) : (start.dinode n).type = .free := by
    unfold Image.dinode
    rw [inodeAt_start, apply_ite Dinode.type]
    exact ite_self _
  have haddr (x : Nat × Slot) : addrOf start.dinode start.data x = 0 := if_pos (hfree x.1)
  refine ⟨⟨rfl, le_rfl, fun b hb => ?_⟩, by decide, ?_, fun n _ _ => inodeAt_start n,
    fun n _ hpos hlt => ?_, ⟨by decide, fun x y hx => absurd (haddr x) hx,
    fun x hx => absurd (haddr x) hx, fun b hb => ?_⟩, fun n _ => .zero (inodeAt_start n)⟩
  · have hb : 59 ≤ b := nmeta_eq ▸ hb
    simp only [start, update_of_ne (by omega : b ≠ 1)]
  · simp only [start, update_self]
  · have hlt : n < 1 := hlt
    omega
  · rw [decide_eq_true_iff, show start.freeblock = nmeta from rfl, sb_nmeta]
    constructor
    · exact .inl
    · rintro (hlt | ⟨x, hx, h0⟩)
      · exact hlt
      · exact absurd (hx.symm.trans (haddr x)) h0

/-! ## The end -/

/-- The bitmap block. -/
def bits (used : Nat) : Block := (List.range used).foldl setBit fun _ => 0

/-- The root directory gets its final size, and the bitmap is written. -/
def Image.finish (s : Image) : Image :=
  (s.setInode ROOTINO ((inodeAt sb s.disk ROOTINO).resize
    (((inodeAt sb s.disk ROOTINO).size / BSIZE + 1) * BSIZE))).write sb.bmapstart (bits s.freeblock)

/-- The last lines of `main`. -/
def last : M Unit := do
  let din ← rinode ROOTINO
  winode ROOTINO { din with size := (din.size / BSIZE + 1) * BSIZE }
  let s ← get
  balloc s.freeblock

theorem last_run (h : Good s text) : last.run s = some ((), s.finish) := by
  have hused : s.freeblock < BSIZE * 8 := Nat.lt_of_le_of_lt h.below (by decide)
  unfold last
  rw [bind_of_run (rinode_run h.blank.sectors (by decide)),
    bind_of_run (winode_run h.blank.sectors (by decide) _),
    get_bind, balloc]
  refine (congrArg (fun m : M Unit => m.run _) (if_pos hused)).trans ?_
  exact wsect_run (h.blank.sectors ▸ (by decide : sb.bmapstart < FSSIZE)) _

/-- The entries of the root directory before the first file. -/
def dots : List Byte := direntBytes ROOTINO dot ++ direntBytes ROOTINO dotdot

/-- The contents of all inodes. -/
def contents (files : List Input) : Nat → List Byte :=
  withFiles (update (fun _ => []) ROOTINO dots) 2 files

theorem main_run (files : List Input) : (main files).run ⟨fun _ _ => 0, 0, 1, nmeta⟩ =
    (do
      iappend ROOTINO (direntBytes ROOTINO dot)
      iappend ROOTINO (direntBytes ROOTINO dotdot)
      addFiles ROOTINO files
      last : M Unit).run (start.alloc 1) := by
  have hzero : (zeroLoop (List.range FSSIZE)).run ⟨fun _ _ => 0, 0, 1, nmeta⟩ =
      some ((), ⟨fun _ _ => 0, FSSIZE, 1, nmeta⟩) := by
    rw [range_eq_range', zeroLoop_run 0 FSSIZE _ rfl rfl, Nat.zero_add]
  have hsuper : (wsect 1 superblock).run ⟨fun _ _ => 0, FSSIZE, 1, nmeta⟩ = some ((), start) :=
    rfl
  have halloc : (ialloc 1).run start = some (ROOTINO, start.alloc 1) :=
    ialloc_run rfl (by decide) 1
  rw [main, bind_of_run hzero, bind_of_run hsuper, bind_of_run halloc, if_pos rfl]
  rfl

theorem dots_grown {s₁ s₂ : Image}
    (h₁ : (iappend ROOTINO (direntBytes ROOTINO dot)).run (start.alloc 1) = some ((), s₁))
    (h₂ : (iappend ROOTINO (direntBytes ROOTINO dotdot)).run s₁ = some ((), s₂)) :
    Grown ROOTINO dots (fun _ => []) (start.alloc 1) s₂ := by
  have hgood : Good (start.alloc 1) fun _ => [] := start_good.alloc (by decide) (by decide) rfl
  have hdot := iappend_grown hgood (by decide) (by decide) (by decide) h₁
  refine hdot.append (iappend_grown hdot.good (by decide) (by decide) ?_ h₂)
  rw [hdot.freeinode]
  decide

/-- What mkfs leaves. -/
theorem mkfs_inv {img : Image} (hlen : files.length ≤ 198) (h : mkfs files = some img) :
    ∃ s, Good s (contents files) ∧ s.freeinode = files.length + 2 ∧ img = s.finish := by
  obtain ⟨⟨u, _⟩, hrun, rfl⟩ := Option.map_eq_some_iff.mp h
  rw [main_run] at hrun
  simp only [bind_iff] at hrun
  obtain ⟨_, s₁, h₁, _, s₂, h₂, _, s, hfiles, hlast⟩ := hrun
  have hdots := dots_grown h₁ h₂
  have hfirst : s₂.freeinode = 2 := hdots.freeinode
  have hlen' : s₂.freeinode + files.length ≤ NINODES := by
    rw [hfirst, NINODES]
    omega
  obtain ⟨hgood, hend⟩ := addFiles_good hdots.good hlen' (by omega) hfiles
  rw [hfirst] at hgood hend
  rw [last_run hgood] at hlast
  cases hlast
  exact ⟨s, hgood, by omega, rfl⟩

/-- When everything fits, mkfs exits with status 0. -/
theorem mkfs_run (hlen : files.length ≤ 198) (hslash : ∀ f ∈ files, slash ∉ f.arg)
    (hshort : ∀ f ∈ files, f.contents.length ≤ MAXFILE * BSIZE)
    (hroom : nmeta + blocks (16 * (files.length + 2)) + blocksOf files ≤ FSSIZE) :
    ∃ img, mkfs files = some img := by
  have hgood : Good (start.alloc 1) fun _ => [] := start_good.alloc (by decide) (by decide) rfl
  have hfree : (start.alloc 1).freeblock = nmeta := rfl
  have hsizes : blocks 0 = 0 ∧ blocks 16 = 1 ∧ blocks 32 = 1 := by decide
  have hfits : nmeta + 1 ≤ FSSIZE := by decide
  have hlen₁ : (([] : List Byte) ++ direntBytes ROOTINO dot).length = 16 :=
    length_direntBytes ..
  have hlen₂ : (direntBytes ROOTINO dot ++ direntBytes ROOTINO dotdot).length = 32 := by
    rw [length_append, length_direntBytes, length_direntBytes]
  obtain ⟨s₁, h₁⟩ := iappend_run (n := ROOTINO) (p := direntBytes ROOTINO dot) hgood (by decide)
    (by decide) (by decide) (by rw [hlen₁]; decide)
    (by rw [hlen₁, length_nil, hfree]; omega)
  have hdot := iappend_grown hgood (by decide) (by decide) (by decide) h₁
  have hcount₁ := hdot.count
  rw [hlen₁, length_nil, hfree] at hcount₁
  have htext : update (fun _ => []) ROOTINO ([] ++ direntBytes ROOTINO dot) ROOTINO =
      direntBytes ROOTINO dot := update_self ..
  have hfirst₁ : ROOTINO < s₁.freeinode := by
    rw [hdot.freeinode]
    decide
  obtain ⟨s₂, h₂⟩ := iappend_run (n := ROOTINO) (p := direntBytes ROOTINO dotdot) hdot.good
    (by decide) (by decide) hfirst₁ (by rw [htext, hlen₂]; decide)
    (by rw [htext, hlen₂, length_direntBytes]; omega)
  have hdots := dots_grown h₁ h₂
  have hcount₂ := hdots.count
  have hroot : update (fun _ => []) ROOTINO ([] ++ dots) ROOTINO = dots :=
    update_self ..
  have hdotslen : dots.length = 32 := hlen₂
  rw [nil_append, hdotslen, length_nil, hfree] at hcount₂
  have hfirst₂ : s₂.freeinode = 2 := hdots.freeinode
  have htotal : 32 + 16 * files.length = 16 * (files.length + 2) := by omega
  have hinodes : s₂.freeinode + files.length ≤ NINODES := by
    rw [hfirst₂, NINODES]
    omega
  obtain ⟨s, hfiles⟩ := addFiles_run hdots.good hinodes (by omega) hslash hshort
    (by rw [hroot, hdotslen]; simp only [MAXFILE, BSIZE]; omega)
    (by rw [hroot, hdotslen, htotal]; omega)
  obtain ⟨hend, -⟩ := addFiles_good hdots.good hinodes (by omega) hfiles
  refine ⟨s.finish, Option.map_eq_some_iff.mpr ⟨((), s.finish), ?_, rfl⟩⟩
  rw [main_run]
  simp only [bind_iff]
  exact ⟨(), s₁, h₁, (), s₂, h₂, (), s, hfiles, last_run hend⟩

end Xv6.Mkfs
