import Xv6.Mkfs.Consistency

/-!
# The kernel reads back what mkfs wrote

Every file of the command line is found under its name, and read as it was. The kernel looks through
the root directory from the beginning and stops at the name, so it does not come to the end, where a
block may be missing.
-/

namespace Xv6.Mkfs

open Bytes Fs Partial List

variable {s : Image} {n k : Nat} {text : Nat → List Byte} {files : List Input} {P : Type}

/-! ## The contents -/

theorem withFiles_before (hn : 1 < n) {m : Nat} (hroot : m ≠ ROOTINO) (hm : m < n)
    (files : List Input) : withFiles text n files m = text m := by
  induction files generalizing text n with
  | nil => rfl
  | cons f files ih =>
    rw [withFiles, ih (Nat.lt_succ_of_lt hn) (Nat.lt_succ_of_lt hm), withFile,
      Function.update_of_ne (Nat.ne_of_lt hm), Function.update_of_ne hroot]

theorem withFiles_file (hn : 1 < n) (hk : k < files.length) :
    withFiles text n files (n + k) = files[k].contents := by
  induction files generalizing text n k with
  | nil => exact absurd hk (Nat.not_lt_zero k)
  | cons f files ih =>
    cases k with
    | zero =>
      have hlt : 1 < n + 1 := Nat.lt_succ_of_lt hn
      show withFiles (withFile text n f) (n + 1) files n = f.contents
      rw [withFiles_before hlt (Nat.ne_of_gt hn) (Nat.lt_succ_self n), withFile,
        Function.update_self]
    | succ k =>
      have hindex : n + (k + 1) = n + 1 + k := by omega
      rw [withFiles, hindex, ih (Nat.lt_succ_of_lt hn) (Nat.lt_of_succ_lt_succ hk)]
      rfl

theorem contents_file (hk : k < files.length) : contents files (2 + k) = files[k].contents :=
  withFiles_file (by decide) hk

/-! ## The blocks -/

theorem Good.stores (h : Good s text) (hn : n < NINODES) (hpos : 0 < n) (hlt : n < s.freeinode) :
    ((mount s.finish.disk : State P).dinode n).Stores (mount s.finish.disk : State P).data
      (text n) := by
  have hholds := h.holds n hn
  have htype : (s.dinode n).type ≠ .free := (h.allocated_iff hn).mpr ⟨hpos, hlt⟩
  have hslot (y : Slot) : ((mount s.finish.disk : State P).dinode n).slot
      (mount s.finish.disk : State P).data y = (inodeAt sb s.disk n).toDinode.slot s.data y := by
    have heq := congrFun (mount_addrOf (P := P) h) (n, y)
    rw [addrOf, addrOf, (mount_fields h n).1, if_neg htype, if_neg htype, dinode_of_lt hn] at heq
    exact heq
  have hfilled : ∀ j < (text n).length,
      (inodeAt sb s.disk n).toDinode.slot s.data (.block (j / BSIZE)) ≠ 0 := by
    intro j hj
    have hshort := hholds.short
    refine (hholds.exact.block (j / BSIZE) ?_).mpr ?_
    · simp only [MAXFILE, BSIZE] at *
      omega
    · exact lt_of_le_of_lt (Nat.div_mul_le_self j BSIZE) hj
  refine ⟨hholds.short, fun j hj => ?_, fun j hj => ?_⟩
  · rw [hslot]
    exact hfilled j hj
  · have haddr : addrOf s.dinode s.data (n, .block (j / BSIZE)) =
        (inodeAt sb s.disk n).toDinode.slot s.data (.block (j / BSIZE)) := by
      rw [addrOf, if_neg htype, dinode_of_lt hn]
    have hrange := (h.own.range (n, .block (j / BSIZE)) (haddr ▸ hfilled j hj)).1
    rw [haddr, sb_nmeta] at hrange
    have hbyte := hholds.bytes j hj
    rw [place, Image.data_of_ge (Nat.not_lt.mp hrange)] at hbyte
    rw [hslot, ← hbyte]
    exact congrFun (disk_finish (Nat.not_lt.mp hrange)) _

/-! ## The lookup -/

theorem addFiles_slash {s s' : Image} (h : (addFiles ROOTINO files).run s = some ((), s')) :
    ∀ f ∈ files, slash ∉ f.arg := by
  induction files generalizing s with
  | nil => exact fun f hf => absurd hf not_mem_nil
  | cons f files ih =>
    rw [addFiles, bind_iff] at h
    obtain ⟨_, t, hfile, hrest⟩ := h
    have hslash : slash ∉ f.arg := by
      intro hmem
      rw [addFile, if_pos (contains_iff_mem.mpr hmem)] at hfile
      cases hfile
    exact forall_mem_cons.mpr ⟨hslash, ih hrest⟩

/-- The assertion of `main` about the arguments. -/
theorem mkfs_slash {img : Image} (h : mkfs files = some img) : ∀ f ∈ files, slash ∉ f.arg := by
  obtain ⟨⟨u, _⟩, hrun, rfl⟩ := Option.map_eq_some_iff.mp h
  rw [main_run] at hrun
  simp only [bind_iff] at hrun
  obtain ⟨_, _, -, _, _, -, _, _, hfiles, -⟩ := hrun
  exact addFiles_slash hfiles

theorem mem_name {f : Input} {x : Byte} (h : x ∈ f.name) : x ∈ f.arg := by
  unfold Input.name at h
  split at h
  · exact mem_of_mem_tail h
  · exact h

/-- What the names of the files must be: short forms that are names, none of them twice. -/
structure Names (files : List Input) : Prop where
  no_null : ∀ f ∈ files, 0 ∉ f.arg
  proper : ∀ f ∈ files, f.name.take DIRSIZ ∉ [[], dot, dotdot]
  distinct : (files.map fun f => f.name.take DIRSIZ).Nodup

theorem rootEntries_file (hk : k < files.length) :
    (rootEntries files).get ⟨k + 2, by rw [rootEntries_length]; omega⟩ = (2 + k, files[k].name) := by
  simp [rootEntries]

theorem rootEntries_inum (hlen : files.length ≤ 198) : ∀ e ∈ rootEntries files, e.1 < 2 ^ 16 := by
  intro e he
  simp only [rootEntries, mem_cons, mem_map] at he
  rcases he with rfl | rfl | ⟨x, hx, rfl⟩
  · decide
  · decide
  · have := (mem_zipIdx hx).2.1
    omega

namespace Names

variable (h : Names files)

include h

theorem cname_name {f : Input} (hf : f ∈ files) : cname f.name = f.name.take DIRSIZ :=
  cname_of_no_null fun hnull => h.no_null f hf (mem_name hnull)

theorem cname_take {f : Input} (hf : f ∈ files) :
    cname (f.name.take DIRSIZ) = f.name.take DIRSIZ := by
  have hnull : 0 ∉ f.name.take DIRSIZ := fun hmem =>
    h.no_null f hf (mem_name (mem_of_mem_take hmem))
  rw [cname_of_no_null hnull, take_take, Nat.min_self]

theorem first {j : Nat} (hk : k < files.length) (hj : j < (rootEntries files).length)
    (hlt : j < k + 2) :
    cname (files[k].name.take DIRSIZ) ≠ cname (rootEntries files)[j].2 := by
  have hmem : files[k] ∈ files := getElem_mem hk
  have hproper := h.proper _ hmem
  simp only [mem_cons, not_mem_nil, or_false, not_or] at hproper
  rw [h.cname_take hmem]
  match j with
  | 0 => exact hproper.2.1
  | 1 => exact hproper.2.2
  | j + 2 =>
    have hjk : j < files.length := by omega
    have hentry : (rootEntries files)[j + 2] = (2 + j, files[j].name) := rootEntries_file hjk
    rw [hentry, h.cname_name (getElem_mem hjk)]
    have hne := pairwise_iff_getElem.mp h.distinct j k (by rwa [length_map])
      (by rwa [length_map]) (by omega)
    rw [getElem_map, getElem_map] at hne
    exact Ne.symm hne

end Names

/-- `namei` finds the file, and `ilock` reads its inode. -/
theorem Good.lookup [DecidableEq P] {init p : P} {path : List Byte}
    (h : Good s (contents files)) (hcount : s.freeinode = files.length + 2)
    (hlen : files.length ≤ 198) (hnames : Names files) (hk : k < files.length)
    (hpath : path.head? = some slash ∨ p = init)
    (hskip : skipelem path = some (files[k].name.take DIRSIZ, [])) :
    ∃ ip s₁ s₂, (namei sb p path).run ((mount s.finish.disk).boot init) = some (some ip, s₁) ∧
      (ilock ip).run s₁ = some ((), s₂) ∧
      (s₂.inode ip).din = (mount s.finish.disk : State P).dinode (2 + k) ∧
      s₂.data = (mount s.finish.disk : State P).data := by
  have hroot : ROOTINO < s.freeinode := by
    rw [hcount, ROOTINO]
    omega
  have hinode : 2 + k < NINODES := by
    rw [NINODES]
    omega
  have hentry : (rootEntries files).get ⟨k + 2, by rw [rootEntries_length]; omega⟩ =
      (2 + k, files[k].name) := rootEntries_file hk
  have hstores := h.stores (P := P) (show ROOTINO < NINODES by decide) (by decide) hroot
  rw [contents_root] at hstores
  have hsize : (dirBytes (rootEntries files)).length ≤
      ((mount s.finish.disk : State P).dinode ROOTINO).size := by
    have hold := (h.holds ROOTINO (by decide)).size
    rw [contents_root] at hold
    rw [mount_dinode h, if_pos rfl, ← hold]
    show _ ≤ ((inodeAt sb s.disk ROOTINO).size / BSIZE + 1) * BSIZE
    simp only [BSIZE]
    omega
  have hdir : ((mount s.finish.disk : State P).dinode ROOTINO).type = .dir := by
    rw [(mount_fields h ROOTINO).1, dinode_of_lt (by decide), DiskInode.toDinode,
      (h.used ROOTINO (by decide) (by decide) hroot).1]
    rfl
  have htype : ((mount s.finish.disk : State P).dinode (2 + k)).type ≠ .free := by
    rw [(mount_fields h _).1]
    exact (h.allocated_iff hinode).mpr ⟨by omega, by omega⟩
  exact namei_root hstores hdir hsize (rootEntries_inum hlen) (by rw [rootEntries_length]; omega)
    (fun j hj hlt => hnames.first hk hj hlt) hentry (by omega)
    (by rw [hnames.cname_take (getElem_mem hk), hnames.cname_name (getElem_mem hk)])
    htype hpath hskip

/-- The inode that was found reads as the file. -/
theorem Good.readi_file {s₂ : State P} {ip : Fin NINODE} (h : Good s (contents files))
    (hcount : s.freeinode = files.length + 2) (hlen : files.length ≤ 198) (hk : k < files.length)
    (hdin : (s₂.inode ip).din = (mount s.finish.disk : State P).dinode (2 + k))
    (hdata : s₂.data = (mount s.finish.disk : State P).data) :
    (s₂.inode ip).din.type = .file ∧ ∀ off n, off < 2 ^ 32 → n < 2 ^ 32 →
      (readi sb ip off n).run s₂ = some (if off ≤ files[k].contents.length ∧ off + n < 2 ^ 32 then
        some ((files[k].contents.drop off).take n) else none, s₂) := by
  have hinode : 2 + k < NINODES := by
    rw [NINODES]
    omega
  have hroot : 2 + k ≠ ROOTINO := by
    rw [ROOTINO]
    omega
  have hlt : 2 + k < s.freeinode := by omega
  have hstores := h.stores (P := P) hinode (by omega) hlt
  rw [contents_file hk, ← hdata, ← hdin] at hstores
  have hsize : (s₂.inode ip).din.size = files[k].contents.length := by
    rw [hdin, mount_dinode h, if_neg hroot, dinode_of_lt hinode, ← contents_file hk]
    exact (h.holds _ hinode).size
  constructor
  · rw [hdin, (mount_fields h _).1, dinode_of_lt hinode, DiskInode.toDinode,
      (h.used _ hinode (by omega) hlt).1, if_neg hroot]
    rfl
  · intro off n hoff hn
    split
    · next hin =>
      exact readi_run hstores hsize.ge (by rw [hsize]; exact Nat.min_le_right _ _)
        (hsize ▸ hin.1) hin.2
    · next hout =>
      refine readi_none ?_
      rw [hsize]
      by_contra hcon
      refine hout ⟨by omega, ?_⟩
      by_contra hwrap
      -- the sum of two `uint`s wraps at most once
      have hmod : (off + n) % 2 ^ 32 = off + n - 2 ^ 32 := by
        rw [Nat.mod_eq_sub_mod (Nat.not_lt.mp hwrap), Nat.mod_eq_of_lt (by omega)]
      omega

/-- The path of a file has one element: its name, as far as it is kept. -/
theorem skipelem_file {f : Input} {name path : List Byte} (hslash : slash ∉ f.name)
    (hne : f.name.take DIRSIZ ≠ []) (hname : name = f.name ∨ name = f.name.take DIRSIZ)
    (hpath : path = slash :: name ∨ path = name) :
    skipelem path = some (f.name.take DIRSIZ, []) := by
  have hskip : skipelem name = some (f.name.take DIRSIZ, []) := by
    rcases hname with rfl | rfl
    · refine skipelem_name ?_ hslash
      intro hnil
      rw [hnil] at hne
      exact hne rfl
    · have hshort := skipelem_name hne fun hmem => hslash (mem_of_mem_take hmem)
      rwa [take_take, Nat.min_self] at hshort
  rcases hpath with rfl | rfl
  · rw [skipelem_slash, hskip]
  · exact hskip

/-- **The kernel reads back what mkfs wrote.** When everything fits, mkfs exits with status 0; and
whenever it does, `namei` on the name of a file finds a file, and `readi` on it returns the bytes of
the file from the offset on. An offset after the end, and a length that makes their sum wrap, are
errors. -/
theorem kernel_reads_back [DecidableEq P] (hlen : files.length ≤ 198) (hnames : Names files) :
    ((∀ f ∈ files, slash ∉ f.arg) → (∀ f ∈ files, f.contents.length ≤ MAXFILE * BSIZE) →
      nmeta + blocks (16 * (files.length + 2)) + blocksOf files ≤ FSSIZE →
        ∃ img, mkfs files = some img) ∧
    ∀ img, mkfs files = some img → ∀ f ∈ files, ∀ (init p : P) (name path : List Byte),
      name = f.name ∨ name = f.name.take DIRSIZ → path = slash :: name ∨ p = init ∧ path = name →
      ∃ ip s₁ s₂,
        (namei (readsb img.disk) p path).run ((mount img.disk).boot init) = some (some ip, s₁) ∧
        (ilock ip).run s₁ = some ((), s₂) ∧ (s₂.inode ip).din.type = .file ∧
        ∀ off n, off < 2 ^ 32 → n < 2 ^ 32 → (readi (readsb img.disk) ip off n).run s₂ =
          some (if off ≤ f.contents.length ∧ off + n < 2 ^ 32 then
            some ((f.contents.drop off).take n) else none, s₂) := by
  refine ⟨mkfs_run hlen, ?_⟩
  intro img himg f hf init p name path hname hpath
  have hslash := mkfs_slash himg f hf
  obtain ⟨s, hgood, hcount, rfl⟩ := mkfs_inv hlen himg
  obtain ⟨k, hk, rfl⟩ := getElem_of_mem hf
  rw [readsb_finish hgood.super]
  have hne : files[k].name.take DIRSIZ ≠ [] := fun hnil =>
    hnames.proper _ hf (hnil ▸ mem_cons_self)
  have hskip := skipelem_file (fun hmem => hslash (mem_name hmem)) hne hname
    (hpath.imp_right And.right)
  have hstart : path.head? = some slash ∨ p = init := by
    rcases hpath with rfl | ⟨rfl, -⟩
    · exact .inl rfl
    · exact .inr rfl
  obtain ⟨ip, s₁, s₂, hnamei, hlock, hdin, hdata⟩ :=
    hgood.lookup hcount hlen hnames hk hstart hskip
  obtain ⟨htype, hreads⟩ := hgood.readi_file hcount hlen hk hdin hdata
  exact ⟨ip, s₁, s₂, hnamei, hlock, htype, hreads⟩

theorem oneFile_names : Names oneFile := ⟨by decide, by decide, by decide⟩

/-- `/a` is found, and its second byte is read. -/
theorem kernel_reads_back_oneFile : ∃ img ip s₁ s₂, mkfs oneFile = some img ∧
    (namei (readsb img.disk) () [slash, 97]).run ((mount img.disk).boot ()) = some (some ip, s₁) ∧
    (ilock ip).run s₁ = some ((), s₂) ∧ (s₂.inode ip).din.type = .file ∧
    (readi (readsb img.disk) ip 1 16).run s₂ = some (some [105], s₂) := by
  obtain ⟨hruns, hreads⟩ := kernel_reads_back (P := Unit) (by decide) oneFile_names
  obtain ⟨img, h⟩ := hruns (by decide) (by decide) (by decide)
  obtain ⟨ip, s₁, s₂, hnamei, hlock, htype, hread⟩ :=
    hreads img h ⟨[97], [104, 105]⟩ mem_cons_self () () [97] [slash, 97] (.inl rfl) (.inl rfl)
  exact ⟨img, ip, s₁, s₂, h, hnamei, hlock, htype, hread 1 16 (by decide) (by decide)⟩

/-- The file has a second byte, but nothing is read when the length is the largest `uint`. -/
theorem oneFile_wraps : ∃ img ip s₁ s₂, mkfs oneFile = some img ∧
    (namei (readsb img.disk) () [slash, 97]).run ((mount img.disk).boot ()) = some (some ip, s₁) ∧
    (ilock ip).run s₁ = some ((), s₂) ∧
    (readi (readsb img.disk) ip 1 (2 ^ 32 - 1)).run s₂ = some (none, s₂) := by
  obtain ⟨img, h⟩ : ∃ img, mkfs oneFile = some img :=
    mkfs_run (by decide) (by decide) (by decide) (by decide)
  obtain ⟨s, hgood, hcount, rfl⟩ := mkfs_inv (by decide) h
  refine ⟨s.finish, ?_⟩
  rw [readsb_finish hgood.super]
  have hskip : skipelem [slash, 97] = some ([97], []) := by decide
  obtain ⟨ip, s₁, s₂, hnamei, hlock, -, -⟩ :=
    hgood.lookup (P := Unit) (p := ()) (k := 0) hcount (by decide) oneFile_names (by decide)
      (.inr rfl) hskip
  exact ⟨ip, s₁, s₂, h, hnamei, hlock, readi_none (.inr (by decide))⟩

end Xv6.Mkfs
