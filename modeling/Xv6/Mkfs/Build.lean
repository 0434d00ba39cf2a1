import Xv6.Mkfs.Append

/-!
# Building the image

What the image holds while mkfs works on it: every inode has its content, in blocks of its own, and
the counter of blocks is what the contents take. `ialloc` and `iappend` keep this, and run as long
as there is room.
-/

namespace Xv6.Mkfs

open Bytes Fs Partial List
open Function (update update_eq_self update_eq_self_iff update_idem update_of_ne update_self)

variable {s s' : Image} {n : Nat} {d : DiskInode} {text : Nat → List Byte} {p q : List Byte}

/-! ## Inodes -/

theorem inodeAt_fits (disk : Nat → Block) (n : Nat) : (inodeAt sb disk n).Fits := by
  have hhalf (x : Block) (j : Nat) : half x j < 2 ^ 16 := by
    have h0 := (x (2 * j)).isLt
    have h1 := (x (2 * j + 1)).isLt
    unfold half
    omega
  exact ⟨hhalf _ _, hhalf _ _, hhalf _ _, hhalf _ _, word_lt _ _, fun _ => word_lt _ _⟩

/-- Inode `n` is stored. -/
def Image.setInode (s : Image) (n : Nat) (d : DiskInode) : Image :=
  s.write (sb.iblock n) (DiskInode.put (s.disk (sb.iblock n)) (n % 8) d)

theorem inodeAt_setInode_self (hd : d.Fits) (s : Image) (n : Nat) :
    inodeAt sb (s.setInode n d).disk n = d := by
  simp only [inodeAt, Image.setInode, Image.write, update_self]
  exact DiskInode.get_put hd _ _

theorem inodeAt_setInode_of_ne {m : Nat} (h : m ≠ n) (s : Image) (d : DiskInode) :
    inodeAt sb (s.setInode n d).disk m = inodeAt sb s.disk m := by
  unfold inodeAt Image.setInode Image.write
  by_cases hb : sb.iblock m = sb.iblock n
  · have hmod : m % 8 ≠ n % 8 := by
      simp only [Superblock.iblock] at hb
      omega
    simp only [hb, update_self]
    exact DiskInode.get_put_of_ne hmod
  · simp only [update_of_ne hb]

theorem winode_run (hs : s.sectors = FSSIZE) (hn : n < NINODES) (d : DiskInode) :
    (winode n d).run s = some ((), s.setInode n d) := by
  have hsector : sb.iblock n < s.sectors := by
    have := iblock_lt hn
    rw [hs]
    exact Nat.lt_trans this (by decide)
  simp only [winode, bind_iff]
  exact ⟨_, s, rsect_run hsector, wsect_run hsector _⟩

theorem rinode_run (hs : s.sectors = FSSIZE) (hn : n < NINODES) :
    (rinode n).run s = some (inodeAt sb s.disk n, s) := by
  have hsector : sb.iblock n < s.sectors := by
    have := iblock_lt hn
    rw [hs]
    exact Nat.lt_trans this (by decide)
  simp only [rinode, bind_iff]
  exact ⟨_, s, rsect_run hsector, rfl⟩

theorem Image.data_setInode (hn : n < NINODES) (s : Image) (d : DiskInode) :
    (s.setInode n d).data = s.data := by
  funext b
  unfold data
  split
  · rfl
  · next hb =>
    refine update_of_ne ?_ ..
    have := iblock_lt hn
    omega

theorem Image.dinode_setInode (hn : n < NINODES) (hd : d.Fits) (s : Image) :
    (s.setInode n d).dinode = update s.dinode n d.toDinode := by
  funext m
  unfold dinode
  by_cases hm : m = n
  · subst hm
    rw [if_pos hn, inodeAt_setInode_self hd, update_self]
  · rw [inodeAt_setInode_of_ne hm, update_of_ne hm]

theorem Image.Blank.setInode (h : s.Blank) (hn : n < NINODES) (d : DiskInode) :
    (s.setInode n d).Blank where
  sectors := h.sectors
  above := h.above
  zero b hb := by
    have hne : b ≠ sb.iblock n := by
      have := iblock_lt hn
      have := h.above
      have hb : s.freeblock ≤ b := hb
      omega
    exact (update_of_ne hne ..).trans (h.zero b hb)

theorem Image.disk_setInode (s : Image) (n : Nat) (d : DiskInode) :
    (s.setInode n d).disk 1 = s.disk 1 := by
  have hne : (1 : Nat) ≠ sb.iblock n := by
    simp only [Superblock.iblock, sb, nlog, Log.LOGSIZE, Log.MAXOPBLOCKS]
    omega
  simp only [setInode, write, update_of_ne hne]

/-- The inode with another size. -/
def DiskInode.resize (d : DiskInode) (size : Nat) : DiskInode := { d with size }

/-! ## The contents -/

theorem place_congr {d' : DiskInode} (hdata : s'.data = s.data) (haddrs : d'.addrs = d.addrs)
    (bn : Nat) : place s' d' bn = place s d bn := by
  unfold place
  rw [hdata]
  cases Slot.block bn with
  | addr k => exact congrFun haddrs k
  | entry j =>
    have haddrs : d'.toDinode.addrs = d.toDinode.addrs := haddrs
    simp only [Dinode.slot, haddrs]

/-- Inode `n` has the content `p`. -/
structure Holds (s : Image) (n : Nat) (p : List Byte) : Prop where
  size : (inodeAt sb s.disk n).size = p.length
  short : p.length ≤ MAXFILE * BSIZE
  exact : Exact s (inodeAt sb s.disk n) p.length
  bytes : ∀ j < p.length,
    s.data (place s (inodeAt sb s.disk n) (j / BSIZE)) (j % BSIZE) = p.getD j 0

/-- The image has the contents `text`, in the inodes from 1 to `freeinode`. -/
structure Good (s : Image) (text : Nat → List Byte) : Prop where
  blank : s.Blank
  below : s.freeblock ≤ FSSIZE
  super : s.disk 1 = superblock
  free : ∀ n < NINODES, n = 0 ∨ s.freeinode ≤ n → inodeAt sb s.disk n = DiskInode.zero
  used : ∀ n < NINODES, 0 < n → n < s.freeinode →
    (inodeAt sb s.disk n).type = (if n = ROOTINO then 1 else 2) ∧
      (inodeAt sb s.disk n).nlink = 1
  own : Owned (· < sb.nmeta) (· < sb.size) (addrOf s.dinode s.data) fun b =>
    decide (b < s.freeblock)
  holds : ∀ n < NINODES, Holds s n (text n)

theorem kernel_ino (s : Image) (n : Nat) (din : Dinode) (l : List Nat) :
    (s.kernel n din l).ino 0 = update s.dinode n din := by
  simp [State.ino, Image.kernel]

theorem dinode_of_lt (hn : n < NINODES) : s.dinode n = (inodeAt sb s.disk n).toDinode :=
  if_pos hn

namespace Good

theorem own_kernel (h : Good s text) (hn : n < NINODES) :
    (s.kernel n (inodeAt sb s.disk n).toDinode []).Own sb 0 := by
  have hino : update s.dinode n (inodeAt sb s.disk n).toDinode = s.dinode :=
    update_eq_self_iff.mpr (dinode_of_lt hn).symm
  unfold State.Own State.addr
  rw [kernel_ino, hino]
  exact h.own

theorem not_free (h : Good s text) (hn : n < NINODES) (hpos : 0 < n) (hlt : n < s.freeinode) :
    (inodeAt sb s.disk n).toDinode.type ≠ .free := by
  have htype := (h.used n hn hpos hlt).1
  unfold DiskInode.toDinode
  rw [htype]
  by_cases hroot : n = ROOTINO
  · simp [if_pos hroot]
  · simp [if_neg hroot]

theorem text_free (h : Good s text) (hn : n < NINODES) (hfree : n = 0 ∨ s.freeinode ≤ n) :
    text n = [] := by
  have hsize := (h.holds n hn).size
  rw [h.free n hn hfree] at hsize
  exact length_eq_zero_iff.mp hsize.symm

end Good

/-! ## Appending -/

theorem Steps.inodeAt_eq (h : Steps s s') (hn : n < NINODES) :
    inodeAt sb s'.disk n = inodeAt sb s.disk n := by
  unfold inodeAt
  rw [h.disk _ (iblock_lt hn)]

theorem place_eq_addr {m : Nat} {din : Dinode} {l : List Nat} (hm : m < NINODES) (hne : m ≠ n)
    (htype : (inodeAt sb s.disk m).toDinode.type ≠ .free) (y : Slot) :
    (s.kernel n din l).addr 0 (m, y) = (inodeAt sb s.disk m).toDinode.slot s.data y := by
  unfold State.addr addrOf
  rw [kernel_ino, update_of_ne hne, dinode_of_lt hm, if_neg htype]
  rfl

theorem Holds.zero (hs : inodeAt sb s.disk n = DiskInode.zero) : Holds s n [] := by
  have hplace (bn : Nat) : place s DiskInode.zero bn = 0 := by
    unfold place
    cases Slot.block bn with
    | addr k => rfl
    | entry j => rfl
  refine ⟨by rw [hs]; rfl, Nat.zero_le _, ?_, fun j hj => absurd hj (Nat.not_lt_zero j)⟩
  rw [hs]
  refine ⟨fun bn _ => ?_, ?_⟩
  · rw [hplace bn]
    simp
  · simp [DiskInode.zero]

theorem Holds.setInode {m : Nat} (h : Holds s m q) (hn : n < NINODES) (hne : m ≠ n)
    (d : DiskInode) : Holds (s.setInode n d) m q := by
  have hdata := Image.data_setInode hn s d
  have hinode := inodeAt_setInode_of_ne hne s d
  have hplace (bn : Nat) : place (s.setInode n d) (inodeAt sb s.disk m) bn =
      place s (inodeAt sb s.disk m) bn := place_congr hdata rfl bn
  refine ⟨?_, h.short, ?_, fun j hj => ?_⟩
  · rw [hinode]
    exact h.size
  · rw [hinode]
    refine ⟨fun bn hbn => ?_, h.exact.indir⟩
    rw [hplace]
    exact h.exact.block bn hbn
  · rw [hinode, hdata, hplace]
    exact h.bytes j hj

namespace Appended

variable {off : Nat} {d' : DiskInode}

section

variable (h : Appended n off p s d s' d')

include h

theorem own : (s'.kernel n d'.toDinode []).Own sb 0 := by
  obtain ⟨l, hwritten⟩ := h.written []
  exact hwritten.own

theorem type_eq : d'.toDinode.type = d.toDinode.type := by
  rw [h.fields]
  rfl

theorem fits (hd : d.Fits) (htype : d.toDinode.type ≠ .free)
    {size : Nat} (hsize : size < 2 ^ 32) : (d'.resize size).Fits := by
  have haddrs (k : Fin (NDIRECT + 1)) : d'.addrs k < 2 ^ 32 := by
    by_cases h0 : d'.addrs k = 0
    · rw [h0]
      decide
    · have haddr : (s'.kernel n d'.toDinode []).addr 0 (n, .addr k) = d'.addrs k :=
        kernel_addr s' (h.type_eq ▸ htype) _
      rw [← haddr] at h0 ⊢
      exact Nat.lt_trans (h.own.range _ h0).2 (by decide)
  rw [h.fields]
  exact ⟨hd.type, hd.major, hd.minor, hd.nlink, hsize, haddrs⟩

theorem holds_self (htype : d.toDinode.type ≠ .free)
    (hoff : off = q.length) (hq : q.length ≤ MAXFILE * BSIZE)
    (he : Exact s d q.length)
    (hbytes : ∀ j < q.length, s.data (place s d (j / BSIZE)) (j % BSIZE) = q.getD j 0) :
    (q ++ p).length ≤ MAXFILE * BSIZE ∧ Exact s' d' (q ++ p).length ∧
      ∀ j < (q ++ p).length, s'.data (place s' d' (j / BSIZE)) (j % BSIZE) = (q ++ p).getD j 0 := by
  subst hoff
  obtain ⟨l, hwritten⟩ := h.written []
  have htype' := h.type_eq ▸ htype
  have hbyte (j : Nat) : (s'.kernel n d'.toDinode l).byte 0 j =
      s'.data (place s' d' (j / BSIZE)) (j % BSIZE) := by
    unfold State.byte
    rw [show ((s'.kernel n d'.toDinode l).inode 0).inum = n from rfl, kernel_addr s' htype']
    rfl
  have hbyte₀ (j : Nat) : (s.kernel n d.toDinode []).byte 0 j =
      s.data (place s d (j / BSIZE)) (j % BSIZE) := by
    unfold State.byte
    rw [show ((s.kernel n d.toDinode []).inode 0).inum = n from rfl, kernel_addr s htype]
    rfl
  refine ⟨?_, length_append ▸ h.exact, fun j hj => ?_⟩
  · by_cases hp : p = []
    · rw [hp, append_nil]
      exact hq
    · have hpos := length_pos_iff.mpr hp
      have hlast := (hwritten.filled (q.length + p.length - 1) (by omega) (by omega)).1
      rw [length_append]
      omega
  · rw [length_append] at hj
    rw [← hbyte]
    by_cases hlt : j < q.length
    · have hmax : j / BSIZE < MAXFILE := by
        simp only [BSIZE, MAXFILE] at *
        omega
      have hplace : (s.kernel n d.toDinode []).addr 0 (n, .block (j / BSIZE)) ≠ 0 := by
        rw [kernel_addr s htype]
        refine (he.block _ hmax).mpr ?_
        exact Nat.lt_of_le_of_lt (Nat.div_mul_le_self j BSIZE) hlt
      rw [hwritten.outside j (by omega) (.inl hlt) hplace, hbyte₀, hbytes j hlt]
      exact (getD_append _ _ _ _ hlt).symm
    · have hge := Nat.not_lt.mp hlt
      rw [hwritten.inside j hge hj]
      exact (getD_append_right _ _ _ _ hge).symm

theorem holds_other {m : Nat} (hm : m < NINODES)
    (hne : m ≠ n) (htype : (inodeAt sb s.disk m).toDinode.type ≠ .free) (hq : Holds s m q) :
    Holds s' m q := by
  have hinode := h.steps.inodeAt_eq hm
  have hplace (bn : Nat) : place s' (inodeAt sb s'.disk m) bn =
      place s (inodeAt sb s.disk m) bn := by
    have hapart := h.apart m (.block bn) hne
    rwa [place_eq_addr hm hne htype, place_eq_addr hm hne (hinode.symm ▸ htype)] at hapart
  refine ⟨hinode ▸ hq.size, hq.short, ⟨fun bn hbn => ?_, ?_⟩, fun j hj => ?_⟩
  · rw [hplace]
    exact hq.exact.block bn hbn
  · rw [hinode]
    exact hq.exact.indir
  · rw [hplace, ← hq.bytes j hj]
    obtain ⟨l, hwritten⟩ := h.written []
    have haddr : (s.kernel n d.toDinode []).addr 0 (m, .block (j / BSIZE)) =
        place s (inodeAt sb s.disk m) (j / BSIZE) := place_eq_addr hm hne htype _
    have hmax : j / BSIZE < MAXFILE := by
      have := hq.short
      simp only [BSIZE, MAXFILE] at *
      omega
    have h0 : place s (inodeAt sb s.disk m) (j / BSIZE) ≠ 0 :=
      (hq.exact.block _ hmax).mpr (Nat.lt_of_le_of_lt (Nat.div_mul_le_self j BSIZE) hj)
    have hsame := hwritten.others (m, .block (j / BSIZE)) hne (haddr ▸ h0)
      (Slot.block_ne_indirect _)
    rw [haddr] at hsame
    exact congrFun hsame _

end

end Appended

/-- The slots, when the inode is stored with its new size. -/
theorem Appended.addrOf_resize {d' : DiskInode} {size : Nat} (hn : n < NINODES)
    (hfits : (d'.resize size).Fits) :
    addrOf (s'.setInode n (d'.resize size)).dinode s'.data = (s'.kernel n d'.toDinode []).addr 0 := by
  unfold State.addr
  rw [kernel_ino, Image.dinode_setInode hn hfits]
  funext x
  obtain ⟨m, y⟩ := x
  by_cases hm : m = n
  · subst hm
    refine addrOf_congr ?_ ?_ fun _ => rfl
    · rw [update_self, update_self]
      rfl
    · rw [update_self, update_self]
      rfl
  · refine addrOf_congr ?_ ?_ fun _ => rfl
    · rw [update_of_ne hm, update_of_ne hm]
    · rw [update_of_ne hm, update_of_ne hm]

theorem Good.append {d' : DiskInode} (h : Good s text) (hn : n < NINODES) (hpos : 0 < n)
    (hlt : n < s.freeinode)
    (ha : Appended n (text n).length p s (inodeAt sb s.disk n) s' d') :
    Good (s'.setInode n (d'.resize (text n ++ p).length))
      (update text n (text n ++ p)) := by
  have htype := h.not_free hn hpos hlt
  have hself := h.holds n hn
  obtain ⟨hshort, hexact, hbytes⟩ := ha.holds_self htype rfl hself.short hself.exact hself.bytes
  have hfits : (d'.resize (text n ++ p).length).Fits :=
    ha.fits (inodeAt_fits ..) htype (Nat.lt_of_le_of_lt hshort (by decide))
  have hdata := Image.data_setInode hn s' (d'.resize (text n ++ p).length)
  have hn' := inodeAt_setInode_self hfits s' n
  have hother {m : Nat} (hm : m < NINODES) (hne : m ≠ n) :
      inodeAt sb (s'.setInode n (d'.resize (text n ++ p).length)).disk m = inodeAt sb s.disk m := by
    rw [inodeAt_setInode_of_ne hne, ha.steps.inodeAt_eq hm]
  have hfirst : (s'.setInode n (d'.resize (text n ++ p).length)).freeinode = s.freeinode :=
    ha.steps.freeinode
  refine ⟨ha.steps.blank.setInode hn _, ha.below h.below, ?_, fun m hm hfree => ?_,
    fun m hm hpos' hlt' => ?_, ?_, fun m hm => ?_⟩
  · rw [Image.disk_setInode, ha.steps.disk 1 (by decide), h.super]
  · rw [hfirst] at hfree
    rw [hother hm (by omega)]
    exact h.free m hm hfree
  · rw [hfirst] at hlt'
    by_cases hm' : m = n
    · subst hm'
      rw [hn', ha.fields]
      exact h.used m hm hpos' hlt'
    · rw [hother hm hm']
      exact h.used m hm hpos' hlt'
  · rw [hdata, Appended.addrOf_resize hn hfits]
    exact ha.own
  · by_cases hm' : m = n
    · subst hm'
      have hplace (bn : Nat) : place (s'.setInode m (d'.resize (text m ++ p).length))
          (d'.resize (text m ++ p).length) bn = place s' d' bn := place_congr hdata rfl bn
      rw [update_self]
      refine ⟨by rw [hn']; rfl, hshort, ?_, fun j hj => ?_⟩
      · rw [hn']
        refine ⟨fun bn hbn => ?_, hexact.indir⟩
        rw [hplace]
        exact hexact.block bn hbn
      · rw [hn', hdata, hplace]
        exact hbytes j hj
    · rw [update_of_ne hm']
      by_cases hused : 0 < m ∧ m < s.freeinode
      · exact (ha.holds_other hm hm' (h.not_free hm hused.1 hused.2) (h.holds m hm)).setInode hn hm' _
      · have hfree : m = 0 ∨ s.freeinode ≤ m := by omega
        rw [h.text_free hm hfree]
        exact Holds.zero ((hother hm hm').trans (h.free m hm hfree))

/-- The bytes `p` have been appended to inode `n`. -/
structure Grown (n : Nat) (p : List Byte) (text : Nat → List Byte) (s s' : Image) : Prop where
  good : Good s' (update text n (text n ++ p))
  freeinode : s'.freeinode = s.freeinode
  count : s'.freeblock + blocks (text n).length = s.freeblock + blocks (text n ++ p).length

theorem Grown.nil (h : Good s text) (n : Nat) : Grown n [] text s s := by
  refine ⟨?_, rfl, by rw [append_nil]⟩
  rw [append_nil, update_eq_self]
  exact h

theorem Grown.append {t : Image} (h₁ : Grown n p text s t)
    (h₂ : Grown n q (update text n (text n ++ p)) t s') : Grown n (p ++ q) text s s' := by
  obtain ⟨-, hfirst₁, hcount₁⟩ := h₁
  obtain ⟨hgood, hfirst₂, hcount₂⟩ := h₂
  rw [update_idem, update_self, append_assoc] at hgood
  rw [update_self, append_assoc] at hcount₂
  exact ⟨hgood, hfirst₂.trans hfirst₁, by omega⟩

theorem iappend_grown (h : Good s text) (hn : n < NINODES) (hpos : 0 < n) (hlt : n < s.freeinode)
    (hrun : (iappend n p).run s = some ((), s')) : Grown n p text s s' := by
  have hself := h.holds n hn
  simp only [iappend, bind_iff] at hrun
  obtain ⟨_, _, hread, ⟨d', off⟩, t, hloop, hwrite⟩ := hrun
  rw [rinode_run h.blank.sectors hn] at hread
  cases hread
  rw [hself.size] at hloop
  obtain ⟨ha, rfl⟩ := iappendLoop_appended h.blank (h.own_kernel hn) (h.not_free hn hpos hlt)
    hself.exact le_rfl hloop
  rw [winode_run ha.steps.blank.sectors hn] at hwrite
  cases hwrite
  rw [← length_append]
  exact ⟨h.append hn hpos hlt ha, ha.steps.freeinode, length_append ▸ ha.count⟩

/-- There is room for the bytes, and so they are appended. -/
theorem iappend_run (h : Good s text) (hn : n < NINODES) (hpos : 0 < n) (hlt : n < s.freeinode)
    (hshort : (text n ++ p).length ≤ MAXFILE * BSIZE)
    (hroom : s.freeblock + blocks (text n ++ p).length ≤ FSSIZE + blocks (text n).length) :
    ∃ s', (iappend n p).run s = some ((), s') := by
  have hself := h.holds n hn
  have hown := h.own_kernel hn
  have htype := h.not_free hn hpos hlt
  rw [length_append] at hshort hroom
  obtain ⟨d', off, t, hloop⟩ :=
    iappendLoop_run h.blank hown htype hself.exact le_rfl hshort hroom
  obtain ⟨ha, rfl⟩ := iappendLoop_appended h.blank hown htype hself.exact le_rfl hloop
  refine ⟨t.setInode n (d'.resize ((text n).length + p.length)), ?_⟩
  simp only [iappend, bind_iff]
  refine ⟨_, s, rinode_run h.blank.sectors hn, (d', (text n).length + p.length), t, ?_, ?_⟩
  · rw [hself.size]
    exact hloop
  · exact winode_run ha.steps.blank.sectors hn _

/-! ## New inodes -/

/-- A file or directory with no content yet. -/
def DiskInode.fresh (type : Nat) : DiskInode := { DiskInode.zero with type, nlink := 1 }

/-- The image with the next inode. -/
def Image.alloc (s : Image) (type : Nat) : Image :=
  { s with freeinode := s.freeinode + 1 }.setInode s.freeinode (.fresh type)

theorem ialloc_run (hs : s.sectors = FSSIZE) (hn : s.freeinode < NINODES) (type : Nat) :
    (ialloc type).run s = some (s.freeinode, s.alloc type) := by
  simp only [ialloc, bind_iff, get_iff]
  exact ⟨s, s, ⟨rfl, rfl⟩, (), { s with freeinode := s.freeinode + 1 }, rfl, (), s.alloc type,
    winode_run (s := { s with freeinode := s.freeinode + 1 }) hs hn _, rfl⟩

theorem place_fresh (s : Image) (type bn : Nat) : place s (.fresh type) bn = 0 := by
  unfold place
  cases Slot.block bn with
  | addr k => rfl
  | entry j => rfl

theorem Good.alloc (h : Good s text) (hn : s.freeinode < NINODES) (hpos : 0 < s.freeinode)
    {type : Nat} (htype : type = if s.freeinode = ROOTINO then 1 else 2) :
    Good (s.alloc type) text := by
  have hfits : (DiskInode.fresh type).Fits := by
    have hshort : 0 < 2 ^ 16 := by decide
    have hint : 0 < 2 ^ 32 := by decide
    refine ⟨?_, hshort, hshort, show 1 < 2 ^ 16 by decide, hint, fun _ => hint⟩
    show type < 2 ^ 16
    rw [htype]
    split <;> decide
  have hself : inodeAt sb (s.alloc type).disk s.freeinode = .fresh type :=
    inodeAt_setInode_self hfits _ _
  have hother {m : Nat} (hne : m ≠ s.freeinode) :
      inodeAt sb (s.alloc type).disk m = inodeAt sb s.disk m :=
    inodeAt_setInode_of_ne hne { s with freeinode := s.freeinode + 1 } _
  have hdata : (s.alloc type).data = s.data :=
    Image.data_setInode hn { s with freeinode := s.freeinode + 1 } _
  have hblank : { s with freeinode := s.freeinode + 1 }.Blank :=
    ⟨h.blank.sectors, h.blank.above, h.blank.zero⟩
  refine ⟨hblank.setInode hn _, h.below, (Image.disk_setInode ..).trans h.super,
    fun m hm hfree => ?_, fun m hm hpos' hlt => ?_, ?_, fun m hm => ?_⟩
  · have hfree : m = 0 ∨ s.freeinode + 1 ≤ m := hfree
    rw [hother (by omega)]
    exact h.free m hm (by omega)
  · have hlt : m < s.freeinode + 1 := hlt
    by_cases hm' : m = s.freeinode
    · rw [hm', hself]
      exact ⟨htype, rfl⟩
    · rw [hother hm']
      exact h.used m hm hpos' (by omega)
  · have haddr : addrOf (s.alloc type).dinode (s.alloc type).data = addrOf s.dinode s.data := by
      rw [hdata]
      funext x
      obtain ⟨m, y⟩ := x
      by_cases hm : m = s.freeinode
      · subst hm
        unfold addrOf
        have hfree : DiskInode.zero.toDinode.type = .free := rfl
        rw [dinode_of_lt hn, dinode_of_lt hn, hself, h.free _ hn (.inr le_rfl), if_pos hfree]
        refine (ite_eq_left_iff.mpr fun _ => ?_)
        cases y with
        | addr k => rfl
        | entry j => rfl
      · have hdinode : (s.alloc type).dinode m = s.dinode m := by
          unfold Image.dinode
          rw [hother hm]
        exact addrOf_congr (by rw [hdinode]) (by rw [hdinode]) fun _ => rfl
    rw [haddr]
    exact h.own
  · by_cases hm' : m = s.freeinode
    · subst hm'
      rw [h.text_free hn (.inr le_rfl)]
      refine ⟨?_, Nat.zero_le _, ?_, fun j hj => absurd hj (Nat.not_lt_zero j)⟩
      · rw [hself]
        rfl
      · rw [hself]
        refine ⟨fun bn _ => ?_, ?_⟩
        · rw [place_fresh]
          simp
        · simp [DiskInode.fresh, DiskInode.zero]
    · have hholds : Holds { s with freeinode := s.freeinode + 1 } m (text m) :=
        ⟨(h.holds m hm).size, (h.holds m hm).short,
          ⟨(h.holds m hm).exact.block, (h.holds m hm).exact.indir⟩, (h.holds m hm).bytes⟩
      exact hholds.setInode hn hm' _

end Xv6.Mkfs
