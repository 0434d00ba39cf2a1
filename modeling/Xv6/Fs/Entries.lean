import Mathlib.Algebra.GroupWithZero.Nat
import Xv6.Common.Slots
import Xv6.Fs.Contents

/-!
# The entries of a directory

The entries of a directory are slots, empty or with a name and an inode number, as in `Xv6.Slots`. A
name is what `strncmp` compares: its bytes up to the first 0, at most `DIRSIZ` of them. `dirlookup`
finds the first slot that holds a name, and `dirlink` uses the first one that is empty. Where the
entries are whole, reading them does not panic, so what the two do is an equation in the slots.
-/

namespace Xv6.Fs

open Bytes Partial List Slots

variable {P : Type} {sb : Superblock} {s s' t : State P} {K K' : Refs} {i dp ip : Fin NINODE}
  {n v j inum : Nat} {name : List Byte}

/-! ## Names -/

/-- `strncmp`. The list is followed by a 0. -/
def strncmp : Nat → List Byte → List Byte → Int
  | 0, _, _ => 0
  | n + 1, p, q =>
    if p.headD 0 ≠ 0 ∧ p.headD 0 = q.headD 0 then strncmp n p.tail q.tail
    else ((p.headD 0).toNat : Int) - (q.headD 0).toNat

def namecmp (s t : List Byte) : Int := strncmp DIRSIZ s t

/-- The `n` bytes that `strncpy` stores. -/
def strncpy : Nat → List Byte → List Byte
  | 0, _ => []
  | n + 1, t =>
    if t.headD 0 = 0 then List.replicate (n + 1) 0 else t.headD 0 :: strncpy n t.tail

/-- The bytes up to the first 0, at most `n`. -/
def cstr (n : Nat) (p : List Byte) : List Byte := (p.take n).takeWhile (· ≠ 0)

theorem cstr_succ (n : Nat) (p : List Byte) :
    cstr (n + 1) p = if p.headD 0 = 0 then [] else p.headD 0 :: cstr n p.tail := by
  cases p with
  | nil => rfl
  | cons x p =>
    rw [cstr, take_succ_cons, headD_cons, tail_cons]
    split
    · next hx => exact takeWhile_cons_of_neg (by simpa using hx)
    · next hx => exact takeWhile_cons_of_pos (by simpa using hx)

theorem strncmp_eq_zero (n : Nat) (p q : List Byte) :
    strncmp n p q = 0 ↔ cstr n p = cstr n q := by
  induction n generalizing p q with
  | zero => exact iff_of_true rfl rfl
  | succ n ih =>
    rw [strncmp, cstr_succ, cstr_succ]
    generalize p.headD 0 = x
    generalize q.headD 0 = y
    by_cases hxy : x = y
    · subst hxy
      by_cases hx : x = 0
      · rw [if_neg (fun h => h.1 hx), if_pos hx, if_pos hx]
        exact iff_of_true (Int.sub_self _) rfl
      · rw [if_pos ⟨hx, rfl⟩, if_neg hx, if_neg hx, ih, List.cons.injEq, eq_self_iff_true,
          true_and]
    · -- the first bytes differ, so the names do
      have hne : x.toNat ≠ y.toNat := fun heq => hxy (BitVec.eq_of_toNat_eq heq)
      rw [if_neg fun h => hxy h.2]
      refine iff_of_false (by omega) fun heq => ?_
      split at heq <;> split at heq
      · next hx hy => exact hxy (hx.trans hy.symm)
      · cases heq
      · cases heq
      · exact hxy (List.cons.inj heq).1

theorem namecmp_eq_zero (p q : List Byte) : namecmp p q = 0 ↔ cname p = cname q :=
  strncmp_eq_zero DIRSIZ p q

theorem strncpy_eq (n : Nat) (p : List Byte) :
    strncpy n p = cstr n p ++ List.replicate (n - (cstr n p).length) 0 := by
  induction n generalizing p with
  | zero => simp [strncpy, cstr]
  | succ n ih =>
    rw [strncpy, cstr_succ]
    split
    · simp
    · rw [ih, cons_append, length_cons, Nat.add_sub_add_right]

/-- **An entry reads back.** `dirlink` stores 16 bytes, the name with `strncpy`. The inode number read
from them is that of a `ushort`, and `namecmp` takes a key for the name if the first `DIRSIZ` bytes of
the two C strings are the same. -/
theorem dirent_reads_back (inum : Nat) (name : List Byte) :
    direntBytes inum name =
        [BitVec.ofNat 8 inum, BitVec.ofNat 8 (inum / 256)] ++ strncpy DIRSIZ name ∧
      (direntBytes inum name).length = 16 ∧ (dirent (direntBytes inum name)).1 = inum % 2 ^ 16 ∧
      ∀ key, namecmp key ((direntBytes inum name).drop 2) = 0 ↔ cname key = cname name := by
  refine ⟨?_, length_direntBytes inum name, ?_, fun key => ?_⟩
  · rw [strncpy_eq, ← append_assoc]
    rfl
  · show (BitVec.ofNat 8 inum).toNat + 256 * (BitVec.ofNat 8 (inum / 256)).toNat = inum % 2 ^ 16
    rw [BitVec.toNat_ofNat, BitVec.toNat_ofNat]
    omega
  · -- the bytes of the name do not depend on the inode number
    have hname : cname ((direntBytes inum name).drop 2) = cname name :=
      congrArg Prod.snd (@dirent_direntBytes 0 (by decide) name)
    rw [namecmp_eq_zero, hname]

/-! ## Slots -/

/-- A `struct dirent` as a slot: it is empty if its inode number is 0. -/
def slotOf (de : Nat × List Byte) : Option (List Byte × Nat) :=
  if de.1 = 0 then none else some (de.2, de.1)

/-- The directory entry at `off` of inode `n`. -/
def dent (s : State P) (n off : Nat) : Nat × List Byte :=
  dirent ((List.range 16).map fun j => fbyte s n (off + j))

/-- The slots of directory `n`. -/
def State.slots (s : State P) (n : Nat) : List (Option (List Byte × Nat)) :=
  (List.range ((s.dinode n).size / 16)).map fun j => slotOf (dent s n (16 * j))

/-- Directory `n` as a map from names to inode numbers. -/
def State.dir (s : State P) (n : Nat) : List Byte → Option Nat := lookup (s.slots n)

theorem slotOf_direntBytes (hpos : 0 < inum) (hlt : inum < 2 ^ 16) (name : List Byte) :
    slotOf (dirent (direntBytes inum name)) = some (cname name, inum) := by
  rw [dirent_direntBytes hlt, slotOf, if_neg (Nat.ne_of_gt hpos)]

theorem holds_slotOf {key : List Byte} {de : Nat × List Byte} :
    holds key (slotOf de) = true ↔ de.1 ≠ 0 ∧ key = de.2 := by
  rw [holds_iff, slotOf]
  by_cases h0 : de.1 = 0
  · simp [h0]
  · simp [h0, eq_comm]

theorem slots_congr (hsize : (s'.dinode n).size = (s.dinode n).size)
    (hbytes : ∀ p < (s.dinode n).size, fbyte s' n p = fbyte s n p) : s'.slots n = s.slots n := by
  unfold State.slots
  rw [hsize]
  refine map_congr_left fun j hj => ?_
  have hj := mem_range.mp hj
  unfold dent
  congr 2
  refine map_congr_left fun k hk => ?_
  have hk := mem_range.mp hk
  exact hbytes _ (by omega)

theorem Wrote.slots {bytes : List Byte} (h : Wrote n (16 * j) bytes s s') (hlen : bytes.length = 16)
    (hwhole : (s.dinode n).size % 16 = 0) (hj : 16 * j ≤ (s.dinode n).size) :
    s'.slots n = put (s.slots n) j (slotOf (dirent bytes)) := by
  have hsize := h.size
  rw [hlen] at hsize
  have hcount : (s.slots n).length = (s.dinode n).size / 16 := by simp [State.slots]
  refine ext_getElem? fun k => ?_
  rw [getElem?_put (by omega)]
  by_cases hk : k < (s'.dinode n).size / 16
  · have hnew : (s'.slots n)[k]? = some (slotOf (dent s' n (16 * k))) := by
      simp [State.slots, hk]
    rw [hnew]
    by_cases hkj : k = j
    · subst hkj
      rw [if_pos rfl, dent]
      congr 3
      refine ext_getElem (by simp [hlen]) fun o ho ho' => ?_
      have ho : o < 16 := by simpa using ho
      rw [getElem_map, getElem_range, h.bytes _ (by omega), if_pos (by omega),
        Nat.add_sub_cancel_left, getD_eq_getElem _ _ ho']
    · have hold : (s.slots n)[k]? = some (slotOf (dent s n (16 * k))) := by
        simp only [State.slots, List.getElem?_map, List.getElem?_range, Option.map_some,
          show k < (s.dinode n).size / 16 by omega]
      rw [if_neg hkj, hold, dent, dent]
      congr 3
      refine map_congr_left fun o ho => ?_
      have ho := mem_range.mp ho
      rw [h.bytes _ (by omega), if_neg (by omega)]
  · rw [if_neg (by omega), List.getElem?_eq_none (by simp [State.slots]; omega),
      List.getElem?_eq_none (by omega)]

/-! ## Reading entries -/

section Read

variable (h : Sound sb s K) (hi : 0 < K dp) (hv : (s.inode dp).valid = true)
  (hn : (s.inode dp).inum = n)

include h hi hv hn

theorem readDirent_eq {off : Nat} (hin : off + 16 ≤ (s.dinode n).size) :
    (readDirent sb dp off).run s = some (dent s n off, s) := by
  have hmax := (h.sized_at hi hv).1
  have hread := h.reads hi hv off 16
  simp only [h.din_eq hi hv, hn, MAXFILE, BSIZE] at hmax hread
  have hrun := hread (by omega) (by omega)
  rw [if_neg (by omega), contents_slice hin] at hrun
  rw [readDirent, bind_of_run hrun]
  dsimp only
  rw [if_pos (by simp)]
  rfl

variable {offs : List Nat}

section

variable (hoffs : ∀ off ∈ offs, off + 16 ≤ (s.dinode n).size)

include hoffs

theorem dirlookupLoop_eq :
    (dirlookupLoop sb dp name offs).run s =
      match offs.find? fun off => holds (cname name) (slotOf (dent s n off)) with
      | none => some (none, s)
      | some off => (do
        let ip ← iget (dent s n off).1
        return some (off, ip) : M P (Option (Nat × Fin NINODE))).run s := by
  induction offs with
  | nil => rfl
  | cons off offs ih =>
    obtain ⟨hoff, hoffs⟩ := forall_mem_cons.mp hoffs
    rw [dirlookupLoop, bind_of_run (readDirent_eq h hi hv hn hoff), List.find?_cons]
    by_cases hmatch : holds (cname name) (slotOf (dent s n off)) = true
    · rw [hmatch, if_pos (holds_slotOf.mp hmatch)]
    · rw [Bool.not_eq_true] at hmatch
      rw [hmatch, if_neg fun heq => by rw [holds_slotOf.mpr heq] at hmatch; cases hmatch]
      exact ih hoffs

theorem emptyLoop_eq {last : Nat} :
    (emptyLoop sb dp last offs).run s =
      some ((offs.find? fun off => (slotOf (dent s n off)).isNone).getD last, s) := by
  induction offs with
  | nil => rfl
  | cons off offs ih =>
    obtain ⟨hoff, hoffs⟩ := forall_mem_cons.mp hoffs
    rw [emptyLoop, bind_of_run (readDirent_eq h hi hv hn hoff), List.find?_cons, slotOf]
    split
    · rfl
    · exact ih hoffs

theorem isdirempty_eq :
    (isdirempty sb dp offs).run s =
      some (offs.all fun off => (slotOf (dent s n off)).isNone, s) := by
  induction offs with
  | nil => rfl
  | cons off offs ih =>
    obtain ⟨hoff, hoffs⟩ := forall_mem_cons.mp hoffs
    rw [isdirempty, bind_of_run (readDirent_eq h hi hv hn hoff), all_cons, slotOf]
    by_cases h0 : (dent s n off).1 = 0
    · rw [if_neg (not_not.mpr h0), if_pos h0, Option.isNone_none, Bool.true_and]
      exact ih hoffs
    · rw [if_pos h0, if_neg h0, Option.isNone_some, Bool.false_and]
      rfl

end

end Read

theorem offsets_whole {size : Nat} (h : size % 16 = 0) :
    offsets size = (List.range (size / 16)).map (16 * ·) := by
  rw [offsets, show (size + 15) / 16 = size / 16 by omega]

theorem offsets_le {size off : Nat} (h : size % 16 = 0) (hoff : off ∈ offsets size) :
    off + 16 ≤ size := by
  rw [offsets_whole h] at hoff
  obtain ⟨j, hj, rfl⟩ := mem_map.mp hoff
  have hj := mem_range.mp hj
  omega

theorem find?_offsets (hwhole : (s.dinode n).size % 16 = 0)
    (p : Option (List Byte × Nat) → Bool) :
    (offsets (s.dinode n).size).find? (fun off => p (slotOf (dent s n off))) =
      ((s.slots n).findIdx? p).map (16 * ·) := by
  rw [offsets_whole hwhole, List.find?_map, State.slots, findIdx?_map_range]
  rfl

/-! ## Taking and giving up the inode that a name is for -/

/-- `iget` of inode `v` finds it in the cache, or a free entry for it. -/
def Cacheable (s : State P) (v : Nat) : Prop :=
  ∃ j, (s.inode j).ref = 0 ∨ (s.inode j).inum = v

theorem iget_room (h : Cacheable s v) : ∃ ip s', (iget v).run s = some (ip, s') := by
  rw [iget, get_bind]
  split
  · exact ⟨_, _, rfl⟩
  · next hmiss =>
    split
    · exact ⟨_, _, rfl⟩
    · next hfull =>
      obtain ⟨j, hj⟩ := h
      have hused := List.find?_eq_none.mp hfull j (mem_finRange j)
      have hother := List.find?_eq_none.mp hmiss j (mem_finRange j)
      simp only [decide_eq_true_eq] at hused hother
      obtain h0 | hinum := hj
      · exact absurd h0 hused
      · exact absurd ⟨Nat.pos_of_ne_zero hused, hinum⟩ hother

/-- An inode that is not freed is only let go. -/
theorem iput_drop
    (h : ¬ ((s.inode i).ref = 1 ∧ (s.inode i).valid = true ∧ (s.inode i).din.nlink = 0)) :
    (iput sb i).run s = some ((), s.setRef i ((s.inode i).ref - 1)) := by
  rw [iput, get_bind, if_neg h]
  rfl

/-- The entry that `iget` has just returned is not freed by `iput`: others refer to the inode too,
or it has not been read. -/
theorem not_freed_of_iget (h : (iget v).run s = some (ip, t)) :
    ¬ ((t.inode ip).ref = 1 ∧ (t.inode ip).valid = true ∧ (t.inode ip).din.nlink = 0) := by
  rintro ⟨href, hvalid, -⟩
  obtain ⟨hpos, -, rfl⟩ | ⟨-, -, rfl⟩ := iget_inv h
  · simp only [State.setRef, State.setInode, Function.update_self] at href
    omega
  · simp [State.setInode] at hvalid

/-! ## Directories -/

/-- Inode `n`, which entry `dp` of the table is for, is a directory of whole entries whose names are
distinct. -/
structure Directory (sb : Superblock) (K : Refs) (dp : Fin NINODE) (n : Nat) (s : State P) :
    Prop where
  sound : Sound sb s K
  held : 0 < K dp
  inum : (s.inode dp).inum = n
  valid : (s.inode dp).valid = true
  type : (s.dinode n).type = .dir
  whole : (s.dinode n).size % 16 = 0
  distinct : Slots.Distinct (s.slots n)

/-- Nothing has happened to inode `n`, which entry `dp` is still for. -/
structure Elsewhere (sb : Superblock) (K' : Refs) (dp : Fin NINODE) (n : Nat) (s s' : State P) :
    Prop where
  sound : Sound sb s' K'
  held : 0 < K' dp
  inum : (s'.inode dp).inum = n
  valid : (s'.inode dp).valid = true
  type : (s'.dinode n).type = (s.dinode n).type
  size : (s'.dinode n).size = (s.dinode n).size
  bytes : ∀ p < (s.dinode n).size, fbyte s' n p = fbyte s n p

theorem Elsewhere.slots (h : Elsewhere sb K' dp n s s') : s'.slots n = s.slots n :=
  slots_congr h.size h.bytes

theorem Elsewhere.directory (he : Elsewhere sb K' dp n s s') (h : Directory sb K dp n s) :
    Directory sb K' dp n s' where
  sound := he.sound
  held := he.held
  inum := he.inum
  valid := he.valid
  type := he.type.trans h.type
  whole := by
    rw [he.size]
    exact h.whole
  distinct := by
    rw [he.slots]
    exact h.distinct

/-- No block has been written, and the inode is the same but for its link count. -/
theorem Directory.elsewhere {K₀ : Refs} (h : Directory sb K dp n s) (hsound : Sound sb s' K')
    (hheld : 0 < K' dp) (hkept : 0 < K₀ dp) (hkeeps : Keeps K₀ s s')
    (htype : (s'.dinode n).type = (s.dinode n).type)
    (hsize : (s'.dinode n).size = (s.dinode n).size)
    (haddrs : (s'.dinode n).addrs = (s.dinode n).addrs) (hdata : s'.data = s.data) :
    Elsewhere sb K' dp n s s' where
  sound := hsound
  held := hheld
  inum := (hkeeps.inum dp hkept).trans h.inum
  valid := hkeeps.valid dp hkept h.valid
  type := htype
  size := hsize
  bytes p _ := by rw [fbyte, fbyte, hdata, addrOf_congr htype haddrs fun _ => rfl]

theorem SameDisk.elsewhere {K₀ : Refs} (hdisk : SameDisk s s') (h : Directory sb K dp n s)
    (hsound : Sound sb s' K') (hheld : 0 < K' dp) (hkept : 0 < K₀ dp) (hkeeps : Keeps K₀ s s') :
    Elsewhere sb K' dp n s s' :=
  h.elsewhere hsound hheld hkept hkeeps (by rw [hdisk.dinode]) (by rw [hdisk.dinode])
    (by rw [hdisk.dinode]) hdisk.data

namespace Directory

theorem size_eq (h : Directory sb K dp n s) : (s.inode dp).din.size = (s.dinode n).size := by
  rw [h.sound.din_eq h.held h.valid, h.inum]

theorem din_type (h : Directory sb K dp n s) : (s.inode dp).din.type = .dir := by
  rw [h.sound.din_eq h.held h.valid, h.inum, h.type]

theorem length_slots (h : Directory sb K dp n s) :
    16 * (s.slots n).length = (s.dinode n).size := by
  have hwhole := h.whole
  simp only [State.slots, length_map, length_range]
  omega

/-- A slot that holds a name is the entry of an inode. -/
theorem slot_eq {key : List Byte} (h : (s.slots n)[j]? = some (some (key, v))) :
    (dent s n (16 * j)).1 = v := by
  simp only [State.slots, List.getElem?_map, Option.map_eq_some_iff] at h
  obtain ⟨j', hj', hslot⟩ := h
  obtain ⟨hlt, rfl⟩ := List.getElem?_eq_some_iff.mp hj'
  rw [getElem_range] at hslot
  rw [slotOf] at hslot
  split at hslot
  · cases hslot
  · cases hslot
    rfl

/-- `dirlookup` reads the slots in order, and gets the inode that the first one with the name is
for. -/
theorem dirlookup_eq (h : Directory sb K dp n s) (name : List Byte) :
    (dirlookup sb dp name).run s = match place (s.slots n) (cname name) with
      | none => some (none, s)
      | some j => (do
        let ip ← iget (dent s n (16 * j)).1
        return some (16 * j, ip) : M P (Option (Nat × Fin NINODE))).run s := by
  have hread : ∀ off ∈ offsets (s.dinode n).size, off + 16 ≤ (s.dinode n).size :=
    fun off => offsets_le h.whole
  rw [dirlookup, get_bind, if_pos h.din_type, h.size_eq,
    dirlookupLoop_eq h.sound h.held h.valid h.inum hread, find?_offsets h.whole, ← place]
  cases place (s.slots n) (cname name) with
  | none => rfl
  | some j => rfl

theorem dirlookup_inv {r : Option (Nat × Fin NINODE)} (h : Directory sb K dp n s)
    (hrun : (dirlookup sb dp name).run s = some (r, s')) :
    r = none ∧ s' = s ∧ s.dir n (cname name) = none ∨
      ∃ j v ip, r = some (16 * j, ip) ∧ place (s.slots n) (cname name) = some j ∧
        s.dir n (cname name) = some v ∧ (iget v).run s = some (ip, s') := by
  rw [h.dirlookup_eq name] at hrun
  split at hrun
  · next hplace =>
    cases hrun
    exact .inl ⟨rfl, rfl, lookup_eq_none.mpr hplace⟩
  · next j hplace =>
    simp only [bind_iff, pure_iff] at hrun
    obtain ⟨ip, _, hget, rfl, rfl⟩ := hrun
    obtain ⟨v, hv⟩ := place_spec hplace
    rw [slot_eq hv] at hget
    exact .inr ⟨j, v, ip, rfl, hplace, lookup_of_place hplace hv, hget⟩

theorem dirlookup_room (h : Directory sb K dp n s) (name : List Byte)
    (hroom : ∀ v, s.dir n (cname name) = some v → Cacheable s v) :
    ∃ r s', (dirlookup sb dp name).run s = some (r, s') := by
  rw [h.dirlookup_eq name]
  split
  · exact ⟨_, _, rfl⟩
  · next j hplace =>
    obtain ⟨v, hv⟩ := place_spec hplace
    obtain ⟨ip, s', hget⟩ := iget_room (hroom v (lookup_of_place hplace hv))
    rw [slot_eq hv, bind_of_run hget]
    exact ⟨_, _, rfl⟩

/-! ### Entering a name -/

theorem dirlink_absent (h : Directory sb K dp n s) (habsent : s.dir n (cname name) = none)
    (inum : Nat) :
    (dirlink sb dp name inum).run s = (do
      match ← writei sb dp (16 * vacant (s.slots n)) (direntBytes inum name) with
      | some 16 => return true
      | _ => panic : M P Bool).run s := by
  have hread : ∀ off ∈ offsets (s.dinode n).size, off + 16 ≤ (s.dinode n).size :=
    fun off => offsets_le h.whole
  have hlook : (dirlookup sb dp name).run s = some (none, s) := by
    rw [h.dirlookup_eq name, lookup_eq_none.mp habsent]
  have hlast : 16 * (((s.dinode n).size + 15) / 16) = 16 * (s.slots n).length := by
    have hcount := h.length_slots
    omega
  have hempty : ((offsets (s.dinode n).size).find? fun off => (slotOf (dent s n off)).isNone).getD
      (16 * (s.slots n).length) = 16 * vacant (s.slots n) := by
    rw [find?_offsets h.whole, vacant]
    cases (s.slots n).findIdx? Option.isNone with
    | none => rfl
    | some j => rfl
  rw [dirlink, bind_of_run hlook]
  dsimp only
  rewrite [get_bind, h.size_eq, hlast,
    bind_of_run (emptyLoop_eq h.sound h.held h.valid h.inum hread), hempty]
  rfl

theorem dirlink_present {off : Nat} (hlook : (dirlookup sb dp name).run s = some (some (off, ip), t)) :
    (dirlink sb dp name inum).run s = (do
      iput sb ip
      return false : M P Bool).run t := by
  rw [dirlink, bind_of_run hlook]

end Directory

/-- From `s` to `s'` nothing has changed that is on the disk or in use. -/
structure Unchanging (s s' : State P) : Prop where
  disk : SameDisk s s'
  inode : ∀ i, 0 < (s.inode i).ref → s'.inode i = s.inode i

theorem iget_iput (sb : Superblock) (hget : (iget v).run s = some (ip, t)) :
    ∃ s', (iput sb ip).run t = some ((), s') ∧ Unchanging s s' := by
  refine ⟨_, iput_drop (not_freed_of_iget hget), ?_⟩
  obtain ⟨hpos, -, rfl⟩ | ⟨-, h0, rfl⟩ := iget_inv hget
  · exact ⟨⟨rfl, rfl, rfl⟩, fun i _ => by simp [State.setRef, State.setInode]⟩
  · refine ⟨⟨rfl, rfl, rfl⟩, fun i hi => ?_⟩
    have hip : i ≠ ip := by
      rintro rfl
      omega
    simp [State.setRef, State.setInode, hip]

/-- All inodes but `n` are as they were. -/
def Spares (n : Nat) (s s' : State P) : Prop :=
  ∀ m, m ≠ n → s'.dinode m = s.dinode m ∧
    ((s.dinode m).type ≠ .free → s'.contents m = s.contents m)

theorem Wrote.spares {off : Nat} {src : List Byte} (h : Wrote n off src s s') : Spares n s s' :=
  fun m hm => ⟨h.dinode m hm, fun hfree => contents_congr (h.dinode m hm) (h.others m hm hfree)⟩

variable {bytes : List Byte}

theorem Directory.stored (h : Directory sb K dp n s)
    (hrun : (writei sb dp (16 * j) bytes).run s = some (some 16, s')) (hlen : bytes.length = 16)
    (hj : j ≤ (s.slots n).length)
    (hnew : ∀ e, slotOf (dirent bytes) = some e → s.dir n e.1 = none) :
    Directory sb K dp n s' ∧ Keeps K s s' ∧
      s'.slots n = put (s.slots n) j (slotOf (dirent bytes)) ∧ Spares n s s' := by
  obtain ⟨hsound, hkeeps, ⟨-, hnone | hdev⟩ | ⟨-, -, hwrote⟩⟩ :=
    writei_sound h.sound h.held h.valid hrun
  · cases hnone
  · rw [h.din_type] at hdev
    cases hdev
  · rw [h.inum] at hwrote
    have hcount := h.length_slots
    have hwhole := h.whole
    have hsize := hwrote.size
    have hslots := hwrote.slots hlen hwhole (by omega)
    refine ⟨⟨hsound, h.held, (hkeeps.inum dp h.held).trans h.inum, hkeeps.valid dp h.held h.valid,
      hwrote.type.trans h.type, by omega, ?_⟩, hkeeps, hslots, hwrote.spares⟩
    rw [hslots]
    exact h.distinct.put hj hnew

theorem Directory.store_room (h : Directory sb K dp n s) (hlen : bytes.length = 16)
    (hj : j ≤ (s.slots n).length) (hfit : 16 * j + 16 ≤ MAXFILE * BSIZE)
    (hroom : s.missing dp (blocks (16 * j) 16) ≤ s.free sb) :
    ∃ s', (writei sb dp (16 * j) bytes).run s = some (some 16, s') := by
  have hcount := h.length_slots
  have hsize := h.size_eq
  have hdev : (s.inode dp).din.type ≠ .dev := by
    rw [h.din_type]
    exact IType.noConfusion
  have hok : ¬ Refused (s.inode dp).din.size (16 * j) bytes.length := by
    simp only [Refused, MAXFILE, BSIZE] at *
    omega
  obtain ⟨s', hwrite, -⟩ := writei_room h.sound h.held h.valid hdev hok (by rwa [hlen])
  exact ⟨s', hlen ▸ hwrite⟩

theorem Directory.restore_room (h : Directory sb K dp n s) (hlen : bytes.length = 16)
    (hj : j < (s.slots n).length) :
    ∃ s', (writei sb dp (16 * j) bytes).run s = some (some 16, s') := by
  have hcount := h.length_slots
  have hsize := h.size_eq
  have hmax := (h.sound.sized_at h.held h.valid).1
  refine h.store_room hlen hj.le (by omega) ?_
  rw [h.sound.missing_eq_zero h.held h.valid (by omega)]
  exact Nat.zero_le _

/-- There is an empty slot, or the directory can grow. -/
def HasSpace (sb : Superblock) (dp : Fin NINODE) (n : Nat) (s : State P) : Prop :=
  none ∈ s.slots n ∨ (s.dinode n).size + 16 ≤ MAXFILE * BSIZE ∧
    s.missing dp (blocks (s.dinode n).size 16) ≤ s.free sb

namespace Directory

theorem dirlink_inv {ok : Bool} (h : Directory sb K dp n s) (hpos : 0 < inum)
    (hlt : inum < 2 ^ 16) (hrun : (dirlink sb dp name inum).run s = some (ok, s')) :
    Directory sb K dp n s' ∧
      (ok = false ∧ s.dir n (cname name) ≠ none ∧ Unchanging s s' ∨
        ok = true ∧ s.dir n (cname name) = none ∧
          s'.slots n = insert (s.slots n) (cname name) inum ∧ Spares n s s') := by
  by_cases habsent : s.dir n (cname name) = none
  · rw [h.dirlink_absent habsent, bind_iff] at hrun
    obtain ⟨r, t, hwrite, hrun⟩ := hrun
    split at hrun
    · obtain ⟨rfl, rfl⟩ := pure_iff.mp hrun
      have hslot := slotOf_direntBytes hpos hlt name
      obtain ⟨hdir, -, hslots, hspares⟩ := h.stored hwrite (length_direntBytes inum name)
        (vacant_le _) (by
          rw [hslot]
          rintro e ⟨⟩
          exact habsent)
      rw [hslot] at hslots
      exact ⟨hdir, .inr ⟨rfl, habsent, hslots, hspares⟩⟩
    · cases hrun
  · have hlook : ∃ off ip t, (dirlookup sb dp name).run s = some (some (off, ip), t) := by
      cases hl : (dirlookup sb dp name).run s with
      | none =>
        rw [dirlink, StateT.run_bind, hl] at hrun
        cases hrun
      | some x =>
        obtain ⟨r, t⟩ := x
        obtain ⟨-, -, hnone⟩ | ⟨j, v, ip, rfl, -⟩ := h.dirlookup_inv hl
        · exact absurd hnone habsent
        · exact ⟨_, _, _, rfl⟩
    obtain ⟨off, ip, t, hlook⟩ := hlook
    rw [dirlink_present hlook] at hrun
    simp only [bind_iff, pure_iff] at hrun
    obtain ⟨_, _, hput, rfl, rfl⟩ := hrun
    obtain ⟨-, -, hnone⟩ | ⟨j, v, ip', heq, -, -, hget⟩ := h.dirlookup_inv hlook
    · exact absurd hnone habsent
    · cases heq
      obtain ⟨htook, -⟩ := iget_took h.sound hget
      obtain ⟨s'', hput', hunch⟩ := iget_iput sb hget
      rw [hput] at hput'
      cases hput'
      have hdone := iput_put htook.sound hput
      have helse := hunch.disk.elsewhere h hdone.sound h.held h.held (htook.keeps.trans hdone.keeps)
      exact ⟨helse.directory h, .inl ⟨rfl, habsent, hunch⟩⟩

theorem dirlink_room_absent (h : Directory sb K dp n s) (habsent : s.dir n (cname name) = none)
    (hspace : HasSpace sb dp n s) (inum : Nat) :
    ∃ s', (dirlink sb dp name inum).run s = some (true, s') := by
  have hlen := length_direntBytes inum name
  have hle := vacant_le (s.slots n)
  have hwrite : ∃ s', (writei sb dp (16 * vacant (s.slots n)) (direntBytes inum name)).run s =
      some (some 16, s') := by
    by_cases hend : vacant (s.slots n) = (s.slots n).length
    · obtain hempty | ⟨hfit, hroom⟩ := hspace
      · exact absurd hempty (vacant_eq_length.mp hend)
      · rw [← h.length_slots, ← hend] at hfit hroom
        exact h.store_room hlen hle hfit hroom
    · exact h.restore_room hlen (by omega)
  obtain ⟨s', hwrite⟩ := hwrite
  exact ⟨s', by rw [h.dirlink_absent habsent, bind_of_run hwrite]; rfl⟩

theorem dirlink_room_present (h : Directory sb K dp n s)
    (hpresent : s.dir n (cname name) = some v) (hroom : Cacheable s v) (inum : Nat) :
    ∃ s', (dirlink sb dp name inum).run s = some (false, s') ∧ Unchanging s s' := by
  obtain ⟨r, t, hlook⟩ := h.dirlookup_room name fun w hw => by
    rw [hpresent] at hw
    cases hw
    exact hroom
  obtain ⟨-, -, hnone⟩ | ⟨j, w, ip, rfl, -, -, hget⟩ := h.dirlookup_inv hlook
  · rw [hpresent] at hnone
    cases hnone
  · obtain ⟨s', hput, hunch⟩ := iget_iput sb hget
    exact ⟨s', by rw [dirlink_present hlook, bind_of_run hput]; rfl, hunch⟩

end Directory

end Xv6.Fs
