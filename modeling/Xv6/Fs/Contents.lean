import Mathlib.Algebra.GroupWithZero.Nat
import Xv6.Fs.Chunk
import Xv6.Fs.Ownership

/-!
# A file is an array of bytes

The bytes of an inode are one list, its contents. `readi` returns a part of this list, and `writei`
puts a list in the place of a part of it, through whichever blocks the bytes lie in. Both work with
`uint`s, and refuse offsets and lengths whose sum wraps around.
-/

namespace Xv6.Fs

open Bytes Partial List

variable {P : Type} {sb : Superblock} {s s' : State P} {K : Refs} {i : Fin NINODE} {n off : Nat}
  {src : List Byte}

/-- The list with `src` in the place of what is at `off`; it grows at the end if need be. -/
def overwrite (l : List Byte) (off : Nat) (src : List Byte) : List Byte :=
  l.take off ++ src ++ l.drop (off + src.length)

theorem contents_congr (hdinode : s'.dinode n = s.dinode n)
    (hbytes : ∀ p < (s.dinode n).size, fbyte s' n p = fbyte s n p) :
    s'.contents n = s.contents n := by
  unfold State.contents
  rw [hdinode]
  exact map_congr_left fun p hp => hbytes p (mem_range.mp hp)

theorem Wrote.contents (h : Wrote n off src s s') (hoff : off ≤ (s.dinode n).size) :
    s'.contents n = overwrite (s.contents n) off src := by
  have hsize := h.size
  have hlen := s.length_contents n
  have htake : ((s.contents n).take off).length = off := by
    rw [length_take, hlen]
    omega
  refine ext_getElem ?_ fun p hp hp' => ?_
  · rw [s'.length_contents, overwrite, length_append, length_append, htake,
      length_drop, hlen]
    omega
  · have hlt : p < (s'.dinode n).size := by rwa [s'.length_contents] at hp
    have hbyte : (s'.contents n)[p] = fbyte s' n p := by simp [State.contents]
    have hold : ∀ q, (hq : q < (s.contents n).length) → (s.contents n)[q] = fbyte s n q := by
      intro q hq
      simp [State.contents]
    rw [hbyte, h.bytes p hlt]
    unfold overwrite at hp' ⊢
    by_cases hbefore : p < off
    · rw [if_neg (by omega), getElem_append_left (by rw [length_append, htake]; omega),
        getElem_append_left (by rw [htake]; exact hbefore), getElem_take, hold]
    · by_cases hin : p < off + src.length
      · rw [if_pos ⟨Nat.not_lt.mp hbefore, hin⟩,
          getElem_append_left (by rw [length_append, htake]; exact hin),
          getElem_append_right (by rw [htake]; exact Nat.not_lt.mp hbefore),
          getD_eq_getElem _ _ (by omega)]
        simp only [htake]
      · rw [if_neg (by omega), getElem_append_right (by rw [length_append, htake]; omega),
          getElem_drop, hold]
        congr 1
        rw [length_append, htake]
        omega

/-! ## Reading -/

/-- `readi` of inode table entry `i` reads the contents of the inode. -/
def Reads (sb : Superblock) (i : Fin NINODE) (s : State P) : Prop :=
  ∀ off n, off < 2 ^ 32 → n < 2 ^ 32 → (readi sb i off n).run s =
    some (if (s.dinode (s.inode i).inum).size < off ∨ 2 ^ 32 ≤ off + n then none
      else some (((s.contents (s.inode i).inum).drop off).take n), s)

theorem Sound.reads (h : Sound sb s K) (hi : 0 < K i) (hv : (s.inode i).valid = true) :
    Reads sb i s := by
  intro off n hoff hn
  have hlen := s.length_contents (s.inode i).inum
  rw [← h.din_eq hi hv] at hlen ⊢
  by_cases hrefuse : (s.inode i).din.size < off ∨ 2 ^ 32 ≤ off + n
  · rw [if_pos hrefuse]
    exact readi_none (hrefuse.imp_right fun hwrap => by omega)
  · rw [if_neg hrefuse]
    exact readi_run (h.stores hi hv) (by omega) (by omega) (by omega) (by omega)

/-! ## Writing -/

/-- When `writei` of `n` bytes at `off` returns -1. -/
def Refused (size off n : Nat) : Prop :=
  size < off ∨ 2 ^ 32 ≤ off + n ∨ MAXFILE * BSIZE < off + n

theorem writei_refused (hdev : (s.inode i).din.type ≠ .dev) (hoff : off < 2 ^ 32)
    (hlen : src.length < 2 ^ 32) (h : Refused (s.inode i).din.size off src.length) :
    (writei sb i off src).run s = some (none, s) := by
  rw [writei, get_bind]
  dsimp only
  rw [if_neg hdev]
  by_cases hfirst : (s.inode i).din.size < off ∨ (off + src.length) % 2 ^ 32 < off
  · rw [if_pos hfirst]
    rfl
  · have hbig : MAXFILE * BSIZE < (off + src.length) % 2 ^ 32 := by
      unfold Refused at h
      omega
    rw [if_neg hfirst, if_pos hbig]
    rfl

theorem writei_accepted (hdev : (s.inode i).din.type ≠ .dev)
    (h : ¬ Refused (s.inode i).din.size off src.length) :
    (writei sb i off src).run s = (do
      writeiLoop sb i src.length off src
      if 0 < src.length ∧ (s.inode i).din.size < off + src.length then
        modify fun s => s.setDin i { (s.inode i).din with size := off + src.length }
        iupdate sb i
      return some src.length : M P (Option Nat)).run s := by
  unfold Refused at h
  rw [writei, get_bind]
  dsimp only
  rw [Nat.mod_eq_of_lt (by omega), if_neg hdev, if_neg (by omega), if_neg (by omega)]

theorem writei_ne_none {t : State P} {r : Option Nat} (hdev : (s.inode i).din.type ≠ .dev)
    (h : ¬ Refused (s.inode i).din.size off src.length)
    (hrun : (writei sb i off src).run s = some (r, t)) : r = some src.length := by
  rw [writei_accepted hdev h] at hrun
  simp only [bind_iff] at hrun
  obtain ⟨_, _, -, hrun⟩ := hrun
  split at hrun
  · simp only [bind_iff, pure_iff] at hrun
    obtain ⟨_, _, -, _, _, -, rfl, -⟩ := hrun
    rfl
  · exact (pure_iff.mp hrun).1.symm

/-- With room on the disk, a write that is not refused takes the blocks it misses and comes to its
end. -/
theorem writei_room (h : Sound sb s K) (hi : 0 < K i) (hv : (s.inode i).valid = true)
    (hdev : (s.inode i).din.type ≠ .dev) (hok : ¬ Refused (s.inode i).din.size off src.length)
    (hroom : s.missing i (blocks off src.length) ≤ s.free sb) :
    ∃ s', (writei sb i off src).run s = some (some src.length, s') ∧
      s'.free sb + s.missing i (blocks off src.length) = s.free sb := by
  have hmax : off + src.length ≤ MAXFILE * BSIZE := by
    unfold Refused at hok
    omega
  obtain ⟨t, ht, hfree⟩ :=
    writeiLoop_room (h.own_at hi hv) (h.type_ne_free hi hv) hmax le_rfl hroom
  rw [writei_accepted hdev hok, bind_of_run ht]
  split
  · exact ⟨_, rfl, hfree⟩
  · exact ⟨_, rfl, hfree⟩

theorem Sound.missing_eq_zero (h : Sound sb s K) (hi : 0 < K i) (hv : (s.inode i).valid = true)
    {m : Nat} (hend : off + m ≤ (s.inode i).din.size) : s.missing i (blocks off m) = 0 := by
  have htype := h.type_ne_free hi hv
  have hfill : ∀ bn ∈ blocks off m, s.addr i ((s.inode i).inum, .block bn) ≠ 0 := by
    intro bn hbn
    obtain ⟨p, -, hp, rfl⟩ := exists_byte hbn
    exact (h.sized_at hi hv).2 p (by omega)
  have hcount : (blocks off m).countP
      (fun bn => s.addr i ((s.inode i).inum, .block bn) = 0) = 0 := by
    rw [countP_eq_zero]
    intro bn hbn
    simpa using hfill bn hbn
  rw [State.missing, hcount, if_neg]
  rintro ⟨⟨bn, hbn, hge⟩, h0⟩
  exact hfill bn hbn (addr_block_eq_zero htype hge h0)

/-- **A file is an array of bytes.** `writei` returns -1, and changes nothing, exactly when the
offset is beyond the end, the sum of offset and length wraps around, or the file would get too
large. Otherwise, if the blocks that the write misses are free, it puts the bytes in their place and
leaves the other inodes as they are. `readi` reads the contents, before the write and after it.

A section that starts with an empty log has logged no more blocks than `Superblock.cost`. -/
theorem file_is_byte_array (h : Sound sb s K) (hi : 0 < K i) (hv : (s.inode i).valid = true)
    (hfile : (s.inode i).din.type = .file) (hoff : off < 2 ^ 32) (hlen : src.length < 2 ^ 32)
    (hn : (s.inode i).inum = n) :
    ((writei sb i off src).run s = some (none, s) ↔
      Refused (s.dinode n).size off src.length) ∧
    (¬ Refused (s.dinode n).size off src.length →
      s.missing i (blocks off src.length) ≤ s.free sb →
      ∃ s', (writei sb i off src).run s = some (some src.length, s') ∧ Sound sb s' K ∧
        (s'.dinode n).size = max (s.dinode n).size (off + src.length) ∧
        s'.contents n = overwrite (s.contents n) off src ∧
        (∀ m, m ≠ n → s'.dinode m = s.dinode m ∧
          ((s.dinode m).type ≠ .free → s'.contents m = s.contents m)) ∧
        Reads sb i s' ∧
        (s.logged = [] → s'.logged.toFinset.card ≤ sb.cost (touched off src.length))) ∧
    Reads sb i s := by
  have hdev : (s.inode i).din.type ≠ .dev := by
    rw [hfile]
    exact IType.noConfusion
  have hdin := h.din_eq hi hv
  rw [hn] at hdin
  rw [← hdin]
  refine ⟨⟨fun hrun => ?_, writei_refused hdev hoff hlen⟩, fun hok hroom => ?_, h.reads hi hv⟩
  · by_contra hok
    cases writei_ne_none hdev hok hrun
  · obtain ⟨s', hrun, -⟩ := writei_room h hi hv hdev hok hroom
    obtain ⟨hsound, hkeeps, ⟨-, hnone | htype⟩ | ⟨-, hle, hwrote⟩⟩ := writei_sound h hi hv hrun
    · cases hnone
    · exact absurd htype hdev
    · rw [hn] at hwrote
      rw [hdin] at hle
      refine ⟨s', hrun, hsound, ?_, hwrote.contents hle, fun m hm => ⟨hwrote.dinode m hm, fun hfree =>
        contents_congr (hwrote.dinode m hm) (hwrote.others m hm hfree)⟩,
        hsound.reads hi (hkeeps.valid i hi hv),
        writei_card_logged (h.own_at hi hv) (h.type_ne_free hi hv) hrun⟩
      rw [hdin]
      exact hwrote.size

/-- Writing to a file that has just been created. -/
theorem opened_is_byte_array : ∃ s ∈ opened, ∃ i s',
    (writei .mkfs i 0 [1, 2, 3]).run s = some (some 3, s') ∧
      s'.contents (s.inode i).inum = [1, 2, 3] := by
  have hfacts : ∃ s ∈ opened, ∃ i, 0 < s.held i ∧ (s.inode i).valid = true ∧
      (s.inode i).din.type = .file ∧ s.contents (s.inode i).inum = [] ∧
      s.missing i (blocks 0 3) ≤ s.free .mkfs := by decide +kernel
  obtain ⟨s, hs, i, hi, hv, hfile, hempty, hroom⟩ := hfacts
  have hsize : (s.dinode (s.inode i).inum).size = 0 := by
    rw [← s.length_contents, hempty]
    rfl
  have hok : ¬ Refused (s.dinode (s.inode i).inum).size 0 [(1 : Byte), 2, 3].length := by
    rw [hsize]
    unfold Refused
    decide
  have hlen : [(1 : Byte), 2, 3].length < 2 ^ 32 := by decide
  obtain ⟨s', hrun, -, -, hcontents, -⟩ := (file_is_byte_array
    (run_settled mkfs_consistent hs).sound hi hv hfile (Nat.two_pow_pos 32) hlen rfl).2.1 hok hroom
  refine ⟨s, hs, i, s', hrun, ?_⟩
  rw [hcontents, hempty]
  rfl

/-- `readi` at offset 1 of a file of 3 bytes returns -1 when it is to read 2³² - 1 bytes. -/
theorem readi_wraps : ∃ s ∈ opened, ∃ i, 0 < s.held i ∧ (s.inode i).valid = true ∧
    (s.inode i).din.type = .file ∧ ∃ x ∈ (writei .mkfs i 0 [1, 2, 3]).run s,
      x.1 = some 3 ∧ x.2.contents (x.2.inode i).inum = [1, 2, 3] ∧
        ((readi .mkfs i 1 (2 ^ 32 - 1)).run x.2).map Prod.fst = some none := by
  decide +kernel

end Xv6.Fs
