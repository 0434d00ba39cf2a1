import Xv6.Fs.Contents

/-!
# Writes that fail

`filewrite` cuts a write into chunks of at most `maxChunk` bytes, and each is a transaction of its
own. When `writei` refuses a chunk, `filewrite` returns -1, but what it has written before stays in
the file, and the offset stays behind it. So a write that fails leaves the file alone exactly if it
fails at its first chunk.
-/

namespace Xv6.Fs

open Bytes Partial List

variable {P : Type} [Fintype P] {sb : Superblock} {s s' : State P} {f : Fin NFILE} {ip : Fin NINODE}
  {src : List Byte}

/-- Slot `f` is for the entry `ip` of a regular file, in a state between system calls. -/
structure Writable (sb : Superblock) (f : Fin NFILE) (ip : Fin NINODE) (s : State P) : Prop where
  settled : Settled sb s
  type : (s.file f).type = .inode ip
  regular : (s.dinode (s.inode ip).inum).type = .file

theorem Writable.held (h : Writable sb f ip s) : 0 < s.held ip :=
  Nat.add_pos_right _ (tally_pos (s.ptr_of_type h.type))

/-- What is left to do when `writei` has returned `r`. -/
def State.chunkDone (f : Fin NFILE) (r : Option Nat) (s : State P) : State P :=
  let s := match r with
    | some n => s.setFile f { s.file f with off := ((s.file f).off + n) % 2 ^ 32 }
    | none => s
  { s with sections := s.sections ++ [s.logged] }

section Chunk

variable (h : Writable sb f ip s)

include h

/-- A chunk is written with the inode locked. -/
theorem Writable.chunk_eq (src : List Byte) : ∃ t, Sound sb t s.held ∧ (t.inode ip).valid = true ∧
    (t.inode ip).inum = (s.inode ip).inum ∧ SameDisk s t ∧ t.logged = [] ∧
    t.sections = s.sections ∧ (filewriteChunk sb f ip src).run s =
      ((writei sb ip (s.file f).off src).run t).map fun x => (x.1, x.2.chunkDone f x.1) := by
  have hbegin : beginOp.run s = some ((), { s with logged := [] }) := rfl
  have hq := beginOp_quiet hbegin
  have hsound := h.settled.sound.congr hq.disk hq.inode
  obtain ⟨t, hlock⟩ := ilock_total hsound h.held (by
    show (s.dinode (s.inode ip).inum).type ≠ .free
    rw [h.regular]
    exact IType.noConfusion)
  obtain ⟨ht, hkeeps, hdisk, hv, hinum⟩ := ilock_sound hsound hlock
  have hframe : t.logged = [] ∧ t.sections = s.sections := by
    obtain ⟨-, ⟨-, rfl⟩ | ⟨-, -, rfl⟩⟩ := ilock_inv hlock
    · exact ⟨rfl, rfl⟩
    · exact ⟨rfl, rfl⟩
  refine ⟨t, ht, hv, hinum, hq.disk.trans hdisk, hframe.1, hframe.2, ?_⟩
  rw [filewriteChunk, bind_of_run hbegin, bind_of_run hlock, get_bind, hkeeps.file]
  cases hwrite : (writei sb ip (s.file f).off src).run t with
  | none => rw [StateT.run_bind, hwrite]; rfl
  | some x =>
    obtain ⟨r, u⟩ := x
    rw [bind_of_run hwrite]
    cases r <;> rfl

/-- A chunk is refused, or written as a whole. -/
theorem Writable.chunk {r : Option Nat}
    (hrun : (filewriteChunk sb f ip src).run s = some (r, s')) :
    Writable sb f ip s' ∧ (s'.inode ip).inum = (s.inode ip).inum ∧
      (r = none ∧ Refused (s.dinode (s.inode ip).inum).size (s.file f).off src.length ∧
          SameDisk s s' ∧ (s'.file f).off = (s.file f).off ∨
        r = some src.length ∧
          ¬ Refused (s.dinode (s.inode ip).inum).size (s.file f).off src.length ∧
          (s'.dinode (s.inode ip).inum).size =
            max (s.dinode (s.inode ip).inum).size ((s.file f).off + src.length) ∧
          (s'.file f).off = (s.file f).off + src.length) := by
  obtain ⟨hchunked, hres⟩ := filewriteChunk_chunked h.settled h.type hrun
  have hinum := hchunked.inum ip h.held
  have htype : (s'.file f).type = .inode ip := by
    rw [hchunked.file, Function.update_self]
    exact h.type
  have hoff : (s'.file f).off = offAfter (s.file f).off r := by
    rw [hchunked.file, Function.update_self]
  obtain ⟨hsame, hr⟩ | ⟨rfl, hle, hwrote⟩ := hres
  · obtain rfl : r = none := hr.resolve_right fun hdev => by
      rw [h.regular] at hdev
      cases hdev
    refine ⟨⟨hchunked.settled, htype, ?_⟩, hinum, .inl ⟨rfl, ?_, hsame, hoff⟩⟩
    · rw [hinum, hsame.dinode]
      exact h.regular
    · by_contra hok
      obtain ⟨t, ht, hv, hnum, hdisk, -, -, heq⟩ := h.chunk_eq src
      have hdin := ht.din_eq h.held hv
      rw [hnum, hdisk.dinode] at hdin
      rw [heq, Option.map_eq_some_iff] at hrun
      obtain ⟨⟨r, u⟩, hwrite, heq⟩ := hrun
      cases heq
      rw [← hdin] at hok
      cases writei_ne_none (by rw [hdin, h.regular]; exact IType.noConfusion) hok hwrite
  · have hregular : (s'.dinode (s.inode ip).inum).type = .file := hwrote.type.trans h.regular
    have hmax := (hchunked.settled.sound.sized _ (by rw [hregular]; exact IType.noConfusion)).1
    have hsize := hwrote.size
    simp only [MAXFILE, BSIZE] at hmax
    refine ⟨⟨hchunked.settled, htype, by rwa [hinum]⟩, hinum, .inr ⟨rfl, ?_, hsize, ?_⟩⟩
    · simp only [Refused, MAXFILE, BSIZE]
      omega
    · rw [hoff, offAfter, Nat.mod_eq_of_lt (by omega)]

/-- With room for a chunk, it is refused or written. -/
theorem Writable.chunk_total (src : List Byte) (hoff : (s.file f).off < 2 ^ 32)
    (hlen : src.length ≤ maxChunk) (hroom : 15 ≤ s.free sb) :
    ∃ r s', (filewriteChunk sb f ip src).run s = some (r, s') ∧
      s.free sb ≤ s'.free sb + 15 := by
  obtain ⟨t, ht, hv, hnum, hdisk, -, -, heq⟩ := h.chunk_eq src
  have hdin := ht.din_eq h.held hv
  rw [hnum, hdisk.dinode] at hdin
  have hfree : t.free sb = s.free sb := by
    unfold State.free
    rw [hdisk.bitmap]
  have hdev : (t.inode ip).din.type ≠ .dev := by
    rw [hdin, h.regular]
    exact IType.noConfusion
  have hmax : maxChunk = 6656 := rfl
  rw [heq]
  by_cases hok : Refused (t.inode ip).din.size (s.file f).off src.length
  · rw [writei_refused hdev hoff (by omega) hok]
    exact ⟨_, _, rfl, hfree.ge.trans (Nat.le_add_right _ _)⟩
  · have hmiss : t.missing ip (blocks (s.file f).off src.length) ≤ 15 := by
      refine (missing_le _).trans ?_
      rw [blocks, length_range']
      unfold touched
      simp only [BSIZE]
      split <;> omega
    obtain ⟨u, hwrite, hleft⟩ := writei_room ht h.held hv hdev hok (by omega)
    rw [hwrite]
    refine ⟨_, _, rfl, ?_⟩
    show s.free sb ≤ u.free sb + 15
    omega

end Chunk

/-! ## The loop -/

section Loop

variable {fuel : Nat} {done : Bool}

/-- The loop only moves on. If it comes to the end of the bytes, these lie in the file. -/
theorem Writable.loop (h : Writable sb f ip s) (hfuel : src.length ≤ fuel)
    (hrun : (filewriteLoop sb f ip fuel src).run s = some (done, s')) :
    (s.file f).off ≤ (s'.file f).off ∧
      (s.dinode (s.inode ip).inum).size ≤ (s'.dinode (s.inode ip).inum).size ∧
      (done = true → src ≠ [] → (s.file f).off + src.length ≤ MAXFILE * BSIZE) := by
  induction fuel generalizing s src with
  | zero =>
    obtain ⟨-, rfl⟩ := pure_iff.mp hrun
    exact ⟨le_rfl, le_rfl, fun _ hsrc => absurd (length_eq_zero_iff.mp (by omega)) hsrc⟩
  | succ fuel ih =>
    rw [filewriteLoop] at hrun
    split at hrun
    · next hsrc =>
      obtain ⟨-, rfl⟩ := pure_iff.mp hrun
      exact ⟨le_rfl, le_rfl, fun _ hne => absurd hsrc hne⟩
    · next hsrc =>
      rw [bind_iff] at hrun
      obtain ⟨r, t, hchunk, hrun⟩ := hrun
      obtain ⟨ht, hinum, ⟨rfl, -, hsame, hoff⟩ | ⟨rfl, hok, hsize, hoff⟩⟩ := h.chunk hchunk
      · obtain ⟨rfl, rfl⟩ := pure_iff.mp hrun
        exact ⟨hoff.ge, by rw [hsame.dinode], fun hdone => by cases hdone⟩
      · dsimp only at hrun
        rw [if_pos rfl] at hrun
        have hmax : maxChunk = 6656 := rfl
        have hpos : 0 < src.length := length_pos_iff.mpr hsrc
        obtain ⟨hle, hle', hall⟩ := ih ht (by rw [length_drop]; omega) hrun
        rw [length_take] at hoff hsize hok
        rw [hinum] at hle'
        refine ⟨by omega, by omega, fun hdone _ => ?_⟩
        have hrest := hall hdone
        rw [length_drop] at hrest
        simp only [Refused, MAXFILE, BSIZE] at hok hrest ⊢
        by_cases hlast : src.drop maxChunk = []
        · have := drop_eq_nil_iff.mp hlast
          omega
        · have := hrest hlast
          omega

/-- With room for all its chunks, the loop comes to its end. -/
theorem Writable.loop_total (h : Writable sb f ip s) (fuel : Nat) (src : List Byte)
    (hoff : (s.file f).off < 2 ^ 32) (hroom : 15 * (src.length / maxChunk + 1) ≤ s.free sb) :
    ∃ done s', (filewriteLoop sb f ip fuel src).run s = some (done, s') := by
  induction fuel generalizing s src with
  | zero => exact ⟨_, _, rfl⟩
  | succ fuel ih =>
    rw [filewriteLoop]
    split
    · exact ⟨_, _, rfl⟩
    · next hsrc =>
      have hmax : maxChunk = 6656 := rfl
      rw [hmax] at hroom
      obtain ⟨r, t, hchunk, hfree⟩ := h.chunk_total (src.take maxChunk) hoff
        (length_take_le _ _) (by omega)
      rw [bind_of_run hchunk]
      obtain ⟨ht, -, ⟨rfl, -⟩ | ⟨rfl, hok, -, hoff'⟩⟩ := h.chunk hchunk
      · exact ⟨_, _, rfl⟩
      · dsimp only
        rw [if_pos rfl]
        rw [length_take] at hok hoff'
        simp only [Refused, MAXFILE, BSIZE] at hok
        by_cases hlast : src.drop maxChunk = []
        · rw [hlast]
          cases fuel <;> exact ⟨_, _, rfl⟩
        · have := mt drop_eq_nil_iff.mpr hlast
          refine ih ht _ (by omega) ?_
          rw [length_drop, hmax]
          omega

/-- Once the first of several chunks is written, the offset and the file are other ones. -/
theorem Writable.advance (h : Writable sb f ip s) (hlong : maxChunk < src.length)
    (hok : ¬ Refused (s.dinode (s.inode ip).inum).size (s.file f).off maxChunk)
    (hrun : (filewriteLoop sb f ip src.length src).run s = some (done, s')) :
    (s.file f).off + maxChunk ≤ (s'.file f).off ∧
      (s.file f).off + maxChunk ≤ (s'.dinode (s.inode ip).inum).size := by
  have hmax : maxChunk = 6656 := rfl
  have htake : (src.take maxChunk).length = maxChunk := length_take_of_le hlong.le
  obtain ⟨fuel, hfuel⟩ : ∃ fuel, src.length = fuel + 1 := ⟨src.length - 1, by omega⟩
  rw [hfuel, filewriteLoop, if_neg (by rintro rfl; exact absurd hfuel (by simp)),
    bind_iff] at hrun
  obtain ⟨r, t, hchunk, hrun⟩ := hrun
  obtain ⟨ht, hinum, ⟨-, hrefused, -⟩ | ⟨rfl, -, hsize, hoff⟩⟩ := h.chunk hchunk
  · rw [htake] at hrefused
    exact absurd hrefused hok
  · dsimp only at hrun
    rw [if_pos rfl] at hrun
    obtain ⟨hle, hle', -⟩ := ht.loop (by rw [length_drop]; omega) hrun
    rw [htake] at hsize hoff
    rw [hinum] at hle'
    omega

end Loop

/-- **A write that fails leaves the file alone exactly if it fails at its first chunk**: the slot is
not for writing, or the bytes are one chunk, or `writei` refuses the first. -/
theorem failed_write_leaves_file_iff (h : Writable sb f ip s)
    (hrun : (filewrite sb f src).run s = some (-1, s')) :
    ((s'.dinode (s.inode ip).inum).size = (s.dinode (s.inode ip).inum).size ∧
        s'.contents (s.inode ip).inum = s.contents (s.inode ip).inum ∧
        (s'.file f).off = (s.file f).off) ↔
      (s.file f).writable = false ∨ src.length ≤ maxChunk ∨
        Refused (s.dinode (s.inode ip).inum).size (s.file f).off maxChunk := by
  simp only [filewrite, get_bind] at hrun
  split at hrun
  · next hw =>
    obtain ⟨-, rfl⟩ := pure_iff.mp hrun
    exact iff_of_true ⟨rfl, rfl, rfl⟩ (.inl hw)
  · next hw =>
    rw [h.type] at hrun
    simp only [bind_iff] at hrun
    obtain ⟨done, t, hloop, hrun⟩ := hrun
    cases done with
    | true => cases (pure_iff.mp hrun).1
    | false =>
      obtain ⟨-, rfl⟩ := pure_iff.mp hrun
      constructor
      · rintro ⟨-, -, hoff⟩
        refine .inr (or_iff_not_imp_left.mpr fun hlong => ?_)
        by_contra hok
        have hadvance := (h.advance (Nat.not_le.mp hlong) hok hloop).1
        have hmax : maxChunk = 6656 := rfl
        omega
      · intro hfirst
        -- the loop has stopped at the first chunk
        cases hlen : src.length with
        | zero =>
          rw [hlen] at hloop
          cases (pure_iff.mp hloop).1
        | succ fuel =>
          rw [hlen, filewriteLoop, if_neg (by rintro rfl; cases hlen), bind_iff] at hloop
          obtain ⟨r, u, hchunk, hloop⟩ := hloop
          obtain ⟨-, -, ⟨rfl, -, hsame, hoff⟩ | ⟨rfl, hok, -⟩⟩ := h.chunk hchunk
          · obtain ⟨-, rfl⟩ := pure_iff.mp hloop
            exact ⟨by rw [hsame.dinode], contents_congr (by rw [hsame.dinode]) fun p _ => by
              unfold fbyte; rw [hsame.dinode, hsame.data], hoff⟩
          · dsimp only at hloop
            rw [if_pos rfl] at hloop
            obtain hshort | hrefused := hfirst.resolve_left hw
            · rw [drop_eq_nil_iff.mpr hshort] at hloop
              cases fuel <;> cases (pure_iff.mp hloop).1
            · rw [length_take, Nat.min_def] at hok
              split at hok
              · exact absurd hrefused hok
              · rw [drop_eq_nil_iff.mpr (by omega)] at hloop
                cases fuel <;> cases (pure_iff.mp hloop).1

/-- The offset is beyond the end of the file. -/
theorem write_beyond_end_left_alone : ∃ s ∈ opened, ∃ s',
    (filewrite .mkfs 0 [1]).run (s.setFile 0 { s.file 0 with off := 1 }) = some (-1, s') ∧
      (s'.file 0).off = 1 := by
  have hfacts : ∃ s ∈ opened, ∃ ip, (s.file 0).type = .inode ip ∧
      (s.dinode (s.inode ip).inum).type = .file ∧ (s.dinode (s.inode ip).inum).size = 0 ∧
      ∃ x ∈ (filewrite .mkfs 0 [1]).run (s.setFile 0 { s.file 0 with off := 1 }), x.1 = -1 := by
    decide +kernel
  obtain ⟨s, hs, ip, htype, hregular, hsize, ⟨r, s'⟩, hrun, rfl⟩ := hfacts
  have hsettled := run_settled mkfs_consistent hs
  have hset : Chunked .mkfs 0 1 s (s.setFile 0 { s.file 0 with off := 1 }) :=
    .ofKeeps hsettled hsettled.sound (.refl _ s) ⟨⟨rfl, rfl, rfl⟩, rfl, rfl, rfl, rfl, rfl⟩
  have h : Writable .mkfs 0 ip (s.setFile 0 { s.file 0 with off := 1 }) :=
    ⟨hset.settled, htype, hregular⟩
  refine ⟨s, hs, s', hrun, ((failed_write_leaves_file_iff h hrun).mpr (.inr (.inr ?_))).2.2⟩
  exact .inl (hsize.trans_lt Nat.one_pos)

/-- One byte more than a file can have is written to a new file: the write fails, and the file has
got all chunks but the last. -/
theorem failed_write_leaves_chunks : ∃ s ∈ opened, ∃ s',
    (filewrite .mkfs 0 (List.replicate (MAXFILE * BSIZE + 1) 1)).run s = some (-1, s') ∧
      (s.file 0).off = 0 ∧ maxChunk ≤ (s'.file 0).off ∧
      ∃ n, (s.dinode n).size = 0 ∧ maxChunk ≤ (s'.dinode n).size := by
  have hfacts : ∃ s ∈ opened, ∃ ip, (s.file 0).type = .inode ip ∧
      (s.dinode (s.inode ip).inum).type = .file ∧ (s.file 0).writable = true ∧
      (s.file 0).off = 0 ∧ (s.dinode (s.inode ip).inum).size = 0 ∧ 165 ≤ s.free .mkfs := by
    decide +kernel
  obtain ⟨s, hs, ip, htype, hregular, hw, hoff, hsize, hroom⟩ := hfacts
  have h : Writable .mkfs 0 ip s := ⟨run_settled mkfs_consistent hs, htype, hregular⟩
  have hmax : maxChunk = 6656 := rfl
  have hlen : (List.replicate (MAXFILE * BSIZE + 1) (1 : Byte)).length = 71681 :=
    length_replicate
  generalize List.replicate (MAXFILE * BSIZE + 1) (1 : Byte) = src at hlen
  obtain ⟨done, s', hloop⟩ := h.loop_total src.length src (by omega)
    (by rw [hlen, hmax]; exact hroom)
  have hfail : done = false := by
    cases done with
    | false => rfl
    | true =>
      have hall := (h.loop le_rfl hloop).2.2 rfl (by rintro rfl; cases hlen)
      simp only [MAXFILE, BSIZE] at hall
      omega
  have hok : ¬ Refused (s.dinode (s.inode ip).inum).size (s.file 0).off maxChunk := by
    rw [hsize, hoff]
    unfold Refused
    decide
  obtain ⟨hadvance, hgrown⟩ := h.advance (by omega) hok hloop
  refine ⟨s, hs, s', ?_, hoff, by omega, _, hsize, by omega⟩
  rw [filewrite, get_bind, hw, htype]
  simp only [Bool.true_eq_false, if_false]
  rw [bind_of_run hloop, hfail]
  rfl

end Xv6.Fs
