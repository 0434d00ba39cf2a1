import Xv6.Fs.Ownership

/-!
# Writers that share an open file

Several calls of `filewrite` on one slot of the file table, whose sections take turns in any order.
The offset is in the slot, so that each section goes on where the last one of any call ended.
-/

namespace Xv6.Fs

open Bytes Partial List Transition

variable {P K : Type} [DecidableEq K]

/-- The file system, and what each call has still to write. -/
structure Writers (P K : Type) where
  fs : State P
  rest : K → List Byte

/-- One round of the loop of `filewrite` for the call `k`, that does not fail. -/
def Writers.step (sb : Superblock) (f : Fin NFILE) (w : Writers P K) (k : K) :
    Option (Writers P K) :=
  match (w.fs.file f).type with
  | .inode ip =>
    if w.rest k = [] then none
    else
      match (filewriteChunk sb f ip ((w.rest k).take maxChunk)).run w.fs with
      | some (some n, fs) =>
        if n = ((w.rest k).take maxChunk).length then
          some ⟨fs, Function.update w.rest k ((w.rest k).drop maxChunk)⟩
        else none
      | _ => none
  | .pipe _ | .none => none

/-- The chunks in the order in which they were written, with the call that wrote each. -/
def Writers.log (h : List (K × List Byte)) (w : Writers P K) (k : K) : List (K × List Byte) :=
  h ++ [(k, (w.rest k).take maxChunk)]

def bytesOf (h : List (K × List Byte)) : List Byte := (h.map Prod.snd).flatten

/-- The chunks of one call. -/
def chunksOf (k : K) (h : List (K × List Byte)) : List (K × List Byte) := h.filter (·.1 = k)

theorem step_inv {sb : Superblock} {f : Fin NFILE} {w w' : Writers P K} {k : K}
    (hstep : w.step sb f k = some w') : ∃ ip n, (w.fs.file f).type = .inode ip ∧
      (filewriteChunk sb f ip ((w.rest k).take maxChunk)).run w.fs = some (some n, w'.fs) ∧
      w'.rest = Function.update w.rest k ((w.rest k).drop maxChunk) := by
  unfold Writers.step at hstep
  split at hstep
  case h_1 ip hip =>
    split at hstep
    · cases hstep
    · split at hstep
      case h_1 n fs hrun =>
        split at hstep <;> cases hstep
        exact ⟨ip, n, hip, hrun, rfl⟩
      case h_2 => cases hstep
  all_goals cases hstep

omit [DecidableEq K] in
theorem bytesOf_log (h : List (K × List Byte)) (w : Writers P K) (k : K) :
    bytesOf (w.log h k) = bytesOf h ++ (w.rest k).take maxChunk := by
  simp [bytesOf, Writers.log]

theorem chunksOf_log (h : List (K × List Byte)) (w : Writers P K) (k j : K) :
    bytesOf (chunksOf j (w.log h k)) =
      bytesOf (chunksOf j h) ++ if k = j then (w.rest k).take maxChunk else [] := by
  by_cases hkj : k = j <;> simp [bytesOf, chunksOf, Writers.log, hkj]

section Wrote

variable {n off : Nat} {a b : List Byte} {s t u : State P}

/-- Writing on from where a write has ended is one longer write. -/
theorem Wrote.append (h : Wrote n off a s t) (h' : Wrote n (off + a.length) b t u) :
    Wrote n off (a ++ b) s u where
  type := h'.type.trans h.type
  nlink := h'.nlink.trans h.nlink
  size := by
    rw [h'.size, h.size, length_append]
    omega
  bytes p hp := by
    rw [h'.bytes p hp, length_append]
    by_cases hb : off + a.length ≤ p ∧ p < off + a.length + b.length
    · rw [if_pos hb, if_pos (by omega), getD_append_right _ _ _ _ (by omega)]
      congr 1
      omega
    · rw [if_neg hb]
      have hpt : p < (t.dinode n).size := by
        rw [h'.size] at hp
        rw [h.size] at hp ⊢
        omega
      rw [h.bytes p hpt]
      by_cases ha : off ≤ p ∧ p < off + a.length
      · rw [if_pos ha, if_pos (by omega), getD_append _ _ _ _ (by omega)]
      · rw [if_neg ha, if_neg (by omega)]
  dinode m hm := (h'.dinode m hm).trans (h.dinode m hm)
  others m hm htype p hp := by
    have hdin := h.dinode m hm
    rw [h'.others m hm (hdin ▸ htype) p (hdin ▸ hp), h.others m hm htype p hp]

end Wrote

section Merged

variable [Fintype P] {sb : Superblock} {f : Fin NFILE} {ip : Fin NINODE} {s : State P}
  {src : K → List Byte} {w w' : Writers P K} {h : List (K × List Byte)} {k : K}

/-- The chunks written so far are one write to the file, and each call has written its own. -/
structure Merged (sb : Superblock) (f : Fin NFILE) (ip : Fin NINODE) (s : State P)
    (src : K → List Byte) (w : Writers P K) (h : List (K × List Byte)) : Prop where
  settled : Settled sb w.fs
  type : (w.fs.file f).type = .inode ip
  inum : (w.fs.inode ip).inum = (s.inode ip).inum
  regular : (w.fs.dinode (s.inode ip).inum).type = .file
  off : (w.fs.file f).off = (s.file f).off + (bytesOf h).length
  wrote : h = [] ∧ w.fs = s ∨ (s.file f).off ≤ (s.dinode (s.inode ip).inum).size ∧
    Wrote (s.inode ip).inum (s.file f).off (bytesOf h) s w.fs
  calls : ∀ k, bytesOf (chunksOf k h) ++ w.rest k = src k

theorem Merged.step (hm : Merged sb f ip s src w h) (hstep : w.step sb f k = some w') :
    Merged sb f ip s src w' (w.log h k) := by
  obtain ⟨ip', n, hip, hrun, hrest⟩ := step_inv hstep
  obtain rfl : ip = ip' := FileType.inode.inj (hm.type.symm.trans hip)
  obtain ⟨hchunked, hres⟩ := filewriteChunk_chunked hm.settled hm.type hrun
  rw [hm.inum] at hres
  obtain ⟨hr, hle, hwrote⟩ := hres.resolve_left fun hdev => by
    rcases hdev.2 with hnone | hdev
    · cases hnone
    · rw [hm.regular] at hdev
      cases hdev
  cases hr
  have hregular : (w'.fs.dinode (s.inode ip).inum).type = .file := hwrote.type.trans hm.regular
  have hinum : (w'.fs.inode ip).inum = (s.inode ip).inum := by
    rw [← hm.inum]
    exact hchunked.inum ip (Nat.add_pos_right _ (tally_pos (w.fs.ptr_of_type hm.type)))
  -- all that is written lies in a file, so the offset does not wrap
  have hlt : (w.fs.file f).off + ((w.rest k).take maxChunk).length < 2 ^ 32 := by
    have hmax := (hchunked.settled.sound.sized (s.inode ip).inum (by rw [hregular]; decide)).1
    rw [hwrote.size] at hmax
    simp only [MAXFILE, BSIZE] at hmax
    omega
  have hoff : (w'.fs.file f).off = (w.fs.file f).off + ((w.rest k).take maxChunk).length := by
    rw [hchunked.file, Function.update_self]
    exact Nat.mod_eq_of_lt hlt
  refine ⟨hchunked.settled, ?_, hinum, hregular, ?_, .inr ?_, fun j => ?_⟩
  · rw [hchunked.file, Function.update_self]
    exact hm.type
  · rw [hoff, hm.off, bytesOf_log, length_append, Nat.add_assoc]
  · rw [bytesOf_log]
    obtain ⟨rfl, hsame⟩ | ⟨hstart, hbefore⟩ := hm.wrote
    · rw [hsame] at hle hwrote
      exact ⟨hle, hwrote⟩
    · rw [hm.off] at hwrote
      exact ⟨hstart, hbefore.append hwrote⟩
  · rw [chunksOf_log, hrest, ← hm.calls j]
    by_cases hkj : k = j
    · subst hkj
      rw [if_pos rfl, Function.update_self, append_assoc, take_append_drop]
    · rw [if_neg hkj, Function.update_of_ne (Ne.symm hkj), append_nil]

/-- A call that is left alone is the loop of `filewrite`. -/
theorem filewriteLoop_is_steps {fuel : Nat} {src : List Byte} {s' : State P}
    (hs : Settled sb s) (htype : (s.file f).type = .inode ip) (hfuel : src.length ≤ fuel)
    (hrun : (filewriteLoop sb f ip fuel src).run s = some (true, s')) :
    ∃ m, run (Writers.step sb f) ⟨s, fun _ : Unit => src⟩ (List.replicate m ()) =
      some ⟨s', fun _ => []⟩ := by
  induction fuel generalizing s src with
  | zero =>
    obtain rfl : src = [] := length_eq_zero_iff.mp (Nat.le_zero.mp hfuel)
    obtain ⟨-, rfl⟩ := pure_iff.mp hrun
    exact ⟨0, rfl⟩
  | succ fuel ih =>
    rw [filewriteLoop] at hrun
    split at hrun
    · next hsrc =>
      obtain ⟨-, rfl⟩ := pure_iff.mp hrun
      exact ⟨0, by rw [hsrc]; rfl⟩
    · next hsrc =>
      rw [bind_iff] at hrun
      obtain ⟨r, t, hchunk, hrun⟩ := hrun
      obtain ⟨hchunked, -⟩ := filewriteChunk_chunked hs htype hchunk
      split at hrun
      · cases pure_iff.mp hrun |>.1
      · next n =>
        split at hrun
        · next hn =>
          have htype' : (t.file f).type = .inode ip := by
            rw [hchunked.file, Function.update_self]
            exact htype
          have hpos : 0 < src.length := length_pos_iff.mpr hsrc
          have hmax : 0 < maxChunk := by decide
          obtain ⟨m, hm⟩ := ih hchunked.settled htype' (by rw [length_drop]; omega) hrun
          refine ⟨m + 1, ?_⟩
          rw [replicate_succ, run_cons_iff]
          refine ⟨⟨t, fun _ => src.drop maxChunk⟩, ?_, hm⟩
          unfold Writers.step
          simp only [htype, hsrc, hchunk, if_false]
          rw [if_pos hn]
          congr 2
        · cases hrun

/-- The chunks of a run in the order in which they were written. -/
def Writers.chunks (sb : Superblock) (f : Fin NFILE) (w : Writers P K) (ks : List K) :
    List (K × List Byte) :=
  track (Writers.step sb f) Writers.log w [] ks

/-- **A shared offset loses no write**: whatever the turns that calls of `filewrite` on one slot take,
the bytes from the first offset on are all the chunks in their order, those of each call are its
bytes in their order, no other byte of the file has changed, and the offset is behind the last. -/
theorem shared_offset_loses_nothing [DecidableEq P] {init : P} {s₀ : State P} {cs : List (Call P)}
    {ks : List K} (himage : Consistent sb s₀)
    (hreach : State.run sb init (s₀.boot init) cs = some s)
    (htype : (s.file f).type = .inode ip)
    (hregular : (s.dinode (s.inode ip).inum).type = .file)
    (hrun : run (Writers.step sb f) ⟨s, src⟩ ks = some w) :
    (w.fs.file f).off =
      (s.file f).off + (bytesOf (Writers.chunks sb f ⟨s, src⟩ ks)).length ∧
    (∀ j (hj : j < (bytesOf (Writers.chunks sb f ⟨s, src⟩ ks)).length),
      fbyte w.fs (s.inode ip).inum ((s.file f).off + j) =
        (bytesOf (Writers.chunks sb f ⟨s, src⟩ ks))[j]) ∧
    (∀ p < (s.dinode (s.inode ip).inum).size, p < (s.file f).off ∨
        (s.file f).off + (bytesOf (Writers.chunks sb f ⟨s, src⟩ ks)).length ≤ p →
      fbyte w.fs (s.inode ip).inum p = fbyte s (s.inode ip).inum p) ∧
    ∀ k, bytesOf (chunksOf k (Writers.chunks sb f ⟨s, src⟩ ks)) ++ w.rest k = src k := by
  have hstart : Merged sb f ip s src ⟨s, src⟩ [] :=
    ⟨run_settled himage hreach, htype, rfl, hregular, rfl, .inl ⟨rfl, rfl⟩, fun _ => rfl⟩
  have hstep (w : Writers P K) (h) (k : K) (w' : Writers P K) (hm : Merged sb f ip s src w h)
      (_ : True) (hstep : w.step sb f k = some w') : Merged sb f ip s src w' (w.log h k) :=
    hm.step hstep
  have hm : Merged sb f ip s src w (Writers.chunks sb f ⟨s, src⟩ ks) :=
    run_track hstep hrun allowed_true hstart
  refine ⟨hm.off, fun j hj => ?_, fun p hp hout => ?_, hm.calls⟩
  · obtain ⟨hnil, -⟩ | ⟨-, hwrote⟩ := hm.wrote
    · rw [hnil] at hj
      cases hj
    · rw [hwrote.bytes _ (by rw [hwrote.size]; omega), if_pos (by omega), Nat.add_sub_cancel_left,
        getD_eq_getElem _ _ hj]
  · obtain ⟨-, hsame⟩ | ⟨-, hwrote⟩ := hm.wrote
    · rw [hsame]
    · rw [hwrote.bytes _ (by rw [hwrote.size]; omega), if_neg (by omega)]

end Merged

/-- Two calls on a file that has just been made, one of them longer than a chunk. -/
def sharing (k : Bool) : List Byte := if k then [1] else List.replicate (maxChunk + 1) 2

theorem sharing_loses_nothing :
    ∃ s w, State.run .mkfs () ((State.mkfs (P := Unit)).boot ())
        [.open () [120] (O_CREATE ||| O_RDWR)] = some s ∧
      run (Writers.step .mkfs 0) ⟨s, sharing⟩ [false, true, false] = some w ∧
      ∀ k, bytesOf (chunksOf k (Writers.chunks .mkfs 0 ⟨s, sharing⟩ [false, true, false])) ++
        w.rest k = sharing k := by
  have hrun : ∃ s ∈ State.run .mkfs () ((State.mkfs (P := Unit)).boot ())
      [.open () [120] (O_CREATE ||| O_RDWR)],
      ((s.file 0).type = .inode 1 ∧ (s.dinode (s.inode 1).inum).type = .file) ∧
        (run (Writers.step .mkfs 0) ⟨s, sharing⟩ [false, true, false]).isSome := by
    decide +kernel
  obtain ⟨s, hs, ⟨htype, hregular⟩, hw⟩ := hrun
  obtain ⟨w, hw⟩ := Option.isSome_iff_exists.mp hw
  have hshared := shared_offset_loses_nothing mkfs_consistent hs htype hregular hw
  exact ⟨s, w, hs, hw, hshared.2.2.2⟩

/-- The longer call alone. -/
theorem sharing_alone_is_steps :
    ∃ s s' m, State.run .mkfs () ((State.mkfs (P := Unit)).boot ())
        [.open () [120] (O_CREATE ||| O_RDWR)] = some s ∧
      (filewriteLoop .mkfs 0 1 (maxChunk + 1) (sharing false)).run s = some (true, s') ∧
      run (Writers.step .mkfs 0) ⟨s, fun _ : Unit => sharing false⟩
        (List.replicate m ()) = some ⟨s', fun _ => []⟩ := by
  obtain ⟨s, hs, htype, ⟨_, s'⟩, hs', rfl⟩ : ∃ s ∈ State.run .mkfs ()
      ((State.mkfs (P := Unit)).boot ()) [.open () [120] (O_CREATE ||| O_RDWR)],
      (s.file 0).type = .inode 1 ∧
        ∃ x ∈ (filewriteLoop .mkfs 0 1 (maxChunk + 1) (sharing false)).run s, x.1 = true := by
    decide +kernel
  obtain ⟨m, hm⟩ :=
    filewriteLoop_is_steps (run_settled mkfs_consistent hs) htype (by simp [sharing]) hs'
  exact ⟨s, s', m, hs, hs', hm⟩

end Xv6.Fs
