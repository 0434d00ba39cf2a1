import Xv6.Vm.Exhaustion

/-!
# `growproc`

What a process sees of its memory (`Phys.read`) before and after `growproc`. A process that does not
shrink to nothing gets exactly the size it asked for: what it keeps is as it was, what is new is
zero. The size 0 is the exception. `deallocuvm` returns it as the new size, `growproc` takes it for
the error value, and the process is left with its old size and no pages. A size below 0 wraps: it is
above the old one, `deallocuvm` returns the old one, and the call reports that it was done.
-/

namespace Xv6.Vm

open Fallible Transition
open Sched (PGSIZE Slot)

variable {s s' : Phys} {w w' : World} {i : Slot} {t a n va : ℕ} {E : Panic → Prop}

open Phys

/-! ## Sizes -/

/-- The process keeps a size above 0, or has no pages to lose. One of size 0 cannot grow: its first
page would be the page 0, which no process has. -/
def Keeps (w : World) (i : Slot) (n : ℤ) : Prop :=
  0 < w.sz i ∧ 0 < (w.sz i : ℤ) + n ∨ w.sz i ≤ PGSIZE ∧ (w.sz i : ℤ) + n = 0 ∨ w.sz i = 0 ∧ n < 0

/-- The size changed by `n`. -/
structure Resized (i : Slot) (n : ℤ) (w w' : World) : Prop where
  size : (w'.sz i : ℤ) = w.sz i + n
  mapped : Mapped w'.phys (w'.pgdir i) (w'.sz i)
  kept : ∀ va, PGSIZE ≤ va → va < pgroundup (w.sz i) → va < pgroundup (w'.sz i) →
    w'.phys.read (w'.pgdir i) va = w.phys.read (w.pgdir i) va
  zero : ∀ va, pgroundup (w.sz i) ≤ va → va < pgroundup (w'.sz i) →
    w'.phys.read (w'.pgdir i) va = some 0

theorem setSz_sz (w : World) (i : Slot) (sz : ℕ) : (w.setSz i sz).sz i = sz := by
  rw [World.sz, World.setSz]
  simp

/-- Where the pages of a size end. -/
theorem pgroundup_pos {sz : ℕ} (hpos : 0 < sz) (huser : sz < KERNBASE) : PGSIZE ≤ pgroundup sz := by
  rw [pgroundup_eq huser, pgsize_eq]
  omega

theorem resident_setSz {sz : ℕ} (htree : s.Tree (w.pgdir i)) (hmapped : Mapped s (w.pgdir i) sz)
    (huser : sz < KERNBASE) : Resident ({ w with phys := s }.setSz i sz) i := by
  refine ⟨htree, ?_, ?_⟩
  · rw [setSz_sz]
    exact hmapped
  · rwa [setSz_sz]

theorem Resident.grow {newsz : ℕ} (h : Resident w i) (hpos : 0 < w.sz i) (hle : w.sz i ≤ newsz)
    (hlt : newsz < KERNBASE)
    (g : Allocs (w.pgdir i) (pgroundup (w.sz i)) (pagesTo (pgroundup (w.sz i)) newsz) w.phys s) :
    Resident ({ w with phys := s }.setSz i newsz) i ∧
      Resized i (newsz - w.sz i) w ({ w with phys := s }.setSz i newsz) := by
  have hadd := pgroundup_add hle hlt
  have hlow := pgroundup_pos hpos h.user
  have hmapped : Mapped s (w.pgdir i) newsz := by
    intro va hva
    by_cases hin : pgroundup (w.sz i) ≤ va ∧ va < pgroundup newsz
    · exact iff_of_true (g.inside va hva hin.1 (by omega)).1 (by omega)
    · rw [g.outside va hva (by omega), h.mapped va hva]
      omega
  have hres := resident_setSz (g.tree h.tree) hmapped hlt
  refine ⟨hres, ?_, hres.mapped, ?_, ?_⟩
  · rw [setSz_sz]
    omega
  · intro va _ hhi _
    exact g.read_outside h.tree (.inl hhi)
  · intro va hlo hhi
    have htop := hres.small.1
    rw [setSz_sz] at hhi htop
    have huser : PGSIZE + PHYSTOP < userTop := by decide
    exact g.read_inside (by omega) hlo (by omega)

theorem Resident.shrink {newsz : ℕ} (h : Resident w i) (hless : newsz < w.sz i) (hpos : 0 < newsz)
    (d : Deallocs (w.pgdir i) (pgroundup newsz) (pagesTo (pgroundup newsz) (w.sz i)) w.phys s) :
    Resident ({ w with phys := s }.setSz i newsz) i ∧
      Resized i (newsz - w.sz i) w ({ w with phys := s }.setSz i newsz) := by
  have huser : newsz < KERNBASE := hless.trans h.user
  have hadd := pgroundup_add hless.le h.user
  have hlow := pgroundup_pos hpos huser
  have hmapped : Mapped s (w.pgdir i) newsz := by
    intro va hva
    by_cases hin : pgroundup newsz ≤ va ∧ va < pgroundup (w.sz i)
    · rw [d.inside va hva hin.1 (by omega)]
      exact iff_of_false Bool.false_ne_true (by omega)
    · rw [d.outside va hva (by omega), h.mapped va hva]
      omega
  have hres := resident_setSz (d.tree h.tree) hmapped huser
  refine ⟨hres, ?_, hres.mapped, ?_, ?_⟩
  · rw [setSz_sz]
    omega
  · intro va _ _ hhi
    rw [setSz_sz] at hhi
    exact d.read_outside (.inl hhi)
  · intro va hlo hhi
    rw [setSz_sz] at hhi
    omega

/-! ## The call -/

/-- Nothing happens to a process that asks for nothing. -/
theorem Resident.resized_zero (h : Resident w i) : Resized i 0 w w where
  size := (Int.add_zero _).symm
  mapped := h.mapped
  kept _ _ _ _ := rfl
  zero _ hlo hhi := absurd hhi (Nat.not_lt.mpr hlo)

/-- Exactly the calls of `Keeps` do what they report, and these leave a process like that. -/
theorem growproc_ends {n : ℤ} (h : Resident w i) (hint : IsInt64 n) :
    Ends (growproc i n) w
      (fun e => e = .outOfMemory ∧ w.phys.freelist.length < growNeed w i n) fun r w' =>
      (Keeps w i n → Resident w' i) ∧
        (r = 0 ∧ Resized i n w w' ∨ r = -1 ∧ w' = w ∧ (w.sz i : ℤ) + n ≤ 0 ↔ Keeps w i n) := by
  obtain ⟨-, -, hsmall⟩ := h.small
  obtain ⟨newsz, hnew⟩ : ∃ newsz : ℕ, newsz = (((w.sz i : ℤ) + n) % 2 ^ 64).toNat := ⟨_, rfl⟩
  have hcases := newsz_cases h hint hnew
  unfold Keeps
  refine ends_growproc h.tree hsmall hint.2 hnew ?_ ?_ ?_ ?_ ?_ ?_ ?_
  · intro hfail
    exact ⟨fun _ => h, iff_of_true (.inr ⟨rfl, rfl, by omega⟩) (by omega)⟩
  · rintro (rfl | ⟨hneg, hpos, hle⟩)
    · exact ⟨fun _ => h, iff_of_true (.inl ⟨rfl, h.resized_zero⟩) (by omega)⟩
    · refine ⟨fun _ => h, iff_of_false ?_ (by omega)⟩
      rintro (⟨-, hsized⟩ | ⟨hr, -⟩)
      · have hsize := hsized.size
        omega
      · cases hr
  · intro hfew
    exact ⟨rfl, hfew⟩
  · rintro - ⟨vb, hvb, hlo, hp⟩
    have hhi := ((h.mapped vb hvb).mp hp).2
    omega
  · intro hmore hle hlt s g
    by_cases hzero : w.sz i = 0
    · -- page 0 is mapped
      refine ⟨by omega, iff_of_false ?_ (by omega)⟩
      rintro (⟨-, hsized⟩ | ⟨hr, -⟩)
      · have hround : pgroundup 0 = 0 := by decide
        rw [hzero, hround] at g
        have hin := (g.inside 0 (by decide) (Nat.le_refl _) (by
          rw [pagesTo, pgsize_eq]
          omega)).1
        have hpage := ((hsized.mapped 0 (by decide)).mp hin).1
        exact absurd hpage (by decide)
      · cases hr
    · obtain ⟨hres, hsized⟩ := h.grow (by omega) hle hlt g
      obtain rfl : n = newsz - w.sz i := by omega
      exact ⟨fun _ => hres, iff_of_true (.inl ⟨rfl, hsized⟩) (by omega)⟩
  · intro _ hless hne s d
    obtain ⟨hres, hsized⟩ := h.shrink hless (Nat.pos_of_ne_zero hne) d
    obtain rfl : n = newsz - w.sz i := by omega
    exact ⟨fun _ => hres, iff_of_true (.inl ⟨rfl, hsized⟩) (by omega)⟩
  · rintro _ hless rfl s d
    by_cases hpage : w.sz i ≤ PGSIZE
    · obtain rfl := h.bare_small hpage d
      exact ⟨fun _ => h, iff_of_true (.inr ⟨rfl, rfl, by omega⟩) (by omega)⟩
    · refine ⟨by omega, iff_of_false ?_ (by omega)⟩
      rintro (⟨hr, -⟩ | ⟨-, heq, -⟩)
      · cases hr
      · obtain rfl : s = w.phys := congrArg World.phys heq
        exact h.bare_large (by omega) d rfl

/-- After any of these calls, `fork` finds the pages it copies. -/
theorem fork_resident (h : Resident w i) :
    Ends (fork i) w (fun e => e = .outOfMemory ∨ e = .filedup) fun _ _ => True := by
  obtain ⟨-, -, hsmall⟩ := h.small
  refine ends_fork h.tree (fun _ => trivial) (fun _ _ => .inl rfl) ?_ ?_
  · rintro ⟨vb, hvb, hlo, hhi, habsent⟩
    have hspace := ((inSpace_iff hsmall).mpr ⟨hlo, hhi⟩).2
    have hin : vb < pgroundup (w.sz i) := by
      rw [pgroundup_eq h.user]
      rw [pgrounddown, pgsize_eq] at hspace
      omega
    rw [(h.mapped vb hvb).mpr ⟨hlo, hin⟩] at habsent
    cases habsent
  · intro np stack rest d s _ _ _
    exact dupFiles_files.mono (fun e he => .inr he.1) fun _ _ _ => trivial

/-- One call of `growproc` as a step; a panic is the end. -/
def growStep (i : Slot) (w : World) (n : ℤ) : Option World :=
  match (growproc i n).run w with
  | .ok (_, w') => some w'
  | .error _ => none

theorem growStep_resident {n : ℤ} (h : Resident w i) (hn : IsInt64 n ∧ Keeps w i n)
    (hstep : growStep i w n = some w') : Resident w' i := by
  unfold growStep at hstep
  split at hstep
  · next hrun =>
      cases hstep
      exact ((growproc_ends h hn.1).1 _ _ hrun).1 hn.2
  · cases hstep

/-- **`growproc` is exact and atomic** for the requests of `Keeps` and for no others: a call that
succeeds changes the size by exactly `n`, with the old contents below and zeros above, and one that
fails changes nothing. Neither a sequence of such calls nor a `fork` after it runs into a page that
is there, or not there, against expectation. -/
theorem growproc_exact (h : Resident w i) :
    (∀ n, IsInt64 n → growNeed w i n ≤ w.phys.freelist.length →
      ((∃ r w', (growproc i n).run w = .ok (r, w') ∧
        (r = 0 ∧ Resized i n w w' ∨ r = -1 ∧ w' = w ∧ (w.sz i : ℤ) + n ≤ 0)) ↔ Keeps w i n)) ∧
    ∀ ns w', run (growStep i) w ns = some w' →
      Allowed (growStep i) (fun w n => IsInt64 n ∧ Keeps w i n) w ns →
      (∀ n, IsInt64 n → Keeps w' i n → (growproc i n).run w' ≠ .error .remap) ∧
        ∀ e, (fork i).run w' = .error e → e ≠ .remap ∧ e ≠ .copyuvmPte ∧ e ≠ .copyuvmPresent := by
  refine ⟨fun n hint hneed => ?_, fun ns w' hrun hkeeps => ?_⟩
  · have hends : Ends (growproc i n) w (fun _ => False) _ :=
      (growproc_ends h hint).mono (fun e he => by omega) fun _ _ hr => hr.2
    constructor
    · rintro ⟨r, w', hrun, hdone⟩
      exact (hends.1 _ _ hrun).mp hdone
    · intro hn
      obtain ⟨r, w', hrun, hiff⟩ := hends.exists_ok
      exact ⟨r, w', hrun, hiff.mpr hn⟩
  · have hres : Resident w' i := run_allowed (I := fun w => Resident w i)
      (fun _ _ _ hr hn hstep => growStep_resident hr hn hstep) hrun hkeeps h
    refine ⟨fun n hint hn hremap => ?_, fun e herr => ?_⟩
    · obtain ⟨hoom, -⟩ := (growproc_ends hres hint).2 _ hremap
      cases hoom
    · obtain rfl | rfl := (fork_resident hres).2 e herr
      · exact ⟨by decide, by decide, by decide⟩
      · exact ⟨by decide, by decide, by decide⟩

/-! ## After boot -/

theorem Booted.resident {kend : ℕ} (h : Booted kend w) (hk : 0 < kend) (hkend : kend ≤ PHYSTOP) :
    Resident w 0 ∧ w.sz 0 = 2 * PGSIZE := by
  have hsane := h.sane hk hkend
  have hsz : w.sz 0 = 2 * PGSIZE := by
    rw [World.sz, h.kernel]
    rfl
  exact ⟨hsane.toResident, hsz⟩

/-- The first process grows by a page. -/
theorem growproc_exact_boot : ∃ w w', Resident w 0 ∧ (growproc 0 PGSIZE).run w = .ok (0, w') ∧
    Resized 0 PGSIZE w w' ∧ ∀ e, (fork 0).run w' = .error e → e ≠ .copyuvmPresent := by
  obtain ⟨w, hw, hfree⟩ := exists_booted
  obtain ⟨hres, hsz⟩ := hw.resident (Nat.succ_pos _) (by decide)
  obtain ⟨hcall, hseq⟩ := growproc_exact hres
  have hint : IsInt64 PGSIZE := ⟨by decide, by decide⟩
  have hkeeps : Keeps w 0 PGSIZE := by
    rw [Keeps, hsz]
    decide
  have hneed : growNeed w 0 PGSIZE ≤ w.phys.freelist.length := by
    have hone : pagesTo (pgroundup (w.sz 0)) (w.sz 0 + (PGSIZE : ℤ).toNat) = 1 := by
      rw [hsz]
      decide
    have hfour := mapCost_le (s := w.phys) (t := w.pgdir 0) (a := pgroundup (w.sz 0)) (n := 1)
    rw [growNeed, hone]
    omega
  obtain ⟨r, w', hrun, hdone⟩ := (hcall PGSIZE hint hneed).mpr hkeeps
  obtain ⟨rfl, hsized⟩ | ⟨-, -, hless⟩ := hdone
  · have hstep : run (growStep 0) w [(PGSIZE : ℤ)] = some w' := by
      simp [run, growStep, hrun]
    exact ⟨w, w', hres, hrun, hsized, fun e he =>
      ((hseq [(PGSIZE : ℤ)] w' hstep ⟨⟨hint, hkeeps⟩, fun _ _ => trivial⟩).2 e he).2.2⟩
  · rw [hsz] at hless
    exact absurd hless (by decide)

/-- A process that shrinks to nothing is left with its size and without pages. -/
theorem growproc_bares (h : Resident w i) (hpos : 0 < w.sz i) :
    Ends (growproc i (-(w.sz i))) w (fun _ => False) fun r w' => r = -1 ∧
      ∃ s, Deallocs (w.pgdir i) 0 (pagesTo 0 (w.sz i)) w.phys s ∧ w' = { w with phys := s } := by
  obtain ⟨-, -, hsmall⟩ := h.small
  have hnew : 0 = (((w.sz i : ℤ) + -(w.sz i)) % 2 ^ 64).toNat := by
    rw [Int.add_right_neg]
    rfl
  have hround : pgroundup 0 = 0 := by decide
  refine ends_growproc h.tree hsmall (by omega) hnew ?_ ?_ ?_ ?_ ?_ ?_ ?_
  · rintro (⟨hneg, -⟩ | ⟨-, hzero⟩) <;> omega
  · rintro (hzero | ⟨-, hzero⟩) <;> omega
  · rw [h.growNeed_eq (by omega)]
    exact Nat.not_lt_zero _
  · intro hneg
    omega
  · intro hneg
    omega
  · intro _ _ hne
    exact absurd rfl hne
  · intro _ _ _ s d
    rw [hround] at d
    exact ⟨rfl, s, d, rfl⟩

theorem fork_absent {np : Slot} {vb : ℕ} (h : w.phys.Tree (w.pgdir i))
    (hslot : Sched.freeSlot w.kernel.proc = some np)
    (hfree : 1 + spacePages (copied (w.sz i)) ≤ w.phys.freelist.length) (hvb : vb < userTop)
    (hlo : PGSIZE ≤ vb) (hhi : vb < PGSIZE + copied (w.sz i) * PGSIZE)
    (habsent : present (w.phys.pte (w.pgdir i) vb) = false) :
    ∃ e, (fork i).run w = .error e ∧ (e = .copyuvmPte ∨ e = .copyuvmPresent) := by
  refine Ends.exists_error (ends_fork h ?_ ?_ ?_ ?_)
  · intro hfull
    rw [hslot] at hfull
    cases hfull
  · intro _ hfew
    omega
  · intro _
    exact ⟨.inl rfl, .inr rfl⟩
  · intro np stack rest d s _ hlist hclone
    have hpresent : present (w.phys.pte (w.pgdir i) vb) = true := hclone.whole vb hvb hlo hhi
    rw [habsent] at hpresent
    cases hpresent

/-- **Shrinking to nothing is reported as a failure, and is none**: the pages are gone, the size is
as before, and the next `fork` panics. -/
theorem growproc_bare : ∃ w w', Resident w 0 ∧ (growproc 0 (-(2 * PGSIZE))).run w = .ok (-1, w') ∧
    w'.sz 0 = 2 * PGSIZE ∧ w.phys.read (w.pgdir 0) PGSIZE ≠ none ∧
    w'.phys.read (w'.pgdir 0) PGSIZE = none ∧
    ∃ e, (fork 0).run w' = .error e ∧ (e = .copyuvmPte ∨ e = .copyuvmPresent) := by
  obtain ⟨w, hw, hfree⟩ := exists_booted
  obtain ⟨hres, hsz⟩ := hw.resident (Nat.succ_pos _) (by decide)
  have huser : PGSIZE < userTop := by decide
  have hbares := growproc_bares hres (by rw [hsz]; decide)
  rw [hsz] at hbares
  obtain ⟨_, _, hrun, rfl, s, hd, rfl⟩ := hbares.exists_ok
  have habsent : present (s.pte (w.pgdir 0) PGSIZE) = false :=
    hd.inside PGSIZE huser (Nat.zero_le _) (by decide)
  refine ⟨w, { w with phys := s }, hres, hrun, hsz, ?_, ?_, ?_⟩
  · have hp : present (w.phys.pte (w.pgdir 0) PGSIZE) = true :=
      (hw.mapped PGSIZE huser).mpr ⟨Nat.le_refl _, by decide⟩
    rw [read_of_present huser hp]
    exact Option.some_ne_none _
  · refine if_neg fun hin => ?_
    rw [habsent] at hin
    cases hin.2
  · have hcopied : copied (w.sz 0) = 1 := by
      rw [hsz]
      decide
    have hslot : Sched.freeSlot w.kernel.proc = some 1 := by
      rw [hw.kernel, Sched.freeSlot]
      rfl
    have hlen := hd.free.length_le
    refine fork_absent (w := { w with phys := s }) (hd.tree hres.tree) hslot ?_ huser
      (Nat.le_refl _) ?_ habsent
    · show 1 + spacePages (copied (w.sz 0)) ≤ s.freelist.length
      have hpages := spacePages_le 1
      rw [hcopied]
      omega
    · show PGSIZE < PGSIZE + copied (w.sz 0) * PGSIZE
      rw [hcopied]
      decide

end Xv6.Vm
