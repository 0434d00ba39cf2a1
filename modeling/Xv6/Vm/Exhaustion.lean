import Xv6.Vm.Exec
import Xv6.Vm.Fork

/-!
# When memory runs out

Every caller of `kalloc` tests for 0 and has a way back. But `kalloc` itself panics when the free
list is empty, so none of these ways is ever taken. What is left of the intention: `fork`,
`growproc`, `exec` and `pipealloc` succeed, or return their error with the process table, the
caller's memory and the free list as before, if and only if there are the pages that the call takes
(`Request.need`) and it meets none of the other traps on its way (`Request.Fits`).
-/

namespace Xv6.Vm

open Fallible List
open Bytes (Byte)
open Fs (NFILE)
open Sched (PGSIZE Slot)

variable {w w' : World} {i : Slot} {E : Panic → Prop}

open Phys

/-! ## Sizes -/

/-- An address space that holds exactly the pages of `[PGSIZE, PGROUNDUP(sz))`. -/
structure Resident (w : World) (i : Slot) : Prop where
  tree : w.phys.Tree (w.pgdir i)
  mapped : Mapped w.phys (w.pgdir i) (w.sz i)
  user : w.sz i < KERNBASE

theorem Resident.small (h : Resident w i) : pgroundup (w.sz i) ≤ PGSIZE + PHYSTOP ∧
    w.sz i ≤ pgroundup (w.sz i) ∧ w.sz i < 2 ^ 32 := by
  have hsmall := h.mapped.small h.tree
  have hround := pgroundup_eq h.user
  have hbound : PGSIZE + PHYSTOP < 2 ^ 32 := by decide
  omega

/-- The values of the type `int64`. -/
def IsInt64 (n : ℤ) : Prop := -2 ^ 63 ≤ n ∧ n < 2 ^ 63

/-- The sum that `growproc` makes is exact, or it is above every size. -/
theorem newsz_cases {n : ℤ} {newsz : ℕ} (h : Resident w i) (hn : IsInt64 n)
    (hnew : newsz = (((w.sz i : ℤ) + n) % 2 ^ 64).toNat) :
    newsz < KERNBASE ∧ (newsz : ℤ) = w.sz i + n ∨ (w.sz i : ℤ) + n < 0 ∧ w.sz i ≤ newsz := by
  obtain ⟨-, -, hsmall⟩ := h.small
  obtain ⟨hmin, hmax⟩ := hn
  rw [KERNBASE]
  omega

/-! ## `growproc` -/

/-- The free pages that it takes to grow by `n`. -/
noncomputable def growNeed (w : World) (i : Slot) (n : ℤ) : ℕ :=
  mapCost w.phys (w.pgdir i) (pgroundup (w.sz i))
    (pagesTo (pgroundup (w.sz i)) (w.sz i + n.toNat))

theorem Resident.growNeed_eq {n : ℤ} (h : Resident w i) (hn : n ≤ 0) : growNeed w i n = 0 := by
  obtain ⟨-, hle, -⟩ := h.small
  rw [growNeed, Int.toNat_of_nonpos hn, Nat.add_zero, pagesTo, Nat.sub_eq_zero_of_le hle]
  rfl

theorem setSz_self (w : World) (i : Slot) : w.setSz i (w.sz i) = w := by
  have hproc : w.kernel.setProc i { w.kernel.proc i with sz := w.sz i } = w.kernel := by
    rw [Sched.Kernel.setProc]
    show { w.kernel with proc := Function.update w.kernel.proc i (w.kernel.proc i) } = w.kernel
    rw [Function.update_eq_self]
  rw [World.setSz, hproc]

/-- What `growproc` comes to. The size 0 is a size and the error value at once. -/
theorem ends_growproc {n : ℤ} {newsz : ℕ} {Q : ℤ → World → Prop} (h : w.phys.Tree (w.pgdir i))
    (hsz : w.sz i < 2 ^ 32) (hn : n < 2 ^ 63) (hnew : newsz = (((w.sz i : ℤ) + n) % 2 ^ 64).toNat)
    (hfail : (0 < n ∧ KERNBASE ≤ newsz ∨ n < 0 ∧ w.sz i = 0) → Q (-1) w)
    (hsame : (n = 0 ∨ n < 0 ∧ 0 < w.sz i ∧ w.sz i ≤ newsz) → Q 0 w)
    (hmemory : w.phys.freelist.length < growNeed w i n → E .outOfMemory)
    (hremap : 0 < n → (∃ vb < userTop, pgroundup (w.sz i) ≤ vb ∧
      present (w.phys.pte (w.pgdir i) vb) = true) → E .remap)
    (hgrow : 0 < n → w.sz i ≤ newsz → newsz < KERNBASE → ∀ s,
      Allocs (w.pgdir i) (pgroundup (w.sz i)) (pagesTo (pgroundup (w.sz i)) newsz) w.phys s →
      Q 0 ({ w with phys := s }.setSz i newsz))
    (hshrink : n < 0 → newsz < w.sz i → newsz ≠ 0 → ∀ s,
      Deallocs (w.pgdir i) (pgroundup newsz) (pagesTo (pgroundup newsz) (w.sz i)) w.phys s →
      Q 0 ({ w with phys := s }.setSz i newsz))
    (hbare : n < 0 → newsz < w.sz i → newsz = 0 → ∀ s,
      Deallocs (w.pgdir i) (pgroundup newsz) (pagesTo (pgroundup newsz) (w.sz i)) w.phys s →
      Q (-1) { w with phys := s }) :
    Ends (growproc i n) w E Q := by
  have hpgdir : w.pgdir i ≠ 0 :=
    (h.pos (Leads.mem_pages (s := w.phys) (t := w.pgdir i) .here)).ne'
  -- the end of the call, with the new size
  have hdone : ∀ s sz', Q 0 ({ w with phys := s }.setSz i sz') → Ends (do
      modify fun w => w.setSz i sz'
      switchuvm (w.pgdir i)
      pure 0 : W ℤ) { w with phys := s } E Q := by
    intro s sz' hq
    rw [ends_bind, ends_modify, ends_bind, switchuvm, if_neg hpgdir, ends_pure, ends_pure]
    exact hq
  have hself : (n = 0 ∨ n < 0 ∧ 0 < w.sz i ∧ w.sz i ≤ newsz) →
      Q 0 ({ w with phys := w.phys }.setSz i (w.sz i)) := by
    intro hzero
    show Q 0 (w.setSz i (w.sz i))
    rw [setSz_self]
    exact hsame hzero
  rw [growproc, ends_bind, ends_get]
  dsimp only
  rw [← hnew]
  by_cases hpos : 0 < n
  · have hne : n ≠ 0 := by omega
    have hsum : (newsz : ℤ) = w.sz i + n := by
      rw [hnew, Int.emod_eq_of_lt (by omega) (by omega)]
      omega
    have hlow : pgroundup (w.sz i) ≤ 2 ^ 32 := by
      rw [pgroundup_eq (by rw [KERNBASE]; omega)]
      omega
    have hroom : pgroundup (w.sz i) + w.phys.freelist.length * PGSIZE < userTop := by
      have hlen := h.freelist_length
      rw [PHYSTOP, pgsize_eq] at hlen
      rw [userTop, pgsize_eq]
      omega
    rw [if_pos hpos, ends_bind, ends_onPhys]
    refine (allocuvm_allocs h hroom).mono ?_ ?_
    · rintro e ⟨-, -, ⟨rfl, vb, hvb, hlo, -, hp⟩ | ⟨rfl, hfew⟩⟩
      · exact hremap hpos ⟨vb, hvb, hlo, hp⟩
      · refine hmemory ?_
        rwa [growNeed, show w.sz i + n.toNat = newsz by omega]
    · rintro r s (⟨hhigh, rfl, rfl⟩ | ⟨-, hless, -⟩ | ⟨hlt, hle, rfl, ha⟩)
      · rw [if_pos ⟨hne, rfl⟩]
        exact ends_pure.mpr (hfail (.inl ⟨hpos, hhigh⟩))
      · omega
      · rw [if_neg (by omega)]
        exact hdone s _ (hgrow hpos hle hlt s ha)
  · rw [if_neg hpos]
    by_cases hneg : n < 0
    · have hne : n ≠ 0 := by omega
      rw [if_pos hneg, ends_bind, ends_onPhys]
      refine (deallocuvm_deallocs h (by rw [userTop]; omega)).mono (fun _ he => he.elim) ?_
      rintro r s (⟨hmore, rfl, rfl⟩ | ⟨hless, rfl, hd⟩)
      · split
        · next hzero => exact ends_pure.mpr (hfail (.inr ⟨hneg, hzero.2⟩))
        · next hnz =>
          have hpos : 0 < w.sz i := Nat.pos_of_ne_zero fun hz => hnz ⟨hne, hz⟩
          exact hdone w.phys _ (hself (.inr ⟨hneg, hpos, hmore⟩))
      · split
        · next hzero => exact ends_pure.mpr (hbare hneg hless hzero.2 s hd)
        · next hnz => exact hdone s _ (hshrink hneg hless (fun hz => hnz ⟨hne, hz⟩) s hd)
    · rw [if_neg hneg, ends_bind, ends_pure, if_neg (fun hz => hz.1 (by omega))]
      exact hdone w.phys _ (hself (.inl (by omega)))

/-- Of one page at most nothing is lost: it is page 0, which is not there. -/
theorem Resident.bare_small {s : Phys} (h : Resident w i) (hsz : w.sz i ≤ PGSIZE)
    (d : Deallocs (w.pgdir i) (pgroundup 0) (pagesTo (pgroundup 0) (w.sz i)) w.phys s) :
    s = w.phys := by
  have hround := pgroundup_eq h.user
  refine d.absent fun vb hvb _ _ => ?_
  rw [Bool.eq_false_iff, Ne, h.mapped vb hvb, hround, pgsize_eq]
  rw [pgsize_eq] at hsz
  omega

/-- Of more than one, the page above page 0 is lost. -/
theorem Resident.bare_large {s : Phys} (h : Resident w i) (hsz : PGSIZE < w.sz i)
    (d : Deallocs (w.pgdir i) (pgroundup 0) (pagesTo (pgroundup 0) (w.sz i)) w.phys s) :
    s.pte (w.pgdir i) PGSIZE ≠ w.phys.pte (w.pgdir i) PGSIZE := by
  have huser : PGSIZE < userTop := by decide
  have hround := pgroundup_eq h.user
  have hzero : pgroundup 0 = 0 := by decide
  have hin : present (w.phys.pte (w.pgdir i) PGSIZE) = true := by
    refine (h.mapped PGSIZE huser).mpr ⟨Nat.le_refl _, ?_⟩
    rw [hround]
    rw [pgsize_eq] at hsz ⊢
    omega
  have hout := d.inside PGSIZE huser (hzero ▸ Nat.zero_le _) (by
    rw [hzero, pagesTo]
    rw [pgsize_eq] at hsz ⊢
    omega)
  intro hsame
  rw [hsame, hin] at hout
  cases hout

/-! ## `pipealloc`

The page is the last thing it takes, after both slots of the file table. -/

/-- The first slot that no one uses. -/
def World.freeFile (w : World) : Option (Fin NFILE) :=
  (List.finRange NFILE).find? fun f => (w.file f).ref = 0

variable {Q : Option (Fin NFILE) → World → Prop} {f : Fin NFILE}

theorem ends_filealloc_none (h : w.freeFile = none) : Ends filealloc w E Q ↔ Q none w := by
  rw [World.freeFile] at h
  rw [filealloc, ends_bind, ends_get, h]
  exact ends_pure

theorem ends_filealloc_some (h : w.freeFile = some f) :
    Ends filealloc w E Q ↔ Q (some f) (w.setFile f { w.file f with ref := 1 }) := by
  rw [World.freeFile] at h
  rw [filealloc, ends_bind, ends_get, h]
  dsimp only
  rw [ends_bind, ends_set, ends_pure]

theorem freeFile_ref (h : w.freeFile = some f) : (w.file f).ref = 0 := by
  simpa using List.find?_some h

/-- A slot that was only just taken is given back. -/
theorem ends_fileclose_taken {Q : Unit → World → Prop} (href : (w.file f).ref = 0)
    (htype : (w.file f).type = .none) :
    Ends (fileclose f) (w.setFile f { w.file f with ref := 1 }) E Q ↔ Q () w := by
  have hfile : (w.setFile f { w.file f with ref := 1 }).file f = { w.file f with ref := 1 } := by
    rw [World.setFile]
    exact Function.update_self f _ _
  have hback : (w.setFile f { w.file f with ref := 1 }).setFile f
      { w.file f with ref := 0, type := .none } = w := by
    have hsame : { w.file f with ref := 0, type := .none } = w.file f := by
      rw [← href, ← htype]
    rw [World.setFile, World.setFile]
    show { w with file := Function.update (Function.update w.file f _) f _ } = w
    rw [Function.update_idem, hsame, Function.update_eq_self]
  rw [fileclose, ends_bind, ends_get, hfile]
  dsimp only at hback ⊢
  rw [if_neg (Nat.lt_irrefl 1), if_neg (Nat.lt_irrefl 1), ends_bind, ends_set, hback, htype]
  exact ends_pure

/-- Without two slots, `pipealloc` does not come to take a page. -/
def pipeNeed (w : World) : ℕ :=
  match w.freeFile with
  | none => 0
  | some f => if (w.setFile f { w.file f with ref := 1 }).freeFile = none then 0 else 1

/-- Given the page, `pipealloc` fails only for want of slots, and then nothing has changed. -/
theorem pipealloc_reports (hclosed : ∀ f, (w.file f).ref = 0 → (w.file f).type = .none) :
    Ends pipealloc w (fun _ => ¬ pipeNeed w ≤ w.phys.freelist.length) fun o w' =>
      pipeNeed w ≤ w.phys.freelist.length ∧ (o = none → w' = w) := by
  rw [pipealloc, pipeNeed, ends_bind]
  cases h₀ : w.freeFile with
  | none =>
    rw [ends_filealloc_none h₀]
    exact ends_pure.mpr ⟨Nat.zero_le _, fun _ => rfl⟩
  | some f₀ =>
    have href := freeFile_ref h₀
    rw [ends_filealloc_some h₀]
    dsimp only
    rw [ends_bind]
    cases h₁ : (w.setFile f₀ { w.file f₀ with ref := 1 }).freeFile with
    | none =>
      rw [ends_filealloc_none h₁]
      dsimp only
      rw [ends_bind, ends_fileclose_taken href (hclosed f₀ href)]
      exact ends_pure.mpr ⟨Nat.zero_le _, fun _ => rfl⟩
    | some f₁ =>
      rw [ends_filealloc_some h₁, if_neg (Option.some_ne_none f₁)]
      dsimp only
      rw [ends_bind, ends_onPhys]
      cases hlist : w.phys.freelist with
      | nil => exact (ends_kalloc_nil hlist).mpr (Nat.not_succ_le_zero 0)
      | cons p rest =>
        refine (ends_kalloc_cons hlist).mpr ?_
        dsimp only
        rw [ends_bind, ends_modify, ends_bind, ends_modify, ends_bind, ends_modify, ends_pure]
        refine ⟨Nat.succ_le_succ (Nat.zero_le _), fun hnone => ?_⟩
        cases hnone

/-! ## The calls -/

/-- A call that allocates, with its arguments. -/
inductive Request where
  | fork
  /-- The argument is a 64-bit number. -/
  | growproc (n : ℤ) (hn : IsInt64 n)
  /-- The arguments are strings in the memory. -/
  | exec (file : Option (List Byte)) (path : List Byte) (argv : List (List Byte))
    (hargv : ∀ a ∈ argv, a.length < PHYSTOP)
  | pipealloc

namespace Request

/-- The call by process `i`; `true` when it succeeds. -/
def run (i : Slot) : Request → W Bool
  | .fork => (fun r => r ≠ -1) <$> Vm.fork i
  | .growproc n _ => (fun r => r ≠ -1) <$> Vm.growproc i n
  | .exec file path argv _ => (fun r => r ≠ -1) <$> Vm.exec i file path argv
  | .pipealloc => Option.isSome <$> Vm.pipealloc

/-- The free pages that the call takes, those for tables among them. -/
noncomputable def need (w : World) (i : Slot) : Request → ℕ
  | .fork => if Sched.freeSlot w.kernel.proc = none then 0 else 1 + spacePages (copied (w.sz i))
  | .growproc n _ => growNeed w i n
  | .exec file _ _ _ => ((execPlan file).map Plan.need).getD 0
  | .pipealloc => pipeNeed w

/-- What else a call must keep to: a process with pages does not shrink to nothing; a program has no
segment in the first page, and no argument that reaches below address 0. -/
def Fits (w : World) (i : Slot) : Request → Prop
  | .growproc n _ => (w.sz i : ℤ) + n = 0 → w.sz i ≤ PGSIZE
  | .exec file _ argv _ => ∀ p, execPlan file = some p → p.Sound argv
  | .fork | .pipealloc => True

end Request

/-- What holds of the caller and of the file table whenever a call is made. -/
structure Sane (w : World) (i : Slot) : Prop extends Resident w i where
  files : ∀ fd f, w.ofile i fd = some f → 1 ≤ (w.file f).ref
  closed : ∀ f, (w.file f).ref = 0 → (w.file f).type = .none
  pids : 0 < w.kernel.nextpid

/-- The process table, the caller's memory and the free list are as before. -/
structure AsBefore (w w' : World) (i : Slot) : Prop where
  kernel : w'.kernel = w.kernel
  pgdir : w'.pgdir = w.pgdir
  kstack : w'.kstack = w.kstack
  ofile : w'.ofile = w.ofile
  name : w'.name = w.name
  free : w'.phys.freelist.Perm w.phys.freelist
  memory : Untouched w.phys w'.phys (w.pgdir i)

theorem AsBefore.refl (w : World) (i : Slot) : AsBefore w w i :=
  ⟨rfl, rfl, rfl, rfl, rfl, .refl _, ⟨fun _ _ => rfl, fun _ _ _ => .refl _⟩⟩

theorem Restores.untouched {s s' : Phys} {t : ℕ} (r : Restores s s') (h : s.Tree t) :
    Untouched s s' t := by
  have hsame : ∀ p ∈ s.pages t, Same s s' p := fun p hp =>
    r.same p (h.valid_page hp).aligned (h.pos hp) (h.not_free hp)
  have htables : SameTables s s' t := fun _ p hp => hsame p (mem_pages hp)
  exact ⟨fun va hva => htables.pte hva, fun va hva hp => hsame _ (h.leaf hva hp).1⟩

theorem fork_reports (h : Sane w i) :
    Ends (fork i) w (fun _ => ¬ Request.fork.need w i ≤ w.phys.freelist.length) fun r w' =>
      Request.fork.need w i ≤ w.phys.freelist.length ∧ (r = -1 → w' = w) := by
  obtain ⟨-, -, hsmall⟩ := h.small
  rw [Request.need]
  refine ends_fork h.tree (fun hfull => ?_) (fun hslot hless => ?_) ?_ ?_
  · rw [if_pos hfull]
    exact ⟨Nat.zero_le _, fun _ => rfl⟩
  · rw [if_neg hslot]
    exact Nat.not_le.mpr hless
  · rintro ⟨vb, hvb, hlo, hhi, habsent⟩
    have hpresent : present (w.phys.pte (w.pgdir i) vb) = true := by
      refine (h.mapped vb hvb).mpr ⟨hlo, ?_⟩
      have hspace := ((inSpace_iff hsmall).mpr ⟨hlo, hhi⟩).2
      rw [pgroundup_eq h.user]
      rw [pgrounddown, pgsize_eq] at hspace
      omega
    rw [habsent] at hpresent
    cases hpresent
  · intro np stack rest d s hslot hfree hclone
    have hcount := hclone.count
    have hneed : 1 + spacePages (copied (w.sz i)) ≤ w.phys.freelist.length := by
      rw [hfree, length_cons]
      dsimp only at hcount
      omega
    refine dupFiles_files.mono ?_ ?_
    · rintro e ⟨-, fd, f, hfd, hlow⟩
      have href := h.files fd f hfd
      exact absurd hlow (Nat.not_lt.mpr href)
    · intro _ w₂ hw₂
      rw [if_neg (hslot ▸ Option.some_ne_none np)]
      refine ⟨hneed, fun hpid => ?_⟩
      have hpids := h.pids
      rw [hw₂] at hpid
      simp [World.born, World.forked, Sched.allocproc] at hpid
      omega

theorem growproc_reports {n : ℤ} (h : Resident w i) (hn : IsInt64 n) :
    Ends (growproc i n) w
      (fun _ => ¬ (growNeed w i n ≤ w.phys.freelist.length ∧ (Request.growproc n hn).Fits w i))
      fun r w' => (r = -1 → AsBefore w w' i) ↔
        growNeed w i n ≤ w.phys.freelist.length ∧ (Request.growproc n hn).Fits w i := by
  obtain ⟨-, -, hsmall⟩ := h.small
  obtain ⟨newsz, hnew⟩ : ∃ newsz : ℕ, newsz = (((w.sz i : ℤ) + n) % 2 ^ 64).toNat := ⟨_, rfl⟩
  have hcases := newsz_cases h hn hnew
  have hdone : ∀ {w'}, ((0 : ℤ) = -1 → AsBefore w w' i) := fun hr => by cases hr
  have hfree : n ≤ 0 → growNeed w i n ≤ w.phys.freelist.length := fun hle => by
    rw [h.growNeed_eq hle]
    exact Nat.zero_le _
  rw [Request.Fits]
  refine ends_growproc h.tree hsmall hn.2 hnew ?_ ?_ ?_ ?_ ?_ ?_ ?_
  · intro hfail
    exact iff_of_true (fun _ => .refl w i) ⟨hfree (by omega), by omega⟩
  · intro hsame
    exact iff_of_true hdone ⟨hfree (by omega), by omega⟩
  · rintro hless ⟨hneed, -⟩
    omega
  · rintro - ⟨vb, hvb, hlo, hpresent⟩
    have := ((h.mapped vb hvb).mp hpresent).2
    omega
  · intro hpos hle hlt s ha
    refine iff_of_true hdone ⟨?_, by omega⟩
    rw [growNeed, show w.sz i + n.toNat = newsz by omega, ha.count]
    exact Nat.le_add_left _ _
  · intro hneg _ hne s _
    exact iff_of_true hdone ⟨hfree hneg.le, by omega⟩
  · rintro hneg _ rfl s hd
    have hzero : (w.sz i : ℤ) + n = 0 := by omega
    by_cases hsz : w.sz i ≤ PGSIZE
    · obtain rfl := h.bare_small hsz hd
      exact iff_of_true (fun _ => .refl w i) ⟨hfree hneg.le, fun _ => hsz⟩
    · refine iff_of_false (fun hbefore => ?_) fun hfits => hsz (hfits.2 hzero)
      exact h.bare_large (Nat.lt_of_not_le hsz) hd ((hbefore rfl).memory.ptes PGSIZE (by decide))

theorem exec_reports {file : Option (List Byte)} {path : List Byte} {argv : List (List Byte)}
    (h : Sane w i) (hargv : ∀ a ∈ argv, a.length < PHYSTOP) :
    Ends (exec i file path argv) w (fun _ => ¬ Ready w file argv) fun r w' =>
      Ready w file argv ∧ (r = -1 → AsBefore w w' i) := by
  have hlong : PHYSTOP < 2 ^ 38 := by decide
  refine (exec_restores h.tree fun a ha => (hargv a ha).trans hlong).mono (fun _ he => he) ?_
  rintro r w' ⟨hready, hr⟩
  refine ⟨hready, ?_⟩
  rintro rfl
  rcases hr with hzero | ⟨-, s, tf, hs, rfl⟩
  · cases hzero
  · exact ⟨rfl, rfl, rfl, rfl, rfl, hs.perm, hs.untouched h.tree⟩

/-! ## After boot

The first process meets what the theorem on the calls asks for. -/

theorem Booted.sane {kend : ℕ} (h : Booted kend w) (hk : 0 < kend) (hkend : kend ≤ PHYSTOP) :
    Sane w 0 := by
  have hsz : w.sz 0 = 2 * PGSIZE := by
    rw [World.sz, h.kernel]
    rfl
  refine ⟨⟨(h.heap hk hkend).left, ?_, ?_⟩, ?_, fun f _ => (h.file f).2, ?_⟩
  · have hround : pgroundup (2 * PGSIZE) = 2 * PGSIZE := by decide
    intro va hva
    rw [hsz, hround]
    exact h.mapped va hva
  · rw [hsz]
    decide
  · intro fd f hfd
    rw [h.ofile] at hfd
    cases hfd
  · rw [h.kernel]
    decide

/-- The same process when the others have taken all the pages. -/
theorem Sane.drain (h : Sane w i) : Sane { w with phys := { w.phys with freelist := [] } } i :=
  { h with
    tree := {
      nodup := h.tree.nodup.sublist (sublist_append_right _ _)
      valid := fun p hp => (h.tree.valid p (mem_append_right _ hp)).of_kend rfl
      kend := h.tree.kend } }

/-- `allocproc` wants a page for the stack of the child. -/
theorem fork_panics {np : Slot} (hslot : Sched.freeSlot w.kernel.proc = some np)
    (hfree : w.phys.freelist = []) : (fork i).run w = .error .outOfMemory := by
  have hends : Ends (fork i) w (fun e => e = .outOfMemory) fun _ _ => False := by
    rw [fork, ends_bind, allocproc, ends_bind, ends_get, hslot]
    dsimp only
    rw [ends_bind, ends_set, ends_bind, ends_onPhys]
    exact (ends_kalloc_nil hfree).mpr rfl
  exact hends.eq_error

/-- With no free page, the process after boot cannot even fork: `kalloc` panics. -/
theorem fork_exhausted :
    ∃ w, Sane w 0 ∧ w.phys.freelist = [] ∧
      (Request.fork.run 0).run w = .error .outOfMemory := by
  obtain ⟨w, hw, -⟩ := exists_booted
  have hsane := (hw.sane (Nat.succ_pos _) (by decide)).drain
  have hslot : Sched.freeSlot w.kernel.proc = some 1 := by
    rw [hw.kernel, Sched.freeSlot]
    rfl
  have hrun := fork_panics (w := { w with phys := { w.phys with freelist := [] } }) (i := 0)
    hslot rfl
  exact ⟨_, hsane, rfl, congrArg (Except.map _) hrun⟩

/-- **A call returns, with everything as before when it fails, if and only if it has the pages and
fits.** -/
theorem exhaustion_reported (h : Sane w i) (req : Request) :
    (∃ ok w', (req.run i).run w = .ok (ok, w') ∧ (ok = false → AsBefore w w' i)) ↔
      req.need w i ≤ w.phys.freelist.length ∧ req.Fits w i := by
  refine Ends.exists_ok_iff ?_
  cases req with
  | fork =>
    refine ends_map.mpr ((fork_reports h).mono (fun _ he hyes => he hyes.1) ?_)
    rintro r w' ⟨hneed, hr⟩
    refine iff_of_true (fun hok => ?_) ⟨hneed, trivial⟩
    rw [hr (by simpa using hok)]
    exact .refl w i
  | growproc n hn =>
    refine ends_map.mpr ((growproc_reports h.toResident hn).mono (fun _ he => he) ?_)
    intro r w' hr
    rw [Request.need, ← hr]
    simp
  | exec file path argv hargv =>
    have hready : Ready w file argv ↔
        (Request.exec file path argv hargv).need w i ≤ w.phys.freelist.length ∧
          (Request.exec file path argv hargv).Fits w i := by
      rw [Ready, Request.need, Request.Fits]
      cases execPlan file <;> simp
    refine ends_map.mpr ((exec_reports h hargv).mono (fun _ he => hready.not.mp he) ?_)
    rintro r w' ⟨hyes, hr⟩
    exact iff_of_true (fun hok => hr (by simpa using hok)) (hready.mp hyes)
  | pipealloc =>
    refine ends_map.mpr ((pipealloc_reports h.closed).mono (fun _ he hyes => he hyes.1) ?_)
    rintro o w' ⟨hneed, hr⟩
    refine iff_of_true (fun hok => ?_) ⟨hneed, trivial⟩
    rw [hr (by simpa using hok)]
    exact .refl w i

/-- The process after boot, which has the pages to fork. -/
theorem exhaustion_reported_boot :
    ∃ w, Sane w 0 ∧ Request.fork.need w 0 ≤ w.phys.freelist.length ∧
      ∃ ok w', (Request.fork.run 0).run w = .ok (ok, w') ∧ (ok = false → AsBefore w w' 0) := by
  obtain ⟨w, hw, hfree⟩ := exists_booted
  have hsane := hw.sane (Nat.succ_pos _) (by decide)
  have hneed : Request.fork.need w 0 ≤ w.phys.freelist.length := by
    have hsz : copied (w.sz 0) = 1 := by
      rw [World.sz, hw.kernel]
      decide
    have hpages := spacePages_le 1
    rw [Request.need, hsz]
    split <;> omega
  exact ⟨w, hsane, hneed, (exhaustion_reported hsane .fork).mpr ⟨hneed, trivial⟩⟩

end Xv6.Vm
