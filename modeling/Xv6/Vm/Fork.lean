import Xv6.Vm.Boot

/-!
# `fork` copies and isolates

The child of a `fork` has a page table of its own, with the entries of its parent's on other frames,
and the same bytes there. From then on a store by one of the two never shows in the memory of the
other.
-/

namespace Xv6.Vm

open Blit Fallible List World
open Bytes (Byte)
open Sched (PGSIZE Slot)

variable {w w' : World} {i np : Slot} {E : Panic → Prop}

open Phys

/-! ## The steps of `fork` -/

namespace World

/-- After `allocproc` and `copyuvm`: the child has its stack, its page table and its registers. -/
def forked (w : World) (i np : Slot) (stack d : ℕ) (s : Phys) : World :=
  let k := Sched.allocproc np w.kernel
  { w with
    phys := s
    kstack := Function.update w.kstack np stack
    pgdir := Function.update w.pgdir np d
    kernel := k.setProc np { k.proc np with sz := (k.proc i).sz, parent := some i }
    tf := Function.update w.tf np { w.tf i with rax := 0 } }

/-- The last stores of `fork`. -/
def born (w : World) (i np : Slot) : World :=
  { w with
    name := Function.update w.name np (w.name i)
    kernel := w.kernel.setProc np { w.kernel.proc np with state := .runnable } }

end World

theorem allocproc_sz (k : Sched.Kernel) (i np : Slot) :
    ((Sched.allocproc np k).proc i).sz = (k.proc i).sz := by
  unfold Sched.allocproc
  by_cases h : i = np
  · subst h
    simp
  · simp [Sched.Kernel.setProc_ne _ _ h]

/-- `fork` fails at once when there is no slot; otherwise it copies the memory, then the files. -/
theorem ends_fork {Q : ℤ → World → Prop} (h : w.phys.Tree (w.pgdir i))
    (hfull : Sched.freeSlot w.kernel.proc = none → Q (-1) w)
    (hmemory : Sched.freeSlot w.kernel.proc ≠ none →
      w.phys.freelist.length < 1 + spacePages (copied (w.sz i)) → E .outOfMemory)
    (habsent : (∃ vb < userTop, PGSIZE ≤ vb ∧ vb < PGSIZE + copied (w.sz i) * PGSIZE ∧
      present (w.phys.pte (w.pgdir i) vb) = false) → E .copyuvmPte ∧ E .copyuvmPresent)
    (hcopy : ∀ np stack rest d s, Sched.freeSlot w.kernel.proc = some np →
      w.phys.freelist = stack :: rest →
      Clones (w.pgdir i) d (copied (w.sz i)) { w.phys with freelist := rest } s →
      Ends (dupFiles i np) (w.forked i np stack d s) E fun _ w₂ =>
        Q ((w₂.born i np).kernel.proc np).pid (w₂.born i np)) :
    Ends (fork i) w E Q := by
  rw [fork, ends_bind, allocproc, ends_bind, ends_get]
  cases hslot : Sched.freeSlot w.kernel.proc with
  | none => exact ends_pure.mpr (ends_pure.mpr (hfull hslot))
  | some np =>
    have hsome : Sched.freeSlot w.kernel.proc ≠ none := by rw [hslot]; exact Option.some_ne_none np
    dsimp only
    rw [ends_bind, ends_set, ends_bind, ends_onPhys]
    cases hfree : w.phys.freelist with
    | nil =>
      rw [ends_kalloc_nil hfree]
      exact hmemory hsome (by rw [hfree, length_nil]; omega)
    | cons stack rest =>
      rw [ends_kalloc_cons hfree]
      dsimp only
      rw [ends_bind, ends_modify, ends_pure]
      dsimp only
      have hpop : Phys.Tree { w.phys with freelist := rest } (w.pgdir i) :=
        (h.pop hfree).sublist (sublist_cons_self _ _)
      have hlen : w.phys.freelist.length = rest.length + 1 := by rw [hfree]; rfl
      have hsz := allocproc_sz w.kernel i np
      rw [ends_bind, ends_get, ends_bind, ends_onPhys]
      show Ends (copyuvm (w.pgdir i) ((Sched.allocproc np w.kernel).proc i).sz) _ _ _
      rw [hsz]
      refine (copyuvm_clones hpop).mono ?_ ?_
      · rintro e (⟨rfl, hless⟩ | ⟨hex, rfl | rfl⟩)
        · refine hmemory hsome ?_
          have hless' : rest.length < spacePages (copied (w.sz i)) := hless
          omega
        · exact (habsent hex).1
        · exact (habsent hex).2
      · rintro - s ⟨d, rfl, hclone⟩
        dsimp only
        rw [ends_bind, ends_modify, ends_bind]
        refine (hcopy np stack rest d s hslot hfree hclone).mono (fun _ he => he) ?_
        intro _ w₂ hq
        rw [ends_bind, ends_modify, ends_bind, ends_get, ends_pure]
        exact hq

theorem dupFiles_files :
    Ends (dupFiles i np) w
      (fun e => e = .filedup ∧ ∃ fd f, w.ofile i fd = some f ∧ (w.file f).ref < 1)
      fun _ w' => w' = { w with file := w'.file, ofile := w'.ofile } := by
  rw [dupFiles]
  refine (ends_forM (I := fun _ w₁ => w₁ = { w with file := w₁.file, ofile := w₁.ofile } ∧
    (∀ f, (w.file f).ref ≤ (w₁.file f).ref) ∧ ∀ fd, w₁.ofile i fd = w.ofile i fd)
    ⟨rfl, fun _ => Nat.le_refl _, fun _ => rfl⟩ ?_).mono (fun _ he => he) fun _ _ hI => hI.1
  rintro done fd rest w₁ - ⟨hw, href, hof⟩
  rw [ends_bind, ends_get]
  cases hfd : w₁.ofile i fd with
  | none => exact ends_pure.mpr ⟨hw, href, hof⟩
  | some f =>
    dsimp only
    rw [ends_bind, filedup, ends_bind, ends_get]
    split
    · next hlow =>
        refine ends_throw.mpr ⟨rfl, fd, f, (hof fd).symm.trans hfd, ?_⟩
        exact (href f).trans_lt hlow
    · rw [ends_set, ends_modify]
      refine ⟨?_, ?_, ?_⟩
      · rw [setOfile, setFile, hw]
      · intro g
        refine (href g).trans ?_
        by_cases hg : g = f
        · subst hg
          simp [setOfile, setFile]
        · simp [setOfile, setFile, hg]
      · intro fd'
        rw [← hof fd']
        simp only [setOfile, setFile, Function.update_apply]
        split
        · next hi =>
            subst hi
            rw [Function.update_apply]
            split
            · next hf => rw [hf, hfd]
            · rfl
        · rfl

/-! ## Stores of the two -/

/-- The user pages of an address space of this size. -/
def InSpace (sz va : ℕ) : Prop := PGSIZE ≤ va ∧ pgrounddown va < sz

theorem inSpace_iff {sz va : ℕ} (hsz : sz < 2 ^ 32) :
    InSpace sz va ↔ PGSIZE ≤ va ∧ va < PGSIZE + copied sz * PGSIZE := by
  rw [InSpace, copied, Nat.mod_eq_of_lt hsz, pagesTo, pgrounddown, pgsize_eq]
  omega

/-- Stores by user code, each through one of two page tables. -/
def stores (t d : ℕ) (l : List (Bool × ℕ × Byte)) : K Unit :=
  l.forM fun x => store (if x.1 then t else d) x.2.1 x.2.2

/-- What the tables map to is on pages of their own, now and after any stores through them, so that
a store through one leaves the memory behind the other as it is. -/
structure Isolated (s : Phys) (t d : ℕ) : Prop where
  left : ∀ l s₁, (stores t d l).run s = .ok ((), s₁) → ∀ va b s₂,
    (store t va b).run s₁ = .ok ((), s₂) → ∀ vb < userTop, s₂.pte d vb = s₁.pte d vb ∧
      (present (s₁.pte d vb) = true → s₂.mem (pteAddr (s₁.pte d vb) + vb % PGSIZE) =
        s₁.mem (pteAddr (s₁.pte d vb) + vb % PGSIZE))
  right : ∀ l s₁, (stores t d l).run s = .ok ((), s₁) → ∀ va b s₂,
    (store d va b).run s₁ = .ok ((), s₂) → ∀ vb < userTop, s₂.pte t vb = s₁.pte t vb ∧
      (present (s₁.pte t vb) = true → s₂.mem (pteAddr (s₁.pte t vb) + vb % PGSIZE) =
        s₁.mem (pteAddr (s₁.pte t vb) + vb % PGSIZE))

section

variable {s s' : Phys} {t d va vb : ℕ} {b : Byte}

section

variable (h : s.Heap (s.pages t ++ s.pages d))

include h

theorem Writes.heap (w : Writes t s s') :
    s'.Heap (s'.pages t ++ s'.pages d) := by
  rw [((w.moves h.left).sameTables h (List.Subset.refl _)).pages]
  exact (w.moves h.left).heap h

/-- A store through one table. -/
theorem Writes.other (w : Writes t s s')
    (hvb : vb < userTop) : s'.pte d vb = s.pte d vb ∧
      (present (s.pte d vb) = true → s'.mem (pteAddr (s.pte d vb) + vb % PGSIZE) =
        s.mem (pteAddr (s.pte d vb) + vb % PGSIZE)) := by
  have hmoves := w.moves h.left
  refine ⟨(hmoves.sameTables h (List.Subset.refl _)).pte hvb, fun hp => ?_⟩
  exact hmoves.same_elsewhere h (Tree.leaf h.right hvb hp).1 _ (Nat.mod_lt _ (by decide))

theorem stores_heap {l : List (Bool × ℕ × Byte)} :
    Ends (stores t d l) s (fun _ => True) fun _ s' => s'.Heap (s'.pages t ++ s'.pages d) := by
  refine ends_forM (I := fun _ (s' : Phys) => s'.Heap (s'.pages t ++ s'.pages d)) h ?_
  rintro done ⟨x, va, b⟩ rest s₁ - h₁
  refine store_writes.mono (fun _ he => he) fun _ s₂ hw => ?_
  cases x with
  | true => exact hw.heap h₁
  | false =>
    have hswap := hw.heap (h₁.perm perm_append_comm)
    exact hswap.perm perm_append_comm

theorem isolated_of_heap : Isolated s t d where
  left l s₁ hl va b s₂ hs vb hvb := by
    have h₁ := (stores_heap h).1 () s₁ hl
    exact (store_writes.1 () s₂ hs).other h₁ hvb
  right l s₁ hl va b s₂ hs vb hvb := by
    have h₁ := (stores_heap h).1 () s₁ hl
    exact (store_writes.1 () s₂ hs).other (h₁.perm perm_append_comm) hvb

end

end

/-! ## The copy -/

/-- In the state `s`, `d` is a copy of `t` on frames of its own. -/
structure CopyOf (s : Phys) (t d sz : ℕ) : Prop where
  pages : ∀ va < userTop, present (s.pte d va) = true ↔ InSpace sz va
  /-- If the parent maps nothing outside its size, the two map the same pages. -/
  exact : (∀ va < userTop, present (s.pte t va) = true → InSpace sz va) →
    ∀ va < userTop, present (s.pte d va) = present (s.pte t va)
  flags : ∀ va < userTop, InSpace sz va → pteFlags (s.pte d va) = pteFlags (s.pte t va)
  bytes : ∀ va < userTop, InSpace sz va → ∀ o < PGSIZE,
    s.mem (pteAddr (s.pte d va) + o) = s.mem (pteAddr (s.pte t va) + o)
  apart : ∀ va < userTop, ∀ vb < userTop, present (s.pte d va) = true →
    present (s.pte t vb) = true → pteAddr (s.pte d va) ≠ pteAddr (s.pte t vb)
  single : ∀ va < userTop, ∀ vb < userTop, present (s.pte d va) = true →
    present (s.pte d vb) = true → pteAddr (s.pte d va) = pteAddr (s.pte d vb) →
    va / PGSIZE = vb / PGSIZE

/-- Nothing of the parent changed. -/
structure Untouched (s s' : Phys) (t : ℕ) : Prop where
  ptes : ∀ va < userTop, s'.pte t va = s.pte t va
  bytes : ∀ va < userTop, present (s.pte t va) = true → Same s s' (pteAddr (s.pte t va))

theorem Makes.untouched {s s' : Phys} {t d : ℕ} (m : Makes d s s') (h : s.Tree t) :
    Untouched s s' t where
  ptes _ hva := (m.sameTables h (List.Subset.refl _)).pte hva
  bytes _ hva hp := m.same_elsewhere h (Tree.leaf h hva hp).1

theorem Clones.copyOf {s s' : Phys} {t d sz : ℕ} (h : s.Tree t) (hsz : sz < 2 ^ 32)
    (c : Clones t d (copied sz) s s') : CopyOf s' t d sz ∧ Untouched s s' t := by
  have hheap := c.heap h
  have hun := c.untouched h
  have hpte : ∀ va < userTop, s'.pte t va = s.pte t va := hun.ptes
  have hpages : ∀ va < userTop, present (s'.pte d va) = true ↔ InSpace sz va := by
    intro va hva
    rw [inSpace_iff hsz]
    constructor
    · intro hp
      by_contra hout
      rw [c.outside va hva (by omega)] at hp
      cases hp
    · rintro ⟨hlo, hhi⟩
      exact (c.inside va hva hlo hhi).1
  have htree : s'.Tree t := by
    have hsame := c.sameTables h (List.Subset.refl (s.pages t))
    rw [Phys.Tree, hsame.pages]
    exact hheap.right
  refine ⟨⟨hpages, ?_, ?_, ?_, ?_, ?_⟩, hun⟩
  · intro hin va hva
    rw [Bool.eq_iff_iff, hpages va hva]
    refine ⟨fun hspace => ?_, hin va hva⟩
    rw [hpte va hva]
    obtain ⟨hlo, hhi⟩ := (inSpace_iff hsz).mp hspace
    exact c.whole va hva hlo hhi
  · intro va hva hspace
    obtain ⟨hlo, hhi⟩ := (inSpace_iff hsz).mp hspace
    rw [hpte va hva]
    exact (c.inside va hva hlo hhi).2.1
  · intro va hva hspace o ho
    obtain ⟨hlo, hhi⟩ := (inSpace_iff hsz).mp hspace
    rw [hpte va hva, (c.inside va hva hlo hhi).2.2 o ho]
    exact (hun.bytes va hva (c.whole va hva hlo hhi) o ho).symm
  · intro va hva vb hvb hp hq heq
    have hd := (Tree.leaf hheap.left hva hp).1
    have ht := (Tree.leaf htree hvb hq).1
    rw [(c.sameTables h (List.Subset.refl (s.pages t))).pages] at ht
    have hnodup := (nodup_append.mp hheap.nodup).2.1
    exact (nodup_append.mp hnodup).2.2 _ hd _ ht heq
  · intro va hva vb hvb hp hq heq
    exact Tree.leaf_inj hheap.left hva hvb hp hq heq

/-- **`fork` copies and isolates.** After a `fork` that succeeded, the child's table maps the pages
of `[PGSIZE, sz)` with the flags and the bytes of the parent's, on frames that are neither the
parent's nor used twice; the parent's memory is as it was; and no store by one of the two is ever
seen by the other. -/
theorem fork_copies_isolated {r : ℤ} (hlive : (w.kernel.proc i).state ≠ .unused)
    (h : w.phys.Tree (w.pgdir i)) (hsz : w.sz i < 2 ^ 32)
    (hrun : (fork i).run w = .ok (r, w')) (hr : r ≠ -1) :
    ∃ np, (w.kernel.proc np).state = .unused ∧ (w'.kernel.proc np).pid = r ∧
      (w'.kernel.proc np).parent = some i ∧ w'.sz np = w.sz i ∧ w'.pgdir i = w.pgdir i ∧
      CopyOf w'.phys (w'.pgdir i) (w'.pgdir np) (w.sz i) ∧
      Untouched w.phys w'.phys (w.pgdir i) ∧
      Isolated w'.phys (w'.pgdir i) (w'.pgdir np) := by
  revert hr
  apply (ends_of_ok (E := fun _ => True) hrun).mp
  refine ends_fork h (fun _ hr => absurd rfl hr) (fun _ _ => trivial) (fun _ => ⟨trivial, trivial⟩) ?_
  intro np stack rest d s hslot hfree hclone
  refine dupFiles_files.mono (fun _ _ => trivial) ?_
  intro _ w₂ hw₂ _
  have hnp := Sched.freeSlot_unused hslot
  have hne : i ≠ np := by
    rintro rfl
    exact hlive hnp
  have hpop : Phys.Tree { w.phys with freelist := rest } (w.pgdir i) :=
    (h.pop hfree).sublist (sublist_cons_self _ _)
  obtain ⟨hcopy, hun⟩ := hclone.copyOf hpop hsz
  have hheap := hclone.heap hpop
  have hsame := hclone.sameTables hpop (List.Subset.refl _)
  rw [hw₂]
  refine ⟨np, hnp, rfl, ?_, ?_, ?_, ?_, ?_, ?_⟩
  · simp [born, forked]
  · simp [born, forked, sz, allocproc_sz]
  · simp [born, forked, hne]
  · simpa [born, forked, hne] using hcopy
  · exact ⟨hun.ptes, hun.bytes⟩
  · have hiso : Isolated s (w.pgdir i) d := by
      refine isolated_of_heap ?_
      rw [hsame.pages]
      exact hheap.perm perm_append_comm
    simpa [born, forked, hne] using hiso

/-- The first process, as it is after boot, forks. -/
theorem fork_copies_isolated_boot :
    ∃ w w' r np, (fork 0).run w = .ok (r, w') ∧ r ≠ -1 ∧ w.sz 0 = 2 * PGSIZE ∧
      (w'.kernel.proc np).pid = r ∧ CopyOf w'.phys (w'.pgdir 0) (w'.pgdir np) (w.sz 0) ∧
      Isolated w'.phys (w'.pgdir 0) (w'.pgdir np) := by
  obtain ⟨w, hw, hfree⟩ := exists_booted
  have hheap := hw.heap (Nat.succ_pos _) (by decide)
  have htree : w.phys.Tree (w.pgdir 0) := hheap.left
  have hsz : w.sz 0 = 2 * PGSIZE := by
    rw [sz, hw.kernel]
    rfl
  have hcopied : copied (w.sz 0) = 1 := by
    rw [hsz]
    decide
  have hends : Ends (fork 0) w (fun _ => False) fun r _ => r ≠ -1 := by
    refine ends_fork htree ?_ ?_ ?_ ?_
    · intro hnone
      rw [hw.kernel, Sched.freeSlot] at hnone
      exact absurd (List.find?_eq_none.mp hnone 1 (mem_finRange _)) (by decide)
    · intro _ hless
      have hfive : spacePages (copied (w.sz 0)) = 5 := by
        rw [hcopied]
        decide
      omega
    · rintro ⟨vb, hvb, hlo, hhi, habsent⟩
      rw [hcopied] at hhi
      rw [(hw.mapped vb hvb).mpr ⟨hlo, by omega⟩] at habsent
      cases habsent
    · intro np stack rest d s _ _ _
      refine dupFiles_files.mono ?_ ?_
      · rintro e ⟨-, fd, f, hfd, -⟩
        rw [forked, hw.ofile] at hfd
        cases hfd
      · intro _ w₂ hw₂ hpid
        rw [hw₂] at hpid
        simp [born, forked, Sched.allocproc, hw.kernel] at hpid
        exact absurd hpid (by decide)
  obtain ⟨r, w', hrun, hr⟩ := hends.exists_ok
  obtain ⟨np, -, hpid, -, -, -, hcopy, -, hiso⟩ :=
    fork_copies_isolated (by rw [hw.kernel]; decide) htree (by rw [hsz]; decide) hrun hr
  exact ⟨w, w', r, np, hrun, hr, hsz, hpid, hcopy, hiso⟩

end Xv6.Vm
