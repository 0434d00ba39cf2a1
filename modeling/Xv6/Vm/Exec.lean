import Xv6.Vm.Stack

/-!
# `exec`

What `exec` needs can be told before the call, from the file and the arguments (`Ready`). With that
it succeeds, or it fails and has freed what it took: the free pages are those of before, and no page
in use has changed. Without it, `exec` does not return.
-/

namespace Xv6.Vm

open Fallible List
open Bytes (Byte)
open Sched (PGSIZE Slot)

variable {s s' s'' : Phys} {w w' : World} {i : Slot} {n d sz : ℕ} {E : Panic → Prop}

open Phys

/-- The free pages are the same ones, and the pages in use are as they were. -/
structure Restores (s s' : Phys) : Prop where
  perm : s'.freelist.Perm s.freelist
  same : ∀ p, p % PGSIZE = 0 → 0 < p → p ∉ s.freelist → Same s s' p

theorem Restores.refl (s : Phys) : Restores s s := ⟨.refl _, fun p _ _ _ => .refl p⟩

theorem Makes.restores (m : Makes d s s') (f : Frees (s'.pages d) s' s'') : Restores s s'' where
  perm := by
    rw [f.freelist]
    refine ((reverse_perm _).append_right _).trans ?_
    exact perm_append_comm.trans m.perm
  same p hp hpos hnot := by
    refine (m.same p hp hpos hnot).trans (f.same p hp fun hin => hnot ?_)
    exact m.perm.mem_iff.mp (mem_append_right _ hin)

theorem wordBytes_length (l : List ℕ) : (l.flatMap wordBytes).length = 8 * l.length := by
  induction l with
  | nil => rfl
  | cons v l ih =>
    rw [flatMap_cons, length_append, ih, wordBytes, length_map, length_range,
      length_cons]
    omega

/-- The table of the arguments is stored below the strings if there is room, and else `copyout`
fails. -/
theorem Stacked.copyout_table {sp : ℕ} {ustack : List ℕ} (h : Stacked n d sz s)
    (hpushed : Pushed sz (some (sp, ustack))) :
    Ends (copyout d (below sp (1 + ustack.length + 1))
      (([2 ^ 64 - 1] ++ ustack ++ [0]).flatMap wordBytes)) s E fun _ s' => Writes d s s' := by
  obtain ⟨hlo, hhi, -⟩ := hpushed.stack sp ustack rfl
  have hmax := hpushed.count sp ustack rfl
  have hlarge := h.large
  have hlen : (([2 ^ 64 - 1] ++ ustack ++ [0]).flatMap wordBytes).length =
      8 * (1 + ustack.length + 1) := by
    rw [wordBytes_length, length_append, length_append, length_singleton, length_singleton]
  rw [MAXARG] at hmax
  rw [pgsize_eq] at hlarge hlo
  refine (h.copyout_stacked ?_ (by rw [pgsize_eq]; exact hlo) hhi hlen.le (by omega) (by omega)
    rfl).mono ?_ ?_
  · intro hnil
    rw [hnil, length_nil] at hlen
    omega
  · rintro e ⟨-, hbig⟩
    omega
  · rintro ok s' ⟨hw, -⟩
    exact hw

/-- How the loading of a file goes. Without a file, an ELF header and its magic number, `exec` fails
at once. -/
def execPlan (file : Option (List Byte)) : Option Plan := do
  let file ← file
  let elf ← readElfhdr file
  if elf.magic ≠ ELF_MAGIC then none
  else some (plan file elf.phnum (elf.phoff % 2 ^ 32) PGSIZE)

/-- There are the pages that the call takes, no segment asks for the first page, and no argument
wraps around. -/
def Ready (w : World) (file : Option (List Byte)) (argv : List (List Byte)) : Prop :=
  ∀ p, execPlan file = some p → p.need ≤ w.phys.freelist.length ∧ p.Sound argv

/-- What `exec` returns. When it fails, the memory is as before, but the frame may not be: it is
changed before the last step that may fail. -/
def ExecReturns (w : World) (r : ℤ) (w' : World) : Prop :=
  r = 0 ∨ r = -1 ∧ ∃ s tf, Restores w.phys s ∧ w' = { w with phys := s, tf := tf }

/-- **`exec` returns if and only if it is ready.** -/
theorem exec_restores {file : Option (List Byte)} {path : List Byte} {argv : List (List Byte)}
    (h : w.phys.Tree (w.pgdir i)) (hargs : ∀ a ∈ argv, a.length < 2 ^ 38) :
    Ends (exec i file path argv) w (fun _ => ¬ Ready w file argv) fun r w' =>
      Ready w file argv ∧ ExecReturns w r w' := by
  have hbad : execPlan file = none → Ends (pure (-1) : W ℤ) w (fun _ => ¬ Ready w file argv)
      fun r w' => Ready w file argv ∧ ExecReturns w r w' := by
    intro hnone
    refine ends_pure.mpr ⟨fun p hp => ?_, .inr ⟨rfl, w.phys, w.tf, .refl _, rfl⟩⟩
    rw [hnone] at hp
    cases hp
  unfold exec
  cases file with
  | none => exact hbad rfl
  | some file =>
    dsimp only
    cases helf : readElfhdr file with
    | none => exact hbad (by simp [execPlan, helf])
    | some elf =>
      dsimp only
      split
      · next hmagic => exact hbad (by simp [execPlan, helf, hmagic])
      next hmagic =>
      obtain ⟨p, hp⟩ : ∃ p, plan file elf.phnum (elf.phoff % 2 ^ 32) PGSIZE = p := ⟨_, rfl⟩
      have hready : Ready w (some file) argv ↔
          p.need ≤ w.phys.freelist.length ∧ p.Sound argv := by
        have hsome : execPlan (some file) = some p := by
          simp only [execPlan, Option.bind_eq_bind, Option.bind_some, helf, if_neg hmagic, hp]
        simp only [Ready, hsome, Option.some.injEq, forall_eq']
      rw [ends_bind, ends_onPhys]
      refine (setupkvm_empties fun p hp => h.valid p (mem_append_left _ hp)).mono ?_ ?_
      · rintro e ⟨rfl, hnil⟩ hyes
        have hneed := (hready.mp hyes).1
        rw [hnil, length_nil] at hneed
        exact absurd p.need_pos (Nat.not_lt.mpr hneed)
      rintro - s₀ ⟨d, rfl, hempty⟩
      have htree₀ : s₀.Tree d := (hempty.makes.heap h).left
      -- whatever happens next, the new tree can be freed
      have hback : ∀ s tf, Makes d w.phys s → Ready w (some file) argv → Ends (do
          onPhys (freevm d)
          pure (-1) : W ℤ) { w with phys := s, tf := tf } (fun _ => ¬ Ready w (some file) argv)
          fun r w' => Ready w (some file) argv ∧ ExecReturns w r w' := by
        intro s tf hm hyes
        rw [ends_bind, ends_onPhys]
        refine (freevm_frees (hm.heap h).left).mono (fun _ he => he.elim) fun _ s' hf => ?_
        exact ends_pure.mpr ⟨hyes, .inr ⟨rfl, s', tf, hm.restores hf, rfl⟩⟩
      dsimp only
      rw [ends_bind, ends_onPhys]
      refine (loadImage_stacked (Image.of_empties hempty htree₀ h.freelist_length) hp
        hargs).mono ?_ ?_
      · rintro e (⟨-, hfew⟩ | ⟨-, hno⟩) hyes
        · exact absurd hfew (Nat.not_lt.mpr (hready.mp hyes).1)
        · exact hno (hready.mp hyes).2
      rintro o s₁ ⟨hneed, hsound, himage⟩
      have hyes := hready.mpr ⟨hneed, hsound⟩
      have hm₁ := hempty.makes.moves himage.moves
      cases o with
      | none => exact hback s₁ w.tf hm₁ hyes
      | some x =>
        obtain ⟨sz, sp, ustack⟩ := x
        have hst := himage.stacked sz sp ustack rfl
        dsimp only
        rw [ends_bind, ends_modify, ends_bind, ends_onPhys]
        refine (hst.copyout_table (himage.pushed sz sp ustack rfl)).mono (fun _ he => he) ?_
        intro ok s₂ hw
        have hm₂ := hm₁.moves (hw.moves hst.tree)
        split
        · have hheap := hm₂.heap h
          have hold : s₂.Tree (w.pgdir i) := by
            rw [Phys.Tree, (hm₂.sameTables h (List.Subset.refl _)).pages]
            exact hheap.right
          have hdpos : d ≠ 0 :=
            (hheap.left.pos (Leads.mem_pages (s := s₂) (t := d) .here)).ne'
          rw [ends_bind, ends_get, ends_bind, ends_set, ends_bind, ends_modify, ends_bind,
            switchuvm, if_neg hdpos, ends_pure, ends_bind, ends_onPhys]
          exact (freevm_frees hold).mono (fun _ he => he.elim) fun _ s₃ _ =>
            ends_pure.mpr ⟨hyes, .inl rfl⟩
        · exact hback s₂ _ hm₂ hyes

end Xv6.Vm
