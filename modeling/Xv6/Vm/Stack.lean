import Xv6.Vm.Image

/-!
# The stack that `exec` builds

Above the segments `exec` adds two pages. It takes the lower one from the user and stores the strings
of the arguments in the upper one, each in whole words, from the top down. `copyout` refuses the lower
page, so the strings stay in the upper one or `exec` fails. An argument longer than all that lies
below the stack pointer makes the address wrap, and `copyout` faults (`Wraps`).
-/

namespace Xv6.Vm

open Fallible List
open Bytes (Byte)
open Sched (PGSIZE)

variable {s s' s'' : Phys} {n d sz va : ℕ} {file : List Byte}

open Phys

/-! ## The two pages -/

theorem Image.roundup (h : Image n d sz s) : Image n d (pgroundup sz) s := by
  have hbelow := h.below
  have htop := h.top_lt
  have hlt : pgroundup sz < KERNBASE := by
    rw [userTop] at htop
    rw [KERNBASE]
    omega
  have htwice : pgroundup (pgroundup sz) = pgroundup sz := by
    have hal := pgroundup_aligned sz
    rw [pgsize_eq] at hal
    rw [pgroundup_eq hlt]
    omega
  have hpages : pagesTo PGSIZE (pgroundup sz) = pagesTo PGSIZE sz := by
    have hlow := h.low
    rw [pgroundup_eq h.user]
    simp only [pagesTo, pgsize_eq] at *
    omega
  refine ⟨h.tree, ?_, h.zero, h.blank, h.low.trans hbelow, hlt, ?_, ?_, h.room⟩
  · intro va hva
    rw [htwice, h.mapped va hva]
  · rw [hpages]
    exact h.has
  · rw [hpages]
    exact h.count

theorem Image.top (h : Image n d sz s) (hal : sz % PGSIZE = 0) : pgroundup sz = sz := by
  rw [pgsize_eq] at hal
  rw [pgroundup_eq h.user]
  omega

/-- Two pages on top of an image whose end is aligned. -/
theorem stack_pages {r : ℕ} (hal : sz % PGSIZE = 0) (hlow : PGSIZE ≤ sz)
    (hr : r = sz + 2 * PGSIZE) : r % PGSIZE = 0 ∧ 3 * PGSIZE ≤ r := by
  rw [pgsize_eq] at *
  omega

/-- The lower one of the two last pages is there. -/
theorem Image.stack_present (h : Image n d sz s) (hlarge : 3 * PGSIZE ≤ sz) :
    sz - 2 * PGSIZE < userTop ∧ present (s.pte d (sz - 2 * PGSIZE)) = true := by
  have htop := h.top_lt
  have hbelow := h.below
  have huser : sz - 2 * PGSIZE < userTop := by omega
  have hpos : 0 < PGSIZE := by decide
  exact ⟨huser, (h.mapped _ huser).mpr (by omega)⟩

/-- The image with its stack page on top, and a page below that which the user cannot reach. -/
structure Stacked (n d sz : ℕ) (s : Phys) : Prop extends Image n d sz s where
  aligned : sz % PGSIZE = 0
  large : 3 * PGSIZE ≤ sz
  guard : ∀ vb, sz - 2 * PGSIZE ≤ vb → vb < sz - PGSIZE → s.pte d vb &&& PTE_U = 0
  stack : ∀ vb, sz - PGSIZE ≤ vb → vb < sz → s.UserPage d vb

theorem Stacked.writes (h : Stacked n d sz s) (w : Writes d s s') : Stacked n d sz s' := by
  have hroom := h.top_lt
  have htop := h.top h.aligned
  refine ⟨h.toImage.writes w, h.aligned, h.large, fun vb hlo hhi => ?_, fun vb hlo hhi => ?_⟩
  · rw [w.pte h.tree (by omega)]
    exact h.guard vb hlo hhi
  · rw [UserPage, w.pte h.tree (by omega)]
    exact h.stack vb hlo hhi

/-- The page below the stack is taken from the user. -/
theorem Image.clears (h : Image n d sz s) (hal : sz % PGSIZE = 0) (hlarge : 3 * PGSIZE ≤ sz)
    (huser : ∀ vb, sz - PGSIZE ≤ vb → vb < sz → s.UserPage d vb)
    (c : Clears d (sz - 2 * PGSIZE) s s') : Stacked n d sz s' := by
  have hroom := h.top_lt
  have hbelow := h.below
  have hpage : (sz - 2 * PGSIZE) % PGSIZE = 0 := by
    rw [pgsize_eq] at *
    omega
  obtain ⟨-, hp⟩ := h.stack_present hlarge
  have hpresent : ∀ va < userTop, present (s'.pte d va) = present (s.pte d va) := by
    intro va hva'
    rw [c.ptes va hva']
    split
    · next hsame => rw [(clearedEntry_eq hp).1, pte_page hsame, hp]
    · rfl
  refine ⟨⟨c.tree h.tree, ?_, ?_, ?_, h.low, h.user, ?_, ?_, h.room⟩, hal, hlarge, ?_, ?_⟩
  · intro va hva'
    rw [hpresent va hva', h.mapped va hva']
  · intro va hva' habsent
    have hbefore := habsent
    rw [hpresent va hva'] at hbefore
    rw [c.ptes va hva', if_neg]
    · exact h.zero va hva' hbefore
    · intro hsame
      rw [pte_page hsame, hp] at hbefore
      cases hbefore
  · intro i hi
    rw [c.half i hi.le]
    exact h.blank i hi
  · intro i is
    rw [c.has, h.has]
  · rw [c.freelist]
    exact h.count
  · intro vb hlo hhi
    rw [c.ptes vb (by omega), if_pos]
    · exact cleared_user _
    · rw [page_eq_iff hpage]
      rw [pgsize_eq] at *
      omega
  · intro vb hlo hhi
    rw [UserPage, c.ptes vb (by omega), if_neg]
    · exact huser vb hlo hhi
    · rw [page_eq_iff hpage]
      rw [pgsize_eq] at *
      omega

/-! ## `copyout` to the stack -/

variable {sp len : ℕ} {args argv : List (List Byte)}

/-- `copyout` to `len` bytes below `sp`. It faults if and only if that is below 0, and it succeeds if
and only if there is room on the stack. -/
theorem Stacked.copyout_stacked {bs : List Byte} (h : Stacked n d sz s) (hbs : bs ≠ [])
    (hlo : sz - PGSIZE ≤ sp) (hhi : sp ≤ sz) (hlen : bs.length ≤ len)
    (hslack : len < bs.length + 8) (hlong : len < 2 ^ 39)
    (hva : va = (sp + 2 ^ 64 - len) % 2 ^ 64) :
    Ends (copyout d va bs) s (fun e => e = .trap ∧ sp < len) fun ok s' =>
      Writes d s s' ∧ len ≤ sp ∧ (ok = true ↔ sz - PGSIZE + len ≤ sp) := by
  have hroom := h.top_lt
  have htop := h.top h.aligned
  have hlarge := h.large
  have hpos : 0 < bs.length := length_pos_iff.mpr hbs
  have huser : sz < 2 ^ 47 := by
    rw [userTop] at hroom
    omega
  by_cases hfits : len ≤ sp
  · obtain rfl : va = sp - len := by omega
    have hend : sp - len + bs.length ≤ userTop := by
      rw [userTop]
      omega
    refine (copyoutLoop_copies bs.length h.tree (fun k hk _ => by omega)
      (Nat.le_refl _)).mono ?_ ?_
    · rintro e ⟨rfl, k, hk, hnone, -⟩
      exact absurd hnone (h.lastTable (by rw [pgsize_eq] at *; omega) (by omega))
    · rintro ok s' ⟨m, hc⟩
      have hle := hc.le
      have htaken := hc.length_take
      refine ⟨hc.puts.writes fun k hk => by omega, hfits, ?_⟩
      rw [hc.ok_iff]
      constructor
      · -- otherwise the bytes would reach into the page below the stack
        intro hall
        by_contra hbelow
        obtain ⟨k, hk, hvb⟩ : ∃ k < bs.length,
            sp - len + k = max (sp - len) (sz - 2 * PGSIZE) := by
          refine ⟨max (sp - len) (sz - 2 * PGSIZE) - (sp - len), ?_, by omega⟩
          rw [pgsize_eq] at *
          omega
        refine (hall k hk).2 ?_
        rw [hvb]
        exact h.guard _ (Nat.le_max_right _ _) (by rw [pgsize_eq] at *; omega)
      · intro hin k hk
        exact h.stack _ (by omega) (by omega)
  · -- the address wrapped, and there is no table up there
    rw [copyout_faults hbs]
    · exact ⟨rfl, by omega⟩
    · have hindex : index 3 va = 511 := by
        rw [index]
        omega
      rw [hindex, h.blank 511 (by decide)]
      exact next_zero

/-! ## The strings -/

/-- What a string takes on the stack, with its NUL, in whole words. -/
def stringRoom (a : List Byte) : ℕ := (a.length / 8 + 1) * 8

/-- Some string does not fit below the stack pointer at all, although those before it fit on the
stack. There is room for `room` more of them in `ustack`. -/
def Wraps (sz : ℕ) : (room sp : ℕ) → List (List Byte) → Prop
  | room + 1, sp, a :: args => sp < stringRoom a ∨
      sz - PGSIZE + stringRoom a ≤ sp ∧ Wraps sz room (sp - stringRoom a) args
  | _, _, _ => False

/-- The address is the end of the string rounded down to a word. -/
theorem pushed_eq (hsp : sp < 2 ^ 47) (hal : sp % 8 = 0) (hlen : len < 2 ^ 38) :
    pushed sp len = (sp + 2 ^ 64 - (len / 8 + 1) * 8) % 2 ^ 64 := by
  rw [pushed, Nat.mod_eq_of_lt (show len + 1 < 2 ^ 64 by omega)]
  omega

/-- What the loop over the arguments gives: the stack pointer is still on the stack. -/
structure Pushed (sz : ℕ) (o : Option (ℕ × List ℕ)) : Prop where
  stack : ∀ sp ustack, o = some (sp, ustack) → sz - PGSIZE ≤ sp ∧ sp ≤ sz ∧ sp % 8 = 0
  count : ∀ sp ustack, o = some (sp, ustack) → ustack.length ≤ MAXARG

theorem pushArgs_stacked (args : List (List Byte)) : ∀ {sp : ℕ} {ustack : List ℕ} {s : Phys},
    Stacked n d sz s → sz - PGSIZE ≤ sp → sp ≤ sz → sp % 8 = 0 → (∀ a ∈ args, a.length < 2 ^ 38) →
    ustack.length ≤ MAXARG →
    Ends (pushArgs d args sp ustack) s
      (fun e => e = .trap ∧ Wraps sz (MAXARG - ustack.length) sp args)
      fun o s' => Writes d s s' ∧ ¬ Wraps sz (MAXARG - ustack.length) sp args ∧ Pushed sz o := by
  induction args with
  | nil =>
    intro sp ustack s h hlo hhi hal _ hlen
    refine ends_pure.mpr ⟨.refl d s, ?_, ?_, ?_⟩
    · cases MAXARG - ustack.length <;> exact id
    · rintro sp' ustack' ⟨⟩
      exact ⟨hlo, hhi, hal⟩
    · rintro sp' ustack' ⟨⟩
      exact hlen
  | cons a args ih =>
    intro sp ustack s h hlo hhi hal hargs hlen
    have ha := hargs a mem_cons_self
    have hroom := h.top_lt
    have htop := h.top h.aligned
    rw [userTop] at hroom
    rw [pushArgs]
    split
    · next hmany =>
        refine ends_pure.mpr ⟨.refl d s, ?_, ⟨fun _ _ hnone => ?_, fun _ _ hnone => ?_⟩⟩
        · rw [show MAXARG - ustack.length = 0 by omega]
          exact id
        · cases hnone
        · cases hnone
    next hfew =>
    have hround := pushed_eq (by omega) hal ha
    have hlength : (a ++ [0]).length = a.length + 1 := by
      rw [length_append, length_singleton]
    have hmore : MAXARG - ustack.length = MAXARG - (ustack.length + 1) + 1 := by omega
    rw [hmore, Wraps, ends_bind]
    refine (h.copyout_stacked (append_ne_nil_of_right_ne_nil a (cons_ne_nil _ _)) hlo hhi
      (by omega) (by omega) (by omega) hround).mono ?_ ?_
    · rintro e ⟨rfl, hlong⟩
      exact ⟨rfl, .inl hlong⟩
    · rintro ok s₁ ⟨hw, hfits, hiff⟩
      rw [← stringRoom] at hfits hiff hround
      split
      · next htrue =>
          have hin := hiff.mp htrue
          have hsp : pushed sp a.length = sp - stringRoom a := by omega
          have hal' : pushed sp a.length % 8 = 0 := Nat.mul_mod_left _ _
          have hone : (ustack ++ [pushed sp a.length]).length = ustack.length + 1 := by
            rw [length_append, length_singleton]
          refine (ih (h.writes hw) (by omega) (by omega) hal'
            (fun b hb => hargs b (mem_cons_of_mem _ hb)) (by omega)).mono ?_ ?_
          all_goals rw [hone, hsp]
          · rintro e ⟨rfl, hwraps⟩
            exact ⟨rfl, .inr ⟨hin, hwraps⟩⟩
          · rintro o s₂ ⟨hw', hno, hpushed⟩
            refine ⟨hw.trans h.tree hw', ?_, hpushed⟩
            rintro (hlong | ⟨-, hwraps⟩)
            · omega
            · exact hno hwraps
      · next hfalse =>
          refine ends_pure.mpr ⟨hw, ?_, ⟨fun _ _ hnone => ?_, fun _ _ hnone => ?_⟩⟩
          · rintro (hlong | ⟨hin, -⟩)
            · omega
            · exact hfalse (hiff.mpr hin)
          · cases hnone
          · cases hnone

/-! ## All of the image -/

/-- The pages that `exec` takes for an image, the two of the stack among them. -/
def Plan.need : Plan → ℕ
  | .bad sz => spacePages (pagesTo PGSIZE sz)
  | .low => spacePages 0
  | .image sz => spacePages (pagesTo PGSIZE sz + 2)

/-- `exec` neither reads an image into the first page nor has an argument that wraps around. -/
def Plan.Sound (argv : List (List Byte)) : Plan → Prop
  | .bad _ => True
  | .low => False
  | .image sz => ¬ Wraps (pgroundup sz + 2 * PGSIZE) MAXARG (pgroundup sz + 2 * PGSIZE) argv

theorem Plan.pages_le_need (p : Plan) : p.pages ≤ p.need := by
  cases p with
  | bad sz => exact Nat.le_refl _
  | low => exact Nat.le_refl _
  | image sz => exact spacePages_mono (Nat.le_add_right _ 2)

theorem Plan.need_pos (p : Plan) : 0 < p.need := by
  cases p <;> exact Nat.lt_of_lt_of_le Nat.one_pos (by rw [need, spacePages]; omega)

/-- The image of a program with the strings of its arguments. -/
structure LoadsImage (n d : ℕ) (s : Phys) (o : Option (ℕ × ℕ × List ℕ)) (s' : Phys) : Prop where
  moves : Moves d s s'
  stacked : ∀ sz sp ustack, o = some (sz, sp, ustack) → Stacked n d sz s'
  pushed : ∀ sz sp ustack, o = some (sz, sp, ustack) → Pushed sz (some (sp, ustack))

theorem LoadsImage.fail (hm : Moves d s s') : LoadsImage n d s none s' where
  moves := hm
  stacked _ _ _ hnone := by cases hnone
  pushed _ _ _ hnone := by cases hnone

/-- `exec` up to the strings on the stack. -/
theorem loadImage_stacked {elf : Elfhdr} {p : Plan} (h : Image n d PGSIZE s)
    (hplan : plan file elf.phnum (elf.phoff % 2 ^ 32) PGSIZE = p)
    (hargs : ∀ a ∈ argv, a.length < 2 ^ 38) :
    Ends (loadImage file elf argv d) s
      (fun e => e = .outOfMemory ∧ n < p.need ∨
        (e = .loaduvmAddress ∨ e = .trap) ∧ ¬ p.Sound argv)
      fun o s' => p.need ≤ n ∧ p.Sound argv ∧ LoadsImage n d s o s' := by
  rw [loadImage, ends_bind]
  refine (loadSegments_image _ h).mono ?_ ?_
  · rw [hplan]
    rintro e (⟨rfl, hfew⟩ | ⟨rfl, rfl⟩)
    · exact .inl ⟨rfl, hfew.trans_le p.pages_le_need⟩
    · exact .inr ⟨.inl rfl, id⟩
  rw [hplan]
  rintro o s₁ ⟨hm, sz, him, ⟨rfl, rfl⟩ | ⟨rfl, rfl⟩⟩
  · exact ends_pure.mpr ⟨him.count ▸ Nat.le_add_left _ _, trivial, .fail hm⟩
  have hround := him.roundup
  have hroom := him.top_lt
  have hal := pgroundup_aligned sz
  have htwice := hround.top hal
  have hlt : pgroundup sz + 2 * PGSIZE < KERNBASE := by
    rw [userTop] at hroom
    rw [pgsize_eq, KERNBASE]
    omega
  have hpages : pagesTo (pgroundup sz) (pgroundup sz + 2 * PGSIZE) = 2 := by
    rw [pagesTo, pgsize_eq]
    omega
  have htotal : pagesTo PGSIZE (pgroundup sz + 2 * PGSIZE) = pagesTo PGSIZE sz + 2 := by
    have hlow := him.low
    rw [pgroundup_eq him.user]
    simp only [pagesTo, pgsize_eq] at *
    omega
  dsimp only
  rw [Nat.mod_eq_of_lt (hlt.trans (by decide)), ends_bind]
  refine hround.allocuvm_image.mono ?_ ?_
  · rintro e ⟨rfl, -, -, hless⟩
    rw [htotal] at hless
    exact .inl ⟨rfl, hless⟩
  rintro r s₂ (⟨-, -, hhigh⟩ | ⟨hr, -, him₂, ha⟩)
  · omega
  obtain rfl : r = pgroundup sz + 2 * PGSIZE := by omega
  obtain ⟨hral, hlarge⟩ := stack_pages hal hround.low rfl
  obtain ⟨hguard, hpresent⟩ := him₂.stack_present hlarge
  have hroom₂ := him₂.top_lt
  have hbelow₂ := him₂.below
  have hcount := him₂.count
  rw [htotal] at hcount
  have huser : ∀ vb, pgroundup sz + 2 * PGSIZE - PGSIZE ≤ vb → vb < pgroundup sz + 2 * PGSIZE →
      s₂.UserPage d vb := by
    intro vb hlo hhi
    refine ha.userPage (by omega) (by omega) ?_
    rw [htwice, hpages]
    omega
  rw [if_neg him₂.ne_zero, ends_bind]
  refine (clearpteu_clears him₂.tree hguard hpresent).mono (fun _ he => he) ?_
  intro _ s₃ hc
  have hst := him₂.clears hral hlarge huser hc
  have hm₃ := (hm.trans ha.toGrows.moves).trans hc.toMoves
  rw [ends_bind]
  refine (pushArgs_stacked argv hst (Nat.sub_le _ _) (Nat.le_refl _) ?_ hargs
    (Nat.zero_le _)).mono ?_ ?_
  · rw [pgsize_eq] at hral ⊢
    omega
  · rintro e ⟨rfl, hlong⟩
    exact .inr ⟨.inr rfl, not_not_intro hlong⟩
  · rintro o s₄ ⟨hw, hno, hpush⟩
    have hm₄ := hm₃.trans (hw.moves hst.tree)
    have hneed : Plan.need (.image sz) ≤ n := hcount ▸ Nat.le_add_left _ _
    cases o with
    | none => exact ends_pure.mpr ⟨hneed, hno, .fail hm₄⟩
    | some x =>
      refine ends_pure.mpr ⟨hneed, hno, hm₄, ?_, ?_⟩
      · rintro sz' sp' ustack' ⟨⟩
        exact hst.writes hw
      · rintro sz' sp' ustack' ⟨⟩
        exact hpush

end Xv6.Vm
