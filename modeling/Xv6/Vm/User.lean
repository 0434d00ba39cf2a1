import Mathlib.Data.Nat.Bitwise
import Xv6.Vm.Copy

/-!
# User memory

What a program sees through its page table (`Phys.read`), and what stores to it. `copyout`, `loaduvm`
and the user's own instructions store to pages that a page table maps. Such a store changes no table
and no page of anyone else (`Writes`); where the bytes are known, so is what the program sees
afterwards (`Puts`).
-/

namespace Xv6.Vm

open Blit Fallible
open Bytes (Byte)
open Sched (PGSIZE)

variable {s s' s'' : Phys} {t d p q o n va vb : ℕ} {f : ℕ → Byte} {E : Panic → Prop}

open Phys

/-- A store by user code. The processor walks the table as `walkpgdir` does. -/
def store (pgdir va : ℕ) (b : Byte) : K Unit := do
  let s ← get
  if va < userTop ∧ present (s.pte pgdir va) then
    set { s with mem := blit s.mem (pteAddr (s.pte pgdir va) + va % PGSIZE) 1 fun _ => b }
  else throw .trap

namespace Phys

/-- Where the byte at a user address is. -/
def place (s : Phys) (t va : ℕ) : ℕ := pteAddr (s.pte t va) + va % PGSIZE

/-- The page is there, and the user may use it. -/
def UserPage (s : Phys) (t va : ℕ) : Prop :=
  present (s.pte t va) = true ∧ s.pte t va &&& PTE_U ≠ 0

/-- The byte that a program finds at an address; `none` where no page is mapped. -/
def read (s : Phys) (t va : ℕ) : Option Byte :=
  if va < userTop ∧ present (s.pte t va) = true then some (s.mem (s.place t va)) else none

theorem Tree.place_inj (h : s.Tree t) (hva : va < userTop) (hvb : vb < userTop)
    (hp : present (s.pte t va) = true) (hq : present (s.pte t vb) = true)
    (heq : s.place t va = s.place t vb) : va = vb := by
  have hal := h.leaf_aligned hva hp
  have hal' := h.leaf_aligned hvb hq
  unfold place at heq
  have hframe : pteAddr (s.pte t va) = pteAddr (s.pte t vb) := by
    rw [pgsize_eq] at *
    omega
  have hpage := h.leaf_inj hva hvb hp hq hframe
  rw [pgsize_eq] at *
  omega

end Phys

/-! ## What the program sees -/

theorem read_of_present (hva : va < userTop) (hp : present (s.pte t va) = true) :
    s.read t va = some (s.mem (s.place t va)) := if_pos ⟨hva, hp⟩

theorem read_of_same (hpte : s'.pte t va = s.pte t va)
    (hsame : va < userTop → present (s.pte t va) = true → Same s s' (pteAddr (s.pte t va))) :
    s'.read t va = s.read t va := by
  rw [Phys.read, Phys.read, hpte]
  split
  · next h =>
      rw [place, place, hpte]
      exact congrArg some (hsame h.1 h.2 _ (Nat.mod_lt _ (by decide)))
  · rfl

theorem read_of_not_user (hva : ¬ va < userTop) : s.read t va = none :=
  if_neg fun h => hva h.1

theorem Allocs.read_outside (g : Allocs t o n s s') (h : s.Tree t)
    (hout : va < o ∨ o + n * PGSIZE ≤ va) : s'.read t va = s.read t va := by
  by_cases hva : va < userTop
  · exact read_of_same (g.outside va hva hout) fun _ hp => g.same_leaf h hva hp
  · rw [read_of_not_user hva, read_of_not_user hva]

theorem Allocs.read_inside (g : Allocs t o n s s') (hva : va < userTop) (hlo : o ≤ va)
    (hhi : va < o + n * PGSIZE) : s'.read t va = some 0 := by
  obtain ⟨hp, -, hzero⟩ := g.inside va hva hlo hhi
  rw [read_of_present hva hp]
  exact congrArg some (hzero _ (Nat.mod_lt _ (by decide)))

theorem and_user (e : ℕ) : e &&& PTE_U = if e / 4 % 2 = 1 then 4 else 0 := by
  have hmul : e &&& PTE_U = 2 ^ 2 * (e.testBit 2).toNat :=
    (Nat.and_comm e PTE_U).trans (Nat.two_pow_and e 2)
  rw [hmul, Nat.testBit_eq_decide_div_mod_eq]
  split
  · next hodd => rw [decide_eq_true hodd]; rfl
  · next heven => rw [decide_eq_false heven]; rfl

/-- The new pages are the user's. -/
theorem Allocs.userPage (g : Allocs t o n s s') (hva : va < userTop) (hlo : o ≤ va)
    (hhi : va < o + n * PGSIZE) : s'.UserPage t va := by
  obtain ⟨hp, hflags, -⟩ := g.inside va hva hlo hhi
  refine ⟨hp, ?_⟩
  rw [pteFlags, pgsize_eq] at hflags
  rw [and_user, if_pos (by omega)]
  decide

theorem Deallocs.read_outside (g : Deallocs t o n s s') (hout : va < o ∨ o + n * PGSIZE ≤ va) :
    s'.read t va = s.read t va := by
  by_cases hva : va < userTop
  · exact read_of_same (g.outside va hva hout) fun _ hp => g.kept va hva hout hp
  · rw [read_of_not_user hva, read_of_not_user hva]

/-! ## Stores -/

/-- Nothing was stored but in pages of the user, or at address 0. -/
structure Writes (t : ℕ) (s s' : Phys) : Prop where
  kend : s'.kend = s.kend
  kpdpt : s'.kpdpt = s.kpdpt
  freelist : s'.freelist = s.freelist
  same : ∀ p, p % PGSIZE = 0 → 0 < p →
    (∀ va < userTop, present (s.pte t va) = true → pteAddr (s.pte t va) ≠ p) → Same s s' p

namespace Writes

theorem refl (t : ℕ) (s : Phys) : Writes t s s := ⟨rfl, rfl, rfl, fun p _ _ _ => .refl p⟩

theorem sameTables (w : Writes t s s') (h : s.Tree t) : SameTables s s' t := by
  intro k p hp
  have hmem := mem_pages hp
  refine w.same p (h.valid_page hmem).aligned (h.pos hmem) ?_
  rintro va hva hpresent rfl
  exact (h.leaf hva hpresent).2 k hp

theorem moves (w : Writes t s s') (h : s.Tree t) : Moves t s s' where
  kend := w.kend
  kpdpt := w.kpdpt
  perm := by rw [w.freelist, (w.sameTables h).pages]
  same p hp hpos hnot := by
    refine w.same p hp hpos ?_
    rintro va hva hpresent rfl
    exact hnot (List.mem_append_right _ (h.leaf hva hpresent).1)

theorem tree (w : Writes t s s') (h : s.Tree t) : s'.Tree t := (w.moves h).tree h

theorem pte (w : Writes t s s') (h : s.Tree t) (hva : va < userTop) : s'.pte t va = s.pte t va :=
  (w.sameTables h).pte hva

theorem trans (h : s.Tree t) (w : Writes t s s') (w' : Writes t s' s'') : Writes t s s'' where
  kend := w'.kend.trans w.kend
  kpdpt := w'.kpdpt.trans w.kpdpt
  freelist := w'.freelist.trans w.freelist
  same p hp hpos hnot := by
    refine (w.same p hp hpos hnot).trans (w'.same p hp hpos ?_)
    intro va hva hpresent
    rw [w.pte h hva] at hpresent ⊢
    exact hnot va hva hpresent

end Writes

theorem same_blit_within (hp : p % PGSIZE = 0) (hq : q % PGSIZE = 0) (hne : p ≠ q)
    (hin : o + n ≤ PGSIZE) : Same s { s with mem := blit s.mem (q + o) n f } p := by
  intro x hx
  apply blit_of_not
  rw [pgsize_eq] at *
  omega

theorem pteAddr_aligned (e : ℕ) : pteAddr e % PGSIZE = 0 := Nat.mul_mod_left _ _

theorem pteAddr_zero : pteAddr 0 = 0 := by decide

/-- A store inside the page of an entry that is present, or 0. -/
theorem writes_blit (hva : va < userTop) (he : present (s.pte t va) = true ∨ s.pte t va = 0)
    (hin : o + n ≤ PGSIZE) :
    Writes t s { s with mem := blit s.mem (pteAddr (s.pte t va) + o) n f } := by
  refine ⟨rfl, rfl, rfl, fun p hp hpos hnot => ?_⟩
  refine same_blit_within hp (pteAddr_aligned _) ?_ hin
  rcases he with hpresent | hzero
  · exact (hnot va hva hpresent).symm
  · rw [hzero, pteAddr_zero]
    exact hpos.ne'

theorem store_writes {b : Byte} : Ends (store t va b) s (fun _ => True) fun _ s' => Writes t s s' := by
  rw [store, ends_bind, ends_get]
  split
  · next h =>
      rw [ends_set]
      refine writes_blit h.1 (.inl h.2) ?_
      have := Nat.mod_lt va (show 0 < PGSIZE by decide)
      omega
  · exact ends_throw.mpr trivial

/-! ## Bytes at user addresses -/

/-- The bytes were stored at the places of the addresses from `va` on, where pages are mapped, and
nothing else was stored. -/
structure Puts (t va : ℕ) (bs : List Byte) (s s' : Phys) : Prop where
  rest : s' = { s with mem := s'.mem }
  there : ∀ k < bs.length, present (s.pte t (va + k)) = true
  bytes : ∀ k < bs.length, s'.mem (s.place t (va + k)) = bs.getD k 0
  others : ∀ a, (∀ k < bs.length, s.place t (va + k) ≠ a) → s'.mem a = s.mem a

/-- An address a little further in the same page. -/
theorem page_add {k : ℕ} (h : va % PGSIZE + k < PGSIZE) :
    (va + k) / PGSIZE = va / PGSIZE ∧ (va + k) % PGSIZE = va % PGSIZE + k := by
  rw [pgsize_eq] at *
  omega

section

variable {bs bs' : List Byte} {s₁ : Phys}

theorem puts_blit (hp : present (s.pte t va) = true) (hin : va % PGSIZE + bs.length ≤ PGSIZE) :
    Puts t va bs s { s with mem := blit s.mem (s.place t va) bs.length fun k => bs.getD k 0 } := by
  have hplace : ∀ k < bs.length, s.pte t (va + k) = s.pte t va ∧
      s.place t (va + k) = s.place t va + k := by
    intro k hk
    have hin' : va % PGSIZE + k < PGSIZE := by omega
    obtain ⟨hdiv, hmod⟩ := page_add hin'
    have hpte : s.pte t (va + k) = s.pte t va := pte_page hdiv
    refine ⟨hpte, ?_⟩
    rw [place, place, hpte, hmod, Nat.add_assoc]
  refine ⟨rfl, fun k hk => ?_, fun k hk => ?_, fun a ha => ?_⟩
  · rwa [(hplace k hk).1]
  · rw [(hplace k hk).2]
    dsimp only
    exact blit_of_lt hk
  · dsimp only
    apply blit_of_not
    by_contra hinside
    push Not at hinside
    have hk : a - s.place t va < bs.length := by omega
    refine ha (a - s.place t va) hk ?_
    rw [(hplace _ hk).2]
    omega

namespace Puts

theorem nil (t va : ℕ) (s : Phys) : Puts t va [] s s where
  rest := rfl
  there k hk := absurd hk (Nat.not_lt_zero k)
  bytes k hk := absurd hk (Nat.not_lt_zero k)
  others _ _ := rfl

theorem writes (p : Puts t va bs s s') (htop : ∀ k < bs.length, va + k < userTop) :
    Writes t s s' where
  kend := by rw [p.rest]
  kpdpt := by rw [p.rest]
  freelist := by rw [p.rest]
  same q hq _ hnot := by
    intro o ho
    refine p.others _ fun k hk heq => ?_
    refine hnot (va + k) (htop k hk) (p.there k hk) ?_
    have hal := pteAddr_aligned (s.pte t (va + k))
    have hmod := Nat.mod_lt (va + k) (show 0 < PGSIZE by decide)
    rw [place, pgsize_eq] at *
    omega

theorem append (h : s.Tree t) (htop : va + (bs ++ bs').length ≤ userTop) (p : Puts t va bs s s₁)
    (p' : Puts t (va + bs.length) bs' s₁ s') : Puts t va (bs ++ bs') s s' := by
  rw [List.length_append] at htop
  have hw := p.writes fun k hk => by omega
  -- the tables are as before, so the places are, too
  have hpte : ∀ k < bs'.length,
      s₁.pte t (va + bs.length + k) = s.pte t (va + (bs.length + k)) := by
    intro k hk
    rw [hw.pte h (by omega), Nat.add_assoc]
  have hplace : ∀ k < bs'.length,
      s₁.place t (va + bs.length + k) = s.place t (va + (bs.length + k)) := by
    intro k hk
    rw [place, place, hpte k hk, Nat.add_assoc]
  have hthere : ∀ k < bs'.length, present (s.pte t (va + (bs.length + k))) = true := by
    intro k hk
    rw [← hpte k hk]
    exact p'.there k hk
  refine ⟨?_, fun k hk => ?_, fun k hk => ?_, fun a ha => ?_⟩
  · rw [p'.rest, p.rest]
  · rw [List.length_append] at hk
    by_cases hfirst : k < bs.length
    · exact p.there k hfirst
    · have hlater := hthere (k - bs.length) (by omega)
      rwa [Nat.add_sub_cancel' (Nat.le_of_not_lt hfirst)] at hlater
  · rw [List.length_append] at hk
    by_cases hfirst : k < bs.length
    · -- the later bytes went to other places
      rw [List.getD_append _ _ _ _ hfirst, ← p.bytes k hfirst]
      refine p'.others _ fun j hj heq => ?_
      rw [hplace j hj] at heq
      have := h.place_inj (by omega) (by omega) (hthere j hj) (p.there k hfirst) heq
      omega
    · have hlater := p'.bytes (k - bs.length) (by omega)
      rw [hplace _ (by omega), Nat.add_sub_cancel' (Nat.le_of_not_lt hfirst)] at hlater
      rw [hlater, List.getD_append_right _ _ _ _ (Nat.le_of_not_lt hfirst)]
  · rw [List.length_append] at ha
    rw [p'.others a, p.others a fun k hk => ha k (by omega)]
    intro k hk
    rw [hplace k hk]
    exact ha (bs.length + k) (by omega)

theorem read (p : Puts t va bs s s') (h : s.Tree t) (htop : ∀ k < bs.length, va + k < userTop)
    (vb : ℕ) :
    s'.read t vb =
      if va ≤ vb ∧ vb < va + bs.length then some (bs.getD (vb - va) 0) else s.read t vb := by
  by_cases hvb : vb < userTop
  swap
  · have hout : ¬ (va ≤ vb ∧ vb < va + bs.length) := fun hin => by
      have := htop (vb - va) (by omega)
      omega
    rw [if_neg hout, Phys.read, Phys.read, if_neg (fun hin => hvb hin.1),
      if_neg (fun hin => hvb hin.1)]
  have hpte := (p.writes htop).pte h hvb
  have hplace : s'.place t vb = s.place t vb := by rw [place, place, hpte]
  split
  · next hin =>
      have hthere := p.there (vb - va) (by omega)
      have hbyte := p.bytes (vb - va) (by omega)
      rw [Nat.add_sub_cancel' hin.1] at hthere hbyte
      rw [Phys.read, if_pos ⟨hvb, hpte ▸ hthere⟩, hplace, hbyte]
  · next hout =>
      rw [Phys.read, Phys.read, hpte]
      split
      · next hp =>
          rw [hplace, p.others]
          intro k hk heq
          have := h.place_inj (htop k hk) hvb (p.there k hk) hp.2 heq
          omega
      · rfl

end Puts

end

/-! ## `copyout` -/

theorem lastTable_page (h : va / PGSIZE = vb / PGSIZE) : s.lastTable t va = s.lastTable t vb := by
  obtain ⟨hpath, -⟩ := path_eq_of_page h
  simp only [path, List.cons.injEq, and_true] at hpath
  rw [lastTable, lastTable, hpath.1, hpath.2.1, hpath.2.2]

theorem pgrounddown_page (va : ℕ) : pgrounddown va / PGSIZE = va / PGSIZE :=
  Nat.mul_div_cancel _ (by decide)

/-- `uva2ka` finds the page, or finds that it is not the user's; it faults where there is no
table. -/
theorem ends_uva2ka {Q : Option ℕ → Phys → Prop} (hva : va < userTop)
    (hfault : s.lastTable t va = none → E .trap)
    (hnone : ¬ s.UserPage t va → s.lastTable t va ≠ none → Q none s)
    (hsome : s.UserPage t va → Q (some (pteAddr (s.pte t va))) s) :
    Ends (uva2ka t va) s E Q := by
  rw [uva2ka, ends_bind, ends_walkpgdir]
  cases hlast : s.lastTable t va with
  | none => exact ends_throw.mpr (hfault hlast)
  | some T =>
    rw [Option.map_some]
    dsimp only
    rw [ends_bind, ends_load (index_lt 0 va), ← pte_of_leads hva ((lastTable_eq_some hva).mp hlast)]
    split
    · next habsent =>
        refine ends_pure.mpr (hnone (fun huser => ?_) (by simp [hlast]))
        rw [huser.1] at habsent
        cases habsent
    · next hpresent =>
        split
        · next hkernel =>
            exact ends_pure.mpr (hnone (fun huser => huser.2 hkernel) (by simp [hlast]))
        · next huser => exact ends_pure.mpr (hsome ⟨by simpa using hpresent, huser⟩)

/-- What `copyout` has done: it stored the first `m` bytes, which are all of them, or those before
the first page that is not the user's. -/
structure CopiesOut (t va : ℕ) (bs : List Byte) (s s' : Phys) (ok : Bool) (m : ℕ) : Prop where
  top : ∀ k < bs.length, k ≤ m → va + k < userTop
  user : ∀ k < m, s.UserPage t (va + k)
  puts : Puts t va (bs.take m) s s'
  whole : ok = true → m = bs.length
  stopped : ok = false → m < bs.length ∧ ¬ s.UserPage t (va + m) ∧ s.lastTable t (va + m) ≠ none

namespace CopiesOut

variable {bs : List Byte} {ok : Bool} {m n : ℕ}

theorem nil (t va : ℕ) (s : Phys) : CopiesOut t va [] s s true 0 where
  top k hk := absurd hk (Nat.not_lt_zero k)
  user k hk := absurd hk (Nat.not_lt_zero k)
  puts := .nil t va s
  whole _ := rfl
  stopped hno := by cases hno

theorem stop (hbs : bs ≠ []) (hva : va < userTop) (h : ¬ s.UserPage t va)
    (hlast : s.lastTable t va ≠ none) : CopiesOut t va bs s s false 0 where
  top k _ hk := by
    rwa [Nat.le_zero.mp hk]
  user k hk := absurd hk (Nat.not_lt_zero k)
  puts := .nil t va s
  whole hok := by cases hok
  stopped _ := ⟨List.length_pos_iff.mpr hbs, h, hlast⟩

theorem le (c : CopiesOut t va bs s s' ok m) : m ≤ bs.length := by
  cases ok with
  | true => exact (c.whole rfl).le
  | false => exact (c.stopped rfl).1.le

theorem length_take (c : CopiesOut t va bs s s' ok m) : (bs.take m).length = m := by
  rw [List.length_take, min_eq_left c.le]

theorem cons {s₁ : Phys} (h : s.Tree t) (htop : va + n ≤ userTop) (hn : n ≤ bs.length)
    (huser : ∀ k < n, s.UserPage t (va + k)) (p : Puts t va (bs.take n) s s₁)
    (c : CopiesOut t (va + n) (bs.drop n) s₁ s' ok m) : CopiesOut t va bs s s' ok (n + m) := by
  have hlen : (bs.take n).length = n := by rw [List.length_take, min_eq_left hn]
  have hdrop : (bs.drop n).length = bs.length - n := List.length_drop
  have hle := c.le
  have hw := p.writes fun k hk => by omega
  have htop' : ∀ k, n + k < bs.length → k ≤ m → va + (n + k) < userTop := by
    intro k hk hkm
    have := c.top k (by omega) hkm
    omega
  have huser' : ∀ k, n + k < bs.length → k ≤ m →
      (s₁.UserPage t (va + n + k) ↔ s.UserPage t (va + (n + k))) := by
    intro k hk hkm
    rw [UserPage, UserPage, hw.pte h (by rw [Nat.add_assoc]; exact htop' k hk hkm), Nat.add_assoc]
  refine ⟨fun k hk hkm => ?_, fun k hk => ?_, ?_, fun hok => ?_, fun hno => ?_⟩
  · by_cases hfirst : k < n
    · omega
    · have := htop' (k - n) (by omega) (by omega)
      omega
  · by_cases hfirst : k < n
    · exact huser k hfirst
    · have hlater := c.user (k - n) (by omega)
      rwa [huser' _ (by omega) (by omega), Nat.add_sub_cancel' (Nat.le_of_not_lt hfirst)] at hlater
  · have hputs := c.puts
    rw [← hlen] at hputs
    have hend : va + (n + m) ≤ userTop := by
      by_cases hm : m = 0
      · omega
      · have := htop' (m - 1) (by omega) (by omega)
        omega
    have happ := p.append h (by rw [List.length_append, hlen, List.length_take]; omega) hputs
    rwa [hlen, ← List.take_add] at happ
  · have := c.whole hok
    omega
  · obtain ⟨hlt, hnot, hlast⟩ := c.stopped hno
    have hm := htop' m (by omega) (le_refl _)
    rw [(hw.sameTables h).lastTable (by omega), Nat.add_assoc] at hlast
    exact ⟨by omega, fun hin => hnot ((huser' m (by omega) (le_refl _)).mpr hin), hlast⟩

theorem ok_iff (c : CopiesOut t va bs s s' ok m) :
    ok = true ↔ ∀ k < bs.length, s.UserPage t (va + k) := by
  cases ok with
  | true =>
    refine iff_of_true rfl fun k hk => ?_
    rw [← c.whole rfl] at hk
    exact c.user k hk
  | false =>
    obtain ⟨hlt, hnot, -⟩ := c.stopped rfl
    exact iff_of_false Bool.false_ne_true fun hall => hnot (hall m hlt)

theorem others (c : CopiesOut t va bs s s' ok m) {a : ℕ}
    (ha : ∀ k < bs.length, s.UserPage t (va + k) → s.place t (va + k) ≠ a) :
    s'.mem a = s.mem a := by
  refine c.puts.others a fun k hk => ?_
  rw [c.length_take] at hk
  exact ha k (hk.trans_le c.le) (c.user k hk)

end CopiesOut

theorem copyoutLoop_nil (t fuel va : ℕ) : copyoutLoop t fuel va [] = pure true := by
  cases fuel with
  | zero => rfl
  | succ fuel => rfl

/-- Which pages are the user's does not change, as far as the loop has come. -/
theorem Writes.comes {s₁ : Phys} {n k len : ℕ} (hw : Writes t s s₁) (h : s.Tree t)
    (htop : ∀ k < len, (∀ j < k, s.UserPage t (va + j)) → va + k < userTop)
    (husern : ∀ j < n, s.UserPage t (va + j)) (hk : n + k ≤ len)
    (hbefore : ∀ j < k, s₁.UserPage t (va + n + j)) (j : ℕ) (hj : j < n + k) :
    s.UserPage t (va + j) := by
  induction j using Nat.strong_induction_on with
  | _ j ih =>
    by_cases hin : j < n
    · exact husern j hin
    · have hva := htop j (by omega) fun i hi => ih i hi (by omega)
      have hlater := hbefore (j - n) (by omega)
      rwa [UserPage, hw.pte h (by omega), Nat.add_assoc,
        Nat.add_sub_cancel' (Nat.le_of_not_lt hin)] at hlater

/-- The loop of `copyout`, where it stays in the user half. It faults where there is no table, unless
it has stopped before. -/
theorem copyoutLoop_copies (fuel : ℕ) : ∀ {va : ℕ} {bs : List Byte} {s : Phys}, s.Tree t →
    (∀ k < bs.length, (∀ j < k, s.UserPage t (va + j)) → va + k < userTop) → bs.length ≤ fuel →
    Ends (copyoutLoop t fuel va bs) s
      (fun e => e = .trap ∧ ∃ k < bs.length, s.lastTable t (va + k) = none ∧
        ∀ j < k, s.UserPage t (va + j))
      fun ok s' => ∃ m, CopiesOut t va bs s s' ok m := by
  induction fuel with
  | zero =>
    intro va bs s _ _ hfuel
    obtain rfl := List.length_eq_zero_iff.mp (Nat.le_zero.mp hfuel)
    exact ends_pure.mpr ⟨0, .nil t va s⟩
  | succ fuel ih =>
    intro va bs s h htop hfuel
    rw [copyoutLoop]
    split
    · next hempty =>
        obtain rfl := List.isEmpty_iff.mp hempty
        exact ends_pure.mpr ⟨0, .nil t va s⟩
    next hne =>
    have hbs : bs ≠ [] := by simpa using hne
    have hpos : 0 < bs.length := List.length_pos_iff.mpr hbs
    have hva : va < userTop := htop 0 hpos fun j hj => absurd hj (Nat.not_lt_zero j)
    have hoff : va - pgrounddown va = va % PGSIZE ∧ pgrounddown va + va % PGSIZE = va := by
      rw [pgrounddown, pgsize_eq]
      omega
    have hmod := Nat.mod_lt va (show 0 < PGSIZE by decide)
    have hwrap : (pgrounddown va + PGSIZE) % 2 ^ 64 = pgrounddown va + PGSIZE := by
      refine Nat.mod_eq_of_lt ?_
      rw [userTop] at hva
      rw [pgsize_eq]
      omega
    have hpage : s.pte t (pgrounddown va) = s.pte t va := pte_page (pgrounddown_page va)
    rw [ends_bind]
    refine ends_uva2ka (by omega) ?_ ?_ ?_
    · intro hlast
      rw [lastTable_page (pgrounddown_page va)] at hlast
      exact ⟨rfl, 0, hpos, hlast, fun j hj => absurd hj (Nat.not_lt_zero j)⟩
    · intro hkernel hlast
      rw [UserPage, hpage] at hkernel
      rw [lastTable_page (pgrounddown_page va)] at hlast
      exact ends_pure.mpr ⟨0, .stop hbs hva hkernel hlast⟩
    · intro huser
      rw [UserPage, hpage] at huser
      rw [hpage, hoff.1]
      dsimp only
      generalize hn : min (PGSIZE - va % PGSIZE) bs.length = n
      have hlen : (bs.take n).length = n := by
        rw [List.length_take]
        omega
      rw [ends_bind, ends_modify, hwrap]
      -- the bytes up to the end of the page
      have hfirst : Puts t va (bs.take n) s { s with
          mem := blit s.mem (pteAddr (s.pte t va) + va % PGSIZE) n fun k => bs.getD k 0 } := by
        have hblit : Puts t va (bs.take n) s _ := puts_blit huser.1 (by omega)
        rw [hlen] at hblit
        rwa [← blit_congr (f := fun k => bs.getD k 0)] at hblit
        intro k hk
        rw [List.getD_eq_getElem?_getD, List.getD_eq_getElem?_getD, List.getElem?_take, if_pos hk]
      have hend : va + n ≤ userTop := by
        rw [userTop, pgsize_eq] at *
        omega
      have hw := hfirst.writes fun k hk => by omega
      have husern : ∀ j < n, s.UserPage t (va + j) := by
        intro j hj
        have hin : va % PGSIZE + j < PGSIZE := by omega
        obtain ⟨hdiv, -⟩ := page_add hin
        rw [UserPage, pte_page hdiv]
        exact huser
      by_cases hlast : bs.length = n
      · have hnil : bs.drop n = [] := List.drop_eq_nil_of_le hlast.le
        rw [hnil, copyoutLoop_nil]
        refine ends_pure.mpr ⟨n + 0, .cons h hend hlast.ge husern hfirst ?_⟩
        rw [hnil]
        exact .nil t _ _
      · have hva' : pgrounddown va + PGSIZE = va + n := by omega
        rw [hva']
        refine (ih (hw.tree h) (fun k hk hbefore => ?_)
          (by rw [List.length_drop]; omega)).mono ?_ ?_
        · rw [List.length_drop] at hk
          have := htop (n + k) (by omega) (hw.comes h htop husern (by omega) hbefore)
          omega
        · rintro e ⟨rfl, k, hk, hnone, hbefore⟩
          rw [List.length_drop] at hk
          have hcomes := hw.comes h htop husern (by omega) hbefore
          have := htop (n + k) (by omega) hcomes
          rw [(hw.sameTables h).lastTable (by omega)] at hnone
          exact ⟨rfl, n + k, by omega, by rwa [← Nat.add_assoc], hcomes⟩
        · rintro ok s' ⟨m, c⟩
          exact ⟨n + m, .cons h hend (by omega) husern hfirst c⟩

/-- Where even the top table has no entry, `copyout` faults at once. -/
theorem copyout_faults {bs : List Byte} {Q : Bool → Phys → Prop} (hbs : bs ≠ [])
    (hnone : shape.next (s.cell t (index 3 va)) = none) :
    Ends (copyout t va bs) s E Q ↔ E .trap := by
  obtain ⟨hpath, -⟩ := path_eq_of_page (pgrounddown_page va)
  simp only [path, List.cons.injEq, and_true] at hpath
  have hlast : s.lastTable t (pgrounddown va) = none := by
    rw [lastTable, hpath.1, hnone]
    rfl
  obtain ⟨m, hm⟩ := Nat.exists_eq_succ_of_ne_zero (List.length_pos_iff.mpr hbs).ne'
  have hne : bs.isEmpty = false := by simpa using hbs
  rw [copyout, hm, copyoutLoop, if_neg (by simp [hne]), ends_bind, uva2ka, ends_bind,
    ends_walkpgdir, hlast]
  exact ends_throw

end Xv6.Vm
