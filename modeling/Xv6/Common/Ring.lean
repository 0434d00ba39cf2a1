import Mathlib.Data.Nat.ModEq
import Mathlib.Logic.Function.Basic

/-!
# Ring buffers with counters that wrap

A buffer of `size` cells is read and written through two counters that only go up, and wrap at
`modulus`; a counter stands for the cell that is its remainder by `size`. As `size` divides
`modulus`, the cells are not disturbed when a counter wraps. `Holds` says which queue the buffer
holds: the counters are as far apart as the queue is long, so that they tell an empty buffer from a
full one.
-/

namespace Xv6.Ring

open List

variable {α : Type} {size modulus rd wr : Nat} {data : Nat → α} {q : List α} {x : α}

/-- The buffer with these counters holds the queue `q`. -/
structure Holds (size modulus : Nat) (data : Nat → α) (rd wr : Nat) (q : List α) : Prop where
  length_le : q.length ≤ size
  rd_lt : rd < modulus
  wr_eq : wr = (rd + q.length) % modulus
  cell : ∀ k (h : k < q.length), data ((rd + k) % size) = q[k]

theorem holds_nil (h : rd < modulus) : Holds size modulus data rd rd [] :=
  ⟨Nat.zero_le _, h, (Nat.mod_eq_of_lt h).symm, fun _ hk => absurd hk (Nat.not_lt_zero _)⟩

namespace Holds

section Counters

variable (h : Holds size modulus data rd wr q) (hlt : size < modulus)

include h hlt

theorem count : (wr + modulus - rd) % modulus = q.length := by
  have hle := h.length_le
  have hrd := h.rd_lt
  rw [h.wr_eq]
  by_cases hwrap : rd + q.length < modulus
  · rw [Nat.mod_eq_of_lt hwrap]
    have heq : rd + q.length + modulus - rd = q.length + modulus := by omega
    rw [heq, Nat.add_mod_right, Nat.mod_eq_of_lt (by omega)]
  · have hmod : (rd + q.length) % modulus = rd + q.length - modulus := by
      rw [Nat.mod_eq_sub_mod (by omega), Nat.mod_eq_of_lt (by omega)]
    rw [hmod]
    have heq : rd + q.length - modulus + modulus - rd = q.length := by omega
    rw [heq, Nat.mod_eq_of_lt (by omega)]

theorem index_iff {k : Nat} (hk : k ≤ size) : wr = (rd + k) % modulus ↔ q.length = k := by
  constructor
  · intro hwr
    have hmod : (rd + q.length) % modulus = (rd + k) % modulus := h.wr_eq.symm.trans hwr
    have hle := h.length_le
    have hcong : q.length ≡ k [MOD modulus] := Nat.ModEq.add_left_cancel' rd hmod
    unfold Nat.ModEq at hcong
    rwa [Nat.mod_eq_of_lt (by omega), Nat.mod_eq_of_lt (by omega)] at hcong
  · rintro rfl
    exact h.wr_eq

theorem empty_iff : rd = wr ↔ q = [] := by
  have hiff := h.index_iff hlt (Nat.zero_le size)
  rwa [Nat.add_zero, Nat.mod_eq_of_lt h.rd_lt, eq_comm, length_eq_zero_iff] at hiff

theorem full_iff : wr = (rd + size) % modulus ↔ q.length = size :=
  h.index_iff hlt (Nat.le_refl size)

end Counters

variable (hdvd : size ∣ modulus)

include hdvd

theorem push (h : Holds size modulus data rd wr q) (hroom : q.length < size) (x : α) :
    Holds size modulus (Function.update data (wr % size) x) rd ((wr + 1) % modulus) (q ++ [x]) where
  length_le := by
    rw [length_append, length_singleton]
    omega
  rd_lt := h.rd_lt
  wr_eq := by
    rw [h.wr_eq, length_append, length_singleton, Nat.mod_add_mod, Nat.add_assoc]
  cell k hk := by
    have hwr : wr % size = (rd + q.length) % size := by
      rw [h.wr_eq, Nat.mod_mod_of_dvd _ hdvd]
    rw [length_append, length_singleton] at hk
    by_cases hlast : k = q.length
    · subst hlast
      rw [hwr, Function.update_self]
      simp
    · have hk' : k < q.length := by omega
      have hne : (rd + k) % size ≠ wr % size := by
        rw [hwr]
        intro heq
        have hcong : k ≡ q.length [MOD size] := Nat.ModEq.add_left_cancel' rd heq
        unfold Nat.ModEq at hcong
        rw [Nat.mod_eq_of_lt (by omega), Nat.mod_eq_of_lt hroom] at hcong
        exact hlast hcong
      rw [Function.update_of_ne hne, h.cell k hk', getElem_append_left hk']

theorem back {q' : List α} (h : Holds size modulus data rd wr (q ++ q')) :
    Holds size modulus data ((rd + q.length) % modulus) wr q' := by
  have hlen := h.length_le
  rw [length_append] at hlen
  refine ⟨by omega, Nat.mod_lt _ (Nat.zero_lt_of_lt h.rd_lt), ?_, fun k hk => ?_⟩
  · rw [h.wr_eq, length_append, Nat.mod_add_mod, Nat.add_assoc]
  · have hcell := h.cell (q.length + k) (by rw [length_append]; omega)
    rw [getElem_append_right (Nat.le_add_right ..)] at hcell
    simp only [Nat.add_sub_cancel_left] at hcell
    rw [← hcell, Nat.add_mod, Nat.mod_mod_of_dvd _ hdvd, ← Nat.add_mod, Nat.add_assoc]

theorem pop (h : Holds size modulus data rd wr (x :: q)) :
    data (rd % size) = x ∧ Holds size modulus data ((rd + 1) % modulus) wr q :=
  ⟨h.cell 0 (Nat.succ_pos _), back hdvd (q := [x]) h⟩

end Holds

end Xv6.Ring
