import Mathlib.Algebra.Order.Ring.Nat
import Xv6.Common.Bytes

/-!
# Block stores in a flat memory

A memory whose addresses are plain numbers. A block store `blit` writes `n` bytes from `a` on and
nothing else; filling a page, copying one, and storing a word are block stores. A word is the number
whose bytes lie one after the other, the lowest first.
-/

namespace Xv6.Blit

open Bytes (Byte)

variable {m m' : ℕ → Byte} {a b n v x : ℕ} {f : ℕ → Byte}

/-- Store `f 0, f 1, …, f (n - 1)` from `a` on. -/
def blit (m : ℕ → Byte) (a n : ℕ) (f : ℕ → Byte) : ℕ → Byte := fun x =>
  if a ≤ x ∧ x < a + n then f (x - a) else m x

theorem blit_of_lt (h : x < n) : blit m a n f (a + x) = f x := by
  unfold blit
  rw [if_pos ⟨by omega, by omega⟩, Nat.add_sub_cancel_left]

theorem blit_of_not (h : x < a ∨ a + n ≤ x) : blit m a n f x = m x := by
  unfold blit
  rw [if_neg fun hin => by omega]

theorem blit_congr {g : ℕ → Byte} (h : ∀ k < n, f k = g k) : blit m a n f = blit m a n g := by
  funext x
  unfold blit
  split
  · exact h _ (by omega)
  · rfl

/-! ## Words -/

/-- The number in the `n` bytes from `a` on. -/
def leNat (m : ℕ → Byte) (a : ℕ) : ℕ → ℕ
  | 0 => 0
  | n + 1 => (m a).toNat + 256 * leNat m (a + 1) n

theorem leNat_congr (h : ∀ x, a ≤ x → x < a + n → m' x = m x) : leNat m' a n = leNat m a n := by
  induction n generalizing a with
  | zero => rfl
  | succ n ih =>
    rw [leNat, leNat, h a le_rfl (by omega), ih fun x hlo hhi => h x (by omega) (by omega)]

theorem leNat_lt : leNat m a n < 256 ^ n := by
  induction n generalizing a with
  | zero => exact Nat.one_pos
  | succ n ih =>
    have hbyte := (m a).isLt
    have hrest := @ih (a + 1)
    rw [leNat, Nat.pow_succ]
    omega

/-- Store a number in `n` bytes. -/
def setLe (m : ℕ → Byte) (a n v : ℕ) : ℕ → Byte := blit m a n fun o => BitVec.ofNat 8 (v / 256 ^ o)

theorem leNat_setLe : leNat (setLe m a n v) a n = v % 256 ^ n := by
  induction n generalizing a v m with
  | zero => rw [leNat, Nat.pow_zero, Nat.mod_one]
  | succ n ih =>
    have hfirst : setLe m a (n + 1) v a = BitVec.ofNat 8 v := by
      have hzero := @blit_of_lt m a (n + 1) 0 (fun o => BitVec.ofNat 8 (v / 256 ^ o)) (by omega)
      rwa [Nat.add_zero, Nat.pow_zero, Nat.div_one] at hzero
    have hrest : leNat (setLe m a (n + 1) v) (a + 1) n =
        leNat (setLe m (a + 1) n (v / 256)) (a + 1) n := by
      refine leNat_congr fun x hlo hhi => ?_
      obtain ⟨o, rfl⟩ : ∃ o, x = a + 1 + o := ⟨x - (a + 1), by omega⟩
      rw [setLe, setLe, blit_of_lt (by omega), Nat.add_assoc, blit_of_lt (by omega),
        Nat.add_comm 1 o, Nat.pow_succ, Nat.mul_comm, Nat.div_div_eq_div_mul]
    have hpow : 256 ^ (n + 1) = 256 * 256 ^ n := Nat.pow_succ'
    rw [leNat, hfirst, hrest, ih, BitVec.toNat_ofNat, hpow, Nat.mod_mul]

/-- The word at `a`. -/
def word (m : ℕ → Byte) (a : ℕ) : ℕ := leNat m a 8

/-- Store the word `v` at `a`. -/
def setWord (m : ℕ → Byte) (a v : ℕ) : ℕ → Byte := setLe m a 8 v

theorem word_setWord (hv : v < 2 ^ 64) : word (setWord m a v) a = v := by
  rw [word, setWord, leNat_setLe, Nat.mod_eq_of_lt]
  exact hv

theorem setWord_of_not (h : x < a ∨ a + 8 ≤ x) : setWord m a v x = m x := by
  rw [setWord, setLe, blit_of_not h]

theorem word_setWord_ne (h : b + 8 ≤ a ∨ a + 8 ≤ b) : word (setWord m a v) b = word m b :=
  leNat_congr fun x _ _ => setWord_of_not (by omega)

theorem word_congr (h : ∀ x, a ≤ x → x < a + 8 → m' x = m x) : word m' a = word m a :=
  leNat_congr h

theorem word_lt : word m a < 2 ^ 64 := leNat_lt

end Xv6.Blit
