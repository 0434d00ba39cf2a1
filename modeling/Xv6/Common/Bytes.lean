import Mathlib.Data.BitVec
import Mathlib.Logic.Function.Basic

/-!
# Byte memories

A memory gives every 64-bit address a byte. Bytes are stored one after the other, and an address
space this large does not wrap around within one store, so what was stored is there afterwards
(`holdsBytes_store`), until somebody stores there again (`HoldsBytes.congr`). Words are
little-endian.
-/

namespace Xv6.Bytes

abbrev Byte := BitVec 8

abbrev Addr := BitVec 64

abbrev Mem := Addr → Byte

/-- Store bytes one after the other. -/
def store (mem : Mem) (a : Addr) : List Byte → Mem
  | [] => mem
  | b :: bs => store (Function.update mem a b) (a + 1) bs

/-- The bytes at `a`. -/
def HoldsBytes (mem : Mem) (a : Addr) : List Byte → Prop
  | [] => True
  | b :: bs => mem a = b ∧ HoldsBytes mem (a + 1) bs

/-- `x` is one of the `n` addresses from `a` on. -/
def Within (a : Addr) (n : Nat) (x : Addr) : Prop := (x - a).toNat < n

variable {a x : Addr} {bs : List Byte}

theorem within_succ {n : Nat} : Within a (n + 1) x ↔ x = a ∨ Within (a + 1) n x ∧ x ≠ a := by
  unfold Within
  constructor
  · intro h
    by_cases hx : x = a
    · exact .inl hx
    · exact .inr ⟨by bv_omega, hx⟩
  · rintro (rfl | ⟨h, hx⟩)
    · simp
    · bv_omega

theorem store_of_not_within {mem : Mem} (h : ¬ Within a bs.length x) :
    store mem a bs x = mem x := by
  induction bs generalizing a mem with
  | nil => rfl
  | cons b bs ih =>
    rw [List.length_cons, within_succ, not_or, not_and_not_right] at h
    rw [store, ih fun hw => h.1 (h.2 hw), Function.update_of_ne h.1]

theorem holdsBytes_store (mem : Mem) (a : Addr) (hlen : bs.length < 2 ^ 64) :
    HoldsBytes (store mem a bs) a bs := by
  induction bs generalizing a mem with
  | nil => trivial
  | cons b bs ih =>
    rw [List.length_cons] at hlen
    have hfirst : ¬ Within (a + 1) bs.length a := by
      unfold Within
      bv_omega
    refine ⟨?_, ih _ _ (by omega)⟩
    rw [store, store_of_not_within hfirst, Function.update_self]

/-- A memory that agrees with another one at these addresses holds the same bytes there. -/
theorem HoldsBytes.congr {mem mem' : Mem} (h : HoldsBytes mem a bs)
    (heq : ∀ x, Within a bs.length x → mem' x = mem x) : HoldsBytes mem' a bs := by
  induction bs generalizing a with
  | nil => trivial
  | cons b bs ih =>
    refine ⟨(heq a (within_succ.mpr (.inl rfl))).trans h.1, ih h.2 fun x hx => heq x ?_⟩
    rw [List.length_cons, within_succ]
    by_cases hxa : x = a
    · exact .inl hxa
    · exact .inr ⟨hx, hxa⟩

/-! ## Words -/

/-- The bytes of a word, the lowest first. -/
def le64 (w : BitVec 64) : List Byte :=
  [w.extractLsb' 0 8, w.extractLsb' 8 8, w.extractLsb' 16 8, w.extractLsb' 24 8,
    w.extractLsb' 32 8, w.extractLsb' 40 8, w.extractLsb' 48 8, w.extractLsb' 56 8]

/-- The word at `a`. -/
def load64 (mem : Mem) (a : Addr) : BitVec 64 :=
  mem (a + 7#64) ++ mem (a + 6#64) ++ mem (a + 5#64) ++ mem (a + 4#64) ++ mem (a + 3#64) ++
    mem (a + 2#64) ++ mem (a + 1#64) ++ mem a

/-- The half word at `a`. -/
def load32 (mem : Mem) (a : Addr) : BitVec 32 :=
  mem (a + 3#64) ++ mem (a + 2#64) ++ mem (a + 1#64) ++ mem a

theorem load64_eq {mem : Mem} {w : BitVec 64} (h : HoldsBytes mem a (le64 w)) :
    load64 mem a = w := by
  simp only [le64, HoldsBytes, BitVec.add_assoc, BitVec.reduceAdd] at h
  obtain ⟨h0, h1, h2, h3, h4, h5, h6, h7, -⟩ := h
  have h1 : mem (a + 1#64) = w.extractLsb' 8 8 := h1
  rw [load64, h0, h1, h2, h3, h4, h5, h6, h7]
  simp (disch := decide) only [BitVec.extractLsb'_append_extractLsb'_eq_extractLsb']
  simp

end Xv6.Bytes
