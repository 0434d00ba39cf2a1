import Xv6.Vm.Growproc

/-!
# `copyout`

`copyout` is given an address by `exec`, and by `check_signals`, which takes it from the stack
pointer of the program. `uva2ka` asks `walkpgdir` for the entry of each page and looks at the entry
without asking whether there is one. So `copyout` does what it promises on addresses that a page
table covers, whether the pages are there or not, and the kernel faults on any other.
-/

namespace Xv6.Vm

open Fallible
open Bytes (Byte)
open Sched (PGSIZE)

variable {s s' : Phys} {t va : ℕ} {bs : List Byte}

open Phys

/-- What `copyout` promises: it returns 0 exactly when all of the range is the user's, and then the
range holds the bytes and nothing else has changed; when it returns -1, it has stored nothing outside
the range. -/
def Stores (t va : ℕ) (bs : List Byte) (s : Phys) : Prop :=
  ∃ ok s', (copyout t va bs).run s = .ok (ok, s') ∧
    (ok = true ↔ ∀ k < bs.length, s.UserPage t (va + k)) ∧
    (ok = true → ∀ vb, s'.read t vb =
      if va ≤ vb ∧ vb < va + bs.length then some (bs.getD (vb - va) 0) else s.read t vb) ∧
    s' = { s with mem := s'.mem } ∧
    ∀ a, (∀ k < bs.length, s.UserPage t (va + k) → s.place t (va + k) ≠ a) → s'.mem a = s.mem a

/-- A page table as `setupkvm` leaves it, but for the kernel's half. -/
def bare : Phys where
  mem _ := 0
  freelist := []
  kend := PGSIZE
  kpdpt := 0

end Xv6.Vm
