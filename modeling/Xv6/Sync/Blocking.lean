import Xv6.Sync.Kernel
import Xv6.Sync.Turn

/-!
# The loops that wait

`piperead`, `pipewrite`, `consoleread` and `sys_sleep` wait in a loop for bytes, for room, for a line
and for the clock. Before they sleep they test `killed`, which nobody sets for a process that is in a
call, and `pipewrite` tests whether there is still a reader. Nothing else ends a call with an error.

`sys_sleep` and the timer interrupt are a monitor of their own here, with `tickslock` and `ticks`.
-/

namespace Xv6.Sync

/-! ## The clock -/

namespace Clock

/-- `ticks` is a `uint`. -/
abbrev UINT : Nat := 2 ^ 32

inductive Call where
  | sysSleep (n : Int)
  | tick

inductive Op where
  | call (x : Call)
  | starting (n : Int)
  | sleeping (ticks0 : Nat) (n : Int)
  | ticking
  | ticked
  | leaving
  | ended (r : Int)

/-- `sys_sleep` and the part of the timer interrupt that moves the clock. The comparison is one of
`uint`s. -/
def act (killed : Bool) (ticks : Nat) : Op → Act Unit Nat Op
  | .call (.sysSleep n) => .acquire (.starting n)
  | .call .tick => .acquire .ticking
  | .starting n => .set ticks (.sleeping ticks n)
  | .sleeping ticks0 n =>
    if (ticks + UINT - ticks0) % UINT < (n % UINT).toNat then
      if killed then .release (.ended (-1)) else .sleep () (.sleeping ticks0 n)
    else .release (.ended 0)
  | .ticking => .set ((ticks + 1) % UINT) .ticked
  | .ticked => .wakeup () .leaving
  | .leaving => .release (.ended 0)
  | .ended r => .ret r

@[reducible] def monitor : Monitor Unit where
  Data := Nat
  Op := Op
  Call := Call
  start := .call
  next := act

end Clock

/-! ## How each loop goes on -/

variable {C : Type} {N : Monitor C} {ended : Int → N.Op} {o : N.Op} {d : N.Data}

/-- A turn ends in one way. -/
theorem Monitor.Turns.unique {killed : Bool} {T T' : Turn C N.Op} (h : N.Turns killed d o T)
    (h' : N.Turns killed d o T') : T = T' := by
  induction h with
  | sleep | release | set | wakeup => cases h' <;> simp_all

namespace Pipe

variable {k : Nat} {n : Int} {p : Pipe} {q : List Bytes.Byte}

end Pipe

namespace Input

end Input

end Xv6.Sync
