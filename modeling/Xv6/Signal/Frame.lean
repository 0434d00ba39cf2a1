import Xv6.Common.Bytes
import Xv6.Common.Transition

/-!
# Trap frames and signals

One process between its traps. The program runs in user mode and does whatever it likes with its
registers and its memory; an interrupt or a `syscall` instruction puts the registers into a trap
frame on the kernel stack, `check_signals` may redirect the frame to a handler, and the frame is
loaded back into the registers.

There are two ways in and two ways out, and they do not treat the registers alike. `alltraps` and
`trapret` (`iretq`) move every register. The `syscall` instruction leaves the return address in
`rcx` and the flags in `r11`, and `syscall_trapret` (`sysretq`) takes them from there; `rip` and
`rflags` of the frame are thrown away. Both build the frame at the top of the kernel stack, so
`proc->tf` is the frame of the trap the process is in.
-/

namespace Xv6.Signal

open Bytes

/-- What a user program sees of the CPU. -/
@[ext] structure Regs where
  rax : BitVec 64
  rbx : BitVec 64
  rcx : BitVec 64
  rdx : BitVec 64
  rbp : BitVec 64
  rsi : BitVec 64
  rdi : BitVec 64
  r8 : BitVec 64
  r9 : BitVec 64
  r10 : BitVec 64
  r11 : BitVec 64
  r12 : BitVec 64
  r13 : BitVec 64
  r14 : BitVec 64
  r15 : BitVec 64
  rip : BitVec 64
  rflags : BitVec 64
  rsp : BitVec 64
  deriving DecidableEq

/-- `struct trapframe`. -/
@[ext] structure TrapFrame extends Regs where
  trapno : BitVec 64
  err : BitVec 64
  cs : BitVec 64
  ss : BitVec 64
  deriving DecidableEq

/-! ## In and out -/

/-- What the interrupt, `vectors.S` and `alltraps` push. -/
def alltraps (cs ss trapno err : BitVec 64) (u : Regs) : TrapFrame :=
  { u with trapno, err, cs, ss }

/-- `trapret`. -/
def trapret (f : TrapFrame) : Regs := f.toRegs

/-- The `syscall` instruction, two bytes long, leaves the way back in `rcx` and `r11`. -/
def syscallInsn (u : Regs) : Regs := { u with rcx := u.rip + 2, r11 := u.rflags }

/-- `syscall_entry`. It pushes no `ss`: what is in that word of the kernel stack stays there. -/
def syscallEntry (ss : BitVec 64) (u : Regs) : TrapFrame :=
  { u with rflags := u.r11, cs := 0, rip := u.rcx, err := 0, trapno := 0, ss }

/-- The flags `sysretq` loads, given `r11`. -/
def sysretFlags (r11 : BitVec 64) : BitVec 64 := (r11 &&& 0x3C7FD7) ||| 2

/-- `syscall_trapret`. -/
def syscallTrapret (f : TrapFrame) : Regs :=
  { f.toRegs with rip := f.rcx, rflags := sysretFlags f.r11 }

/-- The ways out of the kernel. -/
inductive Path where
  | interrupt
  | syscall
  deriving DecidableEq

/-- The registers the process goes on with. -/
def Path.resume : Path → TrapFrame → Regs
  | .interrupt => trapret
  | .syscall => syscallTrapret

/-! ## The process -/

/-- What `tf_backup` can hold: `check_signals`, its only writer, copies `rip` to `rcx`. -/
structure Backup extends TrapFrame where
  rcx_eq : rcx = rip

/-- The process, as far as signals are concerned. `mapped` says which user pages `uva2ka` finds. -/
structure Task where
  regs : Regs
  mem : Mem
  mapped : Addr → Bool
  tf : TrapFrame
  tfBackup : Backup
  signalPending : Int
  sigDisp : Int → BitVec 64
  killed : Bool

/-- The system call numbers of the calls below. -/
def SYS_exec : BitVec 64 := 7

def SYS_signal : BitVec 64 := 23

def SYS_sigret : BitVec 64 := 24

/-- `sigret_code`: `movq $24, %rax; movq %rcx, %r10; syscall; retq`. -/
def sigretCode : List Byte :=
  [0x48, 0xc7, 0xc0, 0x18, 0x00, 0x00, 0x00, 0x49, 0x89, 0xca, 0x0f, 0x05, 0xc3]

/-- `copyout`, which gives up at the first page that is not there. -/
def copyout (mapped : Addr → Bool) (mem : Mem) (va : Addr) : List Byte → Mem
  | [] => mem
  | b :: bs => if mapped va then copyout mapped (Function.update mem va b) (va + 1) bs else mem

namespace Task

/-- Where `check_signals` puts the trampoline. -/
def trampoline (p : Task) : Addr := (p.tf.rsp - 13) &&& ~~~0xF

/-- The last part of `check_signals`: on to the handler. -/
def redirect (p : Task) : Task :=
  let handler := p.sigDisp p.signalPending
  let usp := p.trampoline - 8
  { p with
    tfBackup := { p.tf with rcx := p.tf.rip, rcx_eq := rfl }
    signalPending := 0
    mem := copyout p.mapped (copyout p.mapped p.mem p.trampoline sigretCode) usp (le64 p.trampoline)
    tf := { p.tf with
      rsp := usp, rcx := handler, rip := handler, rdi := BitVec.ofInt 64 p.signalPending } }

/-- `check_signals`; `none` when it calls `exit`. -/
def checkSignals (p : Task) : Option Task :=
  if p.killed then none
  else if p.signalPending = 0 then some p
  else if p.sigDisp p.signalPending = 1 then some { p with signalPending := 0 }
  else if p.sigDisp p.signalPending = 0 then none
  else some p.redirect

end Task

/-- What `exec` makes of a program. -/
structure Image where
  entry : BitVec 64
  sp : BitVec 64
  mem : Mem
  mapped : Addr → Bool

/-- System calls. -/
inductive Syscall where
  | sigret
  | signal (signum : Int) (handler : BitVec 64)
  /-- An `exec` that gets as far as storing the arguments of `main`. It can still fail. -/
  | exec (argc argv : BitVec 64) (image : Option Image)
  /-- Any other call, or one that fails. It may write user memory and change its extent. -/
  | other (num result : BitVec 64) (mem : Mem) (mapped : Addr → Bool)

/-- The number in `rax`. -/
def Syscall.num : Syscall → BitVec 64
  | .sigret => SYS_sigret
  | .signal _ _ => SYS_signal
  | .exec _ _ _ => SYS_exec
  | .other num _ _ _ => num

/-- -1 as an `int` leaves the upper half of `rax` empty. -/
def failed : BitVec 64 := 0xffffffff

/-- The body of the system call, and what it returns. -/
def Syscall.body (p : Task) : Syscall → Task × BitVec 64
  | .sigret => ({ p with tf := p.tfBackup.toTrapFrame }, 0)
  | .signal signum handler =>
    if 0 ≤ signum ∧ signum < 32 then
      ({ p with sigDisp := Function.update p.sigDisp signum handler }, 0)
    else (p, failed)
  | .exec argc argv none => ({ p with tf := { p.tf with rdi := argc, rsi := argv } }, failed)
  | .exec argc argv (some im) =>
    ({ p with
      mem := im.mem
      mapped := im.mapped
      tf := { p.tf with
        rdi := argc, rsi := argv, rip := im.entry, rcx := im.entry, rsp := im.sp } }, 0)
  | .other _ result mem mapped => ({ p with mem, mapped }, result)

/-- The ways into the kernel. A fault is not one of them: the process does not come back. -/
inductive Trap where
  | interrupt (cs ss trapno err : BitVec 64)
  | syscall (call : Syscall)

def Trap.path : Trap → Path
  | .interrupt _ _ _ _ => .interrupt
  | .syscall _ => .syscall

/-- What can happen to the process. -/
inductive Event where
  /-- The program runs and leaves these registers and this memory. -/
  | user (regs : Regs) (mem : Mem)
  | trap (t : Trap)
  /-- Somebody else sends a signal: `kill`, `check_alarms`, `send_fgsig`. -/
  | post (signum : Int)

namespace Task

/-- The trap can be taken: an interrupt finds the CPU in user mode, a system call is the one the
program asked for, and `sigret` is nobody else's number. -/
def Traps (p : Task) : Trap → Prop
  | .interrupt cs _ _ _ => cs &&& 3 = 3
  | .syscall (.other num _ _ _) => p.regs.rax = num ∧ num ≠ SYS_sigret
  | .syscall call => p.regs.rax = call.num

instance (p : Task) : DecidablePred p.Traps
  | .interrupt cs _ _ _ => inferInstanceAs (Decidable (cs &&& 3 = 3))
  | .syscall (.other num _ _ _) =>
    inferInstanceAs (Decidable (p.regs.rax = num ∧ num ≠ SYS_sigret))
  | .syscall .sigret | .syscall (.signal _ _) | .syscall (.exec _ _ _) =>
    inferInstanceAs (Decidable (p.regs.rax = _))

/-- The process in the kernel, as the trap hands it to `check_signals`. -/
def enter (p : Task) : Trap → Task
  | .interrupt cs ss trapno err => { p with tf := alltraps cs ss trapno err p.regs }
  | .syscall call =>
    let q := call.body { p with tf := syscallEntry p.tf.ss (syscallInsn p.regs) }
    { q.1 with tf := { q.1.tf with rax := q.2 } }

/-- Back to the program. -/
def back (path : Path) (p : Task) : Task := { p with regs := path.resume p.tf }

/-- One step; `none` when the process exits, and for traps that cannot be taken. -/
def step (p : Task) : Event → Option Task
  | .user regs mem => some { p with regs, mem }
  | .post signum => some { p with signalPending := signum }
  | .trap t => if p.Traps t then ((p.enter t).checkSignals).map (back t.path) else none

/-- Perform a list of events. -/
abbrev run (p : Task) (es : List Event) : Option Task := Transition.run step p es

/-- `check_signals` redirects the process to a handler. -/
def Redirects (p : Task) : Prop :=
  p.killed = false ∧ p.signalPending ≠ 0 ∧
    p.sigDisp p.signalPending ≠ 0 ∧ p.sigDisp p.signalPending ≠ 1

instance (p : Task) : Decidable p.Redirects := inferInstanceAs (Decidable (_ ∧ _ ∧ _ ∧ _))

/-- The trap ends in a handler. -/
def Delivers (p : Task) (t : Trap) : Prop := (p.enter t).Redirects

instance (p : Task) : DecidablePred p.Delivers := fun t =>
  inferInstanceAs (Decidable (p.enter t).Redirects)

/-- The registers the program would have gone on with after the trap, were it not for signals. -/
def interrupted (p : Task) (t : Trap) : Regs := t.path.resume (p.enter t).tf

/-! ## What `check_signals` does -/

variable {p q : Task}

theorem checkSignals_redirects (h : p.Redirects) : p.checkSignals = some p.redirect := by
  obtain ⟨hk, hp, h0, h1⟩ := h
  rw [checkSignals, if_neg (by simp [hk]), if_neg hp, if_neg h1, if_neg h0]

/-- Otherwise it leaves everything as it is but the pending signal. -/
theorem checkSignals_quiet (h : ¬ p.Redirects) (hq : p.checkSignals = some q) :
    q = { p with signalPending := q.signalPending } ∧ p.killed = false := by
  unfold checkSignals at hq
  split_ifs at hq with hk hp h1 h0
  · cases hq; exact ⟨rfl, by simpa using hk⟩
  · cases hq; exact ⟨rfl, by simpa using hk⟩
  · exact absurd ⟨by simpa using hk, hp, h0, h1⟩ h

theorem step_trap_eq_some {t : Trap} : p.step (.trap t) = some q ↔
    p.Traps t ∧ ∃ q', (p.enter t).checkSignals = some q' ∧ q = back t.path q' := by
  simp only [step]
  split_ifs with h
  · simp [h, eq_comm]
  · simp [h]

theorem step_delivers {t : Trap} (hd : p.Delivers t) (hq : p.step (.trap t) = some q) :
    q = back t.path (p.enter t).redirect := by
  obtain ⟨-, q', hq', rfl⟩ := step_trap_eq_some.mp hq
  rw [checkSignals_redirects hd] at hq'
  rw [Option.some.inj hq']

theorem step_quiet {t : Trap} (hd : ¬ p.Delivers t) (hq : p.step (.trap t) = some q) :
    q = { p.enter t with
      regs := p.interrupted t, signalPending := q.signalPending } := by
  obtain ⟨-, q', hq', rfl⟩ := step_trap_eq_some.mp hq
  obtain ⟨h, -⟩ := checkSignals_quiet hd hq'
  rw [h]
  rfl

/-- The way in writes the frame, the address space and the dispositions, and nothing else. -/
theorem enter_frame {β : Type} (obs : Task → β)
    (hobs : ∀ (p : Task) tf mem mapped disp, obs { p with
      tf := tf, mem := mem, mapped := mapped, sigDisp := disp } = obs p) (p : Task) (t : Trap) :
    obs (p.enter t) = obs p := by
  cases t with
  | interrupt => exact hobs p _ _ _ _
  | syscall call =>
    cases call with
    | signal signum handler =>
      simp only [enter, Syscall.body]
      split_ifs <;> exact hobs p _ _ _ _
    | exec argc argv image => cases image <;> exact hobs p _ _ _ _
    | _ => exact hobs p _ _ _ _

/-- On the way out of a system call, `rcx` of the frame is `rip`. -/
theorem enter_syscall_rcx (p : Task) (call : Syscall) :
    (p.enter (.syscall call)).tf.rcx = (p.enter (.syscall call)).tf.rip := by
  cases call with
  | sigret => exact p.tfBackup.rcx_eq
  | signal signum handler =>
    simp only [enter, Syscall.body]
    split_ifs <;> rfl
  | exec argc argv image => cases image <;> rfl
  | _ => rfl

end Task

end Xv6.Signal
