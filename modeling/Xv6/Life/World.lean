import Xv6.Life.Reap
import Xv6.Signal.Frame

/-!
# The machine with the rest of `struct proc`

`Sys` has the fields of `struct proc` that scheduling, `fork`, `exit` and `wait` are about. Here each
slot has the others too: the trap frame, the signal dispositions, the open files and the current
directory, and with them the user context of its process. `tf_backup` stands by itself, since who
reads and writes it is the question.

A process enters the kernel (`interrupt`, `syscall`), makes system calls there (`call`, and the
events of `Sys`), and goes back through `check_signals` (`trapOut`). Which kernel function follows
which inside one trap is not fixed, so there are more runs here than the source has. A signal whose
number is outside `sig_disp` makes `check_signals` read past the array; such a step is left out.
-/

namespace Xv6.Life

open Sched Signal Bytes

/-- `NOFILE`. -/
def NOFILE : Nat := 16

/-- Where a process is as seen from user mode. -/
inductive Mode where
  | user
  /-- In the kernel, through a trap. -/
  | kernel (path : Path)
  /-- In the kernel since its birth: `forkret` returns to `syscall_trapret`. -/
  | newborn
  deriving DecidableEq

/-- The fields of `struct proc` that `Sched.Proc` does not have, but for `tf_backup`, and the user
context. Files and inodes are known by their addresses. -/
structure Rest where
  regs : Regs
  mode : Mode
  mem : Mem
  mapped : Addr → Bool
  tf : TrapFrame
  sigDisp : Fin 32 → BitVec 64
  ofile : Fin NOFILE → Option Nat
  cwd : Option Nat
  /-- The buffer of the last `getschedstats`. -/
  stats : List Schedstat

/-- System calls that do not block. -/
inductive Service where
  | sigret
  | signal (signum : Int) (handler : BitVec 64)
  /-- One of the two stores of `sys_alarm`, the first or the last. Nothing is held between them. -/
  | alarm (last : Bool) (secs : Int)
  | exec (argc argv : BitVec 64) (sz : Nat) (image : Option Image)
  | sbrk (sz : Nat) (mapped : Addr → Bool)
  | registerAgent
  | setschedparam (updAddr : Nat) (upd : SchedUpdate)
  | getschedstats (bufAddr : Nat) (maxproc : Int)
  /-- `open` of the file `f`. -/
  | openFile (f : Nat)
  | close (fd : Fin NOFILE)
  | dup (fd : Fin NOFILE)
  | chdir (ip : Nat)
  /-- Any other call, or one that fails early. It may write user memory. -/
  | other (num result : BitVec 64) (mem : Mem)

/-- The number in `rax`. -/
def Service.num : Service → BitVec 64
  | .sigret => SYS_sigret
  | .signal _ _ => SYS_signal
  | .alarm _ _ => 22
  | .exec _ _ _ _ => SYS_exec
  | .sbrk _ _ => 12
  | .registerAgent => 28
  | .setschedparam _ _ => 27
  | .getschedstats _ _ => 26
  | .openFile _ => 15
  | .close _ => 21
  | .dup _ => 10
  | .chdir _ => 9
  | .other num _ _ => num

/-- `sigret` does not fail, so no other call has its number. -/
def Service.Valid : Service → Prop
  | .other num _ _ => num ≠ SYS_sigret
  | _ => True

instance : DecidablePred Service.Valid
  | .other num _ _ => inferInstanceAs (Decidable (num ≠ SYS_sigret))
  | .sigret | .signal _ _ | .alarm _ _ | .exec _ _ _ _ | .sbrk _ _ | .registerAgent
  | .setschedparam _ _ | .getschedstats _ _ | .openFile _ | .close _ | .dup _ | .chdir _ =>
    .isTrue trivial

/-- `fdalloc`. -/
def fdalloc (ofile : Fin NOFILE → Option Nat) : Option (Fin NOFILE) :=
  (List.finRange NOFILE).find? fun fd => (ofile fd).isNone

/-- Give the file `f` a descriptor. -/
def Rest.install (r : Rest) (f : Nat) : Rest × BitVec 64 :=
  match fdalloc r.ofile with
  | some fd => ({ r with ofile := Function.update r.ofile fd (some f) }, BitVec.ofNat 64 fd)
  | none => (r, failed)

/-- An `int` as it is returned in `rax`. -/
def intReg (v : Int) : BitVec 64 := (BitVec.ofInt 32 v).setWidth 64

/-- The body of a system call of process `i`, whose `tf_backup` is `b`: what becomes of the kernel
and of the process, and what the call returns. -/
def Service.body (i : Slot) (k : Kernel) (r : Rest) (b : Backup) :
    Service → Kernel × Rest × BitVec 64
  | .sigret => (k, { r with tf := b.toTrapFrame }, 0)
  | .signal signum handler =>
    if 0 ≤ signum ∧ signum < 32 then
      (k, { r with sigDisp := Function.update r.sigDisp (Fin.ofNat 32 signum.toNat) handler }, 0)
    else (k, r, failed)
  -- the call goes on after the first store, with its number still in `rax`
  | .alarm last secs =>
    (k.setProc i (if last then { k.proc i with alarmCountdown := i32 (i32 (secs + 1) * 100) }
      else { k.proc i with alarmTicks := i32 (secs * 100) }), r, if last then 0 else r.tf.rax)
  | .exec argc argv _ none => (k, { r with tf := { r.tf with rdi := argc, rsi := argv } }, failed)
  | .exec argc argv sz (some im) =>
    (k.setProc i { k.proc i with sz := sz },
      { r with
        mem := im.mem
        mapped := im.mapped
        tf := { r.tf with
          rdi := argc, rsi := argv, rip := im.entry, rcx := im.entry, rsp := im.sp } }, 0)
  | .sbrk sz mapped =>
    (k.setProc i { k.proc i with sz := sz }, { r with mapped }, BitVec.ofNat 64 (k.proc i).sz)
  | .registerAgent =>
    if k.schedp.agentPid ≠ 0 then (k, r, failed) else (kernPinAgent i (takeAgentSlot i k), r, 0)
  | .setschedparam updAddr upd =>
    ((sysSetschedparam k i updAddr upd).1, r, intReg (sysSetschedparam k i updAddr upd).2)
  | .getschedstats bufAddr maxproc =>
    match sysGetschedstats k i bufAddr maxproc with
    | some stats => (k, { r with stats }, BitVec.ofNat 64 stats.length)
    | none => (k, r, failed)
  | .openFile f => (k, r.install f)
  | .close fd =>
    if (r.ofile fd).isSome then (k, { r with ofile := Function.update r.ofile fd none }, 0)
    else (k, r, failed)
  | .dup fd =>
    match r.ofile fd with
    | some f => (k, r.install f)
    | none => (k, r, failed)
  | .chdir ip => (k, { r with cwd := some ip }, 0)
  | .other _ result mem => (k, { r with mem }, result)

/-- The machine, the rest of each slot, and each slot's `tf_backup`. -/
structure World (ncpu : Nat) extends Sys ncpu where
  rest : Slot → Rest
  tfBackup : Slot → Backup

/-- The steps. -/
inductive WorldEvent (ncpu : Nat) where
  | sys (e : Event ncpu)
  /-- The program runs and leaves these registers and this memory. -/
  | user (c : Fin ncpu) (i : Slot) (regs : Regs) (mem : Mem)
  | interrupt (c : Fin ncpu) (i : Slot) (cs ss trapno err : BitVec 64)
  | syscall (c : Fin ncpu) (i : Slot)
  | call (c : Fin ncpu) (i : Slot) (s : Service)
  /-- `check_signals`, and back to user mode. -/
  | trapOut (c : Fin ncpu) (i : Slot) (path : Path)
  /-- The first way out, which does not pass `check_signals`. -/
  | forkOut (c : Fin ncpu) (i : Slot)

namespace World

variable {ncpu : Nat}

/-- A slot nobody has used yet. -/
def Rest.zero : Rest where
  regs := ⟨0, 0, 0, 0, 0, 0, 0, 0, 0, 0, 0, 0, 0, 0, 0, 0, 0, 0⟩
  mode := .user
  mem := fun _ => 0
  mapped := fun _ => false
  tf := alltraps 0 0 0 0 ⟨0, 0, 0, 0, 0, 0, 0, 0, 0, 0, 0, 0, 0, 0, 0, 0, 0, 0⟩
  sigDisp := fun _ => 0
  ofile := fun _ => none
  cwd := none
  stats := []

/-- What `userinit` makes of slot 0: `initcode` at `PGSIZE`, below a stack of one page. -/
def Rest.init : Rest :=
  { Rest.zero with
    mode := .newborn
    mapped := fun a => a.toNat < 2 * PGSIZE
    tf := { Rest.zero.tf with r11 := 0x200, rsp := 0x2000, rcx := 0x1000 }
    cwd := some 0 }

/-- The machine after `main()`. -/
def boot (ncpu : Nat) : World ncpu where
  toSys := Sys.boot ncpu
  rest := fun i => if i = 0 then Rest.init else Rest.zero
  tfBackup := fun _ => { Rest.zero.tf with rcx_eq := rfl }

/-- `sig_disp[n]`. -/
def disp (w : World ncpu) (i : Slot) (n : Int) : BitVec 64 :=
  (w.rest i).sigDisp (Fin.ofNat 32 n.toNat)

/-- What `check_signals` sees of process `i`. -/
def task (w : World ncpu) (i : Slot) : Task where
  regs := (w.rest i).regs
  mem := (w.rest i).mem
  mapped := (w.rest i).mapped
  tf := (w.rest i).tf
  tfBackup := w.tfBackup i
  signalPending := (w.proc i).signalPending
  sigDisp := w.disp i
  killed := (w.proc i).killed

/-- Process `i` is in user code or in a system call that holds no lock, on CPU `c`. -/
def Runs (w : World ncpu) (c : Fin ncpu) (i : Slot) : Prop :=
  w.At c i .out ∧ w.point i = .user

instance (w : World ncpu) (c : Fin ncpu) (i : Slot) : Decidable (w.Runs c i) :=
  inferInstanceAs (Decidable (_ ∧ _))

/-- The source lets this step happen here. -/
def Enabled (w : World ncpu) : WorldEvent ncpu → Prop
  | .sys e => w.toSys.Enabled e
  | .user c i _ _ => w.Runs c i ∧ (w.rest i).mode = .user
  | .interrupt c i cs _ _ _ => w.Runs c i ∧ (w.rest i).mode = .user ∧ cs &&& 3 = 3
  | .syscall c i => w.Runs c i ∧ (w.rest i).mode = .user
  | .call c i s =>
    w.Runs c i ∧ (w.rest i).mode = .kernel .syscall ∧ (w.rest i).tf.rax = s.num ∧ s.Valid
  | .trapOut c i path =>
    w.Runs c i ∧ (w.rest i).mode = .kernel path ∧
      (0 ≤ (w.proc i).signalPending ∧ (w.proc i).signalPending < 32) ∧
      ((w.task i).checkSignals.isNone → i ≠ w.initproc)
  | .forkOut c i => w.Runs c i ∧ (w.rest i).mode = .newborn

instance (w : World ncpu) : DecidablePred w.Enabled := fun e => by
  cases e <;> unfold Enabled <;> infer_instance

/-- Store the rest of slot `i`. -/
def setRest (w : World ncpu) (i : Slot) (r : Rest) : Slot → Rest := Function.update w.rest i r

/-- Return `v` from the system call process `i` is in. -/
def ret (w : World ncpu) (i : Slot) (v : Int) : Slot → Rest :=
  w.setRest i { w.rest i with tf := { (w.rest i).tf with rax := intReg v } }

/-- What a step of the machine does to the rest of the slots. -/
def restAfter (w : World ncpu) : Event ncpu → Slot → Rest
  | .forkAlloc _ i =>
    match freeSlot w.proc with
    | some np => w.setRest np { w.rest np with sigDisp := fun _ => 0 }
    | none => w.ret i (-1)
  | .forkFail _ i _ => w.ret i (-1)
  | .forkCopy _ i np =>
    -- descriptors the parent does not use are not written
    w.setRest np { w.rest i with
      mode := .newborn
      sigDisp := (w.rest np).sigDisp
      tf := { (w.rest i).tf with rax := 0 }
      ofile := fun fd => ((w.rest i).ofile fd).or ((w.rest np).ofile fd) }
  | .forkDone _ i np => w.ret i (w.proc np).pid
  | .waitReap _ i j => w.ret i (w.proc j).pid
  | .waitFail _ i => w.ret i (-1)
  | .acquire _ i .exit =>
    -- by now `exit` has closed the files and dropped the current directory
    w.setRest i { w.rest i with ofile := fun _ => none, cwd := none }
  | _ => w.rest

/-- Store the results of a system call of process `i`. -/
def serve (w : World ncpu) (i : Slot) (x : Kernel × Rest × BitVec 64) : World ncpu :=
  { w with
    toSys := w.toSys.onKernel fun _ => x.1
    rest := w.setRest i { x.2.1 with tf := { x.2.1.tf with rax := x.2.2 } } }

/-- The way out for process `i`, given what `check_signals` made of it. -/
def goOut (w : World ncpu) (i : Slot) (path : Path) : Option Task → World ncpu
  | none => { w with toSys := w.toSys.setPoint i .exiting }
  | some t =>
    { w with
      toSys := w.toSys.setProc i { w.proc i with signalPending := t.signalPending }
      rest := w.setRest i { w.rest i with
        regs := path.resume t.tf, mode := .user, mem := t.mem, tf := t.tf }
      tfBackup := Function.update w.tfBackup i t.tfBackup }

/-- What the step does. -/
def effect (w : World ncpu) : WorldEvent ncpu → World ncpu
  | .sys e => { w with toSys := w.toSys.effect e, rest := w.restAfter e }
  | .user _ i regs mem => { w with rest := w.setRest i { w.rest i with regs, mem } }
  | .interrupt _ i cs ss trapno err =>
    { w with rest := w.setRest i { w.rest i with
      mode := .kernel .interrupt, tf := alltraps cs ss trapno err (w.rest i).regs } }
  | .syscall _ i =>
    { w with rest := w.setRest i { w.rest i with
      mode := .kernel .syscall
      tf := syscallEntry (w.rest i).tf.ss (syscallInsn (w.rest i).regs) } }
  | .call _ i s => w.serve i (s.body i w.toKernel (w.rest i) (w.tfBackup i))
  | .trapOut _ i path => w.goOut i path (w.task i).checkSignals
  | .forkOut _ i =>
    { w with rest := w.setRest i { w.rest i with
      regs := syscallTrapret (w.rest i).tf, mode := .user } }

theorem effect_trapOut (w : World ncpu) (c : Fin ncpu) (i : Slot) (path : Path) :
    w.effect (.trapOut c i path) = w.goOut i path (w.task i).checkSignals := rfl

def step (w : World ncpu) (e : WorldEvent ncpu) : Option (World ncpu) :=
  if w.Enabled e then some (w.effect e) else none

theorem step_eq_some {w w' : World ncpu} {e : WorldEvent ncpu} :
    w.step e = some w' ↔ w.Enabled e ∧ w' = w.effect e := by
  unfold step
  split
  · next h => simp [h, eq_comm]
  · next h => simp [h]

/-- Perform a list of events from `w`. -/
abbrev run (w : World ncpu) (es : List (WorldEvent ncpu)) : Option (World ncpu) :=
  Transition.run step w es

/-- What the machine can reach from boot. -/
def Reachable (w : World ncpu) : Prop := ∃ es, (boot ncpu).run es = some w

end World

end Xv6.Life
