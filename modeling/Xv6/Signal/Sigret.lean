import Xv6.Signal.Frame

/-!
# Delivery and `sigret`

`check_signals` leaves two things on the user stack: the trampoline, three instructions that make
the system call `sigret`, and below it the trampoline's address, for the handler to return to. The
first part of this file is the processor's side of that: the instructions as bytes, and what they
do (`leave_eq`).

The second part is the round trip. `sys_sigret` copies `tf_backup` over the frame, `syscall` then
stores its return value into `rax` of that frame, and `syscall_trapret` takes `rip` from `rcx` and
the flags from `r11`. So the program gets `rip` and `rsp` back in any case, `rax` only if it was 0,
and, after an interrupt, `rcx` and the flags only if they happened to be what a system call would
have left there.

Main result: `sigret_roundtrip_iff`.
-/

namespace Xv6.Signal

open Bytes List

/-! ## The trampoline -/

/-- The instructions of the trampoline, and `retq`. -/
inductive Insn where
  /-- `movq $imm, %rax` -/
  | movRax (imm : BitVec 32)
  /-- `movq %rcx, %r10` -/
  | movR10
  | syscall
  | retq

/-- The instruction at `a`, if it is one of them. -/
def fetch (mem : Mem) (a : Addr) : Option Insn :=
  if mem a = 0x48 ∧ mem (a + 1#64) = 0xc7 ∧ mem (a + 2#64) = 0xc0 then
    some (.movRax (load32 mem (a + 3#64)))
  else if mem a = 0x49 ∧ mem (a + 1#64) = 0x89 ∧ mem (a + 2#64) = 0xca then some .movR10
  else if mem a = 0x0f ∧ mem (a + 1#64) = 0x05 then some .syscall
  else if mem a = 0xc3 then some .retq
  else none

theorem fetch_retq {mem : Mem} {a : Addr} (h : mem a = 0xc3) : fetch mem a = some .retq := by
  simp [fetch, h]

namespace Task

/-- The program executes one instruction, in user mode. -/
def userStep (p : Task) : Option Task :=
  match fetch p.mem p.regs.rip with
  | some (.movRax imm) =>
    some { p with regs := { p.regs with rax := imm.signExtend 64, rip := p.regs.rip + 7 } }
  | some .movR10 => some { p with regs := { p.regs with r10 := p.regs.rcx, rip := p.regs.rip + 3 } }
  | some .retq =>
    some { p with regs := { p.regs with rip := load64 p.mem p.regs.rsp, rsp := p.regs.rsp + 8 } }
  | _ => none

/-- Three instructions: the handler's `retq` and the trampoline up to `syscall`. -/
def leave (p : Task) : Option Task := (p.userStep.bind userStep).bind userStep

/-- The three instructions of the trampoline. -/
theorem fetch_sigretCode {mem : Mem} {a : Addr} (h : HoldsBytes mem a sigretCode) :
    fetch mem a = some (.movRax 24) ∧ fetch mem (a + 7) = some .movR10 ∧
      fetch mem (a + 10) = some .syscall := by
  simp only [sigretCode, HoldsBytes, BitVec.add_assoc, BitVec.reduceAdd] at h
  obtain ⟨h0, h1, h2, h3, h4, h5, h6, h7, h8, h9, h10, h11, -⟩ := h
  have h1 : mem (a + 1#64) = 0xc7 := h1
  refine ⟨?_, ?_, ?_⟩ <;> simp [fetch, load32, BitVec.add_assoc, *]

variable {p q : Task}

/-- **The handler's return leads to the `syscall` instruction**, with the number of `sigret`. -/
theorem leave_eq {a : Addr} (hret : fetch p.mem p.regs.rip = some .retq)
    (haddr : HoldsBytes p.mem p.regs.rsp (le64 a)) (hcode : HoldsBytes p.mem a sigretCode) :
    p.leave = some { p with regs := { p.regs with
        rax := SYS_sigret, r10 := p.regs.rcx, rip := a + 10, rsp := p.regs.rsp + 8 } } ∧
      fetch p.mem (a + 10) = some .syscall := by
  obtain ⟨h0, h7, h10⟩ := fetch_sigretCode hcode
  have h : p.userStep = some { p with regs := { p.regs with
      rip := a, rsp := p.regs.rsp + 8 } } := by
    simp only [userStep, hret, load64_eq haddr]
  refine ⟨?_, h10⟩
  simp only [leave, h, Option.bind_some]
  simp only [userStep, h0, Option.bind_some, h7]
  simp [SYS_sigret, BitVec.add_assoc]

/-! ## What delivery leaves on the stack -/

theorem copyout_eq_store {mapped : Addr → Bool} {mem : Mem} {a : Addr} {bs : List Byte}
    (h : ∀ x, Within a bs.length x → mapped x) : copyout mapped mem a bs = store mem a bs := by
  induction bs generalizing a mem with
  | nil => rfl
  | cons b bs ih =>
    rw [copyout, if_pos (h a (within_succ.mpr (.inl rfl))), store]
    refine ih fun x hx => h x ?_
    rw [length_cons, within_succ]
    by_cases hxa : x = a
    · exact .inl hxa
    · exact .inr ⟨hx, hxa⟩

/-- The bytes `check_signals` writes: the return address and, above it, the trampoline. -/
def onStack (rsp x : Addr) : Prop := Within rsp 21 x

theorem redirect_mem (h : ∀ x, onStack (p.trampoline - 8) x → p.mapped x) :
    HoldsBytes p.redirect.mem (p.trampoline - 8) (le64 p.trampoline) ∧
      HoldsBytes p.redirect.mem p.trampoline sigretCode := by
  generalize ha : p.trampoline = a at h
  have hcode : copyout p.mapped p.mem a sigretCode = store p.mem a sigretCode := by
    refine copyout_eq_store fun x hx => h x ?_
    simp only [Within, onStack, sigretCode, length_cons, length_nil] at hx ⊢
    bv_omega
  have haddr : ∀ mem, copyout p.mapped mem (a - 8) (le64 a) = store mem (a - 8) (le64 a) := by
    refine fun mem => copyout_eq_store fun x hx => h x ?_
    simp only [Within, onStack, le64, length_cons, length_nil] at hx ⊢
    omega
  have hmem : p.redirect.mem = store (store p.mem a sigretCode) (a - 8) (le64 a) := by
    simp only [redirect, ha, hcode, haddr]
  rw [hmem]
  refine ⟨holdsBytes_store _ _ (by simp [le64]), ?_⟩
  refine (holdsBytes_store p.mem a (by simp [sigretCode])).congr fun x hx => ?_
  refine store_of_not_within ?_
  simp only [Within, sigretCode, le64, length_cons, length_nil] at hx ⊢
  bv_omega

/-! ## The round trip -/

/-- The step ends in no handler. -/
def NoDelivery (p : Task) (e : Event) : Prop := ∀ t, e = .trap t → ¬ p.Delivers t

/-- Only the start of a handler writes `tf_backup`. -/
theorem step_tfBackup {e : Event} (hq : p.step e = some q) (h : p.NoDelivery e) :
    q.tfBackup = p.tfBackup ∧ q.killed = p.killed := by
  cases e with
  | user | post => cases hq; exact ⟨rfl, rfl⟩
  | trap t =>
    rw [step_quiet (h t rfl) hq]
    exact ⟨enter_frame tfBackup (fun _ _ _ _ _ => rfl) p t,
      enter_frame killed (fun _ _ _ _ _ => rfl) p t⟩

theorem run_tfBackup {es : List Event} (hq : p.run es = some q)
    (h : Transition.Allowed step NoDelivery p es) : q.tfBackup = p.tfBackup ∧ q.killed = p.killed :=
  Transition.run_allowed (I := fun r => r.tfBackup = p.tfBackup ∧ r.killed = p.killed)
    (fun r e r' hr hno he => by
      obtain ⟨h₁, h₂⟩ := step_tfBackup he hno
      exact ⟨h₁.trans hr.1, h₂.trans hr.2⟩) hq h ⟨rfl, rfl⟩

/-- The `sigret` of a process that nothing is pending for. -/
theorem step_sigret (hrax : p.regs.rax = SYS_sigret) (hk : p.killed = false)
    (hpend : p.signalPending = 0 ∨ p.sigDisp p.signalPending = 1) :
    ∃ q, p.step (.trap (.syscall .sigret)) = some q ∧
      q.regs = syscallTrapret { p.tfBackup.toTrapFrame with rax := 0 } := by
  have hs : (p.enter (.syscall .sigret)).checkSignals =
      some { p.enter (.syscall .sigret) with signalPending := 0 } := by
    rcases hpend with h0 | h1
    · simp [checkSignals, enter, Syscall.body, hk, h0]
    · by_cases h0 : p.signalPending = 0
      · simp [checkSignals, enter, Syscall.body, hk, h0]
      · simp [checkSignals, enter, Syscall.body, hk, h0, h1]
  refine ⟨_, step_trap_eq_some.mpr ⟨hrax, _, hs, rfl⟩, rfl⟩

end Task

/-- The program goes on as it was, except that the `syscall` instruction, if it made one, has
already cost it `rcx` and `r11`. -/
def Path.Same : Path → Regs → Regs → Prop
  | .interrupt, u, v => u = v
  | .syscall, u, v => { u with rcx := v.rcx, r11 := v.r11 } = v

instance : (path : Path) → (u v : Regs) → Decidable (path.Same u v)
  | .interrupt, u, v => inferInstanceAs (Decidable (u = v))
  | .syscall, u, v => inferInstanceAs (Decidable ({ u with rcx := v.rcx, r11 := v.r11 } = v))

/-- The registers survive the round trip: `rax` is 0 and, after an interrupt, `rcx` and the flags
are what a system call would have left there. -/
def Path.Survives (path : Path) (u : Regs) : Prop :=
  u.rax = 0 ∧ (path = .interrupt → u.rcx = u.rip ∧ u.rflags = sysretFlags u.r11)

instance (path : Path) (u : Regs) : Decidable (path.Survives u) :=
  inferInstanceAs (Decidable (_ ∧ (_ → _ ∧ _)))

namespace Task

/-- What comes back, as far as the frame goes. -/
theorem roundtrip_regs (path : Path) (f : TrapFrame) (hf : path = .syscall → f.rcx = f.rip) :
    let v := syscallTrapret { f with rcx := f.rip, rax := 0 }
    v.rip = (path.resume f).rip ∧ v.rsp = (path.resume f).rsp ∧
      (path.Same v (path.resume f) ↔ path.Survives (path.resume f)) := by
  cases path with
  | interrupt =>
    refine ⟨rfl, rfl, ?_⟩
    simp only [Path.Same, Path.Survives, Path.resume, syscallTrapret, trapret, Regs.ext_iff]
    simp only [true_and, and_true, forall_const]
    constructor
    · rintro ⟨h₁, h₂, h₃⟩
      exact ⟨h₁.symm, h₂.symm, h₃.symm⟩
    · rintro ⟨h₁, h₂, h₃⟩
      exact ⟨h₁.symm, h₂.symm, h₃.symm⟩
  | syscall =>
    have hf := hf rfl
    refine ⟨hf.symm, rfl, ?_⟩
    simp only [Path.Same, Path.Survives, Path.resume, syscallTrapret, Regs.ext_iff]
    simp only [hf, and_true, reduceCtorEq, false_implies]
    exact eq_comm

/-- **Delivery and `sigret`, there and back again.** A trap of the process `p` ends in a handler;
the handler does what it likes, but no other signal is delivered; it returns, and the stack still
holds what `check_signals` put there. Then the trampoline makes the system call `sigret`, and the
program goes on at the `rip` and with the `rsp` it was interrupted at. It goes on with all its
registers if and only if they survive the round trip. -/
theorem sigret_roundtrip_iff {p q r : Task} {t : Trap} {es : List Event}
    (hd : p.Delivers t) (hq : p.step (.trap t) = some q)
    (hmapped : ∀ x, onStack q.regs.rsp x → (p.enter t).mapped x)
    (hr : q.run es = some r) (hquiet : Transition.Allowed step NoDelivery q es)
    (hpend : r.signalPending = 0 ∨ r.sigDisp r.signalPending = 1)
    (hret : fetch r.mem r.regs.rip = some .retq) (hrsp : r.regs.rsp = q.regs.rsp)
    (hstack : ∀ x, onStack q.regs.rsp x → r.mem x = q.mem x) :
    ∃ s u, r.leave = some s ∧ fetch s.mem s.regs.rip = some .syscall ∧
      s.step (.trap (.syscall .sigret)) = some u ∧
      u.regs.rip = (p.interrupted t).rip ∧ u.regs.rsp = (p.interrupted t).rsp ∧
      (t.path.Same u.regs (p.interrupted t) ↔ t.path.Survives (p.interrupted t)) := by
  have hq' := step_delivers hd hq
  subst hq'
  obtain ⟨hbackup, hkilled⟩ := run_tfBackup hr hquiet
  -- the stack pointer the handler starts with
  have husp : (back t.path (p.enter t).redirect).regs.rsp = (p.enter t).trampoline - 8 := by
    cases t <;> rfl
  rw [husp] at hmapped hrsp hstack
  obtain ⟨haddr, hcode⟩ := redirect_mem hmapped
  have haddr' : HoldsBytes r.mem r.regs.rsp (le64 (p.enter t).trampoline) := by
    rw [hrsp]
    refine haddr.congr fun x hx => hstack x ?_
    simp only [Within, onStack, le64, length_cons, length_nil] at hx ⊢
    omega
  have hcode' : HoldsBytes r.mem (p.enter t).trampoline sigretCode := by
    refine hcode.congr fun x hx => hstack x ?_
    simp only [Within, onStack, sigretCode, length_cons, length_nil] at hx ⊢
    bv_omega
  obtain ⟨hleave, hsys⟩ := leave_eq hret haddr' hcode'
  obtain ⟨u, hu, hregs⟩ := step_sigret (p := { r with regs := { r.regs with
      rax := SYS_sigret, r10 := r.regs.rcx, rip := (p.enter t).trampoline + 10,
      rsp := r.regs.rsp + 8 } }) rfl (hkilled.trans hd.1) hpend
  refine ⟨_, u, hleave, hsys, hu, ?_⟩
  have hf : t.path = .syscall → (p.enter t).tf.rcx = (p.enter t).tf.rip := by
    cases t with
    | interrupt => intro h; cases h
    | syscall call => exact fun _ => enter_syscall_rcx p call
  have hback : r.tfBackup.toTrapFrame = { (p.enter t).tf with rcx := (p.enter t).tf.rip } := by
    rw [hbackup]; rfl
  rw [hregs]
  simp only [hback]
  exact roundtrip_regs t.path (p.enter t).tf hf

/-- A program at `0x2000` with its stack at `0x8000`, a pending `SIGALRM` and, at `0x1000`, a
handler that returns at once. -/
def alarmed (rax rcx r11 : BitVec 64) : Task where
  regs :=
    { rax, rbx := 0, rcx, rdx := 0, rbp := 0, rsi := 0, rdi := 0, r8 := 0, r9 := 0, r10 := 0, r11,
      r12 := 0, r13 := 0, r14 := 0, r15 := 0, rip := 0x2000, rflags := 0x246, rsp := 0x8000 }
  mem := fun a => if a = 0x1000 then 0xc3 else 0
  mapped := fun _ => true
  tf := alltraps 0 0 0 0 ⟨0, 0, 0, 0, 0, 0, 0, 0, 0, 0, 0, 0, 0, 0, 0, 0, 0, 0⟩
  tfBackup :=
    { alltraps 0 0 0 0 ⟨0, 0, 0, 0, 0, 0, 0, 0, 0, 0, 0, 0, 0, 0, 0, 0, 0, 0⟩ with rcx_eq := rfl }
  signalPending := 14
  sigDisp := fun n => if n = 14 then 0x1000 else 0
  killed := false

/-- A timer interrupt. -/
def timer : Trap := .interrupt 0x1b 0x23 32 0

theorem alarmed_roundtrip : ∃ q, (alarmed 0 0x2000 0x246).step (.trap timer) = some q ∧
    ∃ s u, q.leave = some s ∧ s.step (.trap (.syscall .sigret)) = some u ∧
      Path.interrupt.Same u.regs ((alarmed 0 0x2000 0x246).interrupted timer) := by
  have hd : (alarmed 0 0x2000 0x246).Delivers timer := by decide +kernel
  have hq : (alarmed 0 0x2000 0x246).step (.trap timer) =
      some (back .interrupt ((alarmed 0 0x2000 0x246).enter timer).redirect) := by
    rw [step_trap_eq_some]
    exact ⟨by decide, _, checkSignals_redirects hd, rfl⟩
  have hbyte : ((alarmed 0 0x2000 0x246).enter timer).redirect.mem 0x1000 = 0xc3 := by
    decide +kernel
  obtain ⟨s, u, hs, -, hu, -, -, hiff⟩ := sigret_roundtrip_iff hd hq (fun _ _ => rfl)
    (show Task.run _ [] = some _ from rfl) trivial (.inl rfl) (fetch_retq hbyte) rfl (fun _ _ => rfl)
  exact ⟨_, hq, s, u, hs, hu, hiff.mpr (by decide +kernel)⟩

/-- A `getpid` that returns 5. -/
def getpid (p : Task) : Trap := .syscall (.other 11 5 p.mem p.mapped)

/-- After an interrupt `rax`, `rcx` and the flags are lost; after a system call its result is. -/
theorem sigret_loses_registers :
    (∃ q ∈ (alarmed 5 7 0).step (.trap timer), ∃ s ∈ q.leave,
      ∃ u ∈ s.step (.trap (.syscall .sigret)), (alarmed 5 7 0).Delivers timer ∧
        ¬ Path.interrupt.Same u.regs ((alarmed 5 7 0).interrupted timer) ∧
        ((alarmed 5 7 0).interrupted timer).rax = 5 ∧ u.regs.rax = 0 ∧
        ((alarmed 5 7 0).interrupted timer).rcx = 7 ∧ u.regs.rcx = 0x2000 ∧
        ((alarmed 5 7 0).interrupted timer).rflags = 0x246 ∧ u.regs.rflags = 2) ∧
    (∃ q ∈ (alarmed 11 7 0).step (.trap (getpid (alarmed 11 7 0))), ∃ s ∈ q.leave,
      ∃ u ∈ s.step (.trap (.syscall .sigret)),
        (alarmed 11 7 0).Delivers (getpid (alarmed 11 7 0)) ∧
        ¬ Path.syscall.Same u.regs ((alarmed 11 7 0).interrupted (getpid (alarmed 11 7 0))) ∧
        ((alarmed 11 7 0).interrupted (getpid (alarmed 11 7 0))).rax = 5 ∧ u.regs.rax = 0) := by
  refine ⟨?_, ?_⟩ <;> decide +kernel

end Task

end Xv6.Signal
