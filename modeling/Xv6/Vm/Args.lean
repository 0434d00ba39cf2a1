import Xv6.Sched.Pointers
import Xv6.Vm.Growproc

/-!
# The arguments of system calls

`syscall.c` takes the arguments of a system call from the registers of the process. A pointer is
checked against the size of the process before the kernel follows it. `fetchint`, `fetchaddr` and
`fetchstr` compare 64-bit addresses. `argptr` looks at the lower 32 bits of the register only and has
no lower bound, and it returns an `addr_t`, so that the test of its callers for a negative result is
never true. `argstr` passes the pointer through an `int`.
-/

namespace Xv6.Vm

open Fallible
open Bytes (Byte)
open Sched (PGSIZE Slot InUser)
open Signal (TrapFrame)
open BitVec (le_def lt_def msb_eq_decide ofNat toNat_add toNat_inj toNat_ofNat toNat_setWidth
  toNat_signExtend)

/-- What the system calls see of the process that makes them: its registers, its size, and its memory
as the kernel reads it. Where that is `none`, the kernel faults. -/
structure Caller where
  tf : TrapFrame
  sz : BitVec 64
  mem : ℕ → Option Byte

variable {c : Caller}

/-- A process as a caller. -/
def World.caller (w : World) (i : Slot) : Caller :=
  ⟨w.tf i, ofNat 64 (w.sz i), w.phys.read (w.pgdir i)⟩

/-! ## Fetching -/

/-- The kernel reads the number in so many bytes. -/
def Caller.load (c : Caller) : ℕ → ℕ → Except Panic ℕ
  | 0, _ => pure 0
  | n + 1, va =>
    match c.mem va with
    | none => throw .trap
    | some b => do
      let v ← c.load n (va + 1)
      pure (b.toNat + 256 * v)

/-- `fetchint` and `fetchaddr`, which differ in the size of what they fetch. -/
def fetch (bytes : ℕ) (c : Caller) (addr : BitVec 64) : Except Panic (Option ℕ) :=
  if addr < ofNat 64 PGSIZE ∨ addr ≥ c.sz ∨ addr + ofNat 64 bytes > c.sz then pure none
  else some <$> c.load bytes addr.toNat

def fetchint : Caller → BitVec 64 → Except Panic (Option ℕ) := fetch 4

def fetchaddr : Caller → BitVec 64 → Except Panic (Option ℕ) := fetch 8

/-- The loop of `fetchstr` over `n` more bytes: the bytes before the first NUL. -/
def Caller.scan (c : Caller) : ℕ → ℕ → Except Panic (Option (List Byte))
  | 0, _ => pure none
  | n + 1, va =>
    match c.mem va with
    | none => throw .trap
    | some b =>
      if b = 0 then pure (some [])
      else do
        let bs ← c.scan n (va + 1)
        pure (bs.map (b :: ·))

/-- `fetchstr`. It returns the length as an `int`, and its callers take a negative one for an error. -/
def fetchstr (c : Caller) (addr : BitVec 64) : Except Panic (Option (List Byte)) := do
  if addr < ofNat 64 PGSIZE ∨ addr ≥ c.sz then pure none
  else
    let bs ← c.scan (c.sz.toNat - addr.toNat) addr.toNat
    pure (bs.filter fun bs => 0 ≤ i32 bs.length)

/-- `fetcharg`; there are six registers for arguments. -/
def fetcharg (c : Caller) : Fin 6 → BitVec 64
  | 0 => c.tf.rdi
  | 1 => c.tf.rsi
  | 2 => c.tf.rdx
  | 3 => c.tf.r10
  | 4 => c.tf.r8
  | 5 => c.tf.r9

def argint (c : Caller) (n : Fin 6) : BitVec 32 := (fetcharg c n).setWidth 32

def argaddr (c : Caller) (n : Fin 6) : BitVec 64 := fetcharg c n

/-- `argptr`. The lower half of the register is compared, and the sum is taken in 32 bits. -/
def argptr (c : Caller) (n : Fin 6) (size : BitVec 32) : Option (BitVec 64) :=
  let i := argaddr c n
  if size.toInt < 0 ∨ (i.setWidth 32).setWidth 64 ≥ c.sz ∨
    (i.setWidth 32 + size).setWidth 64 > c.sz then none
  else some i

/-- `argstr`: the pointer, and the string. The `int` in between is extended with its sign. -/
def argstr (c : Caller) (n : Fin 6) : Except Panic (Option (BitVec 64 × List Byte)) := do
  let addr := (argint c n).signExtend 64
  let o ← fetchstr c addr
  pure (o.map fun bs => (addr, bs))

/-- The calls that pass a buffer. -/
inductive BufferCall where
  | read
  | write
  | fstat
  | pipe
  deriving DecidableEq

local instance neZero_args : NeZero 6 := ⟨by decide⟩

namespace BufferCall

/-- The argument that is the buffer. -/
def argument : BufferCall → Fin 6
  | .read | .write | .fstat => 1
  | .pipe => 0

/-- The size of the buffer: the third argument, `sizeof(struct stat)`, or two `int`s. -/
def size (c : Caller) : BufferCall → BitVec 32
  | .read | .write => argint c 2
  | .fstat => 20
  | .pipe => 8

/-- The pointer that the call goes on with. `argptr(..) < 0` compares an unsigned number, so where
`argptr` refuses, the local variable is used as it was. -/
def pointer (c : Caller) (junk : BitVec 64) (call : BufferCall) : BitVec 64 :=
  (argptr c call.argument (call.size c)).getD junk

end BufferCall

/-- The loop of `sys_exec` over the vector at `uargv`, from its entry `i` on. -/
def fetchArgv (c : Caller) (uargv : BitVec 64) : ℕ → ℕ → Except Panic (Option (List (List Byte)))
  | 0, _ => pure none
  | n + 1, i => do
    match ← fetchaddr c (uargv + ofNat 64 (8 * i)) with
    | none => pure none
    | some 0 => pure (some [])
    | some uarg =>
      match ← fetchstr c (ofNat 64 uarg) with
      | none => pure none
      | some arg =>
        let args ← fetchArgv c uargv n (i + 1)
        pure (args.map (arg :: ·))

/-- What `sys_exec` passes to `exec`: the path and the vector. -/
def sysExec (c : Caller) : Except Panic (Option (List Byte × List (List Byte))) := do
  match ← argstr c 0 with
  | none => pure none
  | some (_, path) =>
    let argv ← fetchArgv c (argaddr c 1) MAXARG 0
    pure (argv.map fun argv => (path, argv))

/-! ## What is accepted -/

/-- The kernel can read all that the process may use. -/
def Caller.Mapped (c : Caller) : Prop :=
  ∀ va, PGSIZE ≤ va → va < c.sz.toNat → (c.mem va).isSome = true

theorem Caller.Mapped.load (h : c.Mapped) (n : ℕ) : ∀ {va : ℕ}, InUser c.sz.toNat va n →
    ∃ v, c.load n va = .ok v := by
  induction n with
  | zero =>
    intro va _
    exact ⟨0, rfl⟩
  | succ n ih =>
    rintro va ⟨hlo, hhi⟩
    obtain ⟨b, hb⟩ := Option.isSome_iff_exists.mp (h va hlo (by omega))
    obtain ⟨v, hv⟩ := @ih (va + 1) ⟨by omega, by omega⟩
    refine ⟨b.toNat + 256 * v, ?_⟩
    rw [Caller.load, hb]
    dsimp only
    rw [hv]
    rfl

theorem Caller.Mapped.fetch {bytes : ℕ} (h : c.Mapped) (hsz : c.sz.toNat + bytes ≤ 2 ^ 64)
    (addr : BitVec 64) : ∃ o, fetch bytes c addr = .ok o ∧
      (o.isSome = true → InUser c.sz.toNat addr.toNat bytes) := by
  unfold Vm.fetch
  split
  · exact ⟨none, rfl, fun hsome => by cases hsome⟩
  · next hin =>
      have huser : InUser c.sz.toNat addr.toNat bytes := by
        simp only [not_or, ge_iff_le, gt_iff_lt, lt_def, le_def, toNat_add,
          toNat_ofNat, pgsize_eq] at hin
        rw [InUser, pgsize_eq]
        omega
      obtain ⟨v, hv⟩ := h.load bytes huser
      rw [hv]
      exact ⟨some v, rfl, fun _ => huser⟩

theorem Caller.Mapped.scan (h : c.Mapped) (n : ℕ) : ∀ {va : ℕ}, InUser c.sz.toNat va n →
    ∃ o, c.scan n va = .ok o ∧ ∀ bs, o = some bs → bs.length < n ∧ 0 ∉ bs := by
  induction n with
  | zero =>
    intro va _
    exact ⟨none, rfl, fun bs hnone => by cases hnone⟩
  | succ n ih =>
    rintro va ⟨hlo, hhi⟩
    obtain ⟨b, hb⟩ := Option.isSome_iff_exists.mp (h va hlo (by omega))
    rw [Caller.scan, hb]
    dsimp only
    split
    · refine ⟨some [], rfl, ?_⟩
      rintro bs ⟨⟩
      exact ⟨Nat.succ_pos n, List.not_mem_nil⟩
    · next hne =>
        obtain ⟨o, ho, hrest⟩ := @ih (va + 1) ⟨by omega, by omega⟩
        rw [ho]
        refine ⟨o.map (b :: ·), rfl, fun bs hbs => ?_⟩
        obtain ⟨bs', rfl, rfl⟩ := Option.map_eq_some_iff.mp hbs
        obtain ⟨hlen, hnul⟩ := hrest bs' rfl
        refine ⟨Nat.succ_lt_succ hlen, fun hmem => ?_⟩
        rcases List.mem_cons.mp hmem with hzero | hin
        · exact hne hzero.symm
        · exact hnul hin

theorem Caller.Mapped.fetchstr (h : c.Mapped) (addr : BitVec 64) : ∃ o, fetchstr c addr = .ok o ∧
    ∀ bs, o = some bs → InUser c.sz.toNat addr.toNat (bs.length + 1) ∧ 0 ∉ bs := by
  unfold Vm.fetchstr
  split
  · exact ⟨none, rfl, fun bs hnone => by cases hnone⟩
  · next hin =>
      have hlow : PGSIZE ≤ addr.toNat ∧ addr.toNat < c.sz.toNat := by
        simp only [not_or, ge_iff_le, lt_def, le_def, toNat_ofNat,
          pgsize_eq] at hin
        rw [pgsize_eq]
        omega
      have huser : InUser c.sz.toNat addr.toNat (c.sz.toNat - addr.toNat) := ⟨hlow.1, by omega⟩
      obtain ⟨o, ho, hstr⟩ := h.scan _ huser
      rw [ho]
      refine ⟨o.filter fun bs => 0 ≤ i32 bs.length, rfl, fun bs hbs => ?_⟩
      obtain ⟨hlen, hnul⟩ := hstr bs (Option.filter_eq_some_iff.mp hbs).1
      exact ⟨⟨hlow.1, by omega⟩, hnul⟩

variable {n : Fin 6}

theorem argptr_eq_some_iff {size : BitVec 32} {p : BitVec 64} :
    argptr c n size = some p ↔ p = fetcharg c n ∧ ¬ size.toInt < 0 ∧
      (fetcharg c n).toNat % 2 ^ 32 < c.sz.toNat ∧
      ((fetcharg c n).toNat + size.toNat) % 2 ^ 32 ≤ c.sz.toNat := by
  unfold argptr argaddr
  have hlow : ((fetcharg c n).setWidth 32).toNat < 2 ^ 64 := by omega
  have hhigh : ((fetcharg c n).setWidth 32 + size).toNat < 2 ^ 64 := by omega
  simp only [ge_iff_le, gt_iff_lt, lt_def, le_def, toNat_add,
    toNat_setWidth, Nat.mod_add_mod] at hlow hhigh ⊢
  rw [Nat.mod_eq_of_lt hlow, Nat.mod_eq_of_lt hhigh]
  split
  · next hbad => exact iff_of_false (by simp) (by rintro ⟨-, hgood⟩; omega)
  · next hgood =>
      refine ⟨fun h => ⟨(Option.some.inj h).symm, by omega⟩, ?_⟩
      rintro ⟨rfl, -⟩
      rfl

/-- A register goes through an `int` unchanged if its upper half is a copy of the sign. -/
theorem argint_signExtend_iff : (argint c n).signExtend 64 = fetcharg c n ↔
    (fetcharg c n).toNat < 2 ^ 31 ∨ 2 ^ 64 - 2 ^ 31 ≤ (fetcharg c n).toNat := by
  have hlt := (fetcharg c n).isLt
  rw [← toNat_inj, toNat_signExtend, msb_eq_decide, argint,
    toNat_setWidth, toNat_setWidth]
  simp only [decide_eq_true_eq]
  split <;> omega

/-- What `argstr` hands out is what the register says, if it hands out anything. -/
theorem Caller.Mapped.argstr_iff (h : c.Mapped) :
    (∃ o, argstr c n = .ok o ∧ ∀ p bs, o = some (p, bs) →
      p = fetcharg c n ∧ InUser c.sz.toNat p.toNat (bs.length + 1)) ↔
    (fetcharg c n).toNat < 2 ^ 31 ∨ 2 ^ 64 - 2 ^ 31 ≤ (fetcharg c n).toNat ∨
      Vm.fetchstr c ((argint c n).signExtend 64) = .ok none := by
  obtain ⟨o, ho, hstr⟩ := h.fetchstr ((argint c n).signExtend 64)
  have hrun : argstr c n = .ok (o.map fun bs => ((argint c n).signExtend 64, bs)) := by
    unfold Vm.argstr
    dsimp only
    rw [ho]
    rfl
  rw [← or_assoc, ← argint_signExtend_iff, hrun, ho]
  generalize (argint c n).signExtend 64 = addr at *
  constructor
  · rintro ⟨_, ⟨⟩, hsound⟩
    cases o with
    | none => exact .inr rfl
    | some bs => exact .inl (hsound addr bs rfl).1
  · rintro (rfl | hnone)
    · refine ⟨_, rfl, fun p bs hbs => ?_⟩
      obtain ⟨bs', hsome, heq⟩ := Option.map_eq_some_iff.mp hbs
      cases heq
      exact ⟨rfl, (hstr bs hsome).1⟩
    · obtain rfl : o = none := Except.ok.inj hnone
      exact ⟨none, rfl, fun p bs hnone => by cases hnone⟩

/-- The strings that `sys_exec` collects. -/
theorem Caller.Mapped.fetchArgv (h : c.Mapped) (hsz : c.sz.toNat + 8 ≤ 2 ^ 64) (uargv : BitVec 64)
    (n : ℕ) : ∀ {i : ℕ}, ∃ o, fetchArgv c uargv n i = .ok o ∧
      ∀ argv, o = some argv → argv.length < n ∧ ∀ a ∈ argv, 0 ∉ a := by
  induction n with
  | zero =>
    intro i
    exact ⟨none, rfl, fun argv hnone => by cases hnone⟩
  | succ n ih =>
    intro i
    obtain ⟨o, ho, -⟩ := h.fetch hsz (uargv + ofNat 64 (8 * i))
    obtain ⟨rest, hrest, hargs⟩ := ih (i := i + 1)
    rw [Vm.fetchArgv, fetchaddr, ho]
    match o with
    | none => exact ⟨none, rfl, fun argv hnone => by cases hnone⟩
    | some 0 =>
      refine ⟨some [], rfl, ?_⟩
      rintro argv ⟨⟩
      exact ⟨Nat.succ_pos n, fun a ha => by cases ha⟩
    | some (uarg + 1) =>
      obtain ⟨o, ho, hstr⟩ := h.fetchstr (ofNat 64 (uarg + 1))
      simp only [bind, Except.bind, ho, hrest]
      cases o with
      | none => exact ⟨none, rfl, fun argv hnone => by cases hnone⟩
      | some arg =>
        refine ⟨rest.map (arg :: ·), rfl, fun argv hargv => ?_⟩
        obtain ⟨args, rfl, rfl⟩ := Option.map_eq_some_iff.mp hargv
        obtain ⟨hlen, hnul⟩ := hargs args rfl
        exact ⟨Nat.succ_lt_succ hlen, List.forall_mem_cons.mpr ⟨(hstr arg rfl).2, hnul⟩⟩

/-- A vector that `sys_exec` takes: there is room for the null pointer, and a string ends at its first
NUL. -/
structure Accepted (argv : List (List Byte)) : Prop where
  count : argv.length < MAXARG
  nul : ∀ a ∈ argv, 0 ∉ a

/-- **`sys_exec` does not fault, whatever is in the registers and in the vector**, and what it passes
to `exec` is a string and a vector of fewer than `MAXARG` strings. -/
theorem sysExec_accepted (h : c.Mapped) (hsz : c.sz.toNat + 8 ≤ 2 ^ 64) :
    ∃ o, sysExec c = .ok o ∧ ∀ path argv, o = some (path, argv) → 0 ∉ path ∧ Accepted argv := by
  obtain ⟨o, ho, hpath⟩ := h.fetchstr ((argint c 0).signExtend 64)
  obtain ⟨v, hv, hargs⟩ := h.fetchArgv hsz (argaddr c 1) MAXARG (i := 0)
  simp only [sysExec, Vm.argstr, bind, Except.bind, ho, hv]
  cases o with
  | none => exact ⟨none, rfl, fun path argv hnone => by cases hnone⟩
  | some bs =>
    refine ⟨v.map fun argv => (bs, argv), rfl, fun path argv hsome => ?_⟩
    obtain ⟨argv', rfl, heq⟩ := Option.map_eq_some_iff.mp hsome
    cases heq
    obtain ⟨hlen, hnul⟩ := hargs argv rfl
    exact ⟨(hpath bs rfl).2, hlen, hnul⟩

/-- A process whose pages are there is such a caller. -/
theorem Resident.mapped_caller {w : World} {i : Slot} (h : Resident w i) :
    (w.caller i).Mapped ∧ (w.caller i).sz.toNat = w.sz i := by
  obtain ⟨htop, hround, hsmall⟩ := h.small
  have hsz : (w.caller i).sz.toNat = w.sz i := Nat.mod_eq_of_lt (by omega)
  refine ⟨fun va hlo hhi => ?_, hsz⟩
  have huser : PGSIZE + PHYSTOP < userTop := by decide
  rw [hsz] at hhi
  show (w.phys.read (w.pgdir i) va).isSome = true
  rw [read_of_present (by omega) ((h.mapped va (by omega)).mpr ⟨hlo, by omega⟩)]
  rfl

/-- The pointer that the call uses is that of the register, and all of the buffer is in the
process. -/
def BufferCall.Safe (c : Caller) (call : BufferCall) (junk : BitVec 64) : Prop :=
  call.pointer c junk = fetcharg c call.argument ∧
    InUser c.sz.toNat (call.pointer c junk).toNat (call.size c).toNat ∧
    ∀ k < (call.size c).toNat, (c.mem ((call.pointer c junk).toNat + k)).isSome = true

/-- **What the kernel follows is in the process.** `fetchint` and `fetchaddr` are sound for every
address. `argptr` is sound if it refuses, or if the register and the size describe a range of the
process; `argstr` if the register goes through an `int` unchanged, or if there is no string where the
`int` points. A call that passes a buffer does what it should, whatever is in its local variable, if
the range is one of the process and its start passes the test for 32 bits. -/
theorem args_in_user (c : Caller) (hmapped : c.Mapped) (hsz : c.sz.toNat + 8 ≤ 2 ^ 64) :
    (∀ addr, ∃ o, fetchint c addr = .ok o ∧ (o.isSome = true → InUser c.sz.toNat addr.toNat 4)) ∧
    (∀ addr, ∃ o, fetchaddr c addr = .ok o ∧ (o.isSome = true → InUser c.sz.toNat addr.toNat 8)) ∧
    (∀ n size, (∀ p, argptr c n size = some p →
        p = fetcharg c n ∧ InUser c.sz.toNat p.toNat size.toNat) ↔
      size.toInt < 0 ∨ c.sz.toNat ≤ (fetcharg c n).toNat % 2 ^ 32 ∨
      c.sz.toNat < ((fetcharg c n).toNat + size.toNat) % 2 ^ 32 ∨
      PGSIZE ≤ (fetcharg c n).toNat ∧ (fetcharg c n).toNat + size.toNat ≤ c.sz.toNat) ∧
    (∀ n, (∃ o, argstr c n = .ok o ∧ ∀ p bs, o = some (p, bs) →
        p = fetcharg c n ∧ InUser c.sz.toNat p.toNat (bs.length + 1)) ↔
      (fetcharg c n).toNat < 2 ^ 31 ∨ 2 ^ 64 - 2 ^ 31 ≤ (fetcharg c n).toNat ∨
        fetchstr c ((argint c n).signExtend 64) = .ok none) ∧
    ∀ call : BufferCall, (∀ junk, call.Safe c junk) ↔
      ¬ (call.size c).toInt < 0 ∧ PGSIZE ≤ (fetcharg c call.argument).toNat ∧
      (fetcharg c call.argument).toNat % 2 ^ 32 < c.sz.toNat ∧
      (fetcharg c call.argument).toNat + (call.size c).toNat ≤ c.sz.toNat := by
  refine ⟨hmapped.fetch (by omega), hmapped.fetch hsz, fun n size => ?_, fun n => hmapped.argstr_iff,
    fun call => ⟨fun hsafe => ?_, ?_⟩⟩
  · simp only [argptr_eq_some_iff, InUser]
    constructor
    · intro h
      by_contra hnot
      simp only [not_or, not_le, not_lt] at hnot
      exact hnot.2.2.2 (h _ ⟨rfl, by omega, hnot.2.1, hnot.2.2.1⟩).2
    · rintro hcases p ⟨rfl, hpos, hlow, hhigh⟩
      exact ⟨rfl, by omega⟩
  · -- where `argptr` refuses, the pointer is whatever the variable held
    obtain ⟨-, huser, -⟩ := hsafe (fetcharg c call.argument)
    cases hp : argptr c call.argument (call.size c) with
    | none =>
      have hreg := (hsafe (fetcharg c call.argument + 1)).1
      rw [BufferCall.pointer, hp, Option.getD_none] at hreg
      simp at hreg
    | some p =>
      obtain ⟨rfl, hpos, hlow, -⟩ := argptr_eq_some_iff.mp hp
      rw [BufferCall.pointer, hp, Option.getD_some] at huser
      exact ⟨hpos, huser.1, hlow, huser.2⟩
  · rintro ⟨hpos, hge, hlow, hle⟩ junk
    have hp : call.pointer c junk = fetcharg c call.argument := by
      rw [BufferCall.pointer, argptr_eq_some_iff.mpr ⟨rfl, hpos, hlow, ?_⟩, Option.getD_some]
      exact (Nat.mod_le _ _).trans hle
    rw [BufferCall.Safe, hp]
    exact ⟨rfl, ⟨hge, hle⟩, fun k hk => hmapped _ (by omega) (by omega)⟩

/-- The process after boot, with any value in the register of the first argument. -/
theorem exists_caller (r : BitVec 64) : ∃ w, Resident w 0 ∧
    (World.caller w 0).sz = ofNat 64 (2 * PGSIZE) ∧ fetcharg (World.caller w 0) 0 = r := by
  obtain ⟨w, hw, -⟩ := exists_booted
  obtain ⟨hres, hsize⟩ := hw.resident (Nat.succ_pos _) (by decide)
  refine ⟨w.setTf 0 { w.tf 0 with rdi := r }, ⟨hres.tree, hres.mapped, hres.user⟩, ?_, ?_⟩
  · show ofNat 64 (w.sz 0) = _
    rw [hsize]
  · show (Function.update w.tf 0 { w.tf 0 with rdi := r } 0).rdi = r
    rw [Function.update_self]

/-- A process of two pages that calls `exec` with the path `/x` and that string as its argument. -/
def execCaller : Caller where
  tf := { noFrame with rdi := 4096, rsi := 4104 }
  sz := 8192
  mem va := if 8192 ≤ va then none else
    some (List.getD [47, 120, 0, 0, 0, 0, 0, 0, 0, 16] (va - 4096) 0)

theorem sysExec_accepted_execCaller :
    sysExec execCaller = .ok (some ([47, 120], [[47, 120]])) ∧ Accepted [[47, 120]] := by
  have hcall : sysExec execCaller = .ok (some ([47, 120], [[47, 120]])) := by decide +kernel
  have hmapped : execCaller.Mapped := fun va _ hhi => by
    simp [execCaller, Nat.not_le.mpr (show va < 8192 from hhi)]
  obtain ⟨o, ho, haccepted⟩ := sysExec_accepted hmapped (by decide)
  rw [hcall] at ho
  cases ho
  exact ⟨hcall, (haccepted _ _ rfl).2⟩

/-- The process after boot calls `pipe` with a buffer in its page. -/
theorem args_in_user_boot : ∃ w, Resident w 0 ∧
    fetcharg (World.caller w 0) 0 = ofNat 64 PGSIZE ∧
    ∀ junk, BufferCall.pipe.Safe (World.caller w 0) junk := by
  obtain ⟨w, hres, hsz, hreg⟩ := exists_caller (ofNat 64 PGSIZE)
  refine ⟨w, hres, hreg, ((args_in_user (w.caller 0) hres.mapped_caller.1
    (by rw [hsz]; decide)).2.2.2.2 .pipe).mpr ?_⟩
  rw [show fetcharg (w.caller 0) BufferCall.pipe.argument = _ from hreg, hsz]
  exact ⟨show ¬ (8#32).toInt < 0 by decide, by decide, by decide,
    show _ + (8#32).toNat ≤ _ by decide⟩

/-- **`pipe(KERNBASE)` is accepted**: the lower half of the pointer is 0. The kernel stores the file
descriptors at the start of physical memory. -/
theorem argptr_accepts_kernel : ∃ w, Resident w 0 ∧
    (World.caller w 0).sz = ofNat 64 (2 * PGSIZE) ∧
    argptr (World.caller w 0) 0 8 = some (ofNat 64 KERNBASE) ∧
    (∀ junk, BufferCall.pipe.pointer (World.caller w 0) junk = ofNat 64 KERNBASE) ∧
    ¬ InUser (World.caller w 0).sz.toNat (ofNat 64 KERNBASE).toNat 8 := by
  obtain ⟨w, hres, hsz, hreg⟩ := exists_caller (ofNat 64 KERNBASE)
  have haccepted : argptr (w.caller 0) 0 8 = some (ofNat 64 KERNBASE) :=
    argptr_eq_some_iff.mpr (by rw [hreg, hsz]; decide)
  refine ⟨w, hres, hsz, haccepted, fun junk => ?_, ?_⟩
  · show (argptr (w.caller 0) 0 8).getD junk = _
    rw [haccepted]
    rfl
  · rw [hsz]
    decide

end Xv6.Vm
