import Xv6.Sched.Machine

/-!
# The pointers of the scheduler's system calls

`sys_getschedstats` and `sys_setschedparam` check a pointer against the size of the process before
they use it. The checks add the size of the buffer to the pointer in 64 bits. The first call also
compares the pointer itself with the size, so its sum cannot wrap around; the second does not.
-/

namespace Xv6.Sched

variable {k : Kernel} {i : Slot} {a n : Nat}

/-- `KERNBASE`, where the addresses of the kernel begin. -/
def KERNBASE : Nat := 0xFFFF800000000000

/-- The bytes from `a` to `a + n` are all in the user part `[PGSIZE, sz)` of an address space. -/
def InUser (sz a n : Nat) : Prop := PGSIZE ≤ a ∧ a + n ≤ sz

instance (sz a n : Nat) : Decidable (InUser sz a n) :=
  inferInstanceAs (Decidable (_ ∧ _))

/-- A sum that does not wrap around is what the check takes it for. -/
theorem addr64_of_lt (h : a < 2 ^ 64) : addr64 a = a := Nat.mod_eq_of_lt h

/-- The check is wrong about the updates whose end wraps around to an address the process may have;
only the agent gets that far. -/
theorem setschedparamReads_inUser_iff (ha : a < 2 ^ 64) (hsz : (k.proc i).sz < KERNBASE) :
    (setschedparamReads k i a → InUser (k.proc i).sz a sizeofSchedUpdate) ↔
      ¬ (k.schedp.agentPid ≠ 0 ∧ (k.proc i).pid = k.schedp.agentPid) ∨
      a + sizeofSchedUpdate < 2 ^ 64 ∨ (k.proc i).sz < a + sizeofSchedUpdate - 2 ^ 64 := by
  rw [setschedparamReads_iff]
  simp only [sizeofSchedUpdate, KERNBASE, PGSIZE, InUser] at *
  by_cases hagent : k.schedp.agentPid ≠ 0 ∧ (k.proc i).pid = k.schedp.agentPid
  · by_cases hsum : a + 32 < 2 ^ 64
    · rw [addr64_of_lt hsum]
      exact iff_of_true (fun h => h.2) (.inr (.inl hsum))
    · have hwrap : addr64 (a + 32) = a + 32 - 2 ^ 64 := by
        rw [addr64]
        omega
      rw [hwrap]
      constructor
      · intro h
        right; right
        by_contra hle
        have := (h ⟨hagent, by omega, by omega⟩).2
        omega
      · rintro (h | h | h) ⟨-, hlow, hhigh⟩ <;> omega
  · simp [hagent]

/-- The pointer is below the size, and the buffer is small: the sum is far from wrapping. -/
theorem sysGetschedstats_inUser {maxproc : Int} {stats : List Schedstat}
    (h : sysGetschedstats k i a maxproc = some stats) (hsz : (k.proc i).sz < KERNBASE) :
    InUser (k.proc i).sz a (maxproc.toNat * sizeofSchedstat) := by
  unfold sysGetschedstats at h
  split at h
  · cases h
  · next hmax =>
    split at h
    · cases h
    · next haddr =>
      have hN : (NPROC : Int) = 64 := rfl
      have hlen : maxproc.toNat ≤ 64 := by omega
      have hsum : a + maxproc.toNat * sizeofSchedstat < 2 ^ 64 := by
        simp only [sizeofSchedstat, KERNBASE] at *
        omega
      rw [addr64_of_lt hsum] at haddr
      exact ⟨by omega, by omega⟩

/-- **The checks keep the kernel inside the process.** For `sys_getschedstats` this is so of every
pointer. For `sys_setschedparam` it is so unless the agent passes an update whose end wraps around
to an address within its size. -/
theorem scheduler_syscalls_in_user (k : Kernel) (i : Slot) (hsz : (k.proc i).sz < KERNBASE) :
    (∀ bufAddr < 2 ^ 64, ∀ (maxproc : Int) (stats : List Schedstat),
      sysGetschedstats k i bufAddr maxproc = some stats →
        InUser (k.proc i).sz bufAddr (maxproc.toNat * sizeofSchedstat)) ∧
    ∀ updAddr < 2 ^ 64,
      (setschedparamReads k i updAddr → InUser (k.proc i).sz updAddr sizeofSchedUpdate) ↔
        ¬ (k.schedp.agentPid ≠ 0 ∧ (k.proc i).pid = k.schedp.agentPid) ∨
        updAddr + sizeofSchedUpdate < 2 ^ 64 ∨
        (k.proc i).sz < updAddr + sizeofSchedUpdate - 2 ^ 64 :=
  ⟨fun _ _ _ _ h => sysGetschedstats_inUser h hsz,
    fun _ ha => setschedparamReads_inUser_iff ha hsz⟩

/-- The kernel after boot, with init registered as the agent. -/
def agentKernel : Kernel := takeAgentSlot 0 Machine.bootKernel

theorem agentKernel_update_in_user : (agentKernel.proc 0).sz < KERNBASE ∧
    setschedparamReads agentKernel 0 4096 ∧ InUser (agentKernel.proc 0).sz 4096 sizeofSchedUpdate :=
  ⟨by decide, by decide, ((scheduler_syscalls_in_user agentKernel 0 (by decide)).2 4096
    (by decide)).mpr (.inr (.inl (by decide))) (by decide)⟩

/-- The last 32 bytes of the address space are accepted: their end is address 0. -/
theorem top_of_memory_accepted : (agentKernel.proc 0).sz < KERNBASE ∧
    setschedparamReads agentKernel 0 (2 ^ 64 - 32) ∧
      ¬ InUser (agentKernel.proc 0).sz (2 ^ 64 - 32) sizeofSchedUpdate := by
  decide

end Xv6.Sched
