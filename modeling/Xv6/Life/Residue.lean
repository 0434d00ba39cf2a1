import Xv6.Life.World

/-!
# What a free slot holds

In a slot that is UNUSED, or that `fork` has not filled yet, some fields are left over from the last
process there and some are not: there is no open file, no mark of death, no sleep channel, no parent.
That is an invariant of the whole machine (`Reachable.sound`), since it takes `exit`, `wait` and
`sleep` together to bring it about.
-/

namespace Xv6.Life

open Sched Signal Kernel Proc

/-- The thread is asleep, or about to be. -/
def Stage.Asleep : Stage → Prop
  | .set (.sleep _) | .set .wait | .back (.sleep _) | .back .wait => True
  | _ => False

theorem Fits.zombie_call {l : Option Loc} {st : Stage} {s : Procstate} {sv : Bool}
    (h : Fits l st s sv) (hs : s = .zombie) : st.call = some .exit := by
  subst hs
  cases l with
  | none => rw [show st = .back .exit from h]; rfl
  | some l =>
    cases l <;> cases st <;> simp_all [Fits, Stage.call]
    all_goals
      rename_i call
      cases call <;> simp_all [Call.Leaves]

/-- A slot that is free, being filled or left has no thread that sleeps. -/
theorem Fits.not_asleep {l : Option Loc} {st : Stage} {s : Procstate} {sv : Bool}
    (h : Fits l st s sv) (hs : s = .unused ∨ s = .embryo ∨ s = .zombie) : ¬ st.Asleep := by
  intro ha
  rcases hs with rfl | rfl | rfl
  · cases l with
    | none => rw [show st = .dead from h] at ha; exact ha
    | some l => exact h.made.1 rfl
  · cases l with
    | none => rcases h with rfl | ⟨rfl, -⟩ <;> exact ha
    | some l => exact h.made.2 rfl
  · have hcall := h.zombie_call rfl
    revert hcall ha
    cases st with
    | held call | set call | back call => cases call <;> simp [Stage.Asleep, Stage.call]
    | _ => simp [Stage.Asleep]

/-- What a slot can hold, given where its thread is: a slot that is free, or not filled yet, has no
open files and no mark of death; a sleep channel belongs to a sleeper; who has got to the last part
of `exit` has closed its files. -/
structure Clean (p : Proc) (st : Stage) (ofile : Fin NOFILE → Option Nat) : Prop where
  bare : p.state = .unused ∨ p.state = .embryo ∧ p.parent = none →
    p.killed = false ∧ ∀ fd, ofile fd = none
  chan : p.chan ≠ .null → st.Asleep
  gone : st.call = some .exit → ∀ fd, ofile fd = none

namespace Clean

variable {p p' : Proc} {st st' : Stage} {ofile ofile' : Fin NOFILE → Option Nat}

/-- A wakeup, and changes to fields that do not matter here. -/
theorem frame (h : Clean p st ofile) (hk : p'.killed = p.killed) (hc : p'.chan = p.chan)
    (hs : Stir p.state p'.state) (hp : p'.parent = none → p.parent = none) :
    Clean p' st ofile := by
  refine ⟨fun hb => ?_, fun hn => h.chan (hc ▸ hn), h.gone⟩
  rw [hk]
  refine h.bare ?_
  rcases hb with hb | ⟨hb, hnone⟩
  · exact .inl (hs.of_ne hb (by simp))
  · exact .inr ⟨hs.of_ne hb (by simp), hp hnone⟩

theorem live (hs : p.state ≠ .unused ∧ p.state ≠ .embryo) (hc : p.chan ≠ .null → st.Asleep)
    (hx : st.call = some .exit → ∀ fd, ofile fd = none) : Clean p st ofile :=
  ⟨fun hb => by rcases hb with hb | ⟨hb, -⟩ <;> simp_all, hc, hx⟩

theorem running (hs : p.state = .running) (hc : p.chan = .null) (hx : st.call ≠ some .exit) :
    Clean p st ofile :=
  live (by simp [hs]) (fun hn => absurd hc hn) fun hx' => absurd hx' hx

theorem chan_null (h : Clean p st ofile) (hst : ¬ st.Asleep) : p.chan = .null := by
  by_contra hne
  exact hst (h.chan hne)

end Clean

/-- A child without a parent does not get one when somebody else leaves the CPU. -/
theorem Call.body_parent_none {i j : Slot} (call : Call) (k : Kernel) (h : j ≠ i) :
    ((call.body i k).proc j).parent = none → (k.proc j).parent = none := by
  cases call with
  | yield | sleep | wait => simp [Call.body, setProc_ne, h]
  | fork => exact id
  | exit =>
    rw [Call.body, zombify_parent, releaseAgentSlot_proc]
    split
    · simp
    · exact id

/-- The two kernels agree on the family, on who is dead and on who sleeps where. -/
structure Alike (k k' : Kernel) : Prop where
  state : ∀ j, (k'.proc j).state = (k.proc j).state
  pid : ∀ j, (k'.proc j).pid = (k.proc j).pid
  parent : ∀ j, (k'.proc j).parent = (k.proc j).parent
  killed : ∀ j, (k'.proc j).killed = (k.proc j).killed
  chan : ∀ j, (k'.proc j).chan = (k.proc j).chan
  nextpid : k'.nextpid = k.nextpid
  initproc : k'.initproc = k.initproc

theorem Alike.refl (k : Kernel) : Alike k k :=
  ⟨fun _ => rfl, fun _ => rfl, fun _ => rfl, fun _ => rfl, fun _ => rfl, rfl, rfl⟩

/-- Storing a process that looks the same changes nothing of what is seen of any. -/
theorem setProc_frame {β : Type} {k : Kernel} {i : Slot} {p : Proc} (obs : Proc → β)
    (h : obs p = obs (k.proc i)) (j : Slot) : obs ((k.setProc i p).proc j) = obs (k.proc j) := by
  rw [setProc_proc]
  split
  · next hj => rw [hj, h]
  · rfl

theorem Alike.setProc {k : Kernel} {i : Slot} {p : Proc} (hs : p.state = (k.proc i).state)
    (hpid : p.pid = (k.proc i).pid) (hp : p.parent = (k.proc i).parent)
    (hk : p.killed = (k.proc i).killed) (hc : p.chan = (k.proc i).chan) :
    Alike k (k.setProc i p) :=
  ⟨setProc_frame _ hs, setProc_frame _ hpid, setProc_frame _ hp, setProc_frame _ hk,
    setProc_frame _ hc, rfl, rfl⟩

theorem Alike.schedp (k : Kernel) (s : SchedParams) : Alike k { k with schedp := s } :=
  ⟨fun _ => rfl, fun _ => rfl, fun _ => rfl, fun _ => rfl, fun _ => rfl, rfl, rfl⟩

theorem Alike.pin {k k' : Kernel} (h : Alike k k') (i : Slot) : Alike k (kernPinAgent i k') := by
  have hpin : Alike k' (kernPinAgent i k') := .setProc rfl rfl rfl rfl rfl
  exact ⟨fun j => (hpin.state j).trans (h.state j), fun j => (hpin.pid j).trans (h.pid j),
    fun j => (hpin.parent j).trans (h.parent j), fun j => (hpin.killed j).trans (h.killed j),
    fun j => (hpin.chan j).trans (h.chan j), h.nextpid, h.initproc⟩

/-- A system call that does not block leaves such things alone. -/
theorem Service.body_alike (i : Slot) (k : Kernel) (r : Rest) (b : Backup) (s : Service) :
    Alike k (s.body i k r b).1 := by
  cases s with
  | alarm last => cases last <;> exact .setProc rfl rfl rfl rfl rfl
  | sbrk => exact .setProc rfl rfl rfl rfl rfl
  | exec argc argv sz image =>
    cases image with
    | none => exact .refl k
    | some im => exact .setProc rfl rfl rfl rfl rfl
  | registerAgent =>
    simp only [Service.body]
    split
    · exact .refl k
    · exact (Alike.schedp k _).pin i
  | setschedparam =>
    simp only [Service.body, sysSetschedparam]
    split
    · exact .schedp k _
    · exact .refl k
  | signal | getschedstats | close | dup =>
    simp only [Service.body]
    split <;> exact .refl k
  | _ => exact .refl k

namespace World

variable {ncpu : Nat} {w w' : World ncpu}

/-- The invariants of the machine. -/
structure Sound (w : World ncpu) : Prop where
  occ : w.toSys.Occ
  calls : w.toSys.Calls
  tree : w.toSys.family.Tree
  clean : ∀ j, Clean (w.proc j) (w.stage j) (w.rest j).ofile

/-- A process that is not in `fork` with it has no part in a child: the child has no parent yet. -/
theorem Sound.child_orphan {i np : Slot} (h : w.Sound) (hp : (w.point i).child = some np)
    (hm : (w.point i).making = none) : (w.proc np).parent = none := by
  by_contra hne
  obtain ⟨k, hk⟩ := Option.ne_none_iff_exists'.mp hne
  have hemb := h.occ.child_embryo i np hp
  have hmk : (w.point k).making = some np :=
    h.tree.parent_embryo np k hk (by simp [Sys.familyOf, hemb, Procstate.phase])
  have hchild : (w.point k).child = some np := by
    revert hmk
    cases w.point k <;> simp [Point.making, Point.child]
  obtain rfl := h.occ.child_inj i k np hp hchild
  rw [hm] at hmk; cases hmk

theorem Sound.not_asleep {i : Slot} (h : w.Sound)
    (hi : (w.proc i).state = .unused ∨ (w.proc i).state = .embryo ∨ (w.proc i).state = .zombie) :
    ¬ (w.stage i).Asleep := by
  by_cases hc : ∃ c, (w.loc c).mine = some i
  · obtain ⟨c, hc⟩ := hc
    exact Fits.not_asleep (h.occ.row_mine c i hc) hi
  · exact Fits.not_asleep (h.occ.row_off i fun c hm => hc ⟨c, hm⟩) hi

/-- A ZOMBIE is past the point where `exit` closes its files. -/
theorem Sound.zombie_call {i : Slot} (h : w.Sound) (hi : (w.proc i).state = .zombie) :
    (w.stage i).call = some .exit := by
  by_cases hc : ∃ c, (w.loc c).mine = some i
  · obtain ⟨c, hc⟩ := hc
    exact Fits.zombie_call (h.occ.row_mine c i hc) hi
  · exact Fits.zombie_call (h.occ.row_off i fun c hm => hc ⟨c, hm⟩) hi

theorem ret_ofile (i : Slot) (v : Int) (j : Slot) : (w.ret i v j).ofile = (w.rest j).ofile := by
  simp only [ret, setRest, Function.update_apply]
  split
  · next hj => rw [hj]
  · rfl

theorem Sound.clean_release {c : Fin ncpu} {i : Slot} {call : Call} (h : w.Sound)
    (ha : w.toSys.At c i (.held call)) (v : Int) (j : Slot) :
    Clean ((w.toSys.release i).proc j) ((w.toSys.release i).stage j) (w.ret i v j).ofile := by
  have hrun : (w.proc i).state = .running := h.occ.row_at ha
  rw [ret_ofile]
  by_cases hji : j = i
  · subst hji
    have hnull := (h.clean j).chan_null (by rw [ha.2.2]; exact id)
    exact .live (by simp [hrun]) (fun hn => absurd hnull hn) (by simp [Stage.call])
  · simpa [hji] using h.clean j

theorem Sound.clean_sys {e : Event ncpu} (h : w.Sound) (he : w.toSys.Enabled e) (j : Slot) :
    Clean ((w.toSys.effect e).proc j) ((w.toSys.effect e).stage j) (w.restAfter e j).ofile := by
  have hj := h.clean j
  cases e with
  | passSelect c =>
    refine hj.frame ?_ ?_ (.inl (choose_state _ j)) ?_
    · exact choose_proc_frame killed fun _ _ _ _ _ _ _ _ => rfl
    · exact choose_proc_frame chan fun _ _ _ _ _ _ _ _ => rfl
    · exact fun hn => (choose_proc_frame parent fun _ _ _ _ _ _ _ _ => rfl).symm.trans hn
  | passRun c b =>
    simp only [Sys.effect, Sys.goto, Sys.setProc, Sys.onKernel, setProc_proc]
    split
    · next hb => subst hb; exact .live (by simp) hj.chan hj.gone
    · exact hj
  | acquire c i call =>
    have hrun : (w.proc i).state = .running := h.occ.row_at he.1
    by_cases hji : j = i
    · subst hji
      have hnull := hj.chan_null (by rw [he.1.2.2]; exact id)
      refine .live (by simp [Sys.effect, hrun]) (fun hn => absurd hnull hn) fun hx => ?_
      obtain rfl : call = .exit := by simpa [Sys.effect, Stage.call] using hx
      simp [restAfter, setRest]
    · have hst : ((w.toSys.effect (.acquire c i call)).stage j) = w.stage j := by
        simp [Sys.effect, hji]
      have hrest : w.restAfter (.acquire c i call) j = w.rest j := by
        cases call <;> simp [restAfter, setRest, hji]
      rw [hst, hrest]
      exact hj
  | store c i call =>
    have hrun : (w.proc i).state = .running := h.occ.row_at he.1
    by_cases hji : j = i
    · subst hji
      have hnull := hj.chan_null (by rw [he.1.2.2]; exact id)
      have hst : (w.toSys.effect (.store c j call)).stage j = .set call := by simp [Sys.effect]
      rw [hst]
      cases call with
      | yield =>
        refine .live (by simp [Sys.effect, Call.body, yielded]) (fun hn => absurd ?_ hn)
          (by simp [Stage.call])
        simpa [Sys.effect, Call.body, yielded] using hnull
      | sleep | wait =>
        exact .live (by simp [Sys.effect, Call.body]) (fun _ => trivial) (by simp [Stage.call])
      | fork => exact absurd he.2 id
      | exit =>
        obtain ⟨p, hp, hz⟩ := Machine.zombify_proc j (releaseAgentSlot j w.toKernel) j
        rw [releaseAgentSlot_proc] at hp
        have hproc : (w.toSys.effect (.store c j .exit)).proc j = { p with state := .zombie } :=
          hz.trans (if_pos rfl)
        have hchan : p.chan = .null := (hp.frame chan fun _ _ _ _ _ _ => rfl).trans hnull
        rw [hproc]
        exact .live (by simp) (fun hn => absurd hchan hn) fun _ => hj.gone (by rw [he.1.2.2]; rfl)
    · have hst : (w.toSys.effect (.store c i call)).stage j = w.stage j := by
        simp [Sys.effect, hji]
      rw [hst]
      have hstir := call.body_stirred w.toKernel hji
      refine hj.frame ?_ ?_ hstir.state ?_
      · exact hstir.frame killed fun _ _ _ _ _ _ => rfl
      · exact hstir.frame chan fun _ _ _ _ _ _ => rfl
      · exact call.body_parent_none w.toKernel hji
  | swtchOut c i call =>
    by_cases hji : j = i
    · subst hji
      rw [he.2.2] at hj
      have hst : (w.toSys.effect (.swtchOut c j call)).stage j = .back call := by
        simp [Sys.effect]
      rw [hst]
      exact ⟨hj.bare, fun hn => by have := hj.chan hn; cases call <;> exact this, hj.gone⟩
    · simpa [Sys.effect, restAfter, hji] using hj
  | resume c i =>
    have hrun := (h.occ.resume_running he).1
    by_cases hji : j = i
    · subst hji
      simp only [Sys.effect]
      split
      · exact .running (by simp [hrun]) (by simp) (by simp [Stage.call])
      · exact .running (by simp [hrun]) (by simp) (by simp [Stage.call])
      · next hs hw =>
          refine .running hrun (hj.chan_null fun ha => ?_) (by simp [Stage.call])
          have hres := he.2.2
          revert hs hw ha hres
          cases w.stage j with
          | back call => cases call <;> simp [Stage.Asleep]
          | _ => simp [Stage.Asleep, Stage.Resumes]
    · simp only [Sys.effect]
      split <;> simpa [restAfter, hji, setProc_ne] using hj
  | waitReap c i k =>
    obtain ⟨ha, hz⟩ := he
    have hrun : (w.proc i).state = .running := h.occ.row_at ha
    have hzombie := Machine.zombieChild_zombie hz
    have hki : k ≠ i := by
      rintro rfl
      rw [hrun] at hzombie; cases hzombie
    by_cases hjk : j = k
    · subst hjk
      have hnull := hj.chan_null (h.not_asleep (.inr (.inr hzombie)))
      have hfiles := hj.gone (h.zombie_call hzombie)
      refine ⟨fun _ => ⟨by simp [Sys.effect], ?_⟩, fun hn => absurd ?_ hn, ?_⟩
      · simpa [restAfter, ret_ofile] using hfiles
      · simpa [Sys.effect] using hnull
      · simp [Sys.effect, hki, Stage.call]
    · by_cases hji : j = i
      · subst hji
        refine .running (by simp [Sys.effect, hjk, setProc_ne, hrun]) ?_
          (by simp [Sys.effect, Stage.call])
        simpa [Sys.effect, hjk, setProc_ne] using hj.chan_null (by rw [ha.2.2]; exact id)
      · simpa [Sys.effect, restAfter, ret, setRest, hjk, hji, setProc_ne] using hj
  | waitFail c i => exact h.clean_release he.1 _ j
  | forkAlloc c i =>
    simp only [Sys.effect, restAfter]
    cases hfree : freeSlot w.proc with
    | none => exact h.clean_release he (-1) j
    | some np =>
      have hunused := freeSlot_unused hfree
      have hrun : (w.proc i).state = .running := h.occ.row_at he
      have hnpi : np ≠ i := by
        rintro rfl
        rw [hrun] at hunused; cases hunused
      by_cases hjnp : j = np
      · subst hjnp
        obtain ⟨hkilled, hfiles⟩ := hj.bare (.inl hunused)
        have hnull := hj.chan_null (h.not_asleep (.inl hunused))
        refine ⟨fun _ => ⟨by simpa [allocproc] using hkilled, ?_⟩, fun hn => absurd ?_ hn, ?_⟩
        · simpa [setRest] using hfiles
        · simpa [allocproc] using hnull
        · intro hx
          simpa [setRest] using hfiles
      · have hproc : ((w.toSys.onKernel (allocproc np)).proc j) = w.proc j := by
          simp [allocproc, setProc_ne, hjnp]
        have := h.clean_release he (-1) j
        rw [ret_ofile] at this
        simpa [setRest, hjnp, allocproc, setProc_ne] using this
  | forkContext c i np =>
    have hemb := h.occ.child_embryo i np (by rw [he.2]; rfl)
    by_cases hjnp : j = np
    · subst hjnp
      have hnull := hj.chan_null (h.not_asleep (.inr (.inl hemb)))
      exact ⟨hj.bare, fun hn => absurd hnull hn, by simp [Sys.effect, Stage.call]⟩
    · simpa [Sys.effect, restAfter, hjnp] using hj
  | forkFail c i np =>
    have hp : (w.point i).child = some np ∧ (w.point i).making = none := by
      rcases he.2 with hp | hp <;> rw [hp] <;> exact ⟨rfl, rfl⟩
    have hemb := h.occ.child_embryo i np hp.1
    by_cases hjnp : j = np
    · subst hjnp
      have hbare := hj.bare (.inr ⟨hemb, h.child_orphan hp.1 hp.2⟩)
      have hnull := hj.chan_null (h.not_asleep (.inr (.inl hemb)))
      refine ⟨fun _ => ?_, fun hn => absurd ?_ hn, by simp [Sys.effect, Stage.call]⟩
      · simpa [Sys.effect, restAfter, ret_ofile] using hbare
      · simpa [Sys.effect] using hnull
    · simpa [Sys.effect, restAfter, ret_ofile, hjnp, setProc_ne] using hj
  | forkCopy c i np =>
    have hemb := h.occ.child_embryo i np (by rw [he.2]; rfl)
    by_cases hjnp : j = np
    · subst hjnp
      have hnull := hj.chan_null (h.not_asleep (.inr (.inl hemb)))
      have hst := h.occ.child_forkret i j (.inl he.2)
      refine ⟨fun hb => ?_, fun hn => absurd ?_ hn, ?_⟩
      · simp [Sys.effect, hemb] at hb
      · simpa [Sys.effect] using hnull
      · simp [Sys.effect, hst, Stage.call]
    · simpa [Sys.effect, restAfter, setRest, hjnp, setProc_ne] using hj
  | forkDone c i np =>
    have hemb := h.occ.child_embryo i np (by rw [he.2]; rfl)
    by_cases hjnp : j = np
    · subst hjnp
      refine .live (by simp [Sys.effect]) ?_ ?_
      · simpa [Sys.effect] using hj.chan
      · simpa [Sys.effect, restAfter, ret_ofile] using hj.gone
    · simpa [Sys.effect, restAfter, ret_ofile, hjnp, setProc_ne] using hj
  | fault c i =>
    have hrun : (w.proc i).state = .running := h.occ.row_at he.1
    by_cases hji : j = i
    · subst hji
      refine .live (by simp [Sys.effect, hrun]) ?_ hj.gone
      simpa [Sys.effect] using hj.chan
    · simpa [Sys.effect, restAfter, hji, setProc_ne] using hj
  | perform c s =>
    refine hj.frame ?_ ?_ (s.body_stirred _ j).state ?_
    · exact (s.body_stirred _ j).frame killed fun _ _ _ _ _ _ => rfl
    · exact (s.body_stirred _ j).frame chan fun _ _ _ _ _ _ => rfl
    · exact fun hn => (s.body_parent _ j).symm.trans hn
  | telemetry c i =>
    have hrun : (w.proc i).state = .running := h.occ.row_at he
    by_cases hji : j = i
    · subst hji
      refine .live (by simp [Sys.effect, telemetry_state, hrun]) ?_ hj.gone
      have hchan : ((w.proc j).telemetry w.schedp w.ticks).chan = (w.proc j).chan :=
        telemetry_frame chan fun _ _ _ _ _ _ _ => rfl
      simpa [Sys.effect, hchan] using hj.chan
    · simpa [Sys.effect, restAfter, hji, setProc_ne] using hj
  | _ => exact hj

/-- A step that leaves the threads alone, but for sending one to `exit`, and of the process table
changes fields that do not matter here. -/
theorem Sound.frame {i : Slot} (h : w.Sound) (k : Kernel) (q : Slot → Point) (rest : Slot → Rest)
    (backup : Slot → Backup) (hrun : (w.proc i).state = .running) (hst : w.stage i = .out)
    (hq : q = w.point ∨ q = Function.update w.point i .exiting ∧ w.point i = .user ∧ i ≠ w.initproc)
    (hk : Alike w.toKernel k)
    (hrest : ∀ j, j ≠ i → rest j = w.rest j) :
    Sound { w with toKernel := k, point := q, rest := rest, tfBackup := backup } := by
  have hmaking : ∀ j, (q j).making = (w.point j).making := by
    intro j
    rcases hq with rfl | ⟨rfl, hu, -⟩
    · rfl
    · by_cases hj : j = i
      · subst hj; simp [hu, Point.making]
      · simp [hj]
  have hfam : Sys.familyOf k q = w.toSys.family := by
    simp only [Sys.familyOf, hmaking, hk.nextpid, hk.initproc, hk.state, hk.pid, hk.parent]
  refine ⟨h.occ.frame k hk.state q fun j => ?_, fun j => ?_, ?_, fun j => ?_⟩
  · rcases hq with rfl | ⟨rfl, -⟩
    · exact .inl rfl
    · by_cases hj : j = i
      · subst hj; exact .inr (by simp [Point.child])
      · exact .inl (by simp [hj])
  · have hj := h.calls j
    refine ⟨fun hx => ?_, fun call hcall => ?_⟩
    · show j ≠ k.initproc
      rw [hk.initproc]
      rcases hq with rfl | ⟨rfl, -, hne⟩
      · exact hj.1 hx
      · by_cases hji : j = i
        · exact hji ▸ hne
        · exact hj.1 (by simpa [hji] using hx)
    · rcases hq with rfl | ⟨rfl, -⟩
      · exact hj.2 call hcall
      · by_cases hji : j = i
        · subst hji
          have hcall : (w.stage j).call = some call := hcall
          rw [hst] at hcall; cases hcall
        · simpa [hji] using hj.2 call hcall
  · show (Sys.familyOf k q).Tree
    rw [hfam]
    exact h.tree
  · by_cases hji : j = i
    · subst hji
      have hnull := (h.clean j).chan_null (by rw [hst]; exact id)
      exact .running ((hk.state j).trans hrun) ((hk.chan j).trans hnull) (by simp [hst, Stage.call])
    · show Clean (k.proc j) (w.stage j) (rest j).ofile
      rw [hrest j hji]
      exact (h.clean j).frame (hk.killed j) (hk.chan j) (.inl (hk.state j))
        fun hn => (hk.parent j).symm.trans hn

/-- **Every step keeps the invariants.** -/
theorem Sound.effect {e : WorldEvent ncpu} (h : w.Sound) (he : w.Enabled e) :
    (w.effect e).Sound := by
  have hother : ∀ {i j : Slot} {r : Rest}, j ≠ i → w.setRest i r j = w.rest j := by
    intro i j r hj
    simp [setRest, hj]
  have hruns : ∀ {c i}, w.Runs c i → (w.proc i).state = .running ∧ w.stage i = .out :=
    fun hr => ⟨h.occ.row_at hr.1, hr.1.2.2⟩
  cases e with
  | sys e =>
    obtain ⟨hfam, hguard⟩ := Sys.effect_family h.occ h.calls h.tree he
    refine ⟨h.occ.effect he, h.calls.effect he, ?_, h.clean_sys he⟩
    show (w.toSys.effect e).family.Tree
    rw [hfam]
    cases hop : w.toSys.op e with
    | none => exact h.tree
    | some o => exact h.tree.apply (hguard o hop)
  | user c i | syscall c i | interrupt c i | forkOut c i =>
    obtain ⟨hrun, hst⟩ := hruns he.1
    exact h.frame w.toKernel w.point _ w.tfBackup hrun hst (.inl rfl) (.refl _)
      fun j hj => hother hj
  | call c i s =>
    obtain ⟨hrun, hst⟩ := hruns he.1
    exact h.frame _ w.point _ w.tfBackup hrun hst (.inl rfl) (s.body_alike i w.toKernel _ _)
      fun j hj => hother hj
  | trapOut c i path =>
    obtain ⟨hrun, hst⟩ := hruns he.1
    simp only [World.effect]
    cases hc : (w.task i).checkSignals with
    | none =>
      exact h.frame w.toKernel _ w.rest w.tfBackup hrun hst
        (.inr ⟨rfl, he.1.2, he.2.2.2 (by simp [hc])⟩) (.refl _) fun _ _ => rfl
    | some t =>
      exact h.frame _ w.point _ _ hrun hst (.inl rfl) (.setProc rfl rfl rfl rfl rfl)
        fun j hj => hother hj

theorem boot_sound : (boot ncpu).Sound := by
  have hrec : (Sys.boot ncpu).Recorded [] := Sys.boot_recorded
  refine ⟨hrec.occ, hrec.calls, hrec.tree, fun j => ?_⟩
  have hfiles : ∀ fd, ((boot ncpu).rest j).ofile fd = none := by
    intro fd
    simp only [boot]
    split <;> rfl
  have hproc : ((boot ncpu).proc j).killed = false ∧ ((boot ncpu).proc j).chan = .null := by
    by_cases hj : j = 0 <;>
      simp [boot, Sys.boot, Machine.bootKernel, allocproc, setProc_proc, zero, hj]
  exact ⟨fun _ => ⟨hproc.1, hfiles⟩, fun hn => absurd hproc.2 hn, fun _ => hfiles⟩

theorem Reachable.sound (h : w.Reachable) : w.Sound := by
  obtain ⟨es, hr⟩ := h
  refine Transition.run_invariant (fun s e s' hs he => ?_) hr boot_sound
  obtain ⟨hen, rfl⟩ := step_eq_some.mp he
  exact hs.effect hen

end World

end Xv6.Life
