import Xv6.Fs.Entries

/-!
# A directory is a finite map

`sys_unlink` empties the slot that `dirlookup` has found. With this and what `dirlookup` and
`dirlink` do, a directory whose names are distinct is a finite map from names to inode numbers, over
any sequence of the three. Between them the rest of the kernel runs, and may do anything but write
the directory.
-/

namespace Xv6.Fs

open Bytes Partial List Transition

variable {P : Type} {sb : Superblock} {s s' t : State P} {K K' : Refs} {i dp ip : Fin NINODE}
  {n v : Nat} {name : List Byte}

/-! ## Taking a name out -/

section

variable (sb : Superblock)

/-- The part of `sys_unlink` that clears the entry of `name` in the directory `dp`, which is locked.
It returns the inode; `none` is the jump to `bad`. -/
def removeEntry (dp : Fin NINODE) (name : List Byte) : M P (Option (Fin NINODE)) := do
  if cname name = dot ∨ cname name = dotdot then return none
  else
    match ← dirlookup sb dp name with
    | none => return none
    | some (off, ip) =>
      ilock ip
      let s ← get
      if (s.inode ip).din.nlink < 1 then panic
      else if ← isFull sb ip then
        iput sb ip
        return none
      else
        match ← writei sb dp off (List.replicate 16 0) with
        | some 16 => return some ip
        | _ => panic

/-- The rest of `sys_unlink`. -/
def unlinkRest (dp ip : Fin NINODE) : M P Unit := do
  let s ← get
  if (s.inode ip).din.type = .dir then addNlink sb dp (-1)
  iput sb dp
  addNlink sb ip (-1)
  iput sb ip

theorem panic_bind {α β : Type} (f : α → M P β) : (panic >>= f : M P β) = panic := rfl

/-- `sys_unlink` clears the entry and then drops the link. -/
theorem sysUnlink_eq [DecidableEq P] (p : P) (path : List Byte) : sysUnlink sb p path = (do
    beginOp
    match ← nameiparent sb p path with
    | none =>
      endOp
      return -1
    | some (dp, name) =>
      ilock dp
      match ← removeEntry sb dp name with
      | none =>
        iput sb dp
        endOp
        return -1
      | some ip =>
        unlinkRest sb dp ip
        endOp
        return 0) := by
  unfold sysUnlink removeEntry
  refine bind_congr fun _ => bind_congr fun r => ?_
  rcases r with _ | ⟨dp, name⟩
  · rfl
  refine bind_congr fun _ => ?_
  split
  · rfl
  rw [bind_assoc]
  refine bind_congr fun r => ?_
  rcases r with _ | ⟨off, ip⟩
  · rfl
  simp only [unlinkFound, bind_assoc]
  refine bind_congr fun _ => bind_congr fun s => ?_
  split
  · rfl
  rw [bind_assoc]
  refine bind_congr fun full => ?_
  cases full with
  | true => simp only [if_true, bind_assoc, pure_bind]
  | false =>
    simp only [Bool.false_eq_true, if_false, unlinkEntry, bind_assoc]
    refine bind_congr fun w => ?_
    split
    · simp only [pure_bind, unlinkRest, bind_assoc]
    · simp only [panic_bind]

end

/-- Inode `n` is a directory with names other than `.` and `..`. -/
def State.full (s : State P) (n : Nat) : Bool :=
  (s.dinode n).type = .dir && ((s.slots n).drop 2).any Option.isSome

theorem isFull_eq (h : Sound sb s K) (hi : 0 < K i) (hv : (s.inode i).valid = true)
    (hn : (s.inode i).inum = n)
    (hwhole : (s.dinode n).type = .dir → (s.dinode n).size % 16 = 0) :
    (isFull sb i).run s = some (s.full n, s) := by
  have hdin := h.din_eq hi hv
  rw [hn] at hdin
  rw [isFull, get_bind, hdin, State.full]
  by_cases hdir : (s.dinode n).type = .dir
  · have hread : ∀ off ∈ (offsets (s.dinode n).size).drop 2, off + 16 ≤ (s.dinode n).size :=
      fun off hoff => offsets_le (hwhole hdir) (mem_of_mem_drop hoff)
    rw [if_pos hdir, bind_of_run (isdirempty_eq h hi hv hn hread), pure_iff,
      offsets_whole (hwhole hdir), State.slots]
    refine ⟨?_, rfl⟩
    simp [hdir, all_eq_not_any_not, ← map_drop, any_map, Function.comp_def]
  · rw [if_neg hdir, pure_iff]
    exact ⟨by simp [hdir], rfl⟩

theorem slots_of_same (h : SameDisk s s') : s'.slots = s.slots := by
  funext n
  unfold State.slots dent fbyte
  rw [h.dinode, h.data]

theorem full_congr (h : SameDisk s s') : s'.full = s.full := by
  funext n
  rw [State.full, State.full, slots_of_same h, h.dinode]

theorem Spares.congr (hsame : SameDisk s t) (h : Spares n t s') : Spares n s s' := by
  intro m hm
  obtain ⟨hdinode, hcontents⟩ := h m hm
  have hold : t.contents m = s.contents m := by
    unfold State.contents fbyte
    rw [hsame.dinode, hsame.data]
  rw [hsame.dinode] at hdinode hcontents
  rw [hold] at hcontents
  exact ⟨hdinode, hcontents⟩

namespace Directory

/-- The inode that a name is for is held, and locked. -/
theorem locked {u : Unit} {t₁ : State P} (h : Directory sb K dp n s)
    (hget : (iget v).run s = some (ip, t)) (hlock : (ilock ip).run t = some (u, t₁)) :
    Directory sb (bump K ip) dp n t₁ ∧ SameDisk s t₁ ∧ Keeps K s t₁ ∧
      (t₁.inode ip).valid = true ∧ (t₁.inode ip).inum = v := by
  obtain ⟨htook, hinum⟩ := iget_took h.sound hget
  obtain ⟨h₁, hk₁, hdisk₁, hv₁, hinum₁⟩ := ilock_sound htook.sound hlock
  have hdp : 0 < bump K ip dp := Nat.lt_of_lt_of_le h.held (le_bump K ip dp)
  have hkeeps : Keeps K s t₁ := htook.keeps.trans hk₁.of_bump
  have hdisk : SameDisk s t₁ := htook.disk.trans hdisk₁
  exact ⟨(hdisk.elsewhere h h₁ hdp h.held hkeeps).directory h, hdisk, hkeeps, hv₁,
    hinum₁.trans hinum⟩

/-- `removeEntry` changes nothing, or it has emptied the slot of the name. -/
theorem removeEntry_inv {r : Option (Fin NINODE)} (h : Directory sb K dp n s)
    (hrun : (removeEntry sb dp name).run s = some (r, s')) :
    Directory sb (plus K r) dp n s' ∧
      (r = none ∧ SameDisk s s' ∨
        ∃ ip v, r = some ip ∧ ¬ (cname name = dot ∨ cname name = dotdot) ∧
          s.dir n (cname name) = some v ∧ (s'.inode ip).inum = v ∧
          s'.slots n = Slots.erase (s.slots n) (cname name) ∧ Spares n s s') := by
  unfold removeEntry at hrun
  split at hrun
  · obtain ⟨rfl, rfl⟩ := pure_iff.mp hrun
    exact ⟨h, .inl ⟨rfl, .refl s⟩⟩
  · next hdots =>
    rw [bind_iff] at hrun
    obtain ⟨x, t, hlook, hrun⟩ := hrun
    obtain ⟨rfl, rfl, -⟩ | ⟨j, v, ip, rfl, hplace, hdir, hget⟩ := h.dirlookup_inv hlook
    · obtain ⟨rfl, rfl⟩ := pure_iff.mp hrun
      exact ⟨h, .inl ⟨rfl, .refl _⟩⟩
    · simp only [bind_iff, get_iff] at hrun
      obtain ⟨_, t₁, hlock, _, _, ⟨rfl, rfl⟩, hrun⟩ := hrun
      obtain ⟨hdir₁, hdisk, hkeeps, hv₁, hinum⟩ := h.locked hget hlock
      have h₁ : Sound sb t₁ (bump K ip) := hdir₁.sound
      have hip := bump_pos K ip
      split at hrun
      · cases hrun
      · next hlink =>
        rw [bind_iff] at hrun
        obtain ⟨full, t₂, hfull, hrun⟩ := hrun
        obtain rfl := isFull_same h₁ hip hv₁ hfull
        split at hrun
        · simp only [bind_iff, pure_iff] at hrun
          obtain ⟨_, _, hput, rfl, rfl⟩ := hrun
          have hput := iput_put h₁ hput
          have hsame := hput.disk fun hcond => by omega
          have hend := hdisk.trans hsame
          exact ⟨(hend.elsewhere h hput.sound h.held h.held (hkeeps.trans hput.keeps)).directory h,
            .inl ⟨rfl, hend⟩⟩
        · rw [bind_iff] at hrun
          obtain ⟨w, t₃, hwrite, hrun⟩ := hrun
          split at hrun
          · obtain ⟨rfl, rfl⟩ := pure_iff.mp hrun
            have hslots₁ := congrFun (slots_of_same hdisk) n
            obtain ⟨hdir₃, hk₃, hslots, hspares⟩ := hdir₁.stored hwrite length_replicate
              (by rw [hslots₁]; exact (Slots.lt_of_place hplace).le) (fun e he => by cases he)
            refine ⟨hdir₃, .inr ⟨ip, v, rfl, hdots, hdir, (hk₃.inum ip hip).trans hinum, ?_,
              hspares.congr hdisk⟩⟩
            rw [hslots, hslots₁, Slots.erase, hplace]
            rfl
          · cases hrun

/-- `removeEntry` of a name that is there comes to its end: it refuses a directory that is not
empty, and clears the entry otherwise. -/
theorem removeEntry_room (h : Directory sb K dp n s)
    (hdots : ¬ (cname name = dot ∨ cname name = dotdot))
    (hdir : s.dir n (cname name) = some v) (hroom : Cacheable s v)
    (htype : (s.dinode v).type ≠ .free) (hlink : 1 ≤ (s.dinode v).nlink)
    (hwhole : (s.dinode v).type = .dir → (s.dinode v).size % 16 = 0) :
    ∃ r s', (removeEntry sb dp name).run s = some (r, s') ∧ r.isSome = !s.full v := by
  obtain ⟨x, t, hlook⟩ := h.dirlookup_room name fun w hw => by
    rw [hdir] at hw
    cases hw
    exact hroom
  obtain ⟨-, -, hnone⟩ | ⟨j, w, ip, rfl, hplace, hw, hget⟩ := h.dirlookup_inv hlook
  · rw [hdir] at hnone
    cases hnone
  obtain rfl : w = v := Option.some.inj (hw.symm.trans hdir)
  obtain ⟨htook, hinum⟩ := iget_took h.sound hget
  have hip := bump_pos K ip
  obtain ⟨t₁, hlock⟩ := ilock_total htook.sound hip (by rw [hinum, htook.disk.dinode]; exact htype)
  obtain ⟨hdir₁, hdisk, -, hv₁, hinum₁⟩ := h.locked hget hlock
  have h₁ : Sound sb t₁ (bump K ip) := hdir₁.sound
  have hdin : (t₁.inode ip).din = s.dinode w := by
    rw [h₁.din_eq hip hv₁, hinum₁, hdisk.dinode]
  have hfull : (isFull sb ip).run t₁ = some (s.full w, t₁) := by
    rw [← full_congr hdisk]
    exact isFull_eq h₁ hip hv₁ hinum₁ (by rw [hdisk.dinode]; exact hwhole)
  rw [removeEntry, if_neg hdots, bind_of_run hlook]
  dsimp only
  rw [bind_of_run hlock, get_bind, hdin,
    if_neg (by omega), bind_of_run hfull]
  cases hf : s.full w with
  | true =>
    rw [if_pos rfl, bind_of_run (iput_drop fun hcond => by rw [hdin] at hcond; omega)]
    exact ⟨_, _, rfl, rfl⟩
  | false =>
    have hlt := Slots.lt_of_place hplace
    rw [← congrFun (slots_of_same hdisk) n] at hlt
    obtain ⟨s', hwrite⟩ := hdir₁.restore_room length_replicate hlt
    rw [if_neg Bool.false_ne_true, bind_of_run hwrite]
    exact ⟨_, _, rfl, rfl⟩

end Directory

/-! ## Sequences of operations -/

/-- What directory `dp` serves in state `s`: every operation comes to its end, if there is room for
it, and this is what it does. -/
structure Serves (sb : Superblock) (dp : Fin NINODE) (n : Nat) (s : State P) : Prop where
  lookup : ∀ name, (∀ v, s.dir n (cname name) = some v → Cacheable s v) →
    ∃ r s', (dirlookup sb dp name).run s = some (r, s') ∧
      r.map (fun x => (s'.inode x.2).inum) = s.dir n (cname name) ∧ SameDisk s s'
  present : ∀ name inum v, s.dir n (cname name) = some v → Cacheable s v →
    ∃ s', (dirlink sb dp name inum).run s = some (false, s') ∧ Unchanging s s'
  absent : ∀ name inum, 0 < inum → inum < 2 ^ 16 → s.dir n (cname name) = none →
    HasSpace sb dp n s → ∃ s', (dirlink sb dp name inum).run s = some (true, s') ∧
      s'.slots n = Slots.insert (s.slots n) (cname name) inum ∧ Spares n s s'
  -- the inode is locked while the directory is, so it has to be another one
  remove : ∀ name v, v ≠ n → ¬ (cname name = dot ∨ cname name = dotdot) →
    s.dir n (cname name) = some v → Cacheable s v → (s.dinode v).type ≠ .free →
    1 ≤ (s.dinode v).nlink → ((s.dinode v).type = .dir → (s.dinode v).size % 16 = 0) →
    ∃ r s', (removeEntry sb dp name).run s = some (r, s') ∧
      if s.full v = true then r = none ∧ SameDisk s s'
      else (∃ ip, r = some ip ∧ (s'.inode ip).inum = v) ∧
        s'.slots n = Slots.erase (s.slots n) (cname name) ∧ Spares n s s'
  keep : ∀ name, cname name = dot ∨ cname name = dotdot ∨ s.dir n (cname name) = none →
    (removeEntry sb dp name).run s = some (none, s)

theorem Directory.serves (h : Directory sb K dp n s) : Serves sb dp n s where
  lookup name hroom := by
    obtain ⟨r, s', hrun⟩ := h.dirlookup_room name hroom
    obtain ⟨rfl, rfl, hnone⟩ | ⟨j, v, ip, rfl, -, hdir, hget⟩ := h.dirlookup_inv hrun
    · exact ⟨none, _, hrun, hnone.symm, .refl _⟩
    · obtain ⟨htook, hinum⟩ := iget_took h.sound hget
      exact ⟨_, s', hrun, by rw [hdir, Option.map_some, hinum], htook.disk⟩
  present name inum v hdir hroom := h.dirlink_room_present hdir hroom inum
  absent name inum hpos hlt habsent hspace := by
    obtain ⟨s', hrun⟩ := h.dirlink_room_absent habsent hspace inum
    obtain ⟨-, ⟨hok, -⟩ | ⟨-, -, hslots, hspares⟩⟩ := h.dirlink_inv hpos hlt hrun
    · cases hok
    · exact ⟨s', hrun, hslots, hspares⟩
  remove name v _ hdots hdir hroom htype hlink hwhole := by
    obtain ⟨r, s', hrun, hsome⟩ := h.removeEntry_room hdots hdir hroom htype hlink hwhole
    refine ⟨r, s', hrun, ?_⟩
    obtain ⟨-, ⟨rfl, hsame⟩ | ⟨ip, w, rfl, -, hw, hinum, hslots, hspares⟩⟩ := h.removeEntry_inv hrun
    · rw [if_pos (by simpa using hsome)]
      exact ⟨rfl, hsame⟩
    · obtain rfl : w = v := Option.some.inj (hw.symm.trans hdir)
      rw [if_neg (by simpa using hsome)]
      exact ⟨⟨ip, rfl, hinum⟩, hslots, hspares⟩
  keep name hnone := by
    unfold removeEntry
    split
    · rfl
    · next hdots =>
      have habsent : s.dir n (cname name) = none :=
        (hnone.resolve_left fun h => hdots (.inl h)).resolve_left fun h => hdots (.inr h)
      have hlook : (dirlookup sb dp name).run s = some (none, s) := by
        rw [h.dirlookup_eq name, Slots.lookup_eq_none.mp habsent]
      rw [bind_of_run hlook]
      rfl

/-- An operation on the directory with its answer, or a step of the rest of the kernel, to the state
`s'` and the references `K'`. -/
inductive DirEvent (P : Type) where
  | lookup (name : List Byte) (r : Option Nat)
  | link (name : List Byte) (inum : Nat) (ok : Bool)
  | remove (name : List Byte) (ok : Bool)
  | other (s' : State P) (K' : Refs)

namespace DirEvent

/-- An event happens if the answer is the one that the operation returns. The inode that a name is
for comes with a reference. -/
def step (sb : Superblock) (dp : Fin NINODE) :
    State P × Refs → DirEvent P → Option (State P × Refs)
  | (s, K), .lookup name r =>
    ((dirlookup sb dp name).run s).bind fun (x, s') =>
      if x.map (fun y => (s'.inode y.2).inum) = r then some (s', plus K (x.map Prod.snd)) else none
  | (s, K), .link name inum ok =>
    ((dirlink sb dp name inum).run s).bind fun (x, s') => if x = ok then some (s', K) else none
  | (s, K), .remove name ok =>
    ((removeEntry sb dp name).run s).bind fun (x, s') =>
      if x.isSome = ok then some (s', plus K x) else none
  | _, .other s' K' => some (s', K')

/-- Names are entered for inodes whose numbers fit, and the rest of the kernel does not write the
directory. -/
def Permitted (sb : Superblock) (dp : Fin NINODE) (n : Nat) (c : State P × Refs) :
    DirEvent P → Prop
  | .link _ inum _ => 0 < inum ∧ inum < 2 ^ 16
  | .other s' K' => Elsewhere sb K' dp n c.1 s'
  | .lookup _ _ | .remove _ _ => True

/-- What the event does to the map. -/
def apply (m : List Byte → Option Nat) : DirEvent P → List Byte → Option Nat
  | .link name inum true => Function.update m (cname name) (some inum)
  | .remove name true => Function.update m (cname name) none
  | .link _ _ false | .remove _ false | .lookup _ _ | .other _ _ => m

/-- What the map says about the answer. -/
def Answers (m : List Byte → Option Nat) : DirEvent P → Prop
  | .lookup name r => r = m (cname name)
  | .link name _ ok => ok = (m (cname name)).isNone
  | .remove name ok => ok = true → (m (cname name)).isSome = true
  | .other _ _ => True

end DirEvent

theorem DirEvent.step_refines {c c' : State P × Refs} {e : DirEvent P}
    (h : Directory sb c.2 dp n c.1) (hC : e.Permitted sb dp n c)
    (hstep : DirEvent.step sb dp c e = some c') :
    Directory sb c'.2 dp n c'.1 ∧ e.Answers (c.1.dir n) ∧ c'.1.dir n = e.apply (c.1.dir n) := by
  obtain ⟨s, K⟩ := c
  cases e with
  | lookup name r =>
    obtain ⟨⟨x, s'⟩, hrun, hif⟩ := Option.bind_eq_some_iff.mp hstep
    obtain ⟨rfl, hc⟩ := Option.ite_none_right_eq_some.mp hif
    cases hc
    obtain ⟨rfl, rfl, hnone⟩ | ⟨j, v, ip, rfl, -, hdir, hget⟩ := h.dirlookup_inv hrun
    · exact ⟨h, hnone.symm, rfl⟩
    · obtain ⟨htook, hinum⟩ := iget_took h.sound hget
      have hheld : 0 < bump K ip dp := Nat.lt_of_lt_of_le h.held (le_bump K ip dp)
      have he := htook.disk.elsewhere h htook.sound hheld h.held htook.keeps
      refine ⟨he.directory h, ?_, congrArg Slots.lookup he.slots⟩
      show (some (s'.inode ip).inum : Option Nat) = _
      rw [hinum, hdir]
  | link name inum ok =>
    obtain ⟨⟨x, s'⟩, hrun, hif⟩ := Option.bind_eq_some_iff.mp hstep
    obtain ⟨rfl, hc⟩ := Option.ite_none_right_eq_some.mp hif
    cases hc
    obtain ⟨hdir, ⟨rfl, hpresent, hunch⟩ | ⟨rfl, habsent, hslots, -⟩⟩ :=
      h.dirlink_inv hC.1 hC.2 hrun
    · refine ⟨hdir, ?_, congrArg Slots.lookup (congrFun (slots_of_same hunch.disk) n)⟩
      exact (Bool.eq_false_iff.mpr fun hnone => hpresent (Option.isNone_iff_eq_none.mp hnone)).symm
    · refine ⟨hdir, (Option.isNone_iff_eq_none.mpr habsent).symm, ?_⟩
      unfold State.dir
      rw [hslots]
      exact h.distinct.lookup_insert habsent
  | remove name ok =>
    obtain ⟨⟨x, s'⟩, hrun, hif⟩ := Option.bind_eq_some_iff.mp hstep
    obtain ⟨rfl, hc⟩ := Option.ite_none_right_eq_some.mp hif
    cases hc
    obtain ⟨hdir, ⟨rfl, hsame⟩ | ⟨ip, v, rfl, -, hv, -, hslots, -⟩⟩ := h.removeEntry_inv hrun
    · exact ⟨hdir, fun hok => absurd hok Bool.false_ne_true,
        congrArg Slots.lookup (congrFun (slots_of_same hsame) n)⟩
    · refine ⟨hdir, fun _ => Option.isSome_iff_exists.mpr ⟨v, hv⟩, ?_⟩
      unfold State.dir
      rw [hslots]
      exact h.distinct.lookup_erase _
  | other s' K' =>
    cases hstep
    exact ⟨Elsewhere.directory hC h, trivial, congrArg Slots.lookup (Elsewhere.slots hC)⟩

/-- **A directory is a finite map** from names to inode numbers. Over any sequence of lookups, of
names that are entered and of names that are taken out, with anything in between that does not write
the directory, every answer is the one that the map gives, and the map at the end is the one that the
operations give. The names stay distinct. In each state that is reached the operations come to their
end, if there is room, and change no slot but the one of their name: a name is entered in the first
empty slot, and the directory grows only if there is none. `namecmp` tells names apart that are
different keys. -/
theorem directory_is_finite_map {c c' : State P × Refs} {es : List (DirEvent P)}
    (h : Directory sb c.2 dp n c.1)
    (hes : Allowed (DirEvent.step sb dp) (DirEvent.Permitted sb dp n) c es)
    (hrun : run (DirEvent.step sb dp) c es = some c') :
    Directory sb c'.2 dp n c'.1 ∧ c'.1.dir n = es.foldl DirEvent.apply (c.1.dir n) ∧
    Allowed (DirEvent.step sb dp) (fun c e => e.Answers (c.1.dir n)) c es ∧
    Serves sb dp n c'.1 ∧ ∀ p q, cname p = cname q ↔ namecmp p q = 0 := by
  have hruns : Directory sb c'.2 dp n c'.1 ∧ c'.1.dir n = es.foldl DirEvent.apply (c.1.dir n) ∧
      Allowed (DirEvent.step sb dp) (fun c e => e.Answers (c.1.dir n)) c es := by
    induction es generalizing c with
    | nil =>
      cases hrun
      exact ⟨h, rfl, trivial⟩
    | cons e es ih =>
      obtain ⟨c₁, hstep, hrest⟩ := run_cons_iff.mp hrun
      obtain ⟨h₁, hanswer, hmap⟩ := DirEvent.step_refines h hes.1 hstep
      obtain ⟨hend, hfold, hanswers⟩ := ih h₁ (hes.2 c₁ hstep) hrest
      refine ⟨hend, by rw [hfold, hmap, foldl_cons], hanswer, fun c₂ hc₂ => ?_⟩
      obtain rfl : c₁ = c₂ := Option.some.inj (hstep.symm.trans hc₂)
      exact hanswers
  exact ⟨hruns.1, hruns.2.1, hruns.2.2, hruns.1.serves, fun p q => (namecmp_eq_zero p q).symm⟩

theorem opened_directory {s : State (Fin 1)} (hs : s ∈ opened) : Directory .mkfs s.held 0 1 s := by
  have hfacts : ∀ s ∈ opened, 0 < s.held 0 ∧ (s.inode 0).inum = 1 ∧ (s.inode 0).valid = true ∧
      (s.dinode 1).type = .dir ∧ (s.dinode 1).size % 16 = 0 ∧
      (s.slots 1).Pairwise fun x y => ∀ e ∈ x, ∀ e' ∈ y, e.1 ≠ e'.1 := by decide +kernel
  obtain ⟨hheld, hinum, hvalid, htype, hwhole, hnames⟩ := hfacts s hs
  exact ⟨(run_settled mkfs_consistent hs).sound, hheld, hinum, hvalid, htype, hwhole,
    Slots.distinct_of_pairwise hnames⟩

/-- Names are entered, found and taken out. -/
def rootEvents : List (DirEvent (Fin 1)) :=
  [.link [121] 5 true, .lookup [121] (some 5), .link [121] 6 false, .remove [120] true,
    .lookup [120] none, .link [122] 7 true]

theorem root_is_finite_map : ∃ s ∈ opened, ∃ c' : State (Fin 1) × Refs,
    run (DirEvent.step .mkfs 0) (s, s.held) rootEvents = some c' ∧
      c'.1.dir 1 [121] = some 5 ∧ c'.1.dir 1 [120] = none ∧ c'.1.dir 1 [122] = some 7 := by
  have hrun : ∃ s ∈ opened,
      (run (DirEvent.step .mkfs 0) (s, s.held) rootEvents).isSome = true := by
    decide +kernel
  obtain ⟨s, hs, hsome⟩ := hrun
  obtain ⟨c', hc'⟩ := Option.isSome_iff_exists.mp hsome
  have hes : Allowed (DirEvent.step .mkfs 0) (DirEvent.Permitted .mkfs 0 1)
      (s, s.held) rootEvents :=
    have h5 : 0 < 5 ∧ 5 < 2 ^ 16 := by decide
    have h6 : 0 < 6 ∧ 6 < 2 ^ 16 := by decide
    have h7 : 0 < 7 ∧ 7 < 2 ^ 16 := by decide
    ⟨h5, fun _ _ => ⟨trivial, fun _ _ => ⟨h6, fun _ _ => ⟨trivial, fun _ _ => ⟨trivial, fun _ _ =>
      ⟨h7, fun _ _ => trivial⟩⟩⟩⟩⟩⟩
  obtain ⟨-, hmap, -⟩ := directory_is_finite_map (opened_directory hs) hes hc'
  refine ⟨s, hs, c', hc', ?_, ?_, ?_⟩
  · rw [hmap]
    rfl
  · rw [hmap]
    rfl
  · rw [hmap]
    rfl

/-- `dirlink` for an inode number that does not fit in a `ushort` returns 0, and the name is not
there. -/
theorem dirlink_truncates : ∃ s ∈ opened, Directory .mkfs s.held 0 1 s ∧
    ∃ x ∈ (dirlink .mkfs 0 [97] 65536).run s, x.1 = true ∧
      ((dirlookup .mkfs 0 [97]).run x.2).map Prod.fst = some none := by
  have hrun : ∃ s ∈ opened, ∃ x ∈ (dirlink .mkfs 0 [97] 65536).run s, x.1 = true ∧
      ((dirlookup .mkfs 0 [97]).run x.2).map Prod.fst = some none := by decide +kernel
  obtain ⟨s, hs, hx⟩ := hrun
  exact ⟨s, hs, opened_directory hs, hx⟩

end Xv6.Fs
