import Mathlib.Data.List.FinRange
import Xv6.Common.Links
import Xv6.Common.Tally
import Xv6.Common.Transition

/-!
# The buffer cache

The buffers of bio.c with the list they are on, and the disk behind them (memide.c). A step is a
section under `bcache.lock`, the taking of a buffer's sleep lock, or what its holder does with the
buffer. Blocks have contents of any type `B`.

Processes follow the protocol: whoever changes the data of a buffer holds it, and calls `bwrite` or
`log_write` before `brelse`. `commit` does nothing else to buffers than these calls: it copies to the
log and from there to the home blocks with `bread`, `bwrite` and `brelse`.
-/

namespace Xv6.Bio

open Circular List
open Function (update update_of_ne update_self)

def NBUF : Nat := 30

/-- `struct buf`, but for its links and its lock. -/
structure Buf (B : Type) where
  valid : Bool
  dirty : Bool
  dev : Nat
  blockno : Nat
  refcnt : Nat
  data : B

/-- The sleep lock of a buffer: free, taken by a process that is still in `bread`, or held by one to
which `bread` has returned the buffer. -/
inductive Lock (P : Type) where
  | free
  | taken (p : P)
  | held (p : P)
  deriving DecidableEq

/-- Where a process is: in `bread` of a block, waiting for the lock of its buffer or with it, or at
the end of `brelse`. -/
inductive Phase where
  | idle
  | waiting (dev blockno : Nat) (b : Fin NBUF)
  | locked (dev blockno : Nat) (b : Fin NBUF)
  | leaving (b : Fin NBUF)
  deriving DecidableEq

/-- The cache and the disk. `saved` is false from a change of the data to the next `bwrite` or
`log_write`. -/
structure Cache (P B : Type) where
  buf : Fin NBUF → Buf B
  links : Links (Fin NBUF)
  lock : Fin NBUF → Lock P
  saved : Fin NBUF → Bool
  disk : Nat → B
  phase : P → Phase

open Cache

inductive Event (P B : Type) where
  | bread (p : P) (dev blockno : Nat)
  | lock (p : P)
  | fetch (p : P)
  | modify (p : P) (b : Fin NBUF) (data : B)
  | bwrite (p : P) (b : Fin NBUF)
  | log_write (p : P) (b : Fin NBUF)
  | brelse (p : P) (b : Fin NBUF)
  | drop (p : P)

variable {P B : Type}

namespace Cache

def setBuf (s : Cache P B) (b : Fin NBUF) (x : Buf B) : Cache P B :=
  { s with buf := update s.buf b x }

/-- The buffer that `bget` finds, or else the one that it recycles. -/
def bget (s : Cache P B) (dev blockno : Nat) : Option (Fin NBUF × Cache P B) :=
  match (walk s.links.next NBUF (s.links.next none)).find? fun b =>
      (s.buf b).dev = dev ∧ (s.buf b).blockno = blockno with
  | some b => some (b, s.setBuf b { s.buf b with refcnt := (s.buf b).refcnt + 1 })
  | none =>
    match (walk s.links.prev NBUF (s.links.prev none)).find? fun b =>
        (s.buf b).refcnt = 0 ∧ (s.buf b).dirty = false with
    | some b =>
      some (b, s.setBuf b ⟨false, false, dev, blockno, 1, (s.buf b).data⟩)
    | none => none

/-- Write a dirty buffer to the disk, or read one that is not valid. -/
def iderw (disksize : Nat) (s : Cache P B) (b : Fin NBUF) : Option (Cache P B) :=
  if (s.buf b).valid ∧ (s.buf b).dirty = false then none
  else if (s.buf b).dev ≠ 1 then none
  else if disksize ≤ (s.buf b).blockno then none
  else if (s.buf b).dirty then
    some { s.setBuf b { s.buf b with dirty := false, valid := true } with
      disk := update s.disk (s.buf b).blockno (s.buf b).data }
  else some (s.setBuf b { s.buf b with data := s.disk (s.buf b).blockno, valid := true })

/-- The end of `brelse`, under `bcache.lock`. -/
def unref (s : Cache P B) (b : Fin NBUF) : Cache P B :=
  let s := s.setBuf b { s.buf b with refcnt := (s.buf b).refcnt - 1 }
  if (s.buf b).refcnt = 0 then { s with links := (s.links.unlink b).push b } else s

def setLock (s : Cache P B) (b : Fin NBUF) (l : Lock P) : Cache P B :=
  { s with lock := update s.lock b l }

def setSaved (s : Cache P B) (b : Fin NBUF) (x : Bool) : Cache P B :=
  { s with saved := update s.saved b x }

variable [DecidableEq P]

def setPhase (s : Cache P B) (p : P) (ph : Phase) : Cache P B :=
  { s with phase := update s.phase p ph }

/-- The process has the buffer, and is not in a call. -/
def Holds (s : Cache P B) (p : P) (b : Fin NBUF) : Prop := s.lock b = .held p ∧ s.phase p = .idle

instance (s : Cache P B) (p : P) (b : Fin NBUF) : Decidable (s.Holds p b) :=
  inferInstanceAs (Decidable (_ ∧ _))

def step (disksize : Nat) (s : Cache P B) : Event P B → Option (Cache P B)
  | .bread p dev blockno =>
    if s.phase p = .idle then
      (s.bget dev blockno).map fun x => x.2.setPhase p (.waiting dev blockno x.1)
    else none
  | .lock p =>
    match s.phase p with
    | .waiting dev blockno b =>
      if s.lock b = .free then
        some ((s.setLock b (.taken p)).setPhase p (.locked dev blockno b))
      else none
    | _ => none
  | .fetch p =>
    match s.phase p with
    | .locked _ _ b =>
      (if (s.buf b).valid then some s else s.iderw disksize b).map fun s =>
        (s.setLock b (.held p)).setPhase p .idle
    | _ => none
  | .modify p b data =>
    if s.Holds p b then some ((s.setBuf b { s.buf b with data }).setSaved b false) else none
  | .bwrite p b =>
    if s.Holds p b then
      ((s.setBuf b { s.buf b with dirty := true }).iderw disksize b).map fun s => s.setSaved b true
    else none
  | .log_write p b =>
    if s.Holds p b then some ((s.setBuf b { s.buf b with dirty := true }).setSaved b true) else none
  | .brelse p b =>
    if s.Holds p b ∧ s.saved b then some ((s.setLock b .free).setPhase p (.leaving b)) else none
  | .drop p =>
    match s.phase p with
    | .leaving b => some ((s.unref b).setPhase p .idle)
    | _ => none

end Cache

/-- The cache after `binit`, over any disk. -/
def binit (data : Fin NBUF → B) (disk : Nat → B) : Cache P B where
  buf b := ⟨false, false, 0, 0, 0, data b⟩
  links := (List.finRange NBUF).foldl Links.push (Links.empty (Fin NBUF))
  lock _ := .free
  saved _ := true
  disk := disk
  phase _ := .idle

/-- The block store that the cache implements: the contents of each block that were last stored in a
buffer for it. -/
def store (contents : Nat → B) (s : Cache P B) : Event P B → Nat → B
  | .modify _ b data => update contents (s.buf b).blockno data
  | _ => contents

/-! ## Links -/

/-- The list has every buffer once. -/
def OnList (k : Links (Fin NBUF)) : Prop := ∃ l, Linked k l ∧ ∀ b, b ∈ l

theorem onList_binit : OnList ((List.finRange NBUF).foldl Links.push (Links.empty (Fin NBUF))) := by
  have hfold (bs l : List (Fin NBUF)) (k : Links (Fin NBUF)) (hk : Linked k l) (hbs : bs.Nodup)
      (hdisj : ∀ b ∈ bs, b ∉ l) : Linked (bs.foldl Links.push k) (bs.reverse ++ l) := by
    induction bs generalizing k l with
    | nil => exact hk
    | cons b bs ih =>
      have hb := nodup_cons.mp hbs
      rw [foldl_cons, reverse_cons, append_assoc]
      refine ih (b :: l) _ (hk.push (hdisj b (mem_cons_self ..))) hb.2 fun c hc hmem => ?_
      rcases mem_cons.mp hmem with rfl | hmem
      · exact hb.1 hc
      · exact hdisj c (mem_cons_of_mem b hc) hmem
  have hlinked := hfold (List.finRange NBUF) [] _ linked_empty (nodup_finRange NBUF) (by simp)
  exact ⟨_, hlinked, by simp⟩

/-- A buffer is moved to the head of the list. -/
theorem OnList.touch {k : Links (Fin NBUF)} (h : OnList k) (b : Fin NBUF) :
    OnList ((k.unlink b).push b) := by
  obtain ⟨l, hl, hall⟩ := h
  obtain ⟨l₁, l₂, rfl⟩ := append_of_mem (hall b)
  have hb : b ∉ l₁ ++ l₂ := (nodup_middle.mp hl.nodup).notMem
  refine ⟨_, hl.unlink.push hb, fun c => ?_⟩
  have := hall c
  simp only [mem_append, mem_cons] at this ⊢
  tauto

theorem OnList.length_le {l : List (Fin NBUF)} (h : l.Nodup) : l.length ≤ NBUF := by
  simpa using h.length_le_card

/-- The first loop of `bget` sees every buffer. -/
theorem OnList.mem_walk {k : Links (Fin NBUF)} (h : OnList k) (b : Fin NBUF) :
    b ∈ walk k.next NBUF (k.next none) := by
  obtain ⟨l, hl, hall⟩ := h
  rw [walk_next hl.path (OnList.length_le hl.nodup)]
  exact hall b

theorem bget_inv {s s' : Cache P B} {dev blockno : Nat} {b : Fin NBUF} (hlist : OnList s.links)
    (h : s.bget dev blockno = some (b, s')) :
    ((s.buf b).dev = dev ∧ (s.buf b).blockno = blockno) ∧
        s' = s.setBuf b { s.buf b with refcnt := (s.buf b).refcnt + 1 } ∨
      (∀ c, ¬ ((s.buf c).dev = dev ∧ (s.buf c).blockno = blockno)) ∧
        ((s.buf b).refcnt = 0 ∧ (s.buf b).dirty = false) ∧
        s' = s.setBuf b ⟨false, false, dev, blockno, 1, (s.buf b).data⟩ := by
  unfold bget at h
  split at h
  · next c hc =>
    cases h
    exact .inl ⟨by simpa using List.find?_some hc, rfl⟩
  · next hnone =>
    split at h
    · next c hc =>
      cases h
      refine .inr ⟨fun c hc' => ?_, by simpa using List.find?_some hc, rfl⟩
      exact List.find?_eq_none.mp hnone c (hlist.mem_walk c) (decide_eq_true hc')
    · cases h

/-! ## References -/

/-- The buffer that a process in a call has a reference to. -/
def Phase.slot : Phase → Option (Fin NBUF)
  | .idle => none
  | .waiting _ _ b | .locked _ _ b | .leaving b => some b

def Lock.count : Lock P → Nat
  | .held _ => 1
  | _ => 0

variable [Fintype P]

def Cache.slot (s : Cache P B) (p : P) : Option (Fin NBUF) := (s.phase p).slot

/-- The reference counts are exact, and who waits for a buffer does so for the block that it stands
for. -/
structure Refs (s : Cache P B) : Prop where
  count : ∀ b, (s.buf b).refcnt = tally s.slot b + (s.lock b).count
  asked : ∀ p d n b, s.phase p = .waiting d n b ∨ s.phase p = .locked d n b →
    (s.buf b).dev = d ∧ (s.buf b).blockno = n
  taken : ∀ p b, s.lock b = .taken p ↔ ∃ d n, s.phase p = .locked d n b

namespace Refs

variable [DecidableEq P] {s s' : Cache P B} {p : P} {b : Fin NBUF}

omit [DecidableEq P] in
theorem slot_ne (h : Refs s) (hb : (s.buf b).refcnt = 0) (p : P) : s.slot p ≠ some b := by
  intro hp
  have := tally_pos hp
  have := h.count b
  omega

omit [DecidableEq P] in
theorem lock_free (h : Refs s) (hb : (s.buf b).refcnt = 0) : s.lock b = .free := by
  cases hl : s.lock b with
  | free => rfl
  | held q =>
    have := h.count b
    rw [hl] at this
    simp only [Lock.count] at this
    omega
  | taken q =>
    obtain ⟨d, n, hq⟩ := (h.taken q b).mp hl
    exact absurd (by rw [slot, hq]; rfl) (h.slot_ne hb q)

omit [DecidableEq P] in
theorem congr (h : Refs s) (href : ∀ b, (s'.buf b).refcnt = (s.buf b).refcnt)
    (hdev : ∀ b, (s'.buf b).dev = (s.buf b).dev)
    (hblockno : ∀ b, (s'.buf b).blockno = (s.buf b).blockno) (hlock : s'.lock = s.lock)
    (hphase : s'.phase = s.phase) : Refs s' where
  count b := by
    have hslot : s'.slot = s.slot := by
      unfold slot
      rw [hphase]
    rw [href, hslot, hlock]
    exact h.count b
  asked p d n b := by
    rw [hphase, hdev, hblockno]
    exact h.asked p d n b
  taken p b := by
    rw [hphase, hlock]
    exact h.taken p b

/-- A step of `p` on the buffer `b`: what has to be seen is the count of `b`, that it still stands
for the block that others want of it, and who has its lock. -/
theorem move {ph : Phase} (h : Refs s)
    (hothers : ∀ c ≠ b, s'.buf c = s.buf c ∧ s'.lock c = s.lock c)
    (hphase : s'.phase = update s.phase p ph) (hold : ∀ c, s.slot p = some c → c = b)
    (hnew : ∀ c, ph.slot = some c → c = b)
    (hcount : (s'.buf b).refcnt = tally (update s.slot p ph.slot) b + (s'.lock b).count)
    (hname : 0 < tally s.slot b →
      (s'.buf b).dev = (s.buf b).dev ∧ (s'.buf b).blockno = (s.buf b).blockno)
    (hasked : ∀ d n, ph = .waiting d n b ∨ ph = .locked d n b →
      (s'.buf b).dev = d ∧ (s'.buf b).blockno = n)
    (htaken : ∀ q, s'.lock b = .taken q ↔ ∃ d n, update s.phase p ph q = .locked d n b) :
    Refs s' where
  count c := by
    have hslot : s'.slot = update s.slot p ph.slot := by
      funext q
      rw [slot, hphase, Function.apply_update (fun _ => Phase.slot)]
      rfl
    rw [hslot]
    by_cases hc : c = b
    · rw [hc]
      exact hcount
    · rw [tally_update_of_ne (fun ho => hc (hold c ho)) (fun hn => hc (hnew c hn)),
        (hothers c hc).1, (hothers c hc).2]
      exact h.count c
  asked q d n c hq := by
    rw [hphase] at hq
    by_cases hqp : q = p
    · subst hqp
      rw [update_self] at hq
      obtain rfl : c = b := hnew c (by rcases hq with rfl | rfl <;> rfl)
      exact hasked d n hq
    · rw [update_of_ne hqp] at hq
      have hslot : s.slot q = some c := by
        rcases hq with heq | heq <;> (rw [slot, heq]; rfl)
      by_cases hc : c = b
      · subst hc
        obtain ⟨hdev, hblockno⟩ := hname (tally_pos hslot)
        rw [hdev, hblockno]
        exact h.asked q d n c hq
      · rw [(hothers c hc).1]
        exact h.asked q d n c hq
  taken q c := by
    rw [hphase]
    by_cases hc : c = b
    · rw [hc]
      exact htaken q
    · rw [(hothers c hc).2, h.taken q c]
      by_cases hqp : q = p
      · subst hqp
        rw [update_self]
        constructor
        · rintro ⟨d, n, hq⟩
          exact absurd (hold c (by rw [slot, hq]; rfl)) hc
        · rintro ⟨d, n, rfl⟩
          exact absurd (hnew c rfl) hc
      · rw [update_of_ne hqp]

theorem take {d n : Nat} (h : Refs s) (hp : s.phase p = .idle)
    (hothers : ∀ c ≠ b, s'.buf c = s.buf c)
    (hb : (s'.buf b).refcnt = (s.buf b).refcnt + 1 ∧ (s'.buf b).dev = d ∧ (s'.buf b).blockno = n)
    (hsame : 0 < (s.buf b).refcnt → (s.buf b).dev = d ∧ (s.buf b).blockno = n)
    (hlock : s'.lock = s.lock) (hphase : s'.phase = s.phase) :
    Refs (s'.setPhase p (.waiting d n b)) := by
  have hnone : s.slot p = none := by rw [slot, hp]; rfl
  refine h.move (fun c hc => ⟨hothers c hc, congrFun hlock c⟩) (congrArg (update · p _) hphase)
    (by simp [hnone]) (by simp [Phase.slot]) ?_ (fun hpos => ?_) ?_ fun q => ?_
  · show (s'.buf b).refcnt = tally (update s.slot p (some b)) b + (s'.lock b).count
    rw [tally_take hnone, bump_self, hb.1, hlock, h.count b]
    omega
  · have hname := hsame (by rw [h.count b]; omega)
    exact ⟨hb.2.1.trans hname.1.symm, hb.2.2.trans hname.2.symm⟩
  · rintro d' n' (heq | heq) <;> cases heq
    exact hb.2
  · show s'.lock b = .taken q ↔ _
    rw [hlock, h.taken q b]
    by_cases hqp : q = p
    · subst hqp
      simp [hp]
    · rw [update_of_ne hqp]

theorem lock {d n : Nat} (h : Refs s) (hp : s.phase p = .waiting d n b) (hfree : s.lock b = .free) :
    Refs ((s.setLock b (.taken p)).setPhase p (.locked d n b)) := by
  have hslot : s.slot p = some b := by rw [slot, hp]; rfl
  refine h.move (fun c hc => ⟨rfl, update_of_ne hc ..⟩) rfl (by simp [hslot]) (by simp [Phase.slot])
    ?_ (fun _ => ⟨rfl, rfl⟩) ?_ fun q => ?_
  · show (s.buf b).refcnt = tally (update s.slot p (some b)) b + (update s.lock b (.taken p) b).count
    rw [← hslot, Function.update_eq_self, update_self, h.count b, hfree]
    rfl
  · rintro d' n' (heq | heq) <;> cases heq
    exact h.asked p d n b (.inl hp)
  · have hnot : ∀ d' n', s.phase q ≠ .locked d' n' b := by
      intro d' n' hq
      have := (h.taken q b).mpr ⟨d', n', hq⟩
      rw [hfree] at this
      cases this
    by_cases hqp : q = p
    · subst hqp
      simp [setPhase, setLock]
    · simp [setPhase, setLock, hqp, hnot, Ne.symm hqp]

theorem fetch {d n : Nat} (h : Refs s) (hp : s.phase p = .locked d n b) :
    Refs ((s.setLock b (.held p)).setPhase p .idle) := by
  have hslot : s.slot p = some b := by rw [slot, hp]; rfl
  have htaken := (h.taken p b).mpr ⟨d, n, hp⟩
  refine h.move (fun c hc => ⟨rfl, update_of_ne hc ..⟩) rfl (by simp [hslot]) (by simp [Phase.slot])
    ?_ (fun _ => ⟨rfl, rfl⟩) (by simp) fun q => ?_
  · show (s.buf b).refcnt = tally (update s.slot p none) b + (update s.lock b (.held p) b).count
    rw [update_self, h.count b, htaken, tally_drop hslot, bump_self]
    rfl
  · by_cases hqp : q = p
    · subst hqp
      simp [setPhase, setLock]
    · have hnot : ∀ d' n', s.phase q ≠ .locked d' n' b := by
        intro d' n' hq
        have := (h.taken q b).mpr ⟨d', n', hq⟩
        rw [htaken] at this
        cases this
        exact hqp rfl
      simp [setPhase, setLock, hqp, hnot]

theorem brelse (h : Refs s) (hp : s.phase p = .idle) (hb : s.lock b = .held p) :
    Refs ((s.setLock b .free).setPhase p (.leaving b)) := by
  have hnone : s.slot p = none := by rw [slot, hp]; rfl
  refine h.move (fun c hc => ⟨rfl, update_of_ne hc ..⟩) rfl (by simp [hnone]) (by simp [Phase.slot])
    ?_ (fun _ => ⟨rfl, rfl⟩) (by simp) fun q => ?_
  · show (s.buf b).refcnt = tally (update s.slot p (some b)) b + (update s.lock b .free b).count
    rw [tally_take hnone, bump_self, update_self, h.count b, hb]
    rfl
  · have hnot := h.taken q b
    rw [hb] at hnot
    by_cases hqp : q = p
    · subst hqp
      simp [setPhase, setLock]
    · simpa [setPhase, setLock, hqp] using hnot

theorem drop (h : Refs s) (hp : s.phase p = .leaving b)
    (hothers : ∀ c ≠ b, s'.buf c = s.buf c)
    (hb : s'.buf b = { s.buf b with refcnt := (s.buf b).refcnt - 1 })
    (hlock : s'.lock = s.lock) (hphase : s'.phase = s.phase) : Refs (s'.setPhase p .idle) := by
  have hslot : s.slot p = some b := by rw [slot, hp]; rfl
  refine h.move (fun c hc => ⟨hothers c hc, congrFun hlock c⟩) (congrArg (update · p _) hphase)
    (by simp [hslot]) (by simp [Phase.slot]) ?_ (fun _ => ?_) (by simp) fun q => ?_
  · show (s'.buf b).refcnt = tally (update s.slot p none) b + (s'.lock b).count
    have hcount := h.count b
    rw [tally_drop hslot, bump_self] at hcount
    rw [hb, hlock]
    show (s.buf b).refcnt - 1 = _
    omega
  · show (s'.buf b).dev = _ ∧ (s'.buf b).blockno = _
    rw [hb]
    exact ⟨rfl, rfl⟩
  · show s'.lock b = .taken q ↔ _
    rw [hlock, h.taken q b]
    by_cases hqp : q = p
    · subst hqp
      simp [hp]
    · rw [update_of_ne hqp]

end Refs

end Xv6.Bio
