import Xv6.Sync.Sleep

/-!
# One turn of a call

A process that has the lock of a monitor keeps it until it sleeps or drops it, and meanwhile nobody
else changes the data. So how its turn ends is decided when it takes the lock (`Monitor.Turns`), and
no interleaving changes it (`Reached.endsTurn`). A process is marked killed only by itself, in user
mode, so for one that is in a call the mark does not change.
-/

namespace Xv6.Sync

open Transition

variable {P ι C : Type} {M : ι → Monitor C}

/-- How a turn ends. -/
inductive Turn (C O : Type) where
  | sleeps (c : C) (o : O)
  | leaves (o : O)

/-- A process that has the lock and is at `o`, with the data `d`, ends its turn so. -/
inductive Monitor.Turns (N : Monitor C) (killed : Bool) : N.Data → N.Op → Turn C N.Op → Prop where
  | sleep {d o c o'} : N.next killed d o = .sleep c o' → N.Turns killed d o (.sleeps c o')
  | release {d o o'} : N.next killed d o = .release o' → N.Turns killed d o (.leaves o')
  | set {d o d' o' T} : N.next killed d o = .set d' o' → N.Turns killed d' o' T →
    N.Turns killed d o T
  | wakeup {d o c o' T} : N.next killed d o = .wakeup c o' → N.Turns killed d o' T →
    N.Turns killed d o T

/-- Data is changed only under the lock. -/
def Monitor.Guarded (N : Monitor C) : Prop :=
  ∀ killed d o d' o', N.next killed d o ≠ .write d' o'

/-- The phase a turn ends in. -/
def Turn.phase {O : Type} : Turn C O → Phase C O
  | .sleeps c o => .handing c o
  | .leaves o => .away o

/-- Process `p` has the lock of monitor `i` and its turn is going to end so. -/
def Sys.OnTurn (s : Sys P M) (i : ι) (p : P) (T : Turn C (M i).Op) : Prop :=
  ∃ o, (s.call i p = .locked o ∨ ∃ c, s.call i p = .waking c o) ∧
    (M i).Turns (s.killed p) (s.data i) o T

variable [DecidableEq P] [DecidableEq ι] [DecidableEq C]
variable {s s' : Sys P M} {e : Event P M} {es : List (Event P M)} {i : ι} {p : P}

omit [DecidableEq C] in
theorem Sys.move_call_self {ph : Phase C (M i).Op} : (s.move i p ph).call i p = ph := by
  simp [Sys.move]

omit [DecidableEq C] in
theorem Sys.move_call_of_ne {j : ι} {q : P} {ph : Phase C (M j).Op} (h : ¬ (i = j ∧ p = q)) :
    (s.move j q ph).call i p = s.call i p := by
  simp only [Sys.move]
  by_cases hij : i = j
  · subst hij
    have hpq : p ≠ q := fun hpq => h ⟨rfl, hpq⟩
    simp [hpq]
  · simp [hij]

/-- An action moves the process that makes it, and may wake others. -/
theorem go_moves {j : ι} {q : P} (h : s.go j q = some s') : s'.killed = s.killed ∧
    ∃ ph, s'.call = (s.move j q ph).call ∨ ∃ c, s'.call = ((s.wakeup1 c).move j q ph).call := by
  simp only [Sys.go] at h
  split at h
  case h_1 o hq =>
    simp only [Sys.goAway] at h
    split at h <;> cases h <;> exact ⟨rfl, _, .inl rfl⟩
  case h_2 o hq =>
    split at h <;> cases h
    exact ⟨rfl, _, .inl rfl⟩
  case h_3 o hq =>
    simp only [Sys.goLocked] at h
    split at h
    · cases h
      exact ⟨rfl, _, .inl rfl⟩
    · split at h <;> cases h
      exact ⟨rfl, _, .inl rfl⟩
    · split at h <;> cases h
      exact ⟨rfl, _, .inl rfl⟩
    · cases h
      exact ⟨rfl, _, .inl rfl⟩
    · cases h
  case h_4 c o hq =>
    cases h
    exact ⟨rfl, _, .inr ⟨c, rfl⟩⟩
  case h_5 c o hq =>
    cases h
    exact ⟨rfl, _, .inl rfl⟩
  case h_6 c o hq =>
    cases h
    exact ⟨rfl, _, .inl rfl⟩
  all_goals cases h

/-- Who does not sleep is moved by its own actions only. -/
theorem step_call_of_ne (h : step s e = some s') (hgo : e ≠ .go i p)
    (hp : ∀ c o, s.call i p ≠ .asleep c o) (hout : s.call i p ≠ .out) :
    s'.call i p = s.call i p := by
  have hwake : ∀ c, (s.wakeup1 c).call i p = s.call i p := by
    intro c
    show (s.call i p).wakeup1 c = s.call i p
    cases hph : s.call i p with
    | asleep c' o => exact absurd hph (hp c' o)
    | _ => rfl
  cases e with
  | call j q x =>
    simp only [step] at h
    split at h
    case h_2 => cases h
    case h_1 hq =>
      cases h
      refine Sys.move_call_of_ne ?_
      rintro ⟨rfl, rfl⟩
      exact hout hq
  | go j q =>
    have hne : ¬ (i = j ∧ p = q) := by
      rintro ⟨rfl, rfl⟩
      exact hgo rfl
    obtain ⟨-, ph, hcall | ⟨c, hcall⟩⟩ := go_moves h
    · rw [hcall, Sys.move_call_of_ne hne]
    · rw [hcall, Sys.move_call_of_ne hne, hwake]
  | wake j q =>
    simp only [step] at h
    split at h
    case h_2 => cases h
    case h_1 c o hq =>
      cases h
      refine Sys.move_call_of_ne ?_
      rintro ⟨rfl, rfl⟩
      exact hp c o hq
  | fault q =>
    cases h
    rfl

/-- While `p` has the lock nobody else changes the data. -/
theorem step_data_of_holds (hlock : Owner (s.lock i) fun q => (s.call i q).holds)
    (hN : (M i).Guarded) (hp : (s.call i p).holds) (h : step s e = some s') (hgo : e ≠ .go i p) :
    s'.data i = s.data i := by
  by_cases he : ∃ q, e = .go i q
  · obtain ⟨q, rfl⟩ := he
    have hqp : q ≠ p := by
      rintro rfl
      exact hgo rfl
    rw [go_data h, Function.update_self]
    simp only [Sys.written, Monitor.written]
    split
    case h_1 o hq =>
      split
      case h_1 d' o' hnext => exact absurd hnext (hN _ _ _ _ _)
      case h_2 => rfl
    case h_2 o hq =>
      -- two processes would have the lock
      refine absurd (hlock.unique (x := q) (y := p) ?_ hp) hqp
      rw [hq]
      rfl
    case h_3 => rfl
  · push Not at he
    exact step_data h he

/-- Nobody but the process itself marks it killed. -/
theorem step_killed (h : step s e = some s') (he : e ≠ .fault p) : s'.killed p = s.killed p := by
  cases e with
  | call j q x =>
    simp only [step] at h
    split at h <;> cases h
    rfl
  | go j q => rw [(go_moves h).1]
  | wake j q =>
    simp only [step] at h
    split at h <;> cases h
    rfl
  | fault q =>
    cases h
    exact Function.update_of_ne (fun hpq => he (congrArg Event.fault hpq.symm)) ..

/-- A turn goes on as it is bound to, or ends so. -/
theorem Sys.OnTurn.step {T : Turn C (M i).Op} (h : s.OnTurn i p T)
    (hlock : Owner (s.lock i) fun q => (s.call i q).holds) (hN : (M i).Guarded)
    (he : e ≠ .fault p) (hs : step s e = some s') :
    s'.OnTurn i p T ∨ s'.call i p = T.phase := by
  obtain ⟨o, hph, ht⟩ := h
  have hholds : (s.call i p).holds := by
    rcases hph with hph | ⟨c, hph⟩ <;> (rw [hph]; rfl)
  have hk := step_killed hs he
  by_cases hgo : e = .go i p
  · subst hgo
    simp only [Sync.step, Sys.go] at hs
    rcases hph with hph | ⟨c, hph⟩
    · simp only [hph, Sys.goLocked] at hs
      cases ht with
      | sleep hnext =>
        rw [hnext] at hs
        dsimp only at hs
        split at hs <;> cases hs
        exact .inr Sys.move_call_self
      | release hnext =>
        rw [hnext] at hs
        cases hs
        exact .inr Sys.move_call_self
      | set hnext ht =>
        rw [hnext] at hs
        cases hs
        refine .inl ⟨_, .inl Sys.move_call_self, ?_⟩
        rw [hk]
        simpa [Sys.setData] using ht
      | wakeup hnext ht =>
        rw [hnext] at hs
        dsimp only at hs
        split at hs <;> cases hs
        refine .inl ⟨_, .inr ⟨_, Sys.move_call_self⟩, ?_⟩
        rw [hk]
        exact ht
    · simp only [hph] at hs
      cases hs
      refine .inl ⟨o, .inl Sys.move_call_self, ?_⟩
      rw [hk]
      exact ht
  · have hcall : s'.call i p = s.call i p := by
      refine step_call_of_ne hs hgo ?_ ?_
      · rintro c o' hc
        rw [hc] at hholds; cases hholds
      · intro hc
        rw [hc] at hholds; cases hholds
    refine .inl ⟨o, by rwa [hcall], ?_⟩
    rw [hk, step_data_of_holds hlock hN hholds hs hgo]
    exact ht

end Xv6.Sync
