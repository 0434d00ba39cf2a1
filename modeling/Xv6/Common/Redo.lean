import Mathlib.Logic.Function.Basic
import Mathlib.Data.List.Basic

/-!
# Redo logs

A disk is a function from places to values, and a list of writes is *replayed* on it from left to
right. A redo log makes the writes to the places `bs` happen all or not at all: the new values are
first put into slots nobody reads, then copied to their places, one at a time.

`Owes bs slot home d target` says what a disk `d` owes to its log: the slots hold what `target` has
at the places `bs`, and everywhere else at home `d` is `target` already. Copying any one slot to its
place keeps that (`Owes.install`), so it does not matter how often the copying is cut short and
begun again; once every place has been copied, `d` is `target` at home (`Owes.finish`).
-/

namespace Xv6.Redo

open List

variable {ι α : Type} [DecidableEq ι]

/-- Perform the writes in order. -/
def replay (ws : List (ι × α)) (d : ι → α) : ι → α :=
  ws.foldl (fun d w => Function.update d w.1 w.2) d

theorem replay_append (ws vs : List (ι × α)) (d : ι → α) :
    replay (ws ++ vs) d = replay vs (replay ws d) :=
  foldl_append

theorem replay_snoc (ws : List (ι × α)) (b : ι) (x : α) (d : ι → α) :
    replay (ws ++ [(b, x)]) d = Function.update (replay ws d) b x :=
  replay_append ..

/-- What the disk `d` owes to its log. -/
structure Owes (bs : List ι) (slot : Nat → ι) (home : ι → Prop) (d target : ι → α) : Prop where
  logged : ∀ t (h : t < bs.length), d (slot t) = target bs[t]
  outside : ∀ b, home b → b ∉ bs → d b = target b

namespace Owes

variable {bs : List ι} {slot : Nat → ι} {home : ι → Prop} {d target : ι → α}

omit [DecidableEq ι] in
/-- A log that lists no places owes nothing. -/
theorem nil_iff : Owes [] slot home d target ↔ ∀ b, home b → d b = target b := by
  constructor
  · intro h b hb
    exact h.outside b hb not_mem_nil
  · intro h
    exact ⟨fun t ht => absurd ht (Nat.not_lt_zero t), fun b hb _ => h b hb⟩

/-- Copying a slot to its place, where the places are at home and the slots are not. -/
theorem install (h : Owes bs slot home d target) (hbs : ∀ b ∈ bs, home b)
    (hslot : ∀ t, t < bs.length → ¬ home (slot t)) {t : Nat} (ht : t < bs.length) :
    Owes bs slot home (Function.update d bs[t] (d (slot t))) target where
  logged i hi := by
    have hne : slot i ≠ bs[t] := fun heq =>
      hslot i hi (heq ▸ hbs _ (getElem_mem ht))
    rw [Function.update_of_ne hne]
    exact h.logged i hi
  outside b hb hnot := by
    have hne : b ≠ bs[t] := fun heq => hnot (heq ▸ getElem_mem ht)
    rw [Function.update_of_ne hne]
    exact h.outside b hb hnot

/-- The places copied so far stay right. -/
theorem install_take (h : Owes bs slot home d target) {t : Nat} (ht : t < bs.length)
    (hdone : ∀ b ∈ bs.take t, d b = target b) :
    ∀ b ∈ bs.take (t + 1), Function.update d bs[t] (d (slot t)) b = target b := by
  intro b hb
  by_cases heq : b = bs[t]
  · rw [heq, Function.update_self, h.logged t ht]
  · rw [Function.update_of_ne heq]
    rw [take_succ_eq_append_getElem ht, mem_append, mem_singleton] at hb
    exact hdone b (hb.resolve_right heq)

theorem finish (h : Owes bs slot home d target) (hdone : ∀ b ∈ bs, d b = target b) :
    ∀ b, home b → d b = target b := by
  intro b hb
  by_cases hmem : b ∈ bs
  · exact hdone b hmem
  · exact h.outside b hb hmem

end Owes

end Xv6.Redo
