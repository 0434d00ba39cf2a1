import Mathlib.Data.List.Basic
import Xv6.Common.Bytes

/-!
# grep

`grep` reads into a buffer behind what is left there of a line, prints the whole lines that match,
and moves the rest to the front. After a read that leaves no newline in the buffer it starts over
with an empty one: what the buffer held is lost. If that does not happen, the output is that of the
whole text, however the reads cut it (`grep_prints_matching_lines`).
-/

namespace Xv6.User

open List
open Bytes (Byte)

def newline : Byte := 10

def ascii (c : Char) : Byte := .ofNat 8 c.toNat

/-- `strchr(s, c)` as an offset, where `s` is what memory holds from there on. -/
def strchr (c : Byte) : List Byte → Option Nat
  | [] => none
  | b :: s => if b = 0 then none else if b = c then some 0 else (strchr c s).map (· + 1)

/-- The string that starts here. -/
def cstring (s : List Byte) : List Byte := s.takeWhile (· ≠ 0)

/-! ## Regular expressions -/

def matchstar (here : List Byte → Bool) (c : Byte) : List Byte → Bool
  | [] => here []
  | b :: text => here (b :: text) || (b = c || c = ascii '.') && matchstar here c text

def matchhere : List Byte → List Byte → Bool
  | [], _ => true
  | [c], text =>
    if c = ascii '$' then text.isEmpty
    else
      match text with
      | [] => false
      | b :: _ => c = ascii '.' || c = b
  | c :: d :: re, text =>
    if d = ascii '*' then matchstar (matchhere re) c text
    else
      match text with
      | [] => false
      | b :: text => (c = ascii '.' || c = b) && matchhere (d :: re) text

/-- `match`. -/
def matchRe (re text : List Byte) : Bool :=
  match re with
  | [] => text.tails.any (matchhere [])
  | c :: re =>
    if c = ascii '^' then matchhere re text else text.tails.any (matchhere (c :: re))

/-! ## The loop -/

/-- `sizeof(buf)`. -/
def SIZE : Nat := 1024

/-- The lines from `p` on, at most `fuel` of them: the buffer, where the rest starts, and what has
been written. -/
def scan (pattern : List Byte) :
    Nat → List Byte → Nat → List (List Byte) → List Byte × Nat × List (List Byte)
  | 0, buf, p, out => (buf, p, out)
  | fuel + 1, buf, p, out =>
    match strchr newline (buf.drop p) with
    | none => (buf, p, out)
    | some d =>
      let buf' := buf.set (p + d) 0
      if matchRe pattern (cstring (buf'.drop p)) then
        let buf'' := buf'.set (p + d) newline
        scan pattern fuel buf'' (p + d + 1) (out ++ [(buf''.drop p).take (d + 1)])
      else scan pattern fuel buf' (p + d + 1) out

/-- The state of `grep`: the buffer and how much of it is in use, what is still to be read, what the
reads have returned and what has been written. -/
structure Grep where
  buf : List Byte
  m : Nat
  text : List Byte
  reads : List (List Byte)
  out : List (List Byte)

namespace Grep

def start (buf text : List Byte) : Grep := ⟨buf, 0, text, [], []⟩

/-- The body of the loop, after a read that returned `c`. -/
def round (pattern : List Byte) (g : Grep) (c : List Byte) : Grep :=
  let m := g.m + c.length
  let (buf, p, out) := scan pattern SIZE (g.buf.take g.m ++ c ++ 0 :: g.buf.drop (m + 1)) 0 g.out
  let m' := if p = 0 then 0 else m
  { text := g.text.drop c.length
    reads := g.reads ++ [c]
    out
    m := m' - p
    buf := if m' > 0 then (buf.drop p).take (m' - p) ++ buf.drop (m' - p) else buf }

end Grep

/-- `grep`, when the reads find `ks` bytes at hand. -/
def grep (pattern : List Byte) : List Nat → Grep → Grep
  | [], g => g
  | k :: ks, g =>
    let c := g.text.take (min k (SIZE - g.m - 1))
    if c = [] then g else grep pattern ks (g.round pattern c)

/-! ## Lines -/

/-- The text of these lines. -/
def unlines (lines : List (List Byte)) : List Byte := lines.flatMap (· ++ [newline])

/-- The lines that are to be written. -/
def matching (pattern : List Byte) (lines : List (List Byte)) : List (List Byte) :=
  (lines.filter (matchRe pattern)).map (· ++ [newline])

variable {pattern s t rest pre tail junk pend : List Byte} {lines : List (List Byte)}

theorem strchr_append {l : List Byte} (hl : newline ∉ l) (h0 : 0 ∉ l) :
    strchr newline (l ++ newline :: s) = some l.length := by
  induction l with
  | nil => rfl
  | cons b l ih =>
    rw [mem_cons, not_or] at hl h0
    rw [cons_append, strchr, if_neg (Ne.symm h0.1), if_neg (Ne.symm hl.1), ih hl.2 h0.2]
    rfl

theorem strchr_none (ht : newline ∉ t) (h0 : 0 ∉ t) : strchr newline (t ++ 0 :: s) = none := by
  induction t with
  | nil => rfl
  | cons b t ih =>
    rw [mem_cons, not_or] at ht h0
    rw [cons_append, strchr, if_neg (Ne.symm h0.1), if_neg (Ne.symm ht.1), ih ht.2 h0.2]
    rfl

theorem cstring_append (h0 : 0 ∉ t) : cstring (t ++ 0 :: s) = t := by
  have ht : ∀ b ∈ t, decide (b ≠ 0) = true := by
    intro b hb
    simp only [ne_eq, decide_eq_true_eq]
    rintro rfl
    exact h0 hb
  rw [cstring, takeWhile_append_of_pos ht, takeWhile_cons_of_neg (by simp),
    append_nil]

/-- The loop comes to the end of the last whole line and has written those that match. -/
theorem scan_lines (pattern pre junk : List Byte) (fuel : Nat) (out : List (List Byte))
    (hlines : ∀ l ∈ lines, newline ∉ l ∧ 0 ∉ l) (ht : newline ∉ tail) (h0 : 0 ∉ tail)
    (hfuel : lines.length ≤ fuel) :
    ∃ pre', pre'.length = pre.length + (unlines lines).length ∧
      scan pattern fuel (pre ++ (unlines lines ++ (tail ++ 0 :: junk))) pre.length out =
        (pre' ++ (tail ++ 0 :: junk), pre'.length, out ++ matching pattern lines) := by
  induction lines generalizing pre fuel out with
  | nil =>
    refine ⟨pre, rfl, ?_⟩
    cases fuel with
    | zero => simp [scan, matching, unlines]
    | succ fuel =>
      rw [unlines, flatMap_nil, nil_append, scan, drop_left, strchr_none ht h0]
      simp [matching]
  | cons l lines ih =>
    rw [length_cons] at hfuel
    obtain ⟨fuel, rfl⟩ : ∃ n, fuel = n + 1 := ⟨fuel - 1, by omega⟩
    obtain ⟨hl, hl0⟩ := hlines l mem_cons_self
    have hrest := fun l' hl' => hlines l' (mem_cons_of_mem l hl')
    have htext : unlines (l :: lines) ++ (tail ++ 0 :: junk) =
        l ++ newline :: (unlines lines ++ (tail ++ 0 :: junk)) := by simp [unlines]
    generalize hend : unlines lines ++ (tail ++ 0 :: junk) = text at htext
    have hset : ∀ a b : Byte, (pre ++ (l ++ a :: text)).set (pre.length + l.length) b =
        pre ++ (l ++ b :: text) := by
      intro a b
      rw [set_append_right _ _ (by omega), set_append_right _ _ (by omega)]
      simp
    -- the next round starts behind the newline, or the NUL in its place
    have hnext : ∀ (b : Byte) out', ∃ pre', pre'.length = pre.length + (unlines (l :: lines)).length ∧
        scan pattern fuel (pre ++ (l ++ b :: text)) (pre.length + l.length + 1) out' =
          (pre' ++ (tail ++ 0 :: junk), pre'.length, out' ++ matching pattern lines) := by
      intro b out'
      obtain ⟨pre', hlen, hscan⟩ :=
        ih (pre ++ l ++ [b]) fuel out' hrest (Nat.le_of_succ_le_succ hfuel)
      refine ⟨pre', by simp [hlen, unlines]; omega, ?_⟩
      rw [hend] at hscan
      simpa [Nat.add_assoc] using hscan
    rw [htext, scan, drop_left, strchr_append hl hl0]
    dsimp only
    rw [hset, drop_left, cstring_append hl0]
    split
    · next hmatch =>
      obtain ⟨pre', hlen, hscan⟩ := hnext newline (out ++ [l ++ [newline]])
      refine ⟨pre', hlen, ?_⟩
      rw [hset, drop_left, take_length_add_append]
      simpa [matching, hmatch] using hscan
    · next hmatch =>
      obtain ⟨pre', hlen, hscan⟩ := hnext 0 out
      exact ⟨pre', hlen, by simpa [matching, hmatch] using hscan⟩

/-! ## A text in pieces

The reads cut the text anywhere; a line may come in several of them. -/

/-- What a line may be, without its newline. -/
structure Line (l : List Byte) : Prop where
  newline : newline ∉ l
  nul : 0 ∉ l
  length_le : l.length ≤ 1022

theorem line_nil : Line [] := ⟨by simp, by simp, by simp⟩

theorem Line.left {l : List Byte} (h : Line (l ++ s)) : Line l where
  newline hl := h.newline (mem_append_left s hl)
  nul hl := h.nul (mem_append_left s hl)
  length_le := by
    have := h.length_le
    rw [length_append] at this
    omega

/-- A piece of a text is whole lines and a part of one. -/
theorem exists_lines (hlines : ∀ l ∈ lines, Line l) (h : unlines lines = t ++ rest) :
    ∃ ls ls' tail, lines = ls ++ ls' ∧ t = unlines ls ++ tail ∧ unlines ls' = tail ++ rest ∧
      Line tail := by
  induction lines generalizing t with
  | nil =>
    obtain ⟨rfl, rfl⟩ := append_eq_nil_iff.mp h.symm
    exact ⟨[], [], [], rfl, rfl, rfl, line_nil⟩
  | cons l lines ih =>
    have hcons : unlines (l :: lines) = l ++ newline :: unlines lines := by simp [unlines]
    have hl := hlines l mem_cons_self
    rcases append_eq_append_iff.mp (hcons.symm.trans h) with ⟨a, rfl, ha⟩ | ⟨a, rfl, -⟩
    · cases a with
      | nil => exact ⟨[], l :: lines, l, rfl, by simp [unlines], by simpa using h, hl⟩
      | cons b a =>
        obtain ⟨rfl, hlater⟩ := List.cons.inj ha
        obtain ⟨ls, ls', tail, rfl, rfl, hrest, htail⟩ :=
          ih (t := a) (fun l' hl' => hlines l' (mem_cons_of_mem l hl')) hlater
        exact ⟨l :: ls, ls', tail, rfl, by simp [unlines], hrest, htail⟩
    · exact ⟨[], _, t, rfl, rfl, h, hl.left⟩

theorem length_le_unlines (lines : List (List Byte)) : lines.length ≤ (unlines lines).length := by
  induction lines with
  | nil => exact Nat.zero_le _
  | cons l lines ih =>
    rw [unlines] at ih
    simp only [unlines, flatMap_cons, length_append, length_cons]
    omega

theorem newline_mem_unlines (h : lines ≠ []) : newline ∈ unlines lines := by
  obtain ⟨l, lines, rfl⟩ := exists_cons_of_ne_nil h
  simp [unlines]

/-- The buffer holds `pend`. -/
structure Grep.Holds (g : Grep) (pend : List Byte) : Prop where
  size : g.buf.length = SIZE
  count : g.m = pend.length
  take : g.buf.take g.m = pend

/-- After a read the matching lines are written and the rest is kept, if there is a whole line; if
there is none, everything is lost. -/
theorem Grep.Holds.round {g : Grep} {c : List Byte} {ls : List (List Byte)} (h : g.Holds pend)
    (pattern : List Byte) (hlines : ∀ l ∈ ls, Line l) (htail : Line tail)
    (ht : pend ++ c = unlines ls ++ tail) (hfit : (pend ++ c).length < SIZE) :
    (g.round pattern c).Holds (if ls = [] then [] else tail) ∧
      (g.round pattern c).out = g.out ++ matching pattern ls := by
  have hm : g.m + c.length = (unlines ls).length + tail.length := by
    rw [h.count, ← length_append, ht, length_append]
  have hpos := length_le_unlines ls
  rw [ht, length_append] at hfit
  obtain ⟨pre, hpre, hscan⟩ := scan_lines pattern []
    (g.buf.drop (g.m + c.length + 1)) SIZE g.out
    (fun l hl => ⟨(hlines l hl).newline, (hlines l hl).nul⟩) htail.newline htail.nul (by omega)
  rw [nil_append, ← append_assoc, ← ht, length_nil] at hscan
  rw [length_nil, Nat.zero_add] at hpre
  have hsize : (pre ++ (tail ++ 0 :: g.buf.drop (g.m + c.length + 1))).length = SIZE := by
    simp only [length_append, length_cons, length_drop, h.size]
    omega
  by_cases hls : ls = []
  · have hnone : pre.length = 0 := by
      rw [hpre, hls]
      rfl
    simp only [Grep.round, h.take, hscan, if_pos hnone, if_pos hls]
    exact ⟨⟨hsize, Nat.zero_sub _, by rw [Nat.zero_sub, take_zero]⟩, trivial⟩
  · have hne := length_pos_of_ne_nil hls
    have hrest : g.m + c.length - pre.length = tail.length := by omega
    simp only [Grep.round, h.take, hscan, if_neg (show ¬pre.length = 0 by omega), hrest,
      if_pos (show g.m + c.length > 0 by omega), drop_left, take_left', if_neg hls]
    refine ⟨⟨?_, rfl, ?_⟩, trivial⟩
    · simp only [length_append, length_drop] at hsize ⊢
      omega
    · exact take_left' rfl

/-- Of a text that starts within a line the rest is lines again. -/
theorem exists_later (hlines : ∀ l ∈ lines, Line l) (h : unlines lines = tail ++ rest)
    (htail : Line tail) (hne : tail ≠ []) :
    ∃ later, (∀ l ∈ later, Line l) ∧ unlines later = rest ∧
      (unlines later).length < (unlines lines).length := by
  have hless : rest.length < (unlines lines).length := by
    rw [h, length_append]
    exact Nat.lt_add_of_pos_left (length_pos_of_ne_nil hne)
  cases lines with
  | nil => exact absurd (append_eq_nil_iff.mp h.symm).1 hne
  | cons l lines =>
    have hl := hlines l mem_cons_self
    have hcons : unlines (l :: lines) = l ++ newline :: unlines lines := by simp [unlines]
    obtain ⟨a, hline, hrest⟩ : ∃ a, Line a ∧ rest = unlines (a :: lines) := by
      rcases append_eq_append_iff.mp (hcons.symm.trans h) with ⟨a, rfl, ha⟩ | ⟨a, rfl, ha⟩
      · cases a with
        | nil => exact ⟨[], line_nil, by simpa [unlines] using ha.symm⟩
        | cons b a =>
          obtain ⟨rfl, -⟩ := List.cons.inj ha
          exact absurd (by simp) htail.newline
      · refine ⟨a, ⟨fun hm => hl.newline (mem_append_right tail hm),
          fun hm => hl.nul (mem_append_right tail hm), ?_⟩, by simpa [unlines] using ha⟩
        have := hl.length_le
        rw [length_append] at this
        omega
    subst hrest
    exact ⟨a :: lines, by simpa using ⟨hline, fun l' hl' => hlines l' (mem_cons_of_mem l hl')⟩,
      rfl, hless⟩

/-- The lines that grep gets to see, and the reads, are the same for every pattern. It sees all lines
exactly if every read brings a newline. -/
theorem exists_seen {ks : List Nat} (hlines : ∀ l ∈ lines, Line l)
    (ht : unlines lines = pend ++ text) (hpend : Line pend) (hks : ∀ k ∈ ks, 0 < k)
    (hlong : text.length < ks.length) :
    ∃ seen reads, (unlines seen).length ≤ (unlines lines).length ∧
      (seen = lines ↔ ∀ c ∈ reads, newline ∈ c) ∧
      ∀ (pattern : List Byte) (g : Grep), g.Holds pend → g.text = text →
        (grep pattern ks g).text = [] ∧ (grep pattern ks g).reads = g.reads ++ reads ∧
          (grep pattern ks g).out = g.out ++ matching pattern seen := by
  induction ks generalizing text pend lines with
  | nil => cases hlong
  | cons k ks ih =>
    have hk := hks k mem_cons_self
    have hks' := fun k' hk' => hks k' (mem_cons_of_mem k hk')
    have hle := hpend.length_le
    have hsize : SIZE = 1024 := rfl
    generalize hc : text.take (min k (SIZE - pend.length - 1)) = c
    have hread : ∀ g : Grep, g.Holds pend → g.text = text →
        g.text.take (min k (SIZE - g.m - 1)) = c := by
      rintro g hg rfl
      rw [hg.count, hc]
    by_cases hnil : c = []
    · -- there is room, so a read that returns nothing is the end of the text
      rw [hnil, take_eq_nil_iff] at hc
      obtain rfl : text = [] := hc.resolve_left (by omega)
      rw [append_nil] at ht
      obtain rfl : lines = [] := by
        by_contra hne
        exact hpend.newline (ht ▸ newline_mem_unlines hne)
      refine ⟨[], [], le_rfl, by simp, fun pattern g hg htext => ?_⟩
      rw [grep, hread g hg htext, if_pos hnil]
      exact ⟨htext, (append_nil _).symm, (append_nil _).symm⟩
    · have hsplit : c ++ text.drop c.length = text :=
        prefix_iff_eq_append.mp (hc ▸ take_prefix _ _)
      have hfit : (pend ++ c).length < SIZE := by
        have := congrArg List.length hc
        rw [length_take] at this
        rw [length_append]
        omega
      have hpos := length_pos_of_ne_nil hnil
      have hshort : (text.drop c.length).length < text.length := by
        rw [← hsplit, drop_left, length_append]
        exact Nat.lt_add_of_pos_left hpos
      generalize text.drop c.length = rest at hsplit hshort
      rw [← hsplit, ← append_assoc] at ht
      obtain ⟨ls, ls', tail, rfl, hpiece, hrest, htail⟩ := exists_lines hlines ht
      have hround : ∀ pattern g, g.Holds pend → g.text = text →
          grep pattern (k :: ks) g = grep pattern ks (g.round pattern c) ∧
            (g.round pattern c).text = rest := by
        intro pattern g hg htext
        rw [grep, hread g hg htext, if_neg hnil]
        refine ⟨rfl, ?_⟩
        show g.text.drop c.length = rest
        rw [htext, ← hsplit, drop_left]
      by_cases hls : ls = []
      · subst hls
        have hc' : newline ∉ c := by
          intro hmem
          refine htail.newline ?_
          rw [← show pend ++ c = tail from hpiece]
          exact mem_append_right pend hmem
        have htail' : tail ≠ [] := by
          rintro rfl
          exact hnil (append_eq_nil_iff.mp hpiece).2
        obtain ⟨later, hlater, hlost, hless⟩ := exists_later hlines hrest htail htail'
        obtain ⟨seen, reads, hbound, -, hrun⟩ := ih hlater
          (show unlines later = [] ++ rest from hlost) line_nil hks'
          (Nat.lt_of_lt_of_le hshort (Nat.le_of_lt_succ hlong))
        refine ⟨seen, c :: reads, hbound.trans hless.le, iff_of_false ?_ ?_, ?_⟩
        · rintro rfl
          exact absurd hless (Nat.not_lt.mpr hbound)
        · exact fun hall => hc' (hall c mem_cons_self)
        · intro pattern g hg htext
          obtain ⟨hgrep, hrest'⟩ := hround pattern g hg htext
          obtain ⟨hholds, hout⟩ := hg.round pattern (by simp) htail hpiece hfit
          obtain ⟨hend, hreads, hall⟩ := hrun pattern _ hholds hrest'
          rw [hgrep, hreads, hall, hout]
          exact ⟨hend, by simp [Grep.round], by simp [matching]⟩
      · have hc' : newline ∈ c := by
          have hmem := mem_append_left tail (newline_mem_unlines hls)
          rw [← hpiece, mem_append] at hmem
          exact hmem.resolve_left hpend.newline
        obtain ⟨seen, reads, hbound, hiff, hrun⟩ := ih
          (fun l hl => hlines l (mem_append_right ls hl)) hrest htail hks'
          (Nat.lt_of_lt_of_le hshort (Nat.le_of_lt_succ hlong))
        refine ⟨ls ++ seen, c :: reads, ?_, ?_, ?_⟩
        · simp only [unlines, flatMap_append, length_append] at hbound ⊢
          omega
        · simp [hiff, hc']
        · intro pattern g hg htext
          obtain ⟨hgrep, hrest'⟩ := hround pattern g hg htext
          obtain ⟨hholds, hout⟩ := hg.round pattern
            (fun l hl => hlines l (mem_append_left ls' hl)) htail hpiece hfit
          rw [if_neg hls] at hholds
          obtain ⟨hend, hreads, hall⟩ := hrun pattern _ hholds hrest'
          rw [hgrep, hreads, hall, hout]
          exact ⟨hend, by simp [Grep.round], by simp [matching]⟩

/-- **What grep writes does not depend on how the reads cut the text exactly if each of them brings a
newline**: for every text of lines of at most 1022 characters without NUL it then writes the lines
that match, in order and once each, whatever the pattern. -/
theorem grep_prints_matching_lines {buf : List Byte} {ks : List Nat} (hbuf : buf.length = SIZE)
    (hlines : ∀ l ∈ lines, newline ∉ l ∧ 0 ∉ l ∧ l.length ≤ 1022) (hks : ∀ k ∈ ks, 0 < k)
    (hlong : (unlines lines).length < ks.length) :
    (∀ pattern, (grep pattern ks (.start buf (unlines lines))).text = [] ∧
      (grep pattern ks (.start buf (unlines lines))).out = matching pattern lines) ↔
    ∀ c ∈ (grep [] ks (.start buf (unlines lines))).reads, newline ∈ c := by
  have hstart : (Grep.start buf (unlines lines)).Holds [] := ⟨hbuf, rfl, rfl⟩
  obtain ⟨seen, reads, -, hall, hrun⟩ := exists_seen
    (fun l hl => ⟨(hlines l hl).1, (hlines l hl).2.1, (hlines l hl).2.2⟩) rfl
    line_nil hks hlong
  rw [(hrun [] _ hstart rfl).2.1]
  refine Iff.trans ⟨fun h => ?_, ?_⟩ hall
  · -- the empty pattern matches every line
    have hout := (hrun [] _ hstart rfl).2.2.symm.trans (h []).2
    have hempty : matchRe [] = fun _ => true := by
      funext l
      cases l <;> rfl
    simpa [matching, hempty, Grep.start, map_inj_right] using hout
  · rintro rfl pattern
    exact ⟨(hrun pattern _ hstart rfl).1, (hrun pattern _ hstart rfl).2.2⟩

/-- The text `ab`, newline, `c`, newline, read in two pieces, and the pattern `b`. -/
theorem two_lines_printed : (grep [98] [4, 9, 9, 9, 9, 9]
    (.start (List.replicate 1024 0) (unlines [[97, 98], [99]]))).out = [[97, 98, 10]] :=
  (((grep_prints_matching_lines length_replicate (by decide) (by decide) (by decide)).mpr
    (by decide +kernel)) [98]).2.trans (by decide)

/-- The first read of the text `abc`, newline, returns two bytes: the line is not written, though it
matches the pattern `a`. -/
theorem grep_drops_unfinished_line :
    matching [97] [[97, 98, 99]] = [[97, 98, 99, 10]] ∧
    (grep [97] [2, 2, 1] (.start (List.replicate 1024 0) (unlines [[97, 98, 99]]))).text = [] ∧
    (grep [97] [2, 2, 1] (.start (List.replicate 1024 0) (unlines [[97, 98, 99]]))).out = [] := by
  decide +kernel

end Xv6.User
