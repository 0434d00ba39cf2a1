import Mathlib.Data.List.TakeWhile
import Xv6.Fs.Syscall

/-!
# Paths

`skipelem` reads a path in memory byte by byte and copies one component after another into the same
buffer, where a name of `DIRSIZ` bytes or more has no final 0. What comes out are the non-empty
pieces of the path between slashes, each cut to `DIRSIZ` bytes, and `namex` follows these.
-/

namespace Xv6.Fs

open Bytes List

/-! ## In memory -/

/-- `while(*path == '/') path++;` where `path` is the memory from the pointer on. -/
def skipSlashes : List Byte → Option (List Byte)
  | [] => none
  | c :: path => if c = slash then skipSlashes path else some (c :: path)

/-- `while(*path != '/' && *path != 0) path++;` -/
def skipName : List Byte → Option (List Byte)
  | [] => none
  | c :: path => if c ≠ slash ∧ c ≠ 0 then skipName path else some (c :: path)

/-- The buffer after the `memmove`. -/
def copyName (name s : List Byte) (len : Nat) : List Byte :=
  if DIRSIZ ≤ len then s.take DIRSIZ ++ name.drop DIRSIZ
  else s.take len ++ 0 :: name.drop (len + 1)

/-- `skipelem` on memory, with the buffer `name`. It has no result if it reads on to the end. -/
def skipelemAt (path name : List Byte) : Option (Option (List Byte × List Byte)) := do
  let s ← skipSlashes path
  if s.head? = some 0 then return none
  else
    let path ← skipName s
    let name := copyName name s (s.length - path.length)
    return some (name, ← skipSlashes path)

/-- `skipelem` is called until there is no component left. Listed is what each call returns: the name
that the buffer holds, and the memory that the pointer points to. -/
inductive Splits : List Byte → List Byte → List (List Byte × List Byte) → Prop
  | done {path name} : skipelemAt path name = some none → Splits path name []
  | next {path name name' rest l} : skipelemAt path name = some (some (name', rest)) →
      Splits rest name' l → Splits path name ((cname name', rest) :: l)

variable {str junk : List Byte}

theorem skipSlashes_append (h0 : (0 : Byte) ∉ str) :
    skipSlashes (str ++ 0 :: junk) = some (str.dropWhile (· = slash) ++ 0 :: junk) := by
  induction str with
  | nil => rfl
  | cons c str ih =>
    rw [cons_append, skipSlashes]
    by_cases hc : c = slash
    · rw [if_pos hc, dropWhile_cons_of_pos (by simpa using hc)]
      apply ih
      exact fun hmem => h0 (mem_cons_of_mem _ hmem)
    · rw [if_neg hc, dropWhile_cons_of_neg (by simpa using hc), cons_append]

theorem skipName_append (junk : List Byte) (h0 : (0 : Byte) ∉ str) :
    skipName (str ++ 0 :: junk) = some (str.dropWhile (· ≠ slash) ++ 0 :: junk) := by
  induction str with
  | nil => rfl
  | cons c str ih =>
    rw [mem_cons, not_or] at h0
    rw [cons_append, skipName]
    by_cases hc : c = slash
    · rw [if_neg (fun h => h.1 hc), dropWhile_cons_of_neg (by simpa using hc), cons_append]
    · rw [if_pos ⟨hc, fun h => h0.1 h.symm⟩, dropWhile_cons_of_pos (by simpa using hc)]
      exact ih h0.2

section Copy

variable {w s name : List Byte} (hname : name.length = DIRSIZ)

include hname

theorem length_copyName : (copyName name (w ++ s) w.length).length = DIRSIZ := by
  unfold copyName
  split <;> simp only [length_append, length_take, length_cons, length_drop] <;>
    omega

/-- The buffer holds the name, cut to `DIRSIZ` bytes. -/
theorem cname_copyName (h0 : (0 : Byte) ∉ w) :
    cname (copyName name (w ++ s) w.length) = w.take DIRSIZ := by
  have hall : ∀ x ∈ w, x ≠ 0 := by
    intro x hx h
    exact h0 (h ▸ hx)
  unfold cname copyName
  split
  · next hlen =>
    rw [drop_of_length_le hname.le, append_nil, take_append_of_le_length hlen,
      take_take, Nat.min_self, takeWhile_eq_self_iff]
    intro x hx
    simpa using hall x (mem_of_mem_take hx)
  · next hlen =>
    rw [take_left, take_append, take_of_length_le (by omega),
      takeWhile_append_of_pos (by simpa using hall)]
    obtain ⟨k, hk⟩ : ∃ k, DIRSIZ - w.length = k + 1 := ⟨DIRSIZ - w.length - 1, by omega⟩
    rw [hk, take_succ_cons, takeWhile_cons_of_neg (by simp), append_nil]

end Copy

variable {name path : List Byte}

/-- On a terminated string, `skipelem` in memory returns what it returns on the list of bytes. -/
theorem skipelemAt_eq (junk : List Byte) (h0 : (0 : Byte) ∉ str) (hname : name.length = DIRSIZ) :
    skipelem str = none ∧ skipelemAt (str ++ 0 :: junk) name = some none ∨
      ∃ name' rest, skipelem str = some (cname name', rest) ∧
        skipelemAt (str ++ 0 :: junk) name = some (some (name', rest ++ 0 :: junk)) ∧
        name'.length = DIRSIZ ∧ (0 : Byte) ∉ rest := by
  have hsub : ∀ {p : Byte → Bool} {l : List Byte}, (0 : Byte) ∉ l → (0 : Byte) ∉ l.dropWhile p :=
    fun h hmem => h ((dropWhile_suffix _).subset hmem)
  have h1 := hsub (p := (· = slash)) h0
  unfold skipelem skipelemAt
  rw [skipSlashes_append h0]
  generalize str.dropWhile (· = slash) = s at h1
  by_cases hs : s = []
  · subst hs
    exact .inl ⟨rfl, rfl⟩
  · have hhead : (s ++ 0 :: junk).head? ≠ some 0 := by
      cases s with
      | nil => exact absurd rfl hs
      | cons c s =>
        intro h
        cases h
        exact h1 mem_cons_self
    -- `w` is the name and `t` the rest of the path, which begins with a slash
    have h2 := hsub (p := (· ≠ slash)) h1
    have hstart : s.takeWhile (· ≠ slash) <+: s := takeWhile_prefix _
    have hw0 : (0 : Byte) ∉ s.takeWhile (· ≠ slash) := fun hmem => h1 (hstart.subset hmem)
    have hsplit := takeWhile_append_dropWhile (p := (· ≠ slash)) (l := s)
    have hrun := skipName_append junk h1
    simp only [Option.bind_eq_bind, Option.bind_some, if_neg hhead, if_neg hs, hrun]
    generalize s.takeWhile (· ≠ slash) = w at *
    generalize s.dropWhile (· ≠ slash) = t at *
    rw [← hsplit, append_assoc, length_append, Nat.add_sub_cancel, skipSlashes_append h2]
    exact .inr ⟨copyName name (w ++ (t ++ 0 :: junk)) w.length, _,
      by rw [cname_copyName hname hw0], rfl, length_copyName hname, hsub h2⟩

/-! ## Components -/

/-- The non-empty pieces of a path between slashes, each cut to `DIRSIZ` bytes. -/
def components (path : List Byte) : List (List Byte) :=
  ((path.splitOn slash).filter (· ≠ [])).map (List.take DIRSIZ)

theorem components_nil : components [] = [] := rfl

theorem components_slash (path : List Byte) : components (slash :: path) = components path := by
  rw [components, components, splitOn_cons_eq_if_modifyHead, if_pos (by decide),
    filter_cons_of_neg (by simp)]

theorem components_dropWhile (path : List Byte) :
    components (path.dropWhile (· = slash)) = components path := by
  induction path with
  | nil => rfl
  | cons c path ih =>
    by_cases hc : c = slash
    · rw [dropWhile_cons_of_pos (by simpa using hc), ih, hc, components_slash]
    · rw [dropWhile_cons_of_neg (by simpa using hc)]

theorem head?_dropWhile {p : Byte → Bool} {l : List Byte} {c : Byte}
    (h : (l.dropWhile p).head? = some c) : p c = false := by
  have hnot := List.head?_dropWhile_not p l
  rw [h] at hnot
  simpa using hnot

/-- A path that begins with a name. -/
theorem components_cons {c : Byte} (hc : c ≠ slash) :
    components (c :: path) = ((c :: path).takeWhile (· ≠ slash)).take DIRSIZ ::
      components ((c :: path).dropWhile (· ≠ slash)) := by
  have hsplit := takeWhile_append_dropWhile (p := (· ≠ slash)) (l := c :: path)
  have hne : (c :: path).takeWhile (· ≠ slash) ≠ [] := by
    rw [takeWhile_cons_of_pos (by simpa using hc)]
    exact cons_ne_nil _ _
  have hslash : slash ∉ (c :: path).takeWhile (· ≠ slash) := by
    intro hmem
    simpa using mem_takeWhile_imp hmem
  have hhead : ∀ b, ((c :: path).dropWhile (· ≠ slash)).head? = some b → b = slash := by
    intro b hb
    simpa using head?_dropWhile hb
  generalize (c :: path).takeWhile (· ≠ slash) = w at *
  generalize (c :: path).dropWhile (· ≠ slash) = t at *
  rw [← hsplit]
  cases t with
  | nil =>
    rw [append_nil, components, splitOn_eq_singleton hslash,
      filter_cons_of_pos (by simpa using hne)]
    rfl
  | cons b t =>
    obtain rfl := hhead b rfl
    rw [components_slash, components, splitOn_append_cons_self_of_not_mem hslash,
      filter_cons_of_pos (by simpa using hne)]
    rfl

theorem skipelem_none (h : skipelem path = none) : components path = [] := by
  simp only [skipelem] at h
  split at h
  · next hnil => rw [← components_dropWhile, hnil, components_nil]
  · cases h

theorem skipelem_some {rest : List Byte} (h : skipelem path = some (name, rest)) :
    components path = name :: components rest ∧ rest.head? ≠ some slash ∧
      (rest = [] ↔ components rest = []) ∧ rest.length < path.length := by
  simp only [skipelem] at h
  split at h
  · cases h
  · next hne =>
    cases h
    have hle := (dropWhile_suffix (· = slash) (l := path)).length_le
    rw [← components_dropWhile path]
    cases hs : path.dropWhile (· = slash) with
    | nil => exact absurd hs hne
    | cons c s =>
      have hc : c ≠ slash := by
        simpa using head?_dropWhile (l := path) (p := (· = slash)) (by rw [hs]; rfl)
      rw [hs] at hle
      rw [components_cons hc, ← components_dropWhile ((c :: s).dropWhile _)]
      have hlt : ((c :: s).dropWhile (· ≠ slash)).length ≤ s.length := by
        rw [dropWhile_cons_of_pos (by simpa using hc)]
        exact (dropWhile_suffix _).length_le
      have hdrop := (dropWhile_suffix (· = slash) (l := (c :: s).dropWhile (· ≠ slash))).length_le
      have hhead : (((c :: s).dropWhile (· ≠ slash)).dropWhile (· = slash)).head? ≠ some slash := by
        intro hslash
        simpa using head?_dropWhile hslash
      refine ⟨rfl, hhead, ⟨fun hnil => by rw [hnil, components_nil], fun hnil => ?_⟩, ?_⟩
      · generalize ((c :: s).dropWhile (· ≠ slash)).dropWhile (· = slash) = rest at hhead hnil
        cases rest with
        | nil => rfl
        | cons b rest =>
          rw [components_cons fun hb => hhead (congrArg some hb)] at hnil
          cases hnil
      · rw [length_cons] at hle
        omega

/-! ## Following a path -/

section Namex

variable {P : Type} (sb : Superblock)

/-- Where `namex` starts: at the root directory, or at the current directory of process `p`. -/
def namexStart (p : P) (path : List Byte) : M P (Fin NINODE) := do
  let s ← get
  if path.head? = some slash then iget ROOTINO
  else match s.cwd p with
    | some cwd => idup cwd
    | none => panic

/-- From directory `ip`, whose reference is given up, to the inode it has under `name`. -/
def namexStep (ip : Fin NINODE) (name : List Byte) : M P (Option (Fin NINODE)) := do
  ilock ip
  let s ← get
  if (s.inode ip).din.type ≠ .dir then
    iput sb ip
    return none
  else
    match ← dirlookup sb ip name with
    | none =>
      iput sb ip
      return none
    | some (_, next) =>
      iput sb ip
      return some next

/-- Follow all of `names` from `ip`. -/
def follow (ip : Fin NINODE) : List (List Byte) → M P (Option (Fin NINODE))
  | [] => return some ip
  | name :: names => do
    match ← namexStep sb ip name with
    | none => return none
    | some next => follow next names

/-- Follow all of `names` but the last, to a directory, and return it with the last. -/
def followParent (ip : Fin NINODE) (names : List (List Byte)) :
    M P (Option (Fin NINODE × List Byte)) := do
  match names.getLast? with
  | none =>
    iput sb ip
    return none
  | some last =>
    match ← follow sb ip names.dropLast with
    | none => return none
    | some dp =>
      ilock dp
      let s ← get
      if (s.inode dp).din.type ≠ .dir then
        iput sb dp
        return none
      else return some (dp, last)

variable {sb}

/-- A round of the loop, unless it stops at the last name. -/
theorem namexLoop_step {parent : Bool} {fuel : Nat} {ip : Fin NINODE} {path name rest : List Byte}
    (hskip : skipelem path = some (name, rest)) (hstop : ¬ (parent = true ∧ rest = [])) :
    namexLoop (P := P) sb parent (fuel + 1) ip path = (do
      match ← namexStep sb ip name with
      | none => return none
      | some next => namexLoop sb parent fuel next rest) := by
  rw [namexLoop, hskip]
  simp only [namexStep, bind_assoc, if_neg hstop]
  refine bind_congr fun _ => bind_congr fun s => ?_
  split
  · simp
  · simp only [bind_assoc]
    refine bind_congr fun r => ?_
    cases r <;> simp

section Loop

variable {fuel : Nat} {ip : Fin NINODE} {path : List Byte} (hfuel : path.length < fuel)

include hfuel

theorem namexLoop_false : namexLoop (P := P) sb false fuel ip path =
    (return (← follow sb ip (components path)).map (·, [])) := by
  induction fuel generalizing ip path with
  | zero => exact absurd hfuel (Nat.not_lt_zero _)
  | succ fuel ih =>
    cases hskip : skipelem path with
    | none =>
      rw [namexLoop, hskip, skipelem_none hskip]
      simp [follow]
    | some r =>
      obtain ⟨hcomp, -, -, hlt⟩ := skipelem_some hskip
      rw [namexLoop_step hskip (by simp), hcomp]
      simp only [follow, bind_assoc]
      refine bind_congr fun next => ?_
      cases next with
      | none => simp
      | some next => exact ih (by omega)

theorem namexLoop_true :
    namexLoop (P := P) sb true fuel ip path = followParent sb ip (components path) := by
  induction fuel generalizing ip path with
  | zero => exact absurd hfuel (Nat.not_lt_zero _)
  | succ fuel ih =>
    cases hskip : skipelem path with
    | none =>
      rw [namexLoop, hskip, skipelem_none hskip]
      rfl
    | some r =>
      obtain ⟨hcomp, -, hlast, hlt⟩ := skipelem_some hskip
      rw [hcomp]
      by_cases hrest : r.2 = []
      · -- the last name: the loop stops at the directory it is in
        rw [hlast.mp hrest, namexLoop, hskip]
        simp [followParent, follow, hrest]
      · obtain ⟨c, cs, hcs⟩ := exists_cons_of_ne_nil (mt hlast.mpr hrest)
        obtain ⟨last, hlast'⟩ : ∃ last, (c :: cs).getLast? = some last :=
          ⟨_, List.getLast?_eq_some_getLast (cons_ne_nil c cs)⟩
        rw [namexLoop_step hskip fun h => hrest h.2, hcs, followParent, List.getLast?_cons_cons,
          dropLast_cons_cons, hlast']
        simp only [follow, bind_assoc]
        refine bind_congr fun next => ?_
        cases next with
        | none => simp
        | some next =>
          have hnext := @ih next r.2 (by omega)
          rw [hcs, followParent, hlast'] at hnext
          exact hnext

end Loop

end Namex

/-! ## The whole path -/

/-- The calls of `skipelem` on a terminated string come to an end and return its components. -/
theorem exists_splits {name : List Byte} (h0 : (0 : Byte) ∉ str) (hname : name.length = DIRSIZ) :
    ∃ l, Splits (str ++ 0 :: junk) name l ∧ l.map Prod.fst = components str ∧
      ∀ i (hi : i < l.length), l[i].2.head? ≠ some slash ∧
        (l[i].2.head? = some 0 ↔ i + 1 = l.length) := by
  induction hn : str.length using Nat.strong_induction_on generalizing str name with
  | h n ih =>
    obtain ⟨hskip, hrun⟩ | ⟨name', rest, hskip, hrun, hname', h0'⟩ :=
      skipelemAt_eq junk h0 hname
    · exact ⟨[], .done hrun, (skipelem_none hskip).symm, fun i hi => absurd hi (Nat.not_lt_zero i)⟩
    · obtain ⟨hcomp, hslash, hlast, hlt⟩ := skipelem_some hskip
      obtain ⟨l, hsplits, hnames, hl⟩ := ih _ (hn ▸ hlt) h0' hname' rfl
      refine ⟨_, .next hrun hsplits, by rw [hcomp, ← hnames]; rfl, fun i hi => ?_⟩
      cases i with
      | zero =>
        rw [← hnames, map_eq_nil_iff] at hlast
        show (rest ++ 0 :: junk).head? ≠ some slash ∧
          ((rest ++ 0 :: junk).head? = some 0 ↔ 0 + 1 = l.length + 1)
        cases rest with
        | nil =>
          rw [hlast.mp rfl]
          exact ⟨fun hc => absurd (Option.some.inj hc) (by decide), iff_of_true rfl rfl⟩
        | cons c rest =>
          refine ⟨hslash, iff_of_false (fun hc => ?_) fun hlen => ?_⟩
          · cases hc
            exact h0' mem_cons_self
          · have hnil : l = [] := length_eq_zero_iff.mp (by omega)
            cases hlast.mpr hnil
      | succ i =>
        obtain ⟨hne, hiff⟩ := hl i (by simpa using hi)
        exact ⟨hne, hiff.trans (by simp)⟩

/-- **A path is its components.** On every terminated string, `skipelem` called again and again comes
to an end and returns the components of the path in order, each in the buffer; the rest never starts
with a slash, and it is empty exactly after the last. So `namex` follows all components, or all but
the last, which it returns, and fails if there is none. -/
theorem path_is_components {name : List Byte} (h0 : (0 : Byte) ∉ str)
    (hname : name.length = DIRSIZ) {P : Type} (sb : Superblock) (p : P) :
    (∃ l, Splits (str ++ 0 :: junk) name l ∧ l.map Prod.fst = components str ∧
      ∀ i (hi : i < l.length), l[i].2.head? ≠ some slash ∧
        (l[i].2.head? = some 0 ↔ i + 1 = l.length)) ∧
    namex sb p false str = (do
      let ip ← namexStart p str
      return (← follow sb ip (components str)).map (·, [])) ∧
    namex sb p true str = (do
      let ip ← namexStart p str
      followParent sb ip (components str)) := by
  have hstart : ∀ parent, namex sb p parent str =
      (do let ip ← namexStart p str; namexLoop sb parent (str.length + 1) ip str) := by
    intro parent
    simp only [namex, namexStart, bind_assoc]
    refine bind_congr fun s => ?_
    split
    · rfl
    · cases s.cwd p <;> rfl
  refine ⟨exists_splits h0 hname, ?_, ?_⟩
  · rw [hstart]
    exact bind_congr fun ip => namexLoop_false (Nat.lt_succ_self _)
  · rw [hstart]
    exact bind_congr fun ip => namexLoop_true (Nat.lt_succ_self _)

/-- The path `/a//bb/`, and bytes that are in the buffer and in memory already. -/
theorem slashed_path_is_components :
    ∃ l, Splits ([47, 97, 47, 47, 98, 98, 47] ++ 0 :: [99]) (List.replicate 14 99) l ∧
      l.map Prod.fst = [[97], [98, 98]] :=
  (path_is_components (by decide) (by decide) Superblock.mkfs ()).1.imp fun _ h =>
    ⟨h.1, h.2.1.trans (by decide)⟩

end Xv6.Fs
