import Mathlib.Data.List.TakeWhile
import Mathlib.Tactic.Common

/-!
# Pty - finding a program

The function {lit}`pfind` of {lit}`pfind.c` looks for a program in the directories of {lit}`PATH`.
Whether a file may be executed is given from outside.

Main results:

- Theorem {lit}`search_eq`: the loop tries the directories of {lit}`PATH` that are not empty.
- Theorem {lit}`pfind_eq_some`: what is found is the first executable candidate.
-/

namespace IdeMultiarch
namespace Pty

/-- The bytes of a C string, without the last one. -/
abbrev Bytes := List UInt8

def slash : UInt8 := 0x2F
def dot : UInt8 := 0x2E
def colon : UInt8 := 0x3A

/-- {lit}`PATH_MAX` of Linux. -/
def PATH_MAX : Nat := 4096

/-- {lit}`"PATH="` -/
def PATH_DEF : Bytes := [0x50, 0x41, 0x54, 0x48, 0x3D]

/-! ## The search -/

/-- {lit}`path_val`: without an environment that of the process counts. -/
def path_val (envp : Option (List Bytes)) (getenv : Option Bytes) : Option Bytes :=
  match envp with
  | none => getenv
  | some [] => getenv
  | some envp => (envp.find? fun p => PATH_DEF.isPrefixOf p).map fun p => p.drop PATH_DEF.length

/-- {lit}`strtok_r`: the next token and what comes after the delimiter that ends it. -/
def strtok_r (s : Bytes) : Option (Bytes × Bytes) :=
  let s := s.dropWhile fun c => c == colon
  if s = [] then none
  else some (s.takeWhile fun c => c != colon, (s.dropWhile fun c => c != colon).drop 1)

/-- {lit}`snprintf(fullpath, sizeof(fullpath) - 1, "%s/%s", tok, name)` -/
def fullpath (name tok : Bytes) : Bytes :=
  (tok ++ slash :: name).take (PATH_MAX - 1)

/-- The name is a path of its own. -/
def isPath (name : Bytes) : Bool :=
  name.head? == some slash || name.head? == some dot

/-- A token is not empty, so less is left after it. -/
theorem strtok_r_length {s tok rest : Bytes} (h : strtok_r s = some (tok, rest)) :
    rest.length < s.length := by
  unfold strtok_r at h
  dsimp only at h
  split at h
  · cases h
  next hne =>
    cases h
    have hskip := (List.dropWhile_suffix (l := s) fun c => c == colon).length_le
    have hpos := List.length_pos_iff.mpr hne
    have hcut := (List.dropWhile_suffix (l := s.dropWhile fun c => c == colon)
      fun c => c != colon).length_le
    rw [List.length_drop]
    omega

/-- The loop of {lit}`pfind`, from what is left of the path. -/
def search (access : Bytes → Bool) (name s : Bytes) : Option Bytes :=
  match _h : strtok_r s with
  | none => none
  | some (tok, rest) =>
      if access (fullpath name tok) then some (fullpath name tok) else search access name rest
termination_by s.length
decreasing_by exact strtok_r_length _h

/-- {lit}`pfind` -/
def pfind (access : Bytes → Bool) (name : Option Bytes) (envp : Option (List Bytes))
    (getenv : Option Bytes) : Option Bytes :=
  match name with
  | none => none
  | some name =>
      if isPath name then if access name then some name else none
      else
        match path_val envp getenv with
        | none => none
        | some path => if path = [] then none else search access name path

/-! ## What is found -/

/-- The directories of {lit}`PATH` that are not empty. -/
def directories (path : Bytes) : List Bytes :=
  (path.splitOn colon).filter fun dir => dir ≠ []

theorem directories_append (xs rest : Bytes) :
    directories (xs ++ colon :: rest) = directories xs ++ directories rest := by
  unfold directories
  have hsplit := List.splitOnP_append_cons (p := fun c => c == colon) xs rest
    (beq_self_eq_true colon)
  rw [List.splitOn, hsplit, List.filter_append]
  rfl

/-- Delimiters at the front make empty directories only. -/
theorem directories_skip (s : Bytes) :
    directories (s.dropWhile fun c => c == colon) = directories s := by
  induction s with
  | nil => rfl
  | cons c s ih =>
      by_cases hc : c = colon
      · rw [List.dropWhile_cons_of_pos (by simp [hc]), ih, hc]
        exact (directories_append [] s).symm
      · rw [List.dropWhile_cons_of_neg (by simp [hc])]

/-- A token is a directory of its own. -/
theorem directories_token {tok : Bytes} (hne : tok ≠ []) (hname : ∀ c ∈ tok, (c == colon) = false) :
    directories tok = [tok] := by
  unfold directories
  rw [List.splitOn, List.splitOnP_eq_singleton hname]
  simp [hne]

/-- {lit}`strtok_r` takes the first directory off. -/
theorem directories_strtok_r {s tok rest : Bytes} (h : strtok_r s = some (tok, rest)) :
    directories s = tok :: directories rest := by
  unfold strtok_r at h
  dsimp only at h
  split at h
  · cases h
  next hne =>
    cases h
    rw [← directories_skip s]
    generalize hskip : s.dropWhile (fun c => c == colon) = u at hne ⊢
    have hname : ∀ c ∈ u.takeWhile (fun c => c != colon), (c == colon) = false := by
      intro c hc
      have hne := List.mem_takeWhile_imp hc
      simpa using hne
    have htok : u.takeWhile (fun c => c != colon) ≠ [] := by
      cases u with
      | nil => exact absurd rfl hne
      | cons c u =>
          have hfirst : (c == colon) = false := by
            have hhead := List.head_dropWhile_not (l := s) (fun c => c == colon) (by rw [hskip]; simp)
            simpa [hskip] using hhead
          rw [List.takeWhile_cons_of_pos (by simpa using hfirst)]
          exact List.cons_ne_nil _ _
    have hsplit := List.takeWhile_append_dropWhile (p := fun c => c != colon) (l := u)
    cases hrest : u.dropWhile (fun c => c != colon) with
    | nil =>
        rw [hrest, List.append_nil] at hsplit
        have hwhole := directories_token htok hname
        rw [hsplit] at hwhole
        rw [hwhole, hsplit]
        rfl
    | cons c rest =>
        have hcolon : c = colon := by
          have hhead := List.head_dropWhile_not (l := u) (fun c => c != colon) (by rw [hrest]; simp)
          simpa [hrest] using hhead
        rw [hrest, hcolon] at hsplit
        conv_lhs => rw [← hsplit]
        rw [directories_append, directories_token htok hname]
        rfl

/-- The loop tries the directories that are not empty, in their order. -/
theorem search_eq (access : Bytes → Bool) (name s : Bytes) :
    search access name s = (directories s).findSome? fun dir =>
      if access (fullpath name dir) then some (fullpath name dir) else none := by
  induction s using search.induct access name with
  | case1 s hnone =>
      have hdone : directories s = [] := by
        unfold strtok_r at hnone
        dsimp only at hnone
        split at hnone
        next hnil => rw [← directories_skip s, hnil]; rfl
        next => cases hnone
      rw [search.eq_def]
      split
      next => rw [hdone]; rfl
      next hsome => rw [hnone] at hsome; cases hsome
  | case2 s tok rest hsome hfound =>
      rw [search.eq_def, directories_strtok_r hsome]
      split
      next hnone => rw [hsome] at hnone; cases hnone
      next heq =>
        rw [hsome] at heq
        cases heq
        rw [List.findSome?_cons, if_pos hfound, if_pos hfound]
  | case3 s tok rest hsome hnot ih =>
      rw [search.eq_def, directories_strtok_r hsome]
      split
      next hnone => rw [hsome] at hnone; cases hnone
      next heq =>
        rw [hsome] at heq
        cases heq
        rw [List.findSome?_cons, if_neg hnot, if_neg hnot]
        exact ih

section Search

variable {access : Bytes → Bool} {name path : Bytes} {envp : Option (List Bytes)}
variable {getenv : Option Bytes}

theorem findSome?_access {ι : Type*} (candidate : ι → Bytes) {dirs : List ι} {p : Bytes} :
    (dirs.findSome? fun dir => if access (candidate dir) then some (candidate dir) else none) =
        some p ↔
      ∃ before dir after, dirs = before ++ dir :: after ∧
        (∀ dir' ∈ before, access (candidate dir') = false) ∧ access (candidate dir) = true ∧
        p = candidate dir := by
  have hnone : ∀ dir, (if access (candidate dir) = true then some (candidate dir) else none) = none ↔
      access (candidate dir) = false := by
    intro dir
    cases access (candidate dir) <;> simp
  have hsome : ∀ dir, (if access (candidate dir) = true then some (candidate dir) else none) =
      some p ↔ access (candidate dir) = true ∧ p = candidate dir := by
    intro dir
    cases access (candidate dir) <;> simp [eq_comm]
  rw [List.findSome?_eq_some_iff]
  constructor
  · rintro ⟨before, dir, after, hdirs, hfound, hbefore⟩
    obtain ⟨haccess, hp⟩ := (hsome dir).mp hfound
    exact ⟨before, dir, after, hdirs, fun dir' hdir' => (hnone dir').mp (hbefore dir' hdir'),
      haccess, hp⟩
  · rintro ⟨before, dir, after, hdirs, hbefore, haccess, hp⟩
    exact ⟨before, dir, after, hdirs, (hsome dir).mpr ⟨haccess, hp⟩,
      fun dir' hdir' => (hnone dir').mpr (hbefore dir' hdir')⟩

/-- A name that is not a path is looked for in the directories of {lit}`PATH`. -/
theorem pfind_search (hpath : isPath name = false) :
    pfind access (some name) envp getenv = (path_val envp getenv).bind fun path =>
      (directories path).findSome? fun dir =>
        if access (fullpath name dir) then some (fullpath name dir) else none := by
  unfold pfind
  dsimp only
  rw [hpath, if_neg Bool.false_ne_true]
  cases path_val envp getenv with
  | none => rfl
  | some path =>
      dsimp only
      rw [Option.bind_some]
      split
      next hnil => rw [hnil]; rfl
      next => exact search_eq access name path

/-- What is found is the name itself, if it begins with a slash or a dot, or else the first
executable candidate in the directories of {lit}`PATH` that are not empty. -/
theorem pfind_eq_some (access : Bytes → Bool) (name : Bytes) (envp : Option (List Bytes))
    (getenv : Option Bytes) (p : Bytes) :
    pfind access (some name) envp getenv = some p ↔
      (isPath name = true ∧ access name = true ∧ p = name) ∨
        (isPath name = false ∧ ∃ path, path_val envp getenv = some path ∧
          ∃ before dir after, directories path = before ++ dir :: after ∧
            (∀ dir' ∈ before, access (fullpath name dir') = false) ∧
            access (fullpath name dir) = true ∧ p = fullpath name dir) := by
  by_cases hpath : isPath name = true
  · have hdirect : pfind access (some name) envp getenv =
        if access name then some name else none := if_pos hpath
    rw [hdirect]
    constructor
    · intro hfound
      split at hfound
      next haccess => exact Or.inl ⟨hpath, haccess, (Option.some.inj hfound).symm⟩
      next => cases hfound
    · rintro (⟨-, haccess, rfl⟩ | ⟨hnot, -⟩)
      · rw [if_pos haccess]
      · rw [hpath] at hnot
        cases hnot
  · rw [Bool.not_eq_true] at hpath
    rw [pfind_search hpath, Option.bind_eq_some_iff]
    constructor
    · rintro ⟨path, hval, hfound⟩
      exact Or.inr ⟨hpath, path, hval, (findSome?_access (fullpath name)).mp hfound⟩
    · rintro (⟨htrue, -⟩ | ⟨-, path, hval, hfound⟩)
      · rw [hpath] at htrue
        cases htrue
      · exact ⟨path, hval, (findSome?_access (fullpath name)).mpr hfound⟩

end Search

end Pty
end IdeMultiarch
