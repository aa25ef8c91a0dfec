import Mathlib.Data.List.Infix
import Mathlib.Tactic.Common

/-!
# Library - file trees with links

A tree tells what is at a location, which is a list of names from the root.  A path is a list of
steps, and walking along it follows the links on the way, up to a bound on their number.

Main results:

- Theorem {lit}`walk_append`: a walk goes on where its first part ends.
- Theorem {lit}`Extends.walk_found`: what is found stays found when entries are added.
- Theorem {lit}`walk_missing_parent`: what a walk misses is missing in a directory.
-/

namespace IdeMultiarch
namespace Library
namespace FileTree

variable {N C : Type}

/-! ## Trees -/

/-- A step of a path: a dot, two dots, or a name. -/
inductive Step (N : Type) where
  | here
  | up
  | into (name : N)
deriving DecidableEq, Repr

/-- Where a link leads: from the root, or from the directory that it is in. -/
structure Target (N : Type) where
  absolute : Bool
  steps : List (Step N)
deriving DecidableEq, Repr

/-- What is at a location. -/
inductive Node (N C : Type) where
  | directory
  | file (content : C)
  | link (target : Target N)
deriving DecidableEq, Repr

/-- A file tree. -/
abbrev Tree (N C : Type) := List N → Option (Node N C)

/-- Everything but the root is in a directory. -/
structure Closed (tree : Tree N C) : Prop where
  root : tree [] = some .directory
  parent : ∀ loc name, tree (loc ++ [name]) ≠ none → tree loc = some .directory

/-- One tree has all entries of another. -/
def Extends (tree tree' : Tree N C) : Prop :=
  ∀ loc node, tree loc = some node → tree' loc = some node

/-- A tree with an entry added. -/
def insert [DecidableEq N] (tree : Tree N C) (loc : List N) (node : Node N C) : Tree N C :=
  fun other => if other = loc then some node else tree other

/-! ## Walking -/

/-- The end of a walk: a location and the links that may still be followed, a location at which
only the last name is missing, or a failure. -/
inductive Outcome (N : Type) where
  | found (loc : List N) (links : Nat)
  | missing (loc : List N)
  | noEntry
  | notDirectory
  | tooManyLinks
deriving DecidableEq, Repr

section

variable (tree : Tree N C)

/-- A walk up to the next link. -/
def walkSteps (follow : List N → List (Step N) → Outcome N) (links : Nat) :
    List N → List (Step N) → Outcome N
  | loc, [] => .found loc links
  | loc, step :: steps =>
      match tree loc with
      | some .directory =>
          match step with
          | .here => walkSteps follow links loc steps
          | .up => walkSteps follow links loc.dropLast steps
          | .into name =>
              match tree (loc ++ [name]) with
              | none => if steps.isEmpty then .missing (loc ++ [name]) else .noEntry
              | some (.link target) =>
                  follow (if target.absolute then [] else loc) (target.steps ++ steps)
              | some _ => walkSteps follow links (loc ++ [name]) steps
      | _ => .notDirectory

/-- A walk from a location, on which a number of links may be followed. -/
def walk : Nat → List N → List (Step N) → Outcome N
  | 0 => walkSteps tree (fun _ _ => .tooManyLinks) 0
  | links + 1 => walkSteps tree (walk links) (links + 1)

end

/-- The end of a walk that goes on. -/
def Outcome.andThen (outcome : Outcome N) (next : Nat → List N → List (Step N) → Outcome N)
    (steps : List (Step N)) : Outcome N :=
  match outcome with
  | .found loc links => next links loc steps
  | .missing loc => if steps.isEmpty then .missing loc else .noEntry
  | .noEntry => .noEntry
  | .notDirectory => .notDirectory
  | .tooManyLinks => .tooManyLinks

/-- Nothing is there at the end of a walk. -/
def Outcome.Absent : Outcome N → Prop
  | .missing _ => True
  | .noEntry => True
  | _ => False

/-- Nothing that is made later helps a walk. -/
def Outcome.Failed : Outcome N → Prop
  | .notDirectory => True
  | .tooManyLinks => True
  | _ => False

section

variable {tree : Tree N C}

@[simp]
theorem walk_nil (links : Nat) (loc : List N) : walk tree links loc [] = .found loc links := by
  cases links <;> rfl

/-- Following a link uses up one of the links. -/
def followLink (tree : Tree N C) : Nat → List N → List (Step N) → Outcome N
  | 0, _, _ => .tooManyLinks
  | links + 1, loc, steps => walk tree links loc steps

/-- A walk step by step. -/
theorem walk_cons (links : Nat) (loc : List N) (step : Step N) (steps : List (Step N)) :
    walk tree links loc (step :: steps) =
      match tree loc with
      | some .directory =>
          match step with
          | .here => walk tree links loc steps
          | .up => walk tree links loc.dropLast steps
          | .into name =>
              match tree (loc ++ [name]) with
              | none => if steps.isEmpty then .missing (loc ++ [name]) else .noEntry
              | some (.link target) =>
                  followLink tree links (if target.absolute then [] else loc)
                    (target.steps ++ steps)
              | some _ => walk tree links (loc ++ [name]) steps
      | _ => .notDirectory := by
  cases links <;> rfl

/-- A walk from what is no directory fails. -/
theorem walk_notDirectory {loc : List N} (h : tree loc ≠ some .directory) (links : Nat)
    (step : Step N) (steps : List (Step N)) :
    walk tree links loc (step :: steps) = .notDirectory := by
  rw [walk_cons]
  split
  next hdirectory => exact absurd hdirectory h
  next => rfl

section

variable {loc : List N} (hloc : tree loc = some .directory) (links : Nat) (steps : List (Step N))
include hloc

theorem walk_here : walk tree links loc (.here :: steps) = walk tree links loc steps := by
  rw [walk_cons, hloc]

theorem walk_up : walk tree links loc (.up :: steps) = walk tree links loc.dropLast steps := by
  rw [walk_cons, hloc]

theorem walk_missing {name : N} (hname : tree (loc ++ [name]) = none) :
    walk tree links loc (.into name :: steps) =
      if steps.isEmpty then .missing (loc ++ [name]) else .noEntry := by
  rw [walk_cons, hloc]
  simp only [hname]

theorem walk_entry {name : N} {node : Node N C} (hname : tree (loc ++ [name]) = some node)
    (hnode : ∀ target, node ≠ .link target) :
    walk tree links loc (.into name :: steps) = walk tree links (loc ++ [name]) steps := by
  rw [walk_cons, hloc]
  cases node with
  | link target => exact absurd rfl (hnode target)
  | directory => simp only [hname]
  | file content => simp only [hname]

theorem walk_link {name : N} {target : Target N}
    (hname : tree (loc ++ [name]) = some (.link target)) :
    walk tree links loc (.into name :: steps) =
      followLink tree links (if target.absolute then [] else loc) (target.steps ++ steps) := by
  rw [walk_cons, hloc]
  simp only [hname]

end

/-- Induction along a walk: on the links that may be followed, and then on the steps. -/
theorem walk_induction (tree : Tree N C) {motive : Nat → List N → List (Step N) → Prop}
    (nil : ∀ links loc, motive links loc [])
    (notDirectory : ∀ links loc step steps, tree loc ≠ some .directory →
      motive links loc (step :: steps))
    (here : ∀ links loc steps, tree loc = some .directory → motive links loc steps →
      motive links loc (.here :: steps))
    (up : ∀ links loc steps, tree loc = some .directory → motive links loc.dropLast steps →
      motive links loc (.up :: steps))
    (missing : ∀ links loc name steps, tree loc = some .directory →
      tree (loc ++ [name]) = none → motive links loc (.into name :: steps))
    (noLinks : ∀ loc name target steps, tree loc = some .directory →
      tree (loc ++ [name]) = some (.link target) → motive 0 loc (.into name :: steps))
    (link : ∀ links loc name target steps, tree loc = some .directory →
      tree (loc ++ [name]) = some (.link target) →
        motive links (if target.absolute then [] else loc) (target.steps ++ steps) →
          motive (links + 1) loc (.into name :: steps))
    (entry : ∀ links loc name node steps, tree loc = some .directory →
      tree (loc ++ [name]) = some node → (∀ target, node ≠ .link target) →
        motive links (loc ++ [name]) steps → motive links loc (.into name :: steps))
    (links : Nat) (loc : List N) (steps : List (Step N)) : motive links loc steps := by
  induction links using Nat.strong_induction_on generalizing loc steps with
  | _ links hlinks =>
      induction steps generalizing loc with
      | nil => exact nil links loc
      | cons step steps ih =>
          by_cases hloc : tree loc = some .directory
          · cases step with
            | here => exact here links loc steps hloc (ih loc)
            | up => exact up links loc steps hloc (ih loc.dropLast)
            | into name =>
                cases hname : tree (loc ++ [name]) with
                | none => exact missing links loc name steps hloc hname
                | some node =>
                    cases node with
                    | link target =>
                        cases links with
                        | zero => exact noLinks loc name target steps hloc hname
                        | succ links =>
                            exact link links loc name target steps hloc hname
                              (hlinks links (Nat.lt_succ_self links) _ _)
                    | directory => exact entry links loc name _ steps hloc hname (by simp) (ih _)
                    | file content => exact entry links loc name _ steps hloc hname (by simp) (ih _)
          · exact notDirectory links loc step steps hloc

/-- A walk goes on where its first part ends. -/
theorem walk_append (links : Nat) (loc : List N) (steps more : List (Step N)) :
    walk tree links loc (steps ++ more) =
      (walk tree links loc steps).andThen (walk tree) more := by
  induction links, loc, steps using walk_induction tree with
  | nil links loc => rw [List.nil_append, walk_nil, Outcome.andThen]
  | notDirectory links loc step steps hloc =>
      rw [List.cons_append, walk_notDirectory hloc, walk_notDirectory hloc, Outcome.andThen]
  | here links loc steps hloc ih => rw [List.cons_append, walk_here hloc, walk_here hloc, ih]
  | up links loc steps hloc ih => rw [List.cons_append, walk_up hloc, walk_up hloc, ih]
  | missing links loc name steps hloc hname =>
      rw [List.cons_append, walk_missing hloc _ _ hname, walk_missing hloc _ _ hname]
      cases steps <;> rfl
  | noLinks loc name target steps hloc hname =>
      rw [List.cons_append, walk_link hloc _ _ hname, walk_link hloc _ _ hname]
      rfl
  | link links loc name target steps hloc hname ih =>
      rw [List.cons_append, walk_link hloc _ _ hname, walk_link hloc _ _ hname,
        ← List.append_assoc]
      exact ih
  | entry links loc name node steps hloc hname hnode ih =>
      rw [List.cons_append, walk_entry hloc _ _ hname hnode, walk_entry hloc _ _ hname hnode, ih]

/-- The first part of a walk that finds something finds something. -/
theorem walk_append_found {links links' : Nat} {loc loc' : List N} {steps more : List (Step N)}
    (h : walk tree links loc (steps ++ more) = .found loc' links') :
    ∃ middle left, walk tree links loc steps = .found middle left ∧
      walk tree left middle more = .found loc' links' := by
  rw [walk_append] at h
  cases hfirst : walk tree links loc steps with
  | found middle left =>
      rw [hfirst] at h
      exact ⟨middle, left, rfl, h⟩
  | missing middle =>
      rw [hfirst] at h
      simp only [Outcome.andThen] at h
      split at h <;> cases h
  | noEntry => simp [hfirst, Outcome.andThen] at h
  | notDirectory => simp [hfirst, Outcome.andThen] at h
  | tooManyLinks => simp [hfirst, Outcome.andThen] at h

/-- Where nothing is, nothing is below. -/
theorem absent_append {links : Nat} {loc : List N} {steps : List (Step N)}
    (h : (walk tree links loc steps).Absent) (more : List (Step N)) :
    (walk tree links loc (steps ++ more)).Absent := by
  rw [walk_append]
  cases hfirst : walk tree links loc steps with
  | missing middle =>
      rw [Outcome.andThen]
      split <;> trivial
  | noEntry => trivial
  | found middle left => simp [hfirst, Outcome.Absent] at h
  | notDirectory => simp [hfirst, Outcome.Absent] at h
  | tooManyLinks => simp [hfirst, Outcome.Absent] at h

/-- A walk whose first part fails fails. -/
theorem failed_append {links : Nat} {loc : List N} {steps : List (Step N)}
    (h : (walk tree links loc steps).Failed) (more : List (Step N)) :
    (walk tree links loc (steps ++ more)).Failed := by
  rw [walk_append]
  cases hfirst : walk tree links loc steps with
  | missing middle => simp [hfirst, Outcome.Failed] at h
  | noEntry => simp [hfirst, Outcome.Failed] at h
  | found middle left => simp [hfirst, Outcome.Failed] at h
  | notDirectory => trivial
  | tooManyLinks => trivial

/-- A walk finds something, or ends at a first step at which it does not. -/
theorem walk_cases (links : Nat) (loc : List N) (steps : List (Step N)) :
    (∃ loc' links', walk tree links loc steps = .found loc' links') ∨
      ∃ front step more middle left, steps = front ++ step :: more ∧
        walk tree links loc front = .found middle left ∧
        ((walk tree links loc (front ++ [step])).Absent ∨
          (walk tree links loc (front ++ [step])).Failed) := by
  induction steps using List.reverseRecOn with
  | nil => exact .inl ⟨loc, links, walk_nil links loc⟩
  | append_singleton steps step ih =>
      rcases ih with ⟨middle, left, hfound⟩ | ⟨front, step', more, middle, left, rfl, hwalk⟩
      · cases hlast : walk tree links loc (steps ++ [step]) with
        | found loc' links' => exact .inl ⟨loc', links', rfl⟩
        | missing _ =>
            exact .inr ⟨steps, step, [], middle, left, rfl, hfound, .inl (by rw [hlast]; trivial)⟩
        | noEntry =>
            exact .inr ⟨steps, step, [], middle, left, rfl, hfound, .inl (by rw [hlast]; trivial)⟩
        | notDirectory =>
            exact .inr ⟨steps, step, [], middle, left, rfl, hfound, .inr (by rw [hlast]; trivial)⟩
        | tooManyLinks =>
            exact .inr ⟨steps, step, [], middle, left, rfl, hfound, .inr (by rw [hlast]; trivial)⟩
      · exact .inr ⟨front, step', more ++ [step], middle, left, by simp, hwalk⟩

/-! ## Where walks end -/

/-- Nothing is at the end of a step: it is a name without an entry, or with a link that leads
nowhere. -/
theorem absent_step {links left : Nat} {loc middle : List N} {front : List (Step N)}
    {step : Step N} (hwalk : walk tree links loc front = .found middle left)
    (h : (walk tree links loc (front ++ [step])).Absent) :
    tree middle = some .directory ∧ ∃ name, step = .into name ∧
      (tree (middle ++ [name]) = none ∨
        ∃ target, tree (middle ++ [name]) = some (.link target)) := by
  rw [walk_append, hwalk, Outcome.andThen] at h
  by_cases hmiddle : tree middle = some .directory
  · refine ⟨hmiddle, ?_⟩
    cases step with
    | here =>
        rw [walk_here hmiddle, walk_nil] at h
        exact h.elim
    | up =>
        rw [walk_up hmiddle, walk_nil] at h
        exact h.elim
    | into name =>
        refine ⟨name, rfl, ?_⟩
        cases hname : tree (middle ++ [name]) with
        | none => exact .inl rfl
        | some node =>
            by_cases hnode : ∃ target, node = .link target
            · obtain ⟨target, rfl⟩ := hnode
              exact .inr ⟨target, rfl⟩
            · rw [walk_entry hmiddle _ _ hname fun target heq => hnode ⟨target, heq⟩, walk_nil] at h
              exact h.elim
  · rw [walk_notDirectory hmiddle] at h
    exact h.elim

/-- Everything above an entry is a directory. -/
theorem Closed.above (hclosed : Closed tree) {loc more : List N} (h : tree (loc ++ more) ≠ none)
    (hmore : more ≠ []) : tree loc = some .directory := by
  induction more using List.reverseRecOn with
  | nil => exact absurd rfl hmore
  | append_singleton more name ih =>
      rw [← List.append_assoc] at h
      have hparent := hclosed.parent _ _ h
      by_cases hnil : more = []
      · rwa [hnil, List.append_nil] at hparent
      · exact ih (by rw [hparent]; simp) hnil

/-- Nothing is below what is no directory. -/
theorem Closed.below (hclosed : Closed tree) {loc more : List N} (h : tree loc ≠ some .directory)
    (hmore : more ≠ []) : tree (loc ++ more) = none := by
  by_contra hne
  exact h (hclosed.above hne hmore)

/-- The names of an entry that is no link lead to it. -/
theorem Closed.walk_names (hclosed : Closed tree) {loc names : List N} {node : Node N C}
    (hnode : tree (loc ++ names) = some node) (hlink : ∀ target, node ≠ .link target)
    (links : Nat) : walk tree links loc (names.map .into) = .found (loc ++ names) links := by
  induction names generalizing loc with
  | nil => rw [List.map_nil, walk_nil, List.append_nil]
  | cons name names ih =>
      have hloc := hclosed.above (by rw [hnode]; simp) (List.cons_ne_nil name names)
      rw [List.append_cons] at hnode ⊢
      rw [List.map_cons]
      by_cases hnil : names = []
      · subst hnil
        rw [List.append_nil] at hnode
        rw [walk_entry hloc _ _ hnode hlink]
        exact ih (by rwa [List.append_nil])
      · have hname := hclosed.above (by rw [hnode]; simp) hnil
        rw [walk_entry hloc _ _ hname (by simp)]
        exact ih hnode

/-- The end of a walk, if it has one, is a location. -/
def Outcome.EndsAt (loc : List N) : Outcome N → Prop
  | .found other _ => other = loc
  | .missing other => other = loc
  | _ => True

/-- Where there are no links on the way, a walk along names ends at the location they tell. -/
theorem walk_endsAt {loc names : List N}
    (hlinks : ∀ inner target, inner <+: names → tree (loc ++ inner) ≠ some (.link target))
    (links : Nat) : (walk tree links loc (names.map .into)).EndsAt (loc ++ names) := by
  induction names generalizing loc with
  | nil =>
      rw [List.map_nil, walk_nil, List.append_nil]
      exact rfl
  | cons name names ih =>
      rw [List.map_cons]
      by_cases hloc : tree loc = some .directory
      · cases hname : tree (loc ++ [name]) with
        | none =>
            rw [walk_missing hloc _ _ hname]
            cases names with
            | nil => exact rfl
            | cons other names => trivial
        | some node =>
            have hnode : ∀ target, node ≠ .link target := by
              rintro target rfl
              exact hlinks [name] target (List.prefix_append [name] names) hname
            rw [walk_entry hloc _ _ hname hnode, List.append_cons]
            refine ih fun inner target hinner => ?_
            rw [List.append_assoc]
            exact hlinks (name :: inner) target ((List.prefix_cons_inj name).mpr hinner)
      · rw [walk_notDirectory hloc]
        trivial

/-- What is missing is missing in a directory. -/
theorem walk_missing_parent {links : Nat} {loc loc' : List N} {steps : List (Step N)}
    (h : walk tree links loc steps = .missing loc') :
    ∃ parent name, loc' = parent ++ [name] ∧ tree parent = some .directory ∧
      tree (parent ++ [name]) = none := by
  induction links, loc, steps using walk_induction tree with
  | nil links loc =>
      rw [walk_nil] at h
      cases h
  | notDirectory links loc step steps hdirectory =>
      rw [walk_notDirectory hdirectory] at h
      cases h
  | here links loc steps hdirectory ih =>
      rw [walk_here hdirectory] at h
      exact ih h
  | up links loc steps hdirectory ih =>
      rw [walk_up hdirectory] at h
      exact ih h
  | missing links loc name steps hdirectory hname =>
      rw [walk_missing hdirectory _ _ hname] at h
      split at h <;> cases h
      exact ⟨loc, name, rfl, hdirectory, hname⟩
  | noLinks loc name target steps hdirectory hname =>
      rw [walk_link hdirectory _ _ hname] at h
      cases h
  | link links loc name target steps hdirectory hname ih =>
      rw [walk_link hdirectory _ _ hname] at h
      exact ih h
  | entry links loc name node steps hdirectory hname hnode ih =>
      rw [walk_entry hdirectory _ _ hname hnode] at h
      exact ih h

/-- What is found stays found when entries are added. -/
theorem Extends.walk_found {tree' : Tree N C} (hextends : Extends tree tree')
    {links links' : Nat} {loc loc' : List N} {steps : List (Step N)}
    (h : walk tree links loc steps = .found loc' links') :
    walk tree' links loc steps = .found loc' links' := by
  induction links, loc, steps using walk_induction tree with
  | nil links loc =>
      rw [walk_nil] at h ⊢
      exact h
  | notDirectory links loc step steps hdirectory =>
      rw [walk_notDirectory hdirectory] at h
      cases h
  | here links loc steps hdirectory ih =>
      rw [walk_here hdirectory] at h
      rw [walk_here (hextends _ _ hdirectory)]
      exact ih h
  | up links loc steps hdirectory ih =>
      rw [walk_up hdirectory] at h
      rw [walk_up (hextends _ _ hdirectory)]
      exact ih h
  | missing links loc name steps hdirectory hname =>
      rw [walk_missing hdirectory _ _ hname] at h
      split at h <;> cases h
  | noLinks loc name target steps hdirectory hname =>
      rw [walk_link hdirectory _ _ hname] at h
      cases h
  | link links loc name target steps hdirectory hname ih =>
      rw [walk_link hdirectory _ _ hname] at h
      rw [walk_link (hextends _ _ hdirectory) _ _ (hextends _ _ hname)]
      exact ih h
  | entry links loc name node steps hdirectory hname hnode ih =>
      rw [walk_entry hdirectory _ _ hname hnode] at h
      rw [walk_entry (hextends _ _ hdirectory) _ _ (hextends _ _ hname) hnode]
      exact ih h

/-! ## Walks below a location -/

/-- Steps that do not climb above a location when they begin at a depth below it. -/
def StaysBelow : Nat → List (Step N) → Prop
  | _, [] => True
  | depth, .here :: steps => StaysBelow depth steps
  | 0, .up :: _ => False
  | depth + 1, .up :: steps => StaysBelow depth steps
  | depth, .into _ :: steps => StaysBelow (depth + 1) steps

/-- The names of a path without dots, where two dots take a name away. -/
def normalForm (names : List N) : List (Step N) → List N
  | [] => names
  | .here :: steps => normalForm names steps
  | .up :: steps => normalForm names.dropLast steps
  | .into name :: steps => normalForm (names ++ [name]) steps

/-- Steps that do not climb leave the names before them alone. -/
theorem normalForm_append {depth : Nat} {steps : List (Step N)} (base inner : List N)
    (hinner : inner.length = depth) (hstays : StaysBelow depth steps) :
    normalForm (base ++ inner) steps = base ++ normalForm inner steps := by
  induction steps generalizing inner depth with
  | nil => rfl
  | cons step steps ih =>
      cases step with
      | here => exact ih inner hinner hstays
      | up =>
          cases depth with
          | zero => exact hstays.elim
          | succ depth =>
              have hne : inner ≠ [] := by
                rintro rfl
                cases hinner
              rw [normalForm, normalForm, List.dropLast_append_of_ne_nil hne]
              exact ih inner.dropLast
                (by rw [List.length_dropLast, hinner, Nat.add_sub_cancel]) hstays
      | into name =>
          rw [normalForm, normalForm, List.append_assoc]
          exact ih (inner ++ [name])
            (by rw [List.length_append, hinner, List.length_singleton]) hstays

/-- Names do not climb. -/
theorem staysBelow_into (depth : Nat) (names : List N) : StaysBelow depth (names.map .into) := by
  induction names generalizing depth with
  | nil => trivial
  | cons name names ih => exact ih (depth + 1)

/-- A path of names is its own normal form. -/
theorem normalForm_into (start names : List N) :
    normalForm start (names.map .into) = start ++ names := by
  induction names generalizing start with
  | nil => exact (List.append_nil start).symm
  | cons name names ih =>
      rw [List.map_cons, normalForm, ih, List.append_assoc, List.singleton_append]

/-- Normalising a path in two parts. -/
theorem normalForm_concat (names : List N) (steps more : List (Step N)) :
    normalForm names (steps ++ more) = normalForm (normalForm names steps) more := by
  induction steps generalizing names with
  | nil => rfl
  | cons step steps ih => cases step <;> exact ih _

/-- The names in a normal form come from the path. -/
theorem mem_normalForm {names : List N} {steps : List (Step N)} {name : N}
    (h : name ∈ normalForm names steps) : name ∈ names ∨ .into name ∈ steps := by
  induction steps generalizing names with
  | nil => exact .inl h
  | cons step steps ih =>
      cases step with
      | here => exact (ih h).imp_right (List.mem_cons_of_mem _)
      | up =>
          rcases ih h with hmem | hmem
          · exact .inl (List.dropLast_subset names hmem)
          · exact .inr (List.mem_cons_of_mem _ hmem)
      | into other =>
          rcases ih h with hmem | hmem
          · rcases List.mem_append.mp hmem with hmem | hmem
            · exact .inl hmem
            · rw [List.mem_singleton.mp hmem]
              exact .inr List.mem_cons_self
          · exact .inr (List.mem_cons_of_mem _ hmem)

/-! ## New entries -/

/-- Where a path would make a new entry, for which a link at its end is not followed. -/
inductive Place (N : Type) where
  | free (loc : List N)
  | taken
  | failed
deriving DecidableEq, Repr

/-- The place for a new entry at the end of a path. -/
def place (tree : Tree N C) (links : Nat) (loc : List N) (steps : List (Step N)) : Place N :=
  match steps.getLast? with
  | none => .taken
  | some step =>
      match walk tree links loc steps.dropLast with
      | .found parent _ =>
          match tree parent, step with
          | some .directory, .into name =>
              if (tree (parent ++ [name])).isNone then .free (parent ++ [name]) else .taken
          | some .directory, _ => .taken
          | _, _ => .failed
      | _ => .failed

/-- A free place is in a directory. -/
theorem place_free {links : Nat} {loc loc' : List N} {steps : List (Step N)}
    (h : place tree links loc steps = .free loc') :
    ∃ parent name, loc' = parent ++ [name] ∧ tree parent = some .directory ∧
      tree (parent ++ [name]) = none := by
  unfold place at h
  split at h
  next => cases h
  next =>
    split at h
    next parent _ hwalk =>
      split at h
      next hparent _ =>
        split at h
        next hnone =>
          cases h
          exact ⟨parent, _, rfl, hparent, by simpa using hnone⟩
        next => cases h
      next => cases h
      next => cases h
    next => cases h

/-- The place at the end of a path, told by its last step. -/
theorem place_concat (links : Nat) (loc : List N) (steps : List (Step N)) (step : Step N) :
    place tree links loc (steps ++ [step]) =
      match walk tree links loc steps with
      | .found parent _ =>
          match tree parent, step with
          | some .directory, .into name =>
              if (tree (parent ++ [name])).isNone then .free (parent ++ [name]) else .taken
          | some .directory, _ => .taken
          | _, _ => .failed
      | _ => .failed := by
  rw [place, List.getLast?_concat, List.dropLast_concat]

section

variable {links links' : Nat} {loc parent : List N} {steps : List (Step N)}

theorem place_eq_free {name : N} (hwalk : walk tree links loc steps = .found parent links')
    (hparent : tree parent = some .directory) (hname : tree (parent ++ [name]) = none) :
    place tree links loc (steps ++ [.into name]) = .free (parent ++ [name]) := by
  rw [place_concat, hwalk]
  simp only [hparent, hname, Option.isNone_none, if_true]

theorem place_eq_taken {name : N} (hwalk : walk tree links loc steps = .found parent links')
    (hparent : tree parent = some .directory) (hname : tree (parent ++ [name]) ≠ none) :
    place tree links loc (steps ++ [.into name]) = .taken := by
  rw [place_concat, hwalk]
  simp only [hparent]
  rw [if_neg]
  simpa using hname

theorem place_notDirectory (hwalk : walk tree links loc steps = .found parent links')
    (hparent : tree parent ≠ some .directory) (step : Step N) :
    place tree links loc (steps ++ [step]) = .failed := by
  rw [place_concat, hwalk]
  dsimp only
  split
  next h => exact absurd h hparent
  next h _ => exact absurd h hparent
  next => rfl

theorem place_eq_failed (hwalk : ∀ parent links', walk tree links loc steps ≠ .found parent links')
    (step : Step N) : place tree links loc (steps ++ [step]) = .failed := by
  rw [place_concat]
  split
  next parent links' h => exact absurd h (hwalk parent links')
  next => rfl

/-- What exists is no free place. -/
theorem place_of_found (h : walk tree links loc steps = .found parent links') :
    place tree links loc steps = .taken := by
  rcases List.eq_nil_or_concat' steps with rfl | ⟨front, step, rfl⟩
  · rfl
  · obtain ⟨middle, left, hfront, hlast⟩ := walk_append_found h
    have hmiddle : tree middle = some .directory := by
      by_contra hne
      rw [walk_notDirectory hne] at hlast
      cases hlast
    rw [place_concat, hfront]
    simp only [hmiddle]
    cases step with
    | here => rfl
    | up => rfl
    | into name =>
        dsimp only
        rw [if_neg]
        intro hnone
        rw [walk_missing hmiddle _ _ (by simpa using hnone)] at hlast
        cases hlast

/-- What a walk finds at a free place. -/
theorem walk_of_place_free (h : place tree links loc steps = .free parent) :
    walk tree links loc steps = .missing parent := by
  rcases List.eq_nil_or_concat' steps with rfl | ⟨front, step, rfl⟩
  · cases h
  · rw [place_concat] at h
    split at h
    next middle left hwalk =>
      split at h
      next name hmiddle =>
        split at h
        next hnone =>
          cases h
          rw [walk_append, hwalk, Outcome.andThen,
            walk_missing hmiddle _ _ (Option.isNone_iff_eq_none.mp hnone)]
          rfl
        next => cases h
      next => cases h
      next => cases h
    next => cases h

end

/-- The part of a path that is there as directories, and the rest of it that is missing. -/
theorem exists_missing {tree : Tree N C} {base names : List N}
    (hbase : tree base = some .directory)
    (hnames : ∀ inner, inner <+: names →
      tree (base ++ inner) = some .directory ∨ tree (base ++ inner) = none) :
    ∃ front rest, names = front ++ rest ∧ tree (base ++ front) = some .directory ∧
      ∀ name, rest.head? = some name → tree (base ++ front ++ [name]) = none := by
  induction names using List.reverseRecOn with
  | nil => exact ⟨[], [], rfl, by rwa [List.append_nil], fun _ h => by cases h⟩
  | append_singleton names last ih =>
      obtain ⟨front, rest, rfl, hfront, hrest⟩ :=
        ih fun inner hinner => hnames inner (hinner.trans (List.prefix_append _ _))
      cases rest with
      | nil =>
          rw [List.append_nil] at hnames ⊢
          rcases hnames _ List.prefix_rfl with hlast | hlast
          · exact ⟨front ++ [last], [], (List.append_nil _).symm, hlast, fun _ h => by cases h⟩
          · refine ⟨front, [last], rfl, hfront, ?_⟩
            rintro _ ⟨rfl⟩
            rwa [List.append_assoc]
      | cons name rest =>
          exact ⟨front, name :: rest ++ [last], by simp, hfront,
            fun other hother => hrest other hother⟩

/-! ## Adding entries -/

variable [DecidableEq N]

theorem insert_self (tree : Tree N C) (loc : List N) (node : Node N C) :
    insert tree loc node loc = some node := by
  simp [insert]

theorem insert_of_ne (tree : Tree N C) {loc other : List N} (node : Node N C) (h : other ≠ loc) :
    insert tree loc node other = tree other := by
  simp [insert, h]

/-- An entry at a free location changes no other. -/
theorem extends_insert {loc : List N} (h : tree loc = none) (node : Node N C) :
    Extends tree (insert tree loc node) := by
  intro other node' hother
  rw [insert_of_ne]
  · exact hother
  · rintro rfl
    rw [h] at hother
    cases hother

/-- An entry in a directory keeps a tree closed. -/
theorem Closed.insert (hclosed : Closed tree) {parent : List N} {name : N}
    (hparent : tree parent = some .directory) (hname : tree (parent ++ [name]) = none)
    (node : Node N C) : Closed (FileTree.insert tree (parent ++ [name]) node) := by
  have hextends := extends_insert hname node
  refine ⟨hextends _ _ hclosed.root, fun loc other hother => hextends _ _ ?_⟩
  by_cases heq : loc ++ [other] = parent ++ [name]
  · rw [(List.append_inj' heq rfl).1]
    exact hparent
  · rw [insert_of_ne _ _ heq] at hother
    exact hclosed.parent loc other hother

/-- A tree with directories added, each in the one before. -/
def insertEach (tree : Tree N C) (loc : List N) : List N → Tree N C
  | [] => tree
  | name :: names =>
      insertEach (FileTree.insert tree (loc ++ [name]) .directory) (loc ++ [name]) names

/-- Other locations stay as they are. -/
theorem insertEach_of_ne {tree : Tree N C} {loc other names : List N}
    (h : ∀ inner, inner ≠ [] → inner <+: names → other ≠ loc ++ inner) :
    insertEach tree loc names other = tree other := by
  induction names generalizing tree loc with
  | nil => rfl
  | cons name names ih =>
      rw [insertEach, ih, insert_of_ne]
      · exact h [name] (List.cons_ne_nil _ _) (List.prefix_append [name] names)
      · intro inner _ hpre
        rw [List.append_assoc]
        exact h (name :: inner) (List.cons_ne_nil _ _) ((List.prefix_cons_inj name).mpr hpre)

/-- The directories that are added. -/
theorem insertEach_self {tree : Tree N C} {loc names inner : List N} (hinner : inner ≠ [])
    (hpre : inner <+: names) : insertEach tree loc names (loc ++ inner) = some .directory := by
  induction names generalizing tree loc inner with
  | nil => exact absurd (List.prefix_nil.mp hpre) hinner
  | cons name names ih =>
      cases inner with
      | nil => exact absurd rfl hinner
      | cons name' inner =>
          obtain ⟨rfl, hrest⟩ := List.cons_prefix_cons.mp hpre
          rw [insertEach]
          by_cases hnil : inner = []
          · subst hnil
            rw [insertEach_of_ne, insert_self]
            intro more hmore _ heq
            exact hmore (List.append_right_eq_self.mp heq.symm)
          · have hbelow := @ih (FileTree.insert tree (loc ++ [name']) .directory) (loc ++ [name'])
              inner hnil hrest
            rwa [List.append_assoc] at hbelow

/-- Directories at free locations keep a tree closed. -/
theorem Closed.insertEach {tree : Tree N C} (hclosed : Closed tree) {loc : List N}
    (hloc : tree loc = some .directory) {names : List N}
    (hfree : ∀ name, names.head? = some name → tree (loc ++ [name]) = none) :
    Closed (FileTree.insertEach tree loc names) := by
  induction names generalizing tree loc with
  | nil => exact hclosed
  | cons name names ih =>
      have hname := hfree name rfl
      refine ih (hclosed.insert hloc hname _) (insert_self _ _ _) fun other _ => ?_
      rw [insert_of_ne]
      · exact hclosed.below (by rw [hname]; simp) (List.cons_ne_nil _ _)
      · intro heq
        exact List.cons_ne_nil _ _ (List.append_right_eq_self.mp heq)

/-- Directories at free locations change no other. -/
theorem extends_insertEach {tree : Tree N C} (hclosed : Closed tree) {loc names : List N}
    (hfree : ∀ name, names.head? = some name → tree (loc ++ [name]) = none) :
    Extends tree (FileTree.insertEach tree loc names) := by
  intro other node hnode
  rw [insertEach_of_ne]
  · exact hnode
  · rintro inner hinner hpre rfl
    cases inner with
    | nil => exact hinner rfl
    | cons name inner =>
        obtain ⟨more, rfl⟩ := hpre
        have hname := hfree name rfl
        rw [List.append_cons] at hnode
        by_cases hnil : inner = []
        · rw [hnil, List.append_nil, hname] at hnode
          cases hnode
        · rw [hclosed.below (by rw [hname]; simp) hnil] at hnode
          cases hnode

/-- Below a base, the directories on the way to the last one that is added are there. -/
theorem insertEach_below {tree : Tree N C} (hclosed : Closed tree) {base front names : List N}
    (hfront : tree (base ++ front) = some .directory)
    (hfree : ∀ name, names.head? = some name → tree (base ++ front ++ [name]) = none)
    (inner : List N) :
    FileTree.insertEach tree (base ++ front) names (base ++ inner) =
      if inner <+: front ++ names then some .directory else tree (base ++ inner) := by
  have hextends := extends_insertEach hclosed hfree
  split
  next hpre =>
    rcases List.prefix_or_prefix_of_prefix hpre (List.prefix_append front names) with
      ⟨more, rfl⟩ | ⟨more, rfl⟩
    · by_cases hnil : more = []
      · rw [hnil, List.append_nil] at hfront
        exact hextends _ _ hfront
      · rw [← List.append_assoc] at hfront
        exact hextends _ _ (hclosed.above (by rw [hfront]; simp) hnil)
    · by_cases hnil : more = []
      · rw [hnil, List.append_nil]
        exact hextends _ _ hfront
      · rw [← List.append_assoc]
        exact insertEach_self hnil ((List.prefix_append_right_inj front).mp hpre)
  next hpre =>
    refine insertEach_of_ne fun more hmore hmorePre heq => hpre ?_
    rw [List.append_assoc] at heq
    rw [List.append_cancel_left heq]
    exact (List.prefix_append_right_inj front).mpr hmorePre

/-- A file that replaces a file keeps a tree closed. -/
theorem Closed.replace {tree : Tree N C} (hclosed : Closed tree) {loc : List N} {content : C}
    (hloc : tree loc = some (.file content)) (content' : C) :
    Closed (FileTree.insert tree loc (.file content')) := by
  have hdirectory : ∀ other, tree other = some .directory →
      FileTree.insert tree loc (.file content') other = some .directory := by
    intro other hother
    rw [insert_of_ne]
    · exact hother
    · rintro rfl
      rw [hloc] at hother
      cases hother
  refine ⟨hdirectory _ hclosed.root, fun other name hname => hdirectory _ ?_⟩
  by_cases heq : other ++ [name] = loc
  · exact hclosed.parent other name (by rw [heq, hloc]; simp)
  · rw [insert_of_ne _ _ heq] at hname
    exact hclosed.parent other name hname

end

end FileTree
end Library
end IdeMultiarch
