import IdeMultiarch.Library.FileTree
import IdeMultiarch.Library.WeakestPre
import IdeMultiarch.Packaging.Tar

/-!
# Packaging - paths and files of the Java runtime

What the Java runtime does with paths, directories and links, after its documentation, over a file
tree with links.  Next to the tree, the model keeps a list of all locations at which something was
made.

Main results:

- Theorem {lit}`createDirectories_absent`: on which way directories are made for a path.
- Theorem {lit}`createDirectories_below`: which directories are made for a path that does not climb.
- Theorem {lit}`createDirectories_failed`: for a path that fails nothing is made.
-/

namespace IdeMultiarch
namespace Packaging

open Library (run_bind_of_run)
open Library.FileTree

/-! ## The disk -/

/-- A file: its bytes, and whether it may be executed. -/
structure FileContent where
  data : Bytes
  executable : Bool
deriving DecidableEq, Repr

/-- The disk, and the locations of what was made on it. -/
structure Disk where
  tree : Tree Name FileContent
  created : List (List Name)

/-- A program that changes the disk; when it fails, the disk stays as it is then. -/
abbrev Extraction := StateT Disk (Except (Failure × Disk))

/-- An exception. -/
def fail {α : Type} (failure : Failure) : Extraction α := do
  let disk ← get
  throw (failure, disk)

/-- An exception of the Java runtime. -/
def failWith {α : Type} (exception : String) : Extraction α :=
  fail (.runtimeException (str exception))

/-- The disk after something was made. -/
def Disk.add (disk : Disk) (loc : List Name) (node : Node Name FileContent) : Disk where
  tree := insert disk.tree loc node
  created := disk.created ++ [loc]

/-- The disk after a file got other content. -/
def Disk.replace (disk : Disk) (loc : List Name) (content : FileContent) : Disk :=
  { disk with tree := insert disk.tree loc (.file content) }

@[simp]
theorem Disk.add_tree (disk : Disk) (loc : List Name) (node : Node Name FileContent) :
    (disk.add loc node).tree = insert disk.tree loc node :=
  rfl

@[simp]
theorem Disk.replace_tree (disk : Disk) (loc : List Name) (content : FileContent) :
    (disk.replace loc content).tree = insert disk.tree loc (.file content) :=
  rfl

/-- Something is made at a free location. -/
def create (loc : List Name) (node : Node Name FileContent) : Extraction Unit :=
  modify fun disk => disk.add loc node

/-! ## Paths -/

/-- {lit}`Path` -/
structure JavaPath where
  absolute : Bool
  names : List Name
deriving DecidableEq, Repr

/-- {lit}`Path.of` for a text without zero characters: several slashes count as one, and a slash at
the end does not count. -/
def parsePath (text : Name) : JavaPath where
  absolute := text.head? == some '/'
  names := (text.splitOn '/').filter fun name => name ≠ []

/-- {lit}`Path.of` -/
def pathOf (text : Name) : Extraction JavaPath :=
  if '\x00' ∈ text then failWith "InvalidPathException" else pure (parsePath text)

/-- What the operating system does for a name in a path. -/
def stepOf (name : Name) : Step Name :=
  if name = str "." then .here
  else if name = str ".." then .up
  else .into name

/-- The number of links that the operating system follows on a path. -/
def MAXSYMLINKS : Nat := 40

/-- What is at an absolute path. -/
def look (tree : Tree Name FileContent) (names : List Name) : Outcome Name :=
  walk tree MAXSYMLINKS [] (names.map stepOf)

/-- Where something new would be made at an absolute path. -/
def placeOf (tree : Tree Name FileContent) (names : List Name) : Place Name :=
  place tree MAXSYMLINKS [] (names.map stepOf)

/-- {lit}`normalize` on an absolute path -/
def normalize (names : List Name) : List Name :=
  normalForm [] (names.map stepOf)

/-- {lit}`hasDotOrDotDot` -/
def hasDots (names : List Name) : Bool :=
  names.any fun name => name == str "." || name == str ".."

/-- The number of names that two paths begin with alike. -/
def commonLength : List Name → List Name → Nat
  | a :: as, b :: bs => if a = b then commonLength as bs + 1 else 0
  | _, _ => 0

/-- The names from one absolute path to another, when there are no dots in them. -/
def relativizePlain (base child : List Name) : List Name :=
  let common := commonLength base child
  List.replicate (base.length - common) (str "..") ++ child.drop common

/-- {lit}`relativize` on absolute paths -/
def relativize (base child : List Name) : List Name :=
  if hasDots base || hasDots child then relativizePlain (normalize base) (normalize child)
  else relativizePlain base child

/-! ## Files -/

section

variable (tree : Tree Name FileContent) (names : List Name)

/-- {lit}`Files.exists` -/
def fileExists : Bool :=
  match look tree names with
  | .found _ _ => true
  | _ => false

/-- {lit}`Files.isDirectory` -/
def isDirectory : Bool :=
  match look tree names with
  | .found loc _ => tree loc == some .directory
  | _ => false

/-- {lit}`Files.isSymbolicLink` -/
def isSymbolicLink : Bool :=
  match names.getLast?.map stepOf, look tree names.dropLast with
  | some (.into name), .found parent _ =>
      match tree (parent ++ [name]) with
      | some (.link _) => true
      | _ => false
  | _, _ => false

end

/-- What {lit}`createDirectory` answers. -/
inductive Made where
  | ok
  | alreadyExists
  | failed
deriving DecidableEq, Repr

/-- {lit}`Files.createDirectory` -/
def createDirectory (names : List Name) : Extraction Made := do
  let disk ← get
  match placeOf disk.tree names with
  | .free loc => do
      create loc .directory
      return .ok
  | .taken => return .alreadyExists
  | .failed => return .failed

section

variable (followsLinks : Bool)

/-- {lit}`createAndCheckIsDirectory`, which takes a link to a directory for a directory in newer
runtimes only. -/
def createAndCheckIsDirectory (names : List Name) : Extraction Made := do
  match ← createDirectory names with
  | .ok => return .ok
  | .failed => return .failed
  | .alreadyExists =>
      let disk ← get
      if isDirectory disk.tree names && (followsLinks || !isSymbolicLink disk.tree names) then
        return .ok
      else return .alreadyExists

/-- {lit}`createAndCheckIsDirectory` where its exceptions are not caught. -/
def requireDirectory (names : List Name) : Extraction Unit := do
  match ← createAndCheckIsDirectory followsLinks names with
  | .ok => return ()
  | .alreadyExists => failWith "FileAlreadyExistsException"
  | .failed => failWith "FileSystemException"

/-- The nearest parent of a path that exists, among those with at most a number of names: the loop
of {lit}`createDirectories` around {lit}`checkAccess`. -/
def existingParent (names : List Name) : Nat → Extraction (List Name)
  | 0 => do
      let disk ← get
      match look disk.tree [] with
      | .found _ _ => return []
      | _ => failWith "FileSystemException"
  | count + 1 => do
      let disk ← get
      match look disk.tree (names.take (count + 1)) with
      | .found _ _ => return names.take (count + 1)
      | .missing _ => existingParent names count
      | .noEntry => existingParent names count
      | _ => failWith "FileSystemException"

/-- The directories below a path, one after the other. -/
def createEach (child : List Name) : List Name → Extraction Unit
  | [] => return ()
  | name :: names => do
      requireDirectory followsLinks (child ++ [name])
      createEach (child ++ [name]) names

/-- {lit}`Files.createDirectories` -/
def createDirectories (names : List Name) : Extraction Unit := do
  match ← createAndCheckIsDirectory followsLinks names with
  | .ok => return ()
  | .alreadyExists => failWith "FileAlreadyExistsException"
  | .failed => do
      let parent ← existingParent names (names.length - 1)
      match relativize parent names with
      | [] => requireDirectory followsLinks parent
      | name :: rest => createEach followsLinks parent (name :: rest)

end

/-- {lit}`Files.createSymbolicLink` -/
def createSymbolicLink (names : List Name) (target : JavaPath) : Extraction Unit := do
  let disk ← get
  if target.absolute = false ∧ target.names = [] then failWith "NoSuchFileException"
  else
    match placeOf disk.tree names with
    | .free loc => create loc (.link ⟨target.absolute, target.names.map stepOf⟩)
    | .taken => failWith "FileAlreadyExistsException"
    | .failed => failWith "FileSystemException"

/-- {lit}`Files.newOutputStream`, and the bytes that are written to it. -/
def writeFile (names : List Name) (data : Bytes) : Extraction Unit := do
  let disk ← get
  match look disk.tree names with
  | .found loc _ =>
      match disk.tree loc with
      | some (.file content) =>
          set (disk.replace loc { content with data })
      | _ => failWith "FileSystemException"
  | .missing loc => create loc (.file ⟨data, false⟩)
  | _ => failWith "FileSystemException"

/-! ## Paths in the tree -/

section

variable {tree : Tree Name FileContent} {front rest names : List Name} {name : Name}

/-- A name that is no dots leads into a directory. -/
theorem stepOf_eq_into {name : Name} (h : name ≠ str "." ∧ name ≠ str "..") :
    stepOf name = .into name := by
  rw [stepOf, if_neg h.1, if_neg h.2]

/-- A step into a directory is the name itself. -/
theorem eq_of_stepOf {name name' : Name} (h : stepOf name = .into name') : name' = name := by
  unfold stepOf at h
  split at h
  next => cases h
  next =>
    split at h
    next => cases h
    next =>
      cases h
      rfl

/-- The names of a normalised path have no dots. -/
theorem stepOf_of_mem_normalForm {names : List Name} {name : Name}
    (h : name ∈ normalForm [] (names.map stepOf)) : stepOf name = .into name := by
  rcases mem_normalForm h with hmem | hmem
  · cases hmem
  · obtain ⟨name', -, hstep⟩ := List.mem_map.mp hmem
    have heq := eq_of_stepOf hstep
    rwa [← heq] at hstep

/-- Names that are no dots are steps into directories. -/
theorem map_stepOf {names : List Name} (h : ∀ name ∈ names, stepOf name = .into name) :
    names.map stepOf = names.map .into :=
  List.map_congr_left h

theorem stepOf_of_hasDots {names : List Name} (h : hasDots names = false) :
    ∀ name ∈ names, stepOf name = .into name := by
  intro name hname
  have hdots := List.any_eq_false.mp h name hname
  simp only [Bool.or_eq_true, beq_iff_eq, not_or] at hdots
  exact stepOf_eq_into hdots

theorem commonLength_append (base more : List Name) :
    commonLength base (base ++ more) = base.length := by
  induction base with
  | nil => cases more <;> rfl
  | cons name base ih => rw [List.cons_append, commonLength, if_pos rfl, ih, List.length_cons]

theorem relativizePlain_append (base more : List Name) :
    relativizePlain base (base ++ more) = more := by
  simp only [relativizePlain, commonLength_append, Nat.sub_self, List.drop_left]
  rfl

/-- What is left of a path below a parent, when its names do not climb. -/
theorem relativize_below (hname : stepOf name = .into name)
    (hstays : StaysBelow 0 (rest.map stepOf)) :
    relativize front (front ++ name :: rest) = name :: normalForm [] (rest.map stepOf) := by
  unfold relativize
  split
  next =>
    have hnormal : normalize (front ++ name :: rest) =
        normalize front ++ name :: normalForm [] (rest.map stepOf) := by
      have hrest := normalForm_append (normalize front ++ [name]) [] rfl hstays
      rw [List.append_nil, List.append_assoc] at hrest
      rw [normalize, List.map_append, normalForm_concat, List.map_cons, hname, normalForm]
      exact hrest
    rw [hnormal, relativizePlain_append]
  next hdots =>
    have hrest : hasDots rest = false := by
      simp only [Bool.or_eq_true, not_or, Bool.not_eq_true, hasDots, List.any_append,
        List.any_cons] at hdots ⊢
      exact hdots.2.2.2
    rw [relativizePlain_append, map_stepOf (stepOf_of_hasDots hrest), normalForm_into]
    rfl

/-- A name that leads into a directory is followed by such names only. -/
def ClimbsFirst (names : List Name) : Prop :=
  names.Pairwise fun name later => stepOf name = .into name → stepOf later = .into later

theorem climbsFirst_plain {names : List Name} (hnames : ∀ name ∈ names, stepOf name = .into name)
    (count : Nat) : ClimbsFirst (List.replicate count (str "..") ++ names) := by
  have hdots : stepOf (str "..") ≠ .into (str "..") := by decide
  refine List.pairwise_append.mpr ⟨?_, ?_, ?_⟩
  · exact List.pairwise_replicate.mpr (.inr fun h => absurd h hdots)
  · exact List.Pairwise.imp_of_mem (fun _ hlater _ _ => hnames _ hlater)
      (List.pairwise_of_forall fun _ _ => trivial)
  · intro name _ later hlater _
    exact hnames later hlater

/-- The way from one path to another climbs at its beginning only. -/
theorem relativize_climbsFirst (base child : List Name) :
    ClimbsFirst (relativize base child) := by
  unfold relativize
  split
  next =>
    exact climbsFirst_plain (fun name hname => stepOf_of_mem_normalForm (List.mem_of_mem_drop hname)) _
  next hdots =>
    simp only [Bool.or_eq_true, not_or, Bool.not_eq_true] at hdots
    exact climbsFirst_plain
      (fun name hname => stepOf_of_hasDots hdots.2 name (List.mem_of_mem_drop hname)) _

/-- Looking along a path goes on where its first part ends. -/
theorem look_append (front rest : List Name) :
    look tree (front ++ rest) = (look tree front).andThen (walk tree) (rest.map stepOf) := by
  rw [look, List.map_append, walk_append]
  rfl

/-- A path exists, or there is a first name on it at which nothing is found. -/
theorem look_cases (tree : Tree Name FileContent) (names : List Name) :
    (∃ loc links, look tree names = .found loc links) ∨
      ∃ front name rest loc links, names = front ++ name :: rest ∧
        look tree front = .found loc links ∧
        ((look tree (front ++ [name])).Absent ∨ (look tree (front ++ [name])).Failed) := by
  rcases @walk_cases _ _ tree MAXSYMLINKS [] (names.map stepOf) with
    hfound | ⟨front, step, more, loc, links, hsteps, hfront, hblocked⟩
  · exact .inl hfound
  · obtain ⟨front, more, rfl, rfl, hmore⟩ := List.map_eq_append_iff.mp hsteps
    obtain ⟨name, rest, rfl, rfl, rfl⟩ := List.map_eq_cons_iff.mp hmore
    refine .inr ⟨front, name, rest, loc, links, rfl, hfront, ?_⟩
    rwa [look, List.map_append]

theorem look_absent_append (h : (look tree front).Absent) (rest : List Name) :
    (look tree (front ++ rest)).Absent := by
  rw [look, List.map_append]
  exact absent_append h _

theorem look_failed_append (h : (look tree front).Failed) (rest : List Name) :
    (look tree (front ++ rest)).Failed := by
  rw [look, List.map_append]
  exact failed_append h _

/-- The first name on a path at which nothing is found. -/
theorem front_unique {front' rest' : List Name} {name' : Name} {loc loc' : List Name}
    {links links' : Nat} (hsplit : front ++ name :: rest = front' ++ name' :: rest')
    (hfound : look tree front = .found loc links)
    (habsent : (look tree (front ++ [name])).Absent)
    (hfound' : look tree front' = .found loc' links')
    (habsent' : (look tree (front' ++ [name'])).Absent) : front = front' := by
  rcases List.append_eq_append_iff.mp hsplit with ⟨more, rfl, hmore⟩ | ⟨more, rfl, hmore⟩
  · cases more with
    | nil => exact (List.append_nil front).symm
    | cons other more =>
        obtain ⟨rfl, -⟩ := List.cons_eq_cons.mp hmore
        have hlater := look_absent_append habsent more
        rw [List.append_assoc, List.singleton_append, hfound'] at hlater
        exact hlater.elim
  · cases more with
    | nil => exact List.append_nil front'
    | cons other more =>
        obtain ⟨rfl, -⟩ := List.cons_eq_cons.mp hmore
        have hlater := look_absent_append habsent' more
        rw [List.append_assoc, List.singleton_append, hfound] at hlater
        exact hlater.elim

/-- What is found stays found when entries are added. -/
theorem look_extends {tree' : Tree Name FileContent} (hextends : Extends tree tree')
    {loc : List Name} {links : Nat} (h : look tree front = .found loc links) :
    look tree' front = .found loc links :=
  hextends.walk_found h

/-- An entry that is no link is found below the location of its parent. -/
theorem look_below (hclosed : Closed tree) {loc : List Name} {links : Nat}
    (hfound : look tree front = .found loc links)
    (hnames : ∀ name ∈ names, stepOf name = .into name)
    {node : Node Name FileContent} (hnode : tree (loc ++ names) = some node)
    (hlink : ∀ target, node ≠ .link target) :
    look tree (front ++ names) = .found (loc ++ names) links := by
  rw [look_append, hfound, Outcome.andThen, map_stepOf hnames]
  exact hclosed.walk_names hnode hlink links

/-- The names of an entry that is no link lead to it. -/
theorem look_names (hclosed : Closed tree) (hnames : ∀ name ∈ names, stepOf name = .into name)
    {node : Node Name FileContent} (hnode : tree names = some node)
    (hlink : ∀ target, node ≠ .link target) : look tree names = .found names MAXSYMLINKS := by
  have hroot : look tree [] = .found [] MAXSYMLINKS := walk_nil _ _
  exact look_below hclosed hroot hnames hnode hlink

/-- A directory is no link. -/
theorem isSymbolicLink_directory (hclosed : Closed tree)
    (hnames : ∀ name ∈ names, stepOf name = .into name)
    (hdirectory : tree names = some .directory) :
    isSymbolicLink tree names = false := by
  rcases List.eq_nil_or_concat' names with rfl | ⟨parent, name, rfl⟩
  · rfl
  · have hparent := hclosed.parent parent name (by rw [hdirectory]; simp)
    have hfound := look_names hclosed (fun other hother =>
      hnames other (List.mem_append_left _ hother)) hparent (by simp)
    have hname := hnames name (List.mem_append_right _ (List.mem_singleton.mpr rfl))
    simp only [isSymbolicLink, List.getLast?_concat, Option.map_some, hname, List.dropLast_concat,
      hfound, hdirectory]

theorem placeOf_concat (front : List Name) (name : Name) :
    placeOf tree (front ++ [name]) =
      place tree MAXSYMLINKS [] (front.map stepOf ++ [stepOf name]) := by
  rw [placeOf, List.map_append]
  rfl

section

variable {loc : List Name} {links : Nat} (hfound : look tree front = .found loc links)
include hfound

theorem placeOf_free (hloc : tree loc = some .directory) (hname : stepOf name = .into name)
    (hnone : tree (loc ++ [name]) = none) :
    placeOf tree (front ++ [name]) = .free (loc ++ [name]) := by
  rw [placeOf_concat, hname]
  exact place_eq_free hfound hloc hnone

theorem placeOf_taken (hloc : tree loc = some .directory) (hname : stepOf name = .into name)
    (hnone : tree (loc ++ [name]) ≠ none) : placeOf tree (front ++ [name]) = .taken := by
  rw [placeOf_concat, hname]
  exact place_eq_taken hfound hloc hnone

/-- A free place is in the directory where the path before it ends. -/
theorem of_placeOf_free {other : List Name} (hplace : placeOf tree (front ++ [name]) = .free other) :
    tree loc = some .directory ∧ stepOf name = .into name ∧ tree (loc ++ [name]) = none ∧
      other = loc ++ [name] := by
  have hmissing := walk_of_place_free hplace
  have habsent : (walk tree MAXSYMLINKS [] (front.map stepOf ++ [stepOf name])).Absent := by
    rw [List.map_append] at hmissing
    rw [List.map_cons, List.map_nil] at hmissing
    rw [hmissing]
    trivial
  obtain ⟨hloc, name', hname, -⟩ := absent_step hfound habsent
  obtain rfl := eq_of_stepOf hname
  by_cases hnone : tree (loc ++ [name']) = none
  · rw [placeOf_free hfound hloc hname hnone] at hplace
    cases hplace
    exact ⟨hloc, hname, hnone, rfl⟩
  · rw [placeOf_taken hfound hloc hname hnone] at hplace
    cases hplace

theorem placeOf_notDirectory (hloc : tree loc ≠ some .directory) :
    placeOf tree (front ++ [name]) = .failed := by
  rw [placeOf_concat]
  exact place_notDirectory hfound hloc _

theorem look_notDirectory (hloc : tree loc ≠ some .directory) (name : Name) :
    (look tree (front ++ [name])).Failed := by
  rw [look_append, hfound, Outcome.andThen, List.map_cons, walk_notDirectory hloc]
  trivial

/-- In a directory no place fails. -/
theorem not_directory_of_failed (hplace : placeOf tree (front ++ [name]) = .failed) :
    tree loc ≠ some .directory := by
  intro hloc
  rw [placeOf_concat, place_concat] at hplace
  rw [look] at hfound
  simp only [hfound, hloc] at hplace
  cases hstep : stepOf name with
  | here => simp [hstep] at hplace
  | up => simp [hstep] at hplace
  | into name' =>
      rw [hstep] at hplace
      dsimp only at hplace
      split at hplace <;> cases hplace

/-- What exists is no free place. -/
theorem placeOf_of_found : placeOf tree front = .taken :=
  place_of_found hfound

end

theorem placeOf_failed (h : (look tree front).Absent ∨ (look tree front).Failed) (name : Name) :
    placeOf tree (front ++ [name]) = .failed := by
  rw [placeOf_concat]
  refine place_eq_failed (fun parent links hfound => ?_) _
  rw [look, hfound] at h
  rcases h with h | h <;> exact h.elim

/-- Below a name at which nothing is found no place is free. -/
theorem placeOf_below
    (h : (look tree (front ++ [name])).Absent ∨ (look tree (front ++ [name])).Failed)
    (more : List Name) (last : Name) :
    placeOf tree (front ++ name :: (more ++ [last])) = .failed := by
  have hmore := h.imp (fun h => look_absent_append h more) (fun h => look_failed_append h more)
  have hplace := placeOf_failed hmore last
  rwa [List.append_assoc, List.append_assoc] at hplace

theorem isDirectory_eq_false (h : (look tree names).Absent ∨ (look tree names).Failed) :
    isDirectory tree names = false := by
  unfold isDirectory
  split
  next loc links hfound =>
    rw [hfound] at h
    rcases h with h | h <;> exact h.elim
  next => rfl

/-- A path on which nothing is found does not exist. -/
theorem fileExists_eq_false (rest : List Name)
    (h : (look tree (front ++ [name])).Absent ∨ (look tree (front ++ [name])).Failed) :
    fileExists tree (front ++ name :: rest) = false := by
  have hrest : (look tree (front ++ name :: rest)).Absent ∨
      (look tree (front ++ name :: rest)).Failed := by
    rw [List.append_cons]
    exact h.imp (fun h => look_absent_append h rest) (fun h => look_failed_append h rest)
  unfold fileExists
  split
  next loc links hfound =>
    rw [hfound] at hrest
    rcases hrest with h | h <;> exact h.elim
  next => rfl

end

/-! ## Making directories -/

/-- The disk after directories were made, each in the one before. -/
def Disk.addDirectories (disk : Disk) (loc : List Name) : List Name → Disk
  | [] => disk
  | name :: names => (disk.add (loc ++ [name]) .directory).addDirectories (loc ++ [name]) names

theorem Disk.addDirectories_tree (disk : Disk) (loc names : List Name) :
    (disk.addDirectories loc names).tree = insertEach disk.tree loc names := by
  induction names generalizing disk loc with
  | nil => rfl
  | cons name names ih => exact ih _ _

/-- A program that fails before it changes the disk. -/
def Refused {α : Type} (program : Extraction α) (disk : Disk) : Prop :=
  ∃ failure, program.run disk = .error (failure, disk)

theorem refused_failWith {α : Type} (exception : String) (disk : Disk) :
    Refused (failWith exception : Extraction α) disk :=
  ⟨_, rfl⟩

theorem Refused.bind {α β : Type} {program : Extraction α} {disk : Disk}
    (h : Refused program disk) (next : α → Extraction β) : Refused (program >>= next) disk := by
  obtain ⟨failure, hrun⟩ := h
  refine ⟨failure, ?_⟩
  rw [StateT.run_bind, hrun]
  rfl

theorem refused_bind_of_run {α β : Type} {program : Extraction α} {disk : Disk} {a : α}
    (hrun : program.run disk = .ok (a, disk)) {next : α → Extraction β}
    (h : Refused (next a) disk) : Refused (program >>= next) disk := by
  obtain ⟨failure, hnext⟩ := h
  exact ⟨failure, by rw [run_bind_of_run hrun, hnext]⟩

section

variable {disk : Disk} {names : List Name}

theorem createDirectory_free {loc : List Name} (h : placeOf disk.tree names = .free loc) :
    (createDirectory names).run disk = .ok (.ok, disk.add loc .directory) := by
  simp only [createDirectory, StateT.run_bind, StateT.run_get, pure_bind, h]
  rfl

theorem createDirectory_taken (h : placeOf disk.tree names = .taken) :
    (createDirectory names).run disk = .ok (.alreadyExists, disk) := by
  simp only [createDirectory, StateT.run_bind, StateT.run_get, pure_bind, h]
  rfl

theorem createDirectory_failed (h : placeOf disk.tree names = .failed) :
    (createDirectory names).run disk = .ok (.failed, disk) := by
  simp only [createDirectory, StateT.run_bind, StateT.run_get, pure_bind, h]
  rfl

variable (followsLinks : Bool)

theorem createAndCheck_free {loc : List Name} (h : placeOf disk.tree names = .free loc) :
    (createAndCheckIsDirectory followsLinks names).run disk =
      .ok (.ok, disk.add loc .directory) := by
  rw [createAndCheckIsDirectory, run_bind_of_run (createDirectory_free h)]
  rfl

theorem createAndCheck_failed (h : placeOf disk.tree names = .failed) :
    (createAndCheckIsDirectory followsLinks names).run disk = .ok (.failed, disk) := by
  rw [createAndCheckIsDirectory, run_bind_of_run (createDirectory_failed h)]
  rfl

/-- What {lit}`createAndCheckIsDirectory` accepts at a path that is taken. -/
def accepted (tree : Tree Name FileContent) (names : List Name) : Bool :=
  isDirectory tree names && (followsLinks || !isSymbolicLink tree names)

variable {followsLinks} in
/-- What is accepted exists. -/
theorem found_of_accepted {tree : Tree Name FileContent}
    (h : accepted followsLinks tree names = true) :
    ∃ loc links, look tree names = .found loc links := by
  have hdirectory := (Bool.and_eq_true_iff.mp h).1
  unfold isDirectory at hdirectory
  split at hdirectory
  next loc links hfound => exact ⟨loc, links, hfound⟩
  next => cases hdirectory

theorem accepted_eq_false {tree : Tree Name FileContent} (h : isDirectory tree names = false) :
    accepted followsLinks tree names = false := by
  rw [accepted, h, Bool.false_and]

/-- What exists already has to be a directory. -/
theorem createAndCheck_taken (h : placeOf disk.tree names = .taken) :
    (createAndCheckIsDirectory followsLinks names).run disk =
      .ok (if accepted followsLinks disk.tree names then .ok else .alreadyExists, disk) := by
  rw [createAndCheckIsDirectory, run_bind_of_run (createDirectory_taken h)]
  simp only [StateT.run_bind, StateT.run_get, pure_bind]
  cases h : accepted followsLinks disk.tree names with
  | true =>
      rw [accepted] at h
      rw [h]
      rfl
  | false =>
      rw [accepted] at h
      rw [h]
      rfl

theorem requireDirectory_free {loc : List Name} (h : placeOf disk.tree names = .free loc) :
    (requireDirectory followsLinks names).run disk = .ok ((), disk.add loc .directory) := by
  rw [requireDirectory, run_bind_of_run (createAndCheck_free followsLinks h)]
  rfl

theorem requireDirectory_accepted (h : accepted followsLinks disk.tree names = true) :
    (requireDirectory followsLinks names).run disk = .ok ((), disk) := by
  obtain ⟨loc, links, hfound⟩ := found_of_accepted h
  have hrun := createAndCheck_taken followsLinks (placeOf_of_found hfound)
  rw [if_pos h] at hrun
  rw [requireDirectory, run_bind_of_run hrun]
  rfl

/-- Nothing is made where no place is free and what is there is not accepted. -/
theorem requireDirectory_refused (hplace : ∀ loc, placeOf disk.tree names ≠ .free loc)
    (h : accepted followsLinks disk.tree names = false) :
    Refused (requireDirectory followsLinks names) disk := by
  rw [requireDirectory]
  cases hcase : placeOf disk.tree names with
  | free loc => exact absurd hcase (hplace loc)
  | taken =>
      have hrun := createAndCheck_taken followsLinks hcase
      rw [h, if_neg Bool.false_ne_true] at hrun
      exact refused_bind_of_run hrun (refused_failWith _ disk)
  | failed =>
      exact refused_bind_of_run (createAndCheck_failed followsLinks hcase) (refused_failWith _ disk)

/-- The directories below a directory in which the first of them is free. -/
theorem createEach_below {front : List Name} {loc : List Name} {links : Nat}
    (hclosed : Closed disk.tree) (hfound : look disk.tree front = .found loc links)
    (hloc : disk.tree loc = some .directory) (hnames : ∀ name ∈ names, stepOf name = .into name)
    (hfree : ∀ name, names.head? = some name → disk.tree (loc ++ [name]) = none) :
    (createEach followsLinks front names).run disk =
      .ok ((), disk.addDirectories loc names) := by
  induction names generalizing disk front loc links with
  | nil => rfl
  | cons name names ih =>
      obtain ⟨hname, hnames⟩ := List.forall_mem_cons.mp hnames
      have hnone := hfree name rfl
      have hadd := hclosed.insert hloc hnone .directory
      have hnext : look _ (front ++ [name]) = .found (loc ++ [name]) links :=
        look_below hadd (look_extends (extends_insert hnone .directory) hfound)
          (by simpa using hname) (insert_self _ _ _) (by simp)
      rw [createEach,
        run_bind_of_run (requireDirectory_free followsLinks (placeOf_free hfound hloc hname hnone))]
      refine ih hadd hnext (insert_self _ _ _) hnames fun other _ => ?_
      rw [Disk.add_tree, insert_of_ne]
      · exact hclosed.below (by rw [hnone]; simp) (List.cons_ne_nil _ _)
      · intro heq
        exact List.cons_ne_nil _ _ (List.append_right_eq_self.mp heq)

theorem existingParent_found {front : List Name} {loc : List Name} {links : Nat}
    (rest : List Name) (hfound : look disk.tree front = .found loc links) :
    (existingParent (front ++ rest) front.length).run disk = .ok (front, disk) := by
  have htake : (front ++ rest).take front.length = front := List.take_left
  cases hlength : front.length with
  | zero =>
      obtain rfl := List.eq_nil_of_length_eq_zero hlength
      simp only [existingParent, StateT.run_bind, StateT.run_get, pure_bind, hfound]
      rfl
  | succ count =>
      rw [hlength] at htake
      simp only [existingParent, StateT.run_bind, StateT.run_get, pure_bind, htake, hfound]
      rfl

/-- The nearest parent that exists, where nothing is at the next name of the path. -/
theorem existingParent_of_absent {front : List Name} {name : Name} {loc : List Name}
    {links : Nat} (rest : List Name) (hfound : look disk.tree front = .found loc links)
    (habsent : (look disk.tree (front ++ [name])).Absent) (count : Nat)
    (hcount : front.length ≤ count) :
    (existingParent (front ++ name :: rest) count).run disk = .ok (front, disk) := by
  induction count, hcount using Nat.le_induction with
  | base => exact existingParent_found (name :: rest) hfound
  | succ count hle ih =>
      have htake : (front ++ name :: rest).take (count + 1) =
          front ++ [name] ++ rest.take (count - front.length) := by
        rw [List.take_append, List.take_of_length_le (Nat.le_succ_of_le hle),
          Nat.succ_sub hle, List.take_succ_cons, List.append_assoc]
        rfl
      have hmore := look_absent_append habsent (rest.take (count - front.length))
      rw [← htake] at hmore
      simp only [existingParent, StateT.run_bind, StateT.run_get, pure_bind]
      cases hlook : look disk.tree ((front ++ name :: rest).take (count + 1)) with
      | missing _ => exact ih
      | noEntry => exact ih
      | found _ _ => simp [hlook, Outcome.Absent] at hmore
      | notDirectory => simp [hlook, Outcome.Absent] at hmore
      | tooManyLinks => simp [hlook, Outcome.Absent] at hmore

/-- No parent is found when a path fails. -/
theorem existingParent_of_failed {count : Nat}
    (hfailed : (look disk.tree (names.take (count + 1))).Failed) :
    Refused (existingParent names (count + 1)) disk := by
  refine ⟨.runtimeException (str "FileSystemException"), ?_⟩
  simp only [existingParent, StateT.run_bind, StateT.run_get, pure_bind]
  cases hlook : look disk.tree (names.take (count + 1)) with
  | notDirectory => rfl
  | tooManyLinks => rfl
  | found _ _ => simp [hlook, Outcome.Failed] at hfailed
  | missing _ => simp [hlook, Outcome.Failed] at hfailed
  | noEntry => simp [hlook, Outcome.Failed] at hfailed

section

variable {front rest : List Name} {name : Name} {loc : List Name} {links : Nat}

/-- Nothing is made for a path that is taken. -/
theorem createDirectories_taken (hplace : placeOf disk.tree names = .taken)
    (hdirectory : isDirectory disk.tree names = false) :
    Refused (createDirectories followsLinks names) disk := by
  have hrun := createAndCheck_taken followsLinks hplace
  rw [accepted_eq_false followsLinks hdirectory, if_neg Bool.false_ne_true] at hrun
  exact refused_bind_of_run hrun (refused_failWith _ disk)

/-- For a path that exists no directory is made. -/
theorem createDirectories_found (hfound : look disk.tree names = .found loc links) :
    (createDirectories followsLinks names).run disk = .ok ((), disk) ∨
      Refused (createDirectories followsLinks names) disk := by
  have hrun := createAndCheck_taken followsLinks (placeOf_of_found hfound)
  rw [createDirectories]
  split at hrun
  next =>
    rw [run_bind_of_run hrun]
    exact .inl rfl
  next => exact .inr (refused_bind_of_run hrun (refused_failWith _ disk))

/-- For a directory that is there under its names no directory is made. -/
theorem createDirectories_directory (hclosed : Closed disk.tree)
    (hnames : ∀ name ∈ names, stepOf name = .into name)
    (hdirectory : disk.tree names = some .directory) :
    (createDirectories followsLinks names).run disk = .ok ((), disk) := by
  have hfound := look_names hclosed hnames hdirectory (by simp)
  have hrun := createAndCheck_taken followsLinks (placeOf_of_found hfound)
  have hcheck : isDirectory disk.tree names = true := by
    simp only [isDirectory, hfound, hdirectory, beq_self_eq_true]
  rw [accepted, hcheck, isSymbolicLink_directory hclosed hnames hdirectory, Bool.not_false,
    Bool.or_true, Bool.and_true, if_pos rfl] at hrun
  rw [createDirectories, run_bind_of_run hrun]
  rfl

variable (hclosed : Closed disk.tree) (hfound : look disk.tree front = .found loc links)
include hfound

include hclosed in
/-- The directories for a path that does not exist: all that are missing, if the path does not
climb out of the first of them. -/
theorem createDirectories_below (hloc : disk.tree loc = some .directory)
    (hname : stepOf name = .into name) (hnone : disk.tree (loc ++ [name]) = none)
    (hstays : StaysBelow 0 (rest.map stepOf)) :
    (createDirectories followsLinks (front ++ name :: rest)).run disk =
      .ok ((), disk.addDirectories loc (name :: normalForm [] (rest.map stepOf))) := by
  rcases List.eq_nil_or_concat' rest with rfl | ⟨more, last, rfl⟩
  · rw [createDirectories, run_bind_of_run (createAndCheck_free followsLinks
      (placeOf_free hfound hloc hname hnone))]
    rfl
  · have habsent : (look disk.tree (front ++ [name])).Absent := by
      rw [look_append, hfound, Outcome.andThen, List.map_cons, hname, walk_missing hloc _ _ hnone]
      trivial
    have hplace := placeOf_below (.inl habsent) more last
    have hparent := existingParent_of_absent (more ++ [last]) hfound habsent
      ((front ++ name :: (more ++ [last])).length - 1) (by simp)
    rw [createDirectories, run_bind_of_run (createAndCheck_failed followsLinks hplace),
      run_bind_of_run hparent, relativize_below hname hstays]
    refine createEach_below followsLinks hclosed hfound hloc
      (List.forall_mem_cons.mpr ⟨hname, ?_⟩) ?_
    · exact fun other hother => stepOf_of_mem_normalForm hother
    · rintro _ ⟨rfl⟩
      exact hnone

/-- For a path that does not exist, directories are made on the way to it from its nearest parent
that exists. -/
theorem createDirectories_absent (habsent : (look disk.tree (front ++ [name])).Absent) :
    (createDirectories followsLinks (front ++ name :: rest)).run disk =
        (createEach followsLinks front (relativize front (front ++ name :: rest))).run disk ∨
      (relativize front (front ++ name :: rest) = [] ∧
        Refused (createDirectories followsLinks (front ++ name :: rest)) disk) := by
  rcases List.eq_nil_or_concat' rest with rfl | ⟨more, last, rfl⟩
  · refine .inl ?_
    have hsteps := habsent
    rw [look, List.map_append] at hsteps
    obtain ⟨hloc, name', hname, hnode⟩ := absent_step hfound hsteps
    obtain rfl := eq_of_stepOf hname
    have hstays : StaysBelow 0 (([] : List Name).map stepOf) := trivial
    rw [relativize_below hname hstays]
    rcases hnode with hnone | ⟨target, hlink⟩
    · have hplace := placeOf_free hfound hloc hname hnone
      rw [createDirectories, run_bind_of_run (createAndCheck_free followsLinks hplace), createEach,
        run_bind_of_run (requireDirectory_free followsLinks hplace)]
      rfl
    · have hplace := placeOf_taken hfound hloc hname (by rw [hlink]; simp)
      have hrun := createAndCheck_taken followsLinks hplace
      rw [accepted_eq_false followsLinks (isDirectory_eq_false (.inl habsent)),
        if_neg Bool.false_ne_true] at hrun
      rw [createDirectories, run_bind_of_run hrun, createEach, StateT.run_bind, requireDirectory,
        run_bind_of_run hrun]
      rfl
  · have hplace := placeOf_below (.inl habsent) more last
    have hparent := existingParent_of_absent (more ++ [last]) hfound habsent
      ((front ++ name :: (more ++ [last])).length - 1) (by simp)
    cases hway : relativize front (front ++ name :: (more ++ [last])) with
    | cons first way =>
        refine .inl ?_
        rw [createDirectories, run_bind_of_run (createAndCheck_failed followsLinks hplace),
          run_bind_of_run hparent, hway]
    | nil =>
        have hrequire : (createDirectories followsLinks (front ++ name :: (more ++ [last]))).run disk =
            (requireDirectory followsLinks front).run disk := by
          rw [createDirectories, run_bind_of_run (createAndCheck_failed followsLinks hplace),
            run_bind_of_run hparent, hway]
        cases haccepted : accepted followsLinks disk.tree front with
        | true =>
            refine .inl ?_
            rw [hrequire, requireDirectory_accepted followsLinks haccepted]
            rfl
        | false =>
            refine .inr ⟨rfl, ?_⟩
            obtain ⟨failure, hfailure⟩ := requireDirectory_refused followsLinks (fun other hfree => by
              rw [placeOf_of_found hfound] at hfree
              cases hfree) haccepted
            exact ⟨failure, hrequire.trans hfailure⟩

/-- Below what is no directory nothing is made. -/
theorem createEach_refused (hloc : disk.tree loc ≠ some .directory) (hnames : names ≠ []) :
    Refused (createEach followsLinks front names) disk := by
  cases names with
  | nil => exact absurd rfl hnames
  | cons name names =>
      rw [createEach]
      refine (requireDirectory_refused followsLinks ?_ ?_).bind _
      · intro other hfree
        rw [placeOf_notDirectory hfound hloc] at hfree
        cases hfree
      · exact accepted_eq_false followsLinks
          (isDirectory_eq_false (.inr (look_notDirectory hfound hloc name)))

/-- Nothing is made for a path that fails. -/
theorem createDirectories_failed (hfailed : (look disk.tree (front ++ [name])).Failed) :
    Refused (createDirectories followsLinks (front ++ name :: rest)) disk := by
  have hdirectory := isDirectory_eq_false (.inr hfailed)
  rcases List.eq_nil_or_concat' rest with rfl | ⟨more, last, rfl⟩
  · cases hplace : placeOf disk.tree (front ++ [name]) with
    | free other =>
        rw [look, walk_of_place_free hplace] at hfailed
        exact hfailed.elim
    | taken => exact createDirectories_taken followsLinks hplace hdirectory
    | failed =>
        have hloc := not_directory_of_failed hfound hplace
        have hparent : (existingParent (front ++ [name]) ((front ++ [name]).length - 1)).run disk =
            .ok (front, disk) := by
          rw [List.length_append, List.length_singleton, Nat.add_sub_cancel]
          exact existingParent_found [name] hfound
        refine refused_bind_of_run (createAndCheck_failed followsLinks hplace)
          (refused_bind_of_run hparent ?_)
        split
        next =>
          refine requireDirectory_refused followsLinks (fun other hfree => ?_) ?_
          · rw [placeOf_of_found hfound] at hfree
            cases hfree
          · refine accepted_eq_false followsLinks ?_
            simp only [isDirectory, hfound]
            exact beq_eq_false_iff_ne.mpr hloc
        next => exact createEach_refused followsLinks hfound hloc (List.cons_ne_nil _ _)
  · have hplace := placeOf_below (.inr hfailed) more last
    have hsplit : front ++ name :: (more ++ [last]) = front ++ [name] ++ more ++ [last] := by
      simp
    have hlength : (front ++ [name] ++ more).length = front.length + more.length + 1 := by
      simp
      omega
    refine refused_bind_of_run (createAndCheck_failed followsLinks hplace) (Refused.bind ?_ _)
    rw [hsplit, List.length_append, List.length_singleton, Nat.add_sub_cancel, hlength]
    refine existingParent_of_failed ?_
    rw [← hlength, List.take_left]
    exact look_failed_append hfailed more

end

end

/-! ## Making links and files -/

section

variable {disk : Disk} {names : List Name}

theorem createSymbolicLink_free {target : JavaPath} {loc : List Name}
    (htarget : target.absolute = true ∨ target.names ≠ [])
    (hplace : placeOf disk.tree names = .free loc) :
    (createSymbolicLink names target).run disk =
      .ok ((), disk.add loc (.link ⟨target.absolute, target.names.map stepOf⟩)) := by
  have hnot : ¬ (target.absolute = false ∧ target.names = []) := by
    rintro ⟨habsolute, hnames⟩
    rcases htarget with h | h
    · rw [habsolute] at h
      cases h
    · exact h hnames
  simp only [createSymbolicLink, StateT.run_bind, StateT.run_get, pure_bind, if_neg hnot, hplace]
  rfl

/-- No link is made where no place is free, or to nowhere. -/
theorem createSymbolicLink_refused {target : JavaPath}
    (h : (target.absolute = false ∧ target.names = []) ∨
      ∀ loc, placeOf disk.tree names ≠ .free loc) :
    Refused (createSymbolicLink names target) disk := by
  by_cases htarget : target.absolute = false ∧ target.names = []
  · refine ⟨.runtimeException (str "NoSuchFileException"), ?_⟩
    simp only [createSymbolicLink, StateT.run_bind, StateT.run_get, pure_bind, if_pos htarget]
    rfl
  · cases hplace : placeOf disk.tree names with
    | free loc => exact absurd hplace (h.resolve_left htarget loc)
    | taken =>
        refine ⟨.runtimeException (str "FileAlreadyExistsException"), ?_⟩
        simp only [createSymbolicLink, StateT.run_bind, StateT.run_get, pure_bind,
          if_neg htarget, hplace]
        rfl
    | failed =>
        refine ⟨.runtimeException (str "FileSystemException"), ?_⟩
        simp only [createSymbolicLink, StateT.run_bind, StateT.run_get, pure_bind,
          if_neg htarget, hplace]
        rfl

theorem writeFile_missing {data : Bytes} {loc : List Name}
    (hlook : look disk.tree names = .missing loc) :
    (writeFile names data).run disk = .ok ((), disk.add loc (.file ⟨data, false⟩)) := by
  simp only [writeFile, StateT.run_bind, StateT.run_get, pure_bind, hlook]
  rfl

/-- Where nothing would be made, a file gets other content, or nothing happens. -/
theorem writeFile_cases {names : List Name} (data : Bytes)
    (hmissing : ∀ loc, look disk.tree names ≠ .missing loc) :
    (∃ loc content content', disk.tree loc = some (.file content) ∧
      (writeFile names data).run disk = .ok ((), disk.replace loc content')) ∨
      Refused (writeFile names data) disk := by
  have hrefused : (writeFile names data).run disk = (failWith "FileSystemException" :
      Extraction Unit).run disk → Refused (writeFile names data) disk := fun h => ⟨_, h⟩
  cases hlook : look disk.tree names with
  | missing loc => exact absurd hlook (hmissing loc)
  | found loc links =>
      cases hnode : disk.tree loc with
      | some node =>
          cases node with
          | file content =>
              refine .inl ⟨loc, content, { content with data }, hnode, ?_⟩
              simp only [writeFile, StateT.run_bind, StateT.run_get, pure_bind, hlook, hnode]
              rfl
          | directory =>
              refine .inr (hrefused ?_)
              simp only [writeFile, StateT.run_bind, StateT.run_get, pure_bind, hlook, hnode]
          | link target =>
              refine .inr (hrefused ?_)
              simp only [writeFile, StateT.run_bind, StateT.run_get, pure_bind, hlook, hnode]
      | none =>
          refine .inr (hrefused ?_)
          simp only [writeFile, StateT.run_bind, StateT.run_get, pure_bind, hlook, hnode]
  | noEntry =>
      refine .inr (hrefused ?_)
      simp only [writeFile, StateT.run_bind, StateT.run_get, pure_bind, hlook]
  | notDirectory =>
      refine .inr (hrefused ?_)
      simp only [writeFile, StateT.run_bind, StateT.run_get, pure_bind, hlook]
  | tooManyLinks =>
      refine .inr (hrefused ?_)
      simp only [writeFile, StateT.run_bind, StateT.run_get, pure_bind, hlook]

end

end Packaging
end IdeMultiarch
