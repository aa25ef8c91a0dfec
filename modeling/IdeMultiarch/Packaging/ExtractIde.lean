import IdeMultiarch.Packaging.JavaFiles

/-!
# Packaging - unpacking an IDE

The task {lit}`ExtractIDE` unpacks the tar of an IDE into a directory, which it empties before.

Main results:

- Theorem {lit}`extractEntry_cases`: an entry is refused, passed over, or extracted.
- Theorem {lit}`cleared_ready`: the directory of the task is there when the unpacking begins.
-/

namespace IdeMultiarch
namespace Packaging

open Library (run_bind_of_run)
open Library.FileTree

/-! ## The task -/

/-- The task {lit}`ExtractIDE`, with the names in the real path of its directory. -/
structure ExtractIde where
  targetDir : List Name
deriving DecidableEq, Repr

namespace ExtractIde

variable (followsLinks : Bool) (task : ExtractIde)

/-- {lit}`targetDir.resolve` -/
def resolve (path : JavaPath) : List Name :=
  if path.absolute then path.names else task.targetDir ++ path.names

/-- The part of the loop of {lit}`run` for an entry that is no directory. -/
def extractFile (member : Member) (target : List Name) : Extraction Unit := do
  let disk ← get
  if fileExists disk.tree target then
    fail (.gradleException (str "Duplicate entry: " ++ member.entry.name))
  else if target = [] then failWith "NullPointerException"
  else do
    createDirectories followsLinks target.dropLast
    if member.entry.isSymbolicLink then do
      let linkTarget ← pathOf member.entry.linkName
      createSymbolicLink target linkTarget
    else writeFile target member.data

/-- The loop of {lit}`run`. -/
def extractEntry (top : Name) (member : Member) : Extraction Unit :=
  if ¬ top <+: member.entry.name then
    fail (.gradleException (str "Invalid entry: " ++ member.entry.name))
  else if member.entry.linkFlag = .link then
    fail (.gradleException (str "Unable handle link: " ++ member.entry.name))
  else do
    let targetName := member.entry.name.drop top.length
    if targetName = [] then return ()
    else do
      let path ← pathOf targetName
      let target := task.resolve path
      if member.entry.isDirectory then createDirectories followsLinks task.targetDir
      else extractFile followsLinks member target

/-- The disk with an empty target directory. -/
def cleared (disk : Disk) : Disk where
  tree loc :=
    if loc = task.targetDir then some .directory
    else if task.targetDir <+: loc then none
    else disk.tree loc
  created := disk.created ++ [task.targetDir]

/-- {lit}`deleteDirectory` and {lit}`createDirectories` on the target directory, when the directory
above it exists. -/
def clearTarget : Extraction Unit :=
  modify task.cleared

/-- {lit}`run` -/
def run (source : List Member) : Extraction Unit := do
  task.clearTarget
  match source with
  | [] => fail (.gradleException (str "Invalid directory entry: $\x7bit.name\x7d"))
  | first :: members =>
      if first.entry.isDirectory = false ∨ first.entry.name.count '/' ≠ 1 then
        fail (.gradleException (str "Invalid directory entry: $\x7bit.name\x7d"))
      else members.forM (task.extractEntry followsLinks first.entry.name)

/-! ## The target directory -/

/-- The target directory is there, at the location that its names tell. -/
structure Ready (tree : Tree Name FileContent) : Prop where
  closed : Closed tree
  directory : tree task.targetDir = some .directory
  names : ∀ name ∈ task.targetDir, stepOf name = .into name

variable {followsLinks : Bool} {task : ExtractIde} {disk : Disk}

theorem cleared_below {inner : List Name} (hinner : inner ≠ []) :
    (task.cleared disk).tree (task.targetDir ++ inner) = none := by
  simp [cleared, hinner]

theorem cleared_target : (task.cleared disk).tree task.targetDir = some .directory := by
  simp [cleared]

/-- The directory of the task is there when the unpacking begins. -/
theorem cleared_ready (hready : task.Ready disk.tree) : task.Ready (task.cleared disk).tree := by
  have hkeep : ∀ loc, ¬ task.targetDir <+: loc → (task.cleared disk).tree loc = disk.tree loc := by
    intro loc hloc
    have hne : loc ≠ task.targetDir := by
      rintro rfl
      exact hloc List.prefix_rfl
    simp [cleared, hloc, hne]
  refine ⟨⟨?_, fun loc name hname => ?_⟩, cleared_target, hready.names⟩
  · by_cases hroot : task.targetDir = []
    · rw [← hroot]
      exact cleared_target
    · rw [hkeep [] (by rwa [List.prefix_nil])]
      exact hready.closed.root
  · by_cases hbelow : task.targetDir <+: loc
    · obtain ⟨inner, rfl⟩ := hbelow
      rw [List.append_assoc, cleared_below (by simp)] at hname
      exact absurd rfl hname
    · rw [hkeep loc hbelow]
      by_cases htarget : loc ++ [name] = task.targetDir
      · exact hready.closed.parent loc name (by rw [htarget, hready.directory]; simp)
      · rw [hkeep] at hname
        · exact hready.closed.parent loc name hname
        · intro hpre
          rcases List.prefix_concat_iff.mp hpre with heq | hpre
          · exact htarget heq.symm
          · exact hbelow hpre

/-! ## Entries -/

variable {top : Name} {member : Member}

/-- The path at which an entry is extracted. -/
def target (task : ExtractIde) (top : Name) (member : Member) : List Name :=
  task.resolve (parsePath (member.entry.name.drop top.length))

/-- An entry that is extracted: no directory and no hard link, with a name that is a path below the
top directory of the archive. -/
structure Extracts (top : Name) (member : Member) : Prop where
  below : top <+: member.entry.name
  noLink : member.entry.linkFlag ≠ .link
  named : member.entry.name.drop top.length ≠ []
  valid : '\x00' ∉ member.entry.name.drop top.length
  noDirectory : member.entry.isDirectory = false

theorem pathOf_valid {text : Name} (h : '\x00' ∉ text) (disk : Disk) :
    (pathOf text).run disk = .ok (parsePath text, disk) := by
  rw [pathOf, if_neg h]
  rfl

theorem pathOf_invalid {text : Name} (h : '\x00' ∈ text) (disk : Disk) :
    Refused (pathOf text) disk := by
  rw [pathOf, if_pos h]
  exact refused_failWith _ disk

theorem extractEntry_file (h : Extracts top member) :
    (task.extractEntry followsLinks top member).run disk =
      (extractFile followsLinks member (task.target top member)).run disk := by
  rw [extractEntry, if_neg (not_not_intro h.below), if_neg h.noLink, if_neg h.named,
    run_bind_of_run (pathOf_valid h.valid disk)]
  simp only [h.noDirectory, Bool.false_eq_true, if_false]
  rfl

/-- For a directory entry the target directory is made, which is there. -/
theorem extractEntry_directory (hready : task.Ready disk.tree)
    (hbelow : top <+: member.entry.name) (hlink : member.entry.linkFlag ≠ .link)
    (hvalid : '\x00' ∉ member.entry.name.drop top.length)
    (hdirectory : member.entry.isDirectory = true) :
    (task.extractEntry followsLinks top member).run disk = .ok ((), disk) := by
  rw [extractEntry, if_neg (not_not_intro hbelow), if_neg hlink]
  dsimp only
  split
  next => rfl
  next =>
    rw [run_bind_of_run (pathOf_valid hvalid disk)]
    exact createDirectories_directory followsLinks hready.closed hready.names hready.directory

/-- An entry is refused, passed over, or extracted. -/
theorem extractEntry_cases (followsLinks : Bool) (top : Name) (member : Member)
    (hready : task.Ready disk.tree) :
    Refused (task.extractEntry followsLinks top member) disk ∨
      (task.extractEntry followsLinks top member).run disk = .ok ((), disk) ∨
      Extracts top member := by
  by_cases hbelow : top <+: member.entry.name
  · by_cases hlink : member.entry.linkFlag = .link
    · refine .inl ⟨.gradleException (str "Unable handle link: " ++ member.entry.name), ?_⟩
      rw [extractEntry, if_neg (not_not_intro hbelow), if_pos hlink]
      rfl
    · by_cases hnamed : member.entry.name.drop top.length = []
      · refine .inr (.inl ?_)
        rw [extractEntry, if_neg (not_not_intro hbelow), if_neg hlink, if_pos hnamed]
        rfl
      · by_cases hvalid : '\x00' ∈ member.entry.name.drop top.length
        · refine .inl ?_
          rw [extractEntry, if_neg (not_not_intro hbelow), if_neg hlink, if_neg hnamed]
          exact (pathOf_invalid hvalid disk).bind _
        · by_cases hdirectory : member.entry.isDirectory = true
          · exact .inr (.inl (extractEntry_directory hready hbelow hlink hvalid hdirectory))
          · exact .inr (.inr ⟨hbelow, hlink, hnamed, hvalid, by simpa using hdirectory⟩)
  · refine .inl ⟨.gradleException (str "Invalid entry: " ++ member.entry.name), ?_⟩
    rw [extractEntry, if_pos hbelow]
    rfl

/-- The last part of the loop for an entry that is no directory. -/
def writeEntry (member : Member) (target : List Name) : Extraction Unit :=
  if member.entry.isSymbolicLink then do
    let linkTarget ← pathOf member.entry.linkName
    createSymbolicLink target linkTarget
  else writeFile target member.data

/-- The directories for an entry are made, and then it is written. -/
theorem extractFile_steps {target : List Name} (hexists : fileExists disk.tree target = false)
    (hnonempty : target ≠ []) :
    (extractFile followsLinks member target).run disk =
      (createDirectories followsLinks target.dropLast >>= fun _ =>
        writeEntry member target).run disk := by
  simp only [extractFile, StateT.run_bind, StateT.run_get, pure_bind, hexists, if_neg hnonempty,
    Bool.false_eq_true, if_false]
  rfl

/-- An entry is written after the directories for it were made. -/
theorem extractFile_run {target : List Name} {disk' : Disk}
    (hexists : fileExists disk.tree target = false) (hnonempty : target ≠ [])
    (hrun : (createDirectories followsLinks target.dropLast).run disk = .ok ((), disk')) :
    (extractFile followsLinks member target).run disk = (writeEntry member target).run disk' :=
  (extractFile_steps hexists hnonempty).trans (run_bind_of_run hrun)

/-- Nothing happens to an entry whose directories cannot be made. -/
theorem extractFile_refused {target : List Name}
    (h : fileExists disk.tree target = true ∨
      Refused (createDirectories followsLinks target.dropLast) disk) :
    Refused (extractFile followsLinks member target) disk := by
  rw [extractFile]
  refine refused_bind_of_run rfl ?_
  split
  next => exact ⟨_, rfl⟩
  next hexists =>
    split
    next => exact refused_failWith _ disk
    next => exact (h.resolve_left hexists).bind _

/-! ## A small archive -/

/-- A disk with an empty directory {lit}`/out`. -/
def emptyOut : Tree Name FileContent := fun loc =>
  if loc = [] ∨ loc = [str "out"] then some .directory else none

theorem emptyOut_ready : (ExtractIde.mk [str "out"]).Ready emptyOut where
  closed :=
    { root := rfl
      parent := by
        intro loc name hname
        by_cases hloc : loc = []
        · rw [hloc]
          rfl
        · refine absurd ?_ hname
          simp [emptyOut, hloc, List.append_eq_singleton_iff] }
  directory := by decide
  names := by decide

/-- The top directory of an archive. -/
def ideaTop : Member :=
  readMember (str "idea/") .directory [] [] (.inl rfl)

end ExtractIde

end Packaging
end IdeMultiarch
