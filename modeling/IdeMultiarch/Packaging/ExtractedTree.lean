import IdeMultiarch.Packaging.ExtractIde

/-!
# Packaging - what an archive becomes

Which archives the task unpacks to the tree that they hold.  The loop makes no directory for a
directory entry, only those above files and links, and it writes files without their modes; so the
tree is right only for some archives.

Main results:

- Theorem {lit}`unpack_entry`: an entry is written at its path, if nothing is in its way.
- Theorem {lit}`fits_of_run`: an entry that was written had nothing in its way.
- Theorem {lit}`reproduces_iff`: which archives are reproduced.
-/

namespace IdeMultiarch
namespace Packaging

open Library (run_bind_of_run run_bind_eq_ok returned exists_of_returned)
open Library.FileTree

/-! ## Archives and trees -/

/-- {lit}`toString` -/
def JavaPath.text (path : JavaPath) : Name :=
  (if path.absolute then ['/'] else []) ++ ['/'].intercalate path.names

/-- A step as it is written in a link. -/
def stepText : Step Name → Name
  | .here => str "."
  | .up => str ".."
  | .into name => name

/-- The text of a link. -/
def linkText (target : Target Name) : Name :=
  (if target.absolute then ['/'] else []) ++ ['/'].intercalate (target.steps.map stepText)

/-- Whether the mode of an entry lets a file be executed. -/
def isExecutable (entry : TarArchiveEntry) : Bool :=
  entry.mode &&& 0o111 != 0

/-- What is on the disk for an entry. -/
def Archived (member : Member) (node : Option (Node Name FileContent)) : Prop :=
  if member.entry.isDirectory then node = some .directory
  else if member.entry.isSymbolicLink then
    ∃ target, node = some (.link target) ∧ linkText target = member.entry.linkName
  else member.entry.linkFlag = .regular ∧
    node = some (.file ⟨member.data, isExecutable member.entry⟩)

section

variable {member : Member} {node : Option (Node Name FileContent)}

theorem archived_directory (h : member.entry.isDirectory = true) :
    Archived member node ↔ node = some .directory := by
  rw [Archived, if_pos h]

theorem archived_link (h : member.entry.isDirectory = false)
    (hlink : member.entry.isSymbolicLink = true) :
    Archived member node ↔
      ∃ target, node = some (.link target) ∧ linkText target = member.entry.linkName := by
  rw [Archived, if_neg (by rw [h]; exact Bool.false_ne_true), if_pos hlink]

theorem archived_file (h : member.entry.isDirectory = false)
    (hlink : member.entry.isSymbolicLink = false) :
    Archived member node ↔ member.entry.linkFlag = .regular ∧
      node = some (.file ⟨member.data, isExecutable member.entry⟩) := by
  rw [Archived, if_neg (by rw [h]; exact Bool.false_ne_true),
    if_neg (by rw [hlink]; exact Bool.false_ne_true)]

end

namespace ExtractIde

/-- The names of an entry's path below the top directory. -/
def pathBelow (top : Name) (member : Member) : List Name :=
  (parsePath (member.entry.name.drop top.length)).names

/-- An archive with one top directory, in which names are relative paths below it without dots,
nothing is below a symbolic link, and there are no hard links. -/
structure PlainArchive (first : Member) (members : List Member) : Prop where
  directory : first.entry.isDirectory = true
  single : ∃ component, '/' ∉ component ∧ first.entry.name = component ++ ['/']
  below : ∀ member ∈ members, first.entry.name <+: member.entry.name
  relative : ∀ member ∈ members,
    (member.entry.name.drop first.entry.name.length).head? ≠ some '/'
  plain : ∀ member ∈ members, ∀ name ∈ pathBelow first.entry.name member,
    name ≠ str "." ∧ name ≠ str ".."
  links : ∀ member ∈ members, ∀ other ∈ members, member.entry.isSymbolicLink = true →
    pathBelow first.entry.name member <+: pathBelow first.entry.name other →
      pathBelow first.entry.name member = pathBelow first.entry.name other
  noHardLinks : ∀ member ∈ members, member.entry.linkFlag ≠ .link

/-- The target directory holds the tree of an archive without its top directory, and nothing
else. -/
structure Reproduces (task : ExtractIde) (top : Name) (members : List Member)
    (tree : Tree Name FileContent) : Prop where
  target : tree task.targetDir = some .directory
  entries : ∀ member ∈ members, Archived member (tree (task.targetDir ++ pathBelow top member))
  above : ∀ member ∈ members, ∀ inner, inner <+: pathBelow top member →
    inner ≠ pathBelow top member → tree (task.targetDir ++ inner) = some .directory
  nothingElse : ∀ inner, tree (task.targetDir ++ inner) ≠ none →
    inner = [] ∨ ∃ member ∈ members, inner <+: pathBelow top member

/-- Two paths of which none leads through the other. -/
def Apart (path path' : List Name) : Prop :=
  ¬ path <+: path' ∧ ¬ path' <+: path

instance (path path' : List Name) : Decidable (Apart path path') :=
  inferInstanceAs (Decidable (_ ∧ _))

/-- Two entries that are not in each other's way: directory entries never are. -/
def EntriesApart (top : Name) (member other : Member) : Prop :=
  member.entry.isDirectory = false → other.entry.isDirectory = false →
    Apart (pathBelow top member) (pathBelow top other)

instance (top : Name) : DecidableRel (EntriesApart top) := fun _ _ =>
  inferInstanceAs (Decidable (_ → _ → _))

/-- The text of a link that can be made. -/
structure LinkValid (text : Name) : Prop where
  valid : '\x00' ∉ text
  nonempty : (parsePath text).absolute = true ∨ (parsePath text).names ≠ []

instance (text : Name) : Decidable (LinkValid text) :=
  decidable_of_iff
    ('\x00' ∉ text ∧ ((parsePath text).absolute = true ∨ (parsePath text).names ≠ []))
    ⟨fun h => ⟨h.1, h.2⟩, fun h => ⟨h.valid, h.nonempty⟩⟩

/-- An entry that can be written. -/
structure EntryValid (top : Name) (member : Member) : Prop where
  name : '\x00' ∉ member.entry.name.drop top.length
  link : member.entry.isDirectory = false → member.entry.isSymbolicLink = true →
    LinkValid member.entry.linkName

instance (top : Name) (member : Member) : Decidable (EntryValid top member) :=
  decidable_of_iff ('\x00' ∉ member.entry.name.drop top.length ∧
      (member.entry.isDirectory = false → member.entry.isSymbolicLink = true →
        LinkValid member.entry.linkName))
    ⟨fun h => ⟨h.1, h.2⟩, fun h => ⟨h.name, h.link⟩⟩

/-- The archives that are reproduced: entries can be written and are not in each other's way, links
are written as {lit}`Path` writes them, all else are regular files that cannot be executed, and
below each directory there is a file or a link. -/
structure Reproducible (top : Name) (members : List Member) : Prop where
  valid : ∀ member ∈ members, EntryValid top member
  apart : members.Pairwise (EntriesApart top)
  links : ∀ member ∈ members, member.entry.isDirectory = false →
    member.entry.isSymbolicLink = true →
      (parsePath member.entry.linkName).text = member.entry.linkName
  files : ∀ member ∈ members, member.entry.isDirectory = false →
    member.entry.isSymbolicLink = false →
      member.entry.linkFlag = .regular ∧ isExecutable member.entry = false
  directories : ∀ member ∈ members, member.entry.isDirectory = true →
    pathBelow top member ≠ [] → ∃ other ∈ members, other.entry.isDirectory = false ∧
      pathBelow top member <+: pathBelow top other ∧ pathBelow top member ≠ pathBelow top other

/-! ## Paths of entries -/

section

variable {task : ExtractIde} {top : Name} {member : Member}

theorem stepText_stepOf (name : Name) : stepText (stepOf name) = name := by
  unfold stepOf
  split
  next h => exact h.symm
  next =>
    split
    next h => exact h.symm
    next => rfl

/-- A link has the text of the path that it was made with. -/
theorem linkText_eq (path : JavaPath) :
    linkText ⟨path.absolute, path.names.map stepOf⟩ = path.text := by
  have hsteps : (path.names.map stepOf).map stepText = path.names := by
    rw [List.map_map]
    exact (List.map_congr_left fun name _ => stepText_stepOf name).trans (List.map_id _)
  rw [linkText, JavaPath.text, hsteps]

/-- A relative path that is not empty has a name. -/
theorem parsePath_names_ne_nil {text : Name} (hnonempty : text ≠ [])
    (hrelative : text.head? ≠ some '/') : (parsePath text).names ≠ [] := by
  cases text with
  | nil => exact absurd rfl hnonempty
  | cons c text =>
      have hc : (c == '/') = false := by
        rw [beq_eq_false_iff_ne]
        rintro rfl
        exact hrelative rfl
      rw [parsePath, List.splitOn_cons_eq_if_modifyHead, hc, if_neg Bool.false_ne_true]
      obtain ⟨piece, pieces, hpieces⟩ := List.exists_cons_of_ne_nil (List.splitOn_ne_nil '/' text)
      simp [hpieces]

/-- An entry as a plain archive has it. -/
structure PlainEntry (top : Name) (member : Member) : Prop where
  below : top <+: member.entry.name
  relative : (member.entry.name.drop top.length).head? ≠ some '/'
  plain : ∀ name ∈ pathBelow top member, stepOf name = .into name
  noLink : member.entry.linkFlag ≠ .link
  named : member.entry.isDirectory = false → member.entry.name.drop top.length ≠ []

theorem PlainArchive.entry {first : Member} {members : List Member}
    (harchive : PlainArchive first members) (hmember : member ∈ members) :
    PlainEntry first.entry.name member where
  below := harchive.below member hmember
  relative := harchive.relative member hmember
  plain name hname := stepOf_eq_into (harchive.plain member hmember name hname)
  noLink := harchive.noHardLinks member hmember
  named := by
    intro hfile hnil
    obtain ⟨rest, hrest⟩ := harchive.below member hmember
    obtain ⟨component, -, hfirst⟩ := harchive.single
    rw [← hrest, List.drop_left] at hnil
    rw [TarArchiveEntry.isDirectory, ← hrest, hnil, List.append_nil, hfirst, Bool.or_eq_false_iff,
      endsWithSlash_append component (List.cons_ne_nil _ _)] at hfile
    cases hfile.2

theorem PlainEntry.pathBelow_ne_nil (hplain : PlainEntry top member)
    (hfile : member.entry.isDirectory = false) : pathBelow top member ≠ [] :=
  parsePath_names_ne_nil (hplain.named hfile) hplain.relative

theorem PlainEntry.target_eq (hplain : PlainEntry top member) :
    task.target top member = task.targetDir ++ pathBelow top member := by
  have hrelative : (parsePath (member.entry.name.drop top.length)).absolute = false :=
    beq_eq_false_iff_ne.mpr hplain.relative
  rw [target, resolve, hrelative, if_neg Bool.false_ne_true]
  rfl

end

/-! ## One entry -/

/-- What an entry that is no directory becomes. -/
def nodeOf (member : Member) : Node Name FileContent :=
  if member.entry.isSymbolicLink then
    let path := parsePath member.entry.linkName
    .link ⟨path.absolute, path.names.map stepOf⟩
  else .file ⟨member.data, false⟩

/-- The target directory holds the entries so far, and the directories above them. -/
structure Unpacked (task : ExtractIde) (top : Name) (done : List Member)
    (tree : Tree Name FileContent) : Prop where
  ready : task.Ready tree
  entries : ∀ member ∈ done, member.entry.isDirectory = false →
    tree (task.targetDir ++ pathBelow top member) = some (nodeOf member)
  above : ∀ member ∈ done, member.entry.isDirectory = false →
    ∀ inner, inner <+: pathBelow top member → inner ≠ pathBelow top member →
      tree (task.targetDir ++ inner) = some .directory
  nothingElse : ∀ inner, tree (task.targetDir ++ inner) ≠ none →
    inner = [] ∨ ∃ member ∈ done, member.entry.isDirectory = false ∧
      inner <+: pathBelow top member

section

variable {followsLinks : Bool} {task : ExtractIde} {top : Name} {done : List Member}
  {member : Member} {disk : Disk} {tree : Tree Name FileContent}

theorem unpacked_nil (hready : task.Ready disk.tree) :
    Unpacked task top [] (task.cleared disk).tree where
  ready := cleared_ready hready
  entries := by simp
  above := by simp
  nothingElse := by
    intro inner hinner
    by_cases hnil : inner = []
    · exact .inl hnil
    · exact absurd (cleared_below hnil) hinner

/-- Directory entries do not count. -/
theorem Unpacked.directory (hunpacked : Unpacked task top done tree)
    (hdirectory : member.entry.isDirectory = true) : Unpacked task top (done ++ [member]) tree := by
  have hmem : ∀ other ∈ done ++ [member], other.entry.isDirectory = false → other ∈ done := by
    intro other hother hfile
    rcases List.mem_append.mp hother with hother | hother
    · exact hother
    · rw [List.mem_singleton.mp hother, hdirectory] at hfile
      cases hfile
  refine ⟨hunpacked.ready, fun other hother hfile => hunpacked.entries other
    (hmem other hother hfile) hfile, fun other hother hfile => hunpacked.above other
    (hmem other hother hfile) hfile, fun inner hinner => ?_⟩
  exact (hunpacked.nothingElse inner hinner).imp_right fun ⟨other, hother, h⟩ =>
    ⟨other, List.mem_append_left _ hother, h⟩

/-- The names of an entry's path in the tree. -/
theorem PlainEntry.names (hplain : PlainEntry top member) (hready : task.Ready tree) :
    ∀ name ∈ task.targetDir ++ pathBelow top member, stepOf name = .into name :=
  List.forall_mem_append.mpr ⟨hready.names, hplain.plain⟩

/-- The directories above a path that is apart from what was unpacked. -/
theorem Unpacked.free (hunpacked : Unpacked task top done tree) {path : List Name}
    (hpath : path ≠ [])
    (hapart : ∀ other ∈ done, other.entry.isDirectory = false →
      Apart (pathBelow top other) path) :
    tree (task.targetDir ++ path) = none ∧ ∀ inner, inner <+: path →
      tree (task.targetDir ++ inner) = some .directory ∨
        tree (task.targetDir ++ inner) = none := by
  have hnone : tree (task.targetDir ++ path) = none := by
    by_contra hne
    rcases hunpacked.nothingElse path hne with hnil | ⟨other, hother, hfile, hpre⟩
    · exact hpath hnil
    · exact (hapart other hother hfile).2 hpre
  refine ⟨hnone, fun inner hinner => ?_⟩
  by_cases hsome : tree (task.targetDir ++ inner) = none
  · exact .inr hsome
  · left
    rcases hunpacked.nothingElse inner hsome with rfl | ⟨other, hother, hfile, hpre⟩
    · rw [List.append_nil]
      exact hunpacked.ready.directory
    · refine hunpacked.above other hother hfile inner hpre ?_
      rintro rfl
      exact (hapart other hother hfile).1 hinner

/-- The directories for a path without dots are made, as far as they are missing. -/
theorem createDirectories_plain (followsLinks : Bool) (hready : task.Ready disk.tree)
    {parent : List Name}
    (hnames : ∀ name ∈ parent, stepOf name = .into name)
    (hparent : ∀ inner, inner <+: parent →
      disk.tree (task.targetDir ++ inner) = some .directory ∨
        disk.tree (task.targetDir ++ inner) = none) :
    ∃ disk', (createDirectories followsLinks (task.targetDir ++ parent)).run disk =
        .ok ((), disk') ∧
      task.Ready disk'.tree ∧
      ∀ inner, disk'.tree (task.targetDir ++ inner) =
        if inner <+: parent then some .directory else disk.tree (task.targetDir ++ inner) := by
  obtain ⟨front, rest, rfl, hfront, hrest⟩ := exists_missing hready.directory hparent
  refine ⟨disk.addDirectories (task.targetDir ++ front) rest, ?_, ?_, fun inner => ?_⟩
  · obtain ⟨hnamesFront, hnamesRest⟩ := List.forall_mem_append.mp hnames
    have hall := List.forall_mem_append.mpr ⟨hready.names, hnamesFront⟩
    cases rest with
    | nil =>
        rw [List.append_nil]
        exact createDirectories_directory followsLinks hready.closed hall hfront
    | cons name rest =>
        obtain ⟨hname, hnamesRest⟩ := List.forall_mem_cons.mp hnamesRest
        have hsteps := map_stepOf hnamesRest
        have hrun := createDirectories_below followsLinks hready.closed
          (look_names hready.closed hall hfront (by simp)) hfront hname (hrest name rfl)
          (by rw [hsteps]; exact staysBelow_into 0 rest)
        rwa [hsteps, normalForm_into, List.append_assoc] at hrun
  · rw [Disk.addDirectories_tree]
    have hextends := extends_insertEach hready.closed hrest
    exact ⟨hready.closed.insertEach hfront hrest, hextends _ _ hready.directory, hready.names⟩
  · rw [Disk.addDirectories_tree]
    exact insertEach_below hready.closed hfront hrest inner

/-- A path without dots that is missing does not exist. -/
theorem fileExists_missing (hready : task.Ready tree) {path : List Name}
    (hnames : ∀ name ∈ path, stepOf name = .into name)
    (hnone : tree (task.targetDir ++ path) = none)
    (habove : ∀ inner, inner <+: path →
      tree (task.targetDir ++ inner) = some .directory ∨
        tree (task.targetDir ++ inner) = none) :
    fileExists tree (task.targetDir ++ path) = false := by
  obtain ⟨front, rest, rfl, hfront, hrest⟩ := exists_missing hready.directory habove
  cases rest with
  | nil =>
      rw [List.append_nil, hfront] at hnone
      cases hnone
  | cons name rest =>
      obtain ⟨hnamesFront, hnamesRest⟩ := List.forall_mem_append.mp hnames
      have hfound := look_names hready.closed
        (List.forall_mem_append.mpr ⟨hready.names, hnamesFront⟩) hfront (by simp)
      have hname := (List.forall_mem_cons.mp hnamesRest).1
      rw [← List.append_assoc]
      refine fileExists_eq_false _ (.inl ?_)
      rw [look, walk_of_place_free (placeOf_free hfound hfront hname (hrest name rfl))]
      trivial

/-- An entry is written at a free place. -/
theorem writeEntry_free (hfile : member.entry.isDirectory = false)
    (hvalid : EntryValid top member) {names loc : List Name}
    (hplace : placeOf disk.tree names = .free loc) :
    (writeEntry member names).run disk = .ok ((), disk.add loc (nodeOf member)) := by
  unfold writeEntry nodeOf
  split
  next hlink =>
    have htext := hvalid.link hfile hlink
    rw [run_bind_of_run (pathOf_valid htext.valid disk)]
    exact createSymbolicLink_free htext.nonempty hplace
  next => exact writeFile_missing (walk_of_place_free hplace)

/-- The tree with one more entry and the directories above it. -/
theorem Unpacked.add (hunpacked : Unpacked task top done tree)
    (hfile : member.entry.isDirectory = false)
    (hapart : ∀ other ∈ done, EntriesApart top other member) {tree' : Tree Name FileContent}
    (hready : task.Ready tree')
    (htree : ∀ inner, tree' (task.targetDir ++ inner) =
      if inner = pathBelow top member then some (nodeOf member)
      else if inner <+: pathBelow top member then some .directory
      else tree (task.targetDir ++ inner)) : Unpacked task top (done ++ [member]) tree' where
  ready := hready
  entries := by
    intro other hother hotherFile
    rw [htree]
    rcases List.mem_append.mp hother with hother | hother
    · have hother' := hapart other hother hotherFile hfile
      rw [if_neg, if_neg hother'.1]
      · exact hunpacked.entries other hother hotherFile
      · intro heq
        exact hother'.1 (by rw [heq])
    · rw [List.mem_singleton.mp hother, if_pos rfl]
  above := by
    intro other hother hotherFile inner hpre hne
    rw [htree]
    rcases List.mem_append.mp hother with hother | hother
    · rw [if_neg]
      · split
        next => rfl
        next => exact hunpacked.above other hother hotherFile inner hpre hne
      · rintro rfl
        exact (hapart other hother hotherFile hfile).2 hpre
    · rw [List.mem_singleton.mp hother] at hpre hne
      rw [if_neg hne, if_pos hpre]
  nothingElse := by
    intro inner hinner
    by_cases hpre : inner <+: pathBelow top member
    · exact .inr ⟨member, List.mem_append_right _ (List.mem_singleton.mpr rfl), hfile, hpre⟩
    · have hne : inner ≠ pathBelow top member := by
        rintro rfl
        exact hpre List.prefix_rfl
      rw [htree, if_neg hne, if_neg hpre] at hinner
      exact (hunpacked.nothingElse inner hinner).imp_right fun ⟨other, hother, h⟩ =>
        ⟨other, List.mem_append_left _ hother, h⟩

/-- The directories for an entry are made, and its own place is free. -/
theorem reach_entry (followsLinks : Bool) (hunpacked : Unpacked task top done disk.tree)
    (hplain : PlainEntry top member) (hfile : member.entry.isDirectory = false)
    (hvalid : '\x00' ∉ member.entry.name.drop top.length)
    (hapart : ∀ other ∈ done, EntriesApart top other member) :
    ∃ disk₁ names loc, (task.extractEntry followsLinks top member).run disk =
        (writeEntry member names).run disk₁ ∧
      placeOf disk₁.tree names = .free loc ∧
      Unpacked task top (done ++ [member]) (disk₁.add loc (nodeOf member)).tree := by
  have hpath := hplain.pathBelow_ne_nil hfile
  obtain ⟨hnone, habove⟩ := hunpacked.free hpath
    fun other hother hotherFile => hapart other hother hotherFile hfile
  have hready := hunpacked.ready
  have hexists := fileExists_missing hready hplain.plain hnone habove
  obtain ⟨parent, last, hsplit⟩ := (List.eq_nil_or_concat' _).resolve_left hpath
  have hplainNames := hplain.plain
  rw [hsplit] at hplainNames hnone habove hexists
  obtain ⟨hnames, hlast⟩ := List.forall_mem_append.mp hplainNames
  obtain ⟨disk₁, hrun, hready₁, htree₁⟩ := createDirectories_plain followsLinks
    hready hnames fun inner hinner => habove inner (hinner.trans (List.prefix_append _ _))
  have hparent : disk₁.tree (task.targetDir ++ parent) = some .directory := by
    rw [htree₁, if_pos List.prefix_rfl]
  have hfree : disk₁.tree (task.targetDir ++ parent ++ [last]) = none := by
    have hlonger : ¬ parent ++ [last] <+: parent := by
      intro hpre
      have hlength := hpre.length_le
      rw [List.length_append, List.length_singleton] at hlength
      omega
    rw [List.append_assoc, htree₁, if_neg hlonger, hnone]
  have hfound := look_names hready₁.closed
    (List.forall_mem_append.mpr ⟨hready.names, hnames⟩) hparent (by simp)
  have hplace := placeOf_free hfound hparent (hlast last (List.mem_singleton.mpr rfl)) hfree
  refine ⟨disk₁, _, _, ?_, hplace, ?_⟩
  · have hextracts : Extracts top member :=
      ⟨hplain.below, hplain.noLink, hplain.named hfile, hvalid, hfile⟩
    rw [extractEntry_file hextracts, hplain.target_eq, hsplit, ← List.append_assoc]
    rw [← List.append_assoc] at hexists
    exact extractFile_run hexists (by simp) (by rw [List.dropLast_concat]; exact hrun)
  · refine hunpacked.add hfile hapart ?_ fun inner => ?_
    · exact ⟨hready₁.closed.insert hparent hfree _,
        extends_insert hfree _ _ _ hready₁.directory, hready.names⟩
    · rw [Disk.add_tree, List.append_assoc, ← hsplit]
      by_cases heq : inner = pathBelow top member
      · rw [if_pos heq, heq, insert_self]
      · have hne : task.targetDir ++ inner ≠ task.targetDir ++ pathBelow top member :=
          fun h => heq (List.append_cancel_left h)
        have hpre : inner <+: pathBelow top member ↔ inner <+: parent := by
          rw [hsplit] at heq ⊢
          rw [List.prefix_concat_iff]
          exact or_iff_right heq
        rw [if_neg heq, insert_of_ne _ _ hne, htree₁]
        simp only [hpre]

/-- An entry is written at its path, if nothing is in its way. -/
theorem unpack_entry (followsLinks : Bool) (hunpacked : Unpacked task top done disk.tree)
    (hplain : PlainEntry top member) (hfile : member.entry.isDirectory = false)
    (hvalid : EntryValid top member)
    (hapart : ∀ other ∈ done, EntriesApart top other member) :
    ∃ disk', (task.extractEntry followsLinks top member).run disk = .ok ((), disk') ∧
      Unpacked task top (done ++ [member]) disk'.tree := by
  obtain ⟨disk₁, names, loc, hrun, hplace, hnext⟩ :=
    reach_entry followsLinks hunpacked hplain hfile hvalid.name hapart
  exact ⟨_, hrun.trans (writeEntry_free hfile hvalid hplace), hnext⟩

/-! ## Entries in the way -/

theorem not_refused {program : Extraction Unit} {disk' : Disk}
    (hrun : program.run disk = .ok ((), disk')) : ¬ Refused program disk := by
  rintro ⟨failure, herror⟩
  rw [hrun] at herror
  cases herror

theorem refused_of_run_eq {program program' : Extraction Unit}
    (heq : program.run disk = program'.run disk) (h : Refused program' disk) :
    Refused program disk := by
  obtain ⟨failure, hrun⟩ := h
  exact ⟨failure, heq.trans hrun⟩

/-- An entry with a zero character in its name is refused. -/
theorem refused_of_invalid (hplain : PlainEntry top member)
    (hinvalid : '\x00' ∈ member.entry.name.drop top.length) :
    Refused (task.extractEntry followsLinks top member) disk := by
  have hnamed : member.entry.name.drop top.length ≠ [] := List.ne_nil_of_mem hinvalid
  rw [extractEntry, if_neg (not_not_intro hplain.below), if_neg hplain.noLink, if_neg hnamed]
  exact (pathOf_invalid hinvalid disk).bind _

/-- A file or directory is in the way of an entry with its path. -/
theorem refused_of_node (hready : task.Ready disk.tree) {names : List Name}
    (hnames : ∀ name ∈ names, stepOf name = .into name) {node : Node Name FileContent}
    (hnode : disk.tree names = some node) (hlink : ∀ target, node ≠ .link target) :
    Refused (extractFile followsLinks member names) disk := by
  refine extractFile_refused (.inl ?_)
  rw [fileExists, look_names hready.closed hnames hnode hlink]

/-- A file is in the way of an entry below it. -/
theorem refused_of_file (hready : task.Ready disk.tree) {names more : List Name} {name : Name}
    (hnames : ∀ name ∈ names, stepOf name = .into name) {content : FileContent}
    (hnode : disk.tree names = some (.file content)) :
    Refused (extractFile followsLinks member (names ++ name :: more)) disk := by
  have hfound := look_names hready.closed hnames hnode (by simp)
  have hdirectory : disk.tree names ≠ some .directory := by
    rw [hnode]
    simp
  refine extractFile_refused (.inr ?_)
  rcases List.eq_nil_or_concat' more with rfl | ⟨more, last, rfl⟩
  · rw [List.dropLast_concat]
    refine createDirectories_taken followsLinks (placeOf_of_found hfound) ?_
    simp only [isDirectory, hfound, hnode]
    rfl
  · rw [← List.cons_append, ← List.append_assoc, List.dropLast_concat]
    exact createDirectories_failed followsLinks hfound (look_notDirectory hfound hdirectory name)

/-- A link is in the way of a link with its path. -/
theorem refused_of_link (hready : task.Ready disk.tree) {names : List Name}
    (hnames : ∀ name ∈ names, stepOf name = .into name) {target : Target Name}
    (hnode : disk.tree names = some (.link target))
    (hlink : member.entry.isSymbolicLink = true) :
    Refused (extractFile followsLinks member names) disk := by
  rcases List.eq_nil_or_concat' names with rfl | ⟨parent, last, rfl⟩
  · rw [hready.closed.root] at hnode
    cases hnode
  · by_cases hexists : fileExists disk.tree (parent ++ [last]) = true
    · exact extractFile_refused (.inl hexists)
    · obtain ⟨hnamesParent, hlast⟩ := List.forall_mem_append.mp hnames
      have hparent := hready.closed.parent parent last (by rw [hnode]; simp)
      have hrun := createDirectories_directory followsLinks hready.closed
        hnamesParent hparent
      have hplace := placeOf_taken (look_names hready.closed hnamesParent hparent (by simp)) hparent
        (hlast last (List.mem_singleton.mpr rfl)) (by rw [hnode]; simp)
      refine refused_of_run_eq (extractFile_run (by simpa using hexists) (by simp)
        (by rw [List.dropLast_concat]; exact hrun)) ?_
      rw [writeEntry, if_pos hlink]
      by_cases hvalid : '\x00' ∈ member.entry.linkName
      · exact (pathOf_invalid hvalid disk).bind _
      · refine refused_bind_of_run (pathOf_valid hvalid disk) ?_
        refine createSymbolicLink_refused (.inr fun loc hfree => ?_)
        rw [hplace] at hfree
        cases hfree

/-- A link that was made has a valid text. -/
theorem linkValid_of_run {names : List Name} {disk' : Disk}
    (hrun : (writeEntry member names).run disk = .ok ((), disk'))
    (hlink : member.entry.isSymbolicLink = true) : LinkValid member.entry.linkName := by
  rw [writeEntry, if_pos hlink] at hrun
  have hvalid : '\x00' ∉ member.entry.linkName := fun hinvalid =>
    not_refused hrun ((pathOf_invalid hinvalid disk).bind _)
  refine ⟨hvalid, ?_⟩
  rw [run_bind_of_run (pathOf_valid hvalid disk)] at hrun
  by_contra hempty
  rw [not_or, not_not, Bool.not_eq_true] at hempty
  refine not_refused hrun ⟨.runtimeException (str "NoSuchFileException"), ?_⟩
  simp only [createSymbolicLink, StateT.run_bind, StateT.run_get, pure_bind, if_pos hempty]
  rfl

theorem nodeOf_ne_directory : nodeOf member ≠ .directory := by
  unfold nodeOf
  split <;> simp

theorem nodeOf_link (hlink : member.entry.isSymbolicLink = true) :
    ∃ target, nodeOf member = .link target :=
  ⟨_, by rw [nodeOf, if_pos hlink]⟩

theorem nodeOf_file (hlink : member.entry.isSymbolicLink = false) :
    nodeOf member = .file ⟨member.data, false⟩ := by
  rw [nodeOf, if_neg (by rw [hlink]; exact Bool.false_ne_true)]

/-- An entry with the same path is in the way. -/
theorem refused_of_entry (hready : task.Ready disk.tree) {names : List Name}
    (hnames : ∀ name ∈ names, stepOf name = .into name) {other : Member}
    (hnode : disk.tree names = some (nodeOf other))
    (hlinks : other.entry.isSymbolicLink = true → member.entry.isSymbolicLink = true) :
    Refused (extractFile followsLinks member names) disk := by
  cases hother : other.entry.isSymbolicLink with
  | true =>
      obtain ⟨target, htarget⟩ := nodeOf_link hother
      rw [htarget] at hnode
      exact refused_of_link hready hnames hnode (hlinks hother)
  | false =>
      rw [nodeOf_file hother] at hnode
      exact refused_of_node hready hnames hnode (by simp)

/-- An entry that was written had nothing in its way. -/
theorem fits_of_run (hunpacked : Unpacked task top done disk.tree)
    (hplain : PlainEntry top member) {disk' : Disk}
    (hrun : (task.extractEntry followsLinks top member).run disk = .ok ((), disk'))
    (hplainDone : ∀ other ∈ done, PlainEntry top other)
    (hlinks : ∀ other ∈ done, other.entry.isSymbolicLink = true →
      pathBelow top other <+: pathBelow top member → pathBelow top other = pathBelow top member)
    (hsame : ∀ other ∈ done, other.entry.isDirectory = false →
      member.entry.isDirectory = false → pathBelow top other = pathBelow top member →
        other.entry.isSymbolicLink = true → member.entry.isSymbolicLink = true) :
    EntryValid top member ∧ ∀ other ∈ done, EntriesApart top other member := by
  have hvalid : '\x00' ∉ member.entry.name.drop top.length := fun hinvalid =>
    not_refused hrun (refused_of_invalid hplain hinvalid)
  have hready := hunpacked.ready
  have hapart : ∀ other ∈ done, EntriesApart top other member := by
    intro other hother hotherFile hfile
    have hextracts : Extracts top member :=
      ⟨hplain.below, hplain.noLink, hplain.named hfile, hvalid, hfile⟩
    rw [extractEntry_file hextracts, hplain.target_eq] at hrun
    have hnames := hplain.names hready
    have hotherNames := (hplainDone other hother).names hready
    have hnode := hunpacked.entries other hother hotherFile
    have hdifferent : pathBelow top other ≠ pathBelow top member := by
      intro heq
      rw [heq] at hnode
      exact not_refused hrun
        (refused_of_entry hready hnames hnode (hsame other hother hotherFile hfile heq))
    refine ⟨fun hpre => not_refused hrun ?_, fun hpre => not_refused hrun ?_⟩
    · cases hlink : other.entry.isSymbolicLink with
      | true => exact absurd (hlinks other hother hlink hpre) hdifferent
      | false =>
          rw [nodeOf_file hlink] at hnode
          obtain ⟨more, hmore⟩ := hpre
          cases more with
          | nil => exact absurd (by rw [← hmore, List.append_nil]) hdifferent
          | cons name more =>
              rw [← hmore, ← List.append_assoc]
              exact refused_of_file hready hotherNames hnode
    · have hdirectory := hunpacked.above other hother hotherFile _ hpre (Ne.symm hdifferent)
      exact refused_of_node hready hnames hdirectory (by simp)
  refine ⟨⟨hvalid, fun hfile hlink => ?_⟩, hapart⟩
  obtain ⟨disk₁, names, loc, hreach, -, -⟩ :=
    reach_entry followsLinks hunpacked hplain hfile hvalid hapart
  rw [hreach] at hrun
  exact linkValid_of_run hrun hlink

/-! ## Whole archives -/

/-- One round of the loop, for an entry that has nothing in its way. -/
theorem unpack_step (followsLinks : Bool) (hunpacked : Unpacked task top done disk.tree)
    (hplain : PlainEntry top member) (hvalid : EntryValid top member)
    (hapart : ∀ other ∈ done, EntriesApart top other member) :
    ∃ disk', (task.extractEntry followsLinks top member).run disk = .ok ((), disk') ∧
      Unpacked task top (done ++ [member]) disk'.tree := by
  cases hfile : member.entry.isDirectory with
  | true =>
      exact ⟨disk, extractEntry_directory hunpacked.ready hplain.below hplain.noLink hvalid.name
        hfile, hunpacked.directory hfile⟩
  | false => exact unpack_entry followsLinks hunpacked hplain hfile hvalid hapart

/-- The loop of the task on entries that are not in each other's way. -/
theorem unpack_all (followsLinks : Bool) {todo : List Member}
    (hunpacked : Unpacked task top done disk.tree)
    (hplain : ∀ member ∈ todo, PlainEntry top member)
    (hvalid : ∀ member ∈ todo, EntryValid top member)
    (hapart : ∀ other ∈ done, ∀ member ∈ todo, EntriesApart top other member)
    (htodo : todo.Pairwise (EntriesApart top)) :
    ∃ disk', (todo.forM (task.extractEntry followsLinks top)).run disk = .ok ((), disk') ∧
      Unpacked task top (done ++ todo) disk'.tree := by
  induction todo generalizing done disk with
  | nil => exact ⟨disk, rfl, by rwa [List.append_nil]⟩
  | cons member todo ih =>
      obtain ⟨hplainHead, hplainTail⟩ := List.forall_mem_cons.mp hplain
      obtain ⟨hvalidHead, hvalidTail⟩ := List.forall_mem_cons.mp hvalid
      obtain ⟨hhead, htail⟩ := List.pairwise_cons.mp htodo
      obtain ⟨disk₁, hrun, hnext⟩ := unpack_step followsLinks hunpacked
        hplainHead hvalidHead fun other hother => hapart other hother member List.mem_cons_self
      obtain ⟨disk', hrest, hlast⟩ := ih hnext hplainTail hvalidTail (fun other hother => by
        rcases List.mem_append.mp hother with hother | hother
        · exact fun member' hmember' =>
            hapart other hother member' (List.mem_cons_of_mem _ hmember')
        · rw [List.mem_singleton.mp hother]
          exact hhead) htail
      refine ⟨disk', ?_, by rwa [List.append_assoc, List.singleton_append] at hlast⟩
      rw [List.forM_eq_forM, List.forM_cons, run_bind_of_run hrun]
      exact hrest

/-- Entries that the loop of the task has written were not in each other's way. -/
theorem fit_of_run {todo : List Member} (hunpacked : Unpacked task top done disk.tree)
    {disk' : Disk}
    (hrun : (todo.forM (task.extractEntry followsLinks top)).run disk = .ok ((), disk'))
    (hplain : ∀ member ∈ done ++ todo, PlainEntry top member)
    (hlinks : ∀ other ∈ done ++ todo, ∀ member ∈ done ++ todo,
      other.entry.isSymbolicLink = true → pathBelow top other <+: pathBelow top member →
        pathBelow top other = pathBelow top member)
    (hsame : ∀ other ∈ done ++ todo, ∀ member ∈ done ++ todo, other.entry.isDirectory = false →
      member.entry.isDirectory = false → pathBelow top other = pathBelow top member →
        other.entry.isSymbolicLink = true → member.entry.isSymbolicLink = true) :
    (∀ member ∈ todo, EntryValid top member) ∧
      (∀ other ∈ done, ∀ member ∈ todo, EntriesApart top other member) ∧
      todo.Pairwise (EntriesApart top) := by
  induction todo generalizing done disk with
  | nil => simp
  | cons member todo ih =>
      have hmember : member ∈ done ++ member :: todo :=
        List.mem_append_right _ List.mem_cons_self
      rw [List.forM_eq_forM, List.forM_cons] at hrun
      obtain ⟨_, disk₁, hhead, htail⟩ := run_bind_eq_ok hrun
      obtain ⟨hvalid, hapart⟩ := fits_of_run hunpacked (hplain member hmember) hhead
        (fun other hother => hplain other (List.mem_append_left _ hother))
        (fun other hother => hlinks other (List.mem_append_left _ hother) member hmember)
        fun other hother => hsame other (List.mem_append_left _ hother) member hmember
      obtain ⟨disk₂, hsecond, hnext⟩ := unpack_step followsLinks hunpacked
        (hplain member hmember) hvalid hapart
      cases hhead.symm.trans hsecond
      rw [List.append_cons] at hplain hlinks hsame
      obtain ⟨hvalidTail, hapartTail, hpairwise⟩ := ih hnext htail hplain hlinks hsame
      refine ⟨List.forall_mem_cons.mpr ⟨hvalid, hvalidTail⟩, fun other hother => ?_, ?_⟩
      · exact List.forall_mem_cons.mpr ⟨hapart other hother,
          hapartTail other (List.mem_append_left _ hother)⟩
      · exact List.pairwise_cons.mpr ⟨hapartTail member
          (List.mem_append_right _ (List.mem_singleton.mpr rfl)), hpairwise⟩

end

section

variable {followsLinks : Bool} {task : ExtractIde} {first : Member} {members : List Member}
  {tree : Tree Name FileContent}

/-- The task on a plain archive is the loop over the entries after the first. -/
theorem run_plain (harchive : PlainArchive first members) (disk : Disk) :
    (task.run followsLinks (first :: members)).run disk =
      (members.forM (task.extractEntry followsLinks first.entry.name)).run (task.cleared disk) := by
  obtain ⟨component, hcomponent, hname⟩ := harchive.single
  have hcount : first.entry.name.count '/' = 1 := by
    rw [hname, List.count_append, List.count_eq_zero_of_not_mem hcomponent]
    rfl
  have hnot : ¬ (first.entry.isDirectory = false ∨ first.entry.name.count '/' ≠ 1) := by
    rw [harchive.directory, hcount]
    simp
  have hclear : (task.clearTarget).run disk = .ok ((), task.cleared disk) := rfl
  rw [run, run_bind_of_run hclear, if_neg hnot]

/-- What is unpacked of an archive that meets the conditions is its tree. -/
theorem Unpacked.reproduces (hunpacked : Unpacked task first.entry.name members tree)
    (hreproducible : Reproducible first.entry.name members) :
    Reproduces task first.entry.name members tree where
  target := hunpacked.ready.directory
  entries := by
    intro member hmember
    cases hfile : member.entry.isDirectory with
    | true =>
        rw [archived_directory hfile]
        by_cases hnil : pathBelow first.entry.name member = []
        · rw [hnil, List.append_nil]
          exact hunpacked.ready.directory
        · obtain ⟨other, hother, hotherFile, hpre, hne⟩ :=
            hreproducible.directories member hmember hfile hnil
          exact hunpacked.above other hother hotherFile _ hpre hne
    | false =>
        have hnode := hunpacked.entries member hmember hfile
        cases hlink : member.entry.isSymbolicLink with
        | true =>
            rw [archived_link hfile hlink, hnode, nodeOf, if_pos hlink]
            exact ⟨_, rfl, (linkText_eq _).trans (hreproducible.links member hmember hfile hlink)⟩
        | false =>
            obtain ⟨hregular, hmode⟩ := hreproducible.files member hmember hfile hlink
            rw [archived_file hfile hlink, hnode, nodeOf_file hlink, hmode]
            exact ⟨hregular, rfl⟩
  above := by
    intro member hmember inner hpre hne
    cases hfile : member.entry.isDirectory with
    | false => exact hunpacked.above member hmember hfile inner hpre hne
    | true =>
        have hnil : pathBelow first.entry.name member ≠ [] := by
          intro hnil
          rw [hnil] at hpre hne
          exact hne (List.prefix_nil.mp hpre)
        obtain ⟨other, hother, hotherFile, hbelow, -⟩ :=
          hreproducible.directories member hmember hfile hnil
        refine hunpacked.above other hother hotherFile inner (hpre.trans hbelow) ?_
        rintro rfl
        exact hne (hpre.eq_of_length_le hbelow.length_le)
  nothingElse inner hinner :=
    (hunpacked.nothingElse inner hinner).imp_right fun ⟨member, hmember, _, hpre⟩ =>
      ⟨member, hmember, hpre⟩

/-- An archive that was reproduced meets the conditions. -/
theorem Unpacked.reproducible (hunpacked : Unpacked task first.entry.name members tree)
    (hreproduces : Reproduces task first.entry.name members tree)
    (hvalid : ∀ member ∈ members, EntryValid first.entry.name member)
    (hapart : members.Pairwise (EntriesApart first.entry.name)) :
    Reproducible first.entry.name members where
  valid := hvalid
  apart := hapart
  links := by
    intro member hmember hfile hlink
    have harchived := hreproduces.entries member hmember
    rw [archived_link hfile hlink, hunpacked.entries member hmember hfile, nodeOf,
      if_pos hlink] at harchived
    obtain ⟨target, htarget, htext⟩ := harchived
    cases htarget
    rwa [linkText_eq] at htext
  files := by
    intro member hmember hfile hlink
    have harchived := hreproduces.entries member hmember
    rw [archived_file hfile hlink, hunpacked.entries member hmember hfile,
      nodeOf_file hlink] at harchived
    refine ⟨harchived.1, ?_⟩
    have hnode := harchived.2
    simp only [Option.some.injEq, Node.file.injEq, FileContent.mk.injEq, true_and] at hnode
    exact hnode.symm
  directories := by
    intro member hmember hfile hnil
    have harchived := hreproduces.entries member hmember
    rw [archived_directory hfile] at harchived
    rcases hunpacked.nothingElse _ (by rw [harchived]; simp) with
      h | ⟨other, hother, hotherFile, hpre⟩
    · exact absurd h hnil
    · refine ⟨other, hother, hotherFile, hpre, fun heq => ?_⟩
      rw [heq, hunpacked.entries other hother hotherFile] at harchived
      exact nodeOf_ne_directory (Option.some.inj harchived)

/-- In an archive that was reproduced, what has the path of a link is a link. -/
theorem Reproduces.same {top : Name} (hreproduces : Reproduces task top members tree)
    {member other : Member} (hmember : member ∈ members) (hother : other ∈ members)
    (hotherFile : other.entry.isDirectory = false) (hfile : member.entry.isDirectory = false)
    (hpath : pathBelow top other = pathBelow top member)
    (hlink : other.entry.isSymbolicLink = true) : member.entry.isSymbolicLink = true := by
  have harchivedOther := hreproduces.entries other hother
  have harchived := hreproduces.entries member hmember
  rw [archived_link hotherFile hlink, hpath] at harchivedOther
  obtain ⟨target, htarget, -⟩ := harchivedOther
  by_contra hnot
  rw [archived_file hfile (by simpa using hnot), htarget] at harchived
  cases harchived.2

/-- A plain archive is reproduced exactly if it meets the conditions. -/
theorem reproduces_iff {disk : Disk} (hready : task.Ready disk.tree)
    (harchive : PlainArchive first members) :
    (∃ disk', (task.run followsLinks (first :: members)).run disk = .ok ((), disk') ∧
      Reproduces task first.entry.name members disk'.tree) ↔
        Reproducible first.entry.name members := by
  have hplain : ∀ member ∈ members, PlainEntry first.entry.name member :=
    fun member hmember => harchive.entry hmember
  have hstart : Unpacked task first.entry.name [] (task.cleared disk).tree := unpacked_nil hready
  rw [run_plain harchive]
  constructor
  · rintro ⟨disk', hrun, hreproduces⟩
    obtain ⟨hvalid, -, hapart⟩ := fit_of_run hstart hrun hplain harchive.links
      fun other hother member hmember => hreproduces.same hmember hother
    obtain ⟨disk₂, hsecond, hunpacked⟩ := unpack_all followsLinks hstart hplain
      hvalid (fun _ h => by cases h) hapart
    cases hrun.symm.trans hsecond
    exact hunpacked.reproducible hreproduces hvalid hapart
  · intro hreproducible
    obtain ⟨disk', hrun, hunpacked⟩ := unpack_all followsLinks hstart hplain
      hreproducible.valid (fun _ h => by cases h) hreproducible.apart
    exact ⟨disk', hrun, hunpacked.reproduces hreproducible⟩

end

/-- A directory with a file, and a link to the directory. -/
def smallArchive : List Member :=
  [readMember (str "idea/d/") .directory [] [] (.inl rfl),
    readMember (str "idea/d/a") .regular [] [0] (.inr (by decide)),
    readMember (str "idea/l") .symbolicLink (str "d") [] (.inl rfl)]

theorem smallArchive_plain : PlainArchive ideaTop smallArchive where
  directory := by decide
  single := ⟨str "idea", by decide, by decide⟩
  below := by decide +kernel
  relative := by decide +kernel
  plain := by decide +kernel
  links := by decide +kernel
  noHardLinks := by decide +kernel

/-- A small archive is reproduced. -/
theorem smallArchive_reproduced :
    ∃ disk', ((ExtractIde.mk [str "out"]).run true (ideaTop :: smallArchive)).run
        ⟨emptyOut, []⟩ = .ok ((), disk') ∧
      Reproduces ⟨[str "out"]⟩ ideaTop.entry.name smallArchive disk'.tree :=
  (reproduces_iff emptyOut_ready smallArchive_plain).mpr
    { valid := by decide +kernel
      apart := by decide +kernel
      links := by decide +kernel
      files := by decide +kernel
      directories := by decide +kernel }

/-- An empty directory is not made. -/
theorem emptyDirectory_lost :
    ¬ ∀ (followsLinks : Bool) (task : ExtractIde) (disk : Disk) (first : Member)
      (members : List Member), task.Ready disk.tree → PlainArchive first members →
        (members.map fun member => member.entry.name).Nodup →
          ∃ disk', (task.run followsLinks (first :: members)).run disk = .ok ((), disk') ∧
            Reproduces task first.entry.name members disk'.tree := by
  intro hall
  let member := readMember (str "idea/d/") .directory [] [] (.inl rfl)
  have hplain : PlainArchive ideaTop [member] :=
    { directory := by decide
      single := ⟨str "idea", by decide, by decide⟩
      below := by decide +kernel
      relative := by decide +kernel
      plain := by decide +kernel
      links := by decide +kernel
      noHardLinks := by decide +kernel }
  obtain ⟨disk', hrun, hreproduces⟩ := hall true ⟨[str "out"]⟩ ⟨emptyOut, []⟩ ideaTop [member]
    emptyOut_ready hplain (List.nodup_singleton _)
  have hreturned : returned (((ExtractIde.mk [str "out"]).run true [ideaTop, member]).run
      ⟨emptyOut, []⟩) () (fun disk => disk.tree [str "out", str "d"] == none) = true := by
    decide +kernel
  obtain ⟨disk₂, hsecond, hnone⟩ := exists_of_returned hreturned
  cases hrun.symm.trans hsecond
  have hentry := hreproduces.entries member List.mem_cons_self
  rw [archived_directory (by decide)] at hentry
  have hpath : [str "out"] ++ pathBelow ideaTop.entry.name member = [str "out", str "d"] := by
    decide +kernel
  rw [hpath, eq_of_beq hnone] at hentry
  cases hentry

end ExtractIde

end Packaging
end IdeMultiarch
