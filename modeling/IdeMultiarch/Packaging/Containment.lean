import IdeMultiarch.Library.WeakestPre
import IdeMultiarch.Packaging.ExtractIde

/-!
# Packaging - where an archive is unpacked

The task checks that the names of all entries begin with the top directory of the archive, and
nothing else.  A name can still climb with dots, be absolute after the top directory, or lead
through a link that an earlier entry made.

Main results:

- Theorem {lit}`createDirectories_inside`: when the directories for a path are made inside.
- Theorem {lit}`extractEntry_inside`: when everything that one entry makes is inside.
- Theorem {lit}`extracted_inside_iff`: when everything that a run makes is inside.
- Theorem {lit}`escapes`: an entry that climbs is written outside.
-/

namespace IdeMultiarch
namespace Packaging

open Library (wp run_bind_of_run)
open Library.FileTree

/-! ## Paths that stay inside -/

section

variable (tree : Tree Name FileContent) (base : List Name) (followsLinks : Bool)

/-- On a way from a path, the directory in which the first missing name is missing is at or below
a base.  A way ends at what is not accepted as a directory. -/
def WayInside : List Name → List Name → Prop
  | _, [] => True
  | child, name :: names =>
      (∀ loc, placeOf tree (child ++ [name]) = .free loc → base <+: loc.dropLast) ∧
        (accepted followsLinks tree (child ++ [name]) = true → WayInside (child ++ [name]) names)

/-- The way to a path from its nearest parent that exists, as its names tell it, stays inside. -/
def DirectoriesInside (names : List Name) : Prop :=
  ∀ front name rest loc links, names = front ++ name :: rest →
    look tree front = .found loc links → (look tree (front ++ [name])).Absent →
      WayInside tree base followsLinks front (relativize front names)

/-- The directory in which an entry's last name is missing is at or below a base.  A file may be
missing at the end of a link. -/
structure LastInside (member : Member) (target : List Name) : Prop where
  link : member.entry.isSymbolicLink = true → '\x00' ∉ member.entry.linkName →
    parsePath member.entry.linkName ≠ ⟨false, []⟩ →
      ∀ loc, placeOf tree target = .free loc → base <+: loc.dropLast
  file : member.entry.isSymbolicLink = false →
    ∀ loc, look tree target = .missing loc → base <+: loc.dropLast

end

namespace ExtractIde

variable {followsLinks : Bool} {task : ExtractIde} {top : Name} {member : Member} {disk : Disk}

/-- The path of a new file or link stays inside the target directory: first the directories, and
when they are there the last name. -/
def FileInside (followsLinks : Bool) (task : ExtractIde) (disk : Disk) (member : Member)
    (target : List Name) : Prop :=
  fileExists disk.tree target = false → target ≠ [] →
    DirectoriesInside disk.tree task.targetDir followsLinks target.dropLast ∧
      ∀ disk', (createDirectories followsLinks target.dropLast).run disk = .ok ((), disk') →
        LastInside disk'.tree task.targetDir member target

/-- The path of an entry that is extracted stays inside the target directory. -/
def EntryInside (followsLinks : Bool) (task : ExtractIde) (top : Name) (disk : Disk)
    (member : Member) : Prop :=
  Extracts top member → FileInside followsLinks task disk member (task.target top member)

/-- Each entry's path stays inside on the disk that the entries before leave. -/
def StepsInside (followsLinks : Bool) (task : ExtractIde) (top : Name) :
    Disk → List Member → Prop
  | _, [] => True
  | disk, member :: members =>
      EntryInside followsLinks task top disk member ∧
        ∀ disk', (task.extractEntry followsLinks top member).run disk = .ok ((), disk') →
          StepsInside followsLinks task top disk' members

/-- All paths of an archive stay inside when it is unpacked. -/
def RunInside (followsLinks : Bool) (task : ExtractIde) (disk : Disk) : List Member → Prop
  | [] => True
  | first :: members =>
      first.entry.isDirectory = true → first.entry.name.count '/' = 1 →
        StepsInside followsLinks task first.entry.name (task.cleared disk) members

/-- The disk after a program, also if it fails. -/
def diskAfter {α : Type} (program : Extraction α) (disk : Disk) : Disk :=
  match program.run disk with
  | .ok (_, disk') => disk'
  | .error (_, disk') => disk'

/-! ## What a step leaves -/

/-- Everything that was made is at or below the target directory. -/
def Confined (task : ExtractIde) (disk : Disk) : Prop :=
  ∀ loc ∈ disk.created, task.targetDir <+: loc

/-- A step that makes something outside the target directory exactly if a condition fails. -/
structure Leaves (task : ExtractIde) (inside : Prop) (disk disk' : Disk) : Prop where
  ready : task.Ready disk'.tree
  confined : Confined task disk' ↔ Confined task disk ∧ inside

theorem Ready.mono {tree tree' : Tree Name FileContent} (hready : task.Ready tree)
    (hclosed : Closed tree') (hextends : Extends tree tree') : task.Ready tree' :=
  ⟨hclosed, hextends _ _ hready.directory, hready.names⟩

/-- What is missing at or below the target directory is missing in such a directory. -/
theorem Ready.prefix_iff {tree : Tree Name FileContent} (hready : task.Ready tree)
    {parent : List Name} {name : Name} (hnone : tree (parent ++ [name]) = none) :
    task.targetDir <+: parent ++ [name] ↔ task.targetDir <+: parent := by
  constructor
  · intro hpre
    rcases List.prefix_concat_iff.mp hpre with heq | hparent
    · rw [← heq, hready.directory] at hnone
      cases hnone
    · exact hparent
  · exact fun hparent => hparent.trans (List.prefix_append parent [name])

namespace Leaves

variable {inside inside' : Prop} {disk' disk'' : Disk}

theorem congr (h : Leaves task inside disk disk') (hiff : inside ↔ inside') :
    Leaves task inside' disk disk' :=
  ⟨h.ready, h.confined.trans (and_congr_right fun _ => hiff)⟩

theorem refl (hready : task.Ready disk.tree) (hinside : inside) : Leaves task inside disk disk :=
  ⟨hready, (and_iff_left hinside).symm⟩

theorem trans (h : Leaves task inside disk disk') (h' : Leaves task inside' disk' disk'') :
    Leaves task (inside ∧ inside') disk disk'' :=
  ⟨h'.ready, by rw [h'.confined, h.confined, and_assoc]⟩

/-- Something is made in a directory. -/
theorem add (hready : task.Ready disk.tree) {parent : List Name} {name : Name}
    (hparent : disk.tree parent = some .directory) (hnone : disk.tree (parent ++ [name]) = none)
    (node : Node Name FileContent) :
    Leaves task (task.targetDir <+: parent) disk (disk.add (parent ++ [name]) node) := by
  refine ⟨hready.mono (hready.closed.insert hparent hnone node) (extends_insert hnone node), ?_⟩
  rw [← hready.prefix_iff hnone]
  constructor
  · intro hconfined
    exact ⟨fun loc hloc => hconfined loc (List.mem_append_left _ hloc),
      hconfined _ (List.mem_append_right _ (List.mem_singleton.mpr rfl))⟩
  · rintro ⟨hconfined, hinside⟩ loc hloc
    rcases List.mem_append.mp hloc with hloc | hloc
    · exact hconfined loc hloc
    · rwa [List.mem_singleton.mp hloc]

/-- Directories are made, each in the one before. -/
theorem addDirectories (hready : task.Ready disk.tree) {loc names : List Name}
    (hloc : disk.tree loc = some .directory)
    (hfree : ∀ name, names.head? = some name → disk.tree (loc ++ [name]) = none) :
    Leaves task (names ≠ [] → task.targetDir <+: loc) disk (disk.addDirectories loc names) := by
  induction names generalizing disk loc with
  | nil => exact .refl hready fun h => absurd rfl h
  | cons name names ih =>
      have hnone := hfree name rfl
      have hadd := Leaves.add hready hloc hnone .directory
      have hbelow : ∀ other, names.head? = some other →
          (disk.add (loc ++ [name]) .directory).tree (loc ++ [name] ++ [other]) = none := by
        intro other _
        rw [Disk.add_tree, insert_of_ne]
        · exact hready.closed.below (by rw [hnone]; simp) (List.cons_ne_nil _ _)
        · intro heq
          exact List.cons_ne_nil _ _ (List.append_right_eq_self.mp heq)
      refine (hadd.trans (ih hadd.ready (insert_self _ _ _) hbelow)).congr ⟨fun h _ => h.1, ?_⟩
      intro h
      have hinside := h (List.cons_ne_nil _ _)
      exact ⟨hinside, fun _ => hinside.trans (List.prefix_append _ _)⟩

/-- A file gets other content. -/
theorem replace (hready : task.Ready disk.tree) {loc : List Name} {content : FileContent}
    (hfile : disk.tree loc = some (.file content)) (content' : FileContent) (hinside : inside) :
    Leaves task inside disk (disk.replace loc content') := by
  refine ⟨⟨hready.closed.replace hfile content', ?_, hready.names⟩, (and_iff_left hinside).symm⟩
  rw [Disk.replace_tree, insert_of_ne]
  · exact hready.directory
  · rintro rfl
    rw [hready.directory] at hfile
    cases hfile

end Leaves

/-- A program that makes something outside the target directory exactly if a condition fails, also
if the program fails. -/
def InsideIff (task : ExtractIde) (inside : Prop) (program : Extraction Unit) (disk : Disk) : Prop :=
  wp (fun failure => Leaves task inside disk failure.2) program
    (fun _ disk' => Leaves task inside disk disk') disk

namespace InsideIff

variable {inside inside' : Prop} {program program' : Extraction Unit} {disk' : Disk}

theorem congr (h : InsideIff task inside program disk) (hiff : inside ↔ inside') :
    InsideIff task inside' program disk :=
  Library.wp_mono h (fun _ _ h => h.congr hiff) fun _ h => h.congr hiff

theorem of_run (hrun : program.run disk = .ok ((), disk')) (h : Leaves task inside disk disk') :
    InsideIff task inside program disk :=
  Library.wp_of_run hrun h

theorem of_run_eq (hrun : program.run disk = program'.run disk)
    (h : InsideIff task inside program' disk) : InsideIff task inside program disk := by
  unfold InsideIff wp at h ⊢
  rwa [hrun]

theorem of_refused (hready : task.Ready disk.tree) (h : Refused program disk) (hinside : inside) :
    InsideIff task inside program disk := by
  obtain ⟨failure, hrun⟩ := h
  rw [InsideIff, wp, hrun]
  exact .refl hready hinside

/-- One program after another. -/
theorem bind {inside' : Disk → Prop} (h : InsideIff task inside program disk)
    (h' : ∀ disk', program.run disk = .ok ((), disk') → task.Ready disk'.tree →
      InsideIff task (inside' disk') program' disk') :
    InsideIff task (inside ∧ ∀ disk', program.run disk = .ok ((), disk') → inside' disk')
      (program >>= fun _ => program') disk := by
  unfold InsideIff wp at h
  cases hrun : program.run disk with
  | error failure =>
      rw [hrun] at h
      rw [InsideIff, wp, StateT.run_bind, hrun]
      exact h.congr (and_iff_left fun disk' heq => by cases heq).symm
  | ok result =>
      rw [hrun] at h
      rw [InsideIff, wp, run_bind_of_run hrun]
      have hnext := h' result.2 hrun h.ready
      have hiff : (inside ∧ inside' result.2) ↔ inside ∧ ∀ disk', Except.ok result =
          (Except.ok ((), disk') : Except (Failure × Disk) (Unit × Disk)) → inside' disk' := by
        refine and_congr_right fun _ => ⟨?_, fun hall => hall result.2 rfl⟩
        rintro hinside disk' heq
        cases heq
        exact hinside
      exact Library.wp_mono hnext (fun _ _ hlast => (h.trans hlast).congr hiff)
        fun _ hlast => (h.trans hlast).congr hiff

/-- A program after one that returns and makes nothing outside. -/
theorem bind_of_run (hrun : program.run disk = .ok ((), disk')) (h : Leaves task True disk disk')
    (h' : InsideIff task inside program' disk') :
    InsideIff task inside (program >>= fun _ => program') disk := by
  rw [InsideIff, wp, run_bind_of_run hrun]
  exact Library.wp_mono h' (fun _ _ hlast => (h.trans hlast).congr (and_iff_right trivial))
    fun _ hlast => (h.trans hlast).congr (and_iff_right trivial)

/-- What is on the disk after the program. -/
theorem diskAfter (h : InsideIff task inside program disk) :
    Confined task (diskAfter program disk) ↔ Confined task disk ∧ inside := by
  unfold InsideIff wp at h
  unfold ExtractIde.diskAfter
  cases hrun : program.run disk with
  | ok result =>
      rw [hrun] at h
      exact h.confined
  | error failure =>
      rw [hrun] at h
      exact h.confined

end InsideIff

/-! ## What the Java runtime makes -/

/-- Where the next name of a way is free. -/
theorem wayInside_free {tree : Tree Name FileContent} {base child names loc : List Name}
    {name name' : Name} (hplace : placeOf tree (child ++ [name]) = .free (loc ++ [name'])) :
    WayInside tree base followsLinks child (name :: names) ↔ base <+: loc := by
  constructor
  · intro hway
    have hloc := hway.1 _ hplace
    rwa [List.dropLast_concat] at hloc
  · refine fun hbase => ⟨fun other hother => ?_, fun haccepted => ?_⟩
    · cases hplace.symm.trans hother
      rwa [List.dropLast_concat]
    · obtain ⟨_, _, hfound⟩ := found_of_accepted haccepted
      rw [placeOf_of_found hfound] at hplace
      cases hplace

/-- When the directories on a way are made inside. -/
theorem createEach_inside (hready : task.Ready disk.tree) {child names loc : List Name}
    {links : Nat} (hfound : look disk.tree child = .found loc links)
    (hclimbs : ClimbsFirst names) :
    InsideIff task (WayInside disk.tree task.targetDir followsLinks child names)
      (createEach followsLinks child names) disk := by
  induction names generalizing child loc links with
  | nil => exact .of_run rfl (.refl hready trivial)
  | cons name names ih =>
      obtain ⟨hlater, hclimbs⟩ := List.pairwise_cons.mp hclimbs
      by_cases hfree : ∃ other, placeOf disk.tree (child ++ [name]) = .free other
      · -- all that follows is made below the first directory
        obtain ⟨other, hplace⟩ := hfree
        obtain ⟨hloc, hname, hnone, rfl⟩ := of_placeOf_free hfound hplace
        have hhead : ∀ other, (name :: names).head? = some other →
            disk.tree (loc ++ [other]) = none := by
          rintro _ ⟨rfl⟩
          exact hnone
        refine .of_run (createEach_below followsLinks hready.closed hfound hloc
          (List.forall_mem_cons.mpr ⟨hname, fun later hmem => hlater later hmem hname⟩) hhead) ?_
        refine (Leaves.addDirectories hready hloc hhead).congr ?_
        rw [wayInside_free hplace]
        exact forall_prop_of_true (List.cons_ne_nil name names)
      · have hnotFree := not_exists.mp hfree
        cases haccepted : accepted followsLinks disk.tree (child ++ [name]) with
        | true =>
            obtain ⟨next, left, hnext⟩ := found_of_accepted haccepted
            refine ((ih hnext hclimbs).congr ?_).of_run_eq
              (run_bind_of_run (requireDirectory_accepted followsLinks haccepted))
            exact ⟨fun hway => ⟨fun other hplace => absurd hplace (hnotFree other), fun _ => hway⟩,
              fun hway => hway.2 haccepted⟩
        | false =>
            refine .of_refused hready ((requireDirectory_refused followsLinks hnotFree
              haccepted).bind _) ⟨fun other hplace => absurd hplace (hnotFree other), fun h => ?_⟩
            rw [haccepted] at h
            cases h

/-- The way to a path, when its nearest parent is known. -/
theorem directoriesInside_iff {tree : Tree Name FileContent} {base front rest loc : List Name}
    {name : Name} {links : Nat} (hfound : look tree front = .found loc links)
    (habsent : (look tree (front ++ [name])).Absent) :
    DirectoriesInside tree base followsLinks (front ++ name :: rest) ↔
      WayInside tree base followsLinks front (relativize front (front ++ name :: rest)) := by
  constructor
  · exact fun hinside => hinside front name rest loc links rfl hfound habsent
  · intro hway front' name' rest' loc' links' hsplit hfound' habsent'
    obtain rfl := front_unique hsplit hfound habsent hfound' habsent'
    exact hway

/-- For a path that exists or fails there is no way. -/
theorem directoriesInside_of_not_absent {tree : Tree Name FileContent} {base names : List Name}
    (h : ¬ (look tree names).Absent) : DirectoriesInside tree base followsLinks names := by
  rintro front name rest loc links rfl hfound habsent
  have hlater := look_absent_append habsent rest
  rw [List.append_assoc, List.singleton_append] at hlater
  exact absurd hlater h

/-- When the directories for a path are made inside. -/
theorem createDirectories_inside (followsLinks : Bool) (hready : task.Ready disk.tree)
    (names : List Name) :
    InsideIff task (DirectoriesInside disk.tree task.targetDir followsLinks names)
      (createDirectories followsLinks names) disk := by
  rcases look_cases disk.tree names with
    ⟨loc, links, hfound⟩ | ⟨front, name, rest, loc, links, rfl, hfound, habsent | hfailed⟩
  · have hinside : DirectoriesInside disk.tree task.targetDir followsLinks names :=
      directoriesInside_of_not_absent (by rw [hfound]; exact not_false)
    rcases createDirectories_found followsLinks hfound with hrun | hrefused
    · exact .of_run hrun (.refl hready hinside)
    · exact .of_refused hready hrefused hinside
  · have hiff : WayInside disk.tree task.targetDir followsLinks front
          (relativize front (front ++ name :: rest)) ↔
        DirectoriesInside disk.tree task.targetDir followsLinks (front ++ name :: rest) :=
      (directoriesInside_iff hfound habsent).symm
    rcases createDirectories_absent followsLinks hfound habsent with hrun | ⟨hnil, hrefused⟩
    · exact ((createEach_inside hready hfound (relativize_climbsFirst _ _)).congr hiff).of_run_eq hrun
    · refine .of_refused hready hrefused (hiff.mp ?_)
      rw [hnil]
      trivial
  · have hrest : (look disk.tree (front ++ name :: rest)).Failed := by
      have hlater := look_failed_append hfailed rest
      rwa [List.append_assoc, List.singleton_append] at hlater
    refine .of_refused hready (createDirectories_failed followsLinks hfound hfailed)
      (directoriesInside_of_not_absent fun habsent => ?_)
    cases hlook : look disk.tree (front ++ name :: rest) <;>
      simp [hlook, Outcome.Failed, Outcome.Absent] at hrest habsent

/-- When the last name of a path is made inside. -/
theorem writeEntry_inside (hready : task.Ready disk.tree) (target : List Name) :
    InsideIff task (LastInside disk.tree task.targetDir member target) (writeEntry member target)
      disk := by
  rw [writeEntry]
  split
  next hlink =>
    have hfile : member.entry.isSymbolicLink ≠ false := by simp [hlink]
    by_cases hvalid : '\x00' ∈ member.entry.linkName
    · exact .of_refused hready ((pathOf_invalid hvalid disk).bind _)
        ⟨fun _ h => absurd hvalid h, fun h => absurd h hfile⟩
    · refine InsideIff.of_run_eq (run_bind_of_run (pathOf_valid hvalid disk)) ?_
      by_cases hempty : parsePath member.entry.linkName = ⟨false, []⟩
      · exact .of_refused hready (createSymbolicLink_refused (.inl (by simp [hempty])))
          ⟨fun _ _ h => absurd hempty h, fun h => absurd h hfile⟩
      · by_cases hfree : ∃ loc, placeOf disk.tree target = .free loc
        · obtain ⟨loc, hplace⟩ := hfree
          obtain ⟨parent, name, rfl, hparent, hnone⟩ := place_free hplace
          refine .of_run (createSymbolicLink_free ?_ hplace)
            ((Leaves.add hready hparent hnone _).congr ⟨fun hinside => ⟨?_, ?_⟩, fun hinside => ?_⟩)
          · rcases Bool.eq_false_or_eq_true (parsePath member.entry.linkName).absolute with h | h
            · exact .inl h
            · refine .inr fun hnames => hempty ?_
              rw [← h, ← hnames]
          · intro _ _ _ other hother
            cases hplace.symm.trans hother
            rwa [List.dropLast_concat]
          · exact fun h => absurd h hfile
          · have hloc := hinside.link hlink hvalid hempty _ hplace
            rwa [List.dropLast_concat] at hloc
        · have hnotFree := not_exists.mp hfree
          exact .of_refused hready (createSymbolicLink_refused (.inr hnotFree))
            ⟨fun _ _ _ loc hplace => absurd hplace (hnotFree loc), fun h => absurd h hfile⟩
  next hlink =>
    have hfile : member.entry.isSymbolicLink = false := by simpa using hlink
    by_cases hmissing : ∃ loc, look disk.tree target = .missing loc
    · obtain ⟨loc, hlook⟩ := hmissing
      obtain ⟨parent, name, rfl, hparent, hnone⟩ := walk_missing_parent hlook
      refine .of_run (writeFile_missing hlook)
        ((Leaves.add hready hparent hnone _).congr ⟨fun hinside => ⟨?_, ?_⟩, fun hinside => ?_⟩)
      · exact fun h => absurd h hlink
      · intro _ other hother
        cases hlook.symm.trans hother
        rwa [List.dropLast_concat]
      · have hloc := hinside.file hfile _ hlook
        rwa [List.dropLast_concat] at hloc
    · have hnotMissing := not_exists.mp hmissing
      have hinside : LastInside disk.tree task.targetDir member target :=
        ⟨fun h => absurd h hlink, fun _ loc hlook => absurd hlook (hnotMissing loc)⟩
      rcases writeFile_cases member.data hnotMissing with
        ⟨loc, content, content', hnode, hrun⟩ | hrefused
      · exact .of_run hrun (.replace hready hnode content' hinside)
      · exact .of_refused hready hrefused hinside

/-! ## Entries -/

/-- When everything that is made for the path of an entry is inside. -/
theorem extractFile_inside (followsLinks : Bool) (member : Member)
    (hready : task.Ready disk.tree) (target : List Name) :
    InsideIff task (FileInside followsLinks task disk member target)
      (extractFile followsLinks member target) disk := by
  cases hexists : fileExists disk.tree target with
  | true =>
      refine .of_refused hready (extractFile_refused (.inl hexists)) fun h => ?_
      rw [hexists] at h
      cases h
  | false =>
      by_cases hempty : target = []
      · refine .of_refused hready ?_ fun _ h => absurd hempty h
        refine refused_bind_of_run rfl ?_
        simp only [hexists, Bool.false_eq_true, if_false, if_pos hempty]
        exact refused_failWith _ disk
      · have hlast : ∀ disk' : Disk,
            (createDirectories followsLinks target.dropLast).run disk = .ok ((), disk') →
              task.Ready disk'.tree →
                InsideIff task (LastInside disk'.tree task.targetDir member target)
                  (writeEntry member target) disk' :=
          fun _ _ hready' => writeEntry_inside hready' target
        have hboth := (createDirectories_inside followsLinks hready target.dropLast).bind hlast
        exact (hboth.congr ⟨fun h _ _ => h, fun h => h hexists hempty⟩).of_run_eq
          (extractFile_steps hexists hempty)

/-- When everything that one entry makes is inside. -/
theorem extractEntry_inside (followsLinks : Bool) (top : Name) (member : Member)
    (hready : task.Ready disk.tree) :
    InsideIff task (EntryInside followsLinks task top disk member)
      (task.extractEntry followsLinks top member) disk := by
  by_cases hextracts : Extracts top member
  · have hfile := extractFile_inside followsLinks member hready (task.target top member)
    exact (hfile.congr ⟨fun h _ => h, fun h => h hextracts⟩).of_run_eq (extractEntry_file hextracts)
  · have hinside : EntryInside followsLinks task top disk member := fun h => absurd h hextracts
    rcases extractEntry_cases followsLinks top member hready with hrefused | hrun | h
    · exact .of_refused hready hrefused hinside
    · exact .of_run hrun (.refl hready hinside)
    · exact absurd h hextracts

/-! ## Whole runs -/

/-- When everything that the entries of an archive make is inside. -/
theorem forM_inside (followsLinks : Bool) (top : Name) (members : List Member)
    (hready : task.Ready disk.tree) :
    InsideIff task (StepsInside followsLinks task top disk members)
      (members.forM (task.extractEntry followsLinks top)) disk := by
  induction members generalizing disk with
  | nil => exact .of_run rfl (.refl hready trivial)
  | cons member members ih =>
      rw [List.forM_eq_forM, List.forM_cons]
      exact (extractEntry_inside followsLinks top member hready).bind fun _ _ hready' => ih hready'

/-- The target directory itself is made inside. -/
theorem clearTarget_leaves (hready : task.Ready disk.tree) :
    Leaves task True disk (task.cleared disk) := by
  refine ⟨cleared_ready hready, ?_⟩
  rw [and_true]
  constructor
  · exact fun hconfined loc hloc => hconfined loc (List.mem_append_left _ hloc)
  · intro hconfined loc hloc
    rcases List.mem_append.mp hloc with hloc | hloc
    · exact hconfined loc hloc
    · rw [List.mem_singleton.mp hloc]

/-- When everything that a run makes is inside. -/
theorem run_inside (followsLinks : Bool) (hready : task.Ready disk.tree) (source : List Member) :
    InsideIff task (RunInside followsLinks task disk source) (task.run followsLinks source)
      disk := by
  have hcleared := clearTarget_leaves hready
  have hfail : ∀ failure, Refused (fail failure : Extraction Unit) (task.cleared disk) :=
    fun _ => ⟨_, rfl⟩
  cases source with
  | nil => exact .bind_of_run rfl hcleared (.of_refused hcleared.ready (hfail _) trivial)
  | cons first members =>
      refine .bind_of_run rfl hcleared ?_
      dsimp only
      split
      next hheader =>
        refine .of_refused hcleared.ready (hfail _) fun hdirectory hslash => ?_
        rcases hheader with h | h
        · rw [hdirectory] at h
          cases h
        · exact absurd hslash h
      next hheader =>
        obtain ⟨hdirectory, hslash⟩ := not_or.mp hheader
        refine (forM_inside followsLinks first.entry.name members hcleared.ready).congr ?_
        rw [RunInside, forall_prop_of_true (by simpa using hdirectory),
          forall_prop_of_true (not_not.mp hslash)]

/-! ## Archives that climb -/

/-- An archive with one file of one byte. -/
def ideaWith (name : Name) (hname : endsWithSlash name = false) : List Member :=
  [ideaTop, readMember name .regular [] [0] (.inr ⟨by simp, hname⟩)]

end ExtractIde

end Packaging
end IdeMultiarch
