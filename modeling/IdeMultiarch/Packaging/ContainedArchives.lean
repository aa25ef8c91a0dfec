import IdeMultiarch.Packaging.Containment
import IdeMultiarch.Packaging.ExtractedTree

/-!
# Packaging - archives that stay inside on every disk

Where an entry lands depends on the disk and on the links of the entries before it.  In an archive
without dots in its names, in which nothing is at or below a link that comes before it, nothing
depends on them.

Main results:

- Theorem {lit}`noNewLinks_createDirectories`: making directories makes no links.
- Theorem {lit}`entryInside_plain`: a path without dots and links stays inside.
- Theorem {lit}`plainArchive_confined`: what such an archive makes on any disk.
-/

namespace IdeMultiarch
namespace Packaging

open Library (Respects run_bind_of_run)
open Library.FileTree

namespace ExtractIde

variable {followsLinks : Bool} {task : ExtractIde} {top : Name} {member : Member} {disk : Disk}

/-! ## Where links appear -/

/-- No symbolic link appears. -/
def NoNewLinks (disk disk' : Disk) : Prop :=
  ∀ loc target, disk'.tree loc = some (.link target) → disk.tree loc = some (.link target)

theorem NoNewLinks.refl (disk : Disk) : NoNewLinks disk disk :=
  fun _ _ h => h

theorem NoNewLinks.trans (disk disk' disk'' : Disk) (h : NoNewLinks disk disk')
    (h' : NoNewLinks disk' disk'') : NoNewLinks disk disk'' :=
  fun loc target hlink => h loc target (h' loc target hlink)

theorem noNewLinks_failWith {α : Type} (exception : String) :
    Respects NoNewLinks (failWith exception : Extraction α) :=
  Respects.bind NoNewLinks.trans (Respects.get NoNewLinks.refl) fun _ =>
    Respects.throw _

theorem noNewLinks_createDirectory (names : List Name) :
    Respects NoNewLinks (createDirectory names) := by
  refine Respects.bind NoNewLinks.trans (Respects.get NoNewLinks.refl) fun disk => ?_
  split
  next loc _ =>
    refine Respects.bind NoNewLinks.trans (Respects.modify fun disk => ?_)
      fun _ => Respects.pure NoNewLinks.refl _
    intro other target hlink
    by_cases heq : other = loc
    · rw [heq, Disk.add_tree, insert_self] at hlink
      cases hlink
    · rwa [Disk.add_tree, insert_of_ne _ _ heq] at hlink
  next => exact Respects.pure NoNewLinks.refl _
  next => exact Respects.pure NoNewLinks.refl _

theorem noNewLinks_createAndCheck (followsLinks : Bool) (names : List Name) :
    Respects NoNewLinks (createAndCheckIsDirectory followsLinks names) := by
  refine Respects.bind NoNewLinks.trans (noNewLinks_createDirectory names) fun made => ?_
  cases made with
  | ok => exact Respects.pure NoNewLinks.refl _
  | failed => exact Respects.pure NoNewLinks.refl _
  | alreadyExists =>
      refine Respects.bind NoNewLinks.trans (Respects.get NoNewLinks.refl)
        fun disk => ?_
      split
      · exact Respects.pure NoNewLinks.refl _
      · exact Respects.pure NoNewLinks.refl _

theorem noNewLinks_requireDirectory (followsLinks : Bool) (names : List Name) :
    Respects NoNewLinks (requireDirectory followsLinks names) := by
  refine Respects.bind NoNewLinks.trans (noNewLinks_createAndCheck followsLinks names)
    fun made => ?_
  cases made with
  | ok => exact Respects.pure NoNewLinks.refl _
  | failed => exact noNewLinks_failWith _
  | alreadyExists => exact noNewLinks_failWith _

theorem noNewLinks_existingParent (names : List Name) (count : Nat) :
    Respects NoNewLinks (existingParent names count) := by
  induction count with
  | zero =>
      refine Respects.bind NoNewLinks.trans (Respects.get NoNewLinks.refl)
        fun disk => ?_
      split
      · exact Respects.pure NoNewLinks.refl _
      · exact noNewLinks_failWith _
  | succ count ih =>
      refine Respects.bind NoNewLinks.trans (Respects.get NoNewLinks.refl)
        fun disk => ?_
      split
      · exact Respects.pure NoNewLinks.refl _
      · exact ih
      · exact ih
      · exact noNewLinks_failWith _

theorem noNewLinks_createEach (followsLinks : Bool) (child names : List Name) :
    Respects NoNewLinks (createEach followsLinks child names) := by
  induction names generalizing child with
  | nil => exact Respects.pure NoNewLinks.refl _
  | cons name names ih =>
      exact Respects.bind NoNewLinks.trans (noNewLinks_requireDirectory followsLinks _)
        fun _ => ih _

/-- Making directories makes no links. -/
theorem noNewLinks_createDirectories (followsLinks : Bool) (names : List Name) :
    Respects NoNewLinks (createDirectories followsLinks names) := by
  refine Respects.bind NoNewLinks.trans (noNewLinks_createAndCheck followsLinks names)
    fun made => ?_
  cases made with
  | ok => exact Respects.pure NoNewLinks.refl _
  | alreadyExists => exact noNewLinks_failWith _
  | failed =>
      refine Respects.bind NoNewLinks.trans (noNewLinks_existingParent names _)
        fun parent => ?_
      split
      · exact noNewLinks_requireDirectory followsLinks parent
      · exact noNewLinks_createEach followsLinks parent _

/-- A link appears where an entry is written only. -/
theorem link_of_writeEntry {names loc : List Name} {target : Target Name} {disk' : Disk}
    (hrun : (writeEntry member names).run disk = .ok ((), disk'))
    (hlink : disk'.tree loc = some (.link target)) :
    disk.tree loc = some (.link target) ∨
      (member.entry.isSymbolicLink = true ∧ placeOf disk.tree names = .free loc) := by
  have hnot : ∀ {program : Extraction Unit}, program.run disk = .ok ((), disk') →
      ¬ Refused program disk := by
    rintro program hok ⟨failure, hfailure⟩
    rw [hok] at hfailure
    cases hfailure
  rw [writeEntry] at hrun
  split at hrun
  next hsymbolic =>
    by_cases hvalid : '\x00' ∈ member.entry.linkName
    · exact absurd ((pathOf_invalid hvalid disk).bind _) (hnot hrun)
    · rw [run_bind_of_run (pathOf_valid hvalid disk)] at hrun
      by_cases hempty : (parsePath member.entry.linkName).absolute = false ∧
          (parsePath member.entry.linkName).names = []
      · exact absurd (createSymbolicLink_refused (.inl hempty)) (hnot hrun)
      · by_cases hfree : ∃ other, placeOf disk.tree names = .free other
        · obtain ⟨other, hplace⟩ := hfree
          have hmade : (parsePath member.entry.linkName).absolute = true ∨
              (parsePath member.entry.linkName).names ≠ [] := by
            rcases Bool.eq_false_or_eq_true (parsePath member.entry.linkName).absolute with h | h
            · exact .inl h
            · exact .inr fun hnames => hempty ⟨h, hnames⟩
          rw [createSymbolicLink_free hmade hplace] at hrun
          cases hrun
          by_cases heq : loc = other
          · exact .inr ⟨hsymbolic, by rw [hplace, heq]⟩
          · rw [Disk.add_tree, insert_of_ne _ _ heq] at hlink
            exact .inl hlink
        · exact absurd (createSymbolicLink_refused (.inr (not_exists.mp hfree))) (hnot hrun)
  next =>
    have hfile : ∀ other content, disk' = disk.add other (.file content) ∨
        disk' = disk.replace other content → disk.tree loc = some (.link target) := by
      intro other content hdisk
      have htree : disk'.tree = insert disk.tree other (.file content) := by
        rcases hdisk with rfl | rfl <;> rfl
      rw [htree] at hlink
      by_cases heq : loc = other
      · rw [heq, insert_self] at hlink
        cases hlink
      · rwa [insert_of_ne _ _ heq] at hlink
    by_cases hmissing : ∃ other, look disk.tree names = .missing other
    · obtain ⟨other, hlook⟩ := hmissing
      rw [writeFile_missing hlook] at hrun
      cases hrun
      exact .inl (hfile other _ (.inl rfl))
    · rcases writeFile_cases member.data (not_exists.mp hmissing) with
        ⟨other, _, content, -, hwritten⟩ | hrefused
      · rw [hwritten] at hrun
        cases hrun
        exact .inl (hfile other content (.inr rfl))
      · exact absurd hrefused (hnot hrun)

/-! ## Paths without dots -/

section

variable {tree : Tree Name FileContent} {names : List Name}

/-- Where a path without dots leads on which there are no links. -/
theorem look_endsAt (hnames : ∀ name ∈ names, stepOf name = .into name)
    (hlinks : ∀ inner target, inner <+: names → tree inner ≠ some (.link target)) :
    (look tree names).EndsAt names := by
  rw [look, map_stepOf hnames]
  exact walk_endsAt hlinks MAXSYMLINKS

/-- There are no links on a path from the target directory on. -/
theorem Ready.noLinks (hready : task.Ready tree)
    (hlinks : ∀ inner target, inner <+: names → tree (task.targetDir ++ inner) ≠ some (.link target))
    {inner : List Name} {target : Target Name} (hinner : inner <+: task.targetDir ++ names) :
    tree inner ≠ some (.link target) := by
  rcases List.prefix_or_prefix_of_prefix hinner (List.prefix_append task.targetDir names) with
    ⟨more, hmore⟩ | ⟨more, rfl⟩
  · by_cases hnil : more = []
    · rw [hnil, List.append_nil] at hmore
      rw [hmore, hready.directory]
      simp
    · have habove := hready.directory
      rw [← hmore] at habove
      rw [hready.closed.above (by rw [habove]; simp) hnil]
      simp
  · exact hlinks more target ((List.prefix_append_right_inj _).mp hinner)

variable (hready : task.Ready tree) (hnames : ∀ name ∈ names, stepOf name = .into name)
  (hlinks : ∀ inner target, inner <+: names → tree (task.targetDir ++ inner) ≠ some (.link target))
include hready hnames hlinks

/-- The directories for a path without dots on which there are no links stay inside. -/
theorem directoriesInside_plain (followsLinks : Bool) :
    DirectoriesInside tree task.targetDir followsLinks (task.targetDir ++ names) := by
  intro front name rest loc links hsplit hfound habsent
  have hall : ∀ other ∈ front ++ name :: rest, stepOf other = .into other := by
    rw [← hsplit]
    exact List.forall_mem_append.mpr ⟨hready.names, hnames⟩
  have hfrontNames : ∀ other ∈ front, stepOf other = .into other :=
    fun other hother => hall other (List.mem_append_left _ hother)
  obtain ⟨hname, hrest⟩ := List.forall_mem_cons.mp (List.forall_mem_append.mp hall).2
  have hfront : front <+: task.targetDir ++ names := by
    rw [hsplit]
    exact List.prefix_append _ _
  have hnext : front ++ [name] <+: task.targetDir ++ names := by
    rw [hsplit]
    exact (List.prefix_append_right_inj front).mpr (List.prefix_append [name] rest)
  -- the path exists up to the target directory at least
  have hbase : task.targetDir <+: front := by
    rcases List.prefix_or_prefix_of_prefix (List.prefix_append task.targetDir names) hnext with
      hpre | ⟨more, hmore⟩
    · rcases List.prefix_concat_iff.mp hpre with heq | hpre
      · rw [← heq, look_names hready.closed hready.names hready.directory (by simp)] at habsent
        exact habsent.elim
      · exact hpre
    · have hdirectory := hready.directory
      rw [← hmore] at hdirectory
      have hfoundNext : tree (front ++ [name]) = some .directory := by
        by_cases hnil : more = []
        · rwa [hnil, List.append_nil] at hdirectory
        · exact hready.closed.above (by rw [hdirectory]; simp) hnil
      have hnextNames : ∀ other ∈ front ++ [name], stepOf other = .into other :=
        List.forall_mem_append.mpr ⟨hfrontNames, by simpa using hname⟩
      rw [look_names hready.closed hnextNames hfoundNext (by simp)] at habsent
      exact habsent.elim
  have hends := look_endsAt hfrontNames fun inner target hinner =>
    hready.noLinks hlinks (hinner.trans hfront)
  rw [hfound] at hends
  have hloc : loc = front := hends
  have hstays : StaysBelow 0 (rest.map stepOf) := by
    rw [map_stepOf hrest]
    exact staysBelow_into 0 rest
  rw [hsplit, relativize_below hname hstays]
  refine ⟨fun other hplace => ?_, fun haccepted => ?_⟩
  · obtain ⟨-, -, -, rfl⟩ := of_placeOf_free hfound hplace
    rwa [List.dropLast_concat, hloc]
  · obtain ⟨_, _, hexists⟩ := found_of_accepted haccepted
    rw [hexists] at habsent
    exact habsent.elim

/-- The last name of such a path stays inside. -/
theorem lastInside_plain (hne : names ≠ []) (member : Member) :
    LastInside tree task.targetDir member (task.targetDir ++ names) := by
  have hends : (look tree (task.targetDir ++ names)).EndsAt (task.targetDir ++ names) :=
    look_endsAt (List.forall_mem_append.mpr ⟨hready.names, hnames⟩)
      fun _ _ hinner => hready.noLinks hlinks hinner
  have hinside : task.targetDir <+: (task.targetDir ++ names).dropLast := by
    rw [List.dropLast_append_of_ne_nil hne]
    exact List.prefix_append _ _
  have hmissing : ∀ loc, look tree (task.targetDir ++ names) = .missing loc →
      task.targetDir <+: loc.dropLast := by
    intro loc hlook
    rw [hlook] at hends
    obtain rfl : loc = task.targetDir ++ names := hends
    exact hinside
  exact ⟨fun _ _ _ loc hplace => hmissing loc (walk_of_place_free hplace), fun _ => hmissing⟩

end

/-! ## Entries without dots in their names -/

/-- There are no links on the path of an entry. -/
def NoLinksOn (task : ExtractIde) (top : Name) (tree : Tree Name FileContent) (member : Member) :
    Prop :=
  ∀ inner target, inner <+: pathBelow top member →
    tree (task.targetDir ++ inner) ≠ some (.link target)

section

variable (hready : task.Ready disk.tree) (hplain : PlainEntry top member)
  (hlinks : member.entry.isDirectory = false → NoLinksOn task top disk.tree member)
include hready hplain hlinks

/-- An entry without dots in its name stays inside, when there are no links on its path. -/
theorem entryInside_plain (followsLinks : Bool) :
    EntryInside followsLinks task top disk member := by
  intro hextracts
  have hlinks := hlinks hextracts.noDirectory
  rw [hplain.target_eq]
  intro _ _
  have hne := hplain.pathBelow_ne_nil hextracts.noDirectory
  rw [List.dropLast_append_of_ne_nil hne]
  refine ⟨directoriesInside_plain hready
    (fun name hname => hplain.plain name (List.mem_of_mem_dropLast hname))
    (fun inner target hinner => hlinks inner target (hinner.trans (List.dropLast_prefix _)))
    followsLinks, fun disk' hrun => ?_⟩
  have hnext := Library.run_of_wp (createDirectories_inside followsLinks hready _) hrun
  exact lastInside_plain hnext.ready hplain.plain (fun inner target hinner hlink =>
    hlinks inner target hinner (noNewLinks_createDirectories followsLinks _ _ _ _ hrun _ _ hlink))
    hne member

/-- Such an entry makes a link at the end of its path only. -/
theorem link_of_extractEntry {loc : List Name} {target : Target Name} {disk' : Disk}
    (hrun : (task.extractEntry followsLinks top member).run disk = .ok ((), disk'))
    (hlink : disk'.tree loc = some (.link target)) :
    disk.tree loc = some (.link target) ∨
      (member.entry.isSymbolicLink = true ∧ loc = task.targetDir ++ pathBelow top member) := by
  rcases extractEntry_cases followsLinks top member hready with
    ⟨failure, hfailure⟩ | hsame | hextracts
  · rw [hrun] at hfailure
    cases hfailure
  · rw [hrun] at hsame
    cases hsame
    exact .inl hlink
  · have hlinks := hlinks hextracts.noDirectory
    rw [extractEntry_file hextracts, hplain.target_eq] at hrun
    have hne := hplain.pathBelow_ne_nil hextracts.noDirectory
    cases hexists : fileExists disk.tree (task.targetDir ++ pathBelow top member) with
    | true =>
        have hrefused : Refused (extractFile followsLinks member
          (task.targetDir ++ pathBelow top member)) disk := extractFile_refused (.inl hexists)
        obtain ⟨failure, hfailure⟩ := hrefused
        rw [hrun] at hfailure
        cases hfailure
    | false =>
        rw [extractFile_steps hexists (List.append_ne_nil_of_right_ne_nil _ hne)] at hrun
        obtain ⟨_, disk'', hdirectories, hwritten⟩ := Library.run_bind_eq_ok hrun
        have hnew := noNewLinks_createDirectories followsLinks _ _ _ _ hdirectories
        rcases link_of_writeEntry hwritten hlink with hold | ⟨hsymbolic, hplace⟩
        · exact .inl (hnew loc target hold)
        · have hnext := Library.run_of_wp (createDirectories_inside followsLinks hready _) hdirectories
          have hends : (look disk''.tree (task.targetDir ++ pathBelow top member)).EndsAt
              (task.targetDir ++ pathBelow top member) :=
            look_endsAt (List.forall_mem_append.mpr ⟨hready.names, hplain.plain⟩)
              fun inner target hinner => hnext.ready.noLinks
                (fun more target hmore hold => hlinks more target hmore (hnew _ _ hold)) hinner
          have hmissing := walk_of_place_free hplace
          rw [look, hmissing] at hends
          exact .inr ⟨hsymbolic, hends⟩

end

/-- Entries without dots in their names stay inside, if none of them is at or below a link that
comes before it. -/
theorem stepsInside_plain (followsLinks : Bool) {members : List Member}
    (hready : task.Ready disk.tree) (hplain : ∀ member ∈ members, PlainEntry top member)
    (hlater : members.Pairwise fun member later => later.entry.isDirectory = false →
      member.entry.isSymbolicLink = true → ¬ pathBelow top member <+: pathBelow top later)
    (hlinks : ∀ member ∈ members, member.entry.isDirectory = false →
      NoLinksOn task top disk.tree member) :
    StepsInside followsLinks task top disk members := by
  induction members generalizing disk with
  | nil => trivial
  | cons member members ih =>
      obtain ⟨hmember, hmembers⟩ := List.forall_mem_cons.mp hplain
      obtain ⟨hfirst, hothers⟩ := List.pairwise_cons.mp hlater
      have hmemberLinks := hlinks member List.mem_cons_self
      refine ⟨entryInside_plain hready hmember hmemberLinks followsLinks, fun disk' hrun => ?_⟩
      have hnext := Library.run_of_wp (extractEntry_inside followsLinks top member hready) hrun
      refine ih hnext.ready hmembers hothers fun later hmem hfile inner target hinner hlink => ?_
      rcases link_of_extractEntry hready hmember hmemberLinks hrun hlink with
        hold | ⟨hsymbolic, heq⟩
      · exact hlinks later (List.mem_cons_of_mem _ hmem) hfile inner target hinner hold
      · rw [List.append_cancel_left heq] at hinner
        exact hfirst later hmem hfile hsymbolic hinner

/-- A plain archive in which no file or link comes after a link with the same path stays inside the
target directory on every disk. -/
theorem plainArchive_inside (followsLinks : Bool) {first : Member} {members : List Member}
    (harchive : PlainArchive first members)
    (hapart : members.Pairwise fun member later => later.entry.isDirectory = false →
      member.entry.isSymbolicLink = true →
        pathBelow first.entry.name member ≠ pathBelow first.entry.name later)
    {tree : Tree Name FileContent} (hready : task.Ready tree) :
    RunInside followsLinks task ⟨tree, []⟩ (first :: members) := by
  intro _ _
  refine stepsInside_plain followsLinks (cleared_ready hready)
    (fun member hmember => harchive.entry hmember) ?_ fun member _ _ inner target _ hlink => ?_
  · refine List.Pairwise.imp_of_mem ?_ hapart
    intro member later hmember hlater hne hfile hsymbolic hpre
    exact hne hfile hsymbolic (harchive.links member hmember later hlater hsymbolic hpre)
  · by_cases hnil : inner = []
    · rw [hnil, List.append_nil, cleared_target] at hlink
      cases hlink
    · rw [cleared_below hnil] at hlink
      cases hlink

/-- On every disk, everything that such an archive makes is at or below the target directory. -/
theorem plainArchive_confined (followsLinks : Bool) {first : Member} {members : List Member}
    (harchive : PlainArchive first members)
    (hapart : members.Pairwise fun member later => later.entry.isDirectory = false →
      member.entry.isSymbolicLink = true →
        pathBelow first.entry.name member ≠ pathBelow first.entry.name later)
    {tree : Tree Name FileContent} (hready : task.Ready tree) :
    Confined task (diskAfter (task.run followsLinks (first :: members)) ⟨tree, []⟩) := by
  refine (run_inside followsLinks hready (first :: members)).diskAfter.mpr ⟨?_, ?_⟩
  · exact fun loc hloc => absurd hloc List.not_mem_nil
  · exact plainArchive_inside followsLinks harchive hapart hready

end ExtractIde

end Packaging
end IdeMultiarch
