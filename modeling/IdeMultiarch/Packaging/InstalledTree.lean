import IdeMultiarch.Packaging.CreateDeb

/-!
# Packaging - the tree that the package installs

The package is meant to install what the tar holds.  The headers of the data archive are made
anew, and a new header is that of a regular file: a symbolic link of the tar becomes a file.

Main results:

- Theorem {lit}`SameTree.regular`: a package with the tree of the tar was made from files only.
- Theorem {lit}`same_tree_iff`: the package has the tree of the tar if and only if the tar has
  nothing but regular files and directories, and no file twice.
-/

namespace IdeMultiarch
namespace Packaging
namespace CreateDeb

open Library.Results (bind_eq_ok)

variable {lib : TarLibrary} {task : CreateDeb}

/-! ## The same tree -/

/-- A member of the package is the one of the tar: of the same type, with the same mode and bytes,
and with the same target if it is a symbolic link. -/
structure InstalledAs (member out : Member) : Prop where
  linkFlag : out.entry.linkFlag = member.entry.linkFlag
  mode : out.entry.mode = member.entry.mode
  data : out.data = member.data
  linkName : member.entry.isSymbolicLink = true → out.entry.linkName = member.entry.linkName

/-- The package installs the tree of the tar: each member that is not a directory is there exactly
once, and besides directories and the one desktop entry there is nothing else. -/
structure SameTree (task : CreateDeb) (input output : List Member) : Prop where
  copied : ∀ member ∈ input, member.entry.isDirectory = false →
    ∃ out, named (task.installTarget member.entry.name) output = [out] ∧ InstalledAs member out
  desktop : ∃ out, named task.desktopPath output = [out]
  nothingElse : ∀ out ∈ output, out.entry.isDirectory = false →
    out.entry.name = task.desktopPath ∨
      ∃ member ∈ input, member.entry.isDirectory = false ∧
        out.entry.name = task.installTarget member.entry.name

/-! ## The members of the data archive by name -/

/-- A file is in the list of the files. -/
theorem mem_files {member : Member} {members : List Member} :
    member ∈ files members ↔ member ∈ members ∧ endsWithSlash member.entry.name = false := by
  simp [files]

/-- What is no directory is a file. -/
theorem isDirectory_eq_false {entry : TarArchiveEntry} :
    entry.isDirectory = false ↔
      entry.linkFlag ≠ .directory ∧ endsWithSlash entry.name = false := by
  simp [TarArchiveEntry.isDirectory]

/-- The members with the name of a file are among the files. -/
theorem named_files {name : Name} (hname : endsWithSlash name = false) (members : List Member) :
    named name (files members) = named name members := by
  unfold named files
  rw [List.filter_filter]
  refine List.filter_congr fun member _ => ?_
  by_cases heq : member.entry.name = name
  · simp [heq, hname]
  · simp [heq]

/-- The contents of the members with a name are the contents with that name. -/
theorem map_contents_named (name : Name) (members : List Member) :
    (named name members).map contents =
      (members.map contents).filter fun content => content.1.name = name := by
  unfold named
  rw [List.filter_map]
  rfl

/-- The members of the data archive at the place of a file are made from the files that go there. -/
theorem named_installTarget {input output : List Member}
    (h : task.createData lib input = .ok output) {member : Member} (hmember : member ∈ files input) :
    (named (task.installTarget member.entry.name) output).map contents =
      ((files input).filter fun other =>
        pathInside other.entry.name = pathInside member.entry.name).map (installed lib task) := by
  obtain ⟨hfiles, hslash⟩ := createData_files h
  obtain ⟨idx, hidx⟩ := hslash member hmember
  have hfile := endsWithSlash_installTarget task hidx (mem_files.mp hmember).2
  rw [← named_files hfile, map_contents_named, hfiles, List.filter_append, List.filter_map]
  have hdesktop : (desktopContents lib task).1.name = task.desktopPath :=
    newTarArchiveEntry_name (desktopPath_file task).2
  have hne := installTarget_ne_desktopPath task member.entry.name
  have hrest : [desktopContents lib task].filter
      (fun content => content.1.name = task.installTarget member.entry.name) = [] := by
    simp [hdesktop, hne.symm]
  rw [hrest, List.append_nil]
  congr 1
  refine List.filter_congr fun other hother => ?_
  obtain ⟨idx', hidx'⟩ := hslash other hother
  have hname := (installed_file lib task hidx' (mem_files.mp hother).2).1
  simp only [Function.comp_apply, hname]
  simp [installTarget]

/-- There is one desktop entry. -/
theorem named_desktopPath {input output : List Member}
    (h : task.createData lib input = .ok output) :
    (named task.desktopPath output).map contents = [desktopContents lib task] := by
  obtain ⟨hfiles, hslash⟩ := createData_files h
  have hdesktop : (desktopContents lib task).1.name = task.desktopPath :=
    newTarArchiveEntry_name (desktopPath_file task).2
  rw [← named_files (desktopPath_file task).1, map_contents_named, hfiles, List.filter_append]
  have hrest : ((files input).map (installed lib task)).filter
      (fun content => content.1.name = task.desktopPath) = [] := by
    rw [List.filter_eq_nil_iff]
    intro content hcontent
    obtain ⟨member, hmember, rfl⟩ := List.mem_map.mp hcontent
    obtain ⟨idx, hidx⟩ := hslash member hmember
    have hname := (installed_file lib task hidx (mem_files.mp hmember).2).1
    simp [hname, installTarget_ne_desktopPath]
  rw [hrest]
  simp [hdesktop]

/-- The data archive of a package. -/
theorem run_data {input : List Member} {deb : Deb} (h : task.run lib input = .ok deb) :
    task.createData lib input = .ok deb.data := by
  obtain ⟨control, -, h⟩ := bind_eq_ok.mp h
  obtain ⟨postinst, -, h⟩ := bind_eq_ok.mp h
  obtain ⟨prerm, -, h⟩ := bind_eq_ok.mp h
  obtain ⟨data, hdata, h⟩ := bind_eq_ok.mp h
  cases h
  exact hdata

/-! ## When the trees are the same -/

section
variable {input output : List Member}

/-- Where the tree is the same, no other file goes to the place of a member. -/
theorem SameTree.once (hsame : SameTree task input output)
    (h : task.createData lib input = .ok output) {member : Member} (hmember : member ∈ input)
    (hkind : member.entry.isDirectory = false) :
    ((files input).filter fun other =>
      pathInside other.entry.name = pathInside member.entry.name).length = 1 := by
  have hfile := mem_files.mpr ⟨hmember, (isDirectory_eq_false.mp hkind).2⟩
  obtain ⟨out, hout, -⟩ := hsame.copied member hmember hkind
  have hlength := congrArg List.length (named_installTarget h hfile)
  rw [hout] at hlength
  simpa using hlength.symm

/-- Where the tree is the same, every member of the tar with the name of a file is a regular file:
the others would be there with another type. -/
theorem SameTree.regular (hsame : SameTree task input output)
    (h : task.createData lib input = .ok output) :
    ∀ member ∈ files input, member.entry.linkFlag = .regular := by
  intro member hfile
  obtain ⟨hmember, hslash⟩ := mem_files.mp hfile
  obtain ⟨hfiles, hinside⟩ := createData_files h
  by_cases hkind : member.entry.linkFlag = .directory
  · -- Its copy in the package is no directory, so another member must be there as well.
    obtain ⟨idx, hidx⟩ := hinside member hfile
    have hentry := installed_file lib task hidx hslash
    have hwritten : installed lib task member ∈ (files output).map contents := by
      rw [hfiles]
      exact List.mem_append_left _ (List.mem_map_of_mem hfile)
    obtain ⟨out, hout, hcontents⟩ := List.mem_map.mp hwritten
    have heq : out.entry = (installed lib task member).1 := congrArg Prod.fst hcontents
    have hname : out.entry.name = task.installTarget member.entry.name := heq ▸ hentry.1
    have hflag : out.entry.linkFlag = .regular := heq ▸ hentry.2.1
    obtain ⟨hmem, hslash'⟩ := mem_files.mp hout
    have houtKind : out.entry.isDirectory = false :=
      isDirectory_eq_false.mpr ⟨by rw [hflag]; decide, hslash'⟩
    rcases hsame.nothingElse out hmem houtKind with hdesktop | ⟨other, hother, hotherKind, hplace⟩
    · exact absurd (hname.symm.trans hdesktop) (installTarget_ne_desktopPath task _)
    · have honce := hsame.once h hother hotherKind
      rw [List.length_eq_one_iff] at honce
      obtain ⟨single, hsingle⟩ := honce
      have hpath : pathInside member.entry.name = pathInside other.entry.name := by
        have htarget := hname.symm.trans hplace
        simpa [installTarget] using htarget
      have hfirst : member ∈ [single] := by
        rw [← hsingle, List.mem_filter]
        exact ⟨hfile, by simpa using hpath⟩
      have hsecond : other ∈ [single] := by
        rw [← hsingle, List.mem_filter]
        exact ⟨mem_files.mpr ⟨hother, (isDirectory_eq_false.mp hotherKind).2⟩, by simp⟩
      rw [List.mem_singleton] at hfirst hsecond
      rw [hsecond, ← hfirst] at hotherKind
      exact absurd hkind (isDirectory_eq_false.mp hotherKind).1
  · obtain ⟨out, hout, has⟩ :=
      hsame.copied member hmember (isDirectory_eq_false.mpr ⟨hkind, hslash⟩)
    have hmade := named_installTarget h hfile
    rw [hout] at hmade
    have hmem : contents out ∈ [out].map contents := List.mem_singleton_self _
    rw [hmade] at hmem
    obtain ⟨other, hother, hcontents⟩ := List.mem_map.mp hmem
    have hotherFile := (List.mem_filter.mp hother).1
    obtain ⟨idx, hidx⟩ := hinside other hotherFile
    have hentry := installed_file lib task hidx (mem_files.mp hotherFile).2
    have heq : out.entry = (installed lib task other).1 := congrArg Prod.fst hcontents.symm
    rw [← has.linkFlag, heq]
    exact hentry.2.1

/-- A tar of regular files in distinct places is installed as it is. -/
theorem sameTree_of_regular (h : task.createData lib input = .ok output)
    (hregular : ∀ member ∈ files input, member.entry.linkFlag = .regular)
    (hdistinct : ((files input).map fun member => pathInside member.entry.name).Nodup) :
    SameTree task input output where
  copied := by
    intro member hmember hkind
    have hfile := mem_files.mpr ⟨hmember, (isDirectory_eq_false.mp hkind).2⟩
    obtain ⟨single, hsingle⟩ :=
      List.length_eq_one_iff.mp (nodup_map_iff.mp hdistinct member hfile)
    have hself : member ∈ [single] := by
      rw [← hsingle, List.mem_filter]
      exact ⟨hfile, by simp⟩
    rw [List.mem_singleton] at hself
    have hmade := named_installTarget h hfile
    rw [hsingle, ← hself] at hmade
    obtain ⟨out, hout, hcontents⟩ := List.map_eq_singleton_iff.mp hmade
    obtain ⟨idx, hidx⟩ := (createData_files h).2 member hfile
    obtain ⟨-, hflag, -, hmode, -, -⟩ :=
      installed_file lib task hidx (mem_files.mp hfile).2
    have heq : out.entry = (installed lib task member).1 := congrArg Prod.fst hcontents
    refine ⟨out, hout, ?_, ?_, congrArg Prod.snd hcontents, ?_⟩
    · rw [heq, hflag, hregular member hfile]
    · rw [heq, hmode]
    · intro hlink
      rw [TarArchiveEntry.isSymbolicLink, hregular member hfile] at hlink
      cases hlink
  desktop := by
    obtain ⟨out, hout, -⟩ := List.map_eq_singleton_iff.mp (named_desktopPath h)
    exact ⟨out, hout⟩
  nothingElse := by
    intro out hout hkind
    obtain ⟨hfiles, hinside⟩ := createData_files h
    have hmem : contents out ∈ (files output).map contents :=
      List.mem_map_of_mem (mem_files.mpr ⟨hout, (isDirectory_eq_false.mp hkind).2⟩)
    rw [hfiles, List.mem_append, List.mem_singleton] at hmem
    rcases hmem with hfile | hdesktop
    · obtain ⟨member, hmember, hcontents⟩ := List.mem_map.mp hfile
      obtain ⟨idx, hidx⟩ := hinside member hmember
      obtain ⟨hmem, hslash⟩ := mem_files.mp hmember
      refine Or.inr ⟨member, hmem, ?_, ?_⟩
      · exact isDirectory_eq_false.mpr ⟨by rw [hregular member hmember]; decide, hslash⟩
      · have heq : out.entry = (installed lib task member).1 := congrArg Prod.fst hcontents.symm
        rw [heq]
        exact (installed_file lib task hidx hslash).1
    · have heq : out.entry = (desktopContents lib task).1 := congrArg Prod.fst hdesktop
      rw [heq]
      exact Or.inl (newTarArchiveEntry_name (desktopPath_file task).2)

end

/-- The package installs the tree of the tar if and only if all members with the name of a file are
regular files and no two of them have the same path below their top directories. -/
theorem same_tree_iff {input : List Member} {deb : Deb} (hrun : task.run lib input = .ok deb) :
    SameTree task input deb.data ↔
      (∀ member ∈ files input, member.entry.linkFlag = .regular) ∧
        ((files input).map fun member => pathInside member.entry.name).Nodup := by
  have hdata := run_data hrun
  constructor
  · intro hsame
    have hregular := hsame.regular hdata
    refine ⟨hregular, nodup_map_iff.mpr fun member hfile => ?_⟩
    obtain ⟨hmember, hslash⟩ := mem_files.mp hfile
    refine hsame.once hdata hmember (isDirectory_eq_false.mpr ⟨?_, hslash⟩)
    rw [hregular member hfile]
    decide
  · rintro ⟨hregular, hdistinct⟩
    exact sameTree_of_regular hdata hregular hdistinct

/-- The task for a small package. -/
def smallTask : CreateDeb where
  version := str "2025.1"
  debArch := str "riscv64"
  ideProduct := .IDEA_IC

/-- A tar with a launcher of three bytes in a directory. -/
def launcherTar : List Member :=
  [directoryMember commonsCompress (str "idea/"),
    directoryMember commonsCompress (str "idea/bin/"),
    { entry :=
        { commonsCompress.newTarArchiveEntry (str "idea/bin/idea") with mode := 0o100755, size := 3 }
      data := [35, 33, 10]
      sized := by decide }]

/-- The tar with the launcher is accepted. -/
theorem launcherTar_accepted : ∃ deb, smallTask.run commonsCompress launcherTar = .ok deb := by
  have haccepted : (smallTask.addMembers commonsCompress none ⟨∅, []⟩ launcherTar).toBool = true := by
    decide +kernel
  cases hloop : smallTask.addMembers commonsCompress none ⟨∅, []⟩ launcherTar with
  | error failure =>
      rw [hloop] at haccepted
      cases haccepted
  | ok tar => exact run_ok hloop

/-- The launcher is installed as it is. -/
theorem same_tree_iff_launcher :
    ∃ deb, smallTask.run commonsCompress launcherTar = .ok deb ∧
      SameTree smallTask launcherTar deb.data := by
  obtain ⟨deb, hrun⟩ := launcherTar_accepted
  exact ⟨deb, hrun, (same_tree_iff hrun).mpr (by decide +kernel)⟩

/-- The same tar with a symbolic link to the launcher. -/
def linkTar : List Member :=
  launcherTar ++
    [{ entry :=
        { commonsCompress.newTarArchiveEntry (str "idea/bin/studio") with
          linkFlag := .symbolicLink
          linkName := str "idea"
          mode := 0o120777 }
       data := []
       sized := by decide }]

/-- The symbolic link is not installed as one. -/
theorem symbolic_link_lost :
    ∃ deb, smallTask.run commonsCompress linkTar = .ok deb ∧
      ¬ SameTree smallTask linkTar deb.data := by
  have haccepted : (smallTask.addMembers commonsCompress none ⟨∅, []⟩ linkTar).toBool = true := by
    decide +kernel
  cases hloop : smallTask.addMembers commonsCompress none ⟨∅, []⟩ linkTar with
  | error failure =>
      rw [hloop] at haccepted
      cases haccepted
  | ok tar =>
      obtain ⟨deb, hrun⟩ := run_ok hloop
      refine ⟨deb, hrun, fun hsame => ?_⟩
      have hregular := hsame.regular (run_data hrun)
      have hlink : ¬ ∀ member ∈ files linkTar, member.entry.linkFlag = .regular := by
        decide +kernel
      exact hlink hregular

end CreateDeb
end Packaging
end IdeMultiarch
