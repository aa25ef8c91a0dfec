import Mathlib.Data.Finset.Insert
import IdeMultiarch.Packaging.Product

/-!
# Packaging - the Debian package

The task {lit}`CreateDeb` repacks the tar of an IDE as a Debian package: every file of the tar
moves to the install directory, and the directories above it are written when they are first
needed.

Main results:

- Theorem {lit}`makeDirectories_eq`: the recursion of {lit}`makeDirectories` as the source has it.
- Theorem {lit}`makeDirectories_files`: making directories adds nothing but directories.
- Theorem {lit}`addMembers_cons`: what one round of the loop over the tar does.
- Theorem {lit}`createData_files`: which files the data archive has.
- Theorem {lit}`run_ok`: a tar that the loop goes through is made a package.
-/

namespace IdeMultiarch
namespace Packaging

open Library.Results (bind_eq_ok)

/-! ## The task -/

/-- The inputs of the task {lit}`CreateDeb`, less the tar. -/
structure CreateDeb where
  version : Name
  debArch : Name
  ideProduct : Product
deriving DecidableEq, Repr

/-- The parts of the package. -/
structure Deb where
  debianBinary : Bytes
  control : List Member
  data : List Member
deriving DecidableEq, Repr

/-- {lit}`String.join("\n", lines)` -/
def joinLines (lines : List Name) : Name :=
  (lines.intersperse ['\n']).flatten

namespace CreateDeb

variable (lib : TarLibrary) (task : CreateDeb)

/-- {lit}`getInstallPath` -/
def getInstallPath : Name :=
  str "/usr/share/jetbrains-multiarch/" ++ task.ideProduct.getPackageName

/-- {lit}`getControl` -/
def getControl : Name :=
  joinLines
    ([str "Package: " ++ task.ideProduct.getPackageName,
      str "Version: " ++ task.version,
      str "Section: devel",
      str "Priority: optional",
      str "Architecture: " ++ task.debArch,
      str "Installed-Size: 3145728",
      str "Maintainer: Glavo <glavo@isrc.iscas.ac.cn>",
      str "Description: " ++ task.ideProduct.getDescription ++ str ".",
      str "Homepage: https://github.com/Glavo/JetBrains-IDE-Multiarch"] ++
      if task.ideProduct = .IDEA_IC ∨ task.ideProduct = .IDEA_IU then
        [str "Replaces: intellij-idea-ce-multiarch", str "Conflicts: intellij-idea-ce-multiarch"]
      else if task.ideProduct = .PYCHARM_COMMUNITY ∨ task.ideProduct = .PYCHARM then
        [str "Replaces: pycharm-community-multiarch",
          str "Conflicts: pycharm-community-multiarch"]
      else []) ++ str "\n"

/-- {lit}`getPostinst` -/
def getPostinst : Name :=
  let launcher := task.ideProduct.getLauncherName
  joinLines
    [str "#!/bin/bash -e",
      [],
      str "if [ \"$1\" = configure ]; then",
      str "    update-alternatives --install /usr/bin/" ++ launcher ++ str " " ++ launcher ++
        str " " ++ task.getInstallPath ++ str "/bin/" ++ launcher ++ str " " ++
        Nat.toDigits 10 task.ideProduct.getPriority,
      str "fi",
      []]

/-- {lit}`getPrerm` -/
def getPrerm : Name :=
  let launcher := task.ideProduct.getLauncherName
  joinLines
    [str "#!/bin/bash -e",
      [],
      str "if [ \"$1\" = \"remove\" ] || [ \"$1\" = \"deconfigure\" ]; then",
      str "    update-alternatives --remove " ++ launcher ++ str " " ++ task.getInstallPath ++
        str "/bin/" ++ launcher,
      str "fi",
      []]

/-- {lit}`getDesktopInfo` -/
def getDesktopInfo : Name :=
  joinLines
    [str "[Desktop Entry]",
      str "Type=Application",
      str "Name=" ++ task.ideProduct.getFullName,
      str "Version=" ++ task.version,
      str "Terminal=false",
      str "Comment=" ++ task.ideProduct.getDescription,
      str "Exec=" ++ task.getInstallPath ++ str "/bin/" ++ task.ideProduct.getLauncherName ++
        str " %F",
      str "Icon=" ++ task.getInstallPath ++ str "/bin/" ++ task.ideProduct.getLauncherName ++
        str ".svg",
      str "Categories=" ++ task.ideProduct.getDesktopCategories,
      str "Keywords=" ++ task.ideProduct.getDesktopKeywords,
      []]

/-- {lit}`putEntry` -/
def putEntry (name content : Name) : Except Failure Member :=
  let bytes := utf8 content
  lib.putArchiveEntry { lib.newTarArchiveEntry name with size := bytes.length } bytes

/-! ## Directories -/

/-- What the task has written of {lit}`data.tar.gz`: the set {lit}`directories` and the entries. -/
structure DataTar where
  directories : Finset Name
  output : List Member
deriving DecidableEq

/-- {lit}`lastIndexOf` -/
def lastIndexOf (name : Name) (c : Char) (fromIndex : Nat) : Option Nat :=
  (List.range (fromIndex + 1)).reverse.find? fun i => name[i]? == some c

/-- The directory that {lit}`makeDirectories` makes before {lit}`dirName`, if it makes one. -/
def parentName (dirName : Name) : Option Name :=
  if 2 ≤ dirName.length then
    match lastIndexOf dirName '/' (dirName.length - 2) with
    | some idx => if 0 < idx then some (dirName.take (idx + 1)) else none
    | none => none
  else none

/-- {lit}`new TarArchiveEntry(dirName)`, put without data. -/
def directoryMember (dirName : Name) : Member where
  entry := lib.newTarArchiveEntry dirName
  data := []
  sized := by
    unfold TarArchiveEntry.dataSize
    split
    · rfl
    · exact (lib.new_size dirName).symm

/-- {lit}`makeDirectories`, with a bound on its depth. -/
def makeDirectoriesWithin : Nat → Name → DataTar → DataTar
  | 0, _, tar => tar
  | depth + 1, dirName, tar =>
      if dirName ∈ tar.directories then tar
      else
        let tar :=
          match parentName dirName with
          | some parent => makeDirectoriesWithin depth parent tar
          | none => tar
        { directories := insert dirName tar.directories
          output := tar.output ++ [directoryMember lib dirName] }

/-- {lit}`makeDirectories`: no name has more ancestors than characters. -/
def makeDirectories (dirName : Name) (tar : DataTar) : DataTar :=
  makeDirectoriesWithin lib (dirName.length + 1) dirName tar

/-! ## The data archive -/

/-- {lit}`name.regionMatches(0, other, 0, len)` -/
def regionMatches (name other : Name) (len : Nat) : Bool :=
  len ≤ name.length && len ≤ other.length && name.take len == other.take len

/-- The {lit}`prefix` after a file, which has its first slash at {lit}`idx`: the first file
tells it, and the others must match it. -/
def nextPrefix (top : Option Name) (name : Name) (idx : Nat) : Option Name :=
  match top with
  | none => some (name.take idx)
  | some top => if regionMatches name top idx then some top else none

/-- {lit}`targetFileName`: where a file goes that has its first slash at {lit}`idx`. -/
def targetFileName (name : Name) (idx : Nat) : Name :=
  str "." ++ task.getInstallPath ++ str "/" ++ name.drop (idx + 1)

/-- {lit}`targetFileName.substring(0, targetFileName.lastIndexOf('/') + 1)` -/
def directoryOf (targetFileName : Name) : Name :=
  match lastIndexOf targetFileName '/' (targetFileName.length - 1) with
  | some idx => targetFileName.take (idx + 1)
  | none => []

/-- The exception of the loop. -/
def invalidEntry (name : Name) : Failure :=
  .ioException (str "Invalid entry: " ++ name)

/-- The loop of {lit}`run` over the entries of the tar. -/
def addMembers (top : Option Name) (tar : DataTar) : List Member → Except Failure DataTar
  | [] => .ok tar
  | member :: members =>
      let name := member.entry.name
      if endsWithSlash name then addMembers top tar members
      else
        match name.idxOf? '/' with
        | none | some 0 => .error (invalidEntry name)
        | some idx =>
            match nextPrefix top name idx with
            | none => .error (invalidEntry name)
            | some top => do
                let target := task.targetFileName name idx
                let tar := makeDirectories lib (directoryOf target) tar
                let written ← lib.putArchiveEntry
                  (copyTarEntryAs lib member.entry target member.entry.size) member.data
                addMembers (some top) { tar with output := tar.output ++ [written] } members

/-- The path of the desktop entry. -/
def desktopPath : Name :=
  str "./usr/share/applications/org.glavo.jetbrains." ++ task.ideProduct.getPackageName ++
    str ".desktop"

/-- What {lit}`run` writes to {lit}`data.tar.gz`. -/
def createData (input : List Member) : Except Failure (List Member) := do
  let tar ← task.addMembers lib none ⟨∅, []⟩ input
  let desktop ← putEntry lib task.desktopPath task.getDesktopInfo
  return tar.output ++ [desktop]

/-- {lit}`run` -/
def run (input : List Member) : Except Failure Deb := do
  let control ← putEntry lib (str "./control") task.getControl
  let postinst ← putEntry lib (str "./postinst") task.getPostinst
  let prerm ← putEntry lib (str "./prerm") task.getPrerm
  let data ← task.createData lib input
  return { debianBinary := utf8 (str "2.0\n"), control := [control, postinst, prerm], data := data }

variable {lib task}

/-! ## The directories are made as the source makes them -/

/-- A character that {lit}`lastIndexOf` finds is there. -/
theorem lastIndexOf_eq_some {name : Name} {c : Char} {fromIndex idx : Nat}
    (h : lastIndexOf name c fromIndex = some idx) : idx ≤ fromIndex ∧ name[idx]? = some c := by
  unfold lastIndexOf at h
  have hmem := List.mem_of_find?_eq_some h
  rw [List.mem_reverse, List.mem_range] at hmem
  have hfound := List.find?_some h
  exact ⟨by omega, by simpa using hfound⟩

/-- A character that {lit}`lastIndexOf` does not find is not there. -/
theorem lastIndexOf_eq_none {name : Name} {c : Char} {fromIndex : Nat}
    (h : lastIndexOf name c fromIndex = none) {idx : Nat} (hidx : idx ≤ fromIndex) :
    name[idx]? ≠ some c := by
  unfold lastIndexOf at h
  have hall := List.find?_eq_none.mp h idx (by rw [List.mem_reverse, List.mem_range]; omega)
  simpa using hall

/-- The parent is a shorter directory name with the same start. -/
theorem parentName_eq_some {dirName parent : Name} (h : parentName dirName = some parent) :
    endsWithSlash parent = true ∧ parent.head? = dirName.head? ∧
      parent.length < dirName.length := by
  unfold parentName at h
  split at h
  next hlength =>
    split at h
    next idx hidx =>
      obtain ⟨hle, hslash⟩ := lastIndexOf_eq_some hidx
      split at h
      next hpos =>
        cases h
        refine ⟨endsWithSlash_take hslash, ?_, ?_⟩
        · rw [List.head?_take, if_neg (by omega)]
        · rw [List.length_take]
          omega
      next => cases h
    next => cases h
  next => cases h

/-- The bound on the depth does not matter when it is large enough. -/
theorem makeDirectoriesWithin_irrelevant {depth depth' : Nat} {dirName : Name} {tar : DataTar}
    (h : dirName.length < depth) (h' : dirName.length < depth') :
    makeDirectoriesWithin lib depth dirName tar = makeDirectoriesWithin lib depth' dirName tar := by
  induction depth generalizing depth' dirName tar with
  | zero => omega
  | succ depth ih =>
      cases depth' with
      | zero => omega
      | succ depth' =>
          unfold makeDirectoriesWithin
          cases hparent : parentName dirName with
          | none => rfl
          | some parent =>
              obtain ⟨-, -, hlength⟩ := parentName_eq_some hparent
              simp only
              have hsame : makeDirectoriesWithin lib depth parent tar =
                  makeDirectoriesWithin lib depth' parent tar := ih (by omega) (by omega)
              rw [hsame]

/-- {lit}`makeDirectories` as it calls itself in the source. -/
theorem makeDirectories_eq (dirName : Name) (tar : DataTar) :
    makeDirectories lib dirName tar =
      if dirName ∈ tar.directories then tar
      else
        let tar :=
          match parentName dirName with
          | some parent => makeDirectories lib parent tar
          | none => tar
        { directories := insert dirName tar.directories
          output := tar.output ++ [directoryMember lib dirName] } := by
  conv_lhs => unfold makeDirectories makeDirectoriesWithin
  cases hparent : parentName dirName with
  | none => rfl
  | some parent =>
      obtain ⟨-, -, hlength⟩ := parentName_eq_some hparent
      simp only
      have hsame : makeDirectoriesWithin lib dirName.length parent tar =
          makeDirectories lib parent tar :=
        makeDirectoriesWithin_irrelevant hlength (by omega)
      rw [hsame]

/-! ## Files and directories of an archive -/

/-- The members that {lit}`run` takes for files: their names do not end with a slash. -/
def files (members : List Member) : List Member :=
  members.filter fun member => !endsWithSlash member.entry.name

variable (lib) in
/-- A directory entry is not a file. -/
theorem files_directoryMember {dirName : Name} (hslash : endsWithSlash dirName = true)
    (hrelative : dirName.head? ≠ some '/') : files [directoryMember lib dirName] = [] := by
  have hname : (directoryMember lib dirName).entry.name = dirName :=
    newTarArchiveEntry_name hrelative
  simp [files, hname, hslash]

variable (lib) in
/-- Making directories adds no files. -/
theorem makeDirectories_files {dirName : Name} (tar : DataTar)
    (hslash : endsWithSlash dirName = true) (hrelative : dirName.head? ≠ some '/') :
    files (makeDirectories lib dirName tar).output = files tar.output := by
  induction hlength : dirName.length using Nat.strong_induction_on generalizing dirName tar with
  | _ length ih =>
      rw [makeDirectories_eq]
      split
      next => rfl
      next =>
        have hself := files_directoryMember lib hslash hrelative
        cases hparent : parentName dirName with
        | none =>
            simp only [files, List.filter_append] at hself ⊢
            rw [hself, List.append_nil]
        | some parent =>
            obtain ⟨hslash', hhead, hshorter⟩ := parentName_eq_some hparent
            have hmade := ih parent.length (by omega) tar hslash' (by rw [hhead]; exact hrelative)
              rfl
            simp only [files, List.filter_append] at hself hmade ⊢
            rw [hself, List.append_nil, hmade]

/-! ## What becomes of a file -/

/-- The path of a file below the top directory of the tar. -/
def pathInside (name : Name) : Name :=
  name.drop (name.idxOf '/' + 1)

variable (task) in
/-- The path under which a file of the tar is installed. -/
def installTarget (name : Name) : Name :=
  str "." ++ task.getInstallPath ++ str "/" ++ pathInside name

/-- The entry and the data of a member. -/
def contents (member : Member) : TarArchiveEntry × Bytes :=
  (member.entry, member.data)

variable (lib task) in
/-- What the archive gets for a file. -/
def installed (member : Member) : TarArchiveEntry × Bytes :=
  (copyTarEntryAs lib member.entry (task.installTarget member.entry.name) member.entry.size,
    member.data)

variable (lib task) in
/-- What the archive gets for the desktop entry. -/
def desktopContents : TarArchiveEntry × Bytes :=
  ({ lib.newTarArchiveEntry task.desktopPath with size := (utf8 task.getDesktopInfo).length },
    utf8 task.getDesktopInfo)

/-- A file goes to its install path. -/
theorem targetFileName_eq {name : Name} {idx : Nat} (h : name.idxOf? '/' = some idx) :
    task.targetFileName name idx = task.installTarget name := by
  unfold targetFileName installTarget pathInside
  rw [(idxOf?_eq_some h).1]

/-- The install path of a file does not start with a slash. -/
theorem head?_installTarget (name : Name) : (task.installTarget name).head? ≠ some '/' := by
  have hhead : (task.installTarget name).head? = some '.' := rfl
  rw [hhead]
  decide

variable (task) in
/-- The install path of a file does not end with a slash. -/
theorem endsWithSlash_installTarget {name : Name} {idx : Nat} (h : name.idxOf? '/' = some idx)
    (hfile : endsWithSlash name = false) : endsWithSlash (task.installTarget name) = false := by
  obtain ⟨hidx, hslash⟩ := idxOf?_eq_some h
  obtain ⟨hne, hend⟩ := endsWithSlash_drop hslash hfile
  unfold installTarget pathInside
  rw [hidx, endsWithSlash_append _ hne]
  exact hend

variable (task) in
/-- The directory of an install path is a directory name. -/
theorem directoryOf_installTarget (name : Name) :
    endsWithSlash (directoryOf (task.installTarget name)) = true ∧
      (directoryOf (task.installTarget name)).head? ≠ some '/' := by
  have hsecond : (task.installTarget name)[1]? = some '/' := rfl
  unfold directoryOf
  cases hlast : lastIndexOf (task.installTarget name) '/'
      ((task.installTarget name).length - 1) with
  | none =>
      have hlength := (List.getElem?_eq_some_iff.mp hsecond).1
      exact absurd hsecond (lastIndexOf_eq_none hlast (by omega))
  | some idx =>
      obtain ⟨-, hslash⟩ := lastIndexOf_eq_some hlast
      refine ⟨endsWithSlash_take hslash, ?_⟩
      rw [List.head?_take, if_neg (by omega)]
      exact head?_installTarget name

variable (task) in
/-- An install path is not the path of the desktop entry. -/
theorem installTarget_ne_desktopPath (name : Name) :
    task.installTarget name ≠ task.desktopPath := by
  intro h
  have hchar : (task.installTarget name)[12]? = some 'j' := rfl
  have hchar' : task.desktopPath[12]? = some 'a' := rfl
  rw [h, hchar'] at hchar
  cases hchar

variable (task) in
/-- The path of the desktop entry is a relative path of a file. -/
theorem desktopPath_file :
    endsWithSlash task.desktopPath = false ∧ task.desktopPath.head? ≠ some '/' := by
  constructor
  · unfold desktopPath
    rw [endsWithSlash_append _ (by decide)]
    decide
  · have hhead : task.desktopPath.head? = some '.' := rfl
    rw [hhead]
    decide

variable (lib task) in
/-- The header that the archive gets for a file. -/
theorem installed_file {member : Member} {idx : Nat}
    (hidx : member.entry.name.idxOf? '/' = some idx)
    (hfile : endsWithSlash member.entry.name = false) :
    let entry := (installed lib task member).1
    entry.name = task.installTarget member.entry.name ∧ entry.linkFlag = .regular ∧
      entry.linkName = [] ∧ entry.mode = member.entry.mode ∧ entry.size = member.entry.size ∧
      entry.times = member.entry.times :=
  copyTarEntry_file (head?_installTarget member.entry.name)
    (endsWithSlash_installTarget task hidx hfile)

/-- One round of the loop: a directory is passed over, and a file is put where it belongs, behind
the directories above it. -/
theorem addMembers_cons {top : Option Name} {tar tar' : DataTar} {member : Member}
    {members : List Member} (h : task.addMembers lib top tar (member :: members) = .ok tar') :
    (endsWithSlash member.entry.name = true ∧ task.addMembers lib top tar members = .ok tar') ∨
      (endsWithSlash member.entry.name = false ∧
        ∃ idx top' written, member.entry.name.idxOf? '/' = some idx ∧ 0 < idx ∧
          nextPrefix top member.entry.name idx = some top' ∧
          contents written = installed lib task member ∧
          task.addMembers lib (some top')
            { makeDirectories lib (directoryOf (task.installTarget member.entry.name)) tar with
              output := (makeDirectories lib
                (directoryOf (task.installTarget member.entry.name)) tar).output ++ [written] }
            members = .ok tar') := by
  unfold addMembers at h
  dsimp only at h
  split at h
  next hslash => exact Or.inl ⟨hslash, h⟩
  next hfile =>
    rw [Bool.not_eq_true] at hfile
    refine Or.inr ⟨hfile, ?_⟩
    split at h
    next => cases h
    next => cases h
    next idx hzero hidx =>
      split at h
      next => cases h
      next top' htop =>
        rw [targetFileName_eq hidx] at h
        obtain ⟨written, hput, hrest⟩ := bind_eq_ok.mp h
        obtain ⟨hentry, hdata⟩ := putArchiveEntry_ok hput
        refine ⟨idx, top', written, hidx, ?_, htop, ?_, hrest⟩
        · exact Nat.pos_of_ne_zero fun h0 => hzero (by rw [← h0])
        · unfold contents installed
          rw [hentry, hdata]

/-- The files that the loop writes are those of the tar, each at its place. -/
theorem addMembers_files {top : Option Name} {tar tar' : DataTar} {members : List Member}
    (h : task.addMembers lib top tar members = .ok tar') :
    (files tar'.output).map contents =
      (files tar.output).map contents ++ (files members).map (installed lib task) := by
  induction members generalizing top tar with
  | nil =>
      cases h
      simp [files]
  | cons member members ih =>
      rcases addMembers_cons h with ⟨hslash, hrest⟩ |
        ⟨hfile, idx, top', written, hidx, -, -, hwritten, hrest⟩
      · rw [ih hrest]
        simp [files, hslash]
      · obtain ⟨hslash, hrelative⟩ := directoryOf_installTarget task member.entry.name
        have hmade := makeDirectories_files lib tar hslash hrelative
        have hname : endsWithSlash written.entry.name = false := by
          have hentry : written.entry = (installed lib task member).1 :=
            congrArg Prod.fst hwritten
          rw [hentry, (installed_file lib task hidx hfile).1]
          exact endsWithSlash_installTarget task hidx hfile
        rw [ih hrest]
        simp only [files, List.filter_append] at hmade ⊢
        simp [hmade, hname, hfile, hwritten]

/-- Every file of a tar that is accepted lies in a top directory. -/
theorem addMembers_slash {top : Option Name} {tar tar' : DataTar} {members : List Member}
    (h : task.addMembers lib top tar members = .ok tar') :
    ∀ member ∈ files members, ∃ idx, member.entry.name.idxOf? '/' = some idx := by
  induction members generalizing top tar with
  | nil =>
      intro member hmember
      cases hmember
  | cons first members ih =>
      intro member hmember
      rcases addMembers_cons h with ⟨hslash, hrest⟩ | ⟨hfile, idx, _, _, hidx, -, -, -, hrest⟩
      · have hfiles : files (first :: members) = files members := by simp [files, hslash]
        exact ih hrest member (hfiles ▸ hmember)
      · have hfiles : files (first :: members) = first :: files members := by simp [files, hfile]
        rw [hfiles] at hmember
        rcases List.mem_cons.mp hmember with heq | hlater
        · subst heq
          exact ⟨idx, hidx⟩
        · exact ih hrest member hlater

/-- The files of the data archive are those of the tar, each at its place, and the desktop entry
at the end. -/
theorem createData_files {input output : List Member}
    (h : task.createData lib input = .ok output) :
    (files output).map contents =
        (files input).map (installed lib task) ++ [desktopContents lib task] ∧
      ∀ member ∈ files input, ∃ idx, member.entry.name.idxOf? '/' = some idx := by
  obtain ⟨tar, htar, h⟩ := bind_eq_ok.mp h
  obtain ⟨desktop, hdesktop, h⟩ := bind_eq_ok.mp h
  cases h
  refine ⟨?_, addMembers_slash htar⟩
  obtain ⟨hentry, hdata⟩ := putArchiveEntry_ok hdesktop
  have hcontents : contents desktop = desktopContents lib task := by
    unfold contents desktopContents
    rw [hentry, hdata]
  obtain ⟨hfile, hrelative⟩ := desktopPath_file task
  have hname : desktop.entry.name = task.desktopPath := by
    rw [hentry]
    exact newTarArchiveEntry_name hrelative
  have hfiles := addMembers_files htar
  simp only [files, List.filter_append] at hfiles ⊢
  simp [hfiles, hname, hfile, hcontents]

variable (lib) in
/-- A text is always put at the path of a file. -/
theorem putEntry_ok (name content : Name) (hfile : endsWithSlash name = false)
    (hrelative : name.head? ≠ some '/') : ∃ member, putEntry lib name content = .ok member := by
  refine ⟨_, lib.put_sized _ _ ?_⟩
  simp [TarArchiveEntry.dataSize, TarArchiveEntry.isDirectory, newTarArchiveEntry_name hrelative,
    lib.new_linkFlag, lib.relative name hrelative, hfile]

/-- A tar that the loop goes through is made a package: nothing else fails. -/
theorem run_ok {input : List Member} {tar : DataTar}
    (h : task.addMembers lib none ⟨∅, []⟩ input = .ok tar) :
    ∃ deb, task.run lib input = .ok deb := by
  obtain ⟨control, hcontrol⟩ :=
    putEntry_ok lib (str "./control") task.getControl (by decide) (by decide)
  obtain ⟨postinst, hpostinst⟩ :=
    putEntry_ok lib (str "./postinst") task.getPostinst (by decide) (by decide)
  obtain ⟨prerm, hprerm⟩ :=
    putEntry_ok lib (str "./prerm") task.getPrerm (by decide) (by decide)
  obtain ⟨desktop, hdesktop⟩ :=
    putEntry_ok lib task.desktopPath task.getDesktopInfo (desktopPath_file task).1
      (desktopPath_file task).2
  refine ⟨⟨utf8 (str "2.0\n"), [control, postinst, prerm], tar.output ++ [desktop]⟩, ?_⟩
  unfold run createData
  rw [hcontrol, hpostinst, hprerm, h, hdesktop]
  rfl

/-- An error of the loop is the one of the task. -/
theorem run_error {input : List Member} {failure : Failure}
    (h : task.addMembers lib none ⟨∅, []⟩ input = .error failure) :
    task.run lib input = .error failure := by
  obtain ⟨control, hcontrol⟩ :=
    putEntry_ok lib (str "./control") task.getControl (by decide) (by decide)
  obtain ⟨postinst, hpostinst⟩ :=
    putEntry_ok lib (str "./postinst") task.getPostinst (by decide) (by decide)
  obtain ⟨prerm, hprerm⟩ :=
    putEntry_ok lib (str "./prerm") task.getPrerm (by decide) (by decide)
  unfold run createData
  rw [hcontrol, hpostinst, hprerm, h]
  rfl

end CreateDeb
end Packaging
end IdeMultiarch
