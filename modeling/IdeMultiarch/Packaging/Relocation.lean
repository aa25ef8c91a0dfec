import IdeMultiarch.Packaging.InstalledTree

/-!
# Packaging - moving files to the install directory

The package has the files of the tar without the top directory that they are all meant to lie in.
The first file tells what this directory is called, and every later name is compared with it, but
only up to the later name's own first slash: a top directory whose name is the start of the first
one is let through.

Main results:

- Theorem {lit}`addMembers_some`: which tars the loop goes through.
- Theorem {lit}`run_accepted_iff`: which tars are made packages.
- Theorem {lit}`relocates_injectively_iff`: when files with different names stay apart.
-/

namespace IdeMultiarch
namespace Packaging
namespace CreateDeb

open Library.Results (bind_eq_ok)

variable {lib : TarLibrary} {task : CreateDeb}

/-! ## Top directories -/

/-- The first component of a name. -/
def topOf (name : Name) : Name :=
  name.take (name.idxOf '/')

/-- The name of a file in a top directory. -/
def HasTop (name : Name) : Prop :=
  '/' ∈ name ∧ topOf name ≠ []

/-- A name is its first component and the path inside. -/
theorem topOf_append_pathInside {name : Name} (h : '/' ∈ name) :
    topOf name ++ '/' :: pathInside name = name := by
  have hlength := List.idxOf_lt_length_iff.mpr h
  have hslash : name[name.idxOf '/'] = '/' := List.getElem_idxOf hlength
  unfold topOf pathInside
  conv => rhs; rw [← List.take_append_drop (name.idxOf '/') name, List.drop_eq_getElem_cons hlength,
    hslash]

/-- What {lit}`indexOf` tells about the first component. -/
theorem hasTop_iff {name : Name} :
    HasTop name ↔ ∃ idx, name.idxOf? '/' = some idx ∧ 0 < idx := by
  constructor
  · rintro ⟨hslash, htop⟩
    have hlength := List.idxOf_lt_length_iff.mpr hslash
    refine ⟨name.idxOf '/', ?_, ?_⟩
    · rw [List.idxOf?_eq_some_iff]
      refine ⟨hlength, List.getElem_idxOf hlength, fun i hi heq => ?_⟩
      have hnot := List.not_of_lt_findIdx hi
      simp [heq] at hnot
    · apply Nat.pos_of_ne_zero
      intro hzero
      exact htop (by rw [topOf, hzero, List.take_zero])
  · rintro ⟨idx, hidx, hpos⟩
    obtain ⟨hfirst, hslash⟩ := idxOf?_eq_some hidx
    have hlength := (List.getElem?_eq_some_iff.mp hslash).1
    refine ⟨List.mem_of_getElem? hslash, fun hnil => ?_⟩
    have hzero := congrArg List.length hnil
    rw [topOf, hfirst, List.length_take, List.length_nil] at hzero
    omega

/-- A region matches when one start is a start of the other name. -/
theorem regionMatches_iff {name other : Name} {idx : Nat} (hidx : idx ≤ name.length) :
    regionMatches name other idx = true ↔ name.take idx <+: other := by
  have hlength : (name.take idx).length = idx := by
    rw [List.length_take]
    omega
  simp only [regionMatches, Bool.and_eq_true, decide_eq_true_eq, beq_iff_eq]
  rw [List.prefix_iff_eq_take, hlength]
  constructor
  · rintro ⟨-, hmatch⟩
    exact hmatch
  · intro hmatch
    refine ⟨⟨hidx, ?_⟩, hmatch⟩
    have hle := congrArg List.length hmatch
    rw [hlength, List.length_take] at hle
    omega

/-! ## The loop -/

/-- The members of a tar as the library reads them: the name of a directory ends with a slash. -/
def DirectoriesSlashed (members : List Member) : Prop :=
  ∀ member ∈ members, member.entry.linkFlag = .directory →
    endsWithSlash member.entry.name = true

theorem files_cons_slash {member : Member} (members : List Member)
    (hslash : endsWithSlash member.entry.name = true) :
    files (member :: members) = files members := by
  simp [files, hslash]

theorem files_cons_file {member : Member} (members : List Member)
    (hfile : endsWithSlash member.entry.name = false) :
    files (member :: members) = member :: files members := by
  simp [files, hfile]

/-- A directory is passed over. -/
theorem addMembers_slash_cons {top : Option Name} {tar : DataTar} {member : Member}
    {members : List Member} (hslash : endsWithSlash member.entry.name = true) :
    task.addMembers lib top tar (member :: members) = task.addMembers lib top tar members := by
  rw [addMembers]
  simp only [hslash, if_true]

/-- A file that matches the top directory is put into the package. -/
theorem addMembers_match {top : Option Name} {tar : DataTar} {member : Member}
    {members : List Member} (hfile : endsWithSlash member.entry.name = false)
    (hread : member.entry.linkFlag ≠ .directory) (htop : HasTop member.entry.name)
    (hmatch : ∀ name ∈ top, topOf member.entry.name <+: name) :
    ∃ tar', task.addMembers lib top tar (member :: members) =
      task.addMembers lib (some (top.getD (topOf member.entry.name))) tar' members := by
  obtain ⟨idx, hidx, hpos⟩ := hasTop_iff.mp htop
  obtain ⟨hfirst, hslash⟩ := idxOf?_eq_some hidx
  have hlength := (List.getElem?_eq_some_iff.mp hslash).1
  have hnext : nextPrefix top member.entry.name idx =
      some (top.getD (topOf member.entry.name)) := by
    unfold nextPrefix topOf
    rw [hfirst]
    cases top with
    | none => rfl
    | some name =>
        have hregion : regionMatches member.entry.name name idx = true := by
          rw [regionMatches_iff hlength.le, ← hfirst]
          exact hmatch name rfl
        dsimp only
        rw [if_pos hregion]
        rfl
  have htarget : task.targetFileName member.entry.name idx =
      task.installTarget member.entry.name := targetFileName_eq hidx
  have hsized : member.data.length = (copyTarEntryAs lib member.entry
      (task.installTarget member.entry.name) member.entry.size).dataSize := by
    have hplain := endsWithSlash_installTarget task hidx hfile
    obtain ⟨hname, hflag, -, -, hsize, -⟩ := @copyTarEntry_file lib member.entry _ member.entry.size
      (head?_installTarget member.entry.name) hplain
    have hout : (copyTarEntryAs lib member.entry (task.installTarget member.entry.name)
        member.entry.size).isDirectory = false :=
      isDirectory_eq_false.mpr ⟨by rw [hflag]; simp, by rw [hname]; exact hplain⟩
    have hin : member.entry.isDirectory = false := isDirectory_eq_false.mpr ⟨hread, hfile⟩
    rw [member.sized, TarArchiveEntry.dataSize, TarArchiveEntry.dataSize, hin, hout]
    exact hsize.symm
  rw [addMembers]
  simp only [hfile, Bool.false_eq_true, if_false, hidx]
  split
  next h => cases h
  next h =>
    cases h
    omega
  next idx' _ h =>
    cases h
    rw [hnext]
    simp only [htarget, lib.put_sized _ _ hsized, bind, Except.bind]
    exact ⟨_, rfl⟩

/-- Another file is an error. -/
theorem addMembers_mismatch {top : Option Name} {tar : DataTar} {member : Member}
    {members : List Member} (hfile : endsWithSlash member.entry.name = false)
    (hmismatch : HasTop member.entry.name → ¬ ∀ name ∈ top, topOf member.entry.name <+: name) :
    task.addMembers lib top tar (member :: members) =
      .error (invalidEntry member.entry.name) := by
  rw [addMembers]
  simp only [hfile, Bool.false_eq_true, if_false]
  split
  next => rfl
  next => rfl
  next idx hzero hidx =>
    have hpos : 0 < idx := Nat.pos_of_ne_zero fun h => hzero (by rw [← h])
    have hno := hmismatch (hasTop_iff.mpr ⟨idx, hidx, hpos⟩)
    obtain ⟨hfirst, hslash⟩ := idxOf?_eq_some hidx
    have hlength := (List.getElem?_eq_some_iff.mp hslash).1
    have hnext : nextPrefix top member.entry.name idx = none := by
      cases top with
      | none => exact absurd (fun _ h => by cases h) hno
      | some name =>
          unfold nextPrefix
          dsimp only
          rw [if_neg]
          rw [regionMatches_iff hlength.le, ← hfirst]
          intro hprefix
          exact hno fun _ h => by
            cases h
            exact hprefix
    rw [hnext]

/-- Every file lies in a top directory whose name is a start of the given one. -/
def Fits (top : Name) (members : List Member) : Prop :=
  ∀ member ∈ files members, HasTop member.entry.name ∧ topOf member.entry.name <+: top

/-- The top directory of the first file. -/
def firstTop (members : List Member) : Name :=
  match files members with
  | [] => []
  | member :: _ => topOf member.entry.name

theorem DirectoriesSlashed.ne_directory {member : Member} {members : List Member}
    (hread : DirectoriesSlashed members) (hmember : member ∈ members)
    (hfile : endsWithSlash member.entry.name = false) : member.entry.linkFlag ≠ .directory := by
  intro hflag
  rw [hread member hmember hflag] at hfile
  cases hfile

/-- The loop goes through what fits, and names the first file that does not. -/
theorem addMembers_some {members : List Member} (hread : DirectoriesSlashed members) (top : Name)
    (tar : DataTar) :
    (Fits top members → ∃ tar', task.addMembers lib (some top) tar members = .ok tar') ∧
      (¬ Fits top members →
        ∃ name, task.addMembers lib (some top) tar members = .error (invalidEntry name)) := by
  induction members generalizing tar with
  | nil => exact ⟨fun _ => ⟨tar, rfl⟩, fun h => absurd (fun _ hmember => by cases hmember) h⟩
  | cons member members ih =>
      have ih := ih fun other hother => hread other (List.mem_cons_of_mem member hother)
      cases hname : endsWithSlash member.entry.name with
      | true =>
          unfold Fits at ih ⊢
          rw [addMembers_slash_cons hname, files_cons_slash members hname]
          exact ih tar
      | false =>
          have hflag := hread.ne_directory List.mem_cons_self hname
          unfold Fits at ih ⊢
          rw [files_cons_file members hname]
          by_cases hfirst : HasTop member.entry.name ∧ topOf member.entry.name <+: top
          · obtain ⟨tar', hstep⟩ := @addMembers_match lib task (some top) tar member members hname
              hflag hfirst.1 (fun _ h => by cases h; exact hfirst.2)
            rw [hstep]
            simp only [List.forall_mem_cons, hfirst, true_and, and_self]
            exact ih tar'
          · refine ⟨fun h => absurd (List.forall_mem_cons.mp h).1 hfirst, fun _ => ?_⟩
            exact ⟨_, addMembers_mismatch hname fun htop h => hfirst ⟨htop, h top rfl⟩⟩

/-- The loop as a whole: the first file tells the top directory. -/
theorem addMembers_none {members : List Member} (hread : DirectoriesSlashed members)
    (tar : DataTar) :
    (Fits (firstTop members) members → ∃ tar', task.addMembers lib none tar members = .ok tar') ∧
      (¬ Fits (firstTop members) members →
        ∃ name, task.addMembers lib none tar members = .error (invalidEntry name)) := by
  induction members with
  | nil => exact ⟨fun _ => ⟨tar, rfl⟩, fun h => absurd (fun _ hmember => by cases hmember) h⟩
  | cons member members ih =>
      have hrest : DirectoriesSlashed members :=
        fun other hother => hread other (List.mem_cons_of_mem member hother)
      cases hname : endsWithSlash member.entry.name with
      | true =>
          unfold Fits firstTop at ih ⊢
          rw [addMembers_slash_cons hname, files_cons_slash members hname]
          exact ih hrest
      | false =>
          have hflag := hread.ne_directory List.mem_cons_self hname
          have htop : firstTop (member :: members) = topOf member.entry.name := by
            rw [firstTop, files_cons_file members hname]
          rw [htop]
          by_cases hfirst : HasTop member.entry.name
          · obtain ⟨tar', hstep⟩ := @addMembers_match lib task none tar member members hname
              hflag hfirst (fun _ h => by cases h)
            rw [hstep, Option.getD_none]
            have hsame : Fits (topOf member.entry.name) (member :: members) ↔
                Fits (topOf member.entry.name) members := by
              unfold Fits
              rw [files_cons_file members hname, List.forall_mem_cons]
              exact and_iff_right ⟨hfirst, List.prefix_refl _⟩
            rw [hsame]
            exact addMembers_some hrest _ tar'
          · refine ⟨fun h => ?_, fun _ => ⟨_, addMembers_mismatch hname fun h => absurd h hfirst⟩⟩
            exact absurd (h member (by simp [files, hname])).1 hfirst

/-- A tar is made a package exactly when its files fit below the directory of the first one, and
otherwise the error is about an entry. -/
theorem run_accepted_iff {input : List Member} (hread : DirectoriesSlashed input) :
    (Fits (firstTop input) input → ∃ deb, task.run lib input = .ok deb) ∧
      (¬ Fits (firstTop input) input →
        ∃ name, task.run lib input = .error (invalidEntry name)) := by
  obtain ⟨hok, herror⟩ := @addMembers_none lib task input hread ⟨∅, []⟩
  refine ⟨fun hfits => ?_, fun hnot => ?_⟩
  · obtain ⟨tar, htar⟩ := hok hfits
    exact run_ok htar
  · obtain ⟨name, hname⟩ := herror hnot
    exact ⟨name, run_error hname⟩

/-! ## Files stay apart -/

/-- All files of an accepted tar lie in one top directory and go to different places, and a tar
with two top directories is refused as a whole. -/
structure RelocatesInjectively (lib : TarLibrary) (task : CreateDeb) (input : List Member) :
    Prop where
  oneTop : ∀ deb, task.run lib input = .ok deb → ∀ member ∈ input, ∀ other ∈ input,
    member.entry.isDirectory = false → other.entry.isDirectory = false →
      topOf member.entry.name = topOf other.entry.name
  injective : ∀ deb, task.run lib input = .ok deb → ∀ member ∈ input, ∀ other ∈ input,
    member.entry.isDirectory = false → other.entry.isDirectory = false →
      task.installTarget member.entry.name = task.installTarget other.entry.name →
        member.entry.name = other.entry.name
  refused : ∀ member ∈ input, ∀ other ∈ input,
    member.entry.isDirectory = false → other.entry.isDirectory = false →
      topOf member.entry.name ≠ topOf other.entry.name →
        ∃ name, task.run lib input = .error (invalidEntry name)

/-- The files are what is no directory. -/
theorem DirectoriesSlashed.mem_files_iff {input : List Member} (hread : DirectoriesSlashed input)
    {member : Member} :
    member ∈ files input ↔ member ∈ input ∧ member.entry.isDirectory = false := by
  rw [mem_files, isDirectory_eq_false]
  constructor
  · rintro ⟨hmember, hfile⟩
    exact ⟨hmember, hread.ne_directory hmember hfile, hfile⟩
  · rintro ⟨hmember, -, hfile⟩
    exact ⟨hmember, hfile⟩

/-- Files in one top directory go to different places. -/
theorem name_eq_of_installTarget {name other : Name} (hname : HasTop name) (hother : HasTop other)
    (htop : topOf name = topOf other) (h : task.installTarget name = task.installTarget other) :
    name = other := by
  have hinside : pathInside name = pathInside other := List.append_cancel_left h
  rw [← topOf_append_pathInside hname.1, ← topOf_append_pathInside hother.1, htop, hinside]

/-- Files with different names stay apart exactly when a tar whose files all fit below the
directory of the first one has no other top directory. -/
theorem relocates_injectively_iff {input : List Member} (hread : DirectoriesSlashed input) :
    RelocatesInjectively lib task input ↔
      (Fits (firstTop input) input →
        ∀ member ∈ files input, topOf member.entry.name = firstTop input) := by
  obtain ⟨hok, herror⟩ := @run_accepted_iff lib task input hread
  constructor
  · intro hexact hfits member hmember
    obtain ⟨deb, hdeb⟩ := hok hfits
    cases hfiles : files input with
    | nil =>
        rw [hfiles] at hmember
        cases hmember
    | cons first rest =>
        have hfirst : first ∈ files input := by
          rw [hfiles]
          exact List.mem_cons_self
        rw [firstTop, hfiles]
        obtain ⟨hin, hfile⟩ := hread.mem_files_iff.mp hmember
        obtain ⟨hin', hfile'⟩ := hread.mem_files_iff.mp hfirst
        exact hexact.oneTop deb hdeb member hin first hin' hfile hfile'
  · intro hone
    have hfits : ∀ deb, task.run lib input = .ok deb → Fits (firstTop input) input := by
      intro deb hdeb
      by_contra hnot
      obtain ⟨name, hname⟩ := herror hnot
      rw [hdeb] at hname
      cases hname
    have hsame : ∀ deb, task.run lib input = .ok deb → ∀ member ∈ input, ∀ other ∈ input,
        member.entry.isDirectory = false → other.entry.isDirectory = false →
          topOf member.entry.name = topOf other.entry.name := by
      intro deb hdeb member hmember other hother hfile hfile'
      have hone := hone (hfits deb hdeb)
      rw [hone member (hread.mem_files_iff.mpr ⟨hmember, hfile⟩),
        hone other (hread.mem_files_iff.mpr ⟨hother, hfile'⟩)]
    refine ⟨hsame, ?_, ?_⟩
    · intro deb hdeb member hmember other hother hfile hfile' htarget
      have hfits := hfits deb hdeb
      exact name_eq_of_installTarget
        (hfits member (hread.mem_files_iff.mpr ⟨hmember, hfile⟩)).1
        (hfits other (hread.mem_files_iff.mpr ⟨hother, hfile'⟩)).1
        (hsame deb hdeb member hmember other hother hfile hfile') htarget
    · intro member hmember other hother hfile hfile' hne
      apply herror
      intro hfits
      obtain ⟨deb, hdeb⟩ := hok hfits
      exact hne (hsame deb hdeb member hmember other hother hfile hfile')

/-- All files of the small archive are below one directory, so they are moved. -/
theorem relocates_injectively_iff_launcher :
    files launcherTar ≠ [] ∧ RelocatesInjectively commonsCompress smallTask launcherTar := by
  refine ⟨by decide +kernel, ?_⟩
  exact (relocates_injectively_iff (by unfold DirectoriesSlashed; decide +kernel)).mpr fun _ => by
    decide +kernel

/-- Two files with one path in two top directories. -/
def twoTopsTar : List Member :=
  [readMember (str "idea-IC/bin/idea") .regular [] [1] (.inr (by decide)),
    readMember (str "idea/bin/idea") .regular [] [2] (.inr (by decide))]

/-- Both files go to one place. -/
theorem top_directories_confused :
    ¬ ∀ (lib : TarLibrary) (task : CreateDeb) (input : List Member), DirectoriesSlashed input →
      RelocatesInjectively lib task input := by
  intro h
  have hexact := h commonsCompress smallTask twoTopsTar (by unfold DirectoriesSlashed; decide +kernel)
  have haccepted :
      (smallTask.addMembers commonsCompress none ⟨∅, []⟩ twoTopsTar).toBool = true := by
    decide +kernel
  cases hloop : smallTask.addMembers commonsCompress none ⟨∅, []⟩ twoTopsTar with
  | error failure =>
      rw [hloop] at haccepted
      cases haccepted
  | ok tar =>
      obtain ⟨deb, hrun⟩ := run_ok hloop
      have hsame := hexact.injective deb hrun _ List.mem_cons_self _
        (List.mem_cons_of_mem _ List.mem_cons_self) rfl rfl rfl
      have hdiffer : str "idea-IC/bin/idea" ≠ str "idea/bin/idea" := by decide
      exact hdiffer hsame

end CreateDeb
end Packaging
end IdeMultiarch
