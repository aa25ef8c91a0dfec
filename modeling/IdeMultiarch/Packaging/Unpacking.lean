import IdeMultiarch.Packaging.InstalledTree

/-!
# Packaging - unpacking the data archive

A package can be unpacked into an empty file system if each entry of its data archive comes after
the entries of all directories above it.  {lit}`makeDirectories` keeps the set of the directories that
were written closed under parents, and so the files of the tar come after their directories.

The desktop entry is put without a call of {lit}`makeDirectories`, and no file of the tar is
installed in its directory.

Main results:

- Theorem {lit}`parentName_of_isAncestor`: the directories above one are its parent and those above
  the parent.
- Theorem {lit}`makeDirectories_unpackable`: {lit}`makeDirectories` makes all directories above one.
- Theorem {lit}`addMembers_unpackable`: the loop over the tar keeps the archive closed.
- Theorem {lit}`only_desktop_orphan`: the data archive is closed except for its desktop entry.
-/

namespace IdeMultiarch
namespace Packaging
namespace CreateDeb

open Library.Results (bind_eq_ok)

variable {lib : TarLibrary} {task : CreateDeb}

/-! ## Archives that can be unpacked -/

/-- A directory above a path: a part of it up to a slash. -/
structure IsAncestor (directory name : Name) : Prop where
  isPrefix : directory <+: name
  ne : directory ≠ name
  slash : endsWithSlash directory = true

/-- A directory is among the members. -/
def HasDirectory (members : List Member) (name : Name) : Prop :=
  ∃ directory ∈ members, directory.entry.name = name ∧ directory.entry.linkFlag = .directory

/-- Each member comes after all directories above it. -/
def ParentsFirst (members : List Member) : Prop :=
  ∀ before out after, members = before ++ out :: after →
    ∀ directory, IsAncestor directory out.entry.name → HasDirectory before directory

/-- An empty archive can be unpacked. -/
theorem parentsFirst_nil : ParentsFirst [] := by
  intro before out after h
  simp at h

/-- One more member after the directories above it. -/
theorem ParentsFirst.concat {members : List Member} {member : Member} (h : ParentsFirst members)
    (hmember : ∀ directory, IsAncestor directory member.entry.name →
      HasDirectory members directory) : ParentsFirst (members ++ [member]) := by
  intro before out after hsplit
  rcases List.eq_nil_or_concat after with rfl | ⟨after', last, rfl⟩
  · obtain ⟨rfl, hlast⟩ := List.append_inj' hsplit rfl
    cases hlast
    exact hmember
  · rw [List.concat_eq_append, ← List.cons_append, ← List.append_assoc] at hsplit
    obtain ⟨hfront, -⟩ := List.append_inj' hsplit rfl
    exact h before out after' hfront

/-- The members before the last one can be unpacked. -/
theorem ParentsFirst.dropLast {members : List Member} {member : Member}
    (h : ParentsFirst (members ++ [member])) :
    ∀ directory, IsAncestor directory member.entry.name → HasDirectory members directory :=
  h members member [] rfl

/-- More members do not take a directory away. -/
theorem HasDirectory.mono {members members' : List Member} {name : Name}
    (h : HasDirectory members name) (hsub : members ⊆ members') : HasDirectory members' name := by
  obtain ⟨directory, hmem, hdirectory⟩ := h
  exact ⟨directory, hsub hmem, hdirectory⟩

/-! ## Parents -/

/-- {lit}`lastIndexOf` from one place further. -/
theorem lastIndexOf_succ (name : Name) (c : Char) (fromIndex : Nat) :
    lastIndexOf name c (fromIndex + 1) =
      if name[fromIndex + 1]? = some c then some (fromIndex + 1)
      else lastIndexOf name c fromIndex := by
  unfold lastIndexOf
  rw [List.range_succ, List.reverse_append, List.reverse_singleton, List.singleton_append,
    List.find?_cons]
  by_cases h : name[fromIndex + 1]? = some c
  · simp [h]
  · have hne : (name[fromIndex + 1]? == some c) = false := by simpa using h
    rw [hne, if_neg h]

/-- {lit}`lastIndexOf` finds the last one. -/
theorem lastIndexOf_last {name : Name} {c : Char} {fromIndex idx : Nat}
    (h : lastIndexOf name c fromIndex = some idx) {i : Nat} (hi : i ≤ fromIndex)
    (hc : name[i]? = some c) : i ≤ idx := by
  induction fromIndex with
  | zero =>
      have hle := (lastIndexOf_eq_some h).1
      omega
  | succ fromIndex ih =>
      rw [lastIndexOf_succ] at h
      by_cases hfound : name[fromIndex + 1]? = some c
      · rw [if_pos hfound] at h
        cases h
        exact hi
      · rw [if_neg hfound] at h
        have hne : i ≠ fromIndex + 1 := by
          rintro rfl
          exact hfound hc
        exact ih h (by omega)

/-- The place of the last slash of a directory above a path. -/
theorem IsAncestor.slash_at {directory name : Name} (h : IsAncestor directory name) :
    ∃ k, directory = name.take (k + 1) ∧ name[k]? = some '/' ∧ k + 2 ≤ name.length := by
  obtain ⟨rest, rfl⟩ := h.isPrefix
  have hrest : rest ≠ [] := by
    rintro rfl
    exact h.ne (List.append_nil _).symm
  obtain ⟨front, hfront⟩ : ∃ front, directory = front ++ ['/'] := by
    have hlast := h.slash
    unfold endsWithSlash at hlast
    rw [beq_iff_eq, List.getLast?_eq_some_iff] at hlast
    exact hlast
  subst hfront
  have hlength := List.length_pos_iff.mpr hrest
  refine ⟨front.length, ?_, ?_, ?_⟩
  · exact (List.take_left' (by simp)).symm
  · simp
  · simp only [List.length_append, List.length_singleton]
    omega

/-- The directories above a path are ordered. -/
theorem IsAncestor.of_take {directory name : Name} {idx : Nat} (h : IsAncestor directory name)
    (hlast : ∀ i, i + 2 ≤ name.length → name[i]? = some '/' → i ≤ idx) :
    directory = name.take (idx + 1) ∨ IsAncestor directory (name.take (idx + 1)) := by
  obtain ⟨k, rfl, hslash, hlength⟩ := h.slash_at
  have hle := hlast k hlength hslash
  rcases Nat.lt_or_ge k idx with hlt | hge
  · right
    refine ⟨?_, ?_, h.slash⟩
    · exact List.take_prefix_take_left (by omega)
    · intro heq
      have hlen := congrArg List.length heq
      rw [List.length_take, List.length_take] at hlen
      omega
  · left
    rw [Nat.le_antisymm hle hge]

/-- The directories above one are its parent and those above the parent. -/
theorem parentName_of_isAncestor {directory dirName : Name} (hrelative : dirName.head? ≠ some '/')
    (h : IsAncestor directory dirName) :
    ∃ parent, parentName dirName = some parent ∧
      (directory = parent ∨ IsAncestor directory parent) := by
  obtain ⟨k, -, hslash, hlength⟩ := h.slash_at
  unfold parentName
  rw [if_pos (by omega)]
  cases hlast : lastIndexOf dirName '/' (dirName.length - 2) with
  | none => exact absurd hslash (lastIndexOf_eq_none hlast (by omega))
  | some idx =>
      have hmax : ∀ i, i + 2 ≤ dirName.length → dirName[i]? = some '/' → i ≤ idx := by
        intro i hi hc
        exact lastIndexOf_last hlast (by omega) hc
      have hpos : 0 < idx := by
        have hk := hmax k hlength hslash
        have hk0 : k ≠ 0 := by
          rintro rfl
          rw [← List.head?_eq_getElem?] at hslash
          exact hrelative hslash
        omega
      dsimp only
      rw [if_pos hpos]
      exact ⟨_, rfl, h.of_take hmax⟩

/-! ## The archive stays closed -/

/-- The archive that is being written can be unpacked, and the set of its directories has the
directories above each of its elements. -/
structure Unpackable (tar : DataTar) : Prop where
  parents : ParentsFirst tar.output
  written : ∀ dirName ∈ tar.directories, HasDirectory tar.output dirName
  closed : ∀ dirName ∈ tar.directories, ∀ directory, IsAncestor directory dirName →
    directory ∈ tar.directories

/-- The empty archive. -/
theorem unpackable_empty : Unpackable ⟨∅, []⟩ where
  parents := parentsFirst_nil
  written := by
    intro dirName h
    simp at h
  closed := by
    intro dirName h
    simp at h

/-- One more directory, when those above it are there. -/
theorem Unpackable.insert {tar : DataTar} (h : Unpackable tar) {dirName : Name}
    (hslash : endsWithSlash dirName = true) (hrelative : dirName.head? ≠ some '/')
    (habove : ∀ directory, IsAncestor directory dirName → directory ∈ tar.directories) :
    Unpackable
      { directories := insert dirName tar.directories
        output := tar.output ++ [directoryMember lib dirName] } := by
  have hname : (directoryMember lib dirName).entry.name = dirName :=
    newTarArchiveEntry_name hrelative
  have hflag : (directoryMember lib dirName).entry.linkFlag = .directory := by
    simp [directoryMember, lib.new_linkFlag, lib.relative dirName hrelative, hslash]
  refine ⟨h.parents.concat ?_, ?_, ?_⟩
  · intro directory hancestor
    rw [hname] at hancestor
    exact h.written directory (habove directory hancestor)
  · intro other hother
    rcases Finset.mem_insert.mp hother with rfl | hold
    · exact ⟨directoryMember lib other, List.mem_append_right _ List.mem_cons_self, hname, hflag⟩
    · exact (h.written other hold).mono (List.subset_append_left _ _)
  · intro other hother directory hancestor
    rcases Finset.mem_insert.mp hother with rfl | hold
    · exact Finset.mem_insert_of_mem (habove directory hancestor)
    · exact Finset.mem_insert_of_mem (h.closed other hold directory hancestor)

variable (lib) in
/-- {lit}`makeDirectories` makes a directory and all directories above it.  The induction is on the
length of the name, as the parent is shorter. -/
theorem makeDirectories_unpackable {dirName : Name} {tar : DataTar} (h : Unpackable tar)
    (hslash : endsWithSlash dirName = true) (hrelative : dirName.head? ≠ some '/') :
    Unpackable (makeDirectories lib dirName tar) ∧
      dirName ∈ (makeDirectories lib dirName tar).directories := by
  induction hlength : dirName.length using Nat.strong_induction_on generalizing dirName with
  | _ length ih =>
      rw [makeDirectories_eq]
      by_cases hmem : dirName ∈ tar.directories
      · rw [if_pos hmem]
        exact ⟨h, hmem⟩
      · rw [if_neg hmem]
        cases hparent : parentName dirName with
        | none =>
            refine ⟨h.insert hslash hrelative ?_, Finset.mem_insert_self _ _⟩
            intro directory hancestor
            obtain ⟨parent, hsome, -⟩ := parentName_of_isAncestor hrelative hancestor
            rw [hparent] at hsome
            cases hsome
        | some parent =>
            obtain ⟨hslash', hhead, hshorter⟩ := parentName_eq_some hparent
            obtain ⟨hmade, hthere⟩ := ih parent.length (by omega) hslash' (hhead ▸ hrelative) rfl
            refine ⟨hmade.insert hslash hrelative ?_, Finset.mem_insert_self _ _⟩
            intro directory hancestor
            obtain ⟨parent', hsome, hcases⟩ := parentName_of_isAncestor hrelative hancestor
            rw [hparent] at hsome
            cases hsome
            rcases hcases with rfl | habove
            · exact hthere
            · exact hmade.closed parent hthere directory habove

/-- The directories above a file are its directory and those above it. -/
theorem directoryOf_of_isAncestor {directory name : Name} (h : IsAncestor directory name) :
    directory = directoryOf name ∨ IsAncestor directory (directoryOf name) := by
  obtain ⟨k, -, hslash, hlength⟩ := h.slash_at
  unfold directoryOf
  cases hlast : lastIndexOf name '/' (name.length - 1) with
  | none => exact absurd hslash (lastIndexOf_eq_none hlast (by omega))
  | some idx =>
      exact h.of_take fun i hi hc => lastIndexOf_last hlast (by omega) hc

/-- The loop over the tar keeps the archive closed. -/
theorem addMembers_unpackable {top : Option Name} {tar tar' : DataTar} {members : List Member}
    (htar : Unpackable tar) (h : task.addMembers lib top tar members = .ok tar') :
    Unpackable tar' := by
  induction members generalizing top tar with
  | nil =>
      cases h
      exact htar
  | cons member members ih =>
      rcases addMembers_cons h with ⟨-, hrest⟩ |
        ⟨hfile, idx, top', written, hidx, -, -, hwritten, hrest⟩
      · exact ih htar hrest
      · obtain ⟨hslash, hrelative⟩ := directoryOf_installTarget task member.entry.name
        obtain ⟨hmade, hthere⟩ := makeDirectories_unpackable lib htar hslash hrelative
        refine ih ?_ hrest
        refine ⟨hmade.parents.concat ?_, ?_, hmade.closed⟩
        · have hentry : written.entry = (installed lib task member).1 :=
            congrArg Prod.fst hwritten
          rw [hentry, (installed_file lib task hidx hfile).1]
          intro directory hancestor
          rcases directoryOf_of_isAncestor hancestor with rfl | habove
          · exact hmade.written _ hthere
          · exact hmade.written _ (hmade.closed _ hthere _ habove)
        · intro dirName hdir
          exact (hmade.written dirName hdir).mono (List.subset_append_left _ _)

/-! ## The desktop entry -/

/-- A parent is a part of the name. -/
theorem parentName_eq_take {dirName parent : Name} (h : parentName dirName = some parent) :
    ∃ n, parent = dirName.take n := by
  unfold parentName at h
  split at h
  next =>
    split at h
    next idx hidx =>
      split at h
      next =>
        cases h
        exact ⟨idx + 1, rfl⟩
      next => cases h
    next => cases h
  next => cases h

/-- The directory of a file is a part of the name. -/
theorem directoryOf_eq_take (name : Name) : ∃ n, directoryOf name = name.take n := by
  unfold directoryOf
  split
  next idx hidx => exact ⟨idx + 1, rfl⟩
  next => exact ⟨0, rfl⟩

variable (lib) in
/-- A property of names that a directory has with the directories above it is kept. -/
theorem makeDirectories_names {P : Name → Prop} (hP : ∀ name n, P name → P (name.take n))
    {dirName : Name} {tar : DataTar} (hrelative : dirName.head? ≠ some '/') (hdir : P dirName)
    (htar : ∀ out ∈ tar.output, P out.entry.name) :
    ∀ out ∈ (makeDirectories lib dirName tar).output, P out.entry.name := by
  induction hlength : dirName.length using Nat.strong_induction_on generalizing dirName with
  | _ length ih =>
      have hself : P (directoryMember lib dirName).entry.name := by
        have hname : (directoryMember lib dirName).entry.name = dirName :=
          newTarArchiveEntry_name hrelative
        rw [hname]
        exact hdir
      rw [makeDirectories_eq]
      split
      next => exact htar
      next =>
        intro out hout
        cases hparent : parentName dirName with
        | none =>
            simp only [hparent] at hout
            rcases List.mem_append.mp hout with hold | hnew
            · exact htar out hold
            · rw [List.mem_singleton.mp hnew]
              exact hself
        | some parent =>
            simp only [hparent] at hout
            obtain ⟨-, hhead, hshorter⟩ := parentName_eq_some hparent
            obtain ⟨n, hn⟩ := parentName_eq_take hparent
            rcases List.mem_append.mp hout with hold | hnew
            · exact ih parent.length (by omega) (hhead ▸ hrelative) (hn ▸ hP dirName n hdir) rfl
                out hold
            · rw [List.mem_singleton.mp hnew]
              exact hself

/-- The directory of the desktop entry is not among the names of the loop: they all go on in
another way after {lit}`./usr/share/`. -/
theorem addMembers_names {top : Option Name} {tar tar' : DataTar} {members : List Member}
    (htar : ∀ out ∈ tar.output, out.entry.name[12]? ≠ some 'a')
    (h : task.addMembers lib top tar members = .ok tar') :
    ∀ out ∈ tar'.output, out.entry.name[12]? ≠ some 'a' := by
  induction members generalizing top tar with
  | nil =>
      cases h
      exact htar
  | cons member members ih =>
      rcases addMembers_cons h with ⟨-, hrest⟩ |
        ⟨hfile, idx, top', written, hidx, -, -, hwritten, hrest⟩
      · exact ih htar hrest
      · refine ih ?_ hrest
        have htake : ∀ (name : Name) (n : Nat), name[12]? ≠ some 'a' →
            (name.take n)[12]? ≠ some 'a' := by
          intro name n hname
          rw [List.getElem?_take]
          split
          next => exact hname
          next =>
            intro hne
            cases hne
        have htarget : (task.installTarget member.entry.name)[12]? ≠ some 'a' := by
          have hchar : (task.installTarget member.entry.name)[12]? = some 'j' := rfl
          rw [hchar]
          decide
        obtain ⟨n, hn⟩ := directoryOf_eq_take (task.installTarget member.entry.name)
        have hrelative := (directoryOf_installTarget task member.entry.name).2
        have hmade := makeDirectories_names lib htake hrelative
          (hn ▸ htake _ n htarget) htar
        intro out hout
        rcases List.mem_append.mp hout with hold | hnew
        · exact hmade out hold
        · rw [List.mem_singleton.mp hnew]
          have hentry : written.entry = (installed lib task member).1 :=
            congrArg Prod.fst hwritten
          rw [hentry, (installed_file lib task hidx hfile).1]
          exact htarget

/-- The directory of the desktop entry. -/
def desktopDirectory : Name :=
  str "./usr/share/applications/"

/-- The data archive can be unpacked up to its last entry, the desktop entry: the directory of
that one is missing. -/
theorem createData_orphan {input output : List Member}
    (h : task.createData lib input = .ok output) :
    ∃ files desktop, output = files ++ [desktop] ∧ ParentsFirst files ∧
      IsAncestor desktopDirectory desktop.entry.name ∧ ¬ HasDirectory files desktopDirectory := by
  obtain ⟨tar, htar, h⟩ := bind_eq_ok.mp h
  obtain ⟨desktop, hdesktop, h⟩ := bind_eq_ok.mp h
  cases h
  have hname : desktop.entry.name = task.desktopPath := by
    rw [(putArchiveEntry_ok hdesktop).1]
    exact newTarArchiveEntry_name (desktopPath_file task).2
  refine ⟨tar.output, desktop, rfl, (addMembers_unpackable unpackable_empty htar).parents, ?_, ?_⟩
  · rw [hname]
    refine ⟨⟨_, rfl⟩, ?_, by decide⟩
    intro heq
    have hend := (desktopPath_file task).1
    rw [← heq] at hend
    exact absurd hend (by decide)
  · rintro ⟨directory, hmem, hdirectory, -⟩
    have hchar := addMembers_names (by simp) htar directory hmem
    rw [hdirectory] at hchar
    exact hchar (by decide)

/-- The data archive is closed under parent directories except for its last entry, and never with
it. -/
theorem only_desktop_orphan {input : List Member} {deb : Deb}
    (hrun : task.run lib input = .ok deb) :
    ParentsFirst deb.data.dropLast ∧ ¬ ParentsFirst deb.data := by
  obtain ⟨files, desktop, houtput, hfiles, hancestor, hmissing⟩ :=
    createData_orphan (run_data hrun)
  rw [houtput, List.dropLast_concat]
  exact ⟨hfiles, fun hclosed => hmissing (hclosed.dropLast _ hancestor)⟩

/-- The package with the launcher. -/
theorem only_desktop_orphan_launcher :
    ∃ deb, smallTask.run commonsCompress launcherTar = .ok deb ∧
      ParentsFirst deb.data.dropLast ∧ ¬ ParentsFirst deb.data := by
  obtain ⟨deb, hrun⟩ := launcherTar_accepted
  exact ⟨deb, hrun, only_desktop_orphan hrun⟩

/-- In the package with the launcher, the directory of the desktop entry is missing. -/
theorem desktop_directory_missing :
    ∃ deb, smallTask.run commonsCompress launcherTar = .ok deb ∧ ¬ ParentsFirst deb.data := by
  obtain ⟨deb, hrun⟩ := launcherTar_accepted
  obtain ⟨files, desktop, houtput, -, hancestor, hmissing⟩ := createData_orphan (run_data hrun)
  refine ⟨deb, hrun, fun hclosed => ?_⟩
  rw [houtput] at hclosed
  exact hmissing (hclosed.dropLast _ hancestor)

end CreateDeb
end Packaging
end IdeMultiarch
