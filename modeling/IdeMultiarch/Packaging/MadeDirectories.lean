import Mathlib.Data.List.Induction
import IdeMultiarch.Library.Text
import IdeMultiarch.Packaging.Unpacking

/-!
# Packaging - the directories that are made

The method {lit}`makeDirectories` is called once for each file, and all calls share one set of names.
Seen from outside it works on paths: what was written is a list of paths, each after its parent.

Main results:

- Theorem {lit}`makes_makeDirectories`: the recursion of the source ends.
- Theorem {lit}`parentName_dirPath`: the recursion goes from a path to its parent.
- Theorem {lit}`makeDirectories_made`: what one call adds to the paths that were written.
- Theorem {lit}`each_directory_once`: what any sequence of calls writes.
-/

namespace IdeMultiarch
namespace Packaging
namespace CreateDeb

open Library.Text (splitOnce splitOnce_append)

/-! ## Paths -/

/-- The components of a directory: they are not empty and have no slash. -/
def ValidComponents (components : List Name) : Prop :=
  ∀ component ∈ components, component ≠ [] ∧ '/' ∉ component

/-- The name of a directory. -/
def dirPath (components : List Name) : Name :=
  str "./" ++ components.flatMap fun component => component ++ ['/']

theorem ValidComponents.dropLast {components : List Name} {component : Name}
    (h : ValidComponents (components ++ [component])) : ValidComponents components :=
  fun other hother => h other (List.mem_append_left _ hother)

theorem dirPath_concat (components : List Name) (component : Name) :
    dirPath (components ++ [component]) = dirPath components ++ (component ++ ['/']) := by
  simp [dirPath, List.flatMap_append]

/-- Different directories have different names. -/
theorem dirPath_injective {components components' : List Name} (h : ValidComponents components)
    (h' : ValidComponents components') (hsame : dirPath components = dirPath components') :
    components = components' := by
  replace hsame := List.append_cancel_left hsame
  induction components generalizing components' with
  | nil =>
      cases components' with
      | nil => rfl
      | cons component' components' => simp at hsame
  | cons component components ih =>
      cases components' with
      | nil => simp at hsame
      | cons component' components' =>
          rw [List.flatMap_cons, List.flatMap_cons, List.append_assoc, List.append_assoc,
            List.singleton_append, List.singleton_append] at hsame
          have hsplit := splitOnce_append (h component List.mem_cons_self).2
            (components.flatMap fun component => component ++ ['/'])
          rw [hsame, splitOnce_append (h' component' List.mem_cons_self).2] at hsplit
          obtain ⟨rfl, hrest⟩ := Prod.mk.inj (Option.some.inj hsplit)
          rw [ih (fun other hother => h other (List.mem_cons_of_mem _ hother))
            (fun other hother => h' other (List.mem_cons_of_mem _ hother)) hrest.symm]

/-! ## Parents -/

/-- The last slash in front of a part without one. -/
theorem lastIndexOf_append {front part : Name} (hpart : '/' ∉ part) (rest : Name) :
    lastIndexOf (front ++ '/' :: (part ++ rest)) '/' (front.length + part.length) =
      some front.length := by
  have hslash : (front ++ '/' :: (part ++ rest))[front.length]? = some '/' := by simp
  cases hlast : lastIndexOf (front ++ '/' :: (part ++ rest)) '/' (front.length + part.length) with
  | none => exact absurd hslash (lastIndexOf_eq_none hlast (by omega))
  | some idx =>
      obtain ⟨hle, hfound⟩ := lastIndexOf_eq_some hlast
      have hge := lastIndexOf_last hlast (by omega) hslash
      rcases Nat.eq_or_lt_of_le hge with rfl | hlt
      · rfl
      · -- a later slash would stand in the part
        obtain ⟨k, rfl⟩ := Nat.exists_eq_add_of_lt hlt
        have hk : k < part.length := by omega
        rw [List.getElem?_append_right (by omega), Nat.add_assoc, Nat.add_sub_cancel_left,
          List.getElem?_cons_succ, List.getElem?_append_left hk] at hfound
        exact absurd (List.mem_of_getElem? hfound) hpart

/-- The recursion ends at the top directory. -/
theorem parentName_dirPath_nil : parentName (dirPath []) = none := by
  decide

/-- The recursion goes from a directory to its parent. -/
theorem parentName_dirPath {components : List Name} {component : Name}
    (h : component ≠ [] ∧ '/' ∉ component) :
    parentName (dirPath (components ++ [component])) = some (dirPath components) := by
  obtain ⟨front, hfront⟩ : ∃ front, dirPath components = front ++ ['/'] ∧ 0 < front.length := by
    rcases List.eq_nil_or_concat' components with rfl | ⟨above, last, rfl⟩
    · exact ⟨['.'], by decide, by decide⟩
    · refine ⟨dirPath above ++ last, by rw [dirPath_concat, List.append_assoc], ?_⟩
      rw [List.length_append, dirPath, List.length_append]
      exact Nat.lt_of_lt_of_le (by decide : 0 < (str "./").length) (by omega)
  obtain ⟨hdir, hpos⟩ := hfront
  have hpath : dirPath (components ++ [component]) = front ++ '/' :: (component ++ ['/']) := by
    rw [dirPath_concat, hdir, List.append_assoc, List.singleton_append]
  have hlength : (front ++ '/' :: (component ++ ['/'])).length =
      front.length + component.length + 2 := by
    simp only [List.length_append, List.length_cons, List.length_nil]
    omega
  rw [hpath, parentName, hlength, if_pos (by omega), Nat.add_sub_cancel, lastIndexOf_append h.2]
  dsimp only
  rw [if_pos hpos, hdir, List.append_cons front '/' (component ++ ['/']),
    List.take_left' (by simp)]

/-! ## One call -/

variable {lib : TarLibrary}

/-- A directory is written and remembered. -/
def DataTar.make (lib : TarLibrary) (tar : DataTar) (dirName : Name) : DataTar where
  directories := insert dirName tar.directories
  output := tar.output ++ [directoryMember lib dirName]

/-- The finite calls of {lit}`makeDirectories`: from the archive before to the archive after. -/
inductive Makes (lib : TarLibrary) : Name → DataTar → DataTar → Prop
  | seen {dirName : Name} {tar : DataTar} (h : dirName ∈ tar.directories) :
      Makes lib dirName tar tar
  | top {dirName : Name} {tar : DataTar} (h : dirName ∉ tar.directories)
      (hparent : parentName dirName = none) : Makes lib dirName tar (tar.make lib dirName)
  | next {dirName parent : Name} {tar tar' : DataTar} (h : dirName ∉ tar.directories)
      (hparent : parentName dirName = some parent) (hmakes : Makes lib parent tar tar') :
      Makes lib dirName tar (tar'.make lib dirName)

/-- The recursion of {lit}`makeDirectories` ends, as a parent is shorter. -/
theorem makes_makeDirectories (lib : TarLibrary) (dirName : Name) (tar : DataTar) :
    Makes lib dirName tar (makeDirectories lib dirName tar) := by
  induction hlength : dirName.length using Nat.strong_induction_on generalizing dirName with
  | _ length ih =>
      rw [makeDirectories_eq]
      by_cases hmem : dirName ∈ tar.directories
      · rw [if_pos hmem]
        exact .seen hmem
      · rw [if_neg hmem]
        cases hparent : parentName dirName with
        | none => exact .top hmem hparent
        | some parent =>
            obtain ⟨-, -, hshorter⟩ := parentName_eq_some hparent
            exact .next hmem hparent (ih parent.length (by omega) parent rfl)

/-- What was written, as paths: the archive has their entries in this order and nothing else, the
set has their names, no path is there twice, and each comes after its parent. -/
structure Made (lib : TarLibrary) (paths : List (List Name)) (tar : DataTar) : Prop where
  valid : ∀ path ∈ paths, ValidComponents path
  output : tar.output = paths.map fun path => directoryMember lib (dirPath path)
  directories : ∀ name, name ∈ tar.directories ↔ ∃ path ∈ paths, dirPath path = name
  distinct : paths.Nodup
  parents : ∀ before path component after, paths = before ++ (path ++ [component]) :: after →
    path ∈ before

theorem made_empty : Made lib [] ⟨∅, []⟩ where
  valid := by simp
  output := rfl
  directories := by simp
  distinct := List.nodup_nil
  parents := by simp

/-- A path that was written has its name in the set, and only such a path. -/
theorem Made.mem_directories {paths : List (List Name)} {tar : DataTar} (h : Made lib paths tar)
    {path : List Name} (hpath : ValidComponents path) :
    dirPath path ∈ tar.directories ↔ path ∈ paths := by
  rw [h.directories]
  constructor
  · rintro ⟨other, hother, hsame⟩
    rwa [← dirPath_injective (h.valid other hother) hpath hsame]
  · intro hmem
    exact ⟨path, hmem, rfl⟩

/-- The parents of a path that was written were written. -/
theorem Made.above {paths : List (List Name)} {tar : DataTar} (h : Made lib paths tar)
    {path above : List Name} (hpath : path ∈ paths) (hpre : above <+: path) : above ∈ paths := by
  induction path using List.reverseRecOn with
  | nil =>
      rw [List.prefix_nil.mp hpre]
      exact hpath
  | append_singleton path component ih =>
      rcases List.prefix_concat_iff.mp hpre with rfl | hpre
      · exact hpath
      · obtain ⟨before, after, hsplit⟩ := List.append_of_mem hpath
        have hparent := h.parents before path component after hsplit
        exact ih (by rw [hsplit]; exact List.mem_append_left _ hparent) hpre

/-- One more path is written, after its parent. -/
theorem Made.make {paths : List (List Name)} {tar : DataTar} (h : Made lib paths tar)
    {path : List Name} (hpath : ValidComponents path) (hnew : path ∉ paths)
    (hparent : ∀ above component, path = above ++ [component] → above ∈ paths) :
    Made lib (paths ++ [path]) (tar.make lib (dirPath path)) := by
  refine ⟨?_, ?_, ?_, ?_, ?_⟩
  · intro other hother
    rcases List.mem_append.mp hother with hother | hother
    · exact h.valid other hother
    · rwa [List.mem_singleton.mp hother]
  · rw [DataTar.make, h.output, List.map_append, List.map_singleton]
  · intro name
    rw [DataTar.make, Finset.mem_insert, h.directories]
    constructor
    · rintro (rfl | ⟨other, hother, hname⟩)
      · exact ⟨path, by simp, rfl⟩
      · exact ⟨other, List.mem_append_left _ hother, hname⟩
    · rintro ⟨other, hother, hname⟩
      rcases List.mem_append.mp hother with hother | hother
      · exact Or.inr ⟨other, hother, hname⟩
      · rw [List.mem_singleton.mp hother] at hname
        exact Or.inl hname.symm
  · exact List.nodup_append.mpr ⟨h.distinct, List.nodup_singleton _, by
      intro a ha b hb hab
      rw [hab, List.mem_singleton.mp hb] at ha
      exact hnew ha⟩
  · intro before above component after hsplit
    rcases List.eq_nil_or_concat' after with rfl | ⟨after', last, rfl⟩
    · obtain ⟨rfl, hlast⟩ := List.append_inj' hsplit rfl
      exact hparent above component (List.singleton_inj.mp hlast)
    · rw [← List.cons_append, ← List.append_assoc] at hsplit
      exact h.parents before above component after' (List.append_inj' hsplit rfl).1

/-- What one call adds: the path and those above it, as far as they were not there. -/
theorem makeDirectories_made {paths : List (List Name)} {tar : DataTar} (h : Made lib paths tar)
    {path : List Name} (hpath : ValidComponents path) :
    ∃ paths', Made lib paths' (makeDirectories lib (dirPath path) tar) ∧ paths ⊆ paths' ∧
      path ∈ paths' ∧ ∀ other ∈ paths', other ∈ paths ∨ other <+: path := by
  induction path using List.reverseRecOn with
  | nil =>
      have hseen := h.mem_directories hpath
      rw [makeDirectories_eq]
      by_cases hmem : [] ∈ paths
      · rw [if_pos (hseen.mpr hmem)]
        exact ⟨paths, h, List.Subset.refl _, hmem, fun other hother => Or.inl hother⟩
      · rw [if_neg (mt hseen.mp hmem), parentName_dirPath_nil]
        refine ⟨paths ++ [[]], h.make hpath hmem (by simp), List.subset_append_left _ _, by simp, ?_⟩
        intro other hother
        rcases List.mem_append.mp hother with hother | hother
        · exact Or.inl hother
        · rw [List.mem_singleton.mp hother]
          exact Or.inr List.prefix_rfl
  | append_singleton path component ih =>
      have hseen := h.mem_directories hpath
      rw [makeDirectories_eq]
      by_cases hmem : path ++ [component] ∈ paths
      · rw [if_pos (hseen.mpr hmem)]
        exact ⟨paths, h, List.Subset.refl _, hmem, fun other hother => Or.inl hother⟩
      · rw [if_neg (mt hseen.mp hmem), parentName_dirPath (hpath component (by simp))]
        obtain ⟨paths', hmade, hsub, hthere, honly⟩ := ih hpath.dropLast
        have hnew : path ++ [component] ∉ paths' := by
          intro hold
          rcases honly _ hold with hold | hpre
          · exact hmem hold
          · have hle := hpre.length_le
            rw [List.length_append, List.length_singleton] at hle
            omega
        refine ⟨paths' ++ [path ++ [component]], hmade.make hpath hnew ?_,
          fun other hother => List.mem_append_left _ (hsub hother), by simp, ?_⟩
        · intro above last hsame
          obtain ⟨rfl, -⟩ := List.append_inj' hsame rfl
          exact hthere
        · intro other hother
          rcases List.mem_append.mp hother with hother | hother
          · exact (honly other hother).imp_right fun hpre => hpre.trans (List.prefix_append _ _)
          · rw [List.mem_singleton.mp hother]
            exact Or.inr List.prefix_rfl

/-! ## Sequences of calls -/

/-- Calls of {lit}`makeDirectories` one after the other, with one set of names. -/
def makeAll (lib : TarLibrary) (calls : List (List Name)) : DataTar :=
  calls.foldl (fun tar path => makeDirectories lib (dirPath path) tar) ⟨∅, []⟩

/-- What calls write. -/
theorem makeAll_made (lib : TarLibrary) {calls : List (List Name)}
    (h : ∀ path ∈ calls, ValidComponents path) :
    ∃ paths, Made lib paths (makeAll lib calls) ∧ calls ⊆ paths ∧
      ∀ path ∈ paths, ∃ call ∈ calls, path <+: call := by
  induction calls using List.reverseRecOn with
  | nil => exact ⟨[], made_empty, List.Subset.refl _, by simp⟩
  | append_singleton calls call ih =>
      obtain ⟨paths, hmade, hcalls, honly⟩ :=
        ih fun path hpath => h path (List.mem_append_left _ hpath)
      obtain ⟨paths', hmade', hsub, hthere, honly'⟩ :=
        makeDirectories_made hmade (h call (by simp))
      refine ⟨paths', ?_, ?_, ?_⟩
      · rw [makeAll, List.foldl_append]
        exact hmade'
      · intro path hpath
        rcases List.mem_append.mp hpath with hpath | hpath
        · exact hsub (hcalls hpath)
        · rwa [List.mem_singleton.mp hpath]
      · intro path hpath
        rcases honly' path hpath with hold | hpre
        · obtain ⟨other, hother, hpre⟩ := honly path hold
          exact ⟨other, List.mem_append_left _ hother, hpre⟩
        · exact ⟨call, by simp, hpre⟩

/-- The names in an archive. -/
def DataTar.names (tar : DataTar) : List Name :=
  tar.output.map fun out => out.entry.name

/-- What some calls should have written. -/
structure DirectoriesMade (calls : List (List Name)) (tar : DataTar) : Prop where
  directory : ∀ out ∈ tar.output, out.entry.linkFlag = .directory
  distinct : tar.names.Nodup
  parents : ∀ before path component after, ValidComponents (path ++ [component]) →
    tar.names = before ++ dirPath (path ++ [component]) :: after → dirPath path ∈ before
  exactly : ∀ name, name ∈ tar.directories ↔ name ∈ tar.names
  asked : ∀ call ∈ calls, ∀ path, path <+: call → dirPath path ∈ tar.directories
  only : ∀ name ∈ tar.names, ∃ call ∈ calls, ∃ path, path <+: call ∧ name = dirPath path

/-- The name of the entry of a directory. -/
theorem directoryMember_dirPath (path : List Name) :
    (directoryMember lib (dirPath path)).entry.name = dirPath path ∧
      (directoryMember lib (dirPath path)).entry.linkFlag = .directory := by
  have hname : lib.normalizeFileName (dirPath path) = dirPath path :=
    lib.relative _ (by simp [dirPath, str])
  have hslash : endsWithSlash (dirPath path) = true := by
    rcases List.eq_nil_or_concat' path with rfl | ⟨above, last, rfl⟩
    · decide
    · rw [dirPath_concat, ← List.append_assoc, endsWithSlash, List.getLast?_concat]
      rfl
  simp [directoryMember, lib.new_name, lib.new_linkFlag, hname, hslash]

/-- Every call of {lit}`makeDirectories` ends.  Any sequence of calls writes a directory once, after
its parent, and remembers exactly what it wrote: what it was asked for, and the directories above. -/
theorem each_directory_once (lib : TarLibrary) {calls : List (List Name)}
    (h : ∀ path ∈ calls, ValidComponents path) :
    (∀ dirName tar, Makes lib dirName tar (makeDirectories lib dirName tar)) ∧
      DirectoriesMade calls (makeAll lib calls) := by
  obtain ⟨paths, hmade, hcalls, honly⟩ := makeAll_made lib h
  have hnames : (makeAll lib calls).names = paths.map dirPath := by
    rw [DataTar.names, hmade.output, List.map_map]
    exact List.map_congr_left fun path _ => (directoryMember_dirPath path).1
  refine ⟨makes_makeDirectories lib, ?_, ?_, ?_, ?_, ?_, ?_⟩
  · intro out hout
    rw [hmade.output] at hout
    obtain ⟨path, -, rfl⟩ := List.mem_map.mp hout
    exact (directoryMember_dirPath path).2
  · rw [hnames]
    exact hmade.distinct.map_on fun path hpath other hother hsame =>
      dirPath_injective (hmade.valid path hpath) (hmade.valid other hother) hsame
  · intro before path component after hpath hsplit
    rw [hnames] at hsplit
    obtain ⟨front, back, hpaths, rfl, hback⟩ := List.map_eq_append_iff.mp hsplit
    obtain ⟨other, back', rfl, hsame, -⟩ := List.map_eq_cons_iff.mp hback
    have hother : ValidComponents other := hmade.valid other (by rw [hpaths]; simp)
    rw [dirPath_injective hother hpath hsame] at hpaths
    exact List.mem_map_of_mem (hmade.parents front path component back' hpaths)
  · intro name
    rw [hmade.directories, hnames, List.mem_map]
  · intro call hcall path hpre
    exact (hmade.directories _).mpr ⟨path, hmade.above (hcalls hcall) hpre, rfl⟩
  · intro name hname
    rw [hnames] at hname
    obtain ⟨path, hpath, rfl⟩ := List.mem_map.mp hname
    obtain ⟨call, hcall, hpre⟩ := honly path hpath
    exact ⟨call, hcall, path, hpre, rfl⟩

/-- Two files in one directory and one below. -/
theorem each_directory_once_small :
    (makeAll commonsCompress [[str "a"], [str "a"], [str "a", str "b"]]).names =
        [str "./", str "./a/", str "./a/b/"] ∧
      DirectoriesMade [[str "a"], [str "a"], [str "a", str "b"]]
        (makeAll commonsCompress [[str "a"], [str "a"], [str "a", str "b"]]) := by
  refine ⟨by decide +kernel, (each_directory_once commonsCompress ?_).2⟩
  unfold ValidComponents
  decide

end CreateDeb
end Packaging
end IdeMultiarch
