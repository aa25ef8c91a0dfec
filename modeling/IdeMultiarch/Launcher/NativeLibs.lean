import Mathlib.Data.List.Nodup
import IdeMultiarch.Launcher.RemoteDev

/-!
# Launcher - the native libraries of the remote development mode

The libraries that come with the IDE are opened in the order of a file.  Every name of the order
is taken out of the names in the directory, and with the full set nothing may be left.  What is
opened is the text of a path: for a path that is no text, the launcher opens itself instead.

Main results:

- Theorem {lit}`preloadNativeLibs_ok`: the libraries are opened when order and directory match.
- Theorem {lit}`countMismatch_unreachable`: the numbers never differ at the end.
- Theorem {lit}`loads_each_once_iff`: when the libraries of the directory are opened, each once.
-/

namespace IdeMultiarch
namespace Launcher

open Library.Results (bind_eq_ok exists_map_some_cons not_exists_map_some_none)

/-! ## Loading -/

/-- Paths are compared byte by byte. -/
local instance : LawfulBEq Path :=
  inferInstanceAs (LawfulBEq (List UInt8))

/-- What else is asked of the operating system: the entries of a directory, where one that fails
is {lit}`none`, the regular file that a path leads to, and whether a library can be opened, where no
name is for the launcher itself. -/
structure LibraryOs extends Os where
  readDir : Path → Option (List (Option Path))
  fileAt : Path → Option Nat
  isFile_eq : ∀ path, isFile path = (fileAt path).isSome
  dlopen : Option Str → Bool

/-- The file that a name given to the loader is for. -/
def LibraryOs.loaded (os : LibraryOs) : Option Str → Option Nat
  | none => none
  | some text => os.fileAt (Path.ofStr text)

/-- The errors of {lit}`preload_native_libs`. -/
inductive PreloadError where
  /-- {lit}`Unsupported value` of a variable. -/
  | environment (error : Error)
  /-- {lit}`Self-contained dir is present, but lib dir is missing` -/
  | libDirMissing (selfContainedDir libsDir : Path)
  /-- {lit}`Self-contained dir is present, but load order file is missing` -/
  | loadOrderMissing (selfContainedDir libLoadOrderFile : Path)
  /-- An error of the operating system on a directory or a file. -/
  | unreadable (path : Path)
  /-- {lit}`Two files with the same name` -/
  | sameName (fileName libsDir : Path)
  /-- {lit}`needs to be loaded as self-contained, but is missing` -/
  | libMissing (soname : Str) (libFile : Path)
  /-- An error of the dynamic loader. -/
  | notOpened (libFile : Option Str)
  /-- {lit}`Failed to get the filename` -/
  | noFileName (libFile : Path)
  /-- {lit}`failed to resolve it as a file previously` -/
  | notProvided (soname : Str) (libFile libsDir : Path)
  /-- {lit}`Libs were provided but not loaded` -/
  | notLoaded (joined : Str)
  /-- {lit}`Library count mismatch` -/
  | countMismatch
deriving DecidableEq, Repr

/-- {lit}`filter_extensions` -/
def filterExtensions : List Str :=
  [lit "hmac"]

/-- Whether the extension of a file is one of {lit}`filter_extensions`. -/
def isFiltered (path : Path) : Bool :=
  path.extension.any fun ext => filterExtensions.contains ext.toStringLossy

/-- The path of a library in the order. -/
def libFile (libsDir : Path) (soname : Str) : Path :=
  libsDir.join (Path.ofStr soname)

section

variable (os : LibraryOs) (libsDir : Path)

/-- {lit}`provided_libs`: the names in the directory, which are a set. -/
def providedLibs (provided : List Path) : List (Option Path) → Except PreloadError (List Path)
  | [] => .ok provided
  | none :: _ => .error (.unreadable libsDir)
  | some fileName :: entries =>
      if isFiltered (libsDir.join fileName) then providedLibs provided entries
      else if fileName ∈ provided then .error (.sameName fileName libsDir)
      else providedLibs (provided ++ [fileName]) entries

/-- {lit}`ordered_libs_to_load`: the lines of the order. -/
def orderedLibsToLoad (libLoadOrderFile : Path) :
    List (Option Str) → Except PreloadError (List Str)
  | [] => .ok []
  | none :: _ => .error (.unreadable libLoadOrderFile)
  | some soname :: lines => do
      let sonames ← orderedLibsToLoad libLoadOrderFile lines
      return soname :: sonames

/-- The loop that opens the libraries: the names that are left, and what was opened. -/
def loadLibs (provided : List Path) :
    List Str → Except PreloadError (List Path × List (Option Str))
  | [] => .ok (provided, [])
  | soname :: sonames =>
      let libFile := libFile libsDir soname
      if os.isFile libFile = false then .error (.libMissing soname libFile)
      else if os.dlopen libFile.toStr = false then .error (.notOpened libFile.toStr)
      else
        match libFile.fileName with
        | none => .error (.noFileName libFile)
        | some fileName =>
            if fileName ∉ provided then .error (.notProvided soname libFile libsDir)
            else do
              let (left, opened) ← loadLibs (provided.erase fileName) sonames
              return (left, libFile.toStr :: opened)

end

/-- The names that are left, as {lit}`BTreeSet` lists them, in one text. -/
def joinNames (names : List Path) : Str :=
  (lit ", ").intercalate ((names.mergeSort fun a b => decide (a ≤ b)).map Path.toStringLossy)

section

variable (os : LibraryOs) (ideHomeDir : Path)

/-- {lit}`self_contained_dir` -/
def selfContainedDir : Path :=
  ideHomeDir.join (Path.ofStr (lit "plugins/remote-dev-server/selfcontained/"))

/-- {lit}`libs_dir` -/
def libsDir : Path :=
  (selfContainedDir ideHomeDir).join (Path.ofStr (lit "lib"))

/-- {lit}`lib_load_order_file` -/
def libLoadOrderFile (fullSet : Bool) : Path :=
  (selfContainedDir ideHomeDir).join
    (Path.ofStr (if fullSet then lit "lib-load-order" else lit "lib-load-order-limited"))

/-- A directory or a file that must be readable. -/
def readable {α : Type} (path : Path) : Option α → Except PreloadError α
  | none => .error (.unreadable path)
  | some content => .ok content

/-- The checks at the end: nothing is left, and the numbers agree. -/
def checkFullSet (fullSet : Bool) (left : List Path) (loaded provided : Nat) :
    Except PreloadError Unit :=
  if fullSet = false then .ok ()
  else if left ≠ [] then .error (.notLoaded (joinNames left))
  else if loaded ≠ provided then .error .countMismatch
  else .ok ()

/-- {lit}`preload_native_libs`, when the directories and the order are there. -/
def preloadOrderedLibs (fullSet : Bool) : Except PreloadError (List (Option Str)) := do
  let libsDir := libsDir ideHomeDir
  let libLoadOrderFile := libLoadOrderFile ideHomeDir fullSet
  let entries ← readable libsDir (os.readDir libsDir)
  let provided ← providedLibs libsDir [] entries
  let bytes ← readable libLoadOrderFile (os.read libLoadOrderFile)
  let sonames ← orderedLibsToLoad libLoadOrderFile (lines bytes)
  let (left, opened) ← loadLibs os libsDir provided sonames
  checkFullSet fullSet left sonames.length provided.length
  return opened

/-- A variable that is no boolean is an error. -/
def parsePreloadVar (varName : Str) (default : Bool) : Except PreloadError Bool :=
  match parseBoolEnvVar os.toOs varName default with
  | .error error => .error (.environment error)
  | .ok value => .ok value

/-- {lit}`preload_native_libs`: what was opened, in order. -/
def preloadNativeLibs : Except PreloadError (List (Option Str)) := do
  let useLibs ← parsePreloadVar os (lit "REMOTE_DEV_SERVER_USE_SELF_CONTAINED_LIBS") true
  if useLibs = false then return []
  else
    let fullSet ← parsePreloadVar os (lit "REMOTE_DEV_SERVER_FULL_SELF_CONTAINED_LIBS") false
    if os.isDir (selfContainedDir ideHomeDir) = false then return []
    else if os.isDir (libsDir ideHomeDir) = false then
      .error (.libDirMissing (selfContainedDir ideHomeDir) (libsDir ideHomeDir))
    else if os.isFile (libLoadOrderFile ideHomeDir fullSet) = false then
      .error (.loadOrderMissing (selfContainedDir ideHomeDir) (libLoadOrderFile ideHomeDir fullSet))
    else preloadOrderedLibs os ideHomeDir fullSet

end

/-! ## The names in the directory -/

/-- The names of the libraries in a directory. -/
def libraryNames (libsDir : Path) (names : List Path) : List Path :=
  names.filter fun name => !isFiltered (libsDir.join name)

/-- The names in a directory are those of its entries, if these can be read and differ. -/
theorem providedLibs_ok {libsDir : Path} {provided result : List Path}
    {entries : List (Option Path)} (hprovided : provided.Nodup) :
    providedLibs libsDir provided entries = .ok result ↔
      ∃ names, entries = names.map some ∧ result = provided ++ libraryNames libsDir names ∧
        result.Nodup := by
  induction entries generalizing provided with
  | nil =>
      constructor
      · intro h
        cases h
        exact ⟨[], rfl, by simp [libraryNames], hprovided⟩
      · rintro ⟨names, hnames, rfl, -⟩
        cases List.map_eq_nil_iff.mp hnames.symm
        simp [providedLibs, libraryNames]
  | cons entry entries ih =>
      cases entry with
      | none => exact iff_of_false (fun h => by cases h) not_exists_map_some_none
      | some name =>
          rw [providedLibs, exists_map_some_cons]
          split
          next hfiltered =>
            rw [ih hprovided]
            simp [libraryNames, hfiltered]
          next hkept =>
            have hnames : ∀ names, libraryNames libsDir (name :: names) =
                name :: libraryNames libsDir names := by
              intro names
              simp [libraryNames, hkept]
            split
            next hmem =>
              refine iff_of_false (fun h => by cases h) ?_
              rintro ⟨names, -, rfl, hnodup⟩
              rw [hnames] at hnodup
              exact (List.nodup_append.mp hnodup).2.2 name hmem name List.mem_cons_self rfl
            next hnew =>
              have hnodup : (provided ++ [name]).Nodup := by
                rw [List.nodup_append]
                refine ⟨hprovided, List.nodup_singleton name, ?_⟩
                rintro a ha b hb rfl
                exact hnew (List.mem_singleton.mp hb ▸ ha)
              rw [ih hnodup]
              simp only [hnames, List.append_assoc, List.singleton_append]

/-- The lines of the order are its names, if they can be read. -/
theorem orderedLibsToLoad_ok {libLoadOrderFile : Path} {lines : List (Option Str)}
    {sonames : List Str} :
    orderedLibsToLoad libLoadOrderFile lines = .ok sonames ↔ lines = sonames.map some := by
  induction lines generalizing sonames with
  | nil => cases sonames <;> simp [orderedLibsToLoad]
  | cons line lines ih =>
      cases line with
      | none => cases sonames <;> simp [orderedLibsToLoad]
      | some soname =>
          rw [orderedLibsToLoad, bind_eq_ok]
          cases sonames with
          | nil => simp [pure, Except.pure]
          | cons first rest =>
              simp only [ih, pure, Except.pure, Except.ok.injEq, List.cons.injEq, List.map_cons,
                Option.some.injEq]
              constructor
              · rintro ⟨_, rfl, rfl, rfl⟩
                exact ⟨rfl, rfl⟩
              · rintro ⟨rfl, rfl⟩
                exact ⟨rest, rfl, rfl, rfl⟩

/-! ## The loop -/

/-- The loader opens every file that there is, and the launcher itself. -/
structure OpensFiles (os : LibraryOs) : Prop where
  file : ∀ text, os.isFile (Path.ofStr text) = true → os.dlopen (some text) = true
  itself : os.dlopen none = true

/-- A path of the order can be opened if there is a file. -/
theorem OpensFiles.dlopen {os : LibraryOs} (h : OpensFiles os) {path : Path}
    (hfile : os.isFile path = true) : os.dlopen path.toStr = true := by
  cases htext : path.toStr with
  | none => exact h.itself
  | some text =>
      apply h.file
      rw [Path.ofStr_of_toStr htext]
      exact hfile

section

variable {os : LibraryOs} {libsDir : Path}

/-- What the loop has opened, and which names it has taken out of those in the directory. -/
theorem loadLibs_ok {provided left : List Path} {sonames : List Str} {opened : List (Option Str)}
    (h : loadLibs os libsDir provided sonames = .ok (left, opened)) :
    opened = sonames.map (fun soname => (libFile libsDir soname).toStr) ∧
      (∀ soname ∈ sonames, os.isFile (libFile libsDir soname) = true) ∧
        ∃ names, sonames.map (fun soname => (libFile libsDir soname).fileName) = names.map some ∧
          provided.Perm (names ++ left) := by
  induction sonames generalizing provided opened with
  | nil =>
      cases h
      exact ⟨rfl, by simp, [], rfl, List.Perm.refl _⟩
  | cons soname sonames ih =>
      rw [loadLibs] at h
      dsimp only at h
      split at h
      next => cases h
      next hfile =>
        split at h
        next => cases h
        next =>
          split at h
          next => cases h
          next fileName hname =>
            split at h
            next => cases h
            next hmem =>
              obtain ⟨⟨left', opened'⟩, hrest, h⟩ := bind_eq_ok.mp h
              cases h
              obtain ⟨hopened, hfiles, names, hnames, hperm⟩ := ih hrest
              refine ⟨by rw [hopened, List.map_cons], ?_, fileName :: names, ?_, ?_⟩
              · exact List.forall_mem_cons.mpr ⟨by simpa using hfile, hfiles⟩
              · rw [List.map_cons, List.map_cons, hname, hnames]
              · exact (List.perm_cons_erase (not_not.mp hmem)).trans (hperm.cons fileName)

/-- The loop succeeds when all libraries are files whose names are in the directory. -/
theorem loadLibs_succeeds (hopens : OpensFiles os) {provided names extra : List Path}
    {sonames : List Str}
    (hfiles : ∀ soname ∈ sonames, os.isFile (libFile libsDir soname) = true)
    (hnames : sonames.map (fun soname => (libFile libsDir soname).fileName) = names.map some)
    (hperm : provided.Perm (names ++ extra)) :
    ∃ left, left.Perm extra ∧ loadLibs os libsDir provided sonames =
      .ok (left, sonames.map fun soname => (libFile libsDir soname).toStr) := by
  induction sonames generalizing provided names with
  | nil =>
      cases List.map_eq_nil_iff.mp hnames.symm
      exact ⟨provided, hperm, rfl⟩
  | cons soname sonames ih =>
      obtain ⟨hfile, hfiles⟩ := List.forall_mem_cons.mp hfiles
      cases names with
      | nil => cases hnames
      | cons fileName names =>
          obtain ⟨hname, hnames⟩ := List.cons.inj hnames
          have hmem : fileName ∈ provided := hperm.mem_iff.mpr (by simp)
          have hrest : (provided.erase fileName).Perm (names ++ extra) := by
            have := hperm.erase fileName
            simpa using this
          obtain ⟨left, hleft, hloop⟩ := ih hfiles hnames hrest
          refine ⟨left, hleft, ?_⟩
          rw [loadLibs]
          simp [hfile, hopens.dlopen hfile, hname, hmem, hloop, bind, Except.bind, pure,
            Except.pure]

end

/-! ## Directory and order -/

/-- An order that fits a directory: the names of its libraries are those in the directory, each
once, and all of them are files. -/
structure LoadOrder (os : LibraryOs) (libsDir : Path) (entries : List (Option Path))
    (lines : List (Option Str)) where
  names : List Path
  sonames : List Str
  fileNames : List Path
  entries_eq : entries = names.map some
  lines_eq : lines = sonames.map some
  fileNames_eq : sonames.map (fun soname => (libFile libsDir soname).fileName) =
    fileNames.map some
  perm : fileNames.Perm (libraryNames libsDir names)
  nodup : fileNames.Nodup
  files : ∀ soname ∈ sonames, os.isFile (libFile libsDir soname) = true

/-- The full set of libraries is to be loaded from a directory in an order. -/
structure LoadsFullSet (os : LibraryOs) (ideHomeDir : Path) (entries : List (Option Path))
    (bytes : Bytes) : Prop where
  useLibs : parsePreloadVar os (lit "REMOTE_DEV_SERVER_USE_SELF_CONTAINED_LIBS") true = .ok true
  fullSet : parsePreloadVar os (lit "REMOTE_DEV_SERVER_FULL_SELF_CONTAINED_LIBS") false = .ok true
  selfContained : os.isDir (selfContainedDir ideHomeDir) = true
  libs : os.isDir (libsDir ideHomeDir) = true
  order : os.isFile (libLoadOrderFile ideHomeDir true) = true
  entries : os.readDir (libsDir ideHomeDir) = some entries
  bytes : os.read (libLoadOrderFile ideHomeDir true) = some bytes

section

variable {os : LibraryOs} {ideHomeDir : Path} {entries : List (Option Path)} {bytes : Bytes}

theorem preloadNativeLibs_eq (h : LoadsFullSet os ideHomeDir entries bytes) :
    preloadNativeLibs os ideHomeDir = preloadOrderedLibs os ideHomeDir true := by
  unfold preloadNativeLibs
  rw [h.useLibs, h.fullSet]
  simp [bind, Except.bind, h.selfContained, h.libs, h.order]

/-- With the full set, the libraries are opened exactly when order and directory match. -/
theorem preloadNativeLibs_ok (h : LoadsFullSet os ideHomeDir entries bytes)
    (hopens : OpensFiles os) {opened : List (Option Str)} :
    preloadNativeLibs os ideHomeDir = .ok opened ↔
      ∃ order : LoadOrder os (libsDir ideHomeDir) entries (lines bytes),
        opened = order.sonames.map fun soname => (libFile (libsDir ideHomeDir) soname).toStr := by
  rw [preloadNativeLibs_eq h]
  unfold preloadOrderedLibs
  simp only [h.entries, h.bytes, readable]
  constructor
  · intro hok
    obtain ⟨_, hentries, hok⟩ := bind_eq_ok.mp hok
    cases hentries
    obtain ⟨provided, hprovided, hok⟩ := bind_eq_ok.mp hok
    obtain ⟨_, hbytes, hok⟩ := bind_eq_ok.mp hok
    cases hbytes
    obtain ⟨sonames, hsonames, hok⟩ := bind_eq_ok.mp hok
    obtain ⟨⟨left, opened'⟩, hloaded, hok⟩ := bind_eq_ok.mp hok
    obtain ⟨_, hcheck, hok⟩ := bind_eq_ok.mp hok
    cases hok
    obtain ⟨names, rfl, rfl, hnodup⟩ := (providedLibs_ok List.nodup_nil).mp hprovided
    obtain ⟨rfl, hfiles, fileNames, hnames, hperm⟩ := loadLibs_ok hloaded
    have hleft : left = [] := by
      by_contra hne
      simp [checkFullSet, hne] at hcheck
    rw [hleft, List.append_nil, List.nil_append] at hperm
    exact ⟨{ names
             sonames
             fileNames
             entries_eq := rfl
             lines_eq := orderedLibsToLoad_ok.mp hsonames
             fileNames_eq := hnames
             perm := hperm.symm
             nodup := hperm.nodup_iff.mp hnodup
             files := hfiles }, rfl⟩
  · rintro ⟨order, rfl⟩
    have hprovided : providedLibs (libsDir ideHomeDir) [] entries =
        .ok (libraryNames (libsDir ideHomeDir) order.names) :=
      (providedLibs_ok List.nodup_nil).mpr
        ⟨order.names, order.entries_eq, rfl, order.perm.nodup_iff.mp order.nodup⟩
    have hperm : (libraryNames (libsDir ideHomeDir) order.names).Perm (order.fileNames ++ []) := by
      rw [List.append_nil]
      exact order.perm.symm
    obtain ⟨left, hleft, hloaded⟩ := loadLibs_succeeds hopens order.files order.fileNames_eq hperm
    have hlength : order.sonames.length =
        (libraryNames (libsDir ideHomeDir) order.names).length := by
      have hsame := congrArg List.length order.fileNames_eq
      rw [List.length_map, List.length_map] at hsame
      rw [hsame, order.perm.length_eq]
    rw [List.perm_nil.mp hleft] at hloaded
    simp [bind, Except.bind, pure, Except.pure, hprovided, orderedLibsToLoad_ok.mpr order.lines_eq,
      hloaded, checkFullSet, hlength]

end

/-! ## The number of libraries -/

section

variable {α β : Type}

theorem ne_countMismatch_bind {step : Except PreloadError α} {next : α → Except PreloadError β}
    (hstep : step ≠ .error .countMismatch) (hnext : ∀ a, step = .ok a →
      next a ≠ .error .countMismatch) : (step >>= next) ≠ .error .countMismatch := by
  cases step with
  | error failure => exact fun h => hstep (by cases h; rfl)
  | ok a => exact hnext a rfl

theorem readable_ne_countMismatch (path : Path) (content : Option α) :
    readable path content ≠ .error .countMismatch := by
  cases content <;> simp [readable]

end

theorem providedLibs_ne_countMismatch (libsDir : Path) (provided : List Path)
    (entries : List (Option Path)) :
    providedLibs libsDir provided entries ≠ .error .countMismatch := by
  induction entries generalizing provided with
  | nil => simp [providedLibs]
  | cons entry entries ih =>
      cases entry with
      | none => simp [providedLibs]
      | some name =>
          rw [providedLibs]
          split
          · exact ih provided
          · split
            · simp
            · exact ih _

theorem orderedLibsToLoad_ne_countMismatch (libLoadOrderFile : Path) (lines : List (Option Str)) :
    orderedLibsToLoad libLoadOrderFile lines ≠ .error .countMismatch := by
  induction lines with
  | nil => simp [orderedLibsToLoad]
  | cons line lines ih =>
      cases line with
      | none => simp [orderedLibsToLoad]
      | some soname =>
          rw [orderedLibsToLoad]
          exact ne_countMismatch_bind ih (fun _ _ => by simp [pure, Except.pure])

theorem loadLibs_ne_countMismatch (os : LibraryOs) (libsDir : Path) (provided : List Path)
    (sonames : List Str) : loadLibs os libsDir provided sonames ≠ .error .countMismatch := by
  induction sonames generalizing provided with
  | nil => simp [loadLibs]
  | cons soname sonames ih =>
      rw [loadLibs]
      dsimp only
      split
      · simp
      · split
        · simp
        · split
          · simp
          · split
            · simp
            · exact ne_countMismatch_bind (ih _) (fun _ _ => by simp [pure, Except.pure])

/-- If nothing is left, as many libraries were opened as there are names in the directory. -/
theorem checkFullSet_ne_countMismatch {os : LibraryOs} {libsDir : Path} {provided left : List Path}
    {sonames : List Str} {opened : List (Option Str)} (fullSet : Bool)
    (h : loadLibs os libsDir provided sonames = .ok (left, opened)) :
    checkFullSet fullSet left sonames.length provided.length ≠ .error .countMismatch := by
  obtain ⟨-, -, names, hnames, hperm⟩ := loadLibs_ok h
  unfold checkFullSet
  split
  · simp
  · split
    · simp
    · next hleft =>
      have hlength : sonames.length = provided.length := by
        have hsame := congrArg List.length hnames
        rw [List.length_map, List.length_map] at hsame
        rw [hperm.length_eq, not_not.mp hleft, List.append_nil, hsame]
      rw [if_neg (not_not.mpr hlength)]
      simp

/-- The numbers never differ at the end, whatever is in the directory and in the order. -/
theorem countMismatch_unreachable (os : LibraryOs) (ideHomeDir : Path) :
    preloadNativeLibs os ideHomeDir ≠ .error .countMismatch := by
  have hvar : ∀ varName default, parsePreloadVar os varName default ≠ .error .countMismatch := by
    intro varName default
    unfold parsePreloadVar
    split <;> simp
  have hordered : ∀ fullSet,
      preloadOrderedLibs os ideHomeDir fullSet ≠ .error .countMismatch := by
    intro fullSet
    refine ne_countMismatch_bind (readable_ne_countMismatch _ _) fun entries _ => ?_
    refine ne_countMismatch_bind (providedLibs_ne_countMismatch _ _ _) fun provided _ => ?_
    refine ne_countMismatch_bind (readable_ne_countMismatch _ _) fun bytes _ => ?_
    refine ne_countMismatch_bind (orderedLibsToLoad_ne_countMismatch _ _) fun sonames _ => ?_
    refine ne_countMismatch_bind (loadLibs_ne_countMismatch _ _ _ _) fun loaded hloaded => ?_
    refine ne_countMismatch_bind (checkFullSet_ne_countMismatch _ hloaded) fun _ _ => ?_
    simp [pure, Except.pure]
  refine ne_countMismatch_bind (hvar _ _) fun useLibs _ => ?_
  split
  · simp [pure, Except.pure]
  · refine ne_countMismatch_bind (hvar _ _) fun fullSet _ => ?_
    split
    · simp [pure, Except.pure]
    · split
      · simp
      · split
        · simp
        · exact hordered fullSet

/-! ## Each library once -/

/-- Success means that the order fits the directory, and that the file which each of its names has in
the directory was loaded in its place; an order that fits leads to success; and the numbers are never
found to differ. -/
structure LoadsEachOnce (os : LibraryOs) (ideHomeDir : Path) (entries : List (Option Path))
    (lines : List (Option Str)) : Prop where
  exact : ∀ opened, preloadNativeLibs os ideHomeDir = .ok opened →
    ∃ order : LoadOrder os (libsDir ideHomeDir) entries lines,
      (∀ name ∈ order.fileNames, os.isFile ((libsDir ideHomeDir).join name) = true) ∧
      opened.map os.loaded =
        order.fileNames.map fun name => os.fileAt ((libsDir ideHomeDir).join name)
  complete : LoadOrder os (libsDir ideHomeDir) entries lines →
    ∃ opened, preloadNativeLibs os ideHomeDir = .ok opened
  counts : preloadNativeLibs os ideHomeDir ≠ .error .countMismatch

/-- A line of the order is good for the library of the directory: its path is a text, and leads to
the file that has its name in the directory. -/
structure LeadsToLibrary (os : LibraryOs) (libsDir : Path) (soname : Str) : Prop where
  text : (libFile libsDir soname).toStr.isSome = true
  file : ∀ name, (libFile libsDir soname).fileName = some name →
    os.fileAt (libFile libsDir soname) = os.fileAt (libsDir.join name)

section

variable {os : LibraryOs} {libsDir : Path} {entries : List (Option Path)}

/-- What is opened for a line is the file of the directory exactly when the line leads there. -/
theorem loaded_eq_iff {soname : Str} {name : Path}
    (hname : (libFile libsDir soname).fileName = some name)
    (hfile : os.isFile (libFile libsDir soname) = true) :
    os.isFile (libsDir.join name) = true ∧
        os.loaded (libFile libsDir soname).toStr = os.fileAt (libsDir.join name) ↔
      LeadsToLibrary os libsDir soname := by
  rw [os.isFile_eq] at hfile
  rw [os.isFile_eq]
  cases htext : (libFile libsDir soname).toStr with
  | none =>
      constructor
      · rintro ⟨hlibrary, hloaded⟩
        rw [← hloaded] at hlibrary
        cases hlibrary
      · intro hleads
        have hsome := hleads.text
        rw [htext] at hsome
        cases hsome
  | some text =>
      rw [LibraryOs.loaded, Path.ofStr_of_toStr htext]
      constructor
      · rintro ⟨-, hloaded⟩
        refine ⟨by rw [htext]; rfl, fun name' hname' => ?_⟩
        rw [hname] at hname'
        exact Option.some.inj hname' ▸ hloaded
      · intro hleads
        have hsame := hleads.file name hname
        exact ⟨hsame ▸ hfile, hsame⟩

/-- So it is for all lines. -/
theorem LoadOrder.loaded_iff {lines : List (Option Str)}
    (order : LoadOrder os libsDir entries lines) :
    ((∀ name ∈ order.fileNames, os.isFile (libsDir.join name) = true) ∧
        (order.sonames.map fun soname => (libFile libsDir soname).toStr).map os.loaded =
          order.fileNames.map fun name => os.fileAt (libsDir.join name)) ↔
      ∀ soname ∈ order.sonames, LeadsToLibrary os libsDir soname := by
  have hfiles := order.files
  have hnames := order.fileNames_eq
  generalize order.sonames = sonames at hfiles hnames ⊢
  generalize order.fileNames = fileNames at hnames ⊢
  induction sonames generalizing fileNames with
  | nil =>
      obtain rfl : fileNames = [] := List.map_eq_nil_iff.mp hnames.symm
      simp
  | cons soname sonames ih =>
      cases fileNames with
      | nil => cases hnames
      | cons name fileNames =>
          obtain ⟨hname, hnames⟩ := List.cons.inj hnames
          obtain ⟨hfile, hfiles⟩ := List.forall_mem_cons.mp hfiles
          have hfirst := loaded_eq_iff hname hfile
          have hrest := ih hfiles fileNames hnames
          rw [List.forall_mem_cons, List.forall_mem_cons, List.map_cons, List.map_cons,
            List.map_cons, List.cons.injEq]
          exact and_and_and_comm.trans (and_congr hfirst hrest)

/-- The lines decide what the order is. -/
theorem LoadOrder.unique {lines : List (Option Str)}
    (order order' : LoadOrder os libsDir entries lines) :
    order'.sonames = order.sonames ∧ order'.fileNames = order.fileNames := by
  have hsonames : order'.sonames = order.sonames :=
    List.map_injective_iff.mpr (fun _ _ => Option.some.inj)
      (order'.lines_eq.symm.trans order.lines_eq)
  refine ⟨hsonames, List.map_injective_iff.mpr (fun _ _ => Option.some.inj) ?_⟩
  rw [← order'.fileNames_eq, ← order.fileNames_eq, hsonames]

end

/-- The libraries of the directory are opened, each once and in its place, exactly when the lines of
an order that fits the directory all lead to them. -/
theorem loads_each_once_iff {os : LibraryOs} {ideHomeDir : Path} {entries : List (Option Path)}
    {bytes : Bytes} (h : LoadsFullSet os ideHomeDir entries bytes) (hopens : OpensFiles os) :
    LoadsEachOnce os ideHomeDir entries (lines bytes) ↔
      ∀ order : LoadOrder os (libsDir ideHomeDir) entries (lines bytes), ∀ soname ∈ order.sonames,
        LeadsToLibrary os (libsDir ideHomeDir) soname := by
  constructor
  · intro heach order
    obtain ⟨order', hregular, hloaded⟩ :=
      heach.exact _ ((preloadNativeLibs_ok h hopens).mpr ⟨order, rfl⟩)
    obtain ⟨-, hnames⟩ := order.unique order'
    rw [hnames] at hregular hloaded
    exact order.loaded_iff.mp ⟨hregular, hloaded⟩
  · intro hleads
    refine ⟨?_, fun order => ⟨_, (preloadNativeLibs_ok h hopens).mpr ⟨order, rfl⟩⟩,
      countMismatch_unreachable os ideHomeDir⟩
    intro opened hok
    obtain ⟨order, rfl⟩ := (preloadNativeLibs_ok h hopens).mp hok
    exact ⟨order, order.loaded_iff.mpr (hleads order)⟩

/-- An IDE with one library and its checksum, a library of the system with the same name, and an
order. -/
def smallLibraryOs (ideHomeDir : Path) (order : Str) : LibraryOs :=
  let fileAt (path : Path) : Option Nat :=
    if path = libLoadOrderFile ideHomeDir true then some 0
    else if path = libFile (libsDir ideHomeDir) (lit "liba.so") then some 1
    else if path = Path.ofStr (lit "/usr/lib/liba.so") then some 2
    else none
  { envVar := fun name =>
      if name = lit "REMOTE_DEV_SERVER_FULL_SELF_CONTAINED_LIBS" then some (lit "1") else none
    homeDir := none
    isDir := fun path => path = selfContainedDir ideHomeDir ∨ path = libsDir ideHomeDir
    isFile := fun path => (fileAt path).isSome
    read := fun path =>
      if path = libLoadOrderFile ideHomeDir true then some (Path.ofStr order) else none
    readDir := fun path =>
      if path = libsDir ideHomeDir then
        some [some (Path.ofStr (lit "liba.so.hmac")), some (Path.ofStr (lit "liba.so"))]
      else none
    fileAt := fileAt
    isFile_eq := fun _ => rfl
    dlopen := fun _ => true }

/-- The entries of its directory. -/
def smallEntries : List (Option Path) :=
  [some (Path.ofStr (lit "liba.so.hmac")), some (Path.ofStr (lit "liba.so"))]

/-- A plain name is for the library of the directory, and a whole path is for another one. -/
theorem loads_each_once_iff_small :
    LoadsEachOnce (smallLibraryOs (Path.ofStr (lit "/opt/idea")) (lit "liba.so\n"))
        (Path.ofStr (lit "/opt/idea")) smallEntries (lines (Path.ofStr (lit "liba.so\n"))) ∧
      ¬ LoadsEachOnce (smallLibraryOs (Path.ofStr (lit "/opt/idea")) (lit "/usr/lib/liba.so\n"))
        (Path.ofStr (lit "/opt/idea")) smallEntries
        (lines (Path.ofStr (lit "/usr/lib/liba.so\n"))) := by
  constructor
  · refine (loads_each_once_iff ⟨by decide +kernel, by decide +kernel, by decide +kernel,
      by decide +kernel, by decide +kernel, by decide +kernel, by decide +kernel⟩
      ⟨fun _ _ => rfl, rfl⟩).mpr ?_
    intro order soname hsoname
    have hlines : lines (Path.ofStr (lit "liba.so\n")) = [lit "liba.so"].map some := by
      decide +kernel
    have hsonames : order.sonames = [lit "liba.so"] :=
      List.map_injective_iff.mpr (fun _ _ => Option.some.inj) (order.lines_eq.symm.trans hlines)
    rw [hsonames, List.mem_singleton] at hsoname
    subst hsoname
    refine ⟨by decide +kernel, fun name hname => ?_⟩
    have hplain : (libFile (libsDir (Path.ofStr (lit "/opt/idea"))) (lit "liba.so")).fileName =
        some (Path.ofStr (lit "liba.so")) := by
      decide +kernel
    rw [hplain] at hname
    cases hname
    rfl
  · intro heach
    have hleads := (loads_each_once_iff ⟨by decide +kernel, by decide +kernel, by decide +kernel,
      by decide +kernel, by decide +kernel, by decide +kernel, by decide +kernel⟩
      ⟨fun _ _ => rfl, rfl⟩).mp heach
      { names := [Path.ofStr (lit "liba.so.hmac"), Path.ofStr (lit "liba.so")]
        sonames := [lit "/usr/lib/liba.so"]
        fileNames := [Path.ofStr (lit "liba.so")]
        entries_eq := rfl
        lines_eq := by decide +kernel
        fileNames_eq := by decide +kernel
        perm := by decide +kernel
        nodup := by decide +kernel
        files := by decide +kernel } (lit "/usr/lib/liba.so") (by decide +kernel)
    exact absurd (hleads.file (Path.ofStr (lit "liba.so")) (by decide +kernel)) (by decide +kernel)

/-- In a directory whose path is no text, the launcher opens itself. -/
theorem launcher_opens_itself :
    ¬ ∀ (os : LibraryOs) (ideHomeDir : Path) (entries : List (Option Path)) (bytes : Bytes),
      LoadsFullSet os ideHomeDir entries bytes → OpensFiles os →
        LoadsEachOnce os ideHomeDir entries (lines bytes) := by
  intro h
  have heach := h (smallLibraryOs [SLASH, 0xFF] (lit "liba.so\n")) [SLASH, 0xFF] smallEntries
    (Path.ofStr (lit "liba.so\n"))
    ⟨by decide +kernel, by decide +kernel, by decide +kernel, by decide +kernel,
      by decide +kernel, by decide +kernel, by decide +kernel⟩
    ⟨fun _ _ => rfl, rfl⟩
  have hopened : preloadNativeLibs (smallLibraryOs [SLASH, 0xFF] (lit "liba.so\n"))
      [SLASH, 0xFF] = .ok [none] := by
    decide +kernel
  obtain ⟨order, hregular, hloaded⟩ := heach.exact _ hopened
  cases hnames : order.fileNames with
  | nil =>
      rw [hnames] at hloaded
      cases hloaded
  | cons name names =>
      rw [hnames] at hregular hloaded
      have hfile := hregular name List.mem_cons_self
      have hnone : none = (smallLibraryOs [SLASH, 0xFF] (lit "liba.so\n")).fileAt
          ((libsDir [SLASH, 0xFF]).join name) := (List.cons.inj hloaded).1
      rw [LibraryOs.isFile_eq, ← hnone] at hfile
      cases hfile

end Launcher
end IdeMultiarch
