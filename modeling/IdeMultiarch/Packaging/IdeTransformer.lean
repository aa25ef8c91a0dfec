import Mathlib.Data.List.AList
import IdeMultiarch.Packaging.LauncherScript

/-!
# Packaging - the transformation of an IDE

The task {lit}`TransformIDE` goes once through the tar of an IDE for the base architecture: it drops
the runtime and puts another one in its place, replaces or rewrites single files, and copies
everything else.

Main results:

- Theorem {lit}`transformMember_cases`: the four things that one round of the loop can do.
-/

namespace IdeMultiarch
namespace Packaging

open Library.Results (bind_eq_ok)

/-! ## Transformers -/

/-- {lit}`FileTransformer` -/
inductive FileTransformer
  | replace (replacement : Bytes) (targetPath : Option Name)
  | filterOut (isOptional : Bool)
  | transform (action : Bytes → Except Failure Bytes)

/-- {lit}`optional` -/
def FileTransformer.optional : FileTransformer → Bool
  | .replace _ _ => false
  | .filterOut isOptional => isOptional
  | .transform _ => false

/-- A map from paths to transformers. -/
abbrev Transformers := AList fun _ : Name => FileTransformer

/-! ## The task -/

/-- The archive of a runtime. -/
structure JdkArchive where
  file : Name
  members : List Member

/-- The inputs of the task {lit}`TransformIDE`, less the tar, and what the transformers take from
outside: entries of the zip with the natives, resources of the JNA library, the reading and
writing of JSON, the decoding of texts, and the rewriting of {lit}`lib/util.jar`. -/
structure TransformIDE where
  target : Target
  nativesZip : Name → Option Bytes
  jnaResource : Name → Option Bytes
  gson : Gson
  decode : Bytes → Name
  transformUtilJar : Bytes → Except Failure Bytes
  jdkArchive : Option JdkArchive
  entrySetText : Transformers → Name

namespace TransformIDE

variable (lib : TarLibrary) (task : TransformIDE)

/-- {lit}`getNativeReplacement` -/
def getNativeReplacement (path : Name) (targetPath : Option Name) :
    Except Failure FileTransformer :=
  match task.nativesZip path with
  | none => .error (.gradleException (str "Missing " ++ path))
  | some bytes => .ok (.replace bytes targetPath)

/-- The replacement for the JNA library. -/
def getJnaReplacement : Except Failure FileTransformer :=
  let jniDispatchPath := str "linux-" ++ task.target.targetArch.normalize ++
    str "/libjnidispatch.so"
  match task.jnaResource jniDispatchPath with
  | none => .error (.gradleException (jniDispatchPath ++ str " not found"))
  | some bytes =>
      .ok (.replace bytes (some (str "lib/jna/" ++ task.target.targetArch.normalize ++
        str "/libjnidispatch.so")))

/-- {lit}`getTransformers` -/
def getTransformers : Except Failure Transformers := do
  let launcher := task.target.product.getLauncherName
  let base := task.target.baseArch.normalize
  let target := task.target.targetArch.normalize
  let xplatLauncher ← task.getNativeReplacement (str "xplat-launcher") none
  let transformer : Transformers := AList.insert (str "bin/" ++ launcher) xplatLauncher ∅
  let transformer :=
    if task.target.product.isOpenSource then transformer
    else transformer.insert (str "bin/remote-dev-server") xplatLauncher
  let fsnotifier ← task.getNativeReplacement (str "fsnotifier") none
  let transformer := transformer.insert (str "bin/fsnotifier") fsnotifier
  let restarter ← task.getNativeReplacement (str "restarter") none
  let transformer := transformer.insert (str "bin/restarter") restarter
  let transformer := transformer.insert (str "bin/libdbm.so") (.filterOut true)
  let libpty ← task.getNativeReplacement (str "libpty.so")
    (some (str "lib/pty4j/linux/" ++ target ++ str "/libpty.so"))
  let transformer := transformer.insert (str "lib/pty4j/linux/" ++ base ++ str "/libpty.so") libpty
  let libsqliteij ← task.getNativeReplacement (str "libsqliteij.so")
    (some (str "lib/native/linux-x86_64/libsqliteij.so"))
  let transformer :=
    transformer.insert (str "lib/native/linux-" ++ base ++ str "/libsqliteij.so") libsqliteij
  let libjnidispatch ← task.getJnaReplacement
  let transformer :=
    transformer.insert (str "lib/jna/" ++ base ++ str "/libjnidispatch.so") libjnidispatch
  let transformer := transformer.insert (str "product-info.json")
    (.transform (task.target.transformProductInfo task.gson))
  let transformer := transformer.insert (str "bin/" ++ launcher ++ str ".sh")
    (.transform (task.target.transformScript task.decode))
  return if task.target.targetArch = .LOONGARCH64 then
    transformer.insert (str "lib/util.jar") (.transform task.transformUtilJar)
  else transformer

/-! ## The runtime -/

/-- The loop of {lit}`copyJRE`: the first component of the names is replaced. -/
def copyMembers (jbrPrefix top : Name) : List Member → Except Failure (List Member)
  | [] => .ok []
  | member :: members =>
      if top.isPrefixOf member.entry.name then do
        let newName := jbrPrefix ++ member.entry.name.drop top.length
        let written ← lib.putArchiveEntry (lib.setName member.entry newName) member.data
        return written :: (← copyMembers jbrPrefix top members)
      else
        .error (.gradleException (str "Invalid directory entry: " ++ member.entry.name))

/-- {lit}`copyJRE` -/
def copyJRE (jbrPrefix : Name) (jdk : JdkArchive) : Except Failure (List Member) :=
  match jdk.members with
  | [] => .error (.gradleException (jdk.file ++ str " is empty"))
  | first :: _ =>
      match first.entry.name.idxOf? '/' with
      | none => .error (.gradleException (str "Invalid first entry: " ++ first.entry.name))
      | some idx => copyMembers lib jbrPrefix (first.entry.name.take (idx + 1)) jdk.members

/-! ## The loop -/

/-- The variables of {lit}`doTransform`. -/
structure Progress where
  transformers : Transformers
  processedJbr : Bool
  output : List Member

/-- What an entry with a transformer becomes. -/
def applyTransformer (top : Name) (member : Member) :
    FileTransformer → Except Failure (List Member)
  | .replace replacement targetPath => do
      let newName :=
        match targetPath with
        | none => member.entry.name
        | some targetPath => top ++ targetPath
      let written ←
        lib.putArchiveEntry (copyTarEntryAs lib member.entry newName replacement.length) replacement
      return [written]
  | .filterOut _ => .ok []
  | .transform action => do
      let result ← action member.data
      let written ← lib.putArchiveEntry (copyTarEntry lib member.entry result.length) result
      return [written]

/-- {lit}`prefix + "jbr/"` -/
def jbrPrefix (top : Name) : Name :=
  top ++ str "jbr/"

/-- One round of the loop of {lit}`doTransform`. -/
def transformMember (top : Name) (progress : Progress) (member : Member) :
    Except Failure Progress := do
  let path := member.entry.name
  if (jbrPrefix top).isPrefixOf path then
    if path = jbrPrefix top then
      match task.jdkArchive with
      | some jdk =>
          let copied ← copyJRE lib (jbrPrefix top) jdk
          return { progress with processedJbr := true, output := progress.output ++ copied }
      | none => return { progress with processedJbr := true }
    else return progress
  else
    match progress.transformers.lookup path with
    | some transformer =>
        let written ← applyTransformer lib top member transformer
        return { progress with
          transformers := progress.transformers.erase path
          output := progress.output ++ written }
    | none =>
        let data := if member.entry.isSymbolicLink then [] else member.data
        let written ← lib.putArchiveEntry member.entry data
        return { progress with output := progress.output ++ [written] }

/-- The loop of {lit}`doTransform`. -/
def transformMembers (top : Name) (progress : Progress) : List Member → Except Failure Progress
  | [] => .ok progress
  | member :: members => do
      let progress ← task.transformMember lib top progress member
      transformMembers top progress members

/-- The transformers with the prefix in front of their paths. -/
def prefixed (top : Name) (transformers : Transformers) : Transformers :=
  transformers.entries.foldr (fun entry map => map.insert (top ++ entry.1) entry.2) ∅

/-- {lit}`doTransform` -/
def doTransform (base : List Member) : Except Failure (List Member) :=
  match base with
  | [] => .error (.gradleException (str "Invalid directory entry: $\x7bit.name\x7d"))
  | it :: members =>
      if it.entry.isDirectory then do
        let top := it.entry.name
        let transformers ← task.getTransformers
        let progress ← task.transformMembers lib top ⟨prefixed top transformers, false, []⟩ members
        if !progress.transformers.entries.isEmpty &&
            !progress.transformers.entries.all (fun entry => entry.2.optional) then
          throw (.gradleException
            (str "These files were not found: " ++ task.entrySetText progress.transformers))
        if !progress.processedJbr then
          throw (.gradleException (str "No JBR found"))
        return progress.output
      else .error (.gradleException (str "Invalid directory entry: $\x7bit.name\x7d"))

/-! ## Properties -/

variable {lib task}

/-- A name is a prefix of itself. -/
theorem isPrefixOf_self (name : Name) : name.isPrefixOf name = true :=
  List.isPrefixOf_iff_prefix.mpr (List.prefix_refl name)

/-- An entry that is copied is unchanged: a symbolic link that is put has no data. -/
theorem written_of_put {member written : Member}
    (h : lib.putArchiveEntry member.entry (if member.entry.isSymbolicLink then [] else member.data) =
      .ok written) : written = member := by
  obtain ⟨hentry, hdata⟩ := putArchiveEntry_ok h
  refine Member.eq_of hentry ?_
  rw [hdata]
  split
  next hlink =>
    rw [if_pos hlink] at hdata
    have hlength : member.data.length = 0 := by
      rw [member.sized, ← hentry, ← written.sized, hdata]
      rfl
    exact (List.eq_nil_of_length_eq_zero hlength).symm
  next => rfl

/-- What one round of the loop does: it puts the runtime in, drops an entry of the old one, applies
a transformer, or copies the entry. -/
theorem transformMember_cases {top : Name} {progress progress' : Progress} {member : Member}
    (h : task.transformMember lib top progress member = .ok progress') :
    (member.entry.name = jbrPrefix top ∧
      ∃ piece,
        (match task.jdkArchive with
          | some jdk => copyJRE lib (jbrPrefix top) jdk = .ok piece
          | none => piece = []) ∧
        progress' =
          { progress with processedJbr := true, output := progress.output ++ piece }) ∨
    ((jbrPrefix top).isPrefixOf member.entry.name = true ∧ member.entry.name ≠ jbrPrefix top ∧
      progress' = progress) ∨
    ((jbrPrefix top).isPrefixOf member.entry.name = false ∧
      ∃ transformer piece, progress.transformers.lookup member.entry.name = some transformer ∧
        applyTransformer lib top member transformer = .ok piece ∧
        progress' =
          { progress with
            transformers := progress.transformers.erase member.entry.name
            output := progress.output ++ piece }) ∨
    ((jbrPrefix top).isPrefixOf member.entry.name = false ∧
      progress.transformers.lookup member.entry.name = none ∧
      progress' = { progress with output := progress.output ++ [member] }) := by
  unfold transformMember at h
  dsimp only at h
  by_cases hjbr : (jbrPrefix top).isPrefixOf member.entry.name = true
  · rw [if_pos hjbr] at h
    by_cases hself : member.entry.name = jbrPrefix top
    · rw [if_pos hself] at h
      refine Or.inl ⟨hself, ?_⟩
      cases hjdk : task.jdkArchive with
      | some jdk =>
          rw [hjdk] at h
          obtain ⟨copied, hcopied, h⟩ := bind_eq_ok.mp h
          cases h
          exact ⟨copied, hcopied, rfl⟩
      | none =>
          rw [hjdk] at h
          cases h
          exact ⟨[], rfl, by rw [List.append_nil]⟩
    · rw [if_neg hself] at h
      cases h
      exact Or.inr (Or.inl ⟨hjbr, hself, rfl⟩)
  · rw [if_neg hjbr] at h
    rw [Bool.not_eq_true] at hjbr
    cases hfind : progress.transformers.lookup member.entry.name with
    | some transformer =>
        rw [hfind] at h
        obtain ⟨piece, hpiece, h⟩ := bind_eq_ok.mp h
        cases h
        exact Or.inr (Or.inr (Or.inl ⟨hjbr, transformer, piece, rfl, hpiece, rfl⟩))
    | none =>
        rw [hfind] at h
        obtain ⟨written, hput, h⟩ := bind_eq_ok.mp h
        cases h
        rw [written_of_put hput]
        exact Or.inr (Or.inr (Or.inr ⟨hjbr, rfl, rfl⟩))

end TransformIDE
end Packaging
end IdeMultiarch
