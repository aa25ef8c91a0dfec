import IdeMultiarch.Launcher.Precedence
import IdeMultiarch.Launcher.RemoteDev
import IdeMultiarch.Library.Properties

/-!
# Launcher - the properties of the remote development mode

In this mode the launcher copies the file of properties of the distribution, writes its own
properties behind it, and tells the virtual machine to use the copy.  What the IDE reads from the
copy depends on how the last line of the distribution ends.

Main results:

- Theorem {lit}`lines_ofStr`: the launcher reads the natural lines of a file.
- Theorem {lit}`remote_properties_read`: the properties of the launcher win, and all others are
  those of the distribution, unless its last line is continued by a backslash.
-/

namespace IdeMultiarch
namespace Launcher

open Library (unlines)
open Library.Properties
  (Natural Complete Plain getProperty load logicalLines pending units utf16 written)
open Library.Results (bind_eq_ok)
open Library.Text (splitOnce toNat_of_mem_utf8EncodeChar)

/-! ## Docker -/

/-- How a part of the launcher ends when it returns no value. -/
inductive Halt where
  | failed (error : Error)
  | panicked (message : Str)
deriving DecidableEq, Repr

/-- {lit}`expect` -/
def expect {α : Type} (message : Str) : Except Error α → Except Halt α
  | .ok value => .ok value
  | .error _ => .error (.panicked message)

/-- The question mark behind a result. -/
def orFail {α : Type} : Except Error α → Except Halt α
  | .ok value => .ok value
  | .error error => .error (.failed error)

/-- Whether a line of the control groups names a container. -/
def isDockerAnchor (line : Str) : Bool :=
  (splitOnce (lit "docker") line).isSome || (splitOnce (lit "lxc") line).isSome

section Docker

variable (os : Os) (pathExists : Path → Bool)

/-- {lit}`is_control_group_matches_docker` -/
def isControlGroupMatchesDocker (cgroupParentPath : Option Path) : Except Error Bool :=
  let cgroupPath := (cgroupParentPath.getD (Path.ofStr (lit "/proc/1/"))).join
    (Path.ofStr (lit "cgroup"))
  if pathExists cgroupPath = false then .ok false
  else
    match os.read cgroupPath with
    | none => bail (lit "Unable to read file ") cgroupPath
    | some bytes =>
        if (fromUtf8 bytes).isSome then .ok ((lines bytes).any fun line => line.any isDockerAnchor)
        else bail (lit "Unable to read file ") cgroupPath

/-- {lit}`is_docker_file_exist` -/
def isDockerFileExist (fileName : Str) (rootDir : Option Path) : Except Error Bool :=
  let rootDirToUse := rootDir.getD [SLASH]
  if pathExists rootDirToUse = false then .ok false
  else .ok (pathExists (rootDirToUse.join (Path.ofStr fileName)))

/-- {lit}`is_docker_env_file_exist` -/
def isDockerEnvFileExist (rootDir : Option Path) : Except Error Bool :=
  isDockerFileExist pathExists (lit ".dockerenv") rootDir

/-- {lit}`is_docker_init_file_exist` -/
def isDockerInitFileExist (rootDir : Option Path) : Except Error Bool :=
  isDockerFileExist pathExists (lit ".dockerinit") rootDir

/-- {lit}`is_running_in_docker` -/
def isRunningInDocker : Except Halt Bool := do
  let cgroup ← expect (lit "Unable to read cgroup file")
    (isControlGroupMatchesDocker os pathExists none)
  if cgroup then return true
  let envFile ← expect (lit "Unable to read .dockerenv file")
    (isDockerEnvFileExist pathExists none)
  if envFile then return true
  expect (lit "Unable to read .dockerinit file") (isDockerInitFileExist pathExists none)

end Docker

/-! ## The properties -/

/-- {lit}`IdeProperty`: the key and the value. -/
abbrev IdeProperty := Str × Str

/-- What the operating system answers when a temporary file is made: the errors, if there are
any. -/
structure TempFiles where
  dir : Path
  pid : Nat
  createDirAll : Option Str
  create : Option Str
deriving DecidableEq, Repr

/-- The lines of a file, written with newlines, and whether all of them are texts. -/
def copyLines : List (Option Str) → Str × Bool
  | [] => ([], true)
  | none :: _ => ([], false)
  | some line :: rest =>
      let (text, read) := copyLines rest
      (line ++ '\n' :: text, read)

namespace RemoteDevLaunchConfiguration

variable (config : RemoteDevLaunchConfiguration) (os : Os) (pathExists : Path → Bool)
variable (temp : TempFiles)

/-- {lit}`get_remote_dev_properties` -/
def getRemoteDevProperties : Except Halt (List IdeProperty) := do
  let properties : List IdeProperty :=
    [(lit "jb.privacy.policy.text", lit "<!--999.999-->"),
      (lit "jb.consents.confirmation.enabled", lit "false"),
      (lit "idea.initially.ask.config", lit "never"),
      (lit "ide.show.tips.on.startup.default.value", lit "false"),
      (lit "idea.required.plugins.id", lit "com.jetbrains.codeWithMe"),
      (lit "ide.no.platform.update", lit "true"),
      (lit "shared.indexes.download", lit "true"),
      (lit "shared.indexes.download.auto.consent", lit "true"),
      (lit "eap.login.enabled", lit "false")]
  let properties := properties ++
    if config.startedViaRemoteDevLauncher then
      [(lit "ide.started.from.remote.dev.launcher", lit "true")]
    else []
  let detection ← orFail (parseBoolEnvVarOptional os (lit "REMOTE_DEV_JDK_DETECTION"))
  let properties := properties ++
    [(lit "jdk.configure.existing", if detection.getD true then lit "true" else lit "false")]
  let isDocker ← isRunningInDocker os pathExists
  return properties ++
    if isDocker then
      [(lit "remotedev.run.in.docker", lit "true"),
        (lit "unknown.sdk.show.editor.actions", lit "false")]
    else []

/-- The file of properties of the distribution. -/
def distPropertiesPath : Path :=
  (config.default.ideHome.join (Path.ofStr (lit "bin"))).join (Path.ofStr (lit "idea.properties"))

/-- The temporary file for the properties. -/
def mergedPropertiesPath : Path :=
  temp.dir.join
    (Path.ofStr (lit "pid." ++ Nat.toDigits 10 temp.pid ++ lit ".temp.remote-dev.properties"))

/-- {lit}`write_merged_properties_file`, when the folder is there: the result, and what is in the
file if it was made. -/
def writeFile (path : Path) (remoteDevProperties : List IdeProperty) :
    Except Error Path × Option Str :=
  match temp.create with
  | some error => (.error ⟨error, none⟩, none)
  | none =>
      match os.read config.distPropertiesPath with
      | none => (.error ⟨lit "Failed to open IDE properties file", none⟩, some [])
      | some bytes =>
          let (text, read) := copyLines (lines bytes)
          if read then
            (.ok path,
              some (text ++ remoteDevProperties.flatMap fun p => p.1 ++ '=' :: p.2 ++ ['\n']))
          else (.error ⟨lit "Failed to read IDE properties file", none⟩, some text)

/-- {lit}`write_merged_properties_file` -/
def writeMergedPropertiesFile (remoteDevProperties : List IdeProperty) :
    Except Error Path × Option Str :=
  let path := mergedPropertiesPath temp
  match path.parent, temp.createDirAll with
  | some dir, some _ =>
      (bail (lit "Failed to create to parent folder for IDE properties file at path ") dir, none)
  | _, _ => config.writeFile os temp path remoteDevProperties

/-- {lit}`get_properties_file` -/
def getPropertiesFile : Except Halt Path × Option Str :=
  match config.getRemoteDevProperties os pathExists with
  | .error halt => (.error halt, none)
  | .ok remoteDevProperties =>
      match config.writeMergedPropertiesFile os temp remoteDevProperties with
      | (.error _, content) =>
          let error : Error := ⟨lit "Failed to write remote dev IDE properties file", none⟩
          (.error (.failed error), content)
      | (.ok path, content) => (.ok path, content)

/-- {lit}`get_full_vm_options` -/
def getFullVmOptions : Except Halt (List Str) := do
  let vmOptions ← orFail (config.getVmOptions os)
  let vmOptions ←
    match (config.getPropertiesFile os pathExists temp).1 with
    | .ok path => do
        let path ← orFail path.toStringChecked
        pure (vmOptions ++ [jvmProperty (lit "idea.properties.file") path])
    | .error (.failed _) => pure vmOptions
    | .error (.panicked message) => .error (.panicked message)
  let classPath ← orFail config.default.getClassPath
  return vmOptions ++ [jvmProperty (lit "java.class.path") ([':'].intercalate classPath)]

end RemoteDevLaunchConfiguration

/-! ## The lines of a text -/

/-- The lines of a text with the characters that end them. -/
def textLinesFrom (line : Str) : Str → List Str
  | [] => if line = [] then [] else [line]
  | c :: text =>
      if c = '\n' then (line ++ [c]) :: textLinesFrom [] text else textLinesFrom (line ++ [c]) text

/-- The natural lines of a text. -/
def naturalLines (text : Str) : List Str :=
  (textLinesFrom [] text).map chomp

theorem rawLinesFrom_append {bytes : Bytes} (hbytes : 0x0A ∉ bytes) (line rest : Bytes) :
    rawLinesFrom line (bytes ++ rest) = rawLinesFrom (line ++ bytes) rest := by
  induction bytes generalizing line with
  | nil => rw [List.nil_append, List.append_nil]
  | cons byte bytes ih =>
      rw [List.mem_cons, not_or] at hbytes
      rw [List.cons_append, rawLinesFrom, if_neg (Ne.symm hbytes.1), ih hbytes.2, List.append_assoc,
        List.singleton_append]

theorem rawLinesFrom_ofStr (line text : Str) :
    rawLinesFrom (Path.ofStr line) (Path.ofStr text) =
      (textLinesFrom line text).map Path.ofStr := by
  induction text generalizing line with
  | nil =>
      have hnil : Path.ofStr line = [] ↔ line = [] := by
        constructor
        · intro h
          have hread := Path.toStr_ofStr line
          rw [h] at hread
          exact (Option.some.inj hread).symm
        · rintro rfl
          rfl
      by_cases hline : line = []
      · rw [textLinesFrom, if_pos hline, hline]
        rfl
      · rw [textLinesFrom, if_neg hline]
        exact if_neg fun h => hline (hnil.mp h)
  | cons c text ih =>
      have hcons : Path.ofStr (c :: text) = String.utf8EncodeChar c ++ Path.ofStr text := rfl
      have hsnoc : Path.ofStr (line ++ [c]) = Path.ofStr line ++ String.utf8EncodeChar c := by
        simp [Path.ofStr]
      by_cases hc : c = '\n'
      · have hbyte : String.utf8EncodeChar c = [0x0A] := by
          rw [hc]
          decide
        rw [textLinesFrom, if_pos hc, List.map_cons, hsnoc, hcons, hbyte, List.singleton_append,
          rawLinesFrom, if_pos rfl, ← ih]
        rfl
      · have hbytes : 0x0A ∉ String.utf8EncodeChar c := fun h =>
          hc (Char.toNat_inj.mp (toNat_of_mem_utf8EncodeChar (by decide) h))
        rw [textLinesFrom, if_neg hc, hcons, rawLinesFrom_append hbytes, ← hsnoc, ih]

/-- The launcher reads the natural lines of a file. -/
theorem lines_ofStr (text : Str) : lines (Path.ofStr text) = (naturalLines text).map some := by
  have hraw : rawLinesFrom [] (Path.ofStr text) = (textLinesFrom [] text).map Path.ofStr :=
    rawLinesFrom_ofStr [] text
  have hread : ∀ line : Str, fromUtf8 (Path.ofStr line) = some line := Path.toStr_ofStr
  rw [lines, hraw, naturalLines, List.map_map, List.map_map]
  refine List.map_congr_left fun line _ => ?_
  rw [Function.comp_apply, hread, Function.comp_apply, Option.map_some]

/-- A line that a newline ends. -/
theorem chomp_newline (line : Str) :
    chomp (line ++ ['\n']) = if line.getLast? = some '\r' then line.dropLast else line := by
  unfold chomp
  rw [if_pos List.getLast?_concat, List.dropLast_concat]

theorem natural_textLinesFrom (line text : Str) (hline : '\n' ∉ line) :
    Natural ((textLinesFrom line text).map chomp) (line ++ text) := by
  induction text generalizing line with
  | nil =>
      rw [textLinesFrom, List.append_nil]
      split
      next hnil =>
        rw [hnil]
        exact .nil
      next hne =>
        have hlast : chomp line = line := if_neg fun h => hline (List.mem_of_getLast? h)
        rw [List.map_cons, hlast]
        exact .last hne hline
  | cons c text ih =>
      rw [textLinesFrom]
      split
      next hc =>
        have hrest : Natural ((textLinesFrom [] text).map chomp) text := ih [] List.not_mem_nil
        rw [List.map_cons, hc, chomp_newline]
        split
        next hreturn =>
          have hsplit : line = line.dropLast ++ ['\r'] :=
            (List.dropLast_append_getLast? _ hreturn).symm
          have htext : line ++ '\n' :: text = line.dropLast ++ '\r' :: '\n' :: text := by
            conv_lhs => rw [hsplit]
            simp
          rw [htext]
          exact .carriageReturn _ hrest
        next => exact .newline _ hrest
      next hc =>
        have hne : '\n' ∉ line ++ [c] := by
          simp [hline, Ne.symm hc]
        have hrest := ih (line ++ [c]) hne
        rw [List.append_assoc] at hrest
        exact hrest

/-- A text has its natural lines. -/
theorem natural_naturalLines (text : Str) : Natural (naturalLines text) text :=
  natural_textLinesFrom [] text List.not_mem_nil

theorem copyLines_some (ls : List Str) : copyLines (ls.map some) = (unlines '\n' ls, true) := by
  induction ls with
  | nil => rfl
  | cons line ls ih => rw [List.map_cons, copyLines, ih, Library.unlines_cons]

/-! ## What the IDE reads -/

namespace RemoteDevLaunchConfiguration

variable {config : RemoteDevLaunchConfiguration} {os : Os} {pathExists : Path → Bool}
variable {temp : TempFiles} {properties : List IdeProperty} {text : Str}

/-- The property that is written first. -/
def firstProperty : IdeProperty :=
  (lit "jb.privacy.policy.text", lit "<!--999.999-->")

/-- All properties that the launcher can write. -/
def allProperties (detection : Bool) : List IdeProperty :=
  [firstProperty,
    (lit "jb.consents.confirmation.enabled", lit "false"),
    (lit "idea.initially.ask.config", lit "never"),
    (lit "ide.show.tips.on.startup.default.value", lit "false"),
    (lit "idea.required.plugins.id", lit "com.jetbrains.codeWithMe"),
    (lit "ide.no.platform.update", lit "true"),
    (lit "shared.indexes.download", lit "true"),
    (lit "shared.indexes.download.auto.consent", lit "true"),
    (lit "eap.login.enabled", lit "false")] ++
  [(lit "ide.started.from.remote.dev.launcher", lit "true")] ++
  [(lit "jdk.configure.existing", if detection then lit "true" else lit "false")] ++
  [(lit "remotedev.run.in.docker", lit "true"),
    (lit "unknown.sdk.show.editor.actions", lit "false")]

/-- They need no escapes, and no key has two values. -/
theorem allProperties_written (detection : Bool) :
    (∀ property ∈ allProperties detection, Plain property.1 property.2) ∧
    (((allProperties detection).map units).map Prod.fst).Nodup := by
  cases detection <;> decide +kernel

/-- The properties of the launcher need no escapes, and no key has two values. -/
theorem properties_written (h : config.getRemoteDevProperties os pathExists = .ok properties) :
    (∀ property ∈ properties, Plain property.1 property.2) ∧
    ((properties.map units).map Prod.fst).Nodup ∧
    properties = firstProperty :: properties.tail := by
  obtain ⟨detection, -, h⟩ := bind_eq_ok.mp h
  obtain ⟨isDocker, -, h⟩ := bind_eq_ok.mp h
  have hoptional : ∀ (b : Bool) (l : List IdeProperty), (if b then l else []).Sublist l := by
    intro b l
    cases b
    · exact List.nil_sublist l
    · exact List.Sublist.refl l
  have hsublist : properties.Sublist (allProperties (detection.getD true)) := by
    cases h
    exact (((List.Sublist.refl _).append (hoptional _ _)).append (List.Sublist.refl _)).append
      (hoptional _ _)
  obtain ⟨hplain, hnodup⟩ := allProperties_written (detection.getD true)
  refine ⟨fun property hproperty => hplain property (hsublist.subset hproperty),
    hnodup.sublist ((hsublist.map units).map Prod.fst), ?_⟩
  cases h
  rfl

/-- What is in the copy of a file that is a text. -/
theorem getPropertiesFile_eq
    (hproperties : config.getRemoteDevProperties os pathExists = .ok properties)
    (htemp : temp.createDirAll = none ∧ temp.create = none)
    (hdist : os.read config.distPropertiesPath = some (Path.ofStr text)) :
    config.getPropertiesFile os pathExists temp = (.ok (mergedPropertiesPath temp),
      some (unlines '\n' (naturalLines text) ++ unlines '\n' (properties.map written))) := by
  have hwritten : (properties.flatMap fun p => p.1 ++ '=' :: p.2 ++ ['\n']) =
      unlines '\n' (properties.map written) := by
    simp [unlines, List.flatMap_map, written]
  have hfile : config.writeMergedPropertiesFile os temp properties =
      config.writeFile os temp (mergedPropertiesPath temp) properties := by
    unfold writeMergedPropertiesFile
    dsimp only
    split
    next herror =>
      rw [htemp.1] at herror
      cases herror
    next => rfl
  rw [getPropertiesFile, hproperties]
  dsimp only
  rw [hfile, writeFile, htemp.2, hdist]
  dsimp only
  rw [lines_ofStr, copyLines_some, hwritten]
  rfl

/-- The virtual machine is told to use the copy. -/
theorem properties_file_set {path : Path} {vmOptions : List Str}
    (hpath : (config.getPropertiesFile os pathExists temp).1 = .ok path)
    (h : config.getFullVmOptions os pathExists temp = .ok vmOptions) :
    systemProperty (lit "idea.properties.file") vmOptions = path.toStr := by
  obtain ⟨options, -, h⟩ := bind_eq_ok.mp h
  rw [hpath] at h
  obtain ⟨file, hchecked, h⟩ := bind_eq_ok.mp h
  obtain ⟨withFile, hfile, h⟩ := bind_eq_ok.mp h
  cases hfile
  obtain ⟨classPath, -, h⟩ := bind_eq_ok.mp h
  cases h
  have htext : path.toStr = some file := by
    unfold Path.toStringChecked at hchecked
    cases hread : path.toStr with
    | none => simp [hread, bail, orFail] at hchecked
    | some text => simpa [hread, orFail] using hchecked
  rw [htext, systemProperty, Library.Settings.valueOf_append, Library.Settings.valueOf_append]
  have hclassName : '=' ∉ lit "java.class.path" := by decide
  have hfileName : '=' ∉ lit "idea.properties.file" := by decide
  have hclass := systemProperty_jvmProperty (lit "idea.properties.file") hclassName
    ([':'].intercalate classPath)
  have hset := systemProperty_jvmProperty (lit "idea.properties.file") hfileName file
  unfold systemProperty at hclass hset
  rw [hclass, hset, if_neg (by decide), if_pos rfl]
  rfl

/-- The IDE reads the copy: the properties of the launcher have their values, and all others those
that the distribution gives them, however its lines end.  A backslash at the end of its last line
is the exception: the first property of the launcher then becomes a part of this line. -/
theorem remote_properties_read
    (hproperties : config.getRemoteDevProperties os pathExists = .ok properties)
    (htemp : temp.createDirAll = none ∧ temp.create = none)
    (hdist : os.read config.distPropertiesPath = some (Path.ofStr text))
    (hreturns : ∀ line ∈ naturalLines text, line.getLast? ≠ some '\r') :
    ∃ content, config.getPropertiesFile os pathExists temp =
        (.ok (mergedPropertiesPath temp), some content) ∧
      (∀ vmOptions, config.getFullVmOptions os pathExists temp = .ok vmOptions →
        systemProperty (lit "idea.properties.file") vmOptions =
          (mergedPropertiesPath temp).toStr) ∧
      (Complete (unlines '\n' (naturalLines text)) →
        (load text = none → load content = none) ∧
        ∀ dist, load text = some dist → ∃ merged, load content = some merged ∧
          (∀ property ∈ properties,
            getProperty merged (units property).1 = some (units property).2) ∧
          ∀ key, (∀ property ∈ properties, (units property).1 ≠ key) →
            getProperty merged key = getProperty dist key) ∧
      (¬ Complete (unlines '\n' (naturalLines text)) →
        pending (unlines '\n' (naturalLines text)) ≠ [] →
        ∃ front, logicalLines text = front ++ [pending (unlines '\n' (naturalLines text))] ∧
          logicalLines content =
            front ++ (pending (unlines '\n' (naturalLines text)) ++ written firstProperty) ::
              properties.tail.map written) := by
  obtain ⟨hplain, hnodup, hfirst⟩ := properties_written hproperties
  have hfile := getPropertiesFile_eq hproperties htemp hdist
  refine ⟨_, hfile, ?_, ?_, ?_⟩
  · intro vmOptions hoptions
    exact properties_file_set (congrArg Prod.fst hfile) hoptions
  · intro hcomplete
    have hload := Library.Properties.load_append_written (natural_naturalLines text) hreturns hplain
      hcomplete
    rw [hload]
    constructor
    · intro hnone
      rw [hnone]
      rfl
    · intro dist hdist'
      rw [hdist', Option.map_some]
      refine ⟨_, rfl, ?_, ?_⟩
      · intro property hproperty
        have hvalue := Library.Properties.getProperty_of_mem hnodup
          (List.mem_map_of_mem (f := units) hproperty)
        rw [Library.Properties.getProperty_append, hvalue]
        rfl
      · intro key hkey
        have hnone : getProperty (properties.map units) key = none := by
          refine Library.Properties.getProperty_of_not_mem fun property hproperty => ?_
          obtain ⟨p, hp, rfl⟩ := List.mem_map.mp hproperty
          exact hkey p hp
        rw [Library.Properties.getProperty_append, hnone]
        rfl
  · intro hopen hpending
    rw [hfirst] at hplain ⊢
    obtain ⟨hplainFirst, hplainRest⟩ := List.forall_mem_cons.mp hplain
    exact Library.Properties.logicalLines_append_pending (natural_naturalLines text) hreturns
      hplainFirst hplainRest hopen hpending

/-! ## A small distribution -/

/-- The distribution has a file of properties. -/
def smallPropertiesOs (dist : Str) : Os :=
  { smallOs [] [] with
    read path :=
      if path = smallRemoteDev.distPropertiesPath then some (Path.ofStr dist) else none }

/-- A folder for temporary files. -/
def smallTemp : TempFiles :=
  ⟨Path.ofStr (lit "/tmp"), 42, none, none⟩

/-- The distribution cannot allow updates.  With a backslash at its end it takes the first property
of the launcher for a part of its own last line. -/
theorem remote_properties_read_small :
    (∃ content merged,
      smallRemoteDev.getPropertiesFile
        (smallPropertiesOs (lit "ide.no.platform.update=\\\r\n false")) (fun _ => false) smallTemp =
          (.ok (mergedPropertiesPath smallTemp), some content) ∧
      load content = some merged ∧
      getProperty merged ((lit "ide.no.platform.update").flatMap utf16) =
        some ((lit "true").flatMap utf16)) ∧
    ∃ content,
      smallRemoteDev.getPropertiesFile (smallPropertiesOs (lit "idea.cycle.buffer.size=1024\\"))
        (fun _ => false) smallTemp = (.ok (mergedPropertiesPath smallTemp), some content) ∧
      lit "idea.cycle.buffer.size=1024jb.privacy.policy.text=<!--999.999-->" ∈
        logicalLines content := by
  have hproperties : ∀ dist, smallRemoteDev.getRemoteDevProperties (smallPropertiesOs dist)
      (fun _ => false) = .ok (firstProperty :: [
        (lit "jb.consents.confirmation.enabled", lit "false"),
        (lit "idea.initially.ask.config", lit "never"),
        (lit "ide.show.tips.on.startup.default.value", lit "false"),
        (lit "idea.required.plugins.id", lit "com.jetbrains.codeWithMe"),
        (lit "ide.no.platform.update", lit "true"),
        (lit "shared.indexes.download", lit "true"),
        (lit "shared.indexes.download.auto.consent", lit "true"),
        (lit "eap.login.enabled", lit "false"),
        (lit "ide.started.from.remote.dev.launcher", lit "true"),
        (lit "jdk.configure.existing", lit "true")]) := fun dist => rfl
  have hdist : ∀ dist, (smallPropertiesOs dist).read smallRemoteDev.distPropertiesPath =
      some (Path.ofStr dist) := fun dist => by
    simp [smallPropertiesOs]
  have htemp : smallTemp.createDirAll = none ∧ smallTemp.create = none := ⟨rfl, rfl⟩
  constructor
  · obtain ⟨content, hfile, -, hcomplete, -⟩ := remote_properties_read (hproperties _) htemp
      (hdist (lit "ide.no.platform.update=\\\r\n false")) (by decide +kernel)
    obtain ⟨-, hread⟩ := hcomplete (by decide +kernel)
    obtain ⟨merged, hload, hvalues, -⟩ := hread
      [((lit "ide.no.platform.update").flatMap utf16, (lit "false").flatMap utf16)]
      (by decide +kernel)
    exact ⟨content, merged, hfile, hload,
      hvalues (lit "ide.no.platform.update", lit "true") (by decide +kernel)⟩
  · obtain ⟨content, hfile, -, -, hopen⟩ := remote_properties_read (hproperties _) htemp
      (hdist (lit "idea.cycle.buffer.size=1024\\")) (by decide +kernel)
    obtain ⟨front, -, hlines⟩ := hopen (by decide +kernel) (by decide +kernel)
    have hpending : pending (unlines '\n' (naturalLines (lit "idea.cycle.buffer.size=1024\\"))) ++
        written firstProperty =
          lit "idea.cycle.buffer.size=1024jb.privacy.policy.text=<!--999.999-->" := by
      decide +kernel
    refine ⟨content, hfile, ?_⟩
    rw [hlines, hpending]
    exact List.mem_append_right _ List.mem_cons_self

end RemoteDevLaunchConfiguration

end Launcher
end IdeMultiarch
