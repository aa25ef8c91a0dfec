import IdeMultiarch.Launcher.ProductInfo
import IdeMultiarch.Library.Results

/-!
# Launcher - the options of the virtual machine

How the launcher puts together the options for the virtual machine: from the file of the
distribution, the file of the user and the descriptor, with options of its own between them.

Main results:

- Theorem {lit}`readVmOptionLines_uncorrupted`: the options of a file are on its lines.
- Theorem {lit}`collectVmOptionsFromFiles_ok`: the options that come from the two files.
- Theorem {lit}`getFullVmOptions_ok`: the whole list, source by source.
-/

namespace IdeMultiarch
namespace Launcher

open Library.Results (bind_eq_ok)
open Library.Text (replace replace_append splitOnce rsplitOnce)

/-! ## The configuration -/

/-- {lit}`DefaultLaunchConfiguration` -/
structure DefaultLaunchConfiguration where
  productInfo : ProductInfo
  launchInfo : ProductInfoLaunchField
  ideHome : Path
  vmOptionsPath : Path
  userConfigDir : Path
  userCachesDir : Path
  args : List Str
  launcherBaseName : Str
  envVarBaseName : Str
deriving DecidableEq, Repr

/-- {lit}`get_launcher_base_name` -/
def getLauncherBaseName (vmOptionsRelPath : Str) : Str :=
  let fileName := ((rsplitOnce '/' vmOptionsRelPath).map Prod.snd).getD vmOptionsRelPath
  let noLastExtension := ((splitOnce ['.'] fileName).map Prod.fst).getD fileName
  ((splitOnce (lit "64") noLastExtension).map Prod.fst).getD noLastExtension

/-- {lit}`DefaultLaunchConfiguration::new`, when the product was found and its descriptor read. -/
def DefaultLaunchConfiguration.new (ideHome productInfoFile configHome cachesHome : Path)
    (productInfo : ProductInfo) (args : List Str) : Except Error DefaultLaunchConfiguration := do
  let productLaunchInfo ← computeLaunchInfo productInfo args.head?
  let launchInfo := productLaunchInfo.productInfoLaunchField
  let parent ← context (lit "failed to get product_info_file parent()") productInfoFile.parent
  let dataDirectoryName := productLaunchInfo.dataDirectoryName productInfo
  let vendor := Path.ofStr productInfo.productVendor
  return { productInfo
           launchInfo
           ideHome
           vmOptionsPath := parent.join (Path.ofStr launchInfo.vmOptionsFilePath)
           userConfigDir := (configHome.join vendor).join (Path.ofStr dataDirectoryName)
           userCachesDir := (cachesHome.join vendor).join (Path.ofStr dataDirectoryName)
           args
           launcherBaseName := getLauncherBaseName launchInfo.vmOptionsFilePath
           envVarBaseName := productLaunchInfo.envVarBaseName productInfo }

/-- {lit}`jvm_property!` -/
def jvmProperty (name value : Str) : Str :=
  lit "-D" ++ name ++ '=' :: value

/-! ## Macros -/

/-- What the macros of an option stand for. -/
structure Macros where
  userHomePath : Str
  ideHomePath : Str
  ideCachesPath : Str
deriving DecidableEq, Repr

/-- The replacements in an option, one after the other. -/
def Macros.expand (macros : Macros) (vmOption : Str) : Str :=
  replace (lit "$IDE_CACHE_DIR") macros.ideCachesPath
    (replace (lit "$IDE_HOME") macros.ideHomePath
      (replace (lit "$USER_HOME") macros.userHomePath vmOption))

/-- A front without the sign of the macros stays as it is. -/
theorem Macros.expand_append (macros : Macros) {front : Str} (hfront : '$' ∉ front)
    (vmOption : Str) : macros.expand (front ++ vmOption) = front ++ macros.expand vmOption := by
  unfold Macros.expand
  have huser : replace (lit "$USER_HOME") macros.userHomePath (front ++ vmOption) =
      front ++ replace (lit "$USER_HOME") macros.userHomePath vmOption :=
    replace_append _ _ hfront _
  have hhome : ∀ text, replace (lit "$IDE_HOME") macros.ideHomePath (front ++ text) =
      front ++ replace (lit "$IDE_HOME") macros.ideHomePath text :=
    fun text => replace_append _ _ hfront text
  have hcaches : ∀ text, replace (lit "$IDE_CACHE_DIR") macros.ideCachesPath (front ++ text) =
      front ++ replace (lit "$IDE_CACHE_DIR") macros.ideCachesPath text :=
    fun text => replace_append _ _ hfront text
  rw [huser, hhome, hcaches]

/-! ## Reading options -/

/-- The loop of {lit}`read_vm_options`: a line with a zero character spoils the whole file. -/
def readVmOptionLines (path : Path) (vmOptions : List Str) :
    List (Option Str) → Except Error (List Str × Bool)
  | [] => .ok (vmOptions, false)
  | none :: _ => bail (lit "Cannot read: ") path
  | some line :: lines =>
      let line := trim line
      if line = [] ∨ line.head? = some '#' then readVmOptionLines path vmOptions lines
      else if '\x00' ∈ line then .ok ([], true)
      else readVmOptionLines path (vmOptions ++ [line]) lines

/-- {lit}`read_vm_options` -/
def readVmOptions (os : Os) (path : Path) : Except Error (List Str × Bool) :=
  match os.read path with
  | none => bail (lit "No such file or directory") path
  | some bytes => readVmOptionLines path [] (lines bytes)

/-- The option on a line: none on an empty line or in a comment. -/
def optionOf (line : Option Str) : Option Str :=
  line.bind fun line =>
    let line := trim line
    if line = [] ∨ line.head? = some '#' then none else some line

/-- The options of a file that is not corrupted are on its lines, in order. -/
theorem readVmOptionLines_uncorrupted {path : Path} {vmOptions options : List Str}
    {lines : List (Option Str)}
    (h : readVmOptionLines path vmOptions lines = .ok (options, false)) :
    options = vmOptions ++ lines.filterMap optionOf := by
  induction lines generalizing vmOptions with
  | nil =>
      cases h
      simp
  | cons line lines ih =>
      cases line with
      | none => cases h
      | some line =>
          unfold readVmOptionLines at h
          dsimp only at h
          split at h
          next hskip =>
            have hnone : optionOf (some line) = none := by simp [optionOf, hskip]
            rw [ih h, List.filterMap_cons_none hnone]
          next hkept =>
            split at h
            next => cases h
            next =>
              have hsome : optionOf (some line) = some (trim line) := by simp [optionOf, hkept]
              rw [ih h, List.filterMap_cons_some hsome, List.append_assoc, List.singleton_append]

/-- A corrupted file has no options. -/
theorem readVmOptionLines_corrupted {path : Path} {vmOptions options : List Str}
    {lines : List (Option Str)}
    (h : readVmOptionLines path vmOptions lines = .ok (options, true)) : options = [] := by
  induction lines generalizing vmOptions with
  | nil => cases h
  | cons line lines ih =>
      cases line with
      | none => cases h
      | some line =>
          unfold readVmOptionLines at h
          dsimp only at h
          split at h
          next => exact ih h
          next =>
            split at h
            next =>
              cases h
              rfl
            next => exact ih h

/-! ## Overriding options -/

/-- {lit}`-XX:+...GC` -/
def isGcOption (line : Str) : Bool :=
  startsWith line (lit "-XX:+") && endsWith line (lit "GC")

/-- The filters that a line of the user adds. -/
def filtersOf (line : Str) : List (Str → Bool) :=
  (if isGcOption line then [isGcOption] else []) ++
  (if startsWith line (lit "-XX:InitialRAMPercentage=") then
    [fun l => startsWith l (lit "-Xms")] else []) ++
  (if startsWith line (lit "-XX:MinRAMPercentage=") || startsWith line (lit "-XX:MaxRAMPercentage=")
    then [fun l => startsWith l (lit "-Xmx")] else [])

/-- The options of the distribution that no filter of the user drops. -/
def notOverridden (distVmOptions userVmOptions : List Str) : List Str :=
  let filters := userVmOptions.flatMap filtersOf
  distVmOptions.filter fun l => !filters.any fun filter => filter l

/-- The options that tell where the options of the user came from. -/
def vmOptionsFileMarkers (path : Str) (corrupted : Bool) : List Str :=
  jvmProperty (lit "jb.vmOptionsFile") path ::
    if corrupted then [jvmProperty (lit "jb.vmOptionsFile.corrupted") (lit "true")] else []

namespace DefaultLaunchConfiguration

variable (config : DefaultLaunchConfiguration) (os : Os)

/-! ## Collecting options -/

/-- {lit}`get_user_vm_options_file` -/
def getUserVmOptionsFile : Except Error Path := do
  match os.getPathFromEnvVar (config.envVarBaseName ++ lit "_VM_OPTIONS") false with
  | .ok envFilePath => return envFilePath
  | .error _ =>
      let tbFileBase ←
        context (lit "Failed to get real_ide_home file_name()") config.ideHome.fileName
      let tbFileBase ←
        context (lit "Failed to get to_str() from real_ide_home file_name()") tbFileBase.toStr
      let parent ← context (lit "Failed to get real_ide_home parent()") config.ideHome.parent
      let tbFilePath := parent.join (Path.ofStr (tbFileBase ++ lit ".vmoptions"))
      if os.isFile tbFilePath then return tbFilePath
      else
        let userFileName ←
          context (lit "failed to vm_options_path file_name()") config.vmOptionsPath.fileName
        let userFilePath := config.userConfigDir.join userFileName
        if os.isFile userFilePath then return userFilePath
        else .error ⟨lit "User-editable config files not found", none⟩

/-- The options of the user, whether their file is corrupted, and the path that is reported. -/
def readUserVmOptions : Except Error ((List Str × Bool) × Path) :=
  match config.getUserVmOptionsFile os with
  | .ok path => do
      let options ← readVmOptions os path
      return (options, path)
  | .error _ => .ok (([], false), config.vmOptionsPath)

/-- {lit}`collect_vm_options_from_files`, which adds to the options so far. -/
def collectVmOptionsFromFiles (vmOptions : List Str) : Except Error (List Str) := do
  let (distVmOptions, corrupted) ← readVmOptions os config.vmOptionsPath
  if corrupted then
    bail (lit "Invalid character ('\\0') found in VM options file: ") config.vmOptionsPath
  else
    let ((userVmOptions, corrupted), vmOptionsPath) ← config.readUserVmOptions os
    let vmOptions := vmOptions ++ notOverridden distVmOptions userVmOptions ++ userVmOptions
    let path ← vmOptionsPath.toStringChecked
    let vmOptions := vmOptions ++ [jvmProperty (lit "jb.vmOptionsFile") path]
    return if corrupted then
        vmOptions ++ [jvmProperty (lit "jb.vmOptionsFile.corrupted") (lit "true")]
      else vmOptions

/-- The options that come first, so that the user can override them. -/
def errorFileOptions (userHomePath : Str) : List Str :=
  let name := lit "/java_error_in_" ++ config.launcherBaseName
  [lit "-XX:ErrorFile=" ++ userHomePath ++ name ++ lit "_%p.log",
    lit "-XX:HeapDumpPath=" ++ userHomePath ++ name ++ lit ".hprof"]

/-- {lit}`get_vm_options` -/
def getVmOptions : Except Error (List Str) := do
  let userHome ← os.getUserHome
  let userHomePath ← userHome.toStringChecked
  let vmOptions ← config.collectVmOptionsFromFiles os (config.errorFileOptions userHomePath)
  let vmOptions := vmOptions ++ config.launchInfo.additionalJvmArguments
  let ideHomePath ← config.ideHome.toStringChecked
  let ideCachesPath ← config.userCachesDir.toStringChecked
  let macros : Macros := { userHomePath, ideHomePath, ideCachesPath }
  let vmOptions := vmOptions.map macros.expand
  return vmOptions ++ [jvmProperty (lit "ide.native.launcher") (lit "true")]

/-- {lit}`get_properties_file` -/
def getPropertiesFile : Except Error Path :=
  os.getPathFromEnvVar (config.envVarBaseName ++ lit "_PROPERTIES") false

/-- {lit}`get_class_path` -/
def getClassPath : Except Error (List Str) := do
  let libPath ← (config.ideHome.join (Path.ofStr (lit "lib"))).toStringChecked
  return config.launchInfo.bootClassPathJarNames.map fun item => libPath ++ '/' :: item

/-- {lit}`get_full_vm_options` -/
def getFullVmOptions : Except Error (List Str) := do
  let vmOptions ← config.getVmOptions os
  let vmOptions ←
    match config.getPropertiesFile os with
    | .ok path => do
        let path ← path.toStringChecked
        pure (vmOptions ++ [jvmProperty (lit "idea.properties.file") path])
    | .error _ => pure vmOptions
  let classPath ← config.getClassPath
  return vmOptions ++ [jvmProperty (lit "java.class.path") ([':'].intercalate classPath)]

/-! ## Properties -/

/-- What is read from the files: the options of the distribution, those of the user, whether the
file of the user is corrupted, and the path that is reported. -/
structure ReadsFiles (dist user : List Str) (corrupted : Bool) (path : Str) : Prop where
  dist : readVmOptions os config.vmOptionsPath = .ok (dist, false)
  user : ∃ file, config.readUserVmOptions os = .ok ((user, corrupted), file) ∧
    file.toStringChecked = .ok path

variable {config os}

/-- The options that come from the two files. -/
theorem collectVmOptionsFromFiles_ok {vmOptions result : List Str} :
    config.collectVmOptionsFromFiles os vmOptions = .ok result ↔
      ∃ dist user corrupted path, config.ReadsFiles os dist user corrupted path ∧
        result = vmOptions ++ notOverridden dist user ++ user ++
          vmOptionsFileMarkers path corrupted := by
  constructor
  · intro h
    obtain ⟨⟨dist, spoiled⟩, hdist, h⟩ := bind_eq_ok.mp h
    dsimp only at h
    split at h
    next => cases h
    next hspoiled =>
      obtain ⟨⟨⟨user, corrupted⟩, file⟩, huser, h⟩ := bind_eq_ok.mp h
      obtain ⟨path, hpath, h⟩ := bind_eq_ok.mp h
      have hdist' : readVmOptions os config.vmOptionsPath = .ok (dist, false) := by
        rw [hdist, Bool.eq_false_iff.mpr hspoiled]
      cases h
      refine ⟨dist, user, corrupted, path, ⟨hdist', file, huser, hpath⟩, ?_⟩
      cases corrupted <;> simp [vmOptionsFileMarkers]
  · rintro ⟨dist, user, corrupted, path, ⟨hdist, file, huser, hpath⟩, rfl⟩
    unfold collectVmOptionsFromFiles
    rw [hdist, huser]
    cases corrupted <;> simp [bind, Except.bind, pure, Except.pure, hpath, vmOptionsFileMarkers]

/-- The texts that the macros stand for. -/
structure ReadsMacros (config : DefaultLaunchConfiguration) (os : Os) (macros : Macros) : Prop where
  userHome : ∃ home, os.getUserHome = .ok home ∧ home.toStringChecked = .ok macros.userHomePath
  ideHome : config.ideHome.toStringChecked = .ok macros.ideHomePath
  ideCaches : config.userCachesDir.toStringChecked = .ok macros.ideCachesPath

/-- The options of all sources but the environment, in the order of the sources. -/
theorem getVmOptions_ok {result : List Str} (h : config.getVmOptions os = .ok result) :
    ∃ macros dist user corrupted path, config.ReadsMacros os macros ∧
      config.ReadsFiles os dist user corrupted path ∧
        result = (config.errorFileOptions macros.userHomePath ++ notOverridden dist user ++ user ++
            vmOptionsFileMarkers path corrupted ++
              config.launchInfo.additionalJvmArguments).map macros.expand ++
          [jvmProperty (lit "ide.native.launcher") (lit "true")] := by
  obtain ⟨userHome, hhome, h⟩ := bind_eq_ok.mp h
  obtain ⟨userHomePath, htext, h⟩ := bind_eq_ok.mp h
  obtain ⟨collected, hcollected, h⟩ := bind_eq_ok.mp h
  obtain ⟨ideHomePath, hide, h⟩ := bind_eq_ok.mp h
  obtain ⟨ideCachesPath, hcaches, h⟩ := bind_eq_ok.mp h
  obtain ⟨dist, user, corrupted, path, hfiles, rfl⟩ := collectVmOptionsFromFiles_ok.mp hcollected
  cases h
  exact ⟨{ userHomePath, ideHomePath, ideCachesPath }, dist, user, corrupted, path,
    ⟨⟨userHome, hhome, htext⟩, hide, hcaches⟩, hfiles, rfl⟩

/-- The text of the path to a properties file, if the environment names one. -/
def propertiesFile (config : DefaultLaunchConfiguration) (os : Os) : Option Str :=
  match config.getPropertiesFile os with
  | .ok path => path.toStr
  | .error _ => none

/-- The whole list, source by source. -/
theorem getFullVmOptions_ok {result : List Str} (h : config.getFullVmOptions os = .ok result) :
    ∃ vmOptions classPath, config.getVmOptions os = .ok vmOptions ∧
      config.getClassPath = .ok classPath ∧
        result = vmOptions ++
          (config.propertiesFile os).toList.map (jvmProperty (lit "idea.properties.file")) ++
            [jvmProperty (lit "java.class.path") ([':'].intercalate classPath)] := by
  obtain ⟨vmOptions, hvm, h⟩ := bind_eq_ok.mp h
  unfold propertiesFile
  cases hproperties : config.getPropertiesFile os with
  | error failure =>
      rw [hproperties] at h
      obtain ⟨_, hsame, h⟩ := bind_eq_ok.mp h
      obtain ⟨classPath, hclass, h⟩ := bind_eq_ok.mp h
      cases hsame
      cases h
      exact ⟨vmOptions, classPath, hvm, hclass, by simp⟩
  | ok path =>
      rw [hproperties] at h
      obtain ⟨text, htext, h⟩ := bind_eq_ok.mp h
      obtain ⟨_, hadded, h⟩ := bind_eq_ok.mp h
      obtain ⟨classPath, hclass, h⟩ := bind_eq_ok.mp h
      cases hadded
      cases h
      have hstr : path.toStr = some text := by
        unfold Path.toStringChecked at htext
        split at htext
        next => cases htext
        next hstr =>
          cases htext
          exact hstr
      exact ⟨vmOptions, classPath, hvm, hclass, by simp [hstr]⟩

end DefaultLaunchConfiguration

/-! ## A small launch -/

/-- A product in {lit}`/opt/idea`. -/
def smallLaunch : DefaultLaunchConfiguration where
  productInfo :=
    { productCode := lit "IC", productVendor := lit "JetBrains", envVarBaseName := lit "IDEA",
      dataDirectoryName := lit "IdeaIC", launch := [] }
  launchInfo :=
    { vmOptionsFilePath := lit "bin/idea64.vmoptions", bootClassPathJarNames := [lit "app.jar"],
      additionalJvmArguments := [lit "-Djna.boot.library.path=$IDE_HOME/lib/jna"],
      mainClass := lit "Main", customCommands := none }
  ideHome := Path.ofStr (lit "/opt/idea")
  vmOptionsPath := Path.ofStr (lit "/opt/idea/bin/idea64.vmoptions")
  userConfigDir := Path.ofStr (lit "/home/me/.config/JetBrains/IdeaIC")
  userCachesDir := Path.ofStr (lit "/home/me/.cache/JetBrains/IdeaIC")
  args := []
  launcherBaseName := lit "idea"
  envVarBaseName := lit "IDEA"

/-- The user has options in a file near the product. -/
def smallOs (dist user : Str) : Os where
  envVar _ := none
  homeDir := some (Path.ofStr (lit "/home/me"))
  isDir _ := false
  isFile path := path = Path.ofStr (lit "/opt/idea.vmoptions")
  read path :=
    if path = Path.ofStr (lit "/opt/idea.vmoptions") then some (Path.ofStr user)
    else if path = Path.ofStr (lit "/opt/idea/bin/idea64.vmoptions") then some (Path.ofStr dist)
    else none

end Launcher
end IdeMultiarch
