import IdeMultiarch.Launcher.BaseName
import IdeMultiarch.Launcher.JavaVmRuns
import IdeMultiarch.Launcher.Precedence

/-!
# Launcher - from the configuration to the virtual machine

The launcher looks for a runtime, collects the options, and starts the machine with them.

Main results:

- Theorem {lit}`locateRuntime_toOption`: the first usable runtime of five is taken.
- Theorem {lit}`convertVmOptions_ok`: options are passed byte by byte, or not at all.
- Theorem {lit}`machine_created`: what a machine is created with, and what it is told to run.
-/

namespace IdeMultiarch
namespace Launcher

open Library.Results (bind_eq_ok)
open Library.Settings (given valueOf_append)
open Library.Text (replace toNat_of_mem_utf8EncodeChar)

/-! ## The runtime -/

/-- What else the launcher asks the operating system for: whether something is at a path, and the
permissions of it. -/
structure RuntimeOs extends Os where
  pathExists : Path → Bool
  mode : Path → Option Nat

section Runtime

variable (os : RuntimeOs)

/-- {lit}`is_executable`.  The text of an error of the system is left out. -/
def isExecutable (path : Path) : Except Error Bool :=
  match os.mode path with
  | none => bail (lit "No metadata of ") path
  | some mode => .ok (os.isFile path && mode &&& 0o111 != 0)

/-- {lit}`bin/java` in a runtime. -/
def javaExecutable (runtimeHome : Path) : Path :=
  runtimeHome.join (Path.ofStr (lit "bin/java"))

/-- {lit}`check_runtime_dir` -/
def checkRuntimeDir (runtimeHome : Path) : Except Error Path :=
  let javaExecutable := javaExecutable runtimeHome
  if os.pathExists javaExecutable = false then
    bail (lit "Java executable not found at ") javaExecutable
  else do
    let executable ← isExecutable os javaExecutable
    if executable then return runtimeHome
    else bail (lit "Not an executable file: ") javaExecutable

/-- {lit}`get_runtime_from_env_var` -/
def getRuntimeFromEnvVar (envVarName : Str) : Except Error Path := do
  let path ← os.getPathFromEnvVar envVarName true
  checkRuntimeDir os path

/-- {lit}`read_line`, with the end of the line. -/
def readLine (bytes : Bytes) : Option Str :=
  fromUtf8 ((rawLinesFrom [] bytes).head?.getD [])

namespace DefaultLaunchConfiguration

variable (config : DefaultLaunchConfiguration)

/-- {lit}`get_runtime_from_user_config` -/
def getRuntimeFromUserConfig : Except Error Path :=
  match os.read config.runtimeConfigPath with
  | none => bail (lit "Cannot open ") config.runtimeConfigPath
  | some bytes => do
      let configRaw ← context (lit "stream did not contain valid UTF-8") (readLine bytes)
      let path ← os.getPathFromUserConfig configRaw true
      checkRuntimeDir os path

/-- {lit}`get_bundled_runtime` -/
def getBundledRuntime : Except Error Path :=
  checkRuntimeDir os (config.ideHome.join (Path.ofStr (lit "jbr")))

/-- {lit}`locate_runtime` -/
def locateRuntime : Except Error Path :=
  match getRuntimeFromEnvVar os (config.envVarBaseName ++ lit "_JDK") with
  | .ok p => .ok p
  | .error _ =>
      match config.getRuntimeFromUserConfig os with
      | .ok p => .ok p
      | .error _ =>
          match config.getBundledRuntime os with
          | .ok p => .ok p
          | .error _ =>
              match getRuntimeFromEnvVar os (lit "JDK_HOME") with
              | .ok p => .ok p
              | .error _ =>
                  match getRuntimeFromEnvVar os (lit "JAVA_HOME") with
                  | .ok p => .ok p
                  | .error _ => .error ⟨lit "Runtime not found", none⟩

/-- {lit}`main_impl`, from the configuration to the start of the machine. -/
def prepare (debugMode : Bool) : Except Chain JvmLaunch :=
  match config.locateRuntime os with
  | .error error => .error [lit "Cannot find a runtime", error.text]
  | .ok jreHome =>
      match config.getFullVmOptions os.toOs with
      | .error error => .error [lit "Cannot collect JVM options", error.text]
      | .ok vmOptions =>
          .ok
            { jreHome, vmOptions, mainClass := config.launchInfo.mainClass, args := config.args
              debugMode }

end DefaultLaunchConfiguration

end Runtime

/-! ## Which runtime is taken -/

section Candidates

variable (os : RuntimeOs) (config : DefaultLaunchConfiguration)

/-- The program of a runtime is there and can be executed. -/
def usable (runtimeHome : Path) : Bool :=
  os.pathExists (javaExecutable runtimeHome) && os.isFile (javaExecutable runtimeHome) &&
    (os.mode (javaExecutable runtimeHome)).any (· &&& 0o111 != 0)

/-- The directory that a text names. -/
def directoryOf (text : Str) : Option Path :=
  if trim text ≠ [] ∧ os.isDir (Path.ofStr (trim text)) = true then some (Path.ofStr (trim text))
  else none

/-- The directories in which a runtime is looked for, in their order. -/
def DefaultLaunchConfiguration.runtimeDirs : List Path :=
  ([(os.envVar (config.envVarBaseName ++ lit "_JDK")).bind (directoryOf os),
    ((os.read config.runtimeConfigPath).bind readLine).bind (directoryOf os),
    some (config.ideHome.join (Path.ofStr (lit "jbr"))),
    (os.envVar (lit "JDK_HOME")).bind (directoryOf os),
    (os.envVar (lit "JAVA_HOME")).bind (directoryOf os)] : List (Option Path)).filterMap id

variable {os}

theorem checkRuntimeDir_toOption (runtimeHome : Path) :
    (checkRuntimeDir os runtimeHome).toOption = if usable os runtimeHome then some runtimeHome
      else none := by
  unfold checkRuntimeDir usable isExecutable
  dsimp only
  cases hexists : os.pathExists (javaExecutable runtimeHome) with
  | false => rfl
  | true =>
      cases hmode : os.mode (javaExecutable runtimeHome) with
      | none => simp [bail, bind, Except.bind, Except.toOption]
      | some mode =>
          simp only [Bool.true_eq_false, if_false, bind, Except.bind, Option.any_some, Bool.true_and]
          cases os.isFile (javaExecutable runtimeHome) && mode &&& 0o111 != 0 <;> rfl

theorem getPathFromUserConfig_toOption (text : Str) :
    (os.getPathFromUserConfig text true).toOption = directoryOf os text := by
  unfold Os.getPathFromUserConfig directoryOf
  dsimp only
  by_cases hempty : trim text = []
  · rw [if_pos hempty, if_neg fun h => h.1 hempty]
    rfl
  · rw [if_neg hempty]
    cases hdir : os.isDir (Path.ofStr (trim text)) with
    | false => simp [bail, Except.toOption]
    | true => simp [hempty, Except.toOption]

/-- A runtime in a directory that a text names. -/
theorem toOption_bind_checkRuntimeDir (x : Except Error Path) :
    (x >>= checkRuntimeDir os).toOption =
      x.toOption.bind fun dir => if usable os dir then some dir else none := by
  cases x with
  | error error => rfl
  | ok dir => exact checkRuntimeDir_toOption dir

theorem getRuntimeFromEnvVar_toOption (envVarName : Str) :
    (getRuntimeFromEnvVar os envVarName).toOption =
      ((os.envVar envVarName).bind (directoryOf os)).bind fun dir =>
        if usable os dir then some dir else none := by
  have hpath : (os.getPathFromEnvVar envVarName true).toOption =
      (os.envVar envVarName).bind (directoryOf os) := by
    unfold Os.getPathFromEnvVar
    cases hvar : os.envVar envVarName with
    | none => rfl
    | some text => exact getPathFromUserConfig_toOption text
  rw [getRuntimeFromEnvVar, toOption_bind_checkRuntimeDir, hpath]

theorem getRuntimeFromUserConfig_toOption :
    (config.getRuntimeFromUserConfig os).toOption =
      (((os.read config.runtimeConfigPath).bind readLine).bind (directoryOf os)).bind fun dir =>
        if usable os dir then some dir else none := by
  unfold DefaultLaunchConfiguration.getRuntimeFromUserConfig
  cases hread : os.read config.runtimeConfigPath with
  | none => rfl
  | some bytes =>
      cases hline : readLine bytes with
      | none => simp [hline, context, bind, Except.bind, Except.toOption]
      | some text =>
          have hcheck : ((os.getPathFromUserConfig text true >>= checkRuntimeDir os).toOption) =
              _ := toOption_bind_checkRuntimeDir _
          rw [getPathFromUserConfig_toOption text] at hcheck
          simpa [hline, context, bind, Except.bind] using hcheck

/-- The second of two attempts counts if the first one fails. -/
theorem toOption_orElse (x y : Except Error Path) :
    (match x with
      | .ok p => Except.ok p
      | .error _ => y).toOption = x.toOption.or y.toOption := by
  cases x <;> rfl

/-- The first directory that is there and usable. -/
theorem find?_filterMap_cons (usable : Path → Bool) (dir : Option Path)
    (dirs : List (Option Path)) :
    ((dir :: dirs).filterMap id).find? usable =
      (dir.bind fun dir => if usable dir then some dir else none).or
        ((dirs.filterMap id).find? usable) := by
  cases dir with
  | none => rfl
  | some dir =>
      have hcons : (some dir :: dirs).filterMap id = dir :: dirs.filterMap id := rfl
      rw [hcons, List.find?_cons, Option.bind_some]
      cases usable dir <;> rfl

/-- The first usable runtime is taken. -/
theorem locateRuntime_toOption :
    (config.locateRuntime os).toOption = (config.runtimeDirs os).find? (usable os) := by
  have hbundled : (config.getBundledRuntime os).toOption =
      (some (config.ideHome.join (Path.ofStr (lit "jbr")))).bind fun dir =>
        if usable os dir then some dir else none := checkRuntimeDir_toOption _
  have hnone : (.error ⟨lit "Runtime not found", none⟩ : Except Error Path).toOption = none := rfl
  unfold DefaultLaunchConfiguration.locateRuntime DefaultLaunchConfiguration.runtimeDirs
  rw [toOption_orElse, toOption_orElse, toOption_orElse, toOption_orElse, toOption_orElse, hnone,
    getRuntimeFromEnvVar_toOption, getRuntimeFromEnvVar_toOption, getRuntimeFromEnvVar_toOption,
    getRuntimeFromUserConfig_toOption, hbundled, find?_filterMap_cons, find?_filterMap_cons,
    find?_filterMap_cons, find?_filterMap_cons, find?_filterMap_cons]
  rfl

end Candidates

/-! ## The options of the machine -/

theorem cString_ok {bytes string : Bytes} :
    cString bytes = .ok string ↔ 0 ∉ bytes ∧ string = bytes := by
  unfold cString
  cases hfind : bytes.findIdx? (· = 0) with
  | none =>
      have hno : 0 ∉ bytes := by
        intro hzero
        simpa using List.findIdx?_eq_none_iff.mp hfind 0 hzero
      simp [hno, eq_comm]
  | some position =>
      have hzero : 0 ∈ bytes := by
        have hsome : (bytes.findIdx? (· = 0)).isSome = true := by rw [hfind]; rfl
        simpa using hsome
      simp [hzero]

/-- The byte that ends a string is in the bytes of its own character only. -/
theorem zero_mem_ofStr (text : Str) : 0 ∈ Path.ofStr text ↔ Char.ofNat 0 ∈ text := by
  unfold Path.ofStr
  rw [List.mem_flatMap]
  constructor
  · rintro ⟨c, hc, hbyte⟩
    have hzero : c = Char.ofNat 0 :=
      Char.toNat_inj.mp (toNat_of_mem_utf8EncodeChar (by decide) hbyte)
    rwa [← hzero]
  · intro hc
    exact ⟨_, hc, by decide⟩

/-- Options are passed byte by byte, or not at all. -/
theorem convertVmOptions_ok {vmOptions : List Str} {strings : List Bytes} :
    convertVmOptions vmOptions = .ok strings ↔
      (∀ opt ∈ vmOptions, Char.ofNat 0 ∉ opt) ∧ strings = vmOptions.map Path.ofStr := by
  induction vmOptions generalizing strings with
  | nil => simp [convertVmOptions, eq_comm]
  | cons opt vmOptions ih =>
      rw [convertVmOptions, List.forall_mem_cons, List.map_cons]
      constructor
      · intro h
        obtain ⟨string, hstring, h⟩ := bind_eq_ok.mp h
        obtain ⟨rest, hrest, h⟩ := bind_eq_ok.mp h
        cases h
        obtain ⟨hzero, rfl⟩ := cString_ok.mp hstring
        obtain ⟨hzeros, rfl⟩ := ih.mp hrest
        exact ⟨⟨fun hc => hzero ((zero_mem_ofStr opt).mpr hc), hzeros⟩, rfl⟩
      · rintro ⟨⟨hzero, hzeros⟩, rfl⟩
        have hstring := cString_ok.mpr ⟨fun hc => hzero ((zero_mem_ofStr opt).mp hc), rfl⟩
        rw [hstring, ih.mpr ⟨hzeros, rfl⟩]
        rfl

/-- The machine gets the two functions of the launcher, and the options behind them. -/
theorem getJvmInitArgs_ok {vmOptions : List Str} {args : List JavaVMOption} :
    getJvmInitArgs vmOptions = .ok args ↔
      (∀ opt ∈ vmOptions, Char.ofNat 0 ∉ opt) ∧
      args = ⟨Path.ofStr (lit "abort"), .abortHook⟩ ::
        ⟨Path.ofStr (lit "vfprintf"), .vfprintfHook⟩ ::
        vmOptions.map fun opt => ⟨Path.ofStr opt, .null⟩ := by
  unfold getJvmInitArgs
  constructor
  · intro h
    obtain ⟨strings, hstrings, h⟩ := bind_eq_ok.mp h
    cases h
    obtain ⟨hzeros, rfl⟩ := convertVmOptions_ok.mp hstrings
    exact ⟨hzeros, by rw [List.map_map]; rfl⟩
  · rintro ⟨hzeros, rfl⟩
    rw [convertVmOptions_ok.mpr ⟨hzeros, rfl⟩]
    simp [bind, Except.bind, pure, Except.pure]

/-- The command line of the launch is the last setting. -/
theorem systemProperty_allVmOptions (launch : JvmLaunch) (key : Str) :
    systemProperty key launch.allVmOptions =
      if key = lit "sun.java.command" then some launch.javaCommand
      else systemProperty key launch.vmOptions := by
  have hcommand : systemProperty key [jvmProperty (lit "sun.java.command") launch.javaCommand] =
      if lit "sun.java.command" = key then some launch.javaCommand else none :=
    systemProperty_jvmProperty key (by decide) _
  unfold JvmLaunch.allVmOptions systemProperty at *
  rw [valueOf_append, hcommand]
  by_cases hkey : key = lit "sun.java.command"
  · rw [if_pos hkey, if_pos hkey.symm, Option.some_or]
  · rw [if_neg hkey, if_neg (Ne.symm hkey), Option.none_or]

/-! ## From the configuration to the machine -/

theorem DefaultLaunchConfiguration.prepare_ok {config : DefaultLaunchConfiguration}
    {os : RuntimeOs} {debugMode : Bool} {launch : JvmLaunch}
    (h : config.prepare os debugMode = .ok launch) :
    ∃ jreHome vmOptions, config.locateRuntime os = .ok jreHome ∧
      config.getFullVmOptions os.toOs = .ok vmOptions ∧
      launch = ⟨jreHome, vmOptions, config.launchInfo.mainClass, config.args, debugMode⟩ := by
  unfold DefaultLaunchConfiguration.prepare at h
  cases hruntime : config.locateRuntime os with
  | error error =>
      rw [hruntime] at h
      cases h
  | ok jreHome =>
      cases hoptions : config.getFullVmOptions os.toOs with
      | error error =>
          rw [hruntime, hoptions] at h
          cases h
      | ok vmOptions =>
          rw [hruntime, hoptions] at h
          cases h
          exact ⟨jreHome, vmOptions, rfl, rfl, rfl⟩

/-- The option with the command line of the IDE. -/
def DefaultLaunchConfiguration.commandOption (config : DefaultLaunchConfiguration) : Str :=
  lit "-Dsun.java.command=" ++ (config.launchInfo.mainClass ++ config.args.flatMap (' ' :: ·))

/-- A machine is created once, from the library of the runtime, with the functions of the launcher,
the collected options and the command line of the IDE, none of them changed or cut off, and is told to
run the main class of the product with the arguments of the launcher. -/
structure MachineCreated (config : DefaultLaunchConfiguration) (os : RuntimeOs) (jreHome : Path)
    (vmOptions : List Str) (p : Process) : Prop where
  loaded : p.loads = [jreHome.join (Path.ofStr (lit "lib/server/libjvm.so"))]
  collected : config.getFullVmOptions os.toOs = .ok vmOptions
  whole : ∀ opt ∈ vmOptions, Char.ofNat 0 ∉ opt
  creation : p.creations = [⟨Path.ofStr (lit "abort"), .abortHook⟩ ::
    ⟨Path.ofStr (lit "vfprintf"), .vfprintfHook⟩ ::
    (vmOptions ++ [config.commandOption]).map fun opt => ⟨Path.ofStr opt, .null⟩]
  settings : ∀ key, systemProperty key (vmOptions ++ [config.commandOption]) =
    if key = lit "sun.java.command" then
      some (config.launchInfo.mainClass ++ config.args.flatMap (' ' :: ·))
    else systemProperty key vmOptions
  called : p.mainCalls = [] ∨
    p.mainCalls = [(replace (lit ".") (lit "/") config.launchInfo.mainClass, config.args)]

/-- In every run of a launch, either no machine was created and nothing was called, or a machine was
created from the first usable runtime, as the configuration says. -/
theorem machine_created {config : DefaultLaunchConfiguration} {os : RuntimeOs} {debugMode : Bool}
    {launch : JvmLaunch} {actions : List Action} {p : Process}
    (hprepare : config.prepare os debugMode = .ok launch)
    (hrun : Process.start.run launch actions = some p) :
    (config.runtimeDirs os).find? (usable os) = some launch.jreHome ∧
    (p.creations = [] ∧ p.mainCalls = [] ∨
      MachineCreated config os launch.jreHome launch.vmOptions p) := by
  obtain ⟨jreHome, vmOptions, hruntime, hoptions, rfl⟩ := config.prepare_ok hprepare
  have hinv := Process.invariant_start.run hrun
  obtain ⟨hcreations, hcalls⟩ := hinv.calls
  constructor
  · rw [← locateRuntime_toOption, hruntime]
    rfl
  · rcases hcreations with hnone | ⟨args, hargs, hcreated⟩
    · refine Or.inl ⟨hnone, ?_⟩
      rcases hcalls with hcalls | ⟨⟨args, -, hcreated⟩, -⟩
      · exact hcalls
      · rw [hnone] at hcreated
        cases hcreated
    · obtain ⟨hzeros, rfl⟩ := getJvmInitArgs_ok.mp hargs
      refine Or.inr ⟨hinv.loads ?_, hoptions, ?_, hcreated, ?_, ?_⟩
      · rw [hcreated]
        exact List.cons_ne_nil _ _
      · intro opt hopt
        exact hzeros opt (List.mem_append_left _ hopt)
      · exact systemProperty_allVmOptions _
      · rcases hcalls with hcalls | ⟨-, hcalls⟩
        · exact Or.inl hcalls
        · exact Or.inr hcalls

/-- The product comes with a runtime. -/
def smallRuntimeOs : RuntimeOs where
  toOs :=
    { smallOs (lit "-Xms128m\n") (lit "-Dk=user\n") with
      isFile := fun path => path = Path.ofStr (lit "/opt/idea.vmoptions") ∨
        path = Path.ofStr (lit "/opt/idea/jbr/bin/java") }
  pathExists path := path = Path.ofStr (lit "/opt/idea/jbr/bin/java")
  mode _ := some 0o755

theorem machine_created_small :
    ∃ launch p, smallLaunch.prepare smallRuntimeOs true = .ok launch ∧
      Process.start.run launch Process.smallSuccess = some p ∧
      launch.jreHome = Path.ofStr (lit "/opt/idea/jbr") ∧
      MachineCreated smallLaunch smallRuntimeOs launch.jreHome launch.vmOptions p := by
  have hok : (smallLaunch.prepare smallRuntimeOs true).toBool = true := by
    decide +kernel
  have hcreated : ((smallLaunch.prepare smallRuntimeOs true).toOption.bind fun launch =>
      Process.start.run launch Process.smallSuccess).any
        (fun p => decide (p.creations ≠ [])) = true := by
    decide +kernel
  have hjbr : (smallLaunch.runtimeDirs smallRuntimeOs).find? (usable smallRuntimeOs) =
      some (Path.ofStr (lit "/opt/idea/jbr")) := by
    decide +kernel
  cases hprepare : smallLaunch.prepare smallRuntimeOs true with
  | error chain =>
      rw [hprepare] at hok
      cases hok
  | ok launch =>
      rw [hprepare, Except.toOption, Option.bind_some] at hcreated
      obtain ⟨p, hrun, hsome⟩ := (Option.any_eq_true _ _).mp hcreated
      obtain ⟨hruntime, hmachine⟩ := machine_created hprepare hrun
      refine ⟨launch, p, rfl, hrun, Option.some.inj (hruntime.symm.trans hjbr), ?_⟩
      rcases hmachine with ⟨hnone, -⟩ | hmachine
      · exact absurd hnone (of_decide_eq_true hsome)
      · exact hmachine

end Launcher
end IdeMultiarch
