import IdeMultiarch.Launcher.Overrides

/-!
# Launcher - the remote development mode

In this mode the launcher takes the first argument for a command and translates it into one that
the IDE knows.  The options of the virtual machine are those of the standard mode, with a limit on
the memory where they have none.

Main results:

- Theorem {lit}`percentage_lost`: the limit takes the place of the percentage of the user.
- Theorem {lit}`passed_through_iff`: which arguments are handed to the IDE as they should be.
-/

namespace IdeMultiarch
namespace Launcher

open Library.Results (bind_eq_ok exists_of_succeeds succeeds)
open Library.Text (replace splitOnce)

/-! ## Variables of the environment -/

/-- {lit}`parse_bool_env_var_optional` -/
def parseBoolEnvVarOptional (os : Os) (varName : Str) : Except Error (Option Bool) :=
  match os.envVar varName with
  | none => .ok none
  | some s =>
      if s = lit "0" ∨ s.map Char.toLower = lit "false" then .ok (some false)
      else if s = lit "1" ∨ s.map Char.toLower = lit "true" then .ok (some true)
      else if s ≠ [] then
        .error ⟨lit "Unsupported value '" ++ s ++ lit "' for '" ++ varName ++
          lit "' environment variable", none⟩
      else .ok none

/-- {lit}`parse_bool_env_var` -/
def parseBoolEnvVar (os : Os) (varName : Str) (default : Bool) : Except Error Bool := do
  let value ← parseBoolEnvVarOptional os varName
  return value.getD default

/-- {lit}`is_wsl2` -/
def isWsl2 (os : Os) : Bool :=
  match (os.read (Path.ofStr (lit "/proc/sys/kernel/osrelease"))).bind fromUtf8 with
  | none => false
  | some text => (splitOnce (lit "WSL2") text).isSome

/-- The condition for the option of {lit}`get_vm_options` on the network. -/
def prefersIpv4Stack (os : Os) : Except Error Bool :=
  if isWsl2 os then do
    let allowIpv6 ← parseBoolEnvVar os (lit "REMOTE_DEV_SERVER_ALLOW_IPV6_ON_WSL2") false
    return !allowIpv6
  else .ok false

/-! ## Commands -/

/-- {lit}`IjStarterCommand` -/
structure IjStarterCommand where
  ijCommand : Str
  isProjectPathRequired : Bool
  isArgumentsRequired : Bool
deriving DecidableEq, Repr

/-- {lit}`get_known_intellij_commands` -/
def getKnownIntellijCommands : List (Str × IjStarterCommand) :=
  [(lit "run", ⟨lit "remoteDevHost", false, true⟩),
    (lit "status", ⟨lit "remoteDevStatus", false, false⟩),
    (lit "cwmHostStatus", ⟨lit "cwmHostStatus", false, false⟩),
    (lit "remoteDevStatus", ⟨lit "remoteDevStatus", false, false⟩),
    (lit "dumpLaunchParameters", ⟨lit "dump-launch-parameters", false, false⟩),
    (lit "printEnvVar", ⟨lit "print-env-var", false, true⟩),
    (lit "warmup", ⟨lit "warmup", true, true⟩),
    (lit "warm-up", ⟨lit "warmup", true, true⟩),
    (lit "invalidate-caches", ⟨lit "invalidateCaches", false, false⟩),
    (lit "installPlugins", ⟨lit "installPlugins", false, true⟩),
    (lit "stop", ⟨lit "exit", false, false⟩),
    (lit "registerBackendLocationForGateway",
      ⟨lit "registerBackendLocationForGateway", false, false⟩),
    (lit "help", ⟨lit "", false, false⟩),
    (lit "serverMode", ⟨lit "serverMode", false, false⟩)]

/-- Why no configuration is made: an error, or the end of the launcher. -/
inductive Stop where
  | failed (error : Error)
  | exited (code : Nat)
deriving DecidableEq, Repr

/-- Whether an argument asks for help. -/
def asksForHelp (arg : Str) : Bool :=
  arg == lit "-h" || arg == lit "--help"

section

variable (pathExists : Path → Bool)

/-- {lit}`get_project_path` -/
def getProjectPath (argument : Str) : Except Stop Path :=
  let projectPath := Path.ofStr argument
  if pathExists projectPath then .ok projectPath
  else .error (.failed ⟨lit "Project path does not exist: " ++ argument, none⟩)

/-- The arguments for the IDE: {lit}`parse_remote_dev_args` after the question for help. -/
def ijArgs (command : IjStarterCommand) (rest : List Str) :
    Option Path → Except Stop (Option Path × List Str)
  | none =>
      if command.isProjectPathRequired then
        .error (.failed ⟨lit "Project path is not specified", none⟩)
      else .ok (none, command.ijCommand :: rest)
  | some projectPath =>
      let projectPathString := projectPath.toStringLossy
      let commandArguments := rest.drop 1
      if command.ijCommand = lit "warmup" then
        .ok (some projectPath,
          [command.ijCommand, lit "--project-dir=" ++ projectPathString] ++ commandArguments)
      else .ok (some projectPath, [command.ijCommand, projectPathString] ++ commandArguments)

/-- {lit}`parse_remote_dev_args` for a known command. -/
def parseCommandArgs (exe : Str) (command : IjStarterCommand) :
    List Str → Except Stop (Option Path × List Str)
  | [] => ijArgs command [] none
  | arg :: rest =>
      if asksForHelp arg then .ok (none, [exe, lit "remoteDevShowHelp", command.ijCommand])
      else if command.ijCommand = lit "warmup" then do
        let projectPath ← getProjectPath pathExists arg
        ijArgs command (arg :: rest) (some projectPath)
      else ijArgs command (arg :: rest) none

/-- {lit}`parse_remote_dev_args` -/
def parseRemoteDevArgs : List Str → Except Stop (Option Path × List Str)
  | exe :: remoteDevStarterCommand :: rest =>
      match getKnownIntellijCommands.lookup remoteDevStarterCommand with
      | none => .error (.failed ⟨lit "Unknown command: " ++ remoteDevStarterCommand, none⟩)
      | some ijStarterCommand =>
          if remoteDevStarterCommand = lit "help" then .error (.exited 0)
          else parseCommandArgs pathExists exe ijStarterCommand rest
  | _ => .error (.failed ⟨lit "Starter command is not specified", none⟩)

end

/-! ## The configuration -/

/-- A limit on the memory where there is none: {lit}`has_xmx` of {lit}`get_vm_options`. -/
def withXmx (vmOptions : List Str) : List Str :=
  if vmOptions.any fun opt => startsWith opt (lit "-Xmx") then vmOptions
  else vmOptions ++ [lit "-Xmx2048m"]

/-- The end of {lit}`get_vm_options`: commands about the status are not debugged. -/
def dropDebugOptions (command : Option Str) (vmOptions : List Str) : List Str :=
  match command with
  | none => vmOptions
  | some command =>
      if command = lit "remoteDevStatus" ∨ command = lit "cwmHostStatus" then
        vmOptions.filter fun opt => !startsWith opt (lit "-agentlib:jdwp=")
      else vmOptions

/-- {lit}`RemoteDevLaunchConfiguration` -/
structure RemoteDevLaunchConfiguration where
  default : DefaultLaunchConfiguration
  startedViaRemoteDevLauncher : Bool
deriving DecidableEq, Repr

namespace RemoteDevLaunchConfiguration

/-- {lit}`get_args` -/
def getArgs (config : RemoteDevLaunchConfiguration) : List Str :=
  config.default.args

/-- {lit}`RemoteDevLaunchConfiguration::new`, when the product was found and its descriptor read. -/
def new (pathExists : Path → Bool) (ideHome productInfoFile configHome cachesHome : Path)
    (productInfo : ProductInfo) (args : List Str) (startedViaRemoteDevLauncher : Bool) :
    Except Stop RemoteDevLaunchConfiguration := do
  let (_, defaultCfgArgs) ← parseRemoteDevArgs pathExists args
  match DefaultLaunchConfiguration.new ideHome productInfoFile configHome cachesHome productInfo
      defaultCfgArgs with
  | .error error => .error (.failed error)
  | .ok default => return { default, startedViaRemoteDevLauncher }

/-- {lit}`get_vm_options` -/
def getVmOptions (config : RemoteDevLaunchConfiguration) (os : Os) : Except Error (List Str) := do
  let vmOptions ← config.default.getVmOptions os
  let vmOptions := withXmx vmOptions
  let preferIpv4Stack ← prefersIpv4Stack os
  let vmOptions := vmOptions ++
    if preferIpv4Stack then [lit "-Djava.net.preferIPv4Stack=true"] else []
  return dropDebugOptions config.getArgs.head? vmOptions

end RemoteDevLaunchConfiguration

/-! ## The limit on the memory -/

/-- No option limits the memory. -/
def NoMaximum (vmOptions : List Str) : Prop :=
  ∀ opt ∈ vmOptions, startsWith opt (lit "-Xmx") = false

instance (vmOptions : List Str) : Decidable (NoMaximum vmOptions) :=
  inferInstanceAs (Decidable (∀ opt ∈ vmOptions, _))

/-- The front of an option, up to the first four characters, if no macro begins there. -/
theorem startsWith_of_expand {macros : Macros} {raw : Str} (hraw : '$' ∉ raw.take 4)
    (h : startsWith (macros.expand raw) (lit "-Xmx") = true) :
    startsWith raw (lit "-Xmx") = true := by
  have hexpand : macros.expand raw = raw.take 4 ++ macros.expand (raw.drop 4) := by
    rw [← macros.expand_append hraw, List.take_append_drop]
  unfold startsWith at h ⊢
  rw [List.isPrefixOf_iff_prefix] at h ⊢
  have hlength : (raw.take 4).length = 4 := by
    by_contra hshort
    have hdrop : raw.drop 4 = [] := by
      rw [List.drop_eq_nil_iff]
      rw [List.length_take] at hshort
      omega
    have hnothing : macros.expand [] = [] := rfl
    rw [hexpand, hdrop, hnothing, List.append_nil] at h
    have hle := h.length_le
    have hfour : (lit "-Xmx").length = 4 := rfl
    rw [List.length_take] at hshort hle
    omega
  have hfront : lit "-Xmx" = raw.take 4 := by
    rw [hexpand] at h
    have hle : (lit "-Xmx").length ≤ (raw.take 4).length := hlength.ge
    exact (List.prefix_of_prefix_length_le h (List.prefix_append _ _) hle).eq_of_length
      hlength.symm
  rw [hfront]
  exact List.take_prefix 4 raw

/-- The launcher's own options limit no memory. -/
theorem noMaximum_errorFileOptions (config : DefaultLaunchConfiguration) (userHomePath : Str) :
    NoMaximum (config.errorFileOptions userHomePath) := by
  intro opt hopt
  unfold DefaultLaunchConfiguration.errorFileOptions at hopt
  rcases List.mem_pair.mp hopt with rfl | rfl <;> rfl

theorem noMaximum_vmOptionsFileMarkers (path : Str) (corrupted : Bool) :
    NoMaximum (vmOptionsFileMarkers path corrupted) := by
  intro opt hopt
  unfold vmOptionsFileMarkers at hopt
  rcases List.mem_cons.mp hopt with rfl | hopt
  · rfl
  · cases corrupted with
    | false => cases hopt
    | true =>
        cases List.mem_singleton.mp hopt
        rfl

/-- A percentage of the user drops the limits of the distribution. -/
theorem noMaximum_notOverridden {user : List Str} (hsets : user.any setsMaximalPercentage = true)
    (dist : List Str) : NoMaximum (notOverridden dist user) := by
  intro opt hopt
  have hkept := (List.mem_filter.mp hopt).2
  rw [dropped_iff, hsets] at hkept
  cases h : startsWith opt (lit "-Xmx") with
  | false => rfl
  | true => simp [h] at hkept

variable {config : RemoteDevLaunchConfiguration} {os : Os} {dist user : List Str}
  {corrupted : Bool} {path : Str}

/-- In the standard mode only a macro can put a limit in the place of the percentage. -/
theorem maximum_from_macro {config : DefaultLaunchConfiguration}
    (hfiles : config.ReadsFiles os dist user corrupted path)
    (hsets : user.any setsMaximalPercentage = true) (huser : NoMaximum user)
    (hadditional : NoMaximum config.launchInfo.additionalJvmArguments) {result : List Str}
    (hresult : config.getVmOptions os = .ok result) :
    ∀ opt ∈ result, startsWith opt (lit "-Xmx") = true →
      ∃ macros raw, config.ReadsMacros os macros ∧ '$' ∈ raw.take 4 ∧ opt = macros.expand raw := by
  obtain ⟨macros, dist', user', corrupted', path', hmacros, hfiles', rfl⟩ :=
    DefaultLaunchConfiguration.getVmOptions_ok hresult
  have huser' : user' = user := by
    obtain ⟨file, hread, -⟩ := hfiles.user
    obtain ⟨file', hread', -⟩ := hfiles'.user
    rw [hread] at hread'
    cases hread'
    rfl
  subst huser'
  intro opt hopt hmaximum
  rcases List.mem_append.mp hopt with hopt | hopt
  · obtain ⟨raw, hraw, rfl⟩ := List.mem_map.mp hopt
    have hnone : startsWith raw (lit "-Xmx") = false := by
      simp only [List.mem_append] at hraw
      rcases hraw with (((hraw | hraw) | hraw) | hraw) | hraw
      · exact noMaximum_errorFileOptions config _ raw hraw
      · exact noMaximum_notOverridden hsets dist' raw hraw
      · exact huser raw hraw
      · exact noMaximum_vmOptionsFileMarkers path' corrupted' raw hraw
      · exact hadditional raw hraw
    refine ⟨macros, raw, hmacros, ?_, rfl⟩
    by_contra hplain
    rw [startsWith_of_expand hplain hmaximum] at hnone
    cases hnone
  · cases List.mem_singleton.mp hopt
    cases hmaximum

theorem exists_maximum_withXmx (vmOptions : List Str) :
    ∃ opt ∈ withXmx vmOptions, startsWith opt (lit "-Xmx") = true := by
  unfold withXmx
  split
  next hany => exact List.any_eq_true.mp hany
  next => exact ⟨lit "-Xmx2048m", by simp, rfl⟩

/-- A limit is none of the options that are dropped at the end. -/
theorem mem_dropDebugOptions {opt : Str} (hmaximum : startsWith opt (lit "-Xmx") = true)
    (command : Option Str) {vmOptions : List Str} (hopt : opt ∈ vmOptions) :
    opt ∈ dropDebugOptions command vmOptions := by
  have hkept : startsWith opt (lit "-agentlib:jdwp=") = false := by
    obtain ⟨rest, rfl⟩ := List.isPrefixOf_iff_prefix.mp hmaximum
    rfl
  unfold dropDebugOptions
  split
  · exact hopt
  · split
    · exact List.mem_filter.mpr ⟨hopt, by rw [hkept]; rfl⟩
    · exact hopt

/-- The options of the remote mode always limit the memory. -/
theorem exists_maximum {result : List Str} (hresult : config.getVmOptions os = .ok result) :
    ∃ opt ∈ result, startsWith opt (lit "-Xmx") = true := by
  obtain ⟨vmOptions, -, hresult⟩ := bind_eq_ok.mp hresult
  obtain ⟨preferIpv4Stack, -, hresult⟩ := bind_eq_ok.mp hresult
  cases hresult
  obtain ⟨opt, hopt, hmaximum⟩ := exists_maximum_withXmx vmOptions
  exact ⟨opt, mem_dropDebugOptions hmaximum _ (List.mem_append_left _ hopt), hmaximum⟩

/-- A percentage of the user never survives in the remote mode, although the standard mode keeps
it unless a macro stands at the front of an option. -/
theorem percentage_lost (hfiles : config.default.ReadsFiles os dist user corrupted path)
    (hsets : user.any setsMaximalPercentage = true) (huser : NoMaximum user)
    (hadditional : NoMaximum config.default.launchInfo.additionalJvmArguments) {result : List Str}
    (hresult : config.getVmOptions os = .ok result) :
    ¬ NoMaximum result ∧
      ∃ options, config.default.getVmOptions os = .ok options ∧
        ∀ opt ∈ options, startsWith opt (lit "-Xmx") = true →
          ∃ macros raw, config.default.ReadsMacros os macros ∧ '$' ∈ raw.take 4 ∧
            opt = macros.expand raw := by
  constructor
  · intro hnone
    obtain ⟨opt, hopt, hmaximum⟩ := exists_maximum hresult
    rw [hnone opt hopt] at hmaximum
    cases hmaximum
  · obtain ⟨options, hoptions, -⟩ := bind_eq_ok.mp hresult
    exact ⟨options, hoptions, maximum_from_macro hfiles hsets huser hadditional hoptions⟩

/-- A small launch in the remote mode. -/
def smallRemoteDev : RemoteDevLaunchConfiguration where
  default := { smallLaunch with args := [lit "remoteDevStatus"] }
  startedViaRemoteDevLauncher := true

/-- The user sets a percentage, and the distribution has a limit. -/
def smallPercentageOs : Os :=
  smallOs (lit "-Xmx256m\n") (lit "-XX:MaxRAMPercentage=50\n")

theorem smallRemoteDev_readsFiles :
    smallRemoteDev.default.ReadsFiles smallPercentageOs [lit "-Xmx256m"]
      [lit "-XX:MaxRAMPercentage=50"] false (lit "/opt/idea.vmoptions") :=
  ⟨by decide +kernel, Path.ofStr (lit "/opt/idea.vmoptions"), by decide +kernel, by decide +kernel⟩

theorem percentage_lost_small :
    ¬ NoMaximum ((smallRemoteDev.getVmOptions smallPercentageOs).toOption.getD []) ∧
      ∃ options, smallRemoteDev.default.getVmOptions smallPercentageOs = .ok options ∧
        ∀ opt ∈ options, startsWith opt (lit "-Xmx") = true →
          ∃ macros raw, smallRemoteDev.default.ReadsMacros smallPercentageOs macros ∧
            '$' ∈ raw.take 4 ∧ opt = macros.expand raw :=
  percentage_lost smallRemoteDev_readsFiles (by decide +kernel) (by decide +kernel)
    (by decide +kernel) (by decide +kernel)

/-- The limit of the remote mode comes back after the percentage has dropped another. -/
theorem limit_added_again :
    ¬ ∀ (config : RemoteDevLaunchConfiguration) (os : Os) (dist user : List Str)
        (corrupted : Bool) (path : Str),
      config.default.ReadsFiles os dist user corrupted path →
        user.any setsMaximalPercentage = true → NoMaximum user →
          NoMaximum config.default.launchInfo.additionalJvmArguments →
            (∀ result, config.default.getVmOptions os = .ok result → NoMaximum result) ∧
              ∀ result, config.getVmOptions os = .ok result → NoMaximum result := by
  intro h
  obtain ⟨-, hremote⟩ := h smallRemoteDev smallPercentageOs _ _ _ _ smallRemoteDev_readsFiles
    (by decide +kernel) (by decide +kernel) (by decide +kernel)
  have hseen : succeeds (smallRemoteDev.getVmOptions smallPercentageOs)
      (fun result => !decide (NoMaximum result)) = true := by decide +kernel
  obtain ⟨result, hproduced, hlimit⟩ := exists_of_succeeds hseen
  have hnone := hremote result hproduced
  simp [hnone] at hlimit

/-! ## The arguments -/

/-- The arguments that the IDE should get for a command. -/
def passedArgs (command : IjStarterCommand) : List Str → List Str
  | [] => [command.ijCommand]
  | arg :: rest =>
      if asksForHelp arg then [lit "remoteDevShowHelp", command.ijCommand]
      else if command.ijCommand = lit "warmup" then
        command.ijCommand :: (lit "--project-dir=" ++ arg) :: rest
      else command.ijCommand :: arg :: rest

/-- Whenever the arguments are accepted, the IDE gets those that it should. -/
def PassedThrough (pathExists : Path → Bool) (exe cmd : Str) (rest : List Str)
    (command : IjStarterCommand) : Prop :=
  ∀ projectPath args, parseRemoteDevArgs pathExists (exe :: cmd :: rest) = .ok (projectPath, args) →
    args = passedArgs command rest

theorem args_of_ijArgs_none {command : IjStarterCommand} {rest args : List Str}
    {projectPath : Option Path} (h : ijArgs command rest none = .ok (projectPath, args)) :
    args = command.ijCommand :: rest := by
  rw [ijArgs] at h
  split at h
  next => cases h
  next =>
    cases h
    rfl

/-- The path that was looked at is the one on the command line. -/
theorem args_of_ijArgs_some {command : IjStarterCommand} (hwarmup : command.ijCommand = lit "warmup")
    {arg : Str} {rest args : List Str} {projectPath : Option Path}
    (h : ijArgs command (arg :: rest) (some (Path.ofStr arg)) = .ok (projectPath, args)) :
    args = command.ijCommand :: (lit "--project-dir=" ++ arg) :: rest := by
  rw [ijArgs, if_pos hwarmup] at h
  cases h
  simp [Path.toStringLossy]

/-- The arguments of a known command are passed through exactly when they do not begin with a
question for help, for which the name of the launcher is handed on too. -/
theorem passed_through_iff (pathExists : Path → Bool) (exe : Str) {cmd : Str} (rest : List Str)
    {command : IjStarterCommand} (hknown : getKnownIntellijCommands.lookup cmd = some command)
    (hcmd : cmd ≠ lit "help") :
    PassedThrough pathExists exe cmd rest command ↔ rest.head?.any asksForHelp = false := by
  have hparse : parseRemoteDevArgs pathExists (exe :: cmd :: rest) =
      parseCommandArgs pathExists exe command rest := by
    simp [parseRemoteDevArgs, hknown, hcmd]
  unfold PassedThrough
  rw [hparse]
  cases rest with
  | nil => exact iff_of_true (fun _ _ hargs => args_of_ijArgs_none hargs) rfl
  | cons arg rest =>
      rw [parseCommandArgs, passedArgs]
      cases hhelp : asksForHelp arg with
      | true =>
          refine iff_of_false (fun h => ?_) (by simp [hhelp])
          have hlonger := congrArg List.length (h _ _ rfl)
          simp at hlonger
      | false =>
          refine iff_of_true (fun projectPath args hargs => ?_) (by simp [hhelp])
          simp only [Bool.false_eq_true, if_false] at hargs ⊢
          split at hargs
          next hwarmup =>
            obtain ⟨path, hpath, hargs⟩ := bind_eq_ok.mp hargs
            rw [getProjectPath] at hpath
            split at hpath
            next =>
              cases hpath
              rw [if_pos hwarmup, args_of_ijArgs_some hwarmup hargs]
            next => cases hpath
          next hwarmup => rw [if_neg hwarmup, args_of_ijArgs_none hargs]

/-- A project is warmed up. -/
theorem passed_through_iff_small :
    PassedThrough (fun _ => true) (lit "idea") (lit "warm-up") [lit "/project", lit "-v"]
        ⟨lit "warmup", true, true⟩ ↔
      [lit "/project", lit "-v"].head?.any asksForHelp = false :=
  passed_through_iff _ _ _ (by decide +kernel) (by decide +kernel)

/-- The name of the launcher stands before the command that shows the help. -/
theorem launcher_name_passed :
    ¬ ∀ (pathExists : Path → Bool) (exe cmd : Str) (rest : List Str) (command : IjStarterCommand),
      getKnownIntellijCommands.lookup cmd = some command → cmd ≠ lit "help" →
        PassedThrough pathExists exe cmd rest command := by
  intro h
  have hpassed := h (fun _ => true) (lit "idea") (lit "run") [lit "--help"] _ rfl (by decide +kernel)
    none [lit "idea", lit "remoteDevShowHelp", lit "remoteDevHost"] (by decide +kernel)
  revert hpassed
  decide +kernel

end Launcher
end IdeMultiarch
