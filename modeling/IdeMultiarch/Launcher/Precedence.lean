import IdeMultiarch.Launcher.VmOptions
import IdeMultiarch.Library.Settings

/-!
# Launcher - which setting of a system property wins

The virtual machine takes the last setting of a system property.  The order in which the launcher
puts the options together decides which source that is.

Main results:

- Theorem {lit}`systemProperty_notOverridden`: no setting of the distribution is dropped.
- Theorem {lit}`systemProperty_vmOptions`: the sources in the order of their precedence.
- Theorem {lit}`system_property_precedence`: the same for the whole list.
-/

namespace IdeMultiarch
namespace Launcher

open Library.Results (bind_eq_ok)
open Library.Settings
open Library.Text (splitOnce splitOnce_append)

/-! ## System properties -/

/-- The key and the value of {lit}`-Dkey=value`. -/
def property (vmOption : Str) : Option (Str × Str) :=
  if startsWith vmOption (lit "-D") then splitOnce ['='] (vmOption.drop 2) else none

/-- The value that the virtual machine sees. -/
def systemProperty (key : Str) (vmOptions : List Str) : Option Str :=
  valueOf property key vmOptions

/-- An option of the virtual machine itself sets no property. -/
theorem property_of_X (rest : Str) : property (lit "-X" ++ rest) = none :=
  rfl

/-- The property that the launcher sets. -/
theorem property_jvmProperty {name : Str} (hname : '=' ∉ name) (value : Str) :
    property (jvmProperty name value) = some (name, value) := by
  have hstart : startsWith (jvmProperty name value) (lit "-D") = true := by
    simp [startsWith, jvmProperty, lit, List.isPrefixOf]
  have hdrop : (jvmProperty name value).drop 2 = name ++ '=' :: value := rfl
  rw [property, if_pos hstart, hdrop, splitOnce_append hname]

/-- A property set by the launcher has its value. -/
theorem systemProperty_jvmProperty (key : Str) {name : Str} (hname : '=' ∉ name) (value : Str) :
    systemProperty key [jvmProperty name value] = if name = key then some value else none := by
  simp [systemProperty, given, property_jvmProperty hname]

/-- The macros in an option of the launcher are in its value. -/
theorem expand_jvmProperty (macros : Macros) {name : Str} (hname : '$' ∉ name) (value : Str) :
    macros.expand (jvmProperty name value) = jvmProperty name (macros.expand value) := by
  have hfront : '$' ∉ lit "-D" ++ (name ++ ['=']) := by
    simp [lit, hname]
  have hvalue := macros.expand_append hfront value
  simpa [jvmProperty] using hvalue

/-- An option of the virtual machine itself is one with its macros replaced. -/
theorem property_expand_of_X (macros : Macros) (rest : Str) :
    property (macros.expand (lit "-X" ++ rest)) = none := by
  have hfront : '$' ∉ lit "-X" := by decide
  rw [macros.expand_append hfront, property_of_X]

/-! ## Dropped options -/

/-- A filter of the user drops options of the virtual machine itself. -/
theorem startsWith_X_of_filter {line l : Str} {filter : Str → Bool} (hfilter : filter ∈ filtersOf line)
    (h : filter l = true) : lit "-X" <+: l := by
  have hprefix : ∀ {start : Str}, lit "-X" <+: start → startsWith l start = true → lit "-X" <+: l :=
    fun hstart hl => hstart.trans (List.isPrefixOf_iff_prefix.mp hl)
  simp only [filtersOf, List.mem_append, List.mem_ite_nil_right, List.mem_singleton] at hfilter
  rcases hfilter with (⟨-, rfl⟩ | ⟨-, rfl⟩) | ⟨-, rfl⟩
  · exact hprefix ⟨lit "X:+", rfl⟩ ((Bool.and_eq_true _ _).mp h).1
  · exact hprefix ⟨lit "ms", rfl⟩ h
  · exact hprefix ⟨lit "mx", rfl⟩ h

/-- An option that the user's options drop is one of the virtual machine itself. -/
theorem startsWith_X_of_dropped {user : List Str} {l : Str}
    (h : ((user.flatMap filtersOf).any fun filter => filter l) = true) : lit "-X" <+: l := by
  obtain ⟨filter, hmem, hfilter⟩ := List.any_eq_true.mp h
  obtain ⟨line, -, hline⟩ := List.mem_flatMap.mp hmem
  exact startsWith_X_of_filter hline hfilter

/-- No setting of the distribution is dropped. -/
theorem systemProperty_notOverridden (macros : Macros) (key : Str) (dist user : List Str) :
    systemProperty key ((notOverridden dist user).map macros.expand) =
      systemProperty key (dist.map macros.expand) := by
  unfold systemProperty notOverridden
  rw [valueOf_map, valueOf_map]
  apply valueOf_filter
  intro l _ hdropped
  have hany : ((user.flatMap filtersOf).any fun filter => filter l) = true := by
    simpa using hdropped
  obtain ⟨rest, rfl⟩ := startsWith_X_of_dropped hany
  exact property_expand_of_X macros rest

/-! ## The sources -/

/-- The properties that nothing overrides. -/
def finalProperty (classPath : List Str) (propertiesFile : Option Str) (key : Str) : Option Str :=
  if key = lit "ide.native.launcher" then some (lit "true")
  else if key = lit "java.class.path" then some ([':'].intercalate classPath)
  else if key = lit "idea.properties.file" then propertiesFile
  else none

/-- The properties that tell where the options of the user came from. -/
def vmOptionsFileProperty (path : Str) (corrupted : Bool) (key : Str) : Option Str :=
  if key = lit "jb.vmOptionsFile" then some path
  else if key = lit "jb.vmOptionsFile.corrupted" ∧ corrupted = true then some (lit "true")
  else none

/-- The markers set the properties that tell where the options of the user came from. -/
theorem systemProperty_markers (macros : Macros) (key path : Str) (corrupted : Bool) :
    systemProperty key ((vmOptionsFileMarkers path corrupted).map macros.expand) =
      vmOptionsFileProperty (macros.expand path) corrupted key := by
  have hfile : systemProperty key [jvmProperty (lit "jb.vmOptionsFile") (macros.expand path)] =
      if lit "jb.vmOptionsFile" = key then some (macros.expand path) else none :=
    systemProperty_jvmProperty key (by decide) _
  have hmark : systemProperty key [jvmProperty (lit "jb.vmOptionsFile.corrupted") (lit "true")] =
      if lit "jb.vmOptionsFile.corrupted" = key then some (lit "true") else none :=
    systemProperty_jvmProperty key (by decide) _
  have hplain : '$' ∉ lit "true" := by decide
  have htrue : macros.expand (lit "true") = lit "true" := macros.expand_append hplain []
  have hkeys : lit "jb.vmOptionsFile" ≠ lit "jb.vmOptionsFile.corrupted" := by decide
  unfold vmOptionsFileMarkers
  rw [List.map_cons, expand_jvmProperty macros (by decide), ← List.singleton_append]
  cases corrupted with
  | false =>
      rw [if_neg Bool.false_ne_true, List.map_nil, List.append_nil, hfile]
      simp [vmOptionsFileProperty, eq_comm]
  | true =>
      rw [if_pos rfl, List.map_singleton, expand_jvmProperty macros (by decide), htrue]
      unfold systemProperty at hfile hmark ⊢
      rw [valueOf_append, hfile, hmark]
      unfold vmOptionsFileProperty
      by_cases hkey : key = lit "jb.vmOptionsFile"
      · subst hkey
        simp [hkeys.symm]
      · by_cases hkey' : key = lit "jb.vmOptionsFile.corrupted"
        · subst hkey'
          simp [hkeys, hkeys.symm]
        · simp [hkey, hkey', eq_comm]

/-- The sources of the configuration in the order of their precedence. -/
theorem systemProperty_vmOptions (macros : Macros) (errors dist user additional : List Str)
    (path : Str) (corrupted : Bool) (key : Str)
    (herrors : ∀ vmOption ∈ errors, lit "-X" <+: vmOption) :
    systemProperty key ((errors ++ notOverridden dist user ++ user ++
        vmOptionsFileMarkers path corrupted ++ additional).map macros.expand) =
      (systemProperty key (additional.map macros.expand)).or
        ((vmOptionsFileProperty (macros.expand path) corrupted key).or
          ((systemProperty key (user.map macros.expand)).or
            (systemProperty key (dist.map macros.expand)))) := by
  have hnone : systemProperty key (errors.map macros.expand) = none := by
    unfold systemProperty
    rw [valueOf_map]
    apply valueOf_eq_none
    intro vmOption hmem
    obtain ⟨rest, rfl⟩ := herrors vmOption hmem
    exact property_expand_of_X macros rest
  rw [← systemProperty_notOverridden macros key dist user, ← systemProperty_markers]
  unfold systemProperty at hnone ⊢
  simp only [List.map_append, valueOf_append, hnone, Option.or_none]

/-- The launcher's last options set the properties that nothing overrides. -/
theorem systemProperty_final (classPath : List Str) (propertiesFile : Option Str) (key : Str)
    (vmOptions : List Str) :
    systemProperty key (vmOptions ++ [jvmProperty (lit "ide.native.launcher") (lit "true")] ++
        propertiesFile.toList.map (jvmProperty (lit "idea.properties.file")) ++
          [jvmProperty (lit "java.class.path") ([':'].intercalate classPath)]) =
      (finalProperty classPath propertiesFile key).or (systemProperty key vmOptions) := by
  have hnative : systemProperty key [jvmProperty (lit "ide.native.launcher") (lit "true")] =
      if lit "ide.native.launcher" = key then some (lit "true") else none :=
    systemProperty_jvmProperty key (by decide) _
  have hclass : systemProperty key
      [jvmProperty (lit "java.class.path") ([':'].intercalate classPath)] =
        if lit "java.class.path" = key then some ([':'].intercalate classPath) else none :=
    systemProperty_jvmProperty key (by decide) _
  have hfile : systemProperty key
      (propertiesFile.toList.map (jvmProperty (lit "idea.properties.file"))) =
        if lit "idea.properties.file" = key then propertiesFile else none := by
    cases propertiesFile with
    | none => simp [systemProperty]
    | some file => exact systemProperty_jvmProperty key (by decide) file
  unfold systemProperty at hnative hclass hfile ⊢
  rw [valueOf_append, valueOf_append, valueOf_append, hnative, hclass, hfile]
  unfold finalProperty
  by_cases hkey : key = lit "ide.native.launcher"
  · subst hkey
    simp [show lit "java.class.path" ≠ lit "ide.native.launcher" by decide,
      show lit "idea.properties.file" ≠ lit "ide.native.launcher" by decide]
  · by_cases hkey' : key = lit "java.class.path"
    · subst hkey'
      simp [hkey]
    · by_cases hkey'' : key = lit "idea.properties.file"
      · subst hkey''
        simp [hkey, hkey', Ne.symm hkey, Ne.symm hkey']
      · simp [hkey, hkey', hkey'', Ne.symm hkey, Ne.symm hkey', Ne.symm hkey'']

/-! ## The whole list -/

/-- Every setting of a property in a list is in another one, in order. -/
def KeepsProperties (vmOptions options : List Str) : Prop :=
  (vmOptions.filter fun vmOption => startsWith vmOption (lit "-D")).Sublist options

/-- A list keeps its own settings. -/
theorem KeepsProperties.refl (vmOptions : List Str) : KeepsProperties vmOptions vmOptions :=
  List.filter_sublist

/-- Settings are kept by lists put one behind the other. -/
theorem KeepsProperties.append {vmOptions options vmOptions' options' : List Str}
    (h : KeepsProperties vmOptions options) (h' : KeepsProperties vmOptions' options') :
    KeepsProperties (vmOptions ++ vmOptions') (options ++ options') := by
  unfold KeepsProperties
  rw [List.filter_append]
  exact List.Sublist.append h h'

/-- No setting of a property is dropped by the options of the user. -/
theorem keepsProperties_notOverridden (macros : Macros) (dist user : List Str) :
    KeepsProperties (dist.map macros.expand) ((notOverridden dist user).map macros.expand) := by
  -- A dropped option is no setting after its macros were replaced.
  have hsame : (dist.filter fun l => startsWith (macros.expand l) (lit "-D")) =
      (notOverridden dist user).filter fun l => startsWith (macros.expand l) (lit "-D") := by
    unfold notOverridden
    rw [List.filter_filter]
    apply List.filter_congr
    intro l _
    cases hany : (user.flatMap filtersOf).any fun filter => filter l with
    | false => simp
    | true =>
        obtain ⟨rest, rfl⟩ := startsWith_X_of_dropped hany
        have hplain : '$' ∉ lit "-X" := by decide
        rw [macros.expand_append hplain]
        rfl
  unfold KeepsProperties
  rw [List.filter_map, Function.comp_def, hsame]
  exact List.Sublist.map _ List.filter_sublist

/-- The options that come first are of the virtual machine itself. -/
theorem errorFileOptions_X (config : DefaultLaunchConfiguration) (userHomePath : Str) :
    ∀ vmOption ∈ config.errorFileOptions userHomePath, lit "-X" <+: vmOption := by
  intro vmOption hmem
  rcases List.mem_pair.mp hmem with rfl | rfl
  · exact ⟨lit "X:ErrorFile=" ++ (userHomePath ++ (lit "/java_error_in_" ++
      config.launcherBaseName ++ lit "_%p.log")), by simp [lit]⟩
  · exact ⟨lit "X:HeapDumpPath=" ++ (userHomePath ++ (lit "/java_error_in_" ++
      config.launcherBaseName ++ lit ".hprof")), by simp [lit]⟩

/-- A corrupted file gives no options of the user. -/
theorem user_nil_of_corrupted {config : DefaultLaunchConfiguration} {os : Os} {dist user : List Str}
    {path : Str} (h : config.ReadsFiles os dist user true path) : user = [] := by
  obtain ⟨file, huser, -⟩ := h.user
  unfold DefaultLaunchConfiguration.readUserVmOptions at huser
  split at huser
  next path' _ =>
    obtain ⟨⟨options, corrupted⟩, hread, huser⟩ := bind_eq_ok.mp huser
    cases huser
    unfold readVmOptions at hread
    split at hread
    next => cases hread
    next => exact readVmOptionLines_corrupted hread
  next => cases huser

/-- The value of every system property comes from the first of the sources that sets it: the last
options of the launcher, the descriptor, the options about the file of the user, that file, and the
file of the distribution.  No setting of a property is dropped. -/
def SourcesInOrder (config : DefaultLaunchConfiguration) (os : Os) (options : List Str) : Prop :=
  ∃ macros dist user corrupted path classPath, config.ReadsMacros os macros ∧
    config.ReadsFiles os dist user corrupted path ∧ (corrupted = true → user = []) ∧
    config.getClassPath = .ok classPath ∧
    (∀ key, systemProperty key options =
      (finalProperty classPath (config.propertiesFile os) key).or
        ((systemProperty key (config.launchInfo.additionalJvmArguments.map macros.expand)).or
          ((vmOptionsFileProperty (macros.expand path) corrupted key).or
            ((systemProperty key (user.map macros.expand)).or
              (systemProperty key (dist.map macros.expand)))))) ∧
    KeepsProperties
      ((dist ++ user ++ config.launchInfo.additionalJvmArguments).map macros.expand) options

/-- Which source of a system property wins. -/
theorem system_property_precedence {config : DefaultLaunchConfiguration} {os : Os}
    {options : List Str} (h : config.getFullVmOptions os = .ok options) :
    SourcesInOrder config os options := by
  obtain ⟨vmOptions, classPath, hvm, hclass, rfl⟩ :=
    DefaultLaunchConfiguration.getFullVmOptions_ok h
  obtain ⟨macros, dist, user, corrupted, path, hmacros, hfiles, rfl⟩ :=
    DefaultLaunchConfiguration.getVmOptions_ok hvm
  refine ⟨macros, dist, user, corrupted, path, classPath, hmacros, hfiles, ?_, hclass, ?_, ?_⟩
  · intro hcorrupted
    subst hcorrupted
    exact user_nil_of_corrupted hfiles
  · intro key
    rw [systemProperty_final, systemProperty_vmOptions macros _ dist user _ path corrupted key
      (errorFileOptions_X config macros.userHomePath)]
  · have hdist := keepsProperties_notOverridden macros dist user
    have huser := KeepsProperties.refl (user.map macros.expand)
    have hadded := KeepsProperties.refl (config.launchInfo.additionalJvmArguments.map macros.expand)
    have hkept := (hdist.append huser).append hadded
    rw [← List.map_append, ← List.map_append] at hkept
    apply hkept.trans
    simp only [List.map_append, List.append_assoc]
    -- Options of the launcher itself stand before, between and after the others.
    apply List.sublist_append_of_sublist_right
    apply List.Sublist.append (List.Sublist.refl _)
    apply List.Sublist.append (List.Sublist.refl _)
    apply List.sublist_append_of_sublist_right
    exact List.sublist_append_left _ _

/-- The theorem holds of a launch where the user changes a property of the distribution. -/
theorem system_property_precedence_small :
    ∃ options,
      smallLaunch.getFullVmOptions (smallOs (lit "-Dk=dist\n") (lit "-Dk=user\n")) = .ok options ∧
        SourcesInOrder smallLaunch (smallOs (lit "-Dk=dist\n") (lit "-Dk=user\n")) options := by
  have hok : (smallLaunch.getFullVmOptions
      (smallOs (lit "-Dk=dist\n") (lit "-Dk=user\n"))).toBool = true := by
    decide +kernel
  cases h : smallLaunch.getFullVmOptions (smallOs (lit "-Dk=dist\n") (lit "-Dk=user\n")) with
  | error failure =>
      rw [h] at hok
      cases hok
  | ok options => exact ⟨options, rfl, system_property_precedence h⟩

end Launcher
end IdeMultiarch
