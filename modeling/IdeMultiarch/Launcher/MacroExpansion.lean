import IdeMultiarch.Library.Templates
import IdeMultiarch.Launcher.VmOptions

/-!
# Launcher - what macros stand for

The macros of an option are replaced one after the other, in all options that were collected.  This is
compared with filling them at once, and only in the options that were configured.

Main results:

- Theorem {lit}`expand_eq_meaning`: the macros of an option are filled if no macro is put in.
- Theorem {lit}`addsNoMacro_of_expand`: only then, for paths that do not start like a macro.
- Theorem {lit}`expanded_once`: when the whole list has the macros filled once.
-/

namespace IdeMultiarch
namespace Launcher

open Library.Text
open Library.Text.Spelling

/-! ## Options with macros -/

/-- A macro -/
inductive MacroName
  | userHome
  | ideHome
  | ideCacheDir
deriving DecidableEq, Repr

/-- {lit}`USER_HOME_MACRO`, {lit}`IDE_HOME_MACRO` and {lit}`IDE_CACHE_DIR_MACRO` -/
def macroSpelling : Spelling Char MacroName where
  marker := '$'
  name
    | .userHome => lit "USER_HOME"
    | .ideHome => lit "IDE_HOME"
    | .ideCacheDir => lit "IDE_CACHE_DIR"
  all := [.userHome, .ideHome, .ideCacheDir]
  marker_not_mem i := by cases i <;> decide
  names_distinct i j := by cases i <;> cases j <;> decide
  mem_all i := by cases i <;> decide

namespace Macros

variable (macros : Macros)

/-- The path that a macro stands for. -/
def value : MacroName → Str
  | .userHome => macros.userHomePath
  | .ideHome => macros.ideHomePath
  | .ideCacheDir => macros.ideCachesPath

/-- What an option stands for: its macros are filled at once, and no others. -/
def meaning (vmOption : Str) : Str :=
  fill macros.value (macroSpelling.read vmOption)

/-- The path to the user's home puts no {lit}`$IDE_HOME` in an option, and both homes put no
{lit}`$IDE_CACHE_DIR` in it. -/
def AddsNoMacro (vmOption : Str) : Prop :=
  let withUserHome := replace (lit "$USER_HOME") macros.userHomePath vmOption
  let withHomes := replace (lit "$IDE_HOME") macros.ideHomePath withUserHome
  occurrences (lit "$IDE_HOME") withUserHome = occurrences (lit "$IDE_HOME") vmOption ∧
    occurrences (lit "$IDE_CACHE_DIR") withHomes = occurrences (lit "$IDE_CACHE_DIR") vmOption

variable {macros} in
@[simp]
theorem value_userHome : macros.value .userHome = macros.userHomePath :=
  rfl

instance : DecidablePred macros.AddsNoMacro :=
  fun _ => inferInstanceAs (Decidable (_ ∧ _))

/-- The paths do not start like a macro, as absolute paths do not. -/
def StartPlainly : Prop :=
  ∀ i, ∃ a text, macros.value i = a :: text ∧ a ≠ '$'

end Macros

/-- An option without macros. -/
def HasNoMacro (vmOption : Str) : Prop :=
  ∀ i, occurrences (macroSpelling.hole i) vmOption = 0

instance : DecidablePred HasNoMacro := fun vmOption =>
  decidable_of_iff (∀ i ∈ macroSpelling.all, occurrences (macroSpelling.hole i) vmOption = 0)
    ⟨fun h i => h i (macroSpelling.mem_all i), fun h i _ => h i⟩

/-! ## One option -/

variable {macros : Macros}

theorem mem_order (i : MacroName) : i ∈ [MacroName.userHome, .ideHome, .ideCacheDir] := by
  cases i <;> decide

/-- No macro is put in an option. -/
theorem noNewHoles_read {vmOption : Str} :
    macroSpelling.NoNewHoles macros.value [.userHome, .ideHome, .ideCacheDir]
        (macroSpelling.read vmOption) ↔ macros.AddsNoMacro vmOption := by
  have hcount : ∀ i, (macroSpelling.read vmOption).count (.hole i) =
      occurrences (macroSpelling.hole i) vmOption :=
    fun i => count_read i vmOption
  have huser : occurrences (macroSpelling.hole .userHome)
      (macroSpelling.write (macroSpelling.read vmOption)) =
        (macroSpelling.read vmOption).count (.hole .userHome) := by
    rw [write_read, hcount]
  obtain ⟨pieces, hpieces⟩ : ∃ pieces,
      pieces = put .userHome macros.userHomePath (macroSpelling.read vmOption) := ⟨_, rfl⟩
  have hwrite : replace (lit "$USER_HOME") macros.userHomePath vmOption =
      macroSpelling.write pieces := by
    have hreplace := replace_write huser macros.userHomePath
    rw [write_read, ← hpieces] at hreplace
    exact hreplace
  have hhomes : pieces.count (.hole .ideHome) = occurrences (lit "$IDE_HOME") vmOption := by
    rw [hpieces, count_put (by decide), hcount]
    rfl
  have hcaches : (put .ideHome macros.ideHomePath pieces).count (.hole .ideCacheDir) =
      occurrences (lit "$IDE_CACHE_DIR") vmOption := by
    rw [count_put (by decide), hpieces, count_put (by decide), hcount]
    rfl
  have hideHome : lit "$IDE_HOME" = macroSpelling.hole .ideHome := rfl
  unfold Macros.AddsNoMacro
  dsimp only
  rw [hwrite, ← hhomes, ← hcaches, hideHome]
  constructor
  · rintro ⟨-, hhome, hcache, -⟩
    rw [Macros.value_userHome, ← hpieces] at hhome hcache
    refine ⟨hhome, ?_⟩
    rw [replace_write hhome]
    exact hcache
  · rintro ⟨hhome, hcache⟩
    rw [replace_write hhome] at hcache
    refine ⟨huser, ?_⟩
    rw [Macros.value_userHome, ← hpieces]
    exact ⟨hhome, hcache, trivial⟩

/-- The macros of an option are filled if no macro is put in. -/
theorem expand_eq_meaning {vmOption : Str} (h : macros.AddsNoMacro vmOption) :
    macros.expand vmOption = macros.meaning vmOption := by
  have hfilled := replaceAll_write (noNewHoles_read.mpr h)
  rw [write_read, write_putAll mem_order] at hfilled
  exact hfilled

/-- Only then, for paths that do not start like a macro. -/
theorem addsNoMacro_of_expand {vmOption : Str} (hplain : macros.StartPlainly)
    (h : macros.expand vmOption = macros.meaning vmOption) : macros.AddsNoMacro vmOption := by
  refine noNewHoles_read.mp (noNewHoles_of_replaceAll (fun i _ => hplain i) ?_)
  rw [write_read, write_putAll mem_order]
  exact h

/-- No macro stands in an option, or is put in. -/
theorem noNewHoles_chars {vmOption : Str} :
    macroSpelling.NoNewHoles macros.value [.userHome, .ideHome, .ideCacheDir]
        (vmOption.map .char) ↔ HasNoMacro vmOption := by
  have hcount : ∀ i : MacroName, (vmOption.map (Piece.char)).count (.hole i) = 0 := by
    intro i
    rw [List.count_eq_zero]
    simp
  simp only [NoNewHoles, put_chars, hcount, write_chars, and_true]
  constructor
  · rintro ⟨huser, hhome, hcache⟩ i
    cases i <;> assumption
  · intro h
    exact ⟨h .userHome, h .ideHome, h .ideCacheDir⟩

/-- An option without macros is not changed. -/
theorem expand_of_hasNoMacro {vmOption : Str} (h : HasNoMacro vmOption) :
    macros.expand vmOption = vmOption := by
  have hnone : macroSpelling.NoNewHoles macros.value _ _ := noNewHoles_chars.mpr h
  have hfilled := replaceAll_write hnone
  rw [write_chars, write_putAll mem_order, fill_chars] at hfilled
  exact hfilled

/-- Only such an option is not changed, for paths that do not start like a macro. -/
theorem hasNoMacro_of_expand {vmOption : Str} (hplain : macros.StartPlainly)
    (h : macros.expand vmOption = vmOption) : HasNoMacro vmOption := by
  refine noNewHoles_chars.mp (noNewHoles_of_replaceAll (fun i _ => hplain i) ?_)
  rw [write_chars, write_putAll mem_order, fill_chars]
  exact h

/-! ## The whole list -/

namespace DefaultLaunchConfiguration

variable (config : DefaultLaunchConfiguration) {os : Os}

/-- The options as they should be: the macros of those that were configured are filled once, and the
paths in those of the launcher are left. -/
def expandedOnce (macros : Macros) (dist user : List Str) (corrupted : Bool) (path : Str) : List Str :=
  config.errorFileOptions macros.userHomePath ++
    (notOverridden dist user ++ user).map macros.meaning ++
    vmOptionsFileMarkers path corrupted ++
    config.launchInfo.additionalJvmArguments.map macros.meaning ++
    [jvmProperty (lit "ide.native.launcher") (lit "true")]

/-- No path puts a macro in an option that was configured, and the options of the launcher have
none. -/
def PutsNoMacro (macros : Macros) (dist user : List Str) (corrupted : Bool) (path : Str) : Prop :=
  (∀ vmOption ∈ notOverridden dist user ++ user ++ config.launchInfo.additionalJvmArguments,
      macros.AddsNoMacro vmOption) ∧
    ∀ vmOption ∈ config.errorFileOptions macros.userHomePath ++ vmOptionsFileMarkers path corrupted,
      HasNoMacro vmOption

instance (macros : Macros) (dist user : List Str) (corrupted : Bool) (path : Str) :
    Decidable (config.PutsNoMacro macros dist user corrupted path) :=
  inferInstanceAs (Decidable (_ ∧ _))

variable {config}

/-- The options are found when the files are read and the paths are texts. -/
theorem getVmOptions_of_reads {macros : Macros} {dist user : List Str} {corrupted : Bool} {path : Str}
    (hmacros : config.ReadsMacros os macros) (hfiles : config.ReadsFiles os dist user corrupted path) :
    config.getVmOptions os =
      .ok ((config.errorFileOptions macros.userHomePath ++ notOverridden dist user ++ user ++
            vmOptionsFileMarkers path corrupted ++
              config.launchInfo.additionalJvmArguments).map macros.expand ++
          [jvmProperty (lit "ide.native.launcher") (lit "true")]) := by
  obtain ⟨⟨home, hhome, htext⟩, hide, hcaches⟩ := hmacros
  have hcollected : config.collectVmOptionsFromFiles os
      (config.errorFileOptions macros.userHomePath) = .ok _ :=
    collectVmOptionsFromFiles_ok.mpr ⟨dist, user, corrupted, path, hfiles, rfl⟩
  unfold getVmOptions
  simp only [bind, Except.bind, hhome, htext, hcollected, hide, hcaches]
  rfl

/-- The list is compared option by option. -/
theorem map_expand_eq_iff {macros : Macros} {dist user : List Str} {corrupted : Bool} {path : Str} :
    (config.errorFileOptions macros.userHomePath ++ notOverridden dist user ++ user ++
            vmOptionsFileMarkers path corrupted ++
              config.launchInfo.additionalJvmArguments).map macros.expand ++
          [jvmProperty (lit "ide.native.launcher") (lit "true")] =
        config.expandedOnce macros dist user corrupted path ↔
      (∀ vmOption ∈ notOverridden dist user ++ user ++ config.launchInfo.additionalJvmArguments,
          macros.expand vmOption = macros.meaning vmOption) ∧
        ∀ vmOption ∈ config.errorFileOptions macros.userHomePath ++
            vmOptionsFileMarkers path corrupted, macros.expand vmOption = vmOption := by
  have happend : ∀ front front' back back' : List Str, front.length = front'.length →
      (front ++ back = front' ++ back' ↔ front = front' ∧ back = back') := by
    intro front front' back back' hlength
    constructor
    · exact fun h => List.append_inj h hlength
    · rintro ⟨rfl, rfl⟩
      rfl
  have hverbatim : ∀ vmOptions : List Str, vmOptions.map macros.expand = vmOptions ↔
      ∀ vmOption ∈ vmOptions, macros.expand vmOption = vmOption := by
    intro vmOptions
    have hmap := List.map_eq_map_iff (l := vmOptions) (f := macros.expand) (g := id)
    rwa [List.map_id] at hmap
  unfold expandedOnce
  simp only [List.map_append]
  rw [List.append_left_inj, happend _ _ _ _ (by simp), happend _ _ _ _ (by simp),
    List.append_assoc, happend _ _ _ _ (by simp), ← List.map_append, ← List.map_append,
    hverbatim, hverbatim, List.map_eq_map_iff, List.map_eq_map_iff]
  simp only [List.forall_mem_append]
  tauto

/-- The macros are filled once, and paths are left as they are, if no path puts a macro in.  For paths
that do not start like a macro this is the only case. -/
theorem expanded_once {macros : Macros} {dist user : List Str} {corrupted : Bool} {path : Str}
    (hmacros : config.ReadsMacros os macros) (hfiles : config.ReadsFiles os dist user corrupted path) :
    ∃ result, config.getVmOptions os = .ok result ∧
      (config.PutsNoMacro macros dist user corrupted path →
        result = config.expandedOnce macros dist user corrupted path) ∧
      (macros.StartPlainly → result = config.expandedOnce macros dist user corrupted path →
        config.PutsNoMacro macros dist user corrupted path) := by
  refine ⟨_, getVmOptions_of_reads hmacros hfiles, ?_, ?_⟩
  · rintro ⟨hconfigured, hown⟩
    rw [map_expand_eq_iff]
    exact ⟨fun vmOption hmem => expand_eq_meaning (hconfigured vmOption hmem),
      fun vmOption hmem => expand_of_hasNoMacro (hown vmOption hmem)⟩
  · intro hplain hsame
    obtain ⟨hconfigured, hown⟩ := map_expand_eq_iff.mp hsame
    exact ⟨fun vmOption hmem => addsNoMacro_of_expand hplain (hconfigured vmOption hmem),
      fun vmOption hmem => hasNoMacro_of_expand hplain (hown vmOption hmem)⟩

end DefaultLaunchConfiguration

/-- Paths without macros. -/
theorem expanded_once_small :
    smallLaunch.getVmOptions (smallOs (lit "-Dlogs=$IDE_CACHE_DIR/log\n") (lit "-Dhome=$USER_HOME\n")) =
      .ok (smallLaunch.expandedOnce
        ⟨lit "/home/me", lit "/opt/idea", lit "/home/me/.cache/JetBrains/IdeaIC"⟩
        [lit "-Dlogs=$IDE_CACHE_DIR/log"] [lit "-Dhome=$USER_HOME"] false
        (lit "/opt/idea.vmoptions")) := by
  have hmacros : smallLaunch.ReadsMacros
      (smallOs (lit "-Dlogs=$IDE_CACHE_DIR/log\n") (lit "-Dhome=$USER_HOME\n"))
      ⟨lit "/home/me", lit "/opt/idea", lit "/home/me/.cache/JetBrains/IdeaIC"⟩ :=
    ⟨⟨Path.ofStr (lit "/home/me"), by decide +kernel, by decide +kernel⟩, by decide +kernel,
      by decide +kernel⟩
  have hfiles : smallLaunch.ReadsFiles
      (smallOs (lit "-Dlogs=$IDE_CACHE_DIR/log\n") (lit "-Dhome=$USER_HOME\n"))
      [lit "-Dlogs=$IDE_CACHE_DIR/log"] [lit "-Dhome=$USER_HOME"] false
      (lit "/opt/idea.vmoptions") :=
    ⟨by decide +kernel, Path.ofStr (lit "/opt/idea.vmoptions"), by decide +kernel,
      by decide +kernel⟩
  obtain ⟨result, hresult, hexpanded, -⟩ :=
    DefaultLaunchConfiguration.expanded_once hmacros hfiles
  rw [hresult, hexpanded (by decide +kernel)]

/-- A user whose home has the text of a macro in its name. -/
def macroHomeOs : Os :=
  { smallOs [] (lit "-Dhome=$USER_HOME\n") with homeDir := some (Path.ofStr (lit "/home/$IDE_HOME")) }

/-- The text of a macro in the home of the user is replaced. -/
theorem home_expanded_again :
    ¬ ∀ (config : DefaultLaunchConfiguration) (os : Os) (macros : Macros) (dist user : List Str)
        (corrupted : Bool) (path : Str), config.ReadsMacros os macros →
      config.ReadsFiles os dist user corrupted path →
        config.getVmOptions os = .ok (config.expandedOnce macros dist user corrupted path) := by
  intro hall
  have h := hall smallLaunch macroHomeOs
    ⟨lit "/home/$IDE_HOME", lit "/opt/idea", lit "/home/me/.cache/JetBrains/IdeaIC"⟩ []
    [lit "-Dhome=$USER_HOME"] false (lit "/opt/idea.vmoptions")
    ⟨⟨Path.ofStr (lit "/home/$IDE_HOME"), by decide +kernel, by decide +kernel⟩,
      by decide +kernel, by decide +kernel⟩
    ⟨by decide +kernel, Path.ofStr (lit "/opt/idea.vmoptions"), by decide +kernel,
      by decide +kernel⟩
  have hagain : smallLaunch.getVmOptions macroHomeOs ≠
      .ok (smallLaunch.expandedOnce
        ⟨lit "/home/$IDE_HOME", lit "/opt/idea", lit "/home/me/.cache/JetBrains/IdeaIC"⟩ []
        [lit "-Dhome=$USER_HOME"] false (lit "/opt/idea.vmoptions")) := by
    decide +kernel
  exact hagain h

end Launcher
end IdeMultiarch
