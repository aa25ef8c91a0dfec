import IdeMultiarch.Launcher.VmOptions

/-!
# Launcher - the base name of a product

The files of a product are named after its base name.  The launcher gets this name back from the
path of the file with the options of the virtual machine: it takes off the directory, everything
after the first dot, and everything after the first {lit}`64`.  With the name it finds the file that
tells which runtime the user wants.

Main results:

- Theorem {lit}`getLauncherBaseName_vmOptions`: what is left of the name of a product.
- Theorem {lit}`base_name_inverted_iff`: which names are found again.
- Theorem {lit}`inner_64_lost`: a name that is cut.
-/

namespace IdeMultiarch
namespace Launcher

open Library.Text (splitOnce splitOnce_append splitOnce_eq_some splitOnce_eq_none rsplitOnce
  rsplitOnce_append)

/-! ## Names of products and files -/

/-- A base name that the files of a product can have. -/
structure IsBaseName (base : Str) : Prop where
  ne_nil : base ≠ []
  no_slash : '/' ∉ base
  no_dot : '.' ∉ base
  no_suffix : ¬ lit "64" <:+ base

/-- What follows the base name in the names of the files with options, on macOS, Linux and
Windows. -/
def vmOptionsSuffixes : List Str :=
  [lit ".vmoptions", lit "64.vmoptions", lit "64.exe.vmoptions"]

/-- The path of a file with options. -/
def vmOptionsRelPath (dir base suffix : Str) : Str :=
  dir ++ '/' :: (base ++ suffix)

/-- {lit}`config_name` of {lit}`get_runtime_from_user_config` -/
def runtimeConfigName (launcherBaseName : Str) : Str :=
  launcherBaseName ++ lit ".jdk"

/-- {lit}`config_path` of {lit}`get_runtime_from_user_config` -/
def DefaultLaunchConfiguration.runtimeConfigPath (config : DefaultLaunchConfiguration) : Path :=
  config.userConfigDir.join (Path.ofStr (runtimeConfigName config.launcherBaseName))

/-- What is in front of the first {lit}`64`. -/
def beforeSixtyFour (text : Str) : Str :=
  ((splitOnce (lit "64") text).map Prod.fst).getD text

/-! ## What is left of a name -/

/-- A {lit}`64` that is followed by another one does not begin earlier. -/
theorem sixtyFour_infix_append {base : Str} (h : lit "64" <:+: base ++ ['6']) :
    lit "64" <:+: base := by
  rcases List.infix_concat_iff.mp h with ⟨front, hsuffix⟩ | hinfix
  · have hlast := congrArg List.getLast? hsuffix
    simp [lit] at hlast
  · exact hinfix

/-- A {lit}`64` that is added at the end is taken off again, and changes nothing else. -/
theorem beforeSixtyFour_append {base added : Str} (hadded : added = [] ∨ added = lit "64") :
    beforeSixtyFour (base ++ added) = beforeSixtyFour base := by
  have hpattern : lit "64" ≠ [] := by decide
  unfold beforeSixtyFour
  cases hsplit : splitOnce (lit "64") base with
  | some parts =>
      obtain ⟨before, after⟩ := parts
      obtain ⟨rfl, hfirst⟩ := (splitOnce_eq_some hpattern).mp hsplit
      have hmore : splitOnce (lit "64") (before ++ (lit "64" ++ after) ++ added) =
          some (before, after ++ added) :=
        (splitOnce_eq_some hpattern).mpr ⟨by simp, hfirst⟩
      rw [hmore]
      rfl
  | none =>
      have hnone := (splitOnce_eq_none hpattern).mp hsplit
      rcases hadded with rfl | rfl
      · rw [List.append_nil, hsplit]
      · have hmore : splitOnce (lit "64") (base ++ lit "64") = some (base, []) :=
          (splitOnce_eq_some hpattern).mpr
            ⟨by simp, fun h => hnone (sixtyFour_infix_append h)⟩
        rw [hmore]
        rfl

/-- A name is kept if there is no {lit}`64` in it. -/
theorem beforeSixtyFour_eq_self {base : Str} :
    beforeSixtyFour base = base ↔ ¬ lit "64" <:+: base := by
  have hpattern : lit "64" ≠ [] := by decide
  unfold beforeSixtyFour
  cases hsplit : splitOnce (lit "64") base with
  | none =>
      have hnone := (splitOnce_eq_none hpattern).mp hsplit
      exact ⟨fun _ => hnone, fun _ => rfl⟩
  | some parts =>
      obtain ⟨before, after⟩ := parts
      obtain ⟨rfl, -⟩ := (splitOnce_eq_some hpattern).mp hsplit
      constructor
      · intro hsame
        have hlength := congrArg List.length hsame
        rw [List.length_append, List.length_append] at hlength
        have htwo : (lit "64").length = 2 := rfl
        simp only [Option.map_some, Option.getD_some] at hlength
        omega
      · intro hnone
        exact absurd ⟨before, after, by simp⟩ hnone

/-- What is left of the base name of a product. -/
theorem getLauncherBaseName_vmOptions {base suffix : Str} (hbase : IsBaseName base)
    (hsuffix : suffix ∈ vmOptionsSuffixes) (dir : Str) :
    getLauncherBaseName (vmOptionsRelPath dir base suffix) = beforeSixtyFour base := by
  have hparts : ∃ added extension, suffix = added ++ '.' :: extension ∧
      (added = [] ∨ added = lit "64") ∧ '/' ∉ suffix := by
    simp only [vmOptionsSuffixes, List.mem_cons, List.not_mem_nil, or_false] at hsuffix
    rcases hsuffix with rfl | rfl | rfl
    · exact ⟨[], lit "vmoptions", rfl, Or.inl rfl, by decide⟩
    · exact ⟨lit "64", lit "vmoptions", rfl, Or.inr rfl, by decide⟩
    · exact ⟨lit "64", lit "exe.vmoptions", rfl, Or.inr rfl, by decide⟩
  obtain ⟨added, extension, rfl, hadded, hslash⟩ := hparts
  have hfile : '/' ∉ base ++ (added ++ '.' :: extension) := by
    rw [List.mem_append, not_or]
    exact ⟨hbase.no_slash, hslash⟩
  have hdot : '.' ∉ base ++ added := by
    rw [List.mem_append, not_or]
    refine ⟨hbase.no_dot, ?_⟩
    rcases hadded with rfl | rfl
    · simp
    · decide
  have hname : splitOnce ['.'] (base ++ (added ++ '.' :: extension)) =
      some (base ++ added, extension) := by
    rw [← List.append_assoc]
    exact splitOnce_append hdot extension
  rw [vmOptionsRelPath, getLauncherBaseName, rsplitOnce_append dir hfile]
  simp only [Option.map_some, Option.getD_some]
  rw [hname]
  exact beforeSixtyFour_append hadded

/-- The base name of a product is found again exactly if there is no {lit}`64` in it.  Two different
products with such names never share the file that tells their runtime. -/
theorem base_name_inverted_iff {base suffix : Str} (hbase : IsBaseName base)
    (hsuffix : suffix ∈ vmOptionsSuffixes) (dir : Str) :
    (getLauncherBaseName (vmOptionsRelPath dir base suffix) = base ↔ ¬ lit "64" <:+: base) ∧
      ∀ base' suffix' dir', IsBaseName base' → suffix' ∈ vmOptionsSuffixes → base ≠ base' →
        ¬ lit "64" <:+: base → ¬ lit "64" <:+: base' →
          runtimeConfigName (getLauncherBaseName (vmOptionsRelPath dir base suffix)) ≠
            runtimeConfigName (getLauncherBaseName (vmOptionsRelPath dir' base' suffix')) := by
  rw [getLauncherBaseName_vmOptions hbase hsuffix]
  refine ⟨beforeSixtyFour_eq_self, ?_⟩
  intro base' suffix' dir' hbase' hsuffix' hne hnone hnone' hshared
  rw [getLauncherBaseName_vmOptions hbase' hsuffix', beforeSixtyFour_eq_self.mpr hnone,
    beforeSixtyFour_eq_self.mpr hnone'] at hshared
  exact hne (List.append_cancel_right hshared)

/-- The names of IDEA on Linux. -/
theorem base_name_inverted_iff_idea :
    getLauncherBaseName (vmOptionsRelPath (lit "bin") (lit "idea") (lit "64.vmoptions")) =
        lit "idea" ∧
      (getLauncherBaseName (vmOptionsRelPath (lit "bin") (lit "idea") (lit "64.vmoptions")) =
        lit "idea" ↔ ¬ lit "64" <:+: lit "idea") :=
  ⟨by decide, (base_name_inverted_iff ⟨by decide, by decide, by decide, by decide⟩
    (by decide) (lit "bin")).1⟩

/-- A name with {lit}`64` inside is cut there. -/
theorem inner_64_lost :
    ¬ ∀ base suffix dir, IsBaseName base → suffix ∈ vmOptionsSuffixes →
      getLauncherBaseName (vmOptionsRelPath dir base suffix) = base ∧
        ∀ base' suffix' dir', IsBaseName base' → suffix' ∈ vmOptionsSuffixes → base ≠ base' →
          runtimeConfigName (getLauncherBaseName (vmOptionsRelPath dir base suffix)) ≠
            runtimeConfigName (getLauncherBaseName (vmOptionsRelPath dir' base' suffix')) := by
  intro hall
  have h := (hall (lit "c64studio") (lit ".vmoptions") (lit "bin")
    ⟨by decide, by decide, by decide, by decide⟩ (by decide)).1
  exact absurd h (by decide)

end Launcher
end IdeMultiarch
