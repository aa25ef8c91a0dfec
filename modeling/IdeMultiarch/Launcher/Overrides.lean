import IdeMultiarch.Launcher.VmOptions

/-!
# Launcher - which options of the distribution are omitted

An option of the distribution is to be omitted only for an option of the user that it would stand
against: another collector, or a size that is given in percent.  The launcher takes every option
{lit}`-XX:+...GC` for the choice of a collector, on both sides.

Main results:

- Theorem {lit}`dropped_iff`: which options the filters of the user drop.
- Theorem {lit}`conflicting_omitted_iff`: when exactly the conflicting options are omitted.
-/

namespace IdeMultiarch
namespace Launcher

open DefaultLaunchConfiguration

/-! ## Conflicting options -/

/-- The options that choose a collector. -/
def collectorSelectors : List Str :=
  [lit "-XX:+UseSerialGC", lit "-XX:+UseParallelGC", lit "-XX:+UseG1GC", lit "-XX:+UseZGC",
    lit "-XX:+UseShenandoahGC", lit "-XX:+UseEpsilonGC"]

/-- Whether an option chooses a collector. -/
def isCollectorSelector (vmOption : Str) : Bool :=
  collectorSelectors.contains vmOption

/-- Whether an option sets the initial size in percent. -/
def setsInitialPercentage (vmOption : Str) : Bool :=
  startsWith vmOption (lit "-XX:InitialRAMPercentage=")

/-- Whether an option sets the greatest size in percent. -/
def setsMaximalPercentage (vmOption : Str) : Bool :=
  startsWith vmOption (lit "-XX:MinRAMPercentage=") ||
    startsWith vmOption (lit "-XX:MaxRAMPercentage=")

/-- Whether an option of the distribution stands against an option of the user. -/
def conflicts (user : List Str) (l : Str) : Bool :=
  (isCollectorSelector l && user.any isCollectorSelector) ||
    (startsWith l (lit "-Xms") && user.any setsInitialPercentage) ||
      (startsWith l (lit "-Xmx") && user.any setsMaximalPercentage)

/-- The options of the distribution without those that stand against one of the user. -/
def withoutConflicts (dist user : List Str) : List Str :=
  dist.filter fun l => !conflicts user l

/-- Where the user and the distribution both have an option {lit}`-XX:+...GC`, these choose
collectors: all of the distribution, and one of the user. -/
def OnlyCollectorsSwitched (dist user : List Str) : Prop :=
  ∀ l ∈ dist, isGcOption l = true → user.any isGcOption = true →
    isCollectorSelector l = true ∧ user.any isCollectorSelector = true

/-! ## Dropped options -/

/-- Which options the filters of one line drop. -/
theorem filtersOf_any (line l : Str) :
    ((filtersOf line).any fun filter => filter l) =
      ((isGcOption l && isGcOption line) ||
        (startsWith l (lit "-Xms") && setsInitialPercentage line) ||
          (startsWith l (lit "-Xmx") && setsMaximalPercentage line)) := by
  unfold filtersOf setsInitialPercentage setsMaximalPercentage
  rw [List.any_append, List.any_append]
  cases isGcOption line <;> cases startsWith line (lit "-XX:InitialRAMPercentage=") <;>
    cases startsWith line (lit "-XX:MinRAMPercentage=") ||
      startsWith line (lit "-XX:MaxRAMPercentage=") <;> simp

/-- Which options the filters of the user drop. -/
theorem dropped_iff (user : List Str) (l : Str) :
    ((user.flatMap filtersOf).any fun filter => filter l) =
      ((isGcOption l && user.any isGcOption) ||
        (startsWith l (lit "-Xms") && user.any setsInitialPercentage) ||
          (startsWith l (lit "-Xmx") && user.any setsMaximalPercentage)) := by
  induction user with
  | nil => simp
  | cons line user ih =>
      rw [List.flatMap_cons, List.any_append, ih, filtersOf_any]
      simp only [List.any_cons, Bool.and_or_distrib_left]
      ac_rfl

/-- An option that chooses a collector has the form that the launcher looks at. -/
theorem isGcOption_of_selector {l : Str} (h : isCollectorSelector l = true) :
    isGcOption l = true := by
  have hall : ∀ l ∈ collectorSelectors, isGcOption l = true := by decide
  exact hall l (List.contains_iff_mem.mp h)

/-- {lit}`isGcOption_of_selector` for the options of the user. -/
theorem any_isGcOption_of_selector {user : List Str} (h : user.any isCollectorSelector = true) :
    user.any isGcOption = true := by
  obtain ⟨line, hline, hselector⟩ := List.any_eq_true.mp h
  exact List.any_eq_true.mpr ⟨line, hline, isGcOption_of_selector hselector⟩

/-- An option about a size is none about a collector. -/
theorem not_isGcOption_of_size {l : Str}
    (h : startsWith l (lit "-Xms") = true ∨ startsWith l (lit "-Xmx") = true) :
    isGcOption l = false := by
  have hfront : lit "-Xm" <+: l := by
    rcases h with h | h
    · exact List.IsPrefix.trans ⟨['s'], rfl⟩ (List.isPrefixOf_iff_prefix.mp h)
    · exact List.IsPrefix.trans ⟨['x'], rfl⟩ (List.isPrefixOf_iff_prefix.mp h)
  obtain ⟨rest, rfl⟩ := hfront
  rfl

/-- Two filters keep the same items exactly when they agree on all of them. -/
theorem filter_eq_filter_iff {α : Type} {p q : α → Bool} {items : List α} :
    items.filter p = items.filter q ↔ ∀ item ∈ items, p item = q item := by
  constructor
  · intro h item hitem
    have hmem : item ∈ items.filter p ↔ item ∈ items.filter q := by rw [h]
    apply Bool.eq_iff_iff.mpr
    simpa [hitem] using hmem
  · exact List.filter_congr

/-- When the filters of the user drop exactly the conflicting options. -/
theorem notOverridden_eq_iff (dist user : List Str) :
    notOverridden dist user = withoutConflicts dist user ↔ OnlyCollectorsSwitched dist user := by
  unfold notOverridden withoutConflicts OnlyCollectorsSwitched
  dsimp only
  rw [filter_eq_filter_iff]
  apply forall₂_congr
  intro l _
  rw [dropped_iff]
  unfold conflicts
  cases hgc : isGcOption l with
  | false =>
      have hnone : isCollectorSelector l = false := by
        apply Bool.eq_false_iff.mpr
        intro h
        rw [isGcOption_of_selector h] at hgc
        cases hgc
      simp [hnone]
  | true =>
      have hms : startsWith l (lit "-Xms") = false := by
        apply Bool.eq_false_iff.mpr
        intro h
        rw [not_isGcOption_of_size (.inl h)] at hgc
        cases hgc
      have hmx : startsWith l (lit "-Xmx") = false := by
        apply Bool.eq_false_iff.mpr
        intro h
        rw [not_isGcOption_of_size (.inr h)] at hgc
        cases hgc
      rw [hms, hmx]
      cases hany : user.any isGcOption with
      | false =>
          have hnone : user.any isCollectorSelector = false := by
            apply Bool.eq_false_iff.mpr
            intro h
            rw [any_isGcOption_of_selector h] at hany
            cases hany
          simp [hnone]
      | true => cases isCollectorSelector l <;> cases user.any isCollectorSelector <;> simp

/-! ## The files -/

/-- When exactly the options of the distribution that stand against one of the user are omitted. -/
theorem conflicting_omitted_iff {config : DefaultLaunchConfiguration} {os : Os}
    {dist user : List Str} {corrupted : Bool} {path : Str}
    (h : config.ReadsFiles os dist user corrupted path) (vmOptions : List Str) :
    config.collectVmOptionsFromFiles os vmOptions =
        .ok (vmOptions ++ withoutConflicts dist user ++ user ++
          vmOptionsFileMarkers path corrupted) ↔
      OnlyCollectorsSwitched dist user := by
  have hcollected : config.collectVmOptionsFromFiles os vmOptions =
      .ok (vmOptions ++ notOverridden dist user ++ user ++ vmOptionsFileMarkers path corrupted) :=
    collectVmOptionsFromFiles_ok.mpr ⟨dist, user, corrupted, path, h, rfl⟩
  rw [hcollected, ← notOverridden_eq_iff]
  simp

/-- The user switches off a cache, and the distribution chooses a collector. -/
theorem conflicting_omitted_iff_small :
    smallLaunch.collectVmOptionsFromFiles
        (smallOs (lit "-XX:+UseG1GC\n-Xms128m\n") (lit "-XX:+UseZGC\n")) [] =
      .ok ([] ++ withoutConflicts [lit "-XX:+UseG1GC", lit "-Xms128m"] [lit "-XX:+UseZGC"] ++
        [lit "-XX:+UseZGC"] ++ vmOptionsFileMarkers (lit "/opt/idea.vmoptions") false) ↔
      OnlyCollectorsSwitched [lit "-XX:+UseG1GC", lit "-Xms128m"] [lit "-XX:+UseZGC"] :=
  conflicting_omitted_iff
    ⟨by decide +kernel, Path.ofStr (lit "/opt/idea.vmoptions"), by decide +kernel, by decide +kernel⟩
    []

/-- An option that is about no collector drops the collector of the distribution. -/
theorem collector_choice_lost :
    ¬ ∀ (config : DefaultLaunchConfiguration) (os : Os) (dist user : List Str) (corrupted : Bool)
        (path : Str), config.ReadsFiles os dist user corrupted path →
      ∀ vmOptions, config.collectVmOptionsFromFiles os vmOptions =
        .ok (vmOptions ++ withoutConflicts dist user ++ user ++
          vmOptionsFileMarkers path corrupted) := by
  intro h
  have hfiles : smallLaunch.ReadsFiles
      (smallOs (lit "-XX:+UseG1GC\n") (lit "-XX:+DisableExplicitGC\n"))
      [lit "-XX:+UseG1GC"] [lit "-XX:+DisableExplicitGC"] false (lit "/opt/idea.vmoptions") :=
    ⟨by decide +kernel, Path.ofStr (lit "/opt/idea.vmoptions"), by decide +kernel,
      by decide +kernel⟩
  have hkept := h _ _ _ _ _ _ hfiles []
  have hlost : smallLaunch.collectVmOptionsFromFiles
      (smallOs (lit "-XX:+UseG1GC\n") (lit "-XX:+DisableExplicitGC\n")) [] ≠
        .ok ([] ++ withoutConflicts [lit "-XX:+UseG1GC"] [lit "-XX:+DisableExplicitGC"] ++
          [lit "-XX:+DisableExplicitGC"] ++
            vmOptionsFileMarkers (lit "/opt/idea.vmoptions") false) := by
    decide +kernel
  exact hlost hkept

end Launcher
end IdeMultiarch
