import IdeMultiarch.Launcher.VmOptions

/-!
# Launcher - a damaged file of options

A line of the user's file may be damaged in two ways: its bytes are no text, or it holds a zero
character.  The first damaged line decides what becomes of the file.  A zero character only marks
the file as corrupted, but bytes that are no text stop the launch.

Main results:

- Theorem {lit}`readVmOptionLines_eq`: the first damaged line decides.
- Theorem {lit}`damage_marked_iff`: for which contents the launch goes on.
-/

namespace IdeMultiarch
namespace Launcher

open DefaultLaunchConfiguration
open Library.Results (bind_eq_ok)

/-! ## Damaged lines -/

/-- Whether reading stops at a line. -/
def isDamaged (line : Option Str) : Bool :=
  match line with
  | none => true
  | some _ => (optionOf line).any (·.contains '\x00')

/-- The loop of {lit}`read_vm_options` stops at the first damaged line. -/
theorem readVmOptionLines_eq (path : Path) (vmOptions : List Str) (lines : List (Option Str)) :
    readVmOptionLines path vmOptions lines =
      match lines.find? isDamaged with
      | none => .ok (vmOptions ++ lines.filterMap optionOf, false)
      | some none => bail (lit "Cannot read: ") path
      | some (some _) => .ok ([], true) := by
  induction lines generalizing vmOptions with
  | nil => simp [readVmOptionLines]
  | cons line lines ih =>
      cases line with
      | none => rfl
      | some line =>
          unfold readVmOptionLines
          dsimp only
          split
          next hskip =>
            have hnone : optionOf (some line) = none := by simp [optionOf, hskip]
            have hsound : isDamaged (some line) = false := by simp [isDamaged, hnone]
            rw [ih, List.find?_cons, hsound, List.filterMap_cons_none hnone]
          next hkept =>
            have hsome : optionOf (some line) = some (trim line) := by simp [optionOf, hkept]
            split
            next hzero =>
              have hdamaged : isDamaged (some line) = true := by simp [isDamaged, hsome, hzero]
              rw [List.find?_cons, hdamaged]
            next hzero =>
              have hsound : isDamaged (some line) = false := by simp [isDamaged, hsome, hzero]
              rw [ih, List.find?_cons, hsound, List.filterMap_cons_some hsome, List.append_assoc,
                List.singleton_append]

/-- The first damaged line of a file, if there is one, is a text. -/
def DamagedByZero (bytes : Bytes) : Prop :=
  (lines bytes).find? isDamaged ≠ some none

instance (bytes : Bytes) : Decidable (DamagedByZero bytes) :=
  inferInstanceAs (Decidable (_ ≠ _))

/-! ## The files -/

/-- The options when the file of the user is kept: all that are on its lines, and no mark. -/
def keptOptions (dist : List Str) (bytes : Bytes) (reported : Str) : List Str :=
  let user := (lines bytes).filterMap optionOf
  notOverridden dist user ++ user ++ vmOptionsFileMarkers reported false

/-- The options when the file of the user is marked as corrupted: none of them is the user's. -/
def markedOptions (dist : List Str) (reported : Str) : List Str :=
  dist ++ vmOptionsFileMarkers reported true

/-- The file of the user is kept as a whole, or it is marked as corrupted. -/
def KeptOrMarked (config : DefaultLaunchConfiguration) (os : Os) (dist vmOptions : List Str)
    (bytes : Bytes) (reported : Str) : Prop :=
  (none ∉ lines bytes ∧ config.collectVmOptionsFromFiles os vmOptions =
      .ok (vmOptions ++ keptOptions dist bytes reported)) ∨
    config.collectVmOptionsFromFiles os vmOptions = .ok (vmOptions ++ markedOptions dist reported)

/-- Without options of the user, nothing is overridden. -/
theorem notOverridden_nil (dist : List Str) : notOverridden dist [] = dist := by
  simp [notOverridden]

section

variable {config : DefaultLaunchConfiguration} {os : Os} {dist : List Str} {path : Path}
  {bytes : Bytes}

/-- What is collected when the file of the user was found. -/
theorem collect_of_user (hdist : readVmOptions os config.vmOptionsPath = .ok (dist, false))
    (huser : config.getUserVmOptionsFile os = .ok path) {vmOptions result : List Str} :
    config.collectVmOptionsFromFiles os vmOptions = .ok result ↔
      ∃ user corrupted reported, readVmOptions os path = .ok (user, corrupted) ∧
        path.toStr = some reported ∧
          result = vmOptions ++ notOverridden dist user ++ user ++
            vmOptionsFileMarkers reported corrupted := by
  have hread : ∀ user corrupted, config.readUserVmOptions os = .ok ((user, corrupted), path) ↔
      readVmOptions os path = .ok (user, corrupted) := by
    intro user corrupted
    unfold readUserVmOptions
    rw [huser]
    dsimp only
    cases readVmOptions os path <;> simp [bind, Except.bind, pure, Except.pure]
  have hchecked : ∀ reported, path.toStringChecked = .ok reported ↔
      path.toStr = some reported := by
    intro reported
    unfold Path.toStringChecked
    cases path.toStr <;> simp [bail]
  rw [collectVmOptionsFromFiles_ok]
  constructor
  · rintro ⟨dist', user, corrupted, reported, ⟨hdist', file, hfile, hreported⟩, rfl⟩
    have hsame : file = path := by
      unfold readUserVmOptions at hfile
      rw [huser] at hfile
      obtain ⟨_, _, hpure⟩ := bind_eq_ok.mp hfile
      cases hpure
      rfl
    subst hsame
    cases hdist.symm.trans hdist'
    exact ⟨user, corrupted, reported, (hread _ _).mp hfile, (hchecked _).mp hreported, rfl⟩
  · rintro ⟨user, corrupted, reported, hfile, hreported, rfl⟩
    exact ⟨dist, user, corrupted, reported,
      ⟨hdist, path, (hread _ _).mpr hfile, (hchecked _).mpr hreported⟩, rfl⟩

/-- A damaged file of the user never stops the launch exactly when its first damaged line is a
text, and the path to it, which is reported, is a text too. -/
theorem damage_marked_iff (hdist : readVmOptions os config.vmOptionsPath = .ok (dist, false))
    (huser : config.getUserVmOptionsFile os = .ok path) (hread : os.read path = some bytes)
    (vmOptions : List Str) :
    (∃ reported, path.toStr = some reported ∧
        KeptOrMarked config os dist vmOptions bytes reported) ↔
      DamagedByZero bytes ∧ path.toStr.isSome = true := by
  have hlines : readVmOptions os path = readVmOptionLines path [] (lines bytes) := by
    simp [readVmOptions, hread]
  unfold KeptOrMarked DamagedByZero
  constructor
  · rintro ⟨reported, hreported, hok⟩
    refine ⟨?_, by rw [hreported]; rfl⟩
    intro hdamaged
    have hcollected : ∃ result, config.collectVmOptionsFromFiles os vmOptions = .ok result := by
      rcases hok with ⟨-, hok⟩ | hok <;> exact ⟨_, hok⟩
    obtain ⟨result, hcollected⟩ := hcollected
    obtain ⟨user, corrupted, _, hfile, -⟩ := (collect_of_user hdist huser).mp hcollected
    rw [hlines, readVmOptionLines_eq, hdamaged] at hfile
    cases hfile
  · rintro ⟨hdamaged, hsome⟩
    obtain ⟨reported, hreported⟩ := Option.isSome_iff_exists.mp hsome
    refine ⟨reported, hreported, ?_⟩
    rw [collect_of_user hdist huser, collect_of_user hdist huser, hlines, readVmOptionLines_eq]
    cases hfirst : (lines bytes).find? isDamaged with
    | none =>
        refine .inl ⟨fun hmem => ?_, _, false, reported, rfl, hreported, ?_⟩
        · exact absurd rfl (List.find?_eq_none.mp hfirst none hmem)
        · simp [keptOptions]
    | some line =>
        cases line with
        | none => exact absurd hfirst hdamaged
        | some line =>
            refine .inr ⟨[], true, reported, rfl, hreported, ?_⟩
            simp [markedOptions, notOverridden_nil]

end

/-! ## A small launch -/

/-- A user's file with any bytes. -/
def smallOsWith (dist : Str) (user : Bytes) : Os where
  envVar _ := none
  homeDir := some (Path.ofStr (lit "/home/me"))
  isDir _ := false
  isFile path := path = Path.ofStr (lit "/opt/idea.vmoptions")
  read path :=
    if path = Path.ofStr (lit "/opt/idea.vmoptions") then some user
    else if path = Path.ofStr (lit "/opt/idea/bin/idea64.vmoptions") then some (Path.ofStr dist)
    else none

/-- A zero character stands before bytes that are no text. -/
theorem damage_marked_iff_small :
    (∃ reported, (Path.ofStr (lit "/opt/idea.vmoptions")).toStr = some reported ∧
      KeptOrMarked smallLaunch (smallOsWith (lit "-Xms128m\n") [0x2D, 0x00, 0x0A, 0xFF])
        [lit "-Xms128m"] [] [0x2D, 0x00, 0x0A, 0xFF] reported) ↔
      DamagedByZero [0x2D, 0x00, 0x0A, 0xFF] ∧
        (Path.ofStr (lit "/opt/idea.vmoptions")).toStr.isSome = true :=
  damage_marked_iff (by decide +kernel) (by decide +kernel) (by decide +kernel) []

/-- A comment with a byte that is no text stops the launch. -/
theorem damaged_comment_stops_launch :
    ¬ ∀ (config : DefaultLaunchConfiguration) (os : Os) (dist : List Str) (path : Path)
        (bytes : Bytes), readVmOptions os config.vmOptionsPath = .ok (dist, false) →
      config.getUserVmOptionsFile os = .ok path → os.read path = some bytes →
        ∀ vmOptions, ∃ reported, path.toStr = some reported ∧
          KeptOrMarked config os dist vmOptions bytes reported := by
  intro h
  obtain ⟨reported, -, hok⟩ := h smallLaunch (smallOsWith (lit "-Xms128m\n") [0x23, 0xFF, 0x0A])
    [lit "-Xms128m"] (Path.ofStr (lit "/opt/idea.vmoptions")) [0x23, 0xFF, 0x0A]
    (by decide +kernel) (by decide +kernel) (by decide +kernel) []
  have hstopped : smallLaunch.collectVmOptionsFromFiles
      (smallOsWith (lit "-Xms128m\n") [0x23, 0xFF, 0x0A]) [] =
        bail (lit "Cannot read: ") (Path.ofStr (lit "/opt/idea.vmoptions")) := by
    decide +kernel
  unfold KeptOrMarked at hok
  rw [hstopped] at hok
  rcases hok with ⟨-, hok⟩ | hok <;> cases hok

end Launcher
end IdeMultiarch
