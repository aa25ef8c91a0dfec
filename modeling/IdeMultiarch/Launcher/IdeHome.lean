import IdeMultiarch.Launcher.Std
import IdeMultiarch.Library.Results

/-!
# Launcher - the home of the IDE

The launcher looks for the descriptor of the product in the directories above its own file, and
then above the file that its path resolves to.  Running out of directories in the first search is
an error, so a short path ends the search before the second one.

Main results:

- Theorem {lit}`traverseParents_eq`: the nearest home, nothing, or an error at the root.
- Theorem {lit}`finds_nearest_iff`: when the home is found wherever it is.
-/

namespace IdeMultiarch
namespace Launcher

open Library.Results (bind_eq_ok)

/-! ## Paths -/

/-- {lit}`Path::components`: the root, a dot in front, and the pieces that stand for something. -/
def Path.components (path : Path) : List Path :=
  let pieces := path.splitOn SLASH
  let rest := pieces.filter fun piece => !isTrivialPiece piece
  if path.head? = some SLASH then [SLASH] :: rest
  else if pieces.head? = some (Path.ofStr (lit ".")) then Path.ofStr (lit ".") :: rest
  else rest

/-- {lit}`parent_or_err` -/
def Path.parentOrErr (path : Path) : Except Error Path :=
  match path.parent with
  | none => bail (lit "No parent dir for ") path
  | some parent => .ok parent

/-! ## The search -/

/-- {lit}`IDE_HOME_LOOKUP_DEPTH` -/
def IDE_HOME_LOOKUP_DEPTH : Nat := 5

/-- {lit}`PRODUCT_INFO_REL_PATH` -/
def PRODUCT_INFO_REL_PATH : Path := Path.ofStr (lit "product-info.json")

section

variable (os : Os) (canonicalize : Path → Option Path)

/-- The loop of {lit}`traverse_parents`. -/
def traverseParentsFrom : Nat → Path → Except Error (Option (Path × Path))
  | 0, _ => .ok none
  | depth + 1, candidate => do
      let candidate ← candidate.parentOrErr
      let productInfoPath := candidate.join PRODUCT_INFO_REL_PATH
      if os.isFile productInfoPath then return some (candidate, productInfoPath)
      else traverseParentsFrom depth candidate

/-- {lit}`traverse_parents` -/
def traverseParents (candidate : Path) : Except Error (Option (Path × Path)) :=
  traverseParentsFrom os IDE_HOME_LOOKUP_DEPTH candidate

/-- The error when no home is near a path. -/
def maxLookupDepthReached : Error :=
  ⟨lit "Max lookup depth (5) reached", none⟩

/-- {lit}`find_ide_home` -/
def findIdeHome (currentExe : Path) : Except Error (Path × Path) := do
  match ← traverseParents os currentExe with
  | some paths => return paths
  | none =>
      match canonicalize currentExe with
      | none => bail (lit "Resolving symlinks in ") currentExe
      | some dereferenced =>
          if dereferenced.components ≠ currentExe.components then
            match ← traverseParents os dereferenced with
            | some paths => return paths
            | none => .error maxLookupDepthReached
          else .error maxLookupDepthReached

/-! ## What is looked for -/

/-- The ancestors of a path, the nearest first, up to a depth. -/
def nearestAncestors : Nat → Path → List Path
  | 0, _ => []
  | depth + 1, path =>
      match path.parent with
      | none => []
      | some parent => parent :: nearestAncestors depth parent

/-- The nearest ancestor with a descriptor, and the descriptor. -/
def nearestHome (depth : Nat) (path : Path) : Option (Path × Path) :=
  ((nearestAncestors depth path).find? fun ancestor =>
    os.isFile (ancestor.join PRODUCT_INFO_REL_PATH)).map fun ancestor =>
      (ancestor, ancestor.join PRODUCT_INFO_REL_PATH)

/-- The home that belongs to a path and to what it resolves to. -/
def homeOf (path resolved : Path) : Option (Path × Path) :=
  match nearestHome os IDE_HOME_LOOKUP_DEPTH path with
  | some home => some home
  | none =>
      if resolved.components ≠ path.components then nearestHome os IDE_HOME_LOOKUP_DEPTH resolved
      else none

/-- The search succeeds exactly when there is a home, and finds the nearest one. -/
def FindsNearest (path resolved : Path) : Prop :=
  ∀ home, findIdeHome os canonicalize path = .ok home ↔ homeOf os path resolved = some home

end

/-! ## Properties -/

section

variable {os : Os} {canonicalize : Path → Option Path}

theorem nearestHome_succ (depth : Nat) {path parent : Path} (hparent : path.parent = some parent) :
    nearestHome os (depth + 1) path =
      if os.isFile (parent.join PRODUCT_INFO_REL_PATH) then
        some (parent, parent.join PRODUCT_INFO_REL_PATH)
      else nearestHome os depth parent := by
  unfold nearestHome
  rw [nearestAncestors, hparent]
  dsimp only
  rw [List.find?_cons]
  cases os.isFile (parent.join PRODUCT_INFO_REL_PATH) <;> rfl

/-- The search ends at the nearest home, at its depth, or with an error at the root. -/
theorem traverseParentsFrom_ok (depth : Nat) (path : Path) {found : Option (Path × Path)} :
    traverseParentsFrom os depth path = .ok found ↔
      nearestHome os depth path = found ∧
        ((nearestAncestors depth path).length = depth ∨ found.isSome = true) := by
  induction depth generalizing path with
  | zero =>
      have hnone : nearestHome os 0 path = none := rfl
      rw [traverseParentsFrom, hnone]
      simp [nearestAncestors]
  | succ depth ih =>
      rw [traverseParentsFrom, Path.parentOrErr]
      cases hparent : path.parent with
      | none =>
          have hnone : nearestHome os (depth + 1) path = none := by
            simp [nearestHome, nearestAncestors, hparent]
          rw [hnone]
          simp only [nearestAncestors, hparent, List.length_nil]
          constructor
          · intro h
            cases h
          · rintro ⟨rfl, h | h⟩
            · omega
            · cases h
      | some parent =>
          rw [nearestHome_succ depth hparent]
          simp only [nearestAncestors, hparent, List.length_cons, Nat.add_right_cancel_iff, bind,
            Except.bind]
          split
          · constructor
            · intro h
              cases h
              exact ⟨rfl, .inr rfl⟩
            · rintro ⟨rfl, -⟩
              rfl
          · exact ih parent

/-- A home near a path is found. -/
theorem traverseParents_some {path : Path} {home : Path × Path}
    (h : nearestHome os IDE_HOME_LOOKUP_DEPTH path = some home) :
    traverseParents os path = .ok (some home) :=
  (traverseParentsFrom_ok _ _).mpr ⟨h, .inr rfl⟩

/-- Without a home near it, a deep path gives nothing. -/
theorem traverseParents_none {path : Path}
    (h : nearestHome os IDE_HOME_LOOKUP_DEPTH path = none)
    (hdeep : (nearestAncestors IDE_HOME_LOOKUP_DEPTH path).length = IDE_HOME_LOOKUP_DEPTH) :
    traverseParents os path = .ok none :=
  (traverseParentsFrom_ok _ _).mpr ⟨h, .inl hdeep⟩

/-- Without a home near it, a path near the root gives an error. -/
theorem traverseParents_error {path : Path}
    (h : nearestHome os IDE_HOME_LOOKUP_DEPTH path = none)
    (hshallow : (nearestAncestors IDE_HOME_LOOKUP_DEPTH path).length ≠ IDE_HOME_LOOKUP_DEPTH) :
    ∃ failure, traverseParents os path = .error failure := by
  cases htraverse : traverseParents os path with
  | error failure => exact ⟨failure, rfl⟩
  | ok found =>
      obtain ⟨hfound, hlength | hsome⟩ := (traverseParentsFrom_ok _ _).mp htraverse
      · exact absurd hlength hshallow
      · rw [← hfound, h] at hsome
        cases hsome

/-- What is found above the file that a path resolves to. -/
theorem findIdeHome_resolved {path resolved : Path} (hown : traverseParents os path = .ok none)
    (hresolved : canonicalize path = some resolved) {home : Path × Path} :
    findIdeHome os canonicalize path = .ok home ↔ resolved.components ≠ path.components ∧
      nearestHome os IDE_HOME_LOOKUP_DEPTH resolved = some home := by
  unfold findIdeHome
  rw [hown]
  simp only [bind, Except.bind, hresolved]
  by_cases hdiffers : resolved.components ≠ path.components
  · rw [if_pos hdiffers]
    cases hnearest : nearestHome os IDE_HOME_LOOKUP_DEPTH resolved with
    | some found =>
        rw [traverseParents_some hnearest]
        simp [pure, Except.pure, hdiffers]
    | none =>
        cases htraverse : traverseParents os resolved with
        | error failure => simp
        | ok found =>
            obtain ⟨hfound, -⟩ := (traverseParentsFrom_ok _ _).mp htraverse
            rw [hnearest] at hfound
            subst hfound
            simp
  · rw [if_neg hdiffers]
    simp [hdiffers]

/-- The home is found wherever it is, exactly when the path has enough ancestors, or a home near
it, or nothing is to be found above the file that it resolves to. -/
theorem finds_nearest_iff {path resolved : Path} (hresolved : canonicalize path = some resolved) :
    FindsNearest os canonicalize path resolved ↔
      (nearestAncestors IDE_HOME_LOOKUP_DEPTH path).length = IDE_HOME_LOOKUP_DEPTH ∨
        (nearestHome os IDE_HOME_LOOKUP_DEPTH path).isSome = true ∨
          resolved.components = path.components ∨
            nearestHome os IDE_HOME_LOOKUP_DEPTH resolved = none := by
  unfold FindsNearest homeOf
  cases hown : nearestHome os IDE_HOME_LOOKUP_DEPTH path with
  | some home =>
      refine iff_of_true (fun found => ?_) (.inr (.inl rfl))
      simp [findIdeHome, traverseParents_some hown, bind, Except.bind, pure, Except.pure]
  | none =>
      by_cases hdeep : (nearestAncestors IDE_HOME_LOOKUP_DEPTH path).length = IDE_HOME_LOOKUP_DEPTH
      · refine iff_of_true (fun found => ?_) (.inl hdeep)
        rw [findIdeHome_resolved (traverseParents_none hown hdeep) hresolved]
        dsimp only
        split <;> simp_all
      · -- the search is over before the resolved path is looked at
        obtain ⟨failure, hfailure⟩ := traverseParents_error hown hdeep
        have hnever : ∀ home, findIdeHome os canonicalize path ≠ .ok home := by
          intro home h
          simp [findIdeHome, hfailure, bind, Except.bind] at h
        simp only [hnever, false_iff, hdeep, Option.isSome_none, Bool.false_eq_true, false_or]
        constructor
        · intro h
          by_cases hsame : resolved.components = path.components
          · exact .inl hsame
          · refine .inr (Option.eq_none_iff_forall_ne_some.mpr fun home hhome => ?_)
            exact h home (by rw [if_pos hsame, hhome])
        · rintro (hsame | hnone) home
          · simp [hsame]
          · simp [hnone]

end

/-! ## A small file system -/

/-- A product in {lit}`/opt/idea`. -/
def smallHomeOs : Os where
  envVar _ := none
  homeDir := none
  isDir _ := false
  isFile path := path = Path.ofStr (lit "/opt/idea/product-info.json")
  read _ := none

/-- The launcher, and a link to it. -/
def smallCanonicalize (path : Path) : Option Path :=
  if path = Path.ofStr (lit "/usr/bin/idea") then some (Path.ofStr (lit "/opt/idea/bin/idea"))
  else some path

/-- The launcher itself is not deep, but its home is near, so it is found. -/
theorem finds_nearest_iff_small :
    findIdeHome smallHomeOs smallCanonicalize (Path.ofStr (lit "/opt/idea/bin/idea")) =
        .ok (Path.ofStr (lit "/opt/idea"), Path.ofStr (lit "/opt/idea/product-info.json")) ∧
      FindsNearest smallHomeOs smallCanonicalize (Path.ofStr (lit "/opt/idea/bin/idea"))
        (Path.ofStr (lit "/opt/idea/bin/idea")) := by
  have hnearest : FindsNearest smallHomeOs smallCanonicalize (Path.ofStr (lit "/opt/idea/bin/idea"))
      (Path.ofStr (lit "/opt/idea/bin/idea")) :=
    (finds_nearest_iff (by decide +kernel)).mpr (.inr (.inl (by decide +kernel)))
  exact ⟨(hnearest _).mpr (by decide +kernel), hnearest⟩

/-- The link has three ancestors, and the home behind it is not found. -/
theorem home_behind_link_missed :
    ¬ ∀ (os : Os) (canonicalize : Path → Option Path) (path resolved : Path),
      path.head? = some SLASH → canonicalize path = some resolved →
        FindsNearest os canonicalize path resolved := by
  intro h
  have hfinds := h smallHomeOs smallCanonicalize (Path.ofStr (lit "/usr/bin/idea"))
    (Path.ofStr (lit "/opt/idea/bin/idea")) (by decide +kernel) (by decide +kernel)
  have hmissed : findIdeHome smallHomeOs smallCanonicalize (Path.ofStr (lit "/usr/bin/idea")) ≠
      .ok (Path.ofStr (lit "/opt/idea"), Path.ofStr (lit "/opt/idea/product-info.json")) := by
    decide +kernel
  exact hmissed ((hfinds _).mpr (by decide +kernel))

end Launcher
end IdeMultiarch
