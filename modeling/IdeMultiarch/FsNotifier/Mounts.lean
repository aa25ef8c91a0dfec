import IdeMultiarch.FsNotifier.Restore

/-!
# fsnotifier - mounts by path components

{lit}`register_roots` compares a root with every unwatchable mount, byte by byte and with one
look at the boundary of a component.  On paths without a trailing slash this is the prefix
order on lists of names, except that nothing but itself lies below the root directory.

Main results:

- Theorem {lit}`isParentPath_spell`: the comparison, on lists of names.
- Theorem {lit}`registerRoots_cons`: one root, by the result of the mount check.
- Theorem {lit}`classifiedByComponents_iff`: when mounts are classified by components.
- Theorem {lit}`mount_at_root_missed`: a mount at {lit}`/` does not cover {lit}`/home`.
-/

namespace IdeMultiarch
namespace FsNotifier

open Library

variable {σ δ : Type}

/-! ## Normalised paths -/

/-- A normalised absolute path: no trailing slash, except for the root directory. -/
def spell (path : Path) : Bytes :=
  if path = [] then [slash] else render path

@[simp]
theorem spell_nil : spell [] = [slash] :=
  rfl

theorem spell_of_ne_nil {path : Path} (h : path ≠ []) : spell path = render path :=
  if_neg h

theorem spell_head (path : Path) : (spell path).head? = some slash := by
  cases path with
  | nil => rfl
  | cons name path => rfl

/-- A path that is not the root directory goes on after the first slash, and not with another. -/
theorem render_eq_cons {path : Path} (hp : ValidPath path) (h : path ≠ []) :
    ∃ b rest, render path = slash :: b :: rest ∧ b ≠ slash := by
  cases path with
  | nil => exact absurd rfl h
  | cons name path =>
      have hvalid := hp name List.mem_cons_self
      cases hname : name with
      | nil => exact absurd hname (ne_nil_of_validName hvalid)
      | cons b rest =>
          refine ⟨b, rest ++ render path, by simp [render_cons], ?_⟩
          rintro rfl
          apply not_slash_of_validName hvalid
          simp [hname]

/-- One normalised path is below another if it extends it, but only the root directory
itself is below the root directory. -/
theorem isParentPath_spell {p q : Path} (hp : ValidPath p) (hq : ValidPath q) :
    isParentPath (spell p) (spell q) = true ↔ p <+: q ∧ (p = [] → q = []) := by
  by_cases hpnil : p = []
  · subst hpnil
    by_cases hqnil : q = []
    · subst hqnil
      simp [isParentPath_refl]
    · obtain ⟨b, rest, hrender, hb⟩ := render_eq_cons hq hqnil
      rw [spell_of_ne_nil hqnil, hrender, spell_nil, isParentPath_iff]
      simp [hqnil, hb]
  · rw [spell_of_ne_nil hpnil]
    by_cases hqnil : q = []
    · subst hqnil
      obtain ⟨b, rest, hrender, -⟩ := render_eq_cons hp hpnil
      rw [hrender, spell_nil, isParentPath_iff]
      simp [hpnil]
    · rw [spell_of_ne_nil hqnil, isParentPath_render hp hq]
      simp [hpnil]

/-! ## The mount check -/

/-- A mount inside the root that does not cover it. -/
def isInside (unflattened mount : Bytes) : Bool :=
  isParentPath unflattened mount && !isParentPath mount unflattened

/-- What a skipped root reports besides itself are mounts inside it. -/
theorem checkMounts_unwatchable_of_skip {unflattened : Bytes} {mounts : List Bytes}
    (hskip : (checkMounts unflattened mounts).skip = true) :
    ∃ partly : List Bytes, partly.Sublist (mounts.filter (isInside unflattened)) ∧
      (checkMounts unflattened mounts).unwatchable = partly ++ [unflattened] := by
  induction mounts with
  | nil => contradiction
  | cons mount mounts ih =>
      unfold checkMounts at hskip ⊢
      by_cases hcover : isParentPath mount unflattened = true
      · rw [if_pos hcover]
        exact ⟨[], List.nil_sublist _, rfl⟩
      · rw [if_neg hcover] at hskip ⊢
        dsimp only at hskip ⊢
        cases hinner : isParentPath unflattened mount with
        | false =>
            rw [hinner, if_neg (by simp)] at hskip
            obtain ⟨partly, hsub, heq⟩ := ih hskip
            rw [if_neg (by simp), List.filter_cons_of_neg (by simp [isInside, hinner])]
            exact ⟨partly, hsub, heq⟩
        | true =>
            rw [hinner, if_pos rfl] at hskip
            obtain ⟨partly, hsub, heq⟩ := ih hskip
            rw [if_pos rfl, List.filter_cons_of_pos (by simp [isInside, hinner, hcover])]
            exact ⟨mount :: partly, hsub.cons_cons mount, by rw [heq, List.cons_append]⟩

/-- A root that is not skipped passes on the mounts inside it. -/
theorem checkMounts_innerMounts_isInside {unflattened : Bytes} {mounts : List Bytes}
    (hskip : (checkMounts unflattened mounts).skip = false) :
    (checkMounts unflattened mounts).innerMounts = mounts.filter (isInside unflattened) := by
  rw [checkMounts_innerMounts hskip]
  apply List.filter_congr
  intro mount hmem
  have hcover : isParentPath mount unflattened = false := by
    by_contra hne
    rw [(checkMounts_skip _ _).mpr ⟨mount, hmem, by simpa using hne⟩] at hskip
    contradiction
  simp [isInside, hcover]

/-- A root that is not skipped reports exactly the mounts it passes on. -/
theorem checkMounts_unwatchable {unflattened : Bytes} {mounts : List Bytes}
    (hskip : (checkMounts unflattened mounts).skip = false) :
    (checkMounts unflattened mounts).unwatchable =
      (checkMounts unflattened mounts).innerMounts := by
  induction mounts with
  | nil => rfl
  | cons mount mounts ih =>
      unfold checkMounts at hskip ⊢
      by_cases hcover : isParentPath mount unflattened = true
      · rw [if_pos hcover] at hskip
        contradiction
      · rw [if_neg hcover] at hskip ⊢
        dsimp only at hskip ⊢
        cases hinner : isParentPath unflattened mount with
        | false =>
            rw [hinner, if_neg (by simp)] at hskip
            rw [if_neg (by simp), ih hskip]
        | true =>
            rw [hinner, if_pos rfl] at hskip
            rw [if_pos rfl, ih hskip]

/-! ## Registering one root -/

/-- What {lit}`register_roots` does with the answer of {lit}`watch`, and then with the roots that
follow. -/
def recordWatch (os : Os σ δ) (fuel : Nat) (mounts : List Bytes) (newRoot : Bytes)
    (newRoots : List Bytes) (unwatchable : List Bytes) (id : Int) :
    Notifier σ (Bool × List Bytes) :=
  if 0 ≤ id ∨ id = ERR_MISSING then do
    modify fun s => { s with roots := s.roots ++ [⟨newRoot, id⟩] }
    registerRoots os fuel mounts newRoots unwatchable
  else if id = ERR_ABORT then
    pure (false, unwatchable)
  else if id ≠ ERR_IGNORE then
    registerRoots os fuel mounts newRoots (unwatchable ++ [unflatten newRoot])
  else
    registerRoots os fuel mounts newRoots unwatchable

/-- One absolute root is skipped or watched, as the mount check says. -/
theorem registerRoots_cons (os : Os σ δ) (fuel : Nat) (mounts : List Bytes) {newRoot : Bytes}
    (newRoots : List Bytes) (unwatchable : List Bytes)
    (habs : (unflatten newRoot).head? = some slash) :
    registerRoots os fuel mounts (newRoot :: newRoots) unwatchable =
      let check := checkMounts (unflatten newRoot) mounts
      if check.skip then
        registerRoots os fuel mounts newRoots (unwatchable ++ check.unwatchable)
      else
        watch os fuel newRoot check.innerMounts >>=
          recordWatch os fuel mounts newRoot newRoots (unwatchable ++ check.unwatchable) := by
  rw [registerRoots]
  dsimp only
  rw [if_neg (by simp [habs])]
  rfl

/-! ## Mounts by components -/

/-- Some mount is at or above the root. -/
def CoveredBy (mounts : List Path) (root : Path) : Prop :=
  ∃ mount ∈ mounts, mount <+: root

/-- The mounts strictly below the root, as they are spelled. -/
def strictlyInside (mounts : List Path) (root : Path) : List Bytes :=
  (mounts.filter fun mount => root <+: mount ∧ root ≠ mount).map spell

/-- A root that a mount covers is reported as unwatchable and not watched; any other root is
watched without exactly the mounts strictly below it, and each of these is reported. -/
structure ClassifiedByComponents (mounts : List Path) (root : Path) (newRoot : Bytes) : Prop where
  covered : CoveredBy mounts root →
    ∃ partly : List Bytes, partly.Sublist (strictlyInside mounts root) ∧
      ∀ {σ δ : Type} (os : Os σ δ) (fuel : Nat) (newRoots unwatchable : List Bytes),
        registerRoots os fuel (mounts.map spell) (newRoot :: newRoots) unwatchable =
          registerRoots os fuel (mounts.map spell) newRoots
            (unwatchable ++ (partly ++ [spell root]))
  open_ : ¬ CoveredBy mounts root →
    ∀ {σ δ : Type} (os : Os σ δ) (fuel : Nat) (newRoots unwatchable : List Bytes),
      registerRoots os fuel (mounts.map spell) (newRoot :: newRoots) unwatchable =
        watch os fuel newRoot (strictlyInside mounts root) >>=
          recordWatch os fuel (mounts.map spell) newRoot newRoots
            (unwatchable ++ strictlyInside mounts root)

/-- The root directory does not decide: as a mount it is not needed to cover the root, and as
a root it has no mounts strictly below it, unless it is a mount itself. -/
structure RootDirectoryIdle (mounts : List Path) (root : Path) : Prop where
  asMount : root ≠ [] → [] ∈ mounts → ∃ mount ∈ mounts, mount ≠ [] ∧ mount <+: root
  asRoot : root = [] → mounts ≠ [] → [] ∈ mounts

section Components

variable {mounts : List Path} {root : Path}

/-- On lists of names, {lit}`register_roots` skips a root that a mount covers, unless this
mount is the root directory and the root is not. -/
theorem checkMounts_skip_spell (hmounts : ∀ m ∈ mounts, ValidPath m) (hroot : ValidPath root) :
    (checkMounts (spell root) (mounts.map spell)).skip = true ↔
      ∃ mount ∈ mounts, mount <+: root ∧ (mount = [] → root = []) := by
  rw [checkMounts_skip]
  constructor
  · rintro ⟨_, hmem, hcover⟩
    obtain ⟨mount, hmount, rfl⟩ := List.mem_map.mp hmem
    exact ⟨mount, hmount, (isParentPath_spell (hmounts mount hmount) hroot).mp hcover⟩
  · rintro ⟨mount, hmount, hcover⟩
    exact ⟨spell mount, List.mem_map_of_mem hmount,
      (isParentPath_spell (hmounts mount hmount) hroot).mpr hcover⟩

/-- Below a root other than the root directory, the mounts inside it are the ones strictly
below it. -/
theorem filter_isInside_spell (hmounts : ∀ m ∈ mounts, ValidPath m) (hroot : ValidPath root)
    (hne : root ≠ []) :
    (mounts.map spell).filter (isInside (spell root)) = strictlyInside mounts root := by
  unfold strictlyInside
  rw [List.filter_map]
  congr 1
  apply List.filter_congr
  intro mount hmem
  have hbelow := isParentPath_spell hroot (hmounts mount hmem)
  have habove := isParentPath_spell (hmounts mount hmem) hroot
  rw [Function.comp_apply, isInside, Bool.eq_iff_iff, Bool.and_eq_true, hbelow,
    Bool.not_eq_true', ← Bool.not_eq_true, habove, decide_eq_true_iff]
  constructor
  · rintro ⟨⟨hpre, -⟩, hnot⟩
    refine ⟨hpre, ?_⟩
    rintro rfl
    exact hnot ⟨List.prefix_rfl, id⟩
  · rintro ⟨hpre, hdiff⟩
    refine ⟨⟨hpre, fun hnil => absurd hnil hne⟩, ?_⟩
    rintro ⟨hback, -⟩
    exact hdiff (hpre.eq_of_length_le hback.length_le)

/-- Strictly inside the root directory the source finds nothing. -/
theorem filter_isInside_root (hmounts : ∀ m ∈ mounts, ValidPath m) :
    (mounts.map spell).filter (isInside (spell [])) = [] := by
  rw [List.filter_eq_nil_iff]
  intro spelled hmem hinside
  obtain ⟨mount, hmount, rfl⟩ := List.mem_map.mp hmem
  obtain ⟨hbelow, hnot⟩ := Bool.and_eq_true_iff.mp hinside
  have hnil : mount = [] :=
    ((isParentPath_spell (by simp [ValidPath]) (hmounts mount hmount)).mp hbelow).2 rfl
  subst hnil
  rw [isParentPath_refl] at hnot
  contradiction

/-- What the source finds inside a root is strictly below it. -/
theorem filter_isInside_sublist (hmounts : ∀ m ∈ mounts, ValidPath m) (hroot : ValidPath root) :
    ((mounts.map spell).filter (isInside (spell root))).Sublist (strictlyInside mounts root) := by
  by_cases hne : root = []
  · subst hne
    rw [filter_isInside_root hmounts]
    exact List.nil_sublist _
  · rw [filter_isInside_spell hmounts hroot hne]

/-- Where the root directory does not decide, mounts are classified by components. -/
theorem RootDirectoryIdle.classified (h : RootDirectoryIdle mounts root)
    (hmounts : ∀ m ∈ mounts, ValidPath m) (hroot : ValidPath root) {newRoot : Bytes}
    (hspell : unflatten newRoot = spell root) : ClassifiedByComponents mounts root newRoot := by
  have habs : (unflatten newRoot).head? = some slash := by
    rw [hspell]
    exact spell_head root
  have hskip := checkMounts_skip_spell hmounts hroot
  constructor
  · rintro ⟨mount, hmem, hpre⟩
    have htrue : (checkMounts (spell root) (mounts.map spell)).skip = true := by
      rw [hskip]
      by_cases hdecides : mount = [] ∧ root ≠ []
      · obtain ⟨rfl, hne⟩ := hdecides
        obtain ⟨other, hother, hnonempty, hcovers⟩ := h.asMount hne hmem
        exact ⟨other, hother, hcovers, fun hnil => absurd hnil hnonempty⟩
      · exact ⟨mount, hmem, hpre, fun hnil => by_contra fun hne => hdecides ⟨hnil, hne⟩⟩
    obtain ⟨partly, hsub, hreport⟩ := checkMounts_unwatchable_of_skip htrue
    refine ⟨partly, hsub.trans (filter_isInside_sublist hmounts hroot), ?_⟩
    intro σ δ os fuel newRoots unwatchable
    rw [registerRoots_cons os fuel _ newRoots unwatchable habs, hspell]
    dsimp only
    rw [if_pos htrue, hreport]
  · intro hopen σ δ os fuel newRoots unwatchable
    have hfalse : (checkMounts (spell root) (mounts.map spell)).skip = false := by
      by_contra hne
      obtain ⟨mount, hmem, hpre, -⟩ := hskip.mp (by simpa using hne)
      exact hopen ⟨mount, hmem, hpre⟩
    have hinner : (checkMounts (spell root) (mounts.map spell)).innerMounts =
        strictlyInside mounts root := by
      rw [checkMounts_innerMounts_isInside hfalse]
      by_cases hne : root = []
      · subst hne
        have hnone : mounts = [] := by
          by_contra hsome
          exact hopen ⟨[], h.asRoot rfl hsome, List.prefix_rfl⟩
        subst hnone
        rfl
      · exact filter_isInside_spell hmounts hroot hne
    rw [registerRoots_cons os fuel _ newRoots unwatchable habs, hspell]
    dsimp only
    rw [if_neg (Bool.eq_false_iff.mp hfalse), checkMounts_unwatchable hfalse, hinner]

/-! ## A world without files -/

/-- A world in which no path exists. -/
def nowhere : Os Unit Unit
  | .inotifyAddWatch _, _ => (.error .ENOENT, ())
  | .inotifyRmWatch _, _ => (.ok (), ())
  | .opendir _, _ => (.error .ENOENT, ())
  | .readdir _, _ => (none, ())
  | .stat _, _ => (.error .ENOENT, ())
  | .realpath _, _ => (none, ())
  | .read, _ => (.ok [], ())
  | .getmntent, _ => (some [], ())

/-- Where no path exists every root is missing. -/
theorem watch_nowhere (fuel : Nat) (root : Bytes) (innerMounts : List Bytes) (s : State Unit) :
    (watch nowhere fuel root innerMounts).run s = .ok (ERR_MISSING, s) :=
  rfl

/-- A missing root is recorded, with what the mount check reports. -/
theorem recordWatch_nowhere (fuel : Nat) (mountTable : List Bytes) (newRoot : Bytes)
    (innerMounts unwatchable : List Bytes) (s : State Unit) :
    (watch nowhere fuel newRoot innerMounts >>=
      recordWatch nowhere fuel mountTable newRoot [] unwatchable).run s =
      .ok ((true, unwatchable), { s with roots := s.roots ++ [⟨newRoot, ERR_MISSING⟩] }) := by
  rw [run_bind_of_run (watch_nowhere fuel newRoot innerMounts s)]
  rfl

namespace ClassifiedByComponents

variable {newRoot : Bytes}

/-- A mount at the root directory alone does not cover another root. -/
theorem asMount (h : ClassifiedByComponents mounts root newRoot)
    (hmounts : ∀ m ∈ mounts, ValidPath m) (hroot : ValidPath root)
    (hspell : unflatten newRoot = spell root) (hne : root ≠ []) (hmem : [] ∈ mounts) :
    ∃ mount ∈ mounts, mount ≠ [] ∧ mount <+: root := by
  by_contra hnone
  have hfalse : (checkMounts (spell root) (mounts.map spell)).skip = false := by
    by_contra hskip
    obtain ⟨mount, hmount, hpre, hnil⟩ :=
      (checkMounts_skip_spell hmounts hroot).mp (by simpa using hskip)
    exact hnone ⟨mount, hmount, fun hm => hne (hnil hm), hpre⟩
  obtain ⟨partly, -, hskipped⟩ := h.covered ⟨[], hmem, List.nil_prefix⟩
  -- where no path exists, the root is recorded instead of being skipped
  have hrun := congrArg (fun m => m.run (start () 1 Nat.one_pos))
    (hskipped nowhere 0 [] [])
  have habs : (unflatten newRoot).head? = some slash := by
    rw [hspell]
    exact spell_head root
  rw [registerRoots_cons nowhere 0 _ [] [] habs, hspell] at hrun
  dsimp only at hrun
  rw [if_neg (Bool.eq_false_iff.mp hfalse), recordWatch_nowhere] at hrun
  have hroots : ([⟨newRoot, ERR_MISSING⟩] : List WatchRoot) = [] :=
    congrArg (fun result => result.2.roots) (Except.ok.inj hrun)
  contradiction

/-- Mounts strictly below the root directory are not found. -/
theorem asRoot (h : ClassifiedByComponents mounts root newRoot)
    (hmounts : ∀ m ∈ mounts, ValidPath m) (hspell : unflatten newRoot = spell root)
    (hnil : root = []) (hsome : mounts ≠ []) : [] ∈ mounts := by
  subst hnil
  by_contra hmem
  have hvalid : ValidPath [] := by simp [ValidPath]
  have hopen : ¬ CoveredBy mounts [] := by
    rintro ⟨mount, hmount, hpre⟩
    exact hmem (List.prefix_nil.mp hpre ▸ hmount)
  have hfalse : (checkMounts (spell []) (mounts.map spell)).skip = false := by
    by_contra hskip
    obtain ⟨mount, hmount, hpre, -⟩ :=
      (checkMounts_skip_spell hmounts hvalid).mp (by simpa using hskip)
    exact hopen ⟨mount, hmount, hpre⟩
  have hrun := congrArg (fun m => m.run (start () 1 Nat.one_pos)) (h.open_ hopen nowhere 0 [] [])
  have habs : (unflatten newRoot).head? = some slash := by
    rw [hspell]
    exact spell_head []
  rw [registerRoots_cons nowhere 0 _ [] [] habs, hspell] at hrun
  dsimp only at hrun
  rw [if_neg (Bool.eq_false_iff.mp hfalse), recordWatch_nowhere, recordWatch_nowhere,
    checkMounts_unwatchable hfalse, checkMounts_innerMounts_isInside hfalse,
    filter_isInside_root hmounts] at hrun
  obtain ⟨mount, hmount⟩ := List.exists_mem_of_ne_nil _ hsome
  have hinside : spell mount ∈ strictlyInside mounts [] := by
    refine List.mem_map_of_mem (List.mem_filter.mpr ⟨hmount, ?_⟩)
    have hne : [] ≠ mount := by
      rintro rfl
      exact hmem hmount
    simp [hne]
  have hempty : strictlyInside mounts [] = [] := by
    have hpair := congrArg Prod.fst (Except.ok.inj hrun)
    simpa using (congrArg Prod.snd hpair).symm
  rw [hempty] at hinside
  contradiction

end ClassifiedByComponents

/-- Mounts are classified by components if and only if the root directory does not decide: it
is no mount that alone covers the root, and no root with mounts strictly below it that is not a
mount itself. -/
theorem classifiedByComponents_iff (hmounts : ∀ m ∈ mounts, ValidPath m) (hroot : ValidPath root)
    {newRoot : Bytes} (hspell : unflatten newRoot = spell root) :
    ClassifiedByComponents mounts root newRoot ↔ RootDirectoryIdle mounts root := by
  constructor
  · intro h
    exact ⟨h.asMount hmounts hroot hspell, h.asRoot hmounts hspell⟩
  · intro h
    exact h.classified hmounts hroot hspell

end Components

/-- A network mount inside {lit}`/home` and one beside it are classified by components. -/
theorem classifiedByComponents_iff_home :
    ClassifiedByComponents [[cstr "home", cstr "nfs"], [cstr "srv"]] [cstr "home"]
      (cstr "/home") := by
  have hmounts : ∀ m ∈ [[cstr "home", cstr "nfs"], [cstr "srv"]], ValidPath m := by decide
  have hroot : ValidPath [cstr "home"] := by decide
  refine (classifiedByComponents_iff hmounts hroot (by decide)).mpr ⟨?_, ?_⟩
  · intro _ hmem
    exact absurd hmem (by decide)
  · intro hnil
    exact absurd hnil (by decide)

/-- A mount at {lit}`/` covers {lit}`/home`, but {lit}`register_roots` does not see it. -/
theorem mount_at_root_missed :
    CoveredBy [[]] [cstr "home"] ∧
      checkMounts (cstr "/home") [cstr "/"] = ⟨false, [], []⟩ ∧
      ¬ ClassifiedByComponents [[]] [cstr "home"] (cstr "/home") := by
  have hmounts : ∀ m ∈ [([] : Path)], ValidPath m := by decide
  have hroot : ValidPath [cstr "home"] := by decide
  refine ⟨⟨[], by simp, List.nil_prefix⟩, by decide, ?_⟩
  intro h
  obtain ⟨mount, hmem, hne, -⟩ := h.asMount hmounts hroot (by decide) (by simp) (by simp)
  exact hne (by simpa using hmem)

end FsNotifier
end IdeMultiarch
