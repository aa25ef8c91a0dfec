import IdeMultiarch.FsNotifier.Mounts

/-!
# fsnotifier - the directories a walk skips

{lit}`register_roots` finds the mounts inside a root with {lit}`is_parent_path`, and the walk below
the root turns back where the name of such a mount is a prefix, byte by byte, of the name of a
directory.  The two agree unless such a prefix ends in the middle of a name; then the walk hides
a directory that no reported mount explains.

Main results:

- Theorem {lit}`skips_iff_crossed`: what the walk skips, in every world.
- Theorem {lit}`arrives_or_turns_back`: the first directory on the way that is skipped.
- Theorem {lit}`mountChecksAgree_iff`: when both checks agree.
- Theorem {lit}`sibling_of_mount_hidden`: the mount {lit}`/r/mnt` hides {lit}`/r/mnt2`.
-/

namespace IdeMultiarch
namespace FsNotifier

open Library Relation

/-! ## Skipping -/

/-- In whatever world and state, the walk turns back at {lit}`path` at once: it returns
{lit}`ERR_IGNORE` and changes nothing. -/
def Skips (mounts : List Bytes) (path : Bytes) : Prop :=
  ∀ {σ δ : Type} (os : Os σ δ) (fuel : Nat) (parent : Option Nat) (recursive : Bool)
    (s : State σ),
    (walkTree os (fuel + 1) path parent recursive mounts).run s = .ok (ERR_IGNORE, s)

/-- Some mount is at or above the path, as {lit}`is_parent_path` has it. -/
def Under (mounts : List Bytes) (path : Bytes) : Prop :=
  ∃ mount ∈ mounts, isParentPath mount path = true

/-- A mount whose name is a prefix of the path ends at a boundary of a name, or another mount is
at or above the path. -/
def NotCutShort (mounts : List Bytes) (path : Bytes) : Prop :=
  (∃ mount ∈ mounts, mount <+: path) → ∃ mount ∈ mounts, isParentPath mount path = true

/-- A world in which every call fails with an error that {lit}`walk_tree` does not expect. -/
def broken : Os Unit Unit
  | .inotifyAddWatch _, _ => (.error (.other 5), ())
  | .inotifyRmWatch _, _ => (.error (.other 5), ())
  | .opendir _, _ => (.error (.other 5), ())
  | .readdir _, _ => (none, ())
  | .stat _, _ => (.error (.other 5), ())
  | .realpath _, _ => (none, ())
  | .read, _ => (.error (.other 5), ())
  | .getmntent, _ => (none, ())

/-- The walk skips a path if and only if the name of a mount is a prefix of it. -/
theorem skips_iff_crossed (mounts : List Bytes) (path : Bytes) :
    Skips mounts path ↔ Crossed mounts path := by
  constructor
  · intro hskips
    by_contra hnot
    have hrun := hskips broken 0 none true (start () 1 Nat.one_pos)
    unfold walkTree at hrun
    rw [if_neg (fun hany => hnot ((crossed_iff_any mounts path).mp hany))] at hrun
    have hcode : ERR_CONTINUE = ERR_IGNORE := congrArg Prod.fst (Except.ok.inj hrun)
    exact absurd hcode (by decide)
  · intro hcrossed σ δ os fuel parent recursive s
    unfold walkTree
    rw [if_pos ((crossed_iff_any mounts path).mpr hcrossed)]
    rfl

/-- A mount at or above a path is a prefix of it. -/
theorem Under.crossed {mounts : List Bytes} {path : Bytes} (h : Under mounts path) :
    Crossed mounts path := by
  obtain ⟨mount, hmem, hbelow⟩ := h
  refine ⟨mount, hmem, ?_⟩
  rcases (isParentPath_iff _ _).mp hbelow with rfl | ⟨rest, rfl⟩
  · exact List.prefix_rfl
  · exact List.prefix_append _ _

/-- At one path both checks agree if and only if no prefix is cut short there. -/
theorem skips_iff_under_iff (mounts : List Bytes) (path : Bytes) :
    (Skips mounts path ↔ Under mounts path) ↔ NotCutShort mounts path := by
  rw [skips_iff_crossed]
  exact ⟨fun h => h.mp, fun h => ⟨h, Under.crossed⟩⟩

/-! ## A walk on a disk -/

/-- The mounts that {lit}`register_roots` passes to {lit}`watch`. -/
def Disk.passedMounts (disk : Disk) (root : Bytes) : List Bytes :=
  (checkMounts (unflatten root) disk.unwatchable).innerMounts

/-- The walk from {lit}`top` meets {lit}`path`: it is a directory in one that the walk has
watched. -/
def Disk.MeetsFrom (disk : Disk) (recursive : Bool) (mounts : List Bytes) (top path : Bytes) :
    Prop :=
  ∃ parent, disk.Arrives recursive mounts top parent ∧ disk.Leads recursive [] parent path

/-- The walk that {lit}`register_roots` starts at a root meets {lit}`path`. -/
def Disk.Meets (disk : Disk) (root path : Bytes) : Prop :=
  ∃ recursive, disk.mode root = some recursive ∧
    (checkMounts (unflatten root) disk.unwatchable).skip = false ∧
    disk.MeetsFrom recursive (disk.passedMounts root) (rootPath root) path

section Arriving

variable {disk : Disk} {recursive : Bool} {mounts : List Bytes} {top path : Bytes}

/-- On the way to a directory, the walk arrives there, or it turns back at a directory that it
meets at or above it. -/
theorem arrives_or_turns_back (htop : ¬ Crossed mounts top)
    (hpath : ReflTransGen (disk.Leads recursive []) top path) :
    disk.Arrives recursive mounts top path ∨
      ∃ met, disk.MeetsFrom recursive mounts top met ∧ Crossed mounts met ∧
        isParentPath met path = true := by
  induction hpath with
  | refl => exact Or.inl ⟨htop, .refl⟩
  | @tail p q _ hstep ih =>
      obtain ⟨hrec, hwd, entries, hopen, entry, hmem, hdir, rfl, hnil⟩ := hstep
      rcases ih with harrives | ⟨met, hmet, hcrossed, hbelow⟩
      · by_cases hcross : Crossed mounts (p ++ slash :: entry.name)
        · refine Or.inr ⟨p ++ slash :: entry.name, ⟨p, harrives, ?_⟩, hcross, isParentPath_refl _⟩
          exact ⟨hrec, hwd, entries, hopen, entry, hmem, hdir, rfl, hnil⟩
        · refine Or.inl ⟨htop, harrives.2.tail ?_⟩
          exact ⟨hrec, hwd, entries, hopen, entry, hmem, hdir, rfl, hcross⟩
      · exact Or.inr ⟨met, hmet, hcrossed, isParentPath_entry entry.name hbelow⟩

/-- A root that is not skipped is not crossed by the mounts inside it. -/
theorem not_crossed_rootPath {root : Bytes} {mountTable : List Bytes}
    (hskip : (checkMounts (unflatten root) mountTable).skip = false) :
    ¬ Crossed (checkMounts (unflatten root) mountTable).innerMounts (rootPath root) := by
  rintro ⟨mount, hmem, hpre⟩
  rw [checkMounts_innerMounts hskip, List.mem_filter] at hmem
  obtain ⟨hmount, hinner⟩ := hmem
  have hroot : rootPath root <+: unflatten root := by
    unfold rootPath unflatten
    dsimp only
    split
    · exact List.dropLast_prefix _
    · exact List.prefix_rfl
  have heq : mount = unflatten root := by
    have hle := (hpre.trans hroot).length_le
    rcases (isParentPath_iff _ _).mp hinner with heq | ⟨rest, heq⟩
    · exact heq
    · rw [heq, List.length_append, List.length_cons] at hle
      omega
  rw [(checkMounts_skip _ _).mpr ⟨mount, hmount, by rw [heq]; exact isParentPath_refl _⟩] at hskip
  contradiction

end Arriving

/-! ## Both checks -/

/-- Both mount checks agree below a root: the walk skips exactly the directories below a mount
inside the root, and after the root is registered every accessible directory is watched, or
it is below a mount that was reported, or the root itself was. -/
structure MountChecksAgree (disk : Disk) (root : Bytes) : Prop where
  skipped : ∀ path, disk.Meets root path →
    (Skips (disk.passedMounts root) path ↔ Under (disk.passedMounts root) path)
  explained : ∀ {capacity : Nat} (K : KernelView (diskOs disk) capacity) (fuel : Nat)
    (s s' : State (List Nat)) (reported : List Bytes), Inv K s →
    (registerRoots (diskOs disk) fuel disk.unwatchable [root] []).run s =
      .ok ((true, reported), s') →
    ∀ path, disk.Accessible root path →
      (∃ wd, s'.Holds path wd) ∨
      (∃ mount ∈ disk.unwatchable, mount ∈ reported ∧ isParentPath mount path = true) ∨
      unflatten root ∈ reported

section Registering

variable {disk : Disk} {capacity : Nat} {K : KernelView (diskOs disk) capacity}
  {s s' : State (List Nat)}

/-- After a walk that did not fail, an accessible directory is watched or below a mount, where no
prefix is cut short. -/
theorem RootTour.watched_or_under {root path : Bytes} {r : Int}
    (hr : RootTour K root (disk.passedMounts root) s r s') (hok : 0 ≤ r ∨ r = ERR_IGNORE)
    (hskip : (checkMounts (unflatten root) disk.unwatchable).skip = false)
    (hcut : ∀ path, disk.Meets root path → NotCutShort (disk.passedMounts root) path)
    (hpath : disk.Accessible root path) :
    (∃ wd, s'.Holds path wd) ∨ Under (disk.passedMounts root) path := by
  obtain ⟨recursive, wd, hmode, hwatches⟩ := hpath
  have htop : ¬ Crossed (disk.passedMounts root) (rootPath root) := not_crossed_rootPath hskip
  rcases arrives_or_turns_back htop hwatches.arrives.2 with harrives | ⟨met, hmet, hcross, hbelow⟩
  · exact Or.inl ⟨wd, (hr.tour hmode).held hok path wd
      ⟨harrives, hwatches.lists, hwatches.answer⟩⟩
  · right
    obtain ⟨mount, hmem, hmount⟩ := hcut met ⟨recursive, hmode, hskip, hmet⟩ hcross
    exact ⟨mount, hmem, isParentPath_trans hmount hbelow⟩

/-- What {lit}`register_roots` reports explains every directory that is not watched, where no
prefix is cut short. -/
theorem explained_of_notCutShort {root : Bytes} (habs : (unflatten root).head? = some slash)
    (hcut : ∀ path, disk.Meets root path → NotCutShort (disk.passedMounts root) path)
    (h : Inv K s) {fuel : Nat} {reported : List Bytes}
    (hrun : (registerRoots (diskOs disk) fuel disk.unwatchable [root] []).run s =
      .ok ((true, reported), s')) {path : Bytes} (hpath : disk.Accessible root path) :
    (∃ wd, s'.Holds path wd) ∨
      (∃ mount ∈ disk.unwatchable, mount ∈ reported ∧ isParentPath mount path = true) ∨
      unflatten root ∈ reported := by
  rw [registerRoots_cons _ fuel _ [] [] habs] at hrun
  dsimp only at hrun
  rw [List.nil_append] at hrun
  cases hskip : (checkMounts (unflatten root) disk.unwatchable).skip with
  | true =>
      rw [if_pos hskip] at hrun
      obtain ⟨partly, -, hreport⟩ := checkMounts_unwatchable_of_skip hskip
      cases hrun
      exact Or.inr (Or.inr (by simp [hreport]))
  | false =>
      rw [if_neg (Bool.eq_false_iff.mp hskip)] at hrun
      obtain ⟨r, s₁, hwatch, hrecord⟩ := run_bind_eq_ok hrun
      have hr : RootTour K root (disk.passedMounts root) s r s₁ :=
        run_of_wp (wp_watch_tour h fuel root _) hwatch
      -- a mount that was passed on was reported
      have hunder : Under (disk.passedMounts root) path →
          ∃ mount ∈ disk.unwatchable,
            mount ∈ (checkMounts (unflatten root) disk.unwatchable).unwatchable ∧
              isParentPath mount path = true := by
        rintro ⟨mount, hmem, hmount⟩
        have hmem' := hmem
        unfold Disk.passedMounts at hmem hmem'
        rw [checkMounts_innerMounts hskip] at hmem'
        rw [checkMounts_unwatchable hskip]
        exact ⟨mount, (List.mem_filter.mp hmem').1, hmem, hmount⟩
      unfold recordWatch at hrecord
      split at hrecord
      · rename_i hrecorded
        cases hrecord
        rcases hrecorded with hnonneg | hmissing
        · rcases hr.watched_or_under (Or.inl hnonneg) hskip hcut hpath with hheld | hu
          · exact Or.inl hheld
          · exact Or.inr (Or.inl (hunder hu))
        · -- a missing root has no accessible directories
          obtain ⟨recursive, wd, hmode, -⟩ := hpath
          have hcode := hr.code (by rw [hmode]; simp)
          subst hmissing
          exact absurd hcode (by decide)
      · split at hrecord
        · cases hrecord
        · split at hrecord
          · cases hrecord
            exact Or.inr (Or.inr (by simp))
          · rename_i hignore
            cases hrecord
            rcases hr.watched_or_under (Or.inr (not_not.mp hignore)) hskip hcut hpath
              with hheld | hu
            · exact Or.inl hheld
            · exact Or.inr (Or.inl (hunder hu))

/-- Both mount checks agree below an absolute root if and only if, at every directory that the
walk meets, a mount inside the root whose name is a prefix ends at a boundary, or another one is
at or above the directory. -/
theorem mountChecksAgree_iff {root : Bytes} (habs : (unflatten root).head? = some slash) :
    MountChecksAgree disk root ↔
      ∀ path, disk.Meets root path → NotCutShort (disk.passedMounts root) path := by
  constructor
  · intro h path hmeets
    exact (skips_iff_under_iff _ path).mp (h.skipped path hmeets)
  · intro hcut
    constructor
    · intro path hmeets
      exact (skips_iff_under_iff _ path).mpr (hcut path hmeets)
    · intro capacity K fuel s s' reported h hrun path hpath
      exact explained_of_notCutShort habs hcut h hrun hpath

end Registering

/-! ## A directory beside a mount -/

/-- A disk with the network mount {lit}`/r/mnt` and another directory beside it. -/
def mountDisk (name : Bytes) : Disk where
  stat _ := .ok .dir
  opendir path := .ok (if path = cstr "/r" then [⟨cstr "mnt", .DT_DIR⟩, ⟨name, .DT_DIR⟩] else [])
  addWatch path := .ok path.length
  mounts := [⟨cstr "/r/mnt", cstr "nfs"⟩]

/-- The walk below {lit}`/r` meets nothing but the two directories. -/
theorem mountDisk_meets {name path : Bytes} (h : (mountDisk name).Meets (cstr "/r") path) :
    path = cstr "/r/mnt" ∨ path = cstr "/r/" ++ name := by
  obtain ⟨recursive, -, -, parent, -, -, -, entries, hopen, entry, hmem, -, rfl, -⟩ := h
  have hentries : entries = if parent = cstr "/r" then
      [⟨cstr "mnt", .DT_DIR⟩, ⟨name, .DT_DIR⟩] else [] := (Except.ok.inj hopen).symm
  by_cases hparent : parent = cstr "/r"
  · rw [if_pos hparent] at hentries
    subst hentries hparent
    rcases List.mem_cons.mp hmem with rfl | hmem
    · exact Or.inl (by decide)
    · rw [List.mem_singleton.mp hmem]
      exact Or.inr rfl
  · rw [if_neg hparent] at hentries
    subst hentries
    contradiction

/-- Beside {lit}`/r/mnt`, the directory {lit}`/r/data` is no trouble. -/
theorem mountChecksAgree_iff_data : MountChecksAgree (mountDisk (cstr "data")) (cstr "/r") := by
  refine (mountChecksAgree_iff (by decide)).mpr ?_
  intro path hmeets
  have hpassed : (mountDisk (cstr "data")).passedMounts (cstr "/r") = [cstr "/r/mnt"] := by decide
  rw [hpassed]
  rcases mountDisk_meets hmeets with rfl | rfl
  · intro _
    exact ⟨cstr "/r/mnt", by simp, by decide⟩
  · rintro ⟨mount, hmem, hpre⟩
    rw [List.mem_singleton.mp hmem] at hpre
    exact absurd hpre (by decide)

/-- Beside {lit}`/r/mnt`, the directory {lit}`/r/mnt2` is not watched, although the kernel would
watch it, and no reported mount is above it. -/
theorem sibling_of_mount_hidden :
    ∃ s', (registerRoots (diskOs (mountDisk (cstr "mnt2"))) 5
        (mountDisk (cstr "mnt2")).unwatchable [cstr "/r"] []).run (start [] 16 (by decide)) =
        .ok ((true, [cstr "/r/mnt"]), s') ∧
      s'.heap.next = 1 ∧ s'.heap.get 0 = some ⟨2, none, [], cstr "/r"⟩ ∧
      (mountDisk (cstr "mnt2")).Meets (cstr "/r") (cstr "/r/mnt2") ∧
      isParentPath (cstr "/r/mnt") (cstr "/r/mnt2") = false ∧
      ¬ MountChecksAgree (mountDisk (cstr "mnt2")) (cstr "/r") := by
  have hregister : returned ((registerRoots (diskOs (mountDisk (cstr "mnt2"))) 5
      (mountDisk (cstr "mnt2")).unwatchable [cstr "/r"] []).run (start [] 16 (by decide)))
      (true, [cstr "/r/mnt"])
      (fun s => s.heap.next = 1 ∧ s.heap.get 0 = some ⟨2, none, [], cstr "/r"⟩) = true := by
    decide +kernel
  obtain ⟨s', hrun, htest⟩ := exists_of_returned hregister
  obtain ⟨hnext, hroot⟩ := of_decide_eq_true htest
  have hpassed : (mountDisk (cstr "mnt2")).passedMounts (cstr "/r") = [cstr "/r/mnt"] := by decide
  have htop : ¬ Crossed [cstr "/r/mnt"] (cstr "/r") := by
    rw [← crossed_iff_any]
    decide
  have hmeets : (mountDisk (cstr "mnt2")).Meets (cstr "/r") (cstr "/r/mnt2") := by
    refine ⟨true, by decide, by decide, cstr "/r", ?_, rfl, ⟨2, rfl⟩, _, rfl,
      ⟨cstr "mnt2", .DT_DIR⟩, ?_, by decide, by decide, not_crossed_nil _⟩
    · rw [hpassed]
      exact ⟨htop, .refl⟩
    · simp
  refine ⟨s', hrun, hnext, hroot, hmeets, by decide, ?_⟩
  intro hagree
  have hcut := (skips_iff_under_iff _ _).mp (hagree.skipped _ hmeets)
  rw [hpassed] at hcut
  obtain ⟨mount, hmem, hmount⟩ := hcut ⟨cstr "/r/mnt", by simp, by decide⟩
  rw [List.mem_singleton.mp hmem] at hmount
  exact absurd hmount (by decide)

end FsNotifier
end IdeMultiarch
