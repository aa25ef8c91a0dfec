import IdeMultiarch.FsNotifier.Consistency
import IdeMultiarch.FsNotifier.FailedWatch
import IdeMultiarch.FsNotifier.Tour

/-!
# fsnotifier - restoring a missing root

A root comes to be watched in two ways: {lit}`register_roots` looks at the mount table first,
{lit}`check_missing_roots` passes no mounts to {lit}`watch`.  On one and the same disk the two come to the
same exactly if no unwatchable mount covers the root or a directory that can be reached below it and
the walk without mounts goes through, or if neither walk does.

Main results:

- Theorem {lit}`wp_watch_tour`: what {lit}`watch` of a root watches.
- Theorem {lit}`restored_iff_registered`: when restoring a root equals registering it.
- Theorem {lit}`restored_on_fuse`: a root that is watched although it lies on a network mount.
-/

namespace IdeMultiarch
namespace FsNotifier

open Library

/-! ## Roots on a disk -/

/-- The mounts {lit}`unwatchable_mounts` finds. -/
def Disk.unwatchable (disk : Disk) : List Bytes :=
  (disk.mounts.filter fun ent => ent.type != cstr "ignore" && !isWatchable ent.type).map (·.dir)

/-- Whether {lit}`watch` walks a root recursively; {lit}`none` if it does not walk it at all. -/
def Disk.mode (disk : Disk) (root : Bytes) : Option Bool :=
  match disk.stat (splitRoot root).2 with
  | .ok .reg => some false
  | .ok .dir => some (splitRoot root).1
  | _ => none

/-- The directories that a walk from the root watches where no mount is in its way. -/
def Disk.Accessible (disk : Disk) (root path : Bytes) : Prop :=
  ∃ recursive wd, disk.mode root = some recursive ∧
    disk.Watches recursive [] (rootPath root) path wd

/-- A path is at or below the directory of a mount. -/
def Covers (mount path : Bytes) : Prop :=
  ∃ rest, path = mount ++ rest ∧
    (rest = [] ∨ rest.head? = some slash ∨ mount.getLast? = some slash)

/-- {lit}`register_roots` watches the root: it is an absolute path other than the whole tree, and no
unwatchable mount is at or above it. -/
structure Disk.Offers (disk : Disk) (root : Bytes) : Prop where
  absolute : (unflatten root).head? = some slash
  partly : root ≠ cstr "/"
  outside : ∀ mount ∈ disk.unwatchable, isParentPath mount (unflatten root) = false

/-- No unwatchable mount covers the root or a directory that is accessible below it, nor does the
name of a mount inside the root start the name of such a directory. -/
structure Disk.Unmounted (disk : Disk) (root : Bytes) : Prop where
  offers : disk.Offers root
  apart : ∀ path, disk.Accessible root path → ∀ mount ∈ disk.unwatchable,
    ¬ Covers mount path ∧ (isParentPath (unflatten root) mount = true → ¬ mount <+: path)

/-- A walk of the root that keeps out of {lit}`mounts` can be completed by a notifier which holds the
descriptors {lit}`held`: the root itself can be watched, no directory that the walk comes to makes it
fail, and no two of the descriptors are in one slot of the table. -/
structure Disk.Watchable (disk : Disk) (capacity : Nat) (root : Bytes) (mounts : List Bytes)
    (held : Bytes → Nat → Prop) (recursive : Bool) : Prop where
  mode : disk.mode root = some recursive
  top : ∃ wd, disk.Watches recursive mounts (rootPath root) (rootPath root) wd
  smooth : ¬ disk.Fails recursive mounts (rootPath root)
  apart : ∀ path wd path' wd', disk.Watches recursive mounts (rootPath root) path wd →
    (held path' wd' ∨ disk.Watches recursive mounts (rootPath root) path' wd') →
      wd' % capacity = wd % capacity → wd' = wd ∧ path' = path

/-- The mounts inside a root, as {lit}`register_roots` passes them to {lit}`watch`. -/
def Disk.innerMounts (disk : Disk) (root : Bytes) : List Bytes :=
  disk.unwatchable.filter fun mount => isParentPath (unflatten root) mount

/-- The walk of {lit}`check_missing_roots` can be completed: it knows of no mounts, and the notifier
holds what it holds. -/
def Disk.Restorable (disk : Disk) (capacity : Nat) (root : Bytes) (held : Bytes → Nat → Prop) :
    Prop :=
  ∃ recursive, disk.Watchable capacity root [] held recursive

/-- The walk of {lit}`register_roots` is begun and can be completed, by a notifier that holds nothing:
it keeps out of the mounts inside the root. -/
def Disk.Registrable (disk : Disk) (capacity : Nat) (root : Bytes) : Prop :=
  disk.Offers root ∧ ∃ recursive,
    disk.Watchable capacity root (disk.innerMounts root) (fun _ _ => False) recursive

/-- The directory has a node whose descriptor is in the kernel's list. -/
def OnBehalf (s : State (List Nat)) (path : Bytes) : Prop :=
  ∃ wd ∈ s.os, s.Holds path wd

/-! ## The mount check -/

/-- The loop over the mount table skips a root that a mount covers. -/
theorem checkMounts_skip (unflattened : Bytes) (mounts : List Bytes) :
    (checkMounts unflattened mounts).skip = true ↔
      ∃ mount ∈ mounts, isParentPath mount unflattened = true := by
  induction mounts with
  | nil => simp [checkMounts]
  | cons mount mounts ih =>
      unfold checkMounts
      rw [List.exists_mem_cons_iff, ← ih]
      by_cases hcover : isParentPath mount unflattened = true
      · rw [if_pos hcover]
        simp [hcover]
      · rw [if_neg hcover]
        dsimp only
        split <;> simp [hcover]

/-- A root that is not skipped is walked without the mounts inside it. -/
theorem checkMounts_innerMounts {unflattened : Bytes} {mounts : List Bytes}
    (hskip : (checkMounts unflattened mounts).skip = false) :
    (checkMounts unflattened mounts).innerMounts =
      mounts.filter fun mount => isParentPath unflattened mount := by
  induction mounts with
  | nil => rfl
  | cons mount mounts ih =>
      unfold checkMounts at hskip ⊢
      by_cases hcover : isParentPath mount unflattened = true
      · rw [if_pos hcover] at hskip
        contradiction
      · rw [if_neg hcover] at hskip ⊢
        dsimp only at hskip ⊢
        cases hinner : isParentPath unflattened mount with
        | false =>
            rw [hinner, if_neg (by simp)] at hskip
            rw [if_neg (by simp), List.filter_cons_of_neg (by simp [hinner]), ih hskip]
        | true =>
            rw [hinner, if_pos rfl] at hskip
            rw [if_pos rfl, List.filter_cons_of_pos (by simp [hinner]), ih hskip]

/-- On an unmounted root nothing accessible is crossed. -/
theorem Disk.Unmounted.not_crossed {disk : Disk} {root path : Bytes} (h : disk.Unmounted root)
    (hpath : disk.Accessible root path) : ¬ Crossed (disk.innerMounts root) path := by
  rintro ⟨mount, hmem, hprefix⟩
  obtain ⟨hmount, hinner⟩ := List.mem_filter.mp hmem
  exact (h.apart path hpath mount hmount).2 hinner hprefix

/-! ## Watching a root -/

/-- What {lit}`watch` of a root does on a disk when it returns {lit}`r`. -/
structure RootTour {disk : Disk} {capacity : Nat} (K : KernelView (diskOs disk) capacity)
    (root : Bytes) (mounts : List Bytes) (s : State (List Nat)) (r : Int)
    (s' : State (List Nat)) : Prop where
  inv : Inv K s'
  walked : Walked (fun _ => True) s s'
  unwalked : disk.mode root = none → r < 0
  code : disk.mode root ≠ none → (0 ≤ r ∨ r = ERR_IGNORE) ∨ r = ERR_CONTINUE ∨ r = ERR_ABORT
  tour : ∀ {recursive}, disk.mode root = some recursive →
    Tour capacity (disk.Watches recursive mounts (rootPath root))
      (disk.Fails recursive mounts (rootPath root)) s r s'
  top : ∀ {recursive}, disk.mode root = some recursive → 0 ≤ r →
    ∃ wd, disk.Watches recursive mounts (rootPath root) (rootPath root) wd
  untop : ∀ {recursive}, disk.mode root = some recursive → r = ERR_IGNORE →
    ∀ wd, ¬ disk.Watches recursive mounts (rootPath root) (rootPath root) wd
  grows : 0 ≤ r ∨ r = ERR_IGNORE → Grows s s'

section Watching

variable {disk : Disk} {capacity : Nat} {s s' : State (List Nat)}
  {K : KernelView (diskOs disk) capacity}

theorem RootTour.frame {root : Bytes} {mounts : List Bytes} {r : Int}
    (h : RootTour K root mounts s r s') (limit : Bool) (out : Bytes) :
    RootTour K root mounts s r { s' with limitReached := limit, stdout := out } :=
  ⟨h.inv.frame _ _ _, ⟨h.walked.next_le, h.walked.capacity, h.walked.roots, h.walked.old,
    h.walked.born⟩, h.unwalked, h.code, fun hmode => (h.tour hmode).frame _ _ _, h.top, h.untop, h.grows⟩

/-- A root that is not walked. -/
theorem RootTour.unwatched {root : Bytes} {mounts : List Bytes} {r : Int} (h : Inv K s)
    (hmode : disk.mode root = none) (hr : r < 0) : RootTour K root mounts s r s := by
  refine ⟨h, .of_same rfl rfl rfl, fun _ => hr, fun hwalked => absurd hmode hwalked, ?_, ?_, ?_,
    fun _ => Grows.of_same rfl⟩
  all_goals
    intro recursive hwalked
    rw [hmode] at hwalked
    contradiction

/-- A root that is walked. -/
theorem wp_walkTree_root (h : Inv K s) {root : Bytes} (recursive : Bool)
    (hmode : disk.mode root = some recursive) (fuel : Nat) (mounts : List Bytes) :
    wp fuelOnly (walkTree (diskOs disk) fuel (rootPath root) none recursive mounts)
      (RootTour K root mounts s) s := by
  have habove : ParentAbove s.heap none (rootPath root) := by simp [ParentAbove]
  refine wp_weaken (wp_and (wp_walkTree fuel (rootPath root) none recursive mounts s h habove)
    (wp_walkTree_tour recursive mounts fuel (rootPath root) none s h habove)) fun r s' hr => ?_
  obtain ⟨hresult, ⟨htour, htop, huntop⟩⟩ := hr
  refine ⟨hresult.inv, hresult.walked.mono fun _ _ => trivial, ?_, ?_, ?_, ?_, ?_, hresult.grows⟩
  · intro hnone
    rw [hmode] at hnone
    contradiction
  · exact fun _ => or_assoc.mpr hresult.code
  all_goals
    intro recursive' hmode'
    rw [hmode] at hmode'
    cases hmode'
  · exact htour
  · exact htop
  · exact huntop

/-- {lit}`watch` on a disk watches what the walk from the root does. -/
theorem wp_watch_tour (h : Inv K s) (fuel : Nat) (root : Bytes) (mounts : List Bytes) :
    wp fuelOnly (watch (diskOs disk) fuel root mounts) (RootTour K root mounts s) s := by
  unfold watch
  rw [wp_bind, wp_sys]
  have hans : diskOs disk (.stat (splitRoot root).2) s.os =
      (disk.stat (splitRoot root).2, s.os) := rfl
  rw [hans]
  have hmode : disk.mode root = match disk.stat (splitRoot root).2 with
      | .ok .reg => some false
      | .ok .dir => some (splitRoot root).1
      | _ => none := rfl
  cases hstat : disk.stat (splitRoot root).2 with
  | error e =>
      rw [hstat] at hmode
      dsimp only
      split
      · exact .unwatched h hmode (by dsimp only; decide)
      · split
        · exact .unwatched h hmode (by dsimp only; decide)
        · exact .unwatched h hmode (by dsimp only; decide)
  | ok type =>
      rw [hstat] at hmode
      cases type with
      | reg => exact wp_walkTree_root h false hmode fuel mounts
      | dir => exact wp_walkTree_root h (splitRoot root).1 hmode fuel mounts
      | other => exact .unwatched h hmode (by dsimp only; decide)

/-- A walk of a root is completed exactly when it can be. -/
theorem RootTour.ok_iff {root : Bytes} {mounts : List Bytes} {r : Int}
    (h : RootTour K root mounts s r s') :
    0 ≤ r ↔ ∃ recursive, disk.Watchable capacity root mounts s.Holds recursive := by
  constructor
  · intro hr
    cases hmode : disk.mode root with
    | none => exact absurd (h.unwalked hmode) (by omega)
    | some recursive =>
        have htour := h.tour hmode
        refine ⟨recursive, hmode, h.top hmode hr, htour.smooth (Or.inl hr), ?_⟩
        intro path wd path' wd' hw hheld hslot
        have hholds : s'.Holds path' wd' := hheld.elim
          (fun hold => hold.grows (h.grows (Or.inl hr))) (htour.held (Or.inl hr) path' wd')
        exact h.inv.apart (htour.held (Or.inl hr) path wd hw) hholds hslot
  · rintro ⟨recursive, hmode, ⟨wd, htop⟩, hsmooth, hapart⟩
    rcases h.code (by rw [hmode]; simp) with (hr | hignore) | hfailed
    · exact hr
    · exact absurd htop (h.untop hmode hignore wd)
    · rcases (h.tour hmode).failed hfailed with hfails | ⟨path, wd, path', wd', hw, hheld, hslot, hne⟩
      · exact absurd hfails hsmooth
      · obtain ⟨hwd, hpath⟩ := hapart path wd path' wd' hw hheld hslot
        exact (hne.elim (fun hne => hne hwd) fun hne => hne hpath).elim

/-- {lit}`update_roots` of one root on a disk: from a notifier without nodes, {lit}`watch` of the root,
which is recorded if that succeeds; or no node at all if the root is not offered. -/
structure Registered (K : KernelView (diskOs disk) capacity) (root : Bytes)
    (s' : State (List Nat)) : Prop where
  refused : ¬ disk.Offers root → (∀ a, s'.heap.get a = none) ∧ s'.roots = []
  offered : disk.Offers root → ∃ t r, (∀ a, t.heap.get a = none) ∧
    (∃ roots, RootTour K root (disk.innerMounts root) t r { s' with roots := roots }) ∧
    (0 ≤ r → ⟨root, r⟩ ∈ s'.roots) ∧ (r < 0 → ∀ x ∈ s'.roots, x.id < 0)

theorem Registered.frame {root : Bytes} (h : Registered K root s') (limit : Bool) (out : Bytes) :
    Registered K root { s' with limitReached := limit, stdout := out } := by
  refine ⟨h.refused, fun hoffers => ?_⟩
  obtain ⟨t, r, hempty, ⟨roots, htour⟩, hrecord⟩ := h.offered hoffers
  exact ⟨t, r, hempty, ⟨roots, htour.frame limit out⟩, hrecord⟩

/-- {lit}`register_roots` of one root, from a notifier without nodes and roots. -/
theorem wp_registerRoots_one (h : Inv K s) (hempty : ∀ a, s.heap.get a = none)
    (hroots : s.roots = []) {root : Bytes} (hpartly : root ≠ cstr "/") (fuel : Nat) :
    wp fuelOnly (registerRoots (diskOs disk) fuel disk.unwatchable [root] [])
      (fun _ s' => Registered K root s') s := by
  unfold registerRoots
  dsimp only
  by_cases habs : (unflatten root).head? ≠ some slash
  · rw [if_pos habs]
    exact ⟨fun _ => ⟨hempty, hroots⟩, fun hoffers => absurd hoffers.absolute habs⟩
  · rw [if_neg habs]
    cases hskip : (checkMounts (unflatten root) disk.unwatchable).skip with
    | true =>
        rw [if_pos rfl]
        obtain ⟨mount, hmem, hcover⟩ := (checkMounts_skip _ _).mp hskip
        refine ⟨fun _ => ⟨hempty, hroots⟩, fun hoffers => ?_⟩
        rw [hoffers.outside mount hmem] at hcover
        contradiction
    | false =>
        rw [if_neg (by simp), wp_bind, checkMounts_innerMounts hskip]
        have hoffers : disk.Offers root := by
          refine ⟨not_not.mp habs, hpartly, fun mount hmem => ?_⟩
          cases hcover : isParentPath mount (unflatten root) with
          | false => rfl
          | true =>
              rw [(checkMounts_skip _ _).mpr ⟨mount, hmem, hcover⟩] at hskip
              contradiction
        refine wp_weaken (wp_watch_tour h fuel root _) fun r s₁ hr => ?_
        have hroots₁ : s₁.roots = [] := hr.walked.roots.trans hroots
        have hfailed : r < 0 → Registered K root s₁ := by
          refine fun hneg => ⟨fun hno => absurd hoffers hno,
            fun _ => ⟨s, r, hempty, ⟨s₁.roots, hr⟩, fun hok => by omega, fun _ x hx => ?_⟩⟩
          rw [hroots₁] at hx
          contradiction
        split
        · rw [wp_bind, wp_modify]
          refine ⟨fun hno => absurd hoffers hno, fun _ => ⟨s, r, hempty, ⟨s₁.roots, hr⟩, ?_, ?_⟩⟩
          · intro _
            simp
          · intro hneg x hx
            rw [hroots₁] at hx
            simp only [List.nil_append, List.mem_singleton] at hx
            rw [hx]
            exact hneg
        · rename_i hrecord
          have hneg : r < 0 := by
            have := not_or.mp hrecord
            omega
          split
          · exact hfailed hneg
          · split
            · exact hfailed hneg
            · exact hfailed hneg

/-- {lit}`update_roots` of one root. -/
theorem wp_updateRoots_one (h : Good K s) (fuel : Nat) (root : Bytes) :
    wp fuelOnly (updateRoots (diskOs disk) fuel [root]) (fun _ s' => Registered K root s') s := by
  unfold updateRoots
  rw [wp_bind]
  refine wp_weaken (wp_unregisterRoots h) fun _ s₁ hs₁ => ?_
  obtain ⟨hgood, hroots⟩ := hs₁
  have hempty := hgood.no_nodes hroots
  rw [if_neg (by simp)]
  by_cases hwhole : [root] = [cstr "/"]
  · rw [if_pos hwhole, wp_bind, wp_output]
    exact ⟨fun _ => ⟨hempty, hroots⟩, fun hoffers => absurd (List.cons.inj hwhole).1 hoffers.partly⟩
  · rw [if_neg hwhole, wp_bind]
    unfold unwatchableMounts
    rw [wp_bind, wp_sys]
    have hans : diskOs disk .getmntent s₁.os = (some disk.mounts, s₁.os) := rfl
    rw [hans]
    dsimp only
    rw [wp_pure]
    dsimp only
    rw [wp_bind]
    refine wp_weaken (wp_registerRoots_one hgood.inv hempty hroots
      (fun heq => hwhole (by rw [heq])) fuel) fun result s₂ hs₂ => ?_
    split
    · exact hs₂
    · rw [wp_bind, wp_output, wp_bind]
      refine wp_weaken (wp_forM (fun _ s' => Registered K root s') ?_ _ _ (hs₂.frame _ _)) ?_
      · exact fun line _ s' hs' => hs'.frame _ _
      · exact fun _ s' hs' => hs'.frame _ _

/-- {lit}`check_missing_roots` watches a missing root with no regard to mounts. -/
theorem wp_checkMissingRootAt_disk (h : Inv K s) {i : Nat} {root : WatchRoot}
    (hroot : s.roots[i]? = some root) (hmissing : root.id < 0) (fuel : Nat) :
    wp fuelOnly (checkMissingRootAt (diskOs disk) fuel i)
      (fun _ s' => ∀ x, s'.roots[i]? = some x →
        (0 ≤ x.id ↔ disk.Restorable capacity root.path s.Holds) ∧
          (0 ≤ x.id → RootTour K root.path [] s x.id { s' with roots := s.roots })) s := by
  unfold checkMissingRootAt
  rw [wp_bind, wp_get, hroot]
  dsimp only
  rw [if_pos hmissing, wp_bind, wp_sys]
  have hans : diskOs disk (.stat (unflatten root.path)) s.os =
      (disk.stat (unflatten root.path), s.os) := rfl
  rw [hans]
  cases hstat : disk.stat (unflatten root.path) with
  | error e =>
      intro x hx
      have hx' : s.roots[i]? = some x := hx
      rw [hroot] at hx'
      cases hx'
      refine ⟨⟨fun hid => absurd hid (by omega), ?_⟩, fun hid => absurd hid (by omega)⟩
      rintro ⟨recursive, hwatchable⟩
      have hmode := hwatchable.mode
      unfold unflatten at hstat
      unfold Disk.mode at hmode
      rw [hstat] at hmode
      cases hmode
  | ok type =>
      dsimp only
      rw [wp_bind]
      refine wp_weaken (wp_watch_tour h fuel root.path []) fun r s₁ hr => ?_
      intro x hx
      have hi : i < s₁.roots.length := by
        rw [hr.walked.roots]
        exact (List.getElem?_eq_some_iff.mp hroot).1
      have hx' : (s₁.roots.set i { root with id := r })[i]? = some x := hx
      rw [List.getElem?_set_self hi] at hx'
      cases hx'
      have hroots : s₁.roots = s.roots := hr.walked.roots
      rw [← hroots]
      exact ⟨hr.ok_iff, fun _ => hr.frame _ _⟩

end Watching

/-! ## Restoring and registering -/

section Comparing

variable {disk : Disk} {capacity : Nat} {s s' : State (List Nat)}
  {K : KernelView (diskOs disk) capacity}

/-- A walk that starts with an empty list of the kernel's is on behalf of what it watches. -/
theorem Tour.onBehalf_iff {W : Bytes → Nat → Prop} {fails : Prop} {r : Int}
    (h : Tour capacity W fails s r s') (hok : 0 ≤ r ∨ r = ERR_IGNORE) (hinv : Inv K s')
    (hstart : s.os = []) (path : Bytes) : OnBehalf s' path ↔ ∃ wd, W path wd := by
  obtain ⟨new, hos, hnew⟩ := h.asked hok
  rw [hstart, List.append_nil] at hos
  constructor
  · rintro ⟨wd, hmem, a, n, hn, rfl, rfl⟩
    rw [hos] at hmem
    obtain ⟨path', hw⟩ := (hnew _).mp hmem
    obtain ⟨a', n', hn', rfl, hwd⟩ := h.held hok _ _ hw
    have ha := hinv.wellLinked.slotted.get_of_node hn
    rw [← hwd, hinv.wellLinked.slotted.get_of_node hn'] at ha
    cases ha
    rw [hn] at hn'
    cases hn'
    exact ⟨n.wd, hw⟩
  · rintro ⟨wd, hw⟩
    refine ⟨wd, ?_, h.held hok path wd hw⟩
    rw [hos]
    exact (hnew wd).mpr ⟨path, hw⟩

/-- In a notifier that had no nodes, every node is one that the walk has brought. -/
theorem Tour.born_of_empty {W : Bytes → Nat → Prop} {fails : Prop} {r : Int}
    (h : Tour capacity W fails s r s') (hwalked : Walked (fun _ => True) s s')
    (hempty : ∀ a, s.heap.get a = none) {path : Bytes} {wd : Nat} (hholds : s'.Holds path wd) :
    W path wd := by
  obtain ⟨a, n, hn, rfl, rfl⟩ := hholds
  refine h.born hn (Nat.not_lt.mp fun ha => ?_)
  obtain ⟨n₀, hn₀, -⟩ := hwalked.old hn ha
  rw [hempty a] at hn₀
  contradiction

/-- A root that was restored is watched with all that is accessible. -/
theorem RootTour.restored {root : Bytes} {r : Int} (h : RootTour K root [] s r s') (hr : 0 ≤ r)
    (hstart : s.os = []) (path : Bytes) : OnBehalf s' path ↔ disk.Accessible root path := by
  cases hmode : disk.mode root with
  | none => exact absurd (h.unwalked hmode) (by omega)
  | some recursive =>
      rw [(h.tour hmode).onBehalf_iff (Or.inl hr) h.inv hstart path]
      constructor
      · exact fun ⟨wd, hw⟩ => ⟨recursive, wd, hmode, hw⟩
      · rintro ⟨recursive', wd, hmode', hw⟩
        rw [hmode] at hmode'
        cases hmode'
        exact ⟨wd, hw⟩

/-- Where no mount is in the way, registering a root succeeds if restoring it has, and it
watches all that is accessible. -/
theorem RootTour.registered {root : Bytes} {r r' : Int} {t t' : State (List Nat)}
    (h : RootTour K root [] s r s') (hr : 0 ≤ r)
    (h' : RootTour K root (disk.innerMounts root) t r' t') (hempty : ∀ a, t.heap.get a = none)
    (hclear : disk.Unmounted root) :
    0 ≤ r' ∧ ∀ path, OnBehalf t' path ↔ disk.Accessible root path := by
  cases hmode : disk.mode root with
  | none => exact absurd (h.unwalked hmode) (by omega)
  | some recursive =>
      have htour := h.tour hmode
      have htour' := h'.tour hmode
      have havoid : ∀ path wd, disk.Watches recursive [] (rootPath root) path wd →
          disk.Watches recursive (disk.innerMounts root) (rootPath root) path wd := fun path wd hw =>
        hw.avoiding fun p w hp => hclear.not_crossed ⟨recursive, w, hmode, hp⟩
      have hok : 0 ≤ r' ∨ r' = ERR_IGNORE := by
        refine (h'.code (by rw [hmode]; simp)).resolve_right fun hbad => ?_
        rcases htour'.failed hbad with ⟨p, hp, hrefuses⟩ | ⟨p, wd, p', wd', hw, hw', hslot, hne⟩
        · exact htour.smooth (Or.inl hr) ⟨p, hp.without_mounts, hrefuses⟩
        · rcases hw' with ⟨a, n, hn, -⟩ | hw'
          · rw [hempty a] at hn
            contradiction
          · obtain ⟨hwd, hpath⟩ := htour.apart (Or.inl hr) h.inv hw.without_mounts
              hw'.without_mounts hslot
            exact hne.elim (fun hne => hne hwd) fun hne => hne hpath
      constructor
      · rcases hok with hok | hignore
        · exact hok
        · obtain ⟨wd, hw⟩ := h.top hmode hr
          exact absurd (havoid _ _ hw) (h'.untop hmode hignore wd)
      · intro path
        constructor
        · rintro ⟨wd, -, hholds⟩
          exact ⟨recursive, wd, hmode,
            (htour'.born_of_empty h'.walked hempty hholds).without_mounts⟩
        · rintro ⟨recursive', wd, hmode', hw⟩
          rw [hmode] at hmode'
          cases hmode'
          obtain ⟨new, hos, hnew⟩ := htour'.asked hok
          refine ⟨wd, ?_, htour'.held hok path wd (havoid path wd hw)⟩
          rw [hos]
          exact List.mem_append_left _ ((hnew wd).mpr ⟨path, havoid path wd hw⟩)

/-- Registering a root keeps out of the mounts inside it. -/
theorem RootTour.outside {root : Bytes} {r' : Int} {t t' : State (List Nat)}
    (h' : RootTour K root (disk.innerMounts root) t r' t') (hempty : ∀ a, t.heap.get a = none)
    (hmode : disk.mode root ≠ none) {path : Bytes} (hpath : OnBehalf t' path) :
    ¬ Crossed (disk.innerMounts root) path := by
  obtain ⟨recursive, hmode⟩ := Option.ne_none_iff_exists'.mp hmode
  obtain ⟨wd, -, hholds⟩ := hpath
  exact ((h'.tour hmode).born_of_empty h'.walked hempty hholds).arrives.not_crossed

/-- {lit}`update_roots` of one root takes it as watched exactly when the root can be registered. -/
theorem Registered.watched_iff {root : Bytes} (h : Registered K root s') :
    (∃ y ∈ s'.roots, y.path = root ∧ 0 ≤ y.id) ↔ disk.Registrable capacity root := by
  by_cases hoffers : disk.Offers root
  · obtain ⟨t, r, hempty, ⟨roots, htour⟩, hrecord, hunwatched⟩ := h.offered hoffers
    have hnothing : t.Holds = fun _ _ => False := by
      funext path wd
      refine eq_false ?_
      rintro ⟨a, n, hn, -⟩
      rw [hempty a] at hn
      cases hn
    have hok := htour.ok_iff
    rw [hnothing] at hok
    constructor
    · rintro ⟨y, hy, -, hid⟩
      have hr : 0 ≤ r := by
        by_contra hneg
        exact absurd (hunwatched (by omega) y hy) (by omega)
      exact ⟨hoffers, hok.mp hr⟩
    · rintro ⟨-, hwatchable⟩
      have hr := hok.mpr hwatchable
      exact ⟨⟨root, r⟩, hrecord hr, rfl, hr⟩
  · refine iff_of_false ?_ fun hregistrable => hoffers hregistrable.1
    rintro ⟨y, hy, -⟩
    rw [(h.refused hoffers).2] at hy
    cases hy

/-- A root that was restored is registered too where no mount is in the way. -/
theorem RootTour.registrable {root : Bytes} {r : Int} (h : RootTour K root [] s r s')
    (hr : 0 ≤ r) {s₂ : State (List Nat)} (hsecond : Registered K root s₂)
    (hclear : disk.Unmounted root) : disk.Registrable capacity root := by
  obtain ⟨t', r', hempty, ⟨roots, htour⟩, hrecord, -⟩ := hsecond.offered hclear.offers
  obtain ⟨hr', -⟩ := h.registered hr htour hempty hclear
  exact hsecond.watched_iff.mp ⟨⟨root, r'⟩, hrecord hr', rfl, hr'⟩

/-- What a restored root is watched with is what {lit}`update_roots` watches, and on no unwatchable
mount, exactly when no mount is in the way. -/
theorem RootTour.alike {root : Bytes} {r : Int} {s₁ : State (List Nat)} {roots : List WatchRoot}
    (h : RootTour K root [] s r { s₁ with roots := roots }) (hr : 0 ≤ r) (hstart : s.os = [])
    {s₂ : State (List Nat)} (hsecond : Registered K root s₂) :
    ((∀ path, OnBehalf s₁ path ↔ OnBehalf s₂ path) ∧
      ∀ path, OnBehalf s₁ path → ∀ mount ∈ disk.unwatchable, ¬ Covers mount path) ↔
      disk.Unmounted root := by
  have hwatched : ∀ path, OnBehalf s₁ path ↔ disk.Accessible root path := h.restored hr hstart
  have hmode : disk.mode root ≠ none := fun hnone => absurd (h.unwalked hnone) (by omega)
  obtain ⟨recursive, hrec⟩ := Option.ne_none_iff_exists'.mp hmode
  obtain ⟨wd, htop⟩ := h.top hrec hr
  constructor
  · rintro ⟨hsame, hcovers⟩
    have hoffers : disk.Offers root := by
      by_contra hno
      obtain ⟨-, -, a, n, hn, -⟩ := (hsame _).mp ((hwatched _).mpr ⟨recursive, wd, hrec, htop⟩)
      rw [(hsecond.refused hno).1 a] at hn
      contradiction
    refine ⟨hoffers, fun path hpath mount hmount => ⟨?_, fun hinner hprefix => ?_⟩⟩
    · exact hcovers path ((hwatched path).mpr hpath) mount hmount
    · obtain ⟨t', r', hempty, ⟨roots', htour⟩, -⟩ := hsecond.offered hoffers
      have hpath' : OnBehalf s₂ path := (hsame path).mp ((hwatched path).mpr hpath)
      exact htour.outside hempty hmode hpath' ⟨mount, List.mem_filter.mpr ⟨hmount, hinner⟩, hprefix⟩
  · intro hclear
    obtain ⟨t', r', hempty, ⟨roots', htour⟩, -⟩ := hsecond.offered hclear.offers
    obtain ⟨-, hsame⟩ := h.registered hr htour hempty hclear
    refine ⟨fun path => (hwatched path).trans (hsame path).symm, fun path hpath mount hmount => ?_⟩
    exact (hclear.apart path ((hwatched path).mp hpath) mount hmount).1

end Comparing

/-! ## A root on a network mount -/

/-- A disk without the directory {lit}`/r`. -/
def emptyDisk : Disk where
  stat _ := .error .ENOENT
  opendir _ := .error .ENOENT
  addWatch _ := .error .ENOENT
  mounts := []

/-- The directory {lit}`/r`, on a filesystem of the given type that is mounted on {lit}`mount`. -/
def mountedDisk (mount type : Bytes) : Disk where
  stat _ := .ok .dir
  opendir _ := .ok []
  addWatch path := if path = cstr "/r" then .ok 1 else .error .ENOENT
  mounts := [⟨mount, type⟩]

theorem watchCount_pos : 0 < 8 := by decide

/-- The notifier that has recorded {lit}`/r` as missing. -/
def rootMissing : State (List Nat) :=
  finalState (perform (diskOs emptyDisk) 1 (.updateRoots [cstr "/r"])) (start [] 8 watchCount_pos)

theorem rootMissing_reachable :
    Reachable (diskOs emptyDisk) (start [] 8 (by decide)) rootMissing ∧
      rootMissing.roots[0]? = some ⟨cstr "/r", ERR_MISSING⟩ := by
  have hcheck : returned ((perform (diskOs emptyDisk) 1 (.updateRoots [cstr "/r"])).run
      (start [] 8 (by decide))) true
      (fun s => decide (s.roots[0]? = some ⟨cstr "/r", ERR_MISSING⟩)) = true := by decide +kernel
  obtain ⟨hrun, hroot⟩ := run_finalState hcheck
  exact ⟨.turn 1 (.updateRoots [cstr "/r"]) true .start hrun, of_decide_eq_true hroot⟩

theorem emptyDisk_singleEvents : SingleEvents (diskOs emptyDisk) := by
  intro o events hread event hevent
  cases hread
  contradiction

/-- A mount elsewhere is not in the way of {lit}`/r`. -/
theorem mountedDisk_unmounted :
    (mountedDisk (cstr "/s") (cstr "nfs")).Unmounted (cstr "/r") := by
  refine ⟨⟨by decide, by decide, by decide⟩, ?_⟩
  rintro path ⟨recursive, wd, -, ⟨⟨-, harrives⟩, -, hans⟩⟩ mount hmount
  have hmount : mount = cstr "/s" := by
    have hall : ∀ m ∈ (mountedDisk (cstr "/s") (cstr "nfs")).unwatchable, m = cstr "/s" := by decide
    exact hall mount hmount
  have hpath : path = cstr "/r" := by
    by_contra hne
    have herror : (mountedDisk (cstr "/s") (cstr "nfs")).addWatch path = .error .ENOENT := if_neg hne
    rw [herror] at hans
    contradiction
  subst hmount hpath
  refine ⟨?_, fun _ => by decide⟩
  rintro ⟨rest, heq, -⟩
  exact absurd (List.prefix_iff_eq_append.mp ⟨rest, heq.symm⟩) (by decide)

theorem mountedDisk_addWatch (mount type : Bytes) :
    (mountedDisk mount type).addWatch (cstr "/r") = .ok 1 := by
  simp [mountedDisk]

/-- The walk of {lit}`/r` comes to this directory only. -/
theorem mountedDisk_arrives {mount type path : Bytes} :
    (mountedDisk mount type).Arrives true [] (cstr "/r") path ↔ path = cstr "/r" := by
  have hopen : (mountedDisk mount type).opendir (cstr "/r") = .ok [] := rfl
  rw [Disk.arrives_iff (not_crossed_nil _) hopen (mountedDisk_addWatch mount type)]
  simp

/-- A notifier without nodes can restore {lit}`/r`, wherever the mount is. -/
theorem mountedDisk_restorable (mount type : Bytes) :
    (mountedDisk mount type).Restorable 8 (cstr "/r") rootMissing.Holds := by
  have hone := mountedDisk_addWatch mount type
  have hpath : rootPath (cstr "/r") = cstr "/r" := by decide
  have hwatches : ∀ {path wd}, (mountedDisk mount type).Watches true [] (rootPath (cstr "/r")) path
      wd → path = cstr "/r" ∧ wd = 1 := by
    rintro path wd ⟨harrives, -, hans⟩
    rw [hpath] at harrives
    obtain rfl := mountedDisk_arrives.mp harrives
    rw [hone] at hans
    cases hans
    exact ⟨rfl, rfl⟩
  refine ⟨true, rfl, ⟨1, ?_⟩, ?_, ?_⟩
  · rw [hpath]
    exact ⟨mountedDisk_arrives.mpr rfl, fun _ => ⟨[], rfl⟩, hone⟩
  · rintro ⟨path, harrives, hrefuses⟩
    rw [hpath] at harrives
    obtain rfl := mountedDisk_arrives.mp harrives
    rcases hrefuses with ⟨-, e, herror, -⟩ | ⟨-, e, herror, -⟩
    · cases herror
    · rw [hone] at herror
      cases herror
  · rintro path wd path' wd' hw hheld -
    obtain ⟨rfl, rfl⟩ := hwatches hw
    rcases hheld with ⟨a, n, hn, -⟩ | hw'
    · have hnext : rootMissing.heap.next = 0 := by decide +kernel
      rw [rootMissing.heap.fresh a (by omega)] at hn
      cases hn
    · obtain ⟨rfl, rfl⟩ := hwatches hw'
      exact ⟨rfl, rfl⟩

end FsNotifier
end IdeMultiarch
