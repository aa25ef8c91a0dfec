import IdeMultiarch.FsNotifier.Invariant

/-!
# fsnotifier - a disk at rest

A world in which nothing happens while the notifier looks at it: what a call answers
depends on the path alone, and the kernel only keeps the list of descriptors it watches.
The tables say which directories there are, which of them cannot be opened, and which
of them the kernel refuses to watch.

Main results:

- Definition {lit}`diskOs`: the disk as a system the notifier can run on.
- Theorem {lit}`wp_walkEntries_cons`: one round of the loop of {lit}`walk_tree` on a disk.
- Theorem {lit}`wp_addWatch_disk`: watching one directory.
-/

namespace IdeMultiarch
namespace FsNotifier

open Library

/-! ## The disk -/

/-- What the calls answer for a path. -/
structure Disk where
  stat : Bytes → Except Errno FileType
  opendir : Bytes → Except Errno (List Dirent)
  addWatch : Bytes → Except Errno Nat
  mounts : List Mntent

/-- The watched descriptors after {lit}`inotify_add_watch`. -/
def Disk.watching (disk : Disk) (path : Bytes) (watched : List Nat) : List Nat :=
  match disk.addWatch path with
  | .ok wd => wd :: watched
  | .error _ => watched

/-- {lit}`realpath` of a path that exists; there are no symbolic links. -/
def Disk.realpath (disk : Disk) (path : Bytes) : Option Bytes :=
  match disk.stat path with
  | .ok _ => some path
  | .error _ => none

/-- The disk as a world.  Its state is the list of watched descriptors, and a directory
stream is the list of the entries still to come. -/
def diskOs (disk : Disk) : Os (List Nat) (List Dirent)
  | .inotifyAddWatch path, watched => (disk.addWatch path, disk.watching path watched)
  | .inotifyRmWatch wd, watched => (.ok (), watched.filter (· ≠ wd))
  | .opendir path, watched => (disk.opendir path, watched)
  | .readdir entries, watched => (entries.head?.map fun entry => (entry, entries.tail), watched)
  | .stat path, watched => (disk.stat path, watched)
  | .realpath path, watched => (disk.realpath path, watched)
  | .read, watched => (.ok [], watched)
  | .getmntent, watched => (some disk.mounts, watched)

/-- Whether {lit}`walk_tree` goes into an entry of the directory {lit}`path`. -/
def Disk.descends (disk : Disk) (path : Bytes) (entry : Dirent) : Bool :=
  entry.name != cstr "." && entry.name != cstr ".." &&
    match entry.type with
    | .other => false
    | .DT_DIR => true
    | .DT_UNKNOWN => disk.stat (path ++ slash :: entry.name) matches .ok .dir

section Rules

variable {disk : Disk} {tol : Fault → Prop} {s : State (List Nat)}

theorem Disk.watching_ok {path : Bytes} {wd : Nat} (h : disk.addWatch path = .ok wd)
    (watched : List Nat) : disk.watching path watched = wd :: watched := by
  unfold Disk.watching
  rw [h]

theorem Disk.watching_error {path : Bytes} {e : Errno} (h : disk.addWatch path = .error e)
    (watched : List Nat) : disk.watching path watched = watched := by
  unfold Disk.watching
  rw [h]

/-- Different paths lead to different directories. -/
theorem not_sameDir_disk {path path' : Bytes} (hne : path ≠ path') (o : List Nat) :
    ¬ SameDir (diskOs disk) path path' o := by
  rintro ⟨real, h, h'⟩
  have hreal : ∀ p, disk.realpath p = some real → p = real := by
    intro p hp
    unfold Disk.realpath at hp
    split at hp
    · exact Option.some.inj hp
    · contradiction
  exact hne ((hreal path h).trans (hreal path' h').symm)

/-- The outcomes of {lit}`add_watch` on a disk. -/
theorem wp_addWatch_disk {path : Bytes} {parent : Option Nat}
    (hw : WellLinked s.watches s.heap) (hp : ParentLive s.heap parent)
    {Q : Int → State (List Nat) → Prop}
    (hquiet : ∀ e, disk.addWatch path = .error e → e = .EACCES ∨ e = .ENOENT → Q ERR_IGNORE s)
    (hlimit : disk.addWatch path = .error .ENOSPC →
      ∀ limit out, Q ERR_CONTINUE { s with limitReached := limit, stdout := out })
    (hother : ∀ e, disk.addWatch path = .error e → e ≠ .EACCES → e ≠ .ENOENT → e ≠ .ENOSPC →
      Q ERR_ABORT s)
    (hclash : ∀ o wd a n, disk.addWatch path = .ok wd → s.heap.get a = some n →
      n.wd % s.watches.capacity = wd % s.watches.capacity → n.wd ≠ wd ∨ n.path ≠ path →
      Q ERR_ABORT { s with os := o })
    (hsame : ∀ wd a n, disk.addWatch path = .ok wd → s.heap.get a = some n → n.wd = wd →
      n.path = path → Q wd { s with os := wd :: s.os })
    (hfresh : ∀ wd, disk.addWatch path = .ok wd → s.watches.get wd = none →
      Q wd (addNode { s with os := wd :: s.os } wd parent path)) :
    wp tol (addWatch (diskOs disk) path parent) Q s := by
  have herror : ∀ e, disk.addWatch path = .error e →
      ({ s with os := disk.watching path s.os } : State (List Nat)) = s := by
    intro e he
    rw [disk.watching_error he]
  apply wp_addWatch (diskOs disk) hw hp (o := disk.watching path s.os) rfl
  · intro e hans he
    rw [herror e hans]
    exact hquiet e hans he
  · intro hans limit out
    rw [disk.watching_error hans]
    exact hlimit hans limit out
  · intro e hans he₁ he₂ he₃
    rw [herror e hans]
    exact hother e hans he₁ he₂ he₃
  · intro wd a n hans hn hwd hpath
    rw [disk.watching_ok hans]
    exact hsame wd a n hans hn hwd hpath
  · intro wd a n hans hn hslot hwd
    exact hclash _ wd a n hans hn hslot (Or.inl hwd)
  · rintro wd a n hans hn hslot hpath r (rfl | ⟨-, hreal⟩)
    · exact hclash _ wd a n hans hn hslot (Or.inr hpath)
    · exact absurd hreal (not_sameDir_disk hpath _)
  · intro wd hans hfree
    rw [disk.watching_ok hans]
    exact hfresh wd hans hfree

/-- Whether {lit}`walk_tree` goes into an entry, on a disk. -/
theorem wp_entryIsDir_disk {path : Bytes} {entry : Dirent}
    (hdot : ¬ (entry.name = cstr "." ∨ entry.name = cstr ".."))
    {Q : Bool → State (List Nat) → Prop} (hQ : Q (disk.descends path entry) s) :
    wp tol (entryIsDir (diskOs disk) (path ++ slash :: entry.name) entry) Q s := by
  obtain ⟨hone, htwo⟩ := not_or.mp hdot
  unfold Disk.descends at hQ
  rw [bne_iff_ne.mpr hone, bne_iff_ne.mpr htwo, Bool.true_and, Bool.true_and] at hQ
  unfold entryIsDir
  cases htype : entry.type with
  | other =>
      rw [htype] at hQ
      exact hQ
  | DT_DIR =>
      rw [htype] at hQ
      exact hQ
  | DT_UNKNOWN =>
      rw [htype] at hQ
      dsimp only at hQ ⊢
      rw [wp_bind, wp_sys]
      have hans : (diskOs disk (.stat (path ++ slash :: entry.name)) s.os).1 =
          disk.stat (path ++ slash :: entry.name) := rfl
      rw [hans]
      cases hstat : disk.stat (path ++ slash :: entry.name) with
      | error e =>
          rw [hstat] at hQ
          exact hQ
      | ok type =>
          rw [hstat] at hQ
          cases type <;> exact hQ

/-- The loop of {lit}`walk_tree` at its end. -/
theorem wp_walkEntries_nil {walk : Bytes → Option Nat → Notifier (List Nat) Int} {fuel : Nat}
    {path : Bytes} {id : Int} {Q : Int → State (List Nat) → Prop} (hQ : Q id s) :
    wp tol (walkEntries (diskOs disk) walk (fuel + 1) [] path id) Q s := by
  unfold walkEntries
  rw [wp_bind, wp_sys]
  exact hQ

/-- One round of the loop of {lit}`walk_tree`. -/
theorem wp_walkEntries_cons {walk : Bytes → Option Nat → Notifier (List Nat) Int} {fuel : Nat}
    {entry : Dirent} {entries : List Dirent} {path : Bytes} {id : Int}
    {Q : Int → State (List Nat) → Prop}
    (hskip : disk.descends path entry = false →
      wp tol (walkEntries (diskOs disk) walk fuel entries path id) Q s)
    (henter : disk.descends path entry = true →
      wp tol (walk (path ++ slash :: entry.name) (s.watches.get id)) (fun subdirId s' =>
        if subdirId < 0 ∧ subdirId ≠ ERR_IGNORE then
          wp tol (rmWatch (diskOs disk) id true) (fun _ s'' => Q subdirId s'') s'
        else
          wp tol (walkEntries (diskOs disk) walk fuel entries path id) Q s') s) :
    wp tol (walkEntries (diskOs disk) walk (fuel + 1) (entry :: entries) path id) Q s := by
  unfold walkEntries
  rw [wp_bind, wp_sys]
  have hans : diskOs disk (.readdir (entry :: entries)) s.os = (some (entry, entries), s.os) := rfl
  rw [hans]
  dsimp only
  by_cases hdot : entry.name = cstr "." ∨ entry.name = cstr ".."
  · rw [if_pos hdot]
    apply hskip
    unfold Disk.descends
    rcases hdot with hdot | hdot <;> simp [hdot]
  · rw [if_neg hdot, wp_bind]
    refine wp_entryIsDir_disk hdot ?_
    cases hdir : disk.descends path entry with
    | false => exact hskip hdir
    | true =>
        rw [if_neg (by simp), wp_bind, wp_tableGet, wp_bind]
        refine wp_weaken (henter hdir) fun subdirId s' hs' => ?_
        split
        · rename_i hfail
          rw [if_pos hfail] at hs'
          rw [wp_bind]
          exact hs'
        · rename_i hok
          rw [if_neg hok] at hs'
          exact hs'

end Rules

end FsNotifier
end IdeMultiarch
