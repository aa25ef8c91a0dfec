import Mathlib.Logic.Relation
import IdeMultiarch.FsNotifier.Disk

/-!
# fsnotifier - the directories a walk watches

Which directories a walk over a disk at rest arrives at, which of them it watches, and which
of them make it fail.  All three are properties of the disk and of the mounts the walk stays
out of; the notifier's own state matters only where one of its nodes is in the way of a
new one.

Main results:

- Definition {lit}`Disk.Watches`: the directories that a walk watches.
- Theorem {lit}`Disk.Watches.avoiding`: a walk that crosses no mount watches what a walk without
  mounts does.
- Theorem {lit}`wp_walkTree_tour`: a walk watches these directories, or it fails for a reason.
-/

namespace IdeMultiarch
namespace FsNotifier

open Library Relation

/-! ## Where a walk arrives -/

/-- {lit}`walk_tree` turns back at {lit}`path`, since the name of a mount is a prefix of it. -/
def Crossed (mounts : List Bytes) (path : Bytes) : Prop :=
  ∃ mount ∈ mounts, mount <+: path

/-- From the directory {lit}`path`, a walk goes into {lit}`path'`. -/
def Disk.Leads (disk : Disk) (recursive : Bool) (mounts : List Bytes) (path path' : Bytes) : Prop :=
  recursive = true ∧ (∃ wd, disk.addWatch path = .ok wd) ∧
    ∃ entries, disk.opendir path = .ok entries ∧
      ∃ entry ∈ entries, disk.descends path entry = true ∧ path' = path ++ slash :: entry.name ∧
        ¬ Crossed mounts path'

/-- A walk from {lit}`top` comes to {lit}`path`. -/
def Disk.Arrives (disk : Disk) (recursive : Bool) (mounts : List Bytes) (top path : Bytes) : Prop :=
  ¬ Crossed mounts top ∧ ReflTransGen (disk.Leads recursive mounts) top path

/-- A walk from {lit}`top` comes to {lit}`path`, can list it, and gets the descriptor {lit}`wd` for it. -/
structure Disk.Watches (disk : Disk) (recursive : Bool) (mounts : List Bytes) (top path : Bytes)
    (wd : Nat) : Prop where
  arrives : disk.Arrives recursive mounts top path
  lists : recursive = true → ∃ entries, disk.opendir path = .ok entries
  answer : disk.addWatch path = .ok wd

/-- A walk that comes to {lit}`path` fails there. -/
def Disk.Refuses (disk : Disk) (recursive : Bool) (path : Bytes) : Prop :=
  (recursive = true ∧ ∃ e, disk.opendir path = .error e ∧
    ¬ (e = .EACCES ∨ e = .ENOENT ∨ e = .ENOTDIR)) ∨
  ((recursive = true → ∃ entries, disk.opendir path = .ok entries) ∧
    ∃ e, disk.addWatch path = .error e ∧ ¬ (e = .EACCES ∨ e = .ENOENT))

/-- A walk from {lit}`top` comes to a directory that makes it fail. -/
def Disk.Fails (disk : Disk) (recursive : Bool) (mounts : List Bytes) (top : Bytes) : Prop :=
  ∃ path, disk.Arrives recursive mounts top path ∧ disk.Refuses recursive path

section Arriving

variable {disk : Disk} {recursive : Bool} {mounts : List Bytes} {top path : Bytes}

theorem crossed_iff_any (mounts : List Bytes) (path : Bytes) :
    (mounts.any fun mount => mount.isPrefixOf path) = true ↔ Crossed mounts path := by
  simp [Crossed, List.any_eq_true]

/-- With no mounts nothing is crossed. -/
theorem not_crossed_nil (path : Bytes) : ¬ Crossed [] path := by
  rintro ⟨mount, hmem, -⟩
  contradiction

/-- A walk stays out of the mounts. -/
theorem Disk.Arrives.not_crossed (h : disk.Arrives recursive mounts top path) :
    ¬ Crossed mounts path := by
  obtain ⟨htop, hpath⟩ := h
  rcases hpath.cases_tail with rfl | ⟨_, -, -, -, -, -, -, -, -, -, hnot⟩
  · exact htop
  · exact hnot

/-- Without mounts a walk comes at least as far. -/
theorem Disk.Arrives.without_mounts (h : disk.Arrives recursive mounts top path) :
    disk.Arrives recursive [] top path := by
  refine ⟨not_crossed_nil top, ReflTransGen.mono ?_ _ _ h.2⟩
  rintro p q ⟨hrec, hwd, entries, hopen, entry, hmem, hdir, hq, -⟩
  exact ⟨hrec, hwd, entries, hopen, entry, hmem, hdir, hq, not_crossed_nil q⟩

theorem Disk.Watches.without_mounts {wd : Nat} (h : disk.Watches recursive mounts top path wd) :
    disk.Watches recursive [] top path wd :=
  ⟨h.arrives.without_mounts, h.lists, h.answer⟩

/-- If no directory that a walk without mounts watches is crossed, the mounts make no
difference to what is watched. -/
theorem Disk.Watches.avoiding {wd : Nat} (h : disk.Watches recursive [] top path wd)
    (havoid : ∀ p wd, disk.Watches recursive [] top p wd → ¬ Crossed mounts p) :
    disk.Watches recursive mounts top path wd := by
  refine ⟨?_, h.lists, h.answer⟩
  obtain ⟨⟨-, hpath⟩, hlists, hanswer⟩ := h
  induction hpath generalizing wd with
  | refl => exact ⟨havoid top wd ⟨⟨not_crossed_nil top, .refl⟩, hlists, hanswer⟩, .refl⟩
  | @tail p q hp hstep ih =>
      have hnot := havoid q wd ⟨⟨not_crossed_nil top, hp.tail hstep⟩, hlists, hanswer⟩
      obtain ⟨hrec, ⟨w, hw⟩, entries, hopen, entry, hmem, hdir, hq, -⟩ := hstep
      obtain ⟨htop, hpath⟩ := ih (fun _ => ⟨entries, hopen⟩) hw
      exact ⟨htop, hpath.tail ⟨hrec, ⟨w, hw⟩, entries, hopen, entry, hmem, hdir, hq, hnot⟩⟩

/-- A walk arrives nowhere when its top is crossed. -/
theorem Disk.Arrives.of_crossed (h : Crossed mounts top) :
    ¬ disk.Arrives recursive mounts top path :=
  fun harrives => harrives.1 h

/-- A walk does not go on from its top: it is not recursive, or the top cannot be listed or
watched. -/
def Disk.Stuck (disk : Disk) (recursive : Bool) (top : Bytes) : Prop :=
  recursive = true → (∃ e, disk.opendir top = .error e) ∨ ∃ e, disk.addWatch top = .error e

theorem Disk.Arrives.stuck (h : disk.Arrives recursive mounts top path)
    (hstuck : disk.Stuck recursive top) : path = top := by
  rcases h.2.cases_head with rfl | ⟨_, ⟨hrec, ⟨wd, hwd⟩, entries, hopen, -⟩, -⟩
  · rfl
  · rcases hstuck hrec with ⟨e, he⟩ | ⟨e, he⟩
    · rw [hopen] at he
      contradiction
    · rw [hwd] at he
      contradiction

/-- A stuck walk watches its top at most. -/
theorem Disk.watches_iff_of_stuck (htop : ¬ Crossed mounts top) (hstuck : disk.Stuck recursive top)
    {wd : Nat} : disk.Watches recursive mounts top path wd ↔
      path = top ∧ (recursive = true → ∃ entries, disk.opendir top = .ok entries) ∧
        disk.addWatch top = .ok wd := by
  constructor
  · intro hw
    have hp := hw.arrives.stuck hstuck
    subst hp
    exact ⟨rfl, hw.lists, hw.answer⟩
  · rintro ⟨rfl, hlists, hwd⟩
    exact ⟨⟨htop, .refl⟩, hlists, hwd⟩

/-- A stuck walk fails if its top refuses. -/
theorem Disk.fails_iff_of_stuck (htop : ¬ Crossed mounts top) (hstuck : disk.Stuck recursive top) :
    disk.Fails recursive mounts top ↔ disk.Refuses recursive top := by
  constructor
  · rintro ⟨p, hp, hbad⟩
    rw [hp.stuck hstuck] at hbad
    exact hbad
  · exact fun hbad => ⟨top, ⟨htop, .refl⟩, hbad⟩

/-- A walk comes to its top and to all that the walks from the top's entries come to. -/
theorem Disk.arrives_iff (htop : ¬ Crossed mounts top) {entries : List Dirent}
    (hopen : disk.opendir top = .ok entries) {wd : Nat} (hwd : disk.addWatch top = .ok wd) :
    disk.Arrives true mounts top path ↔ path = top ∨ ∃ entry ∈ entries,
      disk.descends top entry = true ∧ disk.Arrives true mounts (top ++ slash :: entry.name) path := by
  constructor
  · intro h
    rcases h.2.cases_head with rfl | ⟨q, ⟨-, -, entries', hopen', entry, hmem, hdir, rfl, hnot⟩, hq⟩
    · exact Or.inl rfl
    · rw [hopen] at hopen'
      cases hopen'
      exact Or.inr ⟨entry, hmem, hdir, hnot, hq⟩
  · rintro (rfl | ⟨entry, hmem, hdir, hnot, hq⟩)
    · exact ⟨htop, .refl⟩
    · exact ⟨htop, .head ⟨rfl, ⟨wd, hwd⟩, entries, hopen, entry, hmem, hdir, rfl, hnot⟩ hq⟩

/-- A walk watches its top and what the walks from the top's entries watch. -/
theorem Disk.watches_iff (htop : ¬ Crossed mounts top) {entries : List Dirent}
    (hopen : disk.opendir top = .ok entries) {wd : Nat} (hwd : disk.addWatch top = .ok wd) {w : Nat} :
    disk.Watches true mounts top path w ↔ (path = top ∧ disk.addWatch top = .ok w) ∨
      ∃ entry ∈ entries, disk.descends top entry = true ∧
        disk.Watches true mounts (top ++ slash :: entry.name) path w := by
  constructor
  · intro hw
    rcases (disk.arrives_iff htop hopen hwd).mp hw.arrives with rfl | ⟨entry, hmem, hdir, hp⟩
    · exact Or.inl ⟨rfl, hw.answer⟩
    · exact Or.inr ⟨entry, hmem, hdir, hp, hw.lists, hw.answer⟩
  · rintro (⟨rfl, hw⟩ | ⟨entry, hmem, hdir, hw⟩)
    · exact ⟨⟨htop, .refl⟩, fun _ => ⟨entries, hopen⟩, hw⟩
    · exact ⟨(disk.arrives_iff htop hopen hwd).mpr (Or.inr ⟨entry, hmem, hdir, hw.arrives⟩),
        hw.lists, hw.answer⟩

/-- A walk from a directory that can be listed and watched fails where one from an entry does. -/
theorem Disk.fails_iff (htop : ¬ Crossed mounts top) {entries : List Dirent}
    (hopen : disk.opendir top = .ok entries) {wd : Nat} (hwd : disk.addWatch top = .ok wd) :
    disk.Fails true mounts top ↔ ∃ entry ∈ entries, disk.descends top entry = true ∧
      disk.Fails true mounts (top ++ slash :: entry.name) := by
  constructor
  · rintro ⟨p, hp, hbad⟩
    rcases (disk.arrives_iff htop hopen hwd).mp hp with rfl | ⟨entry, hmem, hdir, hp⟩
    · exfalso
      rcases hbad with ⟨-, e, he, -⟩ | ⟨-, e, he, -⟩
      · rw [hopen] at he
        contradiction
      · rw [hwd] at he
        contradiction
    · exact ⟨entry, hmem, hdir, p, hp, hbad⟩
  · rintro ⟨entry, hmem, hdir, p, hp, hbad⟩
    exact ⟨p, (disk.arrives_iff htop hopen hwd).mpr (Or.inr ⟨entry, hmem, hdir, hp⟩), hbad⟩

end Arriving

/-! ## What a walk does to the notifier -/

/-- A node holds the descriptor {lit}`wd` for {lit}`path`. -/
def State.Holds {σ : Type} (s : State σ) (path : Bytes) (wd : Nat) : Prop :=
  ∃ a n, s.heap.get a = some n ∧ n.path = path ∧ n.wd = wd

/-- Two of the directories to be watched share a slot, or one of them shares it with another
node. -/
def Collides (capacity : Nat) (W : Bytes → Nat → Prop) (s : State (List Nat)) : Prop :=
  ∃ path wd path' wd', W path wd ∧ (s.Holds path' wd' ∨ W path' wd') ∧
    wd' % capacity = wd % capacity ∧ (wd' ≠ wd ∨ path' ≠ path)

/-- What a part of a walk that has the directories {lit}`W` to watch does when it returns {lit}`r`:
if it succeeds the kernel has been asked for exactly these directories and each has its node;
{lit}`fails` says that one of the directories refuses. -/
structure Tour (capacity : Nat) (W : Bytes → Nat → Prop) (fails : Prop) (s : State (List Nat))
    (r : Int) (s' : State (List Nat)) : Prop where
  born : ∀ {b n}, s'.heap.get b = some n → s.heap.next ≤ b → W n.path n.wd
  asked : 0 ≤ r ∨ r = ERR_IGNORE → ∃ new, s'.os = new ++ s.os ∧ ∀ wd, wd ∈ new ↔ ∃ path, W path wd
  held : 0 ≤ r ∨ r = ERR_IGNORE → ∀ path wd, W path wd → s'.Holds path wd
  smooth : 0 ≤ r ∨ r = ERR_IGNORE → ¬ fails
  failed : r = ERR_CONTINUE ∨ r = ERR_ABORT → fails ∨ Collides capacity W s

section Tours

variable {disk : Disk} {capacity : Nat} {W W' : Bytes → Nat → Prop} {fails fails' : Prop}
  {s s₁ s' : State (List Nat)} {r r' : Int} {K : KernelView (diskOs disk) capacity}

theorem ok_not_failed (hok : 0 ≤ r ∨ r = ERR_IGNORE) : ¬ (r = ERR_CONTINUE ∨ r = ERR_ABORT) := by
  unfold ERR_IGNORE at hok
  unfold ERR_CONTINUE ERR_ABORT
  omega

theorem State.Holds.grows {path : Bytes} {wd : Nat} (h : s.Holds path wd) (hgrows : Grows s s') :
    s'.Holds path wd := by
  obtain ⟨a, n, hn, rfl, rfl⟩ := h
  obtain ⟨n', hn', hsame⟩ := hgrows hn
  exact ⟨a, n', hn', hsame.path, hsame.wd⟩

theorem Collides.mono (h : Collides capacity W s) (hW : ∀ path wd, W path wd → W' path wd) :
    Collides capacity W' s := by
  obtain ⟨path, wd, path', wd', hw, hw', hslot, hne⟩ := h
  exact ⟨path, wd, path', wd', hW _ _ hw, hw'.imp_right (hW _ _), hslot, hne⟩

/-- A tour that has nothing to watch and does nothing. -/
theorem Tour.nothing (hW : ∀ path wd, ¬ W path wd) (hfails : ¬ fails)
    (hr : 0 ≤ r ∨ r = ERR_IGNORE) : Tour capacity W fails s r s := by
  constructor
  · intro b n hn hb
    rw [s.heap.fresh b hb] at hn
    contradiction
  · exact fun _ => ⟨[], rfl, fun wd => ⟨fun h => absurd h (by simp), fun ⟨p, hp⟩ => absurd hp (hW p wd)⟩⟩
  · exact fun _ path wd hw => absurd hw (hW path wd)
  · exact fun _ => hfails
  · exact fun hbad => absurd hbad (ok_not_failed hr)

/-- A tour that fails before it has watched anything. -/
theorem Tour.broken (hheap : s'.heap = s.heap) (hr : r = ERR_CONTINUE ∨ r = ERR_ABORT)
    (hwhy : fails ∨ Collides capacity W s) : Tour capacity W fails s r s' := by
  constructor
  · intro b n hn hb
    rw [hheap, s.heap.fresh b hb] at hn
    contradiction
  · exact fun hok => absurd hr (ok_not_failed hok)
  · exact fun hok => absurd hr (ok_not_failed hok)
  · exact fun hok => absurd hr (ok_not_failed hok)
  · exact fun _ => hwhy

/-- What a tour had to watch can be described in another way, or be more if it has failed. -/
theorem Tour.mono (h : Tour capacity W fails s r s') (hW : ∀ path wd, W path wd → W' path wd)
    (hfails : fails → fails')
    (hback : 0 ≤ r ∨ r = ERR_IGNORE → (∀ path wd, W' path wd → W path wd) ∧ (fails' → fails)) :
    Tour capacity W' fails' s r s' := by
  constructor
  · exact fun hn hb => hW _ _ (h.born hn hb)
  · intro hok
    obtain ⟨new, hos, hnew⟩ := h.asked hok
    refine ⟨new, hos, fun wd => (hnew wd).trans ⟨?_, ?_⟩⟩
    · exact fun ⟨path, hw⟩ => ⟨path, hW _ _ hw⟩
    · exact fun ⟨path, hw⟩ => ⟨path, (hback hok).1 _ _ hw⟩
  · exact fun hok path wd hw => h.held hok path wd ((hback hok).1 _ _ hw)
  · exact fun hok hbad => h.smooth hok ((hback hok).2 hbad)
  · exact fun hbad => (h.failed hbad).imp hfails fun hcol => hcol.mono hW

/-- A tour described in another way. -/
theorem Tour.congr (h : Tour capacity W fails s r s') (hW : ∀ path wd, W path wd ↔ W' path wd)
    (hfails : fails ↔ fails') : Tour capacity W' fails' s r s' :=
  h.mono (fun path wd => (hW path wd).mp) hfails.mp
    fun _ => ⟨fun path wd => (hW path wd).mpr, hfails.mpr⟩

/-- One tour after another that has succeeded. -/
theorem Tour.trans (h : Tour capacity W fails s r s₁) (hok : 0 ≤ r ∨ r = ERR_IGNORE)
    (h' : Tour capacity W' fails' s₁ r' s') {P P' : Bytes → Prop} (hwalked : Walked P s s₁)
    (hwalked' : Walked P' s₁ s') (hgrows : 0 ≤ r' ∨ r' = ERR_IGNORE → Grows s₁ s') :
    Tour capacity (fun path wd => W path wd ∨ W' path wd) (fails ∨ fails') s r' s' := by
  constructor
  · intro b n hn hb
    by_cases hb₁ : b < s₁.heap.next
    · obtain ⟨n₁, hn₁, hsame⟩ := hwalked'.old hn hb₁
      rw [hsame.path, hsame.wd]
      exact Or.inl (h.born hn₁ hb)
    · exact Or.inr (h'.born hn (Nat.le_of_not_lt hb₁))
  · intro hok'
    obtain ⟨new, hos, hnew⟩ := h.asked hok
    obtain ⟨new', hos', hnew'⟩ := h'.asked hok'
    refine ⟨new' ++ new, by rw [hos', hos, List.append_assoc], fun wd => ?_⟩
    rw [List.mem_append, hnew, hnew', or_comm, exists_or]
  · rintro hok' path wd (hw | hw)
    · exact (h.held hok path wd hw).grows (hgrows hok')
    · exact h'.held hok' path wd hw
  · rintro hok' (hbad | hbad)
    · exact h.smooth hok hbad
    · exact h'.smooth hok' hbad
  · intro hbad
    rcases h'.failed hbad with hbad | ⟨path, wd, path', wd', hw, hw', hslot, hne⟩
    · exact Or.inl (Or.inr hbad)
    · refine Or.inr ⟨path, wd, path', wd', Or.inr hw, ?_, hslot, hne⟩
      rcases hw' with ⟨b, n, hn, rfl, rfl⟩ | hw'
      · -- a node in the way was there before, or the first tour has brought it
        by_cases hb : s.heap.next ≤ b
        · exact Or.inr (Or.inl (h.born hn hb))
        · obtain ⟨n₀, hn₀, hsame⟩ := hwalked.old hn (Nat.lt_of_not_le hb)
          exact Or.inl ⟨b, n₀, hn₀, hsame.path.symm, hsame.wd.symm⟩
      · exact Or.inr (Or.inr hw')

/-- A tour that fails in its first part has failed. -/
theorem Tour.cut (h : Tour capacity W fails s r s₁) (hr : r = ERR_CONTINUE ∨ r = ERR_ABORT)
    (hshrunk : Shrunk K s₁ s') :
    Tour capacity (fun path wd => W path wd ∨ W' path wd) (fails ∨ fails') s r s' := by
  constructor
  · intro b n hn hb
    obtain ⟨n₁, hn₁, hsame⟩ := hshrunk.old hn
    rw [hsame.path, hsame.wd]
    exact Or.inl (h.born hn₁ hb)
  · exact fun hok => absurd hr (ok_not_failed hok)
  · exact fun hok => absurd hr (ok_not_failed hok)
  · exact fun hok => absurd hr (ok_not_failed hok)
  · exact fun _ => (h.failed hr).imp Or.inl fun hcol => hcol.mono fun _ _ => Or.inl

/-- A tour does not look at the roots, the limit flag and the output. -/
theorem Tour.frame (h : Tour capacity W fails s r s') (roots : List WatchRoot) (limit : Bool)
    (out : Bytes) :
    Tour capacity W fails s r { s' with roots := roots, limitReached := limit, stdout := out } :=
  ⟨h.born, h.asked, h.held, h.smooth, h.failed⟩

/-- Two nodes are never in one slot. -/
theorem Inv.apart (hinv : Inv K s') {path path' : Bytes} {wd wd' : Nat} (h : s'.Holds path wd)
    (h' : s'.Holds path' wd') (hslot : wd' % capacity = wd % capacity) : wd' = wd ∧ path' = path := by
  obtain ⟨a, n, hn, rfl, rfl⟩ := h
  obtain ⟨a', n', hn', rfl, rfl⟩ := h'
  have ha := hinv.wellLinked.slotted.of_node hn
  have ha' := hinv.wellLinked.slotted.of_node hn'
  rw [hinv.capacity, hslot] at ha'
  rw [hinv.capacity, ha'] at ha
  cases ha
  rw [hn] at hn'
  cases hn'
  exact ⟨rfl, rfl⟩

/-- After a tour that has succeeded, directories in one slot are one directory. -/
theorem Tour.apart (h : Tour capacity W fails s r s') (hok : 0 ≤ r ∨ r = ERR_IGNORE)
    (hinv : Inv K s') {path path' : Bytes} {wd wd' : Nat} (hw : W path wd) (hw' : W path' wd')
    (hslot : wd' % capacity = wd % capacity) : wd' = wd ∧ path' = path :=
  hinv.apart (h.held hok path wd hw) (h.held hok path' wd' hw') hslot

end Tours

/-! ## Walks are tours -/

section Walks

variable {disk : Disk} {capacity : Nat} {K : KernelView (diskOs disk) capacity}

/-- {lit}`add_watch` has one directory to watch. -/
theorem wp_addWatch_tour {s : State (List Nat)} (h : Inv K s) {path : Bytes}
    {parent : Option Nat} (hp : ParentLive s.heap parent) :
    wp fuelOnly (addWatch (diskOs disk) path parent)
      (fun r s' => Tour capacity (fun p wd => p = path ∧ disk.addWatch path = .ok wd)
        (∃ e, disk.addWatch path = .error e ∧ ¬ (e = .EACCES ∨ e = .ENOENT)) s r s' ∧
        (0 ≤ r → ∃ wd : Nat, r = wd ∧ disk.addWatch path = .ok wd) ∧
        (r = ERR_IGNORE → ∃ e, disk.addWatch path = .error e)) s := by
  have hnone : ∀ {e}, disk.addWatch path = .error e →
      ∀ p wd, ¬ (p = path ∧ disk.addWatch path = .ok wd) := by
    rintro e hans p wd ⟨-, hwd⟩
    rw [hans] at hwd
    contradiction
  have hone : ∀ {wd : Nat}, disk.addWatch path = .ok wd →
      ¬ ∃ e, disk.addWatch path = .error e ∧ ¬ (e = .EACCES ∨ e = .ENOENT) := by
    rintro wd hans ⟨e, he, -⟩
    rw [hans] at he
    contradiction
  apply wp_addWatch_disk h.wellLinked hp
  · intro e hans he
    refine ⟨.nothing (hnone hans) ?_ (Or.inr rfl), fun hr => absurd hr (by decide), fun _ => ⟨e, hans⟩⟩
    rintro ⟨e', hans', he'⟩
    rw [hans] at hans'
    cases hans'
    exact he' he
  · intro hans limit out
    refine ⟨.broken rfl (Or.inl rfl) (Or.inl ⟨_, hans, by decide⟩), fun hr => absurd hr (by decide),
      fun hr => absurd hr (by decide)⟩
  · intro e hans he₁ he₂ _
    refine ⟨.broken rfl (Or.inr rfl) (Or.inl ⟨e, hans, fun he => he.elim he₁ he₂⟩),
      fun hr => absurd hr (by decide), fun hr => absurd hr (by decide)⟩
  · intro o wd a n hans hn hslot hne
    rw [h.capacity] at hslot
    refine ⟨.broken rfl (Or.inr rfl) (Or.inr ?_), fun hr => absurd hr (by decide),
      fun hr => absurd hr (by decide)⟩
    exact ⟨path, wd, n.path, n.wd, ⟨rfl, hans⟩, Or.inl ⟨a, n, hn, rfl, rfl⟩, hslot, hne⟩
  · intro wd a n hans hn hwd hpath
    refine ⟨⟨?_, ?_, ?_, fun _ => hone hans, fun hbad => absurd hbad (ok_not_failed (Or.inl (by omega)))⟩,
      fun _ => ⟨wd, rfl, hans⟩, fun hr => absurd hr (by unfold ERR_IGNORE; omega)⟩
    · intro b m hm hb
      rw [s.heap.fresh b hb] at hm
      contradiction
    · refine fun _ => ⟨[wd], rfl, fun w => ?_⟩
      simp [hans, eq_comm]
    · rintro - p w ⟨rfl, hw⟩
      rw [hans] at hw
      cases hw
      exact ⟨a, n, hn, hpath, hwd⟩
  · intro wd hans hfree
    let s₁ : State (List Nat) := { s with os := wd :: s.os }
    have hp₁ : ParentLive s₁.heap parent := hp
    refine ⟨⟨?_, ?_, ?_, fun _ => hone hans, fun hbad => absurd hbad (ok_not_failed (Or.inl (by omega)))⟩,
      fun _ => ⟨wd, rfl, hans⟩, fun hr => absurd hr (by unfold ERR_IGNORE; omega)⟩
    · intro b m hm hb
      rcases addNode_node (s := s₁) hp₁ hm with ⟨-, rfl⟩ | ⟨-, m₀, hm₀, -⟩
      · exact ⟨rfl, hans⟩
      · exact absurd (Heap.lt_next hm₀) (Nat.not_lt.mpr hb)
    · refine fun _ => ⟨[wd], rfl, fun w => ?_⟩
      simp [hans, eq_comm]
    · rintro - p w ⟨rfl, hw⟩
      rw [hans] at hw
      cases hw
      exact ⟨_, _, addNode_new (s := s₁) hp₁, rfl, rfl⟩

/-- The loop over a directory has to watch what the recursive calls on its entries have. -/
theorem wp_walkEntries_tour {walk : Bytes → Option Nat → Notifier (List Nat) Int}
    {W : Bytes → Bytes → Nat → Prop} {fails : Bytes → Prop}
    (hwalk : ∀ path parent s, Inv K s → ParentAbove s.heap parent path →
      wp fuelOnly (walk path parent) (fun r s' => WalkResult K true path parent s r s' ∧
        Tour capacity (W path) (fails path) s r s') s)
    (path : Bytes) (wd a : Nat) :
    ∀ (fuel : Nat) (entries : List Dirent) (s : State (List Nat)) (n : WatchNode),
      Inv K s → s.heap.get a = some n → n.wd = wd → n.path = path →
      wp fuelOnly (walkEntries (diskOs disk) walk fuel entries path wd)
        (Tour capacity (fun p w => ∃ entry ∈ entries, disk.descends path entry = true ∧
            W (path ++ slash :: entry.name) p w)
          (∃ entry ∈ entries, disk.descends path entry = true ∧
            fails (path ++ slash :: entry.name)) s) s := by
  intro fuel
  induction fuel with
  | zero => intro entries s n _ _ _ _; exact rfl
  | succ fuel ih =>
      intro entries s n h hn hwd hpath
      cases entries with
      | nil =>
          refine wp_walkEntries_nil (.nothing ?_ ?_ (Or.inl (by omega)))
          · rintro p w ⟨entry, hmem, -⟩
            contradiction
          · rintro ⟨entry, hmem, -⟩
            contradiction
      | cons entry entries =>
          have hget : s.watches.get (wd : Int) = some a := by
            rw [← hwd]
            exact h.wellLinked.slotted.get_of_node hn
          apply wp_walkEntries_cons
          · intro hdir
            refine wp_weaken (ih entries s n h hn hwd hpath) fun r s' hr => hr.congr ?_ ?_
            · intro p w
              rw [List.exists_mem_cons_iff, hdir]
              simp
            · rw [List.exists_mem_cons_iff, hdir]
              simp
          · intro hdir
            rw [hget]
            have habove : ParentAbove s.heap (some a) (path ++ slash :: entry.name) := by
              intro p hp
              cases hp
              refine ⟨n, hn, (isParentPath_iff _ _).mpr (Or.inr ⟨entry.name, ?_⟩)⟩
              rw [hpath]
            have hsplit : ∀ {r s'}, Tour capacity (fun p w => W (path ++ slash :: entry.name) p w ∨
                  ∃ entry ∈ entries, disk.descends path entry = true ∧
                    W (path ++ slash :: entry.name) p w)
                (fails (path ++ slash :: entry.name) ∨ ∃ entry ∈ entries,
                  disk.descends path entry = true ∧ fails (path ++ slash :: entry.name)) s r s' →
                Tour capacity (fun p w => ∃ e ∈ entry :: entries, disk.descends path e = true ∧
                    W (path ++ slash :: e.name) p w)
                  (∃ e ∈ entry :: entries, disk.descends path e = true ∧
                    fails (path ++ slash :: e.name)) s r s' := by
              intro r s' htour
              refine htour.congr ?_ ?_
              · intro p w
                rw [List.exists_mem_cons_iff]
                simp only [hdir, true_and]
              · rw [List.exists_mem_cons_iff]
                simp only [hdir, true_and]
            refine wp_weaken (hwalk _ _ s h habove) fun r s₁ hr => ?_
            obtain ⟨hresult, htour⟩ := hr
            by_cases hfail : r < 0 ∧ r ≠ ERR_IGNORE
            · rw [if_pos hfail]
              refine wp_weaken (wp_rmWatch hresult.inv wd) fun _ s₂ hrm => hsplit (htour.cut ?_ hrm.1)
              rcases hresult.code with h0 | h1 | h2
              · omega
              · exact absurd h1 hfail.2
              · exact h2
            · rw [if_neg hfail]
              have hok : 0 ≤ r ∨ r = ERR_IGNORE := by
                by_cases hneg : r < 0
                · exact Or.inr (not_not.mp fun hne => hfail ⟨hneg, hne⟩)
                · exact Or.inl (by omega)
              obtain ⟨n₁, hn₁, hsame⟩ := hresult.grows hok hn
              have hwd₁ := hsame.wd.trans hwd
              have hpath₁ := hsame.path.trans hpath
              refine wp_weaken (wp_and (ih entries s₁ n₁ hresult.inv hn₁ hwd₁ hpath₁)
                (wp_walkEntries (fun path' parent' s' hinv hp' => wp_weaken (hwalk path' parent' s' hinv hp')
                  fun _ _ hr => hr.1) path wd a fuel entries s₁ n₁ hresult.inv hn₁ hwd₁ hpath₁))
                fun r' s' hr' => ?_
              obtain ⟨htour', hentries⟩ := hr'
              refine hsplit (htour.trans hok htour' hresult.walked hentries.walked fun hok' => ?_)
              rcases hentries.done with ⟨-, hgrows⟩ | ⟨hcode, -⟩
              · exact hgrows
              · exact absurd hcode (ok_not_failed hok')

/-- What a walk does: it watches the directories {lit}`Disk.Watches` tells, or it fails since one of
them refuses or is in the way of another node. -/
structure Disk.Toured (disk : Disk) (capacity : Nat) (recursive : Bool) (mounts : List Bytes)
    (path : Bytes) (s : State (List Nat)) (r : Int) (s' : State (List Nat)) : Prop where
  tour : Tour capacity (disk.Watches recursive mounts path) (disk.Fails recursive mounts path) s r s'
  watched : 0 ≤ r → ∃ wd, disk.Watches recursive mounts path path wd
  ignored : r = ERR_IGNORE → ∀ wd, ¬ disk.Watches recursive mounts path path wd

section Toured

variable {mounts : List Bytes} {path : Bytes} {parent : Option Nat} {entries : List Dirent}
  {e : Errno} {id r : Int} {wd : Nat} {s s₁ s' : State (List Nat)}

/-- A mount is not walked. -/
theorem Disk.toured_crossed (recursive : Bool) (hcrossed : Crossed mounts path) :
    disk.Toured capacity recursive mounts path s ERR_IGNORE s where
  tour := by
    refine .nothing (fun p wd hw => Disk.Arrives.of_crossed hcrossed hw.arrives) ?_ (Or.inr rfl)
    rintro ⟨p, hp, -⟩
    exact Disk.Arrives.of_crossed hcrossed hp
  watched hr := absurd hr (by decide)
  ignored _ wd hw := Disk.Arrives.of_crossed hcrossed hw.arrives

/-- A flat walk watches its top. -/
theorem wp_addWatch_toured (h : Inv K s) (hp : ParentLive s.heap parent)
    (htop : ¬ Crossed mounts path) : wp fuelOnly (addWatch (diskOs disk) path parent)
      (disk.Toured capacity false mounts path s) s := by
  have hstuck : disk.Stuck false path := fun hf => absurd hf (by simp)
  have hwatches : ∀ p wd, disk.Watches false mounts path p wd ↔
      p = path ∧ disk.addWatch path = .ok wd := by
    intro p wd
    rw [disk.watches_iff_of_stuck htop hstuck]
    simp
  refine wp_weaken (wp_addWatch_tour h hp) fun r s' hr => ?_
  obtain ⟨htour, hwatched, hquiet⟩ := hr
  refine ⟨htour.congr (fun p wd => (hwatches p wd).symm) ?_, fun hnonneg => ?_, ?_⟩
  · rw [disk.fails_iff_of_stuck htop hstuck]
    simp [Disk.Refuses]
  · obtain ⟨wd, -, hwd⟩ := hwatched hnonneg
    exact ⟨wd, (hwatches path wd).mpr ⟨rfl, hwd⟩⟩
  · intro hignore wd hw
    obtain ⟨e, he⟩ := hquiet hignore
    rw [((hwatches path wd).mp hw).2] at he
    contradiction

/-- A directory that cannot be listed is not watched. -/
theorem Disk.toured_unlisted (htop : ¬ Crossed mounts path) (hopen : disk.opendir path = .error e) :
    disk.Toured capacity true mounts path s
      (if e = .EACCES ∨ e = .ENOENT ∨ e = .ENOTDIR then ERR_IGNORE else ERR_CONTINUE) s := by
  have hstuck : disk.Stuck true path := fun _ => Or.inl ⟨e, hopen⟩
  have hnone : ∀ p wd, ¬ disk.Watches true mounts path p wd := by
    intro p wd hw
    obtain ⟨-, hlists, -⟩ := (disk.watches_iff_of_stuck htop hstuck).mp hw
    obtain ⟨entries, hlist⟩ := hlists rfl
    rw [hopen] at hlist
    contradiction
  have hfails := disk.fails_iff_of_stuck htop hstuck
  unfold Disk.Refuses at hfails
  simp only [hopen, true_and, Except.error.injEq, exists_eq_left'] at hfails
  split
  next he =>
    refine ⟨.nothing hnone ?_ (Or.inr rfl), fun hr => absurd hr (by decide), fun _ => hnone path⟩
    rw [hfails]
    simp [he]
  next he =>
    exact ⟨.broken rfl (Or.inl rfl) (Or.inl (hfails.mpr (Or.inl he))),
      fun hr => absurd hr (by decide), fun hr => absurd hr (by decide)⟩

/-- What {lit}`add_watch` watches for the top of a walk. -/
theorem Disk.watches_top (htop : ¬ Crossed mounts path) (hopen : disk.opendir path = .ok entries)
    (p : Bytes) (wd : Nat) (h : p = path ∧ disk.addWatch path = .ok wd) :
    disk.Watches true mounts path p wd := by
  obtain ⟨rfl, hwd⟩ := h
  exact ⟨⟨htop, .refl⟩, fun _ => ⟨entries, hopen⟩, hwd⟩

/-- A directory that can be listed but not watched is not walked. -/
theorem Disk.toured_unwatched (htop : ¬ Crossed mounts path)
    (hopen : disk.opendir path = .ok entries)
    (htour : Tour capacity (fun p wd => p = path ∧ disk.addWatch path = .ok wd)
      (∃ e, disk.addWatch path = .error e ∧ ¬ (e = .EACCES ∨ e = .ENOENT)) s id s₁)
    (hquiet : id = ERR_IGNORE → ∃ e, disk.addWatch path = .error e) (hneg : id < 0) :
    disk.Toured capacity true mounts path s id s₁ := by
  refine ⟨htour.mono (disk.watches_top htop hopen) ?_ fun hok => ?_, fun hr => ?_,
    fun hr wd hw => ?_⟩
  · exact fun hbad => ⟨path, ⟨htop, .refl⟩, Or.inr ⟨fun _ => ⟨entries, hopen⟩, hbad⟩⟩
  · obtain ⟨e, he⟩ := hquiet (hok.resolve_left (by omega))
    have hstuck : disk.Stuck true path := fun _ => Or.inr ⟨e, he⟩
    rw [disk.fails_iff_of_stuck htop hstuck]
    refine ⟨fun p wd hw => ?_, ?_⟩
    · obtain ⟨hp, -, hwd⟩ := (disk.watches_iff_of_stuck htop hstuck).mp hw
      exact ⟨hp, hwd⟩
    · rintro (⟨-, e', he', -⟩ | ⟨-, hbad⟩)
      · rw [hopen] at he'
        contradiction
      · exact hbad
  · omega
  · obtain ⟨e, he⟩ := hquiet hr
    have hans := hw.answer
    rw [he] at hans
    contradiction

/-- A directory that is watched is walked entry by entry. -/
theorem Disk.toured_entries (htop : ¬ Crossed mounts path)
    (hopen : disk.opendir path = .ok entries) (hwd : disk.addWatch path = .ok wd)
    (htour : Tour capacity (fun p wd => p = path ∧ disk.addWatch path = .ok wd)
      (∃ e, disk.addWatch path = .error e ∧ ¬ (e = .EACCES ∨ e = .ENOENT)) s wd s₁)
    (hresult : WalkResult K true path parent s wd s₁) {a : Nat}
    (htour' : Tour capacity (fun p w => ∃ entry ∈ entries, disk.descends path entry = true ∧
        disk.Watches true mounts (path ++ slash :: entry.name) p w)
      (∃ entry ∈ entries, disk.descends path entry = true ∧
        disk.Fails true mounts (path ++ slash :: entry.name)) s₁ r s')
    (hentries : EntriesResult K path a wd s₁ r s') :
    disk.Toured capacity true mounts path s r s' := by
  refine ⟨?_, fun _ => ⟨wd, disk.watches_top htop hopen path wd ⟨rfl, hwd⟩⟩, fun hignore => ?_⟩
  · refine (htour.trans (Or.inl (Int.natCast_nonneg wd)) htour' hresult.walked hentries.walked
      ?_).congr (fun p w => (disk.watches_iff htop hopen hwd).symm) ?_
    · intro hok
      rcases hentries.done with ⟨-, hgrows⟩ | ⟨hcode, -⟩
      · exact hgrows
      · exact absurd hcode (ok_not_failed hok)
    · rw [disk.fails_iff htop hopen hwd, hwd]
      simp
  · exfalso
    rcases hentries.done with ⟨hr, -⟩ | ⟨hcode, -⟩
    · rw [hr] at hignore
      exact absurd hignore (by unfold ERR_IGNORE; omega)
    · exact absurd hcode (ok_not_failed (Or.inr hignore))

end Toured

/-- Every walk is such a tour. -/
theorem wp_walkTree_tour (recursive : Bool) (mounts : List Bytes) :
    ∀ (fuel : Nat) (path : Bytes) (parent : Option Nat) (s : State (List Nat)),
      Inv K s → ParentAbove s.heap parent path →
      wp fuelOnly (walkTree (diskOs disk) fuel path parent recursive mounts)
        (disk.Toured capacity recursive mounts path s) s := by
  intro fuel
  induction fuel with
  | zero => intro path parent s _ _; exact rfl
  | succ fuel ih =>
      intro path parent s h hp
      unfold walkTree
      by_cases hmount : (mounts.any fun mount => mount.isPrefixOf path) = true
      · rw [if_pos hmount]
        exact disk.toured_crossed recursive ((crossed_iff_any mounts path).mp hmount)
      · rw [if_neg hmount]
        have htop : ¬ Crossed mounts path := fun hc => hmount ((crossed_iff_any mounts path).mpr hc)
        cases hrec : recursive with
        | false =>
            rw [if_pos (by simp)]
            exact wp_addWatch_toured h hp.live htop
        | true =>
            subst hrec
            rw [if_neg (by simp), wp_bind, wp_sys]
            have hans : diskOs disk (.opendir path) s.os = (disk.opendir path, s.os) := rfl
            rw [hans]
            cases hopen : disk.opendir path with
            | error e =>
                have htoured : disk.Toured capacity true mounts path s _ s :=
                  disk.toured_unlisted htop hopen
                dsimp only
                split
                next he => rwa [if_pos he] at htoured
                next he => rwa [if_neg he] at htoured
            | ok entries =>
                dsimp only
                rw [wp_bind]
                refine wp_weaken (wp_and (wp_addWatch_inv h hp true)
                  (wp_addWatch_tour h hp.live)) fun id s₁ hid => ?_
                obtain ⟨hresult, htour, hwatched, hquiet⟩ := hid
                by_cases hneg : id < 0
                · rw [if_pos hneg]
                  exact disk.toured_unwatched htop hopen htour hquiet hneg
                · rw [if_neg hneg]
                  have hnonneg : 0 ≤ id := by omega
                  obtain ⟨wd, rfl, hwd⟩ := hwatched hnonneg
                  obtain ⟨a, n, hn, hnwd, hpath⟩ := hresult.found hnonneg
                  have hnwd : n.wd = wd := by omega
                  refine wp_weaken (wp_and (wp_walkEntries
                    (fun path' parent' s' hinv hp' => wp_walkTree fuel path' parent' true mounts s' hinv hp')
                    path wd a fuel entries s₁ n hresult.inv hn hnwd hpath)
                    (wp_walkEntries_tour (fun path' parent' s' hinv hp' => wp_weaken
                      (wp_and (wp_walkTree fuel path' parent' true mounts s' hinv hp')
                        (ih path' parent' s' hinv hp')) fun _ _ hr => ⟨hr.1, hr.2.tour⟩)
                      path wd a fuel entries s₁ n hresult.inv hn hnwd hpath)) fun r s' hr => ?_
                  exact disk.toured_entries htop hopen hwd htour hresult hr.2 hr.1

end Walks

end FsNotifier
end IdeMultiarch
