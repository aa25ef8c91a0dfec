import IdeMultiarch.FsNotifier.World

/-!
# fsnotifier - a world that only grows

What other processes do when they create directories, and move whole trees from outside
all roots to new places, but remove nothing and take nothing out of the roots.  The
directories inside the roots stay where they are, and every directory that arrives in a
watched directory is announced by an event.

Main results:

- Theorem {lit}`Growing.apply`: one such change.
- Theorem {lit}`Growing.advance`: everything that happens before one system call.
-/

namespace IdeMultiarch
namespace FsNotifier

/-! ## Trees of directories -/

/-- The directories form a tree with inodes of their own, and watches are of inodes. -/
structure Tree (w : World) : Prop where
  path_inj : ∀ d ∈ w.dirs, ∀ d' ∈ w.dirs, d.path = d'.path → d = d'
  inode_inj : ∀ d ∈ w.dirs, ∀ d' ∈ w.dirs, d.inode = d'.inode → d = d'
  closed : ∀ d ∈ w.dirs, ∀ path name, d.path = path ++ [name] → ∃ d' ∈ w.dirs, d'.path = path
  valid : ∀ d ∈ w.dirs, ValidPath d.path
  inode_lt : ∀ d ∈ w.dirs, d.inode < w.nextInode
  watch_inode : ∀ k ∈ w.watches, ∀ k' ∈ w.watches, k.inode = k'.inode → k = k'
  watch_wd : ∀ k ∈ w.watches, ∀ k' ∈ w.watches, k.wd = k'.wd → k = k'
  wd_lt : ∀ k ∈ w.watches, k.wd < w.nextWd

/-- The directories are closed if each but the root has its parent among them. -/
theorem closed_of_dropLast {dirs : List Dir}
    (h : ∀ d ∈ dirs, d.path ≠ [] → ∃ d' ∈ dirs, d'.path = d.path.dropLast) :
    ∀ d ∈ dirs, ∀ path name, d.path = path ++ [name] → ∃ d' ∈ dirs, d'.path = path := by
  intro d hd path name hpath
  obtain ⟨d', hd', hparent⟩ := h d hd (by simp [hpath])
  exact ⟨d', hd', by rw [hparent, hpath, List.dropLast_concat]⟩

/-- A lookup in a list of records whose keys are unique. -/
theorem find?_eq_some_of_unique {α β : Type} [DecidableEq β] {f : α → β} {l : List α}
    (hinj : ∀ x ∈ l, ∀ y ∈ l, f x = f y → x = y) {x : α} (hx : x ∈ l) :
    l.find? (fun y => f y = f x) = some x := by
  cases hfind : l.find? (fun y => f y = f x) with
  | none =>
      have := List.find?_eq_none.mp hfind x hx
      simp at this
  | some y =>
      have hy := List.find?_some hfind
      have hmem := List.mem_of_find?_eq_some hfind
      rw [hinj y hmem x hx (by simpa using hy)]

namespace Tree

variable {w : World}

theorem wdOf_of_mem (h : Tree w) {k : KernelWatch} (hk : k ∈ w.watches) :
    w.wdOf k.inode = some k.wd := by
  unfold World.wdOf
  rw [find?_eq_some_of_unique h.watch_inode hk]
  rfl

/-- With a directory all directories above it exist. -/
theorem closed_prefix (h : Tree w) {p t : Path} {d : Dir} (hd : d ∈ w.dirs)
    (hpath : d.path = p ++ t) : ∃ d' ∈ w.dirs, d'.path = p := by
  induction t using List.reverseRecOn generalizing d with
  | nil => exact ⟨d, hd, by simpa using hpath⟩
  | append_singleton t name ih =>
      obtain ⟨d', hd', hpath'⟩ := h.closed d hd (p ++ t) name (by rw [hpath, List.append_assoc])
      exact ih hd' hpath'

/-- The notifier's spelling of a directory leads to its inode. -/
theorem resolve_render (h : Tree w) {d : Dir} (hd : d ∈ w.dirs) (hne : d.path ≠ []) :
    w.resolve (render d.path) = some d.inode := by
  have hinj : ∀ x ∈ w.dirs, ∀ y ∈ w.dirs, render x.path = render y.path → x = y :=
    fun x hx y hy hxy => h.path_inj x hx y hy
      (render_injective (h.valid x hx) (h.valid y hy) hxy)
  have hlast := render_getLast?_ne (h.valid d hd)
  have hnil : render d.path ≠ [] := by
    cases hpath : d.path with
    | nil => exact absurd hpath hne
    | cons name path => simp [render_cons]
  unfold World.resolve
  dsimp only
  rw [if_neg hlast, if_neg hnil, find?_eq_some_of_unique hinj hd]
  rfl

/-- Two trees that differ in nothing that matters. -/
theorem of_same {w' : World} (h : Tree w) (hdirs : w'.dirs = w.dirs)
    (hinode : w'.nextInode = w.nextInode) (hwatches : w'.watches = w.watches)
    (hwd : w'.nextWd = w.nextWd) : Tree w' := by
  obtain ⟨h₁, h₂, h₃, h₄, h₅, h₆, h₇, h₈⟩ := h
  constructor
  · rwa [hdirs]
  · rwa [hdirs]
  · rwa [hdirs]
  · rwa [hdirs]
  · rwa [hdirs, hinode]
  · rwa [hwatches]
  · rwa [hwatches]
  · rwa [hwatches, hwd]

/-- A new watch of an inode that had none. -/
theorem watch (h : Tree w) {inode : Nat} (hno : ∀ k ∈ w.watches, k.inode ≠ inode) :
    Tree { w with
      watches := w.watches ++ [⟨w.nextWd, inode⟩]
      nextWd := w.nextWd + 1 } := by
  have hcases : ∀ k ∈ w.watches ++ [⟨w.nextWd, inode⟩],
      k ∈ w.watches ∨ k = ⟨w.nextWd, inode⟩ := by
    intro k hk
    simpa using hk
  refine ⟨h.path_inj, h.inode_inj, h.closed, h.valid, h.inode_lt, ?_, ?_, ?_⟩
  · intro k hk k' hk' hinode
    rcases hcases k hk with hk | rfl <;> rcases hcases k' hk' with hk' | rfl
    · exact h.watch_inode k hk k' hk' hinode
    · exact absurd hinode (hno k hk)
    · exact absurd hinode.symm (hno k' hk')
    · rfl
  · intro k hk k' hk' hwd
    rcases hcases k hk with hk | rfl <;> rcases hcases k' hk' with hk' | rfl
    · exact h.watch_wd k hk k' hk' hwd
    · exact absurd hwd (Nat.ne_of_lt (h.wd_lt k hk))
    · exact absurd hwd.symm (Nat.ne_of_lt (h.wd_lt k' hk'))
    · rfl
  · intro k hk
    rcases hcases k hk with hk | rfl
    · exact Nat.lt_succ_of_lt (h.wd_lt k hk)
    · exact Nat.lt_succ_self _

/-- The names of the entries of a directory. -/
theorem mem_childNames (h : Tree w) {d : Dir} (hd : d ∈ w.dirs) {name : Bytes} :
    name ∈ w.childNames d.inode ↔ ∃ d' ∈ w.dirs, d'.path = d.path ++ [name] := by
  unfold World.childNames
  rw [find?_eq_some_of_unique h.inode_inj hd]
  dsimp only
  rw [List.mem_filterMap]
  constructor
  · rintro ⟨d', hd', hname⟩
    split at hname
    · rename_i hcond
      refine ⟨d', hd', ?_⟩
      rw [← hcond.2]
      exact (List.dropLast_append_getLast? name hname).symm
    · contradiction
  · rintro ⟨d', hd', hpath⟩
    refine ⟨d', hd', ?_⟩
    rw [if_pos ⟨by rw [hpath]; simp, by rw [hpath]; simp⟩, hpath]
    simp

end Tree

theorem World.mem_of_inodeOf {w : World} {path : Path} {inode : Nat}
    (h : w.inodeOf path = some inode) : ⟨path, inode⟩ ∈ w.dirs := by
  unfold World.inodeOf at h
  obtain ⟨d, hd, rfl⟩ := Option.map_eq_some_iff.mp h
  have hpath := List.find?_some hd
  have hmem := List.mem_of_find?_eq_some hd
  have hp : d.path = path := by simpa using hpath
  rw [← hp]
  exact hmem

theorem World.not_mem_of_inodeOf {w : World} {path : Path} (h : w.inodeOf path = none) :
    ∀ d ∈ w.dirs, d.path ≠ path := by
  intro d hd hpath
  unfold World.inodeOf at h
  have hnone := List.find?_eq_none.mp (Option.map_eq_none_iff.mp h) d hd
  simp [hpath] at hnone

theorem World.mem_of_wdOf {w : World} {inode wd : Nat} (h : w.wdOf inode = some wd) :
    ⟨wd, inode⟩ ∈ w.watches := by
  unfold World.wdOf at h
  obtain ⟨k, hk, rfl⟩ := Option.map_eq_some_iff.mp h
  have hinode := List.find?_some hk
  have hmem := List.mem_of_find?_eq_some hk
  have hi : k.inode = inode := by simpa using hinode
  rw [← hi]
  exact hmem

/-! ## Inside the roots -/

/-- A directory that lies at or below a root. -/
def Inside (roots : List Bytes) (path : Path) : Prop :=
  path ≠ [] ∧ ∃ root ∈ roots, isParentPath (rootPath root) (render path) = true

theorem Inside.entry {roots : List Bytes} {path : Path} (h : Inside roots path)
    (name : Bytes) : Inside roots (path ++ [name]) := by
  obtain ⟨-, root, hroot, hpath⟩ := h
  refine ⟨by simp, root, hroot, ?_⟩
  rw [render_snoc]
  exact isParentPath_entry name hpath

/-- A change that brings directories and takes none out of the roots: creating one, or
moving a whole tree from outside all roots to a new place. -/
def FsOp.GrowsOnly (roots : List Bytes) : FsOp → Prop
  | .mkdir _ _ => True
  | .rmdir _ _ => False
  | .rename oldParent oldName _ _ replace => replace = false ∧ ∀ root ∈ roots,
      isParentPath (rootPath root) (render (oldParent ++ [oldName])) = false ∧
      isParentPath (render (oldParent ++ [oldName])) (rootPath root) = false

/-- The event is about the arrival of a directory that is still there. -/
def Announces (w : World) (e : KernelEvent) : Prop :=
  (e.happening = .created ∨ e.happening = .movedTo) ∧
  ∃ d ∈ w.dirs, ⟨e.wd, d.inode⟩ ∈ w.watches ∧
    ∃ name, e.name = some name ∧ ∃ d' ∈ w.dirs, d'.path = d.path ++ [name]

/-- The state of a growing world; {lit}`rest` are events that were read but not processed. -/
structure Growing (roots : List Bytes) (rest : List KernelEvent) (w : World) : Prop where
  tree : Tree w
  inside : ∀ k ∈ w.watches, ∃ d ∈ w.dirs, d.inode = k.inode ∧ Inside roots d.path
  announced : ∀ e ∈ rest ++ w.queue, Announces w e

/-- What the notifier may rely on when a world grows from {lit}`w` to {lit}`w'`. -/
structure Grown (roots : List Bytes) (w w' : World) : Prop where
  watches : w'.watches = w.watches
  listed : w'.listed = w.listed
  nextWd : w'.nextWd = w.nextWd
  log : w'.log = w.log
  mounts : w'.mounts = w.mounts
  kept : ∀ d ∈ w.dirs, Inside roots d.path → d ∈ w'.dirs
  queue : ∀ e ∈ w.queue, e ∈ w'.queue
  arrivals : ∀ d ∈ w'.dirs, ∀ wd, ⟨wd, d.inode⟩ ∈ w.watches → ∀ d' ∈ w'.dirs, ∀ name,
    d'.path = d.path ++ [name] → d' ∈ w.dirs ∨ ∃ e ∈ w'.queue, e.wd = wd ∧ e.name = some name

section Growth

variable {roots : List Bytes} {rest : List KernelEvent} {w w' w'' : World}

theorem Grown.refl (w : World) : Grown roots w w :=
  ⟨rfl, rfl, rfl, rfl, rfl, fun _ hd _ => hd, fun _ he => he,
    fun _ _ _ _ _ hd' _ _ => Or.inl hd'⟩

theorem Grown.trans (h : Growing roots rest w) (hg : Grown roots w w')
    (hg' : Grown roots w' w'') (htree : Tree w'') : Grown roots w w'' := by
  refine ⟨hg'.watches.trans hg.watches, hg'.listed.trans hg.listed,
    hg'.nextWd.trans hg.nextWd, hg'.log.trans hg.log, hg'.mounts.trans hg.mounts,
    fun d hd hin => hg'.kept d (hg.kept d hd hin) hin, fun e he => hg'.queue e (hg.queue e he), ?_⟩
  intro d hd wd hk d' hd' name hpath
  have hkept := h.inside _ hk
  rcases hg'.arrivals d hd wd (by rw [hg.watches]; exact hk) d' hd' name hpath with hold | hnew
  · have hdw' : d ∈ w'.dirs := by
      obtain ⟨d₀, hd₀, hinode, hin⟩ := hkept
      have hd₀' := hg.kept d₀ hd₀ hin
      have heq : d₀ = d := htree.inode_inj d₀ (hg'.kept d₀ hd₀' hin) d hd hinode
      exact heq ▸ hd₀'
    rcases hg.arrivals d hdw' wd hk d' hold name hpath with hold | ⟨e, he, hwd, hname⟩
    · exact Or.inl hold
    · exact Or.inr ⟨e, hg'.queue e he, hwd, hname⟩
  · exact Or.inr hnew

/-- What was announced stays announced. -/
theorem Announces.grown (h : Growing roots rest w) (hg : Grown roots w w') {e : KernelEvent}
    (he : Announces w e) : Announces w' e := by
  obtain ⟨hhow, d, hd, hk, name, hname, d', hd', hpath⟩ := he
  obtain ⟨d₀, hd₀, hinode, hin⟩ := h.inside _ hk
  have heq : d₀ = d := h.tree.inode_inj d₀ hd₀ d hd hinode
  rw [heq] at hin
  refine ⟨hhow, d, hg.kept d hd hin, by rw [hg.watches]; exact hk, name, hname, d', ?_, hpath⟩
  exact hg.kept d' hd' (by rw [hpath]; exact hin.entry name)

/-- A world that has grown is a growing world, if its new events are announcements. -/
theorem Growing.of_grown (h : Growing roots rest w) (hg : Grown roots w w') (htree : Tree w')
    (hnew : ∀ e ∈ w'.queue, e ∈ w.queue ∨ Announces w' e) : Growing roots rest w' := by
  refine ⟨htree, ?_, ?_⟩
  · intro k hk
    rw [hg.watches] at hk
    obtain ⟨d, hd, hinode, hin⟩ := h.inside k hk
    exact ⟨d, hg.kept d hd hin, hinode, hin⟩
  · intro e he
    rcases List.mem_append.mp he with he | he
    · exact (h.announced e (List.mem_append_left _ he)).grown h hg
    · rcases hnew e he with hold | hann
      · exact (h.announced e (List.mem_append_right _ hold)).grown h hg
      · exact hann

end Growth

/-! ## One change -/

section Changes

variable {roots : List Bytes} {rest : List KernelEvent} {w : World}

@[simp]
theorem World.notify_dirs (w : World) (inode : Nat) (happening : Happening)
    (name : Option Bytes) : (w.notify inode happening name).dirs = w.dirs := by
  unfold World.notify
  split <;> rfl

@[simp]
theorem World.notify_watches (w : World) (inode : Nat) (happening : Happening)
    (name : Option Bytes) : (w.notify inode happening name).watches = w.watches := by
  unfold World.notify
  split <;> rfl

theorem World.notify_tree {inode : Nat} {happening : Happening} {name : Option Bytes}
    (h : Tree w) : Tree (w.notify inode happening name) := by
  unfold World.notify
  split
  · exact h
  · exact h.of_same rfl rfl rfl rfl

/-- An unwatched inode makes no event. -/
theorem World.notify_unwatched (inode : Nat) (hno : ∀ k ∈ w.watches, k.inode ≠ inode)
    (happening : Happening) (name : Option Bytes) : w.notify inode happening name = w := by
  unfold World.notify
  cases hwd : w.wdOf inode with
  | none => rfl
  | some wd => exact absurd rfl (hno _ (World.mem_of_wdOf hwd))

/-- The only new event is about the inode. -/
theorem World.mem_notify_queue {inode : Nat} {happening : Happening} {name : Option Bytes}
    {e : KernelEvent} (he : e ∈ (w.notify inode happening name).queue) :
    e ∈ w.queue ∨ ∃ wd, ⟨wd, inode⟩ ∈ w.watches ∧ e = ⟨wd, happening, name⟩ := by
  unfold World.notify at he
  split at he
  · exact Or.inl he
  · rename_i wd hwd
    rcases List.mem_append.mp he with he | he
    · exact Or.inl he
    · exact Or.inr ⟨wd, World.mem_of_wdOf hwd, List.mem_singleton.mp he⟩

theorem World.queue_notify {inode : Nat} {happening : Happening} {name : Option Bytes} :
    ∀ e ∈ w.queue, e ∈ (w.notify inode happening name).queue := by
  intro e he
  unfold World.notify
  split
  · exact he
  · exact List.mem_append_left _ he

/-- A watched inode makes an event. -/
theorem World.notify_watched {inode wd : Nat} (h : Tree w) (hk : ⟨wd, inode⟩ ∈ w.watches)
    (happening : Happening) (name : Option Bytes) :
    ⟨wd, happening, name⟩ ∈ (w.notify inode happening name).queue := by
  unfold World.notify
  rw [h.wdOf_of_mem hk]
  exact List.mem_append_right _ (List.mem_singleton.mpr rfl)

/-- A change that brings one directory to the place {lit}`parent ++ [name]`, tells the parent
about it, and leaves alone what is inside the roots. -/
theorem Growing.arrive (h : Growing roots rest w) (parent : Path) (name : Bytes)
    {dirs : List Dir} {nextInode parentInode : Nat} {happening : Happening}
    (hhow : happening = .created ∨ happening = .movedTo)
    (htree : Tree { w with dirs := dirs, nextInode := nextInode })
    (hkept : ∀ d ∈ w.dirs, Inside roots d.path → d ∈ dirs)
    (hparent : ⟨parent, parentInode⟩ ∈ dirs) (hnew : ∃ d ∈ dirs, d.path = parent ++ [name])
    (hold : ∀ d ∈ dirs, ∀ wd, ⟨wd, d.inode⟩ ∈ w.watches → ∀ d' ∈ dirs, ∀ n,
      d'.path = d.path ++ [n] → d' ∈ w.dirs ∨ d'.path = parent ++ [name]) :
    let w' := ({ w with dirs := dirs, nextInode := nextInode } : World).notify parentInode
      happening (some name)
    Growing roots rest w' ∧ Grown roots w w' := by
  intro w'
  have hu : Untouched w w' := ((Untouched.refl w).dirs dirs nextInode).notify _ _ _
  have hdirs : w'.dirs = dirs := World.notify_dirs _ _ _ _
  have hwatches : w'.watches = w.watches := World.notify_watches _ _ _ _
  have htree' : Tree w' := World.notify_tree htree
  have hmounts : w'.mounts = w.mounts := by
    change (World.notify _ _ _ _).mounts = _
    unfold World.notify
    split <;> rfl
  have hgrown : Grown roots w w' := by
    refine ⟨hwatches, hu.listed, hu.nextWd, hu.log, hmounts, ?_, ?_, ?_⟩
    · rw [hdirs]
      exact hkept
    · exact World.queue_notify (w := { w with dirs := dirs, nextInode := nextInode })
    · rw [hdirs]
      intro d hd wd hk d' hd' n hpath
      rcases hold d hd wd hk d' hd' n hpath with hd' | hplace
      · exact Or.inl hd'
      · right
        rw [hpath] at hplace
        obtain ⟨hdp, hn⟩ := List.append_inj' hplace rfl
        have heq : d = ⟨parent, parentInode⟩ := htree.path_inj d hd _ hparent hdp
        rw [heq] at hk
        refine ⟨_, World.notify_watched htree hk happening (some name), rfl, ?_⟩
        rw [(List.cons.inj hn).1]
  refine ⟨h.of_grown hgrown htree' ?_, hgrown⟩
  intro e he
  rcases World.mem_notify_queue he with hold | ⟨wd, hk, rfl⟩
  · exact Or.inl hold
  · right
    obtain ⟨d, hd, hpath⟩ := hnew
    refine ⟨hhow, ⟨parent, parentInode⟩, by rw [hdirs]; exact hparent, ?_, name, rfl, d, ?_, hpath⟩
    · rw [hwatches]
      exact hk
    · rw [hdirs]
      exact hd

/-- A new directory with a new inode keeps the tree. -/
theorem Tree.snoc (h : Tree w) {parent : Path} {name : Bytes} {parentInode : Nat}
    (hparent : ⟨parent, parentInode⟩ ∈ w.dirs) (hname : validName name = true)
    (hfree : ∀ d ∈ w.dirs, d.path ≠ parent ++ [name]) :
    Tree { w with
      dirs := w.dirs ++ [⟨parent ++ [name], w.nextInode⟩]
      nextInode := w.nextInode + 1 } := by
  have hcases : ∀ d ∈ w.dirs ++ [⟨parent ++ [name], w.nextInode⟩],
      d ∈ w.dirs ∨ d = ⟨parent ++ [name], w.nextInode⟩ := by
    intro d hd
    simpa using hd
  refine ⟨?_, ?_, ?_, ?_, ?_, h.watch_inode, h.watch_wd, h.wd_lt⟩
  · intro d hd d' hd' hpath
    rcases hcases d hd with hd | rfl <;> rcases hcases d' hd' with hd' | rfl
    · exact h.path_inj d hd d' hd' hpath
    · exact absurd hpath (hfree d hd)
    · exact absurd hpath.symm (hfree d' hd')
    · rfl
  · intro d hd d' hd' hinode
    rcases hcases d hd with hd | rfl <;> rcases hcases d' hd' with hd' | rfl
    · exact h.inode_inj d hd d' hd' hinode
    · exact absurd hinode (Nat.ne_of_lt (h.inode_lt d hd))
    · exact absurd hinode.symm (Nat.ne_of_lt (h.inode_lt d' hd'))
    · rfl
  · intro d hd path n hpath
    rcases hcases d hd with hd | rfl
    · obtain ⟨d', hd', hpath'⟩ := h.closed d hd path n hpath
      exact ⟨d', List.mem_append_left _ hd', hpath'⟩
    · exact ⟨_, List.mem_append_left _ hparent, (List.append_inj' hpath rfl).1⟩
  · intro d hd
    rcases hcases d hd with hd | rfl
    · exact h.valid d hd
    · intro n hn
      rcases List.mem_append.mp hn with hn | hn
      · exact h.valid _ hparent n hn
      · rw [List.mem_singleton.mp hn]
        exact hname
  · intro d hd
    rcases hcases d hd with hd | rfl
    · exact Nat.lt_succ_of_lt (h.inode_lt d hd)
    · exact Nat.lt_succ_self _

/-- Creating a directory. -/
theorem Growing.mkdir (h : Growing roots rest w) (parent : Path) (name : Bytes) :
    Growing roots rest (w.mkdir parent name) ∧ Grown roots w (w.mkdir parent name) := by
  unfold World.mkdir
  split
  · rename_i parentInode hparent hnone
    split
    · rename_i hvalid
      have hpd := World.mem_of_inodeOf hparent
      refine h.arrive parent name (Or.inl rfl)
        (h.tree.snoc hpd hvalid (World.not_mem_of_inodeOf hnone))
        (fun d hd _ => List.mem_append_left _ hd) (List.mem_append_left _ hpd)
        ⟨_, List.mem_append_right _ (List.mem_singleton.mpr rfl), rfl⟩ ?_
      intro d _ wd _ d' hd' n _
      rcases List.mem_append.mp hd' with hd' | hd'
      · exact Or.inl hd'
      · exact Or.inr (by rw [List.mem_singleton.mp hd'])
    · exact ⟨h, .refl w⟩
  · exact ⟨h, .refl w⟩

/-- Where a directory is after {lit}`old` was moved to {lit}`new`. -/
theorem World.mem_moveDirs {old new : Path} {dirs : List Dir} {d' : Dir}
    (hd' : d' ∈ World.moveDirs old new dirs) :
    (d' ∈ dirs ∧ ¬ old <+: d'.path) ∨
    ∃ t, ⟨old ++ t, d'.inode⟩ ∈ dirs ∧ d'.path = new ++ t := by
  obtain ⟨d, hd, rfl⟩ := List.mem_map.mp hd'
  by_cases hpre : old.isPrefixOf d.path = true
  · right
    rw [if_pos hpre]
    obtain ⟨t, ht⟩ := List.isPrefixOf_iff_prefix.mp hpre
    refine ⟨t, ?_, ?_⟩
    · rw [ht]
      exact hd
    · rw [← ht, List.drop_left]
  · left
    rw [if_neg hpre]
    exact ⟨hd, fun h => hpre (List.isPrefixOf_iff_prefix.mpr h)⟩

theorem World.mem_moveDirs_unmoved {old new : Path} {dirs : List Dir} {d : Dir}
    (hd : d ∈ dirs) (hno : ¬ old <+: d.path) : d ∈ World.moveDirs old new dirs := by
  refine List.mem_map.mpr ⟨d, hd, ?_⟩
  rw [if_neg fun h => hno (List.isPrefixOf_iff_prefix.mp h)]

theorem World.mem_moveDirs_moved {old : Path} (new : Path) {dirs : List Dir} (t : Path)
    {inode : Nat} (hd : ⟨old ++ t, inode⟩ ∈ dirs) : ⟨new ++ t, inode⟩ ∈ World.moveDirs old new dirs := by
  refine List.mem_map.mpr ⟨_, hd, ?_⟩
  rw [if_pos (List.isPrefixOf_iff_prefix.mpr (List.prefix_append old t)), List.drop_left]

/-- Moving a tree to a free place outside itself keeps the tree. -/
theorem Tree.moveDirs (h : Tree w) {old newParent : Path} {newName : Bytes}
    {newParentInode : Nat} (hparent : ⟨newParent, newParentInode⟩ ∈ w.dirs)
    (hname : validName newName = true) (houtside : ¬ old <+: newParent)
    (hfree : ∀ d ∈ w.dirs, d.path ≠ newParent ++ [newName]) :
    Tree { w with dirs := World.moveDirs old (newParent ++ [newName]) w.dirs } := by
  have hfree' : ∀ d ∈ w.dirs, ∀ t, d.path ≠ newParent ++ [newName] ++ t := by
    intro d hd t hpath
    obtain ⟨d', hd', hpath'⟩ := h.closed_prefix hd hpath
    exact hfree d' hd' hpath'
  refine ⟨?_, ?_, ?_, ?_, ?_, h.watch_inode, h.watch_wd, h.wd_lt⟩
  · intro d hd d' hd' hpath
    rcases World.mem_moveDirs hd with ⟨hd, -⟩ | ⟨t, hd, ht⟩ <;>
      rcases World.mem_moveDirs hd' with ⟨hd', -⟩ | ⟨t', hd', ht'⟩
    · exact h.path_inj d hd d' hd' hpath
    · exact absurd (hpath.trans ht') (hfree' d hd t')
    · exact absurd (hpath.symm.trans ht) (hfree' d' hd' t)
    · rw [ht, ht'] at hpath
      have htt : t = t' := List.append_cancel_left hpath
      rw [htt] at hd ht
      have hinode := h.path_inj _ hd _ hd' rfl
      obtain ⟨p, i⟩ := d
      obtain ⟨p', i'⟩ := d'
      simp only [Dir.mk.injEq, true_and] at hinode ht ht' ⊢
      exact ⟨ht.trans ht'.symm, hinode⟩
  · intro d hd d' hd' hinode
    rcases World.mem_moveDirs hd with ⟨hd, hno⟩ | ⟨t, hd, ht⟩ <;>
      rcases World.mem_moveDirs hd' with ⟨hd', hno'⟩ | ⟨t', hd', ht'⟩
    · exact h.inode_inj d hd d' hd' hinode
    · rw [h.inode_inj d hd _ hd' hinode] at hno
      exact absurd (List.prefix_append old t') hno
    · rw [h.inode_inj d' hd' _ hd hinode.symm] at hno'
      exact absurd (List.prefix_append old t) hno'
    · have heq := h.inode_inj _ hd _ hd' hinode
      have htt : t = t' := List.append_cancel_left (Dir.mk.injEq .. ▸ heq).1
      obtain ⟨p, i⟩ := d
      obtain ⟨p', i'⟩ := d'
      simp only [Dir.mk.injEq] at hinode ht ht' ⊢
      exact ⟨by rw [ht, ht', htt], hinode⟩
  · intro d hd path n hpath
    rcases World.mem_moveDirs hd with ⟨hd, hno⟩ | ⟨t, hd, ht⟩
    · obtain ⟨d', hd', hpath'⟩ := h.closed d hd path n hpath
      refine ⟨d', World.mem_moveDirs_unmoved hd' ?_, hpath'⟩
      intro hpre
      apply hno
      rw [hpath, ← hpath']
      exact hpre.trans (List.prefix_append _ _)
    · rw [ht] at hpath
      induction t using List.reverseRecOn with
      | nil =>
          rw [List.append_nil] at hpath
          refine ⟨_, World.mem_moveDirs_unmoved hparent houtside, ?_⟩
          exact (List.append_inj' hpath rfl).1
      | append_singleton t n' _ =>
          rw [← List.append_assoc] at hpath
          obtain ⟨d', hd', hpath'⟩ := h.closed _ hd (old ++ t) n' (by simp)
          obtain ⟨p', i'⟩ := d'
          have hp' : p' = old ++ t := hpath'
          rw [hp'] at hd'
          exact ⟨_, World.mem_moveDirs_moved _ _ hd', (List.append_inj' hpath rfl).1⟩
  · intro d hd
    rcases World.mem_moveDirs hd with ⟨hd, -⟩ | ⟨t, hd, ht⟩
    · exact h.valid d hd
    · intro n hn
      rw [ht] at hn
      rcases List.mem_append.mp hn with hn | hn
      · rcases List.mem_append.mp hn with hn | hn
        · exact h.valid _ hparent n hn
        · rw [List.mem_singleton.mp hn]
          exact hname
      · exact h.valid _ hd n (List.mem_append_right _ hn)
  · intro d hd
    rcases World.mem_moveDirs hd with ⟨hd, -⟩ | ⟨t, hd, -⟩
    · exact h.inode_lt d hd
    · exact h.inode_lt ⟨old ++ t, d.inode⟩ hd

/-- Moving a tree from outside all roots to a free place. -/
theorem Growing.rename (h : Growing roots rest w) {oldParent newParent : Path}
    {oldName newName : Bytes} (hout : ∀ root ∈ roots,
      isParentPath (rootPath root) (render (oldParent ++ [oldName])) = false ∧
      isParentPath (render (oldParent ++ [oldName])) (rootPath root) = false) :
    Growing roots rest (w.rename oldParent oldName newParent newName false) ∧
      Grown roots w (w.rename oldParent oldName newParent newName false) := by
  unfold World.rename
  dsimp only
  split
  · rename_i oldParentInode inode newParentInode hop hold hnp
    split
    · rename_i hcond
      obtain ⟨hname, hpre, -⟩ := hcond
      have houtside : ¬ (oldParent ++ [oldName]) <+: newParent := by
        intro hpre'
        simp [List.isPrefixOf_iff_prefix.mpr hpre'] at hpre
      have hopd := World.mem_of_inodeOf hop
      have hold := World.mem_of_inodeOf hold
      have hnpd := World.mem_of_inodeOf hnp
      split
      · rename_i hnone
        have hfree := World.not_mem_of_inodeOf hnone
        -- neither the moved tree nor the directory above it lies inside a root
        have hnotin : ∀ t, ¬ Inside roots (oldParent ++ [oldName] ++ t) := by
          rintro t ⟨-, root, hroot, hbelow⟩
          have habove := isParentPath_render_append (oldParent ++ [oldName]) t
          rcases isParentPath_total hbelow habove with htot | htot
          · rw [(hout root hroot).1] at htot
            contradiction
          · rw [(hout root hroot).2] at htot
            contradiction
        have hunmoved : ∀ d ∈ w.dirs, Inside roots d.path →
            ¬ (oldParent ++ [oldName]) <+: d.path := by
          rintro d hd hin ⟨t, ht⟩
          exact hnotin t (ht ▸ hin)
        have hunwatched : ∀ {d : Dir}, d ∈ w.dirs → ¬ Inside roots d.path →
            ∀ k ∈ w.watches, k.inode ≠ d.inode := by
          intro d hd hno k hk hinode
          obtain ⟨d₀, hd₀, hinode₀, hin⟩ := h.inside k hk
          rw [h.tree.inode_inj d₀ hd₀ d hd (hinode₀.trans hinode)] at hin
          exact hno hin
        have htree := h.tree.moveDirs hnpd hname houtside hfree
        have hwatchOld := hunwatched hopd fun hin => hnotin [] (by
          rw [List.append_nil]
          exact hin.entry oldName)
        have hwatchMoved := hunwatched hold fun hin => hnotin [] (by
          rw [List.append_nil]
          exact hin)
        let w₁ : World :=
          { w with dirs := World.moveDirs (oldParent ++ [oldName]) (newParent ++ [newName]) w.dirs }
        have hold₁ : ∀ happening name, w₁.notify oldParentInode happening name = w₁ :=
          World.notify_unwatched (w := w₁) oldParentInode hwatchOld
        rw [hold₁, World.notify_unwatched inode (by
          rw [World.notify_watches]
          exact hwatchMoved)]
        refine h.arrive newParent newName (Or.inr rfl) htree
          (fun d hd hin => World.mem_moveDirs_unmoved hd (hunmoved d hd hin))
          (World.mem_moveDirs_unmoved hnpd houtside) ?_ ?_
        · have hmoved := World.mem_moveDirs_moved (newParent ++ [newName]) []
            (by rw [List.append_nil]; exact hold)
          exact ⟨_, hmoved, List.append_nil _⟩
        · intro d hd wd hk d' hd' n hpath
          rcases World.mem_moveDirs hd' with ⟨hd', -⟩ | ⟨t, hd', ht⟩
          · exact Or.inl hd'
          · right
            rw [hpath] at ht
            induction t using List.reverseRecOn with
            | nil => rw [hpath, ht, List.append_nil]
            | append_singleton t n' _ =>
                -- below the moved directory nothing is watched
                exfalso
                rw [← List.append_assoc] at ht
                have hdp : d.path = newParent ++ [newName] ++ t := (List.append_inj' ht rfl).1
                rcases World.mem_moveDirs hd with ⟨hd, -⟩ | ⟨t', hd, ht'⟩
                · obtain ⟨d₀, hd₀, hpath₀⟩ := h.tree.closed_prefix hd hdp
                  exact hfree d₀ hd₀ hpath₀
                · obtain ⟨d₀, hd₀, hinode₀, hin⟩ := h.inside _ hk
                  rw [h.tree.inode_inj d₀ hd₀ _ hd hinode₀] at hin
                  exact hnotin t' hin
      · exact ⟨h, .refl w⟩
    · exact ⟨h, .refl w⟩
  · exact ⟨h, .refl w⟩

/-- One change of a growing world. -/
theorem Growing.apply (h : Growing roots rest w) {op : FsOp} (hop : op.GrowsOnly roots) :
    Growing roots rest (w.apply op) ∧ Grown roots w (w.apply op) := by
  cases op with
  | mkdir parent name => exact h.mkdir parent name
  | rmdir parent name => exact hop.elim
  | rename oldParent oldName newParent newName replace =>
      obtain ⟨rfl, hout⟩ := hop
      exact h.rename hout

/-- The record of a change does not matter to growth. -/
theorem Growing.note (h : Growing roots rest w) (reading : Bool) (op : FsOp) :
    Growing roots rest (w.note reading op) ∧ Grown roots w (w.note reading op) := by
  refine ⟨⟨h.tree.of_same rfl rfl rfl rfl, h.inside, h.announced⟩, ?_⟩
  have hg : Grown roots w w := .refl w
  exact ⟨rfl, rfl, rfl, rfl, rfl, hg.kept, hg.queue, hg.arrivals⟩

/-- Everything that happens before one system call. -/
theorem Growing.advance (h : Growing roots rest w) (reading : Bool) {turn : Turn}
    (hops : ∀ op ∈ turn.ops, op.GrowsOnly roots) :
    Growing roots rest (w.advance reading turn) ∧ Grown roots w (w.advance reading turn) := by
  have key : ∀ (ops : List FsOp) (w' : World), (∀ op ∈ ops, op.GrowsOnly roots) →
      Growing roots rest w' → Grown roots w w' →
      Growing roots rest (w'.applyAll reading ops) ∧ Grown roots w (w'.applyAll reading ops) := by
    intro ops
    induction ops with
    | nil => intro w' _ hw' hg; exact ⟨hw', hg⟩
    | cons op ops ih =>
        intro w' hops hw' hg
        obtain ⟨hnoted, hg₀⟩ := hw'.note reading op
        obtain ⟨hw'', hg'⟩ := hnoted.apply (hops op (by simp))
        exact ih _ (fun o ho => hops o (List.mem_cons_of_mem _ ho)) hw''
          (Grown.trans h (Grown.trans h hg hg₀ hnoted.tree) hg' hw''.tree)
  obtain ⟨hw', hg⟩ := key turn.ops w hops h (.refl w)
  refine ⟨⟨hw'.tree.of_same rfl rfl rfl rfl, hw'.inside, hw'.announced⟩, ?_⟩
  exact ⟨hg.watches, hg.listed, hg.nextWd, hg.log, hg.mounts, hg.kept, hg.queue, hg.arrivals⟩

end Changes

end FsNotifier
end IdeMultiarch
