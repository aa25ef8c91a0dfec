import IdeMultiarch.FsNotifier.GrowingWorld

/-!
# fsnotifier - a world that changes

What other processes do to the directories and to the queue when they make, remove and rename
directories.  Only a rename brings a watched directory to another place, and then the directory it
was in gets its event before any other that the rename makes.

Main results:

- Definition {lit}`Change.Harmless`: the changes that a walk of the notifier cannot run into.
- Theorem {lit}`Shifts.mkdir`, {lit}`Shifts.rmdir`: watched directories stay where they are.
- Theorem {lit}`rename_shifts`: only what is below the old name is moved.
-/

namespace IdeMultiarch
namespace FsNotifier

/-! ## Harmless changes -/

/-- The event is about a directory that arrives. -/
def KernelEvent.Arrival (e : KernelEvent) : Prop :=
  e.happening = .created ∨ e.happening = .movedTo

instance (e : KernelEvent) : Decidable e.Arrival := by
  unfold KernelEvent.Arrival
  infer_instance

/-- An arrival comes under a name that a directory may have. -/
def KernelEvent.Named (e : KernelEvent) : Prop :=
  e.Arrival → ∃ name ∈ e.name, validName name = true

/-- Neither of the two paths is at or below the other. -/
def PathsApart (p q : Bytes) : Prop :=
  isParentPath p q = false ∧ isParentPath q p = false

instance (p q : Bytes) : Decidable (PathsApart p q) := by
  unfold PathsApart
  infer_instance

/-- What is at or below one of them is apart from the other. -/
theorem PathsApart.below {p q q' : Bytes} (h : PathsApart p q) (hq : isParentPath q q' = true) :
    PathsApart p q' := by
  constructor
  · rw [Bool.eq_false_iff]
    intro hp
    rcases isParentPath_total hp hq with hpq | hqp
    · rw [h.1] at hpq
      contradiction
    · rw [h.2] at hqp
      contradiction
  · rw [Bool.eq_false_iff]
    intro hp
    have hqp := isParentPath_trans hq hp
    rw [h.2] at hqp
    contradiction

namespace Change

variable (c : Change)

/-- No directory at or below {lit}`old` is watched. -/
def Unwatched (old : Path) : Prop :=
  ∀ k ∈ c.watches, ∀ d ∈ c.dirs, d.inode = k.inode → ¬ old <+: d.path

/-- What the notifier holds for the path is the watch of the directory that is there. -/
def Current (path : Path) : Prop :=
  ∀ h ∈ c.held, h.2 = render path →
    ∃ k ∈ c.watches, k.wd = h.1 ∧ ∃ d ∈ c.dirs, d.inode = k.inode ∧ d.path = path

/-- The notifier holds no watch of a sibling whose name the name begins with. -/
def Unshadowed (parent : Path) (name : Bytes) : Prop :=
  ∀ h ∈ c.held, (render parent ++ [slash]) <+: h.2 → h.2 <+: render (parent ++ [name]) →
    h.2 = render (parent ++ [name])

/-- The roots are registered, and no arrival that the notifier may still have to process is about
a directory at, above or below the new place. -/
def Unexpected (new : Path) : Prop :=
  ∃ events ∈ c.pending, ∀ e ∈ events, e.Arrival → ∀ name ∈ e.name, ∀ h ∈ c.held, h.1 = e.wd →
    PathsApart (h.2 ++ slash :: name) (render new)

/-- Making and removing directories is harmless, and so is a rename of directories that are not
watched.  A rename of watched directories is harmless if what the notifier knows of the old place
is up to date and nothing that it has yet to process leads it to the new one. -/
def Harmless : Prop :=
  match c.op with
  | .mkdir _ _ => True
  | .rmdir _ _ => True
  | .rename oldParent oldName newParent newName _ =>
      c.Unwatched (oldParent ++ [oldName]) ∨
        (c.Current oldParent ∧ c.Current (oldParent ++ [oldName]) ∧
          c.Unshadowed oldParent oldName ∧ c.Unexpected (newParent ++ [newName]))

instance (old : Path) : Decidable (c.Unwatched old) := by
  unfold Unwatched
  infer_instance

instance (path : Path) : Decidable (c.Current path) := by
  unfold Current
  infer_instance

instance (parent : Path) (name : Bytes) : Decidable (c.Unshadowed parent name) := by
  unfold Unshadowed
  infer_instance

instance (new : Path) : Decidable (c.Unexpected new) := by
  unfold Unexpected
  infer_instance

instance : Decidable c.Harmless := by
  unfold Harmless
  cases c.op with
  | mkdir parent name => exact .isTrue trivial
  | rmdir parent name => exact .isTrue trivial
  | rename oldParent oldName newParent newName replace => infer_instance

end Change

/-- A rename of a root, or of a directory above one, is no rename inside the roots. -/
def FsOp.Spares (roots : List Bytes) : FsOp → Prop
  | .rename oldParent oldName _ _ _ => ∀ root ∈ roots,
      isParentPath (render (oldParent ++ [oldName])) (rootPath root) = false
  | _ => True

/-! ## The record of changes -/

section Record

variable (w : World)

@[simp]
theorem World.changes_notify (inode : Nat) (happening : Happening) (name : Option Bytes) :
    (w.notify inode happening name).changes = w.changes := by
  unfold World.notify
  split <;> rfl

@[simp]
theorem World.changes_vanish (inode : Nat) : (w.vanish inode).changes = w.changes := by
  simp [World.vanish]

/-- A change does not record itself. -/
theorem World.changes_apply (op : FsOp) : (w.apply op).changes = w.changes := by
  cases op with
  | mkdir parent name =>
      unfold World.apply World.mkdir
      dsimp only
      split
      · split
        · simp
        · rfl
      · rfl
  | rmdir parent name =>
      unfold World.apply World.rmdir
      dsimp only
      split
      · split
        · simp
        · rfl
      · rfl
  | rename oldParent oldName newParent newName replace =>
      unfold World.apply World.rename
      dsimp only
      split
      · split
        · split
          · simp
          · split
            · simp
            · rfl
        · rfl
      · rfl

/-- Changes are added to the record. -/
theorem World.changes_applyAll (reading : Bool) (ops : List FsOp) :
    ∃ more, (w.applyAll reading ops).changes = w.changes ++ more := by
  induction ops generalizing w with
  | nil => exact ⟨[], (List.append_nil _).symm⟩
  | cons op ops ih =>
      obtain ⟨more, hmore⟩ := ih ((w.note reading op).apply op)
      rw [World.changes_apply, World.note, List.append_assoc] at hmore
      exact ⟨_, hmore⟩

end Record

/-! ## Trees -/

section Trees

variable {w : World}

/-- Removing an empty directory keeps the tree. -/
theorem Tree.remove (h : Tree w) {d₀ : Dir} (hd₀ : d₀ ∈ w.dirs)
    (hempty : w.isEmpty d₀.path = true) :
    Tree { w with dirs := w.dirs.filter fun d => d.inode ≠ d₀.inode } := by
  have hsub : ∀ d ∈ w.dirs.filter fun d => d.inode ≠ d₀.inode, d ∈ w.dirs :=
    fun d hd => (List.mem_filter.mp hd).1
  refine ⟨fun d hd d' hd' => h.path_inj d (hsub d hd) d' (hsub d' hd'),
    fun d hd d' hd' => h.inode_inj d (hsub d hd) d' (hsub d' hd'), ?_,
    fun d hd => h.valid d (hsub d hd), fun d hd => h.inode_lt d (hsub d hd), h.watch_inode,
    h.watch_wd, h.wd_lt⟩
  intro d hd path name hpath
  obtain ⟨d', hd', hpath'⟩ := h.closed d (hsub d hd) path name hpath
  refine ⟨d', List.mem_filter.mpr ⟨hd', decide_eq_true fun hinode => ?_⟩, hpath'⟩
  have heq := h.inode_inj d' hd' d₀ hd₀ hinode
  -- an empty directory is not the parent of another one
  have hleaf := List.all_eq_true.mp hempty d (hsub d hd)
  have hpre : d₀.path.isPrefixOf d.path = true :=
    List.isPrefixOf_iff_prefix.mpr ⟨[name], by rw [hpath, ← hpath', heq]⟩
  rw [hpre, Bool.not_true, Bool.false_or] at hleaf
  have hsame : d.path = d₀.path := of_decide_eq_true hleaf
  have hlen := congrArg List.length hpath
  rw [hsame, ← heq, hpath', List.length_append] at hlen
  simp at hlen

/-- Fewer watches keep the tree. -/
theorem Tree.unwatch (h : Tree w) (p : KernelWatch → Bool) :
    Tree { w with watches := w.watches.filter p } := by
  have hsub : ∀ k ∈ w.watches.filter p, k ∈ w.watches := fun k hk => (List.mem_filter.mp hk).1
  exact ⟨h.path_inj, h.inode_inj, h.closed, h.valid, h.inode_lt,
    fun k hk k' hk' => h.watch_inode k (hsub k hk) k' (hsub k' hk'),
    fun k hk k' hk' => h.watch_wd k (hsub k hk) k' (hsub k' hk'),
    fun k hk => h.wd_lt k (hsub k hk)⟩

end Trees

/-! ## Events -/

namespace KernelEvent

theorem named_some {name : Bytes} (hname : validName name = true) (happening : Happening)
    (wd : Nat) : (⟨wd, happening, some name⟩ : KernelEvent).Named := by
  intro _
  exact ⟨name, rfl, hname⟩

theorem named_of_not_arrival (happening : Happening)
    (hno : ¬ (happening = .created ∨ happening = .movedTo)) (name : Option Bytes) (wd : Nat) :
    (⟨wd, happening, name⟩ : KernelEvent).Named :=
  fun harrival => absurd harrival hno

end KernelEvent

/-! ## Changes of the world -/

/-- From {lit}`w` to {lit}`w'` other processes have changed the tree; a watched directory is
where it was, unless {lit}`Moved` has its old and its new place.  Events were queued for watched
directories. -/
structure Shifts (Moved : Path → Path → Prop) (w w' : World) : Prop where
  tree : Tree w'
  inode_lt : ∀ k ∈ w'.watches, k.inode < w'.nextInode
  untouched : Untouched w w'
  delivered : w'.delivered = w.delivered
  changes : w'.changes = w.changes
  place : ∀ k ∈ w'.watches, ∀ d' ∈ w'.dirs, d'.inode = k.inode →
    d' ∈ w.dirs ∨ ∃ path, ⟨path, d'.inode⟩ ∈ w.dirs ∧ Moved path d'.path
  queue : ∃ more, w'.queue = w.queue ++ more ∧
    ∀ e ∈ more, e.Named ∧ ∃ k ∈ w.watches, k.wd = e.wd

namespace Shifts

variable {Moved : Path → Path → Prop} {w w' : World}

theorem refl (h : Tree w) (hlt : ∀ k ∈ w.watches, k.inode < w.nextInode) : Shifts Moved w w :=
  ⟨h, hlt, .refl w, rfl, rfl, fun _ _ _ hd _ => Or.inl hd, [], (List.append_nil _).symm, by simp⟩

/-- A change of the directories alone. -/
theorem of_dirs {dirs : List Dir} {nextInode : Nat}
    (h : Tree { w with dirs := dirs, nextInode := nextInode })
    (hlt : ∀ k ∈ w.watches, k.inode < nextInode)
    (hplace : ∀ k ∈ w.watches, ∀ d' ∈ dirs, d'.inode = k.inode →
      d' ∈ w.dirs ∨ ∃ path, ⟨path, d'.inode⟩ ∈ w.dirs ∧ Moved path d'.path) :
    Shifts Moved w { w with dirs := dirs, nextInode := nextInode } :=
  ⟨h, hlt, (Untouched.refl w).dirs _ _, rfl, rfl, hplace, [], (List.append_nil _).symm, by simp⟩

/-- An event is queued. -/
theorem notify (h : Shifts Moved w w') (inode : Nat) {happening : Happening} {name : Option Bytes}
    (hnamed : ∀ wd, (⟨wd, happening, name⟩ : KernelEvent).Named) :
    Shifts Moved w (w'.notify inode happening name) := by
  have htree : Tree (w'.notify inode happening name) := World.notify_tree h.tree
  have huntouched := h.untouched.notify inode happening name
  obtain ⟨more, hmore, hwds⟩ := h.queue
  unfold World.notify at htree huntouched ⊢
  split
  · exact h
  · rename_i wd hwd
    rw [hwd] at htree huntouched
    refine ⟨htree, h.inode_lt, huntouched, h.delivered, h.changes, h.place,
      more ++ [⟨wd, happening, name⟩], ?_, ?_⟩
    · rw [← List.append_assoc, ← hmore]
    · intro e he
      rcases List.mem_append.mp he with he | he
      · exact hwds e he
      · rw [List.mem_singleton.mp he]
        exact ⟨hnamed wd, _, h.untouched.watches _ (World.mem_of_wdOf hwd), rfl⟩

/-- A directory is gone, and its watch with it. -/
theorem vanish (h : Shifts Moved w w') (inode : Nat) : Shifts Moved w (w'.vanish inode) := by
  have h' := (h.notify inode (KernelEvent.named_of_not_arrival .deleteSelf (by simp) none)).notify
    inode (KernelEvent.named_of_not_arrival .ignored (by simp) none)
  refine ⟨h'.tree.unwatch _, fun k hk => h'.inode_lt k (List.mem_filter.mp hk).1,
    h.untouched.vanish inode, h'.delivered, h'.changes,
    fun k hk => h'.place k (List.mem_filter.mp hk).1, h'.queue⟩

/-- Making a directory moves nothing. -/
theorem mkdir (h : Tree w) (hlt : ∀ k ∈ w.watches, k.inode < w.nextInode) (parent : Path)
    (name : Bytes) : Shifts (fun _ _ => False) w (w.mkdir parent name) := by
  unfold World.mkdir
  split
  · rename_i parentInode hparent hnone
    split
    · rename_i hvalid
      refine Shifts.notify (of_dirs (h.snoc (World.mem_of_inodeOf hparent) hvalid
        (World.not_mem_of_inodeOf hnone)) (fun k hk => Nat.lt_succ_of_lt (hlt k hk)) ?_) _
        (KernelEvent.named_some hvalid .created)
      intro k hk d' hd' hinode
      rcases List.mem_append.mp hd' with hd' | hd'
      · exact Or.inl hd'
      · -- the new inode is not watched
        rw [List.mem_singleton.mp hd'] at hinode
        exact absurd hinode.symm (Nat.ne_of_lt (hlt k hk))
    · exact refl h hlt
  · exact refl h hlt

/-- Removing a directory moves nothing. -/
theorem rmdir (h : Tree w) (hlt : ∀ k ∈ w.watches, k.inode < w.nextInode) (parent : Path)
    (name : Bytes) : Shifts (fun _ _ => False) w (w.rmdir parent name) := by
  unfold World.rmdir
  split
  · rename_i parentInode inode hparent hdir
    split
    · rename_i hempty
      have htree := h.remove (World.mem_of_inodeOf hdir) hempty
      exact ((of_dirs htree hlt fun k _ d' hd' _ => Or.inl (List.mem_filter.mp hd').1).notify
        _ (KernelEvent.named_of_not_arrival .deleted (by simp) (some name))).vanish _
    · exact refl h hlt
  · exact refl h hlt

end Shifts

/-! ## Renames -/

/-- A path below {lit}`old` and the path it has below {lit}`new`. -/
def MovedBelow (old new : Path) (path path' : Path) : Prop :=
  ∃ t, path = old ++ t ∧ path' = new ++ t

section Renames

variable {w : World}

theorem World.queue_prefix_notify (inode : Nat) (happening : Happening) (name : Option Bytes) :
    w.queue <+: (w.notify inode happening name).queue := by
  unfold World.notify
  split
  · exact List.prefix_rfl
  · exact List.prefix_append _ _

theorem World.queue_prefix_vanish (inode : Nat) : w.queue <+: (w.vanish inode).queue :=
  (World.queue_prefix_notify inode .deleteSelf none).trans
    (World.queue_prefix_notify inode .ignored none)

/-- The events of a rename, of which the directory it takes something from gets the first. -/
theorem World.movedFrom_first (h : Tree w) {inode wd : Nat} (hk : ⟨wd, inode⟩ ∈ w.watches)
    (happening : Happening) (name : Option Bytes) {w' : World}
    (hfront : (w.notify inode happening name).queue <+: w'.queue) :
    ∃ more, w'.queue = w.queue ++ ⟨wd, happening, name⟩ :: more := by
  obtain ⟨more, hmore⟩ := hfront
  unfold World.notify at hmore
  rw [h.wdOf_of_mem hk] at hmore
  exact ⟨more, by rw [← hmore]; simp⟩

/-- Moving a tree moves what is below the old name. -/
theorem Shifts.move {dirs : List Dir} (hsub : ∀ d ∈ dirs, d ∈ w.dirs)
    (h : Tree { w with dirs := dirs }) (hlt : ∀ k ∈ w.watches, k.inode < w.nextInode)
    {old newParent : Path} {newName : Bytes} {newParentInode : Nat}
    (hparent : ⟨newParent, newParentInode⟩ ∈ dirs) (hname : validName newName = true)
    (houtside : ¬ old <+: newParent) (hfree : ∀ d ∈ dirs, d.path ≠ newParent ++ [newName]) :
    Shifts (MovedBelow old (newParent ++ [newName])) w
      { w with dirs := World.moveDirs old (newParent ++ [newName]) dirs } := by
  refine Shifts.of_dirs (h.moveDirs hparent hname houtside hfree) hlt ?_
  intro k _ d' hd' _
  rcases World.mem_moveDirs hd' with ⟨hd, -⟩ | ⟨t, hd, hpath⟩
  · exact Or.inl (hsub d' hd)
  · exact Or.inr ⟨old ++ t, hsub _ hd, t, rfl, hpath⟩

/-- A rename is refused or moves what is below the old name; the directory that had the name is
told about it first. -/
theorem rename_shifts (h : Tree w) (hlt : ∀ k ∈ w.watches, k.inode < w.nextInode)
    (oldParent : Path) (oldName : Bytes) (newParent : Path) (newName : Bytes) (replace : Bool) :
    let w' := w.rename oldParent oldName newParent newName replace
    w' = w ∨ Shifts (MovedBelow (oldParent ++ [oldName]) (newParent ++ [newName])) w w' ∧
      ∀ wd inode, ⟨oldParent, inode⟩ ∈ w.dirs → ⟨wd, inode⟩ ∈ w.watches →
        ∃ more, w'.queue = w.queue ++ ⟨wd, .movedFrom, some oldName⟩ :: more := by
  unfold World.rename
  dsimp only
  split
  · rename_i oldParentInode inode newParentInode hop hold hnp
    split
    · rename_i hcond
      obtain ⟨hname, hpre, hne⟩ := hcond
      have houtside : ¬ (oldParent ++ [oldName]) <+: newParent := by
        intro hpre'
        simp [List.isPrefixOf_iff_prefix.mpr hpre'] at hpre
      have hopd := World.mem_of_inodeOf hop
      have hold := World.mem_of_inodeOf hold
      have hnpd := World.mem_of_inodeOf hnp
      have hfrom := KernelEvent.named_of_not_arrival .movedFrom (by simp)
      have hself := KernelEvent.named_of_not_arrival .moveSelf (by simp)
      -- the inode that is told is that of the directory at the old parent
      have hsame : ∀ i, ⟨oldParent, i⟩ ∈ w.dirs → i = oldParentInode := by
        intro i hi
        have heq := h.path_inj _ hi _ hopd rfl
        exact (Dir.mk.injEq .. ▸ heq).2
      split
      · rename_i hnone
        have hmove := Shifts.move (fun d hd => hd) h hlt hnpd hname houtside
          (World.not_mem_of_inodeOf hnone)
        refine Or.inr ⟨((hmove.notify _ (hfrom (some oldName))).notify _
          (KernelEvent.named_some hname .movedTo)).notify _ (hself none), ?_⟩
        intro wd i hi hk
        rw [hsame i hi] at hk
        exact World.movedFrom_first hmove.tree hk _ _
          ((World.queue_prefix_notify _ _ _).trans (World.queue_prefix_notify _ _ _))
      · rename_i target htarget
        split
        · rename_i hreplace
          have htd := World.mem_of_inodeOf htarget
          have hempty : w.isEmpty (newParent ++ [newName]) = true :=
            (Bool.and_eq_true_iff.mp hreplace).2
          have htree := h.remove htd hempty
          have hparent : ⟨newParent, newParentInode⟩ ∈
              w.dirs.filter fun d => d.inode ≠ target := by
            refine List.mem_filter.mpr ⟨hnpd, decide_eq_true fun hinode => ?_⟩
            have heq := h.inode_inj _ hnpd _ htd hinode
            have hlen := congrArg List.length (Dir.mk.injEq .. ▸ heq).1
            simp at hlen
          have hfree : ∀ d ∈ w.dirs.filter fun d => d.inode ≠ target,
              d.path ≠ newParent ++ [newName] := by
            intro d hd hpath
            obtain ⟨hd, hinode⟩ := List.mem_filter.mp hd
            exact of_decide_eq_true hinode (by rw [h.path_inj d hd _ htd hpath])
          have hmove := Shifts.move (fun d hd => (List.mem_filter.mp hd).1) htree hlt hparent
            hname houtside hfree
          refine Or.inr ⟨(((hmove.notify _ (hfrom (some oldName))).notify _
            (KernelEvent.named_some hname .movedTo)).notify _ (hself none)).vanish _, ?_⟩
          intro wd i hi hk
          rw [hsame i hi] at hk
          exact World.movedFrom_first hmove.tree hk _ _
            (((World.queue_prefix_notify _ _ _).trans (World.queue_prefix_notify _ _ _)).trans
              (World.queue_prefix_vanish _))
        · exact Or.inl rfl
    · exact Or.inl rfl
  · exact Or.inl rfl

end Renames

end FsNotifier
end IdeMultiarch
