import IdeMultiarch.FsNotifier.AddWatch

/-!
# fsnotifier - the invariant of the watch functions

What the functions of {lit}`inotify.c` keep true of the table, the heap and the kernel, for
every way in which the world may answer the calls, and what a walk over a directory tree
changes: it adds nodes below the path it was given, and where it fails it removes whole
subtrees.

Main results:

- Theorem {lit}`wp_addWatch_inv`: adding one watch keeps the invariant.
- Theorem {lit}`wp_rmWatch`: {lit}`rm_watch` keeps it and leaves nothing under the key.
- Theorem {lit}`wp_walkTree`: so does a walk, whether it succeeds or fails midway.
- Theorem {lit}`wp_processDirEvent`: so does the handling of a directory event.
-/

namespace IdeMultiarch
namespace FsNotifier

open Library

variable {σ δ : Type}

/-! ## What is known of the kernel -/

/-- A call that neither adds nor removes a watch. -/
def SysCall.Looks : SysCall δ → Prop
  | .inotifyAddWatch _ => False
  | .inotifyRmWatch _ => False
  | _ => True

/-- A view of the kernel behind a world.  It watches some descriptors; it holds a
descriptor for a path from the answer that hands the descriptor out until the notifier
gives it back.  The last three fields note that an answer of {lit}`inotify_add_watch` was out
of the ordinary: its descriptor shares its slot with another one that is held
({lit}`clash`), the descriptor is held for another path ({lit}`moved`), or the answer is an
error the source takes for fatal ({lit}`refused`). -/
structure KernelView (os : Os σ δ) (capacity : Nat) where
  watched : σ → Nat → Prop
  held : σ → Nat → Bytes → Prop
  clash : σ → Prop
  moved : σ → Prop
  refused : σ → Prop
  held_add : ∀ o path wd, (os (.inotifyAddWatch path) o).1 = .ok wd →
    held (os (.inotifyAddWatch path) o).2 wd path
  held_keep : ∀ c o wd path, c ≠ .inotifyRmWatch wd → held o wd path → held (os c o).2 wd path
  clash_add : ∀ o path wd w p, (os (.inotifyAddWatch path) o).1 = .ok wd → held o w p →
    w % capacity = wd % capacity → w ≠ wd → clash (os (.inotifyAddWatch path) o).2
  moved_add : ∀ o path wd p, (os (.inotifyAddWatch path) o).1 = .ok wd → held o wd p →
    p ≠ path → moved (os (.inotifyAddWatch path) o).2
  refused_add : ∀ o path e, (os (.inotifyAddWatch path) o).1 = .error e →
    e ≠ .EACCES → e ≠ .ENOENT → e ≠ .ENOSPC → refused (os (.inotifyAddWatch path) o).2
  clash_mono : ∀ c o, clash o → clash (os c o).2
  moved_mono : ∀ c o, moved o → moved (os c o).2
  refused_mono : ∀ c o, refused o → refused (os c o).2
  watched_add : ∀ o path w, watched (os (.inotifyAddWatch path) o).2 w →
    watched o w ∨ (os (.inotifyAddWatch path) o).1 = .ok w
  watched_rm : ∀ o wd w, watched (os (.inotifyRmWatch wd) o).2 w → w ≠ wd ∧ watched o w
  watched_look : ∀ c o w, c.Looks → watched (os c o).2 w → watched o w

namespace KernelView

variable {os : Os σ δ} {capacity : Nat} (K : KernelView os capacity)

/-- The kernel has given an answer on which {lit}`add_watch` gives up. -/
def Trouble (o : σ) : Prop :=
  K.clash o ∨ K.moved o ∨ K.refused o

variable {K}

/-- Trouble does not go away. -/
theorem Trouble.call {c : SysCall δ} {o : σ} (h : K.Trouble o) : K.Trouble (os c o).2 := by
  rcases h with h | h | h
  · exact Or.inl (K.clash_mono c o h)
  · exact Or.inr (Or.inl (K.moved_mono c o h))
  · exact Or.inr (Or.inr (K.refused_mono c o h))

theorem Trouble.rmCalls {wds : List Nat} {o : σ} (h : K.Trouble o) :
    K.Trouble (rmCalls os wds o) := by
  induction wds generalizing o with
  | nil => exact h
  | cons wd wds ih => exact ih h.call

theorem clash_rmCalls {wds : List Nat} {o : σ} (h : K.clash o) : K.clash (rmCalls os wds o) := by
  induction wds generalizing o with
  | nil => exact h
  | cons wd wds ih => exact ih (K.clash_mono _ o h)

/-- Giving other descriptors back does not touch a descriptor. -/
theorem held_rmCalls {wds : List Nat} {o : σ} {w : Nat} {p : Bytes} (hw : w ∉ wds)
    (h : K.held o w p) : K.held (rmCalls os wds o) w p := by
  induction wds generalizing o with
  | nil => exact h
  | cons wd wds ih =>
      rw [List.mem_cons, not_or] at hw
      obtain ⟨hne, hw⟩ := hw
      refine ih hw (K.held_keep _ o w p ?_ h)
      intro heq
      exact hne (by cases heq; rfl)

/-- What is still watched after a list of watches was removed. -/
theorem watched_rmCalls {wds : List Nat} {o : σ} {w : Nat}
    (h : K.watched (rmCalls os wds o) w) : w ∉ wds ∧ K.watched o w := by
  induction wds generalizing o with
  | nil => exact ⟨by simp, h⟩
  | cons wd wds ih =>
      obtain ⟨hnot, hw⟩ := ih h
      obtain ⟨hne, hw⟩ := K.watched_rm o wd w hw
      exact ⟨by simp [hne, hnot], hw⟩

end KernelView

/-- The view that knows nothing of the kernel: what holds under it holds in any world. -/
def looseView (os : Os σ δ) (capacity : Nat) : KernelView os capacity where
  watched _ _ := False
  held _ _ _ := True
  clash _ := True
  moved _ := True
  refused _ := True
  held_add _ _ _ _ := trivial
  held_keep _ _ _ _ _ _ := trivial
  clash_add _ _ _ _ _ _ _ _ _ := trivial
  moved_add _ _ _ _ _ _ _ := trivial
  refused_add _ _ _ _ _ _ _ := trivial
  clash_mono _ _ _ := trivial
  moved_mono _ _ _ := trivial
  refused_mono _ _ _ := trivial
  watched_add _ _ _ h := h.elim
  watched_rm _ _ _ h := h.elim
  watched_look _ _ _ _ h := h

/-! ## The invariant -/

/-- What holds of the table, the heap and the kernel between any two steps: the forest is
well formed, kids lie below their parents' paths, the kernel holds the descriptor of every
node for the node's path, and, as long as no descriptors clash, every watch of the kernel
has a node. -/
structure Inv {os : Os σ δ} {capacity : Nat} (K : KernelView os capacity) (s : State σ) :
    Prop where
  capacity : s.watches.capacity = capacity
  wellLinked : WellLinked s.watches s.heap
  below : ∀ {a n b m}, s.heap.get a = some n → s.heap.get b = some m → m.parent = some a →
    isParentPath n.path m.path = true
  held : ∀ {a n}, s.heap.get a = some n → K.held s.os n.wd n.path
  covered : ¬ K.clash s.os → ∀ w, K.watched s.os w → ∃ a n, s.heap.get a = some n ∧ n.wd = w

namespace Inv

variable {os : Os σ δ} {capacity : Nat} {K : KernelView os capacity} {s : State σ}

/-- The invariant does not look at the roots, the limit flag and the output. -/
theorem frame (h : Inv K s) (roots : List WatchRoot) (limit : Bool) (out : Bytes) :
    Inv K { s with roots := roots, limitReached := limit, stdout := out } :=
  ⟨h.capacity, h.wellLinked, h.below, h.held, h.covered⟩

/-- A call that gives nothing back and watches nothing new keeps the invariant. -/
theorem call (h : Inv K s) (c : SysCall δ) (hrm : ∀ wd, c ≠ .inotifyRmWatch wd)
    (hc : ∀ w, K.watched (os c s.os).2 w → K.watched s.os w) :
    Inv K { s with os := (os c s.os).2 } :=
  ⟨h.capacity, h.wellLinked, h.below, fun hn => K.held_keep c s.os _ _ (hrm _) (h.held hn),
    fun hd w hw => h.covered (fun hcl => hd (K.clash_mono c s.os hcl)) w (hc w hw)⟩

theorem look (h : Inv K s) (c : SysCall δ) (hc : c.Looks) :
    Inv K { s with os := (os c s.os).2 } := by
  refine h.call c ?_ fun w hw => K.watched_look c s.os w hc hw
  rintro wd rfl
  exact hc

/-- A node added for the kernel's answer keeps the invariant. -/
theorem addNode {path : Bytes} {parent : Option Nat} {wd : Nat} (h : Inv K s)
    (hans : (os (.inotifyAddWatch path) s.os).1 = .ok wd) (hfree : s.watches.get wd = none)
    (hp : ∀ p, parent = some p → ∃ n, s.heap.get p = some n ∧ isParentPath n.path path = true) :
    Inv K (addNode { s with os := (os (.inotifyAddWatch path) s.os).2 } wd parent path) := by
  have hlive : ParentLive s.heap parent := by
    intro p hpar
    obtain ⟨n, hn, -⟩ := hp p hpar
    exact ⟨n, hn⟩
  refine ⟨h.capacity, ?_, ?_, ?_, ?_⟩
  · exact WellLinked.addNode (s := { s with os := (os (.inotifyAddWatch path) s.os).2 })
      h.wellLinked hlive hfree
  · intro a n b m hn hm hpar
    have hold : ∀ {a n}, (FsNotifier.addNode { s with
        os := (os (.inotifyAddWatch path) s.os).2 } wd parent path).heap.get a = some n →
        a ≠ s.heap.next → ∃ n₀, s.heap.get a = some n₀ ∧ n₀.parent = n.parent ∧
          n₀.path = n.path := by
      intro a n hn ha
      rcases addNode_node (s := { s with os := (os (.inotifyAddWatch path) s.os).2 }) hlive hn
        with ⟨rfl, -⟩ | ⟨-, n₀, hn₀, -, hpar₀, hpath₀, -⟩
      · exact absurd rfl ha
      · exact ⟨n₀, hn₀, hpar₀.symm, hpath₀.symm⟩
    rcases addNode_node (s := { s with os := (os (.inotifyAddWatch path) s.os).2 }) hlive hm
      with ⟨hb, rfl⟩ | ⟨hb, m₀, hm₀, -, hpar₀, hpath₀, -⟩
    · obtain ⟨n', hn', hbelow⟩ := hp a hpar
      have ha : a ≠ s.heap.next := Nat.ne_of_lt (Heap.lt_next hn')
      obtain ⟨n₀, hn₀, -, hpath⟩ := hold hn ha
      rw [hn'] at hn₀
      cases hn₀
      rw [← hpath]
      exact hbelow
    · rw [hpar] at hpar₀
      have ha : a ≠ s.heap.next := by
        obtain ⟨n₀, hn₀, -⟩ := h.wellLinked.linked.parent_live hm₀ hpar₀.symm
        exact Nat.ne_of_lt (Heap.lt_next hn₀)
      obtain ⟨n₀, hn₀, -, hpath⟩ := hold hn ha
      rw [← hpath, hpath₀]
      exact h.below hn₀ hm₀ hpar₀.symm
  · intro a n hn
    rcases addNode_node (s := { s with os := (os (.inotifyAddWatch path) s.os).2 }) hlive hn
      with ⟨-, rfl⟩ | ⟨-, n₀, hn₀, hwd, -, hpath, -⟩
    · exact K.held_add s.os path wd hans
    · rw [hwd, hpath]
      exact K.held_keep _ _ _ _ (by simp) (h.held hn₀)
  · intro hd w hw
    rcases K.watched_add s.os path w hw with hold | hnew
    · obtain ⟨a, n, hn, hwd⟩ := h.covered (fun hcl => hd (K.clash_mono _ _ hcl)) w hold
      obtain ⟨n', hn', hwd', -⟩ := addNode_survives wd path
        (s := { s with os := (os (.inotifyAddWatch path) s.os).2 }) hlive hn
      exact ⟨a, n', hn', hwd'.trans hwd⟩
    · rw [hans] at hnew
      cases hnew
      exact ⟨s.heap.next, _, addNode_new (s := { s with
        os := (os (.inotifyAddWatch path) s.os).2 }) hlive, rfl⟩

/-- An answer for a descriptor whose slot is taken keeps the invariant. -/
theorem answer {path : Bytes} {wd a : Nat} {n : WatchNode} (h : Inv K s)
    (hans : (os (.inotifyAddWatch path) s.os).1 = .ok wd) (hn : s.heap.get a = some n)
    (hslot : n.wd % s.watches.capacity = wd % s.watches.capacity) :
    Inv K { s with os := (os (.inotifyAddWatch path) s.os).2 } := by
  refine ⟨h.capacity, h.wellLinked, h.below,
    fun hn => K.held_keep _ _ _ _ (by simp) (h.held hn), ?_⟩
  intro hd w hw
  rcases K.watched_add s.os path w hw with hold | hnew
  · exact h.covered (fun hcl => hd (K.clash_mono _ _ hcl)) w hold
  · rw [hans] at hnew
    cases hnew
    -- the slot is taken by this very descriptor, or descriptors clash
    rw [h.capacity] at hslot
    have hwd : n.wd = wd := by
      by_contra hne
      exact hd (K.clash_add s.os path wd n.wd n.path hans (h.held hn) hslot hne)
    exact ⟨a, n, hn, hwd⟩

/-- An error of {lit}`inotify_add_watch` keeps the invariant. -/
theorem error {path : Bytes} {e : Errno} (h : Inv K s)
    (hans : (os (.inotifyAddWatch path) s.os).1 = .error e) :
    Inv K { s with os := (os (.inotifyAddWatch path) s.os).2 } := by
  refine h.call _ (by simp) ?_
  intro w hw
  rcases K.watched_add s.os path w hw with hold | hnew
  · exact hold
  · rw [hans] at hnew
    contradiction

/-- Pruning a whole subtree keeps the invariant. -/
theorem prune {a : Nat} {n : WatchNode} {L : List Nat} (h : Inv K s)
    (ht : Subtree s.heap a n L) : Inv K (prune os s n.parent a (a :: L)) := by
  refine ⟨h.capacity, h.wellLinked.prune ht, ?_, ?_, ?_⟩
  · intro b m c k hm hk hpar
    obtain ⟨-, m₀, hm₀, -, -, hpath, -⟩ := prune_node hm
    obtain ⟨-, k₀, hk₀, -, hpar₀, hpath₀, -⟩ := prune_node hk
    rw [hpath, hpath₀]
    exact h.below hm₀ hk₀ (hpar₀.symm.trans hpar)
  · intro b m hm
    obtain ⟨hb, m₀, hm₀, hwd, -, hpath, -⟩ := prune_node hm
    rw [hwd, hpath]
    exact KernelView.held_rmCalls (h.wellLinked.slotted.wd_not_mem hm₀ hb) (h.held hm₀)
  · intro hd w hw
    obtain ⟨hnot, hold⟩ := KernelView.watched_rmCalls hw
    obtain ⟨b, m₀, hm₀, rfl⟩ := h.covered (fun hcl => hd (KernelView.clash_rmCalls hcl)) w hold
    have hb : b ∉ a :: L := by
      intro hb
      apply hnot
      exact List.mem_filterMap.mpr ⟨b, hb, by rw [hm₀]; rfl⟩
    obtain ⟨m, hm, hwd, -⟩ := prune_survives os a n.parent hm₀ hb
    exact ⟨b, m, hm, hwd⟩

end Inv

/-! ## What a walk changes -/

/-- The only fault the following results tolerate. -/
def fuelOnly (e : Fault) : Prop :=
  e = .outOfFuel

/-- A node apart from its kids. -/
structure SameNode (n n' : WatchNode) : Prop where
  wd : n'.wd = n.wd
  parent : n'.parent = n.parent
  path : n'.path = n.path

theorem SameNode.refl (n : WatchNode) : SameNode n n :=
  ⟨rfl, rfl, rfl⟩

theorem SameNode.trans {n n' n'' : WatchNode} (h : SameNode n n') (h' : SameNode n' n'') :
    SameNode n n'' :=
  ⟨h'.wd.trans h.wd, h'.parent.trans h.parent, h'.path.trans h.path⟩

/-- The paths a walk from {lit}`path` may reach. -/
def InReach (recursive : Bool) (path p : Bytes) : Prop :=
  p = path ∨ (recursive = true ∧ isParentPath path p = true)

/-- From {lit}`s` to {lit}`s'` nodes may have come, with paths that {lit}`P` allows, and gone, but
no old node was changed. -/
structure Walked (P : Bytes → Prop) (s s' : State σ) : Prop where
  next_le : s.heap.next ≤ s'.heap.next
  capacity : s'.watches.capacity = s.watches.capacity
  roots : s'.roots = s.roots
  old : ∀ {b n'}, s'.heap.get b = some n' → b < s.heap.next →
    ∃ n, s.heap.get b = some n ∧ SameNode n n'
  born : ∀ {b n'}, s'.heap.get b = some n' → s.heap.next ≤ b → P n'.path

/-- Every node of {lit}`s` is still there in {lit}`s'`. -/
def Grows (s s' : State σ) : Prop :=
  ∀ ⦃b n⦄, s.heap.get b = some n → ∃ n', s'.heap.get b = some n' ∧ SameNode n n'

namespace Walked

variable {P Q : Bytes → Prop} {s s' s'' : State σ}

theorem of_same (hheap : s'.heap = s.heap) (hwatches : s'.watches = s.watches)
    (hroots : s'.roots = s.roots) : Walked P s s' := by
  refine ⟨Nat.le_of_eq (by rw [hheap]), by rw [hwatches], hroots, ?_, ?_⟩
  · intro b n' hn' _
    rw [hheap] at hn'
    exact ⟨n', hn', SameNode.refl n'⟩
  · intro b n' hn' hb
    rw [hheap, s.heap.fresh b hb] at hn'
    contradiction

theorem of_call {o : σ} (h : Walked P { s with os := o } s') : Walked P s s' :=
  ⟨h.next_le, h.capacity, h.roots, h.old, h.born⟩

theorem trans (h : Walked P s s') (h' : Walked P s' s'') : Walked P s s'' := by
  refine ⟨Nat.le_trans h.next_le h'.next_le, h'.capacity.trans h.capacity,
    h'.roots.trans h.roots, ?_, ?_⟩
  · intro b n'' hn'' hb
    obtain ⟨n', hn', hsame'⟩ := h'.old hn'' (Nat.lt_of_lt_of_le hb h.next_le)
    obtain ⟨n, hn, hsame⟩ := h.old hn' hb
    exact ⟨n, hn, hsame.trans hsame'⟩
  · intro b n'' hn'' hb
    by_cases hb' : b < s'.heap.next
    · obtain ⟨n', hn', hsame'⟩ := h'.old hn'' hb'
      rw [hsame'.path]
      exact h.born hn' hb
    · exact h'.born hn'' (Nat.le_of_not_lt hb')

theorem mono (h : Walked P s s') (hPQ : ∀ p, P p → Q p) : Walked Q s s' :=
  ⟨h.next_le, h.capacity, h.roots, h.old, fun hn hb => hPQ _ (h.born hn hb)⟩

end Walked

theorem Grows.of_same {s s' : State σ} (hheap : s'.heap = s.heap) : Grows s s' := by
  intro b n hn
  exact ⟨n, by rw [hheap, hn], SameNode.refl n⟩

theorem Grows.trans {s s' s'' : State σ} (h : Grows s s') (h' : Grows s' s'') :
    Grows s s'' := by
  intro b n hn
  obtain ⟨n', hn', hsame⟩ := h hn
  obtain ⟨n'', hn'', hsame'⟩ := h' hn'
  exact ⟨n'', hn'', hsame.trans hsame'⟩

/-- No node that is new in {lit}`s'` is the top of a tree. -/
def NoNewTop (s s' : State σ) : Prop :=
  ∀ ⦃b n'⦄, s'.heap.get b = some n' → s.heap.next ≤ b → n'.parent ≠ none

theorem NoNewTop.trans {P : Bytes → Prop} {s s' s'' : State σ} (h : NoNewTop s s')
    (h' : NoNewTop s' s'') (hw : Walked P s' s'') : NoNewTop s s'' := by
  intro b n'' hn'' hb
  by_cases hb' : b < s'.heap.next
  · obtain ⟨n', hn', hsame⟩ := hw.old hn'' hb'
    rw [hsame.parent]
    exact h hn' hb
  · exact h' hn'' (Nat.le_of_not_lt hb')

theorem NoNewTop.of_same {s s' : State σ} (hheap : s'.heap = s.heap) : NoNewTop s s' := by
  intro b n' hn' hb
  rw [hheap, s.heap.fresh b hb] at hn'
  contradiction

/-! ## Adding one watch -/

/-- What {lit}`walk_tree` and {lit}`add_watch` do from {lit}`s` when they return {lit}`r`. -/
structure WalkResult {os : Os σ δ} {capacity : Nat} (K : KernelView os capacity) (recursive : Bool) (path : Bytes)
    (parent : Option Nat) (s : State σ) (r : Int) (s' : State σ) : Prop where
  inv : Inv K s'
  walked : Walked (InReach recursive path) s s'
  code : 0 ≤ r ∨ r = ERR_IGNORE ∨ r = ERR_CONTINUE ∨ r = ERR_ABORT
  top : ∀ {b n'}, s'.heap.get b = some n' → s.heap.next ≤ b → n'.parent = none →
    parent = none ∧ (n'.wd : Int) = r
  grows : 0 ≤ r ∨ r = ERR_IGNORE → Grows s s'
  found : 0 ≤ r → ∃ a n, s'.heap.get a = some n ∧ (n.wd : Int) = r ∧ n.path = path
  abort : r = ERR_ABORT → K.Trouble s'.os

/-- A parent under which a path may be added: null, or live with the path below it. -/
def ParentAbove (h : Heap WatchNode) (parent : Option Nat) (path : Bytes) : Prop :=
  ∀ p, parent = some p → ∃ n, h.get p = some n ∧ isParentPath n.path path = true

theorem ParentAbove.live {h : Heap WatchNode} {parent : Option Nat} {path : Bytes}
    (hp : ParentAbove h parent path) : ParentLive h parent := by
  intro p hpar
  obtain ⟨n, hn, -⟩ := hp p hpar
  exact ⟨n, hn⟩

theorem wd_ne_abort (wd : Nat) : (wd : Int) ≠ ERR_ABORT := by
  unfold ERR_ABORT
  omega

theorem ERR_IGNORE_ne : ERR_IGNORE ≠ ERR_ABORT := by
  decide

theorem ERR_CONTINUE_ne : ERR_CONTINUE ≠ ERR_ABORT := by
  decide

section Specs

variable {os : Os σ δ} {capacity : Nat} {K : KernelView os capacity}

/-- A result that leaves the forest as it was. -/
theorem WalkResult.of_same {recursive : Bool} {path : Bytes} {parent : Option Nat}
    {s s' : State σ} {r : Int} (hinv : Inv K s') (hheap : s'.heap = s.heap)
    (hwatches : s'.watches = s.watches) (hroots : s'.roots = s.roots)
    (hcode : r = ERR_IGNORE ∨ r = ERR_CONTINUE ∨ r = ERR_ABORT)
    (habort : r = ERR_ABORT → K.Trouble s'.os) :
    WalkResult K recursive path parent s r s' := by
  refine ⟨hinv, .of_same hheap hwatches hroots, Or.inr hcode, ?_, fun _ => Grows.of_same hheap, ?_,
    habort⟩
  · intro b n' hn' hb _
    rw [hheap, s.heap.fresh b hb] at hn'
    contradiction
  · intro hr
    exfalso
    rcases hcode with rfl | rfl | rfl <;> exact absurd hr (by decide)

/-- Adding one watch keeps the invariant. -/
theorem wp_addWatch_inv {tol : Fault → Prop} {path : Bytes} {parent : Option Nat} {s : State σ}
    (h : Inv K s) (hp : ParentAbove s.heap parent path) (recursive : Bool) :
    wp tol (addWatch os path parent) (WalkResult K recursive path parent s) s := by
  apply wp_addWatch os h.wellLinked hp.live rfl
  · intro e hans _
    exact .of_same (h.error hans) rfl rfl rfl (Or.inl rfl) (fun hr => absurd hr (by decide))
  · intro hans limit out
    exact .of_same ((h.error hans).frame s.roots limit out) rfl rfl rfl (Or.inr (Or.inl rfl))
      (fun hr => absurd hr (by decide))
  · intro e hans he₁ he₂ he₃
    exact .of_same (h.error hans) rfl rfl rfl (Or.inr (Or.inr rfl))
      (fun _ => Or.inr (Or.inr (K.refused_add s.os path e hans he₁ he₂ he₃)))
  · intro wd a n hans hn hwd hpath
    refine ⟨h.answer hans hn (by rw [hwd]), .of_same rfl rfl rfl, Or.inl (by omega), ?_,
      fun _ => Grows.of_same rfl, ?_, fun hr => absurd hr (wd_ne_abort wd)⟩
    · intro b n' hn' hb _
      rw [s.heap.fresh b hb] at hn'
      contradiction
    · intro _
      exact ⟨a, n, hn, by rw [hwd], hpath⟩
  · intro wd a n hans hn hslot hwd
    refine .of_same (h.answer hans hn hslot) rfl rfl rfl (Or.inr (Or.inr rfl)) (fun _ => ?_)
    rw [h.capacity] at hslot
    exact Or.inl (K.clash_add s.os path wd n.wd n.path hans (h.held hn) hslot hwd)
  · intro wd a n hans hn hslot hpath r hr
    have hinv := ((h.answer hans hn hslot).look (.realpath n.path) trivial).look
      (.realpath path) trivial
    refine .of_same hinv rfl rfl rfl (hr.elim (fun h => Or.inr (Or.inr h)) fun h => Or.inl h.1) (fun _ => ?_)
    have htrouble : K.Trouble (os (.inotifyAddWatch path) s.os).2 := by
      have hheld := h.held hn
      rw [h.capacity] at hslot
      by_cases hwd : n.wd = wd
      · rw [hwd] at hheld
        exact Or.inr (Or.inl (K.moved_add s.os path wd n.path hans hheld hpath))
      · exact Or.inl (K.clash_add s.os path wd n.wd n.path hans hheld hslot hwd)
    exact htrouble.call.call
  · intro wd hans hfree
    have hlive := hp.live
    refine ⟨h.addNode hans hfree hp, ⟨?_, rfl, rfl, ?_, ?_⟩, Or.inl (by omega), ?_, ?_, ?_,
      fun hr => absurd hr (wd_ne_abort wd)⟩
    · rw [addNode_next]
      exact Nat.le_succ _
    · intro b n' hn' hb
      rcases addNode_node (s := { s with os := (os (.inotifyAddWatch path) s.os).2 }) hlive hn'
        with ⟨rfl, -⟩ | ⟨-, n, hn, hwd, hpar, hpath, -⟩
      · exact absurd hb (Nat.lt_irrefl _)
      · exact ⟨n, hn, hwd, hpar, hpath⟩
    · intro b n' hn' hb
      rcases addNode_node (s := { s with os := (os (.inotifyAddWatch path) s.os).2 }) hlive hn'
        with ⟨-, rfl⟩ | ⟨-, n, hn, -⟩
      · exact Or.inl rfl
      · exact absurd (Heap.lt_next hn) (Nat.not_lt.mpr hb)
    · intro b n' hn' hb hpar
      rcases addNode_node (s := { s with os := (os (.inotifyAddWatch path) s.os).2 }) hlive hn'
        with ⟨-, rfl⟩ | ⟨-, n, hn, -⟩
      · exact ⟨hpar, rfl⟩
      · exact absurd (Heap.lt_next hn) (Nat.not_lt.mpr hb)
    · intro _ b n hn
      obtain ⟨n', hn', hwd, hpar, hpath, -⟩ := addNode_survives wd path
        (s := { s with os := (os (.inotifyAddWatch path) s.os).2 }) hlive hn
      exact ⟨n', hn', hwd, hpar, hpath⟩
    · intro _
      exact ⟨_, _, addNode_new (s := { s with
        os := (os (.inotifyAddWatch path) s.os).2 }) hlive, rfl, rfl⟩

end Specs

/-! ## Removing watches -/

/-- From {lit}`s` to {lit}`s'` nodes have gone and nothing else happened to the forest. -/
structure Shrunk {os : Os σ δ} {capacity : Nat} (K : KernelView os capacity) (s s' : State σ) : Prop where
  inv : Inv K s'
  next : s'.heap.next = s.heap.next
  capacity : s'.watches.capacity = s.watches.capacity
  roots : s'.roots = s.roots
  old : ∀ {b n'}, s'.heap.get b = some n' → ∃ n, s.heap.get b = some n ∧ SameNode n n'
  trouble : K.Trouble s.os → K.Trouble s'.os

namespace Shrunk

variable {os : Os σ δ} {capacity : Nat} {K : KernelView os capacity} {s s' : State σ}

theorem refl (h : Inv K s) : Shrunk K s s :=
  ⟨h, rfl, rfl, rfl, fun hn => ⟨_, hn, SameNode.refl _⟩, id⟩

theorem walked (h : Shrunk K s s') (P : Bytes → Prop) : Walked P s s' := by
  refine ⟨Nat.le_of_eq h.next.symm, h.capacity, h.roots, fun hn _ => h.old hn, ?_⟩
  intro b n' hn' hb
  obtain ⟨n, hn, -⟩ := h.old hn'
  rw [s.heap.fresh b hb] at hn
  contradiction

theorem noNewTop (h : Shrunk K s s') : NoNewTop s s' := by
  intro b n' hn' hb
  obtain ⟨n, hn, -⟩ := h.old hn'
  rw [s.heap.fresh b hb] at hn
  contradiction

/-- Pruning a whole subtree shrinks the forest. -/
theorem prune (h : Inv K s) {a : Nat} {n : WatchNode} {L : List Nat}
    (ht : Subtree s.heap a n L) : Shrunk K s (prune os s n.parent a (a :: L)) := by
  refine ⟨h.prune ht, ?_, rfl, rfl, ?_, KernelView.Trouble.rmCalls⟩
  · unfold FsNotifier.prune forgetIn
    cases n.parent <;> rfl
  · intro b m hm
    obtain ⟨-, m₀, hm₀, hwd, hpar, hpath, -⟩ := prune_node hm
    exact ⟨m₀, hm₀, hwd, hpar, hpath⟩

end Shrunk

section Specs

variable {os : Os σ δ} {capacity : Nat} {K : KernelView os capacity}

/-- {lit}`rm_watch` shrinks the forest and leaves nothing under its key. -/
theorem wp_rmWatch {tol : Fault → Prop} {s : State σ} (h : Inv K s) (key : Int) :
    wp tol (rmWatch os key true)
      (fun _ s' => Shrunk K s s' ∧ s'.watches.get key = none) s := by
  cases hget : s.watches.get key with
  | none => exact wp_of_run (rmWatch_run_none os true hget) ⟨.refl h, hget⟩
  | some a =>
      obtain ⟨n, hn⟩ := h.wellLinked.slotted.live_of_get hget
      obtain ⟨L, hL⟩ := h.wellLinked.exists_subtree hn
      have hrun := rmWatch_run_some os h.wellLinked true hget hL
      rw [if_pos rfl] at hrun
      refine wp_of_run hrun ⟨Shrunk.prune h hL, ?_⟩
      have hwrap := h.wellLinked.slotted.wrap_of_get hget hn
      rw [Table.wrap_natCast] at hwrap
      have hslot := h.wellLinked.slotted.of_node hn
      unfold Table.get
      dsimp only
      split
      · rfl
      · have hk : Table.wrap key (prune os s n.parent a (a :: L)).watches =
            Table.wrap key s.watches := rfl
        rw [prune_watches_data, hk, hwrap, Int.toNat_natCast, hslot]
        simp [Option.filter]

/-- After {lit}`rm_watch` of a descriptor no node has that descriptor. -/
theorem Shrunk.gone {s s' : State σ} (h : Shrunk K s s') {wd : Nat}
    (hget : s'.watches.get wd = none) {b : Nat} {n : WatchNode} (hn : s'.heap.get b = some n) :
    n.wd ≠ wd := by
  rintro rfl
  rw [h.inv.wellLinked.slotted.get_of_node hn] at hget
  contradiction

/-- A node that was there before a walk is gone after its descriptor was removed: now, or
during the walk. -/
theorem Shrunk.removed {P : Bytes → Prop} {s s₁ s₂ : State σ} (h : Shrunk K s₁ s₂)
    (hwalked : Walked P s s₁) {a : Nat} {n : WatchNode} (hn : s.heap.get a = some n)
    (hgone : s₂.watches.get n.wd = none) : s₂.heap.get a = none := by
  cases hcase : s₂.heap.get a with
  | none => rfl
  | some n₂ =>
      obtain ⟨n₁, hn₁, hsame₂⟩ := h.old hcase
      obtain ⟨n₀, hn₀, hsame₁⟩ := hwalked.old hn₁ (Heap.lt_next hn)
      rw [hn] at hn₀
      cases hn₀
      exact absurd (hsame₂.wd.trans hsame₁.wd) (h.gone hgone hcase)

/-- The loop over the kids of a directory event shrinks the forest. -/
theorem wp_dropKid {s : State σ} (h : Inv K s) {a : Nat} {n : WatchNode}
    (hn : s.heap.get a = some n) (path : Bytes) (is : List Nat) :
    wp fuelOnly (dropKid os a path is) (fun _ s' => Shrunk K s s') s := by
  obtain ⟨s', hrun, ⟨-, rfl⟩ | ⟨k, m, L, -, hL, -, rfl⟩⟩ := dropKid_run os h.wellLinked hn path is
  · exact wp_of_run hrun (.refl h)
  · exact wp_of_run hrun (Shrunk.prune h hL)

end Specs

/-! ## Walking a tree -/

/-- What the loop over a directory does from {lit}`s` when it returns {lit}`r`; the directory's
own watch is {lit}`id` and its node is at {lit}`a`. -/
structure EntriesResult {os : Os σ δ} {capacity : Nat} (K : KernelView os capacity) (path : Bytes) (a : Nat) (id : Int)
    (s : State σ) (r : Int) (s' : State σ) : Prop where
  inv : Inv K s'
  walked : Walked (InReach true path) s s'
  top : NoNewTop s s'
  done : (r = id ∧ Grows s s') ∨
    ((r = ERR_CONTINUE ∨ r = ERR_ABORT) ∧ s'.heap.get a = none)
  abort : r = ERR_ABORT → K.Trouble s'.os

section Walk

variable {os : Os σ δ} {capacity : Nat} {K : KernelView os capacity}

/-- Paths below a subdirectory are below the directory. -/
theorem InReach.of_entry {path name p : Bytes}
    (h : InReach true (path ++ slash :: name) p) : InReach true path p := by
  have hsub : isParentPath (path ++ slash :: name) p = true := by
    rcases h with rfl | ⟨_, h⟩
    · exact (isParentPath_iff _ _).mpr (Or.inl rfl)
    · exact h
  refine Or.inr ⟨rfl, (isParentPath_iff _ _).mpr (Or.inr ?_)⟩
  rcases (isParentPath_iff _ _).mp hsub with rfl | ⟨rest, rfl⟩
  · exact ⟨name, rfl⟩
  · exact ⟨name ++ slash :: rest, by simp⟩

/-- A first part of the loop that went well, followed by the rest of it. -/
theorem EntriesResult.after {path : Bytes} {a : Nat} {id r : Int} {s s₁ s' : State σ}
    (hwalked : Walked (InReach true path) s s₁) (htop : NoNewTop s s₁) (hgrows : Grows s s₁)
    (h : EntriesResult K path a id s₁ r s') : EntriesResult K path a id s r s' := by
  refine ⟨h.inv, hwalked.trans h.walked, htop.trans h.top h.walked, ?_, h.abort⟩
  rcases h.done with ⟨hr, hg⟩ | hfail
  · exact Or.inl ⟨hr, hgrows.trans hg⟩
  · exact Or.inr hfail

/-- A call in the loop that leaves the forest alone. -/
theorem EntriesResult.of_call {path : Bytes} {a : Nat} {id r : Int} {s s' : State σ} {o : σ}
    (h : EntriesResult K path a id { s with os := o } r s') :
    EntriesResult K path a id s r s' :=
  ⟨h.inv, h.walked.of_call, h.top, h.done, h.abort⟩

/-- The loop of {lit}`walk_tree`, given that the recursive call does what it should. -/
theorem wp_walkEntries {walk : Bytes → Option Nat → Notifier σ Int}
    (hwalk : ∀ path parent s, Inv K s → ParentAbove s.heap parent path →
      wp fuelOnly (walk path parent) (WalkResult K true path parent s) s)
    (path : Bytes) (wd a : Nat) :
    ∀ (fuel : Nat) (dir : δ) (s : State σ) (n : WatchNode), Inv K s →
      s.heap.get a = some n → n.wd = wd → n.path = path →
      wp fuelOnly (walkEntries os walk fuel dir path wd) (EntriesResult K path a wd s) s := by
  intro fuel
  induction fuel with
  | zero => intro dir s n _ _ _ _; exact rfl
  | succ fuel ih =>
      intro dir s n h hn hwd hpath
      unfold walkEntries
      rw [wp_bind, wp_sys]
      have h₁ := h.look (.readdir dir) trivial
      cases hans : (os (.readdir dir) s.os).1 with
      | none =>
          exact ⟨h₁, .of_same rfl rfl rfl, NoNewTop.of_same rfl,
            Or.inl ⟨rfl, Grows.of_same rfl⟩, fun hr => absurd hr (wd_ne_abort wd)⟩
      | some answer =>
          obtain ⟨entry, dir'⟩ := answer
          dsimp only
          have hskip : ∀ o, Inv K { s with os := o } →
              wp fuelOnly (walkEntries os walk fuel dir' path wd)
                (EntriesResult K path a wd s) { s with os := o } := by
            intro o ho
            exact wp_weaken (ih dir' { s with os := o } n ho hn hwd hpath)
              fun r s' hr => hr.of_call
          by_cases hdot : entry.name = cstr "." ∨ entry.name = cstr ".."
          · rw [if_pos hdot]
            exact hskip _ h₁
          · rw [if_neg hdot, wp_bind]
            -- the walk into the subdirectory and what follows it
            have henter : ∀ o, Inv K { s with os := o } →
                wp fuelOnly (do
                    let subdirId ← walk (path ++ slash :: entry.name) (← tableGet wd)
                    if subdirId < 0 ∧ subdirId ≠ ERR_IGNORE then do
                      rmWatch os wd true
                      pure subdirId
                    else
                      walkEntries os walk fuel dir' path wd)
                  (EntriesResult K path a wd s) { s with os := o } := by
              intro o ho
              have hparent : s.watches.get wd = some a := by
                rw [← hwd]
                exact h.wellLinked.slotted.get_of_node hn
              rw [wp_bind, wp_tableGet, hparent, wp_bind]
              have habove : ParentAbove s.heap (some a) (path ++ slash :: entry.name) := by
                intro p hp
                cases hp
                refine ⟨n, hn, (isParentPath_iff _ _).mpr (Or.inr ⟨entry.name, ?_⟩)⟩
                rw [hpath]
              refine wp_weaken (hwalk _ _ { s with os := o } ho habove) fun r s₁ hr => ?_
              have hwalked : Walked (InReach true path) s s₁ :=
                (hr.walked.mono fun p hp => hp.of_entry).of_call
              have htop : NoNewTop s s₁ := by
                intro b n' hn' hb hpar
                have := (hr.top hn' hb hpar).1
                contradiction
              by_cases hfail : r < 0 ∧ r ≠ ERR_IGNORE
              · rw [if_pos hfail, wp_bind]
                refine wp_weaken (wp_rmWatch hr.inv wd) fun _ s₂ hrm => ?_
                obtain ⟨hshrunk, hgone⟩ := hrm
                refine ⟨hshrunk.inv, hwalked.trans (hshrunk.walked _),
                  htop.trans hshrunk.noNewTop (hshrunk.walked (InReach true path)),
                  Or.inr ⟨?_, ?_⟩, fun hab => hshrunk.trouble (hr.abort hab)⟩
                · rcases hr.code with h0 | h1 | h2 | h3
                  · omega
                  · exact absurd h1 hfail.2
                  · exact Or.inl h2
                  · exact Or.inr h3
                · exact hshrunk.removed hwalked hn (by rw [hwd]; exact hgone)
              · rw [if_neg hfail]
                have hok : 0 ≤ r ∨ r = ERR_IGNORE := by
                  by_cases hneg : r < 0
                  · exact Or.inr (not_not.mp fun hne => hfail ⟨hneg, hne⟩)
                  · exact Or.inl (by omega)
                have hgrows : Grows s s₁ := hr.grows hok
                obtain ⟨n₁, hn₁, hsame⟩ := hgrows hn
                exact wp_weaken (ih dir' s₁ n₁ hr.inv hn₁ (hsame.wd.trans hwd)
                  (hsame.path.trans hpath)) fun r' s' hr' => hr'.after hwalked htop hgrows
            unfold entryIsDir
            cases htype : entry.type with
            | other => exact hskip _ h₁
            | DT_DIR => exact henter _ h₁
            | DT_UNKNOWN =>
                dsimp only
                rw [wp_bind, wp_sys]
                have h₂ := h₁.look (.stat (path ++ slash :: entry.name)) trivial
                split
                · exact henter _ h₂
                · exact hskip _ h₂

/-- A walk over a tree keeps the invariant, whether it succeeds or fails midway. -/
theorem wp_walkTree :
    ∀ (fuel : Nat) (path : Bytes) (parent : Option Nat) (recursive : Bool)
      (mounts : List Bytes) (s : State σ), Inv K s → ParentAbove s.heap parent path →
      wp fuelOnly (walkTree os fuel path parent recursive mounts)
        (WalkResult K recursive path parent s) s := by
  intro fuel
  induction fuel with
  | zero => intro path parent recursive mounts s _ _; exact rfl
  | succ fuel ih =>
      intro path parent recursive mounts s h hp
      unfold walkTree
      by_cases hmount : (mounts.any fun mount => mount.isPrefixOf path) = true
      · rw [if_pos hmount]
        exact .of_same h rfl rfl rfl (Or.inl rfl) (fun hr => absurd hr ERR_IGNORE_ne)
      · rw [if_neg hmount]
        cases recursive with
        | false => exact wp_addWatch_inv h hp false
        | true =>
            rw [if_neg (by simp), wp_bind, wp_sys]
            have h₁ := h.look (.opendir path) trivial
            cases hans : (os (.opendir path) s.os).1 with
            | error e =>
                dsimp only
                split
                · exact .of_same h₁ rfl rfl rfl (Or.inl rfl) (fun hr => absurd hr ERR_IGNORE_ne)
                · exact .of_same h₁ rfl rfl rfl (Or.inr (Or.inl rfl))
                    (fun hr => absurd hr ERR_CONTINUE_ne)
            | ok dir =>
                dsimp only
                rw [wp_bind]
                refine wp_weaken (wp_addWatch_inv h₁ hp true) fun id s₁ hid => ?_
                have hwalked₁ : Walked (InReach true path) s s₁ := hid.walked.of_call
                by_cases hneg : id < 0
                · rw [if_pos hneg]
                  exact ⟨hid.inv, hwalked₁, hid.code, hid.top, hid.grows, hid.found, hid.abort⟩
                · rw [if_neg hneg]
                  have hnonneg : 0 ≤ id := by omega
                  obtain ⟨a, n, hn, rfl, hpath⟩ := hid.found hnonneg
                  refine wp_weaken (wp_walkEntries (fun path' parent' s' hinv hp' =>
                    ih path' parent' true mounts s' hinv hp') path n.wd a fuel dir s₁ n
                    hid.inv hn rfl hpath) fun r s' hr => ?_
                  refine ⟨hr.inv, hwalked₁.trans hr.walked, ?_, ?_, ?_, ?_, hr.abort⟩
                  · rcases hr.done with ⟨rfl, -⟩ | ⟨hcode, -⟩
                    · exact Or.inl hnonneg
                    · exact Or.inr (Or.inr hcode)
                  · intro b n' hn' hb hpar
                    by_cases hb₁ : b < s₁.heap.next
                    · -- a new top is the node of this directory
                      obtain ⟨m, hm, hsame⟩ := hr.walked.old hn' hb₁
                      obtain ⟨hnone, hwd⟩ := hid.top hm hb (hsame.parent.symm.trans hpar)
                      refine ⟨hnone, ?_⟩
                      rcases hr.done with ⟨rfl, -⟩ | ⟨-, hdead⟩
                      · rw [hsame.wd]
                        exact hwd
                      · have hslot := hid.inv.wellLinked.slotted.get_of_node hm
                        rw [hwd, hid.inv.wellLinked.slotted.get_of_node hn] at hslot
                        cases hslot
                        rw [hdead] at hn'
                        contradiction
                    · exact absurd hpar (hr.top hn' (Nat.le_of_not_lt hb₁))
                  · intro hok
                    rcases hr.done with ⟨rfl, hgrows⟩ | ⟨rfl | rfl, -⟩
                    · exact Grows.trans (hid.grows (Or.inl hnonneg)) hgrows
                    · exact absurd hok (by decide)
                    · exact absurd hok (by decide)
                  · intro hok
                    rcases hr.done with ⟨rfl, hgrows⟩ | ⟨rfl | rfl, -⟩
                    · obtain ⟨n', hn', hsame⟩ := hgrows hn
                      exact ⟨a, n', hn', by rw [hsame.wd], hsame.path.trans hpath⟩
                    · exact absurd hok (by decide)
                    · exact absurd hok (by decide)

end Walk

/-! ## Directory events -/

/-- What the handling of one event does from {lit}`s` when it returns {lit}`ok`. -/
structure EventResult {os : Os σ δ} {capacity : Nat} (K : KernelView os capacity) (path : Bytes) (s : State σ)
    (ok : Bool) (s' : State σ) : Prop where
  inv : Inv K s'
  walked : Walked (InReach true path) s s'
  top : NoNewTop s s'
  stop : ok = false → K.Trouble s'.os

section Events

variable {os : Os σ δ} {capacity : Nat} {K : KernelView os capacity}

/-- An event that brings a directory and takes one away at once, which the kernel never
reports. -/
def Contradictory (mask : UInt32) : Prop :=
  anyBit mask (IN_CREATE ||| IN_MOVED_TO) = true ∧ anyBit mask (IN_DELETE ||| IN_MOVED_FROM) = true

/-- The directory branches of {lit}`process_inotify_event` keep the invariant, and only
trouble stops the main loop. -/
theorem wp_processDirEvent {fuel : Nat} {a : Nat} {n : WatchNode} {path : Bytes}
    {mask : UInt32} {s : State σ} (h : Inv K s) (hn : s.heap.get a = some n)
    (hbelow : isParentPath n.path path = true) (hmask : ¬ Contradictory mask) :
    wp fuelOnly (processDirEvent os fuel a path mask) (EventResult K path s) s := by
  unfold processDirEvent
  dsimp only
  by_cases hadd : anyBit mask (IN_CREATE ||| IN_MOVED_TO) = true
  · rw [if_pos hadd, wp_bind]
    have hdel : ¬ anyBit mask (IN_DELETE ||| IN_MOVED_FROM) = true := fun hdel =>
      hmask ⟨hadd, hdel⟩
    have habove : ParentAbove s.heap (some a) path := by
      intro p hp
      cases hp
      exact ⟨n, hn, hbelow⟩
    refine wp_weaken (wp_walkTree fuel path (some a) true [] s h habove) fun r s' hr => ?_
    have htop : NoNewTop s s' := by
      intro b n' hn' hb hpar
      have := (hr.top hn' hb hpar).1
      contradiction
    by_cases hfail : r < 0 ∧ r ≠ ERR_IGNORE ∧ r ≠ ERR_CONTINUE
    · rw [if_pos hfail]
      refine ⟨hr.inv, hr.walked, htop, fun _ => hr.abort ?_⟩
      rcases hr.code with h0 | h1 | h2 | h3
      · omega
      · exact absurd h1 hfail.2.1
      · exact absurd h2 hfail.2.2
      · exact h3
    · rw [if_neg hfail, if_neg hdel]
      exact ⟨hr.inv, hr.walked, htop, fun hf => absurd hf (by simp)⟩
  · rw [if_neg hadd, wp_bind, wp_pure]
    have hzero : ¬ ((0 : Int) < 0 ∧ (0 : Int) ≠ ERR_IGNORE ∧ (0 : Int) ≠ ERR_CONTINUE) := by
      omega
    rw [if_neg hzero]
    by_cases hdel : anyBit mask (IN_DELETE ||| IN_MOVED_FROM) = true
    · rw [if_pos hdel, wp_bind, wp_deref hn, wp_bind]
      refine wp_weaken (wp_dropKid h hn path _) fun _ s' hs' => ?_
      exact ⟨hs'.inv, hs'.walked _, hs'.noNewTop, fun hf => absurd hf (by simp)⟩
    · rw [if_neg hdel]
      exact ⟨h, .of_same rfl rfl rfl, NoNewTop.of_same rfl, fun hf => absurd hf (by simp)⟩

/-- An event's path lies below the path of the node it is reported on. -/
theorem isParentPath_eventPath (n : WatchNode) (event : InotifyEvent) :
    isParentPath n.path (eventPath n event) = true := by
  unfold eventPath
  cases event.name with
  | none => exact (isParentPath_iff _ _).mpr (Or.inl rfl)
  | some name => exact (isParentPath_iff _ _).mpr (Or.inr ⟨name, rfl⟩)

end Events

end FsNotifier
end IdeMultiarch
