import IdeMultiarch.FsNotifier.WatchForest

/-!
# fsnotifier - the effect of add_watch

Where the slot of the kernel's descriptor is free, {lit}`add_watch` stores one new node and
makes it the last kid of its parent.  This file describes that step and shows that it
keeps the forest of watch nodes well formed; where the slot is taken the forest does not
change at all.

Main results:

- Theorem {lit}`addWatchFresh_run`: a free slot is filled with exactly one new node.
- Theorem {lit}`WellLinked.addNode`: the new node keeps the forest well formed.
- Theorem {lit}`wp_addWatch`: the outcomes of {lit}`add_watch`, one by one.
-/

namespace IdeMultiarch
namespace FsNotifier

open Library

variable {σ δ : Type}

/-! ## The new node -/

/-- The parent, if there is one, gets a new last kid {lit}`a`. -/
def pushIn (h : Heap WatchNode) (parent : Option Nat) (a : Nat) : Heap WatchNode :=
  match parent with
  | none => h
  | some p => h.modify p fun node => { node with kids := node.kids ++ [some a] }

/-- Store a new node for {lit}`path` under the free slot of {lit}`wd`. -/
def addNode (s : State σ) (wd : Nat) (parent : Option Nat) (path : Bytes) : State σ :=
  { s with
    heap := pushIn (s.heap.alloc ⟨wd, parent, [], path⟩) parent s.heap.next
    watches := { s.watches with
      data := Function.update s.watches.data (wd % s.watches.capacity) (some s.heap.next) } }

section AddNode

variable {s : State σ} {wd : Nat} {parent : Option Nat} {path : Bytes}

/-- A parent to which a node may be added is null or live. -/
def ParentLive (h : Heap WatchNode) (parent : Option Nat) : Prop :=
  ∀ p, parent = some p → ∃ n, h.get p = some n

/-- Where the slot is free, {lit}`add_watch` stores one node. -/
theorem addWatchFresh_run (hp : ParentLive s.heap parent) (hfree : s.watches.get wd = none) :
    (addWatchFresh path parent wd).run s = .ok ((wd : Int), addNode s wd parent path) := by
  cases parent with
  | none =>
      unfold addWatchFresh
      rw [run_bind_of_run (a := s.heap.next)
          (t := { s with heap := s.heap.alloc ⟨wd, none, [], path⟩ }) rfl,
        run_bind_of_run (a := ())
          (t := { s with heap := s.heap.alloc ⟨wd, none, [], path⟩ }) rfl,
        run_bind_of_run (a := some s.heap.next) (t := addNode s wd none path) ?_]
      · rfl
      · unfold tablePut
        rw [run_bind_of_run (a := { s with heap := s.heap.alloc ⟨wd, none, [], path⟩ })
          (t := { s with heap := s.heap.alloc ⟨wd, none, [], path⟩ }) rfl]
        dsimp only
        rw [Table.put_some_free s.heap.next hfree]
        rfl
  | some p =>
      obtain ⟨n, hn⟩ := hp p rfl
      let h₁ := s.heap.alloc ⟨wd, some p, [], path⟩
      have hn₁ : h₁.get p = some n := by
        rw [Heap.alloc_get, if_neg (Nat.ne_of_lt (Heap.lt_next hn)), hn]
      unfold addWatchFresh
      have hpush : (pushKid (some p) s.heap.next).run { s with heap := h₁ } =
          .ok ((), { s with heap := pushIn h₁ (some p) s.heap.next }) :=
        update_run (s := { s with heap := h₁ }) _ hn₁
      rw [run_bind_of_run (a := s.heap.next) (t := { s with heap := h₁ }) rfl,
        run_bind_of_run hpush,
        run_bind_of_run (a := some s.heap.next) (t := addNode s wd (some p) path) ?_]
      · rfl
      · unfold tablePut
        rw [run_bind_of_run (a := { s with heap := pushIn h₁ (some p) s.heap.next })
          (t := { s with heap := pushIn h₁ (some p) s.heap.next }) rfl]
        dsimp only
        rw [Table.put_some_free s.heap.next hfree]
        rfl

@[simp]
theorem addNode_capacity : (addNode s wd parent path).watches.capacity = s.watches.capacity :=
  rfl

@[simp]
theorem addNode_next : (addNode s wd parent path).heap.next = s.heap.next + 1 := by
  unfold addNode pushIn
  cases parent <;> rfl

theorem addNode_data (k : Nat) :
    (addNode s wd parent path).watches.data k =
      if k = wd % s.watches.capacity then some s.heap.next else s.watches.data k :=
  Function.update_apply _ _ _ _

/-- The heap after the step: one new node, and one more kid for its parent. -/
theorem addNode_heap_get (hp : ParentLive s.heap parent) (b : Nat) :
    (addNode s wd parent path).heap.get b =
      if b = s.heap.next then some ⟨wd, parent, [], path⟩
      else if parent = some b then
        (s.heap.get b).map fun node => { node with kids := node.kids ++ [some s.heap.next] }
      else s.heap.get b := by
  unfold addNode pushIn
  cases parent with
  | none => simp
  | some p =>
      obtain ⟨n, hn⟩ := hp p rfl
      have hlt := Heap.lt_next hn
      dsimp only
      rw [Heap.modify_get, Heap.alloc_get, Heap.alloc_get, if_neg (Nat.ne_of_lt hlt)]
      by_cases hbp : b = p
      · subst hbp
        rw [if_pos rfl, if_neg (Nat.ne_of_lt hlt), if_pos rfl]
      · have hpb : ¬ some p = some b := fun h => hbp (Option.some.inj h).symm
        rw [if_neg hbp, if_neg hpb]

/-- The new node itself. -/
theorem addNode_new (hp : ParentLive s.heap parent) :
    (addNode s wd parent path).heap.get s.heap.next = some ⟨wd, parent, [], path⟩ := by
  rw [addNode_heap_get hp, if_pos rfl]

/-- An old node survives, its parent with one more kid. -/
theorem addNode_survives (wd : Nat) (path : Bytes) (hp : ParentLive s.heap parent) {b : Nat} {m₀ : WatchNode}
    (hm₀ : s.heap.get b = some m₀) :
    ∃ m, (addNode s wd parent path).heap.get b = some m ∧ m.wd = m₀.wd ∧
      m.parent = m₀.parent ∧ m.path = m₀.path ∧
      m.kids = if parent = some b then m₀.kids ++ [some s.heap.next] else m₀.kids := by
  rw [addNode_heap_get hp, if_neg (Nat.ne_of_lt (Heap.lt_next hm₀)), hm₀]
  split
  · exact ⟨_, rfl, rfl, rfl, rfl, rfl⟩
  · exact ⟨m₀, rfl, rfl, rfl, rfl, rfl⟩

/-- A node after the step is the new one or an old one. -/
theorem addNode_node (hp : ParentLive s.heap parent) {b : Nat} {m : WatchNode}
    (hm : (addNode s wd parent path).heap.get b = some m) :
    (b = s.heap.next ∧ m = ⟨wd, parent, [], path⟩) ∨
    (b ≠ s.heap.next ∧ ∃ m₀, s.heap.get b = some m₀ ∧ m.wd = m₀.wd ∧ m.parent = m₀.parent ∧
      m.path = m₀.path ∧
      m.kids = if parent = some b then m₀.kids ++ [some s.heap.next] else m₀.kids) := by
  by_cases hb : b = s.heap.next
  · subst hb
    rw [addNode_new hp] at hm
    exact Or.inl ⟨rfl, (Option.some.inj hm).symm⟩
  · right
    rw [addNode_heap_get hp, if_neg hb] at hm
    refine ⟨hb, ?_⟩
    split at hm
    · rename_i hpar
      obtain ⟨m₀, hm₀, rfl⟩ := Option.map_eq_some_iff.mp hm
      exact ⟨m₀, hm₀, rfl, rfl, rfl, by rw [if_pos hpar]⟩
    · rename_i hpar
      exact ⟨m, hm, rfl, rfl, rfl, by rw [if_neg hpar]⟩

/-- The new node keeps kid and parent pointers in agreement. -/
theorem addNode_linked (hl : NodesLinked s.heap) (hp : ParentLive s.heap parent) :
    NodesLinked (addNode s wd parent path).heap := by
  have hnew : s.heap.get s.heap.next = none := s.heap.fresh _ (Nat.le_refl _)
  have hnotkid : ∀ {x m₀}, s.heap.get x = some m₀ → some s.heap.next ∉ m₀.kids := by
    intro x m₀ hm₀ hkid
    obtain ⟨m, hm, -⟩ := hl.kid_live hm₀ hkid
    rw [hnew] at hm
    contradiction
  constructor
  · intro x m b hm hb
    rcases addNode_node hp hm with ⟨rfl, rfl⟩ | ⟨hx, m₀, hm₀, -, -, -, hkids⟩
    · simp at hb
    · have hcase : (some b ∈ m₀.kids) ∨ (parent = some x ∧ b = s.heap.next) := by
        rw [hkids] at hb
        split at hb
        · rename_i hpar
          rcases List.mem_append.mp hb with hb | hb
          · exact Or.inl hb
          · exact Or.inr ⟨hpar, by simpa using hb⟩
        · exact Or.inl hb
      rcases hcase with hold | ⟨hpar, rfl⟩
      · obtain ⟨mb, hmb, hparb⟩ := hl.kid_live hm₀ hold
        obtain ⟨mb', hmb', -, hp', -⟩ := addNode_survives wd path hp hmb
        exact ⟨mb', hmb', hp'.trans hparb⟩
      · exact ⟨_, addNode_new hp, hpar⟩
  · intro b m x hm hpar
    rcases addNode_node hp hm with ⟨rfl, rfl⟩ | ⟨hb, m₀, hm₀, -, hp₀, -, -⟩
    · obtain ⟨n, hn⟩ := hp x hpar
      obtain ⟨n', hn', -, -, -, hkids⟩ := addNode_survives wd path hp hn
      have hpar' : parent = some x := hpar
      refine ⟨n', hn', ?_⟩
      rw [hkids, if_pos hpar']
      simp
    · rw [hpar] at hp₀
      obtain ⟨n, hn, hkid⟩ := hl.parent_live hm₀ hp₀.symm
      obtain ⟨n', hn', -, -, -, hkids⟩ := addNode_survives wd path hp hn
      refine ⟨n', hn', ?_⟩
      rw [hkids]
      split
      · exact List.mem_append_left _ hkid
      · exact hkid
  · intro x m hm
    rcases addNode_node hp hm with ⟨rfl, rfl⟩ | ⟨hx, m₀, hm₀, -, -, -, hkids⟩
    · simp
    · rw [hkids]
      split
      · rw [List.reduceOption_append, List.nodup_append]
        refine ⟨hl.kid_once hm₀, by simp, ?_⟩
        intro y hy z hz hyz
        have hz' : z = s.heap.next := by simpa using hz
        subst hyz
        subst hz'
        exact hnotkid hm₀ (List.reduceOption_mem_iff.mp hy)
      · exact hl.kid_once hm₀
  · intro b m x hm hpar
    rcases addNode_node hp hm with ⟨rfl, rfl⟩ | ⟨hb, m₀, hm₀, -, hp₀, -, -⟩
    · obtain ⟨n, hn⟩ := hp x hpar
      exact Heap.lt_next hn
    · exact hl.older hm₀ (hp₀.symm.trans hpar)

/-- Filling a free slot keeps the table in step with the heap. -/
theorem addNode_slotted (hs : Slotted s.watches s.heap) (hp : ParentLive s.heap parent)
    (hfree : s.watches.get wd = none) :
    Slotted (addNode s wd parent path).watches (addNode s wd parent path).heap := by
  rw [Table.get_natCast] at hfree
  constructor
  · intro b m hm
    rw [addNode_data, addNode_capacity]
    rcases addNode_node hp hm with ⟨rfl, rfl⟩ | ⟨hb, m₀, hm₀, hwd, -⟩
    · rw [if_pos rfl]
    · have hslot := hs.of_node hm₀
      rw [hwd, if_neg, hslot]
      intro hk
      rw [hk, hfree] at hslot
      contradiction
  · intro k b hb
    rw [addNode_data] at hb
    split at hb
    · rename_i hk
      cases hb
      exact ⟨_, addNode_new hp, hk.symm⟩
    · obtain ⟨m₀, hm₀, hslot⟩ := hs.of_slot hb
      obtain ⟨m, hm, hwd, -⟩ := addNode_survives wd path hp hm₀
      exact ⟨m, hm, by rw [hwd]; exact hslot⟩

/-- The new node keeps the forest well formed. -/
theorem WellLinked.addNode (hw : WellLinked s.watches s.heap) (hp : ParentLive s.heap parent)
    (hfree : s.watches.get wd = none) :
    WellLinked (FsNotifier.addNode s wd parent path).watches
      (FsNotifier.addNode s wd parent path).heap :=
  ⟨addNode_linked hw.linked hp, addNode_slotted hw.slotted hp hfree⟩

end AddNode

/-! ## The outcomes of add_watch -/

section Outcomes

variable {tol : Fault → Prop} {s : State σ}

/-- Reporting the watch limit changes the flag and the output only. -/
theorem wp_watchLimitReached {Q : Unit → State σ → Prop}
    (hQ : ∀ limit out, Q () { s with limitReached := limit, stdout := out }) :
    wp tol watchLimitReached Q s := by
  unfold watchLimitReached message
  rw [wp_bind, wp_get]
  by_cases hl : s.limitReached
  · rw [if_neg (by simp [hl])]
    exact hQ s.limitReached s.stdout
  · rw [if_pos (by simp [hl])]
    exact hQ true _

/-- Two paths lead to one directory, as {lit}`realpath` sees it. -/
def SameDir (os : Os σ δ) (path path' : Bytes) (o : σ) : Prop :=
  ∃ real, (os (.realpath path) o).1 = some real ∧
    (os (.realpath path') (os (.realpath path) o).2).1 = some real

/-- Where the slot is taken, {lit}`add_watch` only makes calls. -/
theorem wp_addWatchExisting (os : Os σ δ) {path : Bytes} {wd a : Nat} {n : WatchNode}
    (hn : s.heap.get a = some n) {Q : Int → State σ → Prop}
    (hsame : n.wd = wd → n.path = path → Q wd s)
    (hwd : n.wd ≠ wd → Q ERR_ABORT s)
    (hpath : n.path ≠ path → ∀ r, r = ERR_ABORT ∨ r = ERR_IGNORE ∧ SameDir os n.path path s.os →
      Q r { s with os := (os (.realpath path) (os (.realpath n.path) s.os).2).2 }) :
    wp tol (addWatchExisting os path wd a) Q s := by
  unfold addWatchExisting
  rw [wp_bind, wp_deref hn]
  by_cases hw : n.wd = wd
  · rw [if_neg (not_not.mpr hw)]
    by_cases hp : n.path = path
    · rw [if_neg (not_not.mpr hp)]
      exact hsame hw hp
    · rw [if_pos hp, wp_bind, wp_sys, wp_bind, wp_sys]
      split
      · exact hpath hp ERR_ABORT (Or.inl rfl)
      · rename_i hreal
        obtain ⟨hone, hrest⟩ := not_or.mp hreal
        obtain ⟨real, hreal₁⟩ := Option.ne_none_iff_exists'.mp hone
        obtain ⟨-, heq⟩ := not_or.mp hrest
        have hreal₂ := (not_not.mp heq).symm.trans hreal₁
        exact hpath hp ERR_IGNORE (Or.inr ⟨rfl, real, hreal₁, hreal₂⟩)
  · rw [if_pos hw]
    exact hwd hw

/-- The outcomes of {lit}`add_watch` in a well-formed forest. -/
theorem wp_addWatch (os : Os σ δ) {path : Bytes} {parent : Option Nat}
    (hw : WellLinked s.watches s.heap) (hp : ParentLive s.heap parent)
    {Q : Int → State σ → Prop} {o : σ} (ho : o = (os (.inotifyAddWatch path) s.os).2)
    (hquiet : ∀ e, (os (.inotifyAddWatch path) s.os).1 = .error e →
      e = .EACCES ∨ e = .ENOENT → Q ERR_IGNORE { s with os := o })
    (hlimit : (os (.inotifyAddWatch path) s.os).1 = .error .ENOSPC →
      ∀ limit out, Q ERR_CONTINUE { s with os := o, limitReached := limit, stdout := out })
    (hother : ∀ e, (os (.inotifyAddWatch path) s.os).1 = .error e →
      e ≠ .EACCES → e ≠ .ENOENT → e ≠ .ENOSPC → Q ERR_ABORT { s with os := o })
    (hsame : ∀ wd a n, (os (.inotifyAddWatch path) s.os).1 = .ok wd →
      s.heap.get a = some n → n.wd = wd → n.path = path → Q wd { s with os := o })
    (hwd : ∀ wd a n, (os (.inotifyAddWatch path) s.os).1 = .ok wd →
      s.heap.get a = some n → n.wd % s.watches.capacity = wd % s.watches.capacity →
      n.wd ≠ wd → Q ERR_ABORT { s with os := o })
    (hpath : ∀ wd a n, (os (.inotifyAddWatch path) s.os).1 = .ok wd →
      s.heap.get a = some n → n.wd % s.watches.capacity = wd % s.watches.capacity →
      n.path ≠ path → ∀ r, r = ERR_ABORT ∨ r = ERR_IGNORE ∧ SameDir os n.path path o →
      Q r { s with os := (os (.realpath path) (os (.realpath n.path) o).2).2 })
    (hfresh : ∀ wd, (os (.inotifyAddWatch path) s.os).1 = .ok wd →
      s.watches.get wd = none → Q wd (addNode { s with os := o } wd parent path)) :
    wp tol (addWatch os path parent) Q s := by
  subst ho
  unfold addWatch
  rw [wp_bind, wp_sys]
  cases hans : (os (.inotifyAddWatch path) s.os).1 with
  | error e =>
      dsimp only
      by_cases hq : e = .EACCES ∨ e = .ENOENT
      · rw [if_pos hq]
        exact hquiet e hans hq
      · rw [if_neg hq]
        obtain ⟨he₁, he₂⟩ := not_or.mp hq
        by_cases hl : e = .ENOSPC
        · subst hl
          rw [if_pos rfl, wp_bind]
          exact wp_watchLimitReached (hlimit hans)
        · rw [if_neg hl]
          exact hother e hans he₁ he₂ hl
  | ok wd =>
      dsimp only
      rw [wp_bind, wp_tableGet]
      cases hget : s.watches.get wd with
      | none =>
          exact wp_of_run (addWatchFresh_run hp hget) (hfresh wd hans hget)
      | some a =>
          rw [Table.get_natCast] at hget
          obtain ⟨n, hn, hslot⟩ := hw.slotted.of_slot hget
          exact wp_addWatchExisting (s := { s with os := (os (.inotifyAddWatch path) s.os).2 })
            os hn (hsame wd a n hans hn) (hwd wd a n hans hn hslot)
            (hpath wd a n hans hn hslot)

end Outcomes

end FsNotifier
end IdeMultiarch
