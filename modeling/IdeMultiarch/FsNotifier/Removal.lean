import IdeMultiarch.Library.Results
import IdeMultiarch.FsNotifier.Renames

/-!
# fsnotifier - what a removed directory takes with it

An event that takes a directory away from a watched directory should drop the watches of
that directory and of everything in it, and no other.  The loop of
{lit}`process_inotify_event` takes the first kid whose path is a prefix, byte by byte, of
the path of the event, and looks no further.

Main results:

- Theorem {lit}`matchingKid_range_eq_some`: which kid the loop takes.
- Theorem {lit}`processInotifyEvent_removal_run`: an event drops the subtree of this kid.
- Theorem {lit}`removal_exact_iff`: the removal is exact if and only if the first kid that
  matches is the only one with the path of the event.
- Theorem {lit}`sibling_removed`: the removal of {lit}`ab` drops its sibling {lit}`a`.
-/

namespace IdeMultiarch
namespace FsNotifier

open Library

variable {σ δ : Type}

/-! ## Exact removal -/

/-- The mask of an event that takes a directory away. -/
def RemovalMask (mask : UInt32) : Prop :=
  mask = IN_DELETE ||| IN_ISDIR ∨ mask = IN_MOVED_FROM ||| IN_ISDIR

/-- The nodes of the subtrees at the kids of {lit}`a` that watch {lit}`path`. -/
def NamedSubtree (h : Heap WatchNode) (a : Nat) (path : Bytes) (b : Nat) : Prop :=
  ∃ k m, h.get k = some m ∧ m.parent = some a ∧ m.path = path ∧
    Relation.ReflTransGen (KidOf h) k b

/-- From {lit}`s` to {lit}`s'` the nodes of {lit}`Gone` have left the heap, the table and the
kernel, and all other nodes are where they were. -/
structure RemovesExactly (os : Os σ δ) (Gone : Nat → Prop) (s s' : State σ) : Prop where
  removed : ∀ b, Gone b → s'.heap.get b = none ∧ ∀ key, s'.watches.get key ≠ some b
  kept : ∀ b n, s.heap.get b = some n → ¬ Gone b →
    ∃ n', s'.heap.get b = some n' ∧ SameNode n n' ∧ s'.watches.get n.wd = some b
  added : ∀ b, s.heap.get b = none → s'.heap.get b = none
  kernel : ∃ L, (∀ b, b ∈ L ↔ Gone b) ∧ s'.os = rmCalls os (wdsOf s.heap L) s.os

/-- What was written before does not matter. -/
theorem RemovesExactly.of_output {os : Os σ δ} {Gone : Nat → Prop} {s s' : State σ} {o : Bytes}
    (h : RemovesExactly os Gone { s with stdout := o } s') : RemovesExactly os Gone s s' :=
  ⟨h.removed, h.kept, h.added, h.kernel⟩

/-- At index {lit}`i` the node lists the kid {lit}`k`, which watches {lit}`path`. -/
def KidAt (h : Heap WatchNode) (n : WatchNode) (i k : Nat) (path : Bytes) : Prop :=
  n.kids[i]? = some (some k) ∧ ∃ m, h.get k = some m ∧ m.path = path

/-- Every kid whose path is a proper prefix of {lit}`path` comes after a kid with this very
path, and there is at most one such kid. -/
structure NamedKidFirst (h : Heap WatchNode) (n : WatchNode) (path : Bytes) : Prop where
  first : ∀ i k p, KidAt h n i k p → p <+: path → p ≠ path → ∃ j < i, ∃ k', KidAt h n j k' path
  once : ∀ i j k k', KidAt h n i k path → KidAt h n j k' path → k = k'

/-- The states in which a session takes up an event or waits: between two turns of the main
loop, or in the middle of a buffer. -/
inductive InSession (os : Os σ δ) (init : State σ) : State σ → Prop
  | turn {s : State σ} : Reachable os init s → InSession os init s
  | buffer {s s' : State σ} (fuel : Nat) (before after : List InotifyEvent) :
      Reachable os init s → (os .read s.os).1 = .ok (before ++ after) →
      (processEvents os (inotifyCallback os) fuel before).run
        { s with os := (os .read s.os).2 } = .ok (true, s') →
      InSession os init s'

/-- The session is good in all these states. -/
theorem InSession.good {os : Os σ δ} {capacity : Nat} {K : KernelView os capacity}
    {init s : State σ} (hs : InSession os init s) (hinit : Good K init)
    (hsingle : SingleEvents os) : Good K s := by
  cases hs with
  | turn hreach => exact hreach.good hinit hsingle
  | buffer fuel before after hreach hread hrun =>
      have hgood := (hreach.good hinit hsingle).look .read trivial
      have hmasks : ∀ event ∈ before, SingleType event.mask := fun event hmem =>
        hsingle _ _ hread event (List.mem_append_left _ hmem)
      exact (run_of_wp (wp_processEvents before _ hgood hmasks) hrun).1

/-! ## The kid the loop takes -/

section Kids

variable {h : Heap WatchNode} {kids : List (Option Nat)} {path : Bytes}

theorem kidMatches_iff {k : Nat} {m : WatchNode} (hm : h.get k = some m) :
    kidMatches h path k = true ↔ m.path <+: path := by
  unfold kidMatches
  rw [hm]
  exact List.isPrefixOf_iff_prefix

/-- If the loop takes no kid, none matches. -/
theorem not_matches_of_matchingKid_eq_none
    (hnone : matchingKid h kids path (List.range kids.length) = none) {i k : Nat}
    (hi : kids[i]? = some (some k)) : kidMatches h path k = false := by
  have hlt : i < kids.length := (List.getElem?_eq_some_iff.mp hi).1
  unfold matchingKid at hnone
  have hfilter := List.findSome?_eq_none_iff.mp hnone i (List.mem_range.mpr hlt)
  rw [List.getD_eq_getElem?_getD, hi, Option.filter_eq_none_iff] at hfilter
  simpa using hfilter k rfl

/-- The kid the loop takes matches, and none before it does. -/
theorem matchingKid_range_eq_some {k : Nat}
    (hsome : matchingKid h kids path (List.range kids.length) = some k) :
    ∃ i : Nat, kids[i]? = some (some k) ∧ kidMatches h path k = true ∧
      ∀ j < i, ∀ k', kids[j]? = some (some k') → kidMatches h path k' = false := by
  unfold matchingKid at hsome
  obtain ⟨before, i, after, hrange, hk, hbefore⟩ := List.findSome?_eq_some_iff.mp hsome
  obtain ⟨hkid, hmatch⟩ := Option.filter_eq_some_iff.mp hk
  have hi : kids[i]? = some (some k) := by
    rw [List.getD_eq_getElem?_getD] at hkid
    cases hget : kids[i]? with
    | none => simp [hget] at hkid
    | some o => simpa [hget] using hkid
  refine ⟨i, hi, hmatch, ?_⟩
  intro j hj k' hk'
  have hmem : j ∈ before := by
    have hsorted : List.Pairwise (· < ·) (before ++ i :: after) := by
      rw [← hrange]
      exact List.pairwise_lt_range
    have hjlt : j < kids.length := (List.getElem?_eq_some_iff.mp hk').1
    have hjmem : j ∈ before ++ i :: after := by
      rw [← hrange]
      exact List.mem_range.mpr hjlt
    rcases List.mem_append.mp hjmem with hbefore' | hrest
    · exact hbefore'
    · rcases List.mem_cons.mp hrest with rfl | hafter
      · exact absurd hj (Nat.lt_irrefl _)
      · have hij := (List.pairwise_cons.mp (List.pairwise_append.mp hsorted).2.1).1 j hafter
        omega
  have hfilter := hbefore j hmem
  rw [List.getD_eq_getElem?_getD, hk', Option.filter_eq_none_iff] at hfilter
  simpa using hfilter k' rfl

end Kids

/-! ## Subtrees by steps to kids -/

/-- The subtree of a node consists of what steps from parents to kids reach. -/
theorem Subtree.mem_iff {h : Heap WatchNode} {k : Nat} {m : WatchNode} {K : List Nat}
    (ht : Subtree h k m K) (hl : NodesLinked h) (b : Nat) :
    b ∈ k :: K ↔ Relation.ReflTransGen (KidOf h) k b := by
  constructor
  · induction b using Nat.strongRecOn with
    | ind b ih =>
        intro hb
        rcases ht.forest.mem_top_or_parent b hb with htop | ⟨y, hy, n, hn, hkid⟩
        · have hbk : b = k := by simpa using htop
          rw [hbk]
        · obtain ⟨mb, hmb, hpar⟩ := hl.kid_live hn hkid
          exact (ih y (hl.older hmb hpar) hy).tail ⟨n, hn, hkid⟩
  · intro hpath
    induction hpath with
    | refl => exact List.mem_cons_self
    | @tail x y _ hxy ih =>
        obtain ⟨n, hn, hkid⟩ := hxy
        exact ht.forest.closed x ih n y hn hkid

/-! ## The event -/

section Event

variable {os : Os σ δ} {s : State σ} {a : Nat} {n : WatchNode}

/-- The state after the report of a removed directory. -/
def reportedRemoval (s : State σ) (path : Bytes) : State σ :=
  { s with stdout := s.stdout ++ cstr "DELETE" ++ [newline] ++ maskNewlines path ++ [newline] }

/-- An event that takes a directory away is reported and then handled by the loop over the
kids; the main loop goes on. -/
theorem processInotifyEvent_removal_run (hw : Slotted s.watches s.heap)
    (hn : s.heap.get a = some n) {mask : UInt32} (hmask : RemovalMask mask) (d : Bytes)
    (fuel : Nat) {s' : State σ}
    (hdrop : (dropKid os a (n.path ++ slash :: d) (List.range n.kids.length)).run
      (reportedRemoval s (n.path ++ slash :: d)) = .ok ((), s')) :
    (processInotifyEvent os (inotifyCallback os) fuel ⟨n.wd, mask, some d⟩).run s =
      .ok (true, s') := by
  have hbits : anyBit mask IN_ISDIR = true ∧ anyBit mask (IN_CREATE ||| IN_MOVED_TO) = false ∧
      anyBit mask (IN_DELETE ||| IN_MOVED_FROM) = true ∧ anyBit mask IN_MODIFY = false ∧
      anyBit mask IN_ATTRIB = false ∧ anyBit mask (IN_DELETE_SELF ||| IN_MOVE_SELF) = false ∧
      anyBit mask IN_UNMOUNT = false := by
    rcases hmask with rfl | rfl <;> decide
  obtain ⟨hdir, hnew, hgone, hmodify, hattrib, hself, hunmount⟩ := hbits
  have hcallback : (inotifyCallback os (n.path ++ slash :: d) mask).run s =
      .ok ((), reportedRemoval s (n.path ++ slash :: d)) := by
    unfold inotifyCallback reportMask
    rw [hnew, hmodify, hattrib, hgone, hself, hunmount]
    rfl
  have hfind : (tableGet n.wd : Notifier σ _).run s = .ok (some a, s) := by
    have hget := hw.get_of_node hn
    unfold tableGet
    rw [← hget]
    rfl
  have hn' : (reportedRemoval s (n.path ++ slash :: d)).heap.get a = some n := hn
  unfold processInotifyEvent
  rw [run_bind_of_run hfind]
  dsimp only
  rw [run_bind_of_run (deref_run hn)]
  change ((inotifyCallback os (n.path ++ slash :: d) mask) >>= _).run s = _
  rw [run_bind_of_run hcallback, if_pos hdir]
  unfold processDirEvent
  rw [hnew, hgone]
  change ((deref a) >>= fun node => dropKid os a (n.path ++ slash :: d)
    (List.range node.kids.length) >>= fun _ => pure true).run _ = _
  rw [run_bind_of_run (deref_run hn'), run_bind_of_run hdrop]
  rfl

/-- A subtree that a kid of {lit}`a` roots, and no other, is removed by pruning this kid. -/
theorem removesExactly_prune {k : Nat} {m : WatchNode} {K : List Nat}
    (hw : WellLinked s.watches s.heap) (ht : Subtree s.heap k m K) {Gone : Nat → Prop}
    (hgone : ∀ b, b ∈ k :: K ↔ Gone b) :
    RemovesExactly os Gone s (prune os s m.parent k (k :: K)) := by
  have hw' : WellLinked (prune os s m.parent k (k :: K)).watches
      (prune os s m.parent k (k :: K)).heap := hw.prune ht
  have hdead : ∀ b, b ∈ k :: K → (prune os s m.parent k (k :: K)).heap.get b = none := by
    intro b hb
    rw [prune_heap_get, if_pos hb]
  refine ⟨?_, ?_, ?_, ⟨k :: K, hgone, rfl⟩⟩
  · intro b hb
    have hnone := hdead b ((hgone b).mpr hb)
    refine ⟨hnone, ?_⟩
    intro key hkey
    obtain ⟨n', hn'⟩ := hw'.slotted.live_of_get hkey
    rw [hnone] at hn'
    contradiction
  · intro b nb hnb hkeep
    have hb : b ∉ k :: K := fun hmem => hkeep ((hgone b).mp hmem)
    obtain ⟨n', hn', hwd, hpar, hpath, -⟩ := prune_survives os k m.parent hnb hb
    refine ⟨n', hn', ⟨hwd, hpar, hpath⟩, ?_⟩
    rw [← hwd]
    exact hw'.slotted.get_of_node hn'
  · intro b hnone
    cases hb : (prune os s m.parent k (k :: K)).heap.get b with
    | none => rfl
    | some n' =>
        obtain ⟨-, n₀, hn₀, -⟩ := prune_node hb
        rw [hnone] at hn₀
        contradiction

/-- A node outside of the subtree of one kid of its own parent's kids is not in it: two kids
of one node do not contain each other. -/
theorem Subtree.eq_of_sibling {h : Heap WatchNode} {k : Nat} {m : WatchNode} {K : List Nat}
    (ht : Subtree h k m K) (hl : NodesLinked h) (hpar : m.parent = some a) {b : Nat}
    {mb : WatchNode} (hmb : h.get b = some mb) (hbpar : mb.parent = some a)
    (hb : b ∈ k :: K) : b = k := by
  by_contra hne
  exact ht.parent_not_mem hl hpar (ht.parent_mem hl hb hne hmb hbpar)

/-- A kid is listed at some index, under its path. -/
theorem kidAt_of_parent {h : Heap WatchNode} (hl : NodesLinked h) (hn : h.get a = some n)
    {k : Nat} {m : WatchNode} (hm : h.get k = some m) (hpar : m.parent = some a) :
    ∃ i, KidAt h n i k m.path := by
  obtain ⟨n', hn', hkid⟩ := hl.parent_live hm hpar
  rw [hn] at hn'
  cases hn'
  obtain ⟨i, hi⟩ := List.mem_iff_getElem?.mp hkid
  exact ⟨i, hi, m, hm, rfl⟩

/-- A kid that is listed has the node as its parent. -/
theorem KidAt.parent {h : Heap WatchNode} {i k : Nat} {path : Bytes} (hk : KidAt h n i k path)
    (hl : NodesLinked h) (hn : h.get a = some n) :
    ∃ m, h.get k = some m ∧ m.parent = some a ∧ m.path = path := by
  obtain ⟨hi, m, hm, hpath⟩ := hk
  obtain ⟨m', hm', hpar⟩ := hl.kid_live hn (List.mem_of_getElem? hi)
  rw [hm] at hm'
  cases hm'
  exact ⟨m, hm, hpar, hpath⟩

/-! ## When the removal is exact -/

/-- Where no kid matches there is nothing to remove, and nothing is removed. -/
theorem removesExactly_none (os : Os σ δ) {path : Bytes} {o : Bytes} (hl : WellLinked s.watches s.heap)
    (hn : s.heap.get a = some n)
    (hnone : matchingKid s.heap n.kids path (List.range n.kids.length) = none) :
    RemovesExactly os (NamedSubtree s.heap a path) s { s with stdout := o } ∧
      NamedKidFirst s.heap n path := by
  have hno : ∀ i k p, KidAt s.heap n i k p → ¬ p <+: path := by
    rintro i k p ⟨hi, m, hm, rfl⟩ hpre
    have hmatch := not_matches_of_matchingKid_eq_none hnone hi
    rw [(kidMatches_iff hm).mpr hpre] at hmatch
    contradiction
  have hempty : ∀ b, ¬ NamedSubtree s.heap a path b := by
    rintro b ⟨k, m, hm, hpar, rfl, -⟩
    obtain ⟨i, hi⟩ := kidAt_of_parent hl.linked hn hm hpar
    exact hno i k _ hi List.prefix_rfl
  refine ⟨⟨?_, ?_, fun b hb => hb, ⟨[], ?_, rfl⟩⟩, ⟨?_, ?_⟩⟩
  · intro b hb
    exact absurd hb (hempty b)
  · intro b nb hnb _
    exact ⟨nb, hnb, SameNode.refl nb, hl.slotted.get_of_node hnb⟩
  · intro b
    simp [hempty b]
  · intro i k p hk hpre _
    exact absurd hpre (hno i k p hk)
  · intro i j k k' hk _
    exact absurd List.prefix_rfl (hno i k path hk)

/-- Where the loop takes the kid {lit}`k`, the removal is exact if and only if {lit}`k` is the
only kid with the path of the event. -/
theorem removesExactly_some {path : Bytes} (o : Bytes) {k : Nat} {m : WatchNode} {K : List Nat}
    (hl : WellLinked s.watches s.heap) (hn : s.heap.get a = some n)
    (hsome : matchingKid s.heap n.kids path (List.range n.kids.length) = some k)
    (ht : Subtree s.heap k m K) (hpar : m.parent = some a) :
    RemovesExactly os (NamedSubtree s.heap a path) s
        (prune os { s with stdout := o } m.parent k (k :: K)) ↔
      NamedKidFirst s.heap n path := by
  obtain ⟨i, hi, hmatch, hbefore⟩ := matchingKid_range_eq_some hsome
  have hpre : m.path <+: path := (kidMatches_iff ht.node).mp hmatch
  have hkid : KidAt s.heap n i k m.path := ⟨hi, m, ht.node, rfl⟩
  have hearlier : ∀ j < i, ∀ k' p, KidAt s.heap n j k' p → ¬ p <+: path := by
    rintro j hj k' p ⟨hk', m', hm', rfl⟩ hpre'
    have hno := hbefore j hj k' hk'
    rw [(kidMatches_iff hm').mpr hpre'] at hno
    contradiction
  constructor
  · intro hexact
    have hdead : ∀ b, b ∈ k :: K →
        (prune os { s with stdout := o } m.parent k (k :: K)).heap.get b = none := by
      intro b hb
      rw [prune_heap_get, if_pos hb]
    -- the kid taken has the path of the event, or it would have been kept
    have hnamed : NamedSubtree s.heap a path k := by
      by_contra hno
      obtain ⟨n', hn', -⟩ := hexact.kept k m ht.node hno
      rw [hdead k List.mem_cons_self] at hn'
      contradiction
    have hpath : m.path = path := by
      obtain ⟨k₀, m₀, hm₀, hpar₀, hpath₀, hreach⟩ := hnamed
      obtain ⟨K₀, hK₀⟩ := hl.exists_subtree hm₀
      have hkk₀ : k = k₀ := hK₀.eq_of_sibling hl.linked hpar₀ ht.node hpar
        ((hK₀.mem_iff hl.linked k).mpr hreach)
      subst hkk₀
      rw [ht.node] at hm₀
      cases hm₀
      exact hpath₀
    have honly : ∀ j k', KidAt s.heap n j k' path → k' = k := by
      intro j k' hk'
      obtain ⟨m', hm', hpar', hpath'⟩ := hk'.parent hl.linked hn
      have hgone := (hexact.removed k' ⟨k', m', hm', hpar', hpath', .refl⟩).1
      by_contra hne
      have hout : k' ∉ k :: K := fun hmem =>
        hne (ht.eq_of_sibling hl.linked hpar hm' hpar' hmem)
      obtain ⟨n', hn', -⟩ := prune_survives (s := { s with stdout := o }) os k m.parent hm' hout
      rw [hgone] at hn'
      contradiction
    constructor
    · intro j k' p hk' hpre' hne
      refine ⟨i, ?_, k, hpath ▸ hkid⟩
      rcases Nat.lt_trichotomy i j with hlt | rfl | hgt
      · exact hlt
      · obtain ⟨hj, m', hm', rfl⟩ := hk'
        rw [hi] at hj
        cases hj
        rw [ht.node] at hm'
        cases hm'
        exact absurd hpath hne
      · exact absurd hpre' (hearlier j hgt k' p hk')
    · intro j j' k₁ k₂ h₁ h₂
      rw [honly j k₁ h₁, honly j' k₂ h₂]
  · intro hcond
    have hpath : m.path = path := by
      by_contra hne
      obtain ⟨j, hj, k', hk'⟩ := hcond.first i k m.path hkid hpre hne
      exact hearlier j hj k' path hk' List.prefix_rfl
    refine RemovesExactly.of_output (o := o) (removesExactly_prune (s := { s with stdout := o })
      hl ht ?_)
    intro b
    rw [ht.mem_iff hl.linked b]
    constructor
    · intro hreach
      exact ⟨k, m, ht.node, hpar, hpath, hreach⟩
    · rintro ⟨k₀, m₀, hm₀, hpar₀, hpath₀, hreach⟩
      obtain ⟨j, hj⟩ := kidAt_of_parent hl.linked hn hm₀ hpar₀
      rw [hpath₀] at hj
      rw [hcond.once i j k k₀ (hpath ▸ hkid) hj]
      exact hreach

/-- In any state of any session, an event that takes a directory {lit}`d` away from a watched
directory removes exactly the nodes of the subtree at {lit}`d` if and only if the kid that
watches {lit}`d` is the only one and comes before every kid whose path is a prefix of its. -/
theorem removal_exact_iff (hsingle : SingleEvents os) {o : σ} {watchCount : Nat}
    (hpos : 0 < watchCount) (hs : InSession os (start o watchCount hpos) s)
    (hn : s.heap.get a = some n) {mask : UInt32} (hmask : RemovalMask mask) (d : Bytes)
    (fuel : Nat) :
    (∃ s', (processInotifyEvent os (inotifyCallback os) fuel ⟨n.wd, mask, some d⟩).run s =
        .ok (true, s') ∧
      RemovesExactly os (NamedSubtree s.heap a (n.path ++ slash :: d)) s s') ↔
    NamedKidFirst s.heap n (n.path ++ slash :: d) := by
  have hgood : Good (looseView os watchCount) s := hs.good (good_start hpos fun _ => id) hsingle
  have hl := hgood.inv.wellLinked
  have hl' : WellLinked (reportedRemoval s (n.path ++ slash :: d)).watches
      (reportedRemoval s (n.path ++ slash :: d)).heap := hl
  obtain ⟨s', hdrop, hcase⟩ := dropKid_run os hl' hn (n.path ++ slash :: d)
    (List.range n.kids.length)
  have hrun := processInotifyEvent_removal_run hl.slotted hn hmask d fuel hdrop
  have hiff : RemovesExactly os (NamedSubtree s.heap a (n.path ++ slash :: d)) s s' ↔
      NamedKidFirst s.heap n (n.path ++ slash :: d) := by
    rcases hcase with ⟨hnone, rfl⟩ | ⟨k, m, K, hsome, ht, hpar, rfl⟩
    · obtain ⟨hexact, hcond⟩ := removesExactly_none os hl hn hnone
      exact ⟨fun _ => hcond, fun _ => hexact⟩
    · exact removesExactly_some _ hl hn hsome ht hpar
  rw [← hiff]
  constructor
  · rintro ⟨t, ht, hexact⟩
    rw [hrun] at ht
    cases ht
    exact hexact
  · intro hexact
    exact ⟨s', hrun, hexact⟩

end Event

/-- Before the first buffer of events is read, {lit}`/r/a` is removed. -/
def removeOnly : Nat → Turn :=
  scriptAt 9 [.rmdir [cstr "r"] (cstr "a")]

/-- Where {lit}`/r/a` is the only directory in {lit}`/r`, its removal is exact. -/
theorem removal_exact_iff_only :
    ∃ s s', Reachable (worldOs removeOnly) (start twoDirectories 8 (by decide)) s ∧
      s.heap.get 1 = some ⟨2, some 0, [], cstr "/r/a"⟩ ∧
      (processInotifyEvent (worldOs removeOnly) (inotifyCallback (worldOs removeOnly)) 9
        ⟨1, IN_DELETE ||| IN_ISDIR, some (cstr "a")⟩).run s = .ok (true, s') ∧
      RemovesExactly (worldOs removeOnly) (NamedSubtree s.heap 0 (cstr "/r/a")) s s' := by
  have hregister : returned ((perform (worldOs removeOnly) 9
      (.updateRoots [cstr "/r"])).run (start twoDirectories 8 (by decide))) true
      (fun s => s.heap.get 0 = some ⟨1, none, [some 1], cstr "/r"⟩ ∧
        s.heap.get 1 = some ⟨2, some 0, [], cstr "/r/a"⟩) = true := by
    decide +kernel
  obtain ⟨s, hrun, htest⟩ := exists_of_returned hregister
  obtain ⟨hroot, hkid⟩ := of_decide_eq_true htest
  have hreach : Reachable (worldOs removeOnly) (start twoDirectories 8 (by decide)) s :=
    .turn _ _ _ .start hrun
  have hkids : ∀ i k p, KidAt s.heap ⟨1, none, [some 1], cstr "/r"⟩ i k p →
      k = 1 ∧ p = cstr "/r/a" := by
    rintro i k p ⟨hi, m, hm, rfl⟩
    have hk : k = 1 := by
      have hmem := List.mem_of_getElem? hi
      simpa using hmem
    subst hk
    rw [hkid] at hm
    cases hm
    exact ⟨rfl, rfl⟩
  have hfirst : NamedKidFirst s.heap ⟨1, none, [some 1], cstr "/r"⟩ (cstr "/r/a") := by
    constructor
    · intro i k p hk _ hne
      exact absurd (hkids i k p hk).2 hne
    · intro i j k k' hk hk'
      rw [(hkids i k _ hk).1, (hkids j k' _ hk').1]
  obtain ⟨s', hevent, hexact⟩ := (removal_exact_iff (worldOs_singleEvents _) (by decide)
    (.turn hreach) hroot (Or.inl rfl) (cstr "a") 9).mpr hfirst
  exact ⟨s, s', hreach, hkid, hevent, hexact⟩

/-! ## A sibling is lost -/

/-- A world with the directories {lit}`/r`, {lit}`/r/a` and {lit}`/r/ab`. -/
def siblings : World :=
  { twoDirectories with
    dirs := twoDirectories.dirs ++ [⟨[cstr "r", cstr "ab"], 4⟩]
    nextInode := 5 }

/-- Before the first buffer of events is read, {lit}`/r/ab` is removed. -/
def removeSibling : Nat → Turn :=
  scriptAt 13 [.rmdir [cstr "r"] (cstr "ab")]

/-- The event about {lit}`/r/ab` drops the watch of {lit}`/r/a`, which is still there, and keeps
the node of {lit}`/r/ab`, which is not. -/
theorem sibling_removed :
    ∃ s u t, Reachable (worldOs removeSibling) (start siblings 8 (by decide)) s ∧
      u = { s with os := (worldOs removeSibling .read s.os).2 } ∧
      (∃ rest, (worldOs removeSibling .read s.os).1 =
        .ok (⟨1, IN_DELETE ||| IN_ISDIR, some (cstr "ab")⟩ :: rest)) ∧
      u.heap.get 0 = some ⟨1, none, [some 1, some 2], cstr "/r"⟩ ∧
      u.heap.get 1 = some ⟨2, some 0, [], cstr "/r/a"⟩ ∧
      u.heap.get 2 = some ⟨3, some 0, [], cstr "/r/ab"⟩ ∧
      (processInotifyEvent (worldOs removeSibling) (inotifyCallback (worldOs removeSibling)) 9
        ⟨1, IN_DELETE ||| IN_ISDIR, some (cstr "ab")⟩).run u = .ok (true, t) ∧
      t.heap.get 1 = none ∧ t.heap.get 2 = some ⟨3, some 0, [], cstr "/r/ab"⟩ ∧
      ¬ RemovesExactly (worldOs removeSibling) (NamedSubtree u.heap 0 (cstr "/r/ab")) u t := by
  have hregister : returned ((perform (worldOs removeSibling) 9
      (.updateRoots [cstr "/r"])).run (start siblings 8 (by decide))) true
      (fun s => (s.heap.get 0 = some ⟨1, none, [some 1, some 2], cstr "/r"⟩ ∧
        s.heap.get 1 = some ⟨2, some 0, [], cstr "/r/a"⟩ ∧
        s.heap.get 2 = some ⟨3, some 0, [], cstr "/r/ab"⟩) ∧
        ((worldOs removeSibling .read s.os).1.toOption.getD []).head? =
          some ⟨1, IN_DELETE ||| IN_ISDIR, some (cstr "ab")⟩ ∧
        returned ((processInotifyEvent (worldOs removeSibling)
          (inotifyCallback (worldOs removeSibling)) 9
          ⟨1, IN_DELETE ||| IN_ISDIR, some (cstr "ab")⟩).run
          { s with os := (worldOs removeSibling .read s.os).2 }) true
          (fun t => t.heap.get 1 = none ∧
            t.heap.get 2 = some ⟨3, some 0, [], cstr "/r/ab"⟩) = true) = true := by
    decide +kernel
  obtain ⟨s, hrun, htest⟩ := exists_of_returned hregister
  obtain ⟨⟨hroot, ha, hab⟩, hhead, hevent⟩ := of_decide_eq_true htest
  obtain ⟨t, hevent', htest'⟩ := exists_of_returned hevent
  obtain ⟨hgone, hstale⟩ := of_decide_eq_true htest'
  refine ⟨s, _, t, .turn _ _ _ .start hrun, rfl, Results.eq_ok_of_head? hhead, hroot, ha, hab,
    hevent', hgone, hstale, ?_⟩
  intro hexact
  have hnamed : NamedSubtree s.heap 0 (cstr "/r/ab") 2 := ⟨2, _, hab, rfl, rfl, .refl⟩
  have hdead := (hexact.removed 2 hnamed).1
  exact absurd (hstale.symm.trans hdead) (by simp)

end FsNotifier
end IdeMultiarch
