import Mathlib.Data.List.Perm.Subperm
import IdeMultiarch.FsNotifier.Main

/-!
# fsnotifier - the forest of watch nodes

The nodes of the watch table form trees through their kid and parent pointers.  This
file describes exactly what {lit}`rm_watch` does to a well-formed forest: it removes one
whole subtree from the heap, the table and the kernel, and nothing else.

Main results:

- Theorem {lit}`rmKids_run`: the loop over the kids drops the subtrees of the kids.
- Theorem {lit}`rmWatch_run_some`: {lit}`rm_watch` drops the subtree of one node.
- Theorem {lit}`dropKid_run`: a directory event prunes the first kid that matches, if any.
- Theorem {lit}`WellLinked.prune`: pruning keeps the forest well formed.
-/

namespace IdeMultiarch
namespace FsNotifier

open Library

variable {σ δ : Type}

/-! ## Well-formed forests -/

/-- Kid and parent pointers of the watch nodes agree. -/
abbrev NodesLinked (h : Heap WatchNode) : Prop :=
  Linked WatchNode.kids WatchNode.parent h

/-- The trees below a list of watch nodes. -/
abbrev NodeForest (h : Heap WatchNode) (ks : List (Option Nat)) (L : List Nat) : Prop :=
  Forest WatchNode.kids h ks L

/-- Every live node sits in the slot of its descriptor, and slots hold nothing else. -/
structure Slotted (t : Table) (h : Heap WatchNode) : Prop where
  of_node : ∀ {a n}, h.get a = some n → t.data (n.wd % t.capacity) = some a
  of_slot : ∀ {k a}, t.data k = some a → ∃ n, h.get a = some n ∧ n.wd % t.capacity = k

/-- A well-formed watch forest. -/
structure WellLinked (t : Table) (h : Heap WatchNode) : Prop where
  linked : NodesLinked h
  slotted : Slotted t h

/-- An empty table and no nodes. -/
theorem WellLinked.empty (capacity : Nat) (hpos : 0 < capacity) :
    WellLinked (Table.create capacity hpos) Heap.empty := by
  refine ⟨⟨?_, ?_, ?_, ?_⟩, ⟨?_, ?_⟩⟩
  all_goals simp [Table.create]

/-- The table finds a live node under its descriptor. -/
theorem Slotted.get_of_node {t : Table} {h : Heap WatchNode} (hs : Slotted t h)
    {a : Nat} {n : WatchNode} (hn : h.get a = some n) : t.get n.wd = some a := by
  rw [Table.get_natCast]
  exact hs.of_node hn

/-- What the table finds, under any key, is a live node. -/
theorem Slotted.live_of_get {t : Table} {h : Heap WatchNode} (hs : Slotted t h)
    {key : Int} {a : Nat} (ha : t.get key = some a) : ∃ n, h.get a = some n := by
  unfold Table.get at ha
  dsimp only at ha
  split at ha
  · contradiction
  · obtain ⟨n, hn, _⟩ := hs.of_slot ha
    exact ⟨n, hn⟩

/-! ## Dropping nodes -/

/-- The kernel calls that remove a list of watches, in order. -/
def rmCalls (os : Os σ δ) (wds : List Nat) (o : σ) : σ :=
  wds.foldl (fun o wd => (os (.inotifyRmWatch wd) o).2) o

/-- The descriptors of the live nodes among a list of addresses. -/
def wdsOf (h : Heap WatchNode) (L : List Nat) : List Nat :=
  L.filterMap fun a => (h.get a).map (·.wd)

/-- Nodes with one descriptor share a slot, so the descriptor of a node outside a list is not
among those of the list. -/
theorem Slotted.wd_not_mem {t : Table} {h : Heap WatchNode} (hs : Slotted t h) {b : Nat}
    {m : WatchNode} (hm : h.get b = some m) {L : List Nat} (hb : b ∉ L) : m.wd ∉ wdsOf h L := by
  intro hmem
  obtain ⟨c, hc, hcwd⟩ := List.mem_filterMap.mp hmem
  obtain ⟨k, hk, hkwd⟩ := Option.map_eq_some_iff.mp hcwd
  have hslot := hs.get_of_node hk
  rw [hkwd, hs.get_of_node hm] at hslot
  exact hb (Option.some.inj hslot ▸ hc)

/-- The table without the slots of the nodes in {lit}`L`. -/
def Table.clear (t : Table) (L : List Nat) : Table :=
  { t with data := fun k => (t.data k).filter fun a => a ∉ L }

/-- Remove the nodes in {lit}`L` from the kernel, the heap and the table. -/
def dropAll (os : Os σ δ) (s : State σ) (L : List Nat) : State σ :=
  { s with
    os := rmCalls os (wdsOf s.heap L) s.os
    heap := s.heap.freeAll L
    watches := s.watches.clear L }

/-- The parent, if there is one, forgets its kid {lit}`a`. -/
def forgetIn (h : Heap WatchNode) (parent : Option Nat) (a : Nat) : Heap WatchNode :=
  match parent with
  | none => h
  | some p => h.modify p fun node => { node with kids := node.kids.replace (some a) none }

/-- Remove the nodes in {lit}`L`, the subtree of {lit}`a`, and the parent's pointer to it. -/
def prune (os : Os σ δ) (s : State σ) (parent : Option Nat) (a : Nat) (L : List Nat) : State σ :=
  let t := dropAll os s L
  { t with heap := forgetIn t.heap parent a }

theorem dropAll_heap_get (os : Os σ δ) (s : State σ) (L : List Nat) (b : Nat) :
    (dropAll os s L).heap.get b = if b ∈ L then none else s.heap.get b :=
  rfl

theorem dropAll_watches_data (os : Os σ δ) (s : State σ) (L : List Nat) (k : Nat) :
    (dropAll os s L).watches.data k = (s.watches.data k).filter fun a => a ∉ L :=
  rfl

@[simp]
theorem dropAll_capacity (os : Os σ δ) (s : State σ) (L : List Nat) :
    (dropAll os s L).watches.capacity = s.watches.capacity :=
  rfl

/-- Two states that agree field by field are equal. -/
theorem State.ext_fields {s t : State σ} (hos : s.os = t.os)
    (hcap : s.watches.capacity = t.watches.capacity)
    (hdata : ∀ k, s.watches.data k = t.watches.data k)
    (hget : ∀ a, s.heap.get a = t.heap.get a) (hnext : s.heap.next = t.heap.next)
    (hroots : s.roots = t.roots) (hlimit : s.limitReached = t.limitReached)
    (hout : s.stdout = t.stdout) : s = t := by
  have hwatches : s.watches = t.watches := by
    rcases s with ⟨_, ⟨_, _, _⟩, _, _, _, _⟩
    rcases t with ⟨_, ⟨_, _, _⟩, _, _, _, _⟩
    simp only [Table.mk.injEq] at *
    exact ⟨hcap, funext hdata⟩
  have hheap : s.heap = t.heap := Heap.ext_get hget hnext
  rcases s with ⟨_, _, _, _, _, _⟩
  rcases t with ⟨_, _, _, _, _, _⟩
  simp_all

/-- Dropping nothing changes nothing. -/
theorem dropAll_nil (os : Os σ δ) (s : State σ) : dropAll os s [] = s := by
  apply State.ext_fields <;> try rfl
  · intro k
    rw [dropAll_watches_data]
    cases s.watches.data k <;> simp
  · intro b
    simp [dropAll_heap_get]

/-- Dropping two disjoint lists of nodes in turn drops their concatenation. -/
theorem dropAll_append (os : Os σ δ) (s : State σ) {K L : List Nat}
    (hdisj : ∀ x ∈ K, x ∉ L) :
    dropAll os (dropAll os s K) L = dropAll os s (K ++ L) := by
  have hwds : wdsOf (dropAll os s K).heap L = wdsOf s.heap L := by
    unfold wdsOf
    apply List.filterMap_congr
    intro a ha
    have haK : a ∉ K := fun h => hdisj a h ha
    rw [dropAll_heap_get, if_neg haK]
  apply State.ext_fields <;> try rfl
  · change rmCalls os (wdsOf (dropAll os s K).heap L) (rmCalls os (wdsOf s.heap K) s.os) =
      rmCalls os (wdsOf s.heap (K ++ L)) s.os
    rw [hwds]
    simp only [wdsOf, rmCalls, List.filterMap_append, List.foldl_append]
  · intro k
    simp only [dropAll_watches_data]
    cases s.watches.data k with
    | none => rfl
    | some a => by_cases haK : a ∈ K <;> simp
  · intro b
    simp only [dropAll_heap_get, List.mem_append]
    by_cases hbK : b ∈ K <;> by_cases hbL : b ∈ L <;> simp [hbK, hbL]

/-! ## The exact effect of rm_watch -/

/-- The nodes of {lit}`L` are live and each sits in exactly the slot of its descriptor. -/
def SlotsOf (s : State σ) (L : List Nat) : Prop :=
  ∀ b ∈ L, ∃ n, s.heap.get b = some n ∧
    ∀ j, s.watches.data j = some b ↔ j = n.wd % s.watches.capacity

/-- In a well-formed forest the live nodes have their slots. -/
theorem Slotted.slotsOf {s : State σ} (hs : Slotted s.watches s.heap) {L : List Nat}
    (hlive : ∀ b ∈ L, ∃ n, s.heap.get b = some n) : SlotsOf s L := by
  intro b hb
  obtain ⟨n, hn⟩ := hlive b hb
  refine ⟨n, hn, fun j => ⟨fun hj => ?_, fun hj => hj ▸ hs.of_node hn⟩⟩
  obtain ⟨m, hm, hslot⟩ := hs.of_slot hj
  rw [hn] at hm
  cases hm
  exact hslot.symm

/-- Dropping other nodes keeps the slots. -/
theorem SlotsOf.dropAll {s : State σ} {K L : List Nat} (os : Os σ δ) (hL : SlotsOf s L)
    (hdisj : ∀ x ∈ K, x ∉ L) : SlotsOf (dropAll os s K) L := by
  intro b hb
  obtain ⟨n, hn, hslot⟩ := hL b hb
  have hbK : b ∉ K := fun h => hdisj b h hb
  refine ⟨n, ?_, fun j => ?_⟩
  · rw [dropAll_heap_get, if_neg hbK, hn]
  · rw [dropAll_watches_data, dropAll_capacity, ← hslot j]
    cases hj : s.watches.data j with
    | none => simp
    | some a =>
        by_cases hab : a = b
        · simp [hab, hbK]
        · simp [hab]

/-- Reading a live node. -/
theorem deref_run {s : State σ} {a : Nat} {n : WatchNode} (hn : s.heap.get a = some n) :
    (deref a).run s = .ok (n, s) := by
  simp [deref, StateT.run_bind, hn]
  rfl

/-- Changing a live node. -/
theorem update_run {s : State σ} {a : Nat} {n : WatchNode} (f : WatchNode → WatchNode)
    (hn : s.heap.get a = some n) :
    (update a f).run s = .ok ((), { s with heap := s.heap.modify a f }) := by
  unfold update
  rw [run_bind_of_run (deref_run hn)]
  rfl

/-- Removing one node after its kids are gone completes the removal of its subtree. -/
theorem dropAll_cons (os : Os σ δ) {s : State σ} {a : Nat} {n : WatchNode} {K : List Nat}
    (hn : s.heap.get a = some n)
    (hslot : ∀ j, s.watches.data j = some a ↔ j = n.wd % s.watches.capacity) :
    let s₁ := { s with os := (os (.inotifyRmWatch n.wd) s.os).2 }
    let s₂ := dropAll os s₁ K
    { s₂ with heap := s₂.heap.free a, watches := (s₂.watches.put n.wd none).2 } =
      dropAll os s (a :: K) := by
  intro s₁ s₂
  rw [Table.put_none]
  apply State.ext_fields <;> try rfl
  · simp [s₂, s₁, dropAll, wdsOf, rmCalls, hn]
  · intro j
    change Function.update s₂.watches.data (n.wd % s.watches.capacity) none j = _
    rw [Function.update_apply, dropAll_watches_data os s (a :: K) j]
    split
    · rename_i hj
      rw [(hslot j).mpr hj]
      simp [Option.filter]
    · rename_i hj
      have hne : s.watches.data j ≠ some a := fun h => hj ((hslot j).mp h)
      rw [dropAll_watches_data]
      change (s.watches.data j).filter _ = _
      cases hd : s.watches.data j with
      | none => rfl
      | some b =>
          have hba : b ≠ a := fun h => hne (by rw [hd, h])
          simp [Option.filter, hba]
  · intro b
    rw [dropAll_heap_get, Heap.free_get]
    change (if b = a then none else if b ∈ K then none else s.heap.get b) = _
    by_cases hba : b = a
    · simp [hba]
    · simp [hba]

/-- The loop over kids {lit}`i`, {lit}`i + 1`, ... of a node drops their subtrees.  The
recursion follows the forest; its depth is at most the number of dropped nodes. -/
theorem rmKids_run (os : Os σ δ) {h : Heap WatchNode} {ks : List (Option Nat)} {L : List Nat}
    (hf : NodeForest h ks L) :
    ∀ (fuel : Nat) (s : State σ) (a : Nat) (n : WatchNode) (i : Nat),
      s.heap.get a = some n → n.kids.drop i = ks → a ∉ L → L.Nodup →
      (∀ b ∈ L, s.heap.get b = h.get b) → SlotsOf s L → L.length ≤ fuel →
      (rmKids (fun kidWd => rmWatchAux os fuel kidWd false) a
        (List.range' i ks.length)).run s = .ok ((), dropAll os s L) := by
  induction hf with
  | nil =>
      intro fuel s a n i _ _ _ _ _ _ _
      rw [dropAll_nil]
      rfl
  | @skip ks L _ ih =>
      intro fuel s a n i hn hdrop haL hnodup hsame hslots hfuel
      have hget : n.kids.getD i none = none := by
        rw [List.getD_eq_getElem?_getD, ← List.head?_drop, hdrop]
        rfl
      have hrest : n.kids.drop (i + 1) = ks := by
        rw [← List.drop_drop, hdrop]
        rfl
      rw [List.length_cons, List.range'_succ, rmKids, run_bind_of_run (deref_run hn), hget]
      exact ih fuel s a n (i + 1) hn hrest haL hnodup hsame hslots hfuel
  | @tree k m ks K L hk hK hL ihK ihL =>
      intro fuel s a n i hn hdrop haL hnodup hsame hslots hfuel
      have hget : n.kids.getD i none = some k := by
        rw [List.getD_eq_getElem?_getD, ← List.head?_drop, hdrop]
        rfl
      have hrest : n.kids.drop (i + 1) = ks := by
        rw [← List.drop_drop, hdrop]
        rfl
      simp only [List.cons_append, List.nodup_cons, List.mem_append, not_or,
        List.nodup_append] at hnodup
      obtain ⟨⟨hkK, hkL⟩, hKn, hLn, hKL⟩ := hnodup
      simp only [List.cons_append, List.mem_cons, List.mem_append, not_or] at haL
      obtain ⟨hak, haK, haL⟩ := haL
      have hks : s.heap.get k = some m := by rw [hsame k (by simp), hk]
      obtain ⟨m', hm', hslot⟩ := hslots k (by simp)
      rw [hks] at hm'
      cases hm'
      obtain ⟨f, rfl⟩ : ∃ f, fuel = f + 1 :=
        ⟨fuel - 1, by simp only [List.length_cons, List.cons_append] at hfuel; omega⟩
      simp only [List.length_cons, List.cons_append, List.length_append] at hfuel
      -- The recursive call removes the subtree of the kid.
      have hcall : (rmWatchAux os (f + 1) m.wd false).run s =
          .ok ((), dropAll os s (k :: K)) := by
        have hfind : s.watches.get m.wd = some k := by
          rw [Table.get_natCast]
          exact (hslot _).mpr rfl
        let s₁ : State σ := { s with os := (os (.inotifyRmWatch m.wd) s.os).2 }
        have hloop := ihK f s₁ k m 0 hks rfl hkK hKn
          (fun b hb => hsame b (by simp [hb]))
          (fun b hb => hslots b (by simp [hb])) (by omega)
        have hk₂ : (dropAll os s₁ K).heap.get k = some m := by
          rw [dropAll_heap_get, if_neg hkK]
          exact hks
        have hrange : List.range m.kids.length = List.range' 0 m.kids.length :=
          List.range_eq_range'
        unfold rmWatchAux
        rw [run_bind_of_run (a := some k) (t := s) (by simp [tableGet, hfind]; rfl)]
        dsimp only
        rw [run_bind_of_run (deref_run hks)]
        rw [run_bind_of_run (a := (os (.inotifyRmWatch m.wd) s.os).1) (t := s₁) rfl]
        rw [hrange, run_bind_of_run hloop, run_bind_of_run (deref_run hk₂)]
        rw [← dropAll_cons os hks hslot]
        rfl
      have hdisj : ∀ x ∈ k :: K, x ∉ L := by
        intro x hx hxL
        rcases List.mem_cons.mp hx with rfl | hx
        · exact hkL hxL
        · exact hKL x hx x hxL rfl
      have hn₂ : (dropAll os s (k :: K)).heap.get a = some n := by
        rw [dropAll_heap_get, if_neg (by simp [hak, haK]), hn]
      have htail := ihL (f + 1) (dropAll os s (k :: K)) a n (i + 1) hn₂ hrest haL hLn
        (fun b hb => by
          have hbk : b ∉ k :: K := fun hbk => hdisj b hbk hb
          rw [dropAll_heap_get, if_neg hbk]
          exact hsame b (by simp [hb]))
        (SlotsOf.dropAll os (fun b hb => hslots b (by simp [hb])) hdisj) (by omega)
      rw [List.length_cons, List.range'_succ, rmKids, run_bind_of_run (deref_run hn), hget]
      dsimp only
      rw [run_bind_of_run (deref_run hks), run_bind_of_run hcall, htail,
        dropAll_append os s hdisj, List.cons_append]

/-- The subtree of a node: the node itself first, then the trees of its kids. -/
structure Subtree (h : Heap WatchNode) (a : Nat) (n : WatchNode) (K : List Nat) : Prop where
  node : h.get a = some n
  kids : NodeForest h n.kids K
  nodup : (a :: K).Nodup
  above : ∀ x ∈ K, a < x

/-- Every live node of a well-formed forest has a subtree. -/
theorem WellLinked.exists_subtree {t : Table} {h : Heap WatchNode} (hw : WellLinked t h)
    {a : Nat} {n : WatchNode} (hn : h.get a = some n) : ∃ K, Subtree h a n K := by
  have hkids : ∀ b, some b ∈ n.kids → ∃ m, h.get b = some m ∧ m.parent = some a :=
    fun b hb => hw.linked.kid_live hn hb
  obtain ⟨K, hK⟩ := hw.linked.exists_forest n.kids fun b hb => by
    obtain ⟨m, hm, _⟩ := hkids b hb
    exact ⟨m, hm⟩
  have habove : ∀ x ∈ K, a < x := hw.linked.forest_above hK a fun b hb => by
    obtain ⟨m, hm, hp⟩ := hkids b hb
    exact hw.linked.older hm hp
  have hnodup : K.Nodup := hw.linked.forest_nodup hK (some a) (hw.linked.kid_once hn)
    fun b m hb hm => by
      obtain ⟨m', hm', hp⟩ := hkids b hb
      rw [hm] at hm'
      cases hm'
      exact hp
  refine ⟨K, hn, hK, List.nodup_cons.mpr ⟨fun ha => ?_, hnodup⟩, habove⟩
  exact absurd (habove a ha) (Nat.lt_irrefl a)

namespace Subtree

variable {h : Heap WatchNode} {a : Nat} {n : WatchNode} {K : List Nat}

/-- The subtree as a forest with one tree. -/
theorem forest (ht : Subtree h a n K) : NodeForest h [some a] (a :: K) := by
  have hf : NodeForest h [some a] (a :: K ++ []) := .tree ht.node ht.kids .nil
  simpa using hf

/-- A child of a record of the subtree is in the subtree. -/
theorem closed (ht : Subtree h a n K) (hl : NodesLinked h) {x y : Nat} (hx : x ∈ a :: K)
    (hxy : ParentOf WatchNode.parent h x y) : y ∈ a :: K := by
  obtain ⟨m, hm, hp⟩ := hxy
  obtain ⟨nx, hnx, hkid⟩ := hl.parent_live hm hp
  exact ht.forest.closed x hx nx y hnx hkid

/-- A record of the subtree other than its top has its parent in the subtree. -/
theorem parent_mem (ht : Subtree h a n K) (hl : NodesLinked h) {x : Nat} (hx : x ∈ a :: K)
    (hxa : x ≠ a) {m : WatchNode} {p : Nat} (hm : h.get x = some m) (hp : m.parent = some p) :
    p ∈ a :: K := by
  rcases ht.forest.mem_top_or_parent x hx with htop | ⟨y, hy, my, hmy, hkid⟩
  · exact absurd (by simpa using htop) hxa
  · obtain ⟨m', hm', hp'⟩ := hl.kid_live hmy hkid
    rw [hm] at hm'
    cases hm'
    rw [hp] at hp'
    cases hp'
    exact hy

/-- The parent of the top is not in the subtree. -/
theorem parent_not_mem (ht : Subtree h a n K) (hl : NodesLinked h) {p : Nat}
    (hp : n.parent = some p) : p ∉ a :: K := by
  have hpa : p < a := hl.older ht.node hp
  intro hmem
  rcases List.mem_cons.mp hmem with rfl | hmem
  · omega
  · have := ht.above p hmem
    omega

/-- A subtree has fewer nodes than addresses were ever used. -/
theorem length_le (ht : Subtree h a n K) : K.length < h.next := by
  have hsub : (a :: K) ⊆ List.range h.next := by
    intro x hx
    obtain ⟨m, hm⟩ := ht.forest.live x hx
    exact List.mem_range.mpr (Heap.lt_next hm)
  have hlen := (List.subperm_of_subset ht.nodup hsub).length_le
  simp only [List.length_cons, List.length_range] at hlen
  omega

end Subtree

/-- Any key that finds a node wraps to the slot of that node's descriptor. -/
theorem Slotted.wrap_of_get {t : Table} {h : Heap WatchNode} (hs : Slotted t h)
    {key : Int} {a : Nat} {n : WatchNode} (hget : t.get key = some a)
    (hn : h.get a = some n) : Table.wrap key t = Table.wrap n.wd t := by
  rw [Table.wrap_natCast]
  unfold Table.get at hget
  dsimp only at hget
  split at hget
  · contradiction
  · rename_i hneg
    obtain ⟨m, hm, hk⟩ := hs.of_slot hget
    rw [hn] at hm
    cases hm
    omega

/-- A descriptor without a node: {lit}`rm_watch` does nothing. -/
theorem rmWatch_run_none (os : Os σ δ) {s : State σ} {key : Int} (updateParent : Bool)
    (hget : s.watches.get key = none) : (rmWatch os key updateParent).run s = .ok ((), s) := by
  unfold rmWatch rmWatchAux
  rw [run_bind_of_run (a := s) (t := s) rfl,
    run_bind_of_run (a := none) (t := s) (by simp [tableGet, hget]; rfl)]
  rfl

/-- The common part of every successful {lit}`rm_watch`: up to the parent's pointer, the
call drops one whole subtree. -/
theorem rmWatch_run_some (os : Os σ δ) {s : State σ} (hw : WellLinked s.watches s.heap)
    {key : Int} {a : Nat} {n : WatchNode} {K : List Nat} (updateParent : Bool)
    (hget : s.watches.get key = some a) (ht : Subtree s.heap a n K) :
    (rmWatch os key updateParent).run s =
      .ok ((), if updateParent then prune os s n.parent a (a :: K)
        else dropAll os s (a :: K)) := by
  let s₁ : State σ := { s with os := (os (.inotifyRmWatch n.wd) s.os).2 }
  let s₂ : State σ := dropAll os s₁ K
  have hslots : SlotsOf s (a :: K) := hw.slotted.slotsOf ht.forest.live
  obtain ⟨m, hm, hslot⟩ := hslots a (by simp)
  rw [ht.node] at hm
  cases hm
  obtain ⟨haK, hKn⟩ := List.nodup_cons.mp ht.nodup
  have hloop : (rmKids (fun kidWd => rmWatchAux os s.heap.next kidWd false) a
      (List.range' 0 n.kids.length)).run s₁ = .ok ((), s₂) :=
    rmKids_run os ht.kids s.heap.next s₁ a n 0 ht.node rfl haK hKn
      (fun b _ => rfl) (fun b hb => hslots b (by simp [hb])) (Nat.le_of_lt ht.length_le)
  have hn₂ : s₂.heap.get a = some n := by
    rw [dropAll_heap_get, if_neg haK]
    exact ht.node
  have hput : s₂.watches.put key none = s₂.watches.put n.wd none := by
    have hwrap : Table.wrap key s₂.watches = Table.wrap n.wd s₂.watches :=
      hw.slotted.wrap_of_get hget ht.node
    unfold Table.put
    rw [hwrap]
  have hdone : { s₂ with heap := s₂.heap.free a, watches := (s₂.watches.put n.wd none).2 } =
      dropAll os s (a :: K) := dropAll_cons os ht.node hslot
  unfold rmWatch rmWatchAux
  rw [run_bind_of_run (a := s) (t := s) rfl,
    run_bind_of_run (a := some a) (t := s) (by simp [tableGet, hget]; rfl)]
  dsimp only
  rw [run_bind_of_run (deref_run ht.node),
    run_bind_of_run (a := (os (.inotifyRmWatch n.wd) s.os).1) (t := s₁) rfl,
    List.range_eq_range', run_bind_of_run hloop, run_bind_of_run (deref_run hn₂)]
  cases updateParent with
  | false =>
      rw [if_neg Bool.false_ne_true, if_neg Bool.false_ne_true, ← hdone, ← hput]
      rfl
  | true =>
      rw [if_pos rfl, if_pos rfl]
      cases hpar : n.parent with
      | none =>
          unfold prune forgetIn
          rw [← hdone, ← hput]
          rfl
      | some p =>
          have hpK := ht.parent_not_mem hw.linked hpar
          obtain ⟨np, hnp, _⟩ := hw.linked.parent_live ht.node hpar
          have hnp₂ : s₂.heap.get p = some np := by
            rw [dropAll_heap_get, if_neg fun h => hpK (List.mem_cons_of_mem _ h)]
            exact hnp
          unfold forgetKid
          dsimp only
          rw [run_bind_of_run (update_run _ hnp₂)]
          unfold prune forgetIn
          dsimp only
          rw [← hdone, ← hput]
          have hpa : p ≠ a := fun h => hpK (by simp [h])
          have hcomm : ∀ f : WatchNode → WatchNode,
              (s₂.heap.modify p f).free a = (s₂.heap.free a).modify p f := by
            intro f
            apply Heap.ext_get
            · intro b
              by_cases hba : b = a
              · subst hba
                simp [Ne.symm hpa]
              · by_cases hbp : b = p
                · subst hbp
                  simp [hpa]
                · simp [hba, hbp]
            · rfl
          rw [← hcomm]
          rfl

/-- Whether the path of the kid at {lit}`k` is a prefix of a path. -/
def kidMatches (h : Heap WatchNode) (path : Bytes) (k : Nat) : Bool :=
  (h.get k).any fun kid => kid.path.isPrefixOf path

/-- The kid at which the loop over the kids {lit}`is` of a node stops. -/
def matchingKid (h : Heap WatchNode) (kids : List (Option Nat)) (path : Bytes)
    (is : List Nat) : Option Nat :=
  is.findSome? fun i => (kids.getD i none).filter (kidMatches h path)

/-- The loop that drops a kid prunes the subtree of the first kid whose path is a prefix of
the event's path, if there is one. -/
theorem dropKid_run (os : Os σ δ) {s : State σ} (hw : WellLinked s.watches s.heap)
    {a : Nat} {n : WatchNode} (hn : s.heap.get a = some n) (path : Bytes) (is : List Nat) :
    ∃ s', (dropKid os a path is).run s = .ok ((), s') ∧
      ((matchingKid s.heap n.kids path is = none ∧ s' = s) ∨
        ∃ k m K, matchingKid s.heap n.kids path is = some k ∧ Subtree s.heap k m K ∧
          m.parent = some a ∧ s' = prune os s m.parent k (k :: K)) := by
  induction is with
  | nil => exact ⟨s, rfl, Or.inl ⟨rfl, rfl⟩⟩
  | cons i is ih =>
      unfold dropKid
      rw [run_bind_of_run (deref_run hn)]
      cases hkid : n.kids.getD i none with
      | none =>
          have hrest : matchingKid s.heap n.kids path (i :: is) =
              matchingKid s.heap n.kids path is := by
            unfold matchingKid
            rw [List.findSome?_cons, hkid]
            rfl
          rw [hrest]
          exact ih
      | some k =>
          have hi : n.kids[i]? = some (some k) := by
            rw [List.getD_eq_getElem?_getD] at hkid
            cases hget : n.kids[i]? with
            | none => simp [hget] at hkid
            | some o => simp [hget] at hkid; rw [hkid]
          obtain ⟨m, hm, hpar⟩ := hw.linked.kid_live hn (List.mem_of_getElem? hi)
          have hstop : matchingKid s.heap n.kids path (i :: is) =
              if m.path.isPrefixOf path = true then some k
              else matchingKid s.heap n.kids path is := by
            have hmatch : kidMatches s.heap path k = m.path.isPrefixOf path := by
              unfold kidMatches
              rw [hm]
              rfl
            unfold matchingKid
            rw [List.findSome?_cons, hkid]
            by_cases hpre : m.path.isPrefixOf path = true
            · simp [Option.filter, hmatch, hpre]
            · simp [Option.filter, hmatch, hpre]
          rw [hstop]
          dsimp only
          rw [run_bind_of_run (deref_run hm)]
          by_cases hpre : m.path.isPrefixOf path = true
          · obtain ⟨K, hK⟩ := hw.exists_subtree hm
            have haK : a ∉ k :: K := hK.parent_not_mem hw.linked hpar
            have hn' : (dropAll os s (k :: K)).heap.get a = some n := by
              rw [dropAll_heap_get, if_neg haK, hn]
            have hrm : (rmWatch os m.wd false).run s = .ok ((), dropAll os s (k :: K)) :=
              rmWatch_run_some os hw false (hw.slotted.get_of_node hm) hK
            rw [if_pos hpre, run_bind_of_run hrm, if_pos hpre]
            refine ⟨_, update_run _ hn', Or.inr ⟨k, m, K, rfl, hK, hpar, ?_⟩⟩
            have hset : n.kids.set i none = n.kids.replace (some k) none :=
              set_none_eq_replace (hw.linked.kid_once hn) hi
            have hheap : (dropAll os s (k :: K)).heap.modify a
                  (fun node => { node with kids := node.kids.set i none }) =
                forgetIn (dropAll os s (k :: K)).heap m.parent k := by
              rw [hpar]
              refine Heap.ext_get (fun b => ?_) rfl
              unfold forgetIn
              dsimp only
              rw [Heap.modify_get, Heap.modify_get, hn', Option.map_some, Option.map_some,
                hset]
            unfold prune
            dsimp only
            rw [← hheap]
          · rw [if_neg hpre, if_neg hpre]
            exact ih

/-! ## Pruning keeps the forest well formed -/

section Prune

variable {os : Os σ δ} {s : State σ} {a : Nat} {n : WatchNode} {K : List Nat}

/-- A surviving node is the old one, except that the parent of the pruned subtree has
lost one kid. -/
theorem prune_heap_get (parent : Option Nat) (L : List Nat) (b : Nat) :
    (prune os s parent a L).heap.get b =
      if b ∈ L then none
      else if parent = some b then
        (s.heap.get b).map fun node => { node with kids := node.kids.replace (some a) none }
      else s.heap.get b := by
  unfold prune forgetIn
  cases parent with
  | none => simp [dropAll_heap_get]
  | some p =>
      dsimp only
      rw [Heap.modify_get, dropAll_heap_get, dropAll_heap_get]
      by_cases hbp : b = p
      · subst hbp
        by_cases hbL : b ∈ L <;> simp [hbL]
      · have hpb : ¬ p = b := fun h => hbp h.symm
        simp [hbp, hpb]

/-- Descriptor, parent and path of a surviving node are the old ones, and so are its
kids but for the pruned one. -/
theorem prune_node {parent : Option Nat} {L : List Nat} {b : Nat} {m : WatchNode}
    (hm : (prune os s parent a L).heap.get b = some m) :
    b ∉ L ∧ ∃ m₀, s.heap.get b = some m₀ ∧ m.wd = m₀.wd ∧ m.parent = m₀.parent ∧
      m.path = m₀.path ∧
      m.kids = if parent = some b then m₀.kids.replace (some a) none else m₀.kids := by
  rw [prune_heap_get] at hm
  split at hm
  · contradiction
  · rename_i hbL
    refine ⟨hbL, ?_⟩
    split at hm
    · rename_i hpar
      obtain ⟨m₀, hm₀, rfl⟩ := Option.map_eq_some_iff.mp hm
      exact ⟨m₀, hm₀, rfl, rfl, rfl, by rw [if_pos hpar]⟩
    · rename_i hpar
      exact ⟨m, hm, rfl, rfl, rfl, by rw [if_neg hpar]⟩

/-- Nodes outside the pruned subtree survive. -/
theorem prune_survives (os : Os σ δ) (a : Nat) (parent : Option Nat) {L : List Nat} {b : Nat}
    {m₀ : WatchNode} (hm₀ : s.heap.get b = some m₀) (hbL : b ∉ L) :
    ∃ m, (prune os s parent a L).heap.get b = some m ∧ m.wd = m₀.wd ∧ m.parent = m₀.parent ∧
      m.path = m₀.path ∧
      m.kids = if parent = some b then m₀.kids.replace (some a) none else m₀.kids := by
  rw [prune_heap_get, if_neg hbL, hm₀]
  split
  · exact ⟨_, rfl, rfl, rfl, rfl, rfl⟩
  · exact ⟨m₀, rfl, rfl, rfl, rfl, rfl⟩

theorem prune_watches_data (parent : Option Nat) (L : List Nat) (k : Nat) :
    (prune os s parent a L).watches.data k = (s.watches.data k).filter fun x => x ∉ L :=
  rfl

@[simp]
theorem prune_capacity (parent : Option Nat) (L : List Nat) :
    (prune os s parent a L).watches.capacity = s.watches.capacity :=
  rfl

/-- Pruning a whole subtree keeps kid and parent pointers in agreement. -/
theorem Subtree.prune_linked (ht : Subtree s.heap a n K) (hl : NodesLinked s.heap) :
    NodesLinked (prune os s n.parent a (a :: K)).heap := by
  constructor
  · -- a listed kid is not the pruned node, so its parent being outside it is outside
    intro x m b hm hb
    obtain ⟨hxL, m₀, hm₀, -, -, -, hkids⟩ := prune_node hm
    have hb₀ : some b ∈ m₀.kids ∧ (n.parent = some x → b ≠ a) := by
      rw [hkids] at hb
      split at hb
      · have := (mem_replace_none (hl.kid_once hm₀)).mp hb
        exact ⟨this.2, fun _ => this.1⟩
      · rename_i hne
        exact ⟨hb, fun h => absurd h hne⟩
    obtain ⟨mb, hmb, hpar⟩ := hl.kid_live hm₀ hb₀.1
    have hbL : b ∉ a :: K := by
      intro hbL
      by_cases hba : b = a
      · subst hba
        rw [ht.node] at hmb
        cases hmb
        exact hb₀.2 hpar rfl
      · exact hxL (ht.parent_mem hl hbL hba hmb hpar)
    obtain ⟨mb', hmb', -, hp', -, -⟩ := prune_survives os a n.parent hmb hbL
    exact ⟨mb', hmb', hp'.trans hpar⟩
  · intro b m x hm hp
    obtain ⟨hbL, m₀, hm₀, -, hp₀, -, -⟩ := prune_node hm
    rw [hp] at hp₀
    obtain ⟨mx, hmx, hkid⟩ := hl.parent_live hm₀ hp₀.symm
    have hxL : x ∉ a :: K := fun hx => hbL (ht.closed hl hx ⟨m₀, hm₀, hp₀.symm⟩)
    obtain ⟨mx', hmx', -, -, -, hkids⟩ := prune_survives os a n.parent hmx hxL
    refine ⟨mx', hmx', ?_⟩
    rw [hkids]
    split
    · have hba : b ≠ a := fun h => hbL (by simp [h])
      exact (mem_replace_none (hl.kid_once hmx)).mpr ⟨hba, hkid⟩
    · exact hkid
  · intro x m hm
    obtain ⟨-, m₀, hm₀, -, -, -, hkids⟩ := prune_node hm
    rw [hkids]
    split
    · rw [reduceOption_replace]
      exact (hl.kid_once hm₀).erase a
    · exact hl.kid_once hm₀
  · intro b m x hm hp
    obtain ⟨-, m₀, hm₀, -, hp₀, -, -⟩ := prune_node hm
    exact hl.older hm₀ (hp₀.symm.trans hp)

/-- Pruning a whole subtree keeps the table in step with the heap. -/
theorem Subtree.prune_slotted (hs : Slotted s.watches s.heap) (parent : Option Nat)
    (L : List Nat) :
    Slotted (prune os s parent a L).watches (prune os s parent a L).heap := by
  constructor
  · intro b m hm
    obtain ⟨hbL, m₀, hm₀, hwd, -, -, -⟩ := prune_node hm
    rw [prune_watches_data, prune_capacity, hwd, hs.of_node hm₀]
    simp [Option.filter, hbL]
  · intro k b hb
    rw [prune_watches_data] at hb
    obtain ⟨hk, hbL⟩ := Option.filter_eq_some_iff.mp hb
    obtain ⟨m₀, hm₀, hslot⟩ := hs.of_slot hk
    obtain ⟨m, hm, hwd, -⟩ := prune_survives os a parent hm₀ (of_decide_eq_true hbL)
    exact ⟨m, hm, by rw [hwd]; exact hslot⟩

/-- Pruning a whole subtree keeps the forest well formed. -/
theorem WellLinked.prune (hw : WellLinked s.watches s.heap) (ht : Subtree s.heap a n K) :
    WellLinked (prune os s n.parent a (a :: K)).watches
      (FsNotifier.prune os s n.parent a (a :: K)).heap :=
  ⟨ht.prune_linked hw.linked, Subtree.prune_slotted hw.slotted n.parent (a :: K)⟩

end Prune

end FsNotifier
end IdeMultiarch
