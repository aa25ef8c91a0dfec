import IdeMultiarch.FsNotifier.Settled

/-!
# fsnotifier - changes of the table in a changing world

What {lit}`rm_watch` and {lit}`add_watch` do to the nodes, next to directories that were moved.

Main results:

- Theorem {lit}`Settled.prune`: the removal of a subtree leaves all moved directories doomed.
- Theorem {lit}`Settled.addNode`: so does a new node.
-/

namespace IdeMultiarch
namespace FsNotifier

open Library

/-! ## Removing a subtree -/

section Prune

variable {script : Nat → Turn} {roots : List Bytes} {stage : Stage} {rest : List KernelEvent}
  {capacity : Nat} {s : State World} {a : Nat} {n : WatchNode} {K : List Nat}

/-- Steps to kids outside of a pruned subtree are left. -/
theorem steps_prune {os : Os World DirStream} (hw : WellLinked s.watches s.heap)
    (ht : Subtree s.heap a n K) {b c : Nat} (hc : c ∉ a :: K)
    (hsteps : Relation.ReflTransGen (KidOf s.heap) b c) :
    Relation.ReflTransGen (KidOf (prune os s n.parent a (a :: K)).heap) b c := by
  induction hsteps with
  | refl => exact .refl
  | @tail x y _ hstep ih =>
      obtain ⟨m, hm, hkid⟩ := hstep
      have hx : x ∉ a :: K := fun hx => hc (ht.forest.closed x hx m y hm hkid)
      obtain ⟨m', hm', -, -, -, hkids⟩ := prune_survives os a n.parent hm hx
      refine (ih hx).tail ⟨m', hm', ?_⟩
      rw [hkids]
      split
      · have hya : y ≠ a := fun h => hc (h ▸ List.mem_cons_self)
        exact (mem_replace_none (hw.linked.kid_once hm)).mpr ⟨hya, hkid⟩
      · exact hkid

/-- A doomed node outside of a pruned subtree stays doomed. -/
theorem Doomed.prune {os : Os World DirStream} (hw : WellLinked s.watches s.heap)
    (ht : Subtree s.heap a n K) {b : Nat} (hb : b ∉ a :: K) {pending : List KernelEvent}
    {place : Bytes} (hd : Doomed s.heap pending b place) :
    Doomed (prune os s n.parent a (a :: K)).heap pending b place := by
  obtain ⟨before, e, after, hpending, hfrom, hdrops, hbefore⟩ := hd
  obtain ⟨x, m, name, c, hm, hwd, hname, hfirst, hsteps⟩ := hdrops
  have hc : c ∉ a :: K := by
    intro hc
    have hreach := ((ht.mem_iff hw.linked c).mp hc).trans hsteps
    exact hb ((ht.mem_iff hw.linked b).mpr hreach)
  obtain ⟨i, hi, hmatch, -⟩ := matchingKid_range_eq_some hfirst
  have hkid : some c ∈ m.kids := List.mem_of_getElem? hi
  have hx : x ∉ a :: K := fun hx => hc (ht.forest.closed x hx m c hm hkid)
  obtain ⟨m', hm', hwd', -, hpath', hkids'⟩ := prune_survives os a n.parent hm hx
  obtain ⟨mc, hmc, -⟩ := hw.linked.kid_live hm hkid
  obtain ⟨mc', hmc', -, -, hcpath, -⟩ := prune_survives os a n.parent hmc hc
  refine ⟨before, e, after, hpending, hfrom, ?_, ?_⟩
  · refine ⟨x, m', name, c, hm', hwd'.trans hwd, hname, ?_, steps_prune hw ht hb hsteps⟩
    rw [hpath']
    refine matchingKid_forget hfirst ?_ (fun h => hc (h ▸ List.mem_cons_self)) ?_ ?_
    · rw [hkids']
      split
      · exact Or.inr rfl
      · exact Or.inl rfl
    · rw [kidMatches_iff hmc', hcpath]
      exact (kidMatches_iff hmc).mp hmatch
    · intro y hy
      unfold kidMatches at hy
      obtain ⟨my, hmy, hfront⟩ := (Option.any_eq_true _ _).mp hy
      obtain ⟨-, my₀, hmy₀, -, -, hpath₀, -⟩ := prune_node hmy
      rw [kidMatches_iff hmy₀, ← hpath₀]
      exact List.isPrefixOf_iff_prefix.mp hfront
  · rintro e' he' y path ⟨harrival, my, name', hmy, hywd, hyname, rfl⟩
    obtain ⟨-, my₀, hmy₀, hwd₀, -, hpath₀, -⟩ := prune_node hmy
    refine hbefore e' he' y _ ⟨harrival, my₀, name', hmy₀, hwd₀.symm.trans hywd, hyname, ?_⟩
    rw [hpath₀]

/-- The paths below a node are below its path. -/
theorem Shape.below {h : Heap WatchNode} (hs : Shape roots h) (hl : NodesLinked h) {b c : Nat}
    (hsteps : Relation.ReflTransGen (KidOf h) b c) {m k : WatchNode} (hm : h.get b = some m)
    (hk : h.get c = some k) : isParentPath m.path k.path = true := by
  induction hsteps generalizing k with
  | refl =>
      rw [hm] at hk
      cases hk
      exact isParentPath_refl _
  | @tail x y _ hstep ih =>
      obtain ⟨p, hp, hkid⟩ := hstep
      obtain ⟨k', hk', hpar⟩ := hl.kid_live hp hkid
      rw [hk] at hk'
      cases hk'
      obtain ⟨name, -, hentry⟩ := hs.entry y k x p hk hpar hp
      rw [hentry]
      exact isParentPath_entry name (ih hp)

/-- An event that led a walk above a pruned subtree still does. -/
theorem Leads.prune {os : Os World DirStream} {e : KernelEvent} {x : Nat} {top : Bytes}
    (hleads : Leads s.heap e x top) (hw : WellLinked s.watches s.heap) (hs : Shape roots s.heap)
    (ht : Subtree s.heap a n K) (htop : isParentPath top n.path = true) :
    Leads (FsNotifier.prune os s n.parent a (a :: K)).heap e x top := by
  obtain ⟨harrival, m, name, hm, hwd, hname, hpath⟩ := hleads
  -- the node of the event lies above the walk
  have hx : x ∉ a :: K := by
    intro hx
    have hbelow := hs.below hw.linked ((ht.mem_iff hw.linked x).mp hx) ht.node hm
    have htop' := isParentPath_trans htop hbelow
    rw [hpath] at htop'
    rcases (isParentPath_iff _ _).mp htop' with heq | ⟨more, heq⟩
    · have hlen := congrArg List.length heq
      simp at hlen
    · have hlen := congrArg List.length heq
      simp at hlen
  obtain ⟨m', hm', hwd', -, hpath', -⟩ := prune_survives os a n.parent hm hx
  refine ⟨harrival, m', name, hm', hwd'.trans hwd, hname, ?_⟩
  rw [hpath']
  exact hpath

namespace Settled

/-- The nodes of a subtree go before their descriptors are given back.  Events may be done with
that doomed no other node. -/
theorem cut (os : Os World DirStream) (h : Settled roots stage rest [] s)
    (ht : Subtree s.heap a n K)
    (htop : ∀ x top, stage = .walking x top → isParentPath top n.path = true)
    {front rest' : List KernelEvent} (hrest : rest = front ++ rest')
    (hdoomed : ∀ b, b ∉ a :: K → ∀ place, Doomed s.heap (rest ++ s.os.queue) b place →
      Doomed s.heap (rest' ++ s.os.queue) b place) :
    Settled roots stage rest' (wdsOf s.heap (a :: K))
      { prune os s n.parent a (a :: K) with os := s.os } := by
  have hpending : ∀ e ∈ rest' ++ s.os.queue, e ∈ rest ++ s.os.queue := by
    intro e he
    rw [hrest, List.append_assoc]
    exact List.mem_append_right _ he
  have hslot : ∀ wd, OwnSlot s wd →
      OwnSlot { FsNotifier.prune os s n.parent a (a :: K) with os := s.os } wd := by
    intro wd hown b m hm hslot
    obtain ⟨-, m₀, hm₀, hwd, -⟩ := prune_node hm
    rw [hwd] at hslot ⊢
    exact hown b m₀ hm₀ hslot
  have hshape := h.shape.of_old fun b m (hm : (FsNotifier.prune os s n.parent a
      (a :: K)).heap.get b = some m) => by
    obtain ⟨-, m₀, hm₀, -, hpar, hpath, -⟩ := prune_node hm
    exact ⟨m₀, hm₀, hpar, hpath⟩
  refine ⟨h.tree, h.inode_lt, h.wellLinked.prune ht, hshape, ?_, ?_, h.held_lt, ?_,
    fun e he => h.event_lt e (hpending e he), fun e he => h.event_named e (hpending e he),
    fun e he => hslot _ (h.event_slot e (hpending e he)), fun k hk => hslot _ (h.watch_slot k hk),
    h.fits.mono rfl hrest fun x top e hstage hleads =>
      hleads.prune h.wellLinked h.shape ht (htop x top hstage), h.calm⟩
  · intro b m hm
    obtain ⟨-, m₀, hm₀, hwd, -, hpath, -⟩ := prune_node hm
    rw [hwd, hpath]
    exact h.node_held b m₀ hm₀
  · intro held hmem
    rcases h.held_node held hmem with hdead | ⟨b, m, hm, hwd, hpath⟩
    · simp at hdead
    · by_cases hb : b ∈ a :: K
      · left
        rw [← hwd]
        exact List.mem_filterMap.mpr ⟨b, hb, by rw [hm]; rfl⟩
      · obtain ⟨m', hm', hwd', -, hpath', -⟩ := prune_survives os a n.parent hm hb
        exact Or.inr ⟨b, m', hm', hwd'.trans hwd, hpath'.trans hpath⟩
  · intro k hk d hd hinode b m hm hwd
    obtain ⟨hb, m₀, hm₀, hwd₀, -, hpath₀, -⟩ := prune_node hm
    rw [hpath₀]
    rcases h.placed k hk d hd hinode b m₀ hm₀ (hwd₀.symm.trans hwd) with hpath | ⟨havoids, hd⟩
    · exact Or.inl hpath
    · exact Or.inr ⟨havoids, (hdoomed b hb _ hd).prune h.wellLinked ht hb⟩

/-- Removing a subtree. -/
theorem prune (hscript : SparesRoots roots script) (h : Settled roots stage rest [] s)
    (ht : Subtree s.heap a n K)
    (htop : ∀ x top, stage = .walking x top → isParentPath top n.path = true)
    {front rest' : List KernelEvent} (hrest : rest = front ++ rest')
    (hdoomed : ∀ b, b ∉ a :: K → ∀ place, Doomed s.heap (rest ++ s.os.queue) b place →
      Doomed s.heap (rest' ++ s.os.queue) b place)
    (hcareful : Careful capacity (FsNotifier.prune (worldOs script) s n.parent a (a :: K)).os) :
    Settled roots stage rest' [] (FsNotifier.prune (worldOs script) s n.parent a (a :: K)) := by
  have hcut := h.cut (worldOs script) ht htop hrest hdoomed
  refine hcut.rmCalls hscript ?_ hcareful
  intro b m hm
  obtain ⟨hb, m₀, hm₀, hwd, -⟩ := prune_node hm
  rw [hwd]
  exact h.wellLinked.slotted.wd_not_mem hm₀ hb

end Settled

end Prune

/-! ## Adding a watch -/

section Add

variable {script : Nat → Turn} {roots : List Bytes} {stage : Stage} {rest : List KernelEvent}
  {capacity : Nat} {s : State World}

/-- A doomed node stays doomed when a node is added that no pending event is about. -/
theorem Doomed.addNode {t : State World} (hl : NodesLinked t.heap) {parent : Option Nat}
    (hp : ParentLive t.heap parent) {wd : Nat} {path : Bytes} {pending : List KernelEvent}
    (hwd : ∀ e ∈ pending, e.wd ≠ wd) {b : Nat} {place : Bytes}
    (hd : Doomed t.heap pending b place) :
    Doomed (FsNotifier.addNode t wd parent path).heap pending b place := by
  obtain ⟨before, e, after, hpending, hfrom, hdrops, hbefore⟩ := hd
  obtain ⟨x, m, name, c, hm, hmwd, hname, hfirst, hsteps⟩ := hdrops
  have hold : ∀ y k, t.heap.get y = some k → ∀ path', kidMatches
      (FsNotifier.addNode t wd parent path).heap path' y = kidMatches t.heap path' y := by
    intro y k hk path'
    obtain ⟨k', hk', -, -, hkpath, -⟩ := addNode_survives wd path hp hk
    rw [Bool.eq_iff_iff, kidMatches_iff hk', kidMatches_iff hk, hkpath]
  refine ⟨before, e, after, hpending, hfrom, ?_, ?_⟩
  · obtain ⟨m', hm', hmwd', -, hmpath, hkids⟩ := addNode_survives wd path hp hm
    refine ⟨x, m', name, c, hm', hmwd'.trans hmwd, hname, ?_, ?_⟩
    · have hsame : ∀ b, some b ∈ m.kids → kidMatches (FsNotifier.addNode t wd parent path).heap
          (m.path ++ slash :: name) b = kidMatches t.heap (m.path ++ slash :: name) b := by
        intro b hb
        obtain ⟨k, hk, -⟩ := hl.kid_live hm hb
        exact hold b k hk _
      rw [hmpath, hkids]
      split
      · exact matchingKid_append hfirst hsame _
      · have hmore := matchingKid_append hfirst hsame []
        rw [List.append_nil] at hmore
        exact hmore
    · refine hsteps.lift id fun y z hstep => ?_
      obtain ⟨k, hk, hkid⟩ := hstep
      obtain ⟨k', hk', -, -, -, hkids'⟩ := addNode_survives wd path hp hk
      refine ⟨k', hk', ?_⟩
      rw [hkids']
      split
      · exact List.mem_append_left _ hkid
      · exact hkid
  · rintro e' he' y path' ⟨harrival, k, name', hk, hkwd, hkname, rfl⟩
    have hmem : e' ∈ pending := by
      rw [hpending]
      exact List.mem_append_left _ he'
    rcases addNode_node hp hk with ⟨-, rfl⟩ | ⟨-, k₀, hk₀, hwd₀, -, hpath₀, -⟩
    · exact absurd hkwd.symm (hwd e' hmem)
    · refine hbefore e' he' y _ ⟨harrival, k₀, name', hk₀, hwd₀.symm.trans hkwd, hkname, ?_⟩
      rw [hpath₀]

/-- The nodes after one was added. -/
theorem addNode_cases {t : State World} {wd : Nat} {parent : Option Nat} {path : Bytes}
    (hp : ParentLive t.heap parent) {b : Nat} {m : WatchNode}
    (hm : (addNode t wd parent path).heap.get b = some m) :
    (b = t.heap.next ∧ m = ⟨wd, parent, [], path⟩) ∨ ∃ m₀, t.heap.get b = some m₀ ∧
      m.wd = m₀.wd ∧ m.parent = m₀.parent ∧ m.path = m₀.path := by
  rcases addNode_node hp hm with hnew | ⟨-, m₀, hm₀, hwd, hpar, hpath, -⟩
  · exact Or.inl hnew
  · exact Or.inr ⟨m₀, hm₀, hwd, hpar, hpath⟩

/-- A node in the place of a root, or of an entry of its parent's directory, keeps the shape. -/
theorem Shape.addNode {t : State World} (hs : Shape roots t.heap) {wd : Nat} {parent : Option Nat}
    {path : Bytes} (hp : ParentLive t.heap parent)
    (hl : NodesLinked (FsNotifier.addNode t wd parent path).heap)
    (hspelled : ∃ p, ValidPath p ∧ path = render p)
    (hentry : ∀ b m, parent = some b → t.heap.get b = some m →
      ∃ name, validName name = true ∧ path = m.path ++ slash :: name)
    (htop : parent = none → ∃ root ∈ roots, path = rootPath root) :
    Shape roots (FsNotifier.addNode t wd parent path).heap := by
  refine ⟨fun b m hm => ?_, fun b m c k hm hpar hk => ?_, fun b m hm hpar => ?_⟩
  · rcases addNode_cases hp hm with ⟨-, rfl⟩ | ⟨m₀, hm₀, -, -, hpath⟩
    · exact hspelled
    · rw [hpath]
      exact hs.spelled b m₀ hm₀
  · rcases addNode_cases hp hk with ⟨hc, -⟩ | ⟨k₀, hk₀, -, -, hkpath⟩
    · -- the new node has no kids
      have hold := hl.older hm hpar
      rcases addNode_cases hp hm with ⟨hb, -⟩ | ⟨m₀, hm₀, -⟩
      · omega
      · have hlt := Heap.lt_next hm₀
        omega
    · rw [hkpath]
      rcases addNode_cases hp hm with ⟨-, rfl⟩ | ⟨m₀, hm₀, -, hpar₀, hpath⟩
      · exact hentry c k₀ hpar hk₀
      · rw [hpath]
        exact hs.entry b m₀ c k₀ hm₀ (hpar₀.symm.trans hpar) hk₀
  · rcases addNode_cases hp hm with ⟨-, rfl⟩ | ⟨m₀, hm₀, -, hpar₀, hpath⟩
    · exact htop hpar
    · rw [hpath]
      exact hs.top b m₀ hm₀ (hpar₀.symm.trans hpar)

/-- A new node takes no other one's events away. -/
theorem Leads.addNode {t : State World} {wd : Nat} {parent : Option Nat} {path : Bytes}
    (hp : ParentLive t.heap parent) {e : KernelEvent} {x : Nat} {top : Bytes}
    (hleads : Leads t.heap e x top) :
    Leads (FsNotifier.addNode t wd parent path).heap e x top := by
  obtain ⟨harrival, m, name, hm, hmwd, hname, hpath⟩ := hleads
  obtain ⟨m', hm', hwd', -, hpath', -⟩ := addNode_survives wd path hp hm
  refine ⟨harrival, m', name, hm', hwd'.trans hmwd, hname, ?_⟩
  rw [hpath']
  exact hpath

namespace Settled

/-- A refused call. -/
theorem refused (h : Settled roots stage rest [] s) (path : Bytes) (e : Errno) :
    Settled roots stage rest [] { s with os := (s.os.answerAdd path (.error e)).2 } := by
  refine ⟨h.tree.of_same rfl rfl rfl rfl, h.inode_lt, h.wellLinked, h.shape, h.node_held,
    h.held_node, h.held_lt, h.placed, h.event_lt, h.event_named, h.event_slot, h.watch_slot, h.fits,
    ?_⟩
  intro call hcall
  rcases List.mem_append.mp hcall with hcall | hcall
  · exact h.calm call hcall
  · rw [List.mem_singleton.mp hcall]
    rfl

/-- The descriptor of a node is handed out again, for the same path. -/
theorem answered (h : Settled roots stage rest [] s) {b : Nat} {m : WatchNode}
    (hm : s.heap.get b = some m) :
    Settled roots stage rest [] { s with os := (s.os.answerAdd m.path (.ok m.wd)).2 } := by
  refine ⟨h.tree.of_same rfl rfl rfl rfl, h.inode_lt, h.wellLinked, h.shape,
    fun a n hn => List.mem_cons_of_mem _ (h.node_held a n hn), ?_, ?_, h.placed, h.event_lt,
    h.event_named, h.event_slot, h.watch_slot, h.fits, ?_⟩
  · intro held hmem
    rcases List.mem_cons.mp hmem with rfl | hmem
    · exact Or.inr ⟨b, m, hm, rfl, rfl⟩
    · exact h.held_node held hmem
  · intro held hmem
    rcases List.mem_cons.mp hmem with rfl | hmem
    · exact h.held_lt _ (h.node_held b m hm)
    · exact h.held_lt held hmem
  · intro call hcall
    rcases List.mem_append.mp hcall with hcall | hcall
    · exact h.calm call hcall
    · rw [List.mem_singleton.mp hcall]
      unfold AddCall.moved
      dsimp only
      rw [List.any_eq_false]
      intro held hmem
      simp only [decide_eq_true_eq, not_and, not_not]
      rintro hwd
      exact h.path_unique hm (by simp) (by rw [← hwd]; exact hmem)

/-- A descriptor that was never handed out gets a new node, for the directory that is at its
path. -/
theorem addNode (h : Settled roots stage rest [] s) {wd : Nat} {parent : Option Nat}
    {path : Bytes} (hp : ParentLive s.heap parent) (hfree : s.watches.get wd = none)
    (hlt : wd < s.os.nextWd) (hheld : ∀ held ∈ s.os.held, held.1 ≠ wd)
    (hevents : ∀ e ∈ rest ++ s.os.queue,
      e.wd % s.watches.capacity ≠ wd % s.watches.capacity)
    (hwatches : ∀ k ∈ s.os.watches,
      k.wd % s.watches.capacity = wd % s.watches.capacity → k.wd = wd)
    (hspelled : ∃ p, ValidPath p ∧ path = render p)
    (hentry : ∀ b m, parent = some b → s.heap.get b = some m →
      ∃ name, validName name = true ∧ path = m.path ++ slash :: name)
    (htop : parent = none → ∃ root ∈ roots, path = rootPath root)
    (hplaced : ∀ k ∈ s.os.watches, k.wd = wd → ∀ d ∈ s.os.dirs, d.inode = k.inode →
      path = render d.path) :
    Settled roots stage rest [] (FsNotifier.addNode
      { s with os := (s.os.answerAdd path (.ok wd)).2 } wd parent path) := by
  let t : State World := { s with os := (s.os.answerAdd path (.ok wd)).2 }
  have hp' : ParentLive t.heap parent := hp
  have hw : WellLinked t.watches t.heap := h.wellLinked
  have hw' : WellLinked (FsNotifier.addNode t wd parent path).watches
      (FsNotifier.addNode t wd parent path).heap := hw.addNode hp' hfree
  have hnode : ∀ {b m}, (FsNotifier.addNode t wd parent path).heap.get b = some m →
      (b = s.heap.next ∧ m = ⟨wd, parent, [], path⟩) ∨ ∃ m₀, s.heap.get b = some m₀ ∧
        m.wd = m₀.wd ∧ m.parent = m₀.parent ∧ m.path = m₀.path :=
    addNode_cases hp'
  refine ⟨h.tree.of_same rfl rfl rfl rfl, h.inode_lt, hw',
    Shape.addNode h.shape hp' hw'.linked hspelled hentry htop, ?_, ?_, ?_, ?_,
    h.event_lt, h.event_named, ?_, ?_, h.fits.mono rfl (List.nil_append rest).symm fun _ _ _ _ hleads =>
      Leads.addNode hp' hleads, ?_⟩
  · intro b m hm
    rcases hnode hm with ⟨-, rfl⟩ | ⟨m₀, hm₀, hwd, -, hpath⟩
    · exact List.mem_cons_self
    · rw [hwd, hpath]
      exact List.mem_cons_of_mem _ (h.node_held b m₀ hm₀)
  · intro held hmem
    rcases List.mem_cons.mp hmem with rfl | hmem
    · exact Or.inr ⟨s.heap.next, _, addNode_new (s := t) hp', rfl, rfl⟩
    · rcases h.held_node held hmem with hdead | ⟨b, m, hm, hwd, hpath⟩
      · exact Or.inl hdead
      · obtain ⟨m', hm', hwd', -, hpath', -⟩ := addNode_survives (s := t) wd path hp' hm
        exact Or.inr ⟨b, m', hm', hwd'.trans hwd, hpath'.trans hpath⟩
  · intro held hmem
    rcases List.mem_cons.mp hmem with rfl | hmem
    · exact hlt
    · exact h.held_lt held hmem
  · intro k hk d hd hinode b m hm hwd
    rcases hnode hm with ⟨-, rfl⟩ | ⟨m₀, hm₀, hwd₀, -, hpath⟩
    · exact Or.inl (hplaced k hk hwd.symm d hd hinode)
    · rw [hpath]
      rcases h.placed k hk d hd hinode b m₀ hm₀ (hwd₀.symm.trans hwd) with hpath | ⟨havoids, hd⟩
      · exact Or.inl hpath
      · refine Or.inr ⟨havoids, Doomed.addNode (t := t) hw.linked hp' (fun e he heq => ?_) hd⟩
        exact hevents e he (by rw [heq])
  · intro e he b m hm hslot
    rcases hnode hm with ⟨-, rfl⟩ | ⟨m₀, hm₀, hwd₀, -⟩
    · exact absurd hslot.symm (hevents e he)
    · rw [hwd₀] at hslot ⊢
      exact h.event_slot e he b m₀ hm₀ hslot
  · intro k hk b m hm hslot
    rcases hnode hm with ⟨-, rfl⟩ | ⟨m₀, hm₀, hwd₀, -⟩
    · exact (hwatches k hk hslot.symm).symm
    · rw [hwd₀] at hslot ⊢
      exact h.watch_slot k hk b m₀ hm₀ hslot
  · intro call hcall
    rcases List.mem_append.mp hcall with hcall | hcall
    · exact h.calm call hcall
    · rw [List.mem_singleton.mp hcall]
      unfold AddCall.moved
      dsimp only
      rw [List.any_eq_false]
      intro held hmem
      simp only [decide_eq_true_eq, not_and, not_not]
      exact fun hwd => absurd hwd (hheld held hmem)

/-- A new watch is that of no node. -/
theorem watch (h : Settled roots stage rest [] s) {inode : Nat}
    (hno : ∀ k ∈ s.os.watches, k.inode ≠ inode) (hinode : inode < s.os.nextInode)
    (hslot : OwnSlot s s.os.nextWd) (listed : Nat → List Bytes) :
    Settled roots stage rest [] { s with os := { s.os with
      watches := s.os.watches ++ [⟨s.os.nextWd, inode⟩]
      listed := listed
      nextWd := s.os.nextWd + 1 } } := by
  refine ⟨(h.tree.watch hno).of_same rfl rfl rfl rfl, ?_, h.wellLinked, h.shape, h.node_held,
    h.held_node, fun held hmem => Nat.lt_succ_of_lt (h.held_lt held hmem), ?_,
    fun e he => Nat.lt_succ_of_lt (h.event_lt e he), h.event_named, h.event_slot, ?_, h.fits,
    h.calm⟩
  · intro k hk
    rcases List.mem_append.mp hk with hk | hk
    · exact h.inode_lt k hk
    · rw [List.mem_singleton.mp hk]
      exact hinode
  · intro k hk d hd hkd a n hn hwd
    rcases List.mem_append.mp hk with hk | hk
    · exact h.placed k hk d hd hkd a n hn hwd
    · rw [List.mem_singleton.mp hk] at hwd
      exact absurd hwd (Nat.ne_of_lt (h.held_lt _ (h.node_held a n hn)))
  · intro k hk
    rcases List.mem_append.mp hk with hk | hk
    · exact h.watch_slot k hk
    · rw [List.mem_singleton.mp hk]
      exact hslot

end Settled

end Add

end FsNotifier
end IdeMultiarch
