import IdeMultiarch.FsNotifier.Scope
import IdeMultiarch.FsNotifier.SettledTable

/-!
# fsnotifier - renames while the notifier runs

A walk meets a directory that the table has under another path only if other processes have moved
that directory to a place where the walk comes before the event about the move is processed.  As
long as all changes are harmless, no walk does.

Main results:

- Theorem {lit}`wp_walkTree_settled`: a walk meets no directory that was moved.
- Theorem {lit}`wp_processEvents_settled`: after the last event of a buffer everything is settled.
- Theorem {lit}`processInotifyInput_goes_on`: where all changes are harmless the main loop goes on.
-/

namespace IdeMultiarch
namespace FsNotifier

open Library

/-- The roots are absolute paths in normal form, and other processes do not rename them. -/
structure Registrable (script : Nat → Turn) (roots : List Bytes) : Prop where
  spelled : ∀ root ∈ roots, ∃ path, ValidPath path ∧ rootPath root = render path
  spared : SparesRoots roots script

/-- Everything is settled, as long as all changes are harmless and no descriptors clash. -/
def StaysSettled (roots : List Bytes) (capacity : Nat) (stage : Stage) (rest : List KernelEvent)
    (s : State World) : Prop :=
  Careful capacity s.os → Settled roots stage rest [] s

/-! ## Kinds of events -/

namespace KernelEvent

variable {e : KernelEvent}

/-- The event is about a directory that goes. -/
def Departure (e : KernelEvent) : Prop :=
  e.happening = .deleted ∨ e.happening = .movedFrom

theorem Arrival.mask (h : e.Arrival) : anyBit e.toInotify.mask IN_ISDIR = true ∧
    anyBit e.toInotify.mask (IN_CREATE ||| IN_MOVED_TO) = true ∧
    anyBit e.toInotify.mask (IN_DELETE ||| IN_MOVED_FROM) = false ∧
    anyBit e.toInotify.mask (IN_DELETE_SELF ||| IN_MOVE_SELF) = false := by
  have hmask : e.toInotify.mask = e.happening.mask := rfl
  rw [hmask]
  rcases h with hcreated | hmoved
  · rw [hcreated]
    decide
  · rw [hmoved]
    decide

theorem Departure.mask (h : e.Departure) : anyBit e.toInotify.mask IN_ISDIR = true ∧
    anyBit e.toInotify.mask (IN_CREATE ||| IN_MOVED_TO) = false ∧
    anyBit e.toInotify.mask (IN_DELETE ||| IN_MOVED_FROM) = true ∧
    anyBit e.toInotify.mask (IN_DELETE_SELF ||| IN_MOVE_SELF) = false := by
  have hmask : e.toInotify.mask = e.happening.mask := rfl
  rw [hmask]
  rcases h with hdeleted | hmoved
  · rw [hdeleted]
    decide
  · rw [hmoved]
    decide

/-- All other events are about the watched directory itself. -/
theorem mask_of_self (harrival : ¬ e.Arrival) (hdeparture : ¬ e.Departure) :
    anyBit e.toInotify.mask IN_ISDIR = false := by
  have hmask : e.toInotify.mask = e.happening.mask := rfl
  rw [hmask]
  cases h : e.happening with
  | created => exact absurd (Or.inl h) harrival
  | movedTo => exact absurd (Or.inr h) harrival
  | deleted => exact absurd (Or.inl h) hdeparture
  | movedFrom => exact absurd (Or.inr h) hdeparture
  | deleteSelf => decide
  | moveSelf => decide
  | ignored => decide

/-- Moving a directory away is no event that the notifier skips. -/
theorem mask_of_movedFrom (h : e.happening = .movedFrom) :
    anyBit e.toInotify.mask IN_IGNORED = false ∧ anyBit e.toInotify.mask IN_Q_OVERFLOW = false := by
  have hmask : e.toInotify.mask = e.happening.mask := rfl
  rw [hmask, h]
  decide

end KernelEvent

section Runs

variable {script : Nat → Turn} {roots : List Bytes} {capacity : Nat} {stage : Stage}
  {rest : List KernelEvent} {s : State World}

/-! ## Adding a watch -/

/-- A path that is found is that of a directory. -/
theorem World.dir_of_resolve {w : World} {path : Path} (hvalid : ValidPath path) {inode : Nat}
    (h : w.resolve (render path) = some inode) :
    ∃ d ∈ w.dirs, d.inode = inode ∧ render d.path = render path := by
  unfold World.resolve at h
  dsimp only at h
  rw [if_neg (render_getLast?_ne hvalid)] at h
  split at h
  · contradiction
  · obtain ⟨d, hd, hinode⟩ := Option.map_eq_some_iff.mp h
    have hpath := List.find?_some hd
    exact ⟨d, List.mem_of_find?_eq_some hd, hinode, of_decide_eq_true hpath⟩

/-- A refused call changes nothing that matters. -/
theorem Settled.addCall_error (h : Settled roots stage rest [] s)
    (hscript : SparesRoots roots script) {path : Bytes} {e : Errno}
    (hcareful : Careful capacity (worldOs script (.inotifyAddWatch path) s.os).2)
    (hans : (worldOs script (.inotifyAddWatch path) s.os).1 = .error e) :
    Settled roots stage rest []
      { s with os := (worldOs script (.inotifyAddWatch path) s.os).2 } := by
  have hmoved := h.moved_first hscript (fun hc => by contradiction) hcareful
  unfold worldOs World.answer World.addWatch SysCall.reads at hans ⊢
  dsimp only at hans ⊢
  split
  · exact hmoved.refused path _
  · exact hmoved.refused path _
  · rename_i hdeny hresolve
    rw [hdeny, hresolve] at hans
    dsimp only at hans
    split at hans
    · contradiction
    · contradiction

/-- The world {lit}`w` in which {lit}`inotify_add_watch` hands out a descriptor: it is that of a
watch of the directory at the path, and if the watch is new, nothing was heard of the descriptor
before. -/
structure HandsOut (script : Nat → Turn) (roots : List Bytes) (stage : Stage)
    (rest : List KernelEvent) (s : State World) (path : Bytes) (wd : Nat) (w : World) : Prop where
  settled : Settled roots stage rest [] { s with os := w }
  after : (worldOs script (.inotifyAddWatch path) s.os).2 = (w.answerAdd path (.ok wd)).2
  watch : ∃ k ∈ w.watches, k.wd = wd ∧
    (∃ d ∈ w.dirs, d.inode = k.inode ∧ render d.path = path) ∧
    (k ∈ s.os.watches ∨ (∀ held ∈ w.held, held.1 ≠ wd) ∧ ∀ e ∈ rest ++ w.queue, e.wd ≠ wd)
  others : ∀ k ∈ w.watches, k ∈ s.os.watches ∨ k.wd = wd

theorem Settled.addCall_ok (h : Settled roots stage rest [] s)
    (hscript : SparesRoots roots script) {path : Path} (hvalid : ValidPath path) {wd : Nat}
    (hcareful : Careful capacity (worldOs script (.inotifyAddWatch (render path)) s.os).2)
    (hslot : OwnSlot s wd)
    (hans : (worldOs script (.inotifyAddWatch (render path)) s.os).1 = .ok wd) :
    ∃ w, HandsOut script roots stage rest s (render path) wd w := by
  have hmoved := h.moved_first hscript (fun hc => by contradiction) hcareful
  have hold := (Untouched.advance s.os false (script s.os.time)).watches
  let w := s.os.advance false (script s.os.time)
  change Settled roots stage rest [] { s with os := w } at hmoved
  change (w.addWatch (script s.os.time) (render path)).1 = .ok wd at hans
  have hafter : (worldOs script (.inotifyAddWatch (render path)) s.os).2 =
      (w.addWatch (script s.os.time) (render path)).2 := rfl
  unfold World.addWatch at hans hafter
  split at hans
  · contradiction
  · contradiction
  · rename_i inode hdeny hresolve
    rw [hdeny, hresolve] at hafter
    dsimp only at hafter
    obtain ⟨d, hd, hinode, hpath⟩ := World.dir_of_resolve hvalid hresolve
    split at hans
    · rename_i wd' hwd
      cases hans
      rw [hwd] at hafter
      have hk := World.mem_of_wdOf hwd
      exact ⟨w, hmoved, hafter, ⟨_, hk, rfl, ⟨d, hd, hinode, hpath⟩, Or.inl (hold _ hk)⟩,
        fun k hk => Or.inl (hold k hk)⟩
    · rename_i hwd
      cases hans
      rw [hwd] at hafter
      have hno : ∀ k ∈ w.watches, k.inode ≠ inode := by
        intro k hk heq
        have hsome := hmoved.tree.wdOf_of_mem hk
        rw [heq, hwd] at hsome
        contradiction
      have hlt : inode < w.nextInode := hinode ▸ hmoved.tree.inode_lt d hd
      refine ⟨_, hmoved.watch hno hlt hslot (w.list inode), hafter, ⟨⟨w.nextWd, inode⟩,
        List.mem_append_right _ (List.mem_singleton.mpr rfl), rfl, ⟨d, hd, hinode, hpath⟩,
        Or.inr ⟨fun held hmem => ?_, fun e he => ?_⟩⟩, fun k hk => ?_⟩
      · exact Nat.ne_of_lt (hmoved.held_lt held hmem)
      · exact Nat.ne_of_lt (hmoved.event_lt e he)
      · rcases List.mem_append.mp hk with hk | hk
        · exact Or.inl (hold k hk)
        · exact Or.inr (by rw [List.mem_singleton.mp hk])

variable {hdeny : DeniesGently script}

/-- The place of a node that is to be added: it is that of a root, or an entry of the directory of
its parent. -/
def EntryOf (roots : List Bytes) (h : Heap WatchNode) (parent : Option Nat) (path : Bytes) : Prop :=
  (parent = none ∧ ∃ root ∈ roots, path = rootPath root) ∨
    ∃ b m name, parent = some b ∧ h.get b = some m ∧ validName name = true ∧
      path = m.path ++ slash :: name

/-- Such a place is spelled like a directory. -/
theorem EntryOf.spelled (hr : Registrable script roots) (h : Settled roots stage rest [] s)
    {parent : Option Nat} {path : Bytes} (hentry : EntryOf roots s.heap parent path) :
    ∃ p, ValidPath p ∧ path = render p := by
  rcases hentry with ⟨-, root, hroot, rfl⟩ | ⟨b, m, name, -, hm, hname, rfl⟩
  · exact hr.spelled root hroot
  · obtain ⟨p, hvalid, hpath⟩ := h.shape.spelled b m hm
    refine ⟨p ++ [name], fun x hx => ?_, by rw [render_snoc, hpath]⟩
    rcases List.mem_append.mp hx with hx | hx
    · exact hvalid x hx
    · rw [List.mem_singleton.mp hx]
      exact hname

/-- With care, a slot that a new descriptor is given is not that of another one. -/
theorem Careful.wd_eq (h : Inv (gentleView script hdeny capacity) s) {path : Bytes} {wd a : Nat}
    {n : WatchNode} (hcareful : Careful capacity (worldOs script (.inotifyAddWatch path) s.os).2)
    (hans : (worldOs script (.inotifyAddWatch path) s.os).1 = .ok wd) (hn : s.heap.get a = some n)
    (hslot : n.wd % s.watches.capacity = wd % s.watches.capacity) : n.wd = wd := by
  by_contra hne
  rw [h.capacity] at hslot
  obtain ⟨call, hcall, hclashes⟩ := (gentleView script hdeny capacity).clash_add s.os path wd
    n.wd n.path hans (h.held hn) hslot hne
  rw [(hcareful.distinct call hcall).1] at hclashes
  contradiction

/-- Where the slot of a new descriptor is free, the kernel has no watch with a descriptor of this
slot. -/
theorem Careful.watch_slot_free (h : Inv (gentleView script hdeny capacity) s) {wd : Nat}
    (hcareful : Careful capacity s.os) (hfree : s.watches.get wd = none) :
    ∀ k ∈ s.os.watches, k.wd % s.watches.capacity ≠ wd % s.watches.capacity := by
  intro k hk hslot
  have hnoclash : ¬ (gentleView script hdeny capacity).clash s.os := by
    rintro ⟨call, hcall, hclashes⟩
    rw [(hcareful.distinct call hcall).1] at hclashes
    contradiction
  obtain ⟨b, m, hm, hmwd⟩ := h.covered hnoclash k.wd ⟨k, hk, rfl⟩
  have hget := h.wellLinked.slotted.of_node hm
  rw [Table.get_natCast] at hfree
  rw [hmwd, hslot, hfree] at hget
  contradiction

/-- A descriptor that is handed out in a free slot gets a node. -/
theorem HandsOut.addNode (hr : Registrable script roots)
    (h : Inv (gentleView script hdeny capacity) s) (hs : Settled roots stage rest [] s)
    {parent : Option Nat} {path : Bytes} {wd : Nat} {w : World}
    (hp : ParentLive s.heap parent) (hentry : EntryOf roots s.heap parent path)
    (hcareful : Careful capacity (worldOs script (.inotifyAddWatch path) s.os).2)
    (hw : HandsOut script roots stage rest s path wd w) (hfree : s.watches.get wd = none) :
    Settled roots stage rest [] (FsNotifier.addNode
      { s with os := (worldOs script (.inotifyAddWatch path) s.os).2 } wd parent path) := by
  obtain ⟨k, hk, hkwd, ⟨d, hd, hinode, hdpath⟩, hnew⟩ := hw.watch
  -- a watch that was there has a node
  have hempty := hcareful.before.watch_slot_free h hfree
  obtain ⟨hheld, hevents⟩ : (∀ held ∈ w.held, held.1 ≠ wd) ∧
      ∀ e ∈ rest ++ w.queue, e.wd ≠ wd := by
    rcases hnew with hold | hfresh
    · exact absurd (by rw [hkwd]) (hempty k hold)
    · exact hfresh
  have hlt : wd < w.nextWd := hkwd ▸ hw.settled.tree.wd_lt k hk
  have hcalled : (⟨path, .ok wd, w.held, w.pendingWds⟩ : AddCall) ∈
      (worldOs script (.inotifyAddWatch path) s.os).2.log := by
    rw [hw.after]
    exact List.mem_append_right _ (List.mem_singleton.mpr rfl)
  have hapart : ∀ e ∈ rest ++ w.queue,
      e.wd % s.watches.capacity ≠ wd % s.watches.capacity := by
    intro e he hslot
    have hoverlaps := (hcareful.distinct _ hcalled).2
    unfold AddCall.overlaps at hoverlaps
    dsimp only at hoverlaps
    rw [List.any_eq_false] at hoverlaps
    rw [h.capacity] at hslot
    exact hoverlaps e.wd (hw.settled.mem_pendingWds he)
      (decide_eq_true ⟨hslot, hevents e he⟩)
  rw [hw.after]
  refine hw.settled.addNode hp hfree hlt hheld hapart ?_ (hentry.spelled hr hs) ?_ ?_ ?_
  · intro k' hk' hslot
    rcases hw.others k' hk' with hold | hsame
    · exact absurd hslot (hempty k' hold)
    · exact hsame
  · intro b m hpar hm
    rcases hentry with ⟨hnone, -⟩ | ⟨b', m', name, hpar', hm', hname, hpath⟩
    · rw [hnone] at hpar
      contradiction
    · rw [hpar] at hpar'
      cases hpar'
      have hmm : m = m' := Option.some.inj (hm.symm.trans hm')
      exact ⟨name, hname, by rw [hmm]; exact hpath⟩
  · intro hnone
    rcases hentry with ⟨-, hroot⟩ | ⟨b', m', name, hpar', -⟩
    · exact hroot
    · rw [hnone] at hpar'
      contradiction
  · intro k' hk' hkwd' d' hd' hinode'
    have hkk := hw.settled.tree.watch_wd k' hk' k hk (hkwd'.trans hkwd.symm)
    rw [hkk] at hinode'
    rw [hw.settled.tree.inode_inj d' hd' d hd (hinode'.trans hinode.symm)]
    exact hdpath.symm

/-- Where the walk comes, {lit}`add_watch` finds directories under the paths the table has. -/
theorem wp_addWatch_settled (hr : Registrable script roots)
    (hJ : StaysSettled roots capacity stage rest s)
    (h : Inv (gentleView script hdeny capacity) s) {parent : Option Nat} {path : Bytes}
    (habove : ParentAbove s.heap parent path)
    (hentry : Settled roots stage rest [] s → EntryOf roots s.heap parent path)
    (hstage : ¬ stage.Avoids path) :
    wp fuelOnly (addWatch (worldOs script) path parent)
      (fun _ s' => StaysSettled roots capacity stage rest s') s := by
  have hsettled : Careful capacity (worldOs script (.inotifyAddWatch path) s.os).2 →
      Settled roots stage rest [] s := fun hcareful => hJ hcareful.before
  have herror : ∀ e, (worldOs script (.inotifyAddWatch path) s.os).1 = .error e →
      StaysSettled roots capacity stage rest
        { s with os := (worldOs script (.inotifyAddWatch path) s.os).2 } := by
    intro e hans hcareful
    exact (hsettled hcareful).addCall_error hr.spared hcareful hans
  have hok : ∀ wd, (worldOs script (.inotifyAddWatch path) s.os).1 = .ok wd →
      Careful capacity (worldOs script (.inotifyAddWatch path) s.os).2 →
      ∃ w, HandsOut script roots stage rest s path wd w := by
    intro wd hans hcareful
    obtain ⟨p, hvalid, rfl⟩ := (hentry (hsettled hcareful)).spelled hr (hsettled hcareful)
    exact (hsettled hcareful).addCall_ok hr.spared hvalid hcareful
      (fun a n hn hslot => hcareful.wd_eq h hans hn hslot) hans
  apply wp_addWatch (worldOs script) h.wellLinked habove.live rfl
  · exact fun e hans _ => herror e hans
  · exact fun hans limit out hcareful => (herror _ hans hcareful).frame s.roots limit out
  · exact fun e hans _ _ _ => herror e hans
  · rintro wd a n hans hn rfl rfl hcareful
    obtain ⟨w, hw⟩ := hok n.wd hans hcareful
    rw [hw.after]
    exact hw.settled.answered hn
  · exact fun wd a n hans hn hslot hne hcareful =>
      absurd (hcareful.wd_eq h hans hn hslot) hne
  · intro wd a n hans hn hslot hpath r _ hcareful
    have hcareful' := hcareful.before.before
    have hwd := hcareful'.wd_eq h hans hn hslot
    obtain ⟨w, hw⟩ := hok wd hans hcareful'
    obtain ⟨k, hk, hkwd, ⟨d, hd, hinode, hdpath⟩, -⟩ := hw.watch
    -- the node is in its place, or the walk does not come here
    rcases hw.settled.placed k hk d hd hinode a n hn (hwd.trans hkwd.symm) with hplaced |
      ⟨havoids, -⟩
    · exact absurd (hplaced.trans hdpath) hpath
    · rw [hdpath] at havoids
      exact absurd havoids hstage
  · intro wd hans hfree hcareful
    have hs := hsettled hcareful
    obtain ⟨w, hw⟩ := hok wd hans hcareful
    exact hw.addNode hr h hs habove.live (hentry hs) hcareful hfree

/-! ## Removing watches -/

/-- Removing a watch below the top of the walk leaves everything settled. -/
theorem wp_rmWatch_settled {tol : Fault → Prop} (hscript : SparesRoots roots script)
    (hJ : StaysSettled roots capacity stage rest s) (hw : WellLinked s.watches s.heap) {key : Int}
    (htop : ∀ x top, stage = .walking x top → ∀ b m, s.watches.get key = some b →
      s.heap.get b = some m → isParentPath top m.path = true) :
    wp tol (rmWatch (worldOs script) key true)
      (fun _ s' => StaysSettled roots capacity stage rest s') s := by
  cases hget : s.watches.get key with
  | none => exact wp_of_run (rmWatch_run_none _ true hget) hJ
  | some b =>
      obtain ⟨m, hm⟩ := hw.slotted.live_of_get hget
      obtain ⟨K, hK⟩ := hw.exists_subtree hm
      have hrun := rmWatch_run_some (worldOs script) hw true hget hK
      rw [if_pos rfl] at hrun
      refine wp_of_run hrun fun hcareful => ?_
      have hbefore : Careful capacity s.os := Careful.before_rmCalls hcareful
      exact (hJ hbefore).prune hscript hK (fun x top hstage => htop x top hstage b m hget hm)
        (List.nil_append rest).symm (fun _ _ _ hd => hd) hcareful

/-! ## Walking a tree -/

/-- A directory that a walk reads has valid names. -/
theorem worldOs_readdir_valid {dir dir' : DirStream} {o : World} {entry : Dirent}
    (hans : (worldOs script (.readdir dir) o).1 = some (entry, dir')) :
    validName entry.name = true := by
  unfold worldOs World.answer World.readdir at hans
  dsimp only at hans
  split at hans
  · rename_i name hpick
    cases hans
    obtain ⟨i, -, hi⟩ := Option.bind_eq_some_iff.mp hpick
    exact (of_decide_eq_true (List.mem_filter.mp (List.mem_of_getElem? hi)).2).1
  · obtain ⟨name, hname, heq⟩ := Option.map_eq_some_iff.mp hans
    cases heq
    exact (of_decide_eq_true (List.mem_filter.mp (List.mem_of_mem_head? hname)).2).1

/-- A walk in a stage that lets it come to all paths below its top. -/
theorem wp_walkTree_settled (hr : Registrable script roots) {top : Bytes} {first : Option Nat}
    (hfirst : ∀ t, Settled roots stage rest [] t → EntryOf roots t.heap first top)
    (hcomes : ∀ path, isParentPath top path = true → ¬ stage.Avoids path)
    (htop : ∀ x top', stage = .walking x top' → top' = top)
    (hJ : StaysSettled roots capacity stage rest s)
    (h : Inv (gentleView script hdeny capacity) s) (habove : ParentAbove s.heap first top)
    (recursive : Bool) (mounts : List Bytes) (fuel : Nat) :
    wp fuelOnly (walkTree (worldOs script) fuel top first recursive mounts)
      (fun _ s' => StaysSettled roots capacity stage rest s') s := by
  refine wp_walkTree_keeps (K := gentleView script hdeny capacity)
    (StaysSettled roots capacity stage rest) top first (fun name => validName name = true)
    ?_ ?_ ?_ ?_ recursive mounts fuel top first s hJ h ⟨habove, isParentPath_refl top, Or.inl ⟨rfl, rfl⟩⟩
  · exact fun c t hlooks hreads hJt _ hcareful =>
      (hJt hcareful.before).look hr.spared hlooks hreads hcareful
  · exact fun _ _ _ _ hans _ _ => worldOs_readdir_valid hans
  · intro path parent t hJt ht hp
    refine wp_addWatch_settled hr hJt ht hp.above (fun hsettled => ?_) (hcomes path hp.below)
    rcases hp.entry with ⟨rfl, rfl⟩ | ⟨b, m, name, hpar, hm, -, hname, hpath⟩
    · exact hfirst t hsettled
    · exact Or.inr ⟨b, m, name, hpar, hm, hname, hpath⟩
  · intro wd t hJt ht hbelow
    refine wp_rmWatch_settled hr.spared hJt ht.wellLinked fun x top' hstage b m hb hm => ?_
    rw [htop x top' hstage]
    exact hbelow b m hb hm

/-! ## Between events -/

namespace Settled

/-- An event is done with.  What it was to remove is gone, and if it starts a walk, the walk comes
to no directory that was moved. -/
theorem next {e : KernelEvent} (h : Settled roots .idle (e :: rest) [] s) (stage : Stage)
    (hfits : ∀ done, s.os.delivered = some (done ++ rest) → e ∈ done → stage.Fits rest s)
    (hdoomed : ∀ a place, Doomed s.heap (e :: (rest ++ s.os.queue)) a place →
      stage.Avoids place ∧ Doomed s.heap (rest ++ s.os.queue) a place) :
    Settled roots stage rest [] s := by
  refine ⟨h.tree, h.inode_lt, h.wellLinked, h.shape, h.node_held, h.held_node, h.held_lt, ?_,
    fun e' he' => h.event_lt e' (List.mem_cons_of_mem _ he'),
    fun e' he' => h.event_named e' (List.mem_cons_of_mem _ he'),
    fun e' he' => h.event_slot e' (List.mem_cons_of_mem _ he'), h.watch_slot, ?_, h.calm⟩
  · intro k hk d hd hinode a n hn hwd
    rcases h.placed k hk d hd hinode a n hn hwd with hpath | ⟨-, hd⟩
    · exact Or.inl hpath
    · exact Or.inr (hdoomed a _ hd)
  · rcases h.fits with hnil | ⟨done, hdone⟩
    · contradiction
    · exact hfits (done ++ [e]) (by rw [hdone, List.append_assoc, List.singleton_append])
        (List.mem_append_right _ (List.mem_singleton.mpr rfl))

/-- An event that removes nothing. -/
theorem pop {e : KernelEvent} (h : Settled roots .idle (e :: rest) [] s)
    (hno : e.happening = .movedFrom → ∀ a, ¬ Drops s.heap e a) :
    Settled roots .idle rest [] s :=
  h.next .idle (fun done hdone _ => Or.inr ⟨done, hdone⟩)
    fun a _ hd => ⟨trivial, hd.tail fun hfrom => hno hfrom a⟩

/-- An event that starts a walk. -/
theorem enter {e : KernelEvent} (h : Settled roots .idle (e :: rest) [] s) {x : Nat} {top : Bytes}
    (hleads : Leads s.heap e x top) : Settled roots (.walking x top) rest [] s := by
  have hnamed := h.event_named e List.mem_cons_self
  refine h.next (.walking x top) (fun done hdone he => ⟨done, hdone, e, he, hnamed, hleads⟩)
    fun a place hd => ⟨(hd.apart hleads).1, hd.tail fun hfrom => ?_⟩
  rcases hleads.1 with harrival | harrival
  · rw [harrival] at hfrom
    contradiction
  · rw [harrival] at hfrom
    contradiction

/-- The end of a walk or of the registration. -/
theorem leave (h : Settled roots stage rest [] s) : Settled roots .idle rest [] s := by
  refine ⟨h.tree, h.inode_lt, h.wellLinked, h.shape, h.node_held, h.held_node, h.held_lt, ?_,
    h.event_lt, h.event_named, h.event_slot, h.watch_slot, ?_, h.calm⟩
  · intro k hk d hd hinode a n hn hwd
    rcases h.placed k hk d hd hinode a n hn hwd with hpath | ⟨-, hd⟩
    · exact Or.inl hpath
    · exact Or.inr ⟨trivial, hd⟩
  · have hfits := h.fits
    unfold Stage.Fits at hfits ⊢
    cases stage with
    | idle => exact hfits
    | registering => exact Or.inl hfits.1
    | walking x top =>
        obtain ⟨done, hdone, -⟩ := hfits
        exact Or.inr ⟨done, hdone⟩

/-- An event for which the table has no node removes nothing. -/
theorem pop_unknown {e : KernelEvent} (h : Settled roots .idle (e :: rest) [] s)
    (hget : s.watches.get e.wd = none) : Settled roots .idle rest [] s := by
  refine h.pop ?_
  rintro - a ⟨x, n, name, b, hn, hwd, -⟩
  have hslot := h.wellLinked.slotted.get_of_node hn
  rw [hwd, hget] at hslot
  contradiction

/-- The node in the slot of an event is the one the event is about. -/
theorem event_wd {e : KernelEvent} (h : Settled roots .idle (e :: rest) [] s) {a : Nat}
    {n : WatchNode} (hget : s.watches.get e.wd = some a) (hn : s.heap.get a = some n) :
    n.wd = e.wd := by
  rw [Table.get_natCast] at hget
  obtain ⟨n', hn', hslot⟩ := h.wellLinked.slotted.of_slot hget
  rw [hn] at hn'
  cases hn'
  exact h.event_slot e List.mem_cons_self a n hn hslot

end Settled

/-! ## Processing events -/

/-- Output and the list of roots do not matter. -/
theorem StaysSettled.frame (hJ : StaysSettled roots capacity stage rest s) (rs : List WatchRoot)
    (limit : Bool) (out : Bytes) : StaysSettled roots capacity stage rest
      { s with roots := rs, limitReached := limit, stdout := out } :=
  fun hcareful => (hJ hcareful).frame rs limit out

/-- {lit}`check_root_removal` may remove watches. -/
theorem wp_checkRootRemovalAt_settled (hscript : SparesRoots roots script)
    (hJ : StaysSettled roots capacity .idle rest s) (h : Inv (gentleView script hdeny capacity) s)
    (path : Bytes) (i : Nat) :
    wp fuelOnly (checkRootRemovalAt (worldOs script) path i)
      (fun _ s' => StaysSettled roots capacity .idle rest s') s := by
  unfold checkRootRemovalAt
  rw [wp_bind, wp_get]
  cases s.roots[i]? with
  | none => exact hJ
  | some root =>
      dsimp only
      split
      · rw [wp_bind]
        refine wp_weaken (wp_rmWatch_settled hscript hJ h.wellLinked
          fun x top hstage => by contradiction) fun _ s' hs' => ?_
        exact hs'.frame _ s'.limitReached _
      · exact hJ

/-- {lit}`inotify_callback` leaves everything settled. -/
theorem wp_inotifyCallback_settled (hscript : SparesRoots roots script)
    (hJ : StaysSettled roots capacity .idle rest s) (h : Good (gentleView script hdeny capacity) s)
    (path : Bytes) (mask : UInt32) :
    wp fuelOnly (inotifyCallback (worldOs script) path mask)
      (fun _ s' => StaysSettled roots capacity .idle rest s') s := by
  unfold inotifyCallback
  rw [wp_bind]
  apply wp_reportMask
  intro out
  have hJ₁ := hJ.frame s.roots s.limitReached out
  have h₁ := h.frame s.limitReached out
  split
  · unfold checkRootRemoval
    rw [wp_bind, wp_get]
    refine wp_weaken (wp_forM (fun _ s' => Good (gentleView script hdeny capacity) s' ∧
      StaysSettled roots capacity .idle rest s') ?_ _ _ ⟨h₁, hJ₁⟩) fun _ s' hs' => hs'.2
    exact fun i _ s' hs' => wp_and (wp_checkRootRemovalAt hs'.1)
      (wp_checkRootRemovalAt_settled hscript hs'.2 hs'.1.inv path i)
  · split
    · exact hJ₁.frame s.roots s.limitReached _
    · exact hJ₁

/-- A directory that arrives is walked. -/
theorem wp_arrival_settled (hr : Registrable script roots) {e : KernelEvent}
    (hJ : StaysSettled roots capacity .idle (e :: rest) s)
    (h : Inv (gentleView script hdeny capacity) s) (harrival : e.Arrival) {a : Nat} {n : WatchNode}
    (hget : s.watches.get e.wd = some a) (hn : s.heap.get a = some n) (fuel : Nat) :
    wp fuelOnly (processDirEvent (worldOs script) fuel a (eventPath n e.toInotify) e.toInotify.mask)
      (fun _ s' => StaysSettled roots capacity .idle rest s') s := by
  obtain ⟨-, hadd, hdel, -⟩ := harrival.mask
  have hJ' : StaysSettled roots capacity (.walking a (eventPath n e.toInotify)) rest s := by
    intro hcareful
    have hsettled := hJ hcareful
    obtain ⟨name, hname, -⟩ := hsettled.event_named e List.mem_cons_self harrival
    refine hsettled.enter ⟨harrival, n, name, hn, hsettled.event_wd hget hn, hname, ?_⟩
    unfold eventPath KernelEvent.toInotify
    dsimp only
    rw [Option.mem_def.mp hname]
  have habove : ParentAbove s.heap (some a) (eventPath n e.toInotify) := by
    intro b hb
    cases hb
    exact ⟨n, hn, isParentPath_eventPath n _⟩
  unfold processDirEvent
  dsimp only
  rw [hadd, hdel, if_pos rfl, wp_bind]
  refine wp_weaken (wp_walkTree_settled hr ?_ ?_ ?_ hJ' h habove true [] fuel) fun _ s' hs' => ?_
  · intro t ht
    obtain ⟨done, -, e', -, hnamed, harrival', m, name, hm, -, hname, hpath⟩ := ht.fits
    obtain ⟨name', hname', hvalid⟩ := hnamed harrival'
    rw [hname] at hname'
    cases hname'
    exact Or.inr ⟨a, m, name, rfl, hm, hvalid, hpath⟩
  · intro path hbelow havoids
    unfold Stage.Avoids at havoids
    dsimp only at havoids
    rw [hbelow] at havoids
    contradiction
  · intro x top hstage
    cases hstage
    rfl
  · have hleft : StaysSettled roots capacity .idle rest s' := fun hcareful => (hs' hcareful).leave
    split
    · exact hleft
    · rw [if_neg (by simp)]
      exact hleft

/-- The nodes of a directory that goes are removed. -/
theorem wp_departure_settled (hscript : SparesRoots roots script) {e : KernelEvent}
    (hJ : StaysSettled roots capacity .idle (e :: rest) s)
    (h : Inv (gentleView script hdeny capacity) s) (hdeparture : e.Departure) {a : Nat}
    {n : WatchNode} (hget : s.watches.get e.wd = some a) (hn : s.heap.get a = some n) (fuel : Nat) :
    wp fuelOnly (processDirEvent (worldOs script) fuel a (eventPath n e.toInotify) e.toInotify.mask)
      (fun _ s' => StaysSettled roots capacity .idle rest s') s := by
  obtain ⟨-, hadd, hdel, -⟩ := hdeparture.mask
  -- an event that removes a node is about the kid the loop takes
  have hdrops : Settled roots .idle (e :: rest) [] s → ∀ b, Drops s.heap e b →
      ∃ k, matchingKid s.heap n.kids (eventPath n e.toInotify) (List.range n.kids.length) = some k ∧
        Relation.ReflTransGen (KidOf s.heap) k b := by
    rintro hsettled b ⟨x, m, name, k, hm, hwd, hname, hfirst, hsteps⟩
    have hslot := h.wellLinked.slotted.get_of_node hm
    rw [hwd, hget] at hslot
    cases hslot
    rw [hn] at hm
    cases hm
    refine ⟨k, ?_, hsteps⟩
    unfold eventPath KernelEvent.toInotify
    dsimp only
    rw [hname]
    exact hfirst
  obtain ⟨s', hrun, hcase⟩ := dropKid_run (worldOs script) h.wellLinked hn
    (eventPath n e.toInotify) (List.range n.kids.length)
  have hzero : ¬ ((0 : Int) < 0 ∧ (0 : Int) ≠ ERR_IGNORE ∧ (0 : Int) ≠ ERR_CONTINUE) := by omega
  unfold processDirEvent
  dsimp only
  rw [hadd, hdel, if_neg (by simp), wp_bind, wp_pure, if_neg hzero, if_pos rfl, wp_bind,
    wp_deref hn, wp_bind]
  refine wp_of_run hrun ?_
  intro hcareful
  rcases hcase with ⟨hnone, rfl⟩ | ⟨k, m, K, hsome, ht, -, rfl⟩
  · refine (hJ hcareful).pop fun _ b hb => ?_
    obtain ⟨k, hk, -⟩ := hdrops (hJ hcareful) b hb
    rw [hnone] at hk
    contradiction
  · have hsettled := hJ hcareful.before_rmCalls
    refine hsettled.prune hscript ht (fun x top hstage => by contradiction)
      (show e :: rest = [e] ++ rest from rfl) ?_ hcareful
    intro b hb place hd
    refine hd.tail fun _ hdrop => hb ?_
    obtain ⟨k', hk', hsteps⟩ := hdrops hsettled b hdrop
    rw [hsome] at hk'
    cases hk'
    exact (ht.mem_iff h.wellLinked.linked b).mpr hsteps

/-- An event is processed. -/
theorem wp_processInotifyEvent_settled (hr : Registrable script roots) {e : KernelEvent}
    (hJ : StaysSettled roots capacity .idle (e :: rest) s)
    (h : Good (gentleView script hdeny capacity) s) (fuel : Nat) :
    wp fuelOnly (processInotifyEvent (worldOs script) (inotifyCallback (worldOs script)) fuel
      e.toInotify) (fun _ s' => StaysSettled roots capacity .idle rest s') s := by
  have hwd : e.toInotify.wd = (e.wd : Int) := rfl
  unfold processInotifyEvent
  rw [wp_bind, wp_tableGet, hwd]
  cases hget : s.watches.get e.wd with
  | none => exact fun hcareful => (hJ hcareful).pop_unknown hget
  | some a =>
      obtain ⟨n, hn⟩ := h.inv.wellLinked.slotted.live_of_get hget
      dsimp only
      rw [wp_bind, wp_deref hn, wp_bind]
      refine wp_weaken (wp_and (wp_inotifyCallback h) (wp_inotifyCallback_settled hr.spared hJ h
        (eventPath n e.toInotify) e.toInotify.mask)) fun _ s₁ hs₁ => ?_
      obtain ⟨⟨h₁, hquiet⟩, hJ₁⟩ := hs₁
      by_cases harrival : e.Arrival
      · obtain ⟨hdir, -, -, hself⟩ := harrival.mask
        obtain ⟨out, rfl⟩ := hquiet hself
        rw [if_pos hdir]
        exact wp_arrival_settled hr hJ₁ h₁.inv harrival hget hn fuel
      · by_cases hdeparture : e.Departure
        · obtain ⟨hdir, -, -, hself⟩ := hdeparture.mask
          obtain ⟨out, rfl⟩ := hquiet hself
          rw [if_pos hdir]
          exact wp_departure_settled hr.spared hJ₁ h₁.inv hdeparture hget hn fuel
        · rw [if_neg (Bool.eq_false_iff.mp (KernelEvent.mask_of_self harrival hdeparture))]
          exact fun hcareful => (hJ₁ hcareful).pop fun hfrom => absurd (Or.inr hfrom) hdeparture

/-- The events of a buffer are processed, up to one that ends the main loop. -/
theorem wp_processEvents_settled (hr : Registrable script roots) (events : List KernelEvent) :
    ∀ {s : State World}, StaysSettled roots capacity .idle events s →
      Good (gentleView script hdeny capacity) s → ∀ fuel,
      wp fuelOnly (processEvents (worldOs script) (inotifyCallback (worldOs script)) fuel
        (events.map (·.toInotify))) (fun ok s' => ∃ rest,
          StaysSettled roots capacity .idle rest s' ∧ (ok = true → rest = [])) s := by
  induction events with
  | nil => exact fun hJ _ _ => ⟨[], hJ, fun _ => rfl⟩
  | cons e events ih =>
      intro s hJ h fuel
      rw [List.map_cons]
      unfold processEvents
      split
      · rename_i hignored
        refine ih (fun hcareful => (hJ hcareful).pop fun hfrom => ?_) h fuel
        rw [(KernelEvent.mask_of_movedFrom hfrom).1] at hignored
        contradiction
      · split
        · rename_i hoverflow
          refine ih (fun hcareful => (hJ hcareful).pop fun hfrom => ?_) h fuel
          rw [(KernelEvent.mask_of_movedFrom hfrom).2] at hoverflow
          contradiction
        · rw [wp_bind]
          refine wp_weaken (wp_and (wp_processInotifyEvent h e.happening.mask_singleType)
            (wp_processInotifyEvent_settled hr hJ h fuel)) fun ok s₁ hs₁ => ?_
          obtain ⟨⟨h₁, -⟩, hJ₁⟩ := hs₁
          cases ok with
          | true => exact ih hJ₁ h₁ fuel
          | false => exact ⟨events, hJ₁, fun hok => by contradiction⟩

/-- A buffer of events is read and processed. -/
theorem wp_processInotifyInput_settled (hr : Registrable script roots)
    (hJ : StaysSettled roots capacity .idle [] s) (h : Good (gentleView script hdeny capacity) s)
    (fuel : Nat) :
    wp fuelOnly (processInotifyInput (worldOs script) (inotifyCallback (worldOs script)) fuel)
      (fun ok s' => ∃ rest,
        StaysSettled roots capacity .idle rest s' ∧ (ok = true → rest = [])) s := by
  obtain ⟨events, hdelivered, hanswer⟩ := worldOs_read script s.os
  unfold processInotifyInput
  rw [wp_bind, wp_sys, hanswer]
  have hJ₁ : StaysSettled roots capacity .idle events
      { s with os := (worldOs script .read s.os).2 } := fun hcareful =>
    (hJ hcareful.before).read hr.spared hcareful hdelivered
  exact wp_processEvents_settled hr events hJ₁ (h.look .read trivial) fuel

/-! ## Registering roots -/

/-- {lit}`watch` walks a root. -/
theorem wp_watch_settled (hr : Registrable script roots)
    (hJ : StaysSettled roots capacity .registering [] s)
    (h : Inv (gentleView script hdeny capacity) s) {root : Bytes} (hroot : root ∈ roots)
    (fuel : Nat) (mounts : List Bytes) :
    wp fuelOnly (watch (worldOs script) fuel root mounts)
      (fun _ s' => StaysSettled roots capacity .registering [] s') s := by
  unfold watch
  rw [wp_bind, wp_sys]
  have h₁ := h.look (.stat (splitRoot root).2) trivial
  have hJ₁ : StaysSettled roots capacity .registering []
      { s with os := (worldOs script (.stat (splitRoot root).2) s.os).2 } := fun hcareful =>
    (hJ hcareful.before).look hr.spared trivial rfl hcareful
  have hcomes : ∀ path, ¬ Stage.registering.Avoids path := fun _ havoids => havoids
  have hwalk : ∀ recursive, wp fuelOnly
      (walkTree (worldOs script) fuel (rootPath root) none recursive mounts)
      (fun _ s' => StaysSettled roots capacity .registering [] s')
      { s with os := (worldOs script (.stat (splitRoot root).2) s.os).2 } := fun recursive =>
    wp_walkTree_settled hr (fun t _ => Or.inl ⟨rfl, root, hroot, rfl⟩)
      (fun path _ => hcomes path) (fun x top hstage => by contradiction) hJ₁ h₁
      (by simp [ParentAbove]) recursive mounts fuel
  cases (worldOs script (.stat (splitRoot root).2) s.os).1 with
  | error e =>
      dsimp only
      split
      · exact hJ₁
      · split
        · exact hJ₁
        · exact hJ₁
  | ok type =>
      cases type with
      | reg => exact hwalk false
      | dir => exact hwalk (splitRoot root).1
      | other => exact hJ₁

/-- {lit}`register_roots` walks some of the roots. -/
theorem wp_registerRoots_settled (hr : Registrable script roots) (fuel : Nat) (mounts : List Bytes)
    (newRoots : List Bytes) (hsub : ∀ root ∈ newRoots, root ∈ roots) :
    ∀ (unwatchable : List Bytes) {s : State World},
      StaysSettled roots capacity .registering [] s → Inv (gentleView script hdeny capacity) s →
      wp fuelOnly (registerRoots (worldOs script) fuel mounts newRoots unwatchable)
        (fun _ s' => StaysSettled roots capacity .registering [] s') s := by
  induction newRoots with
  | nil => exact fun _ _ hJ _ => hJ
  | cons root newRoots ih =>
      intro unwatchable s hJ h
      have hrest := ih fun x hx => hsub x (List.mem_cons_of_mem _ hx)
      unfold registerRoots
      dsimp only
      split
      · exact hrest _ hJ h
      · split
        · exact hrest _ hJ h
        · rw [wp_bind]
          refine wp_weaken (wp_and (wp_watch h) (wp_watch_settled hr hJ h
            (hsub root List.mem_cons_self) fuel _)) fun id s₁ hs₁ => ?_
          obtain ⟨hwatched, hJ₁⟩ := hs₁
          split
          · rw [wp_bind, wp_modify]
            exact hrest _ (hJ₁.frame _ s₁.limitReached s₁.stdout) (hwatched.inv.frame _ _ _)
          · split
            · exact hJ₁
            · split
              · exact hrest _ hJ₁ hwatched.inv
              · exact hrest _ hJ₁ hwatched.inv

/-- {lit}`update_roots`, when no roots are registered yet. -/
theorem wp_updateRoots_settled (hr : Registrable script roots)
    (hJ : StaysSettled roots capacity .registering [] s) (hnone : s.roots = [])
    (h : Inv (gentleView script hdeny capacity) s) (fuel : Nat) :
    wp fuelOnly (updateRoots (worldOs script) fuel roots)
      (fun _ s' => StaysSettled roots capacity .idle [] s') s := by
  have hleave : ∀ {t : State World}, StaysSettled roots capacity .registering [] t →
      StaysSettled roots capacity .idle [] t := fun ht hcareful => (ht hcareful).leave
  have hunregister : (unregisterRoots (worldOs script)).run s = .ok ((), s) := by
    change ((List.range s.roots.length).forM fun _ => unregisterLast (worldOs script)).run s = _
    rw [hnone]
    rfl
  unfold updateRoots
  rw [wp_bind]
  refine wp_of_run hunregister ?_
  split
  · exact (hleave hJ).frame s.roots s.limitReached _
  · split
    · exact (hleave hJ).frame s.roots s.limitReached _
    · rw [wp_bind]
      have hmounts : wp fuelOnly (unwatchableMounts (worldOs script)) (fun _ s₁ =>
          Inv (gentleView script hdeny capacity) s₁ ∧
            StaysSettled roots capacity .registering [] s₁) s := by
        unfold unwatchableMounts
        rw [wp_bind, wp_sys]
        have h₁ := h.look .getmntent trivial
        have hJ₁ : StaysSettled roots capacity .registering []
            { s with os := (worldOs script .getmntent s.os).2 } := fun hcareful =>
          (hJ hcareful.before).look hr.spared trivial rfl hcareful
        cases (worldOs script .getmntent s.os).1 with
        | none => exact ⟨h₁, hJ₁⟩
        | some entries => exact ⟨h₁, hJ₁⟩
      refine wp_weaken hmounts fun answer s₁ hs₁ => ?_
      obtain ⟨h₁, hJ₁⟩ := hs₁
      cases answer with
      | none => exact hleave hJ₁
      | some mounts =>
          dsimp only
          rw [wp_bind]
          refine wp_weaken (wp_registerRoots_settled hr fuel mounts roots (fun _ hx => hx) [] hJ₁
            h₁) fun r s₂ hJ₂ => ?_
          split
          · exact hleave hJ₂
          · rw [wp_bind, wp_output, wp_bind]
            refine wp_weaken (wp_forM (fun _ s' => StaysSettled roots capacity .registering [] s')
              ?_ _ _ (hJ₂.frame s₂.roots s₂.limitReached _)) fun _ s₃ hJ₃ => ?_
            · exact fun _ _ s₃ hJ₃ => hJ₃.frame s₃.roots s₃.limitReached _
            · exact (hleave hJ₃).frame s₃.roots s₃.limitReached _

end Runs

/-! ## Sessions -/

/-- A world in which the notifier has done nothing yet. -/
structure World.Fresh (w : World) : Prop where
  tree : Tree w
  watches : w.watches = []
  queue : w.queue = []
  delivered : w.delivered = none
  held : w.held = []
  log : w.log = []

/-- The states between two turns of the main loop in a session that registers the roots and then
watches them.  The timer may tick as long as no root is missing. -/
inductive Watching {σ δ : Type} (os : Os σ δ) (init : State σ) (roots : List Bytes) :
    State σ → Prop
  | register {s : State σ} (fuel : Nat) :
      (perform os fuel (.updateRoots roots)).run init = .ok (true, s) → Watching os init roots s
  | input {s s' : State σ} (fuel : Nat) : Watching os init roots s →
      (perform os fuel .inotifyInput).run s = .ok (true, s') → Watching os init roots s'
  | tick {s s' : State σ} (fuel : Nat) : Watching os init roots s →
      (∀ root ∈ s.roots, 0 ≤ root.id) →
      (perform os fuel .missingRootTick).run s = .ok (true, s') → Watching os init roots s'

/-- A tick does nothing when no root is missing. -/
theorem wp_missingRootTick_present {σ δ : Type} (os : Os σ δ) {s : State σ}
    (hpresent : ∀ root ∈ s.roots, 0 ≤ root.id) (fuel : Nat) :
    wp fuelOnly (perform os fuel .missingRootTick) (fun _ s' => s' = s) s := by
  unfold perform checkMissingRoots
  dsimp only
  rw [wp_bind, wp_bind, wp_get]
  refine wp_weaken (wp_forM (fun _ s' => s' = s) ?_ _ _ rfl) fun _ s' hs' => hs'
  rintro i is s' rfl
  unfold checkMissingRootAt
  rw [wp_bind, wp_get]
  cases hroot : s'.roots[i]? with
  | none => exact rfl
  | some root =>
      have hid := hpresent root (List.mem_of_getElem? hroot)
      dsimp only
      rw [if_neg (by omega)]
      exact rfl

section Sessions

variable {script : Nat → Turn} {roots : List Bytes} {watchCount : Nat} {w : World} {s : State World}

/-- Before the roots are registered everything is settled. -/
theorem World.Fresh.settled (h : w.Fresh) (hpos : 0 < watchCount) :
    Settled roots .registering [] [] (start w watchCount hpos) := by
  refine ⟨h.tree, ?_, .empty watchCount hpos, ⟨?_, ?_, ?_⟩, ?_, ?_, ?_, ?_, ?_, ?_, ?_, ?_,
    ⟨rfl, h.delivered⟩, ?_⟩
  all_goals simp [start, h.watches, h.queue, h.held, h.log]

/-- The notifier has no watch yet. -/
theorem World.Fresh.good (h : w.Fresh) (hdeny : DeniesGently script) (hpos : 0 < watchCount) :
    Good (gentleView script hdeny watchCount) (start w watchCount hpos) := by
  refine good_start hpos ?_
  rintro wd ⟨k, hk, -⟩
  rw [h.watches] at hk
  contradiction

/-- Between two turns everything is settled. -/
theorem Watching.settled (hdeny : DeniesGently script) (hr : Registrable script roots)
    (hw : w.Fresh) {hpos : 0 < watchCount}
    (hs : Watching (worldOs script) (start w watchCount hpos) roots s) :
    Good (gentleView script hdeny watchCount) s ∧ StaysSettled roots watchCount .idle [] s := by
  have hsingle := worldOs_singleEvents script
  induction hs with
  | register fuel hrun =>
      have hgood := hw.good hdeny hpos
      have hturn := run_of_wp (wp_and (wp_perform hgood hsingle)
        (wp_updateRoots_settled hr (fun _ => hw.settled hpos) rfl hgood.inv fuel)) hrun
      exact hturn
  | input fuel _ hrun ih =>
      have hturn := run_of_wp (wp_and (wp_perform ih.1 hsingle)
        (wp_processInotifyInput_settled hr ih.2 ih.1 fuel)) hrun
      obtain ⟨hgood, rest, hJ, hdone⟩ := hturn
      rw [hdone rfl] at hJ
      exact ⟨hgood, hJ⟩
  | tick fuel _ hpresent hrun ih =>
      have hsame := run_of_wp (wp_missingRootTick_present _ hpresent fuel) hrun
      rw [hsame]
      exact ih

/-- A session that registers roots and then watches them, while other processes change the
directories in any way, goes on in each turn that processes events, as long as all these changes
are harmless.  Descriptors that are held or that events are pending for are distinct modulo
the size of the table, and {lit}`inotify_add_watch` is not denied with {lit}`ENOTDIR`. -/
theorem processInotifyInput_goes_on (hdeny : DeniesGently script) (hr : Registrable script roots)
    (hw : w.Fresh) (hpos : 0 < watchCount)
    (hs : Watching (worldOs script) (start w watchCount hpos) roots s) {fuel : Nat} {goesOn : Bool}
    {s' : State World}
    (hrun : (perform (worldOs script) fuel .inotifyInput).run s = .ok (goesOn, s'))
    (hdistinct : ∀ call ∈ s'.os.log,
      call.clashes watchCount = false ∧ call.overlaps watchCount = false)
    (hdirs : ∀ call ∈ s'.os.log, call.failed (· = .ENOTDIR) = false)
    (hharmless : ∀ c ∈ s'.os.changes, c.Harmless) : goesOn = true := by
  obtain ⟨hgood, hJ⟩ := hs.settled hdeny hr hw
  have hturn := run_of_wp (wp_and (wp_processInotifyInput hgood (worldOs_singleEvents script))
    (wp_processInotifyInput_settled hr hJ hgood fuel)) hrun
  obtain ⟨⟨-, htrouble⟩, rest, hJ', -⟩ := hturn
  cases goesOn with
  | true => rfl
  | false =>
      rcases htrouble rfl with (hclash | hmoved | hrefused) | ⟨e, hread⟩
      · obtain ⟨call, hcall, h⟩ := hclash
        rw [(hdistinct call hcall).1] at h
        contradiction
      · obtain ⟨call, hcall, h⟩ := hmoved
        rw [(hJ' ⟨hharmless, hdistinct⟩).calm call hcall] at h
        contradiction
      · obtain ⟨call, hcall, h⟩ := hrefused
        rw [hdirs call hcall] at h
        contradiction
      · cases hread

end Sessions

/-- The directories {lit}`/`, {lit}`/r` and {lit}`/r/a` are a tree. -/
theorem twoDirectories_fresh : twoDirectories.Fresh := by
  refine ⟨⟨by decide, by decide, closed_of_dropLast (by decide), ?_, by decide, by decide,
    by decide, by decide⟩, rfl, rfl, rfl, rfl, rfl⟩
  unfold ValidPath
  decide

/-- Before the first buffer of events is read, {lit}`/r/a` is renamed to {lit}`/r/b` and
{lit}`/r/n` is created. -/
def renameAndCreate : Nat → Turn :=
  scriptAt 9 [.rename [cstr "r"] (cstr "a") [cstr "r"] (cstr "b") true,
    .mkdir [cstr "r"] (cstr "n")]

theorem renameAndCreate_registrable : Registrable renameAndCreate [cstr "/r"] := by
  refine ⟨fun root hroot => ?_, fun t op hop => ?_⟩
  · rw [List.mem_singleton.mp hroot]
    exact ⟨[cstr "r"], by decide, by decide⟩
  · unfold renameAndCreate scriptAt at hop
    split at hop
    · simp only [List.mem_cons, List.not_mem_nil, or_false] at hop
      rcases hop with rfl | rfl
      · intro root hroot
        rw [List.mem_singleton.mp hroot]
        decide
      · trivial
    · exact absurd hop List.not_mem_nil

/-- The main loop goes on, and {lit}`/r/b` and {lit}`/r/n` are watched. -/
theorem processInotifyInput_goes_on_renamed :
    ∃ s s', Watching (worldOs renameAndCreate) (start twoDirectories 8 (by decide)) [cstr "/r"] s ∧
      (perform (worldOs renameAndCreate) 9 .inotifyInput).run s = .ok (true, s') ∧
      (s'.heap.get 2).map (·.path) = some (cstr "/r/b") ∧
      (s'.heap.get 3).map (·.path) = some (cstr "/r/n") := by
  have hcheck : returned ((perform (worldOs renameAndCreate) 9
      (.updateRoots [cstr "/r"])).run (start twoDirectories 8 (by decide))) true
      (fun s => ∃ b ∈ [false, true], returned ((perform (worldOs renameAndCreate) 9
        .inotifyInput).run s) b (fun s' => (s'.heap.get 2).map (·.path) = some (cstr "/r/b") ∧
          (s'.heap.get 3).map (·.path) = some (cstr "/r/n") ∧
          (∀ call ∈ s'.os.log, call.clashes 8 = false ∧ call.overlaps 8 = false) ∧
          (∀ call ∈ s'.os.log, call.failed (· = .ENOTDIR) = false) ∧
          ∀ c ∈ s'.os.changes, c.Harmless) = true) = true := by
    decide +kernel
  obtain ⟨s, hrun, htest⟩ := exists_of_returned hcheck
  obtain ⟨b, -, hinput⟩ := of_decide_eq_true htest
  obtain ⟨s', hrun', htest'⟩ := exists_of_returned hinput
  obtain ⟨hb, hn, hdistinct, hdirs, hharmless⟩ := of_decide_eq_true htest'
  have hs : Watching (worldOs renameAndCreate) (start twoDirectories 8 (by decide)) [cstr "/r"] s :=
    .register 9 hrun
  have hgoes := processInotifyInput_goes_on (scriptAt_gentle _ _) renameAndCreate_registrable
    twoDirectories_fresh (by decide) hs hrun' hdistinct hdirs hharmless
  exact ⟨s, s', hs, hgoes ▸ hrun', hb, hn⟩

end FsNotifier
end IdeMultiarch
