import IdeMultiarch.FsNotifier.Doomed

/-!
# fsnotifier - what the notifier knows of a changing world

A node has the path where its directory is, or it is doomed.  This holds in every state of a
notifier in a world where other processes make harmless changes only.

Main results:

- Theorem {lit}`Settled.change`: a harmless change leaves all moved directories doomed.
- Theorem {lit}`Settled.read`: so does reading events.
- Theorem {lit}`Settled.rmCall`: so does giving back a descriptor.
-/

namespace IdeMultiarch
namespace FsNotifier

open Library

/-! ## The state of the notifier -/

/-- What the notifier is doing: it waits or is between two events, it registers roots, or it walks
a directory that has arrived in that of the node {lit}`x`. -/
inductive Stage
  | idle
  | registering
  | walking (x : Nat) (top : Bytes)

/-- The walk does not come to the place. -/
def Stage.Avoids : Stage → Bytes → Prop
  | .idle, _ => True
  | .registering, _ => False
  | .walking _ top, place => isParentPath top place = false

/-- Where the events of the last buffer stand; {lit}`rest` are those not processed yet. -/
def Stage.Fits (stage : Stage) (rest : List KernelEvent) (s : State World) : Prop :=
  match stage with
  | .idle => rest = [] ∨ ∃ done, s.os.delivered = some (done ++ rest)
  | .registering => rest = [] ∧ s.os.delivered = none
  | .walking x top => ∃ done, s.os.delivered = some (done ++ rest) ∧
      ∃ e ∈ done, e.Named ∧ Leads s.heap e x top

/-- When some events are done, the notifier still stands among those of the buffer. -/
theorem Stage.Fits.mono {stage : Stage} {rest front rest' : List KernelEvent} {s t : State World}
    (hfits : stage.Fits rest s) (hdelivered : t.os.delivered = s.os.delivered)
    (hrest : rest = front ++ rest')
    (hleads : ∀ x top e, stage = .walking x top → Leads s.heap e x top → Leads t.heap e x top) :
    stage.Fits rest' t := by
  unfold Stage.Fits at hfits ⊢
  rw [hdelivered]
  cases hstage : stage with
  | idle =>
      rw [hstage] at hfits
      rcases hfits with hnil | ⟨done, hdone⟩
      · rw [hnil] at hrest
        exact Or.inl (List.append_eq_nil_iff.mp hrest.symm).2
      · refine Or.inr ⟨done ++ front, ?_⟩
        rw [List.append_assoc, ← hrest]
        exact hdone
  | registering =>
      rw [hstage] at hfits
      rw [hfits.1] at hrest
      exact ⟨(List.append_eq_nil_iff.mp hrest.symm).2, hfits.2⟩
  | walking x top =>
      rw [hstage] at hfits
      obtain ⟨done, hdone, e, he, hnamed, hleading⟩ := hfits
      refine ⟨done ++ front, ?_, e, List.mem_append_left _ he, hnamed,
        hleads x top e hstage hleading⟩
      rw [List.append_assoc, ← hrest]
      exact hdone

/-- The slot of the descriptor is empty or has a node with this very descriptor. -/
def OwnSlot (s : State World) (wd : Nat) : Prop :=
  ∀ a n, s.heap.get a = some n → n.wd % s.watches.capacity = wd % s.watches.capacity → n.wd = wd

/-- What holds between any two steps of the notifier when all changes are harmless.  The kernel
has handed out descriptors for the nodes, and for those in {lit}`dead`, which are being given
back.  A node has the path where its directory is, or it is doomed. -/
structure Settled (roots : List Bytes) (stage : Stage) (rest : List KernelEvent)
    (dead : List Nat) (s : State World) : Prop where
  tree : Tree s.os
  inode_lt : ∀ k ∈ s.os.watches, k.inode < s.os.nextInode
  wellLinked : WellLinked s.watches s.heap
  shape : Shape roots s.heap
  node_held : ∀ a n, s.heap.get a = some n → (n.wd, n.path) ∈ s.os.held
  held_node : ∀ h ∈ s.os.held, h.1 ∈ dead ∨ ∃ a n, s.heap.get a = some n ∧ n.wd = h.1 ∧ n.path = h.2
  held_lt : ∀ h ∈ s.os.held, h.1 < s.os.nextWd
  placed : ∀ k ∈ s.os.watches, ∀ d ∈ s.os.dirs, d.inode = k.inode →
    ∀ a n, s.heap.get a = some n → n.wd = k.wd → n.path = render d.path ∨
      (stage.Avoids (render d.path) ∧ Doomed s.heap (rest ++ s.os.queue) a (render d.path))
  event_lt : ∀ e ∈ rest ++ s.os.queue, e.wd < s.os.nextWd
  event_named : ∀ e ∈ rest ++ s.os.queue, e.Named
  event_slot : ∀ e ∈ rest ++ s.os.queue, OwnSlot s e.wd
  watch_slot : ∀ k ∈ s.os.watches, OwnSlot s k.wd
  fits : stage.Fits rest s
  calm : ∀ call ∈ s.os.log, call.moved = false

namespace Settled

variable {roots : List Bytes} {stage : Stage} {rest : List KernelEvent} {dead : List Nat}
  {s : State World}

/-- The limit flag, the output and the registered roots do not matter. -/
theorem frame (h : Settled roots stage rest dead s) (rs : List WatchRoot) (limit : Bool)
    (out : Bytes) :
    Settled roots stage rest dead { s with roots := rs, limitReached := limit, stdout := out } :=
  ⟨h.tree, h.inode_lt, h.wellLinked, h.shape, h.node_held, h.held_node, h.held_lt, h.placed,
    h.event_lt, h.event_named, h.event_slot, h.watch_slot, h.fits, h.calm⟩

/-- Only the directories, the watches, the events and the descriptors matter. -/
theorem of_same (h : Settled roots stage rest dead s) {w : World} (hdirs : w.dirs = s.os.dirs)
    (hinode : w.nextInode = s.os.nextInode) (hwatches : w.watches = s.os.watches)
    (hwd : w.nextWd = s.os.nextWd) (hqueue : w.queue = s.os.queue)
    (hdelivered : w.delivered = s.os.delivered) (hheld : w.held = s.os.held)
    (hlog : w.log = s.os.log) : Settled roots stage rest dead { s with os := w } := by
  obtain ⟨h₁, h₂, h₃, h₄, h₅, h₆, h₇, h₈, h₉, h₁₀, h₁₁, h₁₂, h₁₃, h₁₄⟩ := h
  refine ⟨h₁.of_same hdirs hinode hwatches hwd, ?_, h₃, h₄, ?_, ?_, ?_, ?_, ?_, ?_, ?_, ?_, ?_, ?_⟩
  · rwa [hwatches, hinode]
  · rwa [hheld]
  · rwa [hheld]
  · rwa [hheld, hwd]
  · rwa [hwatches, hdirs, hqueue]
  · rwa [hqueue, hwd]
  · rwa [hqueue]
  · rwa [hqueue]
  · rwa [hwatches]
  · unfold Stage.Fits at h₁₃ ⊢
    rwa [hdelivered]
  · rwa [hlog]

/-- A descriptor that is not given back has one path only. -/
theorem path_unique (h : Settled roots stage rest dead s) {a : Nat} {n : WatchNode}
    (hn : s.heap.get a = some n) (hdead : n.wd ∉ dead) {path : Bytes}
    (hheld : (n.wd, path) ∈ s.os.held) : path = n.path := by
  rcases h.held_node _ hheld with hin | ⟨b, m, hm, hwd, hpath⟩
  · exact absurd hin hdead
  · have hb := h.wellLinked.slotted.get_of_node hm
    rw [hwd, h.wellLinked.slotted.get_of_node hn] at hb
    cases hb
    rw [hn] at hm
    cases hm
    exact hpath.symm

/-- A change in which every watched directory that moves leaves a doomed node behind. -/
theorem shifts (h : Settled roots stage rest dead s) {w : World} {Moved : Path → Path → Prop}
    (hs : Shifts Moved s.os w)
    (hmoved : ∀ k ∈ w.watches, ∀ path inode, ⟨path, inode⟩ ∈ s.os.dirs → inode = k.inode →
      ∀ path', Moved path path' → ∀ a n, s.heap.get a = some n → n.wd = k.wd →
        n.path = render path' ∨
          (stage.Avoids (render path') ∧ Doomed s.heap (rest ++ w.queue) a (render path'))) :
    Settled roots stage rest dead { s with os := w } := by
  have hu := hs.untouched
  obtain ⟨more, hmore, hwds⟩ := hs.queue
  refine ⟨hs.tree, hs.inode_lt, h.wellLinked, h.shape, ?_, ?_, ?_, ?_, ?_, ?_, ?_,
    fun k hk => h.watch_slot k (hu.watches k hk), ?_, ?_⟩
  · rw [hu.held]
    exact h.node_held
  · rw [hu.held]
    exact h.held_node
  · rw [hu.held, hu.nextWd]
    exact h.held_lt
  · intro k hk d' hd' hinode a n hn hwd
    rcases hs.place k hk d' hd' hinode with hd | ⟨path, hd, hmove⟩
    · rcases h.placed k (hu.watches k hk) d' hd hinode a n hn hwd with hpath | ⟨havoids, hdoomed⟩
      · exact Or.inl hpath
      · refine Or.inr ⟨havoids, ?_⟩
        rw [hmore, ← List.append_assoc]
        exact hdoomed.append more
    · exact hmoved k hk path d'.inode hd hinode d'.path hmove a n hn hwd
  · rw [hmore, ← List.append_assoc, hu.nextWd]
    intro e he
    rcases List.mem_append.mp he with he | he
    · exact h.event_lt e he
    · obtain ⟨-, k, hk, hwd⟩ := hwds e he
      rw [← hwd]
      exact h.tree.wd_lt k hk
  · rw [hmore, ← List.append_assoc]
    intro e he
    rcases List.mem_append.mp he with he | he
    · exact h.event_named e he
    · exact (hwds e he).1
  · rw [hmore, ← List.append_assoc]
    intro e he
    rcases List.mem_append.mp he with he | he
    · exact h.event_slot e he
    · obtain ⟨-, k, hk, hwd⟩ := hwds e he
      rw [← hwd]
      exact h.watch_slot k hk
  · have hfits := h.fits
    unfold Stage.Fits at hfits ⊢
    rw [hs.delivered]
    exact hfits
  · rw [hu.log]
    exact h.calm

/-- The events that may still have to be processed are among those recorded with a change. -/
theorem mem_pending (h : Settled roots stage rest dead s) {reading : Bool}
    (hreading : reading = true → stage = .idle ∧ rest = []) {events : List KernelEvent}
    (hevents : events ∈ s.os.pending reading) :
    (∀ e ∈ rest ++ s.os.queue, e ∈ events) ∧
      ∀ x top, stage = .walking x top → ∃ e ∈ events, Leads s.heap e x top := by
  have hfits := h.fits
  unfold World.pending at hevents
  cases reading with
  | true =>
      obtain ⟨rfl, rfl⟩ := hreading rfl
      cases hevents
      exact ⟨fun e he => he, fun x top htop => by contradiction⟩
  | false =>
      obtain ⟨delivered, hdelivered, rfl⟩ := Option.map_eq_some_iff.mp hevents
      cases stage with
      | idle =>
          refine ⟨fun e he => ?_, fun x top htop => by contradiction⟩
          rcases hfits with rfl | ⟨done, hdone⟩
          · exact List.mem_append_right _ he
          · rw [hdelivered] at hdone
            cases hdone
            rw [List.append_assoc]
            exact List.mem_append_right _ he
      | registering =>
          rw [hfits.2] at hdelivered
          contradiction
      | walking x top =>
          obtain ⟨done, hdone, e, he, -, hleads⟩ := hfits
          rw [hdelivered] at hdone
          cases hdone
          refine ⟨fun e he => ?_, fun x' top' htop => ?_⟩
          · rw [List.append_assoc]
            exact List.mem_append_right _ he
          · cases htop
            exact ⟨e, List.mem_append_left _ (List.mem_append_left _ he), hleads⟩

/-- The descriptors of these events are recorded with a new watch. -/
theorem mem_pendingWds (h : Settled roots stage rest dead s) {e : KernelEvent}
    (he : e ∈ rest ++ s.os.queue) : e.wd ∈ s.os.pendingWds := by
  refine List.mem_map_of_mem ?_
  rcases List.mem_append.mp he with he | he
  · refine List.mem_append_left _ ?_
    have hfits := h.fits
    cases stage with
    | idle =>
        rcases hfits with rfl | ⟨done, hdone⟩
        · simp at he
        · rw [hdone]
          exact List.mem_append_right _ he
    | registering =>
        rw [hfits.1] at he
        simp at he
    | walking x top =>
        obtain ⟨done, hdone, -⟩ := hfits
        rw [hdone]
        exact List.mem_append_right _ he
  · exact List.mem_append_right _ he

/-- Walks that pending events start stay apart from the new place of a harmless rename. -/
theorem apart_of_unexpected (h : Settled roots stage rest dead s) {new : Path}
    {events : List KernelEvent} (hevents : ∀ e ∈ events, e.Arrival → ∀ name ∈ e.name,
      ∀ held ∈ s.os.held, held.1 = e.wd → PathsApart (held.2 ++ slash :: name) (render new))
    (t : Path) {e : KernelEvent} (he : e ∈ events) {x : Nat} {path : Bytes} (hleads : Leads s.heap e x path) :
    PathsApart path (render (new ++ t)) := by
  obtain ⟨harrival, n, name, hn, hwd, hname, rfl⟩ := hleads
  exact (hevents e he harrival name hname _ (h.node_held x n hn) hwd).below
    (isParentPath_render_append new t)

/-- The event that the old parent gets about a rename drops all nodes below the old name, if what
the notifier knows of the old place is up to date. -/
theorem drops_movedFrom (h : Settled roots stage rest dead s) {oldParent : Path}
    {oldName : Bytes} {t : Path} {c : Change} (hdirs : c.dirs = s.os.dirs)
    (hwatches : c.watches = s.os.watches) (hheld : c.held = s.os.held)
    (hspares : ∀ root ∈ roots,
      isParentPath (render (oldParent ++ [oldName])) (rootPath root) = false)
    (hparent : c.Current oldParent) (hold : c.Current (oldParent ++ [oldName]))
    (hshadow : c.Unshadowed oldParent oldName) (hvalid : ValidPath (oldParent ++ [oldName] ++ t))
    {a : Nat} {n : WatchNode} (hn : s.heap.get a = some n)
    (hpath : n.path = render (oldParent ++ [oldName] ++ t)) :
    ∃ wd inode, ⟨oldParent, inode⟩ ∈ s.os.dirs ∧ ⟨wd, inode⟩ ∈ s.os.watches ∧
      Drops s.heap ⟨wd, .movedFrom, some oldName⟩ a := by
  have hl := h.wellLinked.linked
  have hvalid' : ValidPath (oldParent ++ [oldName]) :=
    fun x hx => hvalid x (List.mem_append_left _ hx)
  -- the node with the old name, and its parent
  obtain ⟨b, m, hm, hmpath, hsteps⟩ := h.shape.above hl hspares hvalid hn hpath
  have hnot : ∀ root ∈ roots, m.path ≠ rootPath root := by
    intro root hroot hsame
    have hspared := hspares root hroot
    rw [← hsame, hmpath, isParentPath_refl] at hspared
    contradiction
  obtain ⟨x, p, hp, hkid, hppath⟩ := h.shape.parent hl hm hvalid' hmpath hnot
  obtain ⟨k, hk, hkwd, d, hd, hinode, hdpath⟩ :=
    hparent _ (by rw [hheld]; exact h.node_held x p hp) hppath
  rw [hwatches] at hk
  rw [hdirs] at hd
  have hevent : p.path ++ slash :: oldName = render (oldParent ++ [oldName]) := by
    rw [hppath, render_snoc]
  -- the descriptor held for the old name is that of the directory there
  have hcurrent : ∀ b' m', s.heap.get b' = some m' →
      m'.path = render (oldParent ++ [oldName]) → b' = b := by
    intro b' m' hm' hpath'
    obtain ⟨k₁, hk₁, hwd₁, d₁, hd₁, hinode₁, hpath₁⟩ :=
      hold _ (by rw [hheld]; exact h.node_held b m hm) hmpath
    obtain ⟨k₂, hk₂, hwd₂, d₂, hd₂, hinode₂, hpath₂⟩ :=
      hold _ (by rw [hheld]; exact h.node_held b' m' hm') hpath'
    rw [hwatches] at hk₁ hk₂
    rw [hdirs] at hd₁ hd₂
    have hd₁₂ := h.tree.path_inj d₁ hd₁ d₂ hd₂ (hpath₁.trans hpath₂.symm)
    have hk₁₂ := h.tree.watch_inode k₁ hk₁ k₂ hk₂
      (hinode₁.symm.trans ((congrArg Dir.inode hd₁₂).trans hinode₂))
    have hslot := h.wellLinked.slotted.get_of_node hm
    have hwd : m.wd = m'.wd := hwd₁.symm.trans ((congrArg KernelWatch.wd hk₁₂).trans hwd₂)
    rw [hwd, h.wellLinked.slotted.get_of_node hm'] at hslot
    exact Option.some.inj hslot
  refine ⟨p.wd, k.inode, ?_, ?_, x, p, oldName, b, hp, rfl, rfl, ?_, hsteps⟩
  · rw [← hinode, ← hdpath]
    exact hd
  · have hkp : k.wd = p.wd := hkwd
    rw [← hkp]
    exact hk
  · -- some kid matches, and none but the node with the old name does
    cases hmatch : matchingKid s.heap p.kids (p.path ++ slash :: oldName)
        (List.range p.kids.length) with
    | none =>
        obtain ⟨i, hi⟩ := List.mem_iff_getElem?.mp hkid
        have hfalse := not_matches_of_matchingKid_eq_none hmatch hi
        rw [Bool.eq_false_iff] at hfalse
        have hpath' : m.path = p.path ++ slash :: oldName := hmpath.trans hevent.symm
        exact absurd ((kidMatches_iff hm).mpr (hpath' ▸ List.prefix_rfl)) hfalse
    | some b' =>
        obtain ⟨i, hi, hfront, -⟩ := matchingKid_range_eq_some hmatch
        obtain ⟨m', hm', hpar'⟩ := hl.kid_live hp (List.mem_of_getElem? hi)
        rw [kidMatches_iff hm', hevent] at hfront
        obtain ⟨name', -, hentry⟩ := h.shape.entry b' m' x p hm' hpar' hp
        have hbelow : (render oldParent ++ [slash]) <+: m'.path :=
          ⟨name', by rw [hentry, hppath]; simp⟩
        have hpath' := hshadow _ (by rw [hheld]; exact h.node_held b' m' hm') hbelow hfront
        rw [hcurrent b' m' hm' hpath']

/-- A harmless rename leaves the directories it moves doomed. -/
theorem rename (h : Settled roots stage rest dead s) {oldParent newParent : Path}
    {oldName newName : Bytes} {replace : Bool}
    (hspares : (FsOp.rename oldParent oldName newParent newName replace).Spares roots)
    {reading : Bool} (hreading : reading = true → stage = .idle ∧ rest = [])
    (hharmless : (⟨.rename oldParent oldName newParent newName replace, s.os.dirs, s.os.watches,
      s.os.held, s.os.pending reading⟩ : Change).Harmless) :
    Settled roots stage rest dead
      { s with os := s.os.rename oldParent oldName newParent newName replace } := by
  rcases rename_shifts h.tree h.inode_lt oldParent oldName newParent newName replace with
    hsame | ⟨hs, hfirst⟩
  · rw [hsame]
    exact h
  · refine h.shifts hs ?_
    rintro k hk path inode hd hinode path' ⟨t, rfl, rfl⟩ a n hn hwd
    have hk' := hs.untouched.watches k hk
    rcases hharmless with hunwatched | ⟨hparent, hold, hshadow, events, hevents, hclear⟩
    · exact absurd (List.prefix_append _ t) (hunwatched k hk' _ hd hinode)
    · obtain ⟨hpending, hwalking⟩ := h.mem_pending hreading hevents
      right
      refine ⟨?_, ?_⟩
      · -- the walk that is under way was started by one of the recorded events
        cases hstage : stage with
        | idle => trivial
        | registering =>
            have hfits := h.fits
            rw [hstage] at hfits
            unfold World.pending at hevents
            cases reading with
            | true =>
                rw [hstage] at hreading
                exact absurd (hreading rfl).1 (by simp)
            | false =>
                rw [if_neg (by simp), hfits.2] at hevents
                contradiction
        | walking x top =>
            obtain ⟨e, he, hleads⟩ := hwalking x top hstage
            exact (h.apart_of_unexpected hclear t he hleads).1
      · obtain ⟨more, hmore, -⟩ := hs.queue
        have happart : ∀ e ∈ rest ++ s.os.queue, ∀ x path, Leads s.heap e x path →
            PathsApart path (render (newParent ++ [newName] ++ t)) :=
          fun e he x path hleads => h.apart_of_unexpected hclear t (hpending e he) hleads
        rcases h.placed k hk' _ hd hinode a n hn hwd with hpath | ⟨-, hdoomed⟩
        · obtain ⟨wd, i, hparentDir, hwatched, hdrops⟩ := h.drops_movedFrom rfl rfl rfl hspares
            hparent hold hshadow (h.tree.valid _ hd) hn hpath
          obtain ⟨after, hafter⟩ := hfirst wd i hparentDir hwatched
          exact ⟨rest ++ s.os.queue, _, after, by rw [hafter, List.append_assoc], rfl, hdrops,
            happart⟩
        · rw [hmore, ← List.append_assoc]
          exact (hdoomed.move happart).append more

/-- A harmless change leaves all moved directories doomed. -/
theorem change (h : Settled roots stage rest dead s) {op : FsOp} (hspares : op.Spares roots)
    {reading : Bool} (hreading : reading = true → stage = .idle ∧ rest = [])
    (hharmless : (⟨op, s.os.dirs, s.os.watches, s.os.held, s.os.pending reading⟩ :
      Change).Harmless) :
    Settled roots stage rest dead { s with os := (s.os.note reading op).apply op } := by
  have hnoted : Settled roots stage rest dead { s with os := s.os.note reading op } :=
    h.of_same rfl rfl rfl rfl rfl rfl rfl rfl
  cases op with
  | mkdir parent name =>
      refine hnoted.shifts (Shifts.mkdir hnoted.tree hnoted.inode_lt parent name) ?_
      exact fun _ _ _ _ _ _ _ hmoved => hmoved.elim
  | rmdir parent name =>
      refine hnoted.shifts (Shifts.rmdir hnoted.tree hnoted.inode_lt parent name) ?_
      exact fun _ _ _ _ _ _ _ hmoved => hmoved.elim
  | rename oldParent oldName newParent newName replace =>
      exact hnoted.rename hspares hreading hharmless

/-- Harmless changes, one after the other. -/
theorem applyAll (h : Settled roots stage rest dead s) {ops : List FsOp}
    (hspares : ∀ op ∈ ops, op.Spares roots) {reading : Bool}
    (hreading : reading = true → stage = .idle ∧ rest = [])
    (hharmless : ∀ c ∈ (s.os.applyAll reading ops).changes, c.Harmless) :
    Settled roots stage rest dead { s with os := s.os.applyAll reading ops } := by
  induction ops generalizing s with
  | nil => exact h
  | cons op ops ih =>
      -- what is recorded stays recorded
      obtain ⟨more, hmore⟩ := World.changes_applyAll ((s.os.note reading op).apply op) reading ops
      have hrecorded : (⟨op, s.os.dirs, s.os.watches, s.os.held, s.os.pending reading⟩ : Change) ∈
          (s.os.applyAll reading (op :: ops)).changes := by
        change _ ∈ (((s.os.note reading op).apply op).applyAll reading ops).changes
        rw [hmore, World.changes_apply]
        simp [World.note]
      exact ih (s := { s with os := (s.os.note reading op).apply op })
        (h.change (hspares op (by simp)) hreading (hharmless _ hrecorded))
        (fun op hop => hspares op (List.mem_cons_of_mem _ hop)) hharmless

/-- What other processes do before a call. -/
theorem advance (h : Settled roots stage rest dead s) {turn : Turn}
    (hspares : ∀ op ∈ turn.ops, op.Spares roots) {reading : Bool}
    (hreading : reading = true → stage = .idle ∧ rest = [])
    (hharmless : ∀ c ∈ (s.os.advance reading turn).changes, c.Harmless) :
    Settled roots stage rest dead { s with os := s.os.advance reading turn } :=
  (h.applyAll hspares hreading hharmless).of_same rfl rfl rfl rfl rfl rfl rfl rfl

end Settled

/-! ## System calls -/

/-- Other processes do not rename the roots, nor what is above them. -/
def SparesRoots (roots : List Bytes) (script : Nat → Turn) : Prop :=
  ∀ t, ∀ op ∈ (script t).ops, op.Spares roots

/-- The answer's descriptor shares its slot with another one that events are pending for. -/
def AddCall.overlaps (capacity : Nat) (call : AddCall) : Bool :=
  match call.answer with
  | .ok wd => call.pending.any fun wd' => wd' % capacity = wd % capacity ∧ wd' ≠ wd
  | .error _ => false

/-- All changes so far were harmless, and no descriptors in use shared a slot. -/
structure Careful (capacity : Nat) (w : World) : Prop where
  harmless : ∀ c ∈ w.changes, c.Harmless
  distinct : ∀ call ∈ w.log, call.clashes capacity = false ∧ call.overlaps capacity = false

section Calls

variable {script : Nat → Turn} {roots : List Bytes} {stage : Stage} {rest : List KernelEvent}
  {dead : List Nat} {capacity : Nat} {s : State World}

/-- No call but those of other processes is recorded as a change. -/
theorem worldOs_changes (c : SysCall DirStream) (w : World) :
    (worldOs script c w).2.changes = (w.advance c.reads (script w.time)).changes := by
  unfold worldOs World.answer
  cases c with
  | inotifyAddWatch path =>
      unfold World.addWatch World.answerAdd
      dsimp only
      split
      · rfl
      · rfl
      · split <;> rfl
  | inotifyRmWatch wd =>
      unfold World.rmWatch
      dsimp only
      split <;> rfl
  | _ => rfl

/-- Before a careful call everything was careful. -/
theorem Careful.before {c : SysCall DirStream} {w : World}
    (h : Careful capacity (worldOs script c w).2) : Careful capacity w := by
  refine ⟨fun change hchange => h.harmless change ?_, fun call hcall => h.distinct call ?_⟩
  · obtain ⟨more, hmore⟩ := World.changes_applyAll w c.reads (script w.time).ops
    rw [worldOs_changes]
    change change ∈ (w.applyAll c.reads (script w.time).ops).changes
    rw [hmore]
    exact List.mem_append_left _ hchange
  · obtain ⟨calls, hlog⟩ := worldOs_log script c w
    rw [hlog]
    exact List.mem_append_left _ hcall

theorem Careful.before_rmCalls {wds : List Nat} {w : World}
    (h : Careful capacity (rmCalls (worldOs script) wds w)) : Careful capacity w := by
  induction wds generalizing w with
  | nil => exact h
  | cons wd wds ih => exact (ih h).before

/-- What {lit}`read` returns is what it delivers. -/
theorem worldOs_read (script : Nat → Turn) (w : World) : ∃ events,
    (worldOs script .read w).2.delivered = some events ∧
      (worldOs script .read w).1 = .ok (events.map (·.toInotify)) :=
  ⟨_, rfl, rfl⟩

namespace Settled

/-- What other processes do before a careful call. -/
theorem moved_first (h : Settled roots stage rest dead s) (hscript : SparesRoots roots script)
    {c : SysCall DirStream} (hc : c.reads = true → stage = .idle ∧ rest = [])
    (hcareful : Careful capacity (worldOs script c s.os).2) :
    Settled roots stage rest dead
      { s with os := s.os.advance c.reads (script s.os.time) } := by
  refine h.advance (hscript _) hc fun change hchange => hcareful.harmless change ?_
  rw [worldOs_changes]
  exact hchange

/-- A call that only looks. -/
theorem look (h : Settled roots stage rest dead s) (hscript : SparesRoots roots script)
    {c : SysCall DirStream} (hlooks : c.Looks) (hreads : c.reads = false)
    (hcareful : Careful capacity (worldOs script c s.os).2) :
    Settled roots stage rest dead { s with os := (worldOs script c s.os).2 } := by
  have hmoved := h.moved_first hscript (fun hc => absurd hc (by simp [hreads])) hcareful
  cases c with
  | inotifyAddWatch path => exact hlooks.elim
  | inotifyRmWatch wd => exact hlooks.elim
  | read => contradiction
  | _ => exact hmoved

/-- Reading a buffer of events. -/
theorem read (h : Settled roots .idle [] [] s) (hscript : SparesRoots roots script)
    (hcareful : Careful capacity (worldOs script .read s.os).2) {events : List KernelEvent}
    (hevents : (worldOs script .read s.os).2.delivered = some events) :
    Settled roots .idle events [] { s with os := (worldOs script .read s.os).2 } := by
  have hmoved := h.moved_first hscript (fun _ => ⟨rfl, rfl⟩) hcareful
  let w := s.os.advance true (script s.os.time)
  let count := (script s.os.time).pick.getD w.queue.length + 1
  have htaken : w.queue.take count = events := Option.some.inj hevents
  have hqueue : events ++ w.queue.drop count = [] ++ w.queue := by
    rw [← htaken]
    exact List.take_append_drop count _
  change Settled roots .idle events [] { s with os := w.take count }
  refine ⟨hmoved.tree.of_same rfl rfl rfl rfl, hmoved.inode_lt, h.wellLinked, h.shape,
    hmoved.node_held, hmoved.held_node, hmoved.held_lt, ?_, ?_, ?_, ?_, hmoved.watch_slot,
    Or.inr ⟨[], hevents⟩, hmoved.calm⟩
  · intro k hk d hd hinode a n hn hwd
    have hplaced := hmoved.placed k hk d hd hinode a n hn hwd
    change _ ∨ _ ∧ Doomed s.heap (events ++ w.queue.drop count) a _
    rw [hqueue]
    exact hplaced
  · change ∀ e ∈ events ++ w.queue.drop count, _
    rw [hqueue]
    exact hmoved.event_lt
  · change ∀ e ∈ events ++ w.queue.drop count, _
    rw [hqueue]
    exact hmoved.event_named
  · change ∀ e ∈ events ++ w.queue.drop count, OwnSlot s e.wd
    rw [hqueue]
    exact hmoved.event_slot

/-- Giving back one descriptor that no node has. -/
theorem rmCall {wd : Nat} (h : Settled roots stage rest (wd :: dead) s)
    (hscript : SparesRoots roots script) (hno : ∀ a n, s.heap.get a = some n → n.wd ≠ wd)
    (hcareful : Careful capacity (worldOs script (.inotifyRmWatch wd) s.os).2) :
    Settled roots stage rest dead
      { s with os := (worldOs script (.inotifyRmWatch wd) s.os).2 } := by
  have hmoved := h.moved_first hscript (fun hc => by contradiction) hcareful
  let w := s.os.advance false (script s.os.time)
  have hnode : ∀ a n, s.heap.get a = some n →
      (n.wd, n.path) ∈ w.held.filter fun h => h.1 ≠ wd := fun a n hn =>
    List.mem_filter.mpr ⟨hmoved.node_held a n hn, decide_eq_true (hno a n hn)⟩
  have hheld : ∀ held ∈ w.held.filter fun h => h.1 ≠ wd, held.1 ∈ dead ∨
      ∃ a n, s.heap.get a = some n ∧ n.wd = held.1 ∧ n.path = held.2 := by
    intro held hmem
    obtain ⟨hmem, hne⟩ := List.mem_filter.mp hmem
    rcases hmoved.held_node held hmem with hdead | hnode
    · rcases List.mem_cons.mp hdead with heq | hdead
      · exact absurd heq (of_decide_eq_true hne)
      · exact Or.inl hdead
    · exact Or.inr hnode
  unfold worldOs World.answer World.rmWatch
  dsimp only
  split
  · rename_i hany
    obtain ⟨k, hk, hwd⟩ := List.any_eq_true.mp hany
    have hwd : k.wd = wd := of_decide_eq_true hwd
    refine ⟨(hmoved.tree.unwatch _).of_same rfl rfl rfl rfl,
      fun k hk => hmoved.inode_lt k (List.mem_filter.mp hk).1, h.wellLinked, h.shape, hnode, hheld,
      fun held hmem => hmoved.held_lt held (List.mem_filter.mp hmem).1, ?_, ?_, ?_, ?_,
      fun k hk => hmoved.watch_slot k (List.mem_filter.mp hk).1, ?_, hmoved.calm⟩
    · intro k hk d hd hinode a n hn hwd
      rcases hmoved.placed k (List.mem_filter.mp hk).1 d hd hinode a n hn hwd with hpath |
        ⟨havoids, hdoomed⟩
      · exact Or.inl hpath
      · refine Or.inr ⟨havoids, ?_⟩
        have hmore := hdoomed.append [⟨wd, .ignored, none⟩]
        rw [List.append_assoc] at hmore
        exact hmore
    · intro e he
      rcases List.mem_append.mp he with he | he
      · exact hmoved.event_lt e (List.mem_append_left _ he)
      · rcases List.mem_append.mp he with he | he
        · exact hmoved.event_lt e (List.mem_append_right _ he)
        · rw [List.mem_singleton.mp he, ← hwd]
          exact hmoved.tree.wd_lt k hk
    · intro e he
      rw [← List.append_assoc] at he
      rcases List.mem_append.mp he with he | he
      · exact hmoved.event_named e he
      · rw [List.mem_singleton.mp he]
        exact KernelEvent.named_of_not_arrival .ignored (by simp) none wd
    · intro e he
      rw [← List.append_assoc] at he
      rcases List.mem_append.mp he with he | he
      · exact hmoved.event_slot e he
      · rw [List.mem_singleton.mp he, ← hwd]
        exact hmoved.watch_slot k hk
    · have hfits := hmoved.fits
      unfold Stage.Fits at hfits ⊢
      exact hfits
  · refine ⟨hmoved.tree.of_same rfl rfl rfl rfl, hmoved.inode_lt, h.wellLinked, h.shape, hnode,
      hheld,
      fun held hmem => hmoved.held_lt held (List.mem_filter.mp hmem).1, hmoved.placed,
      hmoved.event_lt, hmoved.event_named, hmoved.event_slot, hmoved.watch_slot, ?_, hmoved.calm⟩
    have hfits := hmoved.fits
    unfold Stage.Fits at hfits ⊢
    exact hfits

/-- Giving back all descriptors that were to be given back. -/
theorem rmCalls {wds : List Nat} (h : Settled roots stage rest wds s)
    (hscript : SparesRoots roots script) (hno : ∀ a n, s.heap.get a = some n → n.wd ∉ wds)
    (hcareful : Careful capacity (FsNotifier.rmCalls (worldOs script) wds s.os)) :
    Settled roots stage rest [] { s with os := FsNotifier.rmCalls (worldOs script) wds s.os } := by
  induction wds generalizing s with
  | nil => exact h
  | cons wd wds ih =>
      have hrest : Careful capacity (FsNotifier.rmCalls (worldOs script) wds
          (worldOs script (.inotifyRmWatch wd) s.os).2) := hcareful
      have hone := h.rmCall hscript
        (fun a n hn hwd => hno a n hn (hwd ▸ List.mem_cons_self)) hrest.before_rmCalls
      exact ih hone (fun a n hn hmem => hno a n hn (List.mem_cons_of_mem _ hmem)) hcareful

end Settled

end Calls

end FsNotifier
end IdeMultiarch
