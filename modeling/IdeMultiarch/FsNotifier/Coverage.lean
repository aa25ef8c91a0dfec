import IdeMultiarch.FsNotifier.Growth

/-!
# fsnotifier - no directory is missed while the tree grows

Registering roots, processing events and looking for missing roots, in a world in which
directories are only added and no call fails.  Whenever the event queue is empty between
two turns of the main loop, every directory at or below a recursive root has a node.

Main results:

- Theorem {lit}`wp_watch_growth`: registering a root.
- Theorem {lit}`wp_processInotifyInput_growth`: reading events and processing them.
- Theorem {lit}`growing_tree_covered`: nothing is missed over a whole session.
-/

namespace IdeMultiarch
namespace FsNotifier

open Library

/-! ## Registering a root -/

/-- The root is recursive. -/
def Recursive (root : Bytes) : Prop :=
  (splitRoot root).1 = true

/-- The root is the spelling of a directory other than the one at the top of the file system. -/
def Names (w : World) (root : Bytes) : Prop :=
  ∃ d ∈ w.dirs, d.path ≠ [] ∧ render d.path = rootPath root

/-- A path that {lit}`resolve` finds is the spelling of a directory. -/
theorem World.resolve_root {w : World} {root : Bytes} {inode : Nat}
    (h : w.resolve (splitRoot root).2 = some inode) :
    ∃ d ∈ w.dirs, render d.path = rootPath root := by
  unfold World.resolve at h
  dsimp only at h
  split at h
  · contradiction
  · obtain ⟨d, hfind, -⟩ := Option.map_eq_some_iff.mp h
    have hd := List.mem_of_find?_eq_some hfind
    have hpath := List.find?_some hfind
    exact ⟨d, hd, by simpa [rootPath] using hpath⟩

theorem World.resolve_nil (w : World) : w.resolve [] = none := by
  unfold World.resolve
  rw [if_pos rfl]

theorem render_ne_nil {path : Path} (h : path ≠ []) : render path ≠ [] := by
  cases path with
  | nil => exact absurd rfl h
  | cons name path =>
      rw [render_cons]
      simp

/-- {lit}`resolve` finds the directory that a root names. -/
theorem Names.resolve {w : World} {root : Bytes} (h : Names w root) :
    w.resolve (splitRoot root).2 ≠ none := by
  obtain ⟨d, hd, hne, hpath⟩ := h
  have hroot : (splitRoot root).2 ≠ [] := by
    intro hnil
    apply render_ne_nil hne
    rw [hpath]
    unfold rootPath
    rw [hnil]
    rfl
  unfold World.resolve
  dsimp only
  rw [if_neg hroot]
  intro hnone
  have hfind := List.find?_eq_none.mp (Option.map_eq_none_iff.mp hnone) d hd
  exact hfind (decide_eq_true hpath)

/-- What the registration of a root does while the tree grows: if it succeeds and the root is
recursive, everything below the root is accounted for from then on. -/
structure WatchGrows (roots : List Bytes) (capacity : Nat) (tops : List Path) (root : Bytes)
    (s : State World) (id : Int) (s' : State World) : Prop where
  kept : Kept roots s s'
  named : Names s.os root → 0 ≤ id
  growth : ∃ tops', (∀ t ∈ tops, t ∈ tops') ∧
    Growth roots capacity tops' (fun _ => False) [] s' ∧
    (0 ≤ id → Recursive root → ∃ t ∈ tops', render t = rootPath root)

section Registering

variable {roots : List Bytes} {capacity : Nat} {tops : List Path} {script : Nat → Turn}
  {s : State World}

/-- A registration that only looked. -/
theorem WatchGrows.failed (h : Growth roots capacity tops (fun _ => False) [] s)
    {root : Bytes} {s₀ : State World} (hk : Kept roots s₀ s) {id : Int} (hid : id < 0)
    (hno : ¬ Names s₀.os root) : WatchGrows roots capacity tops root s₀ id s :=
  ⟨hk, fun hname => absurd hname hno, tops, fun _ ht => ht, h, fun hnonneg => by omega⟩

/-- The empty path cannot be watched. -/
theorem wp_walkTree_nil (hs : GrowsOnly roots script) {s₀ : State World}
    (h : Growth roots capacity tops (fun _ => False) [] s) (hk : Kept roots s₀ s)
    {root : Bytes} (hno : ¬ Names s₀.os root) (fuel : Nat) (recursive : Bool) :
    wp anyFault (walkTree (worldOs script) fuel [] none recursive [])
      (fun id s' => WatchGrows roots capacity tops root s₀ id s') s := by
  obtain ⟨h₁, hk₁⟩ := h.tick hs
  cases fuel with
  | zero => exact trivial
  | succ fuel =>
      unfold walkTree
      rw [if_neg (by simp)]
      cases recursive with
      | true =>
          rw [if_neg (by simp), wp_bind, wp_sys]
          change wp anyFault _ _ (tick script s)
          have hans : (worldOs script (.opendir []) s.os).1 = .error .ENOENT := by
            change World.opendir (tick script s).os (script s.os.time) [] = _
            unfold World.opendir
            rw [(hs s.os.time).1, World.resolve_nil]
          rw [hans]
          exact WatchGrows.failed h₁ (hk.trans hk₁) (by dsimp only; decide) hno
      | false =>
          rw [if_pos (by simp)]
          unfold addWatch
          rw [wp_bind, wp_sys]
          have hans : worldOs script (.inotifyAddWatch []) s.os =
              (tick script s).os.answerAdd [] (.error .ENOENT) := by
            change World.addWatch (tick script s).os (script s.os.time) [] = _
            unfold World.addWatch
            rw [(hs s.os.time).1, World.resolve_nil]
          rw [hans]
          exact WatchGrows.failed h₁.record (hk.trans ⟨hk₁.nodes, hk₁.watches, hk₁.dirs, rfl⟩)
            (by dsimp only; decide) hno

/-- Registering a root in a growing world without unwatchable mounts. -/
theorem wp_watch_growth (hs : GrowsOnly roots script)
    (h : Growth roots capacity tops (fun _ => False) [] s) {root : Bytes} (hroot : root ∈ roots)
    (fuel : Nat) :
    wp anyFault (watch (worldOs script) fuel root [])
      (fun id s' => DistinctWds capacity s'.os → WatchGrows roots capacity tops root s id s') s := by
  obtain ⟨h₁, hk₁⟩ := h.tick hs
  have hnamed : Names s.os root → Names (tick script s).os root := by
    rintro ⟨d, hd, hne, hpath⟩
    refine ⟨d, hk₁.dirs d hd ⟨hne, root, hroot, ?_⟩, hne, hpath⟩
    rw [hpath]
    exact isParentPath_refl _
  unfold watch
  rw [wp_bind, wp_sys]
  change wp anyFault _ _ (tick script s)
  have hans : (worldOs script (.stat (splitRoot root).2) s.os).1 =
      World.stat (tick script s).os (script s.os.time) (splitRoot root).2 := rfl
  rw [hans]
  unfold World.stat
  rw [(hs s.os.time).1]
  cases hres : (tick script s).os.resolve (splitRoot root).2 with
  | none =>
      exact fun _ => WatchGrows.failed h₁ hk₁ (by dsimp only; decide) fun hname => (hnamed hname).resolve hres
  | some inode =>
      obtain ⟨d, hd, hpath⟩ := World.resolve_root hres
      dsimp only
      by_cases hne : d.path = []
      · have hno : ¬ Names s.os root := by
          rintro ⟨d', -, hne', hpath'⟩
          rw [← hpath, hne] at hpath'
          exact render_ne_nil hne' hpath'
        rw [← hpath, hne]
        exact wp_weaken (wp_walkTree_nil hs h₁ hk₁ hno fuel _) fun _ _ hr _ => hr
      · have hin : Inside roots d.path := ⟨hne, root, hroot, by
          rw [hpath]
          exact isParentPath_refl _⟩
        rw [← hpath]
        cases hrec : (splitRoot root).1 with
        | true =>
            refine wp_weaken (wp_walkTree_growth hs fuel _ d none _ (h₁.addTop hd hin) hd hin
              (by simp [ParentLive])) fun id s' hr hD => ?_
            obtain ⟨hnonneg, h', hk'⟩ := hr hD
            refine ⟨hk₁.trans hk', fun _ => hnonneg, d.path :: tops,
              fun t ht => List.mem_cons_of_mem _ ht, h'.mono_existing ?_,
              fun _ _ => ⟨d.path, by simp, hpath⟩⟩
            rintro d' - ⟨hX | hX, hne⟩
            · exact hX
            · exact hne hX
        | false =>
            cases fuel with
            | zero => exact trivial
            | succ fuel =>
                unfold walkTree
                rw [if_neg (by simp), if_pos (by simp)]
                refine wp_weaken (wp_addWatch_growth hs h₁ hd hin (by simp [ParentLive]))
                  fun id s' hr hD => ?_
                obtain ⟨⟨a, n, -, hwd, -⟩, h', hk'⟩ := hr hD
                refine ⟨hk₁.trans hk', fun _ => by omega, tops, fun _ ht => ht, h', ?_⟩
                intro _ hrec'
                rw [Recursive, hrec] at hrec'
                contradiction

end Registering

/-! ## Processing events -/

section Events

variable {roots : List Bytes} {capacity : Nat} {tops : List Path} {script : Nat → Turn}
  {s : State World}

/-- The bits of an event that announces a directory. -/
theorem arrival_mask {happening : Happening} (h : happening = .created ∨ happening = .movedTo) :
    anyBit happening.mask IN_IGNORED = false ∧ anyBit happening.mask IN_Q_OVERFLOW = false ∧
    anyBit happening.mask (IN_DELETE_SELF ||| IN_MOVE_SELF) = false ∧
    anyBit happening.mask IN_UNMOUNT = false ∧ anyBit happening.mask IN_ISDIR = true ∧
    anyBit happening.mask (IN_CREATE ||| IN_MOVED_TO) = true ∧
    anyBit happening.mask (IN_DELETE ||| IN_MOVED_FROM) = false := by
  rcases h with rfl | rfl <;> decide

/-- Reading events takes them from the queue and leaves everything accounted for. -/
theorem Growth.read (h : Growth roots capacity tops (fun _ => False) [] s) (count : Nat) :
    Growth roots capacity tops (fun _ => False) (s.os.queue.take count)
      { s with os := s.os.take count } := by
  have hqueue : s.os.queue.take count ++ s.os.queue.drop count = [] ++ s.os.queue :=
    List.take_append_drop count _
  have ht := h.world.tree
  obtain ⟨done, hcovers⟩ := h.covered
  have hentry : ∀ d name, Accounted (fun _ => False) [] s done d name →
      Accounted (fun _ => False) (s.os.queue.take count)
        { s with os := s.os.take count } done d name := by
    rintro d name (hdone | hwaits | hX)
    · exact Or.inl hdone
    · right
      left
      change Waits s.os (s.os.queue.take count ++ s.os.queue.drop count) d name
      rw [hqueue]
      exact hwaits
    · exact hX.elim
  refine ⟨h.capacity, h.wellLinked, ⟨h.world.tree.of_same rfl rfl rfl rfl,
    h.world.inside, ?_⟩, h.node, h.watch,
    h.handed, h.top, done, hcovers.noded, hcovers.top, ?_, ?_⟩
  · intro e he
    change e ∈ s.os.queue.take count ++ s.os.queue.drop count at he
    rw [hqueue] at he
    exact h.world.announced e he
  · intro d hd hdone c hc name hpath
    exact hentry d name (hcovers.entry d hd hdone c hc name hpath)
  · intro d hd hnode c hc name hpath hnew
    exact hentry d name (hcovers.late d hd hnode c hc name hpath hnew)

/-- The next event is about a directory in a watched one, which has to be visited now. -/
theorem Growth.takeEvent {e : KernelEvent} {rest : List KernelEvent}
    (h : Growth roots capacity tops (fun _ => False) (e :: rest) s) :
    ∃ a n d name, s.watches.get (e.wd : Int) = some a ∧ s.heap.get a = some n ∧
      n.path ++ slash :: name = render d.path ∧ e.name = some name ∧ d ∈ s.os.dirs ∧
      Inside roots d.path ∧ Growth roots capacity tops (fun p => p = d.path) rest s := by
  obtain ⟨-, d, hd, hk, name, hname, d', hd', hpath⟩ := h.world.announced e (by simp)
  obtain ⟨a, n, hn, hwd⟩ : ∃ a n, s.heap.get a = some n ∧ n.wd = e.wd := h.watch _ hk
  have hunique : ∀ d₁ ∈ s.os.dirs, ⟨e.wd, d₁.inode⟩ ∈ s.os.watches → d₁ = d := by
    intro d₁ hd₁ hk₁
    have hkk := h.world.tree.watch_wd _ hk₁ _ hk rfl
    exact h.world.tree.inode_inj d₁ hd₁ d hd (KernelWatch.mk.inj hkk).2
  obtain ⟨d₀, hd₀, hpath₀, hin, hk₀⟩ := h.node hn
  rw [hwd] at hk₀
  rw [hunique d₀ hd₀ hk₀] at hpath₀ hin
  obtain ⟨done, hcovers⟩ := h.covered
  have hentry : ∀ d₁ ∈ s.os.dirs, ∀ name',
      Accounted (fun _ => False) (e :: rest) s done d₁ name' →
      Accounted (fun p => p = d'.path) rest s done d₁ name' := by
    rintro d₁ hd₁ name' (hdone | ⟨e', he', hk', hname'⟩ | hX)
    · exact Or.inl hdone
    · right
      rcases List.mem_cons.mp he' with rfl | he'
      · right
        rw [hunique d₁ hd₁ hk', hpath]
        rw [hname'] at hname
        rw [Option.some.inj hname]
      · exact Or.inl ⟨e', he', hk', hname'⟩
    · exact hX.elim
  refine ⟨a, n, d', name, ?_, hn, ?_, hname, hd', ?_, h.capacity, h.wellLinked,
    ⟨h.world.tree, h.world.inside, ?_⟩, h.node, h.watch, h.handed, h.top, done, hcovers.noded,
    fun t ht => (hcovers.top t ht).imp_right False.elim, ?_, ?_⟩
  · rw [← hwd]
    exact h.wellLinked.slotted.get_of_node hn
  · rw [hpath₀, hpath, render_snoc]
  · rw [hpath]
    exact hin.entry name
  · exact fun e' he' => h.world.announced e' (List.mem_cons_of_mem _ he')
  · intro d₁ hd₁ hdone c hc name' hpath'
    exact hentry d₁ hd₁ name' (hcovers.entry d₁ hd₁ hdone c hc name' hpath')
  · intro d₁ hd₁ hnode c hc name' hpath' hnew
    exact hentry d₁ hd₁ name' (hcovers.late d₁ hd₁ hnode c hc name' hpath' hnew)

/-- Processing one event. -/
theorem wp_processInotifyEvent_growth (hs : GrowsOnly roots script) {e : KernelEvent}
    {rest : List KernelEvent} (h : Growth roots capacity tops (fun _ => False) (e :: rest) s)
    (fuel : Nat) :
    wp anyFault (processInotifyEvent (worldOs script) (inotifyCallback (worldOs script)) fuel
        e.toInotify)
      (fun ok s' => DistinctWds capacity s'.os → ok = true ∧
        Growth roots capacity tops (fun _ => False) rest s' ∧ Kept roots s s') s := by
  obtain ⟨-, -, hself, hunmount, hisdir, hadd, hdel⟩ := arrival_mask
    (h.world.announced e (by simp)).1
  obtain ⟨a, n, d, name, hget, hn, hpath, hname, hd, hin, h₁⟩ := h.takeEvent
  have hevent : eventPath n e.toInotify = render d.path := by
    unfold eventPath KernelEvent.toInotify
    rw [hname]
    exact hpath
  have hmask : e.toInotify.mask = e.happening.mask := rfl
  unfold processInotifyEvent inotifyCallback
  rw [wp_bind, wp_tableGet, show s.watches.get e.toInotify.wd = some a from hget]
  dsimp only
  rw [wp_bind, wp_deref hn, wp_bind, wp_bind, hevent, hmask]
  refine wp_reportMask fun out => ?_
  have h₂ : Growth roots capacity tops (fun p => p = d.path) rest { s with stdout := out } :=
    h₁.frame s.roots s.limitReached out
  rw [if_neg (by simp [hself]), if_neg (by simp [hunmount]), wp_pure, if_pos hisdir]
  unfold processDirEvent
  rw [if_pos hadd, wp_bind]
  refine wp_weaken (wp_walkTree_growth hs fuel _ d (some a) { s with stdout := out } h₂ hd hin ?_)
    fun r s' hr => ?_
  · intro p hp
    cases hp
    exact ⟨n, hn⟩
  · dsimp only
    by_cases hneg : r < 0 ∧ r ≠ ERR_IGNORE ∧ r ≠ ERR_CONTINUE
    · rw [if_pos hneg]
      intro hD
      exact absurd (hr hD).1 (by omega)
    · rw [if_neg hneg, if_neg (by simp [hdel])]
      intro hD
      obtain ⟨-, h', hk'⟩ := hr hD
      refine ⟨rfl, h'.mono_existing fun d' _ hX => hX.2 hX.1, ⟨hk'.nodes, hk'.watches, hk'.dirs, hk'.roots⟩⟩

/-- Processing the events of a buffer. -/
theorem wp_processEvents_growth (hs : GrowsOnly roots script) (fuel : Nat) :
    ∀ (events : List KernelEvent) (s : State World),
      Growth roots capacity tops (fun _ => False) events s →
      wp anyFault (processEvents (worldOs script) (inotifyCallback (worldOs script)) fuel
          (events.map (·.toInotify)))
        (fun _ s' => DistinctWds capacity s'.os →
          Growth roots capacity tops (fun _ => False) [] s' ∧ Kept roots s s') s := by
  intro events
  induction events with
  | nil => exact fun s h _ => ⟨h, .refl s⟩
  | cons e rest ih =>
      intro s h
      have hcalls := distinctWds_callOrder script capacity
      obtain ⟨hignored, hoverflow, -⟩ := arrival_mask (h.world.announced e (by simp)).1
      have hmask : e.toInotify.mask = e.happening.mask := rfl
      rw [List.map_cons]
      unfold processEvents
      rw [hmask, if_neg (by simp [hignored]), if_neg (by simp [hoverflow])]
      refine wp_bind_under (D := fun t : State World => DistinctWds capacity t.os) (fun ok => ?_)
        (wp_processInotifyEvent_growth hs h fuel) ?_
      · split
        · exact respects_pure hcalls.forest _
        · exact respects_processEvents hcalls
            (fun _ _ => respects_inotifyCallback hcalls _ _) _ _
      · rintro ok s₁ _ ⟨rfl, h₁, hk₁⟩
        rw [if_neg (by simp)]
        refine wp_weaken (ih s₁ h₁) fun _ s' hs' hD => ?_
        exact ⟨(hs' hD).1, hk₁.trans (hs' hD).2⟩

/-- Reading a buffer of events and processing them. -/
theorem wp_processInotifyInput_growth (hs : GrowsOnly roots script)
    (h : Growth roots capacity tops (fun _ => False) [] s) (fuel : Nat) :
    wp anyFault (processInotifyInput (worldOs script) (inotifyCallback (worldOs script)) fuel)
      (fun _ s' => DistinctWds capacity s'.os →
        Growth roots capacity tops (fun _ => False) [] s' ∧ Kept roots s s') s := by
  obtain ⟨h₁, hk₁⟩ := h.tick hs true
  unfold processInotifyInput
  rw [wp_bind, wp_sys]
  let w := (tick script s true).os
  let count := (script s.os.time).pick.getD w.queue.length + 1
  have hans : worldOs script .read s.os = (.ok ((w.queue.take count).map (·.toInotify)),
      w.take count) := rfl
  rw [hans]
  refine wp_weaken (wp_processEvents_growth hs fuel _ _ (h₁.read count)) fun _ s' hs' hD => ?_
  obtain ⟨h', hk'⟩ := hs' hD
  exact ⟨h', hk₁.trans ⟨hk'.nodes, hk'.watches, hk'.dirs, hk'.roots⟩⟩

end Events

/-! ## Sessions -/

/-- Between two turns of the main loop, after {lit}`done` was registered in the world {lit}`w₀`:
every recursive root that is watched, or that was there at the start, is among {lit}`tops`,
below which everything is accounted for. -/
structure Session (roots : List Bytes) (capacity : Nat) (w₀ : World) (done : List Bytes)
    (tops : List Path) (s : State World) : Prop where
  since : ∀ d ∈ w₀.dirs, Inside roots d.path → d ∈ s.os.dirs
  registered : ∀ root ∈ s.roots, root.path ∈ roots
  growth : Growth roots capacity tops (fun _ => False) [] s
  watched : ∀ root ∈ s.roots, 0 ≤ root.id → Recursive root.path →
    ∃ t ∈ tops, render t = rootPath root.path
  started : ∀ root ∈ done, Names w₀ root → Recursive root → ∃ t ∈ tops, render t = rootPath root

/-- The mount table has nothing that the notifier refuses to watch. -/
def WatchableMounts (w : World) : Prop :=
  ∀ ent ∈ w.mounts, ent.type = cstr "ignore" ∨ isWatchable ent.type = true

/-- The states of a session that registers {lit}`roots` once, in a world where other processes
only add directories, also while the notifier is idle. -/
inductive GrowingSession (script : Nat → Turn) (roots : List Bytes) (init : State World) :
    State World → Prop
  | registered {s : State World} (fuel : Nat) :
      (updateRoots (worldOs script) fuel roots).run init = .ok (true, s) →
      GrowingSession script roots init s
  | turn {s s' : State World} (fuel : Nat) (action : Action) (goesOn : Bool) :
      GrowingSession script roots init s → (∀ newRoots, action ≠ .updateRoots newRoots) →
      (perform (worldOs script) fuel action).run s = .ok (goesOn, s') →
      GrowingSession script roots init s'
  | idle {s : State World} (turn : Turn) :
      GrowingSession script roots init s → (∀ op ∈ turn.ops, op.GrowsOnly roots) →
      GrowingSession script roots init { s with os := s.os.advance true turn }

/-- Named roots are absolute paths. -/
theorem Names.absolute {w : World} {root : Bytes} (h : Names w root) :
    (unflatten root).head? = some slash := by
  obtain ⟨d, -, hne, hpath⟩ := h
  have hroot : (rootPath root).head? = some slash := by
    rw [← hpath]
    cases hd : d.path with
    | nil => exact absurd hd hne
    | cons name path => rfl
  unfold rootPath at hroot
  dsimp only at hroot
  split at hroot
  · rw [List.head?_dropLast] at hroot
    split at hroot
    · exact hroot
    · contradiction
  · exact hroot

section Sessions

variable {roots : List Bytes} {capacity : Nat} {w₀ : World} {done : List Bytes}
  {tops : List Path} {script : Nat → Turn} {s s' : State World}

/-- A root that was named at the start still is. -/
theorem Session.names (h : Session roots capacity w₀ done tops s) {root : Bytes}
    (hroot : root ∈ roots) (hname : Names w₀ root) : Names s.os root := by
  obtain ⟨d, hd, hne, hpath⟩ := hname
  refine ⟨d, h.since d hd ⟨hne, root, hroot, ?_⟩, hne, hpath⟩
  rw [hpath]
  exact isParentPath_refl _

/-- A step that keeps growth and the roots keeps a session. -/
theorem Session.step (h : Session roots capacity w₀ done tops s)
    (hg : Growth roots capacity tops (fun _ => False) [] s') (hk : Kept roots s s') :
    Session roots capacity w₀ done tops s' := by
  refine ⟨fun d hd hin => hk.dirs d (h.since d hd hin) hin, ?_, hg, ?_, h.started⟩
  · rw [hk.roots]
    exact h.registered
  · rw [hk.roots]
    exact h.watched

/-- The output does not matter to a session. -/
theorem Session.frame (h : Session roots capacity w₀ done tops s) (out : Bytes) :
    Session roots capacity w₀ done tops { s with stdout := out } :=
  ⟨h.since, h.registered, h.growth.frame s.roots s.limitReached out, h.watched, h.started⟩

/-- A root that was watched gets its entry. -/
theorem Session.watch (h : Session roots capacity w₀ done tops s) {root : Bytes} {id : Int}
    (hr : WatchGrows roots capacity tops root s id s') {roots' : List WatchRoot}
    (hsub : ∀ r ∈ roots', r ∈ s.roots ∨ r = ⟨root, id⟩) (hroot : root ∈ roots) :
    ∃ tops', Session roots capacity w₀ done tops' { s' with roots := roots' } ∧
      (0 ≤ id → Recursive root → ∃ t ∈ tops', render t = rootPath root) := by
  obtain ⟨tops', hmore, h', hrec⟩ := hr.growth
  refine ⟨tops', ⟨fun d hd hin => hr.kept.dirs d (h.since d hd hin) hin, ?_,
    h'.frame roots' s'.limitReached s'.stdout, ?_, ?_⟩, hrec⟩
  · intro r hr'
    rcases hsub r hr' with hold | rfl
    · exact h.registered r hold
    · exact hroot
  · intro r hr' hid hrecursive
    rcases hsub r hr' with hold | rfl
    · obtain ⟨t, ht, hpath⟩ := h.watched r hold hid hrecursive
      exact ⟨t, hmore t ht, hpath⟩
    · exact hrec hid hrecursive
  · intro r hr' hname hrecursive
    obtain ⟨t, ht, hpath⟩ := h.started r hr' hname hrecursive
    exact ⟨t, hmore t ht, hpath⟩

/-- One more root was dealt with. -/
theorem Session.cons (h : Session roots capacity w₀ done tops s) {root : Bytes}
    (hroot : Names w₀ root → Recursive root → ∃ t ∈ tops, render t = rootPath root) :
    Session roots capacity w₀ (root :: done) tops s := by
  refine ⟨h.since, h.registered, h.growth, h.watched, ?_⟩
  intro r hr hname hrecursive
  rcases List.mem_cons.mp hr with rfl | hr
  · exact hroot hname hrecursive
  · exact h.started r hr hname hrecursive

/-- Registering the roots, none of which a mount covers. -/
theorem wp_registerRoots_growth (hs : GrowsOnly roots script) (fuel : Nat) :
    ∀ (newRoots : List Bytes) (done : List Bytes) (tops : List Path) (unwatchable : List Bytes)
      (s : State World), (∀ root ∈ newRoots, root ∈ roots) →
      Session roots capacity w₀ done tops s →
      wp anyFault (registerRoots (worldOs script) fuel [] newRoots unwatchable)
        (fun r s' => DistinctWds capacity s'.os → r.1 = true →
          ∃ tops', Session roots capacity w₀ (newRoots.reverse ++ done) tops' s') s := by
  intro newRoots
  induction newRoots with
  | nil => exact fun done tops unwatchable s _ h _ _ => ⟨tops, h⟩
  | cons root newRoots ih =>
      intro done tops unwatchable s hsub h
      have hroot := hsub root (by simp)
      have hsub' : ∀ r ∈ newRoots, r ∈ roots := fun r hr => hsub r (List.mem_cons_of_mem _ hr)
      have hcalls := distinctWds_callOrder script capacity
      rw [List.reverse_cons, List.append_assoc]
      unfold registerRoots
      dsimp only
      by_cases habs : (unflatten root).head? = some slash
      · rw [if_neg (not_not_intro habs)]
        unfold checkMounts
        rw [if_neg (by simp)]
        refine wp_bind_under (D := fun t : State World => DistinctWds capacity t.os)
          (fun id => ?_) (wp_watch_growth hs h.growth hroot fuel) ?_
        · have hnext := fun unwatchable =>
            respects_registerRoots hcalls.steps fuel [] newRoots (fun _ _ => trivial)
              (fun _ _ _ s => hcalls.refl s.os) unwatchable
          split
          · exact respects_bind hcalls.forest (hcalls.respects_modify fun _ => rfl) fun _ => hnext _
          · split
            · exact respects_pure hcalls.forest _
            · split
              · exact hnext _
              · exact hnext _
        · intro id s₁ _ hr
          have hnext : ∀ roots', (∀ r ∈ roots', r ∈ s.roots ∨ r = ⟨root, id⟩) →
              ∃ tops', Session roots capacity w₀ (root :: done) tops'
                { s₁ with roots := roots' } := by
            intro roots' hr'
            obtain ⟨tops', h', hrec⟩ := h.watch hr hr' hroot
            exact ⟨tops', h'.cons fun hname => hrec (hr.named (h.names hroot hname))⟩
          have hkeep : ∃ tops', Session roots capacity w₀ (root :: done) tops' s₁ :=
            hnext s₁.roots fun r hr' => Or.inl (by rw [← hr.kept.roots]; exact hr')
          split
          · rw [wp_bind, wp_modify]
            obtain ⟨tops', h'⟩ := hnext (s₁.roots ++ [⟨root, id⟩]) (by
              intro r hr'
              rw [hr.kept.roots] at hr'
              simpa using hr')
            exact ih _ tops' _ _ hsub' h'
          · split
            · exact fun _ hok => absurd hok (by simp)
            · obtain ⟨tops', h'⟩ := hkeep
              split
              · exact ih _ tops' _ _ hsub' h'
              · exact ih _ tops' _ _ hsub' h'
      · rw [if_pos habs]
        exact ih _ tops _ s hsub' (h.cons fun hname => absurd hname.absolute habs)

/-- One round of {lit}`check_missing_roots`. -/
theorem wp_checkMissingRootAt_growth (hs : GrowsOnly roots script) {fuel i : Nat}
    (h : Session roots capacity w₀ done tops s) :
    wp anyFault (checkMissingRootAt (worldOs script) fuel i)
      (fun _ s' => DistinctWds capacity s'.os → ∃ tops', Session roots capacity w₀ done tops' s')
      s := by
  unfold checkMissingRootAt
  rw [wp_bind, wp_get]
  cases hroot : s.roots[i]? with
  | none => exact fun _ => ⟨tops, h⟩
  | some root =>
      have hmem : root ∈ s.roots := List.mem_of_getElem? hroot
      obtain ⟨h₁, hk₁⟩ := h.growth.tick hs
      have hs₁ := h.step h₁ hk₁
      dsimp only
      split
      · rw [wp_bind, wp_sys]
        change wp anyFault _ _ (tick script s)
        cases (worldOs script (.stat (unflatten root.path)) s.os).1 with
        | error e => exact fun _ => ⟨tops, hs₁⟩
        | ok type =>
            dsimp only
            rw [wp_bind]
            refine wp_weaken (wp_watch_growth hs h₁ (h.registered root hmem) fuel)
              fun id s' hr hD => ?_
            have hr' := hr hD
            have hsub : ∀ r ∈ s'.roots.set i ⟨root.path, id⟩,
                r ∈ (tick script s).roots ∨ r = ⟨root.path, id⟩ := by
              intro r hr₀
              rw [hr'.kept.roots] at hr₀
              exact List.mem_or_eq_of_mem_set hr₀
            obtain ⟨tops', h', -⟩ := hs₁.watch hr' hsub (h.registered root hmem)
            exact ⟨tops', (h'.frame _).frame _⟩
      · exact fun _ => ⟨tops, h⟩

/-- One turn of the main loop, other than setting new roots. -/
theorem wp_perform_growth (hs : GrowsOnly roots script) {fuel : Nat} {action : Action}
    (haction : ∀ newRoots, action ≠ .updateRoots newRoots)
    (h : Session roots capacity w₀ done tops s) :
    wp anyFault (perform (worldOs script) fuel action)
      (fun _ s' => DistinctWds capacity s'.os → ∃ tops', Session roots capacity w₀ done tops' s')
      s := by
  cases action with
  | updateRoots newRoots => exact absurd rfl (haction newRoots)
  | inotifyInput =>
      refine wp_weaken (wp_processInotifyInput_growth hs h.growth fuel) fun _ s' hs' hD => ?_
      obtain ⟨h', hk'⟩ := hs' hD
      exact ⟨tops, h.step h' hk'⟩
  | missingRootTick =>
      have hcalls := distinctWds_callOrder script capacity
      unfold perform checkMissingRoots
      dsimp only
      rw [wp_bind, wp_bind, wp_get]
      refine wp_weaken (wp_forM_under (D := fun t : State World => DistinctWds capacity t.os)
        (I := fun t => ∃ tops', Session roots capacity w₀ done tops' t)
        (fun i => respects_checkMissingRootAt hcalls fuel i) ?_ _ s fun _ => ⟨tops, h⟩)
        fun _ _ hs' => hs'
      rintro i t _ ⟨tops', h'⟩
      exact wp_checkMissingRootAt_growth hs h'

/-- Setting the roots of a notifier that has just started. -/
theorem wp_updateRoots_growth (hs : GrowsOnly roots script) (hpos : 0 < capacity)
    (htree : Tree w₀) (hwatches : w₀.watches = []) (hqueue : w₀.queue = [])
    (hmounts : WatchableMounts w₀) (fuel : Nat) :
    wp anyFault (updateRoots (worldOs script) fuel roots)
      (fun ok s' => DistinctWds capacity s'.os → ok = true →
        ∃ tops', Session roots capacity w₀ roots.reverse tops' s') (start w₀ capacity hpos) := by
  have hstart : Session roots capacity w₀ [] [] (start w₀ capacity hpos) := by
    refine ⟨fun d hd _ => hd, by simp [start], ⟨rfl, .empty capacity hpos,
      ⟨htree, ?_, ?_⟩, ?_, ?_, ?_, by simp, fun _ => False, ?_, by simp, ?_, ?_⟩, by simp [start],
      by simp⟩
    all_goals simp [start, hwatches, hqueue, Noded]
  have hrun : (unregisterRoots (worldOs script)).run (start w₀ capacity hpos) =
      .ok ((), start w₀ capacity hpos) := rfl
  unfold updateRoots
  rw [wp_bind]
  refine wp_of_run hrun ?_
  split
  · rename_i hnil
    intro _ _
    have hdone : roots.reverse = [] := by rw [hnil]; rfl
    rw [hdone]
    exact ⟨[], hstart.frame _⟩
  · split
    · rename_i hslash
      intro _ _
      have hdone : roots.reverse = [cstr "/"] := by rw [hslash]; rfl
      rw [hdone]
      refine ⟨[], (hstart.frame _).cons ?_⟩
      rintro ⟨d, -, hne, hpath⟩
      exact absurd hpath (render_ne_nil hne)
    · unfold unwatchableMounts
      rw [wp_bind, wp_bind, wp_sys]
      change wp anyFault _ _ (tick script (start w₀ capacity hpos))
      obtain ⟨-, hg⟩ := hstart.growth.world.advance false (hs w₀.time).2
      obtain ⟨h₁, hk₁⟩ := hstart.growth.tick hs
      have hans : (worldOs script .getmntent (start w₀ capacity hpos).os).1 = some w₀.mounts :=
        congrArg some hg.mounts
      have hnone : (w₀.mounts.filter fun ent =>
          ent.type != cstr "ignore" && !isWatchable ent.type) = [] := by
        rw [List.filter_eq_nil_iff]
        intro ent hent
        rcases hmounts ent hent with hignore | hwatchable
        · simp [hignore]
        · simp [hwatchable]
      rw [hans]
      dsimp only
      rw [wp_pure, hnone, wp_bind]
      refine wp_weaken (wp_registerRoots_growth hs fuel roots [] [] [] _ (fun _ hr => hr)
        (hstart.step h₁ hk₁)) fun r s₁ hs₁ => ?_
      rw [List.append_nil] at hs₁
      cases hr : r.1 with
      | false =>
          rw [if_pos (by simp)]
          exact fun _ hok => absurd hok (by simp)
      | true =>
          rw [if_neg (by simp), wp_bind, wp_output, wp_bind]
          refine wp_weaken (wp_forM (fun _ t => DistinctWds capacity t.os →
            ∃ tops', Session roots capacity w₀ roots.reverse tops' t) ?_ _ _ ?_) ?_
          · intro _ _ t ht hD
            obtain ⟨tops', h'⟩ := ht hD
            exact ⟨tops', h'.frame _⟩
          · intro hD
            obtain ⟨tops', h'⟩ := hs₁ hD hr
            exact ⟨tops', h'.frame _⟩
          · intro _ t ht hD _
            obtain ⟨tops', h'⟩ := ht hD
            exact ⟨tops', h'.frame _⟩

/-- Without events and without a walk, everything below a top has its node: by induction on the
way from the top down to the directory. -/
theorem Growth.noded_below (h : Growth roots capacity tops (fun _ => False) [] s)
    (hempty : s.os.queue = []) {t : Path} (ht : t ∈ tops) {d : Dir} (hd : d ∈ s.os.dirs)
    (hpre : t <+: d.path) : Noded s d.path := by
  obtain ⟨done, hcovers⟩ := h.covered
  refine hcovers.noded d.path ?_
  obtain ⟨u, hu⟩ := hpre
  induction u using List.reverseRecOn generalizing d with
  | nil =>
      rw [← hu, List.append_nil]
      exact (hcovers.top t ht).resolve_right id
  | append_singleton u name ih =>
      have hpath : d.path = t ++ u ++ [name] := by rw [← hu, List.append_assoc]
      obtain ⟨d₁, hd₁, hpath₁⟩ := h.world.tree.closed d hd (t ++ u) name hpath
      rw [← hpath₁] at hpath
      rcases hcovers.entry d₁ hd₁ (ih hd₁ hpath₁.symm) d hd name hpath with
        hdone | ⟨e, he, -⟩ | hno
      · rw [hpath]
        exact hdone
      · rw [hempty] at he
        contradiction
      · exact hno.elim

/-- Between two turns of a session that registered its roots, everything is accounted for. -/
theorem GrowingSession.session (hs : GrowsOnly roots script) (hpos : 0 < capacity)
    (htree : Tree w₀) (hwatches : w₀.watches = []) (hqueue : w₀.queue = [])
    (hmounts : WatchableMounts w₀)
    (hrun : GrowingSession script roots (start w₀ capacity hpos) s) :
    DistinctWds capacity s.os → ∃ tops, Session roots capacity w₀ roots.reverse tops s := by
  induction hrun with
  | registered fuel hrun =>
      intro hD
      exact run_of_wp (wp_updateRoots_growth hs hpos htree hwatches hqueue hmounts fuel) hrun hD rfl
  | turn fuel action goesOn _ haction hrun ih =>
      intro hD
      obtain ⟨tops, h⟩ := ih
        (respects_perform (distinctWds_callOrder script capacity) fuel action _ _ _ hrun hD)
      exact run_of_wp (wp_perform_growth hs haction h) hrun hD
  | @idle s turn _ hops ih =>
      intro hD
      have hlog := (Untouched.advance s.os true turn).log
      obtain ⟨tops, h⟩ := ih (by
        unfold DistinctWds World.handedOut at hD ⊢
        rw [← hlog]
        exact hD)
      obtain ⟨hw, hg⟩ := h.growth.world.advance true hops
      obtain ⟨h', hk'⟩ := h.growth.grown hw hg
      exact ⟨tops, h.step h' hk'⟩

/-- Whenever the event queue is empty and the notifier is idle, every directory at or below a
recursive root that was there at the start, or that was found later, has a node in the table
with its path, whose descriptor is a watch of that very directory. -/
theorem growing_tree_covered (hs : GrowsOnly roots script) (hpos : 0 < capacity)
    (htree : Tree w₀) (hwatches : w₀.watches = []) (hqueue : w₀.queue = [])
    (hmounts : WatchableMounts w₀)
    (hrun : GrowingSession script roots (start w₀ capacity hpos) s)
    (hdistinct : DistinctWds capacity s.os) (hempty : s.os.queue = []) (root : Bytes)
    (hroot : (root ∈ roots ∧ Names w₀ root) ∨ ∃ id, 0 ≤ id ∧ ⟨root, id⟩ ∈ s.roots)
    (hrec : Recursive root) (d : Dir) (hd : d ∈ s.os.dirs)
    (hbelow : isParentPath (rootPath root) (render d.path) = true) :
    ∃ a n, s.heap.get a = some n ∧ n.path = render d.path ∧ s.watches.get n.wd = some a ∧
      ⟨n.wd, d.inode⟩ ∈ s.os.watches := by
  obtain ⟨tops, h⟩ := hrun.session hs hpos htree hwatches hqueue hmounts hdistinct
  obtain ⟨t, ht, hpath⟩ : ∃ t ∈ tops, render t = rootPath root := by
    rcases hroot with ⟨hmem, hname⟩ | ⟨id, hid, hmem⟩
    · exact h.started root (List.mem_reverse.mpr hmem) hname hrec
    · exact h.watched _ hmem hid hrec
  have htree := h.growth.world.tree
  obtain ⟨-, top, htop, htoppath⟩ := h.growth.top t ht
  have hpre : t <+: d.path := by
    rw [← hpath, ← htoppath] at hbelow
    rw [← htoppath]
    exact (isParentPath_render (htree.valid top htop) (htree.valid d hd)).mp hbelow
  obtain ⟨a, n, hn, hnpath⟩ := h.growth.noded_below hempty ht hd hpre
  · obtain ⟨d₀, hd₀, hpath₀, -, hk⟩ := h.growth.node hn
    have heq : d₀ = d := htree.path_inj d₀ hd₀ d hd (render_injective (htree.valid d₀ hd₀)
      (htree.valid d hd) (hpath₀.symm.trans hnpath))
    rw [heq] at hk
    exact ⟨a, n, hn, hnpath, h.growth.wellLinked.slotted.get_of_node hn, hk⟩

end Sessions

/-- The directories {lit}`/` and {lit}`/r` are a tree. -/
theorem oneDirectory_tree : Tree oneDirectory := by
  refine ⟨by decide, by decide, closed_of_dropLast (by decide), ?_, by decide, by decide, by decide,
    by decide⟩
  unfold ValidPath
  decide

/-- A script that creates one directory before the first one is watched, one between that and
the first {lit}`readdir`, which leaves it out, one in a directory that was read, and moves a tree
in when everything was walked. -/
def busyScript (t : Nat) : Turn :=
  { Turn.quiet with
    ops :=
      if t = 3 then [.mkdir [cstr "r"] (cstr "a")]
      else if t = 4 then [.mkdir [cstr "r"] (cstr "c")]
      else if t = 8 then [.mkdir [cstr "r", cstr "a"] (cstr "b")]
      else if t = 9 then
        [.mkdir [] (cstr "x"), .mkdir [cstr "x"] (cstr "y"),
          .rename [] (cstr "x") [cstr "r"] (cstr "x") false]
      else [] }

theorem busyScript_growsOnly : GrowsOnly [cstr "/r"] busyScript := by
  intro t
  refine ⟨rfl, fun op hop => ?_⟩
  unfold busyScript at hop
  dsimp only at hop
  split_ifs at hop
  · rw [List.mem_singleton.mp hop]
    trivial
  · rw [List.mem_singleton.mp hop]
    trivial
  · rw [List.mem_singleton.mp hop]
    trivial
  · simp only [List.mem_cons, List.not_mem_nil, or_false] at hop
    rcases hop with rfl | rfl | rfl
    · trivial
    · trivial
    · refine ⟨rfl, fun root hroot => ?_⟩
      rw [List.mem_singleton.mp hroot]
      decide
  · exact absurd hop List.not_mem_nil

/-- After one buffer of events nothing below {lit}`/r` is missing. -/
theorem growing_tree_covered_busy :
    ∃ s s', (perform (worldOs busyScript) 9 (.updateRoots [cstr "/r"])).run
        (start oneDirectory 8 (by decide)) = .ok (true, s) ∧
      (perform (worldOs busyScript) 9 .inotifyInput).run s = .ok (true, s') ∧
      s'.os.dirs.length = 7 ∧
      ∀ d ∈ s'.os.dirs, isParentPath (cstr "/r") (render d.path) = true →
        ∃ a n, s'.heap.get a = some n ∧ n.path = render d.path ∧ s'.watches.get n.wd = some a ∧
          ⟨n.wd, d.inode⟩ ∈ s'.os.watches := by
  have hfirst : returned ((perform (worldOs busyScript) 9 (.updateRoots [cstr "/r"])).run
      (start oneDirectory 8 (by decide))) true (fun _ => true) = true := by decide +kernel
  have hsecond : returned ((perform (worldOs busyScript) 9 (.updateRoots [cstr "/r"]) >>= fun _ =>
      perform (worldOs busyScript) 9 .inotifyInput).run (start oneDirectory 8 (by decide))) true
      (fun s => decide (s.os.queue = [] ∧ DistinctWds 8 s.os ∧ s.os.dirs.length = 7)) = true := by
    decide +kernel
  obtain ⟨s, hrun, -⟩ := exists_of_returned hfirst
  obtain ⟨s', hrun', htest⟩ := exists_of_returned hsecond
  rw [run_bind_of_run hrun] at hrun'
  obtain ⟨hempty, hdistinct, hlength⟩ := of_decide_eq_true htest
  refine ⟨s, s', hrun, hrun', hlength, fun d hd hbelow => ?_⟩
  exact growing_tree_covered busyScript_growsOnly (by decide) oneDirectory_tree rfl rfl
    (by simp [WatchableMounts, oneDirectory])
    (.turn 9 .inotifyInput true (.registered 9 hrun) (by simp) hrun') hdistinct hempty (cstr "/r")
    (Or.inl ⟨by simp, ⟨[cstr "r"], 2⟩, by decide, by decide, by decide⟩) rfl d hd hbelow

end FsNotifier
end IdeMultiarch
