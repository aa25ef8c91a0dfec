import IdeMultiarch.FsNotifier.AddWatch
import IdeMultiarch.FsNotifier.Calls
import IdeMultiarch.FsNotifier.GrowingWorld

/-!
# fsnotifier - walking a tree that grows

The notifier runs in a world in which directories are only added.  Every directory at or
below a registered recursive root is accounted for: a walk has dealt with it, or an event
about it waits, or a walk that still runs will come to it, or one of these is true of a
directory above it.  A walk that reads a directory can count on the entries that were there
when the directory's watch was added; for those that came later there are events.

Main results:

- Theorem {lit}`Accounts.grown`: this stays true whatever other processes add.
- Theorem {lit}`wp_addWatch_growth`: adding a watch keeps it true.
- Theorem {lit}`wp_walkTree_growth`: a walk takes care of the directory it was sent to.
-/

namespace IdeMultiarch
namespace FsNotifier

open Library

/-! ## The invariant -/

/-- The directory has a node under its path. -/
def Noded (s : State World) (path : Path) : Prop :=
  ∃ a n, s.heap.get a = some n ∧ n.path = render path

/-- One of the events is about the arrival of an entry in the directory. -/
def Waits (w : World) (events : List KernelEvent) (d : Dir) (name : Bytes) : Prop :=
  ∃ e ∈ events, ⟨e.wd, d.inode⟩ ∈ w.watches ∧ e.name = some name

/-- The descriptors handed out so far are distinct modulo the table's capacity. -/
def DistinctWds (capacity : Nat) (w : World) : Prop :=
  DistinctMod capacity w.handedOut

instance (capacity : Nat) (w : World) : Decidable (DistinctWds capacity w) :=
  inferInstanceAs (Decidable (DistinctMod capacity w.handedOut))

/-- Calls succeed, and other processes only add directories. -/
def GrowsOnly (roots : List Bytes) (script : Nat → Turn) : Prop :=
  ∀ t, (script t).deny = none ∧ ∀ op ∈ (script t).ops, op.GrowsOnly roots

/-- An entry of a directory is accounted for: it is {lit}`done`, or an event about it waits, or
it is among those that a running walk has yet to come to. -/
def Accounted (toVisit : Path → Prop) (rest : List KernelEvent) (s : State World)
    (done : Path → Prop) (d : Dir) (name : Bytes) : Prop :=
  done (d.path ++ [name]) ∨ Waits s.os (rest ++ s.os.queue) d name ∨ toVisit (d.path ++ [name])

/-- The directories that are {lit}`done` have nodes, and all their entries are accounted for.
Of a directory that has a node, but is not done, this is true of the entries that came after
its watch was added. -/
structure Accounts (tops : List Path) (toVisit : Path → Prop) (rest : List KernelEvent)
    (s : State World) (done : Path → Prop) : Prop where
  noded : ∀ path, done path → Noded s path
  top : ∀ t ∈ tops, done t ∨ toVisit t
  entry : ∀ d ∈ s.os.dirs, done d.path → ∀ c ∈ s.os.dirs, ∀ name, c.path = d.path ++ [name] →
    Accounted toVisit rest s done d name
  late : ∀ d ∈ s.os.dirs, Noded s d.path → ∀ c ∈ s.os.dirs, ∀ name, c.path = d.path ++ [name] →
    name ∉ s.os.listed d.inode → Accounted toVisit rest s done d name

/-- What holds while the tree grows.  The directories at and below {lit}`tops` are
accounted for; {lit}`rest` are the events that were read but not processed. -/
structure Growth (roots : List Bytes) (capacity : Nat) (tops : List Path)
    (toVisit : Path → Prop) (rest : List KernelEvent) (s : State World) : Prop where
  capacity : s.watches.capacity = capacity
  wellLinked : WellLinked s.watches s.heap
  world : Growing roots rest s.os
  node : ∀ {a n}, s.heap.get a = some n → ∃ d ∈ s.os.dirs, n.path = render d.path ∧
    Inside roots d.path ∧ ⟨n.wd, d.inode⟩ ∈ s.os.watches
  watch : ∀ k ∈ s.os.watches, ∃ a n, s.heap.get a = some n ∧ n.wd = k.wd
  handed : ∀ k ∈ s.os.watches, k.wd ∈ s.os.handedOut
  top : ∀ t ∈ tops, Inside roots t ∧ ∃ d ∈ s.os.dirs, d.path = t
  covered : ∃ done, Accounts tops toVisit rest s done

/-- From {lit}`s` to {lit}`s'` no node, no watch and no directory inside the roots was lost. -/
structure Kept (roots : List Bytes) (s s' : State World) : Prop where
  nodes : ∀ {a n}, s.heap.get a = some n →
    ∃ n', s'.heap.get a = some n' ∧ n'.wd = n.wd ∧ n'.path = n.path
  watches : ∀ k ∈ s.os.watches,
    k ∈ s'.os.watches ∧ s'.os.listed k.inode = s.os.listed k.inode
  dirs : ∀ d ∈ s.os.dirs, Inside roots d.path → d ∈ s'.os.dirs
  roots : s'.roots = s.roots

section Basics

variable {roots : List Bytes} {capacity : Nat} {tops : List Path} {X Y : Path → Prop}
  {rest : List KernelEvent} {s s' s'' : State World}

theorem Kept.refl (s : State World) : Kept roots s s :=
  ⟨fun hn => ⟨_, hn, rfl, rfl⟩, fun _ hk => ⟨hk, rfl⟩, fun _ hd _ => hd, rfl⟩

theorem Kept.trans (h : Kept roots s s') (h' : Kept roots s' s'') : Kept roots s s'' := by
  refine ⟨fun hn => ?_, fun k hk => ?_, fun d hd hin => h'.dirs d (h.dirs d hd hin) hin,
    h'.roots.trans h.roots⟩
  · obtain ⟨n', hn', hwd, hpath⟩ := h.nodes hn
    obtain ⟨n'', hn'', hwd', hpath'⟩ := h'.nodes hn'
    exact ⟨n'', hn'', hwd'.trans hwd, hpath'.trans hpath⟩
  · obtain ⟨hk', hlisted⟩ := h.watches k hk
    obtain ⟨hk'', hlisted'⟩ := h'.watches k hk'
    exact ⟨hk'', hlisted'.trans hlisted⟩

theorem Kept.noded (h : Kept roots s s') {path : Path} (hn : Noded s path) : Noded s' path := by
  obtain ⟨a, n, hn, hpath⟩ := hn
  obtain ⟨n', hn', -, hpath'⟩ := h.nodes hn
  exact ⟨a, n', hn', hpath'.trans hpath⟩

/-- The directory of a node is the one with its path, and it is watched. -/
theorem Growth.watched (h : Growth roots capacity tops X rest s) {d : Dir} (hd : d ∈ s.os.dirs)
    (hnode : Noded s d.path) :
    Inside roots d.path ∧ ∃ wd, ⟨wd, d.inode⟩ ∈ s.os.watches := by
  obtain ⟨a, n, hn, hpath⟩ := hnode
  obtain ⟨d₀, hd₀, hpath₀, hin, hk⟩ := h.node hn
  have htree := h.world.tree
  have heq : d₀ = d := htree.path_inj d₀ hd₀ d hd (render_injective (htree.valid d₀ hd₀)
    (htree.valid d hd) (hpath₀.symm.trans hpath))
  rw [heq] at hin hk
  exact ⟨hin, n.wd, hk⟩

/-- Only directories that exist need a visit. -/
theorem Growth.mono_existing (h : Growth roots capacity tops X rest s)
    (hXY : ∀ d ∈ s.os.dirs, X d.path → Y d.path) : Growth roots capacity tops Y rest s := by
  obtain ⟨done, hcovers⟩ := h.covered
  have hentry : ∀ d, ∀ c ∈ s.os.dirs, ∀ name, c.path = d.path ++ [name] →
      Accounted X rest s done d name → Accounted Y rest s done d name := by
    intro d c hc name hpath haccounted
    rcases haccounted with hdone | hwaits | hX
    · exact Or.inl hdone
    · exact Or.inr (Or.inl hwaits)
    · rw [← hpath] at hX
      exact Or.inr (Or.inr (hpath ▸ hXY c hc hX))
  refine ⟨h.capacity, h.wellLinked, h.world, h.node, h.watch, h.handed, h.top, done,
    hcovers.noded, ?_, ?_, ?_⟩
  · intro t ht
    obtain ⟨-, d, hd, rfl⟩ := h.top t ht
    exact (hcovers.top d.path ht).imp_right (hXY d hd)
  · intro d hd hdone c hc name hpath
    exact hentry d c hc name hpath (hcovers.entry d hd hdone c hc name hpath)
  · intro d hd hnode c hc name hpath hnew
    exact hentry d c hc name hpath (hcovers.late d hd hnode c hc name hpath hnew)

/-- A directory that has its node is no longer to visit, but the entries are that were there
when its watch was added. -/
theorem Growth.visit (h : Growth roots capacity tops X rest s) {d : Dir} (hd : d ∈ s.os.dirs)
    (hnode : Noded s d.path) : Growth roots capacity tops
      (fun p => (X p ∧ p ≠ d.path) ∨ ∃ name ∈ s.os.listed d.inode, p = d.path ++ [name])
      rest s := by
  obtain ⟨done, hcovers⟩ := h.covered
  have hvisited : ∀ p, X p → (p = d.path) ∨ (X p ∧ p ≠ d.path) := by
    intro p hX
    by_cases heq : p = d.path
    · exact Or.inl heq
    · exact Or.inr ⟨hX, heq⟩
  have hentry : ∀ d₁ name, Accounted X rest s done d₁ name → Accounted
      (fun p => (X p ∧ p ≠ d.path) ∨ ∃ name ∈ s.os.listed d.inode, p = d.path ++ [name])
      rest s (fun p => done p ∨ p = d.path) d₁ name := by
    rintro d₁ name (hdone | hwaits | hX)
    · exact Or.inl (Or.inl hdone)
    · exact Or.inr (Or.inl hwaits)
    · rcases hvisited _ hX with heq | hleft
      · exact Or.inl (Or.inr heq)
      · exact Or.inr (Or.inr (Or.inl hleft))
  refine ⟨h.capacity, h.wellLinked, h.world, h.node, h.watch, h.handed, h.top,
    fun p => done p ∨ p = d.path, ?_, ?_, ?_, ?_⟩
  · rintro p (hdone | rfl)
    · exact hcovers.noded p hdone
    · exact hnode
  · intro t ht
    rcases hcovers.top t ht with hdone | hX
    · exact Or.inl (Or.inl hdone)
    · exact (hvisited t hX).imp Or.inr Or.inl
  · rintro d₁ hd₁ (hdone | heq) c hc name hpath
    · exact hentry d₁ name (hcovers.entry d₁ hd₁ hdone c hc name hpath)
    · -- an entry of the visited directory was there before the watch, or came later
      obtain rfl := h.world.tree.path_inj d₁ hd₁ d hd heq
      by_cases hlisted : name ∈ s.os.listed d₁.inode
      · exact Or.inr (Or.inr (Or.inr ⟨name, hlisted, rfl⟩))
      · exact hentry d₁ name (hcovers.late d₁ hd₁ hnode c hc name hpath hlisted)
  · intro d₁ hd₁ hnode₁ c hc name hpath hnew
    exact hentry d₁ name (hcovers.late d₁ hd₁ hnode₁ c hc name hpath hnew)

/-- A directory becomes one of the tops, to be visited. -/
theorem Growth.addTop (h : Growth roots capacity tops X rest s) {d : Dir} (hd : d ∈ s.os.dirs)
    (hin : Inside roots d.path) :
    Growth roots capacity (d.path :: tops) (fun p => X p ∨ p = d.path) rest s := by
  obtain ⟨done, hcovers⟩ := (h.mono_existing (Y := fun p => X p ∨ p = d.path)
    fun _ _ hX => Or.inl hX).covered
  refine ⟨h.capacity, h.wellLinked, h.world, h.node, h.watch, h.handed, ?_, done,
    hcovers.noded, ?_, hcovers.entry, hcovers.late⟩
  · intro t ht
    rcases List.mem_cons.mp ht with rfl | ht
    · exact ⟨hin, d, hd, rfl⟩
    · exact h.top t ht
  · intro t ht
    rcases List.mem_cons.mp ht with rfl | ht
    · exact Or.inr (Or.inr rfl)
    · exact hcovers.top t ht

/-- The notifier's own bookkeeping does not matter to growth. -/
theorem Growth.frame (h : Growth roots capacity tops X rest s) (roots' : List WatchRoot)
    (limit : Bool) (out : Bytes) : Growth roots capacity tops X rest
      { s with roots := roots', limitReached := limit, stdout := out } :=
  have ⟨done, hcovers⟩ := h.covered
  ⟨h.capacity, h.wellLinked, h.world, h.node, h.watch, h.handed, h.top, done, hcovers.noded,
    hcovers.top, hcovers.entry, hcovers.late⟩

/-- An entry that was accounted for stays so when the world grows. -/
theorem Accounted.grown {w : World} (hg : Grown roots s.os w) {done : Path → Prop} {d : Dir}
    {name : Bytes} (h : Accounted X rest s done d name) :
    Accounted X rest { s with os := w } done d name := by
  rcases h with hdone | ⟨e, he, hk, hname⟩ | hX
  · exact Or.inl hdone
  · refine Or.inr (Or.inl ⟨e, ?_, ?_, hname⟩)
    · rcases List.mem_append.mp he with he | he
      · exact List.mem_append_left _ he
      · exact List.mem_append_right _ (hg.queue e he)
    · change _ ∈ w.watches
      rw [hg.watches]
      exact hk
  · exact Or.inr (Or.inr hX)

/-- What arrives in a watched directory is announced, so what was accounted for stays so. -/
theorem Accounts.grown (h : Growth roots capacity tops X rest s) {w : World}
    (hw : Growing roots rest w) (hg : Grown roots s.os w) {done : Path → Prop}
    (hcovers : Accounts tops X rest s done) : Accounts tops X rest { s with os := w } done := by
  have hold : ∀ d ∈ w.dirs, Noded s d.path →
      d ∈ s.os.dirs ∧ ∃ wd, ⟨wd, d.inode⟩ ∈ s.os.watches := by
    intro d hd ⟨a, n, hn, hpath⟩
    obtain ⟨d₀, hd₀, hpath₀, hin, hk⟩ := h.node hn
    have hd₀' := hg.kept d₀ hd₀ hin
    have heq : d₀ = d := hw.tree.path_inj d₀ hd₀' d hd
      (render_injective (hw.tree.valid d₀ hd₀') (hw.tree.valid d hd)
        (hpath₀.symm.trans hpath))
    rw [heq] at hd₀ hk
    exact ⟨hd₀, n.wd, hk⟩
  have hentry : ∀ d ∈ w.dirs, Noded s d.path → ∀ c ∈ w.dirs, ∀ name,
      c.path = d.path ++ [name] →
      (d ∈ s.os.dirs → c ∈ s.os.dirs → Accounted X rest s done d name) →
      Accounted X rest { s with os := w } done d name := by
    intro d hd hnode c hc name hpath haccounted
    obtain ⟨hd', wd, hk⟩ := hold d hd hnode
    rcases hg.arrivals d hd wd hk c hc name hpath with hc' | ⟨e, he, hwd, hname⟩
    · exact (haccounted hd' hc').grown hg
    · refine Or.inr (Or.inl ⟨e, List.mem_append_right _ he, ?_, hname⟩)
      change _ ∈ w.watches
      rw [hg.watches, hwd]
      exact hk
  refine ⟨hcovers.noded, hcovers.top, ?_, ?_⟩
  · intro d hd hdone c hc name hpath
    exact hentry d hd (hcovers.noded d.path hdone) c hc name hpath fun hd' hc' =>
      hcovers.entry d hd' hdone c hc' name hpath
  · intro d hd hnode c hc name hpath hnew
    refine hentry d hd hnode c hc name hpath fun hd' hc' =>
      hcovers.late d hd' hnode c hc' name hpath ?_
    rw [← hg.listed]
    exact hnew

/-- The world may grow at any time. -/
theorem Growth.grown (h : Growth roots capacity tops X rest s) {w : World}
    (hw : Growing roots rest w) (hg : Grown roots s.os w) :
    Growth roots capacity tops X rest { s with os := w } ∧ Kept roots s { s with os := w } := by
  refine ⟨⟨h.capacity, h.wellLinked, hw, ?_, ?_, ?_, ?_, ?_⟩, fun hn => ⟨_, hn, rfl, rfl⟩,
    ?_, hg.kept, rfl⟩
  · intro a n hn
    obtain ⟨d, hd, hpath, hin, hk⟩ := h.node hn
    refine ⟨d, hg.kept d hd hin, hpath, hin, ?_⟩
    change _ ∈ w.watches
    rw [hg.watches]
    exact hk
  · intro k hk
    exact h.watch k (hg.watches ▸ hk)
  · intro k hk
    change _ ∈ w.handedOut
    unfold World.handedOut
    rw [hg.log]
    exact h.handed k (hg.watches ▸ hk)
  · intro t ht
    obtain ⟨hin, d, hd, hpath⟩ := h.top t ht
    exact ⟨hin, d, hg.kept d hd (by rw [hpath]; exact hin), hpath⟩
  · obtain ⟨done, hcovers⟩ := h.covered
    exact ⟨done, hcovers.grown h hw hg⟩
  · intro k hk
    change k ∈ w.watches ∧ w.listed k.inode = _
    rw [hg.watches, hg.listed]
    exact ⟨hk, rfl⟩

end Basics

/-! ## Calls in a growing world -/

section Calls

variable {roots : List Bytes} {capacity : Nat} {tops : List Path} {X : Path → Prop}
  {rest : List KernelEvent} {script : Nat → Turn} {s : State World}

/-- The state when a call is answered: the world has moved on, everything else is the same. -/
def tick (script : Nat → Turn) (s : State World) (reading : Bool := false) : State World :=
  { s with os := s.os.advance reading (script s.os.time) }

/-- Growth up to the moment when a call is answered. -/
theorem Growth.tick (h : Growth roots capacity tops X rest s) (hs : GrowsOnly roots script)
    (reading : Bool := false) : Growth roots capacity tops X rest (tick script s reading) ∧
      Kept roots s (FsNotifier.tick script s reading) := by
  obtain ⟨hw, hg⟩ := h.world.advance reading (hs s.os.time).2
  exact h.grown hw hg

/-- Descriptors that are distinct at the end were distinct before each call. -/
theorem distinctWds_callOrder (script : Nat → Turn) (capacity : Nat) :
    CallOrder (worldOs script) fun w w' => DistinctWds capacity w' → DistinctWds capacity w where
  refl _ := id
  trans _ _ _ h h' := h ∘ h'
  call := by
    intro c w h
    obtain ⟨wds, hhanded⟩ := worldOs_handedOut script c w
    unfold DistinctWds at h
    rw [hhanded] at h
    exact fun wd hwd wd' hwd' =>
      h wd (List.mem_append_left _ hwd) wd' (List.mem_append_left _ hwd')

/-- The answer of {lit}`inotify_add_watch` for an existing directory. -/
theorem worldOs_addWatch_dir (hs : GrowsOnly roots script) {w : World}
    (ht : Tree (w.advance false (script w.time))) {d : Dir} (hd : d ∈ (w.advance false (script w.time)).dirs)
    (hne : d.path ≠ []) :
    let w₁ := w.advance false (script w.time)
    let r := worldOs script (.inotifyAddWatch (render d.path)) w
    (∃ wd, ⟨wd, d.inode⟩ ∈ w₁.watches ∧ r = w₁.answerAdd (render d.path) (.ok wd)) ∨
    ((∀ k ∈ w₁.watches, k.inode ≠ d.inode) ∧
      r = ({ w₁ with
        watches := w₁.watches ++ [⟨w₁.nextWd, d.inode⟩]
        listed := w₁.list d.inode
        nextWd := w₁.nextWd + 1 } : World).answerAdd (render d.path) (.ok w₁.nextWd)) := by
  intro w₁ r
  have hr : r = w₁.addWatch (script w.time) (render d.path) := rfl
  unfold World.addWatch at hr
  rw [(hs w.time).1, ht.resolve_render hd hne] at hr
  dsimp only at hr
  cases hwd : w₁.wdOf d.inode with
  | some wd =>
      rw [hwd] at hr
      exact Or.inl ⟨wd, World.mem_of_wdOf hwd, hr⟩
  | none =>
      rw [hwd] at hr
      refine Or.inr ⟨?_, hr⟩
      intro k hk hinode
      have := ht.wdOf_of_mem hk
      rw [hinode, hwd] at this
      contradiction

/-- What was handed out stays handed out when a call is recorded. -/
theorem World.mem_handedOut_snoc {w w' : World} {call : AddCall} {wd : Nat}
    (hwd : wd ∈ w.handedOut) (hlog : w'.log = w.log ++ [call] := by rfl) : wd ∈ w'.handedOut := by
  unfold World.handedOut at *
  rw [hlog, List.filterMap_append]
  exact List.mem_append_left _ hwd

/-- The record of calls does not matter to growth, except that it may not forget. -/
theorem Growth.record (h : Growth roots capacity tops X rest s) {held : List (Nat × Bytes)}
    {call : AddCall} :
    Growth roots capacity tops X rest
      { s with os := { s.os with held := held, log := s.os.log ++ [call] } } := by
  obtain ⟨done, hcovers⟩ := h.covered
  refine ⟨h.capacity, h.wellLinked, ?_, h.node, h.watch, ?_, h.top, done, hcovers.noded,
    hcovers.top, hcovers.entry, hcovers.late⟩
  · exact ⟨h.world.tree.of_same rfl rfl rfl rfl, h.world.inside, h.world.announced⟩
  · intro k hk
    exact World.mem_handedOut_snoc (h.handed k hk)

/-- A directory whose watch is new has no entries that came later. -/
theorem Accounts.addNode (h : Growth roots capacity tops X rest s) {d : Dir} (hd : d ∈ s.os.dirs)
    {parent : Option Nat} (hp : ParentLive s.heap parent) (held : List (Nat × Bytes))
    (call : AddCall) {done : Path → Prop} (hcovers : Accounts tops X rest s done) :
    let w : World := { s.os with
      watches := s.os.watches ++ [⟨s.os.nextWd, d.inode⟩]
      listed := s.os.list d.inode
      nextWd := s.os.nextWd + 1
      held := held
      log := s.os.log ++ [call] }
    Accounts tops X rest (FsNotifier.addNode { s with os := w } s.os.nextWd parent (render d.path))
      done := by
  intro w
  have hp' : ParentLive ({ s with os := w } : State World).heap parent := hp
  have htree := h.world.tree
  have hentry : ∀ d₁ name, Accounted X rest s done d₁ name → Accounted X rest
      (FsNotifier.addNode { s with os := w } s.os.nextWd parent (render d.path)) done d₁ name := by
    rintro d₁ name (hdone | ⟨e, he, hk, hname⟩ | hX)
    · exact Or.inl hdone
    · exact Or.inr (Or.inl ⟨e, he, List.mem_append_left _ hk, hname⟩)
    · exact Or.inr (Or.inr hX)
  refine ⟨?_, hcovers.top, ?_, ?_⟩
  · intro path hdone
    obtain ⟨a, n, hn, hpath⟩ := hcovers.noded path hdone
    obtain ⟨n', hn', -, -, hpath', -⟩ := addNode_survives (s := { s with os := w })
      s.os.nextWd (render d.path) hp' hn
    exact ⟨a, n', hn', hpath'.trans hpath⟩
  · intro d₁ hd₁ hdone c hc name hpath
    exact hentry d₁ name (hcovers.entry d₁ hd₁ hdone c hc name hpath)
  · rintro d₁ hd₁ ⟨a, n, hn, hnpath⟩ c hc name hpath hnew
    have hlisted : name ∉ s.os.list d.inode d₁.inode := hnew
    unfold World.list at hlisted
    by_cases heq : d₁.inode = d.inode
    · rw [if_pos heq, ← heq, htree.mem_childNames hd₁] at hlisted
      exact absurd ⟨c, hc, hpath⟩ hlisted
    · rw [if_neg heq] at hlisted
      refine hentry d₁ name (hcovers.late d₁ hd₁ ?_ c hc name hpath hlisted)
      rcases addNode_node (s := { s with os := w }) hp' hn with
        ⟨-, rfl⟩ | ⟨-, m, hm, -, -, hmpath, -⟩
      · have hdd : d.path = d₁.path :=
          render_injective (htree.valid d hd) (htree.valid d₁ hd₁) hnpath
        exact absurd (congrArg Dir.inode (htree.path_inj d₁ hd₁ d hd hdd.symm)) heq
      · exact ⟨a, m, hm, hmpath.symm.trans hnpath⟩

/-- A new watch and its new node, for a directory that had neither. -/
theorem Growth.addNode (h : Growth roots capacity tops X rest s) {d : Dir} (hd : d ∈ s.os.dirs)
    (hin : Inside roots d.path) (hno : ∀ k ∈ s.os.watches, k.inode ≠ d.inode)
    {parent : Option Nat} (hp : ParentLive s.heap parent)
    (hfree : s.watches.get s.os.nextWd = none) (held : List (Nat × Bytes)) (call : AddCall)
    (hcall : call.answer = .ok s.os.nextWd) :
    let w : World := { s.os with
      watches := s.os.watches ++ [⟨s.os.nextWd, d.inode⟩]
      listed := s.os.list d.inode
      nextWd := s.os.nextWd + 1
      held := held
      log := s.os.log ++ [call] }
    let s' := addNode { s with os := w } s.os.nextWd parent (render d.path)
    Growth roots capacity tops X rest s' ∧ Kept roots s s' := by
  intro w s'
  have ht := h.world.tree
  have hp' : ParentLive ({ s with os := w } : State World).heap parent := hp
  have hkept : Kept roots s s' := by
    refine ⟨fun hn => ?_, fun k hk => ⟨List.mem_append_left _ hk, if_neg (hno k hk)⟩,
      fun d hd _ => hd, rfl⟩
    obtain ⟨n', hn', hwd, -, hpath, -⟩ := addNode_survives (s := { s with os := w })
      s.os.nextWd (render d.path) hp' hn
    exact ⟨n', hn', hwd, hpath⟩
  have hwatches : ∀ k ∈ w.watches, k ∈ s.os.watches ∨ k = ⟨s.os.nextWd, d.inode⟩ := by
    intro k hk
    rcases List.mem_append.mp hk with hk | hk
    · exact Or.inl hk
    · exact Or.inr (List.mem_singleton.mp hk)
  have htree : Tree w := (ht.watch hno).of_same rfl rfl rfl rfl
  refine ⟨⟨h.capacity, ?_, ⟨htree, ?_, ?_⟩, ?_, ?_, ?_, h.top, ?_⟩, hkept⟩
  · exact WellLinked.addNode (s := { s with os := w }) h.wellLinked hp' hfree
  · intro k hk
    rcases hwatches k hk with hk | rfl
    · exact h.world.inside k hk
    · exact ⟨d, hd, rfl, hin⟩
  · intro e he
    obtain ⟨hhow, d₁, hd₁, hk, hmore⟩ := h.world.announced e he
    exact ⟨hhow, d₁, hd₁, List.mem_append_left _ hk, hmore⟩
  · intro a n hn
    rcases addNode_node (s := { s with os := w }) hp' hn with
      ⟨-, rfl⟩ | ⟨-, m, hm, hwd, -, hpath, -⟩
    · exact ⟨d, hd, rfl, hin, List.mem_append_right _ (List.mem_singleton.mpr rfl)⟩
    · obtain ⟨d₁, hd₁, hpath₁, hin₁, hk₁⟩ := h.node hm
      refine ⟨d₁, hd₁, hpath.trans hpath₁, hin₁, ?_⟩
      rw [hwd]
      exact List.mem_append_left _ hk₁
  · intro k hk
    rcases hwatches k hk with hk | rfl
    · obtain ⟨a, n, hn, hwd⟩ := h.watch k hk
      obtain ⟨n', hn', hwd', -⟩ := hkept.nodes hn
      exact ⟨a, n', hn', hwd'.trans hwd⟩
    · exact ⟨_, _, addNode_new (s := { s with os := w }) hp', rfl⟩
  · intro k hk
    rcases hwatches k hk with hk | rfl
    · exact World.mem_handedOut_snoc (h.handed k hk)
    · change s.os.nextWd ∈ List.filterMap _ (s.os.log ++ [call])
      rw [List.filterMap_append]
      refine List.mem_append_right _ (List.mem_filterMap.mpr ⟨call, by simp, ?_⟩)
      rw [hcall]
      rfl
  · obtain ⟨done, hcovers⟩ := h.covered
    exact ⟨done, hcovers.addNode h hd hp held call⟩

/-- Faults are of no concern here: the runs that count are those that return. -/
def anyFault (_ : Fault) : Prop :=
  True

/-- Watching a directory of the growing tree: it gets a node. -/
theorem wp_addWatch_growth (hs : GrowsOnly roots script)
    (h : Growth roots capacity tops X rest s)
    {d : Dir} (hd : d ∈ s.os.dirs) (hin : Inside roots d.path) {parent : Option Nat}
    (hp : ParentLive s.heap parent) :
    wp anyFault (addWatch (worldOs script) (render d.path) parent)
      (fun r s' => DistinctWds capacity s'.os →
        (∃ a n, s'.heap.get a = some n ∧ (n.wd : Int) = r ∧ n.path = render d.path) ∧
        Growth roots capacity tops X rest s' ∧ Kept roots s s') s := by
  obtain ⟨h₁, hk₁⟩ := h.tick hs
  have hd₁ := hk₁.dirs d hd hin
  unfold addWatch
  rw [wp_bind, wp_sys]
  rcases worldOs_addWatch_dir hs h₁.world.tree hd₁ hin.1 with ⟨wd, hwatch, hr⟩ | ⟨hno, hr⟩
  · -- the inode is watched, so it has its node already
    obtain ⟨a, n, hn, hwd⟩ := h₁.watch _ hwatch
    have hnode : s.heap.get a = some n := hn
    have hnwd : n.wd = wd := hwd
    obtain ⟨d₀, hd₀, hpath₀, -, hk₀⟩ := h₁.node hn
    have hinode : d₀ = d := by
      have hkk := h₁.world.tree.watch_wd _ hk₀ _ hwatch hwd
      exact h₁.world.tree.inode_inj d₀ hd₀ d hd₁ (KernelWatch.mk.inj hkk).2
    have hpath : n.path = render d.path := by rw [hpath₀, hinode]
    have hget : s.watches.get wd = some a := by
      rw [← hnwd]
      exact h.wellLinked.slotted.get_of_node hnode
    rw [hr]
    change wp anyFault (tableGet wd >>= _) _ { s with
      os := ((s.os.advance false (script s.os.time)).answerAdd (render d.path) (.ok wd)).2 }
    rw [wp_bind, wp_tableGet, hget]
    refine wp_addWatchExisting (s := { s with
      os := ((s.os.advance false (script s.os.time)).answerAdd (render d.path) (.ok wd)).2 })
      (worldOs script) hnode ?_ (fun hne => absurd hnwd hne) (fun hne => absurd hpath hne)
    intro _ _ _
    exact ⟨⟨a, n, hnode, by rw [hnwd], hpath⟩, h₁.record,
      ⟨hk₁.nodes, hk₁.watches, hk₁.dirs, rfl⟩⟩
  · -- the inode gets a new descriptor, whose slot is free unless descriptors clash
    rw [hr]
    let w₁ := s.os.advance false (script s.os.time)
    let w₂ : World := (({ w₁ with
      watches := w₁.watches ++ [⟨w₁.nextWd, d.inode⟩]
      listed := w₁.list d.inode
      nextWd := w₁.nextWd + 1 } : World).answerAdd (render d.path) (.ok w₁.nextWd)).2
    change wp anyFault (tableGet w₁.nextWd >>= _) _ { s with os := w₂ }
    rw [wp_bind, wp_tableGet]
    have hnew : w₂.handedOut = w₁.handedOut ++ [w₁.nextWd] := by
      change List.filterMap _ (w₁.log ++ [_]) = _
      rw [List.filterMap_append]
      rfl
    have hclash : ∀ {a n}, s.heap.get a = some n →
        n.wd % s.watches.capacity = w₁.nextWd % s.watches.capacity → ¬ DistinctWds capacity w₂ := by
      intro a n hn hslot hD
      obtain ⟨d₀, -, -, -, hk₀⟩ := h₁.node (show (tick script s).heap.get a = some n from hn)
      rw [h.capacity] at hslot
      unfold DistinctWds at hD
      rw [hnew] at hD
      have hwd := hD n.wd (List.mem_append_left _ (h₁.handed _ hk₀)) w₁.nextWd
        (List.mem_append_right _ (List.mem_singleton.mpr rfl)) hslot
      exact Nat.ne_of_lt (h₁.world.tree.wd_lt _ hk₀) hwd
    cases hget : s.watches.get w₁.nextWd with
    | some a =>
        rw [Table.get_natCast] at hget
        obtain ⟨n, hn, hslot⟩ := h.wellLinked.slotted.of_slot hget
        refine wp_addWatchExisting (s := { s with os := w₂ }) (worldOs script) hn ?_ ?_ ?_
        · exact fun _ _ hD => (hclash hn hslot hD).elim
        · exact fun _ hD => (hclash hn hslot hD).elim
        · intro _ r _ hD
          have hback := (distinctWds_callOrder script capacity).call
          exact (hclash hn hslot (hback _ _ (hback _ _ hD))).elim
    | none =>
        refine wp_of_run (addWatchFresh_run (s := { s with os := w₂ }) hp hget) ?_
        intro _
        obtain ⟨hgrowth, hkept⟩ := h₁.addNode hd₁ hin hno hp hget
          ((w₁.nextWd, render d.path) :: w₁.held)
          ⟨render d.path, .ok w₁.nextWd, w₁.held, w₁.pendingWds⟩ rfl
        refine ⟨⟨_, _, addNode_new (s := { s with os := w₂ }) hp, rfl, rfl⟩, hgrowth, ?_⟩
        exact hk₁.trans hkept

end Calls

/-! ## Reading a directory -/

section Reading

variable {w : World}

/-- An entry that {lit}`readdir` returns was there at the first call or is there now. -/
theorem readdir_some {turn : Turn} {dir dir' : DirStream} {entry : Dirent}
    (h : w.readdir turn dir = some (entry, dir')) :
    let snapshot := dir.snapshot.getD (w.childNames dir.inode)
    entry.type ≠ .other ∧ entry.name ∈ snapshot ++ w.childNames dir.inode ∧
      dir' = ⟨dir.inode, some snapshot, entry.name :: dir.seen⟩ := by
  intro snapshot
  unfold World.readdir at h
  dsimp only at h
  split at h
  · rename_i name hpick
    obtain ⟨i, -, hi⟩ := Option.bind_eq_some_iff.mp hpick
    cases h
    refine ⟨?_, (List.mem_filter.mp (List.mem_of_getElem? hi)).1, rfl⟩
    dsimp only
    split <;> simp
  · obtain ⟨name, hname, heq⟩ := Option.map_eq_some_iff.mp h
    cases heq
    have hdue := (List.mem_filter.mp (List.mem_of_mem_head? hname)).2
    refine ⟨?_, List.mem_append_right _ (of_decide_eq_true hdue).2.2, rfl⟩
    dsimp only
    split <;> simp

/-- When {lit}`readdir` returns no entry, all that must be returned were returned. -/
theorem readdir_none {turn : Turn} {dir : DirStream} (h : w.readdir turn dir = none) :
    ∀ name ∈ w.listed dir.inode, validName name = true → name ∈ w.childNames dir.inode →
      name ∈ dir.seen := by
  intro name hlisted hvalid hnow
  unfold World.readdir at h
  dsimp only at h
  split at h
  · contradiction
  · rw [Option.map_eq_none_iff, List.head?_eq_none_iff, List.filter_eq_nil_iff] at h
    have hno := h name hlisted
    simp only [decide_eq_true_eq, not_and] at hno
    by_contra hseen
    exact hno hvalid hseen hnow

end Reading

/-! ## Walking a growing tree -/

section Walking

variable {roots : List Bytes} {capacity : Nat} {tops : List Path} {rest : List KernelEvent}
  {script : Nat → Turn}

/-- The entries of {lit}`path` among {lit}`names` that a walk reading {lit}`dir` has yet to come
to. -/
def ToVisit (path : Path) (names : List Bytes) (dir : DirStream) (p : Path) : Prop :=
  ∃ name ∈ names, p = path ++ [name] ∧ name ∉ dir.seen

/-- A walk reads {lit}`dir`, a stream of the directory {lit}`d` with the node {lit}`a`: it will
come to the entries that were there when the directory's watch was added. -/
structure Reading (roots : List Bytes) (capacity : Nat) (tops : List Path)
    (toVisit : Path → Prop) (rest : List KernelEvent) (d : Dir) (a wd : Nat) (dir : DirStream)
    (s : State World) : Prop where
  growth : Growth roots capacity tops
    (fun p => toVisit p ∨ ToVisit d.path (s.os.listed d.inode) dir p) rest s
  exist : d ∈ s.os.dirs
  inode : dir.inode = d.inode
  snapshot : ∀ snapshot, dir.snapshot = some snapshot → ∀ name ∈ snapshot,
    ∃ c ∈ s.os.dirs, c.path = d.path ++ [name]
  node : ∃ n, s.heap.get a = some n ∧ n.wd = wd ∧ n.path = render d.path

namespace Reading

variable {X Y : Path → Prop} {d : Dir} {a wd : Nat} {dir dir' : DirStream} {s s' : State World}

/-- What a walk that reads can count on later. -/
theorem kept (h : Reading roots capacity tops X rest d a wd dir s) (hk : Kept roots s s')
    (hg : Growth roots capacity tops
      (fun p => Y p ∨ ToVisit d.path (s.os.listed d.inode) dir p) rest s') :
    Reading roots capacity tops Y rest d a wd dir s' := by
  obtain ⟨n, hn, hwd, hpath⟩ := h.node
  obtain ⟨n', hn', hwd', hpath'⟩ := hk.nodes hn
  obtain ⟨hin, wd', hwatch⟩ := h.growth.watched h.exist ⟨a, n, hn, hpath⟩
  have hlisted : s'.os.listed d.inode = s.os.listed d.inode := (hk.watches _ hwatch).2
  refine ⟨?_, hk.dirs d h.exist hin, h.inode, ?_, n', hn', hwd'.trans hwd, hpath'.trans hpath⟩
  · rw [hlisted]
    exact hg
  · intro snapshot hsnapshot name hname
    obtain ⟨c, hc, hcpath⟩ := h.snapshot snapshot hsnapshot name hname
    exact ⟨c, hk.dirs c hc (by rw [hcpath]; exact hin.entry name), hcpath⟩

theorem mem_childNames (h : Reading roots capacity tops X rest d a wd dir s) {name : Bytes} :
    name ∈ s.os.childNames dir.inode ↔ ∃ c ∈ s.os.dirs, c.path = d.path ++ [name] := by
  rw [h.inode]
  exact h.growth.world.tree.mem_childNames h.exist

/-- At the end of the stream the walk came to every entry it had to. -/
theorem finished (h : Reading roots capacity tops X rest d a wd dir s) {turn : Turn}
    (hread : s.os.readdir turn dir = none) : Growth roots capacity tops X rest s := by
  refine h.growth.mono_existing ?_
  rintro c hc (hX | ⟨name, hlisted, hpath, hunseen⟩)
  · exact hX
  · rw [← h.inode] at hlisted
    have hvalid : validName name = true :=
      h.growth.world.tree.valid c hc name (by rw [hpath]; simp)
    exact absurd (readdir_none hread name hlisted hvalid (h.mem_childNames.mpr ⟨c, hc, hpath⟩))
      hunseen

/-- The next entry is a directory, which has to be visited now. -/
theorem next (h : Reading roots capacity tops X rest d a wd dir s) {turn : Turn} {entry : Dirent}
    (hread : s.os.readdir turn dir = some (entry, dir')) :
    entry.type ≠ .other ∧ ∃ c ∈ s.os.dirs, c.path = d.path ++ [entry.name] ∧
      Reading roots capacity tops (fun p => X p ∨ p = c.path) rest d a wd dir' s := by
  obtain ⟨htype, hmem, rfl⟩ := readdir_some hread
  have hsnapshot : ∀ name ∈ dir.snapshot.getD (s.os.childNames dir.inode),
      ∃ c ∈ s.os.dirs, c.path = d.path ++ [name] := by
    intro name hname
    cases hdir : dir.snapshot with
    | none =>
        rw [hdir] at hname
        exact h.mem_childNames.mp hname
    | some snapshot =>
        rw [hdir] at hname
        exact h.snapshot snapshot hdir name hname
  obtain ⟨c, hc, hcpath⟩ : ∃ c ∈ s.os.dirs, c.path = d.path ++ [entry.name] := by
    rcases List.mem_append.mp hmem with hold | hnow
    · exact hsnapshot _ hold
    · exact h.mem_childNames.mp hnow
  refine ⟨htype, c, hc, hcpath, h.growth.mono_existing ?_, h.exist, h.inode, ?_, h.node⟩
  · rintro c' - (hX | ⟨name, hlisted, hpath, hunseen⟩)
    · exact Or.inl (Or.inl hX)
    · by_cases hname : name = entry.name
      · exact Or.inl (Or.inr (by rw [hpath, hcpath, hname]))
      · exact Or.inr ⟨name, hlisted, hpath, by simp [hname, hunseen]⟩
  · rintro snapshot ⟨⟩
    exact hsnapshot

end Reading

/-- What a call of {lit}`walk_tree` does for the directory {lit}`path`: it need not be visited
any more. -/
def WalkGrows (roots : List Bytes) (capacity : Nat) (tops : List Path) (toVisit : Path → Prop)
    (rest : List KernelEvent) (path : Path) (s : State World) (r : Int) (s' : State World) : Prop :=
  0 ≤ r ∧ Growth roots capacity tops (fun p => toVisit p ∧ p ≠ path) rest s' ∧ Kept roots s s'

/-- A later call of a walk that has come so far. -/
theorem wp_kept {α : Type} {m : Notifier World α} {s s₁ : State World} {Q : α → State World → Prop}
    (hk : Kept roots s s₁)
    (h : wp anyFault m (fun r s' => DistinctWds capacity s'.os → Q r s' ∧ Kept roots s₁ s') s₁) :
    wp anyFault m (fun r s' => DistinctWds capacity s'.os → Q r s' ∧ Kept roots s s') s₁ :=
  wp_weaken h fun _ _ hq hD => ⟨(hq hD).1, hk.trans (hq hD).2⟩

/-- Whatever has no type in the directory stream is asked for; it is a directory. -/
theorem wp_entryIsDir_growth (hs : GrowsOnly roots script) {X : Path → Prop} {s : State World}
    (h : Growth roots capacity tops X rest s) {d : Dir} (hd : d ∈ s.os.dirs)
    (hin : Inside roots d.path) {entry : Dirent} (htype : entry.type ≠ .other)
    {Q : Bool → State World → Prop}
    (hQ : ∀ s', Growth roots capacity tops X rest s' → Kept roots s s' → Q true s') :
    wp anyFault (entryIsDir (worldOs script) (render d.path) entry) Q s := by
  unfold entryIsDir
  cases hentry : entry.type with
  | other => exact absurd hentry htype
  | DT_DIR => exact hQ s h (.refl s)
  | DT_UNKNOWN =>
      obtain ⟨h₁, hk₁⟩ := h.tick hs
      have hd₁ := hk₁.dirs d hd hin
      dsimp only
      rw [wp_bind, wp_sys]
      change wp anyFault _ _ (tick script s)
      have hans : (worldOs script (.stat (render d.path)) s.os).1 = .ok .dir := by
        change World.stat (tick script s).os (script s.os.time) _ = _
        unfold World.stat
        rw [(hs s.os.time).1, h₁.world.tree.resolve_render hd₁ hin.1]
      rw [hans]
      exact hQ _ h₁ hk₁

/-- The loop of {lit}`walk_tree` comes to every entry it has to, given that the recursive call
takes care of the directory it is sent to. -/
theorem wp_walkEntries_growth (hs : GrowsOnly roots script)
    {walk : Bytes → Option Nat → Notifier World Int}
    (hback : ∀ path parent, Respects (OnOs fun w w' =>
      DistinctWds capacity w' → DistinctWds capacity w) (walk path parent))
    (hwalk : ∀ (X : Path → Prop) (d : Dir) parent (s : State World),
      Growth roots capacity tops X rest s → d ∈ s.os.dirs → Inside roots d.path →
      ParentLive s.heap parent →
      wp anyFault (walk (render d.path) parent) (fun r s' => DistinctWds capacity s'.os →
        WalkGrows roots capacity tops X rest d.path s r s') s)
    (X : Path → Prop) (d : Dir) (hin : Inside roots d.path) (wd a : Nat) :
    ∀ (fuel : Nat) (dir : DirStream) (s : State World),
      Reading roots capacity tops X rest d a wd dir s →
      wp anyFault (walkEntries (worldOs script) walk fuel dir (render d.path) wd)
        (fun r s' => DistinctWds capacity s'.os →
          (r = wd ∧ Growth roots capacity tops X rest s') ∧ Kept roots s s') s := by
  intro fuel
  induction fuel with
  | zero => intro dir s _; exact trivial
  | succ fuel ih =>
      intro dir s h
      obtain ⟨hg₁, hk₁⟩ := h.growth.tick hs
      have h₁ := h.kept hk₁ hg₁
      unfold walkEntries
      rw [wp_bind, wp_sys]
      change wp anyFault _ _ (tick script s)
      have hans : (worldOs script (.readdir dir) s.os).1 =
          (tick script s).os.readdir (script s.os.time) dir := rfl
      rw [hans]
      cases hread : (tick script s).os.readdir (script s.os.time) dir with
      | none => exact fun _ => ⟨⟨rfl, h₁.finished hread⟩, hk₁⟩
      | some r =>
          obtain ⟨entry, dir'⟩ := r
          obtain ⟨htype, c, hc, hcpath, hnext⟩ := h₁.next hread
          have hcin : Inside roots c.path := by
            rw [hcpath]
            exact hin.entry _
          have hvalid : validName entry.name = true :=
            h₁.growth.world.tree.valid c hc _ (by rw [hcpath]; simp)
          have hsub : render d.path ++ slash :: entry.name = render c.path := by
            rw [hcpath, render_snoc]
          dsimp only
          rw [if_neg (by
            rintro (hdot | hdot)
            · exact (ne_dot_of_validName hvalid).1 hdot
            · exact (ne_dot_of_validName hvalid).2 hdot), wp_bind, hsub]
          refine wp_entryIsDir_growth hs hnext.growth hc hcin htype fun s₂ hg₂ hk₂ => ?_
          have h₂ := hnext.kept hk₂ hg₂
          obtain ⟨n₂, hn₂, hwd₂, -⟩ := h₂.node
          rw [if_neg (by simp), wp_bind, wp_tableGet]
          have hget : s₂.watches.get (wd : Int) = some a := by
            rw [← hwd₂]
            exact hg₂.wellLinked.slotted.get_of_node hn₂
          rw [hget]
          have hcalls := distinctWds_callOrder script capacity
          refine wp_bind_under (D := fun t : State World => DistinctWds capacity t.os) (fun r => ?_)
            (hwalk _ c (some a) s₂ h₂.growth (hk₂.dirs c hc hcin) hcin ?_) ?_
          · split
            · exact respects_bind hcalls.forest (respects_rmWatch hcalls.forest _ _) fun _ =>
                respects_pure hcalls.forest _
            · exact respects_walkEntries hcalls.steps (fun path parent _ => hback path parent)
                trivial _ _ _
          · intro p hp
            cases hp
            exact ⟨n₂, hn₂⟩
          · intro r s₃ _ hr
            obtain ⟨hnonneg, hg₃, hk₃⟩ := hr
            rw [if_neg (by omega)]
            refine wp_kept (hk₁.trans (hk₂.trans hk₃)) (ih dir' s₃ (h₂.kept hk₃ ?_))
            refine hg₃.mono_existing ?_
            rintro c' - ⟨(hX | heq) | hvisit, hne⟩
            · exact Or.inl hX
            · exact absurd heq hne
            · exact Or.inr hvisit

/-- A walk takes care of the directory it was sent to: afterwards that directory and
everything below it is accounted for without it. -/
theorem wp_walkTree_growth (hs : GrowsOnly roots script) :
    ∀ (fuel : Nat) (X : Path → Prop) (d : Dir) (parent : Option Nat) (s : State World),
      Growth roots capacity tops X rest s → d ∈ s.os.dirs → Inside roots d.path →
      ParentLive s.heap parent →
      wp anyFault (walkTree (worldOs script) fuel (render d.path) parent true [])
        (fun r s' => DistinctWds capacity s'.os →
          WalkGrows roots capacity tops X rest d.path s r s') s := by
  intro fuel
  induction fuel with
  | zero => intro X d parent s _ _ _ _; exact trivial
  | succ fuel ih =>
      intro X d parent s h hd hin hp
      obtain ⟨h₁, hk₁⟩ := h.tick hs
      have hd₁ := hk₁.dirs d hd hin
      have hcalls := distinctWds_callOrder script capacity
      unfold walkTree
      rw [if_neg (by simp), if_neg (by simp), wp_bind, wp_sys]
      change wp anyFault _ _ (tick script s)
      have hans : (worldOs script (.opendir (render d.path)) s.os).1 =
          .ok ⟨d.inode, none, []⟩ := by
        change World.opendir (tick script s).os (script s.os.time) _ = _
        unfold World.opendir
        rw [(hs s.os.time).1, h₁.world.tree.resolve_render hd₁ hin.1]
      rw [hans]
      dsimp only
      refine wp_bind_under (D := fun t : State World => DistinctWds capacity t.os) (fun r => ?_)
        (wp_addWatch_growth hs h₁ hd₁ hin hp) ?_
      · split
        · exact respects_pure hcalls.forest _
        · exact respects_walkEntries hcalls.steps
            (fun _ _ _ => respects_walkTree hcalls.steps _ _ _ _ _ trivial) trivial _ _ _
      · intro id s₂ _ hid
        obtain ⟨⟨a, n, hn, hwd, hnpath⟩, h₂, hk₂⟩ := hid
        rw [← hwd, if_neg (by omega)]
        have hd₂ := hk₂.dirs d hd₁ hin
        have hreading : Reading roots capacity tops (fun p => X p ∧ p ≠ d.path) rest d a n.wd
            ⟨d.inode, none, []⟩ s₂ := by
          refine ⟨(h₂.visit hd₂ ⟨a, n, hn, hnpath⟩).mono_existing ?_, hd₂, rfl, by simp, n, hn, rfl,
            hnpath⟩
          rintro c - (hX | ⟨name, hlisted, hpath⟩)
          · exact Or.inl hX
          · exact Or.inr ⟨name, hlisted, hpath, List.not_mem_nil⟩
        refine wp_weaken (wp_walkEntries_growth hs
          (fun _ _ => respects_walkTree hcalls.steps _ _ _ _ _ trivial) (fun X d parent s => ih X d parent s)
          (fun p => X p ∧ p ≠ d.path) d hin n.wd a fuel _ s₂ hreading) fun r s₃ hr hD => ?_
        obtain ⟨⟨hrwd, h₃⟩, hk₃⟩ := hr hD
        exact ⟨by omega, h₃, hk₁.trans (hk₂.trans hk₃)⟩

end Walking

end FsNotifier
end IdeMultiarch
