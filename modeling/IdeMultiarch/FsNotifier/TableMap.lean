import IdeMultiarch.FsNotifier.Invariant
import IdeMultiarch.FsNotifier.World

/-!
# fsnotifier - when the watch table is a finite map

The table has one slot for each residue of a descriptor and resolves no collisions, while
descriptors keep growing.  Over whole runs of {lit}`add_watch` and {lit}`rm_watch` it maps every
descriptor the kernel has handed out to the node of exactly that descriptor if and only if
the descriptors handed out in the run are pairwise distinct modulo its capacity.

Main results:

- Theorem {lit}`TableRun.inv`: what holds of the table in every run.
- Theorem {lit}`table_is_map_iff_distinct`: when it is a finite map in every state of a run.
- Theorem {lit}`table_collision`: a run in which it is not, with few live watches.
-/

namespace IdeMultiarch
namespace FsNotifier

open Library

variable {σ δ : Type}

/-! ## Runs of the watch functions -/

/-- {lit}`handed` records the descriptors that {lit}`inotify_add_watch` has handed out. -/
structure Records (os : Os σ δ) (handed : σ → List Nat) : Prop where
  ok : ∀ path o wd, (os (.inotifyAddWatch path) o).1 = .ok wd →
    handed (os (.inotifyAddWatch path) o).2 = handed o ++ [wd]
  error : ∀ path o e, (os (.inotifyAddWatch path) o).1 = .error e →
    handed (os (.inotifyAddWatch path) o).2 = handed o
  other : ∀ c o, (∀ path, c ≠ .inotifyAddWatch path) → handed (os c o).2 = handed o

/-- One call of a watch function: {lit}`add_watch` for any path under any live parent or none,
{lit}`rm_watch` of any descriptor, and the removal of one kid in
{lit}`process_inotify_event`. -/
inductive TableStep (os : Os σ δ) (s s' : State σ) : Prop
  | add (path : Bytes) (parent : Option Nat) (r : Int) : ParentLive s.heap parent →
      (addWatch os path parent).run s = .ok (r, s') → TableStep os s s'
  | remove (key : Int) : (rmWatch os key true).run s = .ok ((), s') → TableStep os s s'
  | dropKid (a : Nat) (n : WatchNode) (path : Bytes) : s.heap.get a = some n →
      (dropKid os a path (List.range n.kids.length)).run s = .ok ((), s') → TableStep os s s'

/-- Runs of watch functions, with the states they pass through, the last one first. -/
inductive TableRun (os : Os σ δ) (init : State σ) : List (State σ) → State σ → Prop
  | start : TableRun os init [init] init
  | step {visited : List (State σ)} {s s' : State σ} : TableRun os init visited s →
      TableStep os s s' → TableRun os init (s' :: visited) s'

/-- The table as a finite map: under every descriptor that was handed out it finds the live
node of that descriptor and nothing else. -/
def TableIsMap (handed : List Nat) (s : State σ) : Prop :=
  ∀ wd ∈ handed, ∀ a, s.watches.get (wd : Int) = some a ↔
    ∃ n, s.heap.get a = some n ∧ n.wd = wd

/-- The test on which {lit}`add_watch` reports a corrupted table, and by which an event for
{lit}`wd` would be reported under the path of another descriptor. -/
def Corrupted (s : State σ) (wd : Nat) : Prop :=
  ∃ a n, s.watches.get (wd : Int) = some a ∧ s.heap.get a = some n ∧ n.wd ≠ wd

/-- A finite map is not corrupted. -/
theorem TableIsMap.not_corrupted {handed : List Nat} {s : State σ} (h : TableIsMap handed s)
    {wd : Nat} (hwd : wd ∈ handed) : ¬ Corrupted s wd := by
  rintro ⟨a, n, hget, hn, hne⟩
  obtain ⟨n', hn', hwd'⟩ := (h wd hwd a).mp hget
  rw [hn] at hn'
  cases hn'
  exact hne hwd'

/-! ## What holds in every run -/

/-- In every run the forest is well formed and the nodes have descriptors that were handed
out. -/
structure TableInv (capacity : Nat) (handed : σ → List Nat) (s : State σ) : Prop where
  capacity : s.watches.capacity = capacity
  wellLinked : WellLinked s.watches s.heap
  handed : ∀ {a n}, s.heap.get a = some n → n.wd ∈ handed s.os

section Steps

variable {os : Os σ δ} {handed : σ → List Nat} {capacity : Nat} {s s' : State σ}

/-- Removing watches hands nothing out. -/
theorem Records.rmCalls (hrec : Records os handed) (wds : List Nat) (o : σ) :
    handed (rmCalls os wds o) = handed o := by
  induction wds generalizing o with
  | nil => rfl
  | cons wd wds ih => exact (ih _).trans (hrec.other _ o (by simp))

/-- Pruning keeps the invariant. -/
theorem TableInv.prune (h : TableInv capacity handed s) (hrec : Records os handed) {a : Nat}
    {n : WatchNode} {L : List Nat} (ht : Subtree s.heap a n L) :
    TableInv capacity handed (prune os s n.parent a (a :: L)) ∧
      handed (FsNotifier.prune os s n.parent a (a :: L)).os = handed s.os := by
  have hos : handed (FsNotifier.prune os s n.parent a (a :: L)).os = handed s.os :=
    hrec.rmCalls _ _
  refine ⟨⟨h.capacity, h.wellLinked.prune ht, ?_⟩, hos⟩
  intro b m hm
  obtain ⟨-, m₀, hm₀, hwd, -⟩ := prune_node hm
  rw [hwd, hos]
  exact h.handed hm₀

/-- What {lit}`add_watch` does: it leaves the descriptor's slot taken, and it hands out at most
that descriptor. -/
structure AddResult (capacity : Nat) (handed : σ → List Nat) (s s' : State σ) : Prop where
  inv : TableInv capacity handed s'
  handedOut : handed s'.os = handed s.os ∨
    ∃ wd a : Nat, handed s'.os = handed s.os ++ [wd] ∧ s'.watches.get (wd : Int) = some a

/-- The forest and the table stay as they are, and nothing was handed out. -/
theorem TableInv.idle (h : TableInv capacity handed s) {o : σ} (ho : handed o = handed s.os)
    (limit : Bool) (out : Bytes) :
    AddResult capacity handed s { s with os := o, limitReached := limit, stdout := out } :=
  ⟨⟨h.capacity, h.wellLinked, fun hn => by
    change _ ∈ handed o
    rw [ho]
    exact h.handed hn⟩, Or.inl ho⟩

/-- A descriptor whose slot is taken was handed out. -/
theorem TableInv.taken (h : TableInv capacity handed s) {o : σ} {wd a : Nat} {n : WatchNode}
    (ho : handed o = handed s.os ++ [wd]) (hn : s.heap.get a = some n)
    (hslot : n.wd % s.watches.capacity = wd % s.watches.capacity) :
    AddResult capacity handed s { s with os := o } := by
  refine ⟨⟨h.capacity, h.wellLinked, fun hn => ?_⟩, Or.inr ⟨wd, a, ho, ?_⟩⟩
  · change _ ∈ handed o
    rw [ho]
    exact List.mem_append_left _ (h.handed hn)
  · rw [Table.get_natCast, ← hslot]
    exact h.wellLinked.slotted.of_node hn

/-- {lit}`add_watch`, whatever the kernel answers. -/
theorem wp_addWatch_table {tol : Fault → Prop} (hrec : Records os handed)
    (h : TableInv capacity handed s) {path : Bytes} {parent : Option Nat}
    (hp : ParentLive s.heap parent) :
    wp tol (addWatch os path parent) (fun _ s' => AddResult capacity handed s s') s := by
  apply wp_addWatch os h.wellLinked hp rfl
  · exact fun e hans _ => h.idle (hrec.error path _ e hans) _ _
  · exact fun hans limit out => h.idle (hrec.error path _ _ hans) limit out
  · exact fun e hans _ _ _ => h.idle (hrec.error path _ e hans) _ _
  · exact fun wd a n hans hn hwd _ => h.taken (hrec.ok path _ wd hans) hn (by rw [hwd])
  · exact fun wd a n hans hn hslot _ => h.taken (hrec.ok path _ wd hans) hn hslot
  · intro wd a n hans hn hslot _ r _
    refine h.taken ?_ hn hslot
    rw [hrec.other _ _ (by simp), hrec.other _ _ (by simp), hrec.ok path _ wd hans]
  · intro wd hans hfree
    have hos := hrec.ok path _ wd hans
    let s₁ : State σ := { s with os := (os (.inotifyAddWatch path) s.os).2 }
    have hp₁ : ParentLive s₁.heap parent := hp
    have hinv : WellLinked (addNode s₁ wd parent path).watches (addNode s₁ wd parent path).heap :=
      WellLinked.addNode h.wellLinked hp₁ hfree
    have hnew : (addNode s₁ wd parent path).heap.get s.heap.next = some ⟨wd, parent, [], path⟩ :=
      addNode_new hp₁
    refine ⟨⟨h.capacity, hinv, ?_⟩, Or.inr ⟨wd, _, hos, hinv.slotted.get_of_node hnew⟩⟩
    intro a n hn
    change _ ∈ handed s₁.os
    rw [hos]
    rcases addNode_node hp₁ hn with ⟨-, rfl⟩ | ⟨-, m, hm, hwd, -⟩
    · exact List.mem_append_right _ (List.mem_singleton.mpr rfl)
    · rw [hwd]
      exact List.mem_append_left _ (h.handed hm)

/-- One call keeps the invariant. -/
theorem TableStep.result (hrec : Records os handed) (h : TableInv capacity handed s)
    (hstep : TableStep os s s') : AddResult capacity handed s s' := by
  cases hstep with
  | add path parent r hp hrun =>
      have hadd : wp fuelOnly (addWatch os path parent)
          (fun _ t => AddResult capacity handed s t) s := wp_addWatch_table hrec h hp
      have hresult := run_of_wp hadd hrun
      exact hresult
  | remove key hrun =>
      cases hget : s.watches.get key with
      | none =>
          rw [rmWatch_run_none os true hget] at hrun
          cases hrun
          exact ⟨h, Or.inl rfl⟩
      | some a =>
          obtain ⟨n, hn⟩ := h.wellLinked.slotted.live_of_get hget
          obtain ⟨L, hL⟩ := h.wellLinked.exists_subtree hn
          rw [rmWatch_run_some os h.wellLinked true hget hL, if_pos rfl] at hrun
          cases hrun
          obtain ⟨hinv, hos⟩ := h.prune hrec hL
          exact ⟨hinv, Or.inl hos⟩
  | dropKid a n path hn hrun =>
      obtain ⟨t, hrun', ht⟩ := dropKid_run os h.wellLinked hn path (List.range n.kids.length)
      rw [hrun] at hrun'
      cases hrun'
      rcases ht with ⟨-, rfl⟩ | ⟨k, m, L, -, hL, -, rfl⟩
      · exact ⟨h, Or.inl rfl⟩
      · obtain ⟨hinv, hos⟩ := h.prune hrec hL
        exact ⟨hinv, Or.inl hos⟩

/-- The invariant holds in every run. -/
theorem TableRun.inv (hrec : Records os handed) {init : State σ}
    (hinit : TableInv capacity handed init) {visited : List (State σ)}
    (hrun : TableRun os init visited s) : TableInv capacity handed s := by
  induction hrun with
  | start => exact hinit
  | step _ hstep ih => exact (hstep.result hrec ih).inv

/-! ## When the table is a map -/

/-- With distinct descriptors the table is a map. -/
theorem TableInv.isMap (h : TableInv capacity handed s)
    (hdistinct : DistinctMod capacity (handed s.os)) : TableIsMap (handed s.os) s := by
  intro wd hwd a
  constructor
  · intro hget
    rw [Table.get_natCast] at hget
    obtain ⟨n, hn, hslot⟩ := h.wellLinked.slotted.of_slot hget
    rw [h.capacity] at hslot
    exact ⟨n, hn, hdistinct _ (h.handed hn) _ hwd hslot⟩
  · rintro ⟨n, hn, rfl⟩
    exact h.wellLinked.slotted.get_of_node hn

/-- A map has room for the descriptor that was handed out last. -/
theorem TableIsMap.distinct_snoc {wds : List Nat} {wd a : Nat} (hcap : s.watches.capacity = capacity)
    (hmap : TableIsMap (wds ++ [wd]) s) (hget : s.watches.get (wd : Int) = some a)
    (hdistinct : DistinctMod capacity wds) : DistinctMod capacity (wds ++ [wd]) := by
  have hlast : ∀ wd' ∈ wds ++ [wd], wd' % capacity = wd % capacity → wd' = wd := by
    intro wd' hwd' hslot
    have hget' : s.watches.get (wd' : Int) = some a := by
      rw [Table.get_natCast] at hget ⊢
      rw [hcap] at hget ⊢
      rw [hslot]
      exact hget
    obtain ⟨n, hn, hnwd⟩ := (hmap wd (by simp) a).mp hget
    obtain ⟨n', hn', hnwd'⟩ := (hmap wd' hwd' a).mp hget'
    rw [hn] at hn'
    cases hn'
    exact hnwd'.symm.trans hnwd
  intro x hx y hy hslot
  rcases List.mem_append.mp hx with hx' | hx'
  · rcases List.mem_append.mp hy with hy' | hy'
    · exact hdistinct x hx' y hy' hslot
    · rw [List.mem_singleton.mp hy'] at hslot ⊢
      exact hlast x hx hslot
  · rw [List.mem_singleton.mp hx'] at hslot ⊢
    exact (hlast y hy hslot.symm).symm

/-- In a run from a fresh notifier, whatever the kernel answers, the table is a finite map in
every state if and only if the descriptors handed out are distinct modulo its capacity. -/
theorem table_is_map_iff_distinct (hrec : Records os handed) {o : σ} (hfresh : handed o = [])
    (hpos : 0 < capacity) {visited : List (State σ)}
    (hrun : TableRun os (start o capacity hpos) visited s) :
    (∀ t ∈ visited, TableIsMap (handed t.os) t) ↔ DistinctMod capacity (handed s.os) := by
  have hinit : TableInv capacity handed (start o capacity hpos) :=
    ⟨rfl, .empty capacity hpos, by simp [start]⟩
  induction hrun with
  | start =>
      have hnone : handed (start o capacity hpos).os = [] := hfresh
      rw [hnone]
      simp [DistinctMod, TableIsMap, hnone]
  | @step visited s s' hrun hstep ih =>
      have hresult := hstep.result hrec (hrun.inv hrec hinit)
      rw [List.forall_mem_cons]
      constructor
      · rintro ⟨hmap, hvisited⟩
        have hdistinct := ih.mp hvisited
        rcases hresult.handedOut with hos | ⟨wd, a, hos, hget⟩
        · rw [hos]
          exact hdistinct
        · rw [hos] at hmap ⊢
          exact hmap.distinct_snoc hresult.inv.capacity hget hdistinct
      · intro hdistinct
        refine ⟨hresult.inv.isMap hdistinct, ih.mpr ?_⟩
        rcases hresult.handedOut with hos | ⟨wd, a, hos, -⟩
        · rwa [hos] at hdistinct
        · rw [hos] at hdistinct
          intro x hx y hy
          exact hdistinct x (List.mem_append_left _ hx) y (List.mem_append_left _ hy)

end Steps

/-! ## Runs in the world -/

/-- The world records what it hands out. -/
theorem worldOs_records (script : Nat → Turn) : Records (worldOs script) World.handedOut where
  ok := by
    intro path w wd hans
    unfold World.handedOut
    rw [worldOs_log_addWatch, List.filterMap_append, hans]
    rfl
  error := by
    intro path w e hans
    unfold World.handedOut
    rw [worldOs_log_addWatch, List.filterMap_append, hans]
    exact List.append_nil _
  other := by
    intro c w hc
    unfold World.handedOut
    rw [worldOs_log_other script c w hc]

/-- A world in which nothing happens. -/
def quietOs : Os World DirStream :=
  worldOs fun _ => Turn.quiet

/-- A notifier with room for two watches, in a world with three directories. -/
def noneWatched : State World :=
  start
    { oneDirectory with
      dirs := [⟨[], 1⟩, ⟨[cstr "a"], 2⟩, ⟨[cstr "b"], 3⟩, ⟨[cstr "c"], 4⟩]
      nextInode := 5 }
    2 (by decide)

/-- The first two directories are watched. -/
def oneWatched : State World :=
  finalState (addWatch quietOs (cstr "/a") none) noneWatched

def twoWatched : State World :=
  finalState (addWatch quietOs (cstr "/b") none) oneWatched

/-- The second one is not watched any more. -/
def oneDropped : State World :=
  finalState (rmWatch quietOs 2 true) twoWatched

/-- The third one was to be watched. -/
def oneRefused : State World :=
  finalState (addWatch quietOs (cstr "/c") none) oneDropped

theorem oneWatched_run :
    TableRun quietOs noneWatched [oneWatched, noneWatched] oneWatched := by
  have hadd : returned ((addWatch quietOs (cstr "/a") none).run noneWatched) 1
      (fun _ => true) = true := by decide +kernel
  exact .step .start (.add _ none 1 (by simp [ParentLive]) (run_finalState hadd).1)

theorem twoWatched_run :
    TableRun quietOs noneWatched [twoWatched, oneWatched, noneWatched] twoWatched := by
  have hadd : returned ((addWatch quietOs (cstr "/b") none).run oneWatched) 2
      (fun _ => true) = true := by decide +kernel
  exact .step oneWatched_run (.add _ none 2 (by simp [ParentLive]) (run_finalState hadd).1)

/-- With two descriptors in two slots the table is a map. -/
theorem table_is_map_twoWatched :
    DistinctMod 2 twoWatched.os.handedOut ∧
      ∀ t ∈ [twoWatched, oneWatched, noneWatched], TableIsMap t.os.handedOut t := by
  have hdistinct : DistinctMod 2 twoWatched.os.handedOut := by decide +kernel
  refine ⟨hdistinct, ?_⟩
  exact (table_is_map_iff_distinct (worldOs_records _) rfl (by decide) twoWatched_run).mpr hdistinct

/-- Descriptors grow, at most two watches are live, and still the third directory cannot be
watched: {lit}`add_watch` finds the node of the first one in its slot and gives up. -/
theorem table_collision :
    ∃ visited, TableRun quietOs noneWatched visited oneRefused ∧
      (∀ t ∈ visited, t.os.watches.length ≤ 2) ∧ oneRefused.os.handedOut = [1, 2, 3] ∧
      (addWatch quietOs (cstr "/c") none).run oneDropped = .ok (ERR_ABORT, oneRefused) ∧
      Corrupted oneRefused 3 ∧ ¬ ∀ t ∈ visited, TableIsMap t.os.handedOut t := by
  have hrm : returned ((rmWatch quietOs 2 true).run twoWatched) () (fun _ => true) = true := by
    decide +kernel
  have hadd : returned ((addWatch quietOs (cstr "/c") none).run oneDropped) ERR_ABORT
      (fun _ => true) = true := by decide +kernel
  have hrefused := (run_finalState hadd).1
  have hrun : TableRun quietOs noneWatched
      [oneRefused, oneDropped, twoWatched, oneWatched, noneWatched] oneRefused :=
    .step (.step twoWatched_run (.remove 2 (run_finalState hrm).1))
      (.add _ none ERR_ABORT (by simp [ParentLive]) hrefused)
  have hhanded : oneRefused.os.handedOut = [1, 2, 3] := by decide +kernel
  have hslot : oneRefused.watches.get (3 : Nat) = some 0 := by decide +kernel
  have hnode : oneRefused.heap.get 0 = some ⟨1, none, [], cstr "/a"⟩ := by decide +kernel
  have hcorrupted : Corrupted oneRefused 3 := ⟨0, _, hslot, hnode, by decide⟩
  refine ⟨_, hrun, by decide +kernel, hhanded, hrefused, hcorrupted, fun hmap => ?_⟩
  exact (hmap oneRefused (by simp)).not_corrupted (by rw [hhanded]; simp) hcorrupted

end FsNotifier
end IdeMultiarch
