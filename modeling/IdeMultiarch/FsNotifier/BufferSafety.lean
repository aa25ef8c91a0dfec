import IdeMultiarch.FsNotifier.Consistency
import IdeMultiarch.FsNotifier.PathBuffer

/-!
# fsnotifier - the shared path buffer is never left

Calls fail for paths that are too long, and names are short.  From this alone it follows that
no path outgrows the buffer, that every path ends where the notifier thinks it does, and that
the notifier with the buffer follows the notifier that passes its paths by value.

Main results:

- Theorem {lit}`sim_walkTree`: a walk leaves the start of the buffer as it was.
- Theorem {lit}`sim_watch`, {lit}`sim_processInotifyEvent`: whoever starts a walk fills the buffer.
- Theorem {lit}`path_buffer_safe`: no turn of the main loop leaves the buffer.
- Theorem {lit}`perform_by_value`: every turn is a turn of the notifier without the buffer.
-/

namespace IdeMultiarch
namespace FsNotifier
namespace Buffered

open Library CharArray

variable {σ δ α β : Type}

/-! ## What the calls promise -/

abbrev NAME_MAX : Nat := 255

/-- A name that an event brings fits. -/
def GoodEvent (event : InotifyEvent) : Prop :=
  ∀ name, event.name = some name → name.length ≤ NAME_MAX ∧ 0 ∉ name

/-- A root that {lit}`watch` may be given: a string, not empty without the flat marker. -/
def GoodRoot (root : Bytes) : Prop :=
  0 ∉ root ∧ unflatten root ≠ []

/-- Calls fail for paths longer than {lit}`PATH_MAX` with the final NUL, and names have at most
{lit}`NAME_MAX` bytes, none of them NUL. -/
structure PathLimits (os : Os σ δ) : Prop where
  stat : ∀ {path o type}, (os (.stat path) o).1 = .ok type → path.length + 1 ≤ PATH_MAX
  opendir : ∀ {path o dir}, (os (.opendir path) o).1 = .ok dir → path.length + 1 ≤ PATH_MAX
  add : ∀ {path o wd}, (os (.inotifyAddWatch path) o).1 = .ok wd → path.length + 1 ≤ PATH_MAX
  entry : ∀ {dir o entry dir'}, (os (.readdir dir) o).1 = some (entry, dir') →
    entry.name.length ≤ NAME_MAX ∧ 0 ∉ entry.name
  event : ∀ {o events}, (os .read o).1 = .ok events → ∀ event ∈ events, GoodEvent event

/-! ## The invariant -/

/-- What a node keeps of a path: its bytes with a NUL byte behind them and none among them, and
their number. -/
structure NodePath.Keeps (stored : NodePath) (path : Bytes) : Prop where
  eq : stored = ⟨path.length, path ++ [0]⟩
  string : 0 ∉ path
  short : path.length + 1 ≤ PATH_MAX

/-- Every node keeps its path, also a node that is gone again, and roots may be watched. -/
structure Sound (s : BufState σ) : Prop where
  keeps : ∀ {a n}, s.state.heap.get a = some n →
    ∃ stored, s.nodePaths a = some stored ∧ stored.Keeps n.path
  every : ∀ {a stored}, s.nodePaths a = some stored → ∃ path, stored.Keeps path
  roots : ∀ root ∈ s.state.roots, GoodRoot root.path

/-- From {lit}`s` to {lit}`t` no node and no root has come, and none has another path. -/
structure Settles (s t : State σ) : Prop where
  nodes : ∀ {a n'}, t.heap.get a = some n' → ∃ n, s.heap.get a = some n ∧ n.path = n'.path
  roots : ∀ root' ∈ t.roots, ∃ root ∈ s.roots, root.path = root'.path

theorem Settles.refl (s : State σ) : Settles s s :=
  ⟨fun hn => ⟨_, hn, rfl⟩, fun root hroot => ⟨root, hroot, rfl⟩⟩

theorem Settles.trans (s t u : State σ) (h : Settles s t) (h' : Settles t u) : Settles s u := by
  refine ⟨?_, ?_⟩
  · intro a n'' hn''
    obtain ⟨n', hn', hpath'⟩ := h'.nodes hn''
    obtain ⟨n, hn, hpath⟩ := h.nodes hn'
    exact ⟨n, hn, hpath.trans hpath'⟩
  · intro root'' hroot''
    obtain ⟨root', hroot', hpath'⟩ := h'.roots root'' hroot''
    obtain ⟨root, hroot, hpath⟩ := h.roots root' hroot'
    exact ⟨root, hroot, hpath.trans hpath'⟩

theorem Settles.of_same {s t : State σ} (hheap : t.heap = s.heap) (hroots : t.roots = s.roots) :
    Settles s t := by
  refine ⟨?_, ?_⟩
  · intro a n' hn'
    rw [hheap] at hn'
    exact ⟨n', hn', rfl⟩
  · intro root hroot
    rw [hroots] at hroot
    exact ⟨root, hroot, rfl⟩

theorem Sound.settles {s : BufState σ} {t : State σ} (h : Sound s) (hs : Settles s.state t) :
    Sound { s with state := t } := by
  refine ⟨?_, h.every, ?_⟩
  · intro a n' hn'
    obtain ⟨n, hn, hpath⟩ := hs.nodes hn'
    rw [← hpath]
    exact h.keeps hn
  · intro root' hroot'
    obtain ⟨root, hroot, hpath⟩ := hs.roots root' hroot'
    rw [← hpath]
    exact h.roots root hroot

/-- The invariant does not look at the buffer. -/
theorem Sound.buffer {s : BufState σ} (h : Sound s) (pathBuf : CharArray (2 * PATH_MAX)) :
    Sound { s with pathBuf := pathBuf } :=
  ⟨h.keeps, h.every, h.roots⟩

/-- The buffer holds a path that ends with a NUL byte at {lit}`pathLen`. -/
structure Holds (s : BufState σ) (path : Bytes) (pathLen : Nat) : Prop where
  starts : s.pathBuf.Starts (path ++ [0])
  string : 0 ∉ path
  length : path.length = pathLen

/-! ## Steps that settle -/

section Settling

theorem settles_sys (os : Os σ δ) (call : SysCall δ) : Respects Settles (sys os call) := by
  intro s a t hrun
  cases hrun
  exact .of_same rfl rfl

theorem deref_eq_ok {s t : State σ} {a : Nat} {n : WatchNode}
    (hrun : (deref a).run s = .ok (n, t)) : s.heap.get a = some n ∧ t = s := by
  cases hget : s.heap.get a with
  | none =>
      have herror : (deref a).run s = .error (.useAfterFree a) := by
        unfold deref
        rw [run_bind_of_run (a := s) (t := s) rfl, hget]
        rfl
      rw [herror] at hrun
      contradiction
  | some m =>
      rw [deref_run hget] at hrun
      cases hrun
      exact ⟨rfl, rfl⟩

theorem settles_deref (a : Nat) : Respects Settles (deref (σ := σ) a) := by
  intro s n t hrun
  obtain ⟨-, rfl⟩ := deref_eq_ok hrun
  exact .refl _

theorem settles_tableGet (wd : Int) : Respects Settles (tableGet (σ := σ) wd) := by
  intro s a t hrun
  cases hrun
  exact .refl _

theorem settles_tablePut (wd : Int) (value : Option Nat) :
    Respects Settles (tablePut (σ := σ) wd value) := by
  intro s a t hrun
  cases hrun
  exact .of_same rfl rfl

theorem settles_output (line : Bytes) : Respects Settles (output (σ := σ) line) := by
  intro s a t hrun
  cases hrun
  exact .of_same rfl rfl

theorem settles_free (a : Nat) : Respects Settles (free (σ := σ) a) := by
  intro s u t hrun
  cases hrun
  refine ⟨?_, fun root hroot => ⟨root, hroot, rfl⟩⟩
  intro b n' hn'
  dsimp only at hn'
  rw [Heap.free_get] at hn'
  split at hn'
  · contradiction
  · exact ⟨n', hn', rfl⟩

/-- Changing a node leaves its path alone. -/
theorem settles_update (a : Nat) {f : WatchNode → WatchNode} (hf : ∀ n, (f n).path = n.path) :
    Respects Settles (update (σ := σ) a f) := by
  refine Respects.bind Settles.trans (settles_deref a) fun _ => Respects.modify ?_
  intro s
  refine ⟨?_, fun root hroot => ⟨root, hroot, rfl⟩⟩
  intro b n' hn'
  dsimp only at hn'
  rw [Heap.modify_get] at hn'
  split at hn'
  · rename_i hba
    obtain ⟨n, hn, rfl⟩ := Option.map_eq_some_iff.mp hn'
    exact ⟨n, by rw [hba]; exact hn, (hf n).symm⟩
  · exact ⟨n', hn', rfl⟩

theorem settles_pushKid (parent : Option Nat) (a : Nat) :
    Respects Settles (pushKid (σ := σ) parent a) := by
  cases parent with
  | none => exact .pure Settles.refl _
  | some p => exact settles_update p fun _ => rfl

theorem settles_forgetKid (parent : Option Nat) (a : Nat) :
    Respects Settles (forgetKid (σ := σ) parent a) := by
  cases parent with
  | none => exact .pure Settles.refl _
  | some p => exact settles_update p fun _ => rfl

theorem settles_rmKids {rm : Int → Notifier σ Unit} (hrm : ∀ wd, Respects Settles (rm wd))
    (a : Nat) (is : List Nat) : Respects Settles (rmKids rm a is) := by
  induction is with
  | nil => exact .pure Settles.refl _
  | cons i is ih =>
      unfold rmKids
      refine .bind Settles.trans (settles_deref a) fun node => ?_
      split
      · exact ih
      · rename_i k _
        refine .bind Settles.trans (settles_deref k) fun kid => ?_
        exact .bind Settles.trans (hrm _) fun _ => ih

theorem settles_rmWatchAux (os : Os σ δ) :
    ∀ (fuel : Nat) (wd : Int) (updateParent : Bool),
      Respects Settles (rmWatchAux os fuel wd updateParent) := by
  intro fuel
  induction fuel with
  | zero => intro wd updateParent; exact .throw _
  | succ fuel ih =>
      intro wd updateParent
      unfold rmWatchAux
      refine .bind Settles.trans (settles_tableGet wd) fun slot => ?_
      split
      · exact .pure Settles.refl _
      · rename_i a
        refine .bind Settles.trans (settles_deref a) fun node => ?_
        refine .bind Settles.trans (settles_sys os _) fun _ => ?_
        refine .bind Settles.trans (settles_rmKids (fun wd => ih wd false) a _) fun _ => ?_
        refine .bind Settles.trans (settles_deref a) fun node => ?_
        have hrest : Respects Settles (do
            free (σ := σ) a
            let _ ← tablePut wd none
            pure ()) :=
          .bind Settles.trans (settles_free a) fun _ =>
            .bind Settles.trans (settles_tablePut wd none) fun _ => .pure Settles.refl _
        split
        · exact .bind Settles.trans (settles_forgetKid _ a) fun _ => hrest
        · exact hrest

theorem settles_rmWatch (os : Os σ δ) (wd : Int) (updateParent : Bool) :
    Respects Settles (rmWatch os wd updateParent) :=
  .bind Settles.trans (.get Settles.refl) fun _ => settles_rmWatchAux os _ wd updateParent

theorem settles_watchLimitReached : Respects Settles (watchLimitReached (σ := σ)) := by
  refine .bind Settles.trans (.get Settles.refl) fun s => ?_
  split
  · refine .bind Settles.trans (.modify fun _ => .of_same rfl rfl) fun _ => ?_
    exact .bind Settles.trans (settles_output _) fun _ => settles_output _
  · exact .pure Settles.refl _

theorem settles_addWatchExisting (os : Os σ δ) (path : Bytes) (wd a : Nat) :
    Respects Settles (addWatchExisting os path wd a) := by
  refine .bind Settles.trans (settles_deref a) fun node => ?_
  split
  · exact .pure Settles.refl _
  · split
    · refine .bind Settles.trans (settles_sys os _) fun _ => ?_
      refine .bind Settles.trans (settles_sys os _) fun _ => ?_
      split
      · exact .pure Settles.refl _
      · exact .pure Settles.refl _
    · exact .pure Settles.refl _

theorem settles_entryIsDir (os : Os σ δ) (path : Bytes) (entry : Dirent) :
    Respects Settles (entryIsDir os path entry) := by
  unfold entryIsDir
  split
  · exact .pure Settles.refl _
  · exact .pure Settles.refl _
  · refine .bind Settles.trans (settles_sys os _) fun answer => ?_
    split
    · exact .pure Settles.refl _
    · exact .pure Settles.refl _

theorem settles_reportEvent (event path : Bytes) :
    Respects Settles (reportEvent (σ := σ) event path) :=
  .modify fun _ => .of_same rfl rfl

theorem settles_reportMask (path : Bytes) (mask : UInt32) :
    Respects Settles (reportMask (σ := σ) path mask) := by
  unfold reportMask
  split
  · exact .bind Settles.trans (settles_reportEvent _ _) fun _ => settles_reportEvent _ _
  · split
    · exact settles_reportEvent _ _
    · split
      · exact settles_reportEvent _ _
      · split
        · exact settles_reportEvent _ _
        · exact .pure Settles.refl _

/-- A root that is changed keeps its path. -/
theorem Settles.setRoot {s t : State σ} (h : Settles s t) {i : Nat} {root root' : WatchRoot}
    (hroot : root ∈ s.roots) (hpath : root'.path = root.path) :
    Settles s { t with roots := t.roots.set i root' } := by
  refine ⟨h.nodes, ?_⟩
  intro other hother
  rcases List.mem_or_eq_of_mem_set hother with hmem | rfl
  · exact h.roots other hmem
  · exact ⟨root, hroot, hpath.symm⟩

theorem settles_checkRootRemovalAt (os : Os σ δ) (path : Bytes) (i : Nat) :
    Respects Settles (checkRootRemovalAt os path i) := by
  intro s u t hrun
  unfold checkRootRemovalAt at hrun
  rw [run_bind_of_run (a := s) (t := s) rfl] at hrun
  cases hroot : s.roots[i]? with
  | none =>
      rw [hroot] at hrun
      cases hrun
      exact .refl _
  | some root =>
      rw [hroot] at hrun
      dsimp only at hrun
      split at hrun
      · obtain ⟨_, s₁, hunwatch, hrest⟩ := run_bind_eq_ok hrun
        have h₁ : Settles s s₁ := settles_rmWatch os _ true s _ s₁ hunwatch
        cases hrest
        have hset : Settles s { s₁ with roots := s₁.roots.set i { root with id := -1 } } :=
          h₁.setRoot (List.mem_of_getElem? hroot) rfl
        exact hset.trans _ _ _ (.of_same rfl rfl)
      · cases hrun
        exact .refl _

theorem settles_inotifyCallback (os : Os σ δ) (path : Bytes) (mask : UInt32) :
    Respects Settles (inotifyCallback os path mask) := by
  refine .bind Settles.trans (settles_reportMask path mask) fun _ => ?_
  split
  · refine .bind Settles.trans (.get Settles.refl) fun s => ?_
    exact .forM Settles.refl Settles.trans (settles_checkRootRemovalAt os path) _
  · split
    · exact settles_output _
    · exact .pure Settles.refl _

theorem settles_unregisterRoots (os : Os σ δ) : Respects Settles (unregisterRoots os) := by
  refine .bind Settles.trans (.get Settles.refl) fun s => ?_
  refine .forM Settles.refl Settles.trans (fun _ => ?_) _
  refine .bind Settles.trans (.get Settles.refl) fun s => ?_
  split
  · exact .pure Settles.refl _
  · refine .bind Settles.trans (.modify fun s => ⟨fun hn => ⟨_, hn, rfl⟩, ?_⟩) fun _ =>
      settles_rmWatch os _ true
    intro root hroot
    exact ⟨root, List.dropLast_subset _ hroot, rfl⟩

theorem settles_unwatchableMounts (os : Os σ δ) : Respects Settles (unwatchableMounts os) := by
  refine .bind Settles.trans (settles_sys os _) fun answer => ?_
  split
  · exact .pure Settles.refl _
  · exact .pure Settles.refl _

end Settling

/-! ## Following the notifier without the buffer -/

/-- What every function keeps: the invariant, and the first {lit}`k` bytes of the buffer. -/
def Kept (k : Nat) (s t : BufState σ) : Prop :=
  Sound t ∧ AgreeTo k s.pathBuf t.pathBuf

theorem Sound.kept {s : BufState σ} (h : Sound s) (k : Nat) : Kept k s s :=
  ⟨h, AgreeTo.refl k _⟩

theorem Kept.trans {k : Nat} {s t u : BufState σ} (h : Kept k s t) (h' : Kept k t u) :
    Kept k s u :=
  ⟨h'.1, h.2.trans h'.2⟩

/-- From {lit}`s` the program with the buffer follows the one that passes paths by value. -/
abbrev Sim (c : Prop) (k : Nat) (rich : BufNotifier σ α) (m : Notifier σ α) (s : BufState σ) :
    Prop :=
  Follows statePart BufFault.fault c (Kept k) rich m s

section Rules

variable {c : Prop} {k : Nat} {s : BufState σ}

theorem Sim.le {k' : Nat} {rich : BufNotifier σ α} {m : Notifier σ α} (h : Sim c k' rich m s)
    (hk : k ≤ k') : Sim c k rich m s :=
  h.mono fun _ ht => ⟨ht.1, ht.2.mono hk⟩

/-- A system call, with its answer. -/
theorem Sim.sys_bind (hs : Sound s) {os : Os σ δ} {call : SysCall δ}
    {fr : call.Answer → BufNotifier σ β} {f : call.Answer → Notifier σ β}
    (h : Sound { s with state := { s.state with os := (os call s.state.os).2 } } →
      Sim c k (fr (os call s.state.os).1) (f (os call s.state.os).1)
        { s with state := { s.state with os := (os call s.state.os).2 } }) :
    Sim c k (plain (sys os call) >>= fr) (sys os call >>= f) s := by
  refine Follows.onPart_bind id fun a t hrun => ?_
  cases hrun
  exact h (hs.settles (.of_same rfl rfl))

/-- A look at the state. -/
theorem Sim.get_bind {fr : State σ → BufNotifier σ β} {f : State σ → Notifier σ β}
    (h : Sim c k (fr s.state) (f s.state) s) :
    Sim c k (plain get >>= fr) (get >>= f) s := by
  refine Follows.onPart_bind id fun a t hrun => ?_
  cases hrun
  exact h

/-- A look at the table. -/
theorem Sim.tableGet_bind {wd : Int} {fr : Option Nat → BufNotifier σ β}
    {f : Option Nat → Notifier σ β}
    (h : Sim c k (fr (s.state.watches.get wd)) (f (s.state.watches.get wd)) s) :
    Sim c k (plain (tableGet wd) >>= fr) (tableGet wd >>= f) s := by
  refine Follows.onPart_bind id fun a t hrun => ?_
  cases hrun
  exact h

/-- A pointer that is followed leads to a node. -/
theorem Sim.deref_bind {a : Nat} {fr : WatchNode → BufNotifier σ β}
    {f : WatchNode → Notifier σ β}
    (h : ∀ n, s.state.heap.get a = some n → Sim c k (fr n) (f n) s) :
    Sim c k (plain (deref a) >>= fr) (deref a >>= f) s := by
  refine Follows.onPart_bind id fun n t hrun => ?_
  obtain ⟨hn, rfl⟩ := deref_eq_ok hrun
  exact h n hn

/-- A step that settles. -/
theorem Sim.plain_bind (hs : Sound s) {m : Notifier σ α} (hm : Respects Settles m)
    {fr : α → BufNotifier σ β} {f : α → Notifier σ β}
    (h : ∀ a t, Sound { s with state := t } → Sim c k (fr a) (f a) { s with state := t }) :
    Sim c k (plain m >>= fr) (m >>= f) s :=
  Follows.onPart_bind id fun a t hrun => h a t (hs.settles (hm s.state a t hrun))

/-- A last step that settles. -/
theorem Sim.plain (hs : Sound s) {m : Notifier σ α} (hm : Respects Settles m) :
    Sim c k (plain m) m s :=
  Follows.onPart fun a t hrun => (hs.settles (hm s.state a t hrun)).kept k

/-- A program that follows, and what comes after it. -/
theorem Sim.bind {rich : BufNotifier σ α} {m : Notifier σ α} {fr : α → BufNotifier σ β}
    {f : α → Notifier σ β} (h : Sim c k rich m s)
    (hf : ∀ a t, Sound t → AgreeTo k s.pathBuf t.pathBuf → Sim c k (fr a) (f a) t) :
    Sim c k (rich >>= fr) (m >>= f) s :=
  Follows.bind (R := Kept k) Kept.trans h fun a t ht _ => hf a t ht.1 ht.2

theorem Sim.pure (hs : Sound s) (a : α) : Sim c k (Pure.pure a) (Pure.pure a) s :=
  Follows.pure (hs.kept k) a

/-- Copying behind the start of the buffer. -/
theorem Sim.write_bind {text source : Bytes} {index : Nat} (hstarts : s.pathBuf.Starts text)
    (hindex : text.length = index) (hfits : index + source.length ≤ 2 * PATH_MAX) (hk : k ≤ index)
    {fr : Unit → BufNotifier σ β} {m : Notifier σ β}
    (h : ∀ pathBuf, Starts pathBuf (text ++ source) → AgreeTo index s.pathBuf pathBuf →
      Sim c k (fr ()) m { s with pathBuf := pathBuf }) :
    Sim c k (writePath index source >>= fr) m s := by
  subst hindex
  obtain ⟨pathBuf, hwrite⟩ := s.pathBuf.write_fits hfits
  have hagree : AgreeTo text.length s.pathBuf pathBuf := agreeTo_write (Nat.le_refl _) hwrite
  apply Follows.left
  unfold writePath
  rw [wp_bind, wp_get, hwrite]
  refine ⟨rfl, ?_, h pathBuf (hstarts.write hwrite) hagree⟩
  intro t ht
  exact ⟨ht.1, (hagree.mono hk).trans ht.2⟩

/-- Reading a path that ends where it should. -/
theorem Sim.read_bind {path : Bytes} {pathLen : Nat} (hholds : Holds s path pathLen)
    {fr : Bytes → BufNotifier σ β} {m : Notifier σ β} (h : Sim c k (fr path) m s) :
    Sim c k (readPath pathLen >>= fr) m s := by
  apply Follows.left
  unfold readPath
  rw [wp_bind, wp_get, string_of_starts hholds.starts hholds.string]
  dsimp only
  rw [if_pos hholds.length]
  exact ⟨rfl, fun _ ht => ht, h⟩

/-- Reading the path of a live node. -/
theorem Sim.load_bind (hs : Sound s) {a : Nat} {n : WatchNode}
    (hn : s.state.heap.get a = some n) {fr : NodePath → BufNotifier σ β} {m : Notifier σ β}
    (h : ∀ stored : NodePath, stored.Keeps n.path → Sim c k (fr stored) m s) :
    Sim c k (loadPath a >>= fr) m s := by
  obtain ⟨stored, hstored, hkeeps⟩ := hs.keeps hn
  apply Follows.left
  unfold loadPath
  rw [wp_bind, wp_get, hstored]
  exact ⟨rfl, fun _ ht => ht, h stored hkeeps⟩

end Rules

/-! ## Adding watches -/

/-- A new node whose path was copied from the buffer. -/
theorem Sound.alloc {s : BufState σ} (hs : Sound s) (node : WatchNode)
    (hstarts : s.pathBuf.Starts (node.path ++ [0])) (hpath : 0 ∉ node.path)
    (hshort : node.path.length + 1 ≤ PATH_MAX) :
    Sound { s with
      state := { s.state with heap := s.state.heap.alloc node }
      nodePaths := Function.update s.nodePaths s.state.heap.next
        (some ⟨node.path.length, s.pathBuf.bytes.take (node.path.length + 1)⟩) } := by
  have hbytes : s.pathBuf.bytes.take (node.path.length + 1) = node.path ++ [0] := by
    have htake := List.prefix_iff_eq_take.mp hstarts
    rw [List.length_append, List.length_singleton] at htake
    exact htake.symm
  have hnew : NodePath.Keeps
      ⟨node.path.length, s.pathBuf.bytes.take (node.path.length + 1)⟩ node.path :=
    ⟨by rw [hbytes], hpath, hshort⟩
  refine ⟨?_, ?_, hs.roots⟩
  · intro b n hn
    dsimp only at hn ⊢
    rw [Heap.alloc_get] at hn
    split at hn
    · rename_i hb
      cases hn
      subst hb
      exact ⟨_, Function.update_self _ _ _, hnew⟩
    · rename_i hb
      rw [Function.update_of_ne hb]
      exact hs.keeps hn
  · intro b stored hstored
    dsimp only at hstored
    by_cases hb : b = s.state.heap.next
    · subst hb
      rw [Function.update_self] at hstored
      cases hstored
      exact ⟨node.path, hnew⟩
    · rw [Function.update_of_ne hb] at hstored
      exact hs.every hstored

section Adding

variable {c : Prop} {k pathLen : Nat} {s : BufState σ} {os : Os σ δ} {path : Bytes}

theorem sim_addWatchFresh (hs : Sound s) (hholds : Holds s path pathLen)
    (hshort : path.length + 1 ≤ PATH_MAX) (parent : Option Nat) (wd : Nat) :
    Sim c k (addWatchFresh pathLen parent wd) (FsNotifier.addWatchFresh path parent wd) s := by
  obtain rfl := hholds.length
  unfold addWatchFresh FsNotifier.addWatchFresh
  refine Sim.read_bind hholds (Follows.onPart_bind id fun a t hrun => ?_)
  cases hrun
  have hs₁ := hs.alloc ⟨wd, parent, [], path⟩ hholds.starts hholds.string hshort
  apply Follows.left
  unfold storePath
  rw [wp_modify]
  refine ⟨rfl, fun _ ht => ht, ?_⟩
  refine Sim.plain_bind hs₁ (settles_pushKid parent _) fun _ t hs₂ => ?_
  refine Sim.plain_bind hs₂ (settles_tablePut wd _) fun old t hs₃ => ?_
  cases old with
  | none => exact Sim.pure hs₃ _
  | some _ => exact Sim.pure hs₃ _

/-- {lit}`add_watch` reads a path that ends where it should, and leaves the buffer alone. -/
theorem sim_addWatch (hlimits : PathLimits os) (hs : Sound s) (hholds : Holds s path pathLen)
    (parent : Option Nat) :
    Sim c k (addWatch os pathLen parent) (FsNotifier.addWatch os path parent) s := by
  unfold addWatch FsNotifier.addWatch
  refine Sim.read_bind hholds (Sim.sys_bind hs fun hs₁ => ?_)
  cases hans : (os (.inotifyAddWatch path) s.state.os).1 with
  | error e =>
      dsimp only
      split
      · exact Sim.pure hs₁ _
      · split
        · exact Sim.plain_bind hs₁ settles_watchLimitReached fun _ t hs₂ => Sim.pure hs₂ _
        · exact Sim.pure hs₁ _
  | ok wd =>
      refine Sim.tableGet_bind ?_
      cases hget : s.state.watches.get wd with
      | some a => exact Sim.plain hs₁ (settles_addWatchExisting os path wd a)
      | none =>
          have hholds₁ : Holds { s with
              state := { s.state with os := (os (.inotifyAddWatch path) s.state.os).2 } }
              path pathLen := ⟨hholds.starts, hholds.string, hholds.length⟩
          exact sim_addWatchFresh hs₁ hholds₁ (hlimits.add hans) parent wd

end Adding

/-! ## Walking a directory tree -/

section Walking

variable {c : Prop} {os : Os σ δ}

/-- The recursive call of a walk leaves the path it was given in the buffer. -/
def Walks (c : Prop) (rich : Nat → Option Nat → BufNotifier σ Int)
    (walk : Bytes → Option Nat → Notifier σ Int) : Prop :=
  ∀ path pathLen parent s, Sound s → Holds s path pathLen →
    Sim c pathLen (rich pathLen parent) (walk path parent) s

/-- The loop of {lit}`walk_tree` writes behind the path of the directory and the slash. -/
theorem sim_walkEntries (hlimits : PathLimits os) {rich : Nat → Option Nat → BufNotifier σ Int}
    {walk : Bytes → Option Nat → Notifier σ Int} (hwalk : Walks c rich walk) {path : Bytes}
    {pathLen : Nat} (hlength : path.length = pathLen) (hpath : 0 ∉ path)
    (hshort : pathLen + 1 ≤ PATH_MAX) (id : Int) :
    ∀ (fuel : Nat) (dir : δ) (s : BufState σ), Sound s → s.pathBuf.Starts (path ++ [slash]) →
      Sim c (pathLen + 1) (walkEntries os rich fuel dir pathLen id)
        (FsNotifier.walkEntries os walk fuel dir path id) s := by
  intro fuel
  induction fuel with
  | zero => intro dir s _ _; exact Follows.throw _
  | succ fuel ih =>
      intro dir s hs hstarts
      unfold walkEntries FsNotifier.walkEntries
      refine Sim.sys_bind hs fun hs₁ => ?_
      cases hans : (os (.readdir dir) s.state.os).1 with
      | none => exact Sim.pure hs₁ _
      | some answer =>
          obtain ⟨entry, dir'⟩ := answer
          obtain ⟨hname, hnul⟩ := hlimits.entry hans
          dsimp only
          by_cases hdot : entry.name = cstr "." ∨ entry.name = cstr ".."
          · rw [if_pos hdot, if_pos hdot]
            exact ih dir' _ hs₁ hstarts
          · rw [if_neg hdot, if_neg hdot]
            by_cases hother : entry.type = .other
            · rw [if_pos hother]
              unfold entryIsDir
              rw [hother]
              exact ih dir' _ hs₁ hstarts
            · rw [if_neg hother]
              have hdirlen : (path ++ [slash]).length = pathLen + 1 := by
                rw [List.length_append, List.length_singleton, hlength]
              have hfits : pathLen + 1 + (entry.name ++ [0]).length ≤ 2 * PATH_MAX := by
                have hroom : NAME_MAX + 1 ≤ PATH_MAX := by decide
                rw [List.length_append, List.length_singleton]
                omega
              refine Sim.write_bind ?_ hdirlen hfits (Nat.le_refl _)
                fun pathBuf hentry hagree => ?_
              · exact hstarts
              have hholds : ∀ t : BufState σ, t.pathBuf = pathBuf →
                  Holds t (path ++ slash :: entry.name) (pathLen + 1 + entry.name.length) := by
                rintro t rfl
                refine ⟨by simpa using hentry, ?_, ?_⟩
                · simp only [List.mem_append, List.mem_cons, not_or]
                  exact ⟨hpath, by decide, hnul⟩
                · rw [List.length_append, List.length_cons]
                  omega
              refine Sim.read_bind (hholds _ rfl) ?_
              refine Sim.plain_bind (hs₁.buffer pathBuf) (settles_entryIsDir os _ entry)
                fun isDir t hs₂ => ?_
              -- whatever was written behind the slash, the loop goes on
              have hagain : ∀ u : BufState σ, Sound u →
                  AgreeTo (pathLen + 1) s.pathBuf u.pathBuf →
                  Sim c (pathLen + 1) (walkEntries os rich fuel dir' pathLen id)
                    (FsNotifier.walkEntries os walk fuel dir' path id) u :=
                fun u hu hagree' => ih dir' u hu (hstarts.agree hagree' (Nat.le_of_eq hdirlen))
              cases isDir with
              | false => exact hagain _ hs₂ hagree
              | true =>
                  refine Sim.tableGet_bind ?_
                  have hsub := hwalk _ _ (t.watches.get id) { s with
                    pathBuf := pathBuf, state := t } hs₂ (hholds _ rfl)
                  refine Sim.bind (hsub.le (by omega)) fun r u hu hagree' => ?_
                  by_cases hfail : r < 0 ∧ r ≠ ERR_IGNORE
                  · rw [if_pos hfail, if_pos hfail]
                    exact Sim.plain_bind hu (settles_rmWatch os id true) fun _ v hv =>
                      Sim.pure hv _
                  · rw [if_neg hfail, if_neg hfail]
                    exact hagain u hu (hagree.trans hagree')

/-- {lit}`walk_tree` leaves the path it was given in the buffer. -/
theorem sim_walkTree (hlimits : PathLimits os) :
    ∀ (fuel : Nat) (path : Bytes) (pathLen : Nat) (parent : Option Nat) (recursive : Bool)
      (mounts : List Bytes) (s : BufState σ), Sound s → Holds s path pathLen →
      Sim c pathLen (walkTree os fuel pathLen parent recursive mounts)
        (FsNotifier.walkTree os fuel path parent recursive mounts) s := by
  intro fuel
  induction fuel with
  | zero => intro path pathLen parent recursive mounts s _ _; exact Follows.throw _
  | succ fuel ih =>
      intro path pathLen parent recursive mounts s hs hholds
      unfold walkTree FsNotifier.walkTree
      refine Sim.read_bind hholds ?_
      split
      · exact Sim.pure hs _
      · split
        · exact sim_addWatch hlimits hs hholds parent
        · refine Sim.sys_bind hs fun hs₁ => ?_
          cases hans : (os (.opendir path) s.state.os).1 with
          | error e =>
              dsimp only
              split
              · exact Sim.pure hs₁ _
              · exact Sim.pure hs₁ _
          | ok dir =>
              have hshort : pathLen + 1 ≤ PATH_MAX := by
                rw [← hholds.length]
                exact hlimits.opendir hans
              refine Sim.bind (sim_addWatch hlimits hs₁
                ⟨hholds.starts, hholds.string, hholds.length⟩ parent) fun id t ht hagree => ?_
              by_cases hneg : id < 0
              · rw [if_pos hneg, if_pos hneg]
                exact Sim.pure ht _
              · rw [if_neg hneg, if_neg hneg]
                have hdir : t.pathBuf.Starts path :=
                  hholds.starts.of_append.agree hagree (Nat.le_of_eq hholds.length)
                have hfits : pathLen + [slash].length ≤ 2 * PATH_MAX := by
                  rw [List.length_singleton]
                  omega
                refine Sim.write_bind hdir hholds.length hfits (Nat.le_refl _)
                  fun pathBuf hslash hagree' => ?_
                have hwalk : Walks c
                    (fun subLen node => walkTree os fuel subLen node recursive mounts)
                    (fun subPath node => FsNotifier.walkTree os fuel subPath node recursive
                      mounts) := fun sub subLen parent' u hu hsub =>
                  ih sub subLen parent' recursive mounts u hu hsub
                exact (sim_walkEntries hlimits hwalk hholds.length hholds.string hshort id fuel
                  dir _ (ht.buffer pathBuf) hslash).le (Nat.le_succ _)

end Walking

/-! ## Roots -/

theorem GoodRoot.of_slash {root : Bytes} (hroot : 0 ∉ root)
    (hslash : (unflatten root).head? = some slash) : GoodRoot root := by
  refine ⟨hroot, ?_⟩
  intro hnil
  rw [hnil] at hslash
  contradiction

theorem GoodRoot.not_mem {root : Bytes} (h : GoodRoot root) : 0 ∉ (splitRoot root).2 := by
  unfold splitRoot
  split
  · exact fun hmem => h.1 (List.mem_of_mem_tail hmem)
  · exact h.1

/-- The length {lit}`watch` works with is that of the path without its last slash. -/
theorem rootPath_eq_take (root : Bytes) :
    rootPath root = (splitRoot root).2.take (if (splitRoot root).2.getLast? = some slash then
      (splitRoot root).2.length - 1 else (splitRoot root).2.length) := by
  unfold rootPath
  dsimp only
  split
  · rw [List.dropLast_eq_take]
  · rw [List.take_length]

section Roots

variable {c : Prop} {os : Os σ δ}

/-- The last lines of {lit}`watch` fill the buffer from its start. -/
theorem sim_watchPath (hlimits : PathLimits os) {root : Bytes} {pathLen : Nat} {s : BufState σ}
    (hs : Sound s) (hroot : 0 ∉ root) (hlen : pathLen ≤ root.length)
    (hshort : root.length + 1 ≤ PATH_MAX) (fuel : Nat) (recursive : Bool) (mounts : List Bytes) :
    Sim c 0 (watchPath os fuel root pathLen recursive mounts)
      (FsNotifier.walkTree os fuel (root.take pathLen) none recursive mounts) s := by
  have htake : (root.take pathLen).length = pathLen := by
    rw [List.length_take, Nat.min_eq_left hlen]
  have hfits : 0 + (root.take pathLen).length ≤ 2 * PATH_MAX := by
    omega
  have hends : pathLen + [(0 : UInt8)].length ≤ 2 * PATH_MAX := by
    rw [List.length_singleton]
    omega
  unfold watchPath
  refine Sim.write_bind (starts_nil _) List.length_nil hfits (Nat.zero_le _)
    fun pathBuf hpath hagree => ?_
  rw [List.nil_append] at hpath
  refine Sim.write_bind ?_ htake hends (Nat.zero_le _) fun pathBuf' hpath' hagree' => ?_
  · exact hpath
  · have hholds : Holds { s with pathBuf := pathBuf' } (root.take pathLen) pathLen :=
      ⟨hpath', fun hmem => hroot (List.mem_of_mem_take hmem), htake⟩
    exact (sim_walkTree hlimits fuel _ _ none recursive mounts _ (hs.buffer pathBuf') hholds).le
      (Nat.zero_le _)

/-- {lit}`watch` looks at the last byte of the root, and there is one. -/
theorem sim_watch (hlimits : PathLimits os) {root : Bytes} {s : BufState σ} (hs : Sound s)
    (hroot : GoodRoot root) (fuel : Nat) (mounts : List Bytes) :
    Sim c 0 (watch os fuel root mounts) (FsNotifier.watch os fuel root mounts) s := by
  have hne : ¬ (splitRoot root).2.length = 0 := fun h => hroot.2 (List.length_eq_zero_iff.mp h)
  unfold watch FsNotifier.watch endsInSlash
  dsimp only
  rw [if_neg hne, pure_bind, rootPath_eq_take]
  refine Sim.sys_bind hs fun hs₁ => ?_
  cases hans : (os (.stat (splitRoot root).2) s.state.os).1 with
  | error e =>
      dsimp only
      split
      · exact Sim.pure hs₁ _
      · split
        · exact Sim.pure hs₁ _
        · exact Sim.pure hs₁ _
  | ok type =>
      have hlen : (if (splitRoot root).2.getLast? = some slash then
          (splitRoot root).2.length - 1 else (splitRoot root).2.length) ≤
          (splitRoot root).2.length := by
        split
        · exact Nat.sub_le _ _
        · exact Nat.le_refl _
      cases type with
      | reg =>
          simpa using sim_watchPath hlimits hs₁ hroot.not_mem hlen (hlimits.stat hans) fuel
            false mounts
      | dir =>
          simpa using sim_watchPath hlimits hs₁ hroot.not_mem hlen (hlimits.stat hans) fuel
            (splitRoot root).1 mounts
      | other => exact Sim.pure hs₁ _

end Roots

/-! ## Events -/

section Events

variable {c : Prop} {os : Os σ δ} {s : BufState σ}

/-- The path of an event is filled in from the start of the buffer. -/
theorem Sim.fill_bind {n : WatchNode} {stored : NodePath} (hkeeps : stored.Keeps n.path)
    {event : InotifyEvent} (hevent : GoodEvent event)
    {fr : Nat → BufNotifier σ β} {m : Notifier σ β}
    (h : ∀ pathBuf, Holds { s with pathBuf := pathBuf } (eventPath n event)
      (eventPath n event).length →
      Sim c 0 (fr (eventPath n event).length) m { s with pathBuf := pathBuf }) :
    Sim c 0 (fillEventPath stored event >>= fr) m s := by
  obtain ⟨rfl, hpath, hshort⟩ := hkeeps
  have hlen : (n.path ++ [0]).length = n.path.length + 1 := List.length_append
  have htake : (n.path ++ [0]).take (n.path.length + 1) = n.path ++ [0] :=
    List.take_of_length_le (Nat.le_of_eq hlen)
  have hroom : NAME_MAX + 1 ≤ PATH_MAX := by decide
  unfold fillEventPath
  dsimp only
  rw [if_neg (by omega), htake]
  simp only [bind_assoc]
  refine Sim.write_bind (starts_nil _) List.length_nil (by omega) (Nat.zero_le _)
    fun pathBuf hstarts hagree => ?_
  rw [List.nil_append] at hstarts
  cases hname : event.name with
  | none =>
      have hsame : eventPath n event = n.path := by
        unfold eventPath
        rw [hname]
      rw [hsame] at h
      rw [pure_bind]
      exact h pathBuf ⟨hstarts, hpath, rfl⟩
  | some name =>
      obtain ⟨hnamelen, hnul⟩ := hevent name hname
      have hsame : eventPath n event = n.path ++ slash :: name := by
        unfold eventPath
        rw [hname]
      have hlen' : (n.path ++ [slash]).length = n.path.length + 1 := List.length_append
      have heventlen : (n.path ++ slash :: name).length = n.path.length + (name.length + 1) :=
        List.length_append
      rw [hsame, heventlen] at h
      simp only [bind_assoc, pure_bind]
      refine Sim.write_bind ?_ rfl (by rw [List.length_singleton]; omega) (Nat.zero_le _)
        fun pathBuf' hstarts' hagree' => ?_
      · exact hstarts.of_append
      · refine Sim.write_bind ?_ hlen' ?_ (Nat.zero_le _) fun pathBuf'' hstarts'' hagree'' => ?_
        · exact hstarts'
        · rw [List.length_append, List.length_singleton]
          omega
        · refine h pathBuf'' ⟨by simpa using hstarts'', ?_, heventlen⟩
          simp only [List.mem_append, List.mem_cons, not_or]
          exact ⟨hpath, by decide, hnul⟩

/-- Comparing with the path of a live node stays within both arrays. -/
theorem Sim.match_bind {k : Nat} {path : Bytes} {stored : NodePath} (hkeeps : stored.Keeps path)
    {fr : Bool → BufNotifier σ β} {m : Notifier σ β}
    (h : Sim c k (fr (path.isPrefixOf s.pathBuf.bytes)) m s) :
    Sim c k (matchesPath stored >>= fr) m s := by
  obtain ⟨rfl, hpath, hshort⟩ := hkeeps
  have hlen : path.length ≤ s.pathBuf.bytes.length := by
    rw [s.pathBuf.length_bytes]
    omega
  apply Follows.left
  unfold matchesPath
  dsimp only
  rw [wp_bind, wp_get, strncmp_terminated hpath [0] _ hlen]
  exact ⟨rfl, fun _ ht => ht, h⟩

/-- The loop over the kids compares with what is in the buffer.  Where that is the path of the
event, it drops the same kid as the loop that was given this path. -/
theorem sim_dropKid {k : Nat} (hs : Sound s) {path : Bytes}
    (hholds : c → Holds s path path.length) (a : Nat) (is : List Nat) :
    Sim c k (dropKid os a is) (FsNotifier.dropKid os a path is) s := by
  induction is with
  | nil => exact Sim.pure hs _
  | cons i is ih =>
      unfold dropKid FsNotifier.dropKid
      refine Sim.deref_bind fun node _ => ?_
      cases node.kids.getD i none with
      | none => exact ih
      | some k =>
          refine Sim.deref_bind fun kid hkid => ?_
          refine Sim.load_bind hs hkid fun stored hkeeps => Sim.match_bind hkeeps ?_
          have hsame : c → kid.path.isPrefixOf s.pathBuf.bytes = kid.path.isPrefixOf path := by
            intro hc
            obtain ⟨rest, hbytes⟩ := (hholds hc).starts
            rw [← hbytes, List.append_assoc, List.singleton_append]
            exact isPrefixOf_terminated hkeeps.string path rest
          cases hmatch : kid.path.isPrefixOf s.pathBuf.bytes with
          | true =>
              refine Follows.congr (fun hc => by rw [if_pos ((hsame hc).symm.trans hmatch)]) ?_
              refine Sim.plain_bind hs (settles_rmWatch os _ false) fun _ t ht => ?_
              exact Sim.plain ht (settles_update a fun _ => rfl)
          | false =>
              refine Follows.congr (fun hc => by rw [← hsame hc, hmatch]) ?_
              exact ih

theorem sim_processDirEvent (hlimits : PathLimits os) (hs : Sound s) {path : Bytes} {pathLen : Nat}
    (hholds : Holds s path pathLen) {mask : UInt32}
    (hmask : c → ¬ Contradictory mask) (fuel a : Nat) :
    Sim c 0 (processDirEvent os fuel a pathLen mask)
      (FsNotifier.processDirEvent os fuel a path mask) s := by
  -- the second branch, from the state the first one has left
  have hdrop : ∀ (result : Int) (t : BufState σ), Sound t →
      (c → anyBit mask (IN_DELETE ||| IN_MOVED_FROM) = true → Holds t path path.length) →
      Sim c 0
        (if result < 0 ∧ result ≠ ERR_IGNORE ∧ result ≠ ERR_CONTINUE then pure false
          else do
            if anyBit mask (IN_DELETE ||| IN_MOVED_FROM) then
              let node ← plain (deref a)
              dropKid os a (List.range node.kids.length)
            pure true)
        (if result < 0 ∧ result ≠ ERR_IGNORE ∧ result ≠ ERR_CONTINUE then pure false
          else do
            if anyBit mask (IN_DELETE ||| IN_MOVED_FROM) then
              let node ← deref a
              FsNotifier.dropKid os a path (List.range node.kids.length)
            pure true) t := by
    intro result t ht hheld
    split
    · exact Sim.pure ht _
    · split
      · rename_i hdel
        refine Sim.deref_bind fun node _ => ?_
        exact Sim.bind (sim_dropKid ht (fun hc => hheld hc hdel) a _) fun _ u hu _ =>
          Sim.pure hu _
      · exact Sim.pure ht _
  unfold processDirEvent FsNotifier.processDirEvent
  by_cases hadd : anyBit mask (IN_CREATE ||| IN_MOVED_TO) = true
  · rw [if_pos hadd, if_pos hadd]
    have hwalk := sim_walkTree (c := c) hlimits fuel path pathLen (some a) true [] s hs hholds
    refine Sim.bind (hwalk.le (Nat.zero_le _)) fun result t ht _ => hdrop result t ht ?_
    exact fun hc hdel => absurd ⟨hadd, hdel⟩ (hmask hc)
  · rw [if_neg hadd, if_neg hadd, pure_bind, pure_bind]
    refine hdrop 0 s hs fun _ _ => ?_
    rw [hholds.length]
    exact hholds

/-- {lit}`process_inotify_event` -/
theorem sim_processInotifyEvent (hlimits : PathLimits os) (hs : Sound s) {event : InotifyEvent}
    (hevent : GoodEvent event) (hmask : c → SingleType event.mask) (fuel : Nat) :
    Sim c 0 (processInotifyEvent os fuel event)
      (FsNotifier.processInotifyEvent os (inotifyCallback os) fuel event) s := by
  unfold processInotifyEvent FsNotifier.processInotifyEvent
  refine Sim.tableGet_bind ?_
  cases hget : s.state.watches.get event.wd with
  | none => exact Sim.pure hs _
  | some a =>
      refine Sim.deref_bind fun n hn => Sim.load_bind hs hn fun stored hkeeps => ?_
      refine Sim.fill_bind hkeeps hevent fun pathBuf hholds => ?_
      refine Sim.read_bind hholds ?_
      refine Sim.plain_bind (hs.buffer pathBuf) (settles_inotifyCallback os _ _) fun _ t ht => ?_
      split
      · exact sim_processDirEvent hlimits ht ⟨hholds.starts, hholds.string, rfl⟩
          (fun hc => (hmask hc).not_contradictory) fuel a
      · exact Sim.pure ht _

theorem sim_processEvents (hlimits : PathLimits os) (fuel : Nat) (events : List InotifyEvent) :
    ∀ s : BufState σ, Sound s → (∀ event ∈ events, GoodEvent event) →
      (c → ∀ event ∈ events, SingleType event.mask) →
      Sim c 0 (processEvents os fuel events)
        (FsNotifier.processEvents os (inotifyCallback os) fuel events) s := by
  induction events with
  | nil => intro s hs _ _; exact Sim.pure hs _
  | cons event events ih =>
      intro s hs hgood hmask
      have hrest : ∀ t : BufState σ, Sound t → Sim c 0 (processEvents os fuel events)
          (FsNotifier.processEvents os (inotifyCallback os) fuel events) t := fun t ht =>
        ih t ht (fun e he => hgood e (List.mem_cons_of_mem _ he))
          fun hc e he => hmask hc e (List.mem_cons_of_mem _ he)
      unfold processEvents FsNotifier.processEvents
      split
      · exact hrest s hs
      · split
        · exact hrest s hs
        · refine Sim.bind (sim_processInotifyEvent hlimits hs (hgood event (by simp))
            (fun hc => hmask hc event (by simp)) fuel) fun ok t ht _ => ?_
          cases ok with
          | true => exact hrest t ht
          | false => exact Sim.pure ht _

theorem sim_processInotifyInput (hlimits : PathLimits os) (hs : Sound s)
    (hsingle : c → SingleEvents os) (fuel : Nat) :
    Sim c 0 (processInotifyInput os fuel)
      (FsNotifier.processInotifyInput os (inotifyCallback os) fuel) s := by
  unfold processInotifyInput FsNotifier.processInotifyInput
  refine Sim.sys_bind hs fun hs₁ => ?_
  cases hans : (os .read s.state.os).1 with
  | error e => exact Sim.pure hs₁ _
  | ok events =>
      exact sim_processEvents hlimits fuel events _ hs₁ (hlimits.event hans)
        fun hc => hsingle hc s.state.os events hans

end Events

/-! ## The main loop -/

section MainLoop

variable {c : Prop} {os : Os σ δ}

/-- A root that is registered was looked at first. -/
theorem Sound.addRoot {s : BufState σ} (hs : Sound s) (root : WatchRoot)
    (hroot : GoodRoot root.path) :
    Sound { s with state := { s.state with roots := s.state.roots ++ [root] } } := by
  refine ⟨hs.keeps, hs.every, ?_⟩
  intro other hother
  rcases List.mem_append.mp hother with hold | hnew
  · exact hs.roots other hold
  · obtain rfl := List.mem_singleton.mp hnew
    exact hroot

theorem sim_registerRoots (hlimits : PathLimits os) (fuel : Nat) (mounts newRoots : List Bytes) :
    ∀ (unwatchable : List Bytes) (s : BufState σ), Sound s → (∀ root ∈ newRoots, 0 ∉ root) →
      Sim c 0 (registerRoots os fuel mounts newRoots unwatchable)
        (FsNotifier.registerRoots os fuel mounts newRoots unwatchable) s := by
  induction newRoots with
  | nil => intro unwatchable s hs _; exact Sim.pure hs _
  | cons newRoot newRoots ih =>
      intro unwatchable s hs hstrings
      have hrest : ∀ unwatchable (t : BufState σ), Sound t →
          Sim c 0 (registerRoots os fuel mounts newRoots unwatchable)
            (FsNotifier.registerRoots os fuel mounts newRoots unwatchable) t :=
        fun unwatchable t ht =>
          ih unwatchable t ht fun root hroot => hstrings root (List.mem_cons_of_mem _ hroot)
      unfold registerRoots FsNotifier.registerRoots
      dsimp only
      by_cases hslash : (unflatten newRoot).head? = some slash
      · rw [if_neg (not_not.mpr hslash), if_neg (not_not.mpr hslash)]
        have hroot : GoodRoot newRoot := .of_slash (hstrings newRoot (by simp)) hslash
        split
        · exact hrest _ s hs
        · refine Sim.bind (sim_watch hlimits hs hroot fuel _) fun id t ht _ => ?_
          split
          · refine Follows.onPart_bind (fun hkept => hkept) fun _ u hrun => ?_
            cases hrun
            exact hrest _ _ (ht.addRoot ⟨newRoot, id⟩ hroot)
          · split
            · exact Sim.pure ht _
            · split
              · exact hrest _ t ht
              · exact hrest _ t ht
      · rw [if_pos hslash, if_pos hslash]
        exact hrest _ s hs

theorem Sound.setRoot {s : BufState σ} (hs : Sound s) (i : Nat) (root : WatchRoot)
    (hroot : GoodRoot root.path) :
    Sound { s with state := { s.state with roots := s.state.roots.set i root } } := by
  refine ⟨hs.keeps, hs.every, ?_⟩
  intro other hother
  rcases List.mem_or_eq_of_mem_set hother with hmem | rfl
  · exact hs.roots other hmem
  · exact hroot

theorem settles_forM_output (lines : List Bytes) :
    Respects Settles (lines.forM (output (σ := σ))) :=
  .forM Settles.refl Settles.trans settles_output lines

theorem sim_updateRoots (hlimits : PathLimits os) {s : BufState σ} (hs : Sound s) (fuel : Nat)
    {newRoots : List Bytes} (hstrings : ∀ root ∈ newRoots, 0 ∉ root) :
    Sim c 0 (updateRoots os fuel newRoots) (FsNotifier.updateRoots os fuel newRoots) s := by
  unfold updateRoots FsNotifier.updateRoots
  refine Sim.plain_bind hs (settles_unregisterRoots os) fun _ t ht => ?_
  split
  · exact Sim.plain_bind ht (settles_output _) fun _ u hu => Sim.pure hu _
  · split
    · exact Sim.plain_bind ht (settles_output _) fun _ u hu => Sim.pure hu _
    · refine Sim.plain_bind ht (settles_unwatchableMounts os) fun answer u hu => ?_
      cases answer with
      | none => exact Sim.pure hu _
      | some mounts =>
          refine Sim.bind (sim_registerRoots hlimits fuel mounts newRoots [] _ hu hstrings)
            fun result v hv _ => ?_
          obtain ⟨registered, unwatchable⟩ := result
          dsimp only
          split
          · exact Sim.pure hv _
          · refine Sim.plain_bind hv (settles_output _) fun _ w hw => ?_
            refine Sim.plain_bind hw (settles_forM_output _) fun _ w' hw' => ?_
            exact Sim.plain_bind hw' (settles_output _) fun _ w'' hw'' => Sim.pure hw'' _

theorem sim_checkMissingRootAt (hlimits : PathLimits os) {s : BufState σ} (hs : Sound s)
    (fuel i : Nat) :
    Sim c 0 (checkMissingRootAt os fuel i) (FsNotifier.checkMissingRootAt os fuel i) s := by
  unfold checkMissingRootAt FsNotifier.checkMissingRootAt
  refine Sim.get_bind ?_
  cases hroot : s.state.roots[i]? with
  | none => exact Sim.pure hs _
  | some root =>
      dsimp only
      have hgood : GoodRoot root.path := hs.roots root (List.mem_of_getElem? hroot)
      split
      · refine Sim.sys_bind hs fun hs₁ => ?_
        cases hans : (os (.stat (unflatten root.path)) s.state.os).1 with
        | error e => exact Sim.pure hs₁ _
        | ok type =>
            refine Sim.bind (sim_watch hlimits hs₁ hgood fuel []) fun id t ht _ => ?_
            refine Follows.onPart_bind (fun hkept => hkept) fun _ u hrun => ?_
            cases hrun
            have hset := ht.setRoot i ⟨root.path, id⟩ hgood
            refine Sim.plain_bind hset (settles_reportEvent _ _) fun _ v hv => ?_
            exact Sim.plain hv (settles_reportEvent _ _)
      · exact Sim.pure hs _

/-- One turn of the main loop follows the turn of the notifier without the buffer. -/
theorem sim_perform (hlimits : PathLimits os) {s : BufState σ} (hs : Sound s)
    (hsingle : c → SingleEvents os) (fuel : Nat) {action : Action} (haction : CStrings action) :
    Sim c 0 (perform os fuel action) (FsNotifier.perform os fuel action) s := by
  cases action with
  | updateRoots newRoots => exact sim_updateRoots hlimits hs fuel haction
  | inotifyInput => exact sim_processInotifyInput hlimits hs hsingle fuel
  | missingRootTick =>
      unfold perform FsNotifier.perform checkMissingRoots FsNotifier.checkMissingRoots
      dsimp only
      simp only [bind_assoc]
      refine Sim.get_bind (Sim.bind ?_ fun _ t ht _ => Sim.pure ht _)
      exact Follows.forM (hs.kept 0) Kept.trans (fun h => h.1.kept 0)
        (fun i t ht => sim_checkMissingRootAt hlimits ht.1 fuel i) _

end MainLoop

/-! ## Whole sessions -/

section Sessions

variable {os : Os σ δ}

theorem sound_start (o : σ) {watchCount : Nat} (hpos : 0 < watchCount) :
    Sound (start o watchCount hpos) := by
  refine ⟨?_, ?_, ?_⟩ <;> simp [start, FsNotifier.start]

/-- One turn keeps the invariant. -/
theorem Sound.turn (hlimits : PathLimits os) {s s' : BufState σ} (hs : Sound s) {fuel : Nat}
    {action : Action} (haction : CStrings action) {goesOn : Bool}
    (hrun : (perform os fuel action).run s = .ok (goesOn, s')) : Sound s' := by
  have hsim : Sim False 0 (perform os fuel action) (FsNotifier.perform os fuel action) s :=
    sim_perform hlimits hs (fun hno => hno.elim) fuel haction
  exact (run_of_wp hsim hrun).1.1

theorem Reachable.sound (hlimits : PathLimits os) {init s : BufState σ} (hinit : Sound init)
    (hs : Reachable os init s) : Sound s := by
  induction hs with
  | start => exact hinit
  | turn fuel action goesOn haction _ hrun ih => exact ih.turn hlimits haction hrun

/-- Whatever trees and events there are, and whatever roots are given, every node keeps its path
with the right length, and no turn of the main loop writes past the end of the buffer, reads a
path that does not end where it should, leaves an array while it reads, or looks in front of a
root.  Nodes that come and go within a turn leave what they kept behind. -/
theorem path_buffer_safe (hlimits : PathLimits os) {o : σ} {watchCount : Nat}
    (hpos : 0 < watchCount) {s : BufState σ} (hs : Reachable os (start o watchCount hpos) s) :
    (∀ a n, s.state.heap.get a = some n →
      ∃ stored, s.nodePaths a = some stored ∧ stored.Keeps n.path) ∧
    (∀ a stored, s.nodePaths a = some stored → ∃ path, stored.Keeps path) ∧
    ∀ fuel action fault, CStrings action → (perform os fuel action).run s = .error fault →
      ∃ f, fault = .fault f := by
  have hsound : Sound s := hs.sound hlimits (sound_start o hpos)
  refine ⟨fun _ _ => hsound.keeps, fun _ _ => hsound.every, ?_⟩
  intro fuel action fault haction hrun
  have hsim : Sim False 0 (perform os fuel action) (FsNotifier.perform os fuel action) s :=
    sim_perform hlimits hsound (fun hno => hno.elim) fuel haction
  obtain ⟨f, hfault, -⟩ := fault_of_wp hsim hrun
  exact ⟨f, hfault⟩

/-- With the buffer the notifier does what it does without: the same result, the same state
apart from the buffer, or the same fault. -/
theorem perform_by_value (hlimits : PathLimits os) (hsingle : SingleEvents os) {o : σ}
    {watchCount : Nat} (hpos : 0 < watchCount) {s : BufState σ}
    (hs : Reachable os (start o watchCount hpos) s) (fuel : Nat) {action : Action}
    (haction : CStrings action) :
    (∀ goesOn s', (perform os fuel action).run s = .ok (goesOn, s') →
      (FsNotifier.perform os fuel action).run s.state = .ok (goesOn, s'.state)) ∧
    ∀ fault, (perform os fuel action).run s = .error fault →
      ∃ f, fault = .fault f ∧ (FsNotifier.perform os fuel action).run s.state = .error f := by
  have hsound : Sound s := hs.sound hlimits (sound_start o hpos)
  have hsim : Sim True 0 (perform os fuel action) (FsNotifier.perform os fuel action) s :=
    sim_perform hlimits hsound (fun _ => hsingle) fuel haction
  refine ⟨?_, ?_⟩
  · intro goesOn s' hrun
    exact (run_of_wp hsim hrun).2 trivial
  · intro fault hrun
    obtain ⟨f, hfault, hvalue⟩ := fault_of_wp hsim hrun
    exact ⟨f, hfault, hvalue trivial⟩

end Sessions

/-! ## A world that keeps the limits -/

/-- Any world, with calls that fail for long paths, and without names that are too long. -/
def limitedOs (os : Os σ δ) : Os σ δ
  | .stat path, o =>
      if path.length + 1 ≤ PATH_MAX then os (.stat path) o else (.error .ENAMETOOLONG, o)
  | .opendir path, o =>
      if path.length + 1 ≤ PATH_MAX then os (.opendir path) o else (.error .ENAMETOOLONG, o)
  | .inotifyAddWatch path, o =>
      if path.length + 1 ≤ PATH_MAX then os (.inotifyAddWatch path) o
      else (.error .ENAMETOOLONG, o)
  | .readdir dir, o =>
      ((os (.readdir dir) o).1.filter fun r => r.1.name.length ≤ NAME_MAX ∧ 0 ∉ r.1.name,
        (os (.readdir dir) o).2)
  | .read, o =>
      ((os .read o).1.map fun events => events.filter fun event =>
        event.name.all fun name => name.length ≤ NAME_MAX ∧ 0 ∉ name, (os .read o).2)
  | call, o => os call o

/-- A call that is answered was allowed. -/
theorem of_ite_ok {p : Prop} [Decidable p] {x : Except Errno α × σ} {e : Errno} {o : σ} {a : α}
    (hok : (if p then x else (.error e, o)).1 = .ok a) : p := by
  split at hok
  · assumption
  · contradiction

theorem limitedOs_pathLimits (os : Os σ δ) : PathLimits (limitedOs os) where
  stat := of_ite_ok
  opendir := of_ite_ok
  add := of_ite_ok
  entry := by
    intro dir o entry dir' hsome
    obtain ⟨-, hname⟩ := Option.filter_eq_some_iff.mp hsome
    exact of_decide_eq_true hname
  event := by
    intro o events hok event hevent name hname
    unfold limitedOs at hok
    dsimp only at hok
    cases hread : (os .read o).1 with
    | error e =>
        rw [hread] at hok
        contradiction
    | ok all =>
        rw [hread] at hok
        cases hok
        obtain ⟨-, hgood⟩ := List.mem_filter.mp hevent
        rw [hname] at hgood
        exact of_decide_eq_true hgood

/-- Registering {lit}`/r`, which has directories, and then the event of a new one there: each node
has its path with a NUL byte behind it. -/
theorem path_buffer_safe_tree :
    ∃ s s', (perform (limitedOs (worldOs createInTree)) 9 (.updateRoots [cstr "/r"])).run
        (start smallTree 8 (by decide)) = .ok (true, s) ∧
      (perform (limitedOs (worldOs createInTree)) 9 .inotifyInput).run s = .ok (true, s') ∧
      s'.nodePaths 2 = some ⟨6, cstr "/r/a/b" ++ [0]⟩ ∧
      s'.nodePaths 3 = some ⟨4, cstr "/r/c" ++ [0]⟩ ∧
      ∀ fuel action fault, CStrings action →
        (perform (limitedOs (worldOs createInTree)) fuel action).run s' = .error fault →
        ∃ f, fault = .fault f := by
  have hstrings : CStrings (.updateRoots [cstr "/r"]) := by
    intro root hroot
    obtain rfl := List.mem_singleton.mp hroot
    decide
  have hcheck : returned ((perform (limitedOs (worldOs createInTree)) 9
      (.updateRoots [cstr "/r"])).run (start smallTree 8 (by decide))) true (fun s =>
        returned ((perform (limitedOs (worldOs createInTree)) 9 .inotifyInput).run s) true
          (fun s' => decide (s'.nodePaths 2 = some ⟨6, cstr "/r/a/b" ++ [0]⟩ ∧
            s'.nodePaths 3 = some ⟨4, cstr "/r/c" ++ [0]⟩))) = true := by decide +kernel
  obtain ⟨s, hrun, hinput⟩ := exists_of_returned hcheck
  obtain ⟨s', hrun', htest⟩ := exists_of_returned hinput
  obtain ⟨hinner, hnew⟩ := of_decide_eq_true htest
  obtain ⟨-, -, hsafe⟩ := path_buffer_safe (limitedOs_pathLimits _) (by decide)
    (Reachable.turn 9 .inotifyInput true trivial
      (Reachable.turn 9 (.updateRoots [cstr "/r"]) true hstrings Reachable.start hrun) hrun')
  exact ⟨s, s', hrun, hrun', hinner, hnew, hsafe⟩

end Buffered
end FsNotifier
end IdeMultiarch
