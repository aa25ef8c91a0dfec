import IdeMultiarch.FsNotifier.Invariant
import IdeMultiarch.FsNotifier.Paths

/-!
# fsnotifier - a file system with inotify

A concrete world for the notifier to run in: a tree of directories that other processes
change between any two system calls, and one inotify instance that watches directories
by inode and queues what happens to them.  What the other processes do, which calls are
denied and in which order directories are listed is laid down in a script, so that
quantifying over scripts is quantifying over interleavings.

Main results:

- Definition {lit}`worldOs`: the world as a system the notifier can run on.
- Definition {lit}`worldView`: the view of its kernel that the invariant needs.
- Theorem {lit}`worldOs_singleEvents`: events carry one event type each.
-/

namespace IdeMultiarch
namespace FsNotifier

/-! ## The state of the world -/

/-- A directory: where it is and which inode it is. -/
structure Dir where
  path : Path
  inode : Nat
deriving DecidableEq, Repr

/-- A watch of the inotify instance. -/
structure KernelWatch where
  wd : Nat
  inode : Nat
deriving DecidableEq, Repr

/-- The things that happen to directories. -/
inductive Happening
  | created
  | deleted
  | movedFrom
  | movedTo
  | deleteSelf
  | moveSelf
  | ignored
deriving DecidableEq, Repr

/-- The mask under which the kernel reports a happening. -/
def Happening.mask : Happening → UInt32
  | .created => IN_CREATE ||| IN_ISDIR
  | .deleted => IN_DELETE ||| IN_ISDIR
  | .movedFrom => IN_MOVED_FROM ||| IN_ISDIR
  | .movedTo => IN_MOVED_TO ||| IN_ISDIR
  | .deleteSelf => IN_DELETE_SELF
  | .moveSelf => IN_MOVE_SELF
  | .ignored => IN_IGNORED

/-- An event in the queue of the inotify instance. -/
structure KernelEvent where
  wd : Nat
  happening : Happening
  name : Option Bytes
deriving DecidableEq, Repr

/-- The event as {lit}`read` delivers it. -/
def KernelEvent.toInotify (e : KernelEvent) : InotifyEvent :=
  ⟨e.wd, e.happening.mask, e.name⟩

/-- A call of {lit}`inotify_add_watch` and its answer, together with the descriptors that
were held when it was made, and those of the events that were still to be processed. -/
structure AddCall where
  path : Bytes
  answer : Except Errno Nat
  held : List (Nat × Bytes)
  pending : List Nat

/-- Changes of the directory tree.  A change that the file system would refuse does
nothing. -/
inductive FsOp
  | mkdir (parent : Path) (name : Bytes)
  | rmdir (parent : Path) (name : Bytes)
  | rename (oldParent : Path) (oldName : Bytes) (newParent : Path) (newName : Bytes)
      (replace : Bool)
deriving DecidableEq, Repr

/-- A change by another process, with the directories, watches and held descriptors before it,
and the events that the notifier may still have to process; there are none of these until it has
called {lit}`read`. -/
structure Change where
  op : FsOp
  dirs : List Dir
  watches : List KernelWatch
  held : List (Nat × Bytes)
  pending : Option (List KernelEvent)

/-- Directories, the inotify instance, and a record of what the notifier asked for and of what
other processes did.  For a watched inode {lit}`listed` has the entries that were there when its
watch was added; {lit}`delivered` has the events that {lit}`read` returned last; the list
{lit}`held` has the descriptors that were handed out, with the path they were asked for under,
until they are given back. -/
structure World where
  dirs : List Dir
  nextInode : Nat
  mounts : List Mntent
  watches : List KernelWatch
  listed : Nat → List Bytes
  nextWd : Nat
  queue : List KernelEvent
  delivered : Option (List KernelEvent)
  held : List (Nat × Bytes)
  log : List AddCall
  changes : List Change
  time : Nat

namespace World

/-- The descriptors that {lit}`inotify_add_watch` has handed out, in order. -/
def handedOut (w : World) : List Nat :=
  w.log.filterMap fun call => call.answer.toOption

/-- The inode of a directory. -/
def inodeOf (w : World) (path : Path) : Option Nat :=
  (w.dirs.find? fun d => d.path = path).map (·.inode)

/-- The inode a path of the notifier leads to; one trailing slash is allowed. -/
def resolve (w : World) (path : Bytes) : Option Nat :=
  let path' := if path.getLast? = some slash then path.dropLast else path
  if path = [] then none else (w.dirs.find? fun d => render d.path = path').map (·.inode)

/-- The descriptor under which an inode is watched. -/
def wdOf (w : World) (inode : Nat) : Option Nat :=
  (w.watches.find? fun k => k.inode = inode).map (·.wd)

/-- The names of the subdirectories of an inode. -/
def childNames (w : World) (inode : Nat) : List Bytes :=
  match w.dirs.find? fun d => d.inode = inode with
  | none => []
  | some parent => w.dirs.filterMap fun d =>
      if d.path ≠ [] ∧ d.path.dropLast = parent.path then d.path.getLast? else none

/-- Queue an event for an inode, if it is watched. -/
def notify (w : World) (inode : Nat) (happening : Happening) (name : Option Bytes) : World :=
  match w.wdOf inode with
  | none => w
  | some wd => { w with queue := w.queue ++ [⟨wd, happening, name⟩] }

/-- The last events of an inode that is gone, and the end of its watch. -/
def vanish (w : World) (inode : Nat) : World :=
  let w := (w.notify inode .deleteSelf none).notify inode .ignored none
  { w with watches := w.watches.filter fun k => k.inode ≠ inode }

end World

/-- The descriptors are pairwise distinct modulo the capacity of the table. -/
def DistinctMod (capacity : Nat) (wds : List Nat) : Prop :=
  ∀ wd ∈ wds, ∀ wd' ∈ wds, wd % capacity = wd' % capacity → wd = wd'

instance (capacity : Nat) (wds : List Nat) : Decidable (DistinctMod capacity wds) := by
  unfold DistinctMod
  infer_instance

/-! ## What other processes do -/

namespace World

/-- Whether a directory has no subdirectories. -/
def isEmpty (w : World) (path : Path) : Bool :=
  w.dirs.all fun d => !(path.isPrefixOf d.path) || d.path = path

/-- Move the directory {lit}`old` and everything in it to {lit}`new`. -/
def moveDirs (old new : Path) (dirs : List Dir) : List Dir :=
  dirs.map fun d =>
    if old.isPrefixOf d.path then { d with path := new ++ d.path.drop old.length } else d

/-- {lit}`mkdir` -/
def mkdir (w : World) (parent : Path) (name : Bytes) : World :=
  match w.inodeOf parent, w.inodeOf (parent ++ [name]) with
  | some parentInode, none =>
      if validName name then
        ({ w with
          dirs := w.dirs ++ [⟨parent ++ [name], w.nextInode⟩]
          nextInode := w.nextInode + 1 } : World).notify parentInode .created (some name)
      else
        w
  | _, _ => w

/-- {lit}`rmdir` -/
def rmdir (w : World) (parent : Path) (name : Bytes) : World :=
  match w.inodeOf parent, w.inodeOf (parent ++ [name]) with
  | some parentInode, some inode =>
      if w.isEmpty (parent ++ [name]) then
        (({ w with dirs := w.dirs.filter fun d => d.inode ≠ inode } : World).notify
          parentInode .deleted (some name)).vanish inode
      else
        w
  | _, _ => w

/-- {lit}`rename`, which may replace an empty directory unless it is told not to. -/
def rename (w : World) (oldParent : Path) (oldName : Bytes) (newParent : Path)
    (newName : Bytes) (replace : Bool) : World :=
  let old := oldParent ++ [oldName]
  let new := newParent ++ [newName]
  match w.inodeOf oldParent, w.inodeOf old, w.inodeOf newParent with
  | some oldParentInode, some inode, some newParentInode =>
      if validName newName ∧ !old.isPrefixOf newParent ∧ old ≠ new then
        let moved (w : World) : World :=
          ((({ w with dirs := moveDirs old new w.dirs } : World).notify
            oldParentInode .movedFrom (some oldName)).notify
            newParentInode .movedTo (some newName)).notify inode .moveSelf none
        match w.inodeOf new with
        | none => moved w
        | some target =>
            if replace && w.isEmpty new then
              (moved { w with dirs := w.dirs.filter fun d => d.inode ≠ target }).vanish target
            else
              w
      else
        w
  | _, _, _ => w

/-- One change by another process. -/
def apply (w : World) : FsOp → World
  | .mkdir parent name => w.mkdir parent name
  | .rmdir parent name => w.rmdir parent name
  | .rename oldParent oldName newParent newName replace =>
      w.rename oldParent oldName newParent newName replace

/-- The events still to be processed: a notifier that waits in {lit}`read` is done with those
delivered before. -/
def pending (w : World) (reading : Bool) : Option (List KernelEvent) :=
  if reading then some w.queue else w.delivered.map (· ++ w.queue)

/-- One change by another process is recorded. -/
def note (w : World) (reading : Bool) (op : FsOp) : World :=
  { w with changes := w.changes ++ [⟨op, w.dirs, w.watches, w.held, w.pending reading⟩] }

/-- Changes by other processes, one after the other. -/
def applyAll (w : World) (reading : Bool) (ops : List FsOp) : World :=
  ops.foldl (fun w op => (w.note reading op).apply op) w

end World

/-! ## System calls -/

/-- What happens around one system call: what other processes do just before it, the
error with which it is denied, and how the choices it leaves open fall out. -/
structure Turn where
  ops : List FsOp
  deny : Option Errno
  pick : Option Nat
  untyped : Bool

/-- A turn in which nothing out of the ordinary happens. -/
def Turn.quiet : Turn where
  ops := []
  deny := none
  pick := none
  untyped := false

/-- A directory stream: the directory, the entries it had when it was first read, and the
entries already returned. -/
structure DirStream where
  inode : Nat
  snapshot : Option (List Bytes)
  seen : List Bytes

namespace World

/-- The descriptors of the events that may still have to be processed. -/
def pendingWds (w : World) : List Nat :=
  (w.delivered.getD [] ++ w.queue).map (·.wd)

/-- Record a call of {lit}`inotify_add_watch`. -/
def answerAdd (w : World) (path : Bytes) (answer : Except Errno Nat) : Except Errno Nat × World :=
  (answer, { w with
    held := match answer with
      | .ok wd => (wd, path) :: w.held
      | .error _ => w.held
    log := w.log ++ [⟨path, answer, w.held, w.pendingWds⟩] })

/-- The entries of an inode are those its watch starts from. -/
def list (w : World) (inode : Nat) : Nat → List Bytes :=
  fun i => if i = inode then w.childNames inode else w.listed i

/-- {lit}`inotify_add_watch`: a watched inode keeps its descriptor, others get a new one. -/
def addWatch (w : World) (turn : Turn) (path : Bytes) : Except Errno Nat × World :=
  match turn.deny, w.resolve path with
  | some e, _ => w.answerAdd path (.error e)
  | none, none => w.answerAdd path (.error .ENOENT)
  | none, some inode =>
      match w.wdOf inode with
      | some wd => w.answerAdd path (.ok wd)
      | none => ({ w with
          watches := w.watches ++ [⟨w.nextWd, inode⟩]
          listed := w.list inode
          nextWd := w.nextWd + 1 } : World).answerAdd path (.ok w.nextWd)

/-- {lit}`inotify_rm_watch` -/
def rmWatch (w : World) (wd : Nat) : Except Errno Unit × World :=
  let w := { w with held := w.held.filter fun h => h.1 ≠ wd }
  if w.watches.any fun k => k.wd = wd then
    (.ok (), { w with
      watches := w.watches.filter fun k => k.wd ≠ wd
      queue := w.queue ++ [⟨wd, .ignored, none⟩] })
  else
    (.error (.other 22), w)

/-- {lit}`opendir` -/
def opendir (w : World) (turn : Turn) (path : Bytes) : Except Errno DirStream :=
  match turn.deny, w.resolve path with
  | some e, _ => .error e
  | none, none => .error .ENOENT
  | none, some inode => .ok ⟨inode, none, []⟩

/-- {lit}`readdir`: every entry that was there when the watch of the directory was added, and
still is, is returned.  An entry that came later, also before the first call, or that is gone
since the first call, may be returned or not. -/
def readdir (w : World) (turn : Turn) (dir : DirStream) : Option (Dirent × DirStream) :=
  let now := w.childNames dir.inode
  let snapshot := dir.snapshot.getD now
  let open_ := (snapshot ++ now).filter fun name => validName name ∧ name ∉ dir.seen
  let due := (w.listed dir.inode).filter fun name =>
    validName name ∧ name ∉ dir.seen ∧ name ∈ now
  let entry (name : Bytes) : Dirent × DirStream :=
    (⟨name, if turn.untyped then .DT_UNKNOWN else .DT_DIR⟩,
      ⟨dir.inode, some snapshot, name :: dir.seen⟩)
  match turn.pick.bind (open_[·]?) with
  | some name => some (entry name)
  | none => due.head?.map entry

/-- {lit}`stat` -/
def stat (w : World) (turn : Turn) (path : Bytes) : Except Errno FileType :=
  match turn.deny, w.resolve path with
  | some e, _ => .error e
  | none, none => .error .ENOENT
  | none, some _ => .ok .dir

/-- {lit}`realpath`; there are no symbolic links. -/
def realpath (w : World) (turn : Turn) (path : Bytes) : Option Bytes :=
  match turn.deny, w.resolve path with
  | none, some _ => some path
  | _, _ => none

/-- The first events leave the queue. -/
def take (w : World) (count : Nat) : World :=
  { w with queue := w.queue.drop count, delivered := some (w.queue.take count) }

/-- {lit}`read`: some of the queued events, in order, and at least one. -/
def read (w : World) (turn : Turn) : Except Errno (List InotifyEvent) × World :=
  let count := (turn.pick.getD w.queue.length) + 1
  (.ok ((w.queue.take count).map (·.toInotify)), w.take count)

/-- The answer to a call, after the changes of other processes. -/
def answer (turn : Turn) : (c : SysCall DirStream) → World → c.Answer × World
  | .inotifyAddWatch path, w => w.addWatch turn path
  | .inotifyRmWatch wd, w => w.rmWatch wd
  | .opendir path, w => (w.opendir turn path, w)
  | .readdir dir, w => (w.readdir turn dir, w)
  | .stat path, w => (w.stat turn path, w)
  | .realpath path, w => (w.realpath turn path, w)
  | .read, w => w.read turn
  | .getmntent, w => (some w.mounts, w)

/-- The world when a call is answered: other processes have moved first. -/
def advance (w : World) (reading : Bool) (turn : Turn) : World :=
  { w.applyAll reading turn.ops with time := w.time + 1 }

end World

/-- A world with one directory, {lit}`/r`, before the notifier has watched anything. -/
def oneDirectory : World where
  dirs := [⟨[], 1⟩, ⟨[cstr "r"], 2⟩]
  nextInode := 3
  mounts := []
  watches := []
  listed := fun _ => []
  nextWd := 1
  queue := []
  delivered := none
  held := []
  log := []
  changes := []
  time := 0

/-- A world in which {lit}`/r` contains {lit}`a`, and that {lit}`b`. -/
def smallTree : World :=
  { oneDirectory with
    dirs := [⟨[], 1⟩, ⟨[cstr "r"], 2⟩, ⟨[cstr "r", cstr "a"], 3⟩,
      ⟨[cstr "r", cstr "a", cstr "b"], 4⟩]
    nextInode := 5 }

/-- Another process creates {lit}`/r/c` when {lit}`/r` is registered and the notifier waits. -/
def createInTree (t : Nat) : Turn :=
  if t = 13 then { Turn.quiet with ops := [.mkdir [cstr "r"] (cstr "c")] } else Turn.quiet

/-- The call that the notifier waits in. -/
def SysCall.reads {δ : Type} : SysCall δ → Bool
  | .read => true
  | _ => false

/-- The system the notifier runs on, under a script with one turn for every call. -/
def worldOs (script : Nat → Turn) : Os World DirStream :=
  fun c w => World.answer (script w.time) c (w.advance c.reads (script w.time))

/-! ## Other processes and the inotify instance -/

/-- What other processes cannot do to the inotify instance: from {lit}`w` to {lit}`w'` no
watch was added and nothing was handed out. -/
structure Untouched (w w' : World) : Prop where
  held : w'.held = w.held
  log : w'.log = w.log
  listed : w'.listed = w.listed
  nextWd : w'.nextWd = w.nextWd
  watches : ∀ k ∈ w'.watches, k ∈ w.watches

namespace Untouched

variable {w w' w'' : World}

theorem refl (w : World) : Untouched w w :=
  ⟨rfl, rfl, rfl, rfl, fun _ hk => hk⟩

theorem notify (h : Untouched w w') (inode : Nat) (happening : Happening)
    (name : Option Bytes) : Untouched w (w'.notify inode happening name) := by
  unfold World.notify
  split
  · exact h
  · exact ⟨h.held, h.log, h.listed, h.nextWd, h.watches⟩

theorem dirs (h : Untouched w w') (dirs : List Dir) (nextInode : Nat) :
    Untouched w { w' with dirs := dirs, nextInode := nextInode } :=
  ⟨h.held, h.log, h.listed, h.nextWd, h.watches⟩

theorem vanish (h : Untouched w w') (inode : Nat) : Untouched w (w'.vanish inode) := by
  have h' := (h.notify inode .deleteSelf none).notify inode .ignored none
  exact ⟨h'.held, h'.log, h'.listed, h'.nextWd, fun k hk => h'.watches k (List.mem_filter.mp hk).1⟩

theorem apply (h : Untouched w w') (op : FsOp) : Untouched w (w'.apply op) := by
  cases op with
  | mkdir parent name =>
      unfold World.apply World.mkdir
      dsimp only
      split
      · split
        · exact (h.dirs _ _).notify _ _ _
        · exact h
      · exact h
  | rmdir parent name =>
      unfold World.apply World.rmdir
      dsimp only
      split
      · split
        · exact ((h.dirs _ _).notify _ _ _).vanish _
        · exact h
      · exact h
  | rename oldParent oldName newParent newName replace =>
      unfold World.apply World.rename
      dsimp only
      split
      · split
        · split
          · exact (((h.dirs _ _).notify _ _ _).notify _ _ _).notify _ _ _
          · split
            · exact (((((h.dirs _ _).dirs _ _).notify _ _ _).notify _ _ _).notify _ _ _).vanish _
            · exact h
        · exact h
      · exact h

theorem note (h : Untouched w w') (reading : Bool) (op : FsOp) :
    Untouched w (w'.note reading op) :=
  ⟨h.held, h.log, h.listed, h.nextWd, h.watches⟩

theorem advance (w : World) (reading : Bool) (turn : Turn) :
    Untouched w (w.advance reading turn) := by
  have key : ∀ (ops : List FsOp) (w' : World), Untouched w w' →
      Untouched w (w'.applyAll reading ops) := by
    intro ops
    induction ops with
    | nil => intro w' h; exact h
    | cons op ops ih => intro w' h; exact ih _ ((h.note reading op).apply op)
  have h := key turn.ops w (refl w)
  exact ⟨h.held, h.log, h.listed, h.nextWd, h.watches⟩

end Untouched

/-! ## The view of the kernel -/

/-- The answer's descriptor shares its slot with another one that is held. -/
def AddCall.clashes (capacity : Nat) (call : AddCall) : Bool :=
  match call.answer with
  | .ok wd => call.held.any fun h => h.1 % capacity = wd % capacity ∧ h.1 ≠ wd
  | .error _ => false

/-- The answer's descriptor is held for another path. -/
def AddCall.moved (call : AddCall) : Bool :=
  match call.answer with
  | .ok wd => call.held.any fun h => h.1 = wd ∧ h.2 ≠ call.path
  | .error _ => false

/-- The answer is one of the errors that {lit}`fatal` accepts. -/
def AddCall.failed (fatal : Errno → Bool) (call : AddCall) : Bool :=
  match call.answer with
  | .ok _ => false
  | .error e => fatal e

/-- The errors that {lit}`add_watch` takes for fatal. -/
def fatalErrno (e : Errno) : Bool :=
  e ≠ .EACCES ∧ e ≠ .ENOENT ∧ e ≠ .ENOSPC

section View

variable (script : Nat → Turn)

/-- A call of {lit}`inotify_add_watch` is recorded with its answer. -/
theorem worldOs_log_addWatch (path : Bytes) (w : World) :
    (worldOs script (.inotifyAddWatch path) w).2.log =
      w.log ++ [⟨path, (worldOs script (.inotifyAddWatch path) w).1, w.held,
        (w.advance false (script w.time)).pendingWds⟩] := by
  have hadv := Untouched.advance w false (script w.time)
  unfold worldOs World.answer World.addWatch World.answerAdd SysCall.reads
  dsimp only
  rw [← hadv.log, ← hadv.held]
  split
  · rfl
  · rfl
  · split <;> rfl

/-- No other call is recorded. -/
theorem worldOs_log_other (c : SysCall DirStream) (w : World)
    (hc : ∀ path, c ≠ .inotifyAddWatch path) : (worldOs script c w).2.log = w.log := by
  have hadv := (Untouched.advance w c.reads (script w.time)).log
  cases c with
  | inotifyAddWatch path => exact absurd rfl (hc path)
  | inotifyRmWatch wd =>
      unfold worldOs World.answer World.rmWatch
      dsimp only
      rw [← hadv]
      split <;> rfl
  | _ => exact hadv

theorem worldOs_log (c : SysCall DirStream) (w : World) :
    ∃ calls, (worldOs script c w).2.log = w.log ++ calls := by
  by_cases hc : ∀ path, c ≠ .inotifyAddWatch path
  · exact ⟨[], by rw [List.append_nil, worldOs_log_other script c w hc]⟩
  · obtain ⟨path, hpath⟩ := not_forall.mp hc
    rw [not_not.mp hpath]
    exact ⟨_, worldOs_log_addWatch script path w⟩

/-- What was handed out stays handed out. -/
theorem worldOs_handedOut (c : SysCall DirStream) (w : World) :
    ∃ wds, (worldOs script c w).2.handedOut = w.handedOut ++ wds := by
  obtain ⟨calls, hlog⟩ := worldOs_log script c w
  unfold World.handedOut
  rw [hlog, List.filterMap_append]
  exact ⟨_, rfl⟩

/-- What {lit}`inotify_add_watch` leaves behind: its call in the log, the descriptor among
those held, and at most one new watch, for that descriptor. -/
theorem worldOs_addWatch (path : Bytes) (w : World) :
    let r := worldOs script (.inotifyAddWatch path) w
    (⟨path, r.1, w.held, (w.advance false (script w.time)).pendingWds⟩ ∈ r.2.log) ∧
    (r.2.held = match r.1 with | .ok wd => (wd, path) :: w.held | .error _ => w.held) ∧
    (∀ k ∈ r.2.watches, k ∈ w.watches ∨ r.1 = .ok k.wd) := by
  have hadv := Untouched.advance w false
    (script w.time)
  have hwatches := hadv.watches
  dsimp only
  unfold worldOs World.answer World.addWatch World.answerAdd SysCall.reads
  dsimp only
  split
  · simp only [hadv.held, List.mem_append, List.mem_singleton, or_true, true_and]
    exact fun k hk => Or.inl (hwatches k hk)
  · simp only [hadv.held, List.mem_append, List.mem_singleton, or_true, true_and]
    exact fun k hk => Or.inl (hwatches k hk)
  · split
    · simp only [hadv.held, List.mem_append, List.mem_singleton, or_true, true_and]
      exact fun k hk => Or.inl (hwatches k hk)
    · simp only [hadv.held, List.mem_append, List.mem_singleton, true_and]
      refine ⟨Or.inr rfl, ?_⟩
      rintro k (hk | rfl)
      · exact Or.inl (hwatches k hk)
      · exact Or.inr rfl

/-- The view of the kernel in the world. -/
def worldView (capacity : Nat) : KernelView (worldOs script) capacity where
  watched w wd := ∃ k ∈ w.watches, k.wd = wd
  held w wd path := (wd, path) ∈ w.held
  clash w := ∃ call ∈ w.log, call.clashes capacity = true
  moved w := ∃ call ∈ w.log, call.moved = true
  refused w := ∃ call ∈ w.log, call.failed fatalErrno = true
  held_add := by
    intro w path wd hans
    obtain ⟨-, hheld, -⟩ := worldOs_addWatch script path w
    rw [hheld, hans]
    exact List.mem_cons_self
  held_keep := by
    intro c w wd path hc hmem
    have hadv := (Untouched.advance w c.reads (script w.time)).held
    cases c with
    | inotifyAddWatch path' =>
        obtain ⟨-, hheld, -⟩ := worldOs_addWatch script path' w
        rw [hheld]
        split
        · exact List.mem_cons_of_mem _ hmem
        · exact hmem
    | inotifyRmWatch wd' =>
        have hne : wd ≠ wd' := fun h => hc (by rw [h])
        unfold worldOs World.answer World.rmWatch
        dsimp only
        rw [hadv]
        split
        · exact List.mem_filter.mpr ⟨hmem, by simpa using hne⟩
        · exact List.mem_filter.mpr ⟨hmem, by simpa using hne⟩
    | _ => exact hadv ▸ hmem
  clash_add := by
    intro w path wd w' p hans hheld hslot hne
    obtain ⟨hlog, -, -⟩ := worldOs_addWatch script path w
    refine ⟨_, hlog, ?_⟩
    unfold AddCall.clashes
    rw [hans]
    exact List.any_eq_true.mpr ⟨(w', p), hheld, decide_eq_true ⟨hslot, hne⟩⟩
  moved_add := by
    intro w path wd p hans hheld hne
    obtain ⟨hlog, -, -⟩ := worldOs_addWatch script path w
    refine ⟨_, hlog, ?_⟩
    unfold AddCall.moved
    rw [hans]
    exact List.any_eq_true.mpr ⟨(wd, p), hheld, decide_eq_true ⟨rfl, hne⟩⟩
  refused_add := by
    intro w path e hans he₁ he₂ he₃
    obtain ⟨hlog, -, -⟩ := worldOs_addWatch script path w
    refine ⟨_, hlog, ?_⟩
    unfold AddCall.failed
    rw [hans]
    exact decide_eq_true ⟨he₁, he₂, he₃⟩
  clash_mono := by
    intro c w ⟨call, hcall, h⟩
    obtain ⟨calls, hlog⟩ := worldOs_log script c w
    exact ⟨call, hlog ▸ List.mem_append_left _ hcall, h⟩
  moved_mono := by
    intro c w ⟨call, hcall, h⟩
    obtain ⟨calls, hlog⟩ := worldOs_log script c w
    exact ⟨call, hlog ▸ List.mem_append_left _ hcall, h⟩
  refused_mono := by
    intro c w ⟨call, hcall, h⟩
    obtain ⟨calls, hlog⟩ := worldOs_log script c w
    exact ⟨call, hlog ▸ List.mem_append_left _ hcall, h⟩
  watched_add := by
    intro w path wd ⟨k, hk, hwd⟩
    obtain ⟨-, -, hwatches⟩ := worldOs_addWatch script path w
    rcases hwatches k hk with hold | hnew
    · exact Or.inl ⟨k, hold, hwd⟩
    · exact Or.inr (hwd ▸ hnew)
  watched_rm := by
    intro w wd wd' ⟨k, hk, hwd⟩
    have hwatches := (Untouched.advance w false (script w.time)).watches
    unfold worldOs World.answer World.rmWatch SysCall.reads at hk
    dsimp only at hk
    split at hk
    · obtain ⟨hk, hne⟩ := List.mem_filter.mp hk
      exact ⟨by rw [← hwd]; simpa using hne, k, hwatches k hk, hwd⟩
    · rename_i hno
      refine ⟨fun heq => hno ?_, k, hwatches k hk, hwd⟩
      exact List.any_eq_true.mpr ⟨k, hk, by simpa using hwd.trans heq⟩
  watched_look := by
    intro c w wd hc ⟨k, hk, hwd⟩
    have hwatches := (Untouched.advance w c.reads (script w.time)).watches
    cases c with
    | inotifyAddWatch path => exact hc.elim
    | inotifyRmWatch wd' => exact hc.elim
    | _ => exact ⟨k, hwatches k hk, hwd⟩

end View

/-! ## Event masks -/

/-- The event types of inotify that the source watches for or receives unasked. -/
def eventTypes : List UInt32 :=
  [IN_MODIFY, IN_ATTRIB, IN_MOVED_FROM, IN_MOVED_TO, IN_CREATE, IN_DELETE, IN_DELETE_SELF,
    IN_MOVE_SELF, IN_UNMOUNT, IN_Q_OVERFLOW, IN_IGNORED]

/-- A mask with one event-type bit, and perhaps the directory bit. -/
def SingleType (mask : UInt32) : Prop :=
  ∃ t ∈ eventTypes, mask = t ∨ mask = t ||| IN_ISDIR

/-- Every buffer of events the world delivers has events of a single type. -/
def SingleEvents {σ δ : Type} (os : Os σ δ) : Prop :=
  ∀ o events, (os .read o).1 = .ok events → ∀ event ∈ events, SingleType event.mask

theorem Happening.mask_singleType (happening : Happening) : SingleType happening.mask := by
  unfold SingleType
  cases happening <;> decide

/-- Events carry one event type each. -/
theorem worldOs_singleEvents (script : Nat → Turn) : SingleEvents (worldOs script) := by
  intro w events hread event hevent
  unfold worldOs World.answer World.read at hread
  cases hread
  obtain ⟨e, -, rfl⟩ := List.mem_map.mp hevent
  exact e.happening.mask_singleType

end FsNotifier
end IdeMultiarch
