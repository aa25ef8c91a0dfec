import IdeMultiarch.Library.Heap
import IdeMultiarch.Library.WeakestPre
import IdeMultiarch.FsNotifier.System

/-!
# fsnotifier - inotify.c

The watch nodes and the functions of {lit}`native/fsNotifier/inotify.c` that add,
remove and report watches.  The static variables of the source form one state; the
functions run in a monad that can stop with a fault.  Following a pointer to a freed
node is such a fault, and so is running out of the fuel that bounds the recursion of
{lit}`walk_tree`.

The buffer {lit}`path_buf` is passed by value: on entry of every function it holds
the path the function works on, and a call made from the loop of {lit}`walk_tree`
only overwrites what follows the directory's own path and the slash after it;
{lit}`perform_by_value` justifies this.
Allocations succeed, logging leaves no trace, and {lit}`closedir` has no effect.
-/

namespace IdeMultiarch
namespace FsNotifier

open Library

/-! ## State -/

/-- {lit}`struct watch_node_str`.  The kid array is never shrunk; a removed kid leaves
a null pointer in it. -/
structure WatchNode where
  wd : Nat
  parent : Option Nat
  kids : List (Option Nat)
  path : Bytes
deriving DecidableEq, Repr

/-- {lit}`watch_root`: a root as it was given, with the descriptor of its watch, or a
negative value while the root is missing. -/
structure WatchRoot where
  path : Bytes
  id : Int
deriving DecidableEq, Repr

/-- The world and the static variables of the notifier. -/
structure State (σ : Type) where
  os : σ
  watches : Table
  heap : Heap WatchNode
  roots : List WatchRoot
  limitReached : Bool
  stdout : Bytes

/-- Why a run of the model can stop short. -/
inductive Fault
  | useAfterFree (address : Nat)
  | outOfFuel
deriving DecidableEq, Repr

/-- Programs of the notifier. -/
abbrev Notifier (σ α : Type) := StateT (State σ) (Except Fault) α

/-- Negative results that stand for a failed registration. -/
abbrev ERR_IGNORE : Int := -1
abbrev ERR_CONTINUE : Int := -2
abbrev ERR_ABORT : Int := -3
abbrev ERR_MISSING : Int := -4

variable {σ δ : Type}

/-! ## Primitive steps -/

/-- Make a system call. -/
def sys (os : Os σ δ) (c : SysCall δ) : Notifier σ c.Answer :=
  fun s => .ok ((os c s.os).1, { s with os := (os c s.os).2 })

/-- Read a node through a pointer. -/
def deref (a : Nat) : Notifier σ WatchNode := do
  match (← get).heap.get a with
  | some node => pure node
  | none => throw (.useAfterFree a)

/-- Change a node through a pointer. -/
def update (a : Nat) (f : WatchNode → WatchNode) : Notifier σ Unit := do
  let _ ← deref a
  modify fun s => { s with heap := s.heap.modify a f }

/-- {lit}`malloc` and the assignments that fill the new node. -/
def malloc (node : WatchNode) : Notifier σ Nat := do
  let s ← get
  set { s with heap := s.heap.alloc node }
  pure s.heap.next

/-- {lit}`free` -/
def free (a : Nat) : Notifier σ Unit :=
  modify fun s => { s with heap := s.heap.free a }

/-- {lit}`table_get` on the watch table. -/
def tableGet (wd : Int) : Notifier σ (Option Nat) := do
  pure ((← get).watches.get wd)

/-- {lit}`table_put` on the watch table. -/
def tablePut (wd : Int) (value : Option Nat) : Notifier σ (Option Nat) := do
  let s ← get
  let r := s.watches.put wd value
  set { s with watches := r.2 }
  pure r.1

/-- {lit}`output` -/
def output (line : Bytes) : Notifier σ Unit :=
  modify fun s => { s with stdout := s.stdout ++ line ++ [newline] }

/-- {lit}`message` -/
def message (text : Bytes) : Notifier σ Unit := do
  output (cstr "MESSAGE")
  output text

/-! ## Rules of the primitive steps -/

section Rules

variable {tol : Fault → Prop} {s : State σ}

@[simp]
theorem wp_sys (os : Os σ δ) (c : SysCall δ) (Q : c.Answer → State σ → Prop) :
    wp tol (sys os c) Q s ↔ Q (os c s.os).1 { s with os := (os c s.os).2 } :=
  Iff.rfl

/-- Reading through a live pointer gives the node. -/
theorem wp_deref {a : Nat} {n : WatchNode} (hn : s.heap.get a = some n)
    (Q : WatchNode → State σ → Prop) : wp tol (deref a) Q s ↔ Q n s := by
  unfold deref
  rw [wp_bind, wp_get, hn]
  rfl

@[simp]
theorem wp_malloc (node : WatchNode) (Q : Nat → State σ → Prop) :
    wp tol (malloc node) Q s ↔ Q s.heap.next { s with heap := s.heap.alloc node } :=
  Iff.rfl

@[simp]
theorem wp_tableGet (wd : Int) (Q : Option Nat → State σ → Prop) :
    wp tol (tableGet wd) Q s ↔ Q (s.watches.get wd) s :=
  Iff.rfl

@[simp]
theorem wp_tablePut (wd : Int) (value : Option Nat) (Q : Option Nat → State σ → Prop) :
    wp tol (tablePut wd value) Q s ↔
      Q (s.watches.put wd value).1 { s with watches := (s.watches.put wd value).2 } :=
  Iff.rfl

@[simp]
theorem wp_output (line : Bytes) (Q : Unit → State σ → Prop) :
    wp tol (output line) Q s ↔ Q () { s with stdout := s.stdout ++ line ++ [newline] } :=
  Iff.rfl

end Rules

/-! ## Adding a watch -/

/-- {lit}`watch_limit_reached` -/
def watchLimitReached : Notifier σ Unit := do
  if !(← get).limitReached then
    modify fun s => { s with limitReached := true }
    message (cstr "inotify.watch.limit")

/-- The new node of {lit}`add_watch` becomes the last kid of its parent. -/
def pushKid (parent : Option Nat) (a : Nat) : Notifier σ Unit :=
  match parent with
  | none => pure ()
  | some p => update p fun node => { node with kids := node.kids ++ [some a] }

/-- {lit}`add_watch` where the kernel's descriptor already has a node in its slot. -/
def addWatchExisting (os : Os σ δ) (path : Bytes) (wd : Nat) (a : Nat) : Notifier σ Int := do
  let node ← deref a
  if node.wd ≠ wd then
    pure ERR_ABORT
  else if node.path ≠ path then do
    let normalized1 ← sys os (.realpath node.path)
    let normalized2 ← sys os (.realpath path)
    if normalized1 = none ∨ normalized2 = none ∨ normalized1 ≠ normalized2 then
      pure ERR_ABORT
    else
      pure ERR_IGNORE
  else
    pure wd

/-- {lit}`add_watch` where the slot of the kernel's descriptor is empty. -/
def addWatchFresh (path : Bytes) (parent : Option Nat) (wd : Nat) : Notifier σ Int := do
  let a ← malloc { wd := wd, parent := parent, kids := [], path := path }
  pushKid parent a
  match ← tablePut wd (some a) with
  | none => pure ERR_ABORT
  | some _ => pure wd

/-- {lit}`add_watch` -/
def addWatch (os : Os σ δ) (path : Bytes) (parent : Option Nat) : Notifier σ Int := do
  match ← sys os (.inotifyAddWatch path) with
  | .error e =>
      if e = .EACCES ∨ e = .ENOENT then
        pure ERR_IGNORE
      else if e = .ENOSPC then do
        watchLimitReached
        pure ERR_CONTINUE
      else
        pure ERR_ABORT
  | .ok wd =>
      match ← tableGet wd with
      | some a => addWatchExisting os path wd a
      | none => addWatchFresh path parent wd

/-! ## Removing a watch -/

/-- The loop of {lit}`rm_watch` over the kids of the node at {lit}`a`; {lit}`rm` is the
recursive call. -/
def rmKids (rm : Int → Notifier σ Unit) (a : Nat) : List Nat → Notifier σ Unit
  | [] => pure ()
  | i :: is => do
      let node ← deref a
      match node.kids.getD i none with
      | none => rmKids rm a is
      | some k => do
          let kid ← deref k
          rm kid.wd
          rmKids rm a is

/-- The parent forgets its kid {lit}`a`: the first matching entry is set to null. -/
def forgetKid (parent : Option Nat) (a : Nat) : Notifier σ Unit :=
  match parent with
  | none => pure ()
  | some p => update p fun node => { node with kids := node.kids.replace (some a) none }

/-- {lit}`rm_watch`, with a bound on the depth of the recursion. -/
def rmWatchAux (os : Os σ δ) : Nat → Int → Bool → Notifier σ Unit
  | 0, _, _ => throw .outOfFuel
  | fuel + 1, wd, updateParent => do
      match ← tableGet wd with
      | none => pure ()
      | some a => do
          let node ← deref a
          let _ ← sys os (.inotifyRmWatch node.wd)
          rmKids (fun kidWd => rmWatchAux os fuel kidWd false) a (List.range node.kids.length)
          let node ← deref a
          if updateParent then
            forgetKid node.parent a
          free a
          let _ ← tablePut wd none
          pure ()

/-- {lit}`rm_watch`.  The depth is bounded by the number of addresses ever used, since
a kid is younger than its parent. -/
def rmWatch (os : Os σ δ) (wd : Int) (updateParent : Bool) : Notifier σ Unit := do
  rmWatchAux os ((← get).heap.next + 1) wd updateParent

/-! ## Walking a directory tree -/

/-- Whether the loop of {lit}`walk_tree` goes into an entry. -/
def entryIsDir (os : Os σ δ) (path : Bytes) (entry : Dirent) : Notifier σ Bool := do
  match entry.type with
  | .other => pure false
  | .DT_DIR => pure true
  | .DT_UNKNOWN =>
      match ← sys os (.stat path) with
      | .ok .dir => pure true
      | _ => pure false

/-- The {lit}`readdir` loop of {lit}`walk_tree` in the directory {lit}`path`, whose watch
is {lit}`id`; {lit}`walk` is the recursive call. -/
def walkEntries (os : Os σ δ) (walk : Bytes → Option Nat → Notifier σ Int) :
    Nat → δ → Bytes → Int → Notifier σ Int
  | 0, _, _, _ => throw .outOfFuel
  | fuel + 1, dir, path, id => do
      match ← sys os (.readdir dir) with
      | none => pure id
      | some (entry, dir) =>
          if entry.name = cstr "." ∨ entry.name = cstr ".." then
            walkEntries os walk fuel dir path id
          else do
            let subPath := path ++ slash :: entry.name
            if !(← entryIsDir os subPath entry) then
              walkEntries os walk fuel dir path id
            else do
              let subdirId ← walk subPath (← tableGet id)
              if subdirId < 0 ∧ subdirId ≠ ERR_IGNORE then do
                rmWatch os id true
                pure subdirId
              else
                walkEntries os walk fuel dir path id

/-- {lit}`walk_tree` -/
def walkTree (os : Os σ δ) :
    Nat → Bytes → Option Nat → Bool → List Bytes → Notifier σ Int
  | 0, _, _, _, _ => throw .outOfFuel
  | fuel + 1, path, parent, recursive, mounts =>
      if mounts.any fun mount => mount.isPrefixOf path then
        pure ERR_IGNORE
      else if !recursive then
        addWatch os path parent
      else do
        match ← sys os (.opendir path) with
        | .error e =>
            if e = .EACCES ∨ e = .ENOENT ∨ e = .ENOTDIR then
              pure ERR_IGNORE
            else
              pure ERR_CONTINUE
        | .ok dir => do
            let id ← addWatch os path parent
            if id < 0 then
              pure id
            else
              walkEntries os
                (fun subPath node => walkTree os fuel subPath node recursive mounts)
                fuel dir path id

/-! ## Roots -/

/-- Whether a root is recursive, and the path that follows the flat marker. -/
def splitRoot (root : Bytes) : Bool × Bytes :=
  if root.head? = some pipe then (false, root.tail) else (true, root)

/-- The path under which {lit}`watch` watches a root: one trailing slash is dropped. -/
def rootPath (root : Bytes) : Bytes :=
  let path := (splitRoot root).2
  if path.getLast? = some slash then path.dropLast else path

/-- {lit}`watch` -/
def watch (os : Os σ δ) (fuel : Nat) (root : Bytes) (mounts : List Bytes) : Notifier σ Int := do
  match ← sys os (.stat (splitRoot root).2) with
  | .error e =>
      if e = .ENOENT then
        pure ERR_MISSING
      else if e = .EACCES ∨ e = .ELOOP ∨ e = .ENAMETOOLONG ∨ e = .ENOTDIR then
        pure ERR_CONTINUE
      else
        pure ERR_ABORT
  | .ok .reg => walkTree os fuel (rootPath root) none false mounts
  | .ok .dir => walkTree os fuel (rootPath root) none (splitRoot root).1 mounts
  | .ok .other => pure ERR_IGNORE

/-- {lit}`unwatch` -/
def unwatch (os : Os σ δ) (id : Int) : Notifier σ Unit :=
  rmWatch os id true

/-! ## Events -/

/-- The path of an event: the node's path, followed by the name when there is one. -/
def eventPath (node : WatchNode) (event : InotifyEvent) : Bytes :=
  match event.name with
  | none => node.path
  | some name => node.path ++ slash :: name

/-- The loop of {lit}`process_inotify_event` that drops the kid a directory event names:
the first kid whose path is a prefix of {lit}`path`. -/
def dropKid (os : Os σ δ) (a : Nat) (path : Bytes) : List Nat → Notifier σ Unit
  | [] => pure ()
  | i :: is => do
      let node ← deref a
      match node.kids.getD i none with
      | none => dropKid os a path is
      | some k => do
          let kid ← deref k
          if kid.path.isPrefixOf path then do
            rmWatch os kid.wd false
            update a fun node => { node with kids := node.kids.set i none }
          else
            dropKid os a path is

/-- The two directory branches of {lit}`process_inotify_event`, after the callback. -/
def processDirEvent (os : Os σ δ) (fuel : Nat) (a : Nat) (path : Bytes) (mask : UInt32) :
    Notifier σ Bool := do
  let result ←
    if anyBit mask (IN_CREATE ||| IN_MOVED_TO) then
      walkTree os fuel path (some a) true []
    else
      pure 0
  if result < 0 ∧ result ≠ ERR_IGNORE ∧ result ≠ ERR_CONTINUE then
    pure false
  else do
    if anyBit mask (IN_DELETE ||| IN_MOVED_FROM) then
      let node ← deref a
      dropKid os a path (List.range node.kids.length)
    pure true

/-- {lit}`process_inotify_event` -/
def processInotifyEvent (os : Os σ δ) (callback : Bytes → UInt32 → Notifier σ Unit)
    (fuel : Nat) (event : InotifyEvent) : Notifier σ Bool := do
  match ← tableGet event.wd with
  | none => pure true
  | some a => do
      let node ← deref a
      let path := eventPath node event
      callback path event.mask
      if anyBit event.mask IN_ISDIR then
        processDirEvent os fuel a path event.mask
      else
        pure true

/-- The loop of {lit}`process_inotify_input` over the events of one buffer. -/
def processEvents (os : Os σ δ) (callback : Bytes → UInt32 → Notifier σ Unit)
    (fuel : Nat) : List InotifyEvent → Notifier σ Bool
  | [] => pure true
  | event :: events =>
      if anyBit event.mask IN_IGNORED then
        processEvents os callback fuel events
      else if anyBit event.mask IN_Q_OVERFLOW then
        processEvents os callback fuel events
      else do
        if !(← processInotifyEvent os callback fuel event) then
          pure false
        else
          processEvents os callback fuel events

/-- {lit}`process_inotify_input` -/
def processInotifyInput (os : Os σ δ) (callback : Bytes → UInt32 → Notifier σ Unit)
    (fuel : Nat) : Notifier σ Bool := do
  match ← sys os .read with
  | .error _ => pure false
  | .ok events => processEvents os callback fuel events

end FsNotifier
end IdeMultiarch
