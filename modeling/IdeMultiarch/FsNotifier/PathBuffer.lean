import IdeMultiarch.Library.CharArray
import IdeMultiarch.Library.Simulation
import IdeMultiarch.FsNotifier.Main

/-!
# fsnotifier - the shared path buffer

The functions of {lit}`native/fsNotifier/inotify.c` that work in {lit}`path_buf`, with the buffer
itself: {lit}`watch`, {lit}`walk_tree` and {lit}`process_inotify_event` copy names into it, and
{lit}`add_watch` copies a path out of it.  What these functions do to the rest of the state is
written in the words of the other modules, which pass paths by value.  The functions of
{lit}`main.c` are repeated as far as they lead to a {lit}`watch`.

A run stops with a fault of its own where the source would write past the end of the buffer, read
a path that does not end where the source thinks it does, or leave an array while it reads.
-/

namespace IdeMultiarch
namespace FsNotifier
namespace Buffered

open Library

/-! ## State -/

abbrev PATH_MAX : Nat := 4096

/-- The fields {lit}`path_len` and {lit}`path` of a {lit}`watch_node_str`, the path with all the
bytes that were copied. -/
structure NodePath where
  pathLen : Nat
  path : Bytes
deriving DecidableEq, Repr

/-- The state of the notifier with {lit}`path_buf` and the paths in the nodes by address.  The
field {lit}`path` of a node is the string that its bytes spell. -/
structure BufState (σ : Type) where
  state : State σ
  pathBuf : CharArray (2 * PATH_MAX)
  nodePaths : Nat → Option NodePath

/-- Why a run can stop short. -/
inductive BufFault
  | fault (f : Fault)
  | overflow (index : Nat)
  | unterminated (pathLen : Nat)
  | overread
  | beforeStart
deriving DecidableEq, Repr

abbrev BufNotifier (σ α : Type) := StateT (BufState σ) (Except BufFault) α

variable {σ δ α : Type}

def statePart : Part (BufState σ) (State σ) where
  get s := s.state
  set s state := { s with state := state }
  get_set _ _ := rfl

/-- A step that leaves the buffer and the paths in the nodes alone. -/
abbrev plain (m : Notifier σ α) : BufNotifier σ α :=
  onPart statePart BufFault.fault m

/-! ## The buffer -/

/-- Copy into the buffer. -/
def writePath (index : Nat) (source : Bytes) : BufNotifier σ Unit := do
  match (← get).pathBuf.write index source with
  | some pathBuf => modify fun s => { s with pathBuf := pathBuf }
  | none => throw (.overflow (index + source.length))

/-- Read the buffer as the path that ends at {lit}`path_len`. -/
def readPath (pathLen : Nat) : BufNotifier σ Bytes := do
  match (← get).pathBuf.string with
  | some path => if path.length = pathLen then pure path else throw (.unterminated pathLen)
  | none => throw (.unterminated pathLen)

/-- Fill the path of a new node from the buffer. -/
def storePath (a pathLen : Nat) : BufNotifier σ Unit :=
  modify fun s => { s with
    nodePaths := Function.update s.nodePaths a
      (some ⟨pathLen, s.pathBuf.bytes.take (pathLen + 1)⟩) }

/-- Read the path of a node. -/
def loadPath (a : Nat) : BufNotifier σ NodePath := do
  match (← get).nodePaths a with
  | some stored => pure stored
  | none => throw (.fault (.useAfterFree a))

/-! ## Adding watches -/

/-- {lit}`add_watch` where the slot of the kernel's descriptor is empty. -/
def addWatchFresh (pathLen : Nat) (parent : Option Nat) (wd : Nat) : BufNotifier σ Int := do
  let path ← readPath pathLen
  let a ← plain (malloc { wd := wd, parent := parent, kids := [], path := path })
  storePath a pathLen
  plain (pushKid parent a)
  match ← plain (tablePut wd (some a)) with
  | none => pure ERR_ABORT
  | some _ => pure wd

/-- {lit}`add_watch` -/
def addWatch (os : Os σ δ) (pathLen : Nat) (parent : Option Nat) : BufNotifier σ Int := do
  let path ← readPath pathLen
  match ← plain (sys os (.inotifyAddWatch path)) with
  | .error e =>
      if e = .EACCES ∨ e = .ENOENT then
        pure ERR_IGNORE
      else if e = .ENOSPC then do
        plain watchLimitReached
        pure ERR_CONTINUE
      else
        pure ERR_ABORT
  | .ok wd =>
      match ← plain (tableGet wd) with
      | some a => plain (addWatchExisting os path wd a)
      | none => addWatchFresh pathLen parent wd

/-! ## Walking a directory tree -/

/-- The {lit}`readdir` loop of {lit}`walk_tree`. -/
def walkEntries (os : Os σ δ) (walk : Nat → Option Nat → BufNotifier σ Int) :
    Nat → δ → Nat → Int → BufNotifier σ Int
  | 0, _, _, _ => throw (.fault .outOfFuel)
  | fuel + 1, dir, pathLen, id => do
      match ← plain (sys os (.readdir dir)) with
      | none => pure id
      | some (entry, dir) =>
          if entry.name = cstr "." ∨ entry.name = cstr ".." then
            walkEntries os walk fuel dir pathLen id
          else if entry.type = .other then
            walkEntries os walk fuel dir pathLen id
          else do
            writePath (pathLen + 1) (entry.name ++ [0])
            let subPath ← readPath (pathLen + 1 + entry.name.length)
            if !(← plain (entryIsDir os subPath entry)) then
              walkEntries os walk fuel dir pathLen id
            else do
              let subdirId ← walk (pathLen + 1 + entry.name.length) (← plain (tableGet id))
              if subdirId < 0 ∧ subdirId ≠ ERR_IGNORE then do
                plain (rmWatch os id true)
                pure subdirId
              else
                walkEntries os walk fuel dir pathLen id

/-- {lit}`walk_tree` -/
def walkTree (os : Os σ δ) :
    Nat → Nat → Option Nat → Bool → List Bytes → BufNotifier σ Int
  | 0, _, _, _, _ => throw (.fault .outOfFuel)
  | fuel + 1, pathLen, parent, recursive, mounts => do
      let path ← readPath pathLen
      if mounts.any fun mount => mount.isPrefixOf path then
        pure ERR_IGNORE
      else if !recursive then
        addWatch os pathLen parent
      else do
        match ← plain (sys os (.opendir path)) with
        | .error e =>
            if e = .EACCES ∨ e = .ENOENT ∨ e = .ENOTDIR then
              pure ERR_IGNORE
            else
              pure ERR_CONTINUE
        | .ok dir => do
            let id ← addWatch os pathLen parent
            if id < 0 then
              pure id
            else do
              writePath pathLen [slash]
              walkEntries os
                (fun subLen node => walkTree os fuel subLen node recursive mounts)
                fuel dir pathLen id

/-! ## Roots -/

/-- The test {lit}`root[path_len - 1] == '/'`. -/
def endsInSlash (root : Bytes) : BufNotifier σ Bool :=
  if root.length = 0 then
    throw .beforeStart
  else
    pure (root.getLast? = some slash)

/-- The last lines of {lit}`watch`. -/
def watchPath (os : Os σ δ) (fuel : Nat) (root : Bytes) (pathLen : Nat) (recursive : Bool)
    (mounts : List Bytes) : BufNotifier σ Int := do
  writePath 0 (root.take pathLen)
  writePath pathLen [0]
  walkTree os fuel pathLen none recursive mounts

/-- {lit}`watch` -/
def watch (os : Os σ δ) (fuel : Nat) (root : Bytes) (mounts : List Bytes) :
    BufNotifier σ Int := do
  let recursive := (splitRoot root).1
  let root := (splitRoot root).2
  let pathLen := if ← endsInSlash root then root.length - 1 else root.length
  match ← plain (sys os (.stat root)) with
  | .error e =>
      if e = .ENOENT then
        pure ERR_MISSING
      else if e = .EACCES ∨ e = .ELOOP ∨ e = .ENAMETOOLONG ∨ e = .ENOTDIR then
        pure ERR_CONTINUE
      else
        pure ERR_ABORT
  | .ok .reg => watchPath os fuel root pathLen false mounts
  | .ok .dir => watchPath os fuel root pathLen recursive mounts
  | .ok .other => pure ERR_IGNORE

/-! ## Events -/

/-- The path of an event in the buffer, and its length. -/
def fillEventPath (stored : NodePath) (event : InotifyEvent) : BufNotifier σ Nat := do
  if stored.path.length < stored.pathLen + 1 then
    throw .overread
  writePath 0 (stored.path.take (stored.pathLen + 1))
  match event.name with
  | none => pure stored.pathLen
  | some name => do
      writePath stored.pathLen [slash]
      writePath (stored.pathLen + 1) (name ++ [0])
      pure (stored.pathLen + (name.length + 1))

/-- {lit}`strncmp(path_buf, kid->path, kid->path_len) == 0` -/
def matchesPath (stored : NodePath) : BufNotifier σ Bool := do
  match strncmpEq stored.pathLen (← get).pathBuf.bytes stored.path with
  | some equal => pure equal
  | none => throw .overread

/-- The loop of {lit}`process_inotify_event` that drops the kid a directory event names. -/
def dropKid (os : Os σ δ) (a : Nat) : List Nat → BufNotifier σ Unit
  | [] => pure ()
  | i :: is => do
      let node ← plain (deref a)
      match node.kids.getD i none with
      | none => dropKid os a is
      | some k => do
          let kid ← plain (deref k)
          if ← matchesPath (← loadPath k) then do
            plain (rmWatch os kid.wd false)
            plain (update a fun node => { node with kids := node.kids.set i none })
          else
            dropKid os a is

/-- The two directory branches of {lit}`process_inotify_event`, after the callback. -/
def processDirEvent (os : Os σ δ) (fuel : Nat) (a : Nat) (pathLen : Nat) (mask : UInt32) :
    BufNotifier σ Bool := do
  let result ←
    if anyBit mask (IN_CREATE ||| IN_MOVED_TO) then
      walkTree os fuel pathLen (some a) true []
    else
      pure 0
  if result < 0 ∧ result ≠ ERR_IGNORE ∧ result ≠ ERR_CONTINUE then
    pure false
  else do
    if anyBit mask (IN_DELETE ||| IN_MOVED_FROM) then
      let node ← plain (deref a)
      dropKid os a (List.range node.kids.length)
    pure true

/-- {lit}`process_inotify_event` -/
def processInotifyEvent (os : Os σ δ) (fuel : Nat) (event : InotifyEvent) :
    BufNotifier σ Bool := do
  match ← plain (tableGet event.wd) with
  | none => pure true
  | some a => do
      let _ ← plain (deref a)
      let pathLen ← fillEventPath (← loadPath a) event
      let path ← readPath pathLen
      plain (inotifyCallback os path event.mask)
      if anyBit event.mask IN_ISDIR then
        processDirEvent os fuel a pathLen event.mask
      else
        pure true

/-- The loop of {lit}`process_inotify_input` over the events of one buffer. -/
def processEvents (os : Os σ δ) (fuel : Nat) : List InotifyEvent → BufNotifier σ Bool
  | [] => pure true
  | event :: events =>
      if anyBit event.mask IN_IGNORED then
        processEvents os fuel events
      else if anyBit event.mask IN_Q_OVERFLOW then
        processEvents os fuel events
      else do
        if !(← processInotifyEvent os fuel event) then
          pure false
        else
          processEvents os fuel events

/-- {lit}`process_inotify_input` -/
def processInotifyInput (os : Os σ δ) (fuel : Nat) : BufNotifier σ Bool := do
  match ← plain (sys os .read) with
  | .error _ => pure false
  | .ok events => processEvents os fuel events

/-! ## The main loop -/

/-- {lit}`register_roots` -/
def registerRoots (os : Os σ δ) (fuel : Nat) (mounts : List Bytes) :
    List Bytes → List Bytes → BufNotifier σ (Bool × List Bytes)
  | [], unwatchable => pure (true, unwatchable)
  | newRoot :: newRoots, unwatchable =>
      let unflattened := unflatten newRoot
      if unflattened.head? ≠ some slash then
        registerRoots os fuel mounts newRoots unwatchable
      else
        let check := checkMounts unflattened mounts
        let unwatchable := unwatchable ++ check.unwatchable
        if check.skip then
          registerRoots os fuel mounts newRoots unwatchable
        else do
          let id ← watch os fuel newRoot check.innerMounts
          if 0 ≤ id ∨ id = ERR_MISSING then do
            plain (modify fun s => { s with roots := s.roots ++ [⟨newRoot, id⟩] })
            registerRoots os fuel mounts newRoots unwatchable
          else if id = ERR_ABORT then
            pure (false, unwatchable)
          else if id ≠ ERR_IGNORE then
            registerRoots os fuel mounts newRoots (unwatchable ++ [unflattened])
          else
            registerRoots os fuel mounts newRoots unwatchable

/-- {lit}`update_roots` -/
def updateRoots (os : Os σ δ) (fuel : Nat) (newRoots : List Bytes) : BufNotifier σ Bool := do
  plain (unregisterRoots os)
  if newRoots = [] then do
    plain (output (cstr "UNWATCHEABLE\n#"))
    pure true
  else if newRoots = [cstr "/"] then do
    plain (output (cstr "UNWATCHEABLE\n/\n#"))
    pure true
  else do
    match ← plain (unwatchableMounts os) with
    | none => pure false
    | some mounts => do
        let (registered, unwatchable) ← registerRoots os fuel mounts newRoots []
        if !registered then
          pure false
        else do
          plain (output (cstr "UNWATCHEABLE"))
          plain (unwatchable.forM output)
          plain (output (cstr "#"))
          pure true

/-- The body of the loop of {lit}`check_missing_roots`. -/
def checkMissingRootAt (os : Os σ δ) (fuel : Nat) (i : Nat) : BufNotifier σ Unit := do
  match (← plain get).roots[i]? with
  | none => pure ()
  | some root =>
      if root.id < 0 then do
        match ← plain (sys os (.stat (unflatten root.path))) with
        | .error _ => pure ()
        | .ok _ => do
            let id ← watch os fuel root.path []
            plain (modify fun s => { s with roots := s.roots.set i { root with id := id } })
            plain (reportEvent (cstr "CREATE") (unflatten root.path))
            plain (reportEvent (cstr "CHANGE") (unflatten root.path))

/-- {lit}`check_missing_roots` -/
def checkMissingRoots (os : Os σ δ) (fuel : Nat) : BufNotifier σ Unit := do
  (List.range (← plain get).roots.length).forM (checkMissingRootAt os fuel)

/-- One turn of {lit}`main_loop`. -/
def perform (os : Os σ δ) (fuel : Nat) : Action → BufNotifier σ Bool
  | .updateRoots newRoots => updateRoots os fuel newRoots
  | .inotifyInput => processInotifyInput os fuel
  | .missingRootTick => do
      checkMissingRoots os fuel
      pure true

/-- The notifier after {lit}`init_inotify`. -/
def start (os : σ) (watchCount : Nat) (h : 0 < watchCount) : BufState σ where
  state := FsNotifier.start os watchCount h
  pathBuf := .zeroed (2 * PATH_MAX)
  nodePaths _ := none

/-- Roots come as strings. -/
def CStrings : Action → Prop
  | .updateRoots newRoots => ∀ root ∈ newRoots, 0 ∉ root
  | _ => True

/-- The states between two turns of the main loop. -/
inductive Reachable (os : Os σ δ) (init : BufState σ) : BufState σ → Prop
  | start : Reachable os init init
  | turn {s s' : BufState σ} (fuel : Nat) (action : Action) (goesOn : Bool) : CStrings action →
      Reachable os init s → (perform os fuel action).run s = .ok (goesOn, s') →
      Reachable os init s'

end Buffered
end FsNotifier
end IdeMultiarch
