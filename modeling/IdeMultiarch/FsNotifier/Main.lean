import IdeMultiarch.FsNotifier.Inotify

/-!
# fsnotifier - main.c

Reporting, registering, restoring and dropping roots, as in
{lit}`native/fsNotifier/main.c`, and the three actions between which the main loop
chooses: a new set of roots, a buffer of events, and a tick of the timer.
-/

namespace IdeMultiarch
namespace FsNotifier

open Library

variable {σ δ : Type}

/-! ## Output -/

/-- The copy {lit}`report_event` makes of a path: newlines become NUL bytes.  There are none in the
path, where its loop would end. -/
def maskNewlines (path : Bytes) : Bytes :=
  path.map fun b => if b = newline then 0 else b

/-- {lit}`report_event` -/
def reportEvent (event path : Bytes) : Notifier σ Unit :=
  modify fun s =>
    { s with stdout := s.stdout ++ event ++ [newline] ++ maskNewlines path ++ [newline] }

@[simp]
theorem wp_reportEvent {tol : Fault → Prop} {s : State σ} (event path : Bytes)
    (Q : Unit → State σ → Prop) :
    wp tol (reportEvent event path) Q s ↔ Q () { s with
      stdout := s.stdout ++ event ++ [newline] ++ maskNewlines path ++ [newline] } :=
  Iff.rfl

/-! ## Root removal -/

/-- {lit}`UNFLATTEN` -/
def unflatten (root : Bytes) : Bytes :=
  (splitRoot root).2

/-- The body of the loop of {lit}`check_root_removal`. -/
def checkRootRemovalAt (os : Os σ δ) (path : Bytes) (i : Nat) : Notifier σ Unit := do
  match (← get).roots[i]? with
  | none => pure ()
  | some root =>
      if 0 ≤ root.id ∧ path = unflatten root.path then do
        unwatch os root.id
        modify fun s => { s with roots := s.roots.set i { root with id := -1 } }
        reportEvent (cstr "DELETE") path

/-- {lit}`check_root_removal` -/
def checkRootRemoval (os : Os σ δ) (path : Bytes) : Notifier σ Unit := do
  (List.range (← get).roots.length).forM (checkRootRemovalAt os path)

/-- The reports of {lit}`inotify_callback` before it looks for a removed root. -/
def reportMask (path : Bytes) (event : UInt32) : Notifier σ Unit :=
  if anyBit event (IN_CREATE ||| IN_MOVED_TO) then do
    reportEvent (cstr "CREATE") path
    reportEvent (cstr "CHANGE") path
  else if anyBit event IN_MODIFY then
    reportEvent (cstr "CHANGE") path
  else if anyBit event IN_ATTRIB then
    reportEvent (cstr "STATS") path
  else if anyBit event (IN_DELETE ||| IN_MOVED_FROM) then
    reportEvent (cstr "DELETE") path
  else
    pure ()

/-- The reports of {lit}`inotify_callback` only write output. -/
theorem wp_reportMask {tol : Fault → Prop} {path : Bytes} {mask : UInt32} {s : State σ}
    {Q : Unit → State σ → Prop}
    (hQ : ∀ out, Q () { s with stdout := out }) : wp tol (reportMask path mask) Q s := by
  unfold reportMask
  split
  · exact hQ _
  · split
    · exact hQ _
    · split
      · exact hQ _
      · split
        · exact hQ _
        · exact hQ s.stdout

/-- {lit}`inotify_callback` -/
def inotifyCallback (os : Os σ δ) (path : Bytes) (event : UInt32) : Notifier σ Unit := do
  reportMask path event
  if anyBit event (IN_DELETE_SELF ||| IN_MOVE_SELF) then
    checkRootRemoval os path
  else if anyBit event IN_UNMOUNT then
    output (cstr "RESET")
  else
    pure ()

/-! ## Mount table -/

/-- {lit}`is_watchable`: special and network filesystems are not watched. -/
def isWatchable (fs : Bytes) : Bool :=
  !((cstr "dev").isPrefixOf fs || fs == cstr "proc" || fs == cstr "sysfs" ||
    fs == cstr "swap" || fs == cstr "cifs" || fs == cstr "nfs" || fs == cstr "9p" ||
    ((cstr "fuse").isPrefixOf fs && fs.drop 4 != cstr "blk" && fs.drop 4 != cstr ".osxfs"))

/-- {lit}`unwatchable_mounts`; {lit}`none` when the mount table cannot be opened. -/
def unwatchableMounts (os : Os σ δ) : Notifier σ (Option (List Bytes)) := do
  match ← sys os .getmntent with
  | none => pure none
  | some entries =>
      pure (some ((entries.filter fun ent =>
        ent.type != cstr "ignore" && !isWatchable ent.type).map (·.dir)))

/-! ## Registering roots -/

/-- What {lit}`register_roots` learns from the mount table about one root: whether a
mount covers it, the paths it reports as unwatchable, and the mounts inside it. -/
structure MountCheck where
  skip : Bool
  unwatchable : List Bytes
  innerMounts : List Bytes
deriving DecidableEq, Repr

/-- The loop of {lit}`register_roots` over the mount table. -/
def checkMounts (unflattened : Bytes) : List Bytes → MountCheck
  | [] => ⟨false, [], []⟩
  | mount :: mounts =>
      if isParentPath mount unflattened then
        ⟨true, [unflattened], []⟩
      else
        let rest := checkMounts unflattened mounts
        if isParentPath unflattened mount then
          ⟨rest.skip, mount :: rest.unwatchable, mount :: rest.innerMounts⟩
        else
          rest

/-- {lit}`register_roots`; the result pairs its return value with the list of
unwatchable paths it has filled. -/
def registerRoots (os : Os σ δ) (fuel : Nat) (mounts : List Bytes) :
    List Bytes → List Bytes → Notifier σ (Bool × List Bytes)
  | [], unwatchable => pure (true, unwatchable)
  | newRoot :: newRoots, unwatchable =>
      let unflattened := unflatten newRoot
      if unflattened.head? ≠ some slash then
        registerRoots os fuel mounts newRoots unwatchable
      else
        let check := checkMounts unflattened mounts
        let unwatchable := unwatchable ++ check.unwatchable
        if check.skip then
          registerRoots os fuel mounts newRoots unwatchable
        else do
          let id ← watch os fuel newRoot check.innerMounts
          if 0 ≤ id ∨ id = ERR_MISSING then do
            modify fun s => { s with roots := s.roots ++ [⟨newRoot, id⟩] }
            registerRoots os fuel mounts newRoots unwatchable
          else if id = ERR_ABORT then
            pure (false, unwatchable)
          else if id ≠ ERR_IGNORE then
            registerRoots os fuel mounts newRoots (unwatchable ++ [unflattened])
          else
            registerRoots os fuel mounts newRoots unwatchable

/-- The body of the loop of {lit}`unregister_roots`: pop the last root and unwatch it. -/
def unregisterLast (os : Os σ δ) : Notifier σ Unit := do
  match (← get).roots.getLast? with
  | none => pure ()
  | some root => do
      modify fun s => { s with roots := s.roots.dropLast }
      unwatch os root.id

/-- {lit}`unregister_roots` -/
def unregisterRoots (os : Os σ δ) : Notifier σ Unit := do
  (List.range (← get).roots.length).forM fun _ => unregisterLast os

/-- {lit}`update_roots` -/
def updateRoots (os : Os σ δ) (fuel : Nat) (newRoots : List Bytes) : Notifier σ Bool := do
  unregisterRoots os
  if newRoots = [] then do
    output (cstr "UNWATCHEABLE\n#")
    pure true
  else if newRoots = [cstr "/"] then do
    output (cstr "UNWATCHEABLE\n/\n#")
    pure true
  else do
    match ← unwatchableMounts os with
    | none => pure false
    | some mounts => do
        let (registered, unwatchable) ← registerRoots os fuel mounts newRoots []
        if !registered then
          pure false
        else do
          output (cstr "UNWATCHEABLE")
          unwatchable.forM output
          output (cstr "#")
          pure true

/-! ## Missing roots -/

/-- The body of the loop of {lit}`check_missing_roots`. -/
def checkMissingRootAt (os : Os σ δ) (fuel : Nat) (i : Nat) : Notifier σ Unit := do
  match (← get).roots[i]? with
  | none => pure ()
  | some root =>
      if root.id < 0 then do
        match ← sys os (.stat (unflatten root.path)) with
        | .error _ => pure ()
        | .ok _ => do
            let id ← watch os fuel root.path []
            modify fun s => { s with roots := s.roots.set i { root with id := id } }
            reportEvent (cstr "CREATE") (unflatten root.path)
            reportEvent (cstr "CHANGE") (unflatten root.path)

/-- {lit}`check_missing_roots` -/
def checkMissingRoots (os : Os σ δ) (fuel : Nat) : Notifier σ Unit := do
  (List.range (← get).roots.length).forM (checkMissingRootAt os fuel)

/-! ## Sessions -/

/-- What one turn of {lit}`main_loop` does. -/
inductive Action
  | updateRoots (newRoots : List Bytes)
  | inotifyInput
  | missingRootTick
deriving DecidableEq, Repr

/-- One turn of {lit}`main_loop`.  The result says whether the loop goes on. -/
def perform (os : Os σ δ) (fuel : Nat) : Action → Notifier σ Bool
  | .updateRoots newRoots => updateRoots os fuel newRoots
  | .inotifyInput => processInotifyInput os (inotifyCallback os) fuel
  | .missingRootTick => do
      checkMissingRoots os fuel
      pure true

/-- The notifier after {lit}`init_inotify`: nothing is watched and no root is known. -/
def start (os : σ) (watchCount : Nat) (h : 0 < watchCount) : State σ where
  os := os
  watches := Table.create watchCount h
  heap := Heap.empty
  roots := []
  limitReached := false
  stdout := []

/-- The states a session can be in between two turns of the main loop. -/
inductive Reachable (os : Os σ δ) (init : State σ) : State σ → Prop
  | start : Reachable os init init
  | turn {s s' : State σ} (fuel : Nat) (action : Action) (goesOn : Bool) :
      Reachable os init s → (perform os fuel action).run s = .ok (goesOn, s') →
      Reachable os init s'

end FsNotifier
end IdeMultiarch
