import IdeMultiarch.FsNotifier.Calls

/-!
# fsnotifier - reports

The main loop with a log of what it reports beside it: events, appearances and disappearances of
roots, messages and lists of unwatchable paths.  The log also notes the roots that a session is
given and the unwatchable mounts among which it registers them.  Erasing the log gives back the
functions of the source.

Main results:

- Theorem {lit}`performLogged_erased`: erasing the log gives a turn of the main loop.
- Theorem {lit}`Reachable.exists_log`: every session has a log.
- Theorem {lit}`LoggedSession.keeps`: what each turn keeps holds in every session.
-/

namespace IdeMultiarch
namespace FsNotifier

open Library

variable {σ δ : Type}

/-! ## Reports -/

/-- The words by which events are reported. -/
inductive EventWord
  | CREATE
  | CHANGE
  | STATS
  | DELETE
deriving DecidableEq, Repr

/-- What a session reports, in the order in which it does.  {lit}`check_missing_roots` reports that
a root has appeared, after it has recorded the answer of {lit}`watch`; {lit}`check_root_removal`
reports that it has disappeared.  The first two entries are notes that are not written: the roots of
a command, and the roots with the unwatchable mounts once all of them have been registered. -/
inductive Report
  | updating (newRoots : List Bytes)
  | registered (newRoots mounts : List Bytes)
  | event (word : EventWord) (path : Bytes)
  | appeared (root : Nat) (id : Int) (path : Bytes)
  | disappeared (root : Nat) (path : Bytes)
  | reset
  | message (text : Bytes)
  | unwatchable (paths : List Bytes)
  | gaveUp
deriving DecidableEq, Repr

/-- The events {lit}`inotify_callback` reports before it looks for a removed root. -/
def maskReports (path : Bytes) (event : UInt32) : List Report :=
  if anyBit event (IN_CREATE ||| IN_MOVED_TO) then
    [.event .CREATE path, .event .CHANGE path]
  else if anyBit event IN_MODIFY then
    [.event .CHANGE path]
  else if anyBit event IN_ATTRIB then
    [.event .STATS path]
  else if anyBit event (IN_DELETE ||| IN_MOVED_FROM) then
    [.event .DELETE path]
  else
    []

/-! ## Logged turns -/

/-- The message about the watch limit, if the flag was raised in between. -/
def limitReport (before after : Bool) : List Report :=
  if !before && after then [.message (cstr "inotify.watch.limit")] else []

/-- Run functions of {lit}`inotify.c` and note whether they report that the watch limit is reached. -/
def noteLimit {α : Type} (m : Notifier σ α) : Notifier σ (α × List Report) := do
  let before := (← get).limitReached
  let a ← m
  let after := (← get).limitReached
  pure (a, limitReport before after)

theorem wp_noteLimit {tol : Fault → Prop} {α : Type} (m : Notifier σ α)
    (Q : α × List Report → State σ → Prop) (s : State σ) :
    wp tol (noteLimit m) Q s ↔
      wp tol m (fun a t => Q (a, limitReport s.limitReached t.limitReached) t) s := by
  unfold noteLimit
  rw [wp_bind, wp_get, wp_bind]
  rfl

/-- Run a logged step for every index, one after the other. -/
def collect (f : Nat → Notifier σ (List Report)) : List Nat → Notifier σ (List Report)
  | [] => pure []
  | i :: is => do
      let reports ← f i
      let rest ← collect f is
      pure (reports ++ rest)

/-- The body of the loop of {lit}`check_missing_roots`, with its reports. -/
def checkMissingRootAtLogged (os : Os σ δ) (fuel : Nat) (i : Nat) :
    Notifier σ (List Report) := do
  match (← get).roots[i]? with
  | none => pure []
  | some root =>
      if root.id < 0 then do
        match ← sys os (.stat (unflatten root.path)) with
        | .error _ => pure []
        | .ok _ => do
            let (id, said) ← noteLimit (watch os fuel root.path [])
            modify fun s => { s with roots := s.roots.set i { root with id := id } }
            reportEvent (cstr "CREATE") (unflatten root.path)
            reportEvent (cstr "CHANGE") (unflatten root.path)
            pure (said ++ [.appeared i id (unflatten root.path)])
      else
        pure []

/-- {lit}`check_missing_roots`, with its reports. -/
def checkMissingRootsLogged (os : Os σ δ) (fuel : Nat) : Notifier σ (List Report) := do
  collect (checkMissingRootAtLogged os fuel) (List.range (← get).roots.length)

/-- The body of the loop of {lit}`check_root_removal`, with its reports. -/
def checkRootRemovalAtLogged (os : Os σ δ) (path : Bytes) (i : Nat) :
    Notifier σ (List Report) := do
  match (← get).roots[i]? with
  | none => pure []
  | some root =>
      if 0 ≤ root.id ∧ path = unflatten root.path then do
        unwatch os root.id
        modify fun s => { s with roots := s.roots.set i { root with id := -1 } }
        reportEvent (cstr "DELETE") path
        pure [.disappeared i path]
      else
        pure []

/-- {lit}`check_root_removal`, with its reports. -/
def checkRootRemovalLogged (os : Os σ δ) (path : Bytes) : Notifier σ (List Report) := do
  collect (checkRootRemovalAtLogged os path) (List.range (← get).roots.length)

/-- {lit}`inotify_callback`, with its reports. -/
def inotifyCallbackLogged (os : Os σ δ) (path : Bytes) (event : UInt32) :
    Notifier σ (List Report) := do
  reportMask path event
  if anyBit event (IN_DELETE_SELF ||| IN_MOVE_SELF) then do
    let reports ← checkRootRemovalLogged os path
    pure (maskReports path event ++ reports)
  else if anyBit event IN_UNMOUNT then do
    output (cstr "RESET")
    pure (maskReports path event ++ [.reset])
  else
    pure (maskReports path event)

/-- {lit}`process_inotify_event`, with its reports. -/
def processInotifyEventLogged (os : Os σ δ) (fuel : Nat) (event : InotifyEvent) :
    Notifier σ (Bool × List Report) := do
  match ← tableGet event.wd with
  | none => pure (true, [])
  | some a => do
      let node ← deref a
      let path := eventPath node event
      let reports ← inotifyCallbackLogged os path event.mask
      if anyBit event.mask IN_ISDIR then do
        let (ok, said) ← noteLimit (processDirEvent os fuel a path event.mask)
        pure (ok, reports ++ said)
      else
        pure (true, reports)

/-- The loop over a buffer of events, with its reports. -/
def processEventsLogged (os : Os σ δ) (fuel : Nat) :
    List InotifyEvent → Notifier σ (Bool × List Report)
  | [] => pure (true, [])
  | event :: events =>
      if anyBit event.mask IN_IGNORED then
        processEventsLogged os fuel events
      else if anyBit event.mask IN_Q_OVERFLOW then
        processEventsLogged os fuel events
      else do
        let (ok, reports) ← processInotifyEventLogged os fuel event
        if !ok then
          pure (false, reports)
        else do
          let (ok, rest) ← processEventsLogged os fuel events
          pure (ok, reports ++ rest)

/-- {lit}`update_roots`, with its reports. -/
def updateRootsLogged (os : Os σ δ) (fuel : Nat) (newRoots : List Bytes) :
    Notifier σ (Bool × List Report) := do
  unregisterRoots os
  if newRoots = [] then do
    output (cstr "UNWATCHEABLE\n#")
    pure (true, [.updating newRoots, .unwatchable []])
  else if newRoots = [cstr "/"] then do
    output (cstr "UNWATCHEABLE\n/\n#")
    pure (true, [.updating newRoots, .unwatchable [cstr "/"]])
  else do
    match ← unwatchableMounts os with
    | none => pure (false, [.updating newRoots])
    | some mounts => do
        let ((registered, unwatchable), said) ←
          noteLimit (registerRoots os fuel mounts newRoots [])
        if !registered then
          pure (false, .updating newRoots :: said)
        else do
          output (cstr "UNWATCHEABLE")
          unwatchable.forM output
          output (cstr "#")
          pure (true, .updating newRoots :: .registered newRoots mounts ::
            (said ++ [.unwatchable unwatchable]))

/-- One turn of the main loop, with its reports. -/
def performLogged (os : Os σ δ) (fuel : Nat) : Action → Notifier σ (Bool × List Report)
  | .updateRoots newRoots => updateRootsLogged os fuel newRoots
  | .inotifyInput => do
      match ← sys os .read with
      | .error _ => pure (false, [])
      | .ok events => processEventsLogged os fuel events
  | .missingRootTick => do
      let reports ← checkMissingRootsLogged os fuel
      pure (true, reports)

/-! ## Erasing the log -/

section Erasure

variable {os : Os σ δ}

theorem noteLimit_erased {α : Type} (m : Notifier σ α) :
    (do let r ← noteLimit m; pure r.1) = m := by
  unfold noteLimit
  simp only [bind_assoc, pure_bind]
  have hread : ∀ s, (do let a ← m; let _ ← get; pure a : Notifier σ α).run s = m.run s := by
    intro s
    rw [StateT.run_bind]
    cases m.run s with
    | ok r => rfl
    | error e => rfl
  exact StateT.ext hread

/-- What follows may look at the result only. -/
theorem noteLimit_bind {α β : Type} (m : Notifier σ α) (f : α → Notifier σ β) :
    (do let r ← noteLimit m; f r.1) = m >>= f := by
  conv_rhs => rw [← noteLimit_erased m]
  simp

/-- Erasing the log of a loop. -/
theorem collect_erased {f : Nat → Notifier σ (List Report)} {g : Nat → Notifier σ Unit}
    (hfg : ∀ i, (do let _ ← f i; pure ()) = g i) (is : List Nat) :
    (do let _ ← collect f is; pure ()) = is.forM g := by
  induction is with
  | nil => simp [collect]
  | cons i is ih =>
      rw [List.forM_eq_forM] at ih ⊢
      rw [List.forM_cons, ← hfg i, ← ih]
      simp [collect]

theorem checkMissingRootAtLogged_erased (fuel i : Nat) :
    (do let _ ← checkMissingRootAtLogged os fuel i; pure ()) = checkMissingRootAt os fuel i := by
  unfold checkMissingRootAtLogged checkMissingRootAt
  rw [bind_assoc]
  refine bind_congr fun s => ?_
  cases s.roots[i]? with
  | none => simp
  | some root =>
      dsimp only
      split
      · rw [bind_assoc]
        refine bind_congr fun answer => ?_
        cases answer with
        | error e => simp
        | ok type =>
            dsimp only
            rw [← noteLimit_bind (watch os fuel root.path []), bind_assoc]
            refine bind_congr fun r => ?_
            simp
      · simp

theorem checkRootRemovalAtLogged_erased (path : Bytes) (i : Nat) :
    (do let _ ← checkRootRemovalAtLogged os path i; pure ()) = checkRootRemovalAt os path i := by
  unfold checkRootRemovalAtLogged checkRootRemovalAt
  rw [bind_assoc]
  refine bind_congr fun s => ?_
  cases s.roots[i]? with
  | none => simp
  | some root =>
      dsimp only
      split
      · simp
      · simp

theorem inotifyCallbackLogged_erased (path : Bytes) (event : UInt32) :
    (do let _ ← inotifyCallbackLogged os path event; pure ()) = inotifyCallback os path event := by
  have hremoval : (do let _ ← checkRootRemovalLogged os path; pure ()) =
      checkRootRemoval os path := by
    unfold checkRootRemovalLogged checkRootRemoval
    rw [bind_assoc]
    refine bind_congr fun s => ?_
    exact collect_erased (fun i => checkRootRemovalAtLogged_erased path i) _
  unfold inotifyCallbackLogged inotifyCallback
  rw [bind_assoc]
  refine bind_congr fun _ => ?_
  split
  · rw [← hremoval]
    simp
  · split
    · simp
    · simp

theorem processInotifyEventLogged_erased (fuel : Nat) (event : InotifyEvent) :
    (do let r ← processInotifyEventLogged os fuel event; pure r.1) =
      processInotifyEvent os (inotifyCallback os) fuel event := by
  unfold processInotifyEventLogged processInotifyEvent
  rw [bind_assoc]
  refine bind_congr fun found => ?_
  cases found with
  | none => simp
  | some a =>
      dsimp only
      rw [bind_assoc]
      refine bind_congr fun node => ?_
      rw [← inotifyCallbackLogged_erased, bind_assoc, bind_assoc]
      refine bind_congr fun reports => ?_
      rw [pure_bind]
      split
      · conv_rhs => rw [← noteLimit_erased (processDirEvent os fuel a _ _)]
        simp
      · simp

theorem processEventsLogged_erased (fuel : Nat) (events : List InotifyEvent) :
    (do let r ← processEventsLogged os fuel events; pure r.1) =
      processEvents os (inotifyCallback os) fuel events := by
  induction events with
  | nil => simp [processEventsLogged, processEvents]
  | cons event events ih =>
      unfold processEventsLogged processEvents
      split
      · exact ih
      · split
        · exact ih
        · rw [← processInotifyEventLogged_erased, bind_assoc, bind_assoc]
          refine bind_congr fun r => ?_
          cases hok : r.1 with
          | false => simp [hok]
          | true => simp [hok, ← ih]

theorem updateRootsLogged_erased (fuel : Nat) (newRoots : List Bytes) :
    (do let r ← updateRootsLogged os fuel newRoots; pure r.1) = updateRoots os fuel newRoots := by
  unfold updateRootsLogged updateRoots
  rw [bind_assoc]
  refine bind_congr fun _ => ?_
  split
  · simp
  · split
    · simp
    · rw [bind_assoc]
      refine bind_congr fun mounts => ?_
      cases mounts with
      | none => simp
      | some mounts =>
          dsimp only
          rw [← noteLimit_bind (registerRoots os fuel mounts newRoots []), bind_assoc]
          refine bind_congr fun r => ?_
          obtain ⟨⟨registered, unwatchable⟩, said⟩ := r
          cases registered with
          | false => simp
          | true => simp

/-- Erasing the log gives a turn of the main loop. -/
theorem performLogged_erased (fuel : Nat) (action : Action) :
    (do let r ← performLogged os fuel action; pure r.1) = perform os fuel action := by
  cases action with
  | updateRoots newRoots => exact updateRootsLogged_erased fuel newRoots
  | inotifyInput =>
      unfold performLogged perform processInotifyInput
      dsimp only
      rw [bind_assoc]
      refine bind_congr fun answer => ?_
      cases answer with
      | error e => simp
      | ok events => exact processEventsLogged_erased fuel events
  | missingRootTick =>
      have hloop : (do let _ ← checkMissingRootsLogged os fuel; pure ()) =
          checkMissingRoots os fuel := by
        unfold checkMissingRootsLogged checkMissingRoots
        rw [bind_assoc]
        refine bind_congr fun s => ?_
        exact collect_erased (fun i => checkMissingRootAtLogged_erased fuel i) _
      unfold performLogged perform
      dsimp only
      rw [← hloop, bind_assoc, bind_assoc]
      refine bind_congr fun reports => ?_
      simp

end Erasure

/-! ## Rules -/

section Rules

variable {os : Os σ δ} {J : List Report → State σ → Prop}

/-- A loop keeps what each logged step keeps of the log so far and the state. -/
theorem wp_collect {f : Nat → Notifier σ (List Report)}
    (hf : ∀ i log s, J log s →
      wp (fun _ => True) (f i) (fun reports t => J (log ++ reports) t) s) (is : List Nat) :
    ∀ log s, J log s →
      wp (fun _ => True) (collect f is) (fun reports t => J (log ++ reports) t) s := by
  induction is with
  | nil =>
      intro log s h
      unfold collect
      rw [wp_pure, List.append_nil]
      exact h
  | cons i is ih =>
      intro log s h
      unfold collect
      rw [wp_bind]
      refine wp_weaken (hf i log s h) fun first s₁ h₁ => ?_
      rw [wp_bind]
      refine wp_weaken (ih (log ++ first) s₁ h₁) fun rest s₂ h₂ => ?_
      rw [wp_pure, ← List.append_assoc]
      exact h₂

/-- A buffer of events keeps what each event keeps. -/
theorem wp_processEventsLogged {fuel : Nat} {events : List InotifyEvent}
    (hevent : ∀ event ∈ events, ∀ log s, J log s →
      wp (fun _ => True) (processInotifyEventLogged os fuel event)
        (fun r t => J (log ++ r.2) t) s) :
    ∀ log s, J log s →
      wp (fun _ => True) (processEventsLogged os fuel events)
        (fun r t => J (log ++ r.2) t) s := by
  induction events with
  | nil =>
      intro log s h
      unfold processEventsLogged
      rw [wp_pure, List.append_nil]
      exact h
  | cons event events ih =>
      intro log s h
      obtain ⟨hfirst, hrest⟩ := List.forall_mem_cons.mp hevent
      unfold processEventsLogged
      split
      · exact ih hrest log s h
      · split
        · exact ih hrest log s h
        · rw [wp_bind]
          refine wp_weaken (hfirst log s h) fun r s₁ h₁ => ?_
          obtain ⟨ok, first⟩ := r
          cases ok with
          | false => exact h₁
          | true =>
              dsimp only
              rw [if_neg (by simp), wp_bind]
              refine wp_weaken (ih hrest (log ++ first) s₁ h₁) fun r s₂ h₂ => ?_
              rw [wp_pure, ← List.append_assoc]
              exact h₂

end Rules

/-! ## Commands -/

/-- Reports that may follow the note about a command. -/
def Report.IsAnswer : Report → Prop
  | .registered _ _ => True
  | .message _ => True
  | .unwatchable _ => True
  | _ => False

theorem isAnswer_of_mem_limitReport {before after : Bool} {report : Report}
    (hmem : report ∈ limitReport before after) : report.IsAnswer := by
  unfold limitReport at hmem
  split at hmem
  · rw [List.mem_singleton.mp hmem]
    trivial
  · contradiction

/-- The reports of a command start with the note about it. -/
theorem wp_updateRootsLogged (os : Os σ δ) (fuel : Nat) (newRoots : List Bytes) (s : State σ) :
    wp (fun _ => True) (updateRootsLogged os fuel newRoots) (fun r _ =>
      ∃ answers, r.2 = .updating newRoots :: answers ∧ ∀ report ∈ answers, report.IsAnswer) s := by
  unfold updateRootsLogged
  rw [wp_bind]
  refine wp_of_all (fun _ s₁ => ?_) s
  split
  · exact ⟨_, rfl, by simp [Report.IsAnswer]⟩
  · split
    · exact ⟨_, rfl, by simp [Report.IsAnswer]⟩
    · rw [wp_bind]
      refine wp_of_all (fun mounts s₂ => ?_) s₁
      cases mounts with
      | none => exact ⟨[], rfl, by simp⟩
      | some mounts =>
          dsimp only
          rw [wp_bind, wp_noteLimit]
          refine wp_of_all (fun r s₃ => ?_) s₂
          split
          · exact ⟨_, rfl, fun _ hmem => isAnswer_of_mem_limitReport hmem⟩
          · rw [wp_bind, wp_output, wp_bind]
            refine wp_of_all (fun _ s₄ => ⟨_, rfl, ?_⟩) _
            rw [List.forall_mem_cons]
            refine ⟨trivial, fun report hmem => ?_⟩
            rcases List.mem_append.mp hmem with hmem | hmem
            · exact isAnswer_of_mem_limitReport hmem
            · rw [List.mem_singleton.mp hmem]
              trivial

/-! ## Sessions with a log -/

/-- The states between two turns of the main loop, with everything reported so far. -/
inductive LoggedSession (os : Os σ δ) (init : State σ) : List Report → State σ → Prop
  | start : LoggedSession os init [] init
  | turn {log reports : List Report} {s s' : State σ} (fuel : Nat) (action : Action)
      (goesOn : Bool) : LoggedSession os init log s →
      (performLogged os fuel action).run s = .ok ((goesOn, reports), s') →
      LoggedSession os init (log ++ reports) s'

/-- What every turn keeps of the log so far and the state holds in every session. -/
theorem LoggedSession.keeps {os : Os σ δ} {init : State σ} {J : List Report → State σ → Prop}
    (hstart : J [] init)
    (hturn : ∀ fuel action log s, J log s →
      wp (fun _ => True) (performLogged os fuel action) (fun r t => J (log ++ r.2) t) s)
    {log : List Report} {s : State σ} (hs : LoggedSession os init log s) : J log s := by
  induction hs with
  | start => exact hstart
  | turn fuel action goesOn _ hrun ih =>
      have hafter := run_of_wp (hturn fuel action _ _ ih) hrun
      exact hafter

/-- Every session has a log. -/
theorem Reachable.exists_log {os : Os σ δ} {init s : State σ} (hs : Reachable os init s) :
    ∃ log, LoggedSession os init log s := by
  induction hs with
  | start => exact ⟨[], .start⟩
  | turn fuel action goesOn _ hrun ih =>
      obtain ⟨log, hlog⟩ := ih
      rw [← performLogged_erased] at hrun
      obtain ⟨⟨ok, reports⟩, t, hlogged, hpure⟩ := run_bind_eq_ok hrun
      cases hpure
      exact ⟨_, hlog.turn fuel action ok hlogged⟩

end FsNotifier
end IdeMultiarch
