import IdeMultiarch.FsNotifier.Main

/-!
# fsnotifier - what the functions of inotify.c may change

The functions of {lit}`inotify.c` change the state in a few ways only: they call the system, change
the forest of watch nodes, and report once that the watch limit is reached.  A preorder on states
along which these steps go is therefore respected by every one of them.  One such preorder comes
from a preorder on worlds along which every system call goes; that one is respected by the
functions of {lit}`main.c` as well.

Main results:

- Theorem {lit}`respects_walkTree`: walking a tree goes along such a preorder.
- Theorem {lit}`respects_processDirEvent`: so does the handling of a directory event.
- Theorem {lit}`respects_perform`: a whole turn of the main loop changes the world through
  calls only.
-/

namespace IdeMultiarch
namespace FsNotifier

open Library

variable {σ δ : Type}

/-! ## Preorders -/

/-- What {lit}`watch_limit_reached` writes. -/
def limitMessage : Bytes :=
  cstr "MESSAGE" ++ [newline] ++ cstr "inotify.watch.limit" ++ [newline]

/-- The nodes keep their paths when the forest of {lit}`s` becomes {lit}`heap`, and none is added. -/
def KeepsPaths (s : State σ) (heap : Heap WatchNode) : Prop :=
  ∀ b n', heap.get b = some n' → ∃ n, s.heap.get b = some n ∧ n'.path = n.path

/-- A preorder on states along which system calls go and changes of the forest that add no
nodes. -/
structure ForestOrder (os : Os σ δ) (R : State σ → State σ → Prop) : Prop where
  refl : ∀ s, R s s
  trans : ∀ s t u, R s t → R t u → R s u
  call : ∀ c s, R s { s with os := (os c s.os).2 }
  forest : ∀ s watches heap, KeepsPaths s heap → R s { s with watches := watches, heap := heap }

/-- A preorder on states along which all steps of {lit}`inotify.c` go, as long as the paths of new
nodes are ones that {lit}`P` allows: also a new node, and the message about the watch limit. -/
structure StepOrder (os : Os σ δ) (P : Bytes → Prop) (R : State σ → State σ → Prop) : Prop
    extends ForestOrder os R where
  alloc : ∀ s node, P node.path → R s { s with heap := s.heap.alloc node }
  entry : ∀ path dir o entry dir', P path → (os (.readdir dir) o).1 = some (entry, dir') →
    P (path ++ slash :: entry.name)
  limit : ∀ s, s.limitReached = false →
    R s { s with limitReached := true, stdout := s.stdout ++ limitMessage }

/-- A preorder on worlds along which every system call goes. -/
structure CallOrder (os : Os σ δ) (R : σ → σ → Prop) : Prop where
  refl : ∀ o, R o o
  trans : ∀ o o' o'', R o o' → R o' o'' → R o o''
  call : ∀ c o, R o (os c o).2

/-- The relation between the worlds of two states. -/
def OnOs (R : σ → σ → Prop) (s t : State σ) : Prop :=
  R s.os t.os

/-- The steps of {lit}`inotify.c` change the world through calls only. -/
theorem CallOrder.steps {os : Os σ δ} {R : σ → σ → Prop} (h : CallOrder os R) :
    StepOrder os (fun _ => True) (OnOs R) where
  refl s := h.refl s.os
  trans _ _ _ := h.trans _ _ _
  call c s := h.call c s.os
  forest s _ _ _ := h.refl s.os
  alloc s _ _ := h.refl s.os
  entry _ _ _ _ _ _ _ := trivial
  limit s _ := h.refl s.os

section Forest

variable {os : Os σ δ} {R : State σ → State σ → Prop} (h : ForestOrder os R)
include h

theorem respects_pure {α : Type} (a : α) : Respects R (pure a : Notifier σ α) :=
  .pure h.refl a

theorem respects_bind {α β : Type} {m : Notifier σ α} {f : α → Notifier σ β}
    (hm : Respects R m) (hf : ∀ a, Respects R (f a)) : Respects R (m >>= f) :=
  .bind h.trans hm hf

theorem respects_forM {α : Type} {f : α → Notifier σ Unit} (hf : ∀ a, Respects R (f a))
    (l : List α) : Respects R (l.forM f) :=
  .forM h.refl h.trans hf l

theorem respects_get : Respects R (get : Notifier σ (State σ)) :=
  .get h.refl

/-- A system call, followed by what depends on its answer. -/
theorem respects_sys_bind {α : Type} (c : SysCall δ) {f : c.Answer → Notifier σ α}
    (hf : ∀ o, Respects R (f (os c o).1)) : Respects R (sys os c >>= f) := by
  intro s a t hrun
  obtain ⟨answer, s₁, hsys, hrest⟩ := run_bind_eq_ok hrun
  cases hsys
  exact h.trans _ _ _ (h.call c s) (hf s.os _ _ _ hrest)

theorem respects_sys (c : SysCall δ) : Respects R (sys os c) := by
  intro s a t hrun
  cases hrun
  exact h.call c s

theorem respects_deref (a : Nat) : Respects R (deref a : Notifier σ WatchNode) := by
  refine respects_bind h (respects_get h) fun s => ?_
  split
  · exact respects_pure h _
  · exact .throw _

/-- Changing a node, but not its path. -/
theorem respects_update (a : Nat) {f : WatchNode → WatchNode} (hf : ∀ n, (f n).path = n.path) :
    Respects R (update a f : Notifier σ Unit) := by
  refine respects_bind h (respects_deref h a) fun _ => .modify fun s => h.forest s s.watches _ ?_
  intro b n' hn'
  rw [Heap.modify_get] at hn'
  split at hn'
  · rename_i hba
    obtain ⟨n, hn, rfl⟩ := Option.map_eq_some_iff.mp hn'
    exact ⟨n, hba ▸ hn, hf n⟩
  · exact ⟨n', hn', rfl⟩

theorem respects_free (a : Nat) : Respects R (free a : Notifier σ Unit) := by
  refine .modify fun s => h.forest s s.watches _ ?_
  intro b n' hn'
  rw [Heap.free_get] at hn'
  split at hn'
  · contradiction
  · exact ⟨n', hn', rfl⟩

theorem respects_tableGet (wd : Int) : Respects R (tableGet wd : Notifier σ (Option Nat)) :=
  respects_bind h (respects_get h) fun _ => respects_pure h _

theorem respects_tablePut (wd : Int) (value : Option Nat) :
    Respects R (tablePut wd value : Notifier σ (Option Nat)) := by
  intro s a t hrun
  cases hrun
  exact h.forest s _ s.heap fun b n' hn' => ⟨n', hn', rfl⟩

/-! ## inotify.c -/

theorem respects_rmKids {rm : Int → Notifier σ Unit} (hrm : ∀ wd, Respects R (rm wd))
    (a : Nat) (is : List Nat) : Respects R (rmKids rm a is) := by
  induction is with
  | nil => exact respects_pure h _
  | cons i is ih =>
      refine respects_bind h (respects_deref h a) fun node => ?_
      split
      · exact ih
      · refine respects_bind h (respects_deref h _) fun kid => ?_
        exact respects_bind h (hrm _) fun _ => ih

theorem respects_rmWatchAux (fuel : Nat) :
    ∀ (wd : Int) (updateParent : Bool), Respects R (rmWatchAux os fuel wd updateParent) := by
  induction fuel with
  | zero => intro wd updateParent; exact .throw _
  | succ fuel ih =>
      intro wd updateParent
      refine respects_bind h (respects_tableGet h _) fun found => ?_
      cases found with
      | none => exact respects_pure h _
      | some a =>
          refine respects_bind h (respects_deref h a) fun node => ?_
          refine respects_bind h (respects_sys h _) fun _ => ?_
          refine respects_bind h (respects_rmKids h (fun wd => ih wd false) a _) fun _ => ?_
          refine respects_bind h (respects_deref h a) fun node' => ?_
          have hrest : Respects R (do
              free a
              let _ ← tablePut wd none
              pure () : Notifier σ Unit) :=
            respects_bind h (respects_free h a) fun _ =>
              respects_bind h (respects_tablePut h _ _) fun _ => respects_pure h _
          dsimp only
          split
          · refine respects_bind h ?_ fun _ => hrest
            unfold forgetKid
            split
            · exact respects_pure h _
            · exact respects_update h _ fun _ => rfl
          · exact hrest

/-- {lit}`rm_watch` adds no nodes and writes nothing. -/
theorem respects_rmWatch (wd : Int) (updateParent : Bool) :
    Respects R (rmWatch os wd updateParent) :=
  respects_bind h (respects_get h) fun _ => respects_rmWatchAux h _ wd updateParent

theorem respects_dropKid (a : Nat) (path : Bytes) (is : List Nat) :
    Respects R (dropKid os a path is) := by
  induction is with
  | nil => exact respects_pure h _
  | cons i is ih =>
      refine respects_bind h (respects_deref h a) fun node => ?_
      split
      · exact ih
      · refine respects_bind h (respects_deref h _) fun kid => ?_
        split
        · exact respects_bind h (respects_rmWatch h _ _) fun _ => respects_update h _ fun _ => rfl
        · exact ih

theorem respects_unregisterRoots (hpop : ∀ s, R s { s with roots := s.roots.dropLast }) :
    Respects R (unregisterRoots os) := by
  refine respects_bind h (respects_get h) fun s => respects_forM h (fun _ => ?_) _
  refine respects_bind h (respects_get h) fun s => ?_
  split
  · exact respects_pure h _
  · exact respects_bind h (.modify hpop) fun _ => respects_rmWatch h _ _

end Forest

section Steps

variable {os : Os σ δ} {P : Bytes → Prop} {R : State σ → State σ → Prop} (h : StepOrder os P R)
include h

theorem respects_watchLimitReached : Respects R (watchLimitReached : Notifier σ Unit) := by
  intro s a t hrun
  unfold watchLimitReached at hrun
  by_cases hlimit : s.limitReached = true
  · have hsame : t = s := by
      simp [StateT.run_bind, hlimit] at hrun
      cases hrun
      rfl
    rw [hsame]
    exact h.refl s
  · have hnew : t = { s with limitReached := true, stdout := s.stdout ++ limitMessage } := by
      simp [StateT.run_bind, hlimit] at hrun
      cases hrun
      simp [limitMessage]
    rw [hnew]
    exact h.limit s (by simpa using hlimit)

theorem respects_addWatch {path : Bytes} (hpath : P path) (parent : Option Nat) :
    Respects R (addWatch os path parent) := by
  have hf := h.toForestOrder
  refine respects_bind hf (respects_sys hf _) fun answer => ?_
  cases answer with
  | error e =>
      dsimp only
      split
      · exact respects_pure hf _
      · split
        · exact respects_bind hf (respects_watchLimitReached h) fun _ => respects_pure hf _
        · exact respects_pure hf _
  | ok wd =>
      refine respects_bind hf (respects_tableGet hf _) fun found => ?_
      cases found with
      | some a =>
          refine respects_bind hf (respects_deref hf a) fun node => ?_
          split
          · exact respects_pure hf _
          · split
            · refine respects_bind hf (respects_sys hf _) fun _ => ?_
              refine respects_bind hf (respects_sys hf _) fun _ => ?_
              split
              · exact respects_pure hf _
              · exact respects_pure hf _
            · exact respects_pure hf _
      | none =>
          refine respects_bind hf ?_ fun a => ?_
          · intro s a t hrun
            cases hrun
            exact h.alloc s _ hpath
          · refine respects_bind hf ?_ fun _ => ?_
            · unfold pushKid
              split
              · exact respects_pure hf _
              · exact respects_update hf _ fun _ => rfl
            · refine respects_bind hf (respects_tablePut hf _ _) fun r => ?_
              cases r with
              | none => exact respects_pure hf _
              | some _ => exact respects_pure hf _

theorem respects_walkEntries {walk : Bytes → Option Nat → Notifier σ Int}
    (hwalk : ∀ path parent, P path → Respects R (walk path parent)) {path : Bytes}
    (hpath : P path) (id : Int) :
    ∀ (fuel : Nat) (dir : δ), Respects R (walkEntries os walk fuel dir path id) := by
  have hf := h.toForestOrder
  intro fuel
  induction fuel with
  | zero => intro dir; exact .throw _
  | succ fuel ih =>
      intro dir
      refine respects_sys_bind hf _ fun o => ?_
      cases hans : (os (.readdir dir) o).1 with
      | none => exact respects_pure hf _
      | some answer =>
          obtain ⟨entry, dir'⟩ := answer
          have hentry : P (path ++ slash :: entry.name) := h.entry path dir o entry dir' hpath hans
          dsimp only
          split
          · exact ih dir'
          · refine respects_bind hf ?_ fun isDir => ?_
            · unfold entryIsDir
              split
              · exact respects_pure hf _
              · exact respects_pure hf _
              · refine respects_bind hf (respects_sys hf _) fun answer => ?_
                split
                · exact respects_pure hf _
                · exact respects_pure hf _
            · split
              · exact ih dir'
              · refine respects_bind hf (respects_tableGet hf _) fun parent => ?_
                refine respects_bind hf (hwalk _ _ hentry) fun subdirId => ?_
                split
                · exact respects_bind hf (respects_rmWatch hf _ _) fun _ => respects_pure hf _
                · exact ih dir'

/-- Walking a tree goes along the preorder. -/
theorem respects_walkTree (fuel : Nat) :
    ∀ (path : Bytes) (parent : Option Nat) (recursive : Bool) (mounts : List Bytes), P path →
      Respects R (walkTree os fuel path parent recursive mounts) := by
  have hf := h.toForestOrder
  induction fuel with
  | zero => intro path parent recursive mounts _; exact .throw _
  | succ fuel ih =>
      intro path parent recursive mounts hpath
      unfold walkTree
      split
      · exact respects_pure hf _
      · split
        · exact respects_addWatch h hpath _
        · refine respects_bind hf (respects_sys hf _) fun answer => ?_
          cases answer with
          | error e =>
              dsimp only
              split
              · exact respects_pure hf _
              · exact respects_pure hf _
          | ok dir =>
              refine respects_bind hf (respects_addWatch h hpath _) fun id => ?_
              split
              · exact respects_pure hf _
              · exact respects_walkEntries h (fun path parent => ih path parent recursive mounts)
                  hpath id fuel dir

theorem respects_watch (fuel : Nat) {root : Bytes} (hroot : P (rootPath root))
    (mounts : List Bytes) : Respects R (watch os fuel root mounts) := by
  have hf := h.toForestOrder
  refine respects_bind hf (respects_sys hf _) fun answer => ?_
  cases answer with
  | error e =>
      dsimp only
      split
      · exact respects_pure hf _
      · split
        · exact respects_pure hf _
        · exact respects_pure hf _
  | ok type =>
      cases type with
      | reg => exact respects_walkTree h _ _ _ _ _ hroot
      | dir => exact respects_walkTree h _ _ _ _ _ hroot
      | other => exact respects_pure hf _

theorem respects_processDirEvent (fuel a : Nat) {path : Bytes} (hpath : P path)
    (mask : UInt32) : Respects R (processDirEvent os fuel a path mask) := by
  have hf := h.toForestOrder
  have hdrop : ∀ result : Int, Respects R
      (if result < 0 ∧ result ≠ ERR_IGNORE ∧ result ≠ ERR_CONTINUE then pure false
      else do
        if anyBit mask (IN_DELETE ||| IN_MOVED_FROM) then
          let node ← deref a
          dropKid os a path (List.range node.kids.length)
        pure true : Notifier σ Bool) := by
    intro result
    split
    · exact respects_pure hf _
    · dsimp only
      split
      · refine respects_bind hf (respects_deref hf a) fun node => ?_
        exact respects_bind hf (respects_dropKid hf _ _ _) fun _ => respects_pure hf _
      · exact respects_pure hf _
  unfold processDirEvent
  dsimp only
  split
  · exact respects_bind hf (respects_walkTree h _ _ _ _ _ hpath) hdrop
  · exact respects_bind hf (respects_pure hf _) hdrop

theorem respects_registerRoots (fuel : Nat) (mounts newRoots : List Bytes)
    (hroots : ∀ newRoot ∈ newRoots, P (rootPath newRoot))
    (hpush : ∀ newRoot ∈ newRoots, ∀ id s, R s { s with roots := s.roots ++ [⟨newRoot, id⟩] }) :
    ∀ unwatchable, Respects R (registerRoots os fuel mounts newRoots unwatchable) := by
  have hf := h.toForestOrder
  induction newRoots with
  | nil => intro unwatchable; exact respects_pure hf _
  | cons newRoot newRoots ih =>
      intro unwatchable
      obtain ⟨hroot, hroots⟩ := List.forall_mem_cons.mp hroots
      obtain ⟨hnew, hpush⟩ := List.forall_mem_cons.mp hpush
      have hrest := ih hroots hpush
      unfold registerRoots
      dsimp only
      split
      · exact hrest _
      · split
        · exact hrest _
        · refine respects_bind hf (respects_watch h _ hroot _) fun id => ?_
          split
          · exact respects_bind hf (.modify (hnew id)) fun _ => hrest _
          · split
            · exact respects_pure hf _
            · split
              · exact hrest _
              · exact hrest _

end Steps

section Calls

variable {os : Os σ δ} {R : σ → σ → Prop} (h : CallOrder os R)
include h

theorem CallOrder.forest : ForestOrder os (OnOs R) :=
  h.steps.toForestOrder

/-! ## main.c -/

/-- Changing anything but the world. -/
theorem CallOrder.respects_modify {f : State σ → State σ} (hf : ∀ s, (f s).os = s.os) :
    Respects (OnOs R) (modify f : Notifier σ Unit) :=
  .modify fun s => by
    unfold OnOs
    rw [hf]
    exact h.refl s.os

theorem respects_output (line : Bytes) : Respects (OnOs R) (output line : Notifier σ Unit) :=
  h.respects_modify fun _ => rfl

theorem respects_reportEvent (event path : Bytes) :
    Respects (OnOs R) (reportEvent event path : Notifier σ Unit) :=
  h.respects_modify fun _ => rfl

theorem respects_processEvents {callback : Bytes → UInt32 → Notifier σ Unit}
    (hcallback : ∀ path mask, Respects (OnOs R) (callback path mask)) (fuel : Nat)
    (events : List InotifyEvent) : Respects (OnOs R) (processEvents os callback fuel events) := by
  induction events with
  | nil => exact respects_pure h.forest _
  | cons event events ih =>
      unfold processEvents
      split
      · exact ih
      · split
        · exact ih
        · refine respects_bind h.forest ?_ fun ok => ?_
          · refine respects_bind h.forest (respects_tableGet h.forest _) fun found => ?_
            cases found with
            | none => exact respects_pure h.forest _
            | some a =>
                refine respects_bind h.forest (respects_deref h.forest a) fun node => ?_
                refine respects_bind h.forest (hcallback _ _) fun _ => ?_
                split
                · exact respects_processDirEvent h.steps _ _ trivial _
                · exact respects_pure h.forest _
          · split
            · exact respects_pure h.forest _
            · exact ih

theorem respects_inotifyCallback (path : Bytes) (event : UInt32) :
    Respects (OnOs R) (inotifyCallback os path event) := by
  refine respects_bind h.forest ?_ fun _ => ?_
  · unfold reportMask
    split
    · exact respects_bind h.forest (respects_reportEvent h _ _) fun _ => respects_reportEvent h _ _
    · split
      · exact respects_reportEvent h _ _
      · split
        · exact respects_reportEvent h _ _
        · split
          · exact respects_reportEvent h _ _
          · exact respects_pure h.forest _
  · split
    · refine respects_bind h.forest (respects_get h.forest) fun s => respects_forM h.forest (fun i => ?_) _
      refine respects_bind h.forest (respects_get h.forest) fun s => ?_
      split
      · exact respects_pure h.forest _
      · split
        · refine respects_bind h.forest (respects_rmWatch h.forest _ _) fun _ => ?_
          exact respects_bind h.forest (h.respects_modify fun _ => rfl) fun _ =>
            respects_reportEvent h _ _
        · exact respects_pure h.forest _
    · split
      · exact respects_output h _
      · exact respects_pure h.forest _

theorem respects_checkMissingRootAt (fuel i : Nat) :
    Respects (OnOs R) (checkMissingRootAt os fuel i) := by
  refine respects_bind h.forest (respects_get h.forest) fun s => ?_
  split
  · exact respects_pure h.forest _
  · split
    · refine respects_bind h.forest (respects_sys h.forest _) fun answer => ?_
      cases answer with
      | error e => exact respects_pure h.forest _
      | ok type =>
          refine respects_bind h.forest (respects_watch h.steps _ trivial _) fun id => ?_
          refine respects_bind h.forest (h.respects_modify fun _ => rfl) fun _ => ?_
          exact respects_bind h.forest (respects_reportEvent h _ _) fun _ => respects_reportEvent h _ _
    · exact respects_pure h.forest _

theorem respects_checkMissingRoots (fuel : Nat) :
    Respects (OnOs R) (checkMissingRoots os fuel) :=
  respects_bind h.forest (respects_get h.forest) fun _ =>
    respects_forM h.forest (fun i => respects_checkMissingRootAt h fuel i) _

/-- A turn of the main loop changes the world through calls only. -/
theorem respects_perform (fuel : Nat) (action : Action) :
    Respects (OnOs R) (perform os fuel action) := by
  cases action with
  | updateRoots newRoots =>
      refine respects_bind h.forest
        (respects_unregisterRoots h.forest fun s => h.refl s.os) fun _ => ?_
      dsimp only
      split
      · exact respects_bind h.forest (respects_output h _) fun _ => respects_pure h.forest _
      · split
        · exact respects_bind h.forest (respects_output h _) fun _ => respects_pure h.forest _
        · refine respects_bind h.forest ?_ fun mounts => ?_
          · refine respects_bind h.forest (respects_sys h.forest _) fun answer => ?_
            cases answer with
            | none => exact respects_pure h.forest _
            | some entries => exact respects_pure h.forest _
          · cases mounts with
            | none => exact respects_pure h.forest _
            | some mounts =>
                have hregister := respects_registerRoots h.steps fuel mounts newRoots
                  (fun _ _ => trivial) (fun _ _ _ s => h.refl s.os) []
                refine respects_bind h.forest hregister fun r => ?_
                split
                · exact respects_pure h.forest _
                · refine respects_bind h.forest (respects_output h _) fun _ => ?_
                  refine respects_bind h.forest (respects_forM h.forest (fun _ => respects_output h _) _)
                    fun _ => ?_
                  exact respects_bind h.forest (respects_output h _) fun _ => respects_pure h.forest _
  | inotifyInput =>
      refine respects_bind h.forest (respects_sys h.forest _) fun answer => ?_
      cases answer with
      | error e => exact respects_pure h.forest _
      | ok events =>
          exact respects_processEvents h (fun _ _ => respects_inotifyCallback h _ _) _ _
  | missingRootTick =>
      exact respects_bind h.forest (respects_checkMissingRoots h fuel) fun _ => respects_pure h.forest _

end Calls

end FsNotifier
end IdeMultiarch
