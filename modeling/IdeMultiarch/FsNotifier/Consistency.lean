import IdeMultiarch.FsNotifier.World

/-!
# fsnotifier - consistency of whole sessions

Every turn of the main loop keeps the watch forest consistent: nodes, slots, kid and
parent pointers agree, every tree hangs off a registered root, and the kernel watches
nothing the notifier has forgotten.  No turn follows a pointer to a freed node, and
dropping all roots leaves nothing behind.

Main results:

- Theorem {lit}`wp_perform`: one turn of the main loop.
- Theorem {lit}`Reachable.good`: every state between two turns.
- Theorem {lit}`watch_forest_consistent`: consistency, safety and freedom from leaks.
-/

namespace IdeMultiarch
namespace FsNotifier

open Library

variable {σ δ : Type}

/-! ## Event masks -/

/-- What holds of every event type, alone and with the directory bit, holds of the mask.  The test
goes through the list, and not through all masks. -/
theorem SingleType.elim {mask : UInt32} {P : UInt32 → Prop} [DecidablePred P]
    (h : SingleType mask)
    (hP : eventTypes.all (fun t => decide (P t ∧ P (t ||| IN_ISDIR))) = true) : P mask := by
  obtain ⟨t, ht, hmask⟩ := h
  have hboth : P t ∧ P (t ||| IN_ISDIR) := of_decide_eq_true (List.all_eq_true.mp hP t ht)
  rcases hmask with rfl | rfl
  · exact hboth.1
  · exact hboth.2

theorem SingleType.not_contradictory {mask : UInt32} (h : SingleType mask) :
    ¬ Contradictory mask :=
  h.elim (P := fun mask => ¬ (anyBit mask (IN_CREATE ||| IN_MOVED_TO) = true ∧
    anyBit mask (IN_DELETE ||| IN_MOVED_FROM) = true)) (by decide)

/-- An event about the watched directory itself neither brings nor takes away a kid. -/
theorem SingleType.self_quiet {mask : UInt32} (h : SingleType mask)
    (hself : anyBit mask (IN_DELETE_SELF ||| IN_MOVE_SELF) = true) :
    anyBit mask (IN_CREATE ||| IN_MOVED_TO) = false ∧
      anyBit mask (IN_DELETE ||| IN_MOVED_FROM) = false :=
  h.elim (P := fun mask => anyBit mask (IN_DELETE_SELF ||| IN_MOVE_SELF) = true →
    anyBit mask (IN_CREATE ||| IN_MOVED_TO) = false ∧
      anyBit mask (IN_DELETE ||| IN_MOVED_FROM) = false) (by decide) hself

/-! ## Trees hang off registered roots -/

/-- The top of every tree of nodes is the watch of one of the given roots. -/
def TopsRegistered (roots : List WatchRoot) (h : Heap WatchNode) : Prop :=
  ∀ ⦃b n⦄, h.get b = some n → n.parent = none → ∃ root ∈ roots, root.id = n.wd

/-- The invariant of a session. -/
structure Good {os : Os σ δ} {capacity : Nat} (K : KernelView os capacity) (s : State σ) : Prop where
  inv : Inv K s
  tops : TopsRegistered s.roots s.heap

section Sessions

variable {os : Os σ δ} {capacity : Nat} {K : KernelView os capacity}

theorem Good.frame {s : State σ} (h : Good K s) (limit : Bool) (out : Bytes) :
    Good K { s with limitReached := limit, stdout := out } :=
  ⟨h.inv.frame s.roots limit out, h.tops⟩

theorem Good.look {s : State σ} (h : Good K s) (c : SysCall δ) (hc : c.Looks) :
    Good K { s with os := (os c s.os).2 } :=
  ⟨h.inv.look c hc, h.tops⟩

/-- A step that adds no new top keeps the tops registered. -/
theorem Good.of_walked {P : Bytes → Prop} {s s' : State σ} (h : Good K s) (hinv : Inv K s')
    (hw : Walked P s s') (htop : NoNewTop s s') : Good K s' := by
  refine ⟨hinv, ?_⟩
  intro b n' hn' hpar
  by_cases hb : b < s.heap.next
  · obtain ⟨n, hn, hsame⟩ := hw.old hn' hb
    rw [hw.roots, hsame.wd]
    exact h.tops hn (hsame.parent.symm.trans hpar)
  · exact absurd hpar (htop hn' (Nat.le_of_not_lt hb))

/-! ## Watching a root -/

/-- What {lit}`watch` does from {lit}`s` when it returns {lit}`r`. -/
structure WatchResult {os : Os σ δ} {capacity : Nat} (K : KernelView os capacity) (root : Bytes) (s : State σ) (r : Int)
    (s' : State σ) : Prop where
  inv : Inv K s'
  walked : Walked (InReach (splitRoot root).1 (rootPath root)) s s'
  top : ∀ {b n'}, s'.heap.get b = some n' → s.heap.next ≤ b → n'.parent = none → (n'.wd : Int) = r

theorem WatchResult.of_walk {root : Bytes} {recursive : Bool} {s s' : State σ} {r : Int} {o : σ}
    (h : WalkResult K recursive (rootPath root) none { s with os := o } r s')
    (hrec : recursive = true → (splitRoot root).1 = true) : WatchResult K root s r s' := by
  refine ⟨h.inv, (h.walked.mono ?_).of_call, fun hn hb hp => (h.top hn hb hp).2⟩
  rintro p (hp | ⟨hr, hp⟩)
  · exact Or.inl hp
  · exact Or.inr ⟨hrec hr, hp⟩

/-- {lit}`watch` keeps the invariant; a new top is the watch it returns. -/
theorem wp_watch {fuel : Nat} {root : Bytes} {mounts : List Bytes} {s : State σ}
    (h : Inv K s) : wp fuelOnly (watch os fuel root mounts) (WatchResult K root s) s := by
  unfold watch
  rw [wp_bind, wp_sys]
  have h₁ := h.look (.stat (splitRoot root).2) trivial
  have hnone : ∀ heap, ParentAbove heap none (rootPath root) := by
    intro heap p hp
    contradiction
  have hsame : ∀ r, WatchResult K root s r
      { s with os := (os (.stat (splitRoot root).2) s.os).2 } := by
    intro r
    refine ⟨h₁, .of_same rfl rfl rfl, ?_⟩
    intro b n' hn' hb _
    rw [s.heap.fresh b hb] at hn'
    contradiction
  cases hans : (os (.stat (splitRoot root).2) s.os).1 with
  | error e =>
      dsimp only
      split
      · exact hsame _
      · split
        · exact hsame _
        · exact hsame _
  | ok type =>
      cases type with
      | reg =>
          exact wp_weaken (wp_walkTree _ _ _ _ _ _ h₁ (hnone _)) fun r s' hr =>
            WatchResult.of_walk hr (by simp)
      | dir =>
          exact wp_weaken (wp_walkTree _ _ _ _ _ _ h₁ (hnone _)) fun r s' hr =>
            WatchResult.of_walk hr id
      | other => exact hsame _

/-- A registered root accounts for the top its watch has added. -/
theorem WatchResult.tops {root : Bytes} {s s' : State σ} {r : Int}
    (hr : WatchResult K root s r s') (h : TopsRegistered s.roots s.heap)
    {roots : List WatchRoot} (hold : ∀ x ∈ s.roots, 0 ≤ x.id → x ∈ roots)
    (hnew : 0 ≤ r → ∃ x ∈ roots, x.id = r) : TopsRegistered roots s'.heap := by
  intro b n' hn' hpar
  by_cases hb : b < s.heap.next
  · obtain ⟨n, hn, hsame⟩ := hr.walked.old hn' hb
    obtain ⟨x, hx, hid⟩ := h hn (hsame.parent.symm.trans hpar)
    exact ⟨x, hold x hx (by omega), by rw [hid, hsame.wd]⟩
  · have hwd := hr.top hn' (Nat.le_of_not_lt hb) hpar
    obtain ⟨x, hx, hid⟩ := hnew (by omega)
    exact ⟨x, hx, hid.trans hwd.symm⟩

/-- What {lit}`register_roots` records of a root whose watch returned {lit}`id`. -/
def State.record (s : State σ) (root : Bytes) (id : Int) : State σ :=
  if 0 ≤ id ∨ id = ERR_MISSING then { s with roots := s.roots ++ [⟨root, id⟩] } else s

/-- {lit}`register_roots` keeps a session good. -/
theorem wp_registerRoots {fuel : Nat} {mounts : List Bytes} (newRoots : List Bytes) :
    ∀ (unwatchable : List Bytes) (s : State σ), Good K s →
      wp fuelOnly (registerRoots os fuel mounts newRoots unwatchable)
        (fun _ s' => Good K s') s := by
  induction newRoots with
  | nil => intro unwatchable s h; exact h
  | cons newRoot newRoots ih =>
      intro unwatchable s h
      unfold registerRoots
      dsimp only
      split
      · exact ih _ s h
      · split
        · exact ih _ s h
        · rw [wp_bind]
          refine wp_weaken (wp_watch h.inv) fun r s₁ hr => ?_
          have hroots : s₁.roots = s.roots := hr.walked.roots
          have hfail : ¬ 0 ≤ r → Good K s₁ := by
            intro hneg
            have htops : TopsRegistered s₁.roots s₁.heap := hr.tops h.tops
              (fun x hx _ => by rw [hroots]; exact hx) (fun hr => absurd hr hneg)
            exact ⟨hr.inv, htops⟩
          split
          · rw [wp_bind, wp_modify]
            refine ih _ _ ⟨hr.inv.frame _ _ _, hr.tops h.tops ?_ ?_⟩
            · intro x hx _
              rw [hroots]
              exact List.mem_append_left _ hx
            · intro _
              exact ⟨⟨newRoot, r⟩, by simp, rfl⟩
          · rename_i hno
            have hneg : ¬ 0 ≤ r := fun hr => hno (Or.inl hr)
            split
            · exact hfail hneg
            · split
              · exact ih _ _ (hfail hneg)
              · exact ih _ _ (hfail hneg)

/-! ## Dropping roots -/

/-- Unwatching shrinks the forest and leaves no node with the descriptor. -/
theorem wp_unwatch {tol : Fault → Prop} {s : State σ} (h : Inv K s) (id : Int) :
    wp tol (unwatch os id)
      (fun _ s' => Shrunk K s s' ∧ ∀ b n, s'.heap.get b = some n → (n.wd : Int) ≠ id) s := by
  refine wp_weaken (wp_rmWatch h id) fun _ s' hs' => ⟨hs'.1, ?_⟩
  intro b n hn hwd
  exact hs'.1.gone (by rw [hwd]; exact hs'.2) hn rfl

/-- The tops left after a root was unwatched belong to the other roots. -/
theorem Shrunk.tops {s s' : State σ} (hs : Shrunk K s s') {roots roots' : List WatchRoot}
    (h : TopsRegistered roots s.heap) {id : Int}
    (hgone : ∀ b n, s'.heap.get b = some n → (n.wd : Int) ≠ id)
    (hrest : ∀ x ∈ roots, x.id ≠ id → x ∈ roots') : TopsRegistered roots' s'.heap := by
  intro b n' hn' hpar
  obtain ⟨n, hn, hsame⟩ := hs.old hn'
  obtain ⟨x, hx, hid⟩ := h hn (hsame.parent.symm.trans hpar)
  have hid' : x.id = n'.wd := by rw [hid, hsame.wd]
  exact ⟨x, hrest x hx fun hx' => hgone b n' hn' (hid'.symm.trans hx'), hid'⟩

/-- One round of {lit}`unregister_roots`. -/
theorem wp_unregisterLast {tol : Fault → Prop} {s : State σ} (h : Good K s) :
    wp tol (unregisterLast os)
      (fun _ s' => Good K s' ∧ s'.roots = s.roots.dropLast) s := by
  unfold unregisterLast
  rw [wp_bind, wp_get]
  cases hlast : s.roots.getLast? with
  | none =>
      rw [List.getLast?_eq_none_iff] at hlast
      exact ⟨h, by rw [hlast]; rfl⟩
  | some root =>
      dsimp only
      rw [wp_bind, wp_modify]
      have hinv := h.inv.frame s.roots.dropLast s.limitReached s.stdout
      refine wp_weaken (wp_unwatch hinv root.id) fun _ s' hs' => ?_
      obtain ⟨hshrunk, hgone⟩ := hs'
      refine ⟨⟨hshrunk.inv, hshrunk.tops h.tops hgone ?_⟩, hshrunk.roots⟩
      intro x hx hid
      rw [← List.dropLast_append_getLast? _ hlast] at hx
      rw [hshrunk.roots]
      rcases List.mem_append.mp hx with hx | hx
      · exact hx
      · exact absurd (by rw [List.mem_singleton.mp hx]) hid

/-- {lit}`unregister_roots` ends with no roots, whatever the world answers. -/
theorem wp_unregisterRoots {tol : Fault → Prop} {s : State σ} (h : Good K s) :
    wp tol (unregisterRoots os) (fun _ s' => Good K s' ∧ s'.roots = []) s := by
  unfold unregisterRoots
  rw [wp_bind, wp_get]
  refine wp_weaken (wp_forM (fun l s' => Good K s' ∧ s'.roots.length = l.length) ?_ _ s
    ⟨h, by simp⟩) ?_
  · intro _ xs s₁ ⟨hgood, hlen⟩
    refine wp_weaken (wp_unregisterLast hgood) fun _ s₂ hs₂ => ⟨hs₂.1, ?_⟩
    rw [hs₂.2, List.length_dropLast, hlen]
    rfl
  · intro _ s' ⟨hgood, hlen⟩
    exact ⟨hgood, List.eq_nil_of_length_eq_zero hlen⟩

/-- {lit}`update_roots` keeps a session good. -/
theorem wp_updateRoots {fuel : Nat} {newRoots : List Bytes} {s : State σ} (h : Good K s) :
    wp fuelOnly (updateRoots os fuel newRoots) (fun _ s' => Good K s') s := by
  unfold updateRoots
  rw [wp_bind]
  refine wp_weaken (wp_unregisterRoots h) fun _ s₁ hs₁ => ?_
  split
  · exact hs₁.1.frame _ _
  · split
    · exact hs₁.1.frame _ _
    · unfold unwatchableMounts
      rw [wp_bind, wp_bind, wp_sys]
      have h₂ := hs₁.1.look .getmntent trivial
      cases hans : (os .getmntent s₁.os).1 with
      | none => exact h₂
      | some entries =>
          rw [wp_pure, wp_bind]
          refine wp_weaken (wp_registerRoots newRoots [] _ h₂) fun r s₃ h₃ => ?_
          dsimp only
          split
          · exact h₃
          · rw [wp_bind, wp_output, wp_bind]
            refine wp_weaken (wp_forM (fun _ s' => Good K s') ?_ _ _ (h₃.frame _ _)) ?_
            · intro x xs s₄ h₄
              exact h₄.frame _ _
            · intro _ s₄ h₄
              exact h₄.frame _ _

/-- One round of {lit}`check_root_removal`. -/
theorem wp_checkRootRemovalAt {path : Bytes} {i : Nat} {s : State σ} (h : Good K s) :
    wp fuelOnly (checkRootRemovalAt os path i) (fun _ s' => Good K s') s := by
  unfold checkRootRemovalAt
  rw [wp_bind, wp_get]
  cases hroot : s.roots[i]? with
  | none => exact h
  | some root =>
      dsimp only
      split
      · rw [wp_bind]
        refine wp_weaken (wp_unwatch h.inv root.id) fun _ s' hs' => ?_
        obtain ⟨hshrunk, hgone⟩ := hs'
        refine ⟨hshrunk.inv.frame _ _ _, hshrunk.tops h.tops hgone ?_⟩
        intro x hx hid
        obtain ⟨j, hj⟩ := List.mem_iff_getElem?.mp hx
        have hij : i ≠ j := by
          rintro rfl
          rw [hroot] at hj
          cases hj
          exact hid rfl
        refine List.mem_iff_getElem?.mpr ⟨j, ?_⟩
        change (s'.roots.set i _)[j]? = _
        rw [hshrunk.roots, List.getElem?_set_ne hij, hj]
      · exact h

/-- One round of {lit}`check_missing_roots`. -/
theorem wp_checkMissingRootAt {fuel i : Nat} {s : State σ} (h : Good K s) :
    wp fuelOnly (checkMissingRootAt os fuel i) (fun _ s' => Good K s') s := by
  unfold checkMissingRootAt
  rw [wp_bind, wp_get]
  cases hroot : s.roots[i]? with
  | none => exact h
  | some root =>
      dsimp only
      split
      · rename_i hneg
        rw [wp_bind, wp_sys]
        have h₁ := h.look (.stat (unflatten root.path)) trivial
        cases hans : (os (.stat (unflatten root.path)) s.os).1 with
        | error e => exact h₁
        | ok type =>
            dsimp only
            rw [wp_bind]
            refine wp_weaken (wp_watch h₁.inv) fun r s' hr => ?_
            refine ⟨hr.inv.frame _ _ _, hr.tops h₁.tops ?_ ?_⟩
            · intro x hx hid
              obtain ⟨j, hj⟩ := List.mem_iff_getElem?.mp hx
              have hij : i ≠ j := by
                rintro rfl
                rw [hroot] at hj
                cases hj
                omega
              refine List.mem_iff_getElem?.mpr ⟨j, ?_⟩
              have hroots : s'.roots = s.roots := hr.walked.roots
              change (s'.roots.set i _)[j]? = _
              rw [hroots, List.getElem?_set_ne hij, hj]
            · intro _
              refine ⟨{ root with id := r }, ?_, rfl⟩
              have hi : i < s'.roots.length := by
                rw [hr.walked.roots]
                exact (List.getElem?_eq_some_iff.mp hroot).1
              exact List.mem_iff_getElem?.mpr ⟨i, by
                change (s'.roots.set i _)[i]? = _
                rw [List.getElem?_set_self hi]⟩
      · exact h

/-! ## Events -/

/-- {lit}`inotify_callback` keeps a session good; unless the event is about the watched
directory itself, it only writes output. -/
theorem wp_inotifyCallback {path : Bytes} {mask : UInt32} {s : State σ} (h : Good K s) :
    wp fuelOnly (inotifyCallback os path mask) (fun _ s' => Good K s' ∧
      (anyBit mask (IN_DELETE_SELF ||| IN_MOVE_SELF) = false →
        ∃ out, s' = { s with stdout := out })) s := by
  unfold inotifyCallback
  rw [wp_bind]
  apply wp_reportMask
  intro out
  have h₁ : Good K { s with stdout := out } := h.frame s.limitReached out
  split
  · rename_i hself
    unfold checkRootRemoval
    rw [wp_bind, wp_get]
    refine wp_weaken (wp_forM (fun _ s' => Good K s') ?_ _ _ h₁) ?_
    · intro i is s₂ h₂
      exact wp_checkRootRemovalAt h₂
    · intro _ s₂ h₂
      exact ⟨h₂, fun hno => by rw [hself] at hno; contradiction⟩
  · split
    · exact ⟨h₁.frame _ _, fun _ => ⟨_, rfl⟩⟩
    · exact ⟨h₁, fun _ => ⟨_, rfl⟩⟩

/-- One event keeps a session good, and only trouble stops the main loop. -/
theorem wp_processInotifyEvent {fuel : Nat} {event : InotifyEvent} {s : State σ}
    (h : Good K s) (hsingle : SingleType event.mask) :
    wp fuelOnly (processInotifyEvent os (inotifyCallback os) fuel event)
      (fun ok s' => Good K s' ∧ (ok = false → K.Trouble s'.os)) s := by
  unfold processInotifyEvent
  rw [wp_bind, wp_tableGet]
  cases hget : s.watches.get event.wd with
  | none => exact ⟨h, fun hf => absurd hf (by simp)⟩
  | some a =>
      obtain ⟨n, hn⟩ := h.inv.wellLinked.slotted.live_of_get hget
      dsimp only
      rw [wp_bind, wp_deref hn, wp_bind]
      refine wp_weaken (wp_inotifyCallback h) fun _ s₁ hs₁ => ?_
      obtain ⟨h₁, hquiet⟩ := hs₁
      split
      · cases hself : anyBit event.mask (IN_DELETE_SELF ||| IN_MOVE_SELF) with
        | true =>
            -- the node may be gone, but nothing follows the pointer
            obtain ⟨hadd, hdel⟩ := hsingle.self_quiet hself
            unfold processDirEvent
            dsimp only
            rw [hadd, hdel]
            exact ⟨h₁, fun hf => absurd hf (by simp)⟩
        | false =>
            obtain ⟨out, rfl⟩ := hquiet hself
            refine wp_weaken (wp_processDirEvent h₁.inv hn (isParentPath_eventPath n event)
              hsingle.not_contradictory) fun ok s' hr => ?_
            exact ⟨h₁.of_walked hr.inv hr.walked hr.top, hr.stop⟩
      · exact ⟨h₁, fun hf => absurd hf (by simp)⟩

/-- So does a whole buffer of events. -/
theorem wp_processEvents {fuel : Nat} (events : List InotifyEvent) :
    ∀ s : State σ, Good K s → (∀ event ∈ events, SingleType event.mask) →
      wp fuelOnly (processEvents os (inotifyCallback os) fuel events)
        (fun ok s' => Good K s' ∧ (ok = false → K.Trouble s'.os)) s := by
  induction events with
  | nil =>
      intro s h _
      exact ⟨h, fun hf => absurd hf (by simp)⟩
  | cons event events ih =>
      intro s h hsingle
      have hrest : ∀ e ∈ events, SingleType e.mask := fun e he =>
        hsingle e (List.mem_cons_of_mem _ he)
      unfold processEvents
      split
      · exact ih s h hrest
      · split
        · exact ih s h hrest
        · rw [wp_bind]
          refine wp_weaken (wp_processInotifyEvent h (hsingle event (by simp))) fun ok s₁ hs₁ => ?_
          cases ok with
          | true => exact ih s₁ hs₁.1 hrest
          | false => exact hs₁

/-- {lit}`process_inotify_input` keeps a session good, and only trouble or a failed
{lit}`read` stops the main loop. -/
theorem wp_processInotifyInput {fuel : Nat} {s : State σ} (h : Good K s)
    (hsingle : SingleEvents os) :
    wp fuelOnly (processInotifyInput os (inotifyCallback os) fuel)
      (fun ok s' => Good K s' ∧ (ok = false → K.Trouble s'.os ∨
        ∃ e, (os .read s.os).1 = .error e)) s := by
  unfold processInotifyInput
  rw [wp_bind, wp_sys]
  have h₁ := h.look .read trivial
  cases hans : (os .read s.os).1 with
  | error e => exact ⟨h₁, fun _ => Or.inr ⟨e, rfl⟩⟩
  | ok events =>
      exact wp_weaken (wp_processEvents events _ h₁ (hsingle s.os events hans)) fun ok s' hs' =>
        ⟨hs'.1, fun hok => Or.inl (hs'.2 hok)⟩

/-! ## Whole sessions -/

/-- One turn of the main loop keeps a session good. -/
theorem wp_perform {fuel : Nat} {action : Action} {s : State σ} (h : Good K s)
    (hsingle : SingleEvents os) :
    wp fuelOnly (perform os fuel action) (fun _ s' => Good K s') s := by
  cases action with
  | updateRoots newRoots => exact wp_updateRoots h
  | inotifyInput => exact wp_weaken (wp_processInotifyInput h hsingle) fun _ _ hs' => hs'.1
  | missingRootTick =>
      unfold perform checkMissingRoots
      dsimp only
      rw [wp_bind, wp_bind, wp_get]
      refine wp_weaken (wp_forM (fun _ s' => Good K s') ?_ _ _ h) fun _ s' hs' => hs'
      intro i is s₁ h₁
      exact wp_checkMissingRootAt h₁

/-- A notifier that watches nothing is good. -/
theorem good_start {o : σ} {watchCount : Nat} {K : KernelView os watchCount}
    (hpos : 0 < watchCount) (hfresh : ∀ w, ¬ K.watched o w) : Good K (start o watchCount hpos) := by
  refine ⟨⟨rfl, .empty watchCount hpos, ?_, ?_, fun _ w hw => absurd hw (hfresh w)⟩, ?_⟩
  all_goals simp [start, TopsRegistered]

/-- Between two turns of the main loop the session is good. -/
theorem Reachable.good {init s : State σ} (hr : Reachable os init s) (hinit : Good K init)
    (hsingle : SingleEvents os) : Good K s := by
  induction hr with
  | start => exact hinit
  | turn fuel action goesOn _ hrun ih =>
      have hturn := run_of_wp (wp_perform ih hsingle) hrun
      exact hturn

/-! ## Consistency and freedom from leaks -/

/-- One step down from a node to one of its kids. -/
def KidOf (h : Heap WatchNode) (a b : Nat) : Prop :=
  ∃ n, h.get a = some n ∧ some b ∈ n.kids

/-- Consistency of the watch table, the nodes, the registered roots and the kernel. -/
structure Consistent (K : KernelView os capacity) (s : State σ) : Prop where
  slot : ∀ a n, s.heap.get a = some n → s.watches.get n.wd = some a
  kids : ∀ a n b, s.heap.get a = some n → some b ∈ n.kids →
    ∃ m, s.heap.get b = some m ∧ m.parent = some a
  parent : ∀ b m a, s.heap.get b = some m → m.parent = some a →
    ∃ n, s.heap.get a = some n ∧ some b ∈ n.kids
  rooted : ∀ a n, s.heap.get a = some n → ∃ top m, s.heap.get top = some m ∧
    (∃ root ∈ s.roots, root.id = m.wd) ∧ Relation.ReflTransGen (KidOf s.heap) top a
  covered : ¬ K.clash s.os → ∀ wd, K.watched s.os wd → ∃ a n, s.heap.get a = some n ∧ n.wd = wd

/-- Climbing parent pointers from any node ends at the watch of a registered root. -/
theorem Good.rooted {s : State σ} (h : Good K s) (a : Nat) :
    ∀ n, s.heap.get a = some n → ∃ top m, s.heap.get top = some m ∧
      (∃ root ∈ s.roots, root.id = m.wd) ∧ Relation.ReflTransGen (KidOf s.heap) top a := by
  induction a using Nat.strongRecOn with
  | ind a ih =>
      intro n hn
      cases hpar : n.parent with
      | none => exact ⟨a, n, hn, h.tops hn hpar, .refl⟩
      | some p =>
          obtain ⟨np, hnp, hkid⟩ := h.inv.wellLinked.linked.parent_live hn hpar
          have hlt : p < a := h.inv.wellLinked.linked.older hn hpar
          obtain ⟨top, m, hm, hroot, hpath⟩ := ih p hlt np hnp
          exact ⟨top, m, hm, hroot, hpath.tail ⟨np, hnp, hkid⟩⟩

theorem Good.consistent {s : State σ} (h : Good K s) : Consistent K s where
  slot _ _ hn := h.inv.wellLinked.slotted.get_of_node hn
  kids _ _ _ hn hb := h.inv.wellLinked.linked.kid_live hn hb
  parent _ _ _ hm hp := h.inv.wellLinked.linked.parent_live hm hp
  rooted := h.rooted
  covered := h.inv.covered

/-- Without roots there are no nodes. -/
theorem Good.no_nodes {s : State σ} (h : Good K s) (hroots : s.roots = []) (a : Nat) :
    s.heap.get a = none := by
  cases hn : s.heap.get a with
  | none => rfl
  | some n =>
      obtain ⟨top, m, -, ⟨root, hroot, -⟩, -⟩ := h.rooted a n hn
      rw [hroots] at hroot
      contradiction

/-- Whatever the world does and whatever the notifier is told, the watch forest is
consistent between any two turns of the main loop, no turn reads a freed node, and
dropping all roots empties the table and leaves no kernel watch behind. -/
theorem watch_forest_consistent {watchCount : Nat} (K : KernelView os watchCount)
    (hsingle : SingleEvents os) {o : σ} (hpos : 0 < watchCount)
    (hfresh : ∀ w, ¬ K.watched o w) {s : State σ}
    (hreach : Reachable os (start o watchCount hpos) s) :
    Consistent K s ∧
    (∀ fuel action address,
      (perform os fuel action).run s ≠ .error (.useAfterFree address)) ∧
    ∃ s', (unregisterRoots os).run s = .ok ((), s') ∧
      (∀ k, s'.watches.data k = none) ∧ (∀ a, s'.heap.get a = none) ∧
      (¬ K.clash s'.os → ∀ wd, ¬ K.watched s'.os wd) := by
  have hgood : Good K s := hreach.good (good_start hpos hfresh) hsingle
  refine ⟨hgood.consistent, ?_, ?_⟩
  · intro fuel action address hrun
    have hfault := fault_of_wp (wp_perform hgood hsingle) hrun
    exact absurd hfault (by unfold fuelOnly; simp)
  · have hdrop : wp (fun _ => False) (unregisterRoots os)
        (fun _ s' => Good K s' ∧ s'.roots = []) s := wp_unregisterRoots hgood
    obtain ⟨_, s', hrun, hgood', hroots⟩ := exists_run_of_wp hdrop
    have hnone := hgood'.no_nodes hroots
    refine ⟨s', hrun, ?_, hnone, ?_⟩
    · intro k
      cases hk : s'.watches.data k with
      | none => rfl
      | some a =>
          obtain ⟨n, hn, -⟩ := hgood'.inv.wellLinked.slotted.of_slot hk
          rw [hnone a] at hn
          contradiction
    · intro hclash wd hwd
      obtain ⟨a, n, hn, -⟩ := hgood'.inv.covered hclash wd hwd
      rw [hnone a] at hn
      contradiction

end Sessions

/-- Registering {lit}`/r`, which has directories, and then the event of a new one there lead to a
consistent forest that can be dropped again. -/
theorem watch_forest_consistent_tree :
    ∃ s s', (perform (worldOs createInTree) 9 (.updateRoots [cstr "/r"])).run
        (start smallTree 8 (by decide)) = .ok (true, s) ∧
      (perform (worldOs createInTree) 9 .inotifyInput).run s = .ok (true, s') ∧
      s.heap.next = 3 ∧ s'.heap.next = 4 ∧ Consistent (worldView createInTree 8) s' ∧
      ∃ s'', (unregisterRoots (worldOs createInTree)).run s' = .ok ((), s'') ∧
        ∀ a, s''.heap.get a = none := by
  have hcheck : returned ((perform (worldOs createInTree) 9 (.updateRoots [cstr "/r"])).run
      (start smallTree 8 (by decide))) true (fun s => decide (s.heap.next = 3) &&
        returned ((perform (worldOs createInTree) 9 .inotifyInput).run s) true
          (fun s' => decide (s'.heap.next = 4))) = true := by decide +kernel
  obtain ⟨s, hrun, htest⟩ := exists_of_returned hcheck
  obtain ⟨hnext, hinput⟩ := Bool.and_eq_true_iff.mp htest
  obtain ⟨s', hrun', hnext'⟩ := exists_of_returned hinput
  obtain ⟨hconsistent, -, s'', hdrop, -, hheap, -⟩ := watch_forest_consistent
    (worldView createInTree 8) (worldOs_singleEvents _) (by decide)
    (by rintro w ⟨k, hk, -⟩; simp [smallTree, oneDirectory] at hk)
    (Reachable.turn 9 .inotifyInput true
      (Reachable.turn 9 (.updateRoots [cstr "/r"]) true Reachable.start hrun) hrun')
  exact ⟨s, s', hrun, hrun', of_decide_eq_true hnext, of_decide_eq_true hnext', hconsistent, s'',
    hdrop, hheap⟩

end FsNotifier
end IdeMultiarch
