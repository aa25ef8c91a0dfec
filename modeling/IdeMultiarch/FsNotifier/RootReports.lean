import Mathlib.Data.List.Chain
import IdeMultiarch.FsNotifier.Reports
import IdeMultiarch.FsNotifier.World

/-!
# fsnotifier - reports about whole roots

{lit}`check_missing_roots` reports that a root has appeared, {lit}`check_root_removal` that it has
disappeared.  A root that has appeared is taken for watched only if {lit}`watch` answers with a
descriptor, but it is reported in any case.

Main results:

- Theorem {lit}`LogAgrees.snoc`: one report continues a log that alternates.
- Theorem {lit}`wp_performLogged`: one turn keeps the log in step with the roots.
- Theorem {lit}`roots_reappear_once`: where restoring never fails, reports alternate.
- Theorem {lit}`root_reappears_twice`: a root that cannot be listed appears at every tick.
-/

namespace IdeMultiarch
namespace FsNotifier

open Library

variable {σ δ : Type}

/-! ## Reports about one root -/

/-- A report about the root at index {lit}`i` tells whether it is there; when the roots are
unregistered, what was reported about the old ones is forgotten. -/
def reportOn (i : Nat) (present : List Bool) : Report → List Bool
  | .updating _ => []
  | .appeared j _ _ => if j = i then present ++ [true] else present
  | .disappeared j _ => if j = i then present ++ [false] else present
  | _ => present

/-- The reports about the root registered at index {lit}`i`, in order. -/
def reportsOn (log : List Report) (i : Nat) : List Bool :=
  log.foldl (reportOn i) []

/-- Appearances and disappearances of a root strictly alternate. -/
def Alternates (log : List Report) (i : Nat) : Prop :=
  (reportsOn log i).IsChain (· ≠ ·)

/-- Whenever {lit}`check_missing_roots` restored a root, {lit}`watch` answered with a descriptor. -/
def Restored (reports : List Report) : Prop :=
  ∀ i id path, Report.appeared i id path ∈ reports → 0 ≤ id

/-! ## The log and the roots -/

theorem reportsOn_snoc (log : List Report) (report : Report) (i : Nat) :
    reportsOn (log ++ [report]) i = reportOn i (reportsOn log i) report := by
  simp [reportsOn]

theorem restored_append {log reports : List Report} :
    Restored (log ++ reports) ↔ Restored log ∧ Restored reports := by
  constructor
  · intro h
    exact ⟨fun i id path hmem => h i id path (List.mem_append_left _ hmem),
      fun i id path hmem => h i id path (List.mem_append_right _ hmem)⟩
  · rintro ⟨hlog, hreports⟩ i id path hmem
    rcases List.mem_append.mp hmem with hmem | hmem
    · exact hlog i id path hmem
    · exact hreports i id path hmem

/-- The log alternates, and its last report about a root tells whether the root is watched. -/
structure LogAgrees (log : List Report) (roots : List WatchRoot) : Prop where
  alternates : ∀ i, Alternates log i
  last : ∀ i b, (reportsOn log i).getLast? = some b →
    ∃ root, roots[i]? = some root ∧ (b = true ↔ 0 ≤ root.id)

/-- A log that tells nothing about the roots agrees with them. -/
theorem LogAgrees.of_nil {log : List Report} (h : ∀ i, reportsOn log i = [])
    (roots : List WatchRoot) : LogAgrees log roots := by
  constructor
  · intro i
    unfold Alternates
    rw [h i]
    exact List.IsChain.nil
  · intro i b hb
    rw [h i] at hb
    contradiction

/-- A report that tells nothing about roots does not matter. -/
theorem LogAgrees.other {log : List Report} {roots : List WatchRoot} (h : LogAgrees log roots)
    (report : Report) (hother : ∀ i present, reportOn i present report = present) :
    LogAgrees (log ++ [report]) roots := by
  have hsame : ∀ i, reportsOn (log ++ [report]) i = reportsOn log i := by
    intro i
    rw [reportsOn_snoc, hother]
  constructor
  · intro i
    unfold Alternates
    rw [hsame i]
    exact h.alternates i
  · intro i b hb
    rw [hsame i] at hb
    exact h.last i b hb

/-- Nor does the message about the watch limit. -/
theorem LogAgrees.limit {log : List Report} {roots : List WatchRoot} (h : LogAgrees log roots)
    (before after : Bool) : LogAgrees (log ++ limitReport before after) roots := by
  unfold limitReport
  split
  · exact h.other _ fun _ _ => rfl
  · rw [List.append_nil]
    exact h

/-- Nor do the reports about an event. -/
theorem LogAgrees.mask {log : List Report} {roots : List WatchRoot} (h : LogAgrees log roots)
    (path : Bytes) (event : UInt32) : LogAgrees (log ++ maskReports path event) roots := by
  unfold maskReports
  split
  · have htwo := (h.other (.event .CREATE path) fun _ _ => rfl).other (.event .CHANGE path)
      fun _ _ => rfl
    rw [List.append_assoc] at htwo
    exact htwo
  · split
    · exact h.other _ fun _ _ => rfl
    · split
      · exact h.other _ fun _ _ => rfl
      · split
        · exact h.other _ fun _ _ => rfl
        · rw [List.append_nil]
          exact h

/-- A report that a missing root appeared, or that a watched one disappeared, continues the
log, provided that the root is then taken for watched or missing accordingly. -/
theorem LogAgrees.snoc {log : List Report} {roots : List WatchRoot} (h : LogAgrees log roots)
    (report : Report) (present : Bool) {k : Nat} {root : WatchRoot} {id : Int}
    (habout : ∀ i before, reportOn i before report =
      if k = i then before ++ [present] else before)
    (hroot : roots[k]? = some root) (hbefore : present = true ↔ root.id < 0)
    (hafter : present = true ↔ 0 ≤ id) :
    LogAgrees (log ++ [report]) (roots.set k { root with id := id }) := by
  have hlt : k < roots.length := (List.getElem?_eq_some_iff.mp hroot).1
  constructor
  · intro i
    unfold Alternates
    rw [reportsOn_snoc, habout]
    by_cases hi : k = i
    · subst hi
      rw [if_pos rfl, List.isChain_append]
      refine ⟨h.alternates k, List.isChain_singleton _, ?_⟩
      intro b hb c hc
      obtain ⟨root', hroot', hlast⟩ := h.last k b hb
      rw [hroot] at hroot'
      cases hroot'
      rw [List.head?_cons, Option.mem_some_iff] at hc
      subst hc
      intro heq
      rw [heq, hbefore] at hlast
      omega
    · rw [if_neg hi]
      exact h.alternates i
  · intro i b hb
    rw [reportsOn_snoc, habout] at hb
    by_cases hi : k = i
    · subst hi
      rw [if_pos rfl, List.getLast?_append, List.getLast?_singleton, Option.some_or] at hb
      cases hb
      exact ⟨{ root with id := id }, List.getElem?_set_self hlt, hafter⟩
    · rw [if_neg hi] at hb
      rw [List.getElem?_set_ne hi]
      exact h.last i b hb

section Turns

variable {os : Os σ δ}

/-- The functions of {lit}`inotify.c` do not touch the roots. -/
theorem keepsRoots (os : Os σ δ) :
    StepOrder os (fun _ => True) fun s t => t.roots = s.roots where
  refl _ := rfl
  trans _ _ _ hst htu := htu.trans hst
  call _ _ := rfl
  forest _ _ _ _ := rfl
  alloc _ _ _ := rfl
  entry _ _ _ _ _ _ _ := trivial
  limit _ _ := rfl

/-- Where restoring has not failed, the log agrees with the roots. -/
def InStep (log : List Report) (s : State σ) : Prop :=
  Restored log → LogAgrees log s.roots

/-- Nothing to report, and the roots stay as they are. -/
theorem InStep.quiet {log : List Report} {s t : State σ} (h : InStep log s)
    (hroots : t.roots = s.roots) : InStep (log ++ []) t := by
  unfold InStep
  rw [List.append_nil, hroots]
  exact h

/-- One round of {lit}`check_missing_roots`. -/
theorem wp_checkMissingRootAtLogged (fuel i : Nat) (log : List Report) (s : State σ)
    (h : InStep log s) :
    wp (fun _ => True) (checkMissingRootAtLogged os fuel i)
      (fun reports t => InStep (log ++ reports) t) s := by
  unfold checkMissingRootAtLogged
  rw [wp_bind, wp_get]
  cases hroot : s.roots[i]? with
  | none => exact h.quiet rfl
  | some root =>
      dsimp only
      split
      · rename_i hmissing
        rw [wp_bind, wp_sys]
        cases (os (.stat (unflatten root.path)) s.os).1 with
        | error e => exact h.quiet rfl
        | ok type =>
            dsimp only
            rw [wp_bind, wp_noteLimit]
            refine wp_weaken ((respects_watch (keepsRoots os) fuel trivial []).wp _)
              fun id t ht => ?_
            intro hrestored
            have hid : 0 ≤ id := hrestored i id (unflatten root.path) (by simp)
            have hagrees := h (restored_append.mp hrestored).1
            change LogAgrees _ (t.roots.set i { root with id := id })
            rw [ht, ← List.append_assoc]
            refine (hagrees.limit _ _).snoc _ true (fun j before => rfl) hroot ?_ ?_
            · simpa using hmissing
            · simpa using hid
      · exact h.quiet rfl

/-- One round of {lit}`check_root_removal`. -/
theorem wp_checkRootRemovalAtLogged (path : Bytes) (i : Nat) (log : List Report)
    (s : State σ) (h : InStep log s) :
    wp (fun _ => True) (checkRootRemovalAtLogged os path i)
      (fun reports t => InStep (log ++ reports) t) s := by
  unfold checkRootRemovalAtLogged
  rw [wp_bind, wp_get]
  cases hroot : s.roots[i]? with
  | none => exact h.quiet rfl
  | some root =>
      dsimp only
      split
      · rename_i hwatched
        rw [wp_bind]
        refine wp_weaken ((respects_rmWatch (keepsRoots os).toForestOrder root.id true).wp s)
          fun _ t ht => ?_
        intro hrestored
        have hagrees := h (restored_append.mp hrestored).1
        change LogAgrees _ (t.roots.set i { root with id := -1 })
        rw [ht]
        refine hagrees.snoc _ false (fun j before => rfl) hroot ?_ ?_
        · simpa using hwatched.1
        · simp
      · exact h.quiet rfl

/-- One event. -/
theorem wp_processInotifyEventLogged (fuel : Nat) (event : InotifyEvent)
    (log : List Report) (s : State σ) (h : InStep log s) :
    wp (fun _ => True) (processInotifyEventLogged os fuel event)
      (fun r t => InStep (log ++ r.2) t) s := by
  unfold processInotifyEventLogged
  rw [wp_bind, wp_tableGet]
  cases s.watches.get event.wd with
  | none => exact h.quiet rfl
  | some a =>
      dsimp only
      rw [wp_bind]
      refine wp_weaken ((respects_deref (keepsRoots os).toForestOrder a).wp s) fun node s₁ h₁ => ?_
      rw [wp_bind]
      have hcallback : wp (fun _ => True) (inotifyCallbackLogged os (eventPath node event)
          event.mask) (fun reports t => InStep (log ++ reports) t) s₁ := by
        unfold inotifyCallbackLogged
        rw [wp_bind]
        apply wp_reportMask
        intro out
        have hmask : InStep (log ++ maskReports (eventPath node event) event.mask)
            { s₁ with stdout := out } := by
          intro hrestored
          have hagrees := h (restored_append.mp hrestored).1
          rw [← h₁] at hagrees
          exact hagrees.mask _ _
        split
        · unfold checkRootRemovalLogged
          rw [wp_bind, wp_bind, wp_get]
          refine wp_weaken (wp_collect (wp_checkRootRemovalAtLogged _) _ _ _ hmask)
            fun reports t ht => ?_
          rw [wp_pure, ← List.append_assoc]
          exact ht
        · split
          · intro hrestored
            rw [← List.append_assoc] at hrestored ⊢
            exact (hmask (restored_append.mp hrestored).1).other _ fun _ _ => rfl
          · exact hmask
      refine wp_weaken hcallback fun reports s₂ h₂ => ?_
      split
      · rw [wp_bind, wp_noteLimit]
        refine wp_weaken ((respects_processDirEvent (keepsRoots os) fuel a trivial _).wp s₂)
          fun ok s₃ h₃ => ?_
        intro hrestored
        rw [← List.append_assoc] at hrestored ⊢
        change LogAgrees _ s₃.roots
        rw [h₃]
        exact (h₂ (restored_append.mp hrestored).1).limit _ _
      · exact h₂

/-- What answers a command tells nothing about roots. -/
theorem reportsOn_answers {answers : List Report} (hanswers : ∀ report ∈ answers, report.IsAnswer)
    (i : Nat) (present : List Bool) : answers.foldl (reportOn i) present = present := by
  induction answers with
  | nil => rfl
  | cons report answers ih =>
      obtain ⟨hreport, hrest⟩ := List.forall_mem_cons.mp hanswers
      have hsame : reportOn i present report = present := by
        cases report <;> first | rfl | contradiction
      rw [List.foldl_cons, hsame]
      exact ih hrest

/-- One turn of the main loop keeps the log in step with the roots. -/
theorem wp_performLogged (fuel : Nat) (action : Action) (log : List Report) (s : State σ)
    (h : InStep log s) :
    wp (fun _ => True) (performLogged os fuel action)
      (fun r t => InStep (log ++ r.2) t) s := by
  cases action with
  | updateRoots newRoots =>
      refine wp_weaken (wp_updateRootsLogged os fuel newRoots s) fun r s' hr => ?_
      obtain ⟨answers, hreports, hanswers⟩ := hr
      intro _
      apply LogAgrees.of_nil
      intro i
      rw [hreports]
      unfold reportsOn
      rw [List.foldl_append, List.foldl_cons]
      exact reportsOn_answers hanswers i _
  | inotifyInput =>
      unfold performLogged
      rw [wp_bind, wp_sys]
      cases (os .read s.os).1 with
      | error e => exact h.quiet rfl
      | ok events =>
          exact wp_processEventsLogged (fun event _ => wp_processInotifyEventLogged fuel event)
            log _ h
  | missingRootTick =>
      unfold performLogged checkMissingRootsLogged
      rw [wp_bind, wp_bind, wp_get]
      exact wp_collect (wp_checkMissingRootAtLogged fuel) _ log s h

end Turns

/-! ## Roots that reappear -/

/-- In every session the log agrees with the roots, as long as restoring does not fail. -/
theorem LoggedSession.agrees {os : Os σ δ} {init s : State σ} {log : List Report}
    (hs : LoggedSession os init log s) : InStep log s :=
  hs.keeps (fun _ => LogAgrees.of_nil (fun _ => rfl) _) wp_performLogged

/-- A tick never ends the main loop. -/
theorem missingRootTick_goes_on {os : Os σ δ} {fuel : Nat} {s s' : State σ} {goesOn : Bool}
    {reports : List Report}
    (hrun : (performLogged os fuel .missingRootTick).run s = .ok ((goesOn, reports), s')) :
    goesOn = true := by
  obtain ⟨_, _, -, hpure⟩ := run_bind_eq_ok hrun
  cases hpure
  rfl

/-- In every session in which {lit}`watch` has answered with a descriptor whenever a root was
restored, the appearances and disappearances of every root strictly alternate.  A tick ends the
main loop upon {lit}`ERR_ABORT`, as it should, only if {lit}`watch` does not answer so. -/
theorem roots_reappear_once {os : Os σ δ} {init s : State σ} {log : List Report}
    (hs : LoggedSession os init log s) (hok : Restored log) :
    (∀ i, Alternates log i) ∧
    ∀ {fuel : Nat} {goesOn : Bool} {reports : List Report} {s' : State σ},
      (performLogged os fuel .missingRootTick).run s = .ok ((goesOn, reports), s') →
      (((∃ i path, .appeared i ERR_ABORT path ∈ reports) → goesOn = false) ↔
        ¬ ∃ i path, .appeared i ERR_ABORT path ∈ reports) := by
  refine ⟨(hs.agrees hok).alternates, ?_⟩
  intro fuel goesOn reports s' hrun
  have hgoes := missingRootTick_goes_on hrun
  subst hgoes
  simp

/-! ## A root that cannot be listed -/

/-- A world without directories but the root directory. -/
def noDirectory : World :=
  { oneDirectory with dirs := [⟨[], 1⟩], nextInode := 2 }

/-- What is reported when the missing root {lit}`/r` is registered. -/
def registeredMissing : List Report :=
  [.updating [cstr "/r"], .registered [cstr "/r"] [], .unwatchable []]

/-- The missing root {lit}`/r` is created before the first tick, removed before the first buffer of
events is read, and created again before the second tick. -/
def comeAndGo : Nat → Turn
  | 2 => { Turn.quiet with ops := [.mkdir [] (cstr "r")] }
  | 7 => { Turn.quiet with ops := [.rmdir [] (cstr "r")] }
  | 9 => { Turn.quiet with ops := [.mkdir [] (cstr "r")] }
  | _ => Turn.quiet

/-- A root that comes and goes is reported so. -/
theorem roots_reappear_once_comeAndGo :
    ∃ s, LoggedSession (worldOs comeAndGo) (start noDirectory 8 (by decide))
        (registeredMissing ++ [.appeared 0 1 (cstr "/r")] ++ [.disappeared 0 (cstr "/r")] ++
          [.appeared 0 2 (cstr "/r")]) s ∧
      ∀ i, Alternates (registeredMissing ++ [.appeared 0 1 (cstr "/r")] ++
        [.disappeared 0 (cstr "/r")] ++ [.appeared 0 2 (cstr "/r")]) i := by
  have hcheck : returned ((performLogged (worldOs comeAndGo) 5 (.updateRoots [cstr "/r"])).run
      (start noDirectory 8 (by decide))) (true, registeredMissing)
      (fun s₁ => returned ((performLogged (worldOs comeAndGo) 5 .missingRootTick).run s₁)
        (true, [.appeared 0 1 (cstr "/r")])
        (fun s₂ => returned ((performLogged (worldOs comeAndGo) 5 .inotifyInput).run s₂)
          (true, [.disappeared 0 (cstr "/r")])
          (fun s₃ => returned ((performLogged (worldOs comeAndGo) 5 .missingRootTick).run s₃)
            (true, [.appeared 0 2 (cstr "/r")]) (fun _ => true)))) = true := by
    decide +kernel
  obtain ⟨s₁, hrun₁, hcheck⟩ := exists_of_returned hcheck
  obtain ⟨s₂, hrun₂, hcheck⟩ := exists_of_returned hcheck
  obtain ⟨s₃, hrun₃, hcheck⟩ := exists_of_returned hcheck
  obtain ⟨s₄, hrun₄, -⟩ := exists_of_returned hcheck
  have hs := (((LoggedSession.start.turn _ _ _ hrun₁).turn _ _ _ hrun₂).turn _ _ _ hrun₃).turn
    _ _ _ hrun₄
  rw [List.nil_append] at hs
  refine ⟨s₄, hs, (roots_reappear_once hs ?_).1⟩
  intro i id path hmem
  simp [registeredMissing] at hmem
  omega

/-- The missing root {lit}`/r` is created before the first tick.  It cannot be listed then, and at the
second tick the kernel refuses to watch it. -/
def unlistable : Nat → Turn
  | 2 => { Turn.quiet with ops := [.mkdir [] (cstr "r")] }
  | 4 => { Turn.quiet with deny := some .EACCES }
  | 8 => { Turn.quiet with deny := some (.other 5) }
  | _ => Turn.quiet

/-- The root is reported to appear at both ticks although it has not disappeared in between, and
{lit}`ERR_ABORT` does not end the main loop. -/
theorem root_reappears_twice :
    ∃ s₂ s₃, LoggedSession (worldOs unlistable) (start noDirectory 8 (by decide))
        (registeredMissing ++ [.appeared 0 ERR_IGNORE (cstr "/r")]) s₂ ∧
      (performLogged (worldOs unlistable) 5 .missingRootTick).run s₂ =
        .ok ((true, [.appeared 0 ERR_ABORT (cstr "/r")]), s₃) ∧
      ¬ Alternates (registeredMissing ++ [.appeared 0 ERR_IGNORE (cstr "/r")] ++
        [.appeared 0 ERR_ABORT (cstr "/r")]) 0 := by
  have hcheck : returned ((performLogged (worldOs unlistable) 5 (.updateRoots [cstr "/r"])).run
      (start noDirectory 8 (by decide))) (true, registeredMissing)
      (fun s₁ => returned ((performLogged (worldOs unlistable) 5 .missingRootTick).run s₁)
        (true, [.appeared 0 ERR_IGNORE (cstr "/r")])
        (fun s₂ => returned ((performLogged (worldOs unlistable) 5 .missingRootTick).run s₂)
          (true, [.appeared 0 ERR_ABORT (cstr "/r")]) (fun _ => true))) = true := by
    decide +kernel
  obtain ⟨s₁, hrun₁, hcheck⟩ := exists_of_returned hcheck
  obtain ⟨s₂, hrun₂, hcheck⟩ := exists_of_returned hcheck
  obtain ⟨s₃, hrun₃, -⟩ := exists_of_returned hcheck
  have hs := (LoggedSession.start.turn _ _ _ hrun₁).turn _ _ _ hrun₂
  rw [List.nil_append] at hs
  refine ⟨s₂, s₃, hs, hrun₃, ?_⟩
  unfold Alternates
  decide

end FsNotifier
end IdeMultiarch
