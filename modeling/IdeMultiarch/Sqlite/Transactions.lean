import IdeMultiarch.Sqlite.BackupRuns

/-!
# Sqlite - what transactions leave

A database has a value: what was committed last.  A transaction that writes may put pages into the
file before it ends, and a running copy is told about them, but if it is rolled back the value is
what it was.  So a copy never shows what was not committed.

Main results:

- Theorem {lit}`value_happen`: only a commit and a change by another connection give a database
  another value.
- Theorem {lit}`backup_of_uncommitted`: a copy shows nothing of transactions that are rolled back.
-/

namespace IdeMultiarch
namespace Sqlite

open Library (Image)

/-! ## The value of a database -/

/-- What was committed last. -/
def SourcePager.value (src : SourcePager) : Pages :=
  src.saved.getD src.file

/-- There are no pages behind the end. -/
def Pages.Whole (pages : Pages) : Prop :=
  pages.cut pages.count = pages

/-- The pages before a transaction can be restored: those that were changed are in the journal. -/
structure SourcePager.Restorable (src : SourcePager) : Prop where
  whole : src.value.Whole
  idle : src.saved = none → ∀ i, src.cache i = none
  clean : src.modified = false → (∀ i, src.cache i = none) ∧ src.file = src.value
  journaled : ∀ saved, src.saved = some saved → ∀ i ≤ saved.count, i ∉ src.journal →
    src.file.page i = saved.page i ∧ src.cache i = none

/-- An event neither commits nor comes from another connection. -/
def Event.Uncommitted : Event → Prop
  | .commit _ _ _ => False
  | .external _ => False
  | _ => True

section Values

variable {z : PageSizes} {s : System} {put : Nat → PageAnswer} {stale : Nat → Page}

theorem cut_whole (pages : Pages) (count : Nat) : (pages.cut count).Whole := by
  unfold Pages.Whole Pages.cut
  dsimp only
  congr 1
  funext i
  split
  · rfl
  · rfl

theorem writePage_src (z : PageSizes) (put : Nat → PageAnswer) (stale : Nat → Page) (i : Nat)
    (content : Option Page) (s : System) :
    (writePage z put stale i content s).src = { s.src with
      file := { s.src.file with page := Function.update s.src.file.page i content } } := by
  unfold writePage backupUpdate
  split
  · rfl
  · rfl

/-- The pages in the journal are as they were, and the others stay. -/
theorem playback_src (put : Nat → PageAnswer) (stale : Nat → Page) (saved : Pages)
    (journal : List Nat) (s : System) :
    (playback z put stale saved journal s).src = { s.src with
      file := { s.src.file with
        page := fun i => if i ∈ journal then saved.page i else s.src.file.page i } } := by
  induction journal generalizing s with
  | nil => rfl
  | cons j journal ih =>
      rw [playback, ih, writePage_src]
      dsimp only
      congr 2
      funext i
      by_cases hmem : i ∈ journal
      · rw [if_pos hmem, if_pos (List.mem_cons_of_mem _ hmem)]
      · rw [if_neg hmem]
        by_cases hij : i = j
        · rw [hij, Function.update_self, if_pos List.mem_cons_self]
        · rw [Function.update_of_ne hij, if_neg (by simp [hij, hmem])]

/-- A transaction is over. -/
theorem SourcePager.Restorable.close {file : Pages} (h : file.Whole) (src : SourcePager) :
    { src with
      file := file, saved := none, cache := fun _ => none, journal := [], modified := false,
      spilled := false }.Restorable where
  whole := h
  idle _ _ := rfl
  clean _ := ⟨fun _ => rfl, rfl⟩
  journaled _ hsaved := by cases hsaved

/-- Locks have nothing to do with the pages. -/
theorem SourcePager.Restorable.lock {src : SourcePager} (h : src.Restorable) (reading changed : Bool) :
    { src with reading := reading, changed := changed }.Restorable :=
  ⟨h.whole, h.idle, h.clean, h.journaled⟩

/-- A page that was not written yet belongs to a transaction. -/
theorem SourcePager.Restorable.exists_saved {src : SourcePager} (h : src.Restorable) {i : Nat}
    {data : Page} (hdata : src.cache i = some data) :
    (∃ saved, src.saved = some saved) ∧ src.modified = true := by
  constructor
  · rw [← Option.ne_none_iff_exists']
    intro hnone
    rw [h.idle hnone i] at hdata
    cases hdata
  · rw [← Bool.not_eq_false]
    intro hclean
    rw [(h.clean hclean).1 i] at hdata
    cases hdata

/-- What is played back is the database before the transaction. -/
theorem cut_playback (h : s.src.WellFormed) (hr : s.src.Restorable) {saved : Pages}
    (hsaved : s.src.saved = some saved) (put : Nat → PageAnswer) (stale : Nat → Page) :
    (if s.src.spilled then playback z put stale saved s.src.journal s else s).src.file.cut
      saved.count = saved := by
  have hwhole : saved.Whole := by
    have hvalue := hr.whole
    rwa [SourcePager.value, hsaved] at hvalue
  split
  · rw [playback_src]
    refine Eq.trans ?_ hwhole
    unfold Pages.cut
    dsimp only
    congr 1
    funext i
    split
    next hle =>
      by_cases hmem : i ∈ s.src.journal
      · rw [if_pos hmem]
      · rw [if_neg hmem, (hr.journaled saved hsaved i hle hmem).1]
    next => rfl
  next hspilled =>
    rw [h.untouched saved hsaved (Bool.eq_false_of_not_eq_true hspilled)]
    exact hwhole

theorem restorable_beginRead (hr : s.src.Restorable) :
    (s.happen z .beginRead).src.Restorable := by
  unfold System.happen
  dsimp only
  split
  · exact hr
  · rw [lockSource_src]
    exact hr.lock true false

/-- A transaction begins with the pages that it finds. -/
theorem SourcePager.Restorable.begin {src : SourcePager} (h : src.Restorable)
    (hidle : src.saved = none) : { src with saved := some src.file }.Restorable where
  whole := by
    have hwhole := h.whole
    rwa [SourcePager.value, hidle] at hwhole
  idle hsome := by cases hsome
  clean _ := ⟨h.idle hidle, rfl⟩
  journaled saved hsaved i _ _ := by
    cases hsaved
    exact ⟨rfl, h.idle hidle i⟩

theorem restorable_beginWrite (hr : s.src.Restorable) :
    (s.happen z .beginWrite).src.Restorable := by
  unfold System.happen
  dsimp only
  split
  · exact hr
  next hbusy =>
    have hidle : s.src.saved = none := Option.not_isSome_iff_eq_none.mp hbusy
    split
    · exact hr.begin hidle
    · rw [lockSource_src]
      exact (hr.lock s.src.reading false).begin hidle

theorem restorable_modify (hr : s.src.Restorable) (i : Nat) (data : Page) :
    (s.happen z (.modify i data)).src.Restorable := by
  unfold System.happen
  dsimp only
  split
  next saved hsaved =>
    split
    · exact hr
    · refine ⟨hr.whole, fun hnone => ?_, fun hclean => (by cases hclean), ?_⟩
      · rw [hsaved] at hnone
        cases hnone
      · intro saved' hsaved' j hj hmem
        obtain rfl : saved = saved' := Option.some.inj (hsaved.symm.trans hsaved')
        dsimp only at hmem ⊢
        -- a page that is not in the journal now was not there before, and is not this one
        have hold : j ∉ s.src.journal ∧ j ≠ i := by
          split at hmem
          · rw [List.mem_append, List.mem_singleton, not_or] at hmem
            exact hmem
          next hnot =>
            refine ⟨hmem, ?_⟩
            rintro rfl
            exact hnot ⟨hj, hmem⟩
        obtain ⟨hpage, hcache⟩ := hr.journaled saved hsaved j hj hold.1
        exact ⟨hpage, (Function.update_of_ne hold.2 _ _).trans hcache⟩
  next => exact hr

theorem restorable_spill (hr : s.src.Restorable) (i : Nat) (put : Nat → PageAnswer) :
    (s.happen z (.spill i put)).src.Restorable := by
  unfold System.happen
  dsimp only
  split
  next data hdata =>
    split
    · exact hr
    · obtain ⟨⟨saved, hsaved⟩, hmodified⟩ := hr.exists_saved hdata
      rw [writePage_src]
      dsimp only
      refine ⟨?_, fun hnone => ?_, fun hclean => ?_, ?_⟩
      · have hwhole := hr.whole
        rw [SourcePager.value, hsaved] at hwhole
        rw [SourcePager.value, hsaved]
        exact hwhole
      · rw [hsaved] at hnone
        cases hnone
      · rw [hmodified] at hclean
        cases hclean
      · intro saved' hsaved' j hj hmem
        obtain ⟨hpage, hcache⟩ := hr.journaled saved' hsaved' j hj hmem
        have hne : j ≠ i := by
          rintro rfl
          rw [hdata] at hcache
          cases hcache
        exact ⟨(Function.update_of_ne hne _ _).trans hpage,
          (Function.update_of_ne hne _ _).trans hcache⟩
  next => exact hr

theorem restorable_commit (hr : s.src.Restorable) (written : List Nat) (count : Nat)
    (put : Nat → PageAnswer) : (s.happen z (.commit written count put)).src.Restorable := by
  unfold System.happen
  dsimp only
  split
  next saved hsaved =>
    split
    next hclean =>
      refine SourcePager.Restorable.close ?_ s.src
      rw [(hr.clean hclean).2]
      exact hr.whole
    next =>
      split
      · exact SourcePager.Restorable.close (cut_whole _ _) _
      · exact SourcePager.Restorable.close (cut_whole _ _) _
  next => exact hr

theorem restorable_rollback (hr : s.src.Restorable) (put : Nat → PageAnswer)
    (stale : Nat → Page) : (s.happen z (.rollback put stale)).src.Restorable := by
  unfold System.happen
  dsimp only
  split
  next saved hsaved =>
    have hwhole : saved.Whole := by
      have hvalue := hr.whole
      rwa [SourcePager.value, hsaved] at hvalue
    split
    · exact SourcePager.Restorable.close (cut_whole _ _) _
    · exact SourcePager.Restorable.close hwhole _
    · exact SourcePager.Restorable.close hwhole _
  next => exact hr

theorem restorable_external (hr : s.src.Restorable) (file : Pages) :
    (s.happen z (.external file)).src.Restorable := by
  unfold System.happen
  dsimp only
  split
  · exact hr
  next hbusy =>
    obtain ⟨-, hrest⟩ := not_or.mp hbusy
    have hnone : s.src.saved = none := Option.not_isSome_iff_eq_none.mp (not_or.mp hrest).1
    refine ⟨?_, hr.idle, fun hclean => ⟨(hr.clean hclean).1, ?_⟩, fun saved hsaved => ?_⟩
    · rw [SourcePager.value, hnone]
      exact cut_whole file _
    · rw [SourcePager.value, hnone]
      rfl
    · rw [hnone] at hsaved
      cases hsaved

/-- Each event leaves what is needed to restore the pages. -/
theorem restorable_happen (hr : s.src.Restorable) (event : Event) :
    (s.happen z event).src.Restorable := by
  cases event with
  | beginRead => exact restorable_beginRead hr
  | endRead => exact hr.lock false s.src.changed
  | beginWrite => exact restorable_beginWrite hr
  | modify i data => exact restorable_modify hr i data
  | spill i put => exact restorable_spill hr i put
  | commit written count put => exact restorable_commit hr written count put
  | rollback put stale => exact restorable_rollback hr put stale
  | external file => exact restorable_external hr file
  | destSpill pages => exact hr

/-- Only a commit and a change by another connection give a database another value. -/
theorem value_happen (h : s.src.WellFormed) (hr : s.src.Restorable) {event : Event}
    (hevent : event.Uncommitted) : (s.happen z event).src.value = s.src.value := by
  cases event with
  | beginRead =>
      unfold System.happen
      dsimp only
      split
      · rfl
      · rw [lockSource_src]
        rfl
  | endRead => rfl
  | beginWrite =>
      unfold System.happen
      dsimp only
      split
      · rfl
      next hbusy =>
        have hidle : s.src.saved = none := Option.not_isSome_iff_eq_none.mp hbusy
        have hvalue : s.src.value = s.src.file := by
          rw [SourcePager.value, hidle]
          rfl
        rw [hvalue]
        split
        · rfl
        · rw [lockSource_src]
          rfl
  | modify i data =>
      unfold System.happen
      dsimp only
      split
      · split
        · rfl
        · rfl
      · rfl
  | spill i put =>
      unfold System.happen
      dsimp only
      split
      next data hdata =>
        split
        · rfl
        · obtain ⟨⟨saved, hsaved⟩, -⟩ := hr.exists_saved hdata
          rw [writePage_src]
          unfold SourcePager.value
          dsimp only
          rw [hsaved]
          rfl
      next => rfl
  | commit written count put => exact hevent.elim
  | rollback put stale =>
      unfold System.happen
      dsimp only
      split
      next saved hsaved =>
        have hvalue : s.src.value = saved := by
          rw [SourcePager.value, hsaved]
          rfl
        rw [hvalue]
        split
        · exact cut_playback h hr hsaved put stale
        · rfl
        · rfl
      next => rfl
  | external file => exact hevent.elim
  | destSpill pages => rfl

/-! ## Copies -/

theorem openSource_src (io : StepIo) (s : System) :
    (openSource io s).2.src = s.src ∨ (openSource io s).2.src = { s.src with changed := false } := by
  unfold openSource
  split
  · exact Or.inl rfl
  · split
    · exact Or.inl rfl
    · split
      · exact Or.inr (lockSource_src s)
      · exact Or.inl rfl

theorem lockDest_src (z : PageSizes) (io : StepIo) (s : System) :
    (lockDest z io s).2.src = s.src := by
  unfold lockDest
  split
  · rfl
  · split
    · rfl
    · split
      · rfl
      · rfl

theorem prepareStep_src (z : PageSizes) (io : StepIo) (s : System) :
    (prepareStep z io s).2.src = (openSource io s).2.src := by
  unfold prepareStep
  dsimp only
  split
  · rfl
  · split
    · exact lockDest_src z io _
    · split
      · exact lockDest_src z io _
      · exact lockDest_src z io _

theorem finishStep_src (z : PageSizes) (io : StepIo) (nSrcPage : Nat) (s : System) :
    (finishStep z io nSrcPage s).2.src = s.src := by
  unfold finishStep
  dsimp only
  split
  · split
    · rfl
    · rfl
  · rfl

/-- A step does no more to the source than lock it. -/
theorem step_src (z : PageSizes) (s : System) (nPage : Int) (io : StepIo) :
    (s.step z nPage io).src = s.src ∨ (s.step z nPage io).src = { s.src with changed := false } := by
  unfold System.step
  split
  · exact Or.inl rfl
  · have hwork : (stepWork z nPage io s).2.src = (openSource io s).2.src := by
      unfold stepWork
      dsimp only
      split
      · exact prepareStep_src z io s
      · have hcopy := (copyPages_spec z io (prepareStep z io s).2.src.file.count
          (pageBudget nPage (prepareStep z io s).2.src.file.count (prepareStep z io s).2.p.iNext)
          (prepareStep z io s).2).1
        split
        · exact hcopy.trans (prepareStep_src z io s)
        · exact ((finishStep_src z io _ _).trans hcopy).trans (prepareStep_src z io s)
    dsimp only
    rw [hwork]
    exact openSource_src io s

/-- No other connection writes, and nobody commits. -/
def Action.Uncommitted : Action → Prop
  | .event happened => happened.Uncommitted
  | .step _ _ => True

/-- So the database keeps its value. -/
theorem value_act (h : s.src.WellFormed) (hr : s.src.Restorable) {action : Action}
    (haction : action.Uncommitted) :
    (s.act z action).src.Restorable ∧ (s.act z action).src.value = s.src.value := by
  cases action with
  | event event => exact ⟨restorable_happen hr event, value_happen h hr haction⟩
  | step nPage io =>
      rw [System.act]
      rcases step_src z s nPage io with hsrc | hsrc
      · rw [hsrc]
        exact ⟨hr, rfl⟩
      · rw [hsrc]
        exact ⟨hr.lock s.src.reading false, rfl⟩

theorem value_run (h : s.Invariant z) (hr : s.src.Restorable) {actions : List Action}
    (hactions : ∀ action ∈ actions, action.Uncommitted) :
    (s.run z actions).src.value = s.src.value := by
  induction actions generalizing s with
  | nil => rfl
  | cons action actions ih =>
      rw [List.forall_mem_cons] at hactions
      obtain ⟨hr', hvalue⟩ := value_act (z := z) h.source hr hactions.1
      exact (ih (h.act action) hr' hactions.2).trans hvalue

theorem restorable_backupStart (mode : JournalMode) (file : Pages) (destFile : Image) :
    (backupStart mode file destFile).src.Restorable where
  whole := cut_whole file _
  idle _ _ := rfl
  clean _ := ⟨fun _ => rfl, rfl⟩
  journaled _ hsaved := by cases hsaved

/-- A copy of what is left when the pages behind the end are gone is a copy. -/
theorem IsCopy.of_cut {pages : Pages} {file : Image} (h : IsCopy z (pages.cut pages.count) file) :
    IsCopy z pages file where
  size := h.size
  byte i data hi hpending hdata := by
    refine h.byte i data hi hpending ?_
    exact (if_pos hi).trans hdata

/-- If transactions write to the source while it is copied, and write pages early, but all of them
are rolled back, then a finished copy is one of the database as it was at the beginning. -/
theorem backup_of_uncommitted (z : PageSizes) (mode : JournalMode) (file : Pages) (destFile : Image)
    {actions : List Action} (hactions : ∀ action ∈ actions, action.Uncommitted)
    (hdone : ((backupStart mode file destFile).run z actions).p.rc = SQLITE_DONE) :
    IsCopy z file ((backupStart mode file destFile).run z actions).finish := by
  have hinv := invariant_backupStart z mode file destFile
  have hstart : (backupStart mode file destFile).p.rc ≠ SQLITE_DONE := ok_ne_done
  rcases run_outcome hinv hstart actions with ⟨hnot, -⟩ | ⟨-, before, rest, rfl, hsnapshot, hfile⟩
  · exact absurd hdone hnot
  · have hbefore : ∀ action ∈ before, action.Uncommitted := fun action haction =>
      hactions action (List.mem_append_left rest haction)
    have hvalue := value_run hinv (restorable_backupStart mode file destFile) hbefore
    have hfinal : ((backupStart mode file destFile).run z before).src.file =
        file.cut file.count := by
      rw [SourcePager.value, hsnapshot.idle] at hvalue
      exact hvalue
    have hcopy := hsnapshot.isCopy
    rw [hfinal] at hcopy
    rw [hfile]
    exact hcopy.of_cut

end Values

/-- An answer without an error. -/
def fineAnswer : PageAnswer where
  rc := SQLITE_OK
  not_done := by decide
  not_busy := by decide
  not_locked := by decide

/-- A step in which nothing goes wrong. -/
def fineStep : StepIo where
  beginSrc := fineAnswer.toAnswer
  setDestPgszNomem := false
  beginDest := fineAnswer.toAnswer
  destSchema := 0
  destWal := false
  destMemdb := false
  destCounter := 0
  get _ := fineAnswer
  put _ := fineAnswer
  commit := fineAnswer
  stale _ _ := 0
  destSpill _ := []
  destWritten := []

/-- The smallest page size. -/
def smallPage : PageSize where
  exponent := 9
  lower := by decide
  upper := by decide

/-- A database of two pages. -/
def smallFile : Pages where
  page i := if i = 1 ∨ i = 2 then some fun _ => 7 else none
  count := 2

/-- A page that was copied is written early, on both sides, a step waits, and the transaction is
rolled back. -/
def rolledBack : List Action :=
  [.step 1 fineStep, .event .beginWrite, .event (.modify 1 fun _ => 8),
    .event (.spill 1 fun _ => fineAnswer), .event (.destSpill [1]), .step 1 fineStep,
    .event (.rollback (fun _ => fineAnswer) fun _ _ => 0), .step 1 fineStep]

theorem backup_of_uncommitted_small :
    IsCopy ⟨smallPage, smallPage⟩ smallFile
      ((backupStart .rollback smallFile ⟨fun _ => 0, 0, fun _ _ => rfl⟩).run ⟨smallPage, smallPage⟩
        rolledBack).finish :=
  backup_of_uncommitted _ _ _ _ (by simp [rolledBack, Action.Uncommitted, Event.Uncommitted])
    (by decide)

end Sqlite
end IdeMultiarch
