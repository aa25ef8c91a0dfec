import IdeMultiarch.Sqlite.Transactions

/-!
# Sqlite - what a backup reports, and when it ends

The loop of {lit}`NativeDB.c` over the steps of a copy, when the codes are those of a copy of real
pages between whose steps the source is used.

Main results:

- Theorem {lit}`transfer_files`: a backup reports success exactly if the file became a copy.
- Theorem {lit}`backup_progress`: how many steps a copy takes when the source is only read.
- Theorem {lit}`copyLoop_starves`: a copy never ends if other connections write often enough.
-/

namespace IdeMultiarch
namespace Sqlite

open Library (Image)

/-! ## Schedules -/

/-- A copy whose steps are given the same number of pages: what happens before each step, and the
results of the calls that the step makes. -/
structure Schedule where
  z : PageSizes
  mode : JournalMode
  file : Pages
  destFile : Image
  pagesPerStep : Int
  events : Nat → List Event
  io : Nat → StepIo

namespace Schedule

variable (sch : Schedule)

/-- What happens before and in a step. -/
def actions (n : Nat) : List Action :=
  (sch.events n).map .event ++ [.step sch.pagesPerStep (sch.io n)]

/-- The system after some steps. -/
def after : Nat → System
  | 0 => backupStart sch.mode sch.file sch.destFile
  | n + 1 => (after n).run sch.z (sch.actions n)

/-- The system when a step begins. -/
def before (n : Nat) : System :=
  (sch.after n).run sch.z ((sch.events n).map .event)

/-- The code that a step returns. -/
def code (n : Nat) : ResultCode :=
  (sch.after (n + 1)).p.rc

theorem after_succ (n : Nat) :
    sch.after (n + 1) = (sch.before n).step sch.z sch.pagesPerStep (sch.io n) :=
  System.run_append sch.z (sch.after n) _ _

theorem invariant (n : Nat) : (sch.after n).Invariant sch.z := by
  induction n with
  | zero => exact invariant_backupStart sch.z sch.mode sch.file sch.destFile
  | succ n ih => exact ih.run _

/-- Events leave the destination. -/
theorem keeps_events {z : PageSizes} {s : System} (h : s.Invariant z) (events : List Event) :
    Keeps s (s.run z (events.map .event)) := by
  induction events generalizing s with
  | nil => exact Keeps.of_same rfl rfl
  | cons event events ih => exact (happened h.source event).toKeeps.trans (ih (h.happen event))

/-- A step makes the destination a copy, or it leaves it. -/
theorem outcome {n : Nat} (hnot : (sch.after n).p.rc ≠ SQLITE_DONE) :
    (sch.code n = SQLITE_DONE ∧ (sch.after (n + 1)).Snapshot sch.z) ∨
      (sch.code n ≠ SQLITE_DONE ∧ (sch.after (n + 1)).finish = (sch.after n).finish) := by
  have hkeeps := keeps_events (sch.invariant n) (sch.events n)
  have hstep := act_outcome ((sch.invariant n).run ((sch.events n).map .event))
    (hkeeps.not_done hnot) (.step sch.pagesPerStep (sch.io n))
  rw [← System.run_append] at hstep
  rcases hstep with hdone | ⟨hrc, hfile⟩
  · exact Or.inl hdone
  · exact Or.inr ⟨hrc, hfile.trans hkeeps.finish⟩

/-- Until a step is done, the destination is left as before. -/
theorem finish_eq {n : Nat} (hnot : ∀ m < n, sch.code m ≠ SQLITE_DONE) :
    (sch.after n).p.rc ≠ SQLITE_DONE ∧ (sch.after n).finish = sch.destFile := by
  induction n with
  | zero => exact ⟨ok_ne_done, rfl⟩
  | succ n ih =>
      obtain ⟨hrc, hfile⟩ := ih fun m hm => hnot m (by omega)
      rcases sch.outcome hrc with ⟨hdone, -⟩ | ⟨hrc', hfile'⟩
      · exact absurd hdone (hnot n (Nat.lt_succ_self n))
      · exact ⟨hrc', hfile'.trans hfile⟩

end Schedule

/-! ## Files after a call -/

/-- The file that is written to, after a call. -/
def fileAfter (call : Call) (openFlags : UInt32) (sch : Schedule) (fuel : Nat) : Option Image :=
  match call.pDb, call.dFileName, call.dDBName with
  | some _, some dFileName, some dDBName =>
      if call.opened openFlags dFileName = SQLITE_OK ∧ call.init dDBName = SQLITE_OK then
        (copyLoop sch.code call.nTimeoutLimit fuel ⟨SQLITE_OK, 0⟩).map fun pBackup =>
          (sch.after pBackup.steps).finish
      else some sch.destFile
  | _, _, _ => some sch.destFile

section Files

variable {sch : Schedule} {nTimeoutLimit : Int} {fuel : Nat} {call : Call} {openFlags : UInt32}

/-- A loop that ends has copied everything, or nothing. -/
theorem copyLoop_outcome (hlimit : 0 ≤ nTimeoutLimit) {pBackup : BackupObject}
    (h : copyLoop sch.code nTimeoutLimit fuel ⟨SQLITE_OK, 0⟩ = some pBackup) :
    (Completes sch.code nTimeoutLimit ∧ (sch.after pBackup.steps).Snapshot sch.z) ∨
      (¬ Completes sch.code nTimeoutLimit ∧ (sch.after pBackup.steps).finish = sch.destFile) := by
  obtain ⟨n, -, hends, rfl⟩ := (copyLoop_eq_some hlimit fuel).mp h
  have hnot : ∀ m < n, sch.code m ≠ SQLITE_DONE := by
    intro m hm hdone
    have hretried := hends.retried m hm
    rw [hdone, isFatalError_done] at hretried
    cases hretried
  obtain ⟨hrc, hfile⟩ := sch.finish_eq hnot
  rcases sch.outcome hrc with ⟨hdone, hsnapshot⟩ | ⟨hrc', hfile'⟩
  · exact Or.inl ⟨⟨n, hends, hdone⟩, hsnapshot⟩
  · refine Or.inr ⟨?_, hfile'.trans hfile⟩
    rintro ⟨n', hends', hdone⟩
    rw [hends.unique hends'] at hrc'
    exact hrc' hdone

/-- A call leaves the file that is written to as it was, or makes it a copy; which of both, tell the
codes of the steps. -/
theorem fileAfter_outcome (hlimit : 0 ≤ call.nTimeoutLimit) (hcodes : call.codes = sch.code)
    {image : Image} (h : fileAfter call openFlags sch fuel = some image) :
    (call.Copies openFlags ∧ ∃ n, (sch.after n).Snapshot sch.z ∧ image = (sch.after n).finish) ∨
      (¬ call.Copies openFlags ∧ image = sch.destFile) := by
  unfold fileAfter at h
  split at h
  next pDb dFileName dDBName hdb hname hdbname =>
    have hopens : call.Copies openFlags ↔
        (call.opened openFlags dFileName = SQLITE_OK ∧ call.init dDBName = SQLITE_OK) ∧
          Completes sch.code call.nTimeoutLimit := by
      unfold Call.Copies Call.Opens Call.Begins
      simp [hdb, hname, hdbname, hcodes, and_assoc]
    split at h
    next hbegins =>
      obtain ⟨pBackup, hloop, rfl⟩ := Option.map_eq_some_iff.mp h
      rcases copyLoop_outcome hlimit hloop with ⟨hcompletes, hsnapshot⟩ | ⟨hnot, hfile⟩
      · exact Or.inl ⟨hopens.mpr ⟨hbegins, hcompletes⟩, _, hsnapshot, rfl⟩
      · exact Or.inr ⟨fun hcopies => hnot (hopens.mp hcopies).2, hfile⟩
    next hnot =>
      cases h
      exact Or.inr ⟨fun hcopies => hnot (hopens.mp hcopies).1, rfl⟩
  next hmissing =>
    cases h
    refine Or.inr ⟨?_, rfl⟩
    rintro ⟨⟨hdb, hname, dFileName, hfile, -⟩, -⟩
    obtain ⟨pDb, hdb⟩ := Option.ne_none_iff_exists'.mp hdb
    obtain ⟨dDBName, hname⟩ := Option.ne_none_iff_exists'.mp hname
    exact hmissing pDb dFileName dDBName hdb hfile hname

/-- A call that returns does not write to the file any more. -/
theorem exists_fileAfter {direction : Direction} (hcodes : call.codes = sch.code) {rc : ResultCode}
    (h : transfer direction openFlags call fuel = some rc) :
    ∃ image, fileAfter call openFlags sch fuel = some image := by
  unfold fileAfter
  split
  next pDb dFileName dDBName hdb hname hdbname =>
    split
    next hbegins =>
      unfold transfer at h
      rw [hdb, hname, hdbname] at h
      dsimp only at h
      rw [if_pos hbegins.1] at h
      obtain ⟨pFile, hcopied, -⟩ := Option.map_eq_some_iff.mp h
      have hinto : ∃ pDestDb pDestDb', copyInto call fuel pDestDb dDBName = some pDestDb' := by
        cases direction with
        | backup => exact ⟨_, _, hcopied⟩
        | restore =>
            obtain ⟨pDb', hinto, -⟩ := Option.map_eq_some_iff.mp hcopied
            exact ⟨_, _, hinto⟩
      obtain ⟨pDestDb, pDestDb', hinto⟩ := hinto
      unfold copyInto at hinto
      rw [hbegins.2, backupInit_ok] at hinto
      obtain ⟨pBackup, hloop, -⟩ := Option.map_eq_some_iff.mp hinto
      rw [← hcodes, hloop]
      exact ⟨_, rfl⟩
    next => exact ⟨_, rfl⟩
  next => exact ⟨_, rfl⟩

/-- The call with a limit that is not negative, which does the same. -/
def Call.patient (call : Call) : Call :=
  { call with nTimeoutLimit := max call.nTimeoutLimit 0 }

theorem transfer_patient (direction : Direction) (openFlags : UInt32) (call : Call) (fuel : Nat) :
    transfer direction openFlags call.patient fuel = transfer direction openFlags call fuel := by
  have hinto : copyInto call.patient fuel = copyInto call fuel := by
    funext pDestDb dDBName
    unfold copyInto Call.patient
    simp only [copyLoop_max_zero]
  unfold transfer copied
  rw [hinto]
  rfl

theorem fileAfter_patient (call : Call) (openFlags : UInt32) (sch : Schedule) (fuel : Nat) :
    fileAfter call.patient openFlags sch fuel = fileAfter call openFlags sch fuel := by
  unfold fileAfter Call.patient
  simp only [copyLoop_max_zero]
  rfl

end Files

/-- A database of two pages is copied page by page, while it is only read. -/
def smallSchedule (events : Nat → List Event) : Schedule where
  z := ⟨smallPage, smallPage⟩
  mode := .rollback
  file := smallFile
  destFile := ⟨fun _ => 0, 0, fun _ _ => rfl⟩
  pagesPerStep := 1
  events := events
  io _ := fineStep

def readSchedule : Schedule :=
  smallSchedule fun n => if n = 0 then [.beginRead] else [.endRead]

/-! ## Steps in which nothing goes wrong -/

/-- No call of a step fails, and the page sizes can be different if they are. -/
structure StepIo.Fine (z : PageSizes) (io : StepIo) : Prop where
  beginSrc : io.beginSrc.rc = SQLITE_OK
  pageSize : io.setDestPgszNomem = false
  beginDest : io.beginDest.rc = SQLITE_OK
  writable : io.destWal = true ∨ io.destMemdb = true → z.src.bytes = z.dest.bytes
  get : ∀ i, (io.get i).rc = SQLITE_OK
  put : ∀ i, (io.put i).rc = SQLITE_OK
  commit : io.commit.rc = SQLITE_OK

/-- The system when a step has locked the source. -/
def System.locked (s : System) : System :=
  if s.src.reading then s else lockSource s

/-- The next page after some pages were copied. -/
def advance (nSrcPage budget iNext : Nat) : Nat :=
  max iNext (min (iNext + budget) (nSrcPage + 1))

section Fine

variable {z : PageSizes} {io : StepIo} {s : System}

theorem backupOnePageFrom_of_fine {put : Nat → PageAnswer} (hput : ∀ i, (put i).rc = SQLITE_OK)
    (zSrcData : Page) (header : Option UInt32) (n iOff : Nat) (dest : Image) :
    (backupOnePageFrom z put zSrcData header n iOff dest).1 = SQLITE_OK := by
  induction n generalizing iOff dest with
  | zero => rfl
  | succ n ih =>
      rw [backupOnePageFrom]
      split
      · exact ih _ _
      · rw [if_neg (not_not_intro (hput _))]
        exact ih _ _

theorem copyNext_of_fine (hfine : io.Fine z) (nSrcPage : Nat) (s : System) :
    (copyNext z io nSrcPage s).1 = SQLITE_OK := by
  unfold copyNext
  dsimp only [System.spillDest]
  split
  · rfl
  · rw [if_neg (not_not_intro (hfine.get _))]
    exact backupOnePageFrom_of_fine hfine.put _ _ _ _ _

theorem copyPages_of_fine (hfine : io.Fine z) (nSrcPage n : Nat) (s : System) :
    (copyPages z io nSrcPage n s).1 = SQLITE_OK ∧
      (copyPages z io nSrcPage n s).2.p = { s.p with iNext := advance nSrcPage n s.p.iNext } := by
  unfold advance
  induction n generalizing s with
  | zero =>
      refine ⟨rfl, ?_⟩
      rw [Nat.add_zero, Nat.max_eq_left (Nat.min_le_left _ _)]
      rfl
  | succ n ih =>
      rw [copyPages]
      split
      next hall =>
        refine ⟨rfl, ?_⟩
        rw [Nat.max_eq_left (le_trans (Nat.min_le_right _ _) hall)]
      next hmore =>
        have hok := copyNext_of_fine hfine nSrcPage s
        obtain ⟨-, -, hp, -⟩ := copyNext_frame z io nSrcPage s
        dsimp only
        rw [if_pos hok]
        obtain ⟨hok', hp'⟩ := ih (copyNext z io nSrcPage s).2
        refine ⟨hok', ?_⟩
        rw [hp', hp]
        dsimp only
        congr 1
        omega

/-- What is prepared when nothing goes wrong. -/
theorem prepareStep_of_fine (hfine : io.Fine z) (hsaved : s.src.saved = none) :
    (prepareStep z io s).1 = SQLITE_OK ∧ (prepareStep z io s).2.src = s.locked.src ∧
      (prepareStep z io s).2.p.iNext = s.locked.p.iNext ∧
      (prepareStep z io s).2.p.isAttached = s.locked.p.isAttached := by
  have hopen : openSource io s = (SQLITE_OK, s.locked) := by
    unfold openSource System.locked
    rw [hsaved, if_neg (by simp)]
    split
    · rfl
    · rw [if_pos hfine.beginSrc]
  have hdest : (lockDest z io s.locked).1 = SQLITE_OK ∧ (lockDest z io s.locked).2.src = s.locked.src ∧
      (lockDest z io s.locked).2.p.iNext = s.locked.p.iNext ∧
      (lockDest z io s.locked).2.p.isAttached = s.locked.p.isAttached := by
    unfold lockDest
    split
    · exact ⟨rfl, rfl, rfl, rfl⟩
    · rw [hfine.pageSize, if_neg Bool.false_ne_true, if_pos hfine.beginDest]
      exact ⟨rfl, rfl, rfl, rfl⟩
  have hwritable : ¬ ((io.destWal ∨ io.destMemdb) ∧ z.src.bytes ≠ z.dest.bytes) := by
    rintro ⟨hdirect, hne⟩
    exact hne (hfine.writable hdirect)
  unfold prepareStep
  rw [hopen]
  dsimp only
  rw [if_neg (not_not_intro rfl), if_neg (not_not_intro hdest.1), if_neg hwritable]
  exact hdest

theorem finishStep_of_fine (hfine : io.Fine z) (nSrcPage : Nat) (s : System) :
    (nSrcPage < s.p.iNext → (finishStep z io nSrcPage s).1 = SQLITE_DONE) ∧
      (¬ nSrcPage < s.p.iNext → (finishStep z io nSrcPage s).1 = SQLITE_OK ∧
        (finishStep z io nSrcPage s).2.p.iNext = s.p.iNext ∧
        (finishStep z io nSrcPage s).2.p.isAttached = true) := by
  unfold finishStep
  dsimp only
  constructor
  · intro hall
    rw [if_pos hall, if_pos hfine.commit]
  · intro hmore
    rw [if_neg hmore]
    exact ⟨rfl, rfl, rfl⟩

/-- A step in which nothing goes wrong copies as many pages as it may. -/
theorem step_of_fine (hfine : io.Fine z) (halive : s.Alive) (hsaved : s.src.saved = none)
    (nPage : Int) {iNext : Nat} (hnext : advance s.locked.src.file.count
      (pageBudget nPage s.locked.src.file.count s.locked.p.iNext) s.locked.p.iNext = iNext) :
    (s.step z nPage io).src = s.locked.src ∧
      (s.locked.src.file.count < iNext → (s.step z nPage io).p.rc = SQLITE_DONE) ∧
      (¬ s.locked.src.file.count < iNext → (s.step z nPage io).p.rc = SQLITE_OK ∧
        (s.step z nPage io).p.iNext = iNext ∧ (s.step z nPage io).p.isAttached = true) := by
  obtain ⟨hok, hsrc, hfirst, -⟩ := prepareStep_of_fine hfine hsaved
  obtain ⟨hcopied, hp⟩ := copyPages_of_fine hfine (prepareStep z io s).2.src.file.count
    (pageBudget nPage (prepareStep z io s).2.src.file.count (prepareStep z io s).2.p.iNext)
    (prepareStep z io s).2
  have hkept := (copyPages_spec z io (prepareStep z io s).2.src.file.count
    (pageBudget nPage (prepareStep z io s).2.src.file.count (prepareStep z io s).2.p.iNext)
    (prepareStep z io s).2).1
  have hwork : stepWork z nPage io s = finishStep z io s.locked.src.file.count
      (copyPages z io (prepareStep z io s).2.src.file.count
        (pageBudget nPage (prepareStep z io s).2.src.file.count (prepareStep z io s).2.p.iNext)
        (prepareStep z io s).2).2 := by
    unfold stepWork
    dsimp only
    rw [if_neg (not_not_intro hok), if_neg (not_not_intro hcopied), hsrc]
  rw [hsrc, hfirst, hnext] at hp
  have hnot : ¬ isFatalError s.p.rc = true := Bool.eq_false_iff.mp halive
  unfold System.step
  rw [if_neg hnot, hwork]
  dsimp only
  obtain ⟨hdone, hgoes⟩ := finishStep_of_fine hfine s.locked.src.file.count
    (copyPages z io (prepareStep z io s).2.src.file.count
      (pageBudget nPage (prepareStep z io s).2.src.file.count (prepareStep z io s).2.p.iNext)
      (prepareStep z io s).2).2
  have hiNext := congrArg PageBackup.iNext hp
  rw [← hfirst, ← hsrc] at hiNext
  rw [hiNext, hsrc] at hdone hgoes
  refine ⟨((finishStep_src z io _ _).trans hkept).trans hsrc, fun hall => ?_, fun hmore => ?_⟩
  · rw [hsrc, hdone hall]
    exact if_neg (by decide)
  · obtain ⟨hrc, hpage, hattached⟩ := hgoes hmore
    rw [hsrc, hrc]
    exact ⟨if_neg (by decide), hpage, hattached⟩

end Fine

/-! ## When a copy ends -/

/-- How many steps a copy takes. -/
def Schedule.stepsNeeded (sch : Schedule) : Nat :=
  if sch.pagesPerStep < 0 then 1
  else max 1 ((sch.file.count + sch.pagesPerStep.toNat - 1) / sch.pagesPerStep.toNat)

/-- The source is only read. -/
structure Schedule.Quiet (sch : Schedule) : Prop where
  reads : ∀ n, ∀ event ∈ sch.events n, event = .beginRead ∨ event = .endRead
  fine : ∀ n, (sch.io n).Fine sch.z
  pages : sch.pagesPerStep ≠ 0

/-- A copy of a source that nobody changed, before a step. -/
structure System.Waiting (s : System) (file : Pages) (iNext : Nat) : Prop where
  idle : s.src.saved = none
  unchanged : s.src.changed = false
  file : s.src.file = file
  rc : s.p.rc = SQLITE_OK
  next : s.p.iNext = iNext

section Quiet

variable {sch : Schedule} {s : System} {file : Pages} {iNext : Nat}

theorem lockSource_of_unchanged (h : s.src.changed = false) : lockSource s = s := by
  unfold lockSource
  rw [h, if_neg Bool.false_ne_true]

/-- Readers leave everything. -/
theorem System.Waiting.reads (h : s.Waiting file iNext) {z : PageSizes} {events : List Event}
    (hreads : ∀ event ∈ events, event = .beginRead ∨ event = .endRead) :
    (s.run z (events.map .event)).Waiting file iNext := by
  induction events generalizing s with
  | nil => exact h
  | cons event events ih =>
      rw [List.forall_mem_cons] at hreads
      refine ih ?_ hreads.2
      rcases hreads.1 with rfl | rfl
      · unfold System.act System.happen
        dsimp only
        split
        · exact h
        · rw [lockSource_of_unchanged h.unchanged]
          exact ⟨h.idle, h.unchanged, h.file, h.rc, h.next⟩
      · exact ⟨h.idle, h.unchanged, h.file, h.rc, h.next⟩

/-- A step copies the next pages, or the rest. -/
theorem System.Waiting.step (h : s.Waiting file iNext) {z : PageSizes} {io : StepIo}
    (hfine : io.Fine z) (nPage : Int) {iNext' : Nat}
    (hnext : advance file.count (pageBudget nPage file.count iNext) iNext = iNext') :
    (s.step z nPage io).src.file = file ∧
      (file.count < iNext' → (s.step z nPage io).p.rc = SQLITE_DONE) ∧
      (¬ file.count < iNext' → (s.step z nPage io).Waiting file iNext') := by
  have hlocked : s.locked = s := by
    unfold System.locked
    rw [lockSource_of_unchanged h.unchanged, ite_self]
  have halive : s.Alive := by
    unfold System.Alive
    rw [h.rc]
    decide
  have hnext' : advance s.locked.src.file.count
      (pageBudget nPage s.locked.src.file.count s.locked.p.iNext) s.locked.p.iNext = iNext' := by
    rw [hlocked, h.file, h.next, hnext]
  obtain ⟨hsrc, hdone, hgoes⟩ := step_of_fine hfine halive h.idle nPage hnext'
  rw [hlocked] at hsrc hdone hgoes
  rw [h.file] at hdone hgoes
  refine ⟨by rw [hsrc, h.file], hdone, fun hmore => ?_⟩
  obtain ⟨hrc, hpage, -⟩ := hgoes hmore
  exact ⟨by rw [hsrc, h.idle], by rw [hsrc, h.unchanged], by rw [hsrc, h.file], hrc, hpage⟩

/-- The last step reaches the end, and the others do not. -/
theorem Schedule.Quiet.advance_spec (h : sch.Quiet) {n : Nat} (hn : n < sch.stepsNeeded)
    {iNext' : Nat} (hnext : advance sch.file.count (pageBudget sch.pagesPerStep sch.file.count
      (1 + sch.pagesPerStep.toNat * n)) (1 + sch.pagesPerStep.toNat * n) = iNext') :
    (n + 1 = sch.stepsNeeded → sch.file.count < iNext') ∧
      (n + 1 < sch.stepsNeeded → iNext' = 1 + sch.pagesPerStep.toNat * (n + 1) ∧
        ¬ sch.file.count < iNext') := by
  have hpages := h.pages
  unfold Schedule.stepsNeeded at hn ⊢
  unfold advance pageBudget at hnext
  by_cases hall : sch.pagesPerStep < 0
  · have hzero : sch.pagesPerStep.toNat = 0 := Int.toNat_of_nonpos hall.le
    rw [if_pos hall] at hn ⊢
    rw [if_pos hall, hzero, Nat.zero_mul] at hnext
    omega
  · rw [if_neg hall] at hn ⊢
    rw [if_neg hall] at hnext
    generalize hk : sch.pagesPerStep.toNat = k at hn hnext ⊢
    generalize sch.file.count = count at hn hnext ⊢
    have hpos : 0 < k := by omega
    generalize hq : (count + k - 1) / k = q at hn ⊢
    have hlow : q * k ≤ count + k - 1 := hq ▸ Nat.div_mul_le_self _ _
    have hhigh : count + k - 1 < q * k + k := hq ▸ Nat.lt_div_mul_add hpos
    rw [Nat.mul_comm k] at hnext
    rw [Nat.mul_comm k, Nat.succ_mul]
    constructor
    · intro hlast
      have hle : q * k ≤ (n + 1) * k := Nat.mul_le_mul_right k (by omega)
      rw [Nat.succ_mul] at hle
      omega
    · intro hmore
      have hle : (n + 2) * k ≤ q * k := Nat.mul_le_mul_right k (by omega)
      rw [Nat.add_mul] at hle
      omega

/-- How many pages were copied before a step that is not the last one. -/
theorem Schedule.Quiet.waiting (h : sch.Quiet) {n : Nat} (hn : n < sch.stepsNeeded) :
    (sch.after n).Waiting (sch.file.cut sch.file.count) (1 + sch.pagesPerStep.toNat * n) := by
  induction n with
  | zero => exact ⟨rfl, rfl, rfl, rfl, rfl⟩
  | succ n ih =>
      have hbefore := (ih (by omega)).reads (z := sch.z) (h.reads n)
      obtain ⟨-, -, hgoes⟩ := hbefore.step (h.fine n) sch.pagesPerStep rfl
      obtain ⟨hnext, hmore⟩ := (h.advance_spec (by omega) rfl).2 hn
      rw [sch.after_succ]
      rw [← hnext]
      exact hgoes hmore

/-- The last step is done, and those before it are not. -/
theorem Schedule.Quiet.code (h : sch.Quiet) {n : Nat} (hn : n < sch.stepsNeeded) :
    sch.code n = (if n + 1 = sch.stepsNeeded then SQLITE_DONE else SQLITE_OK) ∧
      (sch.after (n + 1)).src.file = sch.file.cut sch.file.count := by
  have hbefore := (h.waiting hn).reads (z := sch.z) (h.reads n)
  obtain ⟨hfile, hdone, hgoes⟩ := hbefore.step (h.fine n) sch.pagesPerStep rfl
  obtain ⟨hlast, hmore⟩ := h.advance_spec hn rfl
  unfold Schedule.code
  rw [sch.after_succ]
  refine ⟨?_, hfile⟩
  split
  next heq => exact hdone (hlast heq)
  next hne => exact (hgoes (hmore (by omega)).2).rc

/-- How the codes of a copy end whose source is only read. -/
theorem Schedule.Quiet.endsAt (h : sch.Quiet) {nTimeoutLimit : Int} (hlimit : 0 ≤ nTimeoutLimit) :
    EndsAt sch.code nTimeoutLimit (sch.stepsNeeded - 1) ∧
      sch.code (sch.stepsNeeded - 1) = SQLITE_DONE ∧ 0 < sch.stepsNeeded := by
  have hpos : 0 < sch.stepsNeeded := by
    unfold Schedule.stepsNeeded
    split
    · exact Nat.one_pos
    · exact Nat.lt_of_lt_of_le Nat.one_pos (Nat.le_max_left _ _)
  have hearly : ∀ m < sch.stepsNeeded - 1, sch.code m = SQLITE_OK := by
    intro m hm
    rw [(h.code (by omega)).1, if_neg (by omega)]
  have hlast : sch.code (sch.stepsNeeded - 1) = SQLITE_DONE := by
    rw [(h.code (by omega)).1, if_pos (by omega)]
  refine ⟨⟨⟨fun m hm => ?_, ?_⟩, Or.inl ?_⟩, hlast, hpos⟩
  · rw [hearly m hm]
    decide
  · have hnone : timeouts sch.code (sch.stepsNeeded - 1) = 0 := by
      unfold timeouts
      rw [Nat.count_eq_card_filter_range, Finset.card_eq_zero, Finset.filter_eq_empty_iff]
      intro m hm
      rw [hearly m (Finset.mem_range.mp hm)]
      decide
    rw [hnone]
    exact hlimit
  · rw [hlast]
    exact isFatalError_done

/-- A copy of a database that is only read ends after as many steps as its pages fill, but at least
one, whatever number of timeouts is allowed, and the file is a copy of the database. -/
theorem backup_progress (h : sch.Quiet) (nTimeoutLimit : Int) :
    (∀ fuel pBackup, copyLoop sch.code nTimeoutLimit fuel ⟨SQLITE_OK, 0⟩ = some pBackup ↔
      sch.stepsNeeded ≤ fuel ∧ pBackup = ⟨SQLITE_DONE, sch.stepsNeeded⟩) ∧
      IsCopy sch.z sch.file (sch.after sch.stepsNeeded).finish := by
  have hlimit : 0 ≤ max nTimeoutLimit 0 := le_max_right _ _
  obtain ⟨hends, hdone, hpos⟩ := h.endsAt hlimit
  obtain ⟨n, hn⟩ := Nat.exists_eq_succ_of_ne_zero hpos.ne'
  rw [hn, Nat.succ_sub_one] at hends hdone
  constructor
  · intro fuel pBackup
    rw [← copyLoop_max_zero, copyLoop_eq_some hlimit, hn]
    constructor
    · rintro ⟨m, hm, hends', rfl⟩
      rw [hends'.unique hends, hdone]
      exact ⟨hends'.unique hends ▸ hm, rfl⟩
    · rintro ⟨hfuel, rfl⟩
      exact ⟨n, hfuel, hends, by rw [hdone]⟩
  · have hnot : (sch.after n).p.rc ≠ SQLITE_DONE := by
      rw [(h.waiting (by omega)).rc]
      exact ok_ne_done
    rw [hn]
    rcases sch.outcome hnot with ⟨-, hsnapshot⟩ | ⟨hne, -⟩
    · have hcopy := hsnapshot.isCopy
      rw [(h.code (by omega)).2] at hcopy
      exact hcopy.of_cut
    · exact absurd hdone hne

end Quiet

theorem fine_fineStep (z : PageSizes) : fineStep.Fine z where
  beginSrc := rfl
  pageSize := rfl
  beginDest := rfl
  writable h := by simp [fineStep] at h
  get _ := rfl
  put _ := rfl
  commit := rfl

/-- Two pages take two steps. -/
theorem backup_progress_small :
    readSchedule.stepsNeeded = 2 ∧
      copyLoop readSchedule.code 0 2 ⟨SQLITE_OK, 0⟩ = some ⟨SQLITE_DONE, 2⟩ ∧
      IsCopy readSchedule.z smallFile (readSchedule.after 2).finish := by
  have hquiet : readSchedule.Quiet := by
    refine ⟨fun n event hevent => ?_, fun _ => fine_fineStep _, by decide⟩
    simp only [readSchedule, smallSchedule] at hevent
    split at hevent
    · exact Or.inl (List.mem_singleton.mp hevent)
    · exact Or.inr (List.mem_singleton.mp hevent)
  have hsteps : readSchedule.stepsNeeded = 2 := by decide
  obtain ⟨hends, hcopy⟩ := backup_progress hquiet 0
  rw [hsteps] at hends hcopy
  exact ⟨hsteps, (hends 2 _).mpr ⟨le_refl 2, rfl⟩, hcopy⟩

/-! ## When a copy does not end -/

/-- Before each step another connection changes the source, which has more pages than a step
copies. -/
structure Schedule.Disturbed (sch : Schedule) : Prop where
  mode : sch.mode ≠ .memory
  pages : 0 ≤ sch.pagesPerStep
  writes : ∀ n, ∃ file : Pages, sch.events n = [.external file] ∧ sch.pagesPerStep < file.count
  fine : ∀ n, (sch.io n).Fine sch.z

/-- The source is in no transaction, and the copy can go on. -/
structure System.Idle (s : System) : Prop where
  saved : s.src.saved = none
  reading : s.src.reading = false
  mode : s.src.mode ≠ .memory
  rc : s.p.rc = SQLITE_OK
  began : s.p.isAttached = false → s.p.iNext = 1

section Disturbed

variable {sch : Schedule} {s : System} {z : PageSizes} {file : Pages}

/-- When the source is locked after another connection changed it, the copy begins again. -/
theorem System.Idle.locked_external (h : s.Idle) (file : Pages) :
    ((s.happen z (.external file)).locked.src = { s.src with
        file := file.cut file.count, changed := false }) ∧
      (s.happen z (.external file)).locked.p.iNext = 1 ∧
      (s.happen z (.external file)).p.rc = SQLITE_OK := by
  have hevent : s.happen z (.external file) =
      { s with src := { s.src with file := file.cut file.count, changed := true } } := by
    unfold System.happen
    dsimp only
    rw [h.saved, h.reading, if_neg (by simp [h.mode])]
  rw [hevent]
  unfold System.locked
  dsimp only
  rw [h.reading, if_neg Bool.false_ne_true]
  refine ⟨lockSource_src _, ?_, h.rc⟩
  unfold lockSource
  rw [if_pos rfl, (backupRestart_spec _).2.2.2]
  dsimp only
  split
  · rfl
  next hattached => exact h.began (Bool.eq_false_of_not_eq_true hattached)

/-- So the step does not come to the end. -/
theorem System.Idle.step (h : s.Idle) {io : StepIo} (hfine : io.Fine z) {nPage : Int}
    (hpages : 0 ≤ nPage) (hmany : nPage < file.count) :
    ((s.happen z (.external file)).step z nPage io).Idle := by
  obtain ⟨hsrc, hnext, hrc⟩ := h.locked_external (z := z) file
  have halive : (s.happen z (.external file)).Alive := by
    unfold System.Alive
    rw [hrc]
    decide
  have hsaved : (s.happen z (.external file)).src.saved = none := by
    unfold System.happen
    dsimp only
    split
    · exact h.saved
    · exact h.saved
  obtain ⟨hsrc', -, hgoes⟩ := step_of_fine hfine halive hsaved nPage rfl
  have hcount : (s.happen z (.external file)).locked.src.file.count = file.count := by
    rw [hsrc]
    rfl
  have hmore : ¬ file.count < advance file.count (pageBudget nPage file.count 1) 1 := by
    unfold advance pageBudget
    rw [if_neg (by omega)]
    omega
  rw [hcount, hnext] at hgoes
  obtain ⟨hok, -, hattached⟩ := hgoes hmore
  rw [hsrc] at hsrc'
  refine ⟨?_, ?_, ?_, hok, fun hdetached => ?_⟩
  · rw [hsrc']
    exact h.saved
  · rw [hsrc']
    exact h.reading
  · rw [hsrc']
    exact h.mode
  · rw [hattached] at hdetached
    cases hdetached

theorem Schedule.Disturbed.idle (h : sch.Disturbed) (n : Nat) : (sch.after n).Idle := by
  induction n with
  | zero => exact ⟨rfl, rfl, h.mode, rfl, fun _ => rfl⟩
  | succ n ih =>
      obtain ⟨file, hevents, hmany⟩ := h.writes n
      rw [sch.after_succ, Schedule.before, hevents]
      exact ih.step (h.fine n) h.pages hmany

/-- If another connection changes the source before each step, and a step cannot copy all pages, the
loop never ends: no number of timeouts helps, because no step waits. -/
theorem copyLoop_starves (h : sch.Disturbed) :
    (∀ n, sch.code n = SQLITE_OK) ∧ ∀ nTimeoutLimit fuel,
      copyLoop sch.code nTimeoutLimit fuel ⟨SQLITE_OK, 0⟩ = none := by
  refine ⟨fun n => (h.idle (n + 1)).rc, fun nTimeoutLimit fuel => ?_⟩
  cases hloop : copyLoop sch.code nTimeoutLimit fuel ⟨SQLITE_OK, 0⟩ with
  | none => rfl
  | some pBackup =>
      rw [← copyLoop_max_zero] at hloop
      obtain ⟨n, -, hends, -⟩ := (copyLoop_eq_some (le_max_right _ _) fuel).mp hloop
      exact absurd (h.idle (n + 1)).rc hends.ne_ok

end Disturbed

theorem copyLoop_starves_small :
    copyLoop (smallSchedule fun _ => [.external smallFile]).code 3 100 ⟨SQLITE_OK, 0⟩ = none :=
  (copyLoop_starves ⟨by decide, by decide, fun _ => ⟨smallFile, rfl, by decide⟩,
    fun _ => fine_fineStep _⟩).2 3 100

end Sqlite
end IdeMultiarch
