import IdeMultiarch.Sqlite.NativeDB
import IdeMultiarch.Sqlite.OnlineBackup

/-!
# Sqlite - a copy while the source is used

Between two steps of a copy the source may be read and written, by the same connection and by
others, in any order, and the pager of the destination may write pages early.  What is left when the
copy is finished changes once, when a step is done, and then it is a copy of what was committed to
the source.

Main results:

- Theorem {lit}`System.finish_spillDest`: pages that are written early are restored.
- Theorem {lit}`System.Invariant.happen`: no event spoils the pages that were copied.
- Theorem {lit}`System.Invariant.step`: nor does a step.
- Theorem {lit}`backup_atomic`: the destination is as before, or a copy.
-/

namespace IdeMultiarch
namespace Sqlite

open Library (Image Journal)

/-! ## The destination -/

section Destination

variable {size : PageSize} {dest : Image}

/-- A transaction that begins has changed nothing. -/
theorem DestPager.rollback_begin (size : PageSize) (pager : DestPager) :
    (pager.begin size).rollback = pager.rollback := by
  obtain ⟨file, journal⟩ := pager
  cases journal with
  | none => exact Journal.restore_nil size.bytes file
  | some journal => rfl

/-- A page that is written early is restored. -/
theorem DestPager.rollback_stress (pager : DestPager) (pgno : Nat) :
    (pager.stress size dest pgno).rollback = pager.rollback := by
  obtain ⟨file, journal⟩ := pager
  cases journal with
  | none => rfl
  | some journal =>
      unfold DestPager.stress
      dsimp only
      split
      · rfl
      · exact journal.restore_save file (pgno - 1) fun k =>
          dest.byte ((pgno - 1) * journal.block + k)

theorem DestPager.rollback_stress_all (pager : DestPager) (pages : List Nat) :
    (pages.foldl (DestPager.stress size dest) pager).rollback = pager.rollback := by
  induction pages generalizing pager with
  | nil => rfl
  | cons pgno pages ih => exact (ih _).trans (pager.rollback_stress pgno)

/-- So are some. -/
@[simp]
theorem System.finish_spillDest (size : PageSize) (pages : List Nat) (s : System) :
    (s.spillDest size pages).finish = s.finish :=
  s.destPager.rollback_stress_all pages

end Destination

/-! ## The invariant -/

/-- A copy that can go on. -/
def System.Alive (s : System) : Prop :=
  isFatalError s.p.rc = false

/-- What holds of the source: in a transaction the file is locked, and its pages are as before until
one is written early.  Pages are counted from one. -/
structure SourcePager.WellFormed (src : SourcePager) : Prop where
  locked : src.reading = true ∨ src.saved ≠ none → src.changed = false
  untouched : ∀ saved, src.saved = some saved → src.spilled = false → src.file = saved
  inMemory : src.mode = .memory → src.spilled = false
  cached : src.cache 0 = none
  journaled : 0 ∉ src.journal

/-- What holds of a copy that can go on: it is told about changes unless it copied nothing, and the
pages that it copied are those of the source unless another connection changed them. -/
structure System.Copied (z : PageSizes) (s : System) : Prop where
  began : s.p.isAttached = false ∨ s.p.bDestLocked = false → s.p.iNext = 1
  pos : 0 < s.p.iNext
  agrees : s.src.changed = false → Agrees z s.src.file (s.p.iNext - 1) s.dest

structure System.Invariant (z : PageSizes) (s : System) : Prop where
  source : s.src.WellFormed
  copied : s.Alive → s.Copied z

/-- The destination will be the same, and a copy that cannot go on keeps its code. -/
structure Keeps (s s' : System) : Prop where
  finish : s'.finish = s.finish
  dead : ¬ s.Alive → s'.p.rc = s.p.rc
  not_done : s.p.rc ≠ SQLITE_DONE → s'.p.rc ≠ SQLITE_DONE

/-- A copy goes along with a change of the source. -/
structure Follows (z : PageSizes) (s s' : System) : Prop extends Keeps s s' where
  copied : (s.Alive → s.Copied z) → s'.Alive → s'.Copied z

/-- What is written into the file of the source is told. -/
structure Told (z : PageSizes) (s s' : System) : Prop extends Follows z s s' where
  src : ∃ file, s'.src = { s.src with file := file }

/-- What an event does. -/
structure Happened (z : PageSizes) (s s' : System) : Prop extends Follows z s s' where
  source : s'.src.WellFormed

section Events

variable {z : PageSizes} {s s' s'' : System} {put : Nat → PageAnswer} {stale : Nat → Page}

/-! ## Codes -/

/-- What goes wrong with a page cannot be repaired. -/
theorem PageAnswer.fatal (answer : PageAnswer) (h : answer.rc ≠ SQLITE_OK) :
    isFatalError answer.rc = true := by
  rw [← Bool.not_eq_false, isFatalError_eq_false]
  rintro (hok | hbusy | hlocked)
  · exact h hok
  · exact answer.not_busy hbusy
  · exact answer.not_locked hlocked

/-- Copying a page succeeds, or it cannot be repaired. -/
theorem backupOnePageFrom_code (put : Nat → PageAnswer) (zSrcData : Page) (header : Option UInt32)
    (n iOff : Nat) (dest : Image) :
    (backupOnePageFrom z put zSrcData header n iOff dest).1 = SQLITE_OK ∨
      isFatalError (backupOnePageFrom z put zSrcData header n iOff dest).1 = true ∧
        (backupOnePageFrom z put zSrcData header n iOff dest).1 ≠ SQLITE_DONE := by
  induction n generalizing iOff dest with
  | zero => exact Or.inl rfl
  | succ n ih =>
      rw [backupOnePageFrom]
      split
      · exact ih _ _
      · split
        next hfailed => exact Or.inr ⟨(put _).fatal hfailed, (put _).not_done⟩
        · exact ih _ _

theorem backupOnePage_code (put : Nat → PageAnswer) (i : Nat) (zSrcData : Page)
    (header : Option UInt32) (dest : Image) :
    (backupOnePage z put i zSrcData header dest).1 = SQLITE_OK ∨
      isFatalError (backupOnePage z put i zSrcData header dest).1 = true ∧
        (backupOnePage z put i zSrcData header dest).1 ≠ SQLITE_DONE :=
  backupOnePageFrom_code put zSrcData header _ _ dest

/-! ## Copies that go on -/

/-- A copy that begins has nothing to be wrong. -/
theorem System.Copied.of_begin (h : s.p.iNext = 1) : s.Copied z where
  began _ := h
  pos := by omega
  agrees _ := by
    rw [h]
    exact Agrees.zero z _ _

/-- Only the file of the source changed, and it did not get other pages. -/
theorem System.Copied.of_same (h : s.Copied z) (hp : s'.p = s.p) (hdest : s'.dest = s.dest)
    (hfile : s'.src.changed = false → s.src.changed = false ∧
      ∀ i data, s'.src.file.page i = some data → s.src.file.page i = some data) :
    s'.Copied z where
  began := by
    rw [hp]
    exact h.began
  pos := by
    rw [hp]
    exact h.pos
  agrees hchanged := by
    obtain ⟨hbefore, hsub⟩ := hfile hchanged
    rw [hp, hdest]
    exact (h.agrees hbefore).of_subset hsub

theorem Keeps.of_same (hfinish : s'.finish = s.finish) (hrc : s'.p.rc = s.p.rc) : Keeps s s' where
  finish := hfinish
  dead _ := hrc
  not_done h := by
    rw [hrc]
    exact h

theorem Keeps.trans (h : Keeps s s') (h' : Keeps s' s'') : Keeps s s'' where
  finish := h'.finish.trans h.finish
  dead hdead := by
    have hrc := h.dead hdead
    have hdead' : ¬ s'.Alive := by
      unfold System.Alive
      rw [hrc]
      exact hdead
    exact (h'.dead hdead').trans hrc
  not_done := h'.not_done ∘ h.not_done

theorem Follows.trans (h : Follows z s s') (h' : Follows z s' s'') : Follows z s s'' :=
  ⟨h.toKeeps.trans h'.toKeeps, h'.copied ∘ h.copied⟩

/-- The source does not get other pages. -/
theorem Follows.of_src (s : System) {src : SourcePager}
    (hfile : src.changed = false → s.src.changed = false ∧
      ∀ i data, src.file.page i = some data → s.src.file.page i = some data) :
    Follows z s { s with src := src } :=
  ⟨Keeps.of_same rfl rfl, fun hcopied halive => (hcopied halive).of_same rfl rfl hfile⟩

theorem Told.refl (z : PageSizes) (s : System) : Told z s s :=
  ⟨⟨Keeps.of_same rfl rfl, id⟩, ⟨s.src.file, rfl⟩⟩

theorem Told.trans (h : Told z s s') (h' : Told z s' s'') : Told z s s'' := by
  obtain ⟨file, hsrc⟩ := h.src
  obtain ⟨file', hsrc'⟩ := h'.src
  refine ⟨h.toFollows.trans h'.toFollows, ⟨file', ?_⟩⟩
  rw [hsrc', hsrc]

/-- A page that is written is copied again, unless it was not copied yet. -/
theorem told_writePage (put : Nat → PageAnswer) (stale : Nat → Page) {i : Nat} (hi : 0 < i)
    (content : Option Page) (s : System) : Told z s (writePage z put stale i content s) := by
  unfold writePage backupUpdate
  dsimp only
  split
  next hcopy =>
    obtain ⟨hattached, halive, hlt⟩ := hcopy
    have hcode := backupOnePage_code (z := z) put i (content.getD (stale i)) none s.dest
    refine ⟨⟨⟨rfl, fun hdead => absurd halive hdead, fun hdone => ?_⟩,
      fun hcopied halive' => ?_⟩, ⟨_, rfl⟩⟩
    · dsimp only
      split
      · exact hdone
      next hfailed => exact (hcode.resolve_left hfailed).2
    have h := hcopied halive
    have hok : (backupOnePage z put i (content.getD (stale i)) none s.dest).1 = SQLITE_OK := by
      by_contra hfailed
      have hfatal := (hcode.resolve_left hfailed).1
      unfold System.Alive at halive'
      dsimp only at halive'
      rw [if_neg hfailed] at halive'
      exact Bool.false_ne_true (halive'.symm.trans hfatal)
    refine ⟨h.began, h.pos, fun hchanged => ?_⟩
    refine (h.agrees hchanged).copyPage hi hok ?_ ?_ ?_
    · intro j hj
      exact Function.update_of_ne hj _ _
    · intro data hdata
      change Function.update s.src.file.page i content i = some data at hdata
      rw [Function.update_self] at hdata
      rw [hdata]
      rfl
    · intro j hj _
      exact hj
  next hnot =>
    refine ⟨⟨Keeps.of_same rfl rfl, fun hcopied halive => ?_⟩, ⟨_, rfl⟩⟩
    have h := hcopied halive
    refine ⟨h.began, h.pos, fun hchanged => ?_⟩
    refine (h.agrees hchanged).of_later (i := i) (Or.inr ?_) fun j hj =>
      Function.update_of_ne hj _ _
    have hpos := h.pos
    by_cases hattached : s.p.isAttached = true
    · have hlater : ¬ i < s.p.iNext := fun hlt => hnot ⟨hattached, halive, hlt⟩
      omega
    · have hbegan := h.began (Or.inl (Bool.eq_false_of_not_eq_true hattached))
      omega

theorem pos_of_some {cache : Nat → Option Page} (hzero : cache 0 = none) {i : Nat} {data : Page}
    (h : cache i = some data) : 0 < i := by
  refine Nat.pos_of_ne_zero ?_
  rintro rfl
  rw [hzero] at h
  cases h

/-- So does a commit. -/
theorem told_writeDirty (put : Nat → PageAnswer) {cache : Nat → Option Page} (hzero : cache 0 = none)
    (count : Nat) (written : List Nat) (s : System) :
    Told z s (writeDirty z put cache count written s) := by
  induction written generalizing s with
  | nil => exact Told.refl z s
  | cons i written ih =>
      unfold writeDirty
      split
      next data hdata =>
        have hi := pos_of_some hzero hdata
        split
        · exact (told_writePage put (fun _ => data) hi (some data) s).trans (ih _)
        · exact ih s
      next => exact ih s

theorem told_playback (put : Nat → PageAnswer) (stale : Nat → Page) (saved : Pages)
    {journal : List Nat} (hzero : 0 ∉ journal) (s : System) :
    Told z s (playback z put stale saved journal s) := by
  induction journal generalizing s with
  | nil => exact Told.refl z s
  | cons i journal ih =>
      rw [List.mem_cons, not_or] at hzero
      exact (told_writePage put stale (Nat.pos_of_ne_zero (Ne.symm hzero.1)) _ s).trans
        (ih hzero.2 _)

/-! ## Locks -/

/-- A copy that begins again has copied nothing. -/
theorem backupRestart_spec (s : System) :
    (backupRestart s).src = s.src ∧ (backupRestart s).destPager = s.destPager ∧
      (backupRestart s).dest = s.dest ∧ (backupRestart s).p = { s.p with
        iNext := if s.p.isAttached then 1 else s.p.iNext } := by
  unfold backupRestart
  split
  · exact ⟨rfl, rfl, rfl, rfl⟩
  · exact ⟨rfl, rfl, rfl, rfl⟩

theorem backupRestart_of_src (s : System) (src : SourcePager) :
    backupRestart { s with src := src } = { backupRestart s with src := src } := by
  unfold backupRestart
  split
  · rfl
  · rfl

/-- It goes along with every change. -/
theorem follows_backupRestart (s : System) (src : SourcePager) :
    Follows z s { backupRestart s with src := src } := by
  obtain ⟨-, hpager, -, hp⟩ := backupRestart_spec s
  have hrc : (backupRestart s).p.rc = s.p.rc := by rw [hp]
  refine ⟨Keeps.of_same (congrArg DestPager.rollback hpager) hrc, fun hcopied halive =>
    System.Copied.of_begin ?_⟩
  dsimp only
  rw [hp]
  dsimp only
  split
  · rfl
  next hattached =>
    have hbefore : s.Alive := by
      unfold System.Alive at halive ⊢
      rwa [← hrc]
    exact (hcopied hbefore).began (Or.inl (Bool.eq_false_of_not_eq_true hattached))

/-- After the file was locked, no change is unknown. -/
theorem lockSource_src (s : System) : (lockSource s).src = { s.src with changed := false } := by
  unfold lockSource
  split
  · exact (backupRestart_spec _).1
  next hchanged => rw [← Bool.eq_false_of_not_eq_true hchanged]

theorem rc_lockSource (s : System) : (lockSource s).p.rc = s.p.rc := by
  unfold lockSource
  split
  · rw [(backupRestart_spec _).2.2.2]
  · rfl

theorem follows_lockSource (s : System) : Follows z s (lockSource s) := by
  unfold lockSource
  split
  · rw [backupRestart_of_src]
    exact follows_backupRestart s _
  · exact (Told.refl z s).toFollows

/-! ## Events -/

/-- In a transaction no change is unknown. -/
theorem SourcePager.WellFormed.lock {src : SourcePager} (h : src.WellFormed) :
    { src with changed := false }.WellFormed where
  locked _ := rfl
  untouched := h.untouched
  inMemory := h.inMemory
  cached := h.cached
  journaled := h.journaled

theorem SourcePager.WellFormed.close {src : SourcePager} (h : src.WellFormed) (file : Pages) :
    { src with
      file := file, saved := none, cache := fun _ => none, journal := [], modified := false,
      spilled := false }.WellFormed where
  locked htransaction := h.locked (htransaction.imp id fun hnone => absurd rfl hnone)
  untouched _ hsaved := by cases hsaved
  inMemory _ := rfl
  cached := rfl
  journaled := List.not_mem_nil

/-- The pages that a commit leaves are those in the file. -/
theorem committed_subset {cache : Nat → Option Page} {written : List Nat} {count : Nat}
    {file : Pages} {i : Nat} {data : Page}
    (h : (committed cache written count file).page i = some data) : file.page i = some data := by
  unfold committed Pages.cut at h
  dsimp only at h
  split at h
  · split at h
    · cases h
    · exact h
  · cases h

theorem cut_subset {pages : Pages} {count i : Nat} {data : Page}
    (h : (pages.cut count).page i = some data) : pages.page i = some data := by
  unfold Pages.cut at h
  dsimp only at h
  split at h
  · exact h
  · cases h

theorem Happened.refl (h : s.src.WellFormed) : Happened z s s :=
  ⟨(Told.refl z s).toFollows, h⟩

/-- What ends a transaction may drop pages. -/
theorem Told.close (htold : Told z s s') (h : s.src.WellFormed) {file : Pages}
    (hfile : ∀ i data, file.page i = some data → s'.src.file.page i = some data) :
    Happened z s (closeWrite file s') := by
  obtain ⟨written, hsrc⟩ := htold.src
  refine ⟨htold.toFollows.trans (Follows.of_src s' fun hchanged => ⟨hchanged, hfile⟩), ?_⟩
  unfold closeWrite
  dsimp only
  rw [hsrc]
  exact h.close file

/-- If the copy begins again, the file may be any. -/
theorem happened_close_restart (h : s.src.WellFormed) (file : Pages) :
    Happened z s (closeWrite file (backupRestart s)) := by
  refine ⟨follows_backupRestart s _, ?_⟩
  unfold closeWrite
  dsimp only
  rw [(backupRestart_spec s).1]
  exact h.close file

theorem happened_beginRead (h : s.src.WellFormed) : Happened z s (s.happen z .beginRead) := by
  unfold System.happen
  dsimp only
  split
  · exact Happened.refl h
  · refine ⟨(follows_lockSource s).trans (Follows.of_src _ fun hchanged =>
      ⟨hchanged, fun i data hdata => hdata⟩), ?_⟩
    dsimp only
    rw [lockSource_src]
    exact ⟨fun _ => rfl, h.untouched, h.inMemory, h.cached, h.journaled⟩

theorem happened_endRead (h : s.src.WellFormed) : Happened z s (s.happen z .endRead) := by
  refine ⟨Follows.of_src s fun hchanged => ⟨hchanged, fun i data hdata => hdata⟩,
    ⟨fun htransaction => h.locked ?_, h.untouched, h.inMemory, h.cached, h.journaled⟩⟩
  exact htransaction.imp (fun hreading => by cases hreading) id

theorem happened_beginWrite (h : s.src.WellFormed) : Happened z s (s.happen z .beginWrite) := by
  have hbegin : ∀ t : System, Follows z s t → t.src.WellFormed → t.src.changed = false →
      Happened z s { t with src := { t.src with saved := some t.src.file } } := by
    intro t hfollows hsource hlocked
    refine ⟨hfollows.trans (Follows.of_src t fun hchanged =>
      ⟨hchanged, fun i data hdata => hdata⟩), ?_⟩
    exact ⟨fun _ => hlocked, fun saved hsaved _ => Option.some.inj hsaved, hsource.inMemory,
      hsource.cached, hsource.journaled⟩
  unfold System.happen
  dsimp only
  split
  · exact Happened.refl h
  · split
    next hreading =>
      exact hbegin s (Told.refl z s).toFollows h (h.locked (Or.inl hreading))
    next =>
      refine hbegin (lockSource s) (follows_lockSource s) ?_ ?_
      · rw [lockSource_src]
        exact h.lock
      · rw [lockSource_src]

theorem happened_modify (h : s.src.WellFormed) (i : Nat) (data : Page) :
    Happened z s (s.happen z (.modify i data)) := by
  unfold System.happen
  dsimp only
  split
  next saved hsaved =>
    split
    · exact Happened.refl h
    next hpage =>
      obtain ⟨hi, -⟩ := not_or.mp hpage
      refine ⟨Follows.of_src s fun hchanged => ⟨hchanged, fun i data hdata => hdata⟩,
        ⟨h.locked, h.untouched, h.inMemory, ?_, ?_⟩⟩
      · exact (Function.update_of_ne (Ne.symm hi) _ _).trans h.cached
      · dsimp only
        split
        · rw [List.mem_append, List.mem_singleton, not_or]
          exact ⟨h.journaled, Ne.symm hi⟩
        · exact h.journaled
  next => exact Happened.refl h

theorem happened_spill (h : s.src.WellFormed) (i : Nat) (put : Nat → PageAnswer) :
    Happened z s (s.happen z (.spill i put)) := by
  unfold System.happen
  dsimp only
  split
  next data hdata =>
    split
    · exact Happened.refl h
    next hmode =>
      have hi := pos_of_some h.cached hdata
      have htold := told_writePage (z := z) put (fun _ => data) hi (some data) s
      obtain ⟨file, hsrc⟩ := htold.src
      refine ⟨htold.toFollows.trans (Follows.of_src _ fun hchanged =>
        ⟨hchanged, fun i data hdata => hdata⟩), ?_⟩
      dsimp only
      rw [hsrc]
      refine ⟨h.locked, fun saved _ hspilled => ?_, fun hmemory => absurd hmemory hmode, ?_,
        h.journaled⟩
      · cases hspilled
      · exact (Function.update_of_ne hi.ne _ _).trans h.cached
  next => exact Happened.refl h

theorem happened_commit (h : s.src.WellFormed) (written : List Nat) (count : Nat)
    (put : Nat → PageAnswer) : Happened z s (s.happen z (.commit written count put)) := by
  unfold System.happen
  dsimp only
  split
  next saved hsaved =>
    split
    · exact (Told.refl z s).close h fun i data hdata => hdata
    · split
      · exact happened_close_restart h _
      · exact (told_writeDirty put h.cached count written s).close h fun i data hdata =>
          committed_subset hdata
  next => exact Happened.refl h

theorem happened_rollback (h : s.src.WellFormed) (put : Nat → PageAnswer) (stale : Nat → Page) :
    Happened z s (s.happen z (.rollback put stale)) := by
  unfold System.happen
  dsimp only
  split
  next saved hsaved =>
    -- nothing was written early
    have hsame : s.src.spilled = false → Happened z s (closeWrite saved s) := by
      intro hspilled
      refine (Told.refl z s).close h fun i data hdata => ?_
      rwa [h.untouched saved hsaved hspilled]
    split
    next hmode =>
      have htold : Told z s (if s.src.spilled then playback z put stale saved s.src.journal s
          else s) := by
        split
        · exact told_playback put stale saved h.journaled s
        · exact Told.refl z s
      exact htold.close h fun i data hdata => cut_subset hdata
    next hmode =>
      -- the log is cut, so nothing can be told
      split
      · exact happened_close_restart h saved
      next hclean => exact hsame (Bool.eq_false_of_not_eq_true (not_or.mp hclean).1)
    next hmode => exact hsame (h.inMemory hmode)
  next => exact Happened.refl h

theorem happened_external (h : s.src.WellFormed) (file : Pages) :
    Happened z s (s.happen z (.external file)) := by
  unfold System.happen
  dsimp only
  split
  · exact Happened.refl h
  next hidle =>
    obtain ⟨hreading, hrest⟩ := not_or.mp hidle
    have hnone : s.src.saved = none := Option.not_isSome_iff_eq_none.mp (not_or.mp hrest).1
    refine ⟨Follows.of_src s fun hchanged => (by cases hchanged),
      ⟨fun htransaction => ?_, fun saved hsome => ?_, h.inMemory, h.cached, h.journaled⟩⟩
    · rcases htransaction with hread | hwrite
      · exact absurd hread hreading
      · exact absurd hnone hwrite
    · rw [hnone] at hsome
      cases hsome

theorem happened_destSpill (h : s.src.WellFormed) (pages : List Nat) :
    Happened z s (s.happen z (.destSpill pages)) := by
  refine ⟨⟨Keeps.of_same (System.finish_spillDest z.dest pages s) rfl, fun hcopied halive => ?_⟩, h⟩
  exact (hcopied halive).of_same rfl rfl fun hchanged => ⟨hchanged, fun i data hdata => hdata⟩

/-- Whatever happens, the copy goes along with it. -/
theorem happened (h : s.src.WellFormed) (event : Event) : Happened z s (s.happen z event) := by
  cases event with
  | beginRead => exact happened_beginRead h
  | endRead => exact happened_endRead h
  | beginWrite => exact happened_beginWrite h
  | modify i data => exact happened_modify h i data
  | spill i put => exact happened_spill h i put
  | commit written count put => exact happened_commit h written count put
  | rollback put stale => exact happened_rollback h put stale
  | external file => exact happened_external h file
  | destSpill pages => exact happened_destSpill h pages

/-- No event spoils the pages that were copied. -/
theorem System.Invariant.happen (h : s.Invariant z) (event : Event) :
    (s.happen z event).Invariant z :=
  ⟨(happened h.source event).source, (happened h.source event).copied h.copied⟩

end Events

/-! ## Steps -/

/-- What a step did before it copies pages. -/
structure Prepared (z : PageSizes) (s : System) (prepared : ResultCode × System) : Prop where
  rc : prepared.2.p.rc = s.p.rc
  finish : prepared.2.finish = s.finish
  invariant : prepared.2.Invariant z
  not_done : prepared.1 ≠ SQLITE_DONE
  ready : prepared.1 = SQLITE_OK →
    prepared.2.src.saved = none ∧ prepared.2.src.changed = false

/-- While a step copies pages, nobody changes the source. -/
structure Copying (z : PageSizes) (s : System) : Prop where
  locked : s.p.bDestLocked = true
  pos : 0 < s.p.iNext
  agrees : Agrees z s.src.file (s.p.iNext - 1) s.dest

/-- What a step does. -/
structure Worked (z : PageSizes) (s : System) (work : ResultCode × System) : Prop where
  source : work.2.src.WellFormed
  copied : isFatalError work.1 = false → work.2.Copied z
  done : work.1 = SQLITE_DONE → work.2.src.saved = none ∧ work.2.src.changed = false ∧
    IsCopy z work.2.src.file work.2.finish
  not_done : work.1 ≠ SQLITE_DONE → work.2.finish = s.finish

section Steps

variable {z : PageSizes} {s : System} {io : StepIo} {nSrcPage n : Nat} {nPage : Int}

theorem ok_ne_done : SQLITE_OK ≠ SQLITE_DONE := by
  decide

theorem error_ne (rc : ResultCode) (h : rc ∈ [SQLITE_BUSY, SQLITE_NOMEM, SQLITE_READONLY]) :
    rc ≠ SQLITE_OK ∧ rc ≠ SQLITE_DONE := by
  revert rc
  decide

theorem isFatalError_done : isFatalError SQLITE_DONE = true := by
  decide

theorem prepared_openSource (h : s.Invariant z) (io : StepIo) :
    Prepared z s (openSource io s) := by
  unfold openSource
  split
  · obtain ⟨hok, hdone⟩ := error_ne SQLITE_BUSY (by simp)
    exact ⟨rfl, rfl, h, hdone, fun hbusy => absurd hbusy hok⟩
  next hidle =>
    have hnone : s.src.saved = none := Option.not_isSome_iff_eq_none.mp hidle
    split
    next hreading =>
      exact ⟨rfl, rfl, h, ok_ne_done, fun _ => ⟨hnone, h.source.locked (Or.inl hreading)⟩⟩
    · split
      · have hfollows := follows_lockSource (z := z) s
        refine ⟨rc_lockSource s, hfollows.finish, ⟨?_, hfollows.copied h.copied⟩, ok_ne_done,
          fun _ => ?_⟩
        · rw [lockSource_src]
          exact h.source.lock
        · rw [lockSource_src]
          exact ⟨hnone, rfl⟩
      next hfailed =>
        exact ⟨rfl, rfl, h, io.beginSrc.not_done, fun hok => absurd hok hfailed⟩

theorem lockDest_spec (h : s.Invariant z) (io : StepIo) :
    (lockDest z io s).2.p.rc = s.p.rc ∧ (lockDest z io s).2.src = s.src ∧
      (lockDest z io s).2.finish = s.finish ∧ (lockDest z io s).2.Invariant z ∧
      (lockDest z io s).1 ≠ SQLITE_DONE ∧
      ((lockDest z io s).1 = SQLITE_OK → (lockDest z io s).2.p.bDestLocked = true) := by
  unfold lockDest
  split
  next hlocked => exact ⟨rfl, rfl, rfl, h, ok_ne_done, fun _ => hlocked⟩
  next hnot =>
    have hfalse : s.p.bDestLocked = false := Bool.eq_false_of_not_eq_true hnot
    split
    · obtain ⟨hok, hdone⟩ := error_ne SQLITE_NOMEM (by simp)
      exact ⟨rfl, rfl, rfl, h, hdone, fun hnomem => absurd hnomem hok⟩
    · split
      · refine ⟨rfl, rfl, s.destPager.rollback_begin z.dest, ⟨h.source, fun halive => ?_⟩,
          ok_ne_done, fun _ => rfl⟩
        exact System.Copied.of_begin ((h.copied halive).began (Or.inr hfalse))
      next hfailed =>
        exact ⟨rfl, rfl, rfl, h, io.beginDest.not_done, fun hok => absurd hok hfailed⟩

/-- Before a step copies pages, the source is locked, and so is the destination. -/
theorem prepareStep_spec (h : s.Invariant z) (io : StepIo) :
    Prepared z s (prepareStep z io s) ∧ ((prepareStep z io s).1 = SQLITE_OK →
      (prepareStep z io s).2.p.bDestLocked = true) := by
  have hopen := prepared_openSource h io
  unfold prepareStep
  dsimp only
  split
  next hfailed => exact ⟨hopen, fun hok => absurd hok hfailed⟩
  next hopened =>
    obtain ⟨hsaved, hchanged⟩ := hopen.ready (not_ne_iff.mp hopened)
    obtain ⟨hrc, hsrc, hfinish, hinv, hdone, hlocked⟩ := lockDest_spec hopen.invariant io
    have hprepared : Prepared z s (lockDest z io (openSource io s).2) :=
      ⟨hrc.trans hopen.rc, hfinish.trans hopen.finish, hinv, hdone, fun _ =>
        ⟨by rw [hsrc, hsaved], by rw [hsrc, hchanged]⟩⟩
    split
    next hfailed => exact ⟨hprepared, fun hok => absurd hok hfailed⟩
    · split
      · obtain ⟨hok, hdone⟩ := error_ne SQLITE_READONLY (by simp)
        exact ⟨⟨hprepared.rc, hprepared.finish, hinv, hdone, fun hreadonly => absurd hreadonly hok⟩,
          fun hreadonly => absurd hreadonly hok⟩
      · exact ⟨hprepared, hlocked⟩

/-- One round touches the destination and the number of the next page only. -/
theorem copyNext_frame (z : PageSizes) (io : StepIo) (nSrcPage : Nat) (s : System) :
    (copyNext z io nSrcPage s).2.src = s.src ∧ (copyNext z io nSrcPage s).2.finish = s.finish ∧
      (copyNext z io nSrcPage s).2.p = { s.p with iNext := s.p.iNext + 1 } ∧
      ((copyNext z io nSrcPage s).1 = SQLITE_OK ∨
        isFatalError (copyNext z io nSrcPage s).1 = true ∧
          (copyNext z io nSrcPage s).1 ≠ SQLITE_DONE) := by
  have hfinish := System.finish_spillDest z.dest (io.destSpill s.p.iNext) s
  unfold copyNext
  dsimp only
  split
  · exact ⟨rfl, hfinish, rfl, Or.inl rfl⟩
  · split
    next hfailed =>
      exact ⟨rfl, hfinish, rfl, Or.inr ⟨(io.get _).fatal hfailed, (io.get _).not_done⟩⟩
    · exact ⟨rfl, hfinish, rfl, backupOnePage_code _ _ _ _ _⟩

/-- After a round without an error one more page agrees. -/
theorem Copying.next (h : Copying z s) (hok : (copyNext z io nSrcPage s).1 = SQLITE_OK) :
    Copying z (copyNext z io nSrcPage s).2 := by
  obtain ⟨hsrc, -, hp, -⟩ := copyNext_frame z io nSrcPage s
  have hpos := h.pos
  refine ⟨by rw [hp]; exact h.locked, by rw [hp]; exact Nat.succ_pos _, ?_⟩
  rw [hsrc, hp]
  dsimp only
  unfold copyNext at hok ⊢
  dsimp only [System.spillDest] at hok ⊢
  split
  next hpending =>
    have hskip := h.agrees.skip (by omega)
    rwa [Nat.sub_add_cancel hpos] at hskip
  next hused =>
    rw [if_neg hused] at hok
    split
    next hfailed =>
      rw [if_pos hfailed] at hok
      exact absurd hok hfailed
    next hread =>
      rw [if_neg hread] at hok
      refine h.agrees.copyPage hpos hok (fun j _ => rfl) ?_ ?_
      · intro data hdata
        rw [SourcePager.pageData, hdata]
        rfl
      · intro j hj hne
        omega

/-- So do the others after the loop. -/
theorem copyPages_spec (z : PageSizes) (io : StepIo) (nSrcPage n : Nat) (s : System) :
    (copyPages z io nSrcPage n s).2.src = s.src ∧
      (copyPages z io nSrcPage n s).2.finish = s.finish ∧
      (∃ iNext, (copyPages z io nSrcPage n s).2.p = { s.p with iNext := iNext }) ∧
      ((copyPages z io nSrcPage n s).1 = SQLITE_OK ∨
        isFatalError (copyPages z io nSrcPage n s).1 = true ∧
          (copyPages z io nSrcPage n s).1 ≠ SQLITE_DONE) ∧
      (Copying z s → (copyPages z io nSrcPage n s).1 = SQLITE_OK →
        Copying z (copyPages z io nSrcPage n s).2) := by
  induction n generalizing s with
  | zero => exact ⟨rfl, rfl, ⟨s.p.iNext, rfl⟩, Or.inl rfl, fun h _ => h⟩
  | succ n ih =>
      rw [copyPages]
      split
      · exact ⟨rfl, rfl, ⟨s.p.iNext, rfl⟩, Or.inl rfl, fun h _ => h⟩
      · obtain ⟨hsrc, hfile, hp, hcode⟩ := copyNext_frame z io nSrcPage s
        dsimp only
        split
        next hok =>
          obtain ⟨hsrc', hfile', ⟨iNext, hp'⟩, hcode', hcopying⟩ := ih (copyNext z io nSrcPage s).2
          refine ⟨hsrc'.trans hsrc, hfile'.trans hfile, ⟨iNext, ?_⟩, hcode', fun h =>
            hcopying (h.next hok)⟩
          rw [hp', hp]
        next hfailed =>
          exact ⟨hsrc, hfile, ⟨_, hp⟩, hcode, fun _ hok => absurd hok hfailed⟩

/-- At the end of a step all pages were copied, or the copy is told about changes from now on. -/
theorem Copying.finishStep (h : Copying z s) (hsource : s.src.WellFormed)
    (hsaved : s.src.saved = none) (hchanged : s.src.changed = false) (io : StepIo) :
    Worked z s (finishStep z io s.src.file.count s) := by
  unfold Sqlite.finishStep
  dsimp only
  split
  next hall =>
    split
    next hcommit =>
      have hle : s.src.file.count ≤ s.p.iNext - 1 := by omega
      refine ⟨hsource, fun hfatal => absurd isFatalError_done (Bool.eq_false_iff.mp hfatal),
        fun _ => ⟨hsaved, hchanged, ?_⟩, fun hne => absurd rfl hne⟩
      refine Agrees.finishDest_isCopy (s := { s with p := { s.p with
        nPagecount := s.src.file.count, nRemaining := s.src.file.count + 1 - s.p.iNext } }) io ?_
      constructor
      · intro off hoff hshared
        exact h.agrees.within off (hoff.trans_le (Nat.mul_le_mul_right _ hle)) hshared
      · intro off hoff hshared
        exact h.agrees.byte off (hoff.trans_le (Nat.mul_le_mul_right _ hle)) hshared
    next hfailed =>
      refine ⟨hsource, fun hfatal => ?_, fun hdone => absurd hdone io.commit.not_done, fun _ =>
        System.finish_spillDest z.dest io.destWritten _⟩
      rw [io.commit.fatal hfailed] at hfatal
      cases hfatal
  next hmore =>
    refine ⟨hsource, fun _ => ⟨?_, h.pos, fun _ => h.agrees⟩, fun hdone => absurd hdone ok_ne_done,
      fun _ => rfl⟩
    rintro (hattached | hlocked)
    · cases hattached
    · rw [h.locked] at hlocked
      cases hlocked

theorem worked_stepWork (h : s.Invariant z) (halive : s.Alive) (nPage : Int) (io : StepIo) :
    Worked z s (stepWork z nPage io s) := by
  obtain ⟨hprepared, hlocked⟩ := prepareStep_spec h io
  have halive' : (prepareStep z io s).2.Alive := by
    unfold System.Alive
    rw [hprepared.rc]
    exact halive
  unfold stepWork
  dsimp only
  split
  next hfailed =>
    exact ⟨hprepared.invariant.source, fun _ => hprepared.invariant.copied halive',
      fun hdone => absurd hdone hprepared.not_done, fun _ => hprepared.finish⟩
  next hready =>
    have hok := not_ne_iff.mp hready
    obtain ⟨hsaved, hchanged⟩ := hprepared.ready hok
    have hcopied := hprepared.invariant.copied halive'
    have hbegin : Copying z (prepareStep z io s).2 :=
      ⟨hlocked hok, hcopied.pos, hcopied.agrees hchanged⟩
    obtain ⟨hsrc, hfile, ⟨iNext, hp⟩, hcode, hcopying⟩ := copyPages_spec z io
      (prepareStep z io s).2.src.file.count (pageBudget nPage (prepareStep z io s).2.src.file.count
        (prepareStep z io s).2.p.iNext) (prepareStep z io s).2
    split
    next hfailed =>
      obtain ⟨hfatal, hdone⟩ := hcode.resolve_left hfailed
      refine ⟨?_, fun halive => absurd hfatal (Bool.eq_false_iff.mp halive),
        fun hdone' => absurd hdone' hdone, fun _ => hfile.trans hprepared.finish⟩
      rw [hsrc]
      exact hprepared.invariant.source
    next hcopied =>
      have hworked := (hcopying hbegin (not_ne_iff.mp hcopied)).finishStep
        (by rw [hsrc]; exact hprepared.invariant.source) (by rw [hsrc]; exact hsaved)
        (by rw [hsrc]; exact hchanged) io
      rw [hsrc] at hworked
      exact ⟨hworked.source, hworked.copied, hworked.done, fun hdone =>
        ((hworked.not_done hdone).trans hfile).trans hprepared.finish⟩

/-- A step keeps the invariant. -/
theorem System.Invariant.step (h : s.Invariant z) (nPage : Int) (io : StepIo) :
    (s.step z nPage io).Invariant z := by
  unfold System.step
  split
  · exact h
  next halive =>
    have hworked := worked_stepWork h (Bool.eq_false_of_not_eq_true halive) nPage io
    refine ⟨hworked.source, fun halive' => ?_⟩
    unfold System.Alive at halive'
    dsimp only at halive'
    split at halive'
    · exact absurd halive' (by decide)
    · have hcopied := hworked.copied halive'
      exact ⟨hcopied.began, hcopied.pos, hcopied.agrees⟩

/-- The destination is a copy of what is committed to the source. -/
structure System.Snapshot (z : PageSizes) (s : System) : Prop where
  idle : s.src.saved = none
  unchanged : s.src.changed = false
  isCopy : IsCopy z s.src.file s.finish

/-- The destination changes only when a step is done, and then it is a copy. -/
theorem step_outcome (h : s.Invariant z) (halive : s.Alive) (nPage : Int) (io : StepIo) :
    ((s.step z nPage io).p.rc = SQLITE_DONE ∧ (s.step z nPage io).Snapshot z) ∨
      ((s.step z nPage io).p.rc ≠ SQLITE_DONE ∧ (s.step z nPage io).finish = s.finish) := by
  have hworked := worked_stepWork h halive nPage io
  have hnot : ¬ isFatalError s.p.rc = true := Bool.eq_false_iff.mp halive
  unfold System.step
  rw [if_neg hnot]
  dsimp only
  by_cases hdone : (stepWork z nPage io s).1 = SQLITE_DONE
  · obtain ⟨hsaved, hchanged, hcopy⟩ := hworked.done hdone
    refine Or.inl ⟨?_, hsaved, hchanged, hcopy⟩
    rw [hdone]
    exact if_neg (by decide)
  · refine Or.inr ⟨?_, hworked.not_done hdone⟩
    split
    · exact (error_ne SQLITE_NOMEM (by simp)).2
    · exact hdone

/-- After a fatal error, or when it is done, a step does nothing. -/
theorem step_of_dead (hdead : ¬ s.Alive) (nPage : Int) (io : StepIo) : s.step z nPage io = s :=
  if_pos (Bool.eq_true_of_not_eq_false hdead)

theorem not_alive_of_done (hdone : s.p.rc = SQLITE_DONE) : ¬ s.Alive := by
  unfold System.Alive
  rw [hdone, isFatalError_done]
  exact Bool.noConfusion

end Steps

/-! ## Runs -/

section Runs

variable {z : PageSizes} {s : System} {mode : JournalMode} {file : Pages} {destFile : Image}

theorem invariant_backupStart (z : PageSizes) (mode : JournalMode) (file : Pages)
    (destFile : Image) : (backupStart mode file destFile).Invariant z where
  source :=
    { locked := fun _ => rfl
      untouched := fun _ hsaved => by cases hsaved
      inMemory := fun _ => rfl
      cached := rfl
      journaled := List.not_mem_nil }
  copied _ := System.Copied.of_begin rfl

theorem System.Invariant.act (h : s.Invariant z) (action : Action) :
    (s.act z action).Invariant z := by
  cases action with
  | event event => exact h.happen event
  | step nPage io => exact h.step nPage io

theorem System.Invariant.run (h : s.Invariant z) (actions : List Action) :
    (s.run z actions).Invariant z := by
  induction actions generalizing s with
  | nil => exact h
  | cons action actions ih => exact ih (h.act action)

/-- A copy that is done stays as it is. -/
theorem act_of_done (h : s.Invariant z) (hdone : s.p.rc = SQLITE_DONE) (action : Action) :
    (s.act z action).p.rc = SQLITE_DONE ∧ (s.act z action).finish = s.finish := by
  have hdead := not_alive_of_done hdone
  cases action with
  | event event =>
      have hkeeps := (happened (z := z) h.source event).toKeeps
      exact ⟨(hkeeps.dead hdead).trans hdone, hkeeps.finish⟩
  | step nPage io =>
      rw [System.act, step_of_dead hdead]
      exact ⟨hdone, rfl⟩

/-- One action makes the destination a copy, or it leaves it. -/
theorem act_outcome (h : s.Invariant z) (hnot : s.p.rc ≠ SQLITE_DONE) (action : Action) :
    ((s.act z action).p.rc = SQLITE_DONE ∧ (s.act z action).Snapshot z) ∨
      ((s.act z action).p.rc ≠ SQLITE_DONE ∧ (s.act z action).finish = s.finish) := by
  cases action with
  | event event =>
      have hkeeps := (happened (z := z) h.source event).toKeeps
      exact Or.inr ⟨hkeeps.not_done hnot, hkeeps.finish⟩
  | step nPage io =>
      by_cases halive : s.Alive
      · exact step_outcome h halive nPage io
      · rw [System.act, step_of_dead halive]
        exact Or.inr ⟨hnot, rfl⟩

theorem System.run_append (z : PageSizes) (s : System) (actions : List Action) (action : Action) :
    s.run z (actions ++ [action]) = (s.run z actions).act z action := by
  unfold System.run
  rw [List.foldl_append]
  rfl

/-- Whatever happens during a copy: until it is done, the destination is left as before, and from
then on as what was committed to the source at that moment. -/
theorem run_outcome (h : s.Invariant z) (hnot : s.p.rc ≠ SQLITE_DONE) (actions : List Action) :
    ((s.run z actions).p.rc ≠ SQLITE_DONE ∧ (s.run z actions).finish = s.finish) ∨
      ((s.run z actions).p.rc = SQLITE_DONE ∧ ∃ before rest, actions = before ++ rest ∧
        (s.run z before).Snapshot z ∧ (s.run z actions).finish = (s.run z before).finish) := by
  induction actions using List.reverseRecOn with
  | nil => exact Or.inl ⟨hnot, rfl⟩
  | append_singleton actions action ih =>
      have hinv := h.run actions
      rcases ih with ⟨hrc, hfile⟩ | ⟨hdone, before, rest, rfl, hsnapshot, hfile⟩
      · have hact := act_outcome hinv hrc action
        rw [← System.run_append] at hact
        rcases hact with ⟨hdone, hsnapshot⟩ | ⟨hrc', hfile'⟩
        · exact Or.inr ⟨hdone, _, [], (List.append_nil _).symm, hsnapshot, rfl⟩
        · exact Or.inl ⟨hrc', hfile'.trans hfile⟩
      · obtain ⟨hrc', hfile'⟩ := act_of_done hinv hdone action
        rw [← System.run_append] at hrc' hfile'
        exact Or.inr ⟨hrc', before, rest ++ [action], List.append_assoc _ _ _, hsnapshot,
          hfile'.trans hfile⟩

end Runs

end Sqlite
end IdeMultiarch
