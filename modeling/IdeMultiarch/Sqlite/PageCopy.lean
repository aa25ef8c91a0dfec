import Mathlib.Logic.Function.Basic
import IdeMultiarch.Library.Image
import IdeMultiarch.Sqlite.Backup

/-!
# Sqlite - copying pages

How {lit}`sqlite3_backup_step` in {lit}`sqlite3.c` copies the pages of one database into another, what
the pager of the source tells a running copy about changes, and what may happen between two steps.

The result codes of the calls that a step makes are given from outside.  The destination is locked
exclusively from the first step on, so what is read and written in it never waits.  Page sizes do
not change during a copy; that of the destination is the one after {lit}`setDestPgsz`.

The pager of the destination keeps a journal, so its journal mode is not {lit}`OFF`; a log counts as
a part of the file.  A commit that fails does so while it writes pages, before the journal is
deleted and the file is cut.
-/

namespace IdeMultiarch
namespace Sqlite

open Library (Image Journal)

/-! ## Pages -/

/-- A page size: a power of two from 512 to 65536. -/
structure PageSize where
  exponent : Nat
  lower : 9 ≤ exponent
  upper : exponent ≤ 16
deriving DecidableEq

/-- The number of bytes of a page. -/
def PageSize.bytes (size : PageSize) : Nat :=
  2 ^ size.exponent

/-- The page sizes of the source and of the destination. -/
structure PageSizes where
  src : PageSize
  dest : PageSize

/-- The bytes of a page.  Those behind its end say nothing. -/
abbrev Page := Nat → UInt8

def PENDING_BYTE : Nat := 0x40000000

/-- {lit}`PENDING_BYTE_PAGE`: the page that is never used, as locks are held on its bytes. -/
def pendingBytePage (size : PageSize) : Nat :=
  PENDING_BYTE / size.bytes + 1

/-- {lit}`sqlite3Put4byte` -/
def put4byte (image : Image) (off : Nat) (value : UInt32) : Image :=
  image.overlay off 4 fun j => (value >>> UInt32.ofNat (24 - 8 * j)).toUInt8

/-! ## Single calls -/

def SQLITE_READONLY : ResultCode := ⟨8, by decide⟩
def SQLITE_IOERR_NOMEM : ResultCode := ⟨3082, by decide⟩

/-- The result of a call that can fail. -/
structure Answer where
  rc : ResultCode
  not_done : rc ≠ SQLITE_DONE

/-- The result of a call in a database that is locked: there is nothing to wait for. -/
structure PageAnswer extends Answer where
  not_busy : rc ≠ SQLITE_BUSY
  not_locked : rc ≠ SQLITE_LOCKED

/-- The results of the calls that a step makes, what is known of the destination, the cookie of its
schema, what a page of the source without content reads, and the pages of the destination that its
pager writes early: before a page of the source is copied, and in a commit that fails. -/
structure StepIo where
  beginSrc : Answer
  setDestPgszNomem : Bool
  beginDest : Answer
  destSchema : UInt32
  destWal : Bool
  destMemdb : Bool
  destCounter : UInt32
  get : Nat → PageAnswer
  put : Nat → PageAnswer
  commit : PageAnswer
  stale : Nat → Page
  destSpill : Nat → List Nat
  destWritten : List Nat

/-! ## The source -/

/-- How the pager of the source keeps what a transaction changes. -/
inductive JournalMode
  | rollback
  | wal
  | memory
deriving DecidableEq, Repr

/-- The pages of a database.  Nobody relies on a page without content: it is free, or it was never
written. -/
structure Pages where
  page : Nat → Option Page
  count : Nat

/-- Pages behind the end are gone. -/
def Pages.cut (pages : Pages) (count : Nat) : Pages where
  page i := if i ≤ count then pages.page i else none
  count := count

/-- The pager of the source: the pages in the file; in a transaction that writes, those before it,
the changed ones that were not written yet, the numbers of those in the journal, whether a page was
changed, and whether one was written early; whether a transaction reads, and whether another
connection changed the file since. -/
structure SourcePager where
  mode : JournalMode
  file : Pages
  saved : Option Pages
  cache : Nat → Option Page
  journal : List Nat
  modified : Bool
  spilled : Bool
  reading : Bool
  changed : Bool

/-- {lit}`sqlite3PagerGet`, outside of a transaction that writes. -/
def SourcePager.pageData (src : SourcePager) (stale : Nat → Page) (i : Nat) : Page :=
  (src.file.page i).getD (stale i)

/-! ## The destination -/

/-- The pager of the destination: the bytes in the file, and the journal of an open transaction. -/
structure DestPager where
  file : Image
  journal : Option Journal

namespace DestPager

/-- {lit}`sqlite3BtreeBeginTrans`: a transaction is opened, unless one is open. -/
def begin (size : PageSize) (pager : DestPager) : DestPager :=
  match pager.journal with
  | none => { pager with journal := some ⟨size.bytes, pager.file.size, []⟩ }
  | some _ => pager

/-- {lit}`pagerStress`: a page is written early.  What the file has there was written into the
journal when the page was changed first, if the page is not new; pages are counted from one, and the
one that is never used is not written. -/
def stress (size : PageSize) (dest : Image) (pager : DestPager) (pgno : Nat) : DestPager :=
  match pager.journal with
  | none => pager
  | some journal =>
      if pgno = 0 ∨ pgno = pendingBytePage size then pager
      else
        let off := (pgno - 1) * journal.block
        { file := pager.file.overlay off journal.block fun k => dest.byte (off + k)
          journal := some (journal.save pager.file (pgno - 1)) }

/-- {lit}`sqlite3BtreeRollback`: a transaction that is still open is rolled back.  The pages in the
journal are written back, and the file gets its length, which is one of whole pages. -/
def rollback (pager : DestPager) : Image :=
  match pager.journal with
  | none => pager.file
  | some journal => journal.restore pager.file

end DestPager

/-! ## The backup object -/

/-- {lit}`sqlite3_backup` -/
structure PageBackup where
  iNext : Nat
  rc : ResultCode
  isAttached : Bool
  bDestLocked : Bool
  iDestSchema : UInt32
  nRemaining : Nat
  nPagecount : Nat

/-- The source, the backup object, the destination as its transaction sees it, and the pager of the
destination. -/
structure System where
  src : SourcePager
  p : PageBackup
  dest : Image
  destPager : DestPager

/-- {lit}`sqlite3_backup_init`, when the source is in no transaction. -/
def backupStart (mode : JournalMode) (file : Pages) (destFile : Image) : System where
  src := ⟨mode, file.cut file.count, none, fun _ => none, [], false, false, false, false⟩
  p := ⟨1, SQLITE_OK, false, false, 0, 0, 0⟩
  dest := destFile
  destPager := ⟨destFile, none⟩

/-- Some pages of the destination are written early. -/
def System.spillDest (size : PageSize) (pages : List Nat) (s : System) : System :=
  { s with destPager := pages.foldl (DestPager.stress size s.dest) s.destPager }

section Copy

variable (z : PageSizes)

/-- A copy that is not an update writes the number of pages of the source into the header. -/
def putPageCount (header : Option UInt32) (iOff : Nat) (dest : Image) : Image :=
  match header with
  | some lastPage => if iOff = 0 then put4byte dest 28 lastPage else dest
  | none => dest

/-- One round of the loop of {lit}`backupOnePage`: what of a page of the source belongs at an offset is
written there. -/
def copyChunk (zSrcData : Page) (header : Option UInt32) (iOff : Nat) (dest : Image) : Image :=
  let nSrcPgsz := z.src.bytes
  let nDestPgsz := z.dest.bytes
  let iDest := iOff / nDestPgsz + 1
  let dest := dest.extend (iDest * nDestPgsz)
  let nCopy := min nSrcPgsz nDestPgsz
  putPageCount header iOff (dest.overlay ((iDest - 1) * nDestPgsz + iOff % nDestPgsz) nCopy fun j =>
    zSrcData (iOff % nSrcPgsz + j))

/-- The loop of {lit}`backupOnePage` over the pages of the destination that a page of the source
spans: as many as are left, and the offset of the next one. -/
def backupOnePageFrom (put : Nat → PageAnswer) (zSrcData : Page) (header : Option UInt32) :
    Nat → Nat → Image → ResultCode × Image
  | 0, _, dest => (SQLITE_OK, dest)
  | n + 1, iOff, dest =>
      let nDestPgsz := z.dest.bytes
      let iDest := iOff / nDestPgsz + 1
      if iDest = pendingBytePage z.dest then
        backupOnePageFrom put zSrcData header n (iOff + nDestPgsz) dest
      else if (put iDest).rc ≠ SQLITE_OK then ((put iDest).rc, dest)
      else
        backupOnePageFrom put zSrcData header n (iOff + nDestPgsz)
          (copyChunk z zSrcData header iOff dest)

/-- {lit}`backupOnePage`, which begins at the offset of the page. -/
def backupOnePage (put : Nat → PageAnswer) (iSrcPg : Nat) (zSrcData : Page)
    (header : Option UInt32) (dest : Image) : ResultCode × Image :=
  backupOnePageFrom z put zSrcData header
    ((z.src.bytes + z.dest.bytes - 1) / z.dest.bytes) (iSrcPg * z.src.bytes - z.src.bytes) dest

/-! ## What the pager tells a copy -/

/-- {lit}`sqlite3BackupUpdate` -/
def backupUpdate (put : Nat → PageAnswer) (iPage : Nat) (aData : Page) (s : System) : System :=
  if s.p.isAttached = true ∧ isFatalError s.p.rc = false ∧ iPage < s.p.iNext then
    let copy := backupOnePage z put iPage aData none s.dest
    { s with
      dest := copy.2
      p := { s.p with rc := if copy.1 = SQLITE_OK then s.p.rc else copy.1 } }
  else s

/-- {lit}`sqlite3BackupRestart` -/
def backupRestart (s : System) : System :=
  if s.p.isAttached then { s with p := { s.p with iNext := 1 } } else s

/-- A page is written into the file of the source, and the copy is told. -/
def writePage (put : Nat → PageAnswer) (stale : Nat → Page) (i : Nat) (content : Option Page)
    (s : System) : System :=
  backupUpdate z put i (content.getD (stale i)) { s with
    src := { s.src with
      file := { s.src.file with page := Function.update s.src.file.page i content } } }

/-- The pager locks the file of the source.  If another connection changed it, the copy has to begin
again ({lit}`pager_reset`). -/
def lockSource (s : System) : System :=
  if s.src.changed then backupRestart { s with src := { s.src with changed := false } } else s

/-- The transaction that writes is over. -/
def closeWrite (file : Pages) (s : System) : System :=
  { s with src := { s.src with
      file := file, saved := none, cache := fun _ => none, journal := [], modified := false,
      spilled := false } }

/-! ## What may happen between two steps -/

/-- What other users of the source do, and what the pager of the destination does when it needs room
for a page that is copied again. -/
inductive Event
  | beginRead
  | endRead
  | beginWrite
  | modify (i : Nat) (data : Page)
  | spill (i : Nat) (put : Nat → PageAnswer)
  | commit (written : List Nat) (count : Nat) (put : Nat → PageAnswer)
  | rollback (put : Nat → PageAnswer) (stale : Nat → Page)
  | external (file : Pages)
  | destSpill (pages : List Nat)

/-- The pages that a commit writes, one after the other. -/
def writeDirty (put : Nat → PageAnswer) (cache : Nat → Option Page) (count : Nat) :
    List Nat → System → System
  | [], s => s
  | i :: written, s =>
      match cache i with
      | some data =>
          if i ≤ count then
            writeDirty put cache count written (writePage z put (fun _ => data) i (some data) s)
          else writeDirty put cache count written s
      | none => writeDirty put cache count written s

/-- {lit}`pager_playback`: the pages in the journal are written back as they were. -/
def playback (put : Nat → PageAnswer) (stale : Nat → Page) (saved : Pages) :
    List Nat → System → System
  | [], s => s
  | i :: journal, s => playback put stale saved journal (writePage z put stale i (saved.page i) s)

/-- The file of the source after a commit: changed pages that were not written have no content. -/
def committed (cache : Nat → Option Page) (written : List Nat) (count : Nat) (file : Pages) :
    Pages :=
  Pages.cut ⟨fun i => if (cache i).isSome ∧ i ∉ written then none else file.page i, file.count⟩ count

/-- The source after an event.  An event that cannot happen changes nothing. -/
def System.happen (s : System) : Event → System
  | .beginRead =>
      if s.src.reading ∨ s.src.saved.isSome then s
      else
        let s := lockSource s
        { s with src := { s.src with reading := true } }
  | .endRead => { s with src := { s.src with reading := false } }
  | .beginWrite =>
      if s.src.saved.isSome then s
      else
        let s := if s.src.reading then s else lockSource s
        { s with src := { s.src with saved := some s.src.file } }
  | .modify i data =>
      match s.src.saved with
      | some saved =>
          if i = 0 ∨ i = pendingBytePage z.src then s
          else { s with src := { s.src with
            cache := Function.update s.src.cache i (some data)
            journal := if i ≤ saved.count ∧ i ∉ s.src.journal then s.src.journal ++ [i]
              else s.src.journal
            modified := true } }
      | none => s
  | .spill i put =>
      match s.src.cache i with
      | some data =>
          if s.src.mode = .memory then s
          else
            let s := writePage z put (fun _ => data) i (some data) s
            { s with src := { s.src with
              cache := Function.update s.src.cache i none, spilled := true } }
      | none => s
  | .commit written count put =>
      match s.src.saved with
      | some _ =>
          if s.src.modified = false then closeWrite s.src.file s
          else if s.src.mode = .memory then
            -- nothing is written, so the copy is told to begin again
            let s := backupRestart s
            let file : Pages :=
              ⟨fun i => (s.src.cache i).or (s.src.file.page i), s.src.file.count⟩
            closeWrite (file.cut count) s
          else
            let cache := s.src.cache
            let s := writeDirty z put cache count written s
            closeWrite (committed cache written count s.src.file) s
      | none => s
  | .rollback put stale =>
      match s.src.saved with
      | some saved =>
          match s.src.mode with
          | .rollback =>
              let s := if s.src.spilled then playback z put stale saved s.src.journal s
                else s
              closeWrite (s.src.file.cut saved.count) s
          | .wal =>
              -- for each page in the log and each changed page the copy is told to begin again
              closeWrite saved (if s.src.spilled ∨ s.src.modified then backupRestart s else s)
          | .memory => closeWrite saved s
      | none => s
  | .external file =>
      if s.src.reading ∨ s.src.saved.isSome ∨ s.src.mode = .memory then s
      else { s with src := { s.src with file := file.cut file.count, changed := true } }
  | .destSpill pages => s.spillDest z.dest pages

/-! ## A step -/

/-- A step waits for a transaction that writes to the source.  Otherwise it opens one that reads,
unless there is one already. -/
def openSource (io : StepIo) (s : System) : ResultCode × System :=
  if s.src.saved.isSome then (SQLITE_BUSY, s)
  else if s.src.reading then (SQLITE_OK, s)
  else if io.beginSrc.rc = SQLITE_OK then (SQLITE_OK, lockSource s)
  else (io.beginSrc.rc, s)

/-- The first step locks the destination. -/
def lockDest (io : StepIo) (s : System) : ResultCode × System :=
  if s.p.bDestLocked then (SQLITE_OK, s)
  else if io.setDestPgszNomem then (SQLITE_NOMEM, s)
  else if io.beginDest.rc = SQLITE_OK then
    (SQLITE_OK, { s with
      dest := s.destPager.file
      destPager := s.destPager.begin z.dest
      p := { s.p with bDestLocked := true, iDestSchema := io.destSchema } })
  else (io.beginDest.rc, s)

/-- What a step does before it copies pages. -/
def prepareStep (io : StepIo) (s : System) : ResultCode × System :=
  let opened := openSource io s
  if opened.1 ≠ SQLITE_OK then opened
  else
    let locked := lockDest z io opened.2
    if locked.1 ≠ SQLITE_OK then locked
    else if (io.destWal ∨ io.destMemdb) ∧ z.src.bytes ≠ z.dest.bytes then
      (SQLITE_READONLY, locked.2)
    else locked

/-- One round of the loop of {lit}`sqlite3_backup_step`. -/
def copyNext (io : StepIo) (nSrcPage : Nat) (s : System) : ResultCode × System :=
  let s := s.spillDest z.dest (io.destSpill s.p.iNext)
  let iSrcPg := s.p.iNext
  let next := { s.p with iNext := iSrcPg + 1 }
  if iSrcPg = pendingBytePage z.src then (SQLITE_OK, { s with p := next })
  else if (io.get iSrcPg).rc ≠ SQLITE_OK then ((io.get iSrcPg).rc, { s with p := next })
  else
    let copy := backupOnePage z io.put iSrcPg (s.src.pageData io.stale iSrcPg)
      (some (UInt32.ofNat nSrcPage)) s.dest
    (copy.1, { s with p := next, dest := copy.2 })

/-- The loop of {lit}`sqlite3_backup_step`, with the number of pages that it may copy. -/
def copyPages (io : StepIo) (nSrcPage : Nat) : Nat → System → ResultCode × System
  | 0, s => (SQLITE_OK, s)
  | n + 1, s =>
      if nSrcPage < s.p.iNext then (SQLITE_OK, s)
      else
        let round := copyNext z io nSrcPage s
        if round.1 = SQLITE_OK then copyPages io nSrcPage n round.2 else round

/-- How many pages a step may copy.  A negative argument stands for all of them. -/
def pageBudget (nPage : Int) (nSrcPage iNext : Nat) : Nat :=
  if nPage < 0 then nSrcPage + 1 - iNext else nPage.toNat

/-- {lit}`newDatabase`: the header of an empty database. -/
def newDatabase (dest : Image) : Image :=
  let pageSize := z.dest.bytes
  let magic := "SQLite format 3".toList.map fun c => UInt8.ofNat c.toNat
  let header : List UInt8 := magic ++ [0, UInt8.ofNat (pageSize / 256), UInt8.ofNat (pageSize / 65536),
    1, 1, 0, 64, 32, 32, 0, 0, 0, 0, 0, 0, 0, 1] ++ List.replicate 68 0 ++
    [13, 0, 0, 0, 0, UInt8.ofNat (pageSize / 256), UInt8.ofNat pageSize, 0]
  (dest.extend pageSize).overlay 0 header.length fun j => header.getD j 0

/-- The pages of the source that share a page of the destination with the one that is never used
are written directly, as many as are left. -/
def writeBehindPending (src : SourcePager) (stale : Nat → Page) (iEnd : Nat) :
    Nat → Nat → Image → Image
  | 0, _, dest => dest
  | n + 1, iOff, dest =>
      if iOff < iEnd then
        let iSrcPg := iOff / z.src.bytes + 1
        writeBehindPending src stale iEnd n (iOff + z.src.bytes)
          (dest.overlay iOff z.src.bytes (src.pageData stale iSrcPg))
      else dest

/-- The length of the destination is made that of the source.  A file is not made longer for the
page that is never used. -/
def resizeDest (src : SourcePager) (stale : Nat → Page) (nSrcPage : Nat) (dest : Image) : Image :=
  let pgszSrc := z.src.bytes
  let pgszDest := z.dest.bytes
  if pgszSrc < pgszDest then
    let iSize := pgszSrc * nSrcPage
    (writeBehindPending z src stale (min (PENDING_BYTE + pgszDest) iSize) (pgszDest / pgszSrc - 1)
      (PENDING_BYTE + pgszSrc) dest).truncate iSize
  else
    let nDestTruncate := nSrcPage * (pgszSrc / pgszDest)
    let nNew := if nDestTruncate = pendingBytePage z.dest then nDestTruncate - 1 else nDestTruncate
    (dest.extend (nNew * pgszDest)).truncate (nDestTruncate * pgszDest)

def SQLITE_VERSION_NUMBER : UInt32 := 3042000

/-- {lit}`pager_write_changecounter` -/
def writeChangeCounter (dbFileVers : UInt32) (dest : Image) : Image :=
  put4byte (put4byte (put4byte dest 24 (dbFileVers + 1)) 92 (dbFileVers + 1)) 96
    SQLITE_VERSION_NUMBER

/-- The file of the destination when all pages were copied: its header is finished, and its length
is that of the source. -/
def finishDest (io : StepIo) (nSrcPage : Nat) (s : System) : Image :=
  let dest := if nSrcPage = 0 then newDatabase z s.dest else s.dest
  let dest := put4byte dest 40 (s.p.iDestSchema + 1)
  let dest := if io.destWal then dest.overlay 18 2 fun _ => 2 else dest
  resizeDest z s.src io.stale (max nSrcPage 1) (writeChangeCounter io.destCounter dest)

/-- What a step does after it copied some pages without an error.  When all were copied, the
transaction is committed; a commit that fails may have written some pages before. -/
def finishStep (io : StepIo) (nSrcPage : Nat) (s : System) : ResultCode × System :=
  let s := { s with p := { s.p with
    nPagecount := nSrcPage, nRemaining := nSrcPage + 1 - s.p.iNext } }
  if nSrcPage < s.p.iNext then
    let dest := finishDest z io nSrcPage s
    if io.commit.rc = SQLITE_OK then (SQLITE_DONE, { s with dest := dest, destPager := ⟨dest, none⟩ })
    else (io.commit.rc, ({ s with dest := dest } : System).spillDest z.dest io.destWritten)
  else (SQLITE_OK, { s with p := { s.p with isAttached := true } })

/-- The work of {lit}`sqlite3_backup_step`. -/
def stepWork (nPage : Int) (io : StepIo) (s : System) : ResultCode × System :=
  let prepared := prepareStep z io s
  if prepared.1 ≠ SQLITE_OK then prepared
  else
    let nSrcPage := prepared.2.src.file.count
    let copy := copyPages z io nSrcPage (pageBudget nPage nSrcPage prepared.2.p.iNext) prepared.2
    if copy.1 ≠ SQLITE_OK then copy else finishStep z io nSrcPage copy.2

/-- {lit}`sqlite3_backup_step`; the object keeps the code that is returned. -/
def System.step (s : System) (nPage : Int) (io : StepIo) : System :=
  if isFatalError s.p.rc then s
  else
    let work := stepWork z nPage io s
    let rc := if work.1 = SQLITE_IOERR_NOMEM then SQLITE_NOMEM else work.1
    { work.2 with p := { work.2.p with rc := rc } }

/-- {lit}`sqlite3_backup_finish`: the file of the destination after it.  If its pager failed to write
the file before, the next connection that opens it does the rollback. -/
def System.finish (s : System) : Image :=
  s.destPager.rollback

/-! ## Runs -/

/-- What happens during a copy. -/
inductive Action
  | event (event : Event)
  | step (nPage : Int) (io : StepIo)

/-- The system after one action. -/
def System.act (s : System) : Action → System
  | .event event => s.happen z event
  | .step nPage io => s.step z nPage io

/-- The system after some actions. -/
def System.run (s : System) (actions : List Action) : System :=
  actions.foldl (System.act z) s

end Copy

end Sqlite
end IdeMultiarch
