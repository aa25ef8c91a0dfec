import Mathlib.Data.UInt
import Mathlib.Tactic.Common

/-!
# Sqlite - the online backup interface

What {lit}`NativeDB.c` uses of the backup interface in {lit}`sqlite3.c`: the error code of a
connection, and the object that copies one database into another step by step.  Which code a step
returns is given from outside, one code for each step.

Main results:

- Theorem {lit}`ResultCode.primary_eq_ok`: the error code of a connection tells whether there was an
  error.
- Theorem {lit}`errcode_backupFinish`: what the connection that is written to tells of a copy.
-/

namespace IdeMultiarch
namespace Sqlite

/-! ## Result codes -/

/-- A result code: zero, or a code whose low byte tells what went wrong. -/
structure ResultCode where
  code : UInt32
  proper : code = 0 ∨ code &&& 0xff ≠ 0
deriving DecidableEq

def SQLITE_OK : ResultCode := ⟨0, by decide⟩
def SQLITE_ERROR : ResultCode := ⟨1, by decide⟩
def SQLITE_BUSY : ResultCode := ⟨5, by decide⟩
def SQLITE_LOCKED : ResultCode := ⟨6, by decide⟩
def SQLITE_NOMEM : ResultCode := ⟨7, by decide⟩
def SQLITE_MISUSE : ResultCode := ⟨21, by decide⟩
def SQLITE_DONE : ResultCode := ⟨101, by decide⟩

namespace ResultCode

theorem ext {rc rc' : ResultCode} (h : rc.code = rc'.code) : rc = rc' := by
  cases rc
  cases rc'
  cases h
  rfl

/-- The code without what tells more about it. -/
def primary (rc : ResultCode) : ResultCode where
  code := rc.code &&& 0xff
  proper := by
    by_cases h : rc.code &&& 0xff = 0
    · exact Or.inl h
    · right
      rwa [UInt32.and_assoc, UInt32.and_self]

/-- Only the code for success has nothing in its low byte. -/
theorem primary_eq_ok {rc : ResultCode} : rc.primary = SQLITE_OK ↔ rc = SQLITE_OK := by
  constructor
  · intro h
    have hlow : rc.code &&& 0xff = 0 := congrArg ResultCode.code h
    rcases rc.proper with hzero | hproper
    · exact ext hzero
    · exact absurd hlow hproper
  · rintro rfl
    exact ext (by decide)

end ResultCode

/-- {lit}`isFatalError` -/
def isFatalError (rc : ResultCode) : Bool :=
  rc != SQLITE_OK && rc != SQLITE_BUSY && rc != SQLITE_LOCKED

/-! ## Connections and backups -/

/-- {lit}`sqlite3`: a connection that does not ask for extended codes. -/
structure Connection where
  errCode : ResultCode
deriving DecidableEq

/-- {lit}`sqlite3_errcode` -/
def errcode (db : Connection) : ResultCode :=
  db.errCode.primary

/-- {lit}`sqlite3_backup`, with the number of steps that were made. -/
structure BackupObject where
  rc : ResultCode
  steps : Nat
deriving DecidableEq

/-- {lit}`sqlite3_backup_init`: the connection that is written to, after it. -/
def backupInit (outcome : ResultCode) (pDestDb : Connection) : Option BackupObject × Connection :=
  if outcome = SQLITE_OK then (some ⟨SQLITE_OK, 0⟩, pDestDb)
  else (none, { pDestDb with errCode := outcome })

/-- {lit}`sqlite3_backup_step`: after a fatal error nothing more is done. -/
def backupStep (codes : Nat → ResultCode) (p : BackupObject) : ResultCode × BackupObject :=
  if isFatalError p.rc then (p.rc, p)
  else (codes p.steps, { rc := codes p.steps, steps := p.steps + 1 })

/-- {lit}`sqlite3_backup_finish`: the connection that was written to, after it. -/
def backupFinish (p : BackupObject) (pDestDb : Connection) : Connection :=
  { pDestDb with errCode := if p.rc = SQLITE_DONE then SQLITE_OK else p.rc }

/-- A copy that can begin gets an object. -/
theorem backupInit_ok (pDestDb : Connection) :
    backupInit SQLITE_OK pDestDb = (some ⟨SQLITE_OK, 0⟩, pDestDb) :=
  rfl

/-- A copy that cannot begin leaves its error at the connection that would be written to. -/
theorem backupInit_error {outcome : ResultCode} (h : outcome ≠ SQLITE_OK) (pDestDb : Connection) :
    backupInit outcome pDestDb = (none, ⟨outcome⟩) :=
  if_neg h

/-- A step before a fatal error returns the next code and keeps it. -/
theorem backupStep_of_not_fatal (codes : Nat → ResultCode) {p : BackupObject}
    (h : isFatalError p.rc = false) :
    backupStep codes p = (codes p.steps, ⟨codes p.steps, p.steps + 1⟩) := by
  rw [backupStep, h, if_neg Bool.false_ne_true]

/-- After a copy the connection that was written to has no error if it is done. -/
theorem errcode_backupFinish {p : BackupObject} (hrc : p.rc ≠ SQLITE_OK) (pDestDb : Connection) :
    errcode (backupFinish p pDestDb) = SQLITE_OK ↔ p.rc = SQLITE_DONE := by
  rw [errcode, ResultCode.primary_eq_ok, backupFinish]
  by_cases hdone : p.rc = SQLITE_DONE
  · simp [hdone]
  · simp [hdone, hrc]

end Sqlite
end IdeMultiarch
