import Mathlib.Data.Nat.Count
import IdeMultiarch.Sqlite.Backup

/-!
# Sqlite - backup and restore

The functions {lit}`backup` and {lit}`restore` of {lit}`NativeDB.c`.  Both open a file and copy one
database into the other, and both tell the error code of the connection to the file.  That is the
connection which is written to in a backup, but the one which is read in a restore.

The calls of the progress function and the time between two steps are left out: neither has to do
with the result.  Bytes that are freed again are not modelled either.

Main results:

- Theorem {lit}`copyLoop_eq_some`: when the loop over the steps ends, and with what.
- Theorem {lit}`errcode_copyInto`: what the connection that is written to tells about a copy.
- Theorem {lit}`restore_eq_ok`: a restore reports success as soon as the file is opened.
- Theorem {lit}`success_iff_copied`: when the functions report success for a completed copy only.
- Theorem {lit}`busy_restore_succeeds`: a restore that copied nothing reports success.
-/

namespace IdeMultiarch
namespace Sqlite

/-! ## The copy loop -/

/-- The loop of {lit}`copyLoop`, with a bound on the number of steps. -/
def copyLoopFrom (codes : Nat → ResultCode) (nTimeoutLimit : Int) :
    Nat → BackupObject → Int → Option BackupObject
  | 0, _, _ => none
  | fuel + 1, pBackup, nTimeout =>
      let step := backupStep codes pBackup
      let rc := step.1
      let pBackup := step.2
      if rc = SQLITE_BUSY ∨ rc = SQLITE_LOCKED then
        if nTimeout ≥ nTimeoutLimit then some pBackup
        else copyLoopFrom codes nTimeoutLimit fuel pBackup (nTimeout + 1)
      else if rc = SQLITE_OK then copyLoopFrom codes nTimeoutLimit fuel pBackup nTimeout
      else some pBackup

/-- {lit}`copyLoop`: the backup object when the loop ends. -/
def copyLoop (codes : Nat → ResultCode) (nTimeoutLimit : Int) (fuel : Nat)
    (pBackup : BackupObject) : Option BackupObject :=
  copyLoopFrom codes nTimeoutLimit fuel pBackup 0

/-! ## How a sequence of codes ends -/

/-- A code after which a step is made again when some time has passed. -/
def Waits (rc : ResultCode) : Prop :=
  rc = SQLITE_BUSY ∨ rc = SQLITE_LOCKED

instance : DecidablePred Waits := fun _ => inferInstanceAs (Decidable (_ ∨ _))

section Codes

variable (codes : Nat → ResultCode) (nTimeoutLimit : Int)

/-- How often the first steps could not go on. -/
def timeouts (n : Nat) : Nat :=
  Nat.count (fun m => Waits (codes m)) n

/-- Before a step there was no error, and not too many timeouts. -/
structure GoesOn (n : Nat) : Prop where
  retried : ∀ m < n, isFatalError (codes m) = false
  patient : (timeouts codes n : Int) ≤ nTimeoutLimit

/-- A step is the last one: it is done or there is an error, or it is one timeout too many. -/
structure EndsAt (n : Nat) : Prop extends GoesOn codes nTimeoutLimit n where
  last : isFatalError (codes n) = true ∨ nTimeoutLimit < timeouts codes (n + 1)

/-- The steps copy everything. -/
def Completes : Prop :=
  ∃ n, EndsAt codes nTimeoutLimit n ∧ codes n = SQLITE_DONE

/-- There is an error, or too many timeouts. -/
def Fails : Prop :=
  ∃ n, EndsAt codes nTimeoutLimit n ∧ codes n ≠ SQLITE_DONE

end Codes

section Loop

variable {codes : Nat → ResultCode} {nTimeoutLimit : Int}

theorem timeouts_succ (codes : Nat → ResultCode) (n : Nat) :
    timeouts codes (n + 1) = timeouts codes n + if Waits (codes n) then 1 else 0 := by
  rw [timeouts, Nat.count_succ]
  rfl

/-- There is at most one last step. -/
theorem EndsAt.unique {n n' : Nat} (h : EndsAt codes nTimeoutLimit n)
    (h' : EndsAt codes nTimeoutLimit n') : n = n' := by
  have key : ∀ {n n' : Nat}, EndsAt codes nTimeoutLimit n → EndsAt codes nTimeoutLimit n' →
      ¬ n < n' := by
    intro n n' h h' hlt
    have hcount : timeouts codes (n + 1) ≤ timeouts codes n' := Nat.count_monotone _ hlt
    have hpatient := h'.patient
    rcases h.last with hfatal | hlimit
    · rw [h'.retried n hlt] at hfatal
      exact Bool.false_ne_true hfatal
    · omega
  have h₁ := key h h'
  have h₂ := key h' h
  omega

/-- What a code means for the loop. -/
theorem isFatalError_eq_false {rc : ResultCode} :
    isFatalError rc = false ↔ rc = SQLITE_OK ∨ Waits rc := by
  unfold isFatalError Waits
  rw [Bool.and_eq_false_iff, Bool.and_eq_false_iff, bne_eq_false_iff_eq, bne_eq_false_iff_eq,
    bne_eq_false_iff_eq, or_assoc]

/-- One round of the loop. -/
theorem copyLoopFrom_succ (fuel : Nat) {pBackup : BackupObject}
    (hrc : isFatalError pBackup.rc = false) (hgoes : GoesOn codes nTimeoutLimit pBackup.steps) :
    copyLoopFrom codes nTimeoutLimit (fuel + 1) pBackup (timeouts codes pBackup.steps) =
      if isFatalError (codes pBackup.steps) = true ∨
          nTimeoutLimit < timeouts codes (pBackup.steps + 1) then
        some ⟨codes pBackup.steps, pBackup.steps + 1⟩
      else
        copyLoopFrom codes nTimeoutLimit fuel ⟨codes pBackup.steps, pBackup.steps + 1⟩
          (timeouts codes (pBackup.steps + 1)) := by
  have hpatient := hgoes.patient
  have hsucc := timeouts_succ codes pBackup.steps
  rw [copyLoopFrom, backupStep_of_not_fatal codes hrc]
  dsimp only
  by_cases hwaits : Waits (codes pBackup.steps)
  · have hnot : isFatalError (codes pBackup.steps) = false :=
      isFatalError_eq_false.mpr (Or.inr hwaits)
    have hbusy : codes pBackup.steps = SQLITE_BUSY ∨ codes pBackup.steps = SQLITE_LOCKED := hwaits
    rw [if_pos hwaits] at hsucc
    rw [if_pos hbusy, hnot, hsucc]
    by_cases hlimit : (timeouts codes pBackup.steps : Int) ≥ nTimeoutLimit
    · rw [if_pos hlimit, if_pos (Or.inr (by omega))]
    · rw [if_neg hlimit, if_neg (by simp; omega)]
      rfl
  · have hbusy : ¬ (codes pBackup.steps = SQLITE_BUSY ∨ codes pBackup.steps = SQLITE_LOCKED) :=
      hwaits
    rw [if_neg hwaits] at hsucc
    rw [if_neg hbusy]
    by_cases hok : codes pBackup.steps = SQLITE_OK
    · have hnot : isFatalError (codes pBackup.steps) = false :=
        isFatalError_eq_false.mpr (Or.inl hok)
      rw [if_pos hok, hnot, hsucc, if_neg (by simp; omega)]
      rfl
    · have hfatal : isFatalError (codes pBackup.steps) = true := by
        rw [← Bool.not_eq_false, isFatalError_eq_false]
        exact not_or.mpr ⟨hok, hwaits⟩
      rw [if_neg hok, if_pos (Or.inl hfatal)]

/-- The loop ends with the last step, if the bound allows that many. -/
theorem copyLoopFrom_eq_some (fuel : Nat) (pBackup : BackupObject) {pBackup' : BackupObject}
    (hrc : isFatalError pBackup.rc = false) (hgoes : GoesOn codes nTimeoutLimit pBackup.steps) :
    copyLoopFrom codes nTimeoutLimit fuel pBackup (timeouts codes pBackup.steps) = some pBackup' ↔
      ∃ n, EndsAt codes nTimeoutLimit n ∧ pBackup.steps ≤ n ∧ n < pBackup.steps + fuel ∧
        pBackup' = ⟨codes n, n + 1⟩ := by
  induction fuel generalizing pBackup with
  | zero =>
      constructor
      · intro h
        cases h
      · rintro ⟨n, -, hle, hlt, -⟩
        omega
  | succ fuel ih =>
      rw [copyLoopFrom_succ fuel hrc hgoes]
      split
      next hlast =>
        have hends : EndsAt codes nTimeoutLimit pBackup.steps := ⟨hgoes, hlast⟩
        constructor
        · intro h
          cases h
          exact ⟨_, hends, Nat.le_refl _, by omega, rfl⟩
        · rintro ⟨n, hn, -, -, rfl⟩
          rw [hends.unique hn]
      next hmore =>
        obtain ⟨hfatal, hlimit⟩ := not_or.mp hmore
        have hnot : isFatalError (codes pBackup.steps) = false := Bool.eq_false_of_not_eq_true hfatal
        have hgoes' : GoesOn codes nTimeoutLimit (pBackup.steps + 1) := by
          refine ⟨fun m hm => ?_, by omega⟩
          rcases Nat.lt_succ_iff_lt_or_eq.mp hm with hm | rfl
          · exact hgoes.retried m hm
          · exact hnot
        refine (ih ⟨codes pBackup.steps, pBackup.steps + 1⟩ hnot hgoes').trans ?_
        dsimp only
        constructor
        · rintro ⟨n, hn, hle, hlt, hsame⟩
          exact ⟨n, hn, by omega, by omega, hsame⟩
        · rintro ⟨n, hn, hle, hlt, hsame⟩
          have hne : pBackup.steps ≠ n := by
            rintro rfl
            exact hmore hn.last
          exact ⟨n, hn, by omega, by omega, hsame⟩

/-- When {lit}`copyLoop` ends, and with what. -/
theorem copyLoop_eq_some (hlimit : 0 ≤ nTimeoutLimit) (fuel : Nat) {pBackup : BackupObject} :
    copyLoop codes nTimeoutLimit fuel ⟨SQLITE_OK, 0⟩ = some pBackup ↔
      ∃ n < fuel, EndsAt codes nTimeoutLimit n ∧ pBackup = ⟨codes n, n + 1⟩ := by
  have hgoes : GoesOn codes nTimeoutLimit 0 := ⟨by omega, hlimit⟩
  refine (copyLoopFrom_eq_some fuel ⟨SQLITE_OK, 0⟩ (by decide) hgoes).trans ?_
  dsimp only
  rw [Nat.zero_add]
  constructor
  · rintro ⟨n, hn, -, hlt, hsame⟩
    exact ⟨n, hlt, hn, hsame⟩
  · rintro ⟨n, hlt, hn, hsame⟩
    exact ⟨n, hn, Nat.zero_le n, hlt, hsame⟩

/-- A negative limit allows as few timeouts as none at all. -/
theorem copyLoopFrom_max_zero (codes : Nat → ResultCode) (nTimeoutLimit : Int) (fuel : Nat)
    (pBackup : BackupObject) {nTimeout : Int} (htimeout : 0 ≤ nTimeout) :
    copyLoopFrom codes (max nTimeoutLimit 0) fuel pBackup nTimeout =
      copyLoopFrom codes nTimeoutLimit fuel pBackup nTimeout := by
  induction fuel generalizing pBackup nTimeout with
  | zero => rfl
  | succ fuel ih =>
      have hlimit : nTimeout ≥ max nTimeoutLimit 0 ↔ nTimeout ≥ nTimeoutLimit := by omega
      have hnext := ih (backupStep codes pBackup).2 (by omega : 0 ≤ nTimeout + 1)
      have hsame := ih (backupStep codes pBackup).2 htimeout
      simp only [copyLoopFrom, hlimit, hnext, hsame]

theorem copyLoop_max_zero (codes : Nat → ResultCode) (nTimeoutLimit : Int) (fuel : Nat)
    (pBackup : BackupObject) :
    copyLoop codes (max nTimeoutLimit 0) fuel pBackup = copyLoop codes nTimeoutLimit fuel pBackup :=
  copyLoopFrom_max_zero codes nTimeoutLimit fuel pBackup le_rfl

/-- The last code is not the one with which the loop goes on. -/
theorem EndsAt.ne_ok {n : Nat} (h : EndsAt codes nTimeoutLimit n) : codes n ≠ SQLITE_OK := by
  intro hok
  rcases h.last with hfatal | hlimit
  · rw [hok] at hfatal
    exact absurd hfatal (by decide)
  · have hpatient := h.patient
    rw [timeouts_succ, hok, if_neg (by decide)] at hlimit
    omega

/-- A sequence that completes does not fail. -/
theorem Completes.not_fails (h : Completes codes nTimeoutLimit) : ¬ Fails codes nTimeoutLimit := by
  obtain ⟨n, hn, hdone⟩ := h
  rintro ⟨n', hn', hne⟩
  rw [hn.unique hn'] at hdone
  exact hne hdone

end Loop

/-! ## Transfers -/

/-- What is written to. -/
inductive Direction
  | backup
  | restore
deriving DecidableEq

def SQLITE_OPEN_READONLY : UInt32 := 0x1
def SQLITE_OPEN_READWRITE : UInt32 := 0x2
def SQLITE_OPEN_CREATE : UInt32 := 0x4
def SQLITE_OPEN_URI : UInt32 := 0x40

/-- The bytes of a C string. -/
abbrev Bytes := List UInt8

/-- What a call of {lit}`backup` or {lit}`restore` is given, and how SQLite answers: the handle of the
database, the names if they can be converted, and the codes for opening a file, for
{lit}`sqlite3_backup_init` and for every step. -/
structure Call where
  pDb : Option Connection
  dFileName : Option Bytes
  dDBName : Option Bytes
  nTimeoutLimit : Int
  openV2 : Bytes → UInt32 → ResultCode
  init : Bytes → ResultCode
  codes : Nat → ResultCode

/-- {lit}`sqlite3_strnicmp(dFileName, "file:", 5) == 0` -/
def isUri (dFileName : Bytes) : Bool :=
  (dFileName.take 5).map (fun b => if 0x41 ≤ b ∧ b ≤ 0x5A then b + 0x20 else b) ==
    [0x66, 0x69, 0x6C, 0x65, 0x3A]

/-- The code for opening the file of a call. -/
def Call.opened (call : Call) (openFlags : UInt32) (dFileName : Bytes) : ResultCode :=
  call.openV2 dFileName (if isUri dFileName then openFlags ||| SQLITE_OPEN_URI else openFlags)

/-- A copy into a connection: the connection after it. -/
def copyInto (call : Call) (fuel : Nat) (pDestDb : Connection) (dDBName : Bytes) :
    Option Connection :=
  match backupInit (call.init dDBName) pDestDb with
  | (none, pDestDb) => some pDestDb
  | (some pBackup, pDestDb) =>
      (copyLoop call.codes call.nTimeoutLimit fuel pBackup).map fun pBackup =>
        backupFinish pBackup pDestDb

/-- The connection to the file after a copy between it and a database.  In a restore it is only
read. -/
def copied (direction : Direction) (call : Call) (fuel : Nat) (pDb pFile : Connection)
    (dDBName : Bytes) : Option Connection :=
  match direction with
  | .backup => copyInto call fuel pFile dDBName
  | .restore => (copyInto call fuel pDb dDBName).map fun _ => pFile

/-- What {lit}`backup` and {lit}`restore` have in common. -/
def transfer (direction : Direction) (openFlags : UInt32) (call : Call) (fuel : Nat) :
    Option ResultCode :=
  match call.pDb, call.dFileName, call.dDBName with
  | none, _, _ => some SQLITE_MISUSE
  | some _, none, _ => some SQLITE_NOMEM
  | some _, some _, none => some SQLITE_NOMEM
  | some pDb, some dFileName, some dDBName =>
      let rc := call.opened openFlags dFileName
      if rc = SQLITE_OK then (copied direction call fuel pDb ⟨rc⟩ dDBName).map errcode
      else some rc

/-- {lit}`NativeDB_backup` -/
def NativeDB_backup (call : Call) (fuel : Nat) : Option ResultCode :=
  transfer .backup (SQLITE_OPEN_READWRITE ||| SQLITE_OPEN_CREATE) call fuel

/-- {lit}`NativeDB_restore` -/
def NativeDB_restore (call : Call) (fuel : Nat) : Option ResultCode :=
  transfer .restore SQLITE_OPEN_READONLY call fuel

/-! ## What a transfer reports -/

/-- The arguments can be used, and the file can be opened. -/
def Call.Opens (call : Call) (openFlags : UInt32) : Prop :=
  call.pDb ≠ none ∧ call.dDBName ≠ none ∧
    ∃ dFileName, call.dFileName = some dFileName ∧ call.opened openFlags dFileName = SQLITE_OK

/-- The copy can begin. -/
def Call.Begins (call : Call) : Prop :=
  ∃ dDBName, call.dDBName = some dDBName ∧ call.init dDBName = SQLITE_OK

/-- The copy is completed: its loop ends because a step is done. -/
def Call.Copies (call : Call) (openFlags : UInt32) : Prop :=
  call.Opens openFlags ∧ call.Begins ∧ Completes call.codes call.nTimeoutLimit

/-- What the result of a call should tell. -/
structure Reports (call : Call) (openFlags : UInt32) (rc : ResultCode) : Prop where
  ok_iff : rc = SQLITE_OK ↔ call.Copies openFlags
  failed : Fails call.codes call.nTimeoutLimit → rc ≠ SQLITE_OK

section Transfers

variable {direction : Direction} {openFlags : UInt32} {call : Call} {fuel : Nat}

/-- The error code of the connection that is written to tells whether everything was copied. -/
theorem errcode_copyInto (hlimit : 0 ≤ call.nTimeoutLimit) {pDestDb pDestDb' : Connection}
    {dDBName : Bytes} (h : copyInto call fuel pDestDb dDBName = some pDestDb') :
    errcode pDestDb' = SQLITE_OK ↔
      call.init dDBName = SQLITE_OK ∧ Completes call.codes call.nTimeoutLimit := by
  unfold copyInto at h
  by_cases hinit : call.init dDBName = SQLITE_OK
  · rw [hinit, backupInit_ok] at h
    obtain ⟨pBackup, hloop, rfl⟩ := Option.map_eq_some_iff.mp h
    obtain ⟨n, -, hn, rfl⟩ := (copyLoop_eq_some hlimit fuel).mp hloop
    rw [errcode_backupFinish hn.ne_ok]
    constructor
    · intro hdone
      exact ⟨hinit, n, hn, hdone⟩
    · rintro ⟨-, n', hn', hdone⟩
      rwa [hn.unique hn']
  · rw [backupInit_error hinit] at h
    cases h
    rw [errcode, ResultCode.primary_eq_ok]
    constructor
    · intro hok
      exact absurd hok hinit
    · rintro ⟨hok, -⟩
      exact hok

/-- A copy comes to its end if the codes do. -/
theorem exists_copyInto (hlimit : 0 ≤ call.nTimeoutLimit) {n : Nat}
    (hn : EndsAt call.codes call.nTimeoutLimit n) (pDestDb : Connection) (dDBName : Bytes) :
    ∃ pDestDb', copyInto call (n + 1) pDestDb dDBName = some pDestDb' := by
  have hloop := (copyLoop_eq_some hlimit (n + 1)).mpr ⟨n, Nat.lt_succ_self n, hn, rfl⟩
  unfold copyInto
  by_cases hinit : call.init dDBName = SQLITE_OK
  · rw [hinit, backupInit_ok]
    dsimp only
    rw [hloop]
    exact ⟨_, rfl⟩
  · rw [backupInit_error hinit]
    exact ⟨_, rfl⟩

/-- So does a copy in either direction. -/
theorem exists_copied (hlimit : 0 ≤ call.nTimeoutLimit) {n : Nat}
    (hn : EndsAt call.codes call.nTimeoutLimit n) (pDb pFile : Connection) (dDBName : Bytes) :
    ∃ pFile', copied direction call (n + 1) pDb pFile dDBName = some pFile' := by
  cases direction with
  | backup => exact exists_copyInto hlimit hn pFile dDBName
  | restore =>
      obtain ⟨pDb', hcopy⟩ := exists_copyInto hlimit hn pDb dDBName
      exact ⟨pFile, by rw [copied, hcopy]; rfl⟩

/-- What a call returns: an error if the file is not opened, and otherwise the error code of the
connection to it. -/
theorem transfer_eq_some {rc : ResultCode} (h : transfer direction openFlags call fuel = some rc) :
    (¬ call.Opens openFlags ∧ rc ≠ SQLITE_OK) ∨
      (call.Opens openFlags ∧ ∃ pDb dDBName pFile, call.dDBName = some dDBName ∧
        copied direction call fuel pDb ⟨SQLITE_OK⟩ dDBName = some pFile ∧ rc = errcode pFile) := by
  unfold transfer at h
  unfold Call.Opens
  split at h
  next hdb =>
    cases h
    exact Or.inl ⟨fun hopens => hopens.1 hdb, by decide⟩
  next hname =>
    cases h
    refine Or.inl ⟨?_, by decide⟩
    rintro ⟨-, -, dFileName, hfile, -⟩
    rw [hname] at hfile
    cases hfile
  next hname =>
    cases h
    exact Or.inl ⟨fun hopens => hopens.2.1 hname, by decide⟩
  next pDb dFileName dDBName hdb hfile hname =>
    dsimp only at h
    split at h
    next hopened =>
      right
      rw [hopened] at h
      obtain ⟨pFile, hcopied, hrc⟩ := Option.map_eq_some_iff.mp h
      exact ⟨⟨by simp [hdb], by simp [hname], dFileName, hfile, hopened⟩, pDb, dDBName, pFile,
        hname, hcopied, hrc.symm⟩
    next hfailed =>
      cases h
      refine Or.inl ⟨?_, hfailed⟩
      rintro ⟨-, -, dFileName', hfile', hopened⟩
      rw [hfile] at hfile'
      cases hfile'
      exact hfailed hopened

/-- A call returns if the codes end. -/
theorem exists_transfer (hlimit : 0 ≤ call.nTimeoutLimit) {n : Nat}
    (hn : EndsAt call.codes call.nTimeoutLimit n) :
    ∃ rc, transfer direction openFlags call (n + 1) = some rc := by
  unfold transfer
  split
  next => exact ⟨_, rfl⟩
  next => exact ⟨_, rfl⟩
  next => exact ⟨_, rfl⟩
  next pDb dFileName dDBName _ _ _ =>
    dsimp only
    split
    next =>
      have hcopied : ∃ pFile, copied direction call (n + 1) pDb
          ⟨call.opened openFlags dFileName⟩ dDBName = some pFile := exists_copied hlimit hn _ _ _
      obtain ⟨pFile, hcopied⟩ := hcopied
      rw [hcopied]
      exact ⟨_, rfl⟩
    next => exact ⟨_, rfl⟩

/-- A result that is zero for a completed copy only is an error after a failure. -/
theorem Reports.of_ok_iff {rc : ResultCode} (h : rc = SQLITE_OK ↔ call.Copies openFlags) :
    Reports call openFlags rc :=
  ⟨h, fun hfails hok => (h.mp hok).2.2.not_fails hfails⟩

/-- A backup reports success for a completed copy only. -/
theorem backup_reports (hlimit : 0 ≤ call.nTimeoutLimit) {rc : ResultCode}
    (h : transfer .backup openFlags call fuel = some rc) : Reports call openFlags rc := by
  refine .of_ok_iff ?_
  rcases transfer_eq_some h with ⟨hnot, hrc⟩ | ⟨hopens, pDb, dDBName, pFile, hname, hcopied, rfl⟩
  · constructor
    · intro hok
      exact absurd hok hrc
    · intro hcopies
      exact absurd hcopies.1 hnot
  · rw [errcode_copyInto hlimit hcopied]
    constructor
    · rintro ⟨hinit, hcompletes⟩
      exact ⟨hopens, ⟨dDBName, hname, hinit⟩, hcompletes⟩
    · rintro ⟨-, ⟨dDBName', hname', hinit⟩, hcompletes⟩
      rw [hname] at hname'
      cases hname'
      exact ⟨hinit, hcompletes⟩

/-- A restore reports success as soon as the file is opened. -/
theorem restore_eq_ok {rc : ResultCode} (h : transfer .restore openFlags call fuel = some rc) :
    rc = SQLITE_OK ↔ call.Opens openFlags := by
  rcases transfer_eq_some h with ⟨hnot, hrc⟩ | ⟨hopens, pDb, dDBName, pFile, -, hcopied, rfl⟩
  · constructor
    · intro hok
      exact absurd hok hrc
    · intro hopens
      exact absurd hopens hnot
  · obtain ⟨_, -, rfl⟩ := Option.map_eq_some_iff.mp hcopied
    constructor
    · intro _
      exact hopens
    · intro _
      exact ResultCode.primary_eq_ok.mpr rfl

/-- Both functions return when the codes of the steps end.  A backup reports success for a
completed copy and for nothing else; a restore does so exactly if the file cannot be opened or the
copy is completed. -/
theorem success_iff_copied (call : Call) (hlimit : 0 ≤ call.nTimeoutLimit) :
    (∀ fuel rc, NativeDB_backup call fuel = some rc →
        Reports call (SQLITE_OPEN_READWRITE ||| SQLITE_OPEN_CREATE) rc) ∧
      (∀ fuel rc, NativeDB_restore call fuel = some rc →
        (Reports call SQLITE_OPEN_READONLY rc ↔
          ¬ call.Opens SQLITE_OPEN_READONLY ∨ call.Copies SQLITE_OPEN_READONLY)) ∧
      (Completes call.codes call.nTimeoutLimit ∨ Fails call.codes call.nTimeoutLimit →
        ∃ fuel rc rc', NativeDB_backup call fuel = some rc ∧
          NativeDB_restore call fuel = some rc') := by
  refine ⟨fun fuel rc h => backup_reports hlimit h, fun fuel rc h => ?_, ?_⟩
  · have hok := restore_eq_ok h
    constructor
    · intro hreports
      by_cases hopens : call.Opens SQLITE_OPEN_READONLY
      · exact Or.inr (hreports.ok_iff.mp (hok.mpr hopens))
      · exact Or.inl hopens
    · intro hcondition
      refine .of_ok_iff (hok.trans ⟨fun hopens => ?_, fun hcopies => hcopies.1⟩)
      exact hcondition.resolve_left (not_not_intro hopens)
  · intro hends
    have hlast : ∃ n, EndsAt call.codes call.nTimeoutLimit n := by
      rcases hends with ⟨n, hn, -⟩ | ⟨n, hn, -⟩
      · exact ⟨n, hn⟩
      · exact ⟨n, hn⟩
    obtain ⟨n, hn⟩ := hlast
    obtain ⟨rc, hbackup⟩ := exists_transfer hlimit hn
    obtain ⟨rc', hrestore⟩ := exists_transfer hlimit hn
    exact ⟨n + 1, rc, rc', hbackup, hrestore⟩

end Transfers

/-! ## Two calls -/

/-- A call with a database, two names, and given codes. -/
def smallCall (nTimeoutLimit : Int) (codes : Nat → ResultCode) : Call where
  pDb := some ⟨SQLITE_OK⟩
  dFileName := some [0x61]
  dDBName := some [0x62]
  nTimeoutLimit := nTimeoutLimit
  openV2 _ _ := SQLITE_OK
  init _ := SQLITE_OK
  codes := codes

/-- One timeout, and then everything is copied in two steps. -/
def patientCall : Call :=
  smallCall 1 fun n =>
    if n = 0 then SQLITE_BUSY else if n = 1 then SQLITE_OK else SQLITE_DONE

/-- Both functions copy everything, and say so. -/
theorem success_iff_copied_patient :
    NativeDB_backup patientCall 3 = some SQLITE_OK ∧
      Reports patientCall (SQLITE_OPEN_READWRITE ||| SQLITE_OPEN_CREATE) SQLITE_OK ∧
      NativeDB_restore patientCall 3 = some SQLITE_OK ∧
      (Reports patientCall SQLITE_OPEN_READONLY SQLITE_OK ↔
        ¬ patientCall.Opens SQLITE_OPEN_READONLY ∨ patientCall.Copies SQLITE_OPEN_READONLY) := by
  obtain ⟨hbackup, hrestore, -⟩ := success_iff_copied patientCall (by decide)
  have hrun : NativeDB_backup patientCall 3 = some SQLITE_OK := by decide
  have hrun' : NativeDB_restore patientCall 3 = some SQLITE_OK := by decide
  exact ⟨hrun, hbackup 3 _ hrun, hrun', hrestore 3 _ hrun'⟩

/-- A restore whose source stays locked copies nothing and reports success. -/
theorem busy_restore_succeeds :
    ¬ ∀ (call : Call), 0 ≤ call.nTimeoutLimit → ∀ fuel rc, NativeDB_restore call fuel = some rc →
      Reports call SQLITE_OPEN_READONLY rc := by
  intro hall
  have hrun : NativeDB_restore (smallCall 0 fun _ => SQLITE_BUSY) 1 = some SQLITE_OK := by decide
  have hreports := hall (smallCall 0 fun _ => SQLITE_BUSY) (by decide) 1 SQLITE_OK hrun
  obtain ⟨-, -, n, -, hdone⟩ := hreports.ok_iff.mp rfl
  exact absurd hdone (by decide : SQLITE_BUSY ≠ SQLITE_DONE)

end Sqlite
end IdeMultiarch
