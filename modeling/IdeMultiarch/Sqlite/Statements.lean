import Mathlib.Data.List.Basic
import IdeMultiarch.Sqlite.Backup

/-!
# Sqlite - batches of rows

{lit}`executeBatch` of {lit}`NativeDB.c` runs a prepared statement once for each row of an array.  The
values that a row does not bind are those that were bound before, since SQLite keeps the bindings of
a statement that is reset.

What the statement does to the database is a parameter, with everything else that its virtual
machine keeps.  The last error of the connection is left out.

Main results:

- Theorem {lit}`bindRow_whole`: how the values of a row are bound.
- Theorem {lit}`batchLoop_whole`: whole rows run in their order, until one is not done.
- Theorem {lit}`execute_batch`: all that a batch can do.
-/

namespace IdeMultiarch
namespace Sqlite

/-! ## Statements -/

/-- {lit}`VDBE_READY_STATE`, {lit}`VDBE_RUN_STATE` and {lit}`VDBE_HALT_STATE` -/
inductive VdbeState
  | ready
  | run
  | halt
deriving DecidableEq, Repr

/-- The value of a parameter: null, an integer, or the bytes of another value. -/
inductive Value
  | null
  | integer (v : Int)
  | other (bytes : List UInt8)
deriving DecidableEq, Repr

/-- What a statement does: a step with its values, from the beginning or where the last row was
found, and the end of one that is reset while it runs. -/
structure Program (D : Type) where
  step : List Value → VdbeState → D → D × VdbeState × ResultCode
  halt : D → D

/-- A prepared statement and the database. -/
structure Vdbe (D : Type) where
  aVar : List Value
  eVdbeState : VdbeState
  db : D
deriving DecidableEq, Repr

/-- {lit}`SQLITE_RANGE` -/
def SQLITE_RANGE : ResultCode := ⟨25, by decide⟩

section Functions

variable {D : Type} (program : Program D) (p : Vdbe D)

/-- {lit}`sqlite3_bind_int`, with {lit}`vdbeUnbind` -/
def sqlite3_bind_int (i : Int) (iValue : Int) : Vdbe D × ResultCode :=
  if p.eVdbeState ≠ .ready then (p, SQLITE_MISUSE)
  else if i < 1 ∨ p.aVar.length < i then (p, SQLITE_RANGE)
  else ({ p with aVar := p.aVar.set (i - 1).toNat (.integer iValue) }, SQLITE_OK)

/-- {lit}`sqlite3_reset`, without its result -/
def sqlite3_reset : Vdbe D :=
  { p with
    eVdbeState := .ready
    db := if p.eVdbeState = .run then program.halt p.db else p.db }

/-- {lit}`sqlite3_step` -/
def sqlite3_step : Vdbe D × ResultCode :=
  let p := if p.eVdbeState = .halt then sqlite3_reset program p else p
  let result := program.step p.aVar p.eVdbeState p.db
  ({ p with eVdbeState := result.2.1, db := result.1 }, result.2.2)

/-- {lit}`sqlite3_clear_bindings` -/
def sqlite3_clear_bindings : Vdbe D :=
  { p with aVar := p.aVar.map fun _ => .null }

/-! ## Batches -/

/-- The inner loop of {lit}`executeBatch`: the values left to bind, and the next position.  Nothing
for a read outside of the array. -/
def bindRow (body : List Int) (row : Nat) : Nat → Nat → Vdbe D → Option (Vdbe D × ResultCode)
  | 0, _, p => some (p, SQLITE_OK)
  | n + 1, position, p =>
      match body[row + position]? with
      | none => none
      | some value =>
          let result := sqlite3_bind_int p (position + 1) value
          if result.2 ≠ SQLITE_OK then some result
          else bindRow body row n (position + 1) result.1

/-- The outer loop: the rows left, and the next row.  With the statement it returns whether all rows
were done. -/
def batchLoop (body : List Int) (paramCount : Nat) : Nat → Nat → Vdbe D → Option (Vdbe D × Bool)
  | 0, _, p => some (p, true)
  | n + 1, batchIndex, p =>
      match bindRow body (batchIndex * paramCount) paramCount 0 (sqlite3_reset program p) with
      | none => none
      | some (p, status) =>
          if status ≠ SQLITE_OK then some (p, false)
          else
            let result := sqlite3_step program p
            if result.2 ≠ SQLITE_DONE then some (sqlite3_reset program result.1, false)
            else batchLoop body paramCount n (batchIndex + 1) result.1

/-- The exception that is thrown. -/
inductive Thrown
  | none
  | stmtFinalized
  | lastError
deriving DecidableEq, Repr

/-- What {lit}`executeBatch` leaves behind. -/
structure BatchResult (D : Type) where
  statement : Option (Vdbe D)
  code : ResultCode
  thrown : Thrown
deriving DecidableEq

/-- {lit}`executeBatch` -/
def executeBatch (statement : Option (Vdbe D)) (queryCount paramCount : Int) (data : List Int) :
    Option (BatchResult D) :=
  match statement with
  | none => some ⟨none, SQLITE_MISUSE, .stmtFinalized⟩
  | some p =>
      match batchLoop program data paramCount.toNat queryCount.toNat 0 p with
      | none => none
      | some (p, false) => some ⟨some p, SQLITE_MISUSE, .lastError⟩
      | some (p, true) =>
          some ⟨some (sqlite3_clear_bindings (sqlite3_reset program p)), SQLITE_OK, .none⟩

end Functions

/-! ## Binding a row -/

section Rows

variable {D : Type} {program : Program D} {p : Vdbe D} {body : List Int}

/-- The values of a row are bound one after the other. -/
theorem bindRow_append (row a b position : Nat) (p : Vdbe D) :
    bindRow body row (a + b) position p =
      (bindRow body row a position p).bind fun result =>
        if result.2 ≠ SQLITE_OK then some result
        else bindRow body row b (position + a) result.1 := by
  induction a generalizing position p with
  | zero => simp [bindRow]
  | succ a ih =>
      rw [Nat.succ_add, bindRow, bindRow]
      cases hread : body[row + position]? with
      | none => rfl
      | some value =>
          dsimp only
          split
          next hfailed => simp [hfailed]
          next hbound =>
            rw [ih]
            have hnext : position + 1 + a = position + (a + 1) := by omega
            rw [hnext]

/-- A value is bound in its place. -/
theorem sqlite3_bind_int_ready {position : Nat} (hready : p.eVdbeState = .ready)
    (hposition : position < p.aVar.length) (value : Int) :
    sqlite3_bind_int p (position + 1) value =
      ({ p with aVar := p.aVar.set position (.integer value) }, SQLITE_OK) := by
  have hinside : ¬ ((position : Int) + 1 < 1 ∨ (p.aVar.length : Int) < position + 1) := by omega
  have hindex : ((position : Int) + 1 - 1).toNat = position := by omega
  rw [sqlite3_bind_int, if_neg (not_not_intro hready), if_neg hinside, hindex]

/-- The values of a row that is in the array are bound, and the others stay. -/
theorem bindRow_whole {row n position : Nat} (hready : p.eVdbeState = .ready)
    (hbody : row + position + n ≤ body.length) (hvars : position + n ≤ p.aVar.length) :
    bindRow body row n position p =
      some ({ p with
        aVar := p.aVar.take position ++ ((body.drop (row + position)).take n).map .integer ++
          p.aVar.drop (position + n) }, SQLITE_OK) := by
  induction n generalizing position p with
  | zero => simp [bindRow]
  | succ n ih =>
      have hread : row + position < body.length := by omega
      have hposition : position < p.aVar.length := by omega
      have hrow : (body.drop (row + position)).take (n + 1) =
          body[row + position] :: (body.drop (row + (position + 1))).take n := by
        rw [List.drop_eq_getElem_cons hread, List.take_succ_cons, Nat.add_assoc]
      have hfront : (p.aVar.set position (.integer body[row + position])).take (position + 1) =
          p.aVar.take position ++ [.integer body[row + position]] := by
        rw [List.take_add_one, List.take_set_of_le (Nat.le_refl position)]
        simp [hposition]
      have hback : (p.aVar.set position (.integer body[row + position])).drop (position + 1 + n) =
          p.aVar.drop (position + (n + 1)) := by
        rw [List.drop_set_of_lt (by omega)]
        congr 1
        omega
      rw [bindRow, List.getElem?_eq_getElem hread]
      dsimp only
      rw [sqlite3_bind_int_ready hready hposition, if_neg (not_not_intro rfl)]
      rw [ih (by exact hready) (by omega) (by rw [List.length_set]; omega)]
      rw [hfront, hback, hrow]
      simp

/-- A row that is not in the array is not bound. -/
theorem bindRow_outside {row n : Nat} (hready : p.eVdbeState = .ready) (hrow : row ≤ body.length)
    (hbody : body.length < row + n) (hvars : body.length ≤ row + p.aVar.length) :
    bindRow body row n 0 p = none := by
  have hsplit : n = body.length - row + (n - (body.length - row) - 1 + 1) := by omega
  have hend : row + (0 + (body.length - row)) = body.length := by omega
  rw [hsplit, bindRow_append, bindRow_whole hready (by omega) (by omega), Option.bind_some,
    if_neg (not_not_intro rfl), bindRow, hend, List.getElem?_eq_none (Nat.le_refl _)]

/-- A row with more values than the statement has parameters is refused. -/
theorem bindRow_refused {n : Nat} (hready : p.eVdbeState = .ready)
    (hbody : p.aVar.length < body.length) (hvars : p.aVar.length < n) :
    bindRow body 0 n 0 p =
      some ({ p with aVar := (body.take p.aVar.length).map .integer }, SQLITE_RANGE) := by
  have hsplit : n = p.aVar.length + (n - p.aVar.length - 1 + 1) := by omega
  have hread : 0 + (0 + p.aVar.length) < body.length := by omega
  rw [hsplit, bindRow_append, bindRow_whole hready (by omega) (by omega), Option.bind_some,
    if_neg (not_not_intro rfl), bindRow, List.getElem?_eq_getElem hread]
  dsimp only
  have hrange : ∀ value : Int, ∀ aVar : List Value, aVar.length = p.aVar.length →
      sqlite3_bind_int { p with aVar := aVar } (((0 + p.aVar.length : Nat) : Int) + 1) value =
        ({ p with aVar := aVar }, SQLITE_RANGE) := by
    intro value aVar hlength
    have houtside : ((0 + p.aVar.length : Nat) : Int) + 1 < 1 ∨
        (aVar.length : Int) < ((0 + p.aVar.length : Nat) : Int) + 1 := by omega
    rw [sqlite3_bind_int, if_neg (not_not_intro hready), if_pos houtside]
  have hne : SQLITE_RANGE ≠ SQLITE_OK := by decide
  rw [hrange _ _ (by simp; omega), if_pos hne]
  simp

/-! ## The rows of a batch -/

/-- The first rows of an array. -/
def rowsOf (paramCount : Nat) : Nat → List Int → List (List Int)
  | 0, _ => []
  | n + 1, data => data.take paramCount :: rowsOf paramCount n (data.drop paramCount)

/-- How many rows of a batch are in the array. -/
def wholeRows (paramCount queryCount : Nat) (data : List Int) : Nat :=
  if queryCount * paramCount ≤ data.length then queryCount else data.length / paramCount

/-- What one row does to the database, and whether it is done.  The values behind those of the row
are kept. -/
def Program.row (program : Program D) (kept : List Value) (row : List Int) (db : D) : D × Bool :=
  let result := program.step (row.map .integer ++ kept) .ready db
  (if result.2.1 = .run then program.halt result.1 else result.1, result.2.2 = SQLITE_DONE)

/-- What rows do to the database, one after the other until one is not done, and the rows from that
one on. -/
def Program.rows (program : Program D) (kept : List Value) :
    List (List Int) → D → D × List (List Int)
  | [], db => (db, [])
  | row :: others, db =>
      if (program.row kept row db).2 then program.rows kept others (program.row kept row db).1
      else ((program.row kept row db).1, row :: others)

/-- A batch is the rows before some row, and the others if these are done. -/
theorem batchLoop_append (paramCount a b batchIndex : Nat) (p : Vdbe D) :
    batchLoop program body paramCount (a + b) batchIndex p =
      (batchLoop program body paramCount a batchIndex p).bind fun result =>
        if result.2 then batchLoop program body paramCount b (batchIndex + a) result.1
        else some result := by
  induction a generalizing batchIndex p with
  | zero => simp [batchLoop]
  | succ a ih =>
      rw [Nat.succ_add, batchLoop, batchLoop]
      cases bindRow body (batchIndex * paramCount) paramCount 0 (sqlite3_reset program p) with
      | none => rfl
      | some bound =>
          dsimp only
          split
          next => rfl
          next =>
            split
            next => rfl
            next =>
              rw [ih]
              have hnext : batchIndex + 1 + a = batchIndex + (a + 1) := by omega
              rw [hnext]

/-- One row of a batch that is in the array. -/
theorem batchLoop_row {paramCount batchIndex : Nat} (n : Nat) (hvars : paramCount ≤ p.aVar.length)
    (hbody : batchIndex * paramCount + paramCount ≤ body.length) :
    batchLoop program body paramCount (n + 1) batchIndex p =
      let row := (body.drop (batchIndex * paramCount)).take paramCount
      let result := sqlite3_step program
        ⟨row.map .integer ++ p.aVar.drop paramCount, .ready, (sqlite3_reset program p).db⟩
      if result.2 ≠ SQLITE_DONE then some (sqlite3_reset program result.1, false)
      else batchLoop program body paramCount n (batchIndex + 1) result.1 := by
  have hready : (sqlite3_reset program p).eVdbeState = .ready := rfl
  have hlength : 0 + paramCount ≤ (sqlite3_reset program p).aVar.length := by
    rw [Nat.zero_add]
    exact hvars
  rw [batchLoop, bindRow_whole hready (by omega) hlength]
  dsimp only
  rw [if_neg (not_not_intro rfl), Nat.zero_add, Nat.add_zero, List.take_zero, List.nil_append]
  rfl

/-- What a step of a statement that was reset does. -/
theorem sqlite3_step_row (program : Program D) (kept : List Value) (row : List Int) (db : D) :
    let result := sqlite3_step program ⟨row.map .integer ++ kept, .ready, db⟩
    result.1.aVar = row.map .integer ++ kept ∧
    (sqlite3_reset program result.1).db = (program.row kept row db).1 ∧
    ((program.row kept row db).2 = true ↔ result.2 = SQLITE_DONE) :=
  ⟨rfl, rfl, decide_eq_true_iff⟩

/-- A step of a row that fits leaves the other values as they were. -/
theorem sqlite3_step_kept (program : Program D) {row : List Int}
    (hvars : row.length ≤ p.aVar.length) (db : D) :
    let q := (sqlite3_step program
      ⟨row.map .integer ++ p.aVar.drop row.length, .ready, db⟩).1
    q.aVar.length = p.aVar.length ∧ q.aVar.drop row.length = p.aVar.drop row.length := by
  have hstep : (sqlite3_step program
      ⟨row.map .integer ++ p.aVar.drop row.length, .ready, db⟩).1.aVar =
        row.map .integer ++ p.aVar.drop row.length := rfl
  dsimp only
  rw [hstep]
  constructor
  · rw [List.length_append, List.length_map, List.length_drop]
    omega
  · exact List.drop_left' (List.length_map _)

/-- Whole rows run in their order, until one is not done. -/
theorem batchLoop_whole {paramCount n batchIndex : Nat} {db : D} {rest : List (List Int)}
    (hvars : n = 0 ∨ paramCount ≤ p.aVar.length)
    (hbody : (batchIndex + n) * paramCount ≤ body.length)
    (hrows : program.rows (p.aVar.drop paramCount)
      (rowsOf paramCount n (body.drop (batchIndex * paramCount)))
      (sqlite3_reset program p).db = (db, rest)) :
    ∃ q, batchLoop program body paramCount n batchIndex p = some (q, rest.isEmpty) ∧
      (sqlite3_reset program q).db = db ∧ q.aVar.length = p.aVar.length ∧
      ∀ row others, rest = row :: others →
        q = ⟨row.map .integer ++ p.aVar.drop paramCount, .ready, db⟩ := by
  induction n generalizing batchIndex p with
  | zero =>
      cases hrows
      exact ⟨p, rfl, rfl, rfl, fun _ _ h => by cases h⟩
  | succ n ih =>
      replace hvars := hvars.resolve_left (Nat.succ_ne_zero n)
      have hsucc : (batchIndex + 1) * paramCount = batchIndex * paramCount + paramCount :=
        Nat.succ_mul batchIndex paramCount
      have hfirst : batchIndex * paramCount + paramCount ≤ body.length := by
        rw [← hsucc]
        exact (Nat.mul_le_mul_right _ (by omega)).trans hbody
      have hdrop : (body.drop (batchIndex * paramCount)).drop paramCount =
          body.drop ((batchIndex + 1) * paramCount) := by
        rw [List.drop_drop, hsucc]
      rw [rowsOf, Program.rows, hdrop] at hrows
      rw [batchLoop_row n hvars hfirst]
      dsimp only
      generalize hrow : (body.drop (batchIndex * paramCount)).take paramCount = row at hrows ⊢
      have hrowLength : row.length = paramCount := by
        rw [← hrow, List.length_take, List.length_drop]
        omega
      subst hrowLength
      obtain ⟨haVar, hdb, hdone⟩ := sqlite3_step_row program
        (p.aVar.drop row.length) row (sqlite3_reset program p).db
      obtain ⟨hlength, hkept⟩ :=
        sqlite3_step_kept program hvars (sqlite3_reset program p).db
      generalize sqlite3_step program ⟨row.map .integer ++ p.aVar.drop row.length, .ready,
        (sqlite3_reset program p).db⟩ = result at haVar hdb hdone hlength hkept ⊢
      split at hrows
      next hrowDone =>
        rw [if_neg (not_not_intro (hdone.mp hrowDone))]
        rw [← hdb, ← hkept] at hrows
        obtain ⟨q, hloop, hreset, hvarsLeft, hstopped⟩ :=
          ih (Or.inr (hlength ▸ hvars)) (by rw [Nat.add_right_comm]; exact hbody) hrows
        exact ⟨q, hloop, hreset, hvarsLeft.trans hlength, hkept ▸ hstopped⟩
      next hrowFailed =>
        cases hrows
        rw [if_pos fun h => hrowFailed (hdone.mpr h)]
        refine ⟨_, rfl, ?_, ?_, ?_⟩
        · exact hdb
        · exact hlength
        · rintro first others heq
          cases heq
          rw [← haVar, ← hdb]
          rfl

/-- The rows of a batch, from the first one on. -/
theorem batchLoop_start {paramCount n : Nat} {db : D} {rest : List (List Int)}
    (hvars : n = 0 ∨ paramCount ≤ p.aVar.length) (hbody : n * paramCount ≤ body.length)
    (hrows : program.rows (p.aVar.drop paramCount) (rowsOf paramCount n body)
      (sqlite3_reset program p).db = (db, rest)) :
    ∃ q, batchLoop program body paramCount n 0 p = some (q, rest.isEmpty) ∧
      (sqlite3_reset program q).db = db ∧ q.aVar.length = p.aVar.length ∧
      ∀ row others, rest = row :: others →
        q = ⟨row.map .integer ++ p.aVar.drop paramCount, .ready, db⟩ := by
  apply batchLoop_whole hvars
  · rwa [Nat.zero_add]
  · rwa [Nat.zero_mul, List.drop_zero]

/-- The first row that is not in the array is read outside of it. -/
theorem batchLoop_outside {paramCount batchIndex : Nat} (n : Nat)
    (hvars : paramCount ≤ p.aVar.length) (hrow : batchIndex * paramCount ≤ body.length)
    (hbody : body.length < batchIndex * paramCount + paramCount) :
    batchLoop program body paramCount (n + 1) batchIndex p = none := by
  have hready : (sqlite3_reset program p).eVdbeState = .ready := rfl
  have hlength : body.length ≤
      batchIndex * paramCount + (sqlite3_reset program p).aVar.length := by
    have hsame : (sqlite3_reset program p).aVar.length = p.aVar.length := rfl
    omega
  rw [batchLoop, bindRow_outside hready hrow hbody hlength]

/-- What a batch leaves behind whose rows fit to the statement. -/
def Program.batch (program : Program D) (p : Vdbe D) (queryCount paramCount : Nat)
    (data : List Int) : Option (BatchResult D) :=
  let kept := p.aVar.drop paramCount
  match program.rows kept (rowsOf paramCount (wholeRows paramCount queryCount data) data)
      (sqlite3_reset program p).db with
  | (db, row :: _) =>
      some ⟨some ⟨row.map .integer ++ kept, .ready, db⟩, SQLITE_MISUSE, .lastError⟩
  | (db, []) =>
      if queryCount * paramCount ≤ data.length then
        some ⟨some ⟨List.replicate p.aVar.length .null, .ready, db⟩, SQLITE_OK, .none⟩
      else none

/-- The statement after all rows are done. -/
theorem clear_reset {q : Vdbe D} {db : D} (hreset : (sqlite3_reset program q).db = db) :
    sqlite3_clear_bindings (sqlite3_reset program q) =
      ⟨List.replicate q.aVar.length .null, .ready, db⟩ := by
  rw [← hreset, ← List.map_const']
  rfl

/-- A batch whose rows are all in the array. -/
theorem executeBatch_whole {queryCount paramCount : Int} {data : List Int}
    (hvars : queryCount ≤ 0 ∨ paramCount.toNat ≤ p.aVar.length)
    (hwhole : queryCount.toNat * paramCount.toNat ≤ data.length) :
    executeBatch program (some p) queryCount paramCount data =
      program.batch p queryCount.toNat paramCount.toNat data := by
  have hrows : wholeRows paramCount.toNat queryCount.toNat data = queryCount.toNat :=
    if_pos hwhole
  unfold Program.batch
  dsimp only
  rw [hrows]
  cases hresult : program.rows (p.aVar.drop paramCount.toNat)
      (rowsOf paramCount.toNat queryCount.toNat data) (sqlite3_reset program p).db with
  | mk db rest =>
      have hfits : queryCount.toNat = 0 ∨ paramCount.toNat ≤ p.aVar.length := by omega
      obtain ⟨q, hloop, hreset, hlength, hstopped⟩ := batchLoop_start hfits hwhole hresult
      unfold executeBatch
      dsimp only
      rw [hloop]
      cases rest with
      | nil =>
          dsimp only [List.isEmpty]
          rw [if_pos hwhole, clear_reset hreset, hlength]
      | cons row others =>
          rw [hstopped row others rfl]
          rfl

/-- A batch with fewer whole rows than it says. -/
theorem executeBatch_short {queryCount paramCount : Int} {data : List Int}
    (hvars : paramCount.toNat ≤ p.aVar.length)
    (hshort : data.length < queryCount.toNat * paramCount.toNat) :
    executeBatch program (some p) queryCount paramCount data =
      program.batch p queryCount.toNat paramCount.toNat data := by
  have hrows : wholeRows paramCount.toNat queryCount.toNat data =
      data.length / paramCount.toNat := if_neg (Nat.not_le.mpr hshort)
  have hpos : 0 < paramCount.toNat := by
    rcases Nat.eq_zero_or_pos paramCount.toNat with hzero | hpos
    · rw [hzero, Nat.mul_zero] at hshort
      omega
    · exact hpos
  have hbefore : data.length / paramCount.toNat * paramCount.toNat ≤ data.length :=
    Nat.div_mul_le_self _ _
  have hafter : data.length < data.length / paramCount.toNat * paramCount.toNat +
      paramCount.toNat := Nat.lt_div_mul_add hpos
  have hfewer : data.length / paramCount.toNat < queryCount.toNat :=
    Nat.div_lt_of_lt_mul (Nat.mul_comm _ _ ▸ hshort)
  obtain ⟨more, hmore⟩ := Nat.exists_eq_add_of_lt hfewer
  unfold Program.batch
  dsimp only
  rw [hrows]
  cases hresult : program.rows (p.aVar.drop paramCount.toNat)
      (rowsOf paramCount.toNat (data.length / paramCount.toNat) data)
      (sqlite3_reset program p).db with
  | mk db rest =>
      obtain ⟨q, hloop, hreset, hlength, hstopped⟩ :=
        batchLoop_start (Or.inr hvars) hbefore hresult
      unfold executeBatch
      dsimp only
      rw [hmore, Nat.add_assoc, batchLoop_append, hloop, Option.bind_some]
      cases rest with
      | nil =>
          dsimp only [List.isEmpty]
          rw [if_pos rfl, Nat.zero_add,
            batchLoop_outside more (hlength ▸ hvars) hbefore hafter]
          rw [← Nat.add_assoc, ← hmore, if_neg (Nat.not_le.mpr hshort)]
      | cons row others =>
          rw [hstopped row others rfl]
          rfl

/-- A batch whose rows have more values than the statement has parameters. -/
theorem executeBatch_refused {queryCount paramCount : Int} {data : List Int}
    (hvars : p.aVar.length < paramCount.toNat) (hquery : 0 < queryCount) :
    executeBatch program (some p) queryCount paramCount data =
      if p.aVar.length < data.length then
        some ⟨some ⟨(data.take p.aVar.length).map .integer, .ready,
          (sqlite3_reset program p).db⟩, SQLITE_MISUSE, .lastError⟩
      else none := by
  have hready : (sqlite3_reset program p).eVdbeState = .ready := rfl
  have hsame : (sqlite3_reset program p).aVar.length = p.aVar.length := rfl
  obtain ⟨n, hn⟩ : ∃ n, queryCount.toNat = n + 1 := ⟨queryCount.toNat - 1, by omega⟩
  unfold executeBatch
  rw [hn]
  dsimp only
  rw [batchLoop, Nat.zero_mul]
  by_cases hread : p.aVar.length < data.length
  · have hne : SQLITE_RANGE ≠ SQLITE_OK := by decide
    rw [if_pos hread, bindRow_refused hready (hsame ▸ hread) (hsame ▸ hvars)]
    dsimp only
    rw [if_pos hne]
    rfl
  · rw [if_neg hread, bindRow_outside hready (Nat.zero_le _) (by omega) (by omega)]

/-- All that a batch can do.  The rows run in their order, each with its own values in front of those
that were bound before, until one is not done: then the rows before it stay, its values stay bound,
and the statement is reset.  After the last row nothing stays bound.  The array is left exactly when
it has fewer whole rows than the batch says, and all of them are done.  If a row has more values
than the statement has parameters, no row runs. -/
theorem execute_batch (program : Program D) (p : Vdbe D) (queryCount paramCount : Int)
    (data : List Int) :
    (queryCount ≤ 0 ∨ paramCount.toNat ≤ p.aVar.length →
      executeBatch program (some p) queryCount paramCount data =
        program.batch p queryCount.toNat paramCount.toNat data) ∧
    (p.aVar.length < paramCount.toNat → 0 < queryCount →
      executeBatch program (some p) queryCount paramCount data =
        if p.aVar.length < data.length then
          some ⟨some ⟨(data.take p.aVar.length).map .integer, .ready,
            (sqlite3_reset program p).db⟩, SQLITE_MISUSE, .lastError⟩
        else none) := by
  constructor
  · intro hvars
    by_cases hwhole : queryCount.toNat * paramCount.toNat ≤ data.length
    · exact executeBatch_whole hvars hwhole
    · rw [Nat.not_le] at hwhole
      rcases hvars with hnone | hvars
      · have hzero : queryCount.toNat = 0 := Int.toNat_of_nonpos hnone
        rw [hzero, Nat.zero_mul] at hwhole
        omega
      · exact executeBatch_short hvars hwhole
  · exact executeBatch_refused

end Rows

/-- A statement that adds its values to a table, but no row that begins with zero. -/
def smallProgram : Program (List (List Value)) where
  step values _ db :=
    if values.head? = some (.integer 0) then (db, .halt, SQLITE_ERROR)
    else (db ++ [values], .halt, SQLITE_DONE)
  halt db := db

/-- The statement with a value that no row binds. -/
def smallStatement : Vdbe (List (List Value)) :=
  ⟨[.null, .null, .integer 7], .ready, []⟩

/-- The second row is refused, and the value that was bound before is in the first one. -/
theorem execute_batch_small :
    executeBatch smallProgram (some smallStatement) 3 2 [1, 2, 0, 4, 5, 6] =
      some ⟨some ⟨[.integer 0, .integer 4, .integer 7], .ready,
        [[.integer 1, .integer 2, .integer 7]]⟩, SQLITE_MISUSE, .lastError⟩ := by
  obtain ⟨hfits, -⟩ := execute_batch smallProgram smallStatement 3 2 [1, 2, 0, 4, 5, 6]
  rw [hfits (by decide)]
  decide

end Sqlite
end IdeMultiarch
