import IdeMultiarch.Library.Lines
import IdeMultiarch.Library.Settings

/-!
# Library - files of properties

The text format of {lit}`java.util.Properties`.  A text is cut into logical lines, each of which may
be spread over several natural ones with a backslash at the end of all but the last.  A logical
line is a key and a value, in which further backslashes escape characters.

Main results:

- Theorem {lit}`load_append_written`: properties that are written behind a text that ends no line
  with a backslash are added to it.
- Theorem {lit}`logicalLines_append_pending`: behind a backslash they go on with the last line.
- Theorem {lit}`finish_run_natural`: it does not matter how the lines of a text end.
-/

namespace IdeMultiarch
namespace Library
namespace Properties

/-! ## Logical lines -/

/-- What was read since the backslash that continues a line. -/
inductive Gap
  | newline
  | carriageReturn
  | blanks
deriving DecidableEq, Repr

/-- Where the reader stands. -/
inductive Mode
  | start
  | comment
  | inside (escaped : Bool)
  | continued (gap : Gap)
deriving DecidableEq, Repr

/-- The logical lines that are complete, and the part of the next one that was read. -/
structure Reader where
  mode : Mode
  done : List (List Char)
  line : List Char
deriving DecidableEq, Repr

/-- A blank -/
def isBlank (c : Char) : Bool :=
  c = ' ' || c = '\t' || c = '\x0c'

/-- The end of a natural line. -/
def isLineEnd (c : Char) : Bool :=
  c = '\n' || c = '\r'

namespace Reader

/-- The reader in front of a text. -/
def start : Reader :=
  ⟨.start, [], []⟩

/-- The end of a natural line that is no comment. -/
def endLine (r : Reader) (escaped : Bool) (c : Char) : Reader :=
  if r.line = [] then { r with mode := .start }
  else if escaped then
    { r with
      mode := .continued (if c = '\r' then .carriageReturn else .newline)
      line := r.line.dropLast }
  else ⟨.start, r.done ++ [r.line], []⟩

/-- A character of a line. -/
def put (r : Reader) (escaped : Bool) (c : Char) : Reader :=
  if isLineEnd c then r.endLine escaped c
  else { r with mode := .inside (c = '\\' && !escaped), line := r.line ++ [c] }

/-- The first character of a natural line that is no blank. -/
def putFirst (r : Reader) (c : Char) : Reader :=
  if r.line = [] ∧ (c = '#' ∨ c = '!') then { r with mode := .comment } else r.put false c

/-- {lit}`LineReader.readLine`, one character. -/
def step (r : Reader) (c : Char) : Reader :=
  match r.mode with
  | .start => if isBlank c then r else r.putFirst c
  | .comment => if isLineEnd c then { r with mode := .start } else r
  | .inside escaped => r.put escaped c
  | .continued gap =>
      if isBlank c ∨ (gap = .carriageReturn ∧ c = '\n') then
        { r with mode := .continued .blanks }
      else r.putFirst c

/-- The reader after a text. -/
def run (r : Reader) (text : List Char) : Reader :=
  text.foldl step r

/-- The logical lines at the end of the text.  A line that the last backslash continues is one,
even if nothing is left of it. -/
def finish (r : Reader) : List (List Char) :=
  match r.mode with
  | .start | .comment => r.done
  | .inside escaped => r.done ++ [if escaped then r.line.dropLast else r.line]
  | .continued gap => if gap = .blanks ∧ r.line = [] then r.done else r.done ++ [r.line]

end Reader

open Reader

/-- The logical lines of a text. -/
def logicalLines (text : List Char) : List (List Char) :=
  (run start text).finish

/-! ## Keys and values -/

/-- The units of a character in UTF-16. -/
def utf16 (c : Char) : List UInt16 :=
  if c.toNat < 0x10000 then [UInt16.ofNat c.toNat]
  else
    [UInt16.ofNat (0xD800 + (c.toNat - 0x10000) / 0x400),
      UInt16.ofNat (0xDC00 + (c.toNat - 0x10000) % 0x400)]

/-- A hexadecimal digit -/
def hexDigit (c : Char) : Option Nat :=
  if '0' ≤ c ∧ c ≤ '9' then some (c.toNat - '0'.toNat)
  else if 'a' ≤ c ∧ c ≤ 'f' then some (10 + (c.toNat - 'a'.toNat))
  else if 'A' ≤ c ∧ c ≤ 'F' then some (10 + (c.toNat - 'A'.toNat))
  else none

/-- The character that an escape stands for. -/
def escaped (c : Char) : Char :=
  if c = 't' then '\t' else if c = 'r' then '\r' else if c = 'n' then '\n'
  else if c = 'f' then '\x0c' else c

/-- {lit}`loadConvert`: nothing for a malformed escape. -/
def loadConvert : List Char → Option (List UInt16)
  | '\\' :: 'u' :: a :: b :: c :: d :: text => do
      let a ← hexDigit a
      let b ← hexDigit b
      let c ← hexDigit c
      let d ← hexDigit d
      let rest ← loadConvert text
      return UInt16.ofNat (((a * 16 + b) * 16 + c) * 16 + d) :: rest
  | '\\' :: c :: text => do
      if c = 'u' then none
      let rest ← loadConvert text
      return utf16 (escaped c) ++ rest
  | '\\' :: [] => some []
  | c :: text => do
      let rest ← loadConvert text
      return utf16 c ++ rest
  | [] => some []

/-- A character that ends a key. -/
def endsKey (c : Char) : Bool :=
  c = '=' || c = ':' || isBlank c

/-- The key of a line, and what follows. -/
def spanKey (escaped : Bool) : List Char → List Char × List Char
  | [] => ([], [])
  | c :: line =>
      if endsKey c && !escaped then ([], c :: line)
      else
        let (key, rest) := spanKey (c = '\\' && !escaped) line
        (c :: key, rest)

/-- The value of a line: blanks and one sign are skipped. -/
def skipSeparator (hasSep : Bool) : List Char → List Char
  | [] => []
  | c :: line =>
      if isBlank c then skipSeparator hasSep line
      else if !hasSep && (c = '=' || c = ':') then skipSeparator true line
      else c :: line

/-- The key and the value of a logical line. -/
def pair (line : List Char) : Option (List UInt16 × List UInt16) := do
  let (key, rest) := spanKey false line
  let key ← loadConvert key
  let value ← loadConvert (skipSeparator false rest)
  return (key, value)

/-- {lit}`Properties.load`: all keys and values in their order, or nothing if one is malformed. -/
def load (text : List Char) : Option (List (List UInt16 × List UInt16)) :=
  (logicalLines text).mapM pair

/-- {lit}`getProperty`, after all of them were put in a table. -/
def getProperty (properties : List (List UInt16 × List UInt16)) (key : List UInt16) :
    Option (List UInt16) :=
  Settings.valueOf some key properties

/-! ## One character -/

variable {r r' : Reader} {c : Char} {escaped : Bool} {line text : List Char}

namespace Reader

theorem run_nil : run r [] = r :=
  rfl

theorem run_cons : run r (c :: text) = run (step r c) text :=
  rfl

theorem run_append (front back : List Char) : run r (front ++ back) = run (run r front) back :=
  List.foldl_append

/-- Between two logical lines nothing of a line was read, and inside of one something was. -/
def Sound (r : Reader) : Prop :=
  match r.mode with
  | .start | .comment => r.line = []
  | .inside _ => r.line ≠ []
  | .continued _ => True

theorem sound_put (r : Reader) (escaped : Bool) (c : Char) : (r.put escaped c).Sound := by
  unfold put endLine
  split_ifs <;> simp_all [Sound]

theorem sound_putFirst (r : Reader) (c : Char) : (r.putFirst c).Sound := by
  unfold putFirst
  split
  next h => exact h.1
  next => exact r.sound_put false c

/-- Every character keeps the reader sound. -/
theorem Sound.step (h : r.Sound) (c : Char) : (r.step c).Sound := by
  obtain ⟨mode, done, line⟩ := r
  cases mode with
  | start =>
      unfold Reader.step
      dsimp only
      split
      · exact h
      · exact sound_putFirst _ c
  | comment =>
      unfold Reader.step
      dsimp only
      split
      · exact h
      · exact h
  | inside escaped => exact sound_put _ escaped c
  | continued gap =>
      unfold Reader.step
      dsimp only
      split
      · trivial
      · exact sound_putFirst _ c

theorem Sound.run (h : r.Sound) (text : List Char) : (r.run text).Sound := by
  induction text generalizing r with
  | nil => exact h
  | cons c text ih => exact ih (h.step c)

/-- What the last character was, if a line was just continued. -/
theorem gap_of_step {gap : Gap} (h : (r.step c).mode = .continued gap) :
    (gap = .newline → c = '\n') ∧ (gap = .carriageReturn → c = '\r') := by
  obtain ⟨mode, done, line⟩ := r
  have hput : ∀ escaped, (put ⟨mode, done, line⟩ escaped c).mode = .continued gap →
      (gap = .newline → c = '\n') ∧ (gap = .carriageReturn → c = '\r') := by
    intro escaped hmode
    unfold put endLine isLineEnd at hmode
    grind
  cases mode with
  | start => grind [Reader.step, putFirst]
  | comment => grind [Reader.step, putFirst]
  | inside escaped => exact hput escaped h
  | continued gap => grind [Reader.step, putFirst]

/-- The reader with some lines in front. -/
def after (front : List (List Char)) (r : Reader) : Reader :=
  ⟨r.mode, front ++ r.done, r.line⟩

/-- The lines in front are kept. -/
theorem step_after (front : List (List Char)) (c : Char) :
    (r.after front).step c = (r.step c).after front := by
  obtain ⟨mode, done, line⟩ := r
  have hput : ∀ escaped, put (after front ⟨mode, done, line⟩) escaped c =
      after front (put ⟨mode, done, line⟩ escaped c) := by
    intro escaped
    unfold put endLine after
    dsimp only
    split_ifs <;> simp
  have hputFirst : putFirst (after front ⟨mode, done, line⟩) c =
      after front (putFirst ⟨mode, done, line⟩ c) := by
    by_cases hhash : line = [] ∧ (c = '#' ∨ c = '!')
    · have hplain : putFirst ⟨mode, done, line⟩ c = ⟨.comment, done, line⟩ := if_pos hhash
      have hafter : putFirst (after front ⟨mode, done, line⟩) c =
          ⟨.comment, front ++ done, line⟩ := if_pos hhash
      rw [hplain, hafter]
      rfl
    · have hplain : putFirst ⟨mode, done, line⟩ c = put ⟨mode, done, line⟩ false c :=
        if_neg hhash
      have hafter : putFirst (after front ⟨mode, done, line⟩) c =
          put (after front ⟨mode, done, line⟩) false c := if_neg hhash
      rw [hplain, hafter, hput]
  cases mode with
  | start =>
      unfold Reader.step
      dsimp only [after] at *
      rw [hputFirst]
      split <;> rfl
  | comment =>
      unfold Reader.step
      dsimp only [after]
      split <;> rfl
  | inside escaped => exact hput escaped
  | continued gap =>
      unfold Reader.step
      dsimp only [after] at *
      rw [hputFirst]
      split <;> rfl

theorem run_after (front : List (List Char)) (text : List Char) :
    (r.after front).run text = (r.run text).after front := by
  induction text generalizing r with
  | nil => rfl
  | cons c text ih => rw [run_cons, step_after, ih, run_cons]

/-! ## How natural lines end -/

/-- The readers differ at most in how the last natural line ended. -/
structure Same (r r' : Reader) : Prop where
  done : r.done = r'.done
  line : r.line = r'.line
  mode : r.mode = r'.mode ∨ ∃ gap gap', r.mode = .continued gap ∧ r'.mode = .continued gap' ∧
    gap ≠ .carriageReturn ∧ gap' ≠ .carriageReturn

theorem Same.refl (r : Reader) : Same r r :=
  ⟨rfl, rfl, Or.inl rfl⟩

/-- It is forgotten how the line ended. -/
theorem Same.step (h : Same r r') (c : Char) : Same (r.step c) (r'.step c) := by
  obtain ⟨mode, done, line⟩ := r
  obtain ⟨mode', done', line'⟩ := r'
  obtain ⟨rfl, rfl, hmode⟩ := h
  dsimp only at hmode
  rcases hmode with rfl | ⟨gap, gap', rfl, rfl, hgap, hgap'⟩
  · exact Same.refl _
  · have hsame : Reader.step ⟨.continued gap, done, line⟩ c =
        Reader.step ⟨.continued gap', done, line⟩ c := by
      unfold Reader.step
      simp [hgap, hgap', putFirst, put, endLine]
    rw [hsame]
    exact Same.refl _

theorem Same.run (h : Same r r') (text : List Char) : Same (r.run text) (r'.run text) := by
  induction text generalizing r r' with
  | nil => exact h
  | cons c text ih => exact ih (h.step c)

theorem Same.trans {r'' : Reader} (h : Same r r') (h' : Same r' r'') : Same r r'' := by
  refine ⟨h.done.trans h'.done, h.line.trans h'.line, ?_⟩
  rcases h.mode with heq | ⟨gap, gap', hr, hr', hgap, hgap'⟩
  · rw [heq]
    exact h'.mode
  · right
    rcases h'.mode with heq' | ⟨-, gap'', -, hr'', -, hgap''⟩
    · exact ⟨gap, gap', hr, heq'.symm.trans hr', hgap, hgap'⟩
    · exact ⟨gap, gap'', hr, hr'', hgap, hgap''⟩

theorem Same.start (h : Same r r') (hmode : r'.mode = .start) : r.mode = .start := by
  rcases h.mode with heq | ⟨_, _, _, hcontinued, _, _⟩
  · exact heq.trans hmode
  · rw [hmode] at hcontinued
    cases hcontinued

theorem Same.continued {gap : Gap} (h : Same r r') (hmode : r'.mode = .continued gap) :
    ∃ gap, r.mode = .continued gap := by
  rcases h.mode with heq | ⟨gap, _, hcontinued, _, _, _⟩
  · exact ⟨_, heq.trans hmode⟩
  · exact ⟨gap, hcontinued⟩

/-- A carriage return in front of the end of a line does not matter, unless one was just read. -/
theorem same_lineEnd (hsound : r.Sound) (hmode : r.mode ≠ .continued .carriageReturn) :
    Same (r.run ['\r', '\n']) (r.step '\n') := by
  have hblank : isBlank '\r' = false ∧ isBlank '\n' = false := by decide
  have hend : isLineEnd '\r' = true ∧ isLineEnd '\n' = true := by decide
  have hstart : ∀ done, Reader.step ⟨.start, done, []⟩ '\n' = ⟨.start, done, []⟩ := by
    intro done
    simp [Reader.step, hblank, hend, putFirst, put, endLine]
  obtain ⟨mode, done, line⟩ := r
  rw [run_cons, run_cons, run_nil]
  cases mode with
  | start =>
      obtain rfl : line = [] := hsound
      have hreturn : Reader.step ⟨.start, done, []⟩ '\r' = ⟨.start, done, []⟩ := by
        simp [Reader.step, hblank, hend, putFirst, put, endLine]
      rw [hreturn]
      exact Same.refl _
  | comment =>
      obtain rfl : line = [] := hsound
      have hcomment : ∀ c, isLineEnd c = true →
          Reader.step ⟨.comment, done, []⟩ c = ⟨.start, done, []⟩ := by
        intro c hc
        simp [Reader.step, hc]
      rw [hcomment _ hend.1, hcomment _ hend.2, hstart]
      exact Same.refl _
  | inside escaped =>
      have hline : line ≠ [] := hsound
      cases escaped with
      | false =>
          have hinside : ∀ c, isLineEnd c = true →
              Reader.step ⟨.inside false, done, line⟩ c = ⟨.start, done ++ [line], []⟩ := by
            intro c hc
            simp [Reader.step, put, hc, endLine, hline]
          rw [hinside _ hend.1, hinside _ hend.2, hstart]
          exact Same.refl _
      | true =>
          have hreturn : Reader.step ⟨.inside true, done, line⟩ '\r' =
              ⟨.continued .carriageReturn, done, line.dropLast⟩ := by
            simp [Reader.step, put, hend, endLine, hline]
          have hnewline : Reader.step ⟨.inside true, done, line⟩ '\n' =
              ⟨.continued .newline, done, line.dropLast⟩ := by
            simp [Reader.step, put, hend, endLine, hline]
          have hskipped : Reader.step ⟨.continued .carriageReturn, done, line.dropLast⟩ '\n' =
              ⟨.continued .blanks, done, line.dropLast⟩ := by
            simp [Reader.step]
          rw [hreturn, hskipped, hnewline]
          exact ⟨rfl, rfl, Or.inr ⟨_, _, rfl, rfl, by decide, by decide⟩⟩
  | continued gap =>
      have hgap : gap ≠ .carriageReturn := fun heq => hmode (congrArg Mode.continued heq)
      have hboth : ∀ c, isLineEnd c = true → c ≠ '#' → c ≠ '!' → isBlank c = false →
          Reader.step ⟨.continued gap, done, line⟩ c =
            ⟨.start, done ++ if line = [] then [] else [line], []⟩ := by
        intro c hc hhash hbang hnoBlank
        by_cases hline : line = [] <;>
          simp [Reader.step, hnoBlank, hgap, putFirst, hhash, hbang, put, hc, endLine, hline]
      rw [hboth _ hend.1 (by decide) (by decide) hblank.1,
        hboth _ hend.2 (by decide) (by decide) hblank.2, hstart]
      exact Same.refl _

/-- What the end of a line completes is complete at the end of a text. -/
theorem finish_of_lineEnd (hsound : r.Sound) (hmode : r.mode ≠ .continued .newline) :
    ((r.step '\n').mode = .start → r.finish = (r.step '\n').done) ∧
    (∀ gap, (r.step '\n').mode = .continued gap → (r.step '\n').line ≠ [] →
      r.finish = (r.step '\n').done ++ [(r.step '\n').line]) := by
  obtain ⟨mode, done, line⟩ := r
  cases mode with
  | start =>
      obtain rfl : line = [] := hsound
      simp [Reader.step, isBlank, isLineEnd, putFirst, put, endLine, finish]
  | comment =>
      obtain rfl : line = [] := hsound
      simp [Reader.step, isLineEnd, finish]
  | inside escaped =>
      have hline : line ≠ [] := hsound
      cases escaped <;>
        simp [Reader.step, isLineEnd, put, endLine, finish, hline]
  | continued gap =>
      cases gap with
      | newline => exact absurd rfl hmode
      | carriageReturn =>
          by_cases hline : line = [] <;> simp [Reader.step, finish, hline]
      | blanks =>
          by_cases hline : line = [] <;>
            simp [Reader.step, isBlank, isLineEnd, putFirst, put, endLine, finish, hline]

end Reader

/-! ## Texts made of natural lines -/

/-- A text with these natural lines, each of which may end with a carriage return and a newline. -/
inductive Natural : List (List Char) → List Char → Prop
  | nil : Natural [] []
  | last {line : List Char} (hne : line ≠ []) (hline : '\n' ∉ line) : Natural [line] line
  | newline {lines : List (List Char)} {text : List Char} (line : List Char)
      (h : Natural lines text) : Natural (line :: lines) (line ++ '\n' :: text)
  | carriageReturn {lines : List (List Char)} {text : List Char} (line : List Char)
      (h : Natural lines text) : Natural (line :: lines) (line ++ '\r' :: '\n' :: text)

/-- After the characters of a line, it is not the carriage return of an end that was read last. -/
theorem mode_ne_carriageReturn (hmode : r.mode ≠ .continued .carriageReturn)
    (hline : line.getLast? ≠ some '\r') : (r.run line).mode ≠ .continued .carriageReturn := by
  rcases List.eq_nil_or_concat' line with rfl | ⟨front, c, rfl⟩
  · exact hmode
  · rw [List.getLast?_concat] at hline
    rw [run_append, run_cons, run_nil]
    intro hcontinued
    exact hline (congrArg some ((gap_of_step hcontinued).2 rfl))

theorem mode_ne_newline (hne : line ≠ []) (hline : '\n' ∉ line) :
    (r.run line).mode ≠ .continued .newline := by
  obtain ⟨front, c, rfl⟩ := (List.eq_nil_or_concat' line).resolve_left hne
  rw [run_append, run_cons, run_nil]
  intro hcontinued
  have hc := (gap_of_step hcontinued).1 rfl
  exact hline (List.mem_append_right _ (hc ▸ List.mem_cons_self))

/-- How the lines of a text end does not matter: it has the lines that are complete after it was
written with newlines, and the one that is continued behind it. -/
theorem finish_run_natural {lines : List (List Char)} (h : Natural lines text)
    (hlines : ∀ line ∈ lines, line.getLast? ≠ some '\r') (hsame : Same r r') (hsound : r.Sound)
    (hmode : r.mode ≠ .continued .carriageReturn) :
    ((r'.run (unlines '\n' lines)).mode = .start →
      (r.run text).finish = (r'.run (unlines '\n' lines)).done) ∧
    (∀ gap, (r'.run (unlines '\n' lines)).mode = .continued gap →
      (r'.run (unlines '\n' lines)).line ≠ [] →
      (r.run text).finish =
        (r'.run (unlines '\n' lines)).done ++ [(r'.run (unlines '\n' lines)).line]) := by
  induction h generalizing r r' with
  | nil =>
      rw [unlines_nil, run_nil, run_nil]
      constructor
      · intro hstart
        rw [finish, hsame.start hstart]
        exact hsame.done
      · intro gap hcontinued hline
        obtain ⟨gap', hgap'⟩ := hsame.continued hcontinued
        rw [finish, hgap', hsame.done, hsame.line]
        exact if_neg fun h => hline h.2
  | @last line hne hline =>
      have hend : r'.run (unlines '\n' [line]) = (r'.run line).step '\n' := by
        rw [unlines_cons, unlines_nil, run_append, run_cons, run_nil]
      have hstep := (hsame.run line).step '\n'
      obtain ⟨hclosed, hopen⟩ := finish_of_lineEnd (hsound.run line) (mode_ne_newline hne hline)
      rw [hend, ← hstep.done, ← hstep.line]
      constructor
      · intro hstart
        exact hclosed (hstep.start hstart)
      · intro gap hcontinued hpending
        obtain ⟨gap', hgap'⟩ := hstep.continued hcontinued
        exact hopen gap' hgap' hpending
  | @newline lines text line _ ih =>
      obtain ⟨-, hrest⟩ := List.forall_mem_cons.mp hlines
      have hnewline : ((r.run line).step '\n').mode ≠ .continued .carriageReturn := by
        intro hcontinued
        have hc := (gap_of_step hcontinued).2 rfl
        contradiction
      rw [unlines_cons, run_append, run_append, run_cons, run_cons]
      exact ih hrest ((hsame.run line).step '\n') ((hsound.run line).step '\n') hnewline
  | @carriageReturn lines text line _ ih =>
      obtain ⟨hline, hrest⟩ := List.forall_mem_cons.mp hlines
      have hends : Same ((r.run line).run ['\r', '\n']) ((r'.run line).step '\n') :=
        (same_lineEnd (hsound.run line) (mode_ne_carriageReturn hmode hline)).trans
          ((hsame.run line).step '\n')
      have hnewline : ((r.run line).run ['\r', '\n']).mode ≠ .continued .carriageReturn := by
        intro hcontinued
        have hc := (gap_of_step (r := (r.run line).step '\r') hcontinued).2 rfl
        contradiction
      have htext : line ++ '\r' :: '\n' :: text = line ++ (['\r', '\n'] ++ text) := rfl
      rw [unlines_cons, htext, run_append, run_append, run_append, run_cons]
      exact ih hrest hends ((hsound.run line).run _) hnewline

/-- All lines of a text are complete. -/
def Complete (text : List Char) : Prop :=
  (run start text).mode = .start

instance (text : List Char) : Decidable (Complete text) :=
  inferInstanceAs (Decidable (_ = _))

/-- The part of a line that the end of a text leaves open. -/
def pending (text : List Char) : List Char :=
  (run start text).line

/-- A text that ends with a newline is complete, or the last line is continued. -/
theorem complete_or_continued (lines : List (List Char)) :
    Complete (unlines '\n' lines) ∨
      ∃ gap, (run start (unlines '\n' lines)).mode = .continued gap := by
  rcases List.eq_nil_or_concat' lines with rfl | ⟨front, last, rfl⟩
  · exact Or.inl rfl
  · have hend : run start (unlines '\n' (front ++ [last])) =
        (run (run start (unlines '\n' front)) last).step '\n' := by
      rw [unlines_append, unlines_cons, unlines_nil, run_append, run_append, run_cons, run_nil]
    have hblank : isBlank '\n' = false ∧ isLineEnd '\n' = true := by decide
    unfold Complete
    rw [hend]
    obtain ⟨mode, done, line⟩ := run (run start (unlines '\n' front)) last
    cases mode <;>
      simp only [Reader.step, putFirst, put, endLine, hblank] <;>
      grind

/-! ## Lines that are written -/

/-- A key and a value that need no escapes. -/
structure Plain (key value : List Char) : Prop where
  key_ne : key ≠ []
  key_head : ∀ c ∈ key.head?, c ≠ '#' ∧ c ≠ '!'
  key_chars : ∀ c ∈ key, endsKey c = false ∧ c ≠ '\\' ∧ isLineEnd c = false
  value_head : ∀ c ∈ value.head?, isBlank c = false
  value_chars : ∀ c ∈ value, c ≠ '\\' ∧ isLineEnd c = false

/-- The same conditions, as they are tested. -/
theorem plain_iff (key value : List Char) :
    Plain key value ↔ key ≠ [] ∧ key.head?.all (fun c => c != '#' && c != '!') = true ∧
      key.all (fun c => !endsKey c && c != '\\' && !isLineEnd c) = true ∧
      value.head?.all (fun c => !isBlank c) = true ∧
      value.all (fun c => c != '\\' && !isLineEnd c) = true := by
  simp only [List.all_eq_true, Option.all_eq_true, Bool.and_eq_true, bne_iff_ne,
    Bool.not_eq_true', and_assoc]
  constructor
  · rintro ⟨hne, hhead, hchars, hvalue, hvalues⟩
    exact ⟨hne, hhead, hchars, hvalue, hvalues⟩
  · rintro ⟨hne, hhead, hchars, hvalue, hvalues⟩
    exact ⟨hne, hhead, hchars, hvalue, hvalues⟩

instance (key value : List Char) : Decidable (Plain key value) :=
  decidable_of_iff' _ (plain_iff key value)

/-- The line that gives a key a value. -/
def written (property : List Char × List Char) : List Char :=
  property.1 ++ '=' :: property.2

/-- The key and the value as strings. -/
def units (property : List Char × List Char) : List UInt16 × List UInt16 :=
  (property.1.flatMap utf16, property.2.flatMap utf16)

/-- Characters that are neither escaped nor the end of a line. -/
theorem run_inside (done : List (List Char)) (line : List Char)
    (htext : ∀ c ∈ text, c ≠ '\\' ∧ isLineEnd c = false) :
    run ⟨.inside false, done, line⟩ text = ⟨.inside false, done, line ++ text⟩ := by
  induction text generalizing line with
  | nil => rw [List.append_nil, run_nil]
  | cons c text ih =>
      obtain ⟨⟨hescape, hend⟩, hrest⟩ := List.forall_mem_cons.mp htext
      have hstep : Reader.step ⟨.inside false, done, line⟩ c =
          ⟨.inside false, done, line ++ [c]⟩ := by
        simp [Reader.step, put, hescape, hend]
      rw [run_cons, hstep, ih _ hrest, List.append_assoc, List.singleton_append]

/-- A written line is complete, and goes on with a line that was left open. -/
theorem run_written {property : List Char × List Char} (h : Plain property.1 property.2)
    (hmode : r.mode = .start ∧ r.line = [] ∨ ∃ gap, r.mode = .continued gap) :
    r.run (written property ++ ['\n']) =
      ⟨.start, r.done ++ [r.line ++ written property], []⟩ := by
  obtain ⟨key, value⟩ := property
  obtain ⟨hne, hhead, hkey, -, hvalue⟩ := h
  obtain ⟨c, key, rfl⟩ := List.exists_cons_of_ne_nil hne
  obtain ⟨⟨hblank, hescape, hend⟩, hrest⟩ := List.forall_mem_cons.mp hkey
  obtain ⟨hhash, hbang⟩ := hhead c rfl
  have hchars : ∀ c ∈ key ++ '=' :: value, c ≠ '\\' ∧ isLineEnd c = false := by
    intro c' hc'
    rcases List.mem_append.mp hc' with hmem | hmem
    · exact (hrest c' hmem).2
    · rcases List.mem_cons.mp hmem with rfl | hmem
      · decide
      · exact hvalue c' hmem
  have hnoBlank : isBlank c = false := by
    unfold endsKey at hblank
    simp only [Bool.or_eq_false_iff] at hblank
    exact hblank.2
  have hnewline : c ≠ '\n' := by
    rintro rfl
    contradiction
  have hput : r.putFirst c = ⟨.inside false, r.done, r.line ++ [c]⟩ := by
    simp [putFirst, hhash, hbang, put, hend, hescape]
  have hfirst : r.step c = ⟨.inside false, r.done, r.line ++ [c]⟩ := by
    rcases hmode with ⟨hstart, -⟩ | ⟨gap, hgap⟩
    · simp [Reader.step, hstart, hnoBlank, hput]
    · simp [Reader.step, hgap, hnoBlank, hnewline, hput]
  have hline : written (c :: key, value) ++ ['\n'] = c :: ((key ++ '=' :: value) ++ ['\n']) := rfl
  rw [hline, run_cons, hfirst, run_append, run_inside _ _ hchars, run_cons, run_nil]
  simp [Reader.step, put, isLineEnd, endLine, written]

/-- Written lines are all complete. -/
theorem run_unlines_written {properties : List (List Char × List Char)}
    (h : ∀ property ∈ properties, Plain property.1 property.2) (done : List (List Char)) :
    run ⟨.start, done, []⟩ (unlines '\n' (properties.map written)) =
      ⟨.start, done ++ properties.map written, []⟩ := by
  induction properties generalizing done with
  | nil => rw [List.map_nil, unlines_nil, run_nil, List.append_nil]
  | cons property properties ih =>
      obtain ⟨hplain, hrest⟩ := List.forall_mem_cons.mp h
      rw [List.map_cons, unlines_cons, List.append_cons, run_append,
        run_written hplain (Or.inl ⟨rfl, rfl⟩), ih hrest]
      simp

/-- Characters that are not escaped. -/
theorem loadConvert_plain (htext : ∀ c ∈ text, c ≠ '\\') :
    loadConvert text = some (text.flatMap utf16) := by
  induction text with
  | nil => rfl
  | cons c text ih =>
      obtain ⟨hescape, hrest⟩ := List.forall_mem_cons.mp htext
      rw [loadConvert.eq_4 c text (fun _ _ _ _ _ heq _ => hescape heq)
        (fun _ _ heq _ => hescape heq) (fun heq _ => hescape heq), ih hrest]
      rfl

theorem spanKey_plain {key : List Char} (hkey : ∀ c ∈ key, endsKey c = false ∧ c ≠ '\\')
    (rest : List Char) : spanKey false (key ++ '=' :: rest) = (key, '=' :: rest) := by
  induction key with
  | nil => rfl
  | cons c key ih =>
      obtain ⟨⟨hends, hescape⟩, hrest⟩ := List.forall_mem_cons.mp hkey
      rw [List.cons_append, spanKey]
      simp [hends, hescape, ih hrest]

/-- A written line is read back. -/
theorem pair_written {property : List Char × List Char} (h : Plain property.1 property.2) :
    pair (written property) = some (units property) := by
  obtain ⟨key, value⟩ := property
  obtain ⟨-, -, hkey, hhead, hvalue⟩ := h
  have hskip : skipSeparator false ('=' :: value) = value := by
    cases value with
    | nil => rfl
    | cons c value =>
        have hblank : isBlank '=' = false := by decide
        simp [skipSeparator, hblank, hhead c rfl]
  have hkeyText : loadConvert key = some (key.flatMap utf16) :=
    loadConvert_plain fun c hc => (hkey c hc).2.1
  have hvalueText : loadConvert value = some (value.flatMap utf16) :=
    loadConvert_plain fun c hc => (hvalue c hc).1
  have hspan : spanKey false (written (key, value)) = (key, '=' :: value) :=
    spanKey_plain (fun c hc => ⟨(hkey c hc).1, (hkey c hc).2.1⟩) value
  rw [pair, hspan]
  dsimp only
  rw [hskip, hkeyText, hvalueText]
  rfl

/-! ## Properties behind a text -/

section Behind

variable {lines : List (List Char)} {properties : List (List Char × List Char)}

/-- Behind a complete text nothing of a line was read. -/
theorem start_of_complete (h : Complete text) :
    run start text = ⟨.start, (run start text).done, []⟩ := by
  have hmode : (run start text).mode = .start := h
  have hstart : start.Sound := rfl
  have hsound := hstart.run text
  unfold Sound at hsound
  rw [hmode] at hsound
  rw [← hmode, ← hsound]

/-- Behind a complete text, written lines are lines of their own. -/
theorem logicalLines_append_written (hnatural : Natural lines text)
    (hlines : ∀ line ∈ lines, line.getLast? ≠ some '\r')
    (hproperties : ∀ property ∈ properties, Plain property.1 property.2)
    (hcomplete : Complete (unlines '\n' lines)) :
    logicalLines (unlines '\n' lines ++ unlines '\n' (properties.map written)) =
      logicalLines text ++ properties.map written := by
  have htext : logicalLines text = (run start (unlines '\n' lines)).done :=
    (finish_run_natural hnatural hlines (Same.refl start) rfl (by decide)).1 hcomplete
  rw [logicalLines, run_append, start_of_complete hcomplete, run_unlines_written hproperties, htext]
  rfl

/-- Properties that are written behind a complete text are added to it. -/
theorem load_append_written (hnatural : Natural lines text)
    (hlines : ∀ line ∈ lines, line.getLast? ≠ some '\r')
    (hproperties : ∀ property ∈ properties, Plain property.1 property.2)
    (hcomplete : Complete (unlines '\n' lines)) :
    load (unlines '\n' lines ++ unlines '\n' (properties.map written)) =
      (load text).map (· ++ properties.map units) := by
  have hwritten : (properties.map written).mapM pair = some (properties.map units) := by
    induction properties with
    | nil => rfl
    | cons property properties ih =>
        obtain ⟨hplain, hrest⟩ := List.forall_mem_cons.mp hproperties
        rw [List.map_cons, List.mapM_cons, pair_written hplain, ih hrest]
        rfl
  unfold load
  rw [logicalLines_append_written hnatural hlines hproperties hcomplete, List.mapM_append, hwritten]
  cases (logicalLines text).mapM pair <;> rfl

/-- Behind a line that is left open, the first of them goes on with this line. -/
theorem logicalLines_append_pending {property : List Char × List Char}
    (hnatural : Natural lines text) (hlines : ∀ line ∈ lines, line.getLast? ≠ some '\r')
    (hproperty : Plain property.1 property.2)
    (hproperties : ∀ property ∈ properties, Plain property.1 property.2)
    (hopen : ¬ Complete (unlines '\n' lines)) (hpending : pending (unlines '\n' lines) ≠ []) :
    ∃ front, logicalLines text = front ++ [pending (unlines '\n' lines)] ∧
      logicalLines (unlines '\n' lines ++ unlines '\n' ((property :: properties).map written)) =
        front ++ (pending (unlines '\n' lines) ++ written property) :: properties.map written := by
  obtain ⟨gap, hgap⟩ := (complete_or_continued lines).resolve_left hopen
  refine ⟨(run start (unlines '\n' lines)).done, ?_, ?_⟩
  · have hfinish := finish_run_natural hnatural hlines (Same.refl start) rfl (by decide)
    exact hfinish.2 gap hgap hpending
  · rw [logicalLines, run_append, List.map_cons, unlines_cons, List.append_cons, run_append,
      run_written hproperty (Or.inr ⟨gap, hgap⟩), run_unlines_written hproperties]
    simp [finish, pending]

/-- The last property that gives a key a value decides. -/
theorem getProperty_append (properties properties' : List (List UInt16 × List UInt16))
    (key : List UInt16) :
    getProperty (properties ++ properties') key =
      (getProperty properties' key).or (getProperty properties key) :=
  Settings.valueOf_append some key properties properties'

/-- A key that is not there has no value. -/
theorem getProperty_of_not_mem {properties : List (List UInt16 × List UInt16)} {key : List UInt16}
    (h : ∀ property ∈ properties, property.1 ≠ key) : getProperty properties key = none := by
  induction properties with
  | nil => rfl
  | cons property properties ih =>
      obtain ⟨hne, hrest⟩ := List.forall_mem_cons.mp h
      have hlater : Settings.valueOf some key properties = none := ih hrest
      simp [getProperty, hlater, Settings.given, hne]

/-- Keys that are there once have their values. -/
theorem getProperty_of_mem {properties : List (List UInt16 × List UInt16)}
    (hnodup : (properties.map Prod.fst).Nodup) {property : List UInt16 × List UInt16}
    (h : property ∈ properties) : getProperty properties property.1 = some property.2 := by
  induction properties with
  | nil => cases h
  | cons first properties ih =>
      rw [List.map_cons, List.nodup_cons] at hnodup
      rcases List.mem_cons.mp h with rfl | h
      · have hlater : Settings.valueOf some property.1 properties = none :=
          getProperty_of_not_mem fun later hlater heq =>
            hnodup.1 (List.mem_map.mpr ⟨later, hlater, heq⟩)
        simp [getProperty, hlater, Settings.given]
      · have hlater : Settings.valueOf some property.1 properties = some property.2 :=
          ih hnodup.2 h
        simp [getProperty, hlater]

end Behind

end Properties
end Library
end IdeMultiarch
