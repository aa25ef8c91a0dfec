import IdeMultiarch.Library.Lines

/-!
# Library - the words of a shell

A line of a shell script is cut into words at the blanks that do not stand in double quotes.  The
lexer reads the line once, and each word is what it is before any expansion.  A text with another
kind of quotes, a comment, a command substitution or an operator is not a list of words.

Main results:

- Theorem {lit}`blankWords_append`: words after a blank do not depend on those in front of it.
- Theorem {lit}`run_quoted`: an option in double quotes between two words is a word of its own.
- Theorem {lit}`run_quoted_inside`: inside of double quotes it is a part of the word around it.
- Theorem {lit}`run_shape`: how many words there are depends on where the lexer stands.
- Theorem {lit}`blankWords_unlines`: words that need no quotes are read back.
-/

namespace IdeMultiarch
namespace Library
namespace Shell

/-! ## The lexer -/

/-- Where the lexer stands. -/
inductive Mode where
  | between
  | plain
  | closed
  | quotes
  | dollar
  | escape
deriving DecidableEq, Repr

/-- The words that are complete, and the part of the next one that was read. -/
structure Lexer where
  mode : Mode
  done : List (List Char)
  word : List Char
deriving DecidableEq, Repr

/-- A blank -/
def isBlank (c : Char) : Bool :=
  c = ' ' || c = '\t'

/-- A character that stands for itself outside of quotes. -/
def isWordChar (c : Char) : Bool :=
  !isBlank c && c ∉ ['\n', '"', '\'', '\\', '`', '|', '&', ';', '<', '>', '(', ')']

namespace Lexer

/-- The lexer in front of a text. -/
def start : Lexer :=
  ⟨.between, [], []⟩

/-- The lexer after some characters of a word. -/
def put (s : Lexer) (mode : Mode) (text : List Char) : Lexer :=
  ⟨mode, s.done, s.word ++ text⟩

/-- The lexer after the end of a word. -/
def finish (s : Lexer) : Lexer :=
  ⟨.between, s.done ++ [s.word], []⟩

/-- One character in double quotes. -/
def quotedStep (s : Lexer) (c : Char) : Option Lexer :=
  if c = '"' then some (s.put .closed [])
  else if c = '\\' then some (s.put .escape [])
  else if c = '`' then none
  else if c = '$' then some (s.put .dollar [c])
  else some (s.put .quotes [c])

/-- One character.  With {lit}`whole`, a word is quoted as a whole or not at all. -/
def step (whole : Bool) (s : Lexer) (c : Char) : Option Lexer :=
  match s.mode with
  | .between =>
      if isBlank c then some ⟨.between, s.done, []⟩
      else if c = '"' then some (s.put .quotes [])
      else if c = '#' then none
      else if isWordChar c then some (s.put .plain [c])
      else none
  | .plain =>
      if isBlank c then some s.finish
      else if c = '"' then if whole then none else some (s.put .quotes [])
      else if isWordChar c then some (s.put .plain [c])
      else none
  | .closed =>
      if isBlank c then some s.finish
      else if whole then none
      else if c = '"' then some (s.put .quotes [])
      else if isWordChar c then some (s.put .plain [c])
      else none
  | .quotes => s.quotedStep c
  | .dollar => if c = '(' then none else s.quotedStep c
  | .escape => some (s.put .quotes (if c ∈ ['$', '`', '"', '\\'] then [c] else ['\\', c]))

/-- A text, one character after the other. -/
def run (whole : Bool) (s : Lexer) (text : List Char) : Option Lexer :=
  text.foldlM (step whole) s

/-- The words, if the text does not end within one. -/
def complete (s : Lexer) : Option (List (List Char)) :=
  if s.mode = .between then some s.done else none

/-- The lexer with some words in front. -/
def after (front : List (List Char)) (s : Lexer) : Lexer :=
  ⟨s.mode, front ++ s.done, s.word⟩

/-- What was put in the words. -/
def content (s : Lexer) : List Char :=
  s.done.flatten ++ s.word

/-- Where the lexer stands, and how many words are complete. -/
def shape (s : Lexer) : Mode × Nat :=
  (s.mode, s.done.length)

end Lexer

open Lexer

/-- The words of a text that ends with a blank. -/
def blankWords (whole : Bool) (text : List Char) : Option (List (List Char)) :=
  (run whole start text).bind complete

/-- The words of a text: its end ends a word as a blank does. -/
def shellWords (text : List Char) : Option (List (List Char)) :=
  blankWords false (text ++ [' '])

/-- The words of a text in which each word is unquoted or in double quotes. -/
def wholeWords (text : List Char) : Option (List (List Char)) :=
  blankWords true (text ++ [' '])

/-! ## One character -/

variable {whole : Bool} {s s' : Lexer} {c : Char} {text front back : List Char}

theorem isWordChar_eq (h : isWordChar c = true) :
    isBlank c = false ∧ c ≠ '"' ∧ c ≠ '\\' ∧ c ≠ '`' ∧ c ≠ '(' := by
  unfold isWordChar at h
  simp only [Bool.and_eq_true, Bool.not_eq_true', decide_eq_true_eq, List.mem_cons, not_or] at h
  obtain ⟨hblank, -, hquote, -, hescape, hback, -, -, -, -, -, hopen, -⟩ := h
  exact ⟨hblank, hquote, hescape, hback, hopen⟩

/-- What whole words allow, all words allow. -/
theorem step_of_whole (h : step true s c = some s') : step false s c = some s' := by
  obtain ⟨mode, done, word⟩ := s
  cases mode <;> grind [step]

/-- Between two words, nothing of a word was read. -/
theorem step_between (h : step whole s c = some s') (hbetween : s'.mode = .between) :
    s'.word = [] := by
  obtain ⟨mode, done, word⟩ := s
  cases mode <;> grind [step, finish, put, quotedStep]

/-- A word that was started stays one. -/
theorem step_started (hs : s.mode ≠ .between ∨ s.done ≠ []) (h : step whole s c = some s') :
    s'.mode ≠ .between ∨ s'.done ≠ [] := by
  obtain ⟨mode, done, word⟩ := s
  have hfinish : done ++ [word] ≠ [] := List.concat_ne_nil _ _
  cases mode <;> grind [step, finish, put, quotedStep]

/-- After a blank the lexer stands between two words or in quotes. -/
theorem step_blank (h : step whole s ' ' = some s') : s'.mode = .between ∨ s'.mode = .quotes := by
  obtain ⟨mode, done, word⟩ := s
  cases mode <;> simp [step, isBlank, finish, put, quotedStep] at h <;> simp [← h]

/-- The words in front are kept. -/
theorem step_after (done : List (List Char)) :
    step whole (s.after done) c = (step whole s c).map (after done) := by
  obtain ⟨mode, before, word⟩ := s
  cases mode <;>
    simp only [step, after, quotedStep, put, finish] <;>
    split_ifs <;> simp [after]

/-- What is done next depends on where the lexer stands. -/
theorem step_shape (h : s.shape = s'.shape) :
    (step whole s c).map shape = (step whole s' c).map shape := by
  obtain ⟨mode, before, word⟩ := s
  obtain ⟨mode', before', word'⟩ := s'
  obtain ⟨rfl, hlength⟩ := Prod.mk.inj h
  dsimp only at hlength
  cases mode <;>
    simp only [step, quotedStep, put, finish] <;>
    split_ifs <;> simp [shape, hlength]

/-- A character that the lexer does not take away is put in the word. -/
theorem step_countP {p : Char → Bool} (hp : p ' ' = false ∧ p '\t' = false ∧ p '"' = false ∧
    p '\\' = false) (hs : s.mode = .between → s.word = []) (h : step whole s c = some s') :
    s'.content.countP p = s.content.countP p + if p c then 1 else 0 := by
  obtain ⟨mode, done, word⟩ := s
  obtain ⟨hspace, htab, hquote, hescape⟩ := hp
  have hblank : isBlank c = true → p c = false := by
    simp only [isBlank, Bool.or_eq_true, decide_eq_true_eq]
    rintro (rfl | rfl) <;> assumption
  cases mode <;> grind [step, finish, put, quotedStep, content]

/-! ## A text -/

theorem run_nil : run whole s [] = some s :=
  rfl

theorem run_cons : run whole s (c :: text) = (step whole s c).bind (run whole · text) :=
  List.foldlM_cons

theorem run_append :
    run whole s (front ++ back) = (run whole s front).bind (run whole · back) :=
  List.foldlM_append

/-- What whole words allow, all words allow. -/
theorem run_of_whole (h : run true s text = some s') : run false s text = some s' := by
  induction text generalizing s with
  | nil => exact h
  | cons c text ih =>
      rw [run_cons] at h ⊢
      obtain ⟨s₁, hstep, hrest⟩ := Option.bind_eq_some_iff.mp h
      rw [step_of_whole hstep]
      exact ih hrest

/-- Between two words, nothing of a word was read. -/
theorem run_between (hs : s.mode = .between → s.word = []) (h : run whole s text = some s')
    (hbetween : s'.mode = .between) : s'.word = [] := by
  induction text generalizing s with
  | nil =>
      cases h
      exact hs hbetween
  | cons c text ih =>
      rw [run_cons] at h
      obtain ⟨s₁, hstep, hrest⟩ := Option.bind_eq_some_iff.mp h
      exact ih (step_between hstep) hrest

/-- The words in front are kept. -/
theorem run_after (done : List (List Char)) :
    run whole (s.after done) text = (run whole s text).map (after done) := by
  induction text generalizing s with
  | nil => rfl
  | cons c text ih =>
      rw [run_cons, run_cons, step_after]
      cases hstep : step whole s c with
      | none => rfl
      | some s₁ => exact ih

/-- What is done next depends on where the lexer stands. -/
theorem run_shape (h : s.shape = s'.shape) :
    (run whole s text).map shape = (run whole s' text).map shape := by
  induction text generalizing s s' with
  | nil => exact congrArg some h
  | cons c text ih =>
      have hstep : (step whole s c).map shape = (step whole s' c).map shape := step_shape h
      rw [run_cons, run_cons]
      cases hs : step whole s c with
      | none =>
          rw [hs, Option.map_none, eq_comm, Option.map_eq_none_iff] at hstep
          rw [hstep]
      | some s₁ =>
          rw [hs, Option.map_some, eq_comm, Option.map_eq_some_iff] at hstep
          obtain ⟨s₁', hs', hsame⟩ := hstep
          rw [hs']
          exact ih hsame.symm

/-- The characters that the lexer does not take away are those of the words. -/
theorem run_countP {p : Char → Bool} (hp : p ' ' = false ∧ p '\t' = false ∧ p '"' = false ∧
    p '\\' = false) (hs : s.mode = .between → s.word = []) (h : run whole s text = some s') :
    s'.content.countP p = s.content.countP p + text.countP p := by
  induction text generalizing s with
  | nil =>
      cases h
      rfl
  | cons c text ih =>
      rw [run_cons] at h
      obtain ⟨s₁, hstep, hrest⟩ := Option.bind_eq_some_iff.mp h
      rw [ih (step_between hstep) hrest, step_countP hp hs hstep, List.countP_cons]
      omega

/-- Blanks between two words -/
theorem run_blanks (hs : s.mode = .between) (hword : s.word = [])
    (hblanks : ∀ c ∈ text, isBlank c = true) : run whole s text = some s := by
  obtain ⟨mode, done, word⟩ := s
  obtain rfl : mode = .between := hs
  obtain rfl : word = [] := hword
  induction text with
  | nil => rfl
  | cons c text ih =>
      obtain ⟨hc, hrest⟩ := List.forall_mem_cons.mp hblanks
      have hstep : step whole ⟨.between, done, []⟩ c = some ⟨.between, done, []⟩ := by
        simp [step, hc]
      rw [run_cons, hstep]
      exact ih hrest

/-- A word that was started stays one. -/
theorem run_started (hs : s.mode ≠ .between ∨ s.done ≠ []) (h : run whole s text = some s') :
    s'.mode ≠ .between ∨ s'.done ≠ [] := by
  induction text generalizing s with
  | nil =>
      cases h
      exact hs
  | cons c text ih =>
      rw [run_cons] at h
      obtain ⟨s₁, hstep, hrest⟩ := Option.bind_eq_some_iff.mp h
      exact ih (step_started hs hstep) hrest

/-! ## Words -/

theorem complete_eq_some {ws : List (List Char)} :
    complete s = some ws ↔ s.mode = .between ∧ s.done = ws := by
  simp [complete]

theorem blankWords_eq_some {ws : List (List Char)} :
    blankWords whole text = some ws ↔ run whole start text = some ⟨.between, ws, []⟩ := by
  rw [blankWords, Option.bind_eq_some_iff]
  constructor
  · rintro ⟨⟨mode, done, word⟩, hrun, hcomplete⟩
    obtain ⟨hmode, hdone⟩ := complete_eq_some.mp hcomplete
    have hword := run_between (fun _ => rfl) hrun hmode
    dsimp only at hmode hdone hword
    rw [hrun, hmode, hdone, hword]
  · intro hrun
    exact ⟨_, hrun, rfl⟩

/-- The characters that the lexer does not take away are those of the words. -/
theorem blankWords_countP {ws : List (List Char)} {p : Char → Bool}
    (hp : p ' ' = false ∧ p '\t' = false ∧ p '"' = false ∧ p '\\' = false)
    (h : blankWords whole text = some ws) : ws.flatten.countP p = text.countP p := by
  have hcount := run_countP hp (fun _ => rfl) (blankWords_eq_some.mp h)
  simpa [content, start] using hcount

/-- What whole words allow, all words allow. -/
theorem blankWords_of_whole {ws : List (List Char)} (h : blankWords true text = some ws) :
    blankWords false text = some ws :=
  blankWords_eq_some.mpr (run_of_whole (blankWords_eq_some.mp h))

/-- Words after a blank do not depend on those in front of it. -/
theorem run_words {ws : List (List Char)} (h : blankWords whole text = some ws)
    (done : List (List Char)) :
    run whole ⟨.between, done, []⟩ text = some ⟨.between, done ++ ws, []⟩ := by
  have hstart : (⟨.between, done, []⟩ : Lexer) = start.after done := by simp [start, after]
  rw [hstart, run_after, blankWords_eq_some.mp h]
  rfl

theorem blankWords_append {ws : List (List Char)} (h : blankWords whole front = some ws) :
    blankWords whole (front ++ back) = (blankWords whole back).map (ws ++ ·) := by
  have hstart : (⟨.between, ws, []⟩ : Lexer) = start.after ws := by simp [start, after]
  rw [blankWords, run_append, blankWords_eq_some.mp h, Option.bind_some, hstart, run_after,
    blankWords]
  cases run whole start back with
  | none => rfl
  | some s =>
      simp only [Option.map_some, Option.bind_some, complete, after]
      split <;> rfl

/-- A blank ends a word, or stands in quotes. -/
theorem run_blank (h : run whole start (front ++ [' ']) = some s) :
    blankWords whole (front ++ [' ']) = some s.done ∨ s.mode = .quotes := by
  have hmode := h
  rw [run_append] at hmode
  obtain ⟨s₁, -, hstep⟩ := Option.bind_eq_some_iff.mp hmode
  rw [run_cons] at hstep
  obtain ⟨s₂, hstep, hnil⟩ := Option.bind_eq_some_iff.mp hstep
  cases hnil
  rcases step_blank hstep with hbetween | hquotes
  · refine Or.inl ?_
    rw [blankWords, h]
    exact complete_eq_some.mpr ⟨hbetween, rfl⟩
  · exact Or.inr hquotes

/-- Blanks at the end do not matter. -/
theorem complete_of_blanks {ws : List (List Char)} (hblanks : ∀ c ∈ text, isBlank c = true)
    (h : (run whole s (text ++ [' '])).bind complete = some ws) :
    (run whole s [' ']).bind complete = some ws := by
  induction text generalizing s with
  | nil => exact h
  | cons c text ih =>
      obtain ⟨hc, hrest⟩ := List.forall_mem_cons.mp hblanks
      rw [List.cons_append, run_cons] at h
      obtain ⟨s', hrun, hcomplete⟩ := Option.bind_eq_some_iff.mp h
      obtain ⟨s₁, hstep, hrun⟩ := Option.bind_eq_some_iff.mp hrun
      replace h := ih hrest (Option.bind_eq_some_iff.mpr ⟨s', hrun, hcomplete⟩)
      have hspace : isBlank ' ' = true := by decide
      obtain ⟨mode, done, word⟩ := s
      rw [run_cons] at h ⊢
      cases mode <;> grind [step, finish, put, quotedStep, complete, run_nil, isBlank]

/-- Blanks around a text do not matter. -/
theorem blankWords_blanks {ws : List (List Char)} (hfront : ∀ c ∈ front, isBlank c = true)
    (hback : ∀ c ∈ back, isBlank c = true)
    (h : blankWords whole (front ++ (text ++ back) ++ [' ']) = some ws) :
    blankWords whole (text ++ [' ']) = some ws := by
  rw [blankWords, List.append_assoc, run_append, run_blanks rfl rfl hfront, Option.bind_some,
    List.append_assoc, run_append] at h
  rw [blankWords, run_append]
  cases hrun : run whole start text with
  | none =>
      rw [hrun] at h
      exact h
  | some s =>
      rw [hrun] at h
      exact complete_of_blanks hback h

/-- A blank after a blank does not matter. -/
theorem blankWords_append_blank :
    blankWords whole (text ++ [' '] ++ [' ']) = blankWords whole (text ++ [' ']) := by
  rw [blankWords, blankWords, run_append]
  cases hrun : run whole start (text ++ [' ']) with
  | none => rfl
  | some s =>
      have hspace : isBlank ' ' = true := by decide
      rcases run_blank hrun with hwords | hquotes
      · rw [blankWords_eq_some, hrun] at hwords
        rw [Option.some.inj hwords]
        simp [run_cons, run_nil, step, hspace, complete]
      · simp [run_cons, run_nil, step, hquotes, quotedStep, complete, put]

/-- A text that does not start with a blank has a word. -/
theorem blankWords_ne_nil {ws : List (List Char)} (hc : isBlank c = false)
    (h : blankWords whole (c :: text) = some ws) : ws ≠ [] := by
  rw [blankWords_eq_some, run_cons] at h
  obtain ⟨s₁, hone, hrest⟩ := Option.bind_eq_some_iff.mp h
  have hfirst : s₁.mode ≠ .between := by
    grind [step, start, put]
  exact (run_started (Or.inl hfirst) hrest).resolve_left (fun hmode => hmode rfl)

/-! ## Words in double quotes -/

/-- A word in double quotes. -/
def inQuotes (text : List Char) : List Char :=
  '"' :: text ++ ['"']

/-- Characters that stand for themselves in quotes too. -/
theorem run_quotes (htext : ∀ c ∈ text, isWordChar c = true)
    (hs : s.mode = .quotes ∨ s.mode = .dollar) :
    ∃ mode, (mode = .quotes ∨ mode = .dollar) ∧ run whole s text = some (s.put mode text) := by
  induction text generalizing s with
  | nil => exact ⟨s.mode, hs, by simp [run_nil, put]⟩
  | cons c text ih =>
      obtain ⟨hc, hrest⟩ := List.forall_mem_cons.mp htext
      obtain ⟨-, hquote, hescape, hback, hopen⟩ := isWordChar_eq hc
      obtain ⟨mode, hmode, hstep⟩ : ∃ mode, (mode = .quotes ∨ mode = .dollar) ∧
          step whole s c = some (s.put mode [c]) := by
        have hquoted : step whole s c = s.quotedStep c := by
          rcases hs with hs | hs <;> simp [step, hs, hopen]
        rw [hquoted, quotedStep, if_neg hquote, if_neg hescape, if_neg hback]
        split
        · exact ⟨.dollar, Or.inr rfl, rfl⟩
        · exact ⟨.quotes, Or.inl rfl, rfl⟩
      obtain ⟨mode', hmode', hrun⟩ := ih hrest (s := s.put mode [c]) hmode
      refine ⟨mode', hmode', ?_⟩
      rw [run_cons, hstep, Option.bind_some, hrun]
      simp [put]

/-- An option in double quotes between two words is a word of its own. -/
theorem run_quoted (htext : ∀ c ∈ text, isWordChar c = true) (done : List (List Char)) :
    run whole ⟨.between, done, []⟩ (inQuotes text ++ [' ']) =
      some ⟨.between, done ++ [text], []⟩ := by
  have hopen : step whole ⟨.between, done, []⟩ '"' = some ⟨.quotes, done, []⟩ := by
    simp [step, isBlank, put]
  obtain ⟨mode, hmode, hrun⟩ : ∃ mode, (mode = .quotes ∨ mode = .dollar) ∧
      run whole ⟨.quotes, done, []⟩ text = some (put ⟨.quotes, done, []⟩ mode text) :=
    run_quotes htext (Or.inl rfl)
  rw [inQuotes, List.cons_append, List.cons_append, run_cons, hopen, Option.bind_some,
    List.append_assoc, run_append, hrun, Option.bind_some]
  have hclose : step whole (put ⟨.quotes, done, []⟩ mode text) '"' =
      some ⟨.closed, done, text⟩ := by
    rcases hmode with rfl | rfl <;> simp [step, put, quotedStep]
  rw [List.singleton_append, run_cons, hclose, Option.bind_some, run_cons]
  simp [step, isBlank, finish, run_nil]

theorem blankWords_quoted (htext : ∀ c ∈ text, isWordChar c = true) :
    blankWords whole (inQuotes text ++ [' ']) = some [text] :=
  blankWords_eq_some.mpr (run_quoted htext [])

/-- Characters outside of quotes. -/
theorem run_outside (htext : ∀ c ∈ text, isWordChar c = true)
    (hs : s.mode = .closed ∨ s.mode = .plain) :
    ∃ mode, (mode = .closed ∨ mode = .plain) ∧ run false s text = some (s.put mode text) := by
  induction text generalizing s with
  | nil => exact ⟨s.mode, hs, by simp [run_nil, put]⟩
  | cons c text ih =>
      obtain ⟨hc, hrest⟩ := List.forall_mem_cons.mp htext
      obtain ⟨hblank, hquote, -, -, -⟩ := isWordChar_eq hc
      have hstep : step false s c = some (s.put .plain [c]) := by
        rcases hs with hs | hs <;> simp [step, hs, hblank, hquote, hc]
      obtain ⟨mode, hmode, hrun⟩ := ih hrest (s := s.put .plain [c]) (Or.inr rfl)
      refine ⟨mode, hmode, ?_⟩
      rw [run_cons, hstep, Option.bind_some, hrun]
      simp [put]

/-- Inside of double quotes it is a part of the word around it. -/
theorem run_quoted_inside (htext : ∀ c ∈ text, isWordChar c = true) (hs : s.mode = .quotes) :
    run false s (inQuotes text ++ [' ']) = some (s.put .quotes (text ++ [' '])) := by
  have hclose : step false s '"' = some (s.put .closed []) := by
    simp [step, hs, quotedStep]
  obtain ⟨mode, hmode, hrun⟩ := run_outside htext (s := s.put .closed []) (Or.inl rfl)
  rw [inQuotes, List.cons_append, List.cons_append, run_cons, hclose, Option.bind_some,
    List.append_assoc, run_append, hrun, Option.bind_some]
  have hopen : step false (put (s.put .closed []) mode text) '"' = some (s.put .quotes text) := by
    rcases hmode with rfl | rfl <;> simp [step, put, isBlank]
  rw [List.singleton_append, run_cons, hopen, Option.bind_some, run_cons]
  simp [step, quotedStep, put, run_nil]

/-- Words that are quoted as a whole are not opened in quotes. -/
theorem run_quotes_refuses (hc : isBlank c = false) (hs : s.mode = .quotes) :
    run true s ('"' :: c :: text) = none := by
  have hclose : step true s '"' = some (s.put .closed []) := by
    simp [step, hs, quotedStep]
  rw [run_cons, hclose, Option.bind_some, run_cons]
  simp [step, put, hc]

/-- A word in double quotes between others.  The words in front do not end within quotes. -/
theorem blankWords_quoted_append {ws : List (List Char)} {lines : List (List Char)}
    (htext : ∀ c ∈ text, isWordChar c = true) (hne : text ≠ [])
    (h : blankWords true (unlines ' ' lines ++ (inQuotes text ++ [' '] ++ back)) = some ws) :
    ∃ before after, blankWords true (unlines ' ' lines) = some before ∧
      blankWords true back = some after ∧ ws = before ++ text :: after := by
  have hfront : ∃ before, blankWords true (unlines ' ' lines) = some before := by
    rcases List.eq_nil_or_concat' lines with rfl | ⟨above, last, rfl⟩
    · exact ⟨[], rfl⟩
    · obtain ⟨s, hrun⟩ : ∃ s, run true start (unlines ' ' (above ++ [last])) = some s := by
        rw [blankWords, run_append, Option.bind_assoc] at h
        obtain ⟨s, hrun, -⟩ := Option.bind_eq_some_iff.mp h
        exact ⟨s, hrun⟩
      have hlast : unlines ' ' (above ++ [last]) = unlines ' ' above ++ last ++ [' '] := by simp
      have hend : blankWords true (unlines ' ' (above ++ [last])) = some s.done ∨
          s.mode = .quotes := by
        rw [hlast] at hrun ⊢
        exact run_blank hrun
      rcases hend with hwords | hquotes
      · exact ⟨s.done, hwords⟩
      · -- the quote would end a word, and the next character belong to it
        obtain ⟨c, rest, rfl⟩ := List.exists_cons_of_ne_nil hne
        have hblank := (isWordChar_eq (htext c List.mem_cons_self)).1
        have hquoted : inQuotes (c :: rest) ++ [' '] ++ back =
            '"' :: c :: (rest ++ ['"'] ++ [' '] ++ back) := rfl
        rw [blankWords, run_append, hrun, Option.bind_some, hquoted,
          run_quotes_refuses hblank hquotes] at h
        contradiction
  obtain ⟨before, hbefore⟩ := hfront
  rw [blankWords_append hbefore, blankWords_append (blankWords_quoted htext), Option.map_map] at h
  obtain ⟨after, hafter, rfl⟩ := Option.map_eq_some_iff.mp h
  exact ⟨before, after, hbefore, hafter, rfl⟩

/-! ## Words without quotes -/

/-- A character of a word that needs no quotes, and not a control character. -/
def isPlain (c : Char) : Bool :=
  isWordChar c && ' ' < c

/-- A word that needs no quotes. -/
def plainWord (word : List Char) : Bool :=
  word.head?.any (· ≠ '#') && word.all isPlain

/-- A word that needs no quotes is what it is. -/
theorem run_word {word : List Char} (h : plainWord word = true) (done : List (List Char)) :
    run false ⟨.between, done, []⟩ (word ++ [' ']) = some ⟨.between, done ++ [word], []⟩ := by
  obtain ⟨hhead, hword⟩ := Bool.and_eq_true_iff.mp h
  cases word with
  | nil => contradiction
  | cons c text =>
      have hhash : c ≠ '#' := by simpa using hhead
      have hchars : ∀ c' ∈ c :: text, isWordChar c' = true := fun c' hc' =>
        (Bool.and_eq_true_iff.mp (List.all_eq_true.mp hword c' hc')).1
      obtain ⟨hc, htext⟩ := List.forall_mem_cons.mp hchars
      obtain ⟨hblank, hquote, -, -, -⟩ := isWordChar_eq hc
      have hfirst : step false ⟨.between, done, []⟩ c = some ⟨.plain, done, [c]⟩ := by
        simp [step, hblank, hquote, hhash, hc, put]
      obtain ⟨mode, hmode, hrun⟩ : ∃ mode, (mode = .closed ∨ mode = .plain) ∧
          run false ⟨.plain, done, [c]⟩ text = some (put ⟨.plain, done, [c]⟩ mode text) :=
        run_outside htext (Or.inr rfl)
      rw [List.cons_append, run_cons, hfirst, Option.bind_some, run_append, hrun,
        Option.bind_some, run_cons]
      rcases hmode with rfl | rfl <;> simp [step, put, isBlank, finish, run_nil]

/-- Words that were written are read back. -/
theorem blankWords_unlines {ws : List (List Char)} (h : ∀ word ∈ ws, plainWord word = true) :
    blankWords false (unlines ' ' ws) = some ws := by
  induction ws with
  | nil => rfl
  | cons word ws ih =>
      obtain ⟨hword, hrest⟩ := List.forall_mem_cons.mp h
      have hfirst : blankWords false (word ++ [' ']) = some ([] ++ [word]) :=
        blankWords_eq_some.mpr (run_word hword [])
      rw [unlines_cons, List.append_cons, blankWords_append hfirst, ih hrest]
      rfl

/-- A line of words, with blanks in front. -/
theorem shellWords_of_words {ws : List (List Char)} (hfront : ∀ c ∈ front, isBlank c = true)
    (hline : text ++ [' '] = front ++ unlines ' ' ws) (h : ∀ word ∈ ws, plainWord word = true) :
    shellWords text = some ws := by
  have hblanks : blankWords false front = some [] :=
    blankWords_eq_some.mpr (run_blanks rfl rfl hfront)
  rw [shellWords, hline, blankWords_append hblanks, blankWords_unlines h]
  rfl

end Shell
end Library
end IdeMultiarch
