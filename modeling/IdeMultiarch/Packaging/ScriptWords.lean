import Mathlib.Data.List.Infix
import IdeMultiarch.Library.ShellWords
import IdeMultiarch.Packaging.LauncherScript

/-!
# Packaging - the command line of the launcher script

The line with the options is cut at its blanks, without regard to quotes, and put together again.
What the shell reads in that line is compared with what it reads in the line that is written.

Main results:

- Theorem {lit}`rewriteLines_around`: all other lines are kept and in place.
- Theorem {lit}`rewriteOptionLine_eq`: the parts of the line that is written.
- Theorem {lit}`words_rewritten`: the words of it, if a whole word is in front of the first space.
- Theorem {lit}`words_rewritten_inside`: their number, if the first space stands in quotes.
- Theorem {lit}`command_line_kept_iff`: when the command line is preserved.
-/

namespace IdeMultiarch
namespace Packaging

open Library (unlines unlines_cons unlines_append unlines_splitOn intersperse_flatten)
open Library.Shell

/-! ## Lines -/

/-- A line has no end of a line in it. -/
def IsLine (line : Name) : Prop :=
  '\n' ∉ line ∧ '\r' ∉ line

instance : DecidablePred IsLine :=
  fun _ => inferInstanceAs (Decidable (_ ∧ _))

theorem linesFrom_cons {c : Char} (hc : c ≠ '\r') (line text : Name) :
    linesFrom line (c :: text) =
      if c = '\n' then line :: linesFrom [] text else linesFrom (line ++ [c]) text := by
  rw [linesFrom.eq_3 _ _ _ (fun _ h => absurd h hc)]
  simp [hc]

theorem linesFrom_line {line : Name} (hline : IsLine line) (front text : Name) :
    linesFrom front (line ++ '\n' :: text) = (front ++ line) :: lines text := by
  induction line generalizing front with
  | nil =>
      rw [List.nil_append, linesFrom_cons (by decide), if_pos rfl, List.append_nil]
      rfl
  | cons c line ih =>
      obtain ⟨hn, hr⟩ := hline
      rw [List.mem_cons, not_or] at hn hr
      obtain ⟨hcn, hn⟩ := hn
      obtain ⟨hcr, hr⟩ := hr
      rw [List.cons_append, linesFrom_cons (Ne.symm hcr), if_neg (Ne.symm hcn), ih ⟨hn, hr⟩,
        List.append_assoc, List.singleton_append]

/-- Lines that were written are read back. -/
theorem lines_unlines {written : List Name} (hwritten : ∀ line ∈ written, IsLine line) :
    lines (unlines '\n' written) = written := by
  induction written with
  | nil => rfl
  | cons line written ih =>
      obtain ⟨hline, hrest⟩ := List.forall_mem_cons.mp hwritten
      rw [unlines_cons, lines, linesFrom_line hline, ih hrest, List.nil_append]

theorem isLine_of_mem_linesFrom {text front line : Name} (hfront : IsLine front)
    (h : line ∈ linesFrom front text) : IsLine line := by
  have hnil : IsLine [] := ⟨List.not_mem_nil, List.not_mem_nil⟩
  fun_induction linesFrom front text with
  | case1 => simp at h
  | case2 front _ => exact List.mem_singleton.mp h ▸ hfront
  | case3 front text ih =>
      rcases List.mem_cons.mp h with rfl | h
      · exact hfront
      · exact ih hnil h
  | case4 front c text _ _ ih =>
      rcases List.mem_cons.mp h with rfl | h
      · exact hfront
      · exact ih hnil h
  | case5 front c text _ hc ih =>
      rw [not_or] at hc
      refine ih ⟨fun hmem => ?_, fun hmem => ?_⟩ h
      · rcases List.mem_append.mp hmem with hmem | hmem
        · exact hfront.1 hmem
        · exact hc.1 (List.mem_singleton.mp hmem).symm
      · rcases List.mem_append.mp hmem with hmem | hmem
        · exact hfront.2 hmem
        · exact hc.2 (List.mem_singleton.mp hmem).symm

/-- A line of a text is one. -/
theorem isLine_of_mem_lines {text line : Name} (h : line ∈ lines text) : IsLine line :=
  isLine_of_mem_linesFrom ⟨List.not_mem_nil, List.not_mem_nil⟩ h

namespace Target

variable (target : Target)

/-! ## The other lines -/

/-- Lines without the options are written as they are. -/
theorem rewriteLines_others {others : List Name} (hothers : ∀ other ∈ others, isOptionLine other = false)
    (found : Bool) (result : Name) (rest : List Name) :
    target.rewriteLines found result (others ++ rest) =
      target.rewriteLines found (result ++ unlines '\n' others) rest := by
  induction others generalizing result with
  | nil => simp
  | cons other others ih =>
      obtain ⟨hother, hrest⟩ := List.forall_mem_cons.mp hothers
      rw [List.cons_append, rewriteLines, hother, if_neg Bool.false_ne_true, ih hrest, unlines_cons,
        List.append_assoc, List.append_assoc, List.singleton_append]

/-- All other lines are kept and in place. -/
theorem rewriteLines_around {pre post : List Name} {line : Name}
    (hpre : ∀ other ∈ pre, isOptionLine other = false) (hline : isOptionLine line = true)
    (hpost : ∀ other ∈ post, isOptionLine other = false) :
    target.rewriteLines false [] (pre ++ line :: post) =
      (target.rewriteOptionLine line).map
        fun written => unlines '\n' pre ++ written ++ unlines '\n' post := by
  rw [target.rewriteLines_others hpre, rewriteLines, if_pos hline, if_neg Bool.false_ne_true]
  cases target.rewriteOptionLine line with
  | error failure => rfl
  | ok written =>
      have hrest := target.rewriteLines_others hpost true (unlines '\n' pre ++ written) []
      rw [List.append_nil] at hrest
      exact hrest

/-! ## The parts of the line -/

/-- The characters that {lit}`trim` takes away. -/
def trimmedAway (text : Name) : Name :=
  text.takeWhile (· ≤ ' ') ++ (text.dropWhile (· ≤ ' ')).rtakeWhile (· ≤ ' ')

theorem trim_around (text : Name) :
    text.takeWhile (· ≤ ' ') ++ (trim text ++ (text.dropWhile (· ≤ ' ')).rtakeWhile (· ≤ ' ')) =
      text := by
  rw [trim, List.rdropWhile_append_rtakeWhile, List.takeWhile_append_dropWhile]

theorem countP_trim (p : Char → Bool) (text : Name) :
    text.countP p = (trim text).countP p + (trimmedAway text).countP p := by
  nth_rewrite 1 [← trim_around text]
  rw [trimmedAway, List.countP_append, List.countP_append, List.countP_append]
  omega

theorem le_of_mem_trimmedAway {text : Name} {c : Char} (h : c ∈ trimmedAway text) : c ≤ ' ' := by
  rcases List.mem_append.mp h with h | h
  · simpa using List.mem_takeWhile_imp h
  · simpa using List.mem_rtakeWhile_imp h

/-- The first character is left by {lit}`trim`. -/
theorem trim_head {text : Name} {c : Char} {rest : Name} (h : trim text = c :: rest) :
    ¬ c ≤ ' ' := by
  obtain ⟨back, hback⟩ := List.rdropWhile_prefix (· ≤ ' ') (text.dropWhile (· ≤ ' '))
  rw [← trim, h] at hback
  have hne : text.dropWhile (· ≤ ' ') ≠ [] := by
    rw [← hback]
    exact List.cons_ne_nil _ _
  have hhead := List.head_dropWhile_not (fun c : Char => decide (c ≤ ' ')) hne
  simpa [← hback] using hhead

/-- The last part of a text without blanks at the end is not empty. -/
theorem splitAtBlanks_trim (text : Name) :
    splitAtBlanks (trim text) = (trim text).splitOn ' ' := by
  rw [splitAtBlanks]
  split
  next hspace =>
    rw [List.rdropWhile_eq_self_iff]
    intro hne hlast
    rw [decide_eq_true_eq] at hlast
    have hparts := List.dropLast_concat_getLast hne
    rw [hlast] at hparts
    have hjoined : unlines ' ' ((trim text).splitOn ' ') = trim text ++ [' '] :=
      unlines_splitOn (trim text)
    rw [← hparts, unlines_append, unlines_cons, Library.unlines_nil, List.nil_append] at hjoined
    replace hjoined := List.append_cancel_right hjoined
    -- the parts in front end with a blank, which would be the last character
    rcases List.eq_nil_or_concat' ((trim text).splitOn ' ').dropLast with hnil | ⟨front, part, hfront⟩
    · rw [hnil, Library.unlines_nil] at hjoined
      rw [← hjoined] at hspace
      exact absurd hspace List.not_mem_nil
    · rw [hfront, unlines_append, unlines_cons, Library.unlines_nil, ← List.append_assoc] at hjoined
      have hlast' : ∀ hne : trim text ≠ [], (trim text).getLast hne = ' ' := by
        rw [← hjoined]
        exact fun _ => List.getLast_append_singleton _
      have hne' : trim text ≠ [] := List.ne_nil_of_mem hspace
      have hkept : ¬ decide ((trim text).getLast hne' ≤ ' ') = true :=
        List.rdropWhile_last_not (fun c : Char => decide (c ≤ ' ')) _ hne'
      rw [hlast' hne'] at hkept
      exact hkept (by decide)
  next hspace => exact (List.splitOn_eq_singleton hspace).symm

/-- The parts, each before a blank, are the line. -/
theorem unlines_splitAtBlanks (text : Name) :
    unlines ' ' (splitAtBlanks (trim text)) = trim text ++ [' '] := by
  rw [splitAtBlanks_trim, unlines_splitOn]

/-- An option is written with characters that have no meaning in quotes. -/
theorem isWordChar_option (arch : Arch) :
    (∀ c ∈ jnaOption arch, isWordChar c = true) ∧
      ∀ c ∈ fileWatcherOption, isWordChar c = true := by
  have hjna : (jnaOption arch).all isWordChar = true := by cases arch <;> rfl
  have hwatcher : fileWatcherOption.all isWordChar = true := rfl
  exact ⟨List.all_eq_true.mp hjna, List.all_eq_true.mp hwatcher⟩

theorem quoted_fileWatcherOption_ne (arch : Arch) :
    quoted fileWatcherOption ≠ quoted (jnaOption arch) := by
  cases arch <;> decide

theorem idxOf?_append_cons {arg : Name} {front : List Name} (hfront : arg ∉ front)
    (back : List Name) : (front ++ arg :: back).idxOf? arg = some front.length := by
  rw [List.idxOf?_eq_some_iff]
  refine ⟨by simp, by simp, fun i hi hsame => hfront ?_⟩
  rw [List.getElem_append_left hi] at hsame
  exact hsame ▸ List.getElem_mem hi

theorem set_append_cons (arg arg' : Name) (front back : List Name) :
    (front ++ arg :: back).set front.length arg' = front ++ arg' :: back := by
  simp

/-- The parts of the line that is written, for those in front of the option and behind it. -/
def changedParts : List Name → List Name → List Name
  | [], back => quoted (jnaOption target.targetArch) :: quoted fileWatcherOption :: back
  | arg :: front, back =>
      arg :: quoted fileWatcherOption ::
        (front ++ quoted (jnaOption target.targetArch) :: back)

/-- The parts of the line that is written. -/
theorem rewriteOptionLine_eq {line : Name} {front back : List Name}
    (hparts : splitAtBlanks (trim line.dropLast) =
      front ++ quoted (jnaOption target.baseArch) :: back)
    (hfront : quoted (jnaOption target.baseArch) ∉ front) :
    target.rewriteOptionLine line =
      .ok (str "  " ++ unlines ' ' (target.changedParts front back) ++ ['\\'] ++ ['\n']) := by
  have hjoined : ∀ parts : List Name, parts ≠ [] →
      str "  " ++ (parts.intersperse [' ']).flatten ++ str " \\\n" =
        str "  " ++ unlines ' ' parts ++ ['\\'] ++ ['\n'] := by
    intro parts hne
    have hend : str " \\\n" = [' '] ++ ['\\'] ++ ['\n'] := by decide
    rw [← intersperse_flatten hne, hend]
    simp only [List.append_assoc]
  rw [rewriteOptionLine, hparts]
  cases front with
  | nil =>
      have hidx := idxOf?_append_cons hfront (quoted fileWatcherOption :: back)
      rw [List.nil_append] at hidx ⊢
      dsimp only
      rw [hidx]
      dsimp only
      rw [List.length_nil, List.set_cons_zero, hjoined _ (List.cons_ne_nil _ _)]
      rfl
  | cons arg front =>
      have hfront' : quoted (jnaOption target.baseArch) ∉
          arg :: quoted fileWatcherOption :: front := by
        rw [List.mem_cons, List.mem_cons, not_or, not_or]
        rw [List.mem_cons, not_or] at hfront
        exact ⟨hfront.1, (quoted_fileWatcherOption_ne _).symm, hfront.2⟩
      have hidx := idxOf?_append_cons hfront' back
      rw [List.cons_append] at hidx ⊢
      dsimp only
      rw [List.cons_append] at hidx
      rw [hidx]
      dsimp only
      rw [← List.cons_append, ← List.cons_append, set_append_cons,
        hjoined _ (List.append_ne_nil_of_left_ne_nil (List.cons_ne_nil _ _) _)]
      rfl

/-- A line without the option between two spaces is refused. -/
theorem mem_of_rewriteOptionLine {line written : Name}
    (h : target.rewriteOptionLine line = .ok written) :
    quoted (jnaOption target.baseArch) ∈ splitAtBlanks (trim line.dropLast) := by
  unfold rewriteOptionLine at h
  split at h
  next => cases h
  next arg args hparts =>
    dsimp only at h
    split at h
    next => cases h
    next idx hidx =>
      obtain ⟨hlt, hfound, -⟩ := List.idxOf?_eq_some_iff.mp hidx
      have hmem := List.getElem_mem hlt
      rw [hfound, List.mem_cons, List.mem_cons] at hmem
      rw [hparts, List.mem_cons]
      rcases hmem with harg | hwatcher | hargs
      · exact Or.inl harg
      · exact absurd hwatcher.symm (quoted_fileWatcherOption_ne _)
      · exact Or.inr hargs

/-! ## The words of the line -/

/-- The words of a line with the option for the target architecture, and one more that is not at
either end. -/
def ChangedWords (ws ws' : List Name) : Prop :=
  ∃ before after front back, ws = before ++ jnaOption target.baseArch :: after ∧
    before ++ jnaOption target.targetArch :: after = front ++ back ∧ front ≠ [] ∧ back ≠ [] ∧
    ws' = front ++ fileWatcherOption :: back

variable {target}

theorem ChangedWords.length {ws ws' : List Name} (h : target.ChangedWords ws ws') :
    ws'.length = ws.length + 1 := by
  obtain ⟨before, after, front, back, rfl, hsplit, -, -, rfl⟩ := h
  have hlength := congrArg List.length hsplit
  simp only [List.length_append, List.length_cons] at hlength ⊢
  omega

/-- Characters that the options do not have are kept. -/
theorem ChangedWords.countP {ws ws' : List Name} (h : target.ChangedWords ws ws')
    {p : Char → Bool} (hjna : ∀ arch, (jnaOption arch).countP p = 0)
    (hwatcher : fileWatcherOption.countP p = 0) :
    ws'.flatten.countP p = ws.flatten.countP p := by
  obtain ⟨before, after, front, back, rfl, hsplit, -, -, rfl⟩ := h
  have hcount := congrArg (fun ws : List Name => ws.flatten.countP p) hsplit
  simp only [List.flatten_append, List.flatten_cons, List.countP_append, hjna] at hcount
  simp only [List.flatten_append, List.flatten_cons, List.countP_append, hjna, hwatcher]
  omega

/-- The words of the parts that are written: an option comes behind the first part, which has whole
words. -/
theorem words_rewritten {front back : List Name} {ws : List Name}
    (hwords : blankWords true (unlines ' ' (front ++ quoted (jnaOption target.baseArch) :: back)) =
      some ws)
    (hfirst : ∀ arg ∈ front.head?, ∃ first, shellWords arg = some first ∧ first ≠ [])
    (hlast : front = [] → ws ≠ [jnaOption target.baseArch]) :
    ∃ ws', blankWords false (unlines ' ' (target.changedParts front back)) = some ws' ∧
      target.ChangedWords ws ws' := by
  have hjna := fun arch => (isWordChar_option arch).1
  have hwatcher := (isWordChar_option target.baseArch).2
  have hne : jnaOption target.baseArch ≠ [] := List.cons_ne_nil _ _
  have hquoted : ∀ (text : Name) (parts : List Name), (∀ c ∈ text, isWordChar c = true) →
      blankWords false (unlines ' ' (quoted text :: parts)) =
        (blankWords false (unlines ' ' parts)).map (text :: ·) := by
    intro text parts htext
    rw [unlines_cons, List.append_cons]
    exact blankWords_append (blankWords_quoted htext)
  rw [unlines_append, unlines_cons, List.append_cons (quoted _)] at hwords
  obtain ⟨before, after, hbefore, hafter, rfl⟩ := blankWords_quoted_append (hjna _) hne hwords
  replace hbefore := blankWords_of_whole hbefore
  replace hafter := blankWords_of_whole hafter
  cases front with
  | nil =>
      obtain rfl : before = [] := (Option.some.inj hbefore).symm
      refine ⟨[jnaOption target.targetArch, fileWatcherOption] ++ after, ?_, [], after,
        [jnaOption target.targetArch], after, rfl, rfl, List.cons_ne_nil _ _, ?_, rfl⟩
      · rw [changedParts, hquoted _ _ (hjna _), hquoted _ _ hwatcher, hafter]
        rfl
      · rintro rfl
        exact hlast rfl rfl
  | cons arg front =>
      obtain ⟨first, hshell, hnonempty⟩ := hfirst arg rfl
      rw [unlines_cons, List.append_cons, blankWords_append hshell] at hbefore
      obtain ⟨rest, hrest, rfl⟩ := Option.map_eq_some_iff.mp hbefore
      refine ⟨first ++ fileWatcherOption :: (rest ++ jnaOption target.targetArch :: after), ?_,
        first ++ rest, after, first, rest ++ jnaOption target.targetArch :: after, rfl, ?_,
        hnonempty, List.append_ne_nil_of_right_ne_nil _ (List.cons_ne_nil _ _), rfl⟩
      · rw [changedParts, unlines_cons, List.append_cons, blankWords_append hshell,
          hquoted _ _ hwatcher, unlines_append, blankWords_append hrest, hquoted _ _ (hjna _), hafter]
        rfl
      · rw [List.append_assoc]

/-- If the first part ends in quotes, the option behind it is put in a word. -/
theorem words_rewritten_inside {arg : Name} {front back : List Name} {ws ws' : List Name}
    (hwords : blankWords true
      (unlines ' ' (arg :: front ++ quoted (jnaOption target.baseArch) :: back)) = some ws)
    (hopen : shellWords arg = none)
    (hwords' : blankWords false (unlines ' ' (target.changedParts (arg :: front) back)) = some ws') :
    ws'.length = ws.length := by
  have hjna := fun arch => (isWordChar_option arch).1
  have hwatcher := (isWordChar_option target.baseArch).2
  have hne : jnaOption target.baseArch ≠ [] := List.cons_ne_nil _ _
  rw [unlines_append, unlines_cons _ (quoted _), List.append_cons (quoted _)] at hwords
  obtain ⟨before, after, hbefore, hafter, rfl⟩ := blankWords_quoted_append (hjna _) hne hwords
  replace hbefore := blankWords_eq_some.mp (blankWords_of_whole hbefore)
  replace hafter := blankWords_of_whole hafter
  rw [unlines_cons, List.append_cons, run_append] at hbefore
  obtain ⟨s, hs, hfront⟩ := Option.bind_eq_some_iff.mp hbefore
  have hquotes : s.mode = .quotes := by
    refine (run_blank hs).resolve_left fun hclosed => ?_
    rw [shellWords, hclosed] at hopen
    cases hopen
  -- the option leaves the lexer in the quotes of the first part
  obtain ⟨s', hput, hshape, hmode⟩ : ∃ s' : Lexer,
      Lexer.run false s (quoted fileWatcherOption ++ [' ']) = some s' ∧ s.shape = s'.shape ∧
        s'.mode = .quotes :=
    ⟨_, run_quoted_inside hwatcher hquotes, congrArg (·, s.done.length) hquotes, rfl⟩
  have hsame : (Lexer.run false s (unlines ' ' front)).map Lexer.shape =
      (Lexer.run false s' (unlines ' ' front)).map Lexer.shape := run_shape hshape
  rw [hfront, Option.map_some, eq_comm, Option.map_eq_some_iff] at hsame
  obtain ⟨⟨mode, done, word⟩, hfront', hends⟩ := hsame
  obtain ⟨hbetween, hdone⟩ := Prod.mk.inj hends
  have hstart : s'.mode = .between → s'.word = [] := by
    rw [hmode]
    exact fun h => Mode.noConfusion h
  have hword := run_between hstart hfront' hbetween
  dsimp only at hbetween hdone hword
  rw [hbetween, hword] at hfront'
  have hwritten : unlines ' ' (target.changedParts (arg :: front) back) =
      (arg ++ [' ']) ++ ((quoted fileWatcherOption ++ [' ']) ++ (unlines ' ' front ++
        ((inQuotes (jnaOption target.targetArch) ++ [' ']) ++ unlines ' ' back))) := by
    simp [changedParts, quoted, inQuotes]
  rw [hwritten, blankWords_eq_some, run_append, hs, Option.bind_some, run_append, hput,
    Option.bind_some, run_append, hfront', Option.bind_some, run_append, run_quoted (hjna _),
    Option.bind_some, run_words hafter] at hwords'
  obtain ⟨-, rfl, -⟩ := Lexer.mk.inj (Option.some.inj hwords')
  simp only [List.length_append, List.length_cons, List.length_nil, hdone]
  omega

/-! ## The script -/

variable (target) in
/-- All other lines are kept and in place, and the words of the line with the options are those of
the line in the place of it, with the changes. -/
def KeepsCommandLine (text : Name) (pre post ws : List Name) : Prop :=
  ∃ result line' ws', target.rewriteScript text = .ok result ∧
    lines result = pre ++ line' :: post ∧ line'.getLast? = some '\\' ∧
    shellWords line'.dropLast = some ws' ∧ target.ChangedWords ws ws'

variable (target) in
/-- A line with the options that is cut between its words: {lit}`trim` takes away blanks only, the
option for the base architecture is a part, and the first part does not end in quotes. -/
def CutBetweenWords (line : Name) : Prop :=
  (∀ c ∈ trimmedAway line.dropLast, isBlank c = true) ∧
    quoted (jnaOption target.baseArch) ∈ splitAtBlanks (trim line.dropLast) ∧
    ∀ arg ∈ (splitAtBlanks (trim line.dropLast)).head?, (shellWords arg).isSome = true

theorem isLine_append {front back : Name} (hfront : IsLine front) (hback : IsLine back) :
    IsLine (front ++ back) :=
  ⟨fun h => (List.mem_append.mp h).elim hfront.1 hback.1,
    fun h => (List.mem_append.mp h).elim hfront.2 hback.2⟩

theorem isLine_unlines {parts : List Name} :
    IsLine (unlines ' ' parts) ↔ ∀ part ∈ parts, IsLine part := by
  induction parts with
  | nil => simp [IsLine]
  | cons part parts ih =>
      rw [List.forall_mem_cons, ← ih, unlines_cons]
      simp only [IsLine, List.mem_append, List.mem_cons, not_or]
      have hn : '\n' ≠ ' ' := by decide
      have hr : '\r' ≠ ' ' := by decide
      tauto

theorem isLine_options (arch : Arch) :
    IsLine (quoted (jnaOption arch)) ∧ IsLine (quoted fileWatcherOption) := by
  cases arch <;> decide

/-- The line that is written is one. -/
theorem isLine_changedParts {front back : List Name} {arg : Name}
    (h : IsLine (unlines ' ' (front ++ arg :: back))) :
    IsLine (unlines ' ' (target.changedParts front back)) := by
  obtain ⟨hjna, hwatcher⟩ := isLine_options target.targetArch
  rw [isLine_unlines] at h ⊢
  intro part hpart
  cases front with
  | nil =>
      rw [changedParts, List.mem_cons, List.mem_cons] at hpart
      rcases hpart with rfl | rfl | hback
      · exact hjna
      · exact hwatcher
      · exact h part (List.mem_cons_of_mem _ hback)
  | cons first front =>
      rw [changedParts, List.mem_cons, List.mem_cons, List.mem_append, List.mem_cons] at hpart
      rcases hpart with rfl | rfl | hfront | rfl | hback
      · exact h part List.mem_cons_self
      · exact hwatcher
      · exact h part (List.mem_append_left _ (List.mem_cons_of_mem _ hfront))
      · exact hjna
      · exact h part (List.mem_append_right _ (List.mem_cons_of_mem _ hback))

/-- The command line is kept if the words of the parts that are written have the changes. -/
theorem keepsCommandLine_iff {text line : Name} {pre post ws front back : List Name}
    (hlines : lines text = pre ++ line :: post)
    (hothers : ∀ other ∈ pre ++ post, isOptionLine other = false)
    (hline : isOptionLine line = true)
    (hparts : splitAtBlanks (trim line.dropLast) =
      front ++ quoted (jnaOption target.baseArch) :: back)
    (hfront : quoted (jnaOption target.baseArch) ∉ front) :
    target.KeepsCommandLine text pre post ws ↔
      ∃ ws', blankWords false (unlines ' ' (target.changedParts front back)) = some ws' ∧
        target.ChangedWords ws ws' := by
  obtain ⟨written, hwritten⟩ : ∃ written,
      written = str "  " ++ unlines ' ' (target.changedParts front back) := ⟨_, rfl⟩
  have hisLine : ∀ other ∈ lines text, IsLine other := fun other => isLine_of_mem_lines
  rw [hlines] at hisLine
  -- the characters of the line, of the options and of the layout
  have htrim : IsLine (trim line.dropLast ++ [' ']) := by
    have hmem : ∀ c, c ∈ trim line.dropLast → c ∈ line := by
      intro c hc
      have haround := List.mem_append_right (line.dropLast.takeWhile (· ≤ ' '))
        (List.mem_append_left ((line.dropLast.dropWhile (· ≤ ' ')).rtakeWhile (· ≤ ' ')) hc)
      rw [trim_around] at haround
      exact List.dropLast_subset _ haround
    obtain ⟨hn, hr⟩ := hisLine line (List.mem_append_right _ List.mem_cons_self)
    exact isLine_append ⟨fun h => hn (hmem _ h), fun h => hr (hmem _ h)⟩ (by decide)
  rw [← unlines_splitAtBlanks, hparts] at htrim
  have hwrittenLine : IsLine (written ++ ['\\']) := by
    rw [hwritten]
    exact isLine_append (isLine_append (by decide) (isLine_changedParts htrim)) (by decide)
  obtain ⟨result, hresult, hlines'⟩ : ∃ result, target.rewriteScript text = .ok result ∧
      lines result = pre ++ (written ++ ['\\']) :: post := by
    refine ⟨unlines '\n' (pre ++ (written ++ ['\\']) :: post), ?_, lines_unlines fun other hother => ?_⟩
    · rw [rewriteScript, hlines, target.rewriteLines_around
        (fun other hother => hothers other (List.mem_append_left _ hother)) hline
        (fun other hother => hothers other (List.mem_append_right _ hother)),
        target.rewriteOptionLine_eq hparts hfront, ← hwritten]
      simp [Except.map]
    · rcases List.mem_append.mp hother with hpre | hother
      · exact hisLine other (List.mem_append_left _ hpre)
      · rcases List.mem_cons.mp hother with rfl | hpost
        · exact hwrittenLine
        · exact hisLine other (List.mem_append_right _ (List.mem_cons_of_mem _ hpost))
  have hwords : shellWords (written ++ ['\\']).dropLast =
      blankWords false (unlines ' ' (target.changedParts front back)) := by
    have hne : target.changedParts front back ≠ [] := by
      cases front <;> exact List.cons_ne_nil _ _
    have hlead : blankWords false (str "  ") = some [] := by decide
    rw [List.dropLast_concat, shellWords, hwritten, List.append_assoc, blankWords_append hlead,
      ← intersperse_flatten hne, blankWords_append_blank]
    simp
  constructor
  · rintro ⟨result', line', ws', hok, hkept, -, hshell, hchanged⟩
    obtain rfl := Except.ok.inj (hresult.symm.trans hok)
    rw [hlines'] at hkept
    obtain rfl := (List.cons.inj (List.append_cancel_left hkept)).1
    exact ⟨ws', hwords.symm.trans hshell, hchanged⟩
  · rintro ⟨ws', hshell, hchanged⟩
    exact ⟨result, written ++ ['\\'], ws', hresult, hlines', by simp, hwords.trans hshell, hchanged⟩

/-- A character of the parts that no option has. -/
theorem countP_changedParts {p : Char → Bool} (hspace : p ' ' = false) (hquote : p '"' = false)
    (hjna : ∀ arch, (jnaOption arch).countP p = 0) (hwatcher : fileWatcherOption.countP p = 0)
    (front back : List Name) :
    (unlines ' ' (target.changedParts front back)).countP p =
      (unlines ' ' (front ++ quoted (jnaOption target.baseArch) :: back)).countP p := by
  have hoption : ∀ text : Name, text.countP p = 0 → (quoted text).countP p = 0 := by
    intro text htext
    simp [quoted, List.countP_append, htext, hquote]
  have hbase := hoption _ (hjna target.baseArch)
  have htarget := hoption _ (hjna target.targetArch)
  replace hwatcher := hoption _ hwatcher
  cases front <;>
    simp [changedParts, List.countP_append, hbase, htarget, hwatcher, hspace]

/-- A line with the options has more words than the option for the base architecture. -/
theorem ne_singleton_of_isOptionLine {line : Name} {ws : List Name}
    (hline : isOptionLine line = true) (hwords : wholeWords line.dropLast = some ws) (arch : Arch) :
    ws ≠ [jnaOption arch] := by
  rintro rfl
  rw [isOptionLine, Bool.and_eq_true, beq_iff_eq] at hline
  obtain ⟨hcontains, hlast⟩ := hline
  obtain ⟨front, rfl⟩ := List.getLast?_eq_some_iff.mp hlast
  have hmem : 'J' ∈ front ++ ['\\'] := by
    rw [contains, List.any_eq_true] at hcontains
    obtain ⟨tail, htail, hvendor⟩ := hcontains
    have hfirst : 'J' ∈ str "-Didea.vendor.name=JetBrains" := by decide
    exact ((List.mem_tails _ _).mp htail).subset
      ((List.isPrefixOf_iff_prefix.mp hvendor).subset hfirst)
  have hcount := blankWords_countP (p := (· = 'J')) (by decide) hwords
  have hzero : [jnaOption arch].flatten.countP (· = 'J') = 0 := by cases arch <;> decide
  rw [hzero, List.dropLast_concat, eq_comm, List.countP_eq_zero] at hcount
  have hfront : 'J' ∈ front := by
    rcases List.mem_append.mp hmem with hfront | hslash
    · exact hfront
    · exact absurd hslash (by decide)
  exact hcount 'J' (List.mem_append_left _ hfront) (by decide)

/-- The first part of several has a word, if it does not end in quotes. -/
theorem first_ne_nil {text arg : Name} {args first : List Name}
    (hparts : splitAtBlanks (trim text) = arg :: args) (hargs : args ≠ [])
    (hfirst : shellWords arg = some first) : first ≠ [] := by
  have hjoined := unlines_splitAtBlanks text
  rw [hparts, unlines_cons] at hjoined
  cases htrim : trim text with
  | nil =>
      -- a text with nothing in it has one part
      have hone : splitAtBlanks [] = [[]] := by decide
      rw [htrim, hone] at hparts
      exact absurd (List.cons.inj hparts).2.symm hargs
  | cons c rest =>
      have hc := trim_head htrim
      rw [htrim] at hjoined
      cases arg with
      | nil =>
          obtain ⟨rfl, -⟩ := List.cons.inj hjoined
          exact absurd (by decide) hc
      | cons c' arg =>
          obtain ⟨rfl, -⟩ := List.cons.inj hjoined
          refine blankWords_ne_nil (c := c') ?_ hfirst
          rw [isBlank, Bool.or_eq_false_iff, decide_eq_false_iff_not, decide_eq_false_iff_not]
          refine ⟨?_, ?_⟩ <;> rintro rfl <;> exact hc (by decide)

/-- The words of the parts are those of the line. -/
theorem wholeWords_parts {text : Name} {ws : List Name}
    (htrim : ∀ c ∈ trimmedAway text, isBlank c = true) (hwords : wholeWords text = some ws) :
    blankWords true (unlines ' ' (splitAtBlanks (trim text))) = some ws := by
  rw [unlines_splitAtBlanks]
  rw [wholeWords, ← trim_around text] at hwords
  exact blankWords_blanks (fun c hc => htrim c (List.mem_append_left _ hc))
    (fun c hc => htrim c (List.mem_append_right _ hc)) hwords

/-- The command line is preserved if and only if the line is cut between its words. -/
theorem command_line_kept_iff {text line : Name} {pre post ws : List Name}
    (hlines : lines text = pre ++ line :: post)
    (hothers : ∀ other ∈ pre ++ post, isOptionLine other = false)
    (hline : isOptionLine line = true) (hwords : wholeWords line.dropLast = some ws) :
    target.KeepsCommandLine text pre post ws ↔ target.CutBetweenWords line := by
  by_cases hmem : quoted (jnaOption target.baseArch) ∈ splitAtBlanks (trim line.dropLast)
  · obtain ⟨front, back, hparts, hfront⟩ := List.eq_append_cons_of_mem hmem
    rw [keepsCommandLine_iff hlines hothers hline hparts hfront]
    constructor
    · rintro ⟨ws', hshell, hchanged⟩
      -- characters that are no blanks do not get lost
      have htrim : ∀ c ∈ trimmedAway line.dropLast, isBlank c = true := by
        have hp : ∀ arch, (jnaOption arch).countP (fun c => !isBlank c && c ≤ ' ') = 0 := by
          intro arch
          cases arch <;> decide
        have hread := blankWords_countP (p := fun c => !isBlank c && c ≤ ' ') (by decide) hwords
        have hwritten := blankWords_countP (p := fun c => !isBlank c && c ≤ ' ') (by decide) hshell
        rw [hchanged.countP hp (by decide), hread, countP_changedParts (by decide) (by decide) hp
          (by decide), ← hparts, unlines_splitAtBlanks, List.countP_append, List.countP_append,
          countP_trim] at hwritten
        have hzero : (trimmedAway line.dropLast).countP (fun c => !isBlank c && c ≤ ' ') = 0 := by
          omega
        intro c hc
        have hkept := List.countP_eq_zero.mp hzero c hc
        simpa [le_of_mem_trimmedAway hc] using hkept
      refine ⟨htrim, hmem, fun arg harg => ?_⟩
      have hparted := wholeWords_parts htrim hwords
      rw [hparts] at hparted harg
      cases front with
      | nil =>
          obtain rfl := Option.some.inj harg
          exact Option.isSome_iff_exists.mpr ⟨_, blankWords_quoted (isWordChar_option _).1⟩
      | cons first front =>
          obtain rfl := Option.some.inj harg
          rw [Option.isSome_iff_ne_none]
          intro hopen
          have hlength := words_rewritten_inside hparted hopen hshell
          have hlonger := hchanged.length
          omega
    · rintro ⟨htrim, -, hclosed⟩
      have hparted := wholeWords_parts htrim hwords
      rw [hparts] at hparted
      refine words_rewritten hparted (fun arg harg => ?_)
        (fun _ => ne_singleton_of_isOptionLine hline hwords _)
      cases front with
      | nil => contradiction
      | cons arg' front =>
          obtain rfl := Option.some.inj harg
          obtain ⟨first, hfirst⟩ := Option.isSome_iff_exists.mp (hclosed arg' (by rw [hparts]; rfl))
          exact ⟨first, hfirst, first_ne_nil hparts
            (List.append_ne_nil_of_right_ne_nil _ (List.cons_ne_nil _ _)) hfirst⟩
  · constructor
    · rintro ⟨result, -, -, hok, -, -, -, -⟩
      rw [rewriteScript, hlines, target.rewriteLines_around
        (fun other hother => hothers other (List.mem_append_left _ hother)) hline
        (fun other hother => hothers other (List.mem_append_right _ hother))] at hok
      cases hwritten : target.rewriteOptionLine line with
      | error failure =>
          rw [hwritten] at hok
          cases hok
      | ok written => exact absurd (target.mem_of_rewriteOptionLine hwritten) hmem
    · rintro ⟨-, hparts, -⟩
      exact absurd hparts hmem

/-- A script around a line. -/
def scriptAround (line : Name) : Name :=
  str "exec \"$JAVA_BIN\" \\\n" ++ line ++ str "\n\"$@\"\n"

/-- The first word has no blank. -/
def plainFirstLine : Name :=
  str "-Didea.vendor.name=JetBrains  \"-Dname=my ide\" " ++
    str "\"-Djna.boot.library.path=$IDE_HOME/lib/jna/aarch64\" \\"

/-- The first word has a blank. -/
def blankFirstLine : Name :=
  str "\"-Dname=my ide\" \"-Djna.boot.library.path=$IDE_HOME/lib/jna/aarch64\" " ++
    str "-Didea.vendor.name=JetBrains \\"

/-- A word with a blank that is not the first one does no harm. -/
theorem command_line_kept_iff_idea :
    KeepsCommandLine ⟨.IDEA_IC, .AARCH64, .RISCV64⟩ (scriptAround plainFirstLine)
      [str "exec \"$JAVA_BIN\" \\"] [str "\"$@\""]
      [str "-Didea.vendor.name=JetBrains", str "-Dname=my ide", jnaOption .AARCH64] :=
  (command_line_kept_iff (by decide +kernel : _ = _ ++ plainFirstLine :: _) (by decide +kernel)
    (by decide +kernel) (by decide +kernel)).mpr
    ⟨List.all_eq_true.mp (by decide +kernel), by decide +kernel, by decide +kernel⟩

/-- An option is put in the first word if that has a blank. -/
theorem first_word_torn :
    lines (scriptAround blankFirstLine) =
        [str "exec \"$JAVA_BIN\" \\", blankFirstLine, str "\"$@\""] ∧
      isOptionLine blankFirstLine = true ∧
      wholeWords blankFirstLine.dropLast =
        some [str "-Dname=my ide", jnaOption .AARCH64, str "-Didea.vendor.name=JetBrains"] ∧
      ¬ KeepsCommandLine ⟨.IDEA_IC, .AARCH64, .RISCV64⟩ (scriptAround blankFirstLine)
        [str "exec \"$JAVA_BIN\" \\"] [str "\"$@\""]
        [str "-Dname=my ide", jnaOption .AARCH64, str "-Didea.vendor.name=JetBrains"] := by
  have hlines : lines (scriptAround blankFirstLine) =
      [str "exec \"$JAVA_BIN\" \\"] ++ blankFirstLine :: [str "\"$@\""] := by
    decide +kernel
  have hothers : ∀ other ∈ [str "exec \"$JAVA_BIN\" \\"] ++ [str "\"$@\""],
      isOptionLine other = false := by
    decide +kernel
  have hoption : isOptionLine blankFirstLine = true := by
    decide +kernel
  have hread : wholeWords blankFirstLine.dropLast =
      some [str "-Dname=my ide", jnaOption .AARCH64, str "-Didea.vendor.name=JetBrains"] := by
    decide +kernel
  have hparts : splitAtBlanks (trim blankFirstLine.dropLast) =
      [str "\"-Dname=my", str "ide\""] ++ quoted (jnaOption .AARCH64) ::
        [str "-Didea.vendor.name=JetBrains"] := by
    decide +kernel
  have hfront : quoted (jnaOption .AARCH64) ∉ [str "\"-Dname=my", str "ide\""] := by
    decide +kernel
  refine ⟨hlines, hoption, hread, fun hkept => ?_⟩
  have hiff : KeepsCommandLine ⟨.IDEA_IC, .AARCH64, .RISCV64⟩ (scriptAround blankFirstLine)
      [str "exec \"$JAVA_BIN\" \\"] [str "\"$@\""]
      [str "-Dname=my ide", jnaOption .AARCH64, str "-Didea.vendor.name=JetBrains"] ↔ _ :=
    keepsCommandLine_iff hlines hothers hoption hparts hfront
  obtain ⟨ws', hshell, hchanged⟩ := hiff.mp hkept
  have hwords : blankWords false (unlines ' ' (changedParts ⟨.IDEA_IC, .AARCH64, .RISCV64⟩
      [str "\"-Dname=my", str "ide\""] [str "-Didea.vendor.name=JetBrains"])) =
      some [str "-Dname=my -Didea.filewatcher.executable.path=$IDE_HOME/bin/fsnotifier ide",
        jnaOption .RISCV64, str "-Didea.vendor.name=JetBrains"] := by
    decide +kernel
  have hlength := hchanged.length
  rw [← Option.some.inj (hwords.symm.trans hshell)] at hlength
  simp at hlength

end Target
end Packaging
end IdeMultiarch
