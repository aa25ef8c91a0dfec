import Mathlib.Data.List.Basic
import Mathlib.Tactic.Common

/-!
# Library - texts made of lines

A text is a list of complete lines, each followed by a separator.  Splitting the text at the
separators gives back the lines if none of them contains one, and otherwise too many lines.

Main results:

- Theorem {lit}`completeLines_unlines`: lines without separators are read back.
- Theorem {lit}`not_mem_of_completeLines`: only such lines are read back in their number.
-/

namespace IdeMultiarch
namespace Library

variable {α : Type} (sep : α)

/-- The text of some lines. -/
def unlines (lines : List (List α)) : List α :=
  lines.flatMap (· ++ [sep])

@[simp]
theorem unlines_nil : unlines sep [] = [] :=
  rfl

@[simp]
theorem unlines_cons (line : List α) (lines : List (List α)) :
    unlines sep (line :: lines) = line ++ sep :: unlines sep lines := by
  simp [unlines]

@[simp]
theorem unlines_append (front back : List (List α)) :
    unlines sep (front ++ back) = unlines sep front ++ unlines sep back :=
  List.flatMap_append

variable [DecidableEq α]

/-- The lines of a text, if the last one is complete. -/
def completeLines (text : List α) : Option (List (List α)) :=
  let pieces := text.splitOn sep
  if pieces.getLast? = some [] then some pieces.dropLast else none

variable {sep}

/-- Lines without separators are read back. -/
theorem completeLines_unlines {lines : List (List α)} (hlines : ∀ line ∈ lines, sep ∉ line) :
    completeLines sep (unlines sep lines) = some lines := by
  have hpieces : (unlines sep lines).splitOn sep = lines ++ [[]] := by
    induction lines with
    | nil => simp
    | cons line lines ih =>
        obtain ⟨hline, hrest⟩ := List.forall_mem_cons.mp hlines
        rw [unlines_cons, List.splitOn_append_cons_self_of_not_mem hline, ih hrest, List.cons_append]
  unfold completeLines
  simp [hpieces]

/-- The pieces of a text are its lines. -/
theorem unlines_splitOn (text : List α) : unlines sep (text.splitOn sep) = text ++ [sep] := by
  induction text with
  | nil => simp
  | cons a text ih =>
      rw [List.splitOn_cons_eq_if_modifyHead]
      split
      next hsep =>
        rw [unlines_cons, ih, List.nil_append, eq_of_beq hsep, List.cons_append]
      next =>
        obtain ⟨piece, pieces, hpieces⟩ := List.exists_cons_of_ne_nil (List.splitOn_ne_nil sep text)
        rw [hpieces, unlines_cons] at ih
        rw [hpieces, List.modifyHead_cons, unlines_cons, List.cons_append, ih, List.cons_append]

omit [DecidableEq α] in
/-- Lines that are joined. -/
theorem intersperse_flatten {lines : List (List α)} (h : lines ≠ []) :
    (lines.intersperse [sep]).flatten ++ [sep] = unlines sep lines := by
  induction lines with
  | nil => exact absurd rfl h
  | cons line lines ih =>
      cases lines with
      | nil => simp
      | cons next lines =>
          rw [List.intersperse_cons_cons, List.flatten_cons, List.flatten_cons, unlines_cons,
            ← ih (List.cons_ne_nil _ _)]
          simp

/-! ## The number of lines -/

/-- Every separator ends a piece. -/
theorem length_splitOn (text : List α) : (text.splitOn sep).length = text.count sep + 1 := by
  induction text with
  | nil => simp
  | cons a text ih =>
      rw [List.splitOn_cons_eq_if_modifyHead, List.count_cons]
      split
      · rw [List.length_cons, ih]
      · rw [List.length_modifyHead, ih, Nat.add_zero]

theorem count_unlines (lines : List (List α)) :
    (unlines sep lines).count sep = lines.length + lines.flatten.count sep := by
  induction lines with
  | nil => simp
  | cons line lines ih =>
      rw [unlines_cons, List.count_append, List.count_cons_self, ih, List.length_cons,
        List.flatten_cons, List.count_append]
      omega

theorem length_of_completeLines {text : List α} {lines : List (List α)}
    (hlines : completeLines sep text = some lines) : lines.length = text.count sep := by
  unfold completeLines at hlines
  dsimp only at hlines
  split at hlines
  · rw [← Option.some.inj hlines, List.length_dropLast, length_splitOn, Nat.add_sub_cancel]
  · contradiction

/-- If as many lines are read back as were written, none of them contains a separator. -/
theorem not_mem_of_completeLines {lines lines' : List (List α)}
    (hread : completeLines sep (unlines sep lines) = some lines')
    (hlength : lines'.length = lines.length) : ∀ line ∈ lines, sep ∉ line := by
  have hcount := length_of_completeLines hread
  rw [count_unlines, hlength] at hcount
  have hnone : lines.flatten.count sep = 0 := by omega
  intro line hline hmem
  exact List.count_eq_zero.mp hnone (List.mem_flatten_of_mem hline hmem)

end Library
end IdeMultiarch
