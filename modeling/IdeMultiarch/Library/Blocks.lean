import Mathlib.Data.List.Basic
import Mathlib.Tactic.Common

/-!
# Library - lists of counted blocks

A list is cut into blocks: each begins with a header from which the number of the items after it
is read.

Main results:

- Theorem {lit}`length_lt_encodeBlocks`: a block is shorter than the list.
- Theorem {lit}`blocks_encode`: blocks behind headers with their lengths are found again.
-/

namespace IdeMultiarch
namespace Library

variable {α : Type} (count : α → Option Nat)

/-- The blocks of a list; none of them is empty. -/
inductive Blocks : List α → List (List α) → Prop where
  | nil : Blocks [] []
  | cons {header : α} {block rest : List α} {blocks : List (List α)}
      (hcount : count header = some block.length) (hblock : block ≠ [])
      (hrest : Blocks rest blocks) : Blocks (header :: (block ++ rest)) (block :: blocks)

/-- A list with the given blocks behind headers. -/
def encodeBlocks (header : Nat → α) (blocks : List (List α)) : List α :=
  blocks.flatMap fun block => header block.length :: block

variable {count}

/-- A block is shorter than the list that it is in. -/
theorem length_lt_encodeBlocks {header : Nat → α} {blocks : List (List α)} {block : List α}
    (hblock : block ∈ blocks) : block.length < (encodeBlocks header blocks).length := by
  have hsub : (header block.length :: block).Sublist (encodeBlocks header blocks) := by
    unfold encodeBlocks
    rw [List.flatMap_def]
    exact List.sublist_flatten_of_mem (List.mem_map.mpr ⟨block, hblock, rfl⟩)
  exact hsub.length_le

/-- Blocks behind headers with their lengths are found again. -/
theorem blocks_encode {header : Nat → α} {blocks : List (List α)}
    (hblocks : ∀ block ∈ blocks, block ≠ [] ∧ count (header block.length) = some block.length) :
    Blocks count (encodeBlocks header blocks) blocks := by
  induction blocks with
  | nil => exact .nil
  | cons block blocks ih =>
      obtain ⟨⟨hblock, hcount⟩, hrest⟩ := List.forall_mem_cons.mp hblocks
      exact .cons hcount hblock (ih hrest)

end Library
end IdeMultiarch
