import Mathlib.Tactic.Common

/-!
# Library - images of files

The bytes of a file, each at its offset, and how many there are.  An image can be written at any
offset; what lies between its old end and what is written behind it becomes zero.

Main results:

- Theorems {lit}`overlay_byte_of_mem` and {lit}`overlay_byte_of_not_mem`: what is written is there,
  and nothing else changes.
- Theorem {lit}`restore_save`: blocks that were saved before they were overwritten are restored.
- Theorems {lit}`add_div_of_dvd` and {lit}`add_mod_of_dvd`: an aligned block lies within one page.
-/

namespace IdeMultiarch
namespace Library

/-- The bytes of a file.  Behind its end there are none, which reads as zero. -/
@[ext]
structure Image where
  byte : Nat → UInt8
  size : Nat
  behind : ∀ off, size ≤ off → byte off = 0

namespace Image

/-- A file that is at least as long as given. -/
def extend (image : Image) (size : Nat) : Image where
  byte := image.byte
  size := max image.size size
  behind off hoff := image.behind off (Nat.le_trans (Nat.le_max_left _ _) hoff)

/-- A file that is at most as long as given. -/
def truncate (image : Image) (size : Nat) : Image where
  byte off := if off < size then image.byte off else 0
  size := min image.size size
  behind off hoff := by
    split
    · exact image.behind off (by omega)
    · rfl

/-- Bytes that are written from an offset on. -/
def overlay (image : Image) (start length : Nat) (data : Nat → UInt8) : Image where
  byte off := if start ≤ off ∧ off < start + length then data (off - start) else image.byte off
  size := max image.size (start + length)
  behind off hoff := by
    rw [if_neg (by omega)]
    exact image.behind off (by omega)

variable {image : Image} {start length size off : Nat} {data : Nat → UInt8}

@[simp]
theorem extend_size (image : Image) (size : Nat) : (image.extend size).size = max image.size size :=
  rfl

@[simp]
theorem extend_byte (image : Image) (size off : Nat) :
    (image.extend size).byte off = image.byte off :=
  rfl

@[simp]
theorem truncate_size (image : Image) (size : Nat) :
    (image.truncate size).size = min image.size size :=
  rfl

/-- What is not cut off stays. -/
theorem truncate_byte (h : off < size) : (image.truncate size).byte off = image.byte off :=
  if_pos h

@[simp]
theorem overlay_size (image : Image) (start length : Nat) (data : Nat → UInt8) :
    (image.overlay start length data).size = max image.size (start + length) :=
  rfl

/-- What is written is there. -/
theorem overlay_byte_of_mem (hstart : start ≤ off) (hend : off < start + length) :
    (image.overlay start length data).byte off = data (off - start) :=
  if_pos ⟨hstart, hend⟩

/-- Nothing else changes. -/
theorem overlay_byte_of_not_mem (hout : ¬ (start ≤ off ∧ off < start + length)) :
    (image.overlay start length data).byte off = image.byte off :=
  if_neg hout

end Image

/-! ## Undo journals -/

/-- An undo journal: the length that a file had, and what was in some of its blocks before they were
overwritten. -/
structure Journal where
  block : Nat
  size : Nat
  saved : List (Nat × (Nat → UInt8))

namespace Journal

/-- What is in a block is saved before it is overwritten, if the block is not behind the end and was
not saved before. -/
def save (journal : Journal) (image : Image) (i : Nat) : Journal :=
  if i * journal.block < journal.size ∧ i ∉ journal.saved.map (·.1) then
    { journal with
      saved := journal.saved ++ [(i, fun k => image.byte (i * journal.block + k))] }
  else journal

/-- The saved blocks are written back. -/
def replay (block : Nat) (saved : List (Nat × (Nat → UInt8))) (image : Image) : Image :=
  saved.foldl (fun image entry => image.overlay (entry.1 * block) block entry.2) image

/-- The file is made what it was. -/
def restore (journal : Journal) (image : Image) : Image :=
  ((replay journal.block journal.saved image).extend journal.size).truncate journal.size

section Replay

variable {block off i j : Nat} {saved : List (Nat × (Nat → UInt8))} {image image' : Image}

/-- What is written back does not depend on what is elsewhere. -/
theorem replay_congr (h : image.byte off = image'.byte off) :
    (replay block saved image).byte off = (replay block saved image').byte off := by
  induction saved generalizing image image' with
  | nil => exact h
  | cons entry saved ih =>
      refine ih ?_
      by_cases hin : entry.1 * block ≤ off ∧ off < entry.1 * block + block
      · rw [Image.overlay_byte_of_mem hin.1 hin.2, Image.overlay_byte_of_mem hin.1 hin.2]
      · rw [Image.overlay_byte_of_not_mem hin, Image.overlay_byte_of_not_mem hin, h]

/-- A saved block is as it was saved, whatever the file has there. -/
theorem replay_of_mem (hmem : i ∈ saved.map (·.1))
    (hin : i * block ≤ off ∧ off < i * block + block) :
    (replay block saved image).byte off = (replay block saved image').byte off := by
  induction saved generalizing image image' with
  | nil => cases hmem
  | cons entry saved ih =>
      rcases List.mem_cons.mp hmem with rfl | hmem
      · dsimp only at hin
        change (replay block saved (image.overlay (entry.1 * block) block entry.2)).byte off =
          (replay block saved (image'.overlay (entry.1 * block) block entry.2)).byte off
        refine replay_congr ?_
        rw [Image.overlay_byte_of_mem hin.1 hin.2, Image.overlay_byte_of_mem hin.1 hin.2]
      · exact ih hmem

/-- A byte is in one block only. -/
theorem block_unique (hi : i * block ≤ off ∧ off < i * block + block)
    (hj : j * block ≤ off ∧ off < j * block + block) : i = j := by
  rw [← Nat.succ_mul] at hi hj
  rw [← Nat.div_eq_of_lt_le hi.1 hi.2, Nat.div_eq_of_lt_le hj.1 hj.2]

/-- A block that was not saved is not written. -/
theorem replay_of_not_mem (hmem : i ∉ saved.map (·.1))
    (hin : i * block ≤ off ∧ off < i * block + block) :
    (replay block saved image).byte off = image.byte off := by
  induction saved generalizing image with
  | nil => rfl
  | cons entry saved ih =>
      rw [List.map_cons, List.mem_cons, not_or] at hmem
      refine (ih hmem.2).trans (Image.overlay_byte_of_not_mem fun hentry => hmem.1 ?_)
      exact block_unique hin hentry

end Replay

variable {journal : Journal} {image image' : Image}

/-- Files that differ only in what is written back are made the same. -/
theorem restore_congr {journal' : Journal} (hsize : journal'.size = journal.size)
    (h : ∀ off < journal.size, (replay journal'.block journal'.saved image').byte off =
      (replay journal.block journal.saved image).byte off) :
    journal'.restore image' = journal.restore image := by
  unfold restore
  rw [hsize]
  ext off
  · by_cases hoff : off < journal.size
    · rw [Image.truncate_byte hoff, Image.truncate_byte hoff, Image.extend_byte, Image.extend_byte,
        h off hoff]
    · rw [Image.behind _ off (by simp; omega), Image.behind _ off (by simp; omega)]
  · rw [Image.truncate_size, Image.truncate_size, Image.extend_size, Image.extend_size]
    omega

/-- An empty journal leaves the file. -/
theorem restore_nil (block : Nat) (image : Image) :
    (⟨block, image.size, []⟩ : Journal).restore image = image := by
  unfold restore
  ext off
  · by_cases hoff : off < image.size
    · rw [Image.truncate_byte hoff]
      rfl
    · rw [Image.behind _ off (by simp; omega), image.behind off (by omega)]
  · simp [replay]

/-- Blocks that were saved before they were overwritten are restored. -/
theorem restore_save (journal : Journal) (image : Image) (i : Nat) (data : Nat → UInt8) :
    (journal.save image i).restore (image.overlay (i * journal.block) journal.block data) =
      journal.restore image := by
  unfold save
  split
  next hsave =>
    refine restore_congr rfl fun off _ => ?_
    have happend : replay journal.block
        (journal.saved ++ [(i, fun k => image.byte (i * journal.block + k))])
        (image.overlay (i * journal.block) journal.block data) =
        (replay journal.block journal.saved
          (image.overlay (i * journal.block) journal.block data)).overlay (i * journal.block)
          journal.block fun k => image.byte (i * journal.block + k) := by
      unfold replay
      rw [List.foldl_append]
      rfl
    dsimp only
    rw [happend]
    by_cases hin : i * journal.block ≤ off ∧ off < i * journal.block + journal.block
    · rw [Image.overlay_byte_of_mem hin.1 hin.2, replay_of_not_mem hsave.2 hin,
        Nat.add_sub_cancel' hin.1]
    · rw [Image.overlay_byte_of_not_mem hin]
      exact replay_congr (Image.overlay_byte_of_not_mem hin)
  next hnot =>
    refine restore_congr rfl fun off hoff => ?_
    by_cases hin : i * journal.block ≤ off ∧ off < i * journal.block + journal.block
    · -- the block is not behind the end, so it was saved before
      have hmem : i ∈ journal.saved.map (·.1) := by
        by_contra hmem
        exact hnot ⟨Nat.lt_of_le_of_lt hin.1 hoff, hmem⟩
      exact replay_of_mem hmem hin
    · exact replay_congr (Image.overlay_byte_of_not_mem hin)

end Journal

/-! ## Aligned blocks -/

section Alignment

variable {block start page j : Nat}

/-- What is in an aligned block is on the page where the block begins. -/
theorem add_div_of_dvd (hstart : block ∣ start) (hpage : block ∣ page) (hj : j < block) :
    (start + j) / page = start / page := by
  have hpos : 0 < block := Nat.zero_lt_of_lt hj
  obtain ⟨a, rfl⟩ := hstart
  obtain ⟨p, rfl⟩ := hpage
  rw [← Nat.div_div_eq_div_mul, Nat.mul_add_div hpos, Nat.div_eq_of_lt hj, Nat.add_zero,
    Nat.mul_div_mul_left a p hpos]

/-- The offsets in an aligned block follow one another on its page. -/
theorem add_mod_of_dvd (hstart : block ∣ start) (hpage : block ∣ page) (hj : j < block) :
    (start + j) % page = start % page + j := by
  have hdiv := add_div_of_dvd hstart hpage hj
  have hsum := Nat.div_add_mod (start + j) page
  have hbegin := Nat.div_add_mod start page
  rw [hdiv] at hsum
  omega

end Alignment

end Library
end IdeMultiarch
