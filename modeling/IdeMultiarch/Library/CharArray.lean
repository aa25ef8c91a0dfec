import Mathlib.Data.List.TakeWhile
import Mathlib.Tactic.Common

/-!
# Library - Arrays of bytes

The arrays of C: a fixed number of bytes, into which {lit}`memcpy` copies and from which
strings are read up to a NUL byte.  Copying past the end, and reading a string that does not end
within the array, have no result here.

Main results:

- Theorem {lit}`Starts.write`: what is copied behind the start of an array becomes part of it.
- Theorem {lit}`string_of_starts`: a string that ends with a NUL byte is read back.
- Theorem {lit}`strncmp_terminated`: comparing up to the end of a string looks for a prefix.
-/

namespace IdeMultiarch
namespace Library

/-- {lit}`char array[size]` -/
structure CharArray (size : Nat) where
  bytes : List UInt8
  length_bytes : bytes.length = size

namespace CharArray

variable {size k : Nat}

/-- A static array. -/
def zeroed (size : Nat) : CharArray size where
  bytes := List.replicate size 0
  length_bytes := List.length_replicate

/-- {lit}`memcpy(array + index, source, length)` -/
def write (array : CharArray size) (index : Nat) (source : List UInt8) :
    Option (CharArray size) :=
  if hfits : index + source.length ≤ size then
    some {
      bytes := array.bytes.take index ++ source ++ array.bytes.drop (index + source.length)
      length_bytes := by
        have hlength := array.length_bytes
        rw [List.length_append, List.length_append, List.length_take, List.length_drop]
        omega }
  else
    none

/-- The string at the start of the array. -/
def string (array : CharArray size) : Option (List UInt8) :=
  let text := array.bytes.takeWhile (· ≠ 0)
  if text.length < size then some text else none

/-- The array starts with some bytes. -/
def Starts (array : CharArray size) (text : List UInt8) : Prop :=
  text <+: array.bytes

/-- Two arrays agree in their first {lit}`k` bytes. -/
def AgreeTo (k : Nat) (array array' : CharArray size) : Prop :=
  array'.bytes.take k = array.bytes.take k

variable {array array' array'' : CharArray size} {text source : List UInt8} {index : Nat}

/-! ## Copying -/

/-- What fits can be copied. -/
theorem write_fits (array : CharArray size) (hfits : index + source.length ≤ size) :
    ∃ array', array.write index source = some array' := by
  unfold write
  rw [dif_pos hfits]
  exact ⟨_, rfl⟩

theorem write_bytes (hwrite : array.write index source = some array') :
    array'.bytes =
      array.bytes.take index ++ source ++ array.bytes.drop (index + source.length) := by
  unfold write at hwrite
  split at hwrite
  · cases hwrite
    rfl
  · contradiction

theorem write_le (hwrite : array.write index source = some array') :
    index + source.length ≤ size := by
  unfold write at hwrite
  split at hwrite
  · assumption
  · contradiction

/-- The bytes before the index are left alone. -/
theorem agreeTo_write (hk : k ≤ index) (hwrite : array.write index source = some array') :
    AgreeTo k array array' := by
  have hle := write_le hwrite
  unfold AgreeTo
  rw [write_bytes hwrite, List.append_assoc, List.take_append_of_le_length, List.take_take,
    Nat.min_eq_left hk]
  rw [List.length_take, array.length_bytes]
  omega

/-- What is copied behind the start of an array becomes part of it. -/
theorem Starts.write (hstarts : array.Starts text)
    (hwrite : array.write text.length source = some array') : array'.Starts (text ++ source) := by
  unfold Starts
  rw [write_bytes hwrite, List.prefix_iff_eq_take.mp hstarts, List.length_take,
    Nat.min_eq_left hstarts.length_le]
  exact List.prefix_append _ _

theorem starts_nil (array : CharArray size) : array.Starts [] :=
  List.nil_prefix

theorem Starts.of_append (hstarts : array.Starts (text ++ source)) : array.Starts text :=
  (List.prefix_append text source).trans hstarts

/-! ## Agreement -/

theorem AgreeTo.refl (k : Nat) (array : CharArray size) : AgreeTo k array array :=
  rfl

theorem AgreeTo.trans (h : AgreeTo k array array') (h' : AgreeTo k array' array'') :
    AgreeTo k array array'' :=
  Eq.trans h' h

theorem AgreeTo.mono {l : Nat} (h : AgreeTo l array array') (hkl : k ≤ l) :
    AgreeTo k array array' := by
  have htake := congrArg (List.take k) h
  rw [List.take_take, List.take_take, Nat.min_eq_left hkl] at htake
  exact htake

/-- An array that agrees far enough starts with the same bytes. -/
theorem Starts.agree (hstarts : array.Starts text) (h : AgreeTo k array array')
    (hk : text.length ≤ k) : array'.Starts text := by
  have hagree : AgreeTo text.length array array' := h.mono hk
  unfold Starts
  rw [List.prefix_iff_eq_take.mp hstarts, ← hagree]
  exact List.take_prefix _ _

/-! ## Strings -/

theorem takeWhile_terminated (htext : 0 ∉ text) (rest : List UInt8) :
    (text ++ 0 :: rest).takeWhile (· ≠ 0) = text := by
  have hne : ∀ b ∈ text, decide (b ≠ 0) = true := by
    intro b hb
    apply decide_eq_true
    rintro rfl
    exact htext hb
  rw [List.takeWhile_append_of_pos hne, List.takeWhile_cons_of_neg (by simp), List.append_nil]

/-- A string that ends with a NUL byte is read back. -/
theorem string_of_starts (hstarts : array.Starts (text ++ [0])) (htext : 0 ∉ text) :
    array.string = some text := by
  have hlength := hstarts.length_le
  obtain ⟨rest, hbytes⟩ := hstarts
  rw [List.append_assoc, List.singleton_append] at hbytes
  unfold string
  rw [← hbytes, takeWhile_terminated htext, if_pos]
  rw [List.length_append, List.length_singleton, array.length_bytes] at hlength
  omega

end CharArray

/-! ## Comparing -/

/-- Whether {lit}`strncmp` finds two strings equal in their first bytes; it stops at the end of
both, and it must not leave an array. -/
def strncmpEq : Nat → List UInt8 → List UInt8 → Option Bool
  | 0, _, _ => some true
  | count + 1, b :: s, c :: t =>
      if b ≠ c then some false else if b = 0 then some true else strncmpEq count s t
  | _ + 1, _, _ => none

/-- Comparing up to the end of a string looks for a prefix. -/
theorem strncmp_terminated {text : List UInt8} (htext : 0 ∉ text) (rest : List UInt8) :
    ∀ s : List UInt8, text.length ≤ s.length →
      strncmpEq text.length s (text ++ rest) = some (text.isPrefixOf s) := by
  induction text with
  | nil => intro s _; rfl
  | cons c text ih =>
      intro s hs
      rw [List.mem_cons, not_or] at htext
      obtain ⟨hc, htext⟩ := htext
      cases s with
      | nil => simp at hs
      | cons b s =>
          rw [List.length_cons, List.cons_append, strncmpEq]
          by_cases hbc : b = c
          · subst hbc
            rw [if_neg (by simp), if_neg (Ne.symm hc), ih htext s (Nat.le_of_succ_le_succ hs)]
            simp
          · have hcb : (c == b) = false := by simpa using Ne.symm hbc
            rw [if_pos hbc, List.isPrefixOf_cons_cons, hcb, Bool.false_and]

/-- A text without NUL bytes is a prefix of what ends with a NUL byte, or of none. -/
theorem isPrefixOf_terminated {text : List UInt8} (htext : 0 ∉ text) (path rest : List UInt8) :
    text.isPrefixOf (path ++ 0 :: rest) = text.isPrefixOf path := by
  induction text generalizing path with
  | nil => simp
  | cons c text ih =>
      rw [List.mem_cons, not_or] at htext
      cases path with
      | nil =>
          have hc : (c == 0) = false := by simpa using Ne.symm htext.1
          rw [List.nil_append, List.isPrefixOf_cons_cons, hc, Bool.false_and]
          rfl
      | cons b path =>
          rw [List.cons_append, List.isPrefixOf_cons_cons, List.isPrefixOf_cons_cons, ih htext.2]

end Library
end IdeMultiarch
