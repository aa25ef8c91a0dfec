import Mathlib.Data.List.Infix
import Mathlib.Tactic.Common

/-!
# Library - replacing parts of a text

Texts are lists.  Every occurrence of a pattern is replaced, from the first to the last, and
what was put in is not looked at again.

Main results:

- Theorem {lit}`replace_append`: a front without the first element of the pattern stays as it is.
- Theorem {lit}`replace_front`: an occurrence at the front is replaced.
- Theorem {lit}`splitOnce_append`: a text is split at the first occurrence of an element.
- Theorem {lit}`splitOnce_eq_some`: where a text is split at a pattern.
- Theorem {lit}`toNat_of_mem_utf8EncodeChar`: the bytes of ASCII are in no other characters.
-/

namespace IdeMultiarch
namespace Library
namespace Text

variable {α : Type} [DecidableEq α]

/-- Replace a pattern after some elements that belong to an occurrence already replaced. -/
def replaceFrom (pattern new : List α) : Nat → List α → List α
  | _, [] => []
  | skipped + 1, _ :: text => replaceFrom pattern new skipped text
  | 0, a :: text =>
      if pattern.isPrefixOf (a :: text) then
        new ++ replaceFrom pattern new (pattern.length - 1) text
      else a :: replaceFrom pattern new 0 text

/-- Replace a pattern, which is not empty. -/
def replace (pattern new text : List α) : List α :=
  replaceFrom pattern new 0 text

/-- The parts before and after the first occurrence of a pattern. -/
def splitOnce (pattern : List α) : List α → Option (List α × List α)
  | [] => if pattern = [] then some ([], []) else none
  | a :: text =>
      if pattern.isPrefixOf (a :: text) then some ([], (a :: text).drop pattern.length)
      else (splitOnce pattern text).map fun (before, after) => (a :: before, after)

/-- The parts before and after the last occurrence of an element. -/
def rsplitOnce (a : α) (text : List α) : Option (List α × List α) :=
  (splitOnce [a] text.reverse).map fun (after, before) => (before.reverse, after.reverse)

/-- A text with another first element does not start with the pattern. -/
theorem isPrefixOf_of_ne {a b : α} {pattern text : List α} (hne : a ≠ b) :
    (a :: pattern).isPrefixOf (b :: text) = false := by
  simp [List.isPrefixOf, hne]

/-- A front without the first element of the pattern stays as it is. -/
theorem replace_append {a : α} (pattern new : List α) {front : List α} (hfront : a ∉ front)
    (text : List α) :
    replace (a :: pattern) new (front ++ text) = front ++ replace (a :: pattern) new text := by
  induction front with
  | nil => rfl
  | cons b front ih =>
      have hne : a ≠ b := fun h => hfront (h ▸ List.mem_cons_self)
      have hrest := ih (fun h => hfront (List.mem_cons_of_mem _ h))
      unfold replace at hrest ⊢
      rw [List.cons_append, replaceFrom, isPrefixOf_of_ne hne, if_neg Bool.false_ne_true, hrest,
        List.cons_append]

/-- What is behind an occurrence that was replaced. -/
theorem replaceFrom_eq_drop (pattern new : List α) (skipped : Nat) (text : List α) :
    replaceFrom pattern new skipped text = replace pattern new (text.drop skipped) := by
  induction skipped generalizing text with
  | zero => rfl
  | succ skipped ih =>
      cases text with
      | nil => rfl
      | cons a text => exact ih text

/-- An occurrence at the front is replaced. -/
theorem replace_front (a : α) (pattern new text : List α) :
    replace (a :: pattern) new (a :: pattern ++ text) = new ++ replace (a :: pattern) new text := by
  have hstands : (a :: pattern).isPrefixOf (a :: (pattern ++ text)) = true :=
    List.isPrefixOf_iff_prefix.mpr ⟨text, rfl⟩
  rw [List.cons_append, replace, replaceFrom, if_pos hstands, List.length_cons, Nat.add_sub_cancel,
    replaceFrom_eq_drop, List.drop_left]

/-- Where the pattern does not stand, the text stays as it is. -/
theorem replace_cons {pattern text : List α} {a : α} (h : ¬ pattern <+: a :: text) (new : List α) :
    replace pattern new (a :: text) = a :: replace pattern new text := by
  rw [replace, replaceFrom, if_neg (fun hpre => h (List.isPrefixOf_iff_prefix.mp hpre)), replace]

/-! ## Counting occurrences -/

/-- The number of places where a pattern stands. -/
def occurrences (pattern text : List α) : Nat :=
  text.tails.countP fun tail => pattern.isPrefixOf tail

theorem occurrences_cons (pattern : List α) (a : α) (text : List α) :
    occurrences pattern (a :: text) =
      (if pattern <+: a :: text then 1 else 0) + occurrences pattern text := by
  rw [occurrences, List.tails, List.countP_cons, occurrences, Nat.add_comm]
  simp only [List.isPrefixOf_iff_prefix]

/-- A front without the first element of the pattern has no occurrence. -/
theorem occurrences_append {a : α} (pattern : List α) {front : List α} (hfront : a ∉ front)
    (text : List α) : occurrences (a :: pattern) (front ++ text) = occurrences (a :: pattern) text := by
  induction front with
  | nil => rfl
  | cons b front ih =>
      have hne : a ≠ b := fun h => hfront (h ▸ List.mem_cons_self)
      have hnot : ¬ a :: pattern <+: b :: (front ++ text) := by
        rw [List.cons_prefix_cons]
        exact fun h => hne h.1
      rw [List.cons_append, occurrences_cons, if_neg hnot, Nat.zero_add,
        ih (fun h => hfront (List.mem_cons_of_mem _ h))]

/-- An occurrence at the front is counted once. -/
theorem occurrences_front {a : α} {pattern : List α} (ha : a ∉ pattern) (text : List α) :
    occurrences (a :: pattern) (a :: pattern ++ text) = occurrences (a :: pattern) text + 1 := by
  have hstands : a :: pattern <+: a :: (pattern ++ text) := ⟨text, rfl⟩
  rw [List.cons_append, occurrences_cons, if_pos hstands, occurrences_append pattern ha, Nat.add_comm]

/-! ## Splitting -/

/-- The first occurrence of an element is behind a part without it. -/
theorem splitOnce_append {a : α} {before : List α} (hbefore : a ∉ before) (after : List α) :
    splitOnce [a] (before ++ a :: after) = some (before, after) := by
  induction before with
  | nil => simp [splitOnce, List.isPrefixOf]
  | cons b before ih =>
      have hne : a ≠ b := fun h => hbefore (h ▸ List.mem_cons_self)
      have hrest := ih (fun h => hbefore (List.mem_cons_of_mem _ h))
      rw [List.cons_append, splitOnce, isPrefixOf_of_ne hne, if_neg Bool.false_ne_true, hrest]
      rfl

/-- The last occurrence of an element is in front of a part without it. -/
theorem rsplitOnce_append {a : α} (before : List α) {after : List α} (hafter : a ∉ after) :
    rsplitOnce a (before ++ a :: after) = some (before, after) := by
  have hreverse : (before ++ a :: after).reverse = after.reverse ++ a :: before.reverse := by simp
  rw [rsplitOnce, hreverse, splitOnce_append (by simpa using hafter)]
  simp

/-- A text is split at the first place where the whole pattern stands: no part of the pattern and what
is in front of it is the pattern. -/
theorem splitOnce_eq_some {pattern text before after : List α} (hpattern : pattern ≠ []) :
    splitOnce pattern text = some (before, after) ↔
      text = before ++ (pattern ++ after) ∧ ¬ pattern <:+: before ++ pattern.dropLast := by
  have hshort : ¬ pattern <:+: pattern.dropLast := by
    intro h
    have hle := h.length_le
    have hpos := List.length_pos_iff.mpr hpattern
    rw [List.length_dropLast] at hle
    omega
  induction text generalizing before with
  | nil =>
      rw [splitOnce, if_neg hpattern]
      simp [hpattern]
  | cons a text ih =>
      rw [splitOnce]
      by_cases hfirst : pattern <+: a :: text
      · obtain ⟨rest, hrest⟩ := hfirst
        rw [if_pos (List.isPrefixOf_iff_prefix.mpr ⟨rest, hrest⟩)]
        constructor
        · intro h
          cases h
          refine ⟨?_, hshort⟩
          rw [← hrest, List.drop_left, List.nil_append]
        · rintro ⟨htext, hnone⟩
          cases before with
          | nil =>
              rw [htext, List.nil_append, List.drop_left]
          | cons b before =>
              -- the pattern at the front would stand earlier
              refine absurd ?_ hnone
              have hlong : pattern.length ≤ (b :: before ++ pattern.dropLast).length := by
                rw [List.length_append, List.length_cons, List.length_dropLast]
                omega
              have hfront : b :: before ++ pattern.dropLast <+: a :: text := by
                rw [htext]
                refine (List.prefix_append_right_inj _).mpr ?_
                exact (List.dropLast_prefix pattern).trans (List.prefix_append _ _)
              exact (List.prefix_of_prefix_length_le ⟨rest, hrest⟩ hfront hlong).isInfix
      · rw [if_neg (fun h => hfirst (List.isPrefixOf_iff_prefix.mp h)), Option.map_eq_some_iff]
        constructor
        · rintro ⟨⟨before', after'⟩, hsplit, hpair⟩
          cases hpair
          obtain ⟨rfl, hnone⟩ := ih.mp hsplit
          refine ⟨rfl, ?_⟩
          rw [List.cons_append, List.infix_cons_iff, not_or]
          refine ⟨fun hstands => hfirst (hstands.trans ?_), hnone⟩
          refine (List.prefix_cons_inj a).mpr ((List.prefix_append_right_inj _).mpr ?_)
          exact (List.dropLast_prefix pattern).trans (List.prefix_append _ _)
        · rintro ⟨htext, hnone⟩
          cases before with
          | nil => exact absurd ⟨after, htext.symm⟩ hfirst
          | cons b before =>
              obtain ⟨rfl, rfl⟩ := List.cons_eq_cons.mp htext
              refine ⟨(before, after), ih.mpr ⟨rfl, fun h => hnone ?_⟩, rfl⟩
              rw [List.cons_append]
              exact List.infix_cons h

/-- A text is not split if the pattern stands nowhere. -/
theorem splitOnce_eq_none {pattern text : List α} (hpattern : pattern ≠ []) :
    splitOnce pattern text = none ↔ ¬ pattern <:+: text := by
  induction text with
  | nil =>
      rw [splitOnce, if_neg hpattern]
      simp [hpattern]
  | cons a text ih =>
      rw [splitOnce, List.infix_cons_iff, not_or, ← ih]
      by_cases hfirst : pattern <+: a :: text
      · rw [if_pos (List.isPrefixOf_iff_prefix.mpr hfirst)]
        simp [hfirst]
      · rw [if_neg (fun h => hfirst (List.isPrefixOf_iff_prefix.mp h)), Option.map_eq_none_iff]
        simp [hfirst]

/-! ## The bytes of a character -/

/-- A byte of ASCII is in the bytes of its own character only. -/
theorem toNat_of_mem_utf8EncodeChar {byte : UInt8} {c : Char} (hbyte : byte.toNat < 128)
    (h : byte ∈ String.utf8EncodeChar c) : c.toNat = byte.toNat := by
  have hmod : ∀ n : Nat, byte = UInt8.ofNat n → n % 256 = byte.toNat := by
    rintro n rfl
    exact UInt8.toNat_ofNat'.symm
  -- the bytes of a longer code have their highest bit set
  have hhigh : ∀ n : Nat, 128 ≤ n → n < 256 → byte ≠ UInt8.ofNat n := by
    intro n hn hsmall heq
    have hn' := hmod n heq
    omega
  unfold String.utf8EncodeChar at h
  dsimp only at h
  split_ifs at h with hone htwo hthree
  · have hval := hmod _ (List.mem_singleton.mp h)
    have hsmall : c.val.toNat % 256 = c.val.toNat := Nat.mod_eq_of_lt (by omega)
    exact hsmall.symm.trans hval
  all_goals
    simp only [List.mem_cons, List.not_mem_nil, or_false] at h
    contrapose! h
    exact ⟨hhigh _ (by omega) (by omega), by grind⟩

end Text
end Library
end IdeMultiarch
