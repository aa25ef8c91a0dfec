import Mathlib.Data.List.Basic
import Mathlib.Tactic.Common

/-!
# Library - settings where the last one wins

A list of items of which some give a value to a key.  The value of a key is the one that the last
such item gives it, so that the sources of a configuration can be put one behind the other.

Main results:

- Theorem {lit}`valueOf_append`: what a later source gives takes precedence.
- Theorem {lit}`valueOf_filter`: items that give no values may be dropped.
-/

namespace IdeMultiarch
namespace Library
namespace Settings

variable {α κ ν : Type} [DecidableEq κ] (setting : α → Option (κ × ν))

/-- The value that an item gives to a key. -/
def given (key : κ) (item : α) : Option ν :=
  (setting item).bind fun (key', value) => if key' = key then some value else none

/-- The value of a key: the last item that gives it one decides. -/
def valueOf (key : κ) : List α → Option ν
  | [] => none
  | item :: items => (valueOf key items).or (given setting key item)

@[simp]
theorem valueOf_nil (key : κ) : valueOf setting key [] = none :=
  rfl

@[simp]
theorem valueOf_cons (key : κ) (item : α) (items : List α) :
    valueOf setting key (item :: items) =
      (valueOf setting key items).or (given setting key item) :=
  rfl

/-- What a later source gives takes precedence. -/
theorem valueOf_append (key : κ) (items items' : List α) :
    valueOf setting key (items ++ items') =
      (valueOf setting key items').or (valueOf setting key items) := by
  induction items with
  | nil => simp
  | cons item items ih => simp [ih, Option.or_assoc]

/-- Items may be changed before they are looked at. -/
theorem valueOf_map {β : Type} (change : β → α) (key : κ) (items : List β) :
    valueOf setting key (items.map change) =
      valueOf (fun item => setting (change item)) key items := by
  induction items with
  | nil => rfl
  | cons item items ih => simp [ih, given]

/-- Items that give no values do not matter. -/
theorem valueOf_eq_none (key : κ) {items : List α} (h : ∀ item ∈ items, setting item = none) :
    valueOf setting key items = none := by
  induction items with
  | nil => rfl
  | cons item items ih =>
      rw [valueOf_cons, ih fun item' hitem' => h item' (List.mem_cons_of_mem _ hitem')]
      simp [given, h item List.mem_cons_self]

/-- Items that give no values may be dropped. -/
theorem valueOf_filter (key : κ) {keep : α → Bool} {items : List α}
    (hdropped : ∀ item ∈ items, keep item = false → setting item = none) :
    valueOf setting key (items.filter keep) = valueOf setting key items := by
  induction items with
  | nil => rfl
  | cons item items ih =>
      have hrest := ih fun item' hitem' => hdropped item' (List.mem_cons_of_mem _ hitem')
      by_cases hkeep : keep item = true
      · rw [List.filter_cons_of_pos hkeep, valueOf_cons, valueOf_cons, hrest]
      · have hnone := hdropped item List.mem_cons_self (by simpa using hkeep)
        rw [List.filter_cons_of_neg hkeep, valueOf_cons, hrest]
        simp [given, hnone]

end Settings
end Library
end IdeMultiarch
