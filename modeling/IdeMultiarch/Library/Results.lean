import Mathlib.Data.List.Basic
import Mathlib.Tactic.Common

/-!
# Library - computations that may fail

Main results:

- Theorem {lit}`bind_eq_ok`: a sequence of two steps succeeds when both do.
- Theorem {lit}`exists_of_succeeds`: a computation that was seen to succeed has a result.
- Theorem {lit}`eq_ok_of_head?`: a list with a first item was returned, not an error.
- Theorem {lit}`exists_map_some_cons`: a list of values that are all there, item by item.
-/

namespace IdeMultiarch
namespace Library
namespace Results

variable {ε α β : Type}

/-- A sequence of two steps succeeds when both do. -/
theorem bind_eq_ok {x : Except ε α} {f : α → Except ε β} {r : β} :
    (x >>= f) = .ok r ↔ ∃ a, x = .ok a ∧ f a = .ok r := by
  cases x with
  | error failure =>
      constructor
      · intro h
        cases h
      · rintro ⟨a, ha, -⟩
        cases ha
  | ok a =>
      constructor
      · intro h
        exact ⟨a, rfl, h⟩
      · rintro ⟨a', ha', h⟩
        cases ha'
        exact h

/-- Whether a computation returns a result that passes a test. -/
def succeeds (r : Except ε α) (test : α → Bool) : Bool :=
  match r with
  | .ok a => test a
  | .error _ => false

/-- A computation that was seen to succeed has a result. -/
theorem exists_of_succeeds {r : Except ε α} {test : α → Bool} (h : succeeds r test = true) :
    ∃ a, r = .ok a ∧ test a = true := by
  cases r with
  | error e => contradiction
  | ok a => exact ⟨a, rfl, h⟩

/-- A list with a first item was returned, not an error. -/
theorem eq_ok_of_head? {r : Except ε (List α)} {x : α}
    (h : (r.toOption.getD []).head? = some x) : ∃ xs, r = .ok (x :: xs) := by
  cases r with
  | error e => simp [Except.toOption] at h
  | ok l =>
      obtain ⟨xs, hxs⟩ := List.head?_eq_some_iff.mp h
      exact ⟨xs, congrArg Except.ok hxs⟩

/-- A list of values that are all there begins with one. -/
theorem exists_map_some_cons {a : α} {entries : List (Option α)} {P : List α → Prop} :
    (∃ values, some a :: entries = values.map some ∧ P values) ↔
      ∃ values, entries = values.map some ∧ P (a :: values) := by
  constructor
  · rintro ⟨values, hvalues, hP⟩
    cases values with
    | nil => cases hvalues
    | cons first values =>
        obtain ⟨hfirst, hrest⟩ := List.cons.inj hvalues
        cases hfirst
        exact ⟨values, hrest, hP⟩
  · rintro ⟨values, rfl, hP⟩
    exact ⟨a :: values, rfl, hP⟩

/-- A list of values that are all there begins with no gap. -/
theorem not_exists_map_some_none {entries : List (Option α)} {P : List α → Prop} :
    ¬ ∃ values, none :: entries = values.map some ∧ P values := by
  rintro ⟨values, hvalues, -⟩
  cases values <;> cases hvalues

end Results
end Library
end IdeMultiarch
