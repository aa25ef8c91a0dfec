import Mathlib.Data.List.Basic
import Mathlib.Tactic.Common

/-!
# Library - tables of descriptors

The open files of a process under their numbers, and which of these numbers are closed when the
process becomes another program.  A file is opened under the lowest number that is free; there is
always one, because only finitely many are taken.

Main results:

- Theorems {lit}`file_lowest` and {lit}`file_of_lt_lowest`: which number a file is opened under.
- Theorem {lit}`file_dup2`: what a copied descriptor refers to.
- Theorem {lit}`file_exec`: what another program gets.
- Theorem {lit}`file_closeAll`: what is left when some descriptors are closed.
-/

namespace IdeMultiarch
namespace Library

/-- The open files of a process, all of them under numbers below a bound, with the flag
{lit}`FD_CLOEXEC` of each number. -/
structure Descriptors (α : Type*) where
  file : Nat → Option α
  cloexec : Nat → Bool
  bound : Nat
  free : ∀ fd, bound ≤ fd → file fd = none

namespace Descriptors

variable {α : Type*}

/-- One number refers to something else, and has no flag. -/
def set (t : Descriptors α) (fd : Nat) (file : Option α) : Descriptors α where
  file i := if i = fd then file else t.file i
  cloexec i := if i = fd then false else t.cloexec i
  bound := max t.bound (fd + 1)
  free i hi := by
    rw [if_neg (by omega)]
    exact t.free i (by omega)

/-- The lowest number that is free. -/
def lowest (t : Descriptors α) : Nat :=
  ((List.range t.bound).find? fun fd => (t.file fd).isNone).getD t.bound

/-- A file is opened under the lowest number that is free. -/
def opens (t : Descriptors α) (file : α) : Nat × Descriptors α :=
  (t.lowest, t.set t.lowest (some file))

def close (t : Descriptors α) (fd : Nat) : Descriptors α :=
  t.set fd none

/-- A number refers to what another one does, if that is open.  The copy has no flag, but nothing
happens to a number that is its own copy. -/
def dup2 (t : Descriptors α) (oldfd newfd : Nat) : Descriptors α :=
  match t.file oldfd with
  | some file => if oldfd = newfd then t else t.set newfd (some file)
  | none => t

/-- Some descriptors are closed, one after the other. -/
def closeAll (t : Descriptors α) (fds : List Nat) : Descriptors α :=
  fds.foldl close t

/-- All numbers from one on are closed. -/
def closeFrom (t : Descriptors α) (first : Nat) : Descriptors α where
  file i := if first ≤ i then none else t.file i
  cloexec := t.cloexec
  bound := t.bound
  free i hi := by
    split
    · rfl
    · exact t.free i hi

/-- The process becomes another program. -/
def exec (t : Descriptors α) : Descriptors α where
  file i := if t.cloexec i then none else t.file i
  cloexec := t.cloexec
  bound := t.bound
  free i hi := by
    split
    · rfl
    · exact t.free i hi

/-- The numbers that are taken. -/
def taken (t : Descriptors α) : List Nat :=
  (List.range t.bound).filter fun fd => (t.file fd).isSome

variable {t : Descriptors α} {fd i oldfd newfd first : Nat}

/-- What another program gets. -/
theorem file_exec (t : Descriptors α) (i : Nat) :
    t.exec.file i = if t.cloexec i then none else t.file i :=
  rfl

theorem cloexec_set (t : Descriptors α) (fd : Nat) (file : Option α) (i : Nat) :
    (t.set fd file).cloexec i = if i = fd then false else t.cloexec i :=
  rfl

theorem file_set (t : Descriptors α) (fd : Nat) (file : Option α) (i : Nat) :
    (t.set fd file).file i = if i = fd then file else t.file i :=
  rfl

@[simp]
theorem file_close (t : Descriptors α) (fd i : Nat) :
    (t.close fd).file i = if i = fd then none else t.file i :=
  rfl

@[simp]
theorem file_closeFrom (t : Descriptors α) (first i : Nat) :
    (t.closeFrom first).file i = if first ≤ i then none else t.file i :=
  rfl

/-- A number below the lowest free one is taken. -/
theorem file_of_lt_lowest (h : fd < t.lowest) : t.file fd ≠ none := by
  intro hfree
  unfold lowest at h
  cases hfind : (List.range t.bound).find? fun fd => (t.file fd).isNone with
  | none =>
      rw [hfind] at h
      have hall := List.find?_eq_none.mp hfind fd (List.mem_range.mpr h)
      rw [hfree] at hall
      exact hall rfl
  | some first =>
      rw [hfind] at h
      obtain ⟨-, l, l', hsplit, hbefore⟩ := List.find?_eq_some_iff_append.mp hfind
      have hmem : fd ∈ l := by
        have hsorted : (List.range t.bound).Pairwise (· < ·) := List.pairwise_lt_range
        have hrange : fd ∈ List.range t.bound := by
          have hfirst : first ∈ List.range t.bound := by
            rw [hsplit]
            simp
          exact List.mem_range.mpr (Nat.lt_trans h (List.mem_range.mp hfirst))
        rw [hsplit, List.pairwise_append] at hsorted
        rw [hsplit, List.mem_append, List.mem_cons] at hrange
        rcases hrange with hmem | rfl | hlater
        · exact hmem
        · exact absurd h (Nat.lt_irrefl _)
        · have hlt := (List.pairwise_cons.mp hsorted.2.1).1 fd hlater
          exact absurd h (Nat.lt_asymm hlt)
      have hnot := hbefore fd hmem
      rw [hfree] at hnot
      cases hnot

/-- The lowest free number is free. -/
@[simp]
theorem file_lowest (t : Descriptors α) : t.file t.lowest = none := by
  unfold lowest
  cases hfind : (List.range t.bound).find? fun fd => (t.file fd).isNone with
  | none => exact t.free _ (Nat.le_refl _)
  | some first =>
      have hnone := List.find?_some hfind
      exact Option.isNone_iff_eq_none.mp hnone

theorem lowest_ne (h : t.file fd ≠ none) : t.lowest ≠ fd := by
  rintro rfl
  exact h t.file_lowest

/-- What a copied descriptor refers to. -/
theorem file_dup2 {file : α} (h : t.file oldfd = some file) (i : Nat) :
    (t.dup2 oldfd newfd).file i = if i = newfd then some file else t.file i := by
  unfold dup2
  rw [h]
  dsimp only
  by_cases hsame : oldfd = newfd
  · rw [if_pos hsame]
    split
    next hi => rw [hi, ← hsame, h]
    next => rfl
  · rw [if_neg hsame, file_set]

/-- The flag of a copied descriptor. -/
theorem cloexec_dup2 {file : α} (h : t.file oldfd = some file) (i : Nat) :
    (t.dup2 oldfd newfd).cloexec i =
      if i = newfd ∧ oldfd ≠ newfd then false else t.cloexec i := by
  unfold dup2
  rw [h]
  dsimp only
  by_cases hsame : oldfd = newfd
  · simp [hsame]
  · rw [if_neg hsame, cloexec_set]
    simp [hsame]

/-- What is left when some descriptors are closed. -/
theorem file_closeAll (t : Descriptors α) (fds : List Nat) (i : Nat) :
    (t.closeAll fds).file i = if i ∈ fds then none else t.file i := by
  induction fds generalizing t with
  | nil => simp [closeAll]
  | cons fd fds ih =>
      have hcons : t.closeAll (fd :: fds) = (t.close fd).closeAll fds := rfl
      rw [hcons, ih, file_close]
      by_cases hmem : i ∈ fds
      · rw [if_pos hmem, if_pos (List.mem_cons_of_mem fd hmem)]
      · rw [if_neg hmem]
        by_cases heq : i = fd
        · rw [if_pos heq, if_pos (heq ▸ List.mem_cons_self)]
        · rw [if_neg heq, if_neg (by simp [heq, hmem])]

/-- What stays open keeps its flag when some descriptors are closed. -/
theorem cloexec_closeAll (t : Descriptors α) (fds : List Nat) (i : Nat) (h : i ∉ fds) :
    (t.closeAll fds).cloexec i = t.cloexec i := by
  induction fds generalizing t with
  | nil => rfl
  | cons fd fds ih =>
      have hne : i ≠ fd := fun heq => h (heq ▸ List.mem_cons_self)
      have hrest : i ∉ fds := fun hmem => h (List.mem_cons_of_mem fd hmem)
      have hcons : t.closeAll (fd :: fds) = (t.close fd).closeAll fds := rfl
      rw [hcons, ih _ hrest, close, cloexec_set, if_neg hne]

theorem mem_taken : fd ∈ t.taken ↔ t.file fd ≠ none := by
  unfold taken
  rw [List.mem_filter, List.mem_range, Option.isSome_iff_ne_none]
  constructor
  · rintro ⟨-, hopen⟩
    exact hopen
  · intro hopen
    refine ⟨?_, hopen⟩
    by_contra hbound
    exact hopen (t.free fd (Nat.le_of_not_lt hbound))

end Descriptors
end Library
end IdeMultiarch
