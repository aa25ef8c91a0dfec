import Mathlib.Logic.Function.Basic
import Mathlib.Data.List.Basic
import Mathlib.Tactic.Common

/-!
# fsnotifier - util.c

Byte strings, the watch table, line reading and path comparison, as in
{lit}`native/fsNotifier/util.c`.  A C string is the list of its bytes without the
final NUL.  The variable-length {lit}`array` of the source is a Lean list throughout.

Main results:

- Theorems {lit}`Table.put_some_free` and {lit}`Table.put_none`: what filling a free
  slot and clearing a slot do.
- Theorem {lit}`isParentPath_iff`: the path comparison, in terms of prefixes.
-/

namespace IdeMultiarch
namespace FsNotifier

/-! ## Byte strings -/

/-- The bytes of a C string, or of an input stream. -/
abbrev Bytes := List UInt8

/-- The bytes of a string literal of the source. -/
def cstr (s : String) : Bytes :=
  s.toList.map fun c => UInt8.ofNat c.toNat

/-- {lit}`'/'` -/
def slash : UInt8 := 47

/-- {lit}`'|'` -/
def pipe : UInt8 := 124

/-- {lit}`'\n'` -/
def newline : UInt8 := 10

/-! ## Poor man's hash table -/

/-- {lit}`struct table_str`: one slot for each residue of the key.  The capacity is
the watch limit read at start, which {lit}`init_inotify` insists is positive.  A slot
holds the address of a watch node. -/
structure Table where
  capacity : Nat
  capacity_pos : 0 < capacity
  data : Nat → Option Nat

namespace Table

/-- {lit}`table_create` -/
def create (capacity : Nat) (h : 0 < capacity) : Table where
  capacity := capacity
  capacity_pos := h
  data := fun _ => none

/-- {lit}`wrap`: the C remainder, which is negative for a negative key unless the
capacity divides it. -/
def wrap (key : Int) (t : Table) : Int :=
  key.tmod t.capacity

/-- {lit}`table_put`: an occupied slot is not overwritten, only cleared.  The first
component is the returned pointer. -/
def put (t : Table) (key : Int) (value : Option Nat) : Option Nat × Table :=
  let k := wrap key t
  if k < 0 ∨ (value ≠ none ∧ t.data k.toNat ≠ none) then (none, t)
  else (value, { t with data := Function.update t.data k.toNat value })

/-- {lit}`table_get` -/
def get (t : Table) (key : Int) : Option Nat :=
  let k := wrap key t
  if k < 0 then none else t.data k.toNat

/-- A watch descriptor that the kernel handed out wraps to its residue. -/
@[simp]
theorem wrap_natCast (wd : Nat) (t : Table) :
    wrap (wd : Int) t = ((wd % t.capacity : Nat) : Int) := by
  simp [wrap, Int.tmod]

/-- Looking up a watch descriptor reads the slot of its residue. -/
theorem get_natCast (wd : Nat) (t : Table) :
    t.get (wd : Int) = t.data (wd % t.capacity) := by
  have hnonneg : ¬ ((wd % t.capacity : Nat) : Int) < 0 := by omega
  simp only [get, wrap_natCast, if_neg hnonneg, Int.toNat_natCast]

/-- Storing under a descriptor whose slot is free fills that slot. -/
theorem put_some_free {wd : Nat} {t : Table} (a : Nat) (hfree : t.get wd = none) :
    t.put wd (some a) =
      (some a, { t with data := Function.update t.data (wd % t.capacity) (some a) }) := by
  rw [get_natCast] at hfree
  have hcond : ¬ (((wd % t.capacity : Nat) : Int) < 0 ∨
      (some a ≠ none ∧ t.data (wd % t.capacity) ≠ none)) := by
    rintro (hneg | ⟨_, hfull⟩)
    · omega
    · exact hfull hfree
  simp only [put, wrap_natCast, Int.toNat_natCast, if_neg hcond]

/-- Clearing a descriptor's slot always succeeds. -/
theorem put_none (wd : Nat) (t : Table) :
    t.put wd none =
      (none, { t with data := Function.update t.data (wd % t.capacity) none }) := by
  have hcond : ¬ (((wd % t.capacity : Nat) : Int) < 0 ∨
      ((none : Option Nat) ≠ none ∧ t.data (wd % t.capacity) ≠ none)) := by
    rintro (hneg | ⟨hnone, _⟩)
    · omega
    · exact hnone rfl
  simp only [put, wrap_natCast, Int.toNat_natCast, if_neg hcond]

/-- Whatever is stored or cleared, the capacity stays. -/
@[simp]
theorem put_capacity (t : Table) (key : Int) (value : Option Nat) :
    (t.put key value).2.capacity = t.capacity := by
  unfold put
  dsimp only
  split <;> rfl

end Table

/-! ## Path comparison -/

/-- {lit}`is_parent_path`: the parent path is a prefix, and the child path ends there
or goes on with a slash. -/
def isParentPath (parentPath childPath : Bytes) : Bool :=
  parentPath.isPrefixOf childPath &&
    (parentPath.length == childPath.length || childPath[parentPath.length]? == some slash)

/-- The comparison accepts a path itself and what follows it after a slash. -/
theorem isParentPath_iff (p c : Bytes) :
    isParentPath p c = true ↔ c = p ∨ ∃ rest, c = p ++ slash :: rest := by
  simp only [isParentPath, Bool.and_eq_true, List.isPrefixOf_iff_prefix, Bool.or_eq_true,
    beq_iff_eq]
  constructor
  · rintro ⟨⟨rest, rfl⟩, hlen | hsep⟩
    · left
      have hrest : rest = [] := List.eq_nil_of_length_eq_zero (by simpa using hlen.symm)
      simp [hrest]
    · right
      rw [List.getElem?_append_right (Nat.le_refl _), Nat.sub_self] at hsep
      cases rest with
      | nil => simp at hsep
      | cons b rest =>
          have hb : b = slash := by simpa using hsep
          exact ⟨rest, by rw [hb]⟩
  · rintro (rfl | ⟨rest, rfl⟩)
    · simp
    · simp

theorem isParentPath_refl (p : Bytes) : isParentPath p p = true :=
  (isParentPath_iff p p).mpr (Or.inl rfl)

/-- What lies below a path below a path lies below it. -/
theorem isParentPath_trans {p q r : Bytes} (hpq : isParentPath p q = true)
    (hqr : isParentPath q r = true) : isParentPath p r = true := by
  rw [isParentPath_iff] at *
  rcases hqr with rfl | ⟨rest, rfl⟩
  · exact hpq
  · right
    rcases hpq with rfl | ⟨rest', rfl⟩
    · exact ⟨rest, rfl⟩
    · exact ⟨rest' ++ slash :: rest, by simp⟩

/-- An entry of a directory lies below whatever the directory lies below. -/
theorem isParentPath_entry {p q : Bytes} (name : Bytes) (h : isParentPath p q = true) :
    isParentPath p (q ++ slash :: name) = true :=
  isParentPath_trans h ((isParentPath_iff _ _).mpr (Or.inr ⟨name, rfl⟩))

/-- Of two paths above a third one, one is above the other. -/
theorem isParentPath_total {p q r : Bytes} (hp : isParentPath p r = true)
    (hq : isParentPath q r = true) : isParentPath p q = true ∨ isParentPath q p = true := by
  have key : ∀ {p q : Bytes}, isParentPath p r = true → isParentPath q r = true →
      p.length ≤ q.length → isParentPath p q = true := by
    intro p q hp hq hlen
    have hpr : p <+: r := by
      rcases (isParentPath_iff _ _).mp hp with rfl | ⟨rest, rfl⟩
      · exact List.prefix_rfl
      · exact List.prefix_append _ _
    have hqr : q <+: r := by
      rcases (isParentPath_iff _ _).mp hq with rfl | ⟨rest, rfl⟩
      · exact List.prefix_rfl
      · exact List.prefix_append _ _
    obtain ⟨t, rfl⟩ := List.prefix_of_prefix_length_le hpr hqr hlen
    rw [isParentPath_iff]
    cases t with
    | nil => exact Or.inl (by simp)
    | cons b t =>
        right
        rcases (isParentPath_iff _ _).mp hp with rfl | ⟨rest, rfl⟩
        · have hle := hqr.length_le
          simp only [List.length_append, List.length_cons] at hle
          omega
        · obtain ⟨u, hu⟩ := hqr
          have hb : b = slash := by
            rw [List.append_assoc] at hu
            exact (List.cons.inj (List.append_cancel_left hu)).1
          exact ⟨t, by rw [hb]⟩
  rcases Nat.le_total p.length q.length with hlen | hlen
  · exact Or.inl (key hp hq hlen)
  · exact Or.inr (key hq hp hlen)

end FsNotifier
end IdeMultiarch
