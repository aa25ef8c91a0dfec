import Mathlib.Data.List.Induction
import IdeMultiarch.FsNotifier.Util

/-!
# fsnotifier - directory paths

A directory is named by the list of names on the way to it; the notifier spells such a
path with a slash before every name.  For names without slashes the spelling determines
the path, and {lit}`is_parent_path` on spellings is the prefix order on paths.

Main results:

- Theorem {lit}`render_injective`: different paths are spelled differently.
- Theorem {lit}`isParentPath_render`: one path is below another if it extends it.
-/

namespace IdeMultiarch
namespace FsNotifier

/-- The names on the way from the root directory to a directory. -/
abbrev Path := List Bytes

/-- The path as the notifier spells it; the root directory itself is spelled empty. -/
def render (path : Path) : Bytes :=
  path.flatMap fun name => slash :: name

/-- A name a directory may have. -/
def validName (name : Bytes) : Bool :=
  name != [] && name != cstr "." && name != cstr ".." && !name.contains slash && !name.contains 0

/-- A path all of whose names a directory may have. -/
def ValidPath (path : Path) : Prop :=
  ∀ name ∈ path, validName name = true

instance (path : Path) : Decidable (ValidPath path) := by
  unfold ValidPath
  infer_instance

/-! ## Names -/

theorem not_slash_of_validName {name : Bytes} (h : validName name = true) : slash ∉ name := by
  simp only [validName, Bool.and_eq_true, Bool.not_eq_true', List.contains_eq_mem,
    decide_eq_false_iff_not] at h
  exact h.1.2

theorem ne_nil_of_validName {name : Bytes} (h : validName name = true) : name ≠ [] := by
  simp only [validName, Bool.and_eq_true, bne_iff_ne] at h
  exact h.1.1.1.1

theorem ne_dot_of_validName {name : Bytes} (h : validName name = true) :
    name ≠ cstr "." ∧ name ≠ cstr ".." := by
  simp only [validName, Bool.and_eq_true, bne_iff_ne] at h
  exact ⟨h.1.1.1.2, h.1.1.2⟩

theorem ValidPath.tail {name : Bytes} {path : Path} (h : ValidPath (name :: path)) :
    ValidPath path :=
  fun n hn => h n (List.mem_cons_of_mem _ hn)

/-! ## Spelling -/

@[simp]
theorem render_nil : render [] = [] :=
  rfl

theorem render_cons (name : Bytes) (path : Path) :
    render (name :: path) = slash :: (name ++ render path) :=
  rfl

theorem render_append (p q : Path) : render (p ++ q) = render p ++ render q :=
  List.flatMap_append

/-- The spelling of an entry of a directory. -/
theorem render_snoc (path : Path) (name : Bytes) :
    render (path ++ [name]) = render path ++ slash :: name := by
  rw [render_append, render_cons, render_nil, List.append_nil]

/-- A spelling does not end with a slash. -/
theorem render_getLast?_ne {path : Path} (h : ValidPath path) :
    (render path).getLast? ≠ some slash := by
  induction path using List.reverseRecOn with
  | nil => simp
  | append_singleton path name _ =>
      have hname : validName name = true := h name (by simp)
      rw [render_snoc]
      cases name with
      | nil => exact absurd rfl (ne_nil_of_validName hname)
      | cons b name =>
          rw [List.getLast?_append, List.getLast?_cons_cons]
          intro hl
          have hmem : slash ∈ b :: name := List.mem_of_getLast? (by
            cases hg : (b :: name).getLast? with
            | none => simp at hg
            | some c => rw [hg] at hl; simpa using hl)
          exact not_slash_of_validName hname hmem

/-- What follows a name in a spelling: nothing, or a slash and more. -/
def SlashFirst (l : Bytes) : Prop :=
  l = [] ∨ ∃ rest, l = slash :: rest

theorem slashFirst_render (path : Path) : SlashFirst (render path) := by
  cases path with
  | nil => exact Or.inl rfl
  | cons name path => exact Or.inr ⟨_, rfl⟩

/-- A name without slashes ends where the next slash stands. -/
theorem name_append_inj {m n r s : Bytes} (hm : slash ∉ m) (hn : slash ∉ n)
    (hr : SlashFirst r) (hs : SlashFirst s) (h : m ++ r = n ++ s) : m = n ∧ r = s := by
  induction m generalizing n with
  | nil =>
      cases n with
      | nil => exact ⟨rfl, h⟩
      | cons b n =>
          exfalso
          rcases hr with rfl | ⟨r', rfl⟩
          · simp at h
          · have hb : slash = b := by simpa using (List.cons.inj h).1
            exact hn (by simp [hb])
  | cons b m ih =>
      cases n with
      | nil =>
          exfalso
          rcases hs with rfl | ⟨s', rfl⟩
          · simp at h
          · have hb : b = slash := by simpa using (List.cons.inj h).1
            exact hm (by simp [hb])
      | cons c n =>
          obtain ⟨rfl, htail⟩ := List.cons.inj h
          obtain ⟨rfl, rfl⟩ := ih (fun hmem => hm (List.mem_cons_of_mem _ hmem))
            (fun hmem => hn (List.mem_cons_of_mem _ hmem)) htail
          exact ⟨rfl, rfl⟩

/-- A spelling that goes on with nothing or with a slash extends the path itself. -/
theorem prefix_of_render {p : Path} (hp : ValidPath p) {q : Path} (hq : ValidPath q)
    {rest : Bytes} (hrest : SlashFirst rest) (h : render q = render p ++ rest) :
    ∃ tail, q = p ++ tail ∧ rest = render tail := by
  induction p generalizing q with
  | nil => exact ⟨q, rfl, h.symm⟩
  | cons name p ih =>
      cases q with
      | nil => simp [render_cons] at h
      | cons name' q =>
          rw [render_cons, render_cons, List.cons_append, List.append_assoc] at h
          have htail : SlashFirst (render p ++ rest) := by
            rcases slashFirst_render p with hp' | ⟨r, hp'⟩
            · rw [hp', List.nil_append]
              exact hrest
            · rw [hp']
              exact Or.inr ⟨_, rfl⟩
          obtain ⟨rfl, hmore⟩ := name_append_inj (not_slash_of_validName (hq name' (by simp)))
            (not_slash_of_validName (hp name (by simp))) (slashFirst_render q) htail (List.cons.inj h).2
          obtain ⟨tail, rfl, hr⟩ := ih hp.tail hq.tail hmore
          exact ⟨tail, rfl, hr⟩

/-- Different paths are spelled differently. -/
theorem render_injective {p q : Path} (hp : ValidPath p) (hq : ValidPath q)
    (h : render p = render q) : p = q := by
  obtain ⟨tail, rfl, hnil⟩ := prefix_of_render hp hq (Or.inl rfl)
    (by rw [List.append_nil, h])
  cases tail with
  | nil => simp
  | cons name tail => simp [render_cons] at hnil

/-- What is added to a path is below it. -/
theorem isParentPath_render_append (p t : Path) :
    isParentPath (render p) (render (p ++ t)) = true := by
  rw [isParentPath_iff, render_append]
  rcases slashFirst_render t with ht | ⟨rest, ht⟩
  · exact Or.inl (by rw [ht, List.append_nil])
  · exact Or.inr ⟨rest, by rw [ht]⟩

/-- One path is below another if it extends it. -/
theorem isParentPath_render {p q : Path} (hp : ValidPath p) (hq : ValidPath q) :
    isParentPath (render p) (render q) = true ↔ p <+: q := by
  rw [isParentPath_iff]
  constructor
  · rintro (h | ⟨rest, h⟩)
    · obtain rfl := render_injective hq hp h
      exact List.prefix_rfl
    · obtain ⟨tail, rfl, -⟩ := prefix_of_render hp hq (Or.inr ⟨rest, rfl⟩) h
      exact List.prefix_append p tail
  · rintro ⟨tail, rfl⟩
    exact (isParentPath_iff _ _).mp (isParentPath_render_append p tail)

end FsNotifier
end IdeMultiarch
