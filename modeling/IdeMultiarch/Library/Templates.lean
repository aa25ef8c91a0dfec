import IdeMultiarch.Library.Text

/-!
# Library - texts with holes

A hole is written as a marker and a name.  Filling the holes of a text at once is compared with
replacing one hole after the other, which fills holes of the texts that were put in as well.

Main results:

- Theorem {lit}`write_read`, {lit}`count_read`: a text is read into pieces.
- Theorem {lit}`replace_write_append`: replacing fills a hole, or finds one that was put in.
- Theorem {lit}`replaceAll_write`: if no hole is put in, replacing is filling.
- Theorem {lit}`noNewHoles_of_replaceAll`: only then, if the texts do not start with the marker.
-/

namespace IdeMultiarch
namespace Library
namespace Text

/-! ## Pieces -/

/-- How holes are written: no part of one is the start of another. -/
structure Spelling (α ι : Type) where
  marker : α
  name : ι → List α
  all : List ι
  marker_not_mem : ∀ i, marker ∉ name i
  names_distinct : ∀ i j, name i <+: name j → i = j
  mem_all : ∀ i, i ∈ all

/-- A character or a hole. -/
inductive Piece (α ι : Type)
  | char (a : α)
  | hole (i : ι)
deriving DecidableEq, Repr

variable {α ι : Type} (spelling : Spelling α ι)

namespace Spelling

/-- The text of a hole. -/
def hole (i : ι) : List α :=
  spelling.marker :: spelling.name i

/-- The text of pieces. -/
def write (pieces : List (Piece α ι)) : List α :=
  pieces.flatMap fun
    | .char a => [a]
    | .hole i => spelling.hole i

end Spelling

/-- All holes are filled at once. -/
def fill (value : ι → List α) (pieces : List (Piece α ι)) : List α :=
  pieces.flatMap fun
    | .char a => [a]
    | .hole i => value i

/-- One hole is filled. -/
def put [DecidableEq ι] (i : ι) (new : List α) (pieces : List (Piece α ι)) : List (Piece α ι) :=
  pieces.flatMap fun
    | .char a => [.char a]
    | .hole j => if j = i then new.map .char else [.hole j]

namespace Spelling

@[simp]
theorem write_nil : spelling.write [] = [] :=
  rfl

@[simp]
theorem write_char (a : α) (pieces : List (Piece α ι)) :
    spelling.write (.char a :: pieces) = a :: spelling.write pieces :=
  rfl

@[simp]
theorem write_hole (i : ι) (pieces : List (Piece α ι)) :
    spelling.write (.hole i :: pieces) = spelling.hole i ++ spelling.write pieces :=
  rfl

@[simp]
theorem write_append (front back : List (Piece α ι)) :
    spelling.write (front ++ back) = spelling.write front ++ spelling.write back :=
  List.flatMap_append

@[simp]
theorem write_chars (text : List α) : spelling.write (text.map .char) = text := by
  induction text with
  | nil => rfl
  | cons a text ih => rw [List.map_cons, write_char, ih]

/-! ## Reading -/

variable [DecidableEq α]

/-- The pieces of a text, after some characters that belong to a hole already read. -/
def readFrom : Nat → List α → List (Piece α ι)
  | _, [] => []
  | skipped + 1, _ :: text => readFrom skipped text
  | 0, a :: text =>
      match spelling.all.find? fun i => (spelling.hole i).isPrefixOf (a :: text) with
      | some i => .hole i :: readFrom (spelling.name i).length text
      | none => .char a :: readFrom 0 text

/-- The pieces of a text. -/
def read (text : List α) : List (Piece α ι) :=
  spelling.readFrom 0 text

variable {spelling}

omit [DecidableEq α] in
/-- At most one hole stands at a place. -/
theorem hole_unique {i j : ι} {text : List α} (hi : spelling.hole i <+: text)
    (hj : spelling.hole j <+: text) : i = j := by
  rcases List.prefix_or_prefix_of_prefix hi hj with hij | hji
  · exact spelling.names_distinct i j (List.cons_prefix_cons.mp hij).2
  · exact (spelling.names_distinct j i (List.cons_prefix_cons.mp hji).2).symm

theorem write_readFrom (skipped : Nat) (text : List α) :
    spelling.write (spelling.readFrom skipped text) = text.drop skipped := by
  fun_induction readFrom spelling skipped text with
  | case1 => simp
  | case2 skipped a text ih => simpa using ih
  | case3 a text i hfound ih =>
      have hstands := List.find?_some hfound
      obtain ⟨rest, hrest⟩ := List.isPrefixOf_iff_prefix.mp hstands
      rw [hole, List.cons_append] at hrest
      obtain ⟨hmarker, rfl⟩ := List.cons.inj hrest
      rw [write_hole, ih, List.drop_left, List.drop_zero, ← hmarker]
      rfl
  | case4 a text hnone ih => rw [write_char, ih, List.drop_zero, List.drop_zero]

/-- Reading loses nothing. -/
theorem write_read (text : List α) : spelling.write (spelling.read text) = text :=
  write_readFrom 0 text

variable [DecidableEq ι]

theorem count_readFrom (i : ι) {skipped : Nat} {text : List α}
    (hskipped : spelling.marker ∉ text.take skipped) :
    (spelling.readFrom skipped text).count (.hole i) = occurrences (spelling.hole i) text := by
  fun_induction readFrom spelling skipped text with
  | case1 => simp [occurrences, hole]
  | case2 skipped a text ih =>
      rw [List.take_succ_cons, List.mem_cons, not_or] at hskipped
      have hnot : ¬ spelling.hole i <+: a :: text := fun h =>
        hskipped.1 (List.cons_prefix_cons.mp h).1
      rw [occurrences_cons, if_neg hnot, Nat.zero_add, ih hskipped.2]
  | case3 a text j hfound ih =>
      have hj := List.find?_some hfound
      obtain ⟨rest, hrest⟩ := List.isPrefixOf_iff_prefix.mp hj
      have hcons := hrest
      rw [hole, List.cons_append] at hcons
      obtain ⟨hmarker, rfl⟩ := List.cons.inj hcons
      have hstands : spelling.hole i <+: a :: (spelling.name j ++ rest) ↔ j = i :=
        ⟨fun hi => hole_unique ⟨rest, hrest⟩ hi, fun h => h ▸ ⟨rest, hrest⟩⟩
      rw [List.count_cons, ih (by rw [List.take_left]; exact spelling.marker_not_mem j),
        occurrences_cons, Nat.add_comm]
      simp [hstands]
  | case4 a text hnone ih =>
      have hnot : ¬ spelling.hole i <+: a :: text := fun h =>
        List.find?_eq_none.mp hnone i (spelling.mem_all i) (List.isPrefixOf_iff_prefix.mpr h)
      rw [List.count_cons_of_ne (by simp), ih (by simp), occurrences_cons, if_neg hnot, Nat.zero_add]

/-- Every place where a hole stands is read as one. -/
theorem count_read (i : ι) (text : List α) :
    (spelling.read text).count (.hole i) = occurrences (spelling.hole i) text :=
  count_readFrom i List.not_mem_nil

/-! ## Replacing one hole after the other -/

omit [DecidableEq α] in
theorem put_append (i : ι) (new : List α) (front back : List (Piece α ι)) :
    put i new (front ++ back) = put i new front ++ put i new back :=
  List.flatMap_append

omit [DecidableEq α] in
theorem write_put_hole (i : ι) (new : List α) (pieces : List (Piece α ι)) :
    spelling.write (put i new (.hole i :: pieces)) = new ++ spelling.write (put i new pieces) := by
  have hput : put i new (.hole i :: pieces) = new.map .char ++ put i new pieces := by simp [put]
  rw [hput, write_append, write_chars]

omit [DecidableEq α] in
theorem write_put_of_ne {i j : ι} (hne : j ≠ i) (new : List α) (pieces : List (Piece α ι)) :
    spelling.write (put i new (.hole j :: pieces)) =
      spelling.hole j ++ spelling.write (put i new pieces) := by
  have hput : put i new (.hole j :: pieces) = .hole j :: put i new pieces := by simp [put, hne]
  rw [hput, write_hole]

variable (spelling)

omit [DecidableEq ι] in
/-- Another hole stays, and has no occurrence. -/
theorem replace_hole_of_ne {i j : ι} (hne : j ≠ i) (new text : List α) :
    replace (spelling.hole i) new (spelling.hole j ++ text) =
        spelling.hole j ++ replace (spelling.hole i) new text ∧
      occurrences (spelling.hole i) (spelling.hole j ++ text) =
        occurrences (spelling.hole i) text := by
  have hnot : ¬ spelling.hole i <+: spelling.marker :: (spelling.name j ++ text) := fun h =>
    hne (hole_unique h ⟨text, rfl⟩).symm
  constructor
  · have hrest : replace (spelling.hole i) new (spelling.name j ++ text) =
        spelling.name j ++ replace (spelling.hole i) new text :=
      replace_append (spelling.name i) new (spelling.marker_not_mem j) text
    have hfirst := replace_cons hnot new
    rw [hrest] at hfirst
    exact hfirst
  · have hrest : occurrences (spelling.hole i) (spelling.name j ++ text) =
        occurrences (spelling.hole i) text :=
      occurrences_append (spelling.name i) (spelling.marker_not_mem j) text
    have hfirst := occurrences_cons (spelling.hole i) spelling.marker (spelling.name j ++ text)
    rw [if_neg hnot, Nat.zero_add, hrest] at hfirst
    exact hfirst

/-- Replacing fills a hole in some pieces and goes on behind them, or it finds a hole that starts at a
character of them. -/
theorem replace_write_append (i : ι) (new : List α) (pieces : List (Piece α ι)) (text : List α) :
    (occurrences (spelling.hole i) (spelling.write pieces ++ text) =
          pieces.count (.hole i) + occurrences (spelling.hole i) text ∧
        replace (spelling.hole i) new (spelling.write pieces ++ text) =
          spelling.write (put i new pieces) ++ replace (spelling.hole i) new text) ∨
      (pieces.count (.hole i) + occurrences (spelling.hole i) text <
          occurrences (spelling.hole i) (spelling.write pieces ++ text) ∧
        ∃ front back rest, pieces = front ++ .char spelling.marker :: back ∧
          replace (spelling.hole i) new (spelling.write pieces ++ text) =
            spelling.write (put i new front) ++ (new ++ rest)) := by
  have hmarker := spelling.marker_not_mem
  induction pieces with
  | nil => exact Or.inl ⟨by simp, rfl⟩
  | cons piece pieces ih =>
      have hle : pieces.count (.hole i) + occurrences (spelling.hole i) text ≤
          occurrences (spelling.hole i) (spelling.write pieces ++ text) := by
        rcases ih with ⟨hcount, -⟩ | ⟨hcount, -⟩
        · exact hcount.symm.le
        · exact hcount.le
      cases piece with
      | char a =>
          rw [write_char, List.cons_append, List.count_cons_of_ne (by simp), occurrences_cons]
          by_cases hstands : spelling.hole i <+: a :: (spelling.write pieces ++ text)
          · -- a hole that is no piece
            right
            rw [if_pos hstands]
            obtain ⟨rest, hrest⟩ := hstands
            obtain ⟨rfl, -⟩ := List.cons.inj hrest
            refine ⟨by omega, [], pieces, replace (spelling.hole i) new rest, rfl, ?_⟩
            rw [← hrest]
            exact replace_front spelling.marker (spelling.name i) new rest
          · rw [if_neg hstands, Nat.zero_add, replace_cons hstands]
            rcases ih with ⟨hcount, hreplace⟩ | ⟨hcount, front, back, rest, rfl, hreplace⟩
            · left
              refine ⟨hcount, ?_⟩
              rw [hreplace]
              rfl
            · right
              refine ⟨hcount, .char a :: front, back, rest, rfl, ?_⟩
              rw [hreplace]
              rfl
      | hole j =>
          by_cases hji : j = i
          · subst hji
            rw [write_hole, List.append_assoc, List.count_cons_self, hole,
              occurrences_front (hmarker j), replace_front, ← hole]
            rcases ih with ⟨hcount, hreplace⟩ | ⟨hcount, front, back, rest, rfl, hreplace⟩
            · left
              refine ⟨by omega, ?_⟩
              rw [hreplace, write_put_hole, List.append_assoc]
            · right
              refine ⟨by omega, .hole j :: front, back, rest, rfl, ?_⟩
              rw [hreplace, write_put_hole, List.append_assoc]
          · -- another hole stays
            have hne : (.hole j : Piece α ι) ≠ .hole i := fun h => hji (Piece.hole.inj h)
            obtain ⟨hreplace', hcount'⟩ :=
              spelling.replace_hole_of_ne hji new (spelling.write pieces ++ text)
            rw [write_hole, List.append_assoc, List.count_cons_of_ne hne, hcount', hreplace']
            rcases ih with ⟨hcount, hreplace⟩ | ⟨hcount, front, back, rest, rfl, hreplace⟩
            · left
              refine ⟨hcount, ?_⟩
              rw [hreplace, write_put_of_ne hji, List.append_assoc]
            · right
              refine ⟨hcount, .hole j :: front, back, rest, rfl, ?_⟩
              rw [hreplace, write_put_of_ne hji, List.append_assoc]

variable {spelling}

/-- A hole is filled, if no other text looks like one. -/
theorem replace_write {i : ι} {pieces : List (Piece α ι)}
    (hcount : occurrences (spelling.hole i) (spelling.write pieces) = pieces.count (.hole i))
    (new : List α) :
    replace (spelling.hole i) new (spelling.write pieces) = spelling.write (put i new pieces) := by
  have hstep := spelling.replace_write_append i new pieces []
  rw [List.append_nil] at hstep
  rcases hstep with ⟨-, hreplace⟩ | ⟨hmore, -⟩
  · rw [hreplace]
    exact List.append_nil _
  · omega

/-- The other holes are left. -/
theorem count_put {i j : ι} (hne : j ≠ i) (new : List α) (pieces : List (Piece α ι)) :
    (put i new pieces).count (.hole j) = pieces.count (.hole j) := by
  have hchars : (new.map .char : List (Piece α ι)).count (.hole j) = 0 := by
    rw [List.count_eq_zero]
    simp
  induction pieces with
  | nil => rfl
  | cons piece pieces ih =>
      rw [put, List.flatMap_cons, List.count_append, ← put, ih, List.count_cons, Nat.add_comm]
      congr 1
      cases piece with
      | char a => simp
      | hole k =>
          dsimp only
          by_cases hki : k = i
          · subst hki
            rw [if_pos rfl, hchars, if_neg (by simpa using Ne.symm hne)]
          · rw [if_neg hki, List.count_singleton]

variable (spelling) in
/-- The holes are replaced in an order. -/
def replaceAll (value : ι → List α) (order : List ι) (text : List α) : List α :=
  order.foldl (fun text i => replace (spelling.hole i) (value i) text) text

/-- The holes are filled in an order. -/
def putAll (value : ι → List α) (order : List ι) (pieces : List (Piece α ι)) : List (Piece α ι) :=
  order.foldl (fun pieces i => put i (value i) pieces) pieces

variable (spelling) in
/-- No text that is put in makes a hole that is filled later. -/
def NoNewHoles (value : ι → List α) : List ι → List (Piece α ι) → Prop
  | [], _ => True
  | i :: order, pieces =>
      occurrences (spelling.hole i) (spelling.write pieces) = pieces.count (.hole i) ∧
        NoNewHoles value order (put i (value i) pieces)

variable {value : ι → List α}

omit [DecidableEq α] in
theorem putAll_append (order : List ι) (front back : List (Piece α ι)) :
    putAll value order (front ++ back) = putAll value order front ++ putAll value order back := by
  induction order generalizing front back with
  | nil => rfl
  | cons i order ih =>
      have hput := put_append i (value i) front back
      rw [putAll, List.foldl_cons, hput]
      exact ih _ _

omit [DecidableEq α] in
theorem putAll_char (order : List ι) (a : α) (pieces : List (Piece α ι)) :
    putAll value order (.char a :: pieces) = .char a :: putAll value order pieces := by
  induction order generalizing pieces with
  | nil => rfl
  | cons i order ih => exact ih (put i (value i) pieces)

omit [DecidableEq α] in
/-- A hole is filled on both sides of a character. -/
theorem putAll_around (i : ι) (order : List ι) (front : List (Piece α ι)) (a : α)
    (back : List (Piece α ι)) :
    putAll value (i :: order) (front ++ .char a :: back) =
      putAll value order (put i (value i) front) ++ .char a :: putAll value (i :: order) back := by
  rw [putAll_append, putAll_char]
  rfl

/-- If no hole is put in, replacing is filling. -/
theorem replaceAll_write {order : List ι} {pieces : List (Piece α ι)}
    (h : spelling.NoNewHoles value order pieces) :
    spelling.replaceAll value order (spelling.write pieces) =
      spelling.write (putAll value order pieces) := by
  induction order generalizing pieces with
  | nil => rfl
  | cons i order ih =>
      obtain ⟨hcount, hrest⟩ := h
      rw [replaceAll, List.foldl_cons, replace_write hcount]
      exact ih hrest

/-- A text that was put in at a marker is another text than the hole there. -/
theorem replaceAll_ne {order : List ι}
    (hvalue : ∀ i ∈ order, ∃ a text, value i = a :: text ∧ a ≠ spelling.marker) {a : α}
    (ha : a ≠ spelling.marker) (pieces : List (Piece α ι)) (text rest : List α) :
    spelling.replaceAll value order (spelling.write pieces ++ a :: text) ≠
      spelling.write (putAll value order pieces) ++ spelling.marker :: rest := by
  induction order generalizing pieces a text rest with
  | nil =>
      intro h
      exact ha (List.cons.inj (List.append_cancel_left h)).1
  | cons i order ih =>
      obtain ⟨⟨b, new, hnew, hb⟩, hrest⟩ := List.forall_mem_cons.mp hvalue
      have hstep := spelling.replace_write_append i (value i) pieces (a :: text)
      rcases hstep with ⟨-, hreplace⟩ | ⟨-, front, back, later, rfl, hreplace⟩
      · have hnot : ¬ spelling.hole i <+: a :: text := fun h =>
          ha (List.cons_prefix_cons.mp h).1.symm
        rw [replaceAll, List.foldl_cons, hreplace, replace_cons hnot]
        exact ih hrest ha (put i (value i) pieces) _ rest
      · rw [replaceAll, List.foldl_cons, hreplace, putAll_around, hnew, write_append, write_char,
          List.append_assoc, List.cons_append, List.cons_append]
        exact ih hrest hb _ _ _

/-- Replacing is filling only if no hole is put in, as long as what is put in does not start with the
marker. -/
theorem noNewHoles_of_replaceAll {order : List ι}
    (hvalue : ∀ i ∈ order, ∃ a text, value i = a :: text ∧ a ≠ spelling.marker)
    {pieces : List (Piece α ι)}
    (h : spelling.replaceAll value order (spelling.write pieces) =
      spelling.write (putAll value order pieces)) : spelling.NoNewHoles value order pieces := by
  induction order generalizing pieces with
  | nil => trivial
  | cons i order ih =>
      obtain ⟨⟨a, new, hnew, ha⟩, hrest⟩ := List.forall_mem_cons.mp hvalue
      have hstep := spelling.replace_write_append i (value i) pieces []
      rw [List.append_nil] at hstep
      rw [replaceAll, List.foldl_cons] at h
      rcases hstep with ⟨hcount, hreplace⟩ | ⟨-, front, back, later, rfl, hreplace⟩
      · have hnil : replace (spelling.hole i) (value i) [] = [] := rfl
        rw [hreplace, hnil, List.append_nil] at h
        exact ⟨hcount, ih hrest h⟩
      · rw [hreplace, putAll_around, hnew, write_append, write_char, List.cons_append] at h
        exact absurd h (replaceAll_ne hrest ha _ _ _)

omit [DecidableEq α] in
/-- A text without holes has none to fill. -/
theorem put_chars (i : ι) (new text : List α) :
    put i new (text.map .char) = text.map .char := by
  induction text with
  | nil => rfl
  | cons a text ih =>
      rw [List.map_cons, put, List.flatMap_cons, ← put, ih]
      rfl

omit [DecidableEq α] [DecidableEq ι] in
theorem fill_chars (value : ι → List α) (text : List α) :
    fill value (text.map .char) = text := by
  induction text with
  | nil => rfl
  | cons a text ih =>
      rw [List.map_cons, fill, List.flatMap_cons, ← fill, ih]
      rfl

omit [DecidableEq α] in
theorem putAll_nil (order : List ι) : putAll value order ([] : List (Piece α ι)) = [] := by
  induction order with
  | nil => rfl
  | cons i order ih => exact ih

omit [DecidableEq α] in
theorem putAll_hole {order : List ι} {i : ι} (hi : i ∈ order) (pieces : List (Piece α ι)) :
    putAll value order (.hole i :: pieces) =
      (value i).map .char ++ putAll value order pieces := by
  have hchars : ∀ (order : List ι) (text : List α),
      putAll value order (text.map .char) = text.map .char := by
    intro order text
    induction text with
    | nil => exact putAll_nil order
    | cons a text ih => rw [List.map_cons, putAll_char, ih]
  induction order generalizing pieces with
  | nil => exact absurd hi List.not_mem_nil
  | cons j order ih =>
      by_cases hij : i = j
      · subst hij
        have hput : put i (value i) (.hole i :: pieces) =
            (value i).map .char ++ put i (value i) pieces := by simp [put]
        rw [putAll, List.foldl_cons, hput, ← putAll, putAll_append, hchars]
        rfl
      · have hput : put j (value j) (.hole i :: pieces) = .hole i :: put j (value j) pieces := by
          simp [put, hij]
        have hrest : i ∈ order := (List.mem_cons.mp hi).resolve_left hij
        rw [putAll, List.foldl_cons, hput]
        exact ih hrest _

omit [DecidableEq α] in
/-- Filling one hole after the other fills them all. -/
theorem write_putAll {order : List ι} (horder : ∀ i, i ∈ order) (pieces : List (Piece α ι)) :
    spelling.write (putAll value order pieces) = fill value pieces := by
  induction pieces with
  | nil =>
      rw [putAll_nil]
      rfl
  | cons piece pieces ih =>
      cases piece with
      | char a =>
          rw [putAll_char, write_char, ih]
          rfl
      | hole i =>
          rw [putAll_hole (horder i), write_append, write_chars, ih]
          rfl

end Spelling
end Text
end Library
end IdeMultiarch
