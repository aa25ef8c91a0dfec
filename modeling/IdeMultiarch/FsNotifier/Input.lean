import Mathlib.Data.List.TakeWhile
import IdeMultiarch.Library.WeakestPre
import IdeMultiarch.FsNotifier.Main

/-!
# fsnotifier - reading commands

The commands of the IDE come line by line on an unbuffered stream.  A line is read with
{lit}`fgets` into a buffer of fixed size, so that a line that does not fit arrives in pieces; a
list of roots is read until a line that is a hash sign.

Main results:

- Theorems {lit}`readLine_short` and {lit}`readLine_long`: what one call reads of a line.
- Theorem {lit}`readInput_lineText`: roots are texts of lines, whatever is read.
- Theorem {lit}`readRoots_short`: lists of roots that fit are read as they are, apart from slashes.
- Theorem {lit}`readRoots_pieces`: other lists are read with more elements, if they are read at all.
- Theorem {lit}`roots_decoded_iff`: the lists of roots that are decoded exactly.
-/

namespace IdeMultiarch
namespace FsNotifier

open Library

/-! ## Streams -/

/-- A {lit}`FILE` that is read: the bytes still to come, and the end-of-file indicator. -/
structure Stream where
  rest : Bytes
  eof : Bool
deriving DecidableEq, Repr

/-- Why reading can go wrong in the model. -/
inductive InputFault
  | outOfBounds
  | outOfFuel
deriving DecidableEq, Repr

/-- Programs that read from a stream. -/
abbrev Reader (α : Type) := StateT Stream (Except InputFault) α

/-- The bytes up to the first newline, which is included, but at most {lit}`limit` of them. -/
def takeLine : Nat → Bytes → Bytes
  | 0, _ => []
  | _ + 1, [] => []
  | limit + 1, b :: bs => if b = newline then [b] else b :: takeLine limit bs

/-- {lit}`fgets` with a buffer of {lit}`size` bytes, one of them for the final NUL. -/
def fgets (size : Nat) : Reader (Option Bytes) := do
  let stream ← get
  if stream.eof then
    pure none
  else do
    let line := takeLine (size - 1) stream.rest
    set ({ rest := stream.rest.drop line.length
           eof := line.length < size - 1 && line.getLast? != some newline } : Stream)
    pure (if line = [] then none else some line)

/-- {lit}`INPUT_BUF_LEN` -/
def INPUT_BUF_LEN : Nat := 2048

/-- {lit}`read_line`.  The buffer ends at its first NUL; in front of an empty string it has no
last byte to look at. -/
def readLine : Reader (Option Bytes) := do
  match ← fgets INPUT_BUF_LEN with
  | none => pure none
  | some buf => do
      if (← get).eof then
        pure none
      else
        let line := buf.takeWhile (· ≠ 0)
        if line = [] then
          throw .outOfBounds
        else if line.getLast? = some newline then
          pure (some line.dropLast)
        else
          pure (some line)

/-! ## Commands -/

/-- What {lit}`read_input` does with a command: stop the main loop, call {lit}`update_roots`, or go on. -/
inductive Command
  | quit
  | updateRoots (newRoots : List Bytes)
  | unrecognised (line : Bytes)
deriving DecidableEq, Repr

/-- The slash that {lit}`read_input` drops at the end of a root. -/
def dropSlash (line : Bytes) : Bytes :=
  if 1 < line.length ∧ line.getLast? = some slash then line.dropLast else line

/-- The loop of {lit}`read_input` over a list of roots; {lit}`none` when the list breaks off. -/
def readRoots : Nat → List Bytes → Reader (Option (List Bytes))
  | 0, _ => throw .outOfFuel
  | fuel + 1, newRoots => do
      match ← readLine with
      | none => pure none
      | some line =>
          if line = [] then
            pure none
          else if line = cstr "#" then
            pure (some newRoots)
          else
            readRoots fuel (newRoots ++ [dropSlash line])

/-- {lit}`read_input`.  The loop ends since every line takes a byte from the stream. -/
def readInput : Reader Command := do
  match ← readLine with
  | none => pure .quit
  | some line =>
      if line = cstr "EXIT" then
        pure .quit
      else if line = cstr "ROOTS" then do
        match ← readRoots ((← get).rest.length + 1) [] with
        | none => pure .quit
        | some newRoots => pure (.updateRoots newRoots)
      else
        pure (.unrecognised line)

/-- A list of roots as the IDE writes it, followed by more input. -/
def rootsCommand (roots : List Bytes) (further : Bytes) : Bytes :=
  cstr "ROOTS" ++ newline :: (roots.flatMap (fun root => root ++ [newline]) ++
    (cstr "#" ++ newline :: further))

/-- One root may stand for another: they are equal, or one slash at the end is dropped and a path
is left. -/
def Decoded (root newRoot : Bytes) : Prop :=
  newRoot = root ∨ (newRoot ++ [slash] = root ∧ unflatten newRoot ≠ [])

/-! ## Reading lines -/

/-- The bytes of a line: no newline and no NUL. -/
def LineText (text : Bytes) : Prop :=
  newline ∉ text ∧ 0 ∉ text

section Lines

variable {text rest : Bytes} {limit : Nat}

/-- A line that fits is taken as a whole. -/
theorem takeLine_fits (htext : newline ∉ text) (hfits : text.length < limit) :
    takeLine limit (text ++ newline :: rest) = text ++ [newline] := by
  induction text generalizing limit with
  | nil =>
      obtain ⟨n, rfl⟩ := Nat.exists_eq_add_of_lt hfits
      simp [takeLine]
  | cons b bs ih =>
      rw [List.mem_cons, not_or] at htext
      obtain ⟨n, rfl⟩ : ∃ n, limit = n + 1 := ⟨limit - 1, by simp at hfits; omega⟩
      have hb : ¬ b = newline := fun h => htext.1 h.symm
      rw [List.cons_append, takeLine, if_neg hb, ih htext.2 (by simpa using hfits), List.cons_append]

/-- Of a line that does not fit, {lit}`limit` bytes are taken. -/
theorem takeLine_long (htext : newline ∉ text) (hlong : limit ≤ text.length) :
    takeLine limit (text ++ rest) = text.take limit := by
  induction limit generalizing text with
  | zero => simp [takeLine]
  | succ limit ih =>
      cases text with
      | nil => simp at hlong
      | cons b bs =>
          rw [List.mem_cons, not_or] at htext
          have hb : ¬ b = newline := fun h => htext.1 h.symm
          rw [List.cons_append, takeLine, if_neg hb, ih htext.2 (by simpa using hlong),
            List.take_succ_cons]

/-- A text without NUL bytes is the string it is stored as. -/
theorem takeWhile_text (htext : (0 : UInt8) ∉ text) : text.takeWhile (· ≠ 0) = text := by
  rw [List.takeWhile_eq_self_iff]
  intro b hb
  exact decide_eq_true fun h => htext (h ▸ hb)

/-- What {lit}`read_line` makes of bytes that {lit}`fgets` has taken before the end of the stream. -/
theorem readLine_of_takeLine {stream : Bytes} {line : Bytes}
    (hline : takeLine (INPUT_BUF_LEN - 1) stream = line) (hne : line ≠ [])
    (hmore : INPUT_BUF_LEN - 1 ≤ line.length ∨ line.getLast? = some newline)
    (hstring : (0 : UInt8) ∉ line) :
    readLine.run ⟨stream, false⟩ = .ok (some (if line.getLast? = some newline then line.dropLast
      else line), ⟨stream.drop line.length, false⟩) := by
  have heof : (decide (line.length < INPUT_BUF_LEN - 1) && line.getLast? != some newline) = false := by
    rcases hmore with h | h
    · simp [Nat.not_lt.mpr h]
    · simp [h]
  have hfgets : (fgets INPUT_BUF_LEN).run ⟨stream, false⟩ =
      .ok (some line, ⟨stream.drop line.length, false⟩) := by
    unfold fgets
    rw [run_bind_of_run (a := (⟨stream, false⟩ : Stream)) rfl]
    dsimp only
    rw [if_neg (by simp), hline, heof, run_bind_of_run (a := PUnit.unit) rfl, if_neg hne]
    rfl
  unfold readLine
  rw [run_bind_of_run hfgets]
  dsimp only
  rw [run_bind_of_run (a := (⟨stream.drop line.length, false⟩ : Stream)) rfl]
  dsimp only
  rw [if_neg (by simp), takeWhile_text hstring, if_neg hne]
  split <;> rfl

variable (rest) in
/-- {lit}`read_line` reads a line that fits. -/
theorem readLine_short (htext : LineText text) (hshort : text.length < INPUT_BUF_LEN - 1) :
    readLine.run ⟨text ++ newline :: rest, false⟩ = .ok (some text, ⟨rest, false⟩) := by
  have hlast : (text ++ [newline]).getLast? = some newline := by simp
  have hstring : (0 : UInt8) ∉ text ++ [newline] := by
    rw [List.mem_append, not_or]
    exact ⟨htext.2, by decide⟩
  rw [readLine_of_takeLine (takeLine_fits htext.1 hshort) (by simp) (Or.inr hlast) hstring,
    if_pos hlast, List.dropLast_concat]
  have hsplit : text ++ newline :: rest = (text ++ [newline]) ++ rest := by simp
  rw [hsplit, List.drop_left]

variable (rest) in
/-- {lit}`read_line` reads as much as fits of a line that does not. -/
theorem readLine_long (htext : LineText text) (hlong : INPUT_BUF_LEN - 1 ≤ text.length) :
    readLine.run ⟨text ++ rest, false⟩ =
      .ok (some (text.take (INPUT_BUF_LEN - 1)), ⟨text.drop (INPUT_BUF_LEN - 1) ++ rest, false⟩) := by
  have hlength : (text.take (INPUT_BUF_LEN - 1)).length = INPUT_BUF_LEN - 1 :=
    List.length_take_of_le hlong
  have hne : text.take (INPUT_BUF_LEN - 1) ≠ [] := by
    intro h
    rw [h] at hlength
    contradiction
  have hlast : (text.take (INPUT_BUF_LEN - 1)).getLast? ≠ some newline := fun h =>
    htext.1 (List.mem_of_mem_take (List.mem_of_getLast? h))
  rw [readLine_of_takeLine (takeLine_long htext.1 hlong) hne (Or.inl (Nat.le_of_eq hlength.symm))
    (fun h => htext.2 (List.mem_of_mem_take h)), if_neg hlast, hlength,
    List.drop_append_of_le_length hlong]

end Lines

/-! ## The text of roots -/

/-- A newline can only end what {lit}`fgets` takes. -/
theorem takeLine_newline (limit : Nat) (stream : Bytes) :
    newline ∉ takeLine limit stream ∨
      ∃ text, newline ∉ text ∧ takeLine limit stream = text ++ [newline] := by
  fun_induction takeLine limit stream with
  | case1 _ => exact Or.inl (by simp)
  | case2 _ => exact Or.inl (by simp)
  | case3 _ _ => exact Or.inr ⟨[], by simp, rfl⟩
  | case4 limit b bs hb ih =>
      have hne : ¬ newline = b := fun h => hb h.symm
      rcases ih with hnone | ⟨text, htext, heq⟩
      · exact Or.inl (by simp [hne, hnone])
      · exact Or.inr ⟨b :: text, by simp [hne, htext], by rw [heq, List.cons_append]⟩

/-- What {lit}`read_line` returns is the text of a line. -/
theorem readLine_lineText {stream stream' : Stream} {line : Bytes}
    (hrun : readLine.run stream = .ok (some line, stream')) : LineText line := by
  unfold readLine at hrun
  obtain ⟨taken, stream₁, hfgets, hrun⟩ := run_bind_eq_ok hrun
  cases taken with
  | none => cases hrun
  | some buf =>
      have hbuf : newline ∉ buf ∨ ∃ text, newline ∉ text ∧ buf = text ++ [newline] := by
        unfold fgets at hfgets
        obtain ⟨stream₀, _, hget, hfgets⟩ := run_bind_eq_ok hfgets
        cases hget
        dsimp only at hfgets
        split at hfgets
        · cases hfgets
        · obtain ⟨_, _, hset, hpure⟩ := run_bind_eq_ok hfgets
          cases hset
          split at hpure
          · cases hpure
          · cases hpure
            exact takeLine_newline _ _
      obtain ⟨_, _, hget, hrun⟩ := run_bind_eq_ok hrun
      cases hget
      split at hrun
      · cases hrun
      · generalize htake : buf.takeWhile (· ≠ 0) = taken at hrun
        have hnul : (0 : UInt8) ∉ taken := by
          intro hmem
          rw [← htake] at hmem
          simpa using List.mem_takeWhile_imp hmem
        have hfront : taken <+: buf := htake ▸ List.takeWhile_prefix _
        have hends : newline ∉ taken ∨ ∃ text, newline ∉ text ∧ taken = text ++ [newline] := by
          rcases hbuf with hnone | ⟨text, htext, rfl⟩
          · exact Or.inl fun h => hnone (hfront.subset h)
          · rcases List.prefix_concat_iff.mp hfront with heq | hfront
            · exact Or.inr ⟨text, htext, heq⟩
            · exact Or.inl fun h => htext (hfront.subset h)
        dsimp only at hrun
        split at hrun
        · cases hrun
        · split at hrun
          · rename_i hlast
            cases hrun
            rcases hends with hnone | ⟨text, htext, rfl⟩
            · exact absurd (List.mem_of_getLast? hlast) hnone
            · rw [List.dropLast_concat]
              exact ⟨htext, fun h => hnul (List.mem_append_left _ h)⟩
          · rename_i hlast
            cases hrun
            rcases hends with hnone | ⟨text, -, rfl⟩
            · exact ⟨hnone, hnul⟩
            · simp at hlast

/-- The roots of a list are texts of lines. -/
theorem readRoots_lineText (fuel : Nat) :
    ∀ {newRoots result : List Bytes} {stream stream' : Stream},
      (∀ root ∈ newRoots, LineText root) →
      (readRoots fuel newRoots).run stream = .ok (some result, stream') →
      ∀ root ∈ result, LineText root := by
  induction fuel with
  | zero => intro newRoots result stream stream' _ hrun; cases hrun
  | succ fuel ih =>
      intro newRoots result stream stream' hroots hrun
      unfold readRoots at hrun
      obtain ⟨answer, stream₁, hline, hrun⟩ := run_bind_eq_ok hrun
      cases answer with
      | none => cases hrun
      | some line =>
          dsimp only at hrun
          split at hrun
          · cases hrun
          · split at hrun
            · cases hrun
              exact hroots
            · refine ih ?_ hrun
              have htext := readLine_lineText hline
              intro root hroot
              rcases List.mem_append.mp hroot with hroot | hroot
              · exact hroots root hroot
              · rw [List.mem_singleton.mp hroot]
                unfold dropSlash
                split
                · exact ⟨fun h => htext.1 (List.dropLast_subset _ h),
                    fun h => htext.2 (List.dropLast_subset _ h)⟩
                · exact htext

/-- Whatever the standard input holds, {lit}`read_input` hands over roots that are texts of lines. -/
theorem readInput_lineText {stream stream' : Stream} {newRoots : List Bytes}
    (hrun : readInput.run stream = .ok (.updateRoots newRoots, stream')) :
    ∀ root ∈ newRoots, LineText root := by
  unfold readInput at hrun
  obtain ⟨answer, stream₁, -, hrun⟩ := run_bind_eq_ok hrun
  cases answer with
  | none => cases hrun
  | some line =>
      dsimp only at hrun
      split at hrun
      · cases hrun
      · split at hrun
        · obtain ⟨_, _, -, hrun⟩ := run_bind_eq_ok hrun
          obtain ⟨answer, stream₂, hroots, hrun⟩ := run_bind_eq_ok hrun
          cases answer with
          | none => cases hrun
          | some result =>
              cases hrun
              exact readRoots_lineText _ (by simp) hroots
        · cases hrun

/-! ## Reading lists of roots -/

/-- The lines of a list of roots, with the hash sign that ends it. -/
def rootLines (roots : List Bytes) (further : Bytes) : Bytes :=
  roots.flatMap (fun root => root ++ [newline]) ++ (cstr "#" ++ newline :: further)

theorem rootLines_cons (root : Bytes) (roots : List Bytes) (further : Bytes) :
    rootLines (root :: roots) further = root ++ newline :: rootLines roots further := by
  simp [rootLines]

/-- Each root adds its newline at least. -/
theorem rootLines_length (roots : List Bytes) (further : Bytes) :
    roots.length + further.length + 2 ≤ (rootLines roots further).length := by
  induction roots with
  | nil => simp [rootLines, cstr]
  | cons root roots ih =>
      rw [rootLines_cons]
      simp only [List.length_cons, List.length_append]
      omega

section Roots

variable {further : Bytes}

/-- The line with the hash sign ends the list. -/
theorem readRoots_hash (fuel : Nat) (newRoots : List Bytes) :
    (readRoots (fuel + 1) newRoots).run ⟨rootLines [] further, false⟩ =
      .ok (some newRoots, ⟨further, false⟩) := by
  have hline : readLine.run ⟨cstr "#" ++ newline :: further, false⟩ =
      .ok (some (cstr "#"), ⟨further, false⟩) :=
    readLine_short _ ⟨by decide, by decide⟩ (by decide)
  unfold readRoots
  rw [rootLines, List.flatMap_nil, List.nil_append, run_bind_of_run hline]
  dsimp only
  rw [if_neg (by decide), if_pos rfl]
  rfl

/-- A line that is neither empty nor a hash sign is taken for a root. -/
theorem readRoots_line {line : Bytes} {stream stream' : Stream}
    (hline : readLine.run stream = .ok (some line, stream')) (hne : line ≠ [])
    (hhash : line ≠ cstr "#") (fuel : Nat) (newRoots : List Bytes) :
    (readRoots (fuel + 1) newRoots).run stream =
      (readRoots fuel (newRoots ++ [dropSlash line])).run stream' := by
  conv_lhs => unfold readRoots
  rw [run_bind_of_run hline]
  dsimp only
  rw [if_neg hne, if_neg hhash]

/-- Roots that fit into the buffer are read as they are, apart from a slash at their ends. -/
theorem readRoots_short (roots : List Bytes) :
    ∀ (fuel : Nat) (newRoots : List Bytes), roots.length < fuel →
      (∀ root ∈ roots, root ≠ [] ∧ LineText root ∧ root ≠ cstr "#" ∧
        root.length < INPUT_BUF_LEN - 1) →
      (readRoots fuel newRoots).run ⟨rootLines roots further, false⟩ =
        .ok (some (newRoots ++ roots.map dropSlash), ⟨further, false⟩) := by
  induction roots with
  | nil =>
      intro fuel newRoots hfuel _
      obtain ⟨n, rfl⟩ : ∃ n, fuel = n + 1 := ⟨fuel - 1, by omega⟩
      rw [List.map_nil, List.append_nil]
      exact readRoots_hash n newRoots
  | cons root roots ih =>
      intro fuel newRoots hfuel hroots
      obtain ⟨n, rfl⟩ : ∃ n, fuel = n + 1 := ⟨fuel - 1, by simp at hfuel; omega⟩
      obtain ⟨hne, htext, hhash, hshort⟩ := hroots root (by simp)
      rw [rootLines_cons, readRoots_line (readLine_short _ htext hshort) hne hhash,
        ih n _ (by simpa using hfuel) fun r hr => hroots r (List.mem_cons_of_mem _ hr),
        List.map_cons, List.append_assoc, List.singleton_append]

/-- If a list is read up to the hash sign that the IDE has written, it has at least the elements
that were written, and more if one of them does not fit into the buffer.  The induction is
on the lines as they are read, so that the pieces of a long line count as lines. -/
theorem readRoots_pieces :
    ∀ (fuel : Nat) (roots : List Bytes) (newRoots result : List Bytes),
      (∀ root ∈ roots, LineText root) →
      (readRoots fuel newRoots).run ⟨rootLines roots further, false⟩ =
        .ok (some result, ⟨further, false⟩) →
      newRoots.length + roots.length ≤ result.length ∧
        (result.length = newRoots.length + roots.length →
          ∀ root ∈ roots, root.length < INPUT_BUF_LEN - 1) := by
  intro fuel
  induction fuel with
  | zero =>
      intro roots newRoots result _ hrun
      contradiction
  | succ fuel ih =>
      intro roots newRoots result htexts hrun
      cases roots with
      | nil =>
          rw [readRoots_hash] at hrun
          cases hrun
          simp
      | cons root roots =>
          have htext := htexts root (by simp)
          have hrest : ∀ r ∈ roots, LineText r := fun r hr => htexts r (List.mem_cons_of_mem _ hr)
          rw [rootLines_cons] at hrun
          by_cases hshort : root.length < INPUT_BUF_LEN - 1
          · have hline := readLine_short (rootLines roots further) htext hshort
            have hhash : root ≠ cstr "#" := by
              rintro rfl
              unfold readRoots at hrun
              rw [run_bind_of_run hline] at hrun
              dsimp only at hrun
              rw [if_neg (by decide), if_pos rfl] at hrun
              -- the list would end before the rest of it was read
              have hstream : rootLines roots further = further :=
                congrArg Stream.rest (congrArg Prod.snd (Except.ok.inj hrun))
              have hlength := rootLines_length roots further
              rw [hstream] at hlength
              omega
            have hne : root ≠ [] := by
              rintro rfl
              unfold readRoots at hrun
              rw [run_bind_of_run hline] at hrun
              dsimp only at hrun
              rw [if_pos rfl] at hrun
              cases hrun
            rw [readRoots_line hline hne hhash] at hrun
            obtain ⟨hle, hfit⟩ := ih roots _ result hrest hrun
            rw [List.length_append, List.length_singleton] at hle hfit
            refine ⟨by rw [List.length_cons]; omega, fun heq => ?_⟩
            rw [List.length_cons] at heq
            exact List.forall_mem_cons.mpr ⟨hshort, hfit (by omega)⟩
          · have hlong : INPUT_BUF_LEN - 1 ≤ root.length := Nat.le_of_not_lt hshort
            have hline := readLine_long (newline :: rootLines roots further) htext hlong
            have hlength : (root.take (INPUT_BUF_LEN - 1)).length = INPUT_BUF_LEN - 1 :=
              List.length_take_of_le hlong
            have hne : root.take (INPUT_BUF_LEN - 1) ≠ [] := by
              intro h
              rw [h] at hlength
              exact absurd hlength (by decide)
            have hhash : root.take (INPUT_BUF_LEN - 1) ≠ cstr "#" := by
              intro h
              rw [h] at hlength
              exact absurd hlength (by decide)
            rw [readRoots_line hline hne hhash, ← rootLines_cons] at hrun
            have hpiece : LineText (root.drop (INPUT_BUF_LEN - 1)) :=
              ⟨fun h => htext.1 (List.mem_of_mem_drop h), fun h => htext.2 (List.mem_of_mem_drop h)⟩
            obtain ⟨hle, -⟩ := ih (root.drop (INPUT_BUF_LEN - 1) :: roots) _ result
              (List.forall_mem_cons.mpr ⟨hpiece, hrest⟩) hrun
            rw [List.length_append, List.length_singleton, List.length_cons] at hle
            rw [List.length_cons]
            exact ⟨by omega, fun heq => by omega⟩

end Roots

/-! ## Decoding -/

/-- {lit}`read_input` drops a slash as it should, unless a flat marker is all that is left. -/
theorem decoded_dropSlash_iff {root : Bytes} (hne : root ≠ []) :
    Decoded root (dropSlash root) ↔ root ≠ cstr "|/" := by
  unfold Decoded dropSlash
  by_cases hslash : 1 < root.length ∧ root.getLast? = some slash
  · rw [if_pos hslash]
    obtain ⟨hlength, hlast⟩ := hslash
    have hback : root.dropLast ++ [slash] = root := List.dropLast_append_getLast? slash hlast
    have hneq : root.dropLast ≠ root := by
      intro h
      have := congrArg List.length h
      rw [List.length_dropLast] at this
      omega
    have hleft : root.dropLast ≠ [] := by
      intro h
      rw [h] at hback
      rw [← hback] at hlength
      exact absurd hlength (by decide)
    constructor
    · rintro (h | ⟨-, hpath⟩) rfl
      · exact hneq h
      · exact hpath (by decide)
    · intro hroot
      refine Or.inr ⟨hback, fun hempty => hroot ?_⟩
      unfold unflatten splitRoot at hempty
      split at hempty
      · rename_i hpipe
        obtain ⟨b, bs, hcons⟩ := List.exists_cons_of_ne_nil hleft
        rw [hcons] at hpipe hempty
        have hb : b = pipe := by simpa using hpipe
        have hbs : bs = [] := by simpa using hempty
        rw [← hback, hcons, hb, hbs]
        decide
      · exact absurd hempty hleft
  · rw [if_neg hslash]
    refine ⟨fun _ => ?_, fun _ => Or.inl rfl⟩
    rintro rfl
    exact hslash (by decide)

/-- {lit}`read_input` on a list of roots, in terms of the loop. -/
theorem readInput_rootsCommand (roots : List Bytes) (further : Bytes) (newRoots : List Bytes)
    (stream : Stream) :
    readInput.run ⟨rootsCommand roots further, false⟩ = .ok (.updateRoots newRoots, stream) ↔
      (readRoots ((rootLines roots further).length + 1) []).run ⟨rootLines roots further, false⟩ =
        .ok (some newRoots, stream) := by
  have hline : readLine.run ⟨rootsCommand roots further, false⟩ =
      .ok (some (cstr "ROOTS"), ⟨rootLines roots further, false⟩) :=
    readLine_short _ ⟨by decide, by decide⟩ (by decide)
  unfold readInput
  rw [run_bind_of_run hline]
  dsimp only
  rw [if_neg (by decide), if_pos rfl,
    run_bind_of_run (a := (⟨rootLines roots further, false⟩ : Stream)) rfl, StateT.run_bind]
  dsimp only
  rcases (readRoots ((rootLines roots further).length + 1) []).run
      ⟨rootLines roots further, false⟩ with e | ⟨_ | newRoots', stream'⟩
  all_goals
    constructor
    · intro h
      cases h
      try rfl
    · intro h
      cases h
      try rfl

/-- A list of non-empty roots without newlines and NUL bytes, none of them a hash sign, is decoded
exactly, whatever follows it, if and only if every root fits into the line buffer together with its
newline and the final NUL and none of them is the flat root of the whole tree. -/
theorem roots_decoded_iff (roots : List Bytes)
    (hroots : ∀ root ∈ roots, root ≠ [] ∧ newline ∉ root ∧ 0 ∉ root ∧ root ≠ cstr "#")
    (further : Bytes) :
    (∃ newRoots, readInput.run ⟨rootsCommand roots further, false⟩ =
        .ok (.updateRoots newRoots, ⟨further, false⟩) ∧
      List.Forall₂ Decoded roots newRoots) ↔
      ∀ root ∈ roots, root.length ≤ 2046 ∧ root ≠ cstr "|/" := by
  have hshort : (∀ root ∈ roots, root.length < INPUT_BUF_LEN - 1) →
      readInput.run ⟨rootsCommand roots further, false⟩ =
        .ok (.updateRoots (roots.map dropSlash), ⟨further, false⟩) := by
    intro hfits
    rw [readInput_rootsCommand]
    have hfuel := rootLines_length roots further
    refine readRoots_short roots _ [] (by omega) fun root hroot => ?_
    obtain ⟨hne, hnewline, hnul, hhash⟩ := hroots root hroot
    exact ⟨hne, ⟨hnewline, hnul⟩, hhash, hfits root hroot⟩
  have hdecoded : List.Forall₂ Decoded roots (roots.map dropSlash) ↔
      ∀ root ∈ roots, root ≠ cstr "|/" := by
    rw [List.forall₂_map_right_iff, List.forall₂_same]
    exact forall₂_congr fun root hroot => decoded_dropSlash_iff (hroots root hroot).1
  constructor
  · rintro ⟨newRoots, hrun, hdec⟩
    have hloop := (readInput_rootsCommand roots further newRoots _).mp hrun
    obtain ⟨-, hfit⟩ := readRoots_pieces _ roots [] newRoots
      (fun root hroot => ⟨(hroots root hroot).2.1, (hroots root hroot).2.2.1⟩) hloop
    have hfits := hfit (by rw [List.length_nil, Nat.zero_add]; exact hdec.length_eq.symm)
    rw [hshort hfits] at hrun
    cases hrun
    exact fun root hroot =>
      ⟨Nat.le_of_lt_succ (hfits root hroot), hdecoded.mp hdec root hroot⟩
  · intro hgood
    have hfits : ∀ root ∈ roots, root.length < INPUT_BUF_LEN - 1 := fun root hroot =>
      Nat.lt_succ_of_le (hgood root hroot).1
    exact ⟨_, hshort hfits, hdecoded.mpr fun root hroot => (hgood root hroot).2⟩

/-- A flat root and a recursive one, with a slash at their ends, are decoded. -/
theorem roots_decoded_iff_two :
    ∃ newRoots, readInput.run ⟨rootsCommand [cstr "|/p/", cstr "/r/"] (cstr "EXIT\n"), false⟩ =
        .ok (.updateRoots newRoots, ⟨cstr "EXIT\n", false⟩) ∧
      List.Forall₂ Decoded [cstr "|/p/", cstr "/r/"] newRoots :=
  (roots_decoded_iff [cstr "|/p/", cstr "/r/"] (by decide) (cstr "EXIT\n")).mpr (by decide)

/-- The flat root {lit}`|/` loses its path. -/
theorem flat_top_root_emptied :
    readInput.run ⟨cstr "ROOTS\n|/\n#\n", false⟩ = .ok (.updateRoots [cstr "|"], ⟨[], false⟩) ∧
      ¬ Decoded (cstr "|/") (cstr "|") := by
  refine ⟨by decide +kernel, ?_⟩
  rintro (h | ⟨-, h⟩)
  · exact absurd h (by decide)
  · exact h (by decide)

end FsNotifier
end IdeMultiarch
