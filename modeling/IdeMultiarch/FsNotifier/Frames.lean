import IdeMultiarch.Library.Lines
import IdeMultiarch.FsNotifier.Reports

/-!
# fsnotifier - frames

What is written to the standard output is a sequence of frames, each a word on a line of its own
with what belongs to it on the lines that follow.  The IDE reads lines, and takes a NUL byte in a
path for a newline.

Main results:

- Theorem {lit}`parseFrames_lines`: frames are read back from their lines.
- Theorem {lit}`decode_encode_iff`: frames are read back from their text if no line is broken.
-/

namespace IdeMultiarch
namespace FsNotifier

open Library

/-! ## Frames -/

/-- One frame, with the paths as they are in the file system. -/
inductive Frame
  | event (word : EventWord) (path : Bytes)
  | reset
  | message (text : Bytes)
  | giveUp
  | unwatchable (paths : List Bytes)
deriving DecidableEq, Repr

def EventWord.text : EventWord → Bytes
  | .CREATE => cstr "CREATE"
  | .CHANGE => cstr "CHANGE"
  | .STATS => cstr "STATS"
  | .DELETE => cstr "DELETE"

/-- The lines of a frame, as {lit}`report_event` and {lit}`output` write them. -/
def Frame.lines : Frame → List Bytes
  | .event word path => [word.text, maskNewlines path]
  | .reset => [cstr "RESET"]
  | .message text => [cstr "MESSAGE", text]
  | .giveUp => [cstr "GIVEUP"]
  | .unwatchable paths => cstr "UNWATCHEABLE" :: (paths ++ [cstr "#"])

/-- The text of some frames. -/
def encode (frames : List Frame) : Bytes :=
  unlines newline (frames.flatMap Frame.lines)

@[simp]
theorem encode_nil : encode [] = [] :=
  rfl

@[simp]
theorem encode_append (front back : List Frame) :
    encode (front ++ back) = encode front ++ encode back := by
  simp [encode]

/-- The frames in which a report is written. -/
def Report.frames : Report → List Frame
  | .updating _ => []
  | .registered _ _ => []
  | .event word path => [.event word path]
  | .appeared _ _ path => [.event .CREATE path, .event .CHANGE path]
  | .disappeared _ path => [.event .DELETE path]
  | .reset => [.reset]
  | .message text => [.message text]
  | .unwatchable paths => [.unwatchable paths]
  | .gaveUp => [.giveUp]

/-- The frames of a log. -/
def framesOf (log : List Report) : List Frame :=
  log.flatMap Report.frames

@[simp]
theorem framesOf_append (front back : List Report) :
    framesOf (front ++ back) = framesOf front ++ framesOf back :=
  List.flatMap_append

/-! ## Masked paths -/

/-- A reader takes NUL bytes for newlines. -/
def unmask (line : Bytes) : Bytes :=
  line.map fun b => if b = 0 then newline else b

theorem unmask_of_not_mem {line : Bytes} (hline : 0 ∉ line) : unmask line = line := by
  unfold unmask
  conv_rhs => rw [← List.map_id line]
  apply List.map_congr_left
  intro b hb
  have hne : b ≠ 0 := fun h => hline (h ▸ hb)
  rw [if_neg hne, id_eq]

theorem unmask_maskNewlines {path : Bytes} (hpath : 0 ∉ path) :
    unmask (maskNewlines path) = path := by
  unfold unmask maskNewlines
  rw [List.map_map]
  conv_rhs => rw [← List.map_id path]
  apply List.map_congr_left
  intro b hb
  have hne : b ≠ 0 := fun h => hpath (h ▸ hb)
  by_cases hnewline : b = newline
  · simp [hnewline]
  · simp [hnewline, hne]

theorem newline_not_mem_maskNewlines (path : Bytes) : newline ∉ maskNewlines path := by
  unfold maskNewlines
  rw [List.mem_map]
  rintro ⟨b, -, hb⟩
  split at hb
  · exact absurd hb (by decide)
  · contradiction

/-! ## Reading frames -/

/-- The word of an event. -/
def EventWord.ofText (text : Bytes) : Option EventWord :=
  [EventWord.CREATE, .CHANGE, .STATS, .DELETE].find? fun word => word.text = text

/-- Paths up to a hash sign, and the lines that follow. -/
def parsePaths : List Bytes → Option (List Bytes × List Bytes)
  | [] => none
  | line :: lines =>
      if line = cstr "#" then some ([], lines)
      else (parsePaths lines).map fun (paths, rest) => (unmask line :: paths, rest)

/-- The first frame, and the lines that follow. -/
def parseFrame : List Bytes → Option (Frame × List Bytes)
  | [] => none
  | word :: lines =>
      if word = cstr "RESET" then some (.reset, lines)
      else if word = cstr "GIVEUP" then some (.giveUp, lines)
      else if word = cstr "UNWATCHEABLE" then
        (parsePaths lines).map fun (paths, rest) => (.unwatchable paths, rest)
      else
        match lines with
        | [] => none
        | line :: rest =>
            if word = cstr "MESSAGE" then some (.message line, rest)
            else (EventWord.ofText word).map fun event => (.event event (unmask line), rest)

/-- All frames; there are at most as many as there are lines. -/
def parseFrames : Nat → List Bytes → Option (List Frame)
  | _, [] => some []
  | 0, _ :: _ => none
  | fuel + 1, line :: lines => do
      let (frame, rest) ← parseFrame (line :: lines)
      let frames ← parseFrames fuel rest
      some (frame :: frames)

/-- What a reader makes of the output. -/
def decode (bytes : Bytes) : Option (List Frame) := do
  let lines ← completeLines newline bytes
  parseFrames lines.length lines

/-- A frame whose paths survive: no NUL bytes, and no path is taken for the end of a list. -/
def Frame.Readable : Frame → Prop
  | .event _ path => 0 ∉ path
  | .unwatchable paths => ∀ path ∈ paths, path ≠ cstr "#" ∧ 0 ∉ path
  | _ => True

/-- A frame none of whose lines is broken. -/
def Frame.OnLines (frame : Frame) : Prop :=
  ∀ line ∈ frame.lines, newline ∉ line

/-! ## Round trip -/

theorem parsePaths_append {paths : List Bytes}
    (hpaths : ∀ path ∈ paths, path ≠ cstr "#" ∧ 0 ∉ path) (rest : List Bytes) :
    parsePaths (paths ++ cstr "#" :: rest) = some (paths, rest) := by
  induction paths with
  | nil => rfl
  | cons path paths ih =>
      obtain ⟨⟨hhash, hnul⟩, hmore⟩ := List.forall_mem_cons.mp hpaths
      rw [List.cons_append, parsePaths, if_neg hhash, ih hmore, unmask_of_not_mem hnul]
      rfl

/-- A frame is read back from its lines, whatever follows. -/
theorem parseFrame_append {frame : Frame} (hframe : frame.Readable) (rest : List Bytes) :
    parseFrame (frame.lines ++ rest) = some (frame, rest) := by
  cases frame with
  | event word path =>
      have hpath := unmask_maskNewlines hframe
      cases word with
      | CREATE => simp [Frame.lines, parseFrame, EventWord.text, EventWord.ofText, cstr, hpath]
      | CHANGE => simp [Frame.lines, parseFrame, EventWord.text, EventWord.ofText, cstr, hpath]
      | STATS => simp [Frame.lines, parseFrame, EventWord.text, EventWord.ofText, cstr, hpath]
      | DELETE => simp [Frame.lines, parseFrame, EventWord.text, EventWord.ofText, cstr, hpath]
  | reset => rfl
  | message text => simp [Frame.lines, parseFrame, cstr]
  | giveUp => rfl
  | unwatchable paths =>
      have hlines : (Frame.unwatchable paths).lines ++ rest =
          cstr "UNWATCHEABLE" :: (paths ++ cstr "#" :: rest) := by
        simp [Frame.lines]
      unfold parseFrame
      rw [hlines]
      dsimp only
      rw [if_neg (by decide), if_neg (by decide), if_pos rfl, parsePaths_append hframe]
      rfl

/-- Frames are read back from their lines. -/
theorem parseFrames_lines {frames : List Frame} (hframes : ∀ frame ∈ frames, frame.Readable) :
    ∀ fuel, (frames.flatMap Frame.lines).length ≤ fuel →
      parseFrames fuel (frames.flatMap Frame.lines) = some frames := by
  induction frames with
  | nil => intro fuel _; cases fuel <;> rfl
  | cons frame frames ih =>
      intro fuel hfuel
      obtain ⟨hframe, hrest⟩ := List.forall_mem_cons.mp hframes
      rw [List.flatMap_cons] at hfuel ⊢
      have hparse := parseFrame_append hframe (frames.flatMap Frame.lines)
      obtain ⟨line, lines, hlines⟩ : ∃ line lines, frame.lines = line :: lines := by
        cases frame <;> exact ⟨_, _, rfl⟩
      rw [hlines, List.cons_append] at hfuel hparse ⊢
      rw [List.length_cons, List.length_append] at hfuel
      obtain ⟨n, rfl⟩ : ∃ n, fuel = n + 1 := ⟨fuel - 1, by omega⟩
      simp only [parseFrames, hparse, ih hrest n (by omega), Option.bind_eq_bind, Option.bind_some]

/-! ## Broken lines -/

theorem parsePaths_length {lines paths rest : List Bytes}
    (hparse : parsePaths lines = some (paths, rest)) :
    paths.length + 1 + rest.length = lines.length := by
  induction lines generalizing paths with
  | nil => contradiction
  | cons line lines ih =>
      unfold parsePaths at hparse
      split at hparse
      · cases hparse
        simp [Nat.add_comm]
      · obtain ⟨⟨paths', rest'⟩, hrest, heq⟩ := Option.map_eq_some_iff.mp hparse
        cases heq
        have := ih hrest
        simp only [List.length_cons]
        omega

/-- A frame takes as many lines as it is written on. -/
theorem parseFrame_length {lines rest : List Bytes} {frame : Frame}
    (hparse : parseFrame lines = some (frame, rest)) :
    frame.lines.length + rest.length = lines.length := by
  unfold parseFrame at hparse
  split at hparse
  · contradiction
  · rename_i word lines
    split at hparse
    · cases hparse
      simp [Frame.lines, Nat.add_comm]
    · split at hparse
      · cases hparse
        simp [Frame.lines, Nat.add_comm]
      · split at hparse
        · obtain ⟨⟨paths, rest'⟩, hpaths, heq⟩ := Option.map_eq_some_iff.mp hparse
          cases heq
          have := parsePaths_length hpaths
          simp only [Frame.lines, List.length_cons, List.length_append, List.length_nil]
          omega
        · split at hparse
          · contradiction
          · split at hparse
            · cases hparse
              simp [Frame.lines]
              omega
            · obtain ⟨event, -, heq⟩ := Option.map_eq_some_iff.mp hparse
              cases heq
              simp [Frame.lines]
              omega

theorem parseFrames_length {fuel : Nat} :
    ∀ {lines : List Bytes} {frames : List Frame}, parseFrames fuel lines = some frames →
      (frames.flatMap Frame.lines).length = lines.length := by
  induction fuel with
  | zero =>
      intro lines frames hparse
      cases lines with
      | nil => cases hparse; rfl
      | cons line lines => contradiction
  | succ fuel ih =>
      intro lines frames hparse
      cases lines with
      | nil => cases hparse; rfl
      | cons line lines =>
          unfold parseFrames at hparse
          obtain ⟨⟨frame, rest⟩, hframe, hparse⟩ := Option.bind_eq_some_iff.mp hparse
          obtain ⟨frames', hrest, heq⟩ := Option.bind_eq_some_iff.mp hparse
          cases heq
          rw [List.flatMap_cons, List.length_append, ih hrest, parseFrame_length hframe]

/-- Frames are read back from their text if and only if none of their lines is broken.  A newline
within a line adds a line, and then the number of lines is not that of the frames. -/
theorem decode_encode_iff {frames : List Frame} (hframes : ∀ frame ∈ frames, frame.Readable) :
    decode (encode frames) = some frames ↔ ∀ frame ∈ frames, frame.OnLines := by
  constructor
  · intro hdecode
    obtain ⟨lines, hlines, hparse⟩ := Option.bind_eq_some_iff.mp hdecode
    have hlength := parseFrames_length hparse
    have hunbroken := not_mem_of_completeLines hlines hlength.symm
    intro frame hframe line hline
    exact hunbroken line (List.mem_flatMap.mpr ⟨frame, hframe, hline⟩)
  · intro hunbroken
    have hlines : completeLines newline (encode frames) = some (frames.flatMap Frame.lines) := by
      apply completeLines_unlines
      intro line hline
      obtain ⟨frame, hframe, hmem⟩ := List.mem_flatMap.mp hline
      exact hunbroken frame hframe line hmem
    unfold decode
    rw [hlines]
    exact parseFrames_lines hframes _ (Nat.le_refl _)

/-- Only the text of a message and the paths of a list can break a line. -/
theorem Frame.onLines_iff (frame : Frame) :
    frame.OnLines ↔ match frame with
      | .message text => newline ∉ text
      | .unwatchable paths => ∀ path ∈ paths, newline ∉ path
      | _ => True := by
  unfold Frame.OnLines
  cases frame with
  | event word path =>
      have hmask := newline_not_mem_maskNewlines path
      have hword : newline ∉ word.text := by cases word <;> decide
      simp [Frame.lines, hmask, hword]
  | reset => exact iff_of_true (by decide) trivial
  | message text =>
      have hword : newline ∉ cstr "MESSAGE" := by decide
      simp [Frame.lines, hword]
  | giveUp => exact iff_of_true (by decide) trivial
  | unwatchable paths =>
      have hword : newline ∉ cstr "UNWATCHEABLE" := by decide
      have hhash : newline ∉ cstr "#" := by decide
      simp [Frame.lines, hword, hhash, or_imp, forall_and]

end FsNotifier
end IdeMultiarch
