import Mathlib.Data.List.DropRight
import IdeMultiarch.Library.Text

/-!
# Launcher - strings, files and paths

What the launcher uses of its standard library, on Linux: strings, the lines of a file, paths,
and the questions that it asks the operating system.
-/

namespace IdeMultiarch
namespace Launcher

/-! ## Strings -/

/-- A Rust string. -/
abbrev Str := List Char

/-- The characters of a string literal of the source. -/
def lit (s : String) : Str :=
  s.toList

/-- The bytes of a file or a path. -/
abbrev Bytes := List UInt8

/-- {lit}`String::from_utf8` -/
def fromUtf8 (bytes : Bytes) : Option Str :=
  (ByteArray.mk bytes.toArray).utf8Decode?.map Array.toList

/-- {lit}`char::is_whitespace` -/
def isWhitespace (c : Char) : Bool :=
  let n := c.toNat
  (0x09 ≤ n && n ≤ 0x0D) || n == 0x20 || n == 0x85 || n == 0xA0 || n == 0x1680 ||
    (0x2000 ≤ n && n ≤ 0x200A) || n == 0x2028 || n == 0x2029 || n == 0x202F || n == 0x205F ||
    n == 0x3000

/-- {lit}`str::trim` -/
def trim (text : Str) : Str :=
  (text.dropWhile isWhitespace).rdropWhile isWhitespace

/-- {lit}`starts_with` -/
def startsWith (text start : Str) : Bool :=
  start.isPrefixOf text

/-- {lit}`ends_with` -/
def endsWith (text tail : Str) : Bool :=
  tail.isSuffixOf text

/-! ## Lines -/

/-- The lines of a file with the bytes that end them. -/
def rawLinesFrom (line : Bytes) : Bytes → List Bytes
  | [] => if line = [] then [] else [line]
  | byte :: bytes =>
      if byte = 0x0A then (line ++ [byte]) :: rawLinesFrom [] bytes
      else rawLinesFrom (line ++ [byte]) bytes

/-- A line without the characters that end it. -/
def chomp (line : Str) : Str :=
  if line.getLast? = some '\n' then
    if line.dropLast.getLast? = some '\r' then line.dropLast.dropLast else line.dropLast
  else line

/-- {lit}`BufRead::lines`: nothing for a line that is no text. -/
def lines (bytes : Bytes) : List (Option Str) :=
  (rawLinesFrom [] bytes).map fun line => (fromUtf8 line).map chomp

/-! ## Paths -/

/-- {lit}`PathBuf` -/
abbrev Path := Bytes

/-- {lit}`/` -/
def SLASH : UInt8 := 0x2F

/-- {lit}`.` -/
def DOT : UInt8 := 0x2E

/-- {lit}`PathBuf::from` -/
def Path.ofStr (text : Str) : Path :=
  text.flatMap String.utf8EncodeChar

/-- {lit}`Path::to_str` -/
def Path.toStr (path : Path) : Option Str :=
  fromUtf8 path

/-- What is made from a text is read as that text. -/
@[simp]
theorem Path.toStr_ofStr (text : Str) : (Path.ofStr text).toStr = some text := by
  have hbytes : ByteArray.mk (Path.ofStr text).toArray = text.utf8Encode :=
    ByteArray.ext List.data_toByteArray.symm
  rw [Path.toStr, fromUtf8, hbytes, List.utf8Decode?_utf8Encode]
  rfl

/-- A path that is read as a text is made from it. -/
theorem Path.ofStr_of_toStr {path : Path} {text : Str} (h : path.toStr = some text) :
    Path.ofStr text = path := by
  obtain ⟨chars, hchars, rfl⟩ := Option.map_eq_some_iff.mp h
  have hencode : chars.toList.utf8Encode = ByteArray.mk path.toArray := by
    have hget := ByteArray.utf8Encode_get_utf8Decode? (b := ByteArray.mk path.toArray)
      (h := by rw [hchars]; rfl)
    simpa [hchars] using hget
  have hdata := congrArg ByteArray.data hencode
  rw [List.utf8Encode, List.data_toByteArray] at hdata
  simpa [Path.ofStr] using congrArg Array.toList hdata

/-- How many bytes at the front, which begin no character, one replacement stands for. -/
def brokenLength : Bytes → Nat
  | first :: second :: rest =>
      let continues (byte : UInt8) : Bool := 0x80 ≤ byte && byte ≤ 0xBF
      if (first = 0xE0 ∧ 0xA0 ≤ second ∧ second ≤ 0xBF) ∨
          (first = 0xED ∧ 0x80 ≤ second ∧ second ≤ 0x9F) ∨
            (0xE1 ≤ first ∧ first ≤ 0xEF ∧ first ≠ 0xED ∧ continues second = true) then 2
      else if (first = 0xF0 ∧ 0x90 ≤ second ∧ second ≤ 0xBF) ∨
          (0xF1 ≤ first ∧ first ≤ 0xF3 ∧ continues second = true) ∨
            (first = 0xF4 ∧ 0x80 ≤ second ∧ second ≤ 0x8F) then
        if rest.head?.any continues then 3 else 2
      else 1
  | _ => 1

/-- The characters of some bytes, with a replacement for what is broken. -/
def replaceBroken : Nat → Bytes → Str
  | 0, _ => []
  | _ + 1, [] => []
  | fuel + 1, byte :: bytes =>
      match (ByteArray.mk (byte :: bytes).toArray).utf8DecodeChar? 0 with
      | some c => c :: replaceBroken fuel ((byte :: bytes).drop c.utf8Size)
      | none => '\uFFFD' :: replaceBroken fuel ((byte :: bytes).drop (brokenLength (byte :: bytes)))

/-- {lit}`to_string_lossy` -/
def Path.toStringLossy (path : Path) : Str :=
  path.toStr.getD (replaceBroken path.length path)

/-- {lit}`PathBuf::join` -/
def Path.join (path other : Path) : Path :=
  if other.head? = some SLASH then other
  else if path = [] ∨ path.getLast? = some SLASH then path ++ other
  else path ++ SLASH :: other

/-- A piece of a path that stands for nothing. -/
def isTrivialPiece (piece : Path) : Bool :=
  piece == [] || piece == Path.ofStr (lit ".")

/-- The pieces of a path from the last to the first, without trivial ones in front of the first. -/
def dropTrivialPieces : List Path → List Path
  | [] => []
  | [piece] => [piece]
  | piece :: pieces =>
      if isTrivialPiece piece then dropTrivialPieces pieces else piece :: pieces

/-- The pieces between slashes from the last to the first. -/
def Path.pieces (path : Path) : List Path :=
  dropTrivialPieces (path.splitOn SLASH).reverse

/-- {lit}`Path::file_name` -/
def Path.fileName (path : Path) : Option Path :=
  match path.pieces with
  | [] => none
  | piece :: _ =>
      if isTrivialPiece piece || piece == Path.ofStr (lit "..") then none else some piece

/-- {lit}`Path::extension` -/
def Path.extension (path : Path) : Option Path :=
  path.fileName.bind fun fileName =>
    match Library.Text.rsplitOnce DOT fileName with
    | none => none
    | some (before, after) => if before = [] then none else some after

/-- {lit}`Path::parent` -/
def Path.parent (path : Path) : Option Path :=
  match path.pieces with
  | [] => none
  | [piece] => if piece = [] then none else some []
  | _ :: pieces =>
      let rest := dropTrivialPieces pieces
      if rest = [[]] then some [SLASH] else some ([SLASH].intercalate rest.reverse)

/-! ## Errors -/

/-- {lit}`anyhow::Error`: a text, and the path that it is about. -/
structure Error where
  text : Str
  path : Option Path
deriving DecidableEq, Repr

/-- {lit}`bail!` with a path. -/
def bail {α : Type} (text : Str) (path : Path) : Except Error α :=
  .error ⟨text, some path⟩

/-- {lit}`context` -/
def context {α : Type} (text : Str) : Option α → Except Error α
  | none => .error ⟨text, none⟩
  | some value => .ok value

/-- {lit}`to_string_checked` -/
def Path.toStringChecked (path : Path) : Except Error Str :=
  match path.toStr with
  | none => bail (lit "Inconvertible path: ") path
  | some text => .ok text

/-! ## The operating system -/

/-- What the launcher asks the operating system for.  A variable that is no text counts as unset,
and a file that can be opened can be read to its end. -/
structure Os where
  envVar : Str → Option Str
  homeDir : Option Path
  isDir : Path → Bool
  isFile : Path → Bool
  read : Path → Option Bytes

namespace Os

variable (os : Os)

/-- {lit}`get_user_home` -/
def getUserHome : Except Error Path :=
  context (lit "Cannot detect a user home directory") os.homeDir

/-- {lit}`get_path_from_user_config` -/
def getPathFromUserConfig (configRaw : Str) (expectingDir : Bool) : Except Error Path :=
  let configValue := trim configRaw
  if configValue = [] then .error ⟨lit "Empty path", none⟩
  else
    let path := Path.ofStr configValue
    if expectingDir = true ∧ os.isDir path = false then bail (lit "Not a directory: ") path
    else if expectingDir = false ∧ os.isFile path = false then bail (lit "Not a file: ") path
    else .ok path

/-- {lit}`get_path_from_env_var` -/
def getPathFromEnvVar (envVarName : Str) (expectingDir : Bool) : Except Error Path := do
  let envVar ← context (lit "environment variable not found") (os.envVar envVarName)
  os.getPathFromUserConfig envVar expectingDir

end Os
end Launcher
end IdeMultiarch
