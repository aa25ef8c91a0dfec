import Mathlib.Data.List.DropRight
import IdeMultiarch.Packaging.ProductInfo

/-!
# Packaging - the launcher script

The part of {lit}`IDETransformer` that rewrites {lit}`bin/<launcher>.sh`: one line of the script has
the options of the virtual machine, which get the same changes as those in the descriptor.
-/

namespace IdeMultiarch
namespace Packaging

/-! ## Strings -/

/-- {lit}`String.lines`, with the part of a line that was read. -/
def linesFrom (line : Name) : Name → List Name
  | [] => if line = [] then [] else [line]
  | '\r' :: '\n' :: text => line :: linesFrom [] text
  | c :: text =>
      if c = '\n' ∨ c = '\r' then line :: linesFrom [] text else linesFrom (line ++ [c]) text

/-- {lit}`String.lines` -/
def lines (text : Name) : List Name :=
  linesFrom [] text

/-- {lit}`contains` -/
def contains (text part : Name) : Bool :=
  text.tails.any fun tail => part.isPrefixOf tail

/-- {lit}`trim` -/
def trim (text : Name) : Name :=
  (text.dropWhile (· ≤ ' ')).rdropWhile (· ≤ ' ')

/-- {lit}`split(" ")`: empty parts at the end are dropped. -/
def splitAtBlanks (text : Name) : List Name :=
  if ' ' ∈ text then (text.splitOn ' ').rdropWhile (· = []) else [text]

/-- An option in double quotes. -/
def quoted (text : Name) : Name :=
  '"' :: text ++ ['"']

namespace Target

variable (target : Target)

/-! ## The rewriting -/

/-- Whether a line has the options. -/
def isOptionLine (line : Name) : Bool :=
  contains line (str "-Didea.vendor.name=JetBrains") && line.getLast? == some '\\'

/-- What becomes of a line with the options. -/
def rewriteOptionLine (line : Name) : Except Failure Name :=
  match splitAtBlanks (trim line.dropLast) with
  | [] => .error (.runtimeException (str "IndexOutOfBoundsException"))
  | arg :: args =>
      let args := arg :: quoted fileWatcherOption :: args
      match args.idxOf? (quoted (jnaOption target.baseArch)) with
      | none => .error (.gradleException (str "Missing jna option"))
      | some idx =>
          let args := args.set idx (quoted (jnaOption target.targetArch))
          .ok (str "  " ++ (args.intersperse [' ']).flatten ++ str " \\\n")

/-- The loop over the lines. -/
def rewriteLines (foundVMOptions : Bool) (result : Name) : List Name → Except Failure Name
  | [] => if foundVMOptions then .ok result else .error (.gradleException (str "No VM options found"))
  | line :: lines =>
      if isOptionLine line then
        if foundVMOptions then .error (.gradleException (str "Duplicate JVM options"))
        else do
          let written ← target.rewriteOptionLine line
          rewriteLines true (result ++ written) lines
      else rewriteLines foundVMOptions (result ++ line ++ ['\n']) lines

/-- The transformer for the launcher script, on the text. -/
def rewriteScript (text : Name) : Except Failure Name :=
  target.rewriteLines false [] (lines text)

/-- The transformer for the launcher script: {lit}`new String` is given. -/
def transformScript (decode : Bytes → Name) (raw : Bytes) : Except Failure Bytes := do
  let result ← target.rewriteScript (decode raw)
  return utf8 result

end Target
end Packaging
end IdeMultiarch
