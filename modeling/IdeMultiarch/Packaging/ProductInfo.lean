import IdeMultiarch.Library.Json
import IdeMultiarch.Packaging.Product

/-!
# Packaging - the product descriptor

The part of {lit}`IDETransformer` that rewrites {lit}`product-info.json`: the JNA option of the
base architecture becomes that of the target architecture, the option for the file watcher is
put behind it, and the descriptor tells the target architecture.

Main results:

- Theorem {lit}`transformProductInfo_document`: what becomes of the document that a text is.
-/

namespace IdeMultiarch
namespace Packaging

open Library.Results (bind_eq_ok)
open Library (Json)
open Library.Json

/-! ## Gson -/

/-- {lit}`JsonElement` -/
abbrev JsonElement := Json Name

/-- {lit}`JsonObject` -/
abbrev JsonObject := Members Name

/-- The library that reads and writes JSON. -/
structure Gson where
  fromJson : Bytes → Except Failure JsonObject
  toJson : JsonObject → Bytes

/-- What {lit}`fromJson` makes of a document: members are added to maps. -/
def toJsonObject : JsonElement → Except Failure JsonObject
  | .object members => .ok (mergedMembers members)
  | _ => .error (.runtimeException (str "JsonSyntaxException"))

/-- The library reads and writes texts that are documents.  It is not told to write nulls, so that
it leaves out the members that are null. -/
structure Gson.Documents (gson : Gson) (document : Bytes → Option JsonElement) : Prop where
  fromJson : ∀ raw value, document raw = some value → gson.fromJson raw = toJsonObject value
  toJson : ∀ members, document (gson.toJson members) = some (withoutNulls (.object members))

/-- {lit}`getAsString` -/
def getAsString : JsonElement → Except Failure Name
  | .string text => .ok text
  | .number text => .ok text
  | .bool value => .ok (if value then str "true" else str "false")
  | .array [item] => getAsString item
  | .array _ => .error (.runtimeException (str "IllegalStateException"))
  | .null => .error (.runtimeException (str "UnsupportedOperationException"))
  | .object _ => .error (.runtimeException (str "UnsupportedOperationException"))

/-- {lit}`getAsJsonObject` -/
def getAsJsonObject : JsonElement → Except Failure JsonObject
  | .object members => .ok members
  | _ => .error (.runtimeException (str "IllegalStateException"))

/-- {lit}`getAsJsonArray` -/
def getAsJsonArray : JsonElement → Except Failure (List JsonElement)
  | .array items => .ok items
  | _ => .error (.runtimeException (str "IllegalStateException"))

/-- A cast to {lit}`JsonArray`. -/
def castToJsonArray : JsonElement → Except Failure (List JsonElement)
  | .array items => .ok items
  | _ => .error (.runtimeException (str "ClassCastException"))

/-! ## The rewriting -/

/-- The product and the architectures of a build. -/
structure Target where
  product : Product
  baseArch : Arch
  targetArch : Arch
deriving DecidableEq, Repr

namespace Target

variable (target : Target)

/-- The JNA option for an architecture. -/
def jnaOption (arch : Arch) : Name :=
  str "-Djna.boot.library.path=$IDE_HOME/lib/jna/" ++ arch.normalize

/-- The option for the file watcher. -/
def fileWatcherOption : Name :=
  str "-Didea.filewatcher.executable.path=$IDE_HOME/bin/fsnotifier"

/-- The loop of {lit}`processAdditionalJvmArguments`: it ends with the first JNA option. -/
def rewriteArguments : List JsonElement → Except Failure (List JsonElement)
  | [] => .ok []
  | element :: elements => do
      let text ← getAsString element
      if text = jnaOption target.baseArch then
        return .string (jnaOption target.targetArch) :: .string fileWatcherOption :: elements
      else
        return element :: (← rewriteArguments elements)

/-- {lit}`processAdditionalJvmArguments` -/
def processAdditionalJvmArguments (obj : JsonObject) : Except Failure JsonObject := do
  match getMember (str "additionalJvmArguments") obj with
  | none => return obj
  | some additionalJvmArguments =>
      let elements ← getAsJsonArray additionalJvmArguments
      let rewritten ← target.rewriteArguments elements
      return addMember (str "additionalJvmArguments") (.array rewritten) obj

theorem processAdditionalJvmArguments_none {obj : JsonObject}
    (h : getMember (str "additionalJvmArguments") obj = none) :
    target.processAdditionalJvmArguments obj = .ok obj := by
  unfold processAdditionalJvmArguments
  rw [h]
  rfl

theorem processAdditionalJvmArguments_some {obj : JsonObject} {elements rewritten : List JsonElement}
    (h : getMember (str "additionalJvmArguments") obj = some (.array elements))
    (hrewritten : target.rewriteArguments elements = .ok rewritten) :
    target.processAdditionalJvmArguments obj =
      .ok (addMember (str "additionalJvmArguments") (.array rewritten) obj) := by
  unfold processAdditionalJvmArguments
  rw [h]
  simp only [getAsJsonArray, hrewritten, bind, Except.bind, pure, Except.pure]

/-- The loop over {lit}`customCommands`. -/
def rewriteCommands : List JsonElement → Except Failure (List JsonElement)
  | [] => .ok []
  | element :: elements => do
      let command ← getAsJsonObject element
      let rewritten ← target.processAdditionalJvmArguments command
      return .object rewritten :: (← rewriteCommands elements)

/-- What is done to the value of {lit}`launch`. -/
def rewriteLaunch (value : JsonElement) : Except Failure JsonElement := do
  match ← castToJsonArray value with
  | [element] =>
      let launch ← getAsJsonObject element
      let launch := addMember (str "arch") (.string target.targetArch.normalize) launch
      let launch ← target.processAdditionalJvmArguments launch
      match getMember (str "customCommands") launch with
      | none => .error (.runtimeException (str "NullPointerException"))
      | some customCommands =>
          let commands ← castToJsonArray customCommands
          let rewritten ← target.rewriteCommands commands
          return .array [.object (addMember (str "customCommands") (.array rewritten) launch)]
  | _ => .error (.gradleException (str "Expected exactly one launch"))

/-- {lit}`toUpperCase` and {lit}`replace('-', '_')` for the name of a launcher. -/
def envVarBaseName : Name :=
  target.product.getLauncherName.map fun c => if c = '-' then '_' else c.toUpper

/-- The loop over the descriptor: {lit}`hasBaseName` tells whether it has {lit}`envVarBaseName`. -/
def rewriteMembers (hasBaseName : Bool) (result : JsonObject) :
    JsonObject → Except Failure JsonObject
  | [] => .ok result
  | (key, value) :: members => do
      let value ← if key = str "launch" then target.rewriteLaunch value else pure value
      let result := addMember key value result
      let result :=
        if key = str "productCode" ∧ hasBaseName = false then
          addMember (str "envVarBaseName") (.string target.envVarBaseName) result
        else result
      rewriteMembers hasBaseName result members

/-- The transformer for {lit}`product-info.json` between reading and writing. -/
def rewriteProductInfo (productInfo : JsonObject) : Except Failure JsonObject :=
  target.rewriteMembers (getMember (str "envVarBaseName") productInfo).isSome [] productInfo

/-- The transformer for {lit}`product-info.json`. -/
def transformProductInfo (gson : Gson) (raw : Bytes) : Except Failure Bytes := do
  let productInfo ← gson.fromJson raw
  let result ← target.rewriteProductInfo productInfo
  return gson.toJson result

/-- What becomes of a document. -/
def rewriteDocument (value : JsonElement) : Except Failure JsonElement := do
  let productInfo ← toJsonObject value
  let result ← target.rewriteProductInfo productInfo
  return withoutNulls (.object result)

/-- The transformer rewrites the document that a text is. -/
theorem transformProductInfo_document {gson : Gson} {document : Bytes → Option JsonElement}
    (hgson : gson.Documents document) {raw result : Bytes} {value : JsonElement}
    (hraw : document raw = some value) (h : target.transformProductInfo gson raw = .ok result) :
    ∃ value', document result = some value' ∧ target.rewriteDocument value = .ok value' := by
  obtain ⟨productInfo, hread, h⟩ := bind_eq_ok.mp h
  obtain ⟨rewritten, hrewritten, h⟩ := bind_eq_ok.mp h
  cases h
  rw [hgson.fromJson raw value hraw] at hread
  refine ⟨_, hgson.toJson rewritten, ?_⟩
  unfold rewriteDocument
  rw [hread]
  exact bind_eq_ok.mpr ⟨productInfo, rfl, bind_eq_ok.mpr ⟨rewritten, hrewritten, rfl⟩⟩

end Target
end Packaging
end IdeMultiarch
