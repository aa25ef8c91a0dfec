import IdeMultiarch.Launcher.Std
import IdeMultiarch.Library.Json

/-!
# Launcher - the product descriptor

How the launcher reads {lit}`product-info.json` and selects what a command starts.

Main results:

- Theorem {lit}`computeLaunchInfo_isOk`: when a launch can be selected.
-/

namespace IdeMultiarch
namespace Launcher

open Library (Json)
open Library.Json

/-! ## The descriptor -/

/-- {lit}`ProductInfoCustomCommandField` -/
structure ProductInfoCustomCommandField where
  commands : List Str
  vmOptionsFilePath : Option Str
  bootClassPathJarNames : List Str
  additionalJvmArguments : List Str
  mainClass : Option Str
  envVarBaseName : Option Str
  dataDirectoryName : Option Str
deriving DecidableEq, Repr

/-- {lit}`ProductInfoLaunchField` -/
structure ProductInfoLaunchField where
  vmOptionsFilePath : Str
  bootClassPathJarNames : List Str
  additionalJvmArguments : List Str
  mainClass : Str
  customCommands : Option (List ProductInfoCustomCommandField)
deriving DecidableEq, Repr

/-- {lit}`ProductInfo` -/
structure ProductInfo where
  productCode : Str
  productVendor : Str
  envVarBaseName : Str
  dataDirectoryName : Str
  launch : List ProductInfoLaunchField
deriving DecidableEq, Repr

/-! ## Reading -/

/-- The fields of a structure: named in an object, or by their position in an array. -/
inductive Fields
  | named (members : Members Str)
  | positional (items : List (Json Str))

/-- No name of a field is there twice. -/
def NamedOnce (fieldNames : List Str) (members : Members Str) : Prop :=
  ∀ name ∈ fieldNames, Once name members

instance (fieldNames : List Str) (members : Members Str) : Decidable (NamedOnce fieldNames members) :=
  inferInstanceAs (Decidable (∀ name ∈ fieldNames, Once name members))

/-- The fields of a structure with these names.  Other members of an object are ignored. -/
def fieldsOf (fieldNames : List Str) : Json Str → Option Fields
  | .object members => if NamedOnce fieldNames members then some (.named members) else none
  | .array items => if items.length ≤ fieldNames.length then some (.positional items) else none
  | _ => none

/-- The fields of an object. -/
theorem fieldsOf_object {fieldNames : List Str} {members : Members Str} {fields : Fields} :
    fieldsOf fieldNames (.object members) = some fields ↔
      NamedOnce fieldNames members ∧ .named members = fields := by
  unfold fieldsOf
  simp

/-- The fields in an array. -/
theorem fieldsOf_array {fieldNames : List Str} {items : List (Json Str)} {fields : Fields} :
    fieldsOf fieldNames (.array items) = some fields ↔
      items.length ≤ fieldNames.length ∧ .positional items = fields := by
  unfold fieldsOf
  simp

namespace Fields

variable {α : Type} (fields : Fields) (read : Json Str → Option α) (name : Str) (position : Nat)

/-- The value of a field. -/
def find : Option (Json Str) :=
  match fields with
  | named members => getMember name members
  | positional items => items[position]?

/-- A field that has to be there. -/
def required : Option α :=
  (fields.find name position).bind read

/-- A field with {lit}`#[serde(default = "Vec::new")]`. -/
def orEmpty (read : Json Str → Option (List α)) : Option (List α) :=
  match fields.find name position with
  | none => some []
  | some value => read value

/-- A field of type {lit}`Option`: only a named one may be missing. -/
def optional : Option (Option α) :=
  match fields.find name position with
  | some .null => some none
  | some value => (read value).map some
  | none =>
      match fields with
      | named _ => some none
      | positional _ => none

@[simp]
theorem find_named (members : Members Str) :
    (named members).find name position = getMember name members :=
  rfl

end Fields

/-- A field of type {lit}`String`. -/
def readString : Json Str → Option Str
  | .string text => some text
  | _ => none

/-- A field of type {lit}`Vec`. -/
def readVec {α : Type} (read : Json Str → Option α) : Json Str → Option (List α)
  | .array items => items.mapM read
  | _ => none

@[simp]
theorem readVec_array {α : Type} (read : Json Str → Option α) (items : List (Json Str)) :
    readVec read (.array items) = items.mapM read :=
  rfl

def ProductInfoCustomCommandField.fieldNames : List Str :=
  [lit "commands", lit "vmOptionsFilePath", lit "bootClassPathJarNames",
    lit "additionalJvmArguments", lit "mainClass", lit "envVarBaseName", lit "dataDirectoryName"]

/-- {lit}`Deserialize` for {lit}`ProductInfoCustomCommandField` -/
def ProductInfoCustomCommandField.deserialize (value : Json Str) :
    Option ProductInfoCustomCommandField := do
  let fields ← fieldsOf fieldNames value
  let commands ← fields.required (readVec readString) (lit "commands") 0
  let vmOptionsFilePath ← fields.optional readString (lit "vmOptionsFilePath") 1
  let bootClassPathJarNames ← fields.orEmpty (lit "bootClassPathJarNames") 2 (readVec readString)
  let additionalJvmArguments ← fields.orEmpty (lit "additionalJvmArguments") 3 (readVec readString)
  let mainClass ← fields.optional readString (lit "mainClass") 4
  let envVarBaseName ← fields.optional readString (lit "envVarBaseName") 5
  let dataDirectoryName ← fields.optional readString (lit "dataDirectoryName") 6
  return { commands, vmOptionsFilePath, bootClassPathJarNames, additionalJvmArguments, mainClass,
           envVarBaseName, dataDirectoryName }

def ProductInfoLaunchField.fieldNames : List Str :=
  [lit "vmOptionsFilePath", lit "bootClassPathJarNames", lit "additionalJvmArguments",
    lit "mainClass", lit "customCommands"]

/-- {lit}`Deserialize` for {lit}`ProductInfoLaunchField` -/
def ProductInfoLaunchField.deserialize (value : Json Str) : Option ProductInfoLaunchField := do
  let fields ← fieldsOf fieldNames value
  let vmOptionsFilePath ← fields.required readString (lit "vmOptionsFilePath") 0
  let bootClassPathJarNames ←
    fields.required (readVec readString) (lit "bootClassPathJarNames") 1
  let additionalJvmArguments ←
    fields.required (readVec readString) (lit "additionalJvmArguments") 2
  let mainClass ← fields.required readString (lit "mainClass") 3
  let customCommands ←
    fields.optional (readVec ProductInfoCustomCommandField.deserialize) (lit "customCommands") 4
  return { vmOptionsFilePath, bootClassPathJarNames, additionalJvmArguments, mainClass,
           customCommands }

def ProductInfo.fieldNames : List Str :=
  [lit "productCode", lit "productVendor", lit "envVarBaseName", lit "dataDirectoryName",
    lit "launch"]

/-- {lit}`Deserialize` for {lit}`ProductInfo` -/
def ProductInfo.deserialize (value : Json Str) : Option ProductInfo := do
  let fields ← fieldsOf fieldNames value
  let productCode ← fields.required readString (lit "productCode") 0
  let productVendor ← fields.required readString (lit "productVendor") 1
  let envVarBaseName ← fields.required readString (lit "envVarBaseName") 2
  let dataDirectoryName ← fields.required readString (lit "dataDirectoryName") 3
  let launch ← fields.required (readVec ProductInfoLaunchField.deserialize) (lit "launch") 4
  return { productCode, productVendor, envVarBaseName, dataDirectoryName, launch }

/-- What is read of a custom command that is an object. -/
theorem ProductInfoCustomCommandField.deserialize_object {members : Members Str}
    {custom : ProductInfoCustomCommandField} :
    deserialize (.object members) = some custom ↔
      NamedOnce fieldNames members ∧
      (Fields.named members).required (readVec readString) (lit "commands") 0 =
        some custom.commands ∧
      (Fields.named members).optional readString (lit "vmOptionsFilePath") 1 =
        some custom.vmOptionsFilePath ∧
      (Fields.named members).orEmpty (lit "bootClassPathJarNames") 2 (readVec readString) =
        some custom.bootClassPathJarNames ∧
      (Fields.named members).orEmpty (lit "additionalJvmArguments") 3 (readVec readString) =
        some custom.additionalJvmArguments ∧
      (Fields.named members).optional readString (lit "mainClass") 4 = some custom.mainClass ∧
      (Fields.named members).optional readString (lit "envVarBaseName") 5 =
        some custom.envVarBaseName ∧
      (Fields.named members).optional readString (lit "dataDirectoryName") 6 =
        some custom.dataDirectoryName := by
  constructor
  · intro h
    obtain ⟨_, hfields, h⟩ := Option.bind_eq_some_iff.mp h
    obtain ⟨honce, rfl⟩ := fieldsOf_object.mp hfields
    obtain ⟨_, hcommands, h⟩ := Option.bind_eq_some_iff.mp h
    obtain ⟨_, hvmOptions, h⟩ := Option.bind_eq_some_iff.mp h
    obtain ⟨_, hbootClassPath, h⟩ := Option.bind_eq_some_iff.mp h
    obtain ⟨_, harguments, h⟩ := Option.bind_eq_some_iff.mp h
    obtain ⟨_, hmainClass, h⟩ := Option.bind_eq_some_iff.mp h
    obtain ⟨_, henvVar, h⟩ := Option.bind_eq_some_iff.mp h
    obtain ⟨_, hdataDirectory, h⟩ := Option.bind_eq_some_iff.mp h
    cases h
    exact ⟨honce, hcommands, hvmOptions, hbootClassPath, harguments, hmainClass, henvVar,
      hdataDirectory⟩
  · rintro ⟨honce, hcommands, hvmOptions, hbootClassPath, harguments, hmainClass, henvVar,
      hdataDirectory⟩
    simp [deserialize, fieldsOf, honce, hcommands, hvmOptions, hbootClassPath, harguments, hmainClass,
      henvVar, hdataDirectory]

/-- What is read of a launch that is an object. -/
theorem ProductInfoLaunchField.deserialize_object {members : Members Str}
    {launch : ProductInfoLaunchField} :
    deserialize (.object members) = some launch ↔
      NamedOnce fieldNames members ∧
      (Fields.named members).required readString (lit "vmOptionsFilePath") 0 =
        some launch.vmOptionsFilePath ∧
      (Fields.named members).required (readVec readString) (lit "bootClassPathJarNames") 1 =
        some launch.bootClassPathJarNames ∧
      (Fields.named members).required (readVec readString) (lit "additionalJvmArguments") 2 =
        some launch.additionalJvmArguments ∧
      (Fields.named members).required readString (lit "mainClass") 3 = some launch.mainClass ∧
      (Fields.named members).optional (readVec ProductInfoCustomCommandField.deserialize)
        (lit "customCommands") 4 = some launch.customCommands := by
  constructor
  · intro h
    obtain ⟨_, hfields, h⟩ := Option.bind_eq_some_iff.mp h
    obtain ⟨honce, rfl⟩ := fieldsOf_object.mp hfields
    obtain ⟨_, hvmOptions, h⟩ := Option.bind_eq_some_iff.mp h
    obtain ⟨_, hbootClassPath, h⟩ := Option.bind_eq_some_iff.mp h
    obtain ⟨_, harguments, h⟩ := Option.bind_eq_some_iff.mp h
    obtain ⟨_, hmainClass, h⟩ := Option.bind_eq_some_iff.mp h
    obtain ⟨_, hcommands, h⟩ := Option.bind_eq_some_iff.mp h
    cases h
    exact ⟨honce, hvmOptions, hbootClassPath, harguments, hmainClass, hcommands⟩
  · rintro ⟨honce, hvmOptions, hbootClassPath, harguments, hmainClass, hcommands⟩
    simp [deserialize, fieldsOf, honce, hvmOptions, hbootClassPath, harguments, hmainClass, hcommands]

/-- What is read of a descriptor that is an object. -/
theorem ProductInfo.deserialize_object {members : Members Str} {productInfo : ProductInfo} :
    deserialize (.object members) = some productInfo ↔
      NamedOnce fieldNames members ∧
      (Fields.named members).required readString (lit "productCode") 0 =
        some productInfo.productCode ∧
      (Fields.named members).required readString (lit "productVendor") 1 =
        some productInfo.productVendor ∧
      (Fields.named members).required readString (lit "envVarBaseName") 2 =
        some productInfo.envVarBaseName ∧
      (Fields.named members).required readString (lit "dataDirectoryName") 3 =
        some productInfo.dataDirectoryName ∧
      (Fields.named members).required (readVec ProductInfoLaunchField.deserialize)
        (lit "launch") 4 = some productInfo.launch := by
  constructor
  · intro h
    obtain ⟨_, hfields, h⟩ := Option.bind_eq_some_iff.mp h
    obtain ⟨honce, rfl⟩ := fieldsOf_object.mp hfields
    obtain ⟨_, hcode, h⟩ := Option.bind_eq_some_iff.mp h
    obtain ⟨_, hvendor, h⟩ := Option.bind_eq_some_iff.mp h
    obtain ⟨_, henvVar, h⟩ := Option.bind_eq_some_iff.mp h
    obtain ⟨_, hdataDirectory, h⟩ := Option.bind_eq_some_iff.mp h
    obtain ⟨_, hlaunch, h⟩ := Option.bind_eq_some_iff.mp h
    cases h
    exact ⟨honce, hcode, hvendor, henvVar, hdataDirectory, hlaunch⟩
  · rintro ⟨honce, hcode, hvendor, henvVar, hdataDirectory, hlaunch⟩
    simp [deserialize, fieldsOf, honce, hcode, hvendor, henvVar, hdataDirectory, hlaunch]

/-! ## Selecting a launch -/

/-- {lit}`ProductLaunchInfo` -/
structure ProductLaunchInfo where
  productInfoLaunchField : ProductInfoLaunchField
  customEnvVarBaseName : Option Str
  customDataDirectoryName : Option Str
deriving DecidableEq, Repr

/-- The custom command that a command name selects. -/
def findCustomCommand (launchData : ProductInfoLaunchField) (commandName : Option Str) :
    Option ProductInfoCustomCommandField :=
  match commandName, launchData.customCommands with
  | some commandName, some commands =>
      commands.find? fun custom => decide (commandName ∈ custom.commands)
  | _, _ => none

/-- A list of the launch is replaced by one of the custom command that is not empty. -/
def orInherited (custom launch : List Str) : List Str :=
  if custom.isEmpty then launch else custom

/-- The launch for a custom command, or without one. -/
def launchInfoOf (launchData : ProductInfoLaunchField) :
    Option ProductInfoCustomCommandField → ProductLaunchInfo
  | none =>
      { productInfoLaunchField := launchData
        customEnvVarBaseName := none
        customDataDirectoryName := none }
  | some custom =>
      { productInfoLaunchField :=
          { vmOptionsFilePath := custom.vmOptionsFilePath.getD launchData.vmOptionsFilePath
            bootClassPathJarNames :=
              orInherited custom.bootClassPathJarNames launchData.bootClassPathJarNames
            additionalJvmArguments :=
              orInherited custom.additionalJvmArguments launchData.additionalJvmArguments
            mainClass := custom.mainClass.getD launchData.mainClass
            customCommands := none }
        customEnvVarBaseName := custom.envVarBaseName
        customDataDirectoryName := custom.dataDirectoryName }

/-- {lit}`compute_launch_info` -/
def computeLaunchInfo (productInfo : ProductInfo) (commandName : Option Str) :
    Except Error ProductLaunchInfo :=
  match productInfo.launch with
  | [launchData] => .ok (launchInfoOf launchData (findCustomCommand launchData commandName))
  | launch =>
      .error ⟨lit "Malformed product descriptor (expecting 1 'launch' record, got " ++
        (toString launch.length).toList ++ [')'], none⟩

/-- A launch can be selected when there is one record, whatever the command. -/
theorem computeLaunchInfo_isOk (productInfo : ProductInfo) (commandName : Option Str) :
    (∃ info, computeLaunchInfo productInfo commandName = .ok info) ↔
      productInfo.launch.length = 1 := by
  unfold computeLaunchInfo
  match productInfo.launch with
  | [] => simp
  | [launchData] => simp
  | _ :: _ :: _ => simp

/-- The base name of the environment variables for a selected launch. -/
def ProductLaunchInfo.envVarBaseName (info : ProductLaunchInfo) (productInfo : ProductInfo) : Str :=
  info.customEnvVarBaseName.getD productInfo.envVarBaseName

/-- The name of the data directory for a selected launch. -/
def ProductLaunchInfo.dataDirectoryName (info : ProductLaunchInfo) (productInfo : ProductInfo) :
    Str :=
  info.customDataDirectoryName.getD productInfo.dataDirectoryName

end Launcher
end IdeMultiarch
