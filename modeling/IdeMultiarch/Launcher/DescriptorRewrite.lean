import IdeMultiarch.Launcher.ProductInfo
import IdeMultiarch.Packaging.ProductInfo

/-!
# Launcher - what the rewriting of a descriptor does to a launch

The build rewrites the descriptor that the launcher reads.  Whatever a command starts is then the
same but for the options, which are rewritten in the same way.  The build reads the members of
objects into maps and writes no nulls.  The launcher reads the same of what went through this, but
members that it does not know may be lost: those that are null, and those with a name that is there
twice.

Main results:

- Theorem {lit}`ProductInfo.ignores_deserialize`: the launcher reads the same of a changed descriptor.
- Theorem {lit}`deserialize_rewrittenDescriptor`: how a rewritten descriptor is read.
- Theorem {lit}`descriptor_rewrite_commutes_iff`: when the rewriting keeps all but the options.
- Theorem {lit}`rewritten_runs_iff`: when a descriptor can be rewritten and run.
-/

namespace IdeMultiarch
namespace Launcher

open Library (Json)
open Library.Json
open Library.Results (bind_eq_ok)
open Packaging (Failure Target str toJsonObject)
open Packaging.Target (fileWatcherOption jnaOption)

/-! ## Rewritten options -/

/-- What becomes of the options. -/
def rewriteJvmArguments (target : Target) : List Str → List Str
  | [] => []
  | arg :: args =>
      if arg = jnaOption target.baseArch then
        jnaOption target.targetArch :: fileWatcherOption :: args
      else arg :: rewriteJvmArguments target args

/-- What becomes of a custom command. -/
def ProductInfoCustomCommandField.rewritten (target : Target)
    (custom : ProductInfoCustomCommandField) : ProductInfoCustomCommandField :=
  { custom with additionalJvmArguments := rewriteJvmArguments target custom.additionalJvmArguments }

/-- What becomes of a launch. -/
def ProductInfoLaunchField.rewritten (target : Target) (launch : ProductInfoLaunchField) :
    ProductInfoLaunchField :=
  { launch with
    additionalJvmArguments := rewriteJvmArguments target launch.additionalJvmArguments
    customCommands := launch.customCommands.map fun commands =>
      commands.map fun custom => custom.rewritten target }

/-- What becomes of a descriptor. -/
def ProductInfo.rewritten (target : Target) (productInfo : ProductInfo) : ProductInfo :=
  { productInfo with launch := productInfo.launch.map fun launch => launch.rewritten target }

/-- A list of options is empty if it was. -/
theorem isEmpty_rewriteJvmArguments (target : Target) (args : List Str) :
    (rewriteJvmArguments target args).isEmpty = args.isEmpty := by
  cases args with
  | nil => rfl
  | cons arg args =>
      unfold rewriteJvmArguments
      split <;> rfl

/-- An option list is inherited after the rewriting if it was before. -/
theorem orInherited_rewriteJvmArguments (target : Target) (custom launch : List Str) :
    orInherited (rewriteJvmArguments target custom) (rewriteJvmArguments target launch) =
      rewriteJvmArguments target (orInherited custom launch) := by
  unfold orInherited
  rw [isEmpty_rewriteJvmArguments]
  split <;> rfl

/-- The build rewrites an array of texts as such. -/
theorem rewriteArguments_strings (target : Target) (args : List Str) :
    target.rewriteArguments (args.map .string) =
      .ok ((rewriteJvmArguments target args).map .string) := by
  induction args with
  | nil => rfl
  | cons arg args ih =>
      rw [List.map_cons, Target.rewriteArguments, rewriteJvmArguments, ih]
      by_cases harg : arg = jnaOption target.baseArch
      · simp [Packaging.getAsString, bind, Except.bind, pure, Except.pure, harg]
      · simp [Packaging.getAsString, bind, Except.bind, pure, Except.pure, harg]

/-- The command that a name selects is the rewritten one. -/
theorem findCustomCommand_rewritten (target : Target) (launch : ProductInfoLaunchField)
    (commandName : Option Str) :
    findCustomCommand (launch.rewritten target) commandName =
      (findCustomCommand launch commandName).map fun custom => custom.rewritten target := by
  unfold findCustomCommand ProductInfoLaunchField.rewritten
  cases commandName with
  | none => rfl
  | some commandName =>
      cases launch.customCommands with
      | none => rfl
      | some commands =>
          dsimp only [Option.map_some]
          rw [List.find?_map]
          rfl

/-! ## Readers -/

/-- What is found of a member after the values were changed: the changed value, or nothing of a
null. -/
inductive Carried (change : Json Str → Json Str) : Option (Json Str) → Option (Json Str) → Prop
  | missing : Carried change none none
  | lost : Carried change (some null) none
  | kept (value : Json Str) : Carried change (some value) (some (change value))

/-- A change of the values in a document that leaves the texts, and the members that are there
once. -/
structure ValueWise (change : Json Str → Json Str) : Prop where
  null : change null = null
  string : ∀ text, change (.string text) = .string text
  array : ∀ items, change (.array items) = .array (items.map change)
  object : ∀ members, ∃ members', change (.object members) = .object members' ∧
    ∀ name, Once name members → Once name members' ∧
      Carried change (getMember name members) (getMember name members')

/-- Leaving out the null members is such a change. -/
theorem valueWise_withoutNulls : ValueWise withoutNulls where
  null := rfl
  string _ := rfl
  array items := by rw [withoutNulls, itemsWithoutNulls_eq_map]
  object members := by
    refine ⟨membersWithoutNulls members, by rw [withoutNulls], ?_⟩
    intro name honce
    refine ⟨honce.of_sublist (names_membersWithoutNulls members), ?_⟩
    rw [getMember_membersWithoutNulls honce]
    cases getMember name members with
    | none => exact .missing
    | some value =>
        by_cases hvalue : value = null
        · subst hvalue
          exact .lost
        · rw [Option.bind_some, written_of_ne_null hvalue]
          exact .kept value

/-- Reading the members into maps is such a change. -/
theorem valueWise_merged : ValueWise merged where
  null := rfl
  string _ := rfl
  array items := by rw [merged, itemsMerged_eq_map]
  object members := by
    refine ⟨mergedMembers members, merged_object members, ?_⟩
    intro name honce
    have hdistinct := distinct_merged (.object members)
    rw [merged_object] at hdistinct
    refine ⟨once_of_nodup hdistinct.1 name, ?_⟩
    rw [getMember_mergedMembers honce]
    cases getMember name members with
    | none => exact .missing
    | some value => exact .kept value

/-- A reader that reads nothing of a null, and the same of a changed value. -/
def Ignores {α : Type} (change : Json Str → Json Str) (read : Json Str → Option α) : Prop :=
  ∀ value a, read value = some a → value ≠ null ∧ read (change value) = some a

section
variable {change : Json Str → Json Str} (hchange : ValueWise change)
include hchange

/-- Texts are not changed. -/
theorem ignores_readString : Ignores change readString := by
  intro value text h
  cases value with
  | string text' =>
      rw [hchange.string]
      exact ⟨by simp, h⟩
  | null => cases h
  | bool _ => cases h
  | number _ => cases h
  | array _ => cases h
  | object _ => cases h

/-- The items of an array are changed one by one. -/
theorem ignores_readVec {α : Type} {read : Json Str → Option α} (hread : Ignores change read) :
    Ignores change (readVec read) := by
  intro value as h
  cases value with
  | array items =>
      refine ⟨by simp, ?_⟩
      rw [readVec_array] at h
      rw [hchange.array, readVec_array]
      induction items generalizing as with
      | nil => exact h
      | cons item items ih =>
          rw [List.mapM_cons] at h
          obtain ⟨a, ha, h⟩ := Option.bind_eq_some_iff.mp h
          obtain ⟨as', has', h⟩ := Option.bind_eq_some_iff.mp h
          cases h
          rw [List.map_cons, List.mapM_cons, (hread item a ha).2, ih as' has']
          rfl
  | null => cases h
  | bool _ => cases h
  | number _ => cases h
  | string _ => cases h
  | object _ => cases h

end

/-! ## Fields after a change -/

/-- The fields of a structure after the values were changed. -/
inductive Fields.Changed (change : Json Str → Json Str) (fieldNames : List Str) :
    Fields → Fields → Prop
  | named {members members' : Members Str} :
      (∀ name ∈ fieldNames, Carried change (getMember name members) (getMember name members')) →
      Changed change fieldNames (.named members) (.named members')
  | positional (items : List (Json Str)) :
      Changed change fieldNames (.positional items) (.positional (items.map change))

section
variable {change : Json Str → Json Str} {fieldNames : List Str} {fields fields' : Fields}

/-- The fields of a changed value. -/
theorem fieldsOf_change (hchange : ValueWise change) {value : Json Str}
    (h : fieldsOf fieldNames value = some fields) :
    value ≠ null ∧ ∃ fields', fieldsOf fieldNames (change value) = some fields' ∧
      fields.Changed change fieldNames fields' := by
  cases value with
  | object members =>
      obtain ⟨honce, rfl⟩ := fieldsOf_object.mp h
      obtain ⟨members', hobject, hmembers⟩ := hchange.object members
      refine ⟨by simp, .named members', ?_, .named fun name hname => ?_⟩
      · rw [hobject, fieldsOf_object]
        exact ⟨fun name hname => (hmembers name (honce name hname)).1, rfl⟩
      · exact (hmembers name (honce name hname)).2
  | array items =>
      obtain ⟨hlength, rfl⟩ := fieldsOf_array.mp h
      refine ⟨by simp, .positional (items.map change), ?_, .positional items⟩
      rw [hchange.array, fieldsOf_array, List.length_map]
      exact ⟨hlength, rfl⟩
  | null => cases h
  | bool _ => cases h
  | number _ => cases h
  | string _ => cases h

variable (hchanged : fields.Changed change fieldNames fields')
variable {name : Str} (hname : name ∈ fieldNames)
include hchanged hname

/-- The value of a field is carried over. -/
theorem Fields.Changed.find (position : Nat) :
    Carried change (fields.find name position) (fields'.find name position) := by
  cases hchanged with
  | named hcarried => exact hcarried name hname
  | positional items =>
      unfold Fields.find
      dsimp only
      rw [List.getElem?_map]
      cases items[position]? with
      | none => exact .missing
      | some value => exact .kept value

/-- A required field is read as before. -/
theorem Fields.Changed.required {α : Type} {read : Json Str → Option α} (hread : Ignores change read)
    {position : Nat} {a : α} (h : fields.required read name position = some a) :
    fields'.required read name position = some a := by
  obtain ⟨value, hvalue, ha⟩ := Option.bind_eq_some_iff.mp h
  have hfind := hchanged.find hname position
  rw [hvalue] at hfind
  unfold Fields.required
  generalize fields'.find name position = found at hfind
  cases hfind with
  | lost => exact absurd rfl (hread null a ha).1
  | kept => exact (hread value a ha).2

/-- A list that may be missing is read as before. -/
theorem Fields.Changed.orEmpty {α : Type} {read : Json Str → Option (List α)}
    (hread : Ignores change read) {position : Nat} {a : List α}
    (h : fields.orEmpty name position read = some a) :
    fields'.orEmpty name position read = some a := by
  have hfind := hchanged.find hname position
  unfold Fields.orEmpty at h ⊢
  generalize fields.find name position = found at h hfind
  generalize fields'.find name position = found' at hfind
  cases hfind with
  | missing => exact h
  | lost => exact absurd rfl (hread null a h).1
  | kept value => exact (hread value a h).2

end

/-- What is read of an optional value that is there. -/
theorem optional_of_find {α : Type} {fields : Fields} {read : Json Str → Option α} {name : Str}
    {position : Nat} {value : Json Str} (hfind : fields.find name position = some value)
    (hvalue : value ≠ null) : fields.optional read name position = (read value).map some := by
  unfold Fields.optional
  rw [hfind]
  cases value <;> first | exact absurd rfl hvalue | rfl

/-- Of a null nothing is read. -/
theorem optional_of_find_null {α : Type} {fields : Fields} (read : Json Str → Option α) {name : Str}
    {position : Nat} (hfind : fields.find name position = some null) :
    fields.optional read name position = some none := by
  unfold Fields.optional
  rw [hfind]

/-- An optional field is read as before. -/
theorem Fields.Changed.optional {change : Json Str → Json Str} {fieldNames : List Str}
    {fields fields' : Fields} (hchanged : fields.Changed change fieldNames fields') {name : Str}
    (hname : name ∈ fieldNames) (hnull : change null = null) {α : Type}
    {read : Json Str → Option α} (hread : Ignores change read) {position : Nat} {a : Option α}
    (h : fields.optional read name position = some a) :
    fields'.optional read name position = some a := by
  have hfind := hchanged.find hname position
  generalize hfound : fields.find name position = found at hfind
  generalize hfound' : fields'.find name position = found' at hfind
  cases hfind with
  | missing =>
      unfold Fields.optional at h ⊢
      rw [hfound] at h
      rw [hfound']
      cases hchanged with
      | named => exact h
      | positional items => exact h
  | lost =>
      rw [optional_of_find_null read hfound] at h
      unfold Fields.optional
      rw [hfound']
      cases hchanged with
      | named => exact h
      | positional items =>
          -- In an array, no value is lost.
          unfold Fields.find at hfound hfound'
          dsimp only at hfound hfound'
          rw [List.getElem?_map, hfound] at hfound'
          cases hfound'
  | kept value =>
      by_cases hvalue : value = null
      · subst hvalue
        rw [hnull] at hfound'
        rw [optional_of_find_null read hfound] at h
        rw [optional_of_find_null read hfound']
        exact h
      · rw [optional_of_find hfound hvalue] at h
        obtain ⟨b, hb, rfl⟩ := Option.map_eq_some_iff.mp h
        obtain ⟨-, hb'⟩ := hread value b hb
        have hvalue' : change value ≠ null := by
          intro heq
          rw [heq] at hb'
          exact absurd rfl (hread null b hb').1
        rw [optional_of_find hfound' hvalue', hb']
        rfl

/-! ## Records after a change -/

section
variable {change : Json Str → Json Str} (hchange : ValueWise change)
include hchange

/-- A custom command is read as before. -/
theorem ProductInfoCustomCommandField.ignores_deserialize : Ignores change deserialize := by
  intro value custom h
  obtain ⟨fields, hfields, h⟩ := Option.bind_eq_some_iff.mp h
  obtain ⟨commands, hcommands, h⟩ := Option.bind_eq_some_iff.mp h
  obtain ⟨vmOptions, hvmOptions, h⟩ := Option.bind_eq_some_iff.mp h
  obtain ⟨bootClassPath, hbootClassPath, h⟩ := Option.bind_eq_some_iff.mp h
  obtain ⟨arguments, harguments, h⟩ := Option.bind_eq_some_iff.mp h
  obtain ⟨mainClass, hmainClass, h⟩ := Option.bind_eq_some_iff.mp h
  obtain ⟨envVar, henvVar, h⟩ := Option.bind_eq_some_iff.mp h
  obtain ⟨dataDirectory, hdataDirectory, h⟩ := Option.bind_eq_some_iff.mp h
  cases h
  obtain ⟨hvalue, fields', hfields', hchanged⟩ := fieldsOf_change hchange hfields
  have htext := ignores_readString hchange
  have htexts := ignores_readVec hchange htext
  refine ⟨hvalue, ?_⟩
  simp only [deserialize, bind, hfields', Option.bind_some,
    hchanged.required (by decide) htexts hcommands,
    hchanged.optional (by decide) hchange.null htext hvmOptions,
    hchanged.orEmpty (by decide) htexts hbootClassPath,
    hchanged.orEmpty (by decide) htexts harguments,
    hchanged.optional (by decide) hchange.null htext hmainClass,
    hchanged.optional (by decide) hchange.null htext henvVar,
    hchanged.optional (by decide) hchange.null htext hdataDirectory]
  rfl

/-- A launch is read as before. -/
theorem ProductInfoLaunchField.ignores_deserialize : Ignores change deserialize := by
  intro value launch h
  obtain ⟨fields, hfields, h⟩ := Option.bind_eq_some_iff.mp h
  obtain ⟨vmOptions, hvmOptions, h⟩ := Option.bind_eq_some_iff.mp h
  obtain ⟨bootClassPath, hbootClassPath, h⟩ := Option.bind_eq_some_iff.mp h
  obtain ⟨arguments, harguments, h⟩ := Option.bind_eq_some_iff.mp h
  obtain ⟨mainClass, hmainClass, h⟩ := Option.bind_eq_some_iff.mp h
  obtain ⟨commands, hcommands, h⟩ := Option.bind_eq_some_iff.mp h
  cases h
  obtain ⟨hvalue, fields', hfields', hchanged⟩ := fieldsOf_change hchange hfields
  have htext := ignores_readString hchange
  have htexts := ignores_readVec hchange htext
  have hcustoms := ignores_readVec hchange
    (ProductInfoCustomCommandField.ignores_deserialize hchange)
  refine ⟨hvalue, ?_⟩
  simp only [deserialize, bind, hfields', Option.bind_some,
    hchanged.required (by decide) htext hvmOptions,
    hchanged.required (by decide) htexts hbootClassPath,
    hchanged.required (by decide) htexts harguments,
    hchanged.required (by decide) htext hmainClass,
    hchanged.optional (by decide) hchange.null hcustoms hcommands]
  rfl

/-- A descriptor is read as before. -/
theorem ProductInfo.ignores_deserialize : Ignores change deserialize := by
  intro value productInfo h
  obtain ⟨fields, hfields, h⟩ := Option.bind_eq_some_iff.mp h
  obtain ⟨code, hcode, h⟩ := Option.bind_eq_some_iff.mp h
  obtain ⟨vendor, hvendor, h⟩ := Option.bind_eq_some_iff.mp h
  obtain ⟨envVar, henvVar, h⟩ := Option.bind_eq_some_iff.mp h
  obtain ⟨dataDirectory, hdataDirectory, h⟩ := Option.bind_eq_some_iff.mp h
  obtain ⟨launch, hlaunch, h⟩ := Option.bind_eq_some_iff.mp h
  cases h
  obtain ⟨hvalue, fields', hfields', hchanged⟩ := fieldsOf_change hchange hfields
  have htext := ignores_readString hchange
  have hlaunches := ignores_readVec hchange (ProductInfoLaunchField.ignores_deserialize hchange)
  refine ⟨hvalue, ?_⟩
  simp only [deserialize, bind, hfields', Option.bind_some,
    hchanged.required (by decide) htext hcode,
    hchanged.required (by decide) htext hvendor,
    hchanged.required (by decide) htext henvVar,
    hchanged.required (by decide) htext hdataDirectory,
    hchanged.required (by decide) hlaunches hlaunch]
  rfl

end

/-! ## Rewritten records -/

/-- An array of texts is what is read of it. -/
theorem readVec_readString {value : Json Str} {texts : List Str} :
    readVec readString value = some texts ↔ value = .array (texts.map .string) := by
  cases value with
  | array items =>
      rw [Json.array.injEq, readVec_array]
      induction items generalizing texts with
      | nil => cases texts <;> simp
      | cons item items ih =>
          rw [List.mapM_cons]
          constructor
          · intro h
            obtain ⟨text, htext, h⟩ := Option.bind_eq_some_iff.mp h
            obtain ⟨texts', htexts, h⟩ := Option.bind_eq_some_iff.mp h
            cases h
            cases item <;> cases htext
            rw [List.map_cons, ih.mp htexts]
          · intro h
            cases texts with
            | nil => cases h
            | cons text texts =>
                obtain ⟨rfl, hitems⟩ := List.cons.inj h
                rw [ih.mpr hitems]
                rfl
  | null => simp [readVec]
  | bool _ => simp [readVec]
  | number _ => simp [readVec]
  | string _ => simp [readVec]
  | object _ => simp [readVec]

section
variable {members members' : Members Str} {name : Str}
variable (hsame : getMember name members' = getMember name members)
include hsame

/-- A required field of a member that is the same. -/
theorem required_of_same {α : Type} (read : Json Str → Option α) (position : Nat) :
    (Fields.named members').required read name position =
      (Fields.named members).required read name position := by
  unfold Fields.required
  rw [Fields.find_named, Fields.find_named, hsame]

/-- A list of a member that is the same. -/
theorem orEmpty_of_same {α : Type} (read : Json Str → Option (List α)) (position : Nat) :
    (Fields.named members').orEmpty name position read =
      (Fields.named members).orEmpty name position read := by
  unfold Fields.orEmpty
  rw [Fields.find_named, Fields.find_named, hsame]

/-- An optional field of a member that is the same. -/
theorem optional_of_same {α : Type} (read : Json Str → Option α) (position : Nat) :
    (Fields.named members').optional read name position =
      (Fields.named members).optional read name position := by
  unfold Fields.optional
  rw [Fields.find_named, Fields.find_named, hsame]

end

/-- A field with a new value. -/
theorem NamedOnce.addMember {fieldNames : List Str} {members : Members Str}
    (honce : NamedOnce fieldNames members) (name : Str) (value : Json Str) :
    NamedOnce fieldNames (addMember name value members) :=
  fun name' hname' => (honce name' hname').addMember name value

/-- What the build makes of the options of a record, as its members tell. -/
theorem processAdditionalJvmArguments_ok (target : Target) {members : Members Str}
    {args : List Str} {position : Nat}
    (h : (Fields.named members).orEmpty (lit "additionalJvmArguments") position
      (readVec readString) = some args) :
    ∃ members', target.processAdditionalJvmArguments members = .ok members' ∧
      (∀ fieldNames, NamedOnce fieldNames members → NamedOnce fieldNames members') ∧
      (∀ name, name ≠ lit "additionalJvmArguments" →
        getMember name members' = getMember name members) ∧
      getMember (lit "additionalJvmArguments") members' =
        (getMember (lit "additionalJvmArguments") members).map fun _ =>
          .array ((rewriteJvmArguments target args).map .string) := by
  unfold Fields.orEmpty at h
  rw [Fields.find_named] at h
  cases hvalue : getMember (lit "additionalJvmArguments") members with
  | none =>
      exact ⟨members, target.processAdditionalJvmArguments_none hvalue, fun _ honce => honce,
        fun _ _ => rfl, hvalue⟩
  | some value =>
      rw [hvalue] at h
      have harray : value = .array (args.map .string) := readVec_readString.mp h
      subst harray
      refine ⟨addMember (lit "additionalJvmArguments")
        (.array ((rewriteJvmArguments target args).map .string)) members, ?_, ?_, ?_, ?_⟩
      · exact target.processAdditionalJvmArguments_some hvalue (rewriteArguments_strings target args)
      · exact fun _ honce => honce.addMember _ _
      · intro name hname
        rw [getMember_addMember, if_neg hname.symm]
      · rw [getMember_addMember, if_pos rfl]
        rfl

/-- How a rewritten command is read. -/
theorem deserialize_rewrittenCommand (target : Target) {members : Members Str}
    {custom : ProductInfoCustomCommandField}
    (h : ProductInfoCustomCommandField.deserialize (.object members) = some custom) :
    ∃ members', target.processAdditionalJvmArguments members = .ok members' ∧
      ProductInfoCustomCommandField.deserialize (.object members') =
        some (custom.rewritten target) := by
  obtain ⟨honce, hcommands, hvmOptions, hbootClassPath, harguments, hmainClass, henvVar,
    hdataDirectory⟩ := ProductInfoCustomCommandField.deserialize_object.mp h
  obtain ⟨members', hprocessed, honce', hsame, hrewritten⟩ :=
    processAdditionalJvmArguments_ok target harguments
  refine ⟨members', hprocessed, ProductInfoCustomCommandField.deserialize_object.mpr
    ⟨honce' _ honce, ?_, ?_, ?_, ?_, ?_, ?_, ?_⟩⟩
  · rw [required_of_same (hsame _ (by decide))]
    exact hcommands
  · rw [optional_of_same (hsame _ (by decide))]
    exact hvmOptions
  · rw [orEmpty_of_same (hsame _ (by decide))]
    exact hbootClassPath
  · unfold Fields.orEmpty at harguments ⊢
    rw [Fields.find_named] at harguments ⊢
    rw [hrewritten]
    cases hvalue : getMember (lit "additionalJvmArguments") members with
    | none =>
        rw [hvalue] at harguments
        have hnil : custom.additionalJvmArguments = [] := (Option.some.inj harguments).symm
        simp [ProductInfoCustomCommandField.rewritten, hnil, rewriteJvmArguments]
    | some value => exact readVec_readString.mpr rfl
  · rw [optional_of_same (hsame _ (by decide))]
    exact hmainClass
  · rw [optional_of_same (hsame _ (by decide))]
    exact henvVar
  · rw [optional_of_same (hsame _ (by decide))]
    exact hdataDirectory

/-- How the rewritten commands are read. -/
theorem deserialize_rewrittenCommands (target : Target) {commands : List (Members Str)}
    {customs : List ProductInfoCustomCommandField}
    (h : readVec ProductInfoCustomCommandField.deserialize (.array (commands.map .object)) =
      some customs) :
    ∃ items, target.rewriteCommands (commands.map .object) = .ok items ∧
      readVec ProductInfoCustomCommandField.deserialize (.array items) =
        some (customs.map fun custom => custom.rewritten target) := by
  induction commands generalizing customs with
  | nil =>
      cases h
      exact ⟨[], rfl, rfl⟩
  | cons members commands ih =>
      rw [readVec_array, List.map_cons, List.mapM_cons] at h
      obtain ⟨custom, hcustom, h⟩ := Option.bind_eq_some_iff.mp h
      obtain ⟨customs', hcustoms, h⟩ := Option.bind_eq_some_iff.mp h
      cases h
      obtain ⟨members', hprocessed, hread⟩ := deserialize_rewrittenCommand target hcustom
      obtain ⟨items, hitems, hreads⟩ := ih hcustoms
      refine ⟨.object members' :: items, ?_, ?_⟩
      · rw [List.map_cons, Target.rewriteCommands, Packaging.getAsJsonObject]
        simp only [bind, Except.bind, pure, Except.pure, hprocessed, hitems]
      · rw [readVec_array] at hreads ⊢
        rw [List.mapM_cons, hread, hreads]
        rfl

/-- How a rewritten launch is read. -/
theorem deserialize_rewrittenLaunch (target : Target) {members : Members Str}
    {launch : ProductInfoLaunchField}
    (h : ProductInfoLaunchField.deserialize (.object members) = some launch)
    {commands : List (Members Str)}
    (hcommands : getMember (lit "customCommands") members = some (.array (commands.map .object))) :
    ∃ members', target.rewriteLaunch (.array [.object members]) = .ok (.array [.object members']) ∧
      ProductInfoLaunchField.deserialize (.object members') = some (launch.rewritten target) := by
  obtain ⟨honce, hvmOptions, hbootClassPath, harguments, hmainClass, hcustoms⟩ :=
    ProductInfoLaunchField.deserialize_object.mp h
  -- The architecture is added.
  let withArch := addMember (lit "arch") (.string target.targetArch.normalize) members
  have harch : ∀ name, name ≠ lit "arch" → getMember name withArch = getMember name members := by
    intro name hname
    rw [getMember_addMember, if_neg hname.symm]
  -- The options are rewritten.
  obtain ⟨value, hvalue, hargs⟩ := Option.bind_eq_some_iff.mp harguments
  rw [Fields.find_named] at hvalue
  have hlist : (Fields.named withArch).orEmpty (lit "additionalJvmArguments") 2
      (readVec readString) = some launch.additionalJvmArguments := by
    unfold Fields.orEmpty
    rw [Fields.find_named, harch _ (by decide), hvalue]
    exact hargs
  obtain ⟨processed, hprocessed, honce', hother, hrewritten⟩ :=
    processAdditionalJvmArguments_ok target hlist
  have hcommands' : getMember (lit "customCommands") processed =
      some (.array (commands.map .object)) := by
    rw [hother _ (by decide), harch _ (by decide), hcommands]
  -- The commands are rewritten.
  have hread : ∃ customs, launch.customCommands = some customs ∧
      readVec ProductInfoCustomCommandField.deserialize (.array (commands.map .object)) =
        some customs := by
    have hfound : (Fields.named members).find (lit "customCommands") 4 =
        some (.array (commands.map .object)) := hcommands
    rw [optional_of_find hfound (by simp)] at hcustoms
    obtain ⟨customs, hread, hsome⟩ := Option.map_eq_some_iff.mp hcustoms
    exact ⟨customs, hsome.symm, hread⟩
  obtain ⟨customs, hsome, hread⟩ := hread
  obtain ⟨items, hitems, hreads⟩ := deserialize_rewrittenCommands target hread
  let rewritten := addMember (lit "customCommands") (.array items) processed
  have hkept : ∀ name, name ≠ lit "customCommands" →
      getMember name rewritten = getMember name processed := by
    intro name hname
    rw [getMember_addMember, if_neg hname.symm]
  have hsame : ∀ name, name ≠ lit "arch" → name ≠ lit "additionalJvmArguments" →
      name ≠ lit "customCommands" → getMember name rewritten = getMember name members := by
    intro name hne hne' hne''
    rw [hkept name hne'', hother name hne', harch name hne]
  refine ⟨rewritten, ?_, ProductInfoLaunchField.deserialize_object.mpr ⟨?_, ?_, ?_, ?_, ?_, ?_⟩⟩
  · have harch' : target.processAdditionalJvmArguments
        (addMember (str "arch") (.string target.targetArch.normalize) members) = .ok processed :=
      hprocessed
    have hlookup : getMember (str "customCommands") processed =
        some (.array (commands.map .object)) :=
      hcommands'
    simp only [Target.rewriteLaunch, Packaging.castToJsonArray, Packaging.getAsJsonObject, bind,
      Except.bind, pure, Except.pure, harch', hlookup, hitems]
    rfl
  · exact (honce' _ (honce.addMember _ _)).addMember _ _
  · rw [required_of_same (hsame _ (by decide) (by decide) (by decide))]
    exact hvmOptions
  · rw [required_of_same (hsame _ (by decide) (by decide) (by decide))]
    exact hbootClassPath
  · unfold Fields.required
    rw [Fields.find_named, hkept _ (by decide), hrewritten, harch _ (by decide), hvalue]
    exact readVec_readString.mpr rfl
  · rw [required_of_same (hsame _ (by decide) (by decide) (by decide))]
    exact hmainClass
  · have hfield : (Fields.named rewritten).find (lit "customCommands") 4 =
        some (.array items) := by
      rw [Fields.find_named, getMember_addMember, if_pos rfl]
    rw [optional_of_find hfield (by simp), hreads]
    simp [ProductInfoLaunchField.rewritten, hsome]

/-! ## The rewritten descriptor -/

/-- The members of a descriptor other than the launches. -/
def otherMembers : Json Str → Members Str
  | .object members => members.filter fun member => member.1 ≠ lit "launch"
  | _ => []

/-- The keys of a descriptor, in order. -/
def keys : Json Str → List Str
  | .object members => names members
  | _ => []

/-- The descriptor, its launch and the commands of that are objects, in which fields have names. -/
def HasNamedRecords (descriptor : Json Str) : Prop :=
  ∃ (members launch : Members Str) (commands : List (Members Str)),
    descriptor = .object members ∧
    getMember (lit "launch") members = some (.array [.object launch]) ∧
    getMember (lit "customCommands") launch = some (.array (commands.map .object))

/-- Members before the launches are copied. -/
theorem rewriteMembers_of_not_launch (target : Target) (result : Members Str)
    {before : Members Str} (after : Members Str) (hlaunch : lit "launch" ∉ names before)
    (hdistinct : (names (result ++ before)).Nodup) :
    target.rewriteMembers true result (before ++ after) =
      target.rewriteMembers true (result ++ before) after := by
  induction before generalizing result with
  | nil => simp
  | cons member before ih =>
      obtain ⟨key, value⟩ := member
      have hkey : key ≠ lit "launch" := fun h => hlaunch (h ▸ List.mem_cons_self)
      have hkey' : key ≠ str "launch" := hkey
      have hnew : key ∉ names result := by
        unfold names at hdistinct ⊢
        rw [List.map_append, List.map_cons] at hdistinct
        exact fun hmem => (List.nodup_append.mp hdistinct).2.2 _ hmem _ List.mem_cons_self rfl
      rw [List.cons_append, Target.rewriteMembers]
      simp only [if_neg hkey', bind, Except.bind, pure, Except.pure, addMember_of_not_mem value hnew,
        Bool.true_eq_false, and_false, if_false]
      have hrest := ih (result ++ [(key, value)]) (fun h => hlaunch (List.mem_cons_of_mem _ h))
        (by simpa using hdistinct)
      simpa using hrest

/-- The launches are replaced in their place. -/
theorem rewriteProductInfo_split (target : Target) {before after : Members Str}
    {value : Json Str}
    (hdistinct : (names (before ++ (lit "launch", value) :: after)).Nodup)
    (henvVar : (getMember (lit "envVarBaseName")
      (before ++ (lit "launch", value) :: after)).isSome = true) :
    target.rewriteProductInfo (before ++ (lit "launch", value) :: after) =
      (target.rewriteLaunch value).map fun value' =>
        before ++ (lit "launch", value') :: after := by
  have hsplit : (names before).Nodup ∧ lit "launch" ∉ names before ∧
      lit "launch" ∉ names after := by
    unfold names at hdistinct ⊢
    rw [List.map_append, List.map_cons] at hdistinct
    obtain ⟨hbefore, hrest, hdisjoint⟩ := List.nodup_append.mp hdistinct
    exact ⟨hbefore, fun hmem => hdisjoint _ hmem _ List.mem_cons_self rfl,
      (List.nodup_cons.mp hrest).1⟩
  obtain ⟨hnodup, hbefore, hafter⟩ := hsplit
  have hname : (getMember (str "envVarBaseName")
      (before ++ (lit "launch", value) :: after)).isSome = true := henvVar
  unfold Target.rewriteProductInfo
  rw [hname, rewriteMembers_of_not_launch target [] _ hbefore hnodup, List.nil_append]
  have hlaunch : lit "launch" = str "launch" := rfl
  rw [Target.rewriteMembers, if_pos hlaunch]
  cases target.rewriteLaunch value with
  | error failure => rfl
  | ok value' =>
      have hrest : (names (before ++ [(lit "launch", value')] ++ after)).Nodup := by
        unfold names at hdistinct ⊢
        simpa using hdistinct
      have hcopied := rewriteMembers_of_not_launch target (before ++ [(lit "launch", value')]) []
        hafter hrest
      rw [List.append_nil] at hcopied
      have hadded := addMember_of_not_mem value' hbefore
      simp only [bind, Except.bind, Bool.true_eq_false, and_false, if_false, hadded, hcopied]
      simp [Target.rewriteMembers, Except.map]

/-- The rewriting of the options of a record leaves its other members. -/
theorem getMember_processAdditionalJvmArguments {target : Target} {members members' : Members Str}
    (h : target.processAdditionalJvmArguments members = .ok members') {name : Str}
    (hname : name ≠ lit "additionalJvmArguments") :
    getMember name members' = getMember name members := by
  unfold Target.processAdditionalJvmArguments at h
  split at h
  next =>
    cases h
    rfl
  next value _ =>
    obtain ⟨elements, -, h⟩ := bind_eq_ok.mp h
    obtain ⟨rewritten, -, h⟩ := bind_eq_ok.mp h
    cases h
    have hne : str "additionalJvmArguments" ≠ name := hname.symm
    rw [getMember_addMember, if_neg hne]

/-- Only commands that are objects can be rewritten. -/
theorem objects_of_rewriteCommands {target : Target} {items items' : List (Json Str)}
    (h : target.rewriteCommands items = .ok items') :
    ∃ commands : List (Members Str), items = commands.map .object := by
  induction items generalizing items' with
  | nil => exact ⟨[], rfl⟩
  | cons item items ih =>
      obtain ⟨command, hcommand, h⟩ := bind_eq_ok.mp h
      obtain ⟨rewritten, -, h⟩ := bind_eq_ok.mp h
      obtain ⟨rest, hrest, -⟩ := bind_eq_ok.mp h
      obtain ⟨commands, rfl⟩ := ih hrest
      cases item <;> cases hcommand
      exact ⟨command :: commands, rfl⟩

/-- Only a launch that is an object with an array of commands can be rewritten. -/
theorem hasNamedRecords_of_rewriteLaunch {target : Target} {value value' : Json Str}
    (h : target.rewriteLaunch value = .ok value') :
    ∃ (launch : Members Str) (commands : List (Members Str)), value = .array [.object launch] ∧
      getMember (lit "customCommands") launch = some (.array (commands.map .object)) := by
  obtain ⟨elements, helements, h⟩ := bind_eq_ok.mp h
  have hvalue : value = .array elements := by
    cases value <;> cases helements
    rfl
  split at h
  next _ element =>
    obtain ⟨launch, hlaunch, h⟩ := bind_eq_ok.mp h
    obtain ⟨processed, hprocessed, h⟩ := bind_eq_ok.mp h
    have helement : element = .object launch := by
      cases element <;> cases hlaunch
      rfl
    split at h
    next => cases h
    next customCommands hcustom =>
      obtain ⟨items, hitems, h⟩ := bind_eq_ok.mp h
      obtain ⟨items', hitems', h⟩ := bind_eq_ok.mp h
      have harray : customCommands = .array items := by
        cases customCommands <;> cases hitems
        rfl
      obtain ⟨commands, rfl⟩ := objects_of_rewriteCommands hitems'
      subst harray
      subst helement
      have hkept : getMember (lit "customCommands") processed =
          getMember (lit "customCommands") launch := by
        rw [getMember_processAdditionalJvmArguments hprocessed (by decide), getMember_addMember,
          if_neg (by decide)]
      exact ⟨launch, commands, hvalue, hkept ▸ hcustom⟩
  next => cases h

/-- Members without launches are other members. -/
theorem filter_other {members : Members Str} (h : lit "launch" ∉ names members) :
    (members.filter fun member => member.1 ≠ lit "launch") = members := by
  rw [List.filter_eq_self]
  intro member hmem
  exact decide_eq_true fun heq => h (heq ▸ List.mem_map_of_mem hmem)

/-- The members other than the launches are those around them. -/
theorem otherMembers_split {before after : Members Str} (value : Json Str)
    (hbefore : lit "launch" ∉ names before) (hafter : lit "launch" ∉ names after) :
    otherMembers (.object (before ++ (lit "launch", value) :: after)) = before ++ after := by
  rw [otherMembers, List.filter_append, filter_other hbefore, List.filter_cons_of_neg (by simp),
    filter_other hafter]

/-- The members other than the launches are written as such. -/
theorem otherMembers_written {before after : Members Str} {value : Json Str} (hvalue : value ≠ null)
    (hbefore : lit "launch" ∉ names before) (hafter : lit "launch" ∉ names after) :
    otherMembers (.object (membersWithoutNulls (before ++ (lit "launch", value) :: after))) =
      membersWithoutNulls (before ++ after) := by
  have hnew : ∀ {members : Members Str}, lit "launch" ∉ names members →
      lit "launch" ∉ names (membersWithoutNulls members) :=
    fun hmembers hmem => hmembers ((names_membersWithoutNulls _).subset hmem)
  rw [membersWithoutNulls_append, membersWithoutNulls_append, membersWithoutNulls_cons _ hvalue,
    otherMembers_split _ (hnew hbefore) (hnew hafter)]

/-- How the members of a descriptor are rewritten, and read then. -/
theorem deserialize_rewrittenMembers (target : Target) {members : Members Str}
    (hdistinct : (names members).Nodup) {productInfo : ProductInfo}
    (h : ProductInfo.deserialize (.object members) = some productInfo)
    {launch : Members Str} {commands : List (Members Str)}
    (hlaunch : getMember (lit "launch") members = some (.array [.object launch]))
    (hcommands : getMember (lit "customCommands") launch = some (.array (commands.map .object))) :
    ∃ before after launch', members = before ++ (lit "launch", .array [.object launch]) :: after ∧
      lit "launch" ∉ names before ∧ lit "launch" ∉ names after ∧
      target.rewriteProductInfo members =
        .ok (before ++ (lit "launch", .array [.object launch']) :: after) ∧
      ProductInfo.deserialize
          (.object (before ++ (lit "launch", .array [.object launch']) :: after)) =
        some (productInfo.rewritten target) := by
  obtain ⟨honce, hcode, hvendor, henvVar, hdataDirectory, hlaunches⟩ :=
    ProductInfo.deserialize_object.mp h
  -- The launch that is read.
  have hone : ∃ info, productInfo.launch = [info] ∧
      ProductInfoLaunchField.deserialize (.object launch) = some info := by
    unfold Fields.required at hlaunches
    rw [Fields.find_named, hlaunch, Option.bind_some, readVec_array, List.mapM_cons] at hlaunches
    obtain ⟨info, hinfo, hrest⟩ := Option.bind_eq_some_iff.mp hlaunches
    have hlist : [info] = productInfo.launch := by simpa using hrest
    exact ⟨info, hlist.symm, hinfo⟩
  obtain ⟨info, hone, hinfo⟩ := hone
  obtain ⟨launch', hrewritten, hread⟩ := deserialize_rewrittenLaunch target hinfo hcommands
  -- It is replaced in its place.
  obtain ⟨before, after, rfl, hbefore⟩ := getMember_eq_some hlaunch
  have henvVar' : (getMember (lit "envVarBaseName")
      (before ++ (lit "launch", .array [.object launch]) :: after)).isSome = true := by
    obtain ⟨value, hvalue, -⟩ := Option.bind_eq_some_iff.mp henvVar
    rw [Fields.find_named] at hvalue
    rw [hvalue]
    rfl
  have hwhole := rewriteProductInfo_split target hdistinct henvVar'
  rw [hrewritten] at hwhole
  have hafter : lit "launch" ∉ names after := by
    unfold names at hdistinct ⊢
    rw [List.map_append, List.map_cons] at hdistinct
    exact (List.nodup_cons.mp (List.nodup_append.mp hdistinct).2.1).1
  have hnodup' : (names (before ++ (lit "launch", .array [.object launch']) :: after)).Nodup := by
    unfold names at hdistinct ⊢
    simpa using hdistinct
  have hsame : ∀ name, name ≠ lit "launch" →
      getMember name (before ++ (lit "launch", .array [.object launch']) :: after) =
        getMember name (before ++ (lit "launch", .array [.object launch]) :: after) :=
    fun name hname => getMember_replace hname.symm _ _ _ _
  refine ⟨before, after, launch', rfl, hbefore, hafter, hwhole,
    ProductInfo.deserialize_object.mpr ⟨?_, ?_, ?_, ?_, ?_, ?_⟩⟩
  · exact fun name _ => once_of_nodup hnodup' name
  · rw [required_of_same (hsame _ (by decide))]
    exact hcode
  · rw [required_of_same (hsame _ (by decide))]
    exact hvendor
  · rw [required_of_same (hsame _ (by decide))]
    exact henvVar
  · rw [required_of_same (hsame _ (by decide))]
    exact hdataDirectory
  · unfold Fields.required
    rw [Fields.find_named, getMember_append hbefore, getMember, if_pos rfl, Option.bind_some,
      readVec_array, List.mapM_cons, hread]
    simp [ProductInfo.rewritten, hone]

/-- How a rewritten descriptor is read. -/
theorem deserialize_rewrittenDescriptor (target : Target) {descriptor : Json Str}
    {productInfo : ProductInfo} (h : ProductInfo.deserialize descriptor = some productInfo)
    (hrecords : HasNamedRecords (merged descriptor)) :
    ∃ descriptor', target.rewriteDocument descriptor = .ok descriptor' ∧
      ProductInfo.deserialize descriptor' = some (productInfo.rewritten target) ∧
      otherMembers descriptor' = membersWithoutNulls (otherMembers (merged descriptor)) ∧
      (MembersNullFree (otherMembers (merged descriptor)) →
        keys descriptor' = keys (merged descriptor)) := by
  have hread := (ProductInfo.ignores_deserialize valueWise_merged descriptor productInfo h).2
  have hdistinct := distinct_merged descriptor
  obtain ⟨members, launch, commands, hobject, hlaunch, hcommands⟩ := hrecords
  rw [hobject] at hread hdistinct ⊢
  obtain ⟨before, after, launch', rfl, hbefore, hafter, hrewritten, hread'⟩ :=
    deserialize_rewrittenMembers target hdistinct.1 hread hlaunch hcommands
  have hother := otherMembers_split (.array [.object launch]) hbefore hafter
  refine ⟨withoutNulls (.object (before ++ (lit "launch", .array [.object launch']) :: after)),
    ?_, ?_, ?_, ?_⟩
  · have hmembers : toJsonObject descriptor =
        .ok (before ++ (lit "launch", .array [.object launch]) :: after) := by
      cases descriptor with
      | object members =>
          rw [merged_object, Json.object.injEq] at hobject
          rw [toJsonObject, hobject]
      | null => cases hobject
      | bool _ => cases hobject
      | number _ => cases hobject
      | string _ => cases hobject
      | array _ => cases hobject
    unfold Target.rewriteDocument
    rw [hmembers]
    exact bind_eq_ok.mpr ⟨_, rfl, bind_eq_ok.mpr ⟨_, hrewritten, rfl⟩⟩
  · exact (ProductInfo.ignores_deserialize valueWise_withoutNulls _ _ hread').2
  · rw [withoutNulls, otherMembers_written (by simp) hbefore hafter, hother]
  · intro hfree
    rw [hother, membersNullFree_append] at hfree
    unfold keys
    rw [withoutNulls]
    dsimp only
    rw [membersWithoutNulls_append, membersWithoutNulls_cons _ (by simp),
      (membersWithoutNulls_eq_self_iff before).mpr hfree.1,
      (membersWithoutNulls_eq_self_iff after).mpr hfree.2]
    simp [names]

/-- The launch that is read with the name of each field at most once. -/
theorem namedOnce_of_launch {members launch : Members Str} {productInfo : ProductInfo}
    (h : ProductInfo.deserialize (.object members) = some productInfo)
    (hlaunch : getMember (lit "launch") members = some (.array [.object launch])) :
    NamedOnce ProductInfoLaunchField.fieldNames launch := by
  obtain ⟨-, -, -, -, -, hlaunches⟩ := ProductInfo.deserialize_object.mp h
  unfold Fields.required at hlaunches
  rw [Fields.find_named, hlaunch, Option.bind_some, readVec_array, List.mapM_cons] at hlaunches
  obtain ⟨info, hinfo, -⟩ := Option.bind_eq_some_iff.mp hlaunches
  exact (ProductInfoLaunchField.deserialize_object.mp hinfo).1

/-- A value that is read as an object is one. -/
theorem object_of_merged {value : Json Str} {members' : Members Str}
    (h : merged value = .object members') :
    ∃ members, value = .object members ∧ mergedMembers members = members' := by
  cases value with
  | object members =>
      rw [merged_object, Json.object.injEq] at h
      exact ⟨members, rfl, h⟩
  | null => cases h
  | bool _ => cases h
  | number _ => cases h
  | string _ => cases h
  | array _ => cases h

/-- A value that is read as an array is one. -/
theorem array_of_merged {value : Json Str} {items' : List (Json Str)}
    (h : merged value = .array items') :
    ∃ items, value = .array items ∧ items.map merged = items' := by
  cases value with
  | array items =>
      rw [merged, itemsMerged_eq_map, Json.array.injEq] at h
      exact ⟨items, rfl, h⟩
  | null => cases h
  | bool _ => cases h
  | number _ => cases h
  | string _ => cases h
  | object _ => cases h

/-- Items that are read as objects are objects. -/
theorem objects_of_merged {items : List (Json Str)} {commands' : List (Members Str)}
    (h : items.map merged = commands'.map .object) :
    ∃ commands : List (Members Str), items = commands.map .object := by
  induction items generalizing commands' with
  | nil => exact ⟨[], rfl⟩
  | cons item items ih =>
      cases commands' with
      | nil => cases h
      | cons command' commands' =>
          obtain ⟨hitem, hitems⟩ := List.cons.inj h
          obtain ⟨command, rfl, -⟩ := object_of_merged hitem
          obtain ⟨commands, rfl⟩ := ih hitems
          exact ⟨command :: commands, rfl⟩

/-- Records that are objects are read as objects, and no others are. -/
theorem hasNamedRecords_merged {descriptor : Json Str} {productInfo : ProductInfo}
    (h : ProductInfo.deserialize descriptor = some productInfo) :
    HasNamedRecords (merged descriptor) ↔ HasNamedRecords descriptor := by
  constructor
  · rintro ⟨members', launch', commands', hobject, hlaunch', hcommands'⟩
    obtain ⟨members, rfl, rfl⟩ := object_of_merged hobject
    have honce := (ProductInfo.deserialize_object.mp h).1
    rw [getMember_mergedMembers (honce _ (by decide))] at hlaunch'
    obtain ⟨value, hlaunch, hvalue⟩ := Option.map_eq_some_iff.mp hlaunch'
    obtain ⟨items, rfl, hitems⟩ := array_of_merged hvalue
    obtain ⟨item, rfl, hitem⟩ := List.map_eq_singleton_iff.mp hitems
    obtain ⟨launch, rfl, rfl⟩ := object_of_merged hitem
    rw [getMember_mergedMembers (namedOnce_of_launch h hlaunch _ (by decide))] at hcommands'
    obtain ⟨value, hcommands, hvalue⟩ := Option.map_eq_some_iff.mp hcommands'
    obtain ⟨items, rfl, hitems⟩ := array_of_merged hvalue
    obtain ⟨commands, rfl⟩ := objects_of_merged hitems
    exact ⟨members, launch, commands, rfl, hlaunch, hcommands⟩
  · rintro ⟨members, launch, commands, rfl, hlaunch, hcommands⟩
    have honce := (ProductInfo.deserialize_object.mp h).1
    refine ⟨mergedMembers members, mergedMembers launch, commands.map mergedMembers,
      merged_object members, ?_, ?_⟩
    · rw [getMember_mergedMembers (honce _ (by decide)), hlaunch, Option.map_some, merged,
        itemsMerged, itemsMerged, merged_object]
    · rw [getMember_mergedMembers (namedOnce_of_launch h hlaunch _ (by decide)), hcommands,
        Option.map_some, merged, itemsMerged_eq_map, List.map_map, List.map_map]
      simp only [Function.comp_def, merged_object]

/-- Only a descriptor whose records are objects can be rewritten. -/
theorem hasNamedRecords_of_rewriteDocument {target : Target} {descriptor descriptor' : Json Str}
    {productInfo : ProductInfo} (hread : ProductInfo.deserialize descriptor = some productInfo)
    (h : target.rewriteDocument descriptor = .ok descriptor') : HasNamedRecords descriptor := by
  obtain ⟨members, hmembers, h⟩ := bind_eq_ok.mp h
  obtain ⟨rewritten, hrewritten, -⟩ := bind_eq_ok.mp h
  have hobject : merged descriptor = .object members := by
    cases descriptor <;> cases hmembers
    rw [merged_object]
  have hread' := (ProductInfo.ignores_deserialize valueWise_merged descriptor productInfo hread).2
  have hdistinct := distinct_merged descriptor
  rw [hobject] at hread' hdistinct
  obtain ⟨-, -, -, henvVar, -, hlaunches⟩ := ProductInfo.deserialize_object.mp hread'
  obtain ⟨value, hvalue, -⟩ := Option.bind_eq_some_iff.mp hlaunches
  obtain ⟨name, hname, -⟩ := Option.bind_eq_some_iff.mp henvVar
  rw [Fields.find_named] at hvalue hname
  refine (hasNamedRecords_merged hread).mp ?_
  rw [hobject]
  obtain ⟨before, after, rfl, -⟩ := getMember_eq_some hvalue
  have hsplit := rewriteProductInfo_split target hdistinct.1 (by rw [hname]; rfl)
  rw [hsplit] at hrewritten
  cases hlaunch : target.rewriteLaunch value with
  | error failure =>
      rw [hlaunch] at hrewritten
      cases hrewritten
  | ok value' =>
      obtain ⟨launch, commands, rfl, hcommands⟩ := hasNamedRecords_of_rewriteLaunch hlaunch
      exact ⟨_, launch, commands, rfl, hvalue, hcommands⟩

/-! ## The launch -/

/-- What stays the same but for the options: the launch that a command selects, with the names that
go with it, the other members of the descriptor, and the order of all members. -/
def KeepsAllButOptions (target : Target) (descriptor : Json Str) (productInfo : ProductInfo) : Prop :=
  ∃ descriptor' productInfo', target.rewriteDocument descriptor = .ok descriptor' ∧
    ProductInfo.deserialize descriptor' = some productInfo' ∧
    (∀ commandName, ∃ selected selected',
      computeLaunchInfo productInfo commandName = .ok selected ∧
      computeLaunchInfo productInfo' commandName = .ok selected' ∧
      { selected'.productInfoLaunchField with customCommands := none } =
        { selected.productInfoLaunchField with
          additionalJvmArguments :=
            rewriteJvmArguments target selected.productInfoLaunchField.additionalJvmArguments
          customCommands := none } ∧
      selected'.envVarBaseName productInfo' = selected.envVarBaseName productInfo ∧
      selected'.dataDirectoryName productInfo' = selected.dataDirectoryName productInfo) ∧
    otherMembers descriptor' = otherMembers descriptor ∧ keys descriptor' = keys descriptor

/-- What a command selects of a rewritten descriptor. -/
theorem computeLaunchInfo_rewritten (target : Target) {productInfo : ProductInfo}
    {launch : ProductInfoLaunchField} (hone : productInfo.launch = [launch])
    (commandName : Option Str) :
    ∃ selected selected', computeLaunchInfo productInfo commandName = .ok selected ∧
      computeLaunchInfo (productInfo.rewritten target) commandName = .ok selected' ∧
      { selected'.productInfoLaunchField with customCommands := none } =
        { selected.productInfoLaunchField with
          additionalJvmArguments :=
            rewriteJvmArguments target selected.productInfoLaunchField.additionalJvmArguments
          customCommands := none } ∧
      selected'.envVarBaseName (productInfo.rewritten target) =
        selected.envVarBaseName productInfo ∧
      selected'.dataDirectoryName (productInfo.rewritten target) =
        selected.dataDirectoryName productInfo := by
  refine ⟨launchInfoOf launch (findCustomCommand launch commandName),
    launchInfoOf (launch.rewritten target)
      (findCustomCommand (launch.rewritten target) commandName), ?_, ?_, ?_⟩
  · simp [computeLaunchInfo, hone]
  · simp [computeLaunchInfo, ProductInfo.rewritten, hone]
  · rw [findCustomCommand_rewritten]
    cases findCustomCommand launch commandName with
    | none => exact ⟨rfl, rfl, rfl⟩
    | some custom =>
        have harguments := orInherited_rewriteJvmArguments target custom.additionalJvmArguments
          launch.additionalJvmArguments
        refine ⟨?_, rfl, rfl⟩
        simp [launchInfoOf, ProductInfoCustomCommandField.rewritten,
          ProductInfoLaunchField.rewritten, harguments]

/-- Members that are kept are not null and have distinct names, here and in the objects in them. -/
theorem distinct_of_kept {descriptor : Json Str}
    (h : membersWithoutNulls (otherMembers (merged descriptor)) = otherMembers descriptor) :
    MembersNullFree (otherMembers descriptor) ∧ Distinct (.object (otherMembers descriptor)) := by
  rw [← h]
  refine ⟨membersNullFree_membersWithoutNulls _, ?_⟩
  have hdistinct : Distinct (.object (otherMembers (merged descriptor))) := by
    have hwhole := distinct_merged descriptor
    cases hmerged : merged descriptor with
    | object members =>
        rw [hmerged] at hwhole
        exact hwhole.sublist List.filter_sublist
    | null => exact ⟨List.nodup_nil, trivial⟩
    | bool _ => exact ⟨List.nodup_nil, trivial⟩
    | number _ => exact ⟨List.nodup_nil, trivial⟩
    | string _ => exact ⟨List.nodup_nil, trivial⟩
    | array _ => exact ⟨List.nodup_nil, trivial⟩
  have hwritten := distinct_withoutNulls hdistinct
  rw [withoutNulls] at hwritten
  exact hwritten

/-- Such members are kept, and so are all names. -/
theorem kept_of_distinct {descriptor : Json Str} {productInfo : ProductInfo}
    (hread : ProductInfo.deserialize descriptor = some productInfo)
    (hrecords : HasNamedRecords descriptor)
    (hdistinct : Distinct (.object (otherMembers descriptor))) :
    otherMembers (merged descriptor) = otherMembers descriptor ∧
      keys (merged descriptor) = keys descriptor := by
  obtain ⟨members, launch, commands, rfl, hlaunch, -⟩ := hrecords
  have honce := (ProductInfo.deserialize_object.mp hread).1 (lit "launch") (by decide)
  obtain ⟨before, after, rfl, hbefore⟩ := getMember_eq_some hlaunch
  have hbehind : Once (lit "launch") ((lit "launch", .array [.object launch]) :: after) := by
    refine honce.of_sublist ?_
    unfold names
    rw [List.map_append]
    exact List.sublist_append_right _ _
  have hafter := hbehind.not_mem
  rw [otherMembers_split _ hbefore hafter] at hdistinct ⊢
  rw [merged_object, mergedMembers_split hdistinct hbefore hafter,
    otherMembers_split _ hbefore hafter]
  exact ⟨rfl, by simp [keys, names]⟩

/-- What a rewriting that keeps all but the options tells about the descriptor. -/
theorem distinct_of_keepsAllButOptions {target : Target} {descriptor : Json Str}
    {productInfo : ProductInfo} (hread : ProductInfo.deserialize descriptor = some productInfo)
    (h : KeepsAllButOptions target descriptor productInfo) :
    HasNamedRecords descriptor ∧ MembersNullFree (otherMembers descriptor) ∧
      Distinct (.object (otherMembers descriptor)) := by
  obtain ⟨descriptor', productInfo', hrewritten, -, -, hkept, -⟩ := h
  have hrecords := hasNamedRecords_of_rewriteDocument hread hrewritten
  obtain ⟨written', hwritten, -, hother, -⟩ :=
    deserialize_rewrittenDescriptor target hread ((hasNamedRecords_merged hread).mpr hrecords)
  have hsame : descriptor' = written' := by
    rw [hrewritten] at hwritten
    cases hwritten
    rfl
  subst hsame
  exact ⟨hrecords, distinct_of_kept (hother.symm.trans hkept)⟩

/-- When the rewriting of a descriptor keeps all but the options. -/
theorem descriptor_rewrite_commutes_iff (target : Target) {descriptor : Json Str}
    {productInfo : ProductInfo} (hread : ProductInfo.deserialize descriptor = some productInfo)
    {launch : ProductInfoLaunchField} (hone : productInfo.launch = [launch]) :
    KeepsAllButOptions target descriptor productInfo ↔
      HasNamedRecords descriptor ∧ MembersNullFree (otherMembers descriptor) ∧
        Distinct (.object (otherMembers descriptor)) := by
  constructor
  · exact distinct_of_keepsAllButOptions hread
  · rintro ⟨hrecords, hfree, hdistinct⟩
    obtain ⟨descriptor', hrewritten, hread', hother, hkeys⟩ :=
      deserialize_rewrittenDescriptor target hread ((hasNamedRecords_merged hread).mpr hrecords)
    obtain ⟨hothers, hnames⟩ := kept_of_distinct hread hrecords hdistinct
    rw [hothers] at hother hkeys
    refine ⟨descriptor', productInfo.rewritten target, hrewritten, hread',
      computeLaunchInfo_rewritten target hone, ?_, (hkeys hfree).trans hnames⟩
    rw [hother]
    exact (membersWithoutNulls_eq_self_iff _).mpr hfree

/-- Some options, with one that names the architecture. -/
def smallOptions : List Str :=
  [lit "-Xss2m", lit "-Djna.boot.library.path=$IDE_HOME/lib/jna/x86_64"]

/-- A descriptor with a member about the build, a launch and a command. -/
def smallDescriptor (build : Json Str) : Json Str :=
  .object
    [(lit "build", build), (lit "productCode", .string (lit "IC")),
      (lit "productVendor", .string (lit "JetBrains")), (lit "envVarBaseName", .string (lit "IDEA")),
      (lit "dataDirectoryName", .string (lit "IdeaIC")),
      (lit "launch", .array [.object
        [(lit "vmOptionsFilePath", .string (lit "bin/idea64.vmoptions")),
          (lit "bootClassPathJarNames", .array []),
          (lit "additionalJvmArguments", .array (smallOptions.map .string)),
          (lit "mainClass", .string (lit "Main")),
          (lit "customCommands", .array [.object
            [(lit "commands", .array [.string (lit "thinClient")]),
              (lit "additionalJvmArguments", .array (smallOptions.map .string))]])]])]

/-- What the launcher reads of it. -/
def smallProductInfo : ProductInfo where
  productCode := lit "IC"
  productVendor := lit "JetBrains"
  envVarBaseName := lit "IDEA"
  dataDirectoryName := lit "IdeaIC"
  launch :=
    [{ vmOptionsFilePath := lit "bin/idea64.vmoptions", bootClassPathJarNames := [],
       additionalJvmArguments := smallOptions, mainClass := lit "Main",
       customCommands := some
        [{ commands := [lit "thinClient"], vmOptionsFilePath := none, bootClassPathJarNames := [],
           additionalJvmArguments := smallOptions, mainClass := none, envVarBaseName := none,
           dataDirectoryName := none }] }]

theorem hasNamedRecords_smallDescriptor (value : Json Str) :
    HasNamedRecords (smallDescriptor value) :=
  ⟨_, _, [_], rfl, rfl, rfl⟩

/-- The build is rewritten for another architecture. -/
def smallTarget : Target :=
  { product := .IDEA_IC, baseArch := .X86_64, targetArch := .RISCV64 }

/-- The options of a descriptor with a text about the build are rewritten, and the rest is kept. -/
theorem descriptor_rewrite_commutes_iff_small :
    KeepsAllButOptions smallTarget (smallDescriptor (.string (lit "243"))) smallProductInfo ∧
      rewriteJvmArguments smallTarget smallOptions =
        [lit "-Xss2m", lit "-Djna.boot.library.path=$IDE_HOME/lib/jna/riscv64",
          lit "-Didea.filewatcher.executable.path=$IDE_HOME/bin/fsnotifier"] := by
  have hother : otherMembers (smallDescriptor (.string (lit "243"))) =
      [(lit "build", .string (lit "243")), (lit "productCode", .string (lit "IC")),
        (lit "productVendor", .string (lit "JetBrains")),
        (lit "envVarBaseName", .string (lit "IDEA")),
        (lit "dataDirectoryName", .string (lit "IdeaIC"))] := rfl
  refine ⟨(descriptor_rewrite_commutes_iff smallTarget rfl rfl).mpr ⟨?_, ?_, ?_⟩, by decide⟩
  · exact hasNamedRecords_smallDescriptor _
  · rw [hother]
    simp [MembersNullFree, NullFree]
  · rw [hother, Distinct]
    exact ⟨by decide, by simp [MembersDistinct, Distinct]⟩

/-- A member that is null is lost. -/
theorem null_member_lost :
    ¬ ∀ (target : Target) (descriptor : Json Str) (productInfo : ProductInfo),
      ProductInfo.deserialize descriptor = some productInfo →
      ∀ launch, productInfo.launch = [launch] → launch.customCommands.isSome = true →
        KeepsAllButOptions target descriptor productInfo := by
  intro h
  have hread : ProductInfo.deserialize (smallDescriptor .null) = some smallProductInfo := rfl
  have hkeeps := h smallTarget (smallDescriptor .null) smallProductInfo hread _ rfl rfl
  obtain ⟨-, hfree, -⟩ := distinct_of_keepsAllButOptions hread hkeeps
  exact hfree.1 rfl

/-! ## Descriptors that can be rewritten -/

/-- The rewriting of a descriptor that the launcher can run ends without an exception and gives one
that it can run, if and only if the records of the descriptor are objects and the launch has an
array of commands. -/
theorem rewritten_runs_iff (target : Target) {descriptor : Json Str} {productInfo : ProductInfo}
    (hread : ProductInfo.deserialize descriptor = some productInfo) {commandName : Option Str}
    {info : ProductLaunchInfo} (hinfo : computeLaunchInfo productInfo commandName = .ok info) :
    (∃ descriptor' productInfo', target.rewriteDocument descriptor = .ok descriptor' ∧
      ProductInfo.deserialize descriptor' = some productInfo' ∧
      ∀ commandName', ∃ info', computeLaunchInfo productInfo' commandName' = .ok info') ↔
    HasNamedRecords descriptor := by
  constructor
  · rintro ⟨descriptor', -, hrewritten, -⟩
    exact hasNamedRecords_of_rewriteDocument hread hrewritten
  · intro hrecords
    obtain ⟨descriptor', hrewritten, hread', -⟩ :=
      deserialize_rewrittenDescriptor target hread ((hasNamedRecords_merged hread).mpr hrecords)
    refine ⟨descriptor', productInfo.rewritten target, hrewritten, hread', fun commandName' => ?_⟩
    have hone := (computeLaunchInfo_isOk productInfo commandName).mp ⟨info, hinfo⟩
    rw [computeLaunchInfo_isOk, ProductInfo.rewritten, List.length_map]
    exact hone

/-- A descriptor with a command is rewritten to one that can be run with it. -/
theorem rewritten_runs_iff_small :
    ∃ descriptor' productInfo',
      smallTarget.rewriteDocument (smallDescriptor (.string (lit "243"))) = .ok descriptor' ∧
      ProductInfo.deserialize descriptor' = some productInfo' ∧
      ∀ commandName', ∃ info', computeLaunchInfo productInfo' commandName' = .ok info' := by
  obtain ⟨info, hinfo⟩ := (computeLaunchInfo_isOk smallProductInfo (some (lit "thinClient"))).mpr rfl
  exact (rewritten_runs_iff smallTarget rfl hinfo).mpr (hasNamedRecords_smallDescriptor _)

/-- A descriptor without custom commands. -/
def plainDescriptor : Json Str :=
  .object
    [(lit "productCode", .string (lit "IC")), (lit "productVendor", .string (lit "JetBrains")),
      (lit "envVarBaseName", .string (lit "IDEA")),
      (lit "dataDirectoryName", .string (lit "IdeaIC")),
      (lit "launch", .array [.object
        [(lit "vmOptionsFilePath", .string (lit "bin/idea64.vmoptions")),
          (lit "bootClassPathJarNames", .array []),
          (lit "additionalJvmArguments", .array (smallOptions.map .string)),
          (lit "mainClass", .string (lit "Main"))]])]

/-- What the launcher reads of it. -/
def plainProductInfo : ProductInfo :=
  { smallProductInfo with
    launch := smallProductInfo.launch.map fun launch => { launch with customCommands := none } }

/-- The launcher runs a descriptor without custom commands, but it cannot be rewritten. -/
theorem plain_descriptor_fails :
    ProductInfo.deserialize plainDescriptor = some plainProductInfo ∧
      (∀ commandName, ∃ info, computeLaunchInfo plainProductInfo commandName = .ok info) ∧
      smallTarget.rewriteDocument plainDescriptor =
        .error (.runtimeException (str "NullPointerException")) := by
  refine ⟨rfl, fun commandName => ?_, rfl⟩
  exact (computeLaunchInfo_isOk plainProductInfo commandName).mpr rfl

end Launcher
end IdeMultiarch
