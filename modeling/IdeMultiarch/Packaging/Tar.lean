import Mathlib.Data.List.Basic
import Mathlib.Data.List.Nodup
import Mathlib.Tactic.Common
import IdeMultiarch.Library.Results

/-!
# Packaging - tar archives

Archives as the build reads and writes them with the tar library: a list of members, each
a header with the data that follows it.  The library that makes, renames and writes entries is a
parameter; the build relies on what its documentation says about these.

The functions of {lit}`org.glavo.build.util.Utils` that copy a header are here too.

Main results:

- Theorem {lit}`putArchiveEntry_ok`: a member is written as the header and the data given.
- Theorem {lit}`copyTarEntry_file`: what {lit}`copyTarEntry` makes of a header, and what it forgets.
-/

namespace IdeMultiarch
namespace Packaging

/-! ## Names and data -/

/-- A Java string. -/
abbrev Name := List Char

/-- The characters of a string literal of the source. -/
def str (s : String) : Name :=
  s.toList

/-- A Java byte array. -/
abbrev Bytes := List UInt8

/-- The UTF-8 bytes of a string; the source only encodes texts of its own. -/
def utf8 (text : Name) : Bytes :=
  text.flatMap String.utf8EncodeChar

/-- {lit}`endsWith("/")` -/
def endsWithSlash (name : Name) : Bool :=
  name.getLast? == some '/'

/-! ## Headers -/

/-- {lit}`linkFlag`, as far as the source looks at it: an old style header of a file is a regular
one too. -/
inductive EntryType
  | regular
  | directory
  | symbolicLink
  | link
  | other (flag : UInt8)
deriving DecidableEq, Repr

/-- The times of an entry. -/
structure Times where
  creation : Option Int
  lastAccess : Option Int
  lastModified : Option Int
deriving DecidableEq, Repr

/-- The owner of an entry. -/
structure Owner where
  userId : Nat
  groupId : Nat
  userName : Name
  groupName : Name
deriving DecidableEq, Repr

/-- {lit}`TarArchiveEntry` -/
structure TarArchiveEntry where
  name : Name
  linkFlag : EntryType
  linkName : Name
  mode : Nat
  size : Nat
  times : Times
  owner : Owner
deriving DecidableEq, Repr

namespace TarArchiveEntry

/-- {lit}`isDirectory` -/
def isDirectory (entry : TarArchiveEntry) : Bool :=
  entry.linkFlag == .directory || endsWithSlash entry.name

/-- {lit}`isSymbolicLink` -/
def isSymbolicLink (entry : TarArchiveEntry) : Bool :=
  entry.linkFlag == .symbolicLink

/-- The number of bytes that follow the header: a directory has none. -/
def dataSize (entry : TarArchiveEntry) : Nat :=
  if entry.isDirectory then 0 else entry.size

end TarArchiveEntry

/-- A header with its data. -/
structure Member where
  entry : TarArchiveEntry
  data : Bytes
  sized : data.length = entry.dataSize
deriving DecidableEq, Repr

/-- A member is its header and its data. -/
theorem Member.eq_of {member member' : Member} (hentry : member.entry = member'.entry)
    (hdata : member.data = member'.data) : member = member' := by
  cases member
  cases member'
  cases hentry
  cases hdata
  rfl

/-- The members with a name. -/
def named (name : Name) (members : List Member) : List Member :=
  members.filter fun member => member.entry.name = name

/-- {lit}`DEFAULT_FILE_MODE` -/
def DEFAULT_FILE_MODE : Nat := 0o100644

/-- {lit}`DEFAULT_DIR_MODE` -/
def DEFAULT_DIR_MODE : Nat := 0o40755

/-! ## The library -/

/-- What a task of the build fails with: the exceptions of the source with their texts, those of
the Java runtime, and the refusal of the library to close an entry that does not have the size of
its header. -/
inductive Failure
  | gradleException (message : Name)
  | ioException (message : Name)
  | runtimeException (exception : Name)
  | wrongSize (name : Name)
deriving DecidableEq, Repr

/-- What the tar library does when an entry is made, gets a name, or is put with its data and
closed.  A name that does not start with a slash is kept, one that ends with a slash makes a
directory, and the data must have the size that the header tells.  Nothing is known of the times
and the owner of a new entry. -/
structure TarLibrary where
  normalizeFileName : Name → Name
  newTarArchiveEntry : Name → TarArchiveEntry
  setName : TarArchiveEntry → Name → TarArchiveEntry
  putArchiveEntry : TarArchiveEntry → Bytes → Except Failure Member
  relative : ∀ name, name.head? ≠ some '/' → normalizeFileName name = name
  new_name : ∀ name, (newTarArchiveEntry name).name = normalizeFileName name
  new_linkFlag : ∀ name, (newTarArchiveEntry name).linkFlag =
    if endsWithSlash (normalizeFileName name) then .directory else .regular
  new_linkName : ∀ name, (newTarArchiveEntry name).linkName = []
  new_mode : ∀ name, (newTarArchiveEntry name).mode =
    if endsWithSlash (normalizeFileName name) then DEFAULT_DIR_MODE else DEFAULT_FILE_MODE
  new_size : ∀ name, (newTarArchiveEntry name).size = 0
  setName_eq : ∀ entry name, setName entry name = { entry with name := normalizeFileName name }
  put_sized : ∀ entry data, (h : data.length = entry.dataSize) →
    putArchiveEntry entry data = .ok ⟨entry, data, h⟩
  put_wrongSize : ∀ entry data, data.length ≠ entry.dataSize →
    putArchiveEntry entry data = .error (.wrongSize entry.name)

/-- The library as it is: absolute names lose the slashes in front. -/
def commonsCompress : TarLibrary where
  normalizeFileName name := name.dropWhile (· == '/')
  newTarArchiveEntry name :=
    let name := name.dropWhile (· == '/')
    { name := name
      linkFlag := if endsWithSlash name then .directory else .regular
      linkName := []
      mode := if endsWithSlash name then DEFAULT_DIR_MODE else DEFAULT_FILE_MODE
      size := 0
      times := ⟨none, none, some 0⟩
      owner := ⟨0, 0, [], []⟩ }
  setName entry name := { entry with name := name.dropWhile (· == '/') }
  putArchiveEntry entry data :=
    if h : data.length = entry.dataSize then .ok ⟨entry, data, h⟩
    else .error (.wrongSize entry.name)
  relative := by
    intro name hname
    cases name with
    | nil => rfl
    | cons c cs =>
        have hc : ¬ (c == '/') = true := by
          intro h
          rw [beq_iff_eq] at h
          exact hname (by rw [h]; rfl)
        simp [hc]
  new_name _ := rfl
  new_linkFlag _ := rfl
  new_linkName _ := rfl
  new_mode _ := rfl
  new_size _ := rfl
  setName_eq _ _ := rfl
  put_sized _ _ h := dif_pos h
  put_wrongSize _ _ h := dif_neg h

variable (lib : TarLibrary)

/-- A member as it is read: the name in its header is not changed. -/
def readMember (name : Name) (linkFlag : EntryType) (linkName : Name) (data : Bytes)
    (hdata : data = [] ∨ linkFlag ≠ .directory ∧ endsWithSlash name = false) : Member where
  entry :=
    { name := name
      linkFlag := linkFlag
      linkName := linkName
      mode := DEFAULT_FILE_MODE
      size := data.length
      times := ⟨none, none, some 0⟩
      owner := ⟨0, 0, [], []⟩ }
  data := data
  sized := by
    rcases hdata with rfl | ⟨hflag, hname⟩
    · unfold TarArchiveEntry.dataSize
      split <;> rfl
    · simp [TarArchiveEntry.dataSize, TarArchiveEntry.isDirectory, hflag, hname]

/-! ## Utils -/

/-- {lit}`copyTarEntry` with a new name: the size is given, the mode and the times are copied. -/
def copyTarEntryAs (entry : TarArchiveEntry) (newName : Name) (newSize : Nat) : TarArchiveEntry :=
  { lib.newTarArchiveEntry newName with
    size := newSize
    mode := entry.mode
    times := entry.times }

/-- {lit}`copyTarEntry` -/
def copyTarEntry (entry : TarArchiveEntry) (newSize : Nat) : TarArchiveEntry :=
  copyTarEntryAs lib entry entry.name newSize

/-! ## Properties -/

variable {lib}

/-- The values of a function on a list are distinct if each is taken once. -/
theorem nodup_map_iff {α β : Type} [DecidableEq β] {f : α → β} {l : List α} :
    (l.map f).Nodup ↔ ∀ x ∈ l, (l.filter fun y => f y = f x).length = 1 := by
  have hcount : ∀ x, (l.map f).count (f x) = (l.filter fun y => f y = f x).length := by
    intro x
    rw [List.count, List.countP_map, List.countP_eq_length_filter]
    congr 1
  constructor
  · intro hnodup x hx
    rw [← hcount]
    exact List.count_eq_one_of_mem hnodup (List.mem_map_of_mem hx)
  · intro honce
    rw [List.nodup_iff_count_le_one]
    intro y
    by_cases hy : y ∈ l.map f
    · obtain ⟨x, hx, rfl⟩ := List.mem_map.mp hy
      rw [hcount]
      exact Nat.le_of_eq (honce x hx)
    · rw [List.count_eq_zero_of_not_mem hy]
      exact Nat.zero_le 1

/-- In a list with distinct names, a name belongs to one member. -/
theorem named_of_mem {members : List Member}
    (hdistinct : (members.map fun member => member.entry.name).Nodup) {name : Name}
    (hmem : name ∈ members.map fun member => member.entry.name) :
    ∃ member, named name members = [member] := by
  obtain ⟨member, hmember, rfl⟩ := List.mem_map.mp hmem
  exact List.length_eq_one_iff.mp (nodup_map_iff.mp hdistinct member hmember)

/-- The slash that {lit}`indexOf` finds. -/
theorem idxOf?_eq_some {name : Name} {idx : Nat} (h : name.idxOf? '/' = some idx) :
    name.idxOf '/' = idx ∧ name[idx]? = some '/' := by
  have hfind := List.findIdx?_eq_some_iff_findIdx_eq.mp h
  obtain ⟨hlength, hslash, -⟩ := List.idxOf?_eq_some_iff.mp h
  exact ⟨hfind.2, by rw [List.getElem?_eq_getElem hlength, hslash]⟩

/-- Whether a name ends with a slash is told by its last part. -/
theorem endsWithSlash_append (front : Name) {back : Name} (hback : back ≠ []) :
    endsWithSlash (front ++ back) = endsWithSlash back := by
  unfold endsWithSlash
  rw [List.getLast?_append_of_ne_nil front hback]

/-- A name cut after a slash ends with it. -/
theorem endsWithSlash_take {name : Name} {idx : Nat} (h : name[idx]? = some '/') :
    endsWithSlash (name.take (idx + 1)) = true := by
  rw [List.take_add_one, h]
  exact endsWithSlash_append (name.take idx) (List.cons_ne_nil _ _)

/-- What follows a slash in a name without a final one is not empty, and has no final one. -/
theorem endsWithSlash_drop {name : Name} {idx : Nat} (h : name[idx]? = some '/')
    (hfile : endsWithSlash name = false) :
    name.drop (idx + 1) ≠ [] ∧ endsWithSlash (name.drop (idx + 1)) = false := by
  have hsplit := List.take_append_drop (idx + 1) name
  have hrest : name.drop (idx + 1) ≠ [] := by
    intro hnil
    rw [hnil, List.append_nil] at hsplit
    rw [← hsplit, endsWithSlash_take h] at hfile
    cases hfile
  refine ⟨hrest, ?_⟩
  rw [← endsWithSlash_append (name.take (idx + 1)) hrest, hsplit]
  exact hfile

/-- A new entry has the name that it is given, if that is relative. -/
theorem newTarArchiveEntry_name {name : Name} (hrelative : name.head? ≠ some '/') :
    (lib.newTarArchiveEntry name).name = name :=
  (lib.new_name name).trans (lib.relative name hrelative)

/-- A member is written as it was given. -/
theorem putArchiveEntry_ok {entry : TarArchiveEntry} {data : Bytes} {member : Member}
    (h : lib.putArchiveEntry entry data = .ok member) :
    member.entry = entry ∧ member.data = data := by
  by_cases hsized : data.length = entry.dataSize
  · rw [lib.put_sized entry data hsized] at h
    cases h
    exact ⟨rfl, rfl⟩
  · rw [lib.put_wrongSize entry data hsized] at h
    cases h

/-- The copied header of a file: it is a regular file, whatever the original was. -/
theorem copyTarEntry_file {entry : TarArchiveEntry} {newName : Name} {newSize : Nat}
    (hrelative : newName.head? ≠ some '/') (hfile : endsWithSlash newName = false) :
    let newEntry := copyTarEntryAs lib entry newName newSize
    newEntry.name = newName ∧ newEntry.linkFlag = .regular ∧ newEntry.linkName = [] ∧
      newEntry.mode = entry.mode ∧ newEntry.size = newSize ∧ newEntry.times = entry.times := by
  simp [copyTarEntryAs, lib.new_name, lib.new_linkFlag, lib.new_linkName,
    lib.relative newName hrelative, hfile]

end Packaging
end IdeMultiarch
