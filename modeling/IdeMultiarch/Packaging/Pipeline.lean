import IdeMultiarch.Packaging.InstalledTree
import IdeMultiarch.Packaging.Rewriting
import IdeMultiarch.Packaging.ScriptWords

/-!
# Packaging - from the archive of an IDE to the installed package

The build makes a package in two steps: the archive of an IDE for the base architecture is
transformed, and the result is packed.  What is installed where depends on both, and the scripts of
the package and its desktop entry name a file that has to come out of them.

Main results:

- Theorem {lit}`named_place`: what is installed at a path is what the transformed archive has there.
- Theorem {lit}`natives_installed`: every file of the target architecture is installed once.
- Theorem {lit}`launcher_installed`: the program that the package names is the launcher.
-/

namespace IdeMultiarch
namespace Packaging

open Library.Results (bind_eq_ok)

/-! ## The files of the target architecture -/

/-- The files that are replaced by those of the target architecture. -/
inductive NativeFile
  | launcher
  | remoteDevServer
  | fsnotifier
  | restarter
  | libpty
  | libsqliteij
  | libjnidispatch
deriving DecidableEq, Repr

namespace NativeFile

/-- Where a file is in the archive of the IDE. -/
def key (target : Target) : NativeFile → Name
  | .launcher => str "bin/" ++ target.product.getLauncherName
  | .remoteDevServer => str "bin/remote-dev-server"
  | .fsnotifier => str "bin/fsnotifier"
  | .restarter => str "bin/restarter"
  | .libpty => str "lib/pty4j/linux/" ++ target.baseArch.normalize ++ str "/libpty.so"
  | .libsqliteij => str "lib/native/linux-" ++ target.baseArch.normalize ++ str "/libsqliteij.so"
  | .libjnidispatch => str "lib/jna/" ++ target.baseArch.normalize ++ str "/libjnidispatch.so"

/-- The new path of a file that is moved. -/
def targetPath (target : Target) : NativeFile → Option Name
  | .libpty => some (str "lib/pty4j/linux/" ++ target.targetArch.normalize ++ str "/libpty.so")
  | .libsqliteij => some (str "lib/native/linux-x86_64/libsqliteij.so")
  | .libjnidispatch =>
      some (str "lib/jna/" ++ target.targetArch.normalize ++ str "/libjnidispatch.so")
  | _ => none

/-- Where the replacement belongs. -/
def place (target : Target) (file : NativeFile) : Name :=
  (file.targetPath target).getD (file.key target)

/-- The replacement. -/
def bytes (task : TransformIDE) : NativeFile → Option Bytes
  | .launcher | .remoteDevServer => task.nativesZip (str "xplat-launcher")
  | .fsnotifier => task.nativesZip (str "fsnotifier")
  | .restarter => task.nativesZip (str "restarter")
  | .libpty => task.nativesZip (str "libpty.so")
  | .libsqliteij => task.nativesZip (str "libsqliteij.so")
  | .libjnidispatch =>
      task.jnaResource (str "linux-" ++ task.target.targetArch.normalize ++ str "/libjnidispatch.so")

/-- Whether a product has the file. -/
def wanted (product : Product) : NativeFile → Bool
  | .remoteDevServer => !product.isOpenSource
  | _ => true

/-- How the path of a file begins. -/
def mark (product : Product) : NativeFile → Name
  | .launcher => (str "bin/" ++ product.getLauncherName).take 7
  | .remoteDevServer => str "bin/rem"
  | .fsnotifier => str "bin/fsn"
  | .restarter => str "bin/res"
  | .libpty => str "lib/pty"
  | .libsqliteij => str "lib/nat"
  | .libjnidispatch => str "lib/jna"

theorem mark_injective {product : Product} {file file' : NativeFile}
    (h : file.mark product = file'.mark product) : file = file' := by
  revert h
  cases product <;> cases file <;> cases file' <;> decide

variable {target : Target} {file file' : NativeFile}

theorem take_key (target : Target) (file : NativeFile) :
    (file.key target).take 7 = file.mark target.product := by
  cases file <;> rfl

theorem take_place (target : Target) (file : NativeFile) :
    (file.place target).take 7 = file.mark target.product := by
  cases file <;> rfl

theorem key_ne_key (target : Target) (file : NativeFile) {file' : NativeFile} (h : file ≠ file') :
    file.key target ≠ file'.key target := by
  intro heq
  exact h (mark_injective (by rw [← take_key, ← take_key, heq]))

/-- A path that begins otherwise is not that of a file. -/
theorem key_ne_of_take {path : Name} (target : Target) (file : NativeFile)
    (h : ∀ product, path.take 7 ≠ file.mark product) : file.key target ≠ path := by
  rintro rfl
  exact h _ (take_key target file)

/-- The script of the launcher is a file of its own. -/
theorem key_ne_script (target : Target) (file : NativeFile) :
    file.key target ≠ str "bin/" ++ target.product.getLauncherName ++ str ".sh" := by
  intro h
  have hmark : file.mark target.product = launcher.mark target.product := by
    rw [← take_key, h]
    cases target.product <;> rfl
  rw [mark_injective hmark] at h
  have hlength := congrArg List.length h
  simp [key, str] at hlength

/-- The paths are paths of files. -/
theorem key_file (target : Target) (file : NativeFile) :
    file.key target ≠ [] ∧ endsWithSlash (file.key target) = false := by
  have hlauncher : ∀ product : Product,
      endsWithSlash (str "bin/" ++ product.getLauncherName) = false := by
    intro product
    cases product <;> decide
  constructor
  · cases file <;> exact List.cons_ne_nil _ _
  · cases file with
    | launcher => exact hlauncher target.product
    | remoteDevServer => rfl
    | fsnotifier => rfl
    | restarter => rfl
    | libpty => exact (endsWithSlash_append _ (by decide)).trans (by decide)
    | libsqliteij => exact (endsWithSlash_append _ (by decide)).trans (by decide)
    | libjnidispatch => exact (endsWithSlash_append _ (by decide)).trans (by decide)

theorem place_file (target : Target) (file : NativeFile) :
    file.place target ≠ [] ∧ endsWithSlash (file.place target) = false := by
  cases file with
  | libpty => exact key_file { target with baseArch := target.targetArch } .libpty
  | libsqliteij => exact key_file { target with baseArch := .X86_64 } .libsqliteij
  | libjnidispatch => exact key_file { target with baseArch := target.targetArch } .libjnidispatch
  | launcher => exact key_file target .launcher
  | remoteDevServer => exact key_file target .remoteDevServer
  | fsnotifier => exact key_file target .fsnotifier
  | restarter => exact key_file target .restarter

end NativeFile

/-! ## The transformers -/

variable {lib : TarLibrary} {task : TransformIDE} {transformers : Transformers}

namespace TransformIDE

theorem getNativeReplacement_ok {path : Name} {targetPath : Option Name}
    {transformer : FileTransformer}
    (h : task.getNativeReplacement path targetPath = .ok transformer) :
    ∃ bytes, task.nativesZip path = some bytes ∧ transformer = .replace bytes targetPath := by
  unfold getNativeReplacement at h
  split at h
  next => cases h
  next bytes hbytes =>
    cases h
    exact ⟨bytes, hbytes, rfl⟩

theorem getJnaReplacement_ok {transformer : FileTransformer}
    (h : task.getJnaReplacement = .ok transformer) :
    ∃ bytes, NativeFile.libjnidispatch.bytes task = some bytes ∧
      transformer = .replace bytes (NativeFile.libjnidispatch.targetPath task.target) := by
  unfold getJnaReplacement at h
  dsimp only at h
  split at h
  next => cases h
  next bytes hbytes =>
    cases h
    exact ⟨bytes, hbytes, rfl⟩

/-- A map has the replacement for a file. -/
def HasReplacement (task : TransformIDE) (map : Transformers) (file : NativeFile) : Prop :=
  ∃ replacement, file.bytes task = some replacement ∧
    map.lookup (file.key task.target) = some (.replace replacement (file.targetPath task.target))

theorem HasReplacement.self {file : NativeFile} {replacement : Bytes} (map : Transformers)
    (hbytes : file.bytes task = some replacement) :
    HasReplacement task
      (map.insert (file.key task.target) (.replace replacement (file.targetPath task.target))) file :=
  ⟨replacement, hbytes, AList.lookup_insert _⟩

theorem HasReplacement.insert {map : Transformers} {file : NativeFile}
    (h : HasReplacement task map file) {key : Name} (hkey : file.key task.target ≠ key)
    (transformer : FileTransformer) : HasReplacement task (map.insert key transformer) file := by
  obtain ⟨replacement, hbytes, hlookup⟩ := h
  exact ⟨replacement, hbytes, by rw [AList.lookup_insert_ne hkey, hlookup]⟩

theorem HasReplacement.insertFile {map : Transformers} {file file' : NativeFile}
    {replacement : Bytes} (hbytes : file'.bytes task = some replacement)
    (h : file ≠ file' → HasReplacement task map file) :
    HasReplacement task
      (map.insert (file'.key task.target) (.replace replacement (file'.targetPath task.target)))
      file := by
  by_cases hfile : file = file'
  · subst hfile
    exact HasReplacement.self map hbytes
  · exact (h hfile).insert (file.key_ne_key task.target hfile) _

/-- The replacements in a map are those of the files. -/
def OnlyNatives (task : TransformIDE) (map : Transformers) : Prop :=
  ∀ key replacement targetPath, map.lookup key = some (.replace replacement targetPath) →
    ∃ file : NativeFile, key = file.key task.target ∧ targetPath = file.targetPath task.target

theorem OnlyNatives.insert {map : Transformers} (h : OnlyNatives task map) {key : Name}
    {transformer : FileTransformer}
    (hnew : ∀ replacement targetPath, transformer = .replace replacement targetPath →
      ∃ file : NativeFile, key = file.key task.target ∧ targetPath = file.targetPath task.target) :
    OnlyNatives task (map.insert key transformer) := by
  intro key' replacement targetPath hlookup
  by_cases hkey : key' = key
  · subst hkey
    rw [AList.lookup_insert, Option.some.injEq] at hlookup
    exact hnew replacement targetPath hlookup
  · rw [AList.lookup_insert_ne hkey] at hlookup
    exact h key' replacement targetPath hlookup

theorem OnlyNatives.insertFile {map : Transformers} (h : OnlyNatives task map) (file : NativeFile)
    (replacement : Bytes) :
    OnlyNatives task
      (map.insert (file.key task.target) (.replace replacement (file.targetPath task.target))) := by
  refine h.insert fun replacement' targetPath heq => ?_
  cases heq
  exact ⟨file, rfl, rfl⟩

/-- The map of {lit}`getTransformers` replaces the files that the product has, and no others. -/
theorem getTransformers_natives (h : task.getTransformers = .ok transformers) :
    OnlyNatives task transformers ∧
      ∀ file : NativeFile, file.wanted task.target.product = true →
        HasReplacement task transformers file := by
  obtain ⟨xplatLauncher, hlauncher, h⟩ := bind_eq_ok.mp h
  obtain ⟨fsnotifier, hfsnotifier, h⟩ := bind_eq_ok.mp h
  obtain ⟨restarter, hrestarter, h⟩ := bind_eq_ok.mp h
  obtain ⟨libpty, hlibpty, h⟩ := bind_eq_ok.mp h
  obtain ⟨libsqliteij, hlibsqliteij, h⟩ := bind_eq_ok.mp h
  obtain ⟨libjnidispatch, hlibjnidispatch, h⟩ := bind_eq_ok.mp h
  obtain ⟨launcher, hxplat, rfl⟩ := getNativeReplacement_ok hlauncher
  obtain ⟨watcher, hwatcher, rfl⟩ := getNativeReplacement_ok hfsnotifier
  obtain ⟨starter, hstarter, rfl⟩ := getNativeReplacement_ok hrestarter
  obtain ⟨pty, hpty, rfl⟩ := getNativeReplacement_ok hlibpty
  obtain ⟨sqlite, hsqlite, rfl⟩ := getNativeReplacement_ok hlibsqliteij
  obtain ⟨jna, hjna, rfl⟩ := getJnaReplacement_ok hlibjnidispatch
  replace hxplat : NativeFile.launcher.bytes task = some launcher := hxplat
  have hserver : NativeFile.remoteDevServer.bytes task = some launcher := hxplat
  replace hwatcher : NativeFile.fsnotifier.bytes task = some watcher := hwatcher
  replace hstarter : NativeFile.restarter.bytes task = some starter := hstarter
  replace hpty : NativeFile.libpty.bytes task = some pty := hpty
  replace hsqlite : NativeFile.libsqliteij.bytes task = some sqlite := hsqlite
  cases h
  constructor
  · have hother : ∀ (map : Transformers) (key : Name) (transformer : FileTransformer),
        (∀ replacement targetPath, transformer ≠ .replace replacement targetPath) →
        OnlyNatives task map → OnlyNatives task (map.insert key transformer) :=
      fun map key transformer hne hmap =>
        hmap.insert fun replacement targetPath heq => absurd heq (hne replacement targetPath)
    have hserver : ∀ map : Transformers, OnlyNatives task map →
        OnlyNatives task (if task.target.product.isOpenSource then map
          else map.insert (str "bin/remote-dev-server") (.replace launcher none)) := by
      intro map hmap
      split
      next => exact hmap
      next => exact hmap.insertFile .remoteDevServer launcher
    have hutil : ∀ map : Transformers, OnlyNatives task map →
        OnlyNatives task (if task.target.targetArch = .LOONGARCH64 then
          map.insert (str "lib/util.jar") (.transform task.transformUtilJar) else map) := by
      intro map hmap
      split
      next => exact hother _ _ _ nofun hmap
      next => exact hmap
    have hempty : OnlyNatives task ∅ := by
      intro key replacement targetPath hlookup
      rw [AList.lookup_empty] at hlookup
      cases hlookup
    have hprograms := ((hserver _ (hempty.insertFile .launcher launcher)).insertFile .fsnotifier
      watcher).insertFile .restarter starter
    have hlibdbm := hother _ (str "bin/libdbm.so") (.filterOut true) nofun hprograms
    have hlibs := ((hlibdbm.insertFile .libpty pty).insertFile .libsqliteij sqlite).insertFile
      .libjnidispatch jna
    exact hutil _ (hother _ _ _ nofun (hother _ _ _ nofun hlibs))
  · intro file hwanted
    have hutil : ∀ map : Transformers, HasReplacement task map file →
        HasReplacement task (if task.target.targetArch = .LOONGARCH64 then
          map.insert (str "lib/util.jar") (.transform task.transformUtilJar) else map) file := by
      intro map hmap
      split
      next =>
        refine hmap.insert (file.key_ne_of_take _ fun product => ?_) _
        cases product <;> cases file <;> decide
      next => exact hmap
    have hlibdbm : file.key task.target ≠ str "bin/libdbm.so" :=
      file.key_ne_of_take _ fun product => by cases product <;> cases file <;> decide
    have hinfo : file.key task.target ≠ str "product-info.json" :=
      file.key_ne_of_take _ fun product => by cases product <;> cases file <;> decide
    refine hutil _ (HasReplacement.insert (HasReplacement.insert ?_ hinfo _)
      (file.key_ne_script task.target) _)
    refine HasReplacement.insertFile hjna fun hnotJna => ?_
    refine HasReplacement.insertFile hsqlite fun hnotSqlite => ?_
    refine HasReplacement.insertFile hpty fun hnotPty => ?_
    refine HasReplacement.insert ?_ hlibdbm _
    refine HasReplacement.insertFile hstarter fun hnotStarter => ?_
    refine HasReplacement.insertFile hwatcher fun hnotWatcher => ?_
    have hlauncher : file ≠ .remoteDevServer → HasReplacement task
        (AList.insert (NativeFile.launcher.key task.target) (.replace launcher none) ∅) file := by
      intro hnotServer
      refine HasReplacement.insertFile hxplat fun hnotLauncher => ?_
      cases file with
      | launcher => exact absurd rfl hnotLauncher
      | remoteDevServer => exact absurd rfl hnotServer
      | fsnotifier => exact absurd rfl hnotWatcher
      | restarter => exact absurd rfl hnotStarter
      | libpty => exact absurd rfl hnotPty
      | libsqliteij => exact absurd rfl hnotSqlite
      | libjnidispatch => exact absurd rfl hnotJna
    split
    next hopen =>
      refine hlauncher ?_
      rintro rfl
      simp [NativeFile.wanted, hopen] at hwanted
    next =>
      exact HasReplacement.insertFile hserver hlauncher

end TransformIDE

/-! ## The transformed archive -/

/-- The archive of an IDE: everything is in one directory, and no name occurs twice. -/
structure IdeArchive (first : Member) (members : List Member) : Prop where
  top : ∃ component, '/' ∉ component ∧ component ≠ [] ∧ first.entry.name = component ++ ['/']
  inside : ∀ member ∈ members, first.entry.name <+: member.entry.name
  distinct : ((first :: members).map fun member => member.entry.name).Nodup

theorem IdeArchive.relative {first : Member} {members : List Member}
    (h : IdeArchive first members) : first.entry.name.head? ≠ some '/' := by
  obtain ⟨component, hslash, hne, htop⟩ := h.top
  rw [htop]
  cases component with
  | nil => exact absurd rfl hne
  | cons c component =>
      intro hc
      have hc' : c = '/' := by simpa using hc
      exact hslash (hc' ▸ List.mem_cons_self)

namespace TransformIDE

variable {top : Name} {members output : List Member}

/-- A transformation that returns has written the pieces of all entries. -/
theorem transformed_of_ok {first : Member} (hbase : IdeArchive first members)
    (h : task.doTransform lib (first :: members) = .ok output) :
    ∃ transformers pieces, task.getTransformers = .ok transformers ∧ output = pieces.flatten ∧
      List.Forall₂ (Becomes task first.entry.name transformers) members pieces ∧
      ∀ key transformer, transformers.lookup key = some transformer →
        transformer.optional = false →
        first.entry.name ++ key ∈ members.map fun member => member.entry.name := by
  obtain ⟨transformers, progress, htransformers, hloop, hfound, -, rfl⟩ := doTransform_ok h
  obtain ⟨⟨pieces, hpieces, hall⟩, hused, -⟩ :=
    transformMembers_becomes hbase.relative (getTransformers_relative htransformers)
      (List.nodup_cons.mp hbase.distinct).2 (fun member _ => lookup_prefixed _ _ _) hloop
  refine ⟨transformers, pieces, htransformers, hpieces, hall, ?_⟩
  intro key transformer hkey hneeded
  have hlast := hused (first.entry.name ++ key)
  rw [lookup_prefixed, transformerOf_append, hkey] at hlast
  by_contra hmissing
  rw [if_neg fun hboth => hmissing hboth.1] at hlast
  rw [hfound _ _ hlast] at hneeded
  cases hneeded

/-- Where the names of a piece come from: they are in the runtime, or the one of the entry, or the
new path of a file that is moved. -/
theorem name_of_becomes {member out : Member} {piece : List Member}
    (h : Becomes task top transformers member piece) (hout : out ∈ piece) :
    (∃ rest, out.entry.name = jbrPrefix top ++ rest) ∨
    out.entry.name = member.entry.name ∨
    ∃ key replacement targetPath, member.entry.name = top ++ key ∧
      transformers.lookup key = some (.replace replacement (some targetPath)) ∧
      out.entry.name = top ++ targetPath := by
  unfold Becomes at h
  split at h
  next =>
    split at h
    next =>
      split at h
      next =>
        obtain ⟨-, component, -, hmoved⟩ := h
        obtain ⟨i, hi, rfl⟩ := List.getElem_of_mem hout
        obtain ⟨rest, -, hentry⟩ := (hmoved.get (by rw [hmoved.length_eq]; exact hi) hi).name
        exact Or.inl ⟨rest, congrArg TarArchiveEntry.name hentry⟩
      next =>
        rw [h] at hout
        cases hout
    next =>
      rw [h] at hout
      cases hout
  next =>
    split at h
    next =>
      obtain ⟨out', rfl, hrewritten⟩ := h
      rw [List.mem_singleton] at hout
      exact Or.inr (Or.inl (hout ▸ hrewritten.name))
    next replacement targetPath hfind =>
      obtain ⟨out', rfl, hrewritten⟩ := h
      obtain ⟨key, hname, hkey⟩ := transformerOf_eq_some hfind
      rw [List.mem_singleton] at hout
      exact Or.inr (Or.inr ⟨key, replacement, targetPath, hname, hkey, hout ▸ hrewritten.name⟩)
    next =>
      rw [h] at hout
      cases hout
    next =>
      obtain ⟨result, out', -, rfl, hrewritten⟩ := h
      rw [List.mem_singleton] at hout
      exact Or.inr (Or.inl (hout ▸ hrewritten.name))
    next =>
      rw [h, List.mem_singleton] at hout
      exact Or.inr (Or.inl (hout ▸ rfl))

end TransformIDE

/-! ## Names in the transformed archive -/

section Names

/-- The members with a name are in the pieces. -/
theorem named_flatten_of_none {R : Member → List Member → Prop} {members : List Member}
    {pieces : List (List Member)} {name : Name} (hall : List.Forall₂ R members pieces)
    (hnone : ∀ member ∈ members, ∀ piece, R member piece → named name piece = []) :
    named name pieces.flatten = [] := by
  induction hall with
  | nil => rfl
  | cons hpiece _ ih =>
      rw [List.flatten_cons, named, List.filter_append]
      rw [show List.filter _ _ = [] from hnone _ List.mem_cons_self _ hpiece, List.nil_append]
      exact ih fun member hmember => hnone member (List.mem_cons_of_mem _ hmember)

/-- If only one entry can have a piece with a name, its piece has all members of that name. -/
theorem named_flatten_of_once {R : Member → List Member → Prop} {members : List Member}
    {pieces : List (List Member)} {name : Name} (hall : List.Forall₂ R members pieces)
    (hdistinct : (members.map fun member => member.entry.name).Nodup) {source : Member}
    (hsource : source ∈ members)
    (hothers : ∀ member ∈ members, member.entry.name ≠ source.entry.name →
      ∀ piece, R member piece → named name piece = []) :
    ∃ piece, R source piece ∧ named name pieces.flatten = named name piece := by
  induction hall with
  | nil => cases hsource
  | @cons member piece members pieces hpiece hall ih =>
      rw [List.map_cons, List.nodup_cons] at hdistinct
      rw [List.flatten_cons, named, List.filter_append]
      by_cases hfirst : member.entry.name = source.entry.name
      · have hself : source = member := by
          rcases List.mem_cons.mp hsource with hself | hlater
          · exact hself
          · exact absurd (hfirst ▸ List.mem_map_of_mem hlater) hdistinct.1
        subst hself
        refine ⟨piece, hpiece, ?_⟩
        have hrest : named name pieces.flatten = [] := by
          refine named_flatten_of_none hall fun other hother => ?_
          refine hothers other (List.mem_cons_of_mem _ hother) fun heq => hdistinct.1 ?_
          exact heq ▸ List.mem_map_of_mem hother
        rw [show List.filter _ pieces.flatten = [] from hrest, List.append_nil]
        rfl
      · have hlater : source ∈ members :=
          (List.mem_cons.mp hsource).resolve_left fun heq => hfirst (heq ▸ rfl)
        obtain ⟨found, hfound, hnamed⟩ := ih hdistinct.2 hlater fun other hother =>
          hothers other (List.mem_cons_of_mem _ hother)
        refine ⟨found, hfound, ?_⟩
        rw [show List.filter _ piece = [] from hothers member List.mem_cons_self hfirst piece hpiece,
          List.nil_append]
        exact hnamed

/-- No members have a name if none does. -/
theorem named_eq_nil {name : Name} {members : List Member}
    (h : ∀ member ∈ members, member.entry.name ≠ name) : named name members = [] := by
  unfold named
  rw [List.filter_eq_nil_iff]
  intro member hmember
  simpa using h member hmember

end Names

namespace TransformIDE

variable {first : Member} {members output : List Member} {file : NativeFile}

/-- The files of the target architecture are not in the runtime. -/
theorem ne_runtime {product : Product} {path : Name} (h : path.take 7 = file.mark product)
    (top rest : Name) : top ++ path ≠ jbrPrefix top ++ rest := by
  unfold jbrPrefix
  rw [List.append_assoc]
  intro heq
  have hhead : (path.take 7).head? = some 'j' := by
    rw [List.append_cancel_left heq]
    rfl
  rw [h] at hhead
  revert hhead
  cases product <;> cases file <;> decide

/-- Everything in the transformed archive is in the directory of the IDE. -/
theorem inside_of_ok (hbase : IdeArchive first members)
    (h : task.doTransform lib (first :: members) = .ok output) :
    ∀ out ∈ output, first.entry.name <+: out.entry.name := by
  obtain ⟨transformers, pieces, -, rfl, hall, -⟩ := transformed_of_ok hbase h
  intro out hout
  obtain ⟨piece, hpiece, hout⟩ := List.mem_flatten.mp hout
  obtain ⟨i, hi, rfl⟩ := List.getElem_of_mem hpiece
  have hlength : i < members.length := by rw [hall.length_eq]; exact hi
  rcases name_of_becomes (hall.get hlength hi) hout with ⟨rest, hname⟩ | hname |
    ⟨key, replacement, targetPath, -, -, hname⟩
  · rw [hname, jbrPrefix, List.append_assoc]
    exact List.prefix_append _ _
  · rw [hname]
    exact hbase.inside _ (List.getElem_mem hlength)
  · rw [hname]
    exact List.prefix_append _ _

/-- The piece that has a name at which a file of the target architecture is or belongs. -/
theorem source_of_name {top path : Name} {member out : Member} {piece : List Member}
    (htransformers : task.getTransformers = .ok transformers)
    (h : Becomes task top transformers member piece) (hout : out ∈ piece)
    (hname : out.entry.name = top ++ path) (hmark : path.take 7 = file.mark task.target.product) :
    member.entry.name = top ++ path ∨
      (member.entry.name = top ++ file.key task.target ∧ path = file.place task.target) := by
  rcases name_of_becomes h hout with ⟨rest, hruntime⟩ | hsame |
    ⟨key, replacement, targetPath, hkey, hlookup, htarget⟩
  · exact absurd (hname.symm.trans hruntime) (ne_runtime hmark top rest)
  · exact Or.inl (hsame.symm.trans hname)
  · obtain ⟨file', rfl, htargetPath⟩ := (getTransformers_natives htransformers).1 key _ _ hlookup
    have hpath : path = file'.place task.target := by
      rw [NativeFile.place, ← htargetPath]
      exact List.append_cancel_left (hname.symm.trans htarget)
    have hfile : file' = file := by
      apply NativeFile.mark_injective
      rw [← hmark, hpath, NativeFile.take_place]
    subst hfile
    exact Or.inr ⟨hkey, hpath⟩

/-- The piece of the file whose place is taken. -/
theorem becomes_native {top : Name} {member : Member} {piece : List Member} {replacement : Bytes}
    (hlookup : transformers.lookup (file.key task.target) =
      some (.replace replacement (file.targetPath task.target)))
    (hname : member.entry.name = top ++ file.key task.target)
    (h : Becomes task top transformers member piece) :
    ∃ out, piece = [out] ∧ Rewritten member (top ++ file.place task.target) replacement out := by
  have hjbr : (jbrPrefix top).isPrefixOf member.entry.name = false := by
    rw [← Bool.not_eq_true, List.isPrefixOf_iff_prefix]
    rintro ⟨rest, hrest⟩
    exact ne_runtime (NativeFile.take_key task.target file) top rest (hname.symm.trans hrest.symm)
  have hfind : transformerOf top transformers member.entry.name =
      some (.replace replacement (file.targetPath task.target)) := by
    rw [hname, transformerOf_append, hlookup]
  unfold Becomes at h
  rw [hjbr, if_neg Bool.false_ne_true, hfind] at h
  cases htarget : file.targetPath task.target with
  | none =>
      rw [htarget] at h
      rw [NativeFile.place, htarget, Option.getD_none, ← hname]
      exact h
  | some targetPath =>
      rw [htarget] at h
      rw [NativeFile.place, htarget, Option.getD_some]
      exact h

/-- A file of the target architecture is in the transformed archive once, with the mode of the file
whose place it takes. -/
theorem named_native (hbase : IdeArchive first members)
    (h : task.doTransform lib (first :: members) = .ok output)
    (hwanted : file.wanted task.target.product = true)
    (hfree : ∀ member ∈ members, member.entry.name = first.entry.name ++ file.place task.target →
      file.place task.target = file.key task.target) :
    ∃ member ∈ members, member.entry.name = first.entry.name ++ file.key task.target ∧
      ∃ replacement out, file.bytes task = some replacement ∧
        named (first.entry.name ++ file.place task.target) output = [out] ∧
        Rewritten member (first.entry.name ++ file.place task.target) replacement out := by
  obtain ⟨transformers, pieces, htransformers, rfl, hall, hused⟩ := transformed_of_ok hbase h
  obtain ⟨replacement, hbytes, hlookup⟩ := (getTransformers_natives htransformers).2 file hwanted
  obtain ⟨member, hmember, hname⟩ := List.mem_map.mp (hused _ _ hlookup rfl)
  refine ⟨member, hmember, hname, replacement, ?_⟩
  have hothers : ∀ other ∈ members, other.entry.name ≠ member.entry.name → ∀ piece,
      Becomes task first.entry.name transformers other piece →
        named (first.entry.name ++ file.place task.target) piece = [] := by
    intro other hother hne piece hpiece
    refine named_eq_nil fun out hout houtName => ?_
    rcases source_of_name htransformers hpiece hout houtName (NativeFile.take_place _ file) with
      hsame | ⟨hkey, -⟩
    · rw [hfree other hother hsame, ← hname] at hsame
      exact hne hsame
    · exact hne (hkey.trans hname.symm)
  obtain ⟨piece, hpiece, hnamed⟩ :=
    named_flatten_of_once hall (List.nodup_cons.mp hbase.distinct).2 hmember hothers
  obtain ⟨out, rfl, hrewritten⟩ := becomes_native hlookup hname hpiece
  refine ⟨out, hbytes, ?_, hrewritten⟩
  rw [hnamed, named, List.filter_singleton]
  simp [hrewritten.name]

/-- A file of the base architecture that is moved is gone. -/
theorem named_old (hbase : IdeArchive first members)
    (h : task.doTransform lib (first :: members) = .ok output)
    (hwanted : file.wanted task.target.product = true)
    (hmoved : file.place task.target ≠ file.key task.target) :
    named (first.entry.name ++ file.key task.target) output = [] := by
  obtain ⟨transformers, pieces, htransformers, rfl, hall, -⟩ := transformed_of_ok hbase h
  obtain ⟨replacement, -, hlookup⟩ := (getTransformers_natives htransformers).2 file hwanted
  refine named_flatten_of_none hall fun member _ piece hpiece => ?_
  refine named_eq_nil fun out hout houtName => ?_
  have hkey : member.entry.name = first.entry.name ++ file.key task.target := by
    rcases source_of_name htransformers hpiece hout houtName (NativeFile.take_key _ file) with
      hsame | ⟨hsame, -⟩ <;> exact hsame
  obtain ⟨out', rfl, hrewritten⟩ := becomes_native hlookup hkey hpiece
  rw [List.mem_singleton] at hout
  rw [hout, hrewritten.name] at houtName
  exact hmoved (List.append_cancel_left houtName)

end TransformIDE

/-! ## The installed package -/

namespace CreateDeb

variable {deb : CreateDeb} {first : Member} {members tar data : List Member}

variable (deb) in
/-- The name in the package of a path in the install directory. -/
def place (path : Name) : Name :=
  str "." ++ deb.getInstallPath ++ str "/" ++ path

/-- The path inside of the directory of the IDE. -/
theorem pathInside_append (hbase : IdeArchive first members) (path : Name) :
    pathInside (first.entry.name ++ path) = path := by
  obtain ⟨component, hslash, -, htop⟩ := hbase.top
  unfold pathInside
  rw [htop, List.append_assoc, List.idxOf_append_of_notMem hslash, List.singleton_append,
    List.idxOf_cons_self, Nat.add_zero]
  have hlength : component.length + 1 = (component ++ ['/']).length := by simp
  rw [List.append_cons, hlength, List.drop_left]

/-- What is installed at a path is what the archive has there. -/
theorem named_place (hbase : IdeArchive first members)
    (hinside : ∀ member ∈ tar, first.entry.name <+: member.entry.name)
    (h : deb.createData lib tar = .ok data) {path : Name} (hne : path ≠ [])
    (hfile : endsWithSlash path = false) :
    (named (deb.place path) data).map contents =
      (named (first.entry.name ++ path) tar).map (installed lib deb) := by
  obtain ⟨hfiles, hslash⟩ := createData_files h
  have hplace : deb.place path = deb.installTarget (first.entry.name ++ path) := by
    unfold place installTarget
    rw [pathInside_append hbase]
  have hplaceFile : endsWithSlash (deb.place path) = false := by
    unfold place
    rw [endsWithSlash_append _ hne, hfile]
  have hnameFile : endsWithSlash (first.entry.name ++ path) = false := by
    rw [endsWithSlash_append _ hne, hfile]
  rw [← named_files hplaceFile, map_contents_named, hfiles, List.filter_append, List.filter_map]
  have hdesktop : (desktopContents lib deb).1.name = deb.desktopPath :=
    newTarArchiveEntry_name (desktopPath_file deb).2
  have hrest : [desktopContents lib deb].filter
      (fun content => content.1.name = deb.place path) = [] := by
    rw [hplace]
    simp [hdesktop, (installTarget_ne_desktopPath deb _).symm]
  rw [hrest, List.append_nil, ← named_files hnameFile]
  unfold named
  congr 1
  refine List.filter_congr fun member hmember => ?_
  obtain ⟨hmem, hmemberFile⟩ := mem_files.mp hmember
  obtain ⟨idx, hidx⟩ := hslash member hmember
  obtain ⟨rest, hrest⟩ := hinside member hmem
  have hname := (installed_file lib deb hidx hmemberFile).1
  have hiff : deb.installTarget member.entry.name = deb.place path ↔
      member.entry.name = first.entry.name ++ path := by
    rw [← hrest, hplace]
    unfold installTarget
    rw [pathInside_append hbase, pathInside_append hbase, List.append_cancel_left_eq,
      List.append_cancel_left_eq]
  simp only [Function.comp_apply, hname]
  exact decide_eq_decide.mpr hiff

/-- At a path in the install directory is one file, with its mode and bytes. -/
def InstalledOnce (deb : CreateDeb) (data : List Member) (path : Name) (mode : Nat) (bytes : Bytes) :
    Prop :=
  ∃ out, named (deb.place path) data = [out] ∧ out.entry.linkFlag = .regular ∧
    out.entry.mode = mode ∧ out.data = bytes

/-- A member that the archive has once is installed once, as a regular file. -/
theorem installedOnce_of_named (hbase : IdeArchive first members)
    (hinside : ∀ member ∈ tar, first.entry.name <+: member.entry.name)
    (h : deb.createData lib tar = .ok data) {path : Name} (hne : path ≠ [])
    (hfile : endsWithSlash path = false) {member : Member}
    (hnamed : named (first.entry.name ++ path) tar = [member]) :
    deb.InstalledOnce data path member.entry.mode member.data := by
  have hplace := named_place hbase hinside h hne hfile
  rw [hnamed, List.map_singleton, List.map_eq_singleton_iff] at hplace
  obtain ⟨out, hout, hcontents⟩ := hplace
  have hmember : member ∈ named (first.entry.name ++ path) tar := by
    rw [hnamed]
    exact List.mem_singleton_self member
  obtain ⟨hmem, hname⟩ := List.mem_filter.mp hmember
  have hmemberFile : endsWithSlash member.entry.name = false := by
    rw [of_decide_eq_true hname, endsWithSlash_append _ hne, hfile]
  obtain ⟨idx, hidx⟩ := (createData_files h).2 member (mem_files.mpr ⟨hmem, hmemberFile⟩)
  obtain ⟨-, hflag, -, hmode, -, -⟩ := installed_file lib deb hidx hmemberFile
  have hentry : out.entry = (installed lib deb member).1 := congrArg Prod.fst hcontents
  exact ⟨out, hout, by rw [hentry]; exact hflag, by rw [hentry]; exact hmode,
    congrArg Prod.snd hcontents⟩

end CreateDeb

/-! ## The whole build -/

section Build

variable {deb : CreateDeb} {package : Deb} {first : Member} {members tar : List Member}

/-- Each file of the target architecture is installed once, with the bytes that were built for it
and the mode that the archive of the IDE gives it, and nothing is left of the one for the base
architecture. -/
theorem natives_installed (hbase : IdeArchive first members)
    (htar : task.doTransform lib (first :: members) = .ok tar) (hdeb : deb.run lib tar = .ok package)
    (file : NativeFile) (hwanted : file.wanted task.target.product = true)
    (hfree : ∀ member ∈ members, member.entry.name = first.entry.name ++ file.place task.target →
      file.place task.target = file.key task.target) :
    (∃ member ∈ members, member.entry.name = first.entry.name ++ file.key task.target ∧
      ∃ replacement, file.bytes task = some replacement ∧
        deb.InstalledOnce package.data (file.place task.target) member.entry.mode replacement) ∧
    (file.place task.target ≠ file.key task.target →
      named (deb.place (file.key task.target)) package.data = []) := by
  have hdata := CreateDeb.run_data hdeb
  have hinside := TransformIDE.inside_of_ok hbase htar
  obtain ⟨hkey, hkeyFile⟩ := file.key_file task.target
  obtain ⟨hplace, hplaceFile⟩ := file.place_file task.target
  constructor
  · obtain ⟨member, hmember, hname, replacement, out, hbytes, hnamed, hrewritten⟩ :=
      TransformIDE.named_native hbase htar hwanted hfree
    refine ⟨member, hmember, hname, replacement, hbytes, ?_⟩
    rw [← hrewritten.mode, ← hrewritten.data]
    exact CreateDeb.installedOnce_of_named hbase hinside hdata hplace hplaceFile hnamed
  · intro hmoved
    have hnamed := CreateDeb.named_place hbase hinside hdata hkey hkeyFile
    rw [TransformIDE.named_old hbase htar hwanted hmoved, List.map_nil, List.map_eq_nil_iff] at hnamed
    exact hnamed

/-- The program that the package starts. -/
def CreateDeb.program (deb : CreateDeb) : Name :=
  deb.getInstallPath ++ str "/bin/" ++ deb.ideProduct.getLauncherName

/-- The names of a product are words of a shell. -/
theorem Product.plainWord_names (product : Product) :
    Library.Shell.plainWord product.getLauncherName = true ∧
    product.getPackageName.all Library.Shell.isPlain = true ∧
    Library.Shell.plainWord (Nat.toDigits 10 product.getPriority) = true := by
  cases product <;> decide

/-- The path of the program is a word of a shell. -/
theorem CreateDeb.plainWord_program (deb : CreateDeb) :
    Library.Shell.plainWord deb.program = true := by
  obtain ⟨hlauncher, hpackage, -⟩ := deb.ideProduct.plainWord_names
  obtain ⟨-, hlauncher⟩ := Bool.and_eq_true_iff.mp hlauncher
  have hroot : (str "/usr/share/jetbrains-multiarch/").all Library.Shell.isPlain = true := by
    decide
  have hbin : (str "/bin/").all Library.Shell.isPlain = true := by decide
  refine Bool.and_eq_true_iff.mpr ⟨rfl, ?_⟩
  rw [program, getInstallPath, List.all_append, List.all_append, List.all_append, hroot, hpackage,
    hbin, hlauncher]
  rfl

/-- A word of a shell is a part of a line. -/
theorem isLine_of_plainWord {word : Name} (h : Library.Shell.plainWord word = true) :
    IsLine word := by
  obtain ⟨-, hword⟩ := Bool.and_eq_true_iff.mp h
  constructor
  · intro hmem
    have hnewline := List.all_eq_true.mp hword _ hmem
    contradiction
  · intro hmem
    have hreturn := List.all_eq_true.mp hword _ hmem
    contradiction

/-- The lines of a text that ends with the end of a line. -/
theorem lines_joinLines {written : List Name} (hwritten : ∀ line ∈ written, IsLine line) :
    lines (joinLines (written ++ [[]])) = written := by
  have hjoined : joinLines (written ++ [[]]) ++ ['\n'] =
      Library.unlines '\n' written ++ ['\n'] := by
    rw [joinLines, Library.intersperse_flatten (List.concat_ne_nil _ _), Library.unlines_append]
    rfl
  rw [List.append_cancel_right hjoined, lines_unlines hwritten]

/-- A command of a script whose other lines have none of its characters in them. -/
theorem mem_shellWords_lines (pre post : List Name) {ws : List Name} {command : Name}
    (hothers : ∀ line ∈ pre ++ post, IsLine line)
    (hcommand : command ++ [' '] = str "    " ++ Library.unlines ' ' ws)
    (hws : ∀ word ∈ ws, Library.Shell.plainWord word = true) :
    some ws ∈ (lines (joinLines (pre ++ command :: post ++ [[]]))).map Library.Shell.shellWords := by
  have hwords : Library.Shell.shellWords command = some ws :=
    Library.Shell.shellWords_of_words (List.all_eq_true.mp rfl) hcommand hws
  have hline : IsLine (command ++ [' ']) := by
    rw [hcommand]
    exact Target.isLine_append (by decide) (Target.isLine_unlines.mpr fun word hword =>
      isLine_of_plainWord (hws word hword))
  have hcommandLine : IsLine command :=
    ⟨fun h => hline.1 (List.mem_append_left _ h), fun h => hline.2 (List.mem_append_left _ h)⟩
  rw [lines_joinLines]
  · rw [← hwords]
    exact List.mem_map_of_mem (List.mem_append_right _ List.mem_cons_self)
  · intro line hline
    rcases List.mem_append.mp hline with hpre | hpost
    · exact hothers line (List.mem_append_left _ hpre)
    · rcases List.mem_cons.mp hpost with rfl | hpost
      · exact hcommandLine
      · exact hothers line (List.mem_append_right _ hpost)

/-- The command of a script that makes the program an alternative, word by word. -/
theorem CreateDeb.postinst_words (deb : CreateDeb) :
    some [str "update-alternatives", str "--install",
      str "/usr/bin/" ++ deb.ideProduct.getLauncherName, deb.ideProduct.getLauncherName,
      deb.program, Nat.toDigits 10 deb.ideProduct.getPriority] ∈
        (lines deb.getPostinst).map Library.Shell.shellWords := by
  obtain ⟨hlauncher, -, hpriority⟩ := deb.ideProduct.plainWord_names
  have hlink : Library.Shell.plainWord (str "/usr/bin/" ++ deb.ideProduct.getLauncherName) =
      true := by
    refine Bool.and_eq_true_iff.mpr ⟨rfl, ?_⟩
    rw [List.all_append, (Bool.and_eq_true_iff.mp hlauncher).2]
    rfl
  refine mem_shellWords_lines [_, _, _] [_] (by decide) ?_ ?_
  · simp [program, getInstallPath, str]
  · simp only [List.forall_mem_cons, List.not_mem_nil, false_imp_iff, implies_true, and_true]
    exact ⟨by decide, by decide, hlink, hlauncher, deb.plainWord_program, hpriority⟩

/-- The command that takes the program out again. -/
theorem CreateDeb.prerm_words (deb : CreateDeb) :
    some [str "update-alternatives", str "--remove", deb.ideProduct.getLauncherName, deb.program] ∈
      (lines deb.getPrerm).map Library.Shell.shellWords := by
  obtain ⟨hlauncher, -, -⟩ := deb.ideProduct.plainWord_names
  refine mem_shellWords_lines [_, _, _] [_] (by decide) ?_ ?_
  · simp [program, getInstallPath, str]
  · simp only [List.forall_mem_cons, List.not_mem_nil, false_imp_iff, implies_true, and_true]
    exact ⟨by decide, by decide, hlauncher, deb.plainWord_program⟩

/-- The line of the desktop entry that starts the program. -/
theorem CreateDeb.desktop_exec (deb : CreateDeb) :
    (str "\nExec=" ++ deb.program ++ str " %F\n") <:+: deb.getDesktopInfo := by
  refine ⟨joinLines [str "[Desktop Entry]", str "Type=Application",
    str "Name=" ++ deb.ideProduct.getFullName, str "Version=" ++ deb.version,
    str "Terminal=false", str "Comment=" ++ deb.ideProduct.getDescription],
    joinLines [str "Icon=" ++ deb.getInstallPath ++ str "/bin/" ++ deb.ideProduct.getLauncherName ++
        str ".svg", str "Categories=" ++ deb.ideProduct.getDesktopCategories,
      str "Keywords=" ++ deb.ideProduct.getDesktopKeywords, []], ?_⟩
  simp [getDesktopInfo, joinLines, program, str]

/-- The scripts of a package. -/
theorem CreateDeb.run_control (hdeb : deb.run lib tar = .ok package) :
    (∃ postinst, named (str "./postinst") package.control = [postinst] ∧
      postinst.data = utf8 deb.getPostinst) ∧
    ∃ prerm, named (str "./prerm") package.control = [prerm] ∧
      prerm.data = utf8 deb.getPrerm := by
  obtain ⟨control, hcontrol, h⟩ := bind_eq_ok.mp hdeb
  obtain ⟨postinst, hpostinst, h⟩ := bind_eq_ok.mp h
  obtain ⟨prerm, hprerm, h⟩ := bind_eq_ok.mp h
  obtain ⟨data, -, h⟩ := bind_eq_ok.mp h
  cases h
  obtain ⟨hcontrolEntry, -⟩ := putArchiveEntry_ok hcontrol
  obtain ⟨hpostinstEntry, hpostinstData⟩ := putArchiveEntry_ok hpostinst
  obtain ⟨hprermEntry, hprermData⟩ := putArchiveEntry_ok hprerm
  have hname : ∀ {member : Member} {name content : Name}, name.head? ≠ some '/' →
      member.entry = { lib.newTarArchiveEntry name with size := (utf8 content).length } →
      member.entry.name = name := by
    intro member name content hrelative hentry
    rw [hentry]
    exact newTarArchiveEntry_name hrelative
  have hcontrolName := hname (by decide) hcontrolEntry
  have hpostinstName := hname (by decide) hpostinstEntry
  have hprermName := hname (by decide) hprermEntry
  refine ⟨⟨postinst, ?_, hpostinstData⟩, ⟨prerm, ?_, hprermData⟩⟩
  · unfold named
    simp only [List.filter_cons, hcontrolName, hpostinstName, hprermName]
    rfl
  · unfold named
    simp only [List.filter_cons, hcontrolName, hpostinstName, hprermName]
    rfl

/-- The package installs the launcher of the target architecture under the name that its scripts
make an alternative and take out again, and that its desktop entry starts. -/
theorem launcher_installed (hbase : IdeArchive first members)
    (htar : task.doTransform lib (first :: members) = .ok tar) (hdeb : deb.run lib tar = .ok package)
    (hproduct : deb.ideProduct = task.target.product) :
    (∃ member ∈ members,
      member.entry.name = first.entry.name ++ str "bin/" ++ deb.ideProduct.getLauncherName ∧
      ∃ replacement out, task.nativesZip (str "xplat-launcher") = some replacement ∧
        named (str "." ++ deb.program) package.data = [out] ∧ out.entry.linkFlag = .regular ∧
        out.entry.mode = member.entry.mode ∧ out.data = replacement) ∧
    (∃ postinst, named (str "./postinst") package.control = [postinst] ∧
      postinst.data = utf8 deb.getPostinst ∧
      some [str "update-alternatives", str "--install",
        str "/usr/bin/" ++ deb.ideProduct.getLauncherName, deb.ideProduct.getLauncherName,
        deb.program, Nat.toDigits 10 deb.ideProduct.getPriority] ∈
          (lines deb.getPostinst).map Library.Shell.shellWords) ∧
    (∃ prerm, named (str "./prerm") package.control = [prerm] ∧ prerm.data = utf8 deb.getPrerm ∧
      some [str "update-alternatives", str "--remove", deb.ideProduct.getLauncherName, deb.program] ∈
        (lines deb.getPrerm).map Library.Shell.shellWords) ∧
    ∃ desktop, named deb.desktopPath package.data = [desktop] ∧
      desktop.data = utf8 deb.getDesktopInfo ∧
      (str "\nExec=" ++ deb.program ++ str " %F\n") <:+: deb.getDesktopInfo := by
  have hdata := CreateDeb.run_data hdeb
  have hinside := TransformIDE.inside_of_ok hbase htar
  obtain ⟨⟨postinst, hpostinst, hpostinstData⟩, prerm, hprerm, hprermData⟩ :=
    CreateDeb.run_control hdeb
  refine ⟨?_, ⟨postinst, hpostinst, hpostinstData, deb.postinst_words⟩,
    ⟨prerm, hprerm, hprermData, deb.prerm_words⟩, ?_⟩
  · have hfree : ∀ member ∈ members, member.entry.name =
        first.entry.name ++ NativeFile.launcher.place task.target →
          NativeFile.launcher.place task.target = NativeFile.launcher.key task.target :=
      fun _ _ _ => rfl
    obtain ⟨member, hmember, hname, replacement, out, hbytes, hnamed, hrewritten⟩ :=
      TransformIDE.named_native hbase htar rfl hfree
    obtain ⟨hplace, hplaceFile⟩ := NativeFile.launcher.place_file task.target
    obtain ⟨installed, hinstalled, hflag, hmode, hbytes'⟩ :=
      CreateDeb.installedOnce_of_named hbase hinside hdata hplace hplaceFile hnamed
    refine ⟨member, hmember, ?_, replacement, installed, hbytes, ?_, hflag,
      hmode.trans hrewritten.mode, hbytes'.trans hrewritten.data⟩
    · rw [hname, hproduct, List.append_assoc]
      rfl
    · rw [← hinstalled]
      unfold CreateDeb.program CreateDeb.place NativeFile.place
      rw [hproduct, List.append_assoc, List.append_assoc]
      rfl
  · have hdesktop := CreateDeb.named_desktopPath hdata
    rw [List.map_eq_singleton_iff] at hdesktop
    obtain ⟨desktop, hnamed, hcontents⟩ := hdesktop
    exact ⟨desktop, hnamed, congrArg Prod.snd hcontents, deb.desktop_exec⟩

end Build

/-! ## A small package -/

/-- The small IDE is an archive of an IDE. -/
theorem smallBase_archive :
    IdeArchive (readMember (str "idea/") .directory [] [] (Or.inl rfl))
      (TransformIDE.smallBase []).tail where
  top := ⟨str "idea", by decide, by decide, rfl⟩
  inside := by decide +kernel
  distinct := by decide +kernel

/-- The small IDE is made a package. -/
theorem smallPackage_made :
    ∃ tar package, TransformIDE.smallTransform.doTransform commonsCompress
        (TransformIDE.smallBase []) = .ok tar ∧
      CreateDeb.smallTask.run commonsCompress tar = .ok package := by
  have hdone : Library.Results.succeeds (do
      let tar ← TransformIDE.smallTransform.doTransform commonsCompress (TransformIDE.smallBase [])
      CreateDeb.smallTask.run commonsCompress tar) (fun _ => true) = true := by
    decide +kernel
  obtain ⟨package, hrun, -⟩ := Library.Results.exists_of_succeeds hdone
  obtain ⟨tar, htar, hdeb⟩ := bind_eq_ok.mp hrun
  exact ⟨tar, package, htar, hdeb⟩

theorem natives_installed_small :
    ∃ package : Deb, (∃ replacement mode, NativeFile.libpty.bytes TransformIDE.smallTransform =
        some replacement ∧
      CreateDeb.smallTask.InstalledOnce package.data (str "lib/pty4j/linux/riscv64/libpty.so") mode
        replacement) ∧
      named (CreateDeb.smallTask.place (str "lib/pty4j/linux/aarch64/libpty.so")) package.data = [] := by
  obtain ⟨tar, package, htar, hdeb⟩ := smallPackage_made
  obtain ⟨⟨member, -, -, replacement, hbytes, hinstalled⟩, hold⟩ :=
    natives_installed smallBase_archive htar hdeb .libpty rfl (by decide +kernel)
  exact ⟨package, ⟨replacement, member.entry.mode, hbytes, hinstalled⟩, hold (by decide +kernel)⟩

theorem launcher_installed_small :
    ∃ (package : Deb) (replacement : Bytes) (out : Member),
      TransformIDE.smallTransform.nativesZip (str "xplat-launcher") = some replacement ∧
      named (str "." ++ CreateDeb.smallTask.program) package.data = [out] ∧ out.data = replacement := by
  obtain ⟨tar, package, htar, hdeb⟩ := smallPackage_made
  obtain ⟨⟨member, -, -, replacement, out, hbytes, hnamed, -, -, hdata⟩, -⟩ :=
    launcher_installed smallBase_archive htar hdeb rfl
  exact ⟨package, replacement, out, hbytes, hnamed, hdata⟩

end Packaging
end IdeMultiarch
