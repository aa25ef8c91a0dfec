import IdeMultiarch.Packaging.IdeTransformer

/-!
# Packaging - what the transformation writes

Each entry of the tar becomes a piece of the output: nothing, itself, a rewritten file, or the
whole runtime.  The names in the tar are distinct, so that a transformer that was used is not
missed later.

The library drops the slashes in front of a name that it is given, but not of one that it reads.
The pieces therefore have the right names when the first directory has a relative name.

Main results:

- Theorem {lit}`transformMember_becomes`: one round of the loop writes the piece of its entry.
- Theorem {lit}`transformMembers_becomes`: the pieces of all entries follow each other.
- Theorem {lit}`doTransform_exact`: a run that returns has written these pieces and has used every
  transformer it had to use.
-/

namespace IdeMultiarch
namespace Packaging
namespace TransformIDE

open Library.Results (bind_eq_ok succeeds exists_of_succeeds)

variable {lib : TarLibrary} {task : TransformIDE}

/-! ## The pieces -/

/-- The transformer for an entry: its name is the prefix and a key. -/
def transformerOf (top : Name) (transformers : Transformers) (name : Name) :
    Option FileTransformer :=
  if top.isPrefixOf name then transformers.lookup (name.drop top.length) else none

/-- A file with new bytes: it has the mode of the old one. -/
structure Rewritten (member : Member) (newName : Name) (bytes : Bytes) (out : Member) : Prop where
  name : out.entry.name = newName
  mode : out.entry.mode = member.entry.mode
  data : out.data = bytes

/-- A member under another directory, and otherwise unchanged. -/
structure Moved (oldDirectory newDirectory : Name) (member out : Member) : Prop where
  name : ∃ rest, member.entry.name = oldDirectory ++ rest ∧
    out.entry = { member.entry with name := newDirectory ++ rest }
  data : out.data = member.data

/-- The members of an archive under another directory, which takes the place of their common
first component. -/
def IsRuntime (newDirectory : Name) (jdk outs : List Member) : Prop :=
  jdk ≠ [] ∧ ∃ component, '/' ∉ component ∧
    List.Forall₂ (Moved (component ++ ['/']) newDirectory) jdk outs

variable (task) in
/-- The piece of the output that an entry becomes. -/
def Becomes (top : Name) (transformers : Transformers) (member : Member) (outs : List Member) :
    Prop :=
  if (jbrPrefix top).isPrefixOf member.entry.name then
    if member.entry.name = jbrPrefix top then
      match task.jdkArchive with
      | some jdk => IsRuntime (jbrPrefix top) jdk.members outs
      | none => outs = []
    else outs = []
  else
    match transformerOf top transformers member.entry.name with
    | some (.replace replacement none) =>
        ∃ out, outs = [out] ∧ Rewritten member member.entry.name replacement out
    | some (.replace replacement (some targetPath)) =>
        ∃ out, outs = [out] ∧ Rewritten member (top ++ targetPath) replacement out
    | some (.filterOut _) => outs = []
    | some (.transform action) =>
        ∃ result out, action member.data = .ok result ∧ outs = [out] ∧
          Rewritten member member.entry.name result out
    | none => outs = [member]

variable (task) in
/-- The output of the transformation: the pieces of all entries in their order, with every
transformer that is not optional applied to exactly one entry, and the runtime put in once. -/
structure Transformed (top : Name) (transformers : Transformers) (members output : List Member) :
    Prop where
  pieces : ∃ pieces : List (List Member), output = pieces.flatten ∧
    List.Forall₂ (Becomes task top transformers) members pieces
  applied : ∀ key transformer, transformers.lookup key = some transformer →
    transformer.optional = false →
    (jbrPrefix top).isPrefixOf (top ++ key) = false ∧
      ∃ member, named (top ++ key) members = [member]
  runtime : ∃ member, named (jbrPrefix top) members = [member]

/-- The piece of a file that is replaced in its place. -/
theorem Becomes.replaced {top : Name} {transformers : Transformers} {member : Member}
    {outs : List Member} {replacement : Bytes} (h : Becomes task top transformers member outs)
    (hjbr : (jbrPrefix top).isPrefixOf member.entry.name = false)
    (hfind : transformerOf top transformers member.entry.name =
      some (.replace replacement none)) :
    ∃ out, outs = [out] ∧ Rewritten member member.entry.name replacement out := by
  unfold Becomes at h
  rw [hjbr, if_neg Bool.false_ne_true, hfind] at h
  exact h

/-! ## Transformers by name -/

/-- The paths and the targets are relative. -/
def RelativePaths (transformers : Transformers) : Prop :=
  ∀ key transformer, transformers.lookup key = some transformer →
    key.head? ≠ some '/' ∧
      ∀ replacement targetPath, transformer = .replace replacement (some targetPath) →
        targetPath.head? ≠ some '/'

/-- A relative path stays relative behind a relative directory. -/
theorem head?_append_ne {front back : Name} (hfront : front.head? ≠ some '/')
    (hback : back.head? ≠ some '/') : (front ++ back).head? ≠ some '/' := by
  cases front with
  | nil => exact hback
  | cons c front => exact hfront

/-- A path that starts with another character is relative. -/
theorem head?_ne_of {name : Name} {c : Char} (hhead : name.head? = some c) (hc : c ≠ '/') :
    name.head? ≠ some '/' := by
  rw [hhead]
  exact fun h => hc (Option.some.inj h)

/-- The map with the prefix finds the transformer of an entry. -/
theorem lookup_prefixed (top : Name) (transformers : Transformers) (name : Name) :
    (prefixed top transformers).lookup name = transformerOf top transformers name := by
  have hentries : ∀ entries : List (Sigma fun _ : Name => FileTransformer),
      (entries.foldr (fun entry map => AList.insert (top ++ entry.1) entry.2 map)
        (∅ : Transformers)).lookup name =
      if top.isPrefixOf name then entries.dlookup (name.drop top.length) else none := by
    intro entries
    induction entries with
    | nil => simp
    | cons entry entries ih =>
        obtain ⟨key, transformer⟩ := entry
        rw [List.foldr_cons]
        by_cases hname : name = top ++ key
        · subst hname
          rw [AList.lookup_insert, if_pos (List.isPrefixOf_iff_prefix.mpr (List.prefix_append _ _)),
            List.drop_left, List.dlookup_cons_eq]
        · rw [AList.lookup_insert_ne hname, ih]
          by_cases hprefix : top.isPrefixOf name = true
          · rw [if_pos hprefix, if_pos hprefix]
            obtain ⟨rest, hrest⟩ := List.isPrefixOf_iff_prefix.mp hprefix
            have hkey : name.drop top.length ≠ key := by
              rintro rfl
              rw [← hrest, List.drop_left] at hname
              exact hname rfl
            rw [List.dlookup_cons_ne _ _ hkey]
          · rw [if_neg hprefix, if_neg hprefix]
  exact hentries transformers.entries

/-- An entry with a transformer has a key. -/
theorem transformerOf_eq_some {top : Name} {transformers : Transformers} {name : Name}
    {transformer : FileTransformer} (h : transformerOf top transformers name = some transformer) :
    ∃ key, name = top ++ key ∧ transformers.lookup key = some transformer := by
  unfold transformerOf at h
  split at h
  next hprefix =>
    obtain ⟨key, rfl⟩ := List.isPrefixOf_iff_prefix.mp hprefix
    rw [List.drop_left] at h
    exact ⟨key, rfl, h⟩
  next => cases h

/-- The transformer for a key is found under the name of its entry. -/
theorem transformerOf_append (top : Name) (transformers : Transformers) (key : Name) :
    transformerOf top transformers (top ++ key) = transformers.lookup key := by
  unfold transformerOf
  rw [if_pos (List.isPrefixOf_iff_prefix.mpr (List.prefix_append _ _)), List.drop_left]

/-! ## The runtime -/

/-- The directory of the runtime is relative if the prefix is. -/
theorem jbrPrefix_relative {top : Name} (htop : top.head? ≠ some '/') (rest : Name) :
    (jbrPrefix top ++ rest).head? ≠ some '/' := by
  unfold jbrPrefix
  rw [List.append_assoc]
  exact head?_append_ne htop (by simp [str])

/-- A member with the name that {lit}`copyJRE` gives it. -/
structure Renamed (lib : TarLibrary) (oldDirectory newDirectory : Name) (member out : Member) :
    Prop where
  name : ∃ rest, member.entry.name = oldDirectory ++ rest ∧
    out.entry = lib.setName member.entry (newDirectory ++ rest)
  data : out.data = member.data

/-- The members of the runtime are renamed, one by one. -/
theorem copyMembers_renamed {newDirectory top : Name} {members outs : List Member}
    (h : copyMembers lib newDirectory top members = .ok outs) :
    List.Forall₂ (Renamed lib top newDirectory) members outs := by
  induction members generalizing outs with
  | nil =>
      cases h
      exact List.Forall₂.nil
  | cons member members ih =>
      unfold copyMembers at h
      split at h
      next hprefix =>
        obtain ⟨written, hput, h⟩ := bind_eq_ok.mp h
        obtain ⟨rest, hrest, h⟩ := bind_eq_ok.mp h
        cases h
        obtain ⟨hentry, hdata⟩ := putArchiveEntry_ok hput
        obtain ⟨tail, htail⟩ := List.isPrefixOf_iff_prefix.mp hprefix
        refine List.Forall₂.cons ⟨⟨tail, htail.symm, ?_⟩, hdata⟩ (ih hrest)
        rw [hentry, ← htail, List.drop_left]
      next => cases h

/-- The first component of the names in an archive, with its slash. -/
def topOf (members : List Member) : Name :=
  match members with
  | [] => []
  | first :: _ => first.entry.name.take (first.entry.name.idxOf '/' + 1)

/-- What {lit}`copyJRE` writes: all members of the archive, with new names. -/
theorem copyJRE_renamed {newDirectory : Name} {jdk : JdkArchive} {outs : List Member}
    (h : copyJRE lib newDirectory jdk = .ok outs) :
    jdk.members ≠ [] ∧ (∃ component, '/' ∉ component ∧ topOf jdk.members = component ++ ['/']) ∧
      List.Forall₂ (Renamed lib (topOf jdk.members) newDirectory) jdk.members outs := by
  unfold copyJRE at h
  cases hmembers : jdk.members with
  | nil =>
      rw [hmembers] at h
      cases h
  | cons first members =>
      rw [hmembers] at h
      dsimp only at h
      split at h
      next => cases h
      next idx hidx =>
        obtain ⟨hidxOf, hslash⟩ := idxOf?_eq_some hidx
        have hmoved := copyMembers_renamed h
        have htop : topOf (first :: members) = first.entry.name.take (idx + 1) := by
          unfold topOf
          dsimp only
          rw [hidxOf]
        refine ⟨List.cons_ne_nil _ _, ⟨first.entry.name.take idx, ?_, ?_⟩, htop ▸ hmoved⟩
        · intro hmem
          obtain ⟨hlt, -, hbefore⟩ := List.idxOf?_eq_some_iff.mp hidx
          obtain ⟨j, hj, hchar⟩ := List.getElem_of_mem hmem
          rw [List.length_take] at hj
          rw [List.getElem_take] at hchar
          exact hbefore j (by omega) hchar
        · rw [htop, List.take_add_one, hslash]
          rfl

/-- What {lit}`copyJRE` writes is the runtime. -/
theorem copyJRE_isRuntime {newDirectory : Name} {jdk : JdkArchive} {outs : List Member}
    (hrelative : ∀ rest, (newDirectory ++ rest).head? ≠ some '/')
    (h : copyJRE lib newDirectory jdk = .ok outs) : IsRuntime newDirectory jdk.members outs := by
  obtain ⟨hne, ⟨component, hcomponent, htop⟩, hrenamed⟩ := copyJRE_renamed h
  rw [htop] at hrenamed
  refine ⟨hne, component, hcomponent, hrenamed.imp fun member out hmember => ?_⟩
  obtain ⟨rest, hname, hentry⟩ := hmember.name
  refine ⟨⟨rest, hname, ?_⟩, hmember.data⟩
  rw [hentry]
  rw [lib.setName_eq, lib.relative _ (hrelative rest)]

/-! ## One round of the loop -/

/-- A header made anew for a file with other bytes. -/
theorem rewritten_of_put {member written : Member} {newName : Name} {bytes : Bytes}
    (hrelative : newName.head? ≠ some '/')
    (h : lib.putArchiveEntry (copyTarEntryAs lib member.entry newName bytes.length) bytes =
      .ok written) : Rewritten member newName bytes written := by
  obtain ⟨hentry, hdata⟩ := putArchiveEntry_ok h
  refine ⟨?_, ?_, hdata⟩
  · rw [hentry]
    exact newTarArchiveEntry_name hrelative
  · rw [hentry]
    rfl

variable {top : Name} {transformers : Transformers}

/-- What one round of the loop of {lit}`doTransform` does. -/
structure Round (task : TransformIDE) (top : Name) (transformers : Transformers)
    (progress progress' : Progress) (member : Member) : Prop where
  output : ∃ piece, progress'.output = progress.output ++ piece ∧
    Becomes task top transformers member piece
  used : ∀ path, progress'.transformers.lookup path =
    if path = member.entry.name ∧ (jbrPrefix top).isPrefixOf path = false then none
    else progress.transformers.lookup path
  processedJbr : progress'.processedJbr = true ↔
    progress.processedJbr = true ∨ member.entry.name = jbrPrefix top

/-- The piece of an entry with a transformer. -/
theorem applyTransformer_becomes {member : Member} {piece : List Member}
    {transformer : FileTransformer} (htop : top.head? ≠ some '/')
    (hpaths : RelativePaths transformers)
    (hjbr : (jbrPrefix top).isPrefixOf member.entry.name = false)
    (hfind : transformerOf top transformers member.entry.name = some transformer)
    (h : applyTransformer lib top member transformer = .ok piece) :
    Becomes task top transformers member piece := by
  obtain ⟨key, hname, hkey⟩ := transformerOf_eq_some hfind
  obtain ⟨hkeyRelative, htarget⟩ := hpaths key transformer hkey
  have hrelative : member.entry.name.head? ≠ some '/' := by
    rw [hname]
    exact head?_append_ne htop hkeyRelative
  unfold Becomes
  rw [hjbr, if_neg Bool.false_ne_true, hfind]
  cases transformer with
  | replace replacement targetPath =>
      obtain ⟨written, hput, h⟩ := bind_eq_ok.mp h
      cases h
      cases targetPath with
      | none => exact ⟨written, rfl, rewritten_of_put hrelative hput⟩
      | some targetPath =>
          have hnew := head?_append_ne htop (htarget replacement targetPath rfl)
          exact ⟨written, rfl, rewritten_of_put hnew hput⟩
  | filterOut isOptional =>
      cases h
      rfl
  | transform action =>
      obtain ⟨result, haction, h⟩ := bind_eq_ok.mp h
      obtain ⟨written, hput, h⟩ := bind_eq_ok.mp h
      cases h
      exact ⟨result, written, haction, rfl, rewritten_of_put hrelative hput⟩

/-- One round of the loop writes the piece of its entry and removes the transformer it used. -/
theorem transformMember_becomes {progress progress' : Progress} {member : Member}
    (htop : top.head? ≠ some '/') (hpaths : RelativePaths transformers)
    (hlookup : progress.transformers.lookup member.entry.name =
      transformerOf top transformers member.entry.name)
    (h : task.transformMember lib top progress member = .ok progress') :
    Round task top transformers progress progress' member := by
  have hunder : ∀ path, (jbrPrefix top).isPrefixOf member.entry.name = true →
      progress.transformers.lookup path =
        if path = member.entry.name ∧ (jbrPrefix top).isPrefixOf path = false then none
        else progress.transformers.lookup path := by
    intro path hjbr
    rw [if_neg]
    rintro ⟨rfl, hout⟩
    rw [hjbr] at hout
    cases hout
  have houtside : (jbrPrefix top).isPrefixOf member.entry.name = false →
      member.entry.name ≠ jbrPrefix top := by
    intro hjbr heq
    rw [heq, isPrefixOf_self] at hjbr
    cases hjbr
  rcases transformMember_cases h with ⟨hself, piece, hpiece, rfl⟩ | ⟨hjbr, hself, rfl⟩ |
    ⟨hjbr, transformer, piece, hfind, hpiece, rfl⟩ | ⟨hjbr, hfind, rfl⟩
  · have hjbr : (jbrPrefix top).isPrefixOf member.entry.name = true := by
      rw [hself]
      exact isPrefixOf_self _
    refine ⟨⟨piece, rfl, ?_⟩, fun path => hunder path hjbr, by simp [hself]⟩
    unfold Becomes
    rw [if_pos hjbr, if_pos hself]
    cases hjdk : task.jdkArchive with
    | some jdk =>
        rw [hjdk] at hpiece
        exact copyJRE_isRuntime (jbrPrefix_relative htop) hpiece
    | none =>
        rw [hjdk] at hpiece
        exact hpiece
  · refine ⟨⟨[], (List.append_nil _).symm, ?_⟩, fun path => hunder path hjbr, by simp [hself]⟩
    unfold Becomes
    rw [if_pos hjbr, if_neg hself]
  · refine ⟨⟨piece, rfl, ?_⟩, ?_, by simp [houtside hjbr]⟩
    · exact applyTransformer_becomes htop hpaths hjbr (hlookup ▸ hfind) hpiece
    · intro path
      by_cases hpath : path = member.entry.name
      · subst hpath
        rw [if_pos ⟨rfl, hjbr⟩]
        exact AList.lookup_erase _ _
      · rw [if_neg fun hboth => hpath hboth.1]
        exact AList.lookup_erase_ne hpath
  · refine ⟨⟨[member], rfl, ?_⟩, ?_, by simp [houtside hjbr]⟩
    · unfold Becomes
      rw [hjbr, if_neg Bool.false_ne_true, ← hlookup, hfind]
    · intro path
      by_cases hpath : path = member.entry.name
      · subst hpath
        rw [if_pos ⟨rfl, hjbr⟩]
        exact hfind
      · rw [if_neg fun hboth => hpath hboth.1]

/-! ## The whole loop -/

/-- The loop writes the pieces of all entries in their order.  The induction carries that the
transformers of the entries to come are still there, as their names are distinct. -/
theorem transformMembers_becomes {progress progress' : Progress} {members : List Member}
    (htop : top.head? ≠ some '/') (hpaths : RelativePaths transformers)
    (hdistinct : (members.map fun member => member.entry.name).Nodup)
    (hlookup : ∀ member ∈ members, progress.transformers.lookup member.entry.name =
      transformerOf top transformers member.entry.name)
    (h : task.transformMembers lib top progress members = .ok progress') :
    (∃ pieces : List (List Member), progress'.output = progress.output ++ pieces.flatten ∧
      List.Forall₂ (Becomes task top transformers) members pieces) ∧
    (∀ path, progress'.transformers.lookup path =
      if path ∈ members.map (fun member => member.entry.name) ∧
        (jbrPrefix top).isPrefixOf path = false then none
      else progress.transformers.lookup path) ∧
    (progress'.processedJbr = true ↔ progress.processedJbr = true ∨
      jbrPrefix top ∈ members.map fun member => member.entry.name) := by
  induction members generalizing progress with
  | nil =>
      cases h
      refine ⟨⟨[], (List.append_nil _).symm, List.Forall₂.nil⟩, fun path => ?_, by simp⟩
      rw [if_neg]
      rintro ⟨hmem, -⟩
      cases hmem
  | cons member members ih =>
      obtain ⟨between, hround, hrest⟩ := bind_eq_ok.mp h
      rw [List.map_cons] at hdistinct
      obtain ⟨hnew, hdistinct⟩ := List.nodup_cons.mp hdistinct
      have hstep := transformMember_becomes htop hpaths
        (hlookup member List.mem_cons_self) hround
      obtain ⟨piece, hpiece, hbecomes⟩ := hstep.output
      have hlater : ∀ other ∈ members, between.transformers.lookup other.entry.name =
          transformerOf top transformers other.entry.name := by
        intro other hother
        rw [hstep.used, if_neg, hlookup other (List.mem_cons_of_mem _ hother)]
        rintro ⟨hname, -⟩
        exact hnew (hname ▸ List.mem_map_of_mem hother)
      obtain ⟨⟨pieces, hpieces, hall⟩, hused, hjbr⟩ := ih hdistinct hlater hrest
      refine ⟨⟨piece :: pieces, ?_, List.Forall₂.cons hbecomes hall⟩, fun path => ?_, ?_⟩
      · rw [hpieces, hpiece, List.flatten_cons, List.append_assoc]
      · rw [hused, hstep.used]
        by_cases hmem : path ∈ members.map fun member => member.entry.name
        · by_cases hout : (jbrPrefix top).isPrefixOf path = false
          · rw [if_pos ⟨hmem, hout⟩, if_pos ⟨List.mem_cons_of_mem _ hmem, hout⟩]
          · rw [if_neg fun hboth => hout hboth.2, if_neg fun hboth => hout hboth.2,
              if_neg fun hboth => hout hboth.2]
        · rw [if_neg fun hboth => hmem hboth.1]
          congr 1
          simp [hmem]
      · rw [hjbr, hstep.processedJbr, List.map_cons, List.mem_cons, or_assoc]
        simp only [eq_comm]

/-! ## The paths of the transformers -/

/-- A map with one more transformer. -/
theorem RelativePaths.insert (h : RelativePaths transformers) {key : Name}
    {transformer : FileTransformer} (hkey : key.head? ≠ some '/')
    (htarget : ∀ replacement targetPath, transformer = .replace replacement (some targetPath) →
      targetPath.head? ≠ some '/') : RelativePaths (transformers.insert key transformer) := by
  intro key' transformer' hfind
  by_cases hsame : key' = key
  · subst hsame
    rw [AList.lookup_insert] at hfind
    cases hfind
    exact ⟨hkey, htarget⟩
  · rw [AList.lookup_insert_ne hsame] at hfind
    exact h key' transformer' hfind

/-- A replacement has the target that it was given. -/
theorem getNativeReplacement_target {path : Name} {targetPath : Option Name}
    {transformer : FileTransformer} (htarget : ∀ name, targetPath = some name → name.head? ≠ some '/')
    (h : task.getNativeReplacement path targetPath = .ok transformer) :
    ∀ replacement target, transformer = .replace replacement (some target) →
      target.head? ≠ some '/' := by
  intro replacement target htransformer
  subst htransformer
  unfold getNativeReplacement at h
  split at h
  next => cases h
  next bytes hbytes =>
    cases h
    exact htarget target rfl

/-- The replacement for the JNA library has a relative target. -/
theorem getJnaReplacement_target {transformer : FileTransformer}
    (h : task.getJnaReplacement = .ok transformer) :
    ∀ replacement target, transformer = .replace replacement (some target) →
      target.head? ≠ some '/' := by
  intro replacement target htransformer
  subst htransformer
  unfold getJnaReplacement at h
  dsimp only at h
  split at h
  next => cases h
  next bytes hbytes =>
    cases h
    exact head?_ne_of (c := 'l') rfl (by decide)

/-- All paths that {lit}`getTransformers` puts into the map are relative. -/
theorem getTransformers_relative (h : task.getTransformers = .ok transformers) :
    RelativePaths transformers := by
  obtain ⟨xplatLauncher, hlauncher, h⟩ := bind_eq_ok.mp h
  obtain ⟨fsnotifier, hfsnotifier, h⟩ := bind_eq_ok.mp h
  obtain ⟨restarter, hrestarter, h⟩ := bind_eq_ok.mp h
  obtain ⟨libpty, hlibpty, h⟩ := bind_eq_ok.mp h
  obtain ⟨libsqliteij, hlibsqliteij, h⟩ := bind_eq_ok.mp h
  obtain ⟨libjnidispatch, hlibjnidispatch, h⟩ := bind_eq_ok.mp h
  have hnone : ∀ name, (none : Option Name) = some name → name.head? ≠ some '/' := by
    intro name hname
    cases hname
  have hlib : ∀ target : Name, target.head? = some 'l' →
      ∀ name, some target = some name → name.head? ≠ some '/' := by
    intro target htarget name hname
    cases hname
    exact head?_ne_of htarget (by decide)
  have haction : ∀ (action : Bytes → Except Failure Bytes) replacement targetPath,
      FileTransformer.transform action = .replace replacement (some targetPath) →
        targetPath.head? ≠ some '/' := by
    intro action replacement targetPath hsame
    cases hsame
  have hempty : RelativePaths ∅ := by
    intro key transformer hfind
    rw [AList.lookup_empty] at hfind
    cases hfind
  have hlauncher' := getNativeReplacement_target hnone hlauncher
  have hserver : ∀ map : Transformers, RelativePaths map →
      RelativePaths (if task.target.product.isOpenSource then map
        else map.insert (str "bin/remote-dev-server") xplatLauncher) := by
    intro map hmap
    split
    next => exact hmap
    next => exact hmap.insert (head?_ne_of (c := 'b') rfl (by decide)) hlauncher'
  have hutil : ∀ map : Transformers, RelativePaths map →
      RelativePaths (if task.target.targetArch = .LOONGARCH64 then
        map.insert (str "lib/util.jar") (.transform task.transformUtilJar) else map) := by
    intro map hmap
    split
    next => exact hmap.insert (head?_ne_of (c := 'l') rfl (by decide)) (haction _)
    next => exact hmap
  cases h
  refine hutil _ ?_
  -- The insertions, from the last one to the first.
  refine RelativePaths.insert ?_ (head?_ne_of (c := 'b') rfl (by decide)) (haction _)
  refine RelativePaths.insert ?_ (head?_ne_of (c := 'p') rfl (by decide)) (haction _)
  refine RelativePaths.insert ?_ (head?_ne_of (c := 'l') rfl (by decide))
    (getJnaReplacement_target hlibjnidispatch)
  refine RelativePaths.insert ?_ (head?_ne_of (c := 'l') rfl (by decide))
    (getNativeReplacement_target (hlib _ rfl) hlibsqliteij)
  refine RelativePaths.insert ?_ (head?_ne_of (c := 'l') rfl (by decide))
    (getNativeReplacement_target (hlib _ rfl) hlibpty)
  refine RelativePaths.insert ?_ (head?_ne_of (c := 'b') rfl (by decide)) ?_
  · refine RelativePaths.insert ?_ (head?_ne_of (c := 'b') rfl (by decide))
      (getNativeReplacement_target hnone hrestarter)
    refine RelativePaths.insert ?_ (head?_ne_of (c := 'b') rfl (by decide))
      (getNativeReplacement_target hnone hfsnotifier)
    refine hserver _ ?_
    exact hempty.insert (head?_ne_of (c := 'b') rfl (by decide)) hlauncher'
  · intro replacement targetPath hsame
    cases hsame

/-! ## The whole run -/

/-- A run that returns has gone through the loop and passed the checks behind it. -/
theorem doTransform_ok {first : Member} {members output : List Member}
    (h : task.doTransform lib (first :: members) = .ok output) :
    ∃ transformers progress, task.getTransformers = .ok transformers ∧
      task.transformMembers lib first.entry.name
        ⟨prefixed first.entry.name transformers, false, []⟩ members = .ok progress ∧
      (∀ path transformer, progress.transformers.lookup path = some transformer →
        transformer.optional = true) ∧
      progress.processedJbr = true ∧ output = progress.output := by
  unfold doTransform at h
  dsimp only at h
  split at h
  next =>
    obtain ⟨transformers, htransformers, h⟩ := bind_eq_ok.mp h
    obtain ⟨progress, hprogress, h⟩ := bind_eq_ok.mp h
    split at h
    next => cases h
    next hfound =>
      split at h
      next => cases h
      next hjbr =>
        cases h
        refine ⟨transformers, progress, htransformers, hprogress, ?_, by simpa using hjbr, rfl⟩
        intro path transformer hfind
        have hentry := AList.mem_lookup_iff.mp (Option.mem_def.mpr hfind)
        rw [Bool.and_eq_true, not_and] at hfound
        by_cases hempty : progress.transformers.entries.isEmpty = true
        · rw [List.isEmpty_iff.mp hempty] at hentry
          cases hentry
        · have hall := hfound (by simpa using hempty)
          rw [Bool.not_eq_true, Bool.not_eq_false', List.all_eq_true] at hall
          exact hall _ hentry
  next => cases h

/-- A transformation that returns has written the pieces of all entries and has used every
transformer it had to; if an entry for such a transformer is missing, it does not return. -/
theorem doTransform_exact {first : Member} {members : List Member}
    (hrelative : first.entry.name.head? ≠ some '/')
    (hdistinct : ((first :: members).map fun member => member.entry.name).Nodup) :
    (∀ output, task.doTransform lib (first :: members) = .ok output →
      ∃ transformers, task.getTransformers = .ok transformers ∧
        Transformed task first.entry.name transformers members output) ∧
    ∀ transformers key transformer, task.getTransformers = .ok transformers →
      transformers.lookup key = some transformer → transformer.optional = false →
      first.entry.name ++ key ∉ members.map (fun member => member.entry.name) →
      ∃ failure, task.doTransform lib (first :: members) = .error failure := by
  have hmembers := (List.nodup_cons.mp hdistinct).2
  have hexact : ∀ output, task.doTransform lib (first :: members) = .ok output →
      ∃ transformers, task.getTransformers = .ok transformers ∧
        Transformed task first.entry.name transformers members output := by
    intro output h
    obtain ⟨transformers, progress, htransformers, hloop, hfound, hjbr, rfl⟩ := doTransform_ok h
    obtain ⟨⟨pieces, hpieces, hall⟩, hused, hprocessed⟩ :=
      transformMembers_becomes hrelative (getTransformers_relative htransformers) hmembers
        (fun member _ => lookup_prefixed _ _ _) hloop
    refine ⟨transformers, htransformers, ⟨pieces, hpieces, hall⟩, ?_, ?_⟩
    · intro key transformer hkey hneeded
      have hlast := hused (first.entry.name ++ key)
      rw [lookup_prefixed, transformerOf_append, hkey] at hlast
      by_cases hthere : first.entry.name ++ key ∈ members.map (fun member => member.entry.name) ∧
          (jbrPrefix first.entry.name).isPrefixOf (first.entry.name ++ key) = false
      · exact ⟨hthere.2, named_of_mem hmembers hthere.1⟩
      · rw [if_neg hthere] at hlast
        rw [hfound _ _ hlast] at hneeded
        cases hneeded
    · rcases hprocessed.mp hjbr with hstart | hmem
      · cases hstart
      · exact named_of_mem hmembers hmem
  refine ⟨hexact, ?_⟩
  intro transformers key transformer htransformers hkey hneeded hmissing
  cases hrun : task.doTransform lib (first :: members) with
  | error failure => exact ⟨failure, rfl⟩
  | ok output =>
      obtain ⟨transformers', htransformers', hdone⟩ := hexact output hrun
      rw [htransformers] at htransformers'
      cases htransformers'
      obtain ⟨-, member, hmember⟩ := hdone.applied key transformer hkey hneeded
      have hmem : member ∈ named (first.entry.name ++ key) members := by
        rw [hmember]
        exact List.mem_singleton_self member
      obtain ⟨hin, hname⟩ := List.mem_filter.mp hmem
      exact absurd (of_decide_eq_true hname ▸ List.mem_map_of_mem hin) hmissing

/-! ## A small run -/

/-- The text of a small launcher script. -/
def smallScript : Name :=
  str "exec -Didea.vendor.name=JetBrains \"-Djna.boot.library.path=$IDE_HOME/lib/jna/aarch64\" \\\n"

/-- A small transformation, with an empty descriptor and ASCII texts. -/
def smallTransform : TransformIDE where
  target := ⟨.IDEA_IC, .AARCH64, .RISCV64⟩
  nativesZip := fun _ => some [1]
  jnaResource := fun _ => some [2]
  gson := ⟨fun _ => .ok [], fun _ => utf8 (str "\x7b\x7d")⟩
  decode := fun bytes => bytes.map fun byte => Char.ofNat byte.toNat
  transformUtilJar := .ok
  jdkArchive := some ⟨str "jbr.tar.gz",
    [readMember (str "jdk/") .directory [] [] (Or.inl rfl),
      readMember (str "jdk/java") .regular [] [3] (Or.inr (by decide))]⟩
  entrySetText := fun _ => []

/-- The tar of a small IDE below a directory. -/
def smallBase (root : Name) : List Member :=
  let file := fun path : String => readMember (root ++ str path) .regular [] [] (Or.inl rfl)
  [readMember (root ++ str "idea/") .directory [] [] (Or.inl rfl),
    file "idea/bin/idea",
    file "idea/bin/fsnotifier",
    readMember (root ++ str "idea/bin/idea.sh") .regular [] (utf8 smallScript)
      (Or.inr ⟨by decide, by rw [endsWithSlash_append _ (by decide)]; decide⟩),
    readMember (root ++ str "idea/bin/link") .symbolicLink (str "idea") [] (Or.inl rfl),
    readMember (root ++ str "idea/jbr/") .directory [] [] (Or.inl rfl),
    file "idea/jbr/java",
    file "idea/bin/restarter",
    file "idea/lib/pty4j/linux/aarch64/libpty.so",
    file "idea/lib/native/linux-aarch64/libsqliteij.so",
    file "idea/lib/jna/aarch64/libjnidispatch.so",
    readMember (root ++ str "idea/product-info.json") .regular [] (utf8 (str "\x7b\x7d"))
      (Or.inr ⟨by decide, by rw [endsWithSlash_append _ (by decide)]; decide⟩)]

/-- The small IDE is transformed. -/
theorem doTransform_exact_small :
    ∃ output transformers,
      smallTransform.doTransform commonsCompress (smallBase []) = .ok output ∧
      smallTransform.getTransformers = .ok transformers ∧
      Transformed smallTransform (str "idea/") transformers (smallBase []).tail output := by
  have hdone : succeeds (smallTransform.doTransform commonsCompress (smallBase []))
      (fun _ => true) = true := by
    decide +kernel
  obtain ⟨output, hrun, -⟩ := exists_of_succeeds hdone
  obtain ⟨transformers, htransformers, hexact⟩ :=
    (doTransform_exact (by decide) (by decide +kernel)).1 output hrun
  exact ⟨output, transformers, hrun, htransformers, hexact⟩

/-- Whether a transformer puts other bytes under the same name. -/
def replacesInPlace : Option FileTransformer → Bool
  | some (.replace _ none) => true
  | _ => false

theorem eq_of_replacesInPlace {found : Option FileTransformer}
    (h : replacesInPlace found = true) : ∃ replacement, found = some (.replace replacement none) := by
  unfold replacesInPlace at h
  split at h
  · exact ⟨_, rfl⟩
  · contradiction

/-- In a tar with absolute names, the launcher that is replaced loses the slash in front. -/
theorem absolute_names_lost :
    ((smallBase (str "/")).map fun member => member.entry.name).Nodup ∧
    ∃ output transformers,
      smallTransform.doTransform commonsCompress (smallBase (str "/")) = .ok output ∧
      smallTransform.getTransformers = .ok transformers ∧
      ¬ Transformed smallTransform (str "/idea/") transformers (smallBase (str "/")).tail output := by
  refine ⟨by decide +kernel, ?_⟩
  have hdone : succeeds (smallTransform.doTransform commonsCompress (smallBase (str "/")))
      (fun output => output.all fun out => out.entry.name != str "/idea/bin/idea") = true := by
    decide +kernel
  have hlauncher : succeeds smallTransform.getTransformers
      (fun transformers => replacesInPlace (transformers.lookup (str "bin/idea"))) = true := by
    decide +kernel
  obtain ⟨output, hrun, hdone⟩ := exists_of_succeeds hdone
  obtain ⟨transformers, hmap, hlauncher⟩ := exists_of_succeeds hlauncher
  obtain ⟨replacement, hfind⟩ := eq_of_replacesInPlace hlauncher
  refine ⟨output, transformers, hrun, hmap, fun hexact => ?_⟩
  obtain ⟨pieces, houtput, hall⟩ := hexact.pieces
  -- The launcher is the first entry behind the directory.
  cases hall with
  | cons hpiece _ =>
      obtain ⟨out, rfl, hout⟩ := hpiece.replaced (by decide)
        ((transformerOf_append (str "/idea/") transformers (str "bin/idea")).trans hfind)
      have hmem : out ∈ output := by
        rw [houtput]
        exact List.mem_cons_self
      have hname := List.all_eq_true.mp hdone out hmem
      rw [hout.name] at hname
      exact absurd hname (by decide)

end TransformIDE
end Packaging
end IdeMultiarch
