import IdeMultiarch.Packaging.Rewriting

/-!
# Packaging - hard links

A hard link of a tar names an entry before it.  The transformation copies the links of the base
tar as they are, so that they still name what they named, if that was copied.  The entries of the
runtime get new names, but their link names stay, so that a hard link in the runtime names an
entry that is not there.

Main results:

- Theorem {lit}`doTransform_rounds`: the output is what the rounds of the loop wrote.
- Theorem {lit}`rounds_spliced`: an entry without a transformer is copied, and the runtime is put in.
- Theorem {lit}`hard_links_resolve_iff`: when the hard links in the output name what they named.
-/

namespace IdeMultiarch
namespace Packaging
namespace TransformIDE

open Library.Results (bind_eq_ok succeeds exists_of_succeeds)

variable {lib : TarLibrary} {task : TransformIDE} {top : Name}

/-! ## The rounds of the loop -/

variable (lib task) in
/-- What each round of the loop writes. -/
def rounds (top : Name) (progress : Progress) : List Member → List (List Member)
  | [] => []
  | member :: members =>
      match task.transformMember lib top progress member with
      | .error _ => []
      | .ok progress' =>
          progress'.output.drop progress.output.length :: rounds top progress' members

variable (lib task) in
/-- The piece of the output for an entry: itself, the runtime, or something else. -/
structure Spliced (top : Name) (transformers : Transformers) (member : Member)
    (piece : List Member) : Prop where
  copied : (jbrPrefix top).isPrefixOf member.entry.name = false →
    transformers.lookup member.entry.name = none → piece = [member]
  runtime : member.entry.name = jbrPrefix top → ∀ jdk, task.jdkArchive = some jdk →
    copyJRE lib (jbrPrefix top) jdk = .ok piece

/-- One round of the loop. -/
theorem transformMember_spliced {progress progress' : Progress} {member : Member}
    (h : task.transformMember lib top progress member = .ok progress') :
    (∃ piece, progress'.output = progress.output ++ piece ∧
      Spliced lib task top progress.transformers member piece) ∧
    (∀ path, progress.transformers.lookup path = none →
      progress'.transformers.lookup path = none) ∧
    (progress'.processedJbr = true →
      progress.processedJbr = true ∨ member.entry.name = jbrPrefix top) := by
  have houtside : (jbrPrefix top).isPrefixOf member.entry.name = false →
      member.entry.name ≠ jbrPrefix top := by
    intro hjbr heq
    rw [heq, isPrefixOf_self] at hjbr
    cases hjbr
  rcases transformMember_cases h with ⟨hself, piece, hpiece, rfl⟩ | ⟨hjbr, hself, rfl⟩ |
    ⟨hjbr, transformer, piece, hfind, hpiece, rfl⟩ | ⟨hjbr, hfind, rfl⟩
  · refine ⟨⟨piece, rfl, ?_, ?_⟩, fun path hpath => hpath, fun _ => Or.inr hself⟩
    · intro hjbr
      rw [hself, isPrefixOf_self] at hjbr
      cases hjbr
    · intro _ jdk hjdk
      rw [hjdk] at hpiece
      exact hpiece
  · refine ⟨⟨[], (List.append_nil _).symm, ?_, ?_⟩, fun path hpath => hpath, Or.inl⟩
    · intro hjbr'
      rw [hjbr] at hjbr'
      cases hjbr'
    · intro heq
      exact absurd heq hself
  · refine ⟨⟨piece, rfl, ?_, ?_⟩, ?_, Or.inl⟩
    · intro _ hnone
      rw [hfind] at hnone
      cases hnone
    · intro heq
      exact absurd heq (houtside hjbr)
    · intro path hpath
      by_cases hsame : path = member.entry.name
      · subst hsame
        exact AList.lookup_erase _ _
      · exact (AList.lookup_erase_ne hsame).trans hpath
  · refine ⟨⟨[member], rfl, fun _ _ => rfl, ?_⟩, fun path hpath => hpath, Or.inl⟩
    intro heq
    exact absurd heq (houtside hjbr)

/-- The rounds of a loop that goes through: the output is what they wrote, and each of them
handled its entry.  The induction carries that a transformer that is not there does not appear. -/
theorem rounds_spliced {transformers : Transformers} {progress progress' : Progress}
    {members : List Member} (h : task.transformMembers lib top progress members = .ok progress')
    (hfewer : ∀ path, transformers.lookup path = none →
      progress.transformers.lookup path = none) :
    progress'.output = progress.output ++ (rounds lib task top progress members).flatten ∧
      List.Forall₂ (Spliced lib task top transformers) members
        (rounds lib task top progress members) ∧
      (progress'.processedJbr = true → progress.processedJbr = true ∨
        ∃ member ∈ members, member.entry.name = jbrPrefix top) := by
  induction members generalizing progress with
  | nil =>
      cases h
      exact ⟨(List.append_nil _).symm, List.Forall₂.nil, Or.inl⟩
  | cons member members ih =>
      obtain ⟨between, hround, hrest⟩ := bind_eq_ok.mp h
      obtain ⟨⟨piece, hpiece, hspliced⟩, hstill, hjbr⟩ := transformMember_spliced hround
      have hrounds : rounds lib task top progress (member :: members) =
          piece :: rounds lib task top between members := by
        rw [rounds, hround]
        dsimp only
        rw [hpiece, List.drop_left]
      obtain ⟨houtput, hall, hjbr'⟩ := ih hrest fun path hpath => hstill path (hfewer path hpath)
      rw [hrounds]
      refine ⟨?_, List.Forall₂.cons ?_ hall, ?_⟩
      · rw [houtput, hpiece, List.flatten_cons, List.append_assoc]
      · exact ⟨fun hout hnone => hspliced.copied hout (hfewer _ hnone), hspliced.runtime⟩
      · intro hdone
        rcases hjbr' hdone with hbetween | ⟨other, hother, hname⟩
        · rcases hjbr hbetween with hstart | hself
          · exact Or.inl hstart
          · exact Or.inr ⟨member, List.mem_cons_self, hself⟩
        · exact Or.inr ⟨other, List.mem_cons_of_mem _ hother, hname⟩

/-! ## Links -/

/-- An entry is a hard link. -/
def isHardLink (member : Member) : Bool :=
  member.entry.linkFlag == .link

/-- An entry does not belong to the old runtime. -/
def outside (top : Name) (member : Member) : Bool :=
  !(jbrPrefix top).isPrefixOf member.entry.name

/-- Each hard link names an entry that occurs earlier. -/
def LinksBackward (members : List Member) : Prop :=
  ∀ (i : Nat) (hi : i < members.length), isHardLink members[i] = true →
    ∃ target ∈ members.take i, target.entry.name = members[i].entry.linkName

/-- The transformers touch neither a hard link nor what it names. -/
def LinksUntouched (top : Name) (transformers : Transformers) (members : List Member) : Prop :=
  ∀ link ∈ members, isHardLink link = true →
    transformerOf top transformers link.entry.name = none ∧
      transformerOf top transformers link.entry.linkName = none

/-- The hard links in the output name what they named: a link of the base tar an entry that was
copied before it, a link of the runtime an entry of the runtime under its new name. -/
structure LinksResolve (task : TransformIDE) (top : Name) (members : List Member)
    (pieces : List (List Member)) : Prop where
  base : ∀ (i : Nat) (link : Member), members[i]? = some link → isHardLink link = true →
    outside top link = true →
    pieces[i]? = some [link] ∧
      ∃ (j : Nat) (target : Member), j < i ∧ members[j]? = some target ∧
        target.entry.name = link.entry.linkName ∧ outside top target = true ∧
        pieces[j]? = some [target]
  runtime : ∀ (r : Nat) (member : Member) (piece : List Member) (jdk : JdkArchive),
    members[r]? = some member → member.entry.name = jbrPrefix top → pieces[r]? = some piece →
    task.jdkArchive = some jdk →
    ∀ (i : Nat) (link : Member), jdk.members[i]? = some link → isHardLink link = true →
      ∃ (j : Nat) (target out out' : Member), j < i ∧ jdk.members[j]? = some target ∧
        target.entry.name = link.entry.linkName ∧ piece[i]? = some out ∧ piece[j]? = some out' ∧
        isHardLink out = true ∧ out.entry.linkName = out'.entry.name

/-- Each hard link of the base tar that is copied names an entry that is copied before it. -/
def BaseLinksCopied (top : Name) (members : List Member) : Prop :=
  ∀ (i : Nat) (hi : i < members.length), isHardLink members[i] = true → outside top members[i] = true →
    ∃ target ∈ members.take i,
      target.entry.name = members[i].entry.linkName ∧ outside top target = true

/-- The renaming of the runtime leaves the link names of its hard links as they are. -/
def LinkNamesKept (lib : TarLibrary) (top : Name) (jdk : List Member) : Prop :=
  ∀ link ∈ jdk, isHardLink link = true →
    lib.normalizeFileName
      (jbrPrefix top ++ link.entry.linkName.drop (topOf jdk).length) = link.entry.linkName

instance (members : List Member) : Decidable (LinksBackward members) :=
  inferInstanceAs (Decidable (∀ (i : Nat) (hi : i < members.length),
    isHardLink members[i] = true →
      ∃ target ∈ members.take i, target.entry.name = members[i].entry.linkName))

instance (top : Name) (transformers : Transformers) (members : List Member) :
    Decidable (LinksUntouched top transformers members) :=
  inferInstanceAs (Decidable (∀ link ∈ members, isHardLink link = true →
    transformerOf top transformers link.entry.name = none ∧
      transformerOf top transformers link.entry.linkName = none))

instance (top : Name) (members : List Member) : Decidable (BaseLinksCopied top members) :=
  inferInstanceAs (Decidable (∀ (i : Nat) (hi : i < members.length),
    isHardLink members[i] = true → outside top members[i] = true →
      ∃ target ∈ members.take i,
        target.entry.name = members[i].entry.linkName ∧ outside top target = true))

instance (lib : TarLibrary) (top : Name) (jdk : List Member) :
    Decidable (LinkNamesKept lib top jdk) :=
  inferInstanceAs (Decidable (∀ link ∈ jdk, isHardLink link = true →
    lib.normalizeFileName
      (jbrPrefix top ++ link.entry.linkName.drop (topOf jdk).length) = link.entry.linkName))

/-! ## When the links resolve -/

/-- An element before a place. -/
theorem mem_take_iff {members : List Member} {i : Nat} {target : Member} :
    target ∈ members.take i ↔ ∃ j, j < i ∧ members[j]? = some target := by
  rw [List.mem_iff_getElem?]
  constructor
  · rintro ⟨j, hj⟩
    rw [List.getElem?_take] at hj
    split at hj
    next hlt => exact ⟨j, hlt, hj⟩
    next => cases hj
  · rintro ⟨j, hlt, hj⟩
    exact ⟨j, by rw [List.getElem?_take, if_pos hlt, hj]⟩

/-- The partner of an element. -/
theorem forall₂_getElem? {α β : Type} {R : α → β → Prop} {l : List α} {l' : List β}
    (h : List.Forall₂ R l l') {i : Nat} {x : α} (hx : l[i]? = some x) :
    ∃ y, l'[i]? = some y ∧ R x y := by
  induction h generalizing i with
  | nil => cases hx
  | cons hhead _ ih =>
      cases i with
      | zero =>
          cases hx
          exact ⟨_, rfl, hhead⟩
      | succ i => exact ih hx

/-- A renamed member has the link it had. -/
theorem Renamed.link {oldDirectory newDirectory : Name} {member out : Member}
    (h : Renamed lib oldDirectory newDirectory member out) :
    isHardLink out = isHardLink member ∧ out.entry.linkName = member.entry.linkName := by
  obtain ⟨rest, -, hentry⟩ := h.name
  unfold isHardLink
  rw [hentry, lib.setName_eq]
  exact ⟨rfl, rfl⟩

/-- The new name of a member. -/
theorem Renamed.newName {oldDirectory newDirectory : Name} {member out : Member}
    (h : Renamed lib oldDirectory newDirectory member out) :
    out.entry.name = lib.normalizeFileName
      (newDirectory ++ member.entry.name.drop oldDirectory.length) := by
  obtain ⟨rest, hname, hentry⟩ := h.name
  rw [hentry, hname, List.drop_left, lib.setName_eq]

section
variable {transformers : Transformers} {members : List Member} {pieces : List (List Member)}

/-- Links that resolve were copied with what they name, and not renamed away from it. -/
theorem LinksResolve.conditions (h : LinksResolve task top members pieces)
    (hall : List.Forall₂ (Spliced lib task top (prefixed top transformers)) members pieces)
    (hjbr : ∃ member ∈ members, member.entry.name = jbrPrefix top) :
    BaseLinksCopied top members ∧
      ∀ jdk, task.jdkArchive = some jdk → LinkNamesKept lib top jdk.members := by
  constructor
  · intro i hi hlink hout
    obtain ⟨-, j, target, hlt, htarget, hname, houtside, -⟩ :=
      h.base i members[i] (List.getElem?_eq_getElem hi) hlink hout
    exact ⟨target, mem_take_iff.mpr ⟨j, hlt, htarget⟩, hname, houtside⟩
  · intro jdk hjdk link hmem hlink
    obtain ⟨member, hmember, hname⟩ := hjbr
    obtain ⟨r, hr⟩ := List.mem_iff_getElem?.mp hmember
    obtain ⟨piece, hpiece, hspliced⟩ := forall₂_getElem? hall hr
    obtain ⟨-, -, hrenamed⟩ := copyJRE_renamed (hspliced.runtime hname jdk hjdk)
    obtain ⟨i, hi⟩ := List.mem_iff_getElem?.mp hmem
    obtain ⟨j, target, out, out', -, htarget, hnamed, hout, hout', -, hresolved⟩ :=
      h.runtime r member piece jdk hr hname hpiece hjdk i link hi hlink
    obtain ⟨renamed, hi', hrenamedLink⟩ := forall₂_getElem? hrenamed hi
    obtain ⟨renamed', hj', hrenamedTarget⟩ := forall₂_getElem? hrenamed htarget
    rw [hout] at hi'
    cases hi'
    rw [hout'] at hj'
    cases hj'
    rw [← hnamed, ← hrenamedTarget.newName, ← hresolved, hrenamedLink.link.2, hnamed]

/-- Links resolve that are copied with what they name and keep it. -/
theorem linksResolve_of
    (hall : List.Forall₂ (Spliced lib task top (prefixed top transformers)) members pieces)
    (huntouched : LinksUntouched top transformers members)
    (hjdk : ∀ jdk, task.jdkArchive = some jdk → LinksBackward jdk.members)
    (hcopied : BaseLinksCopied top members)
    (hkept : ∀ jdk, task.jdkArchive = some jdk → LinkNamesKept lib top jdk.members) :
    LinksResolve task top members pieces where
  base := by
    intro i link hi hlink hout
    have hcopy : ∀ (k : Nat) (member : Member), members[k]? = some member → outside top member = true →
        transformerOf top transformers member.entry.name = none → pieces[k]? = some [member] := by
      intro k member hk houtside hnone
      obtain ⟨piece, hpiece, hspliced⟩ := forall₂_getElem? hall hk
      rw [← lookup_prefixed] at hnone
      rw [hpiece, hspliced.copied (by simpa [outside] using houtside) hnone]
    obtain ⟨hself, htarget⟩ := huntouched link (List.mem_of_getElem? hi) hlink
    refine ⟨hcopy i link hi hout hself, ?_⟩
    obtain ⟨hlt, hget⟩ := List.getElem?_eq_some_iff.mp hi
    subst hget
    obtain ⟨target, hmem, hname, houtside⟩ := hcopied i hlt hlink hout
    obtain ⟨j, hj, htargetAt⟩ := mem_take_iff.mp hmem
    exact ⟨j, target, hj, htargetAt, hname, houtside,
      hcopy j target htargetAt houtside (hname ▸ htarget)⟩
  runtime := by
    intro r member piece jdk hr hname hpiece hsome i link hi hlink
    obtain ⟨piece', hpiece', hspliced⟩ := forall₂_getElem? hall hr
    rw [hpiece] at hpiece'
    cases hpiece'
    obtain ⟨-, -, hrenamed⟩ := copyJRE_renamed (hspliced.runtime hname jdk hsome)
    have hkeptLink := hkept jdk hsome link (List.mem_of_getElem? hi) hlink
    obtain ⟨hlt, hget⟩ := List.getElem?_eq_some_iff.mp hi
    subst hget
    obtain ⟨target, hmem, hnamed⟩ := hjdk jdk hsome i hlt hlink
    obtain ⟨j, hj, htarget⟩ := mem_take_iff.mp hmem
    obtain ⟨out, hout, hrenamedLink⟩ := forall₂_getElem? hrenamed hi
    obtain ⟨out', hout', hrenamedTarget⟩ := forall₂_getElem? hrenamed htarget
    refine ⟨j, target, out, out', hj, htarget, hnamed, hout, hout', ?_, ?_⟩
    · rw [hrenamedLink.link.1]
      exact hlink
    · rw [hrenamedLink.link.2, hrenamedTarget.newName, hnamed, hkeptLink]

end

/-- The rounds of a transformation that returns. -/
theorem doTransform_rounds {first : Member} {members output : List Member}
    (h : task.doTransform lib (first :: members) = .ok output) :
    ∃ transformers, task.getTransformers = .ok transformers ∧
      output = (rounds lib task first.entry.name
        ⟨prefixed first.entry.name transformers, false, []⟩ members).flatten ∧
      List.Forall₂ (Spliced lib task first.entry.name (prefixed first.entry.name transformers))
        members (rounds lib task first.entry.name
          ⟨prefixed first.entry.name transformers, false, []⟩ members) ∧
      ∃ member ∈ members, member.entry.name = jbrPrefix first.entry.name := by
  obtain ⟨transformers, progress, htransformers, hloop, -, hjbr, rfl⟩ := doTransform_ok h
  obtain ⟨houtput, hall, hprocessed⟩ := rounds_spliced hloop fun _ hpath => hpath
  refine ⟨transformers, htransformers, houtput, hall, ?_⟩
  rcases hprocessed hjbr with hstart | hthere
  · cases hstart
  · exact hthere

/-- The hard links in the output of a transformation name what they named if and only if those of
the base tar name entries that are copied, and those of the runtime have names that its renaming
keeps. -/
theorem hard_links_resolve_iff {first : Member} {members output : List Member}
    {transformers : Transformers}
    (hrun : task.doTransform lib (first :: members) = .ok output)
    (htransformers : task.getTransformers = .ok transformers)
    (huntouched : LinksUntouched first.entry.name transformers members)
    (hjdk : ∀ jdk, task.jdkArchive = some jdk → LinksBackward jdk.members) :
    let pieces := rounds lib task first.entry.name
      ⟨prefixed first.entry.name transformers, false, []⟩ members
    output = pieces.flatten ∧
      (LinksResolve task first.entry.name members pieces ↔
        BaseLinksCopied first.entry.name members ∧
          ∀ jdk, task.jdkArchive = some jdk →
            LinkNamesKept lib first.entry.name jdk.members) := by
  obtain ⟨transformers', htransformers', houtput, hall, hjbr⟩ := doTransform_rounds hrun
  rw [htransformers] at htransformers'
  cases htransformers'
  refine ⟨houtput, fun hresolve => hresolve.conditions hall hjbr, ?_⟩
  rintro ⟨hcopied, hkept⟩
  exact linksResolve_of hall huntouched hjdk hcopied hkept

/-! ## Small runs with hard links -/

/-- A small IDE with a hard link. -/
def linkedBase : List Member :=
  smallBase [] ++ [readMember (str "idea/bin/studio") .link (str "idea/bin/link") [] (Or.inl rfl)]

/-- The hard link of the small IDE still names what it named. -/
theorem hard_links_resolve_iff_small :
    ∃ output transformers,
      smallTransform.doTransform commonsCompress linkedBase = .ok output ∧
      smallTransform.getTransformers = .ok transformers ∧
      LinksResolve smallTransform (str "idea/") linkedBase.tail
        (rounds commonsCompress smallTransform (str "idea/")
          ⟨prefixed (str "idea/") transformers, false, []⟩ linkedBase.tail) := by
  have hdone : succeeds (smallTransform.doTransform commonsCompress linkedBase)
      (fun _ => true) = true := by
    decide +kernel
  have huntouched : succeeds smallTransform.getTransformers (fun transformers =>
      decide (LinksUntouched (str "idea/") transformers linkedBase.tail)) = true := by
    decide +kernel
  obtain ⟨output, hrun, -⟩ := exists_of_succeeds hdone
  obtain ⟨transformers, hmap, huntouched⟩ := exists_of_succeeds huntouched
  have hjdk : ∀ jdk, smallTransform.jdkArchive = some jdk →
      LinksBackward jdk.members ∧
        LinkNamesKept commonsCompress (str "idea/") jdk.members := by
    intro jdk hsome
    cases hsome
    decide +kernel
  have hresolve := (hard_links_resolve_iff hrun hmap (of_decide_eq_true huntouched)
    fun jdk hsome => (hjdk jdk hsome).1).2
  exact ⟨output, transformers, hrun, hmap,
    hresolve.mpr ⟨by decide +kernel, fun jdk hsome => (hjdk jdk hsome).2⟩⟩

/-- A small transformation with a hard link in the runtime. -/
def linkedTransform : TransformIDE :=
  let link := readMember (str "jdk/jexec") .link (str "jdk/java") [] (Or.inl rfl)
  { smallTransform with
    jdkArchive := smallTransform.jdkArchive.map fun jdk =>
      { jdk with members := jdk.members ++ [link] } }

/-- The hard link of the runtime names an entry that is not in the output. -/
theorem runtime_link_dangles :
    LinksBackward (smallBase []) ∧
    (∀ jdk, linkedTransform.jdkArchive = some jdk → LinksBackward jdk.members) ∧
    ∃ output transformers,
      linkedTransform.doTransform commonsCompress (smallBase []) = .ok output ∧
      linkedTransform.getTransformers = .ok transformers ∧
      LinksUntouched (str "idea/") transformers (smallBase []).tail ∧
      ¬ LinksResolve linkedTransform (str "idea/") (smallBase []).tail
        (rounds commonsCompress linkedTransform (str "idea/")
          ⟨prefixed (str "idea/") transformers, false, []⟩ (smallBase []).tail) := by
  have hback : ∀ jdk, linkedTransform.jdkArchive = some jdk → LinksBackward jdk.members := by
    intro jdk hsome
    cases hsome
    decide +kernel
  refine ⟨by decide +kernel, hback, ?_⟩
  have hdone : succeeds (linkedTransform.doTransform commonsCompress (smallBase []))
      (fun _ => true) = true := by
    decide +kernel
  have huntouched : succeeds linkedTransform.getTransformers (fun transformers =>
      decide (LinksUntouched (str "idea/") transformers (smallBase []).tail)) = true := by
    decide +kernel
  obtain ⟨output, hrun, -⟩ := exists_of_succeeds hdone
  obtain ⟨transformers, hmap, -, hall, hjbr⟩ := doTransform_rounds hrun
  obtain ⟨transformers', hmap', huntouched⟩ := exists_of_succeeds huntouched
  rw [hmap] at hmap'
  cases hmap'
  refine ⟨output, transformers, hrun, hmap, of_decide_eq_true huntouched, fun hresolve => ?_⟩
  have hkept := (hresolve.conditions hall hjbr).2 _ rfl
  have hchanged : ¬ LinkNamesKept commonsCompress (str "idea/")
      ((linkedTransform.jdkArchive.map JdkArchive.members).getD []) := by
    decide +kernel
  exact hchanged hkept

end TransformIDE
end Packaging
end IdeMultiarch
