import IdeMultiarch.FsNotifier.ChangingWorld
import IdeMultiarch.FsNotifier.Removal

/-!
# fsnotifier - nodes that pending events remove

While events are pending, the notifier has directories that were moved under the paths they had
before.  Each of these nodes is doomed: one of the pending events removes it, and no event before
that one leads a walk to the place where the directory is now.

Main results:

- Theorem {lit}`matchingKid_append`: new kids do not change which kid is the first that matches.
- Theorem {lit}`Doomed.tail`: an event that drops other nodes leaves a node doomed.
- Theorem {lit}`Shape.above`: the nodes above a node.
-/

namespace IdeMultiarch
namespace FsNotifier

open Library

/-! ## The first kid that matches -/

section Kids

variable {h h' : Heap WatchNode} {kids : List (Option Nat)} {path : Bytes} {k a : Nat}

/-- The loop over all kids takes the first that matches. -/
theorem matchingKid_range : matchingKid h kids path (List.range kids.length) =
    kids.findSome? fun kid => kid.filter (kidMatches h path) := by
  have hmap : (List.range kids.length).map (fun i => kids.getD i none) = kids := by
    apply List.ext_getElem
    · simp
    · intro i h₁ h₂
      simp [List.getD_eq_getElem?_getD, List.getElem?_eq_getElem h₂]
  conv_rhs => rw [← hmap]
  rw [List.findSome?_map]
  rfl

/-- The first result of a search is kept when every entry keeps its own. -/
theorem findSome?_keeps {f f' : Option Nat → Option Nat} {l l' : List (Option Nat)}
    (hl : List.Forall₂ (fun x x' => (f x = some k → f' x' = some k) ∧ (f x = none → f' x' = none))
      l l') (hfirst : l.findSome? f = some k) : l'.findSome? f' = some k := by
  induction hl with
  | nil => contradiction
  | @cons x x' l l' hx _ ih =>
      rw [List.findSome?_cons] at hfirst ⊢
      cases hfx : f x with
      | some j =>
          rw [hfx] at hfirst
          rw [hx.1 (hfx.trans hfirst)]
      | none =>
          rw [hfx] at hfirst
          rw [hx.2 hfx]
          exact ih hfirst

/-- Forgetting an entry changes that entry only. -/
theorem forall₂_replace {R : Option Nat → Option Nat → Prop} (hsame : ∀ x, R x x)
    (hgone : R (some a) none) (l : List (Option Nat)) :
    List.Forall₂ R l (l.replace (some a) none) := by
  induction l with
  | nil => exact .nil
  | cons x l ih =>
      rw [List.replace_cons]
      by_cases hx : some a = x
      · rw [← hx, beq_self_eq_true]
        exact .cons hgone (List.forall₂_same.mpr fun y _ => hsame y)
      · rw [beq_eq_false_iff_ne.mpr hx]
        exact .cons (hsame x) ih

/-- A kid that matches is itself what the search makes of it. -/
theorem filter_kidMatches_eq_some {kid : Option Nat} :
    kid.filter (kidMatches h path) = some k ↔ kid = some k ∧ kidMatches h path k = true :=
  Option.filter_eq_some_iff

/-- New kids come last, so the first that matches stays the first. -/
theorem matchingKid_append (hfirst : matchingKid h kids path (List.range kids.length) = some k)
    (hsame : ∀ b, some b ∈ kids → kidMatches h' path b = kidMatches h path b)
    (more : List (Option Nat)) :
    matchingKid h' (kids ++ more) path (List.range (kids ++ more).length) = some k := by
  rw [matchingKid_range] at hfirst ⊢
  have hold : (kids.findSome? fun kid => kid.filter (kidMatches h' path)) = some k := by
    refine findSome?_keeps (List.forall₂_same.mpr fun kid hkid => ?_) hfirst
    cases kid with
    | none => exact ⟨fun hk => hk, fun hk => hk⟩
    | some b =>
        simp only [Option.filter_some, hsame b hkid]
        exact ⟨fun hk => hk, fun hk => hk⟩
  rw [List.findSome?_append, hold, Option.some_or]

/-- When another kid is forgotten, or none, the first that matches stays the first. -/
theorem matchingKid_forget {kids' : List (Option Nat)}
    (hfirst : matchingKid h kids path (List.range kids.length) = some k)
    (hkids : kids' = kids ∨ kids' = kids.replace (some a) none) (hne : k ≠ a)
    (hkeep : kidMatches h' path k = true)
    (hless : ∀ b, kidMatches h' path b = true → kidMatches h path b = true) :
    matchingKid h' kids' path (List.range kids'.length) = some k := by
  have hsame : ∀ kid : Option Nat,
      (kid.filter (kidMatches h path) = some k → kid.filter (kidMatches h' path) = some k) ∧
        (kid.filter (kidMatches h path) = none → kid.filter (kidMatches h' path) = none) := by
    refine fun kid => ⟨fun hk => ?_, fun hk => ?_⟩
    · exact filter_kidMatches_eq_some.mpr ⟨(filter_kidMatches_eq_some.mp hk).1, hkeep⟩
    · cases kid with
      | none => rfl
      | some b =>
          rw [Option.filter_eq_none_iff] at hk ⊢
          exact fun c hc hmatch => hk c hc (hless c hmatch)
  rw [matchingKid_range] at hfirst ⊢
  rcases hkids with rfl | rfl
  · exact findSome?_keeps (List.forall₂_same.mpr fun kid _ => hsame kid) hfirst
  · refine findSome?_keeps (forall₂_replace hsame ⟨fun hk => ?_, fun _ => rfl⟩ kids) hfirst
    exact absurd (Option.some.inj (filter_kidMatches_eq_some.mp hk).1).symm hne

end Kids

/-! ## Doomed nodes -/

/-- Processing the event removes the node at {lit}`a`: the loop over the kids stops at a node at or
above it. -/
def Drops (h : Heap WatchNode) (e : KernelEvent) (a : Nat) : Prop :=
  ∃ x n name b, h.get x = some n ∧ n.wd = e.wd ∧ e.name = some name ∧
    matchingKid h n.kids (n.path ++ slash :: name) (List.range n.kids.length) = some b ∧
    Relation.ReflTransGen (KidOf h) b a

/-- Processing the event, which is about an entry of the directory of the node {lit}`x`, starts a
walk at the path. -/
def Leads (h : Heap WatchNode) (e : KernelEvent) (x : Nat) (path : Bytes) : Prop :=
  e.Arrival ∧ ∃ n name, h.get x = some n ∧ n.wd = e.wd ∧ e.name = some name ∧
    path = n.path ++ slash :: name

/-- One of the pending events removes the node at {lit}`a`, and the events before it keep walks
apart from the place. -/
def Doomed (h : Heap WatchNode) (pending : List KernelEvent) (a : Nat) (place : Bytes) : Prop :=
  ∃ before e after, pending = before ++ e :: after ∧ e.happening = .movedFrom ∧ Drops h e a ∧
    ∀ e' ∈ before, ∀ x path, Leads h e' x path → PathsApart path place

section Doomed

variable {h : Heap WatchNode} {pending : List KernelEvent} {a : Nat} {place : Bytes}

/-- More events may be queued. -/
theorem Doomed.append (hd : Doomed h pending a place) (more : List KernelEvent) :
    Doomed h (pending ++ more) a place := by
  obtain ⟨before, e, after, hpending, hfrom, hdrops, hbefore⟩ := hd
  refine ⟨before, e, after ++ more, ?_, hfrom, hdrops, hbefore⟩
  rw [hpending, List.append_assoc, List.cons_append]

/-- The directory may be moved on, to a place no pending event leads to. -/
theorem Doomed.move (hd : Doomed h pending a place) {place' : Bytes}
    (happart : ∀ e ∈ pending, ∀ x path, Leads h e x path → PathsApart path place') :
    Doomed h pending a place' := by
  obtain ⟨before, e, after, hpending, hfrom, hdrops, -⟩ := hd
  refine ⟨before, e, after, hpending, hfrom, hdrops, fun e' he' => happart e' ?_⟩
  rw [hpending]
  exact List.mem_append_left _ he'

/-- The first event is done, if it does not remove the node. -/
theorem Doomed.tail {e : KernelEvent} (hd : Doomed h (e :: pending) a place)
    (hno : e.happening = .movedFrom → ¬ Drops h e a) : Doomed h pending a place := by
  obtain ⟨before, e', after, hpending, hfrom, hdrops, hbefore⟩ := hd
  cases before with
  | nil =>
      obtain ⟨rfl, -⟩ := List.cons.inj hpending
      exact absurd hdrops (hno hfrom)
  | cons e₀ before =>
      exact ⟨before, e', after, (List.cons.inj hpending).2, hfrom, hdrops,
        fun e'' he'' => hbefore e'' (List.mem_cons_of_mem _ he'')⟩

/-- A walk that the first event starts stays apart from the place. -/
theorem Doomed.apart {e : KernelEvent} (hd : Doomed h (e :: pending) a place) {x : Nat}
    {path : Bytes} (hleads : Leads h e x path) : PathsApart path place := by
  obtain ⟨before, e', after, hpending, hfrom, -, hbefore⟩ := hd
  cases before with
  | nil =>
      obtain ⟨rfl, -⟩ := List.cons.inj hpending
      rcases hleads.1 with h | h
      · rw [h] at hfrom
        contradiction
      · rw [h] at hfrom
        contradiction
  | cons e₀ before =>
      obtain ⟨rfl, -⟩ := List.cons.inj hpending
      exact hbefore e List.mem_cons_self x path hleads

end Doomed

/-! ## The shape of the forest -/

/-- Nodes without a parent have the paths of roots, and other nodes the paths of entries of their
parents' directories. -/
structure Shape (roots : List Bytes) (h : Heap WatchNode) : Prop where
  spelled : ∀ a n, h.get a = some n → ∃ path, ValidPath path ∧ n.path = render path
  entry : ∀ a n b m, h.get a = some n → n.parent = some b → h.get b = some m →
    ∃ name, validName name = true ∧ n.path = m.path ++ slash :: name
  top : ∀ a n, h.get a = some n → n.parent = none → ∃ root ∈ roots, n.path = rootPath root

section Shape

variable {roots : List Bytes} {h : Heap WatchNode} {a : Nat} {n : WatchNode}

/-- The node of the directory above. -/
theorem Shape.parent (hs : Shape roots h) (hl : NodesLinked h) (hn : h.get a = some n)
    {path : Path} {name : Bytes} (hvalid : ValidPath (path ++ [name]))
    (hpath : n.path = render (path ++ [name]))
    (hroots : ∀ root ∈ roots, n.path ≠ rootPath root) :
    ∃ b m, h.get b = some m ∧ some a ∈ m.kids ∧ m.path = render path := by
  cases hpar : n.parent with
  | none =>
      obtain ⟨root, hroot, hsame⟩ := hs.top a n hn hpar
      exact absurd hsame (hroots root hroot)
  | some b =>
      obtain ⟨m, hm, hkid⟩ := hl.parent_live hn hpar
      obtain ⟨name', hname', hentry⟩ := hs.entry a n b m hn hpar hm
      obtain ⟨path', hvalid', hspelled⟩ := hs.spelled b m hm
      have hvalid'' : ValidPath (path' ++ [name']) := by
        intro x hx
        rcases List.mem_append.mp hx with hx | hx
        · exact hvalid' x hx
        · rw [List.mem_singleton.mp hx]
          exact hname'
      have heq : path ++ [name] = path' ++ [name'] := by
        refine render_injective hvalid hvalid'' ?_
        rw [← hpath, hentry, hspelled, render_snoc]
      refine ⟨b, m, hm, hkid, ?_⟩
      rw [hspelled, (List.append_inj' heq rfl).1]

/-- Above a node there are nodes for all directories down to which there is no root. -/
theorem Shape.above (hs : Shape roots h) (hl : NodesLinked h) {old t : Path}
    (hroots : ∀ root ∈ roots, isParentPath (render old) (rootPath root) = false)
    (hvalid : ValidPath (old ++ t)) (hn : h.get a = some n) (hpath : n.path = render (old ++ t)) :
    ∃ b m, h.get b = some m ∧ m.path = render old ∧ Relation.ReflTransGen (KidOf h) b a := by
  induction t using List.reverseRecOn generalizing a n with
  | nil => exact ⟨a, n, hn, by rw [hpath, List.append_nil], .refl⟩
  | append_singleton t name ih =>
      rw [← List.append_assoc] at hvalid hpath
      have hnot : ∀ root ∈ roots, n.path ≠ rootPath root := by
        intro root hroot hsame
        have hbelow := isParentPath_render_append old (t ++ [name])
        rw [← List.append_assoc, ← hpath, hsame, hroots root hroot] at hbelow
        contradiction
      obtain ⟨b, m, hm, hkid, hmpath⟩ := hs.parent hl hn hvalid hpath hnot
      obtain ⟨c, k, hk, hkpath, hsteps⟩ := ih
        (fun x hx => hvalid x (List.mem_append_left _ hx)) hm hmpath
      exact ⟨c, k, hk, hkpath, hsteps.tail ⟨m, hm, hkid⟩⟩

/-- The shape is that of the old nodes, when there are no others. -/
theorem Shape.of_old {h' : Heap WatchNode} (hs : Shape roots h)
    (hold : ∀ b m, h'.get b = some m → ∃ m₀, h.get b = some m₀ ∧ m.parent = m₀.parent ∧
      m.path = m₀.path) : Shape roots h' := by
  refine ⟨fun b m hm => ?_, fun b m c k hm hpar hk => ?_, fun b m hm hpar => ?_⟩
  · obtain ⟨m₀, hm₀, -, hpath⟩ := hold b m hm
    rw [hpath]
    exact hs.spelled b m₀ hm₀
  · obtain ⟨m₀, hm₀, hpar₀, hpath⟩ := hold b m hm
    obtain ⟨k₀, hk₀, -, hkpath⟩ := hold c k hk
    rw [hpath, hkpath]
    exact hs.entry b m₀ c k₀ hm₀ (hpar₀.symm.trans hpar) hk₀
  · obtain ⟨m₀, hm₀, hpar₀, hpath⟩ := hold b m hm
    rw [hpath]
    exact hs.top b m₀ hm₀ (hpar₀.symm.trans hpar)

end Shape

end FsNotifier
end IdeMultiarch
