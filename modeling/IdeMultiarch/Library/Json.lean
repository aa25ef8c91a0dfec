import Mathlib.Data.List.Nodup
import Mathlib.Tactic.Common

/-!
# Library - JSON values

JSON values over a type of texts.  An object is the list of its members in order; a member is
looked up by its name, and adding a member replaces the value of one with the same name.

Writing a value may leave out the members of objects that are null, which most writers do.  A text
may have an object with two members of one name; a reader that adds the members to a map keeps the
last of them.

Main results:

- Theorem {lit}`getMember_addMember`: looking up a member after one was added.
- Theorem {lit}`names_addMember`: replacing a member keeps the names in order.
- Theorem {lit}`withoutNulls_eq_self_iff`: the values that such a writer writes as they are.
- Theorem {lit}`getMember_membersWithoutNulls`: what a reader finds of what such a writer wrote.
- Theorem {lit}`distinct_merged`: what a reader with maps has read has distinct names.
- Theorem {lit}`getMember_mergedMembers`: such a reader keeps a member that is there once.
-/

namespace IdeMultiarch
namespace Library

/-- A JSON value. -/
inductive Json (τ : Type) : Type
  | null
  | bool (value : Bool)
  | number (text : τ)
  | string (text : τ)
  | array (items : List (Json τ))
  | object (members : List (τ × Json τ))

namespace Json

variable {τ : Type}

/-- The members of an object. -/
abbrev Members (τ : Type) := List (τ × Json τ)

/-- The names of members. -/
def names (members : Members τ) : List τ :=
  members.map Prod.fst

section
variable [DecidableEq τ]

/-- The value of a member. -/
def getMember (name : τ) : Members τ → Option (Json τ)
  | [] => none
  | (name', value) :: members => if name' = name then some value else getMember name members

/-- Give a member a value: in its place if it is there, else at the end. -/
def addMember (name : τ) (value : Json τ) : Members τ → Members τ
  | [] => [(name, value)]
  | (name', value') :: members =>
      if name' = name then (name, value) :: members else (name', value') :: addMember name value members

end

/-! ## Null members -/

mutual

/-- A value without the members that are null. -/
def withoutNulls : Json τ → Json τ
  | null => null
  | bool value => bool value
  | number text => number text
  | string text => string text
  | array items => array (itemsWithoutNulls items)
  | object members => object (membersWithoutNulls members)

/-- {lit}`withoutNulls` for the items of an array. -/
def itemsWithoutNulls : List (Json τ) → List (Json τ)
  | [] => []
  | item :: items => withoutNulls item :: itemsWithoutNulls items

/-- {lit}`withoutNulls` for the members of an object. -/
def membersWithoutNulls : List (τ × Json τ) → List (τ × Json τ)
  | [] => []
  | (_, null) :: members => membersWithoutNulls members
  | (name, value) :: members => (name, withoutNulls value) :: membersWithoutNulls members

end

mutual

/-- No object in the value has a null member. -/
def NullFree : Json τ → Prop
  | null => True
  | bool _ => True
  | number _ => True
  | string _ => True
  | array items => ItemsNullFree items
  | object members => MembersNullFree members

/-- {lit}`NullFree` for the items of an array, which may be null. -/
def ItemsNullFree : List (Json τ) → Prop
  | [] => True
  | item :: items => NullFree item ∧ ItemsNullFree items

/-- {lit}`NullFree` for the members of an object. -/
def MembersNullFree : List (τ × Json τ) → Prop
  | [] => True
  | (_, value) :: members => value ≠ null ∧ NullFree value ∧ MembersNullFree members

end

mutual

/-- No object in the value has two members with one name. -/
def Distinct : Json τ → Prop
  | null => True
  | bool _ => True
  | number _ => True
  | string _ => True
  | array items => ItemsDistinct items
  | object members => (names members).Nodup ∧ MembersDistinct members

/-- {lit}`Distinct` for the items of an array. -/
def ItemsDistinct : List (Json τ) → Prop
  | [] => True
  | item :: items => Distinct item ∧ ItemsDistinct items

/-- {lit}`Distinct` for the values of the members of an object. -/
def MembersDistinct : List (τ × Json τ) → Prop
  | [] => True
  | (_, value) :: members => Distinct value ∧ MembersDistinct members

end

/-- The items of an array are written one by one. -/
theorem itemsWithoutNulls_eq_map (items : List (Json τ)) :
    itemsWithoutNulls items = items.map withoutNulls := by
  induction items with
  | nil => rfl
  | cons item items ih => simp [itemsWithoutNulls, ih]

/-- Leaving out members makes no list of members longer. -/
theorem length_membersWithoutNulls (members : Members τ) :
    (membersWithoutNulls members).length ≤ members.length := by
  induction members with
  | nil => exact Nat.le_refl 0
  | cons member members ih =>
      obtain ⟨name, value⟩ := member
      cases value with
      | null => exact Nat.le_succ_of_le ih
      | bool _ => exact Nat.succ_le_succ ih
      | number _ => exact Nat.succ_le_succ ih
      | string _ => exact Nat.succ_le_succ ih
      | array _ => exact Nat.succ_le_succ ih
      | object _ => exact Nat.succ_le_succ ih

/-- A member that is not null is kept. -/
theorem membersWithoutNulls_cons (name : τ) {value : Json τ} (hvalue : value ≠ null)
    (members : Members τ) :
    membersWithoutNulls ((name, value) :: members) =
      (name, withoutNulls value) :: membersWithoutNulls members := by
  cases value with
  | null => exact absurd rfl hvalue
  | bool _ => rfl
  | number _ => rfl
  | string _ => rfl
  | array _ => rfl
  | object _ => rfl

/-- The members of two lists are written one list after the other. -/
theorem membersWithoutNulls_append (members members' : Members τ) :
    membersWithoutNulls (members ++ members') =
      membersWithoutNulls members ++ membersWithoutNulls members' := by
  induction members with
  | nil => rfl
  | cons member members ih =>
      obtain ⟨name, value⟩ := member
      by_cases hvalue : value = null
      · subst hvalue
        exact ih
      · rw [List.cons_append, membersWithoutNulls_cons name hvalue,
          membersWithoutNulls_cons name hvalue, ih, List.cons_append]

/-- Two lists have no null members when neither has. -/
theorem membersNullFree_append {members members' : Members τ} :
    MembersNullFree (members ++ members') ↔ MembersNullFree members ∧ MembersNullFree members' := by
  induction members with
  | nil => simp [MembersNullFree]
  | cons member members ih => simp [MembersNullFree, ih, and_assoc]

/-- Leaving out members makes no new names. -/
theorem names_membersWithoutNulls (members : Members τ) :
    (names (membersWithoutNulls members)).Sublist (names members) := by
  induction members with
  | nil => exact List.Sublist.refl _
  | cons member members ih =>
      obtain ⟨name, value⟩ := member
      by_cases hvalue : value = null
      · subst hvalue
        exact ih.cons name
      · rw [membersWithoutNulls_cons name hvalue]
        exact ih.cons_cons name

mutual

/-- A value without null members is written as it is, and no other value. -/
theorem withoutNulls_eq_self_iff : ∀ value : Json τ, withoutNulls value = value ↔ NullFree value
  | null => by simp [withoutNulls, NullFree]
  | bool _ => by simp [withoutNulls, NullFree]
  | number _ => by simp [withoutNulls, NullFree]
  | string _ => by simp [withoutNulls, NullFree]
  | array items => by
      simp only [withoutNulls, NullFree, array.injEq]
      exact itemsWithoutNulls_eq_self_iff items
  | object members => by
      simp only [withoutNulls, NullFree, object.injEq]
      exact membersWithoutNulls_eq_self_iff members

/-- {lit}`withoutNulls_eq_self_iff` for the items of an array. -/
theorem itemsWithoutNulls_eq_self_iff :
    ∀ items : List (Json τ), itemsWithoutNulls items = items ↔ ItemsNullFree items
  | [] => by simp [itemsWithoutNulls, ItemsNullFree]
  | item :: items => by
      simp only [itemsWithoutNulls, ItemsNullFree, List.cons.injEq]
      rw [withoutNulls_eq_self_iff item, itemsWithoutNulls_eq_self_iff items]

/-- {lit}`withoutNulls_eq_self_iff` for the members of an object. -/
theorem membersWithoutNulls_eq_self_iff :
    ∀ members : List (τ × Json τ), membersWithoutNulls members = members ↔ MembersNullFree members
  | [] => by simp [membersWithoutNulls, MembersNullFree]
  | (name, value) :: members => by
      by_cases hvalue : value = null
      · -- A null member is left out, and the list gets shorter.
        subst hvalue
        have hshorter := length_membersWithoutNulls members
        constructor
        · intro h
          rw [membersWithoutNulls] at h
          rw [h] at hshorter
          exact absurd hshorter (Nat.not_succ_le_self _)
        · intro h
          exact absurd rfl h.1
      · rw [membersWithoutNulls_cons name hvalue, MembersNullFree, List.cons.injEq, Prod.mk.injEq,
          withoutNulls_eq_self_iff value, membersWithoutNulls_eq_self_iff members]
        constructor
        · rintro ⟨⟨-, hfree⟩, hrest⟩
          exact ⟨hvalue, hfree, hrest⟩
        · rintro ⟨-, hfree, hrest⟩
          exact ⟨⟨rfl, hfree⟩, hrest⟩

end

/-! ## Looking up members -/

section
variable [DecidableEq τ]

/-- Looking up a member after one was added. -/
theorem getMember_addMember (name name' : τ) (value : Json τ) (members : Members τ) :
    getMember name' (addMember name value members) =
      if name = name' then some value else getMember name' members := by
  induction members with
  | nil => rfl
  | cons member members ih =>
      obtain ⟨first, old⟩ := member
      unfold addMember
      by_cases hfirst : first = name
      · subst hfirst
        rw [if_pos rfl]
        unfold getMember
        by_cases hname : first = name'
        · rw [if_pos hname, if_pos hname]
        · rw [if_neg hname, if_neg hname, if_neg hname]
      · rw [if_neg hfirst]
        unfold getMember
        by_cases hname' : first = name'
        · rw [if_pos hname', if_pos hname', if_neg (fun h => hfirst (hname'.trans h.symm))]
        · rw [if_neg hname', if_neg hname', ih]

/-- A member that is there has its name among the names. -/
theorem getMember_isSome {name : τ} {members : Members τ} :
    (getMember name members).isSome = true ↔ name ∈ names members := by
  induction members with
  | nil => simp [getMember, names]
  | cons member members ih =>
      obtain ⟨first, value⟩ := member
      unfold getMember
      by_cases hfirst : first = name
      · simp [hfirst, names]
      · rw [if_neg hfirst, ih]
        simp [names, Ne.symm hfirst]

/-- A member that is found stands behind members with other names. -/
theorem getMember_eq_some {name : τ} {value : Json τ} {members : Members τ}
    (h : getMember name members = some value) :
    ∃ before after, members = before ++ (name, value) :: after ∧ name ∉ names before := by
  induction members with
  | nil => cases h
  | cons member members ih =>
      obtain ⟨first, old⟩ := member
      unfold getMember at h
      by_cases hfirst : first = name
      · rw [if_pos hfirst] at h
        cases h
        subst hfirst
        exact ⟨[], members, rfl, List.not_mem_nil⟩
      · rw [if_neg hfirst] at h
        obtain ⟨before, after, rfl, hbefore⟩ := ih h
        exact ⟨(first, old) :: before, after, rfl,
          List.not_mem_cons_of_ne_of_not_mem (Ne.symm hfirst) hbefore⟩

/-- Members before the one that is looked for do not matter if they have other names. -/
theorem getMember_append {name : τ} {before : Members τ} (hbefore : name ∉ names before)
    (members : Members τ) : getMember name (before ++ members) = getMember name members := by
  induction before with
  | nil => rfl
  | cons member before ih =>
      obtain ⟨first, old⟩ := member
      have hfirst : first ≠ name := fun h => hbefore (h ▸ List.mem_cons_self)
      rw [List.cons_append, getMember, if_neg hfirst,
        ih (fun h => hbefore (List.mem_cons_of_mem _ h))]

/-- The value of a member does not matter for the others. -/
theorem getMember_replace {name name' : τ} (hname : name' ≠ name) (before after : Members τ)
    (value value' : Json τ) :
    getMember name (before ++ (name', value) :: after) =
      getMember name (before ++ (name', value') :: after) := by
  induction before with
  | nil => simp [getMember, hname]
  | cons member before ih =>
      obtain ⟨first, old⟩ := member
      simp [getMember, ih]

/-- Replacing a member keeps the names in order. -/
theorem names_addMember {name : τ} (value : Json τ) {members : Members τ}
    (hname : name ∈ names members) : names (addMember name value members) = names members := by
  induction members with
  | nil => cases hname
  | cons member members ih =>
      obtain ⟨first, old⟩ := member
      unfold addMember
      by_cases hfirst : first = name
      · subst hfirst
        rw [if_pos rfl]
        rfl
      · rw [if_neg hfirst]
        rcases List.mem_cons.mp hname with heq | hlater
        · exact absurd heq.symm hfirst
        · exact congrArg (first :: ·) (ih hlater)

/-- A new member goes to the end. -/
theorem addMember_of_not_mem {name : τ} (value : Json τ) {members : Members τ}
    (hname : name ∉ names members) : addMember name value members = members ++ [(name, value)] := by
  induction members with
  | nil => rfl
  | cons member members ih =>
      obtain ⟨first, old⟩ := member
      have hfirst : first ≠ name := fun h => hname (h ▸ List.mem_cons_self)
      unfold addMember
      rw [if_neg hfirst, ih (fun h => hname (List.mem_cons_of_mem _ h))]
      rfl

/-- Adding a member keeps the names distinct. -/
theorem nodup_names_addMember (name : τ) (value : Json τ) {members : Members τ}
    (hdistinct : (names members).Nodup) : (names (addMember name value members)).Nodup := by
  by_cases hname : name ∈ names members
  · rw [names_addMember value hname]
    exact hdistinct
  · rw [addMember_of_not_mem value hname]
    unfold names at hname hdistinct ⊢
    rw [List.map_append, List.map_singleton]
    exact (List.nodup_append_comm.mp (List.nodup_cons.mpr ⟨hname, hdistinct⟩))

/-- At most one member has this name. -/
def Once (name : τ) (members : Members τ) : Prop :=
  (names members).count name ≤ 1

instance (name : τ) (members : Members τ) : Decidable (Once name members) :=
  inferInstanceAs (Decidable ((names members).count name ≤ 1))

/-- In distinct names, each is there once. -/
theorem once_of_nodup {members : Members τ} (hdistinct : (names members).Nodup) (name : τ) :
    Once name members :=
  List.nodup_iff_count_le_one.mp hdistinct name

/-- Fewer members have no name more often. -/
theorem Once.of_sublist {name : τ} {members members' : Members τ} (honce : Once name members)
    (hsub : (names members').Sublist (names members)) : Once name members' :=
  Nat.le_trans (hsub.count_le name) honce

/-- So it is for the members behind a member. -/
theorem Once.tail {name : τ} {member : τ × Json τ} {members : Members τ}
    (honce : Once name (member :: members)) : Once name members :=
  honce.of_sublist (List.sublist_cons_self _ _)

/-- A name that is there once is not among the members behind the first. -/
theorem Once.not_mem {name : τ} {value : Json τ} {members : Members τ}
    (honce : Once name ((name, value) :: members)) : name ∉ names members := by
  intro hmem
  have hpos := List.count_pos_iff.mpr hmem
  have hcount : (names ((name, value) :: members)).count name = (names members).count name + 1 :=
    List.count_cons_self
  unfold Once at honce
  rw [hcount] at honce
  exact absurd hpos (Nat.not_lt.mpr (Nat.le_of_succ_le_succ honce))

/-- Adding a member gives no name a second time. -/
theorem Once.addMember {name : τ} {members : Members τ} (honce : Once name members) (name' : τ)
    (value : Json τ) : Once name (addMember name' value members) := by
  unfold Once at honce ⊢
  by_cases hmem : name' ∈ names members
  · rw [names_addMember value hmem]
    exact honce
  · rw [addMember_of_not_mem value hmem]
    unfold names at hmem honce ⊢
    rw [List.map_append, List.map_singleton, List.count_append]
    by_cases hname : name' = name
    · subst hname
      refine Nat.le_of_eq ?_
      rw [List.count_eq_zero.mpr hmem, List.count_singleton_self]
    · rw [List.count_singleton, if_neg (by simpa using hname)]
      exact honce

/-- What is left of a member's value: nothing of a null. -/
def written : Json τ → Option (Json τ)
  | null => none
  | value => some (withoutNulls value)

omit [DecidableEq τ] in
/-- A value other than null is written. -/
theorem written_of_ne_null {value : Json τ} (h : value ≠ null) :
    written value = some (withoutNulls value) := by
  cases value with
  | null => exact absurd rfl h
  | bool _ => rfl
  | number _ => rfl
  | string _ => rfl
  | array _ => rfl
  | object _ => rfl

/-- What a reader finds of a member after the null members were left out. -/
theorem getMember_membersWithoutNulls {name : τ} {members : Members τ}
    (honce : Once name members) :
    getMember name (membersWithoutNulls members) = (getMember name members).bind written := by
  induction members with
  | nil => rfl
  | cons member members ih =>
      obtain ⟨first, value⟩ := member
      by_cases hvalue : value = null
      · subst hvalue
        rw [membersWithoutNulls, ih honce.tail, getMember]
        by_cases hname : first = name
        · subst hname
          have hnone : getMember first members = none := by
            rw [← Option.not_isSome_iff_eq_none, getMember_isSome]
            exact honce.not_mem
          rw [if_pos rfl, hnone]
          rfl
        · rw [if_neg hname]
      · rw [membersWithoutNulls_cons first hvalue, getMember, getMember, ih honce.tail]
        by_cases hname : first = name
        · rw [if_pos hname, if_pos hname, Option.bind_some, written_of_ne_null hvalue]
        · rw [if_neg hname, if_neg hname]

end

mutual

/-- No null members are left. -/
theorem nullFree_withoutNulls : ∀ value : Json τ, NullFree (withoutNulls value)
  | null => trivial
  | bool _ => trivial
  | number _ => trivial
  | string _ => trivial
  | array items => itemsNullFree_itemsWithoutNulls items
  | object members => membersNullFree_membersWithoutNulls members

/-- {lit}`nullFree_withoutNulls` for the items of an array. -/
theorem itemsNullFree_itemsWithoutNulls :
    ∀ items : List (Json τ), ItemsNullFree (itemsWithoutNulls items)
  | [] => trivial
  | item :: items => ⟨nullFree_withoutNulls item, itemsNullFree_itemsWithoutNulls items⟩

/-- {lit}`nullFree_withoutNulls` for the members of an object. -/
theorem membersNullFree_membersWithoutNulls :
    ∀ members : List (τ × Json τ), MembersNullFree (membersWithoutNulls members)
  | [] => trivial
  | (name, value) :: members => by
      have hrest := membersNullFree_membersWithoutNulls members
      by_cases hvalue : value = null
      · subst hvalue
        exact hrest
      · rw [membersWithoutNulls_cons name hvalue]
        refine ⟨?_, nullFree_withoutNulls value, hrest⟩
        cases value with
        | null => exact absurd rfl hvalue
        | bool _ => simp [withoutNulls]
        | number _ => simp [withoutNulls]
        | string _ => simp [withoutNulls]
        | array _ => simp [withoutNulls]
        | object _ => simp [withoutNulls]

end

mutual

/-- Names stay distinct when null members are left out. -/
theorem distinct_withoutNulls : ∀ {value : Json τ}, Distinct value → Distinct (withoutNulls value)
  | null, _ => trivial
  | bool _, _ => trivial
  | number _, _ => trivial
  | string _, _ => trivial
  | array _, h => itemsDistinct_itemsWithoutNulls h
  | object members, h =>
      ⟨h.1.sublist (names_membersWithoutNulls members), membersDistinct_membersWithoutNulls h.2⟩

/-- {lit}`distinct_withoutNulls` for the items of an array. -/
theorem itemsDistinct_itemsWithoutNulls :
    ∀ {items : List (Json τ)}, ItemsDistinct items → ItemsDistinct (itemsWithoutNulls items)
  | [], _ => trivial
  | _ :: _, h => ⟨distinct_withoutNulls h.1, itemsDistinct_itemsWithoutNulls h.2⟩

/-- {lit}`distinct_withoutNulls` for the values of the members of an object. -/
theorem membersDistinct_membersWithoutNulls :
    ∀ {members : List (τ × Json τ)}, MembersDistinct members →
      MembersDistinct (membersWithoutNulls members)
  | [], _ => trivial
  | (name, value) :: members, h => by
      have hrest := membersDistinct_membersWithoutNulls h.2
      by_cases hvalue : value = null
      · subst hvalue
        exact hrest
      · rw [membersWithoutNulls_cons name hvalue]
        exact ⟨distinct_withoutNulls h.1, hrest⟩

end

/-! ## Members with one name -/

/-- The values of the members have distinct names in them. -/
theorem membersDistinct_iff {members : Members τ} :
    MembersDistinct members ↔ ∀ member ∈ members, Distinct member.2 := by
  induction members with
  | nil => simp [MembersDistinct]
  | cons member members ih => simp [MembersDistinct, ih]

/-- Fewer members are distinct too. -/
theorem Distinct.sublist {members members' : Members τ} (h : Distinct (.object members))
    (hsub : members'.Sublist members) : Distinct (.object members') := by
  refine ⟨h.1.sublist (hsub.map Prod.fst), membersDistinct_iff.mpr ?_⟩
  exact fun member hmem => membersDistinct_iff.mp h.2 member (hsub.subset hmem)

section
variable [DecidableEq τ]

/-- Add members one after the other. -/
def addMembers : Members τ → Members τ → Members τ
  | result, [] => result
  | result, (name, value) :: members => addMembers (addMember name value result) members

mutual

/-- What a reader that adds members to maps has read: of the members with one name, the last value,
in the place of the first. -/
def merged : Json τ → Json τ
  | null => null
  | bool value => bool value
  | number text => number text
  | string text => string text
  | array items => array (itemsMerged items)
  | object members => object (addMembers [] (valuesMerged members))

/-- {lit}`merged` for the items of an array. -/
def itemsMerged : List (Json τ) → List (Json τ)
  | [] => []
  | item :: items => merged item :: itemsMerged items

/-- {lit}`merged` for the values of members. -/
def valuesMerged : List (τ × Json τ) → List (τ × Json τ)
  | [] => []
  | (name, value) :: members => (name, merged value) :: valuesMerged members

end

/-- {lit}`merged` for the members of an object. -/
def mergedMembers (members : Members τ) : Members τ :=
  addMembers [] (valuesMerged members)

theorem merged_object (members : Members τ) :
    merged (.object members) = .object (mergedMembers members) := by
  rw [merged, mergedMembers]

theorem itemsMerged_eq_map (items : List (Json τ)) : itemsMerged items = items.map merged := by
  induction items with
  | nil => rfl
  | cons item items ih => rw [itemsMerged, ih, List.map_cons]

theorem valuesMerged_append (members members' : Members τ) :
    valuesMerged (members ++ members') = valuesMerged members ++ valuesMerged members' := by
  induction members with
  | nil => rfl
  | cons member members ih =>
      obtain ⟨name, value⟩ := member
      rw [List.cons_append, valuesMerged, valuesMerged, ih, List.cons_append]

theorem names_valuesMerged (members : Members τ) :
    names (valuesMerged members) = names members := by
  induction members with
  | nil => rfl
  | cons member members ih =>
      obtain ⟨name, value⟩ := member
      exact congrArg (name :: ·) ih

/-- Members with distinct names are added at the end. -/
theorem addMembers_of_nodup {result members : Members τ}
    (hdistinct : (names (result ++ members)).Nodup) :
    addMembers result members = result ++ members := by
  induction members generalizing result with
  | nil => exact (List.append_nil result).symm
  | cons member members ih =>
      obtain ⟨name, value⟩ := member
      have hnew : name ∉ names result := by
        unfold names at hdistinct ⊢
        rw [List.map_append, List.map_cons] at hdistinct
        exact fun hmem => (List.nodup_append.mp hdistinct).2.2 _ hmem _ List.mem_cons_self rfl
      rw [addMembers, addMember_of_not_mem value hnew, ih (by simpa using hdistinct)]
      simp

/-- Whatever members are added, their names are distinct. -/
theorem nodup_names_addMembers {result : Members τ} (hdistinct : (names result).Nodup)
    (members : Members τ) : (names (addMembers result members)).Nodup := by
  induction members generalizing result with
  | nil => exact hdistinct
  | cons member members ih =>
      obtain ⟨name, value⟩ := member
      exact ih (nodup_names_addMember name value hdistinct)

/-- A member that is added is a member, and the rest were there before. -/
theorem mem_addMember {name : τ} {value : Json τ} {members : Members τ} {member : τ × Json τ}
    (h : member ∈ addMember name value members) : member = (name, value) ∨ member ∈ members := by
  induction members with
  | nil => exact Or.inl (List.mem_singleton.mp h)
  | cons first members ih =>
      obtain ⟨name', value'⟩ := first
      unfold addMember at h
      split at h
      · rcases List.mem_cons.mp h with heq | hmem
        · exact Or.inl heq
        · exact Or.inr (List.mem_cons_of_mem _ hmem)
      · rcases List.mem_cons.mp h with heq | hmem
        · exact Or.inr (heq ▸ List.mem_cons_self)
        · exact (ih hmem).imp_right (List.mem_cons_of_mem _)

/-- Members that were added are among both lists. -/
theorem mem_addMembers {result members : Members τ} {member : τ × Json τ}
    (h : member ∈ addMembers result members) : member ∈ result ∨ member ∈ members := by
  induction members generalizing result with
  | nil => exact Or.inl h
  | cons first members ih =>
      obtain ⟨name, value⟩ := first
      rcases ih h with hresult | hmem
      · rcases mem_addMember hresult with rfl | hresult
        · exact Or.inr List.mem_cons_self
        · exact Or.inl hresult
      · exact Or.inr (List.mem_cons_of_mem _ hmem)

mutual

/-- What a reader with maps has read has distinct names. -/
theorem distinct_merged : ∀ value : Json τ, Distinct (merged value)
  | null => trivial
  | bool _ => trivial
  | number _ => trivial
  | string _ => trivial
  | array items => by
      rw [merged]
      exact itemsDistinct_itemsMerged items
  | object members => by
      have hnone : (names ([] : Members τ)).Nodup := List.nodup_nil
      rw [merged]
      refine ⟨nodup_names_addMembers hnone _, membersDistinct_iff.mpr ?_⟩
      intro member hmem
      rcases mem_addMembers hmem with hnone | hmem
      · contradiction
      · exact membersDistinct_iff.mp (membersDistinct_valuesMerged members) member hmem

/-- {lit}`distinct_merged` for the items of an array. -/
theorem itemsDistinct_itemsMerged : ∀ items : List (Json τ), ItemsDistinct (itemsMerged items)
  | [] => trivial
  | item :: items => ⟨distinct_merged item, itemsDistinct_itemsMerged items⟩

/-- {lit}`distinct_merged` for the values of members. -/
theorem membersDistinct_valuesMerged :
    ∀ members : List (τ × Json τ), MembersDistinct (valuesMerged members)
  | [] => trivial
  | (_, value) :: members => ⟨distinct_merged value, membersDistinct_valuesMerged members⟩

end

mutual

/-- A value with distinct names is read as it is. -/
theorem merged_of_distinct : ∀ {value : Json τ}, Distinct value → merged value = value
  | null, _ => rfl
  | bool _, _ => rfl
  | number _, _ => rfl
  | string _, _ => rfl
  | array items, h => by rw [merged, itemsMerged_of_distinct h]
  | object members, h => by
      have hadded := addMembers_of_nodup (show (names ([] ++ members)).Nodup from h.1)
      rw [merged, valuesMerged_of_distinct h.2, hadded, List.nil_append]

/-- {lit}`merged_of_distinct` for the items of an array. -/
theorem itemsMerged_of_distinct :
    ∀ {items : List (Json τ)}, ItemsDistinct items → itemsMerged items = items
  | [], _ => rfl
  | item :: items, h => by rw [itemsMerged, merged_of_distinct h.1, itemsMerged_of_distinct h.2]

/-- {lit}`merged_of_distinct` for the values of members. -/
theorem valuesMerged_of_distinct :
    ∀ {members : List (τ × Json τ)}, MembersDistinct members → valuesMerged members = members
  | [], _ => rfl
  | (name, value) :: members, h => by
      rw [valuesMerged, merged_of_distinct h.1, valuesMerged_of_distinct h.2]

end

/-- Looking up a member among the merged values. -/
theorem getMember_valuesMerged (name : τ) (members : Members τ) :
    getMember name (valuesMerged members) = (getMember name members).map merged := by
  induction members with
  | nil => rfl
  | cons member members ih =>
      obtain ⟨first, value⟩ := member
      unfold valuesMerged getMember
      split
      · rfl
      · exact ih

/-- Members with other names do not matter for the one that is looked for. -/
theorem getMember_addMembers_of_not_mem {name : τ} {members : Members τ}
    (hname : name ∉ names members) (result : Members τ) :
    getMember name (addMembers result members) = getMember name result := by
  induction members generalizing result with
  | nil => rfl
  | cons member members ih =>
      obtain ⟨first, value⟩ := member
      obtain ⟨hfirst, hrest⟩ := not_or.mp (mt List.mem_cons.mpr hname)
      rw [addMembers, ih hrest, getMember_addMember, if_neg (Ne.symm hfirst)]

/-- A member that is there once is found among the members that were added. -/
theorem getMember_addMembers {name : τ} {members : Members τ} (honce : Once name members)
    {result : Members τ}
    (hnone : getMember name result = none) :
    getMember name (addMembers result members) = getMember name members := by
  induction members generalizing result with
  | nil => exact hnone
  | cons member members ih =>
      obtain ⟨first, value⟩ := member
      rw [addMembers, getMember]
      by_cases hfirst : first = name
      · subst hfirst
        rw [if_pos rfl, getMember_addMembers_of_not_mem honce.not_mem,
          getMember_addMember, if_pos rfl]
      · rw [if_neg hfirst]
        apply ih honce.tail
        rw [getMember_addMember, if_neg hfirst]
        exact hnone

/-- A reader with maps keeps a member that is there once. -/
theorem getMember_mergedMembers {name : τ} {members : Members τ} (honce : Once name members) :
    getMember name (mergedMembers members) = (getMember name members).map merged := by
  have hvalues : Once name (valuesMerged members) := by
    unfold Once
    rw [names_valuesMerged]
    exact honce
  unfold mergedMembers
  rw [getMember_addMembers hvalues rfl, getMember_valuesMerged]

/-- Among members with distinct names, only the value of one member is merged. -/
theorem mergedMembers_split {before after : Members τ}
    (hdistinct : Distinct (.object (before ++ after))) {name : τ} (hbefore : name ∉ names before)
    (hafter : name ∉ names after) (value : Json τ) :
    mergedMembers (before ++ (name, value) :: after) = before ++ (name, merged value) :: after := by
  obtain ⟨hnames, hvalues⟩ := hdistinct
  rw [membersDistinct_iff] at hvalues
  have hbefore' : valuesMerged before = before :=
    valuesMerged_of_distinct (membersDistinct_iff.mpr fun member hmem =>
      hvalues member (List.mem_append_left _ hmem))
  have hafter' : valuesMerged after = after :=
    valuesMerged_of_distinct (membersDistinct_iff.mpr fun member hmem =>
      hvalues member (List.mem_append_right _ hmem))
  have hnodup : (names ([] ++ (before ++ (name, merged value) :: after))).Nodup := by
    unfold names at hnames hbefore hafter ⊢
    rw [List.map_append] at hnames
    rw [List.nil_append, List.map_append, List.map_cons, List.nodup_middle, List.nodup_cons]
    exact ⟨fun hmem => (List.mem_append.mp hmem).elim hbefore hafter, hnames⟩
  unfold mergedMembers
  rw [valuesMerged_append, valuesMerged, hbefore', hafter', addMembers_of_nodup hnodup,
    List.nil_append]

end

end Json
end Library
end IdeMultiarch
