import Mathlib.Logic.Function.Basic
import Mathlib.Logic.Relation
import Mathlib.Data.List.Nodup
import Mathlib.Data.List.ReduceOption
import Mathlib.Tactic.Common

/-!
# Library - A heap of records and the trees they form

A heap maps addresses, which are natural numbers, to records.  Allocation always takes a fresh address, and
freeing an address leaves it unused for ever, so that a stale pointer never points
to a younger record by accident: reading through it finds nothing.

Records may point at each other.  Given the child pointers and the parent pointer of
a record, {lit}`Linked` says that both directions agree, that a child is listed once,
and that parents are older than their children.  The inductive {lit}`Forest` lists
the addresses of the trees hanging off a list of pointers, in the order in which a
depth-first traversal meets them.

Main results:

- Theorem {lit}`Linked.exists_forest`: every list of live pointers has a forest.
- Theorem {lit}`Linked.forest_nodup`: the subtrees of distinct siblings are disjoint.
- Theorems {lit}`Forest.closed` and {lit}`Forest.mem_top_or_parent`: a forest is
  closed under children, and all but its top records have their parent in it.
-/

namespace IdeMultiarch
namespace Library

/-- Records by address, with the first address that was never used. -/
structure Heap (α : Type) where
  get : Nat → Option α
  next : Nat
  fresh : ∀ a, next ≤ a → get a = none

namespace Heap

variable {α : Type}

/-- The heap without records. -/
def empty : Heap α where
  get := fun _ => none
  next := 0
  fresh := fun _ _ => rfl

/-- Store a new record at a fresh address, which is {lit}`h.next`. -/
def alloc (h : Heap α) (v : α) : Heap α where
  get := Function.update h.get h.next (some v)
  next := h.next + 1
  fresh := by
    intro a ha
    rw [Function.update_of_ne (by omega)]
    exact h.fresh a (by omega)

/-- Change the record at an address, if there is one. -/
def modify (h : Heap α) (a : Nat) (f : α → α) : Heap α where
  get := Function.update h.get a ((h.get a).map f)
  next := h.next
  fresh := by
    intro b hb
    by_cases hba : b = a
    · subst hba
      simp [h.fresh b hb]
    · rw [Function.update_of_ne hba]
      exact h.fresh b hb

/-- Free an address. -/
def free (h : Heap α) (a : Nat) : Heap α where
  get := Function.update h.get a none
  next := h.next
  fresh := by
    intro b hb
    by_cases hba : b = a
    · simp [hba]
    · rw [Function.update_of_ne hba]
      exact h.fresh b hb

@[simp]
theorem empty_get (a : Nat) : (empty : Heap α).get a = none :=
  rfl

@[simp]
theorem alloc_next (h : Heap α) (v : α) : (h.alloc v).next = h.next + 1 :=
  rfl

@[simp]
theorem modify_next (h : Heap α) (a : Nat) (f : α → α) : (h.modify a f).next = h.next :=
  rfl

@[simp]
theorem free_next (h : Heap α) (a : Nat) : (h.free a).next = h.next :=
  rfl

@[simp]
theorem alloc_get (h : Heap α) (v : α) (b : Nat) :
    (h.alloc v).get b = if b = h.next then some v else h.get b := by
  simp [alloc, Function.update_apply]

@[simp]
theorem modify_get (h : Heap α) (a : Nat) (f : α → α) (b : Nat) :
    (h.modify a f).get b = if b = a then (h.get a).map f else h.get b := by
  simp [modify, Function.update_apply]

@[simp]
theorem free_get (h : Heap α) (a b : Nat) :
    (h.free a).get b = if b = a then none else h.get b := by
  simp [free, Function.update_apply]

/-- Changing a record twice is changing it once. -/
theorem modify_modify (h : Heap α) (a : Nat) (f g : α → α) :
    (h.modify a f).modify a g = h.modify a (fun v => g (f v)) := by
  simp only [modify, Function.update_self, Function.update_idem, Option.map_map]
  rfl

/-- Free every address of a list. -/
def freeAll (h : Heap α) (L : List Nat) : Heap α where
  get := fun b => if b ∈ L then none else h.get b
  next := h.next
  fresh := by
    intro b hb
    simp [h.fresh b hb]

@[simp]
theorem freeAll_next (h : Heap α) (L : List Nat) : (h.freeAll L).next = h.next :=
  rfl

/-- A live address lies below the allocation mark. -/
theorem lt_next {h : Heap α} {a : Nat} {v : α} (ha : h.get a = some v) : a < h.next := by
  by_contra hnot
  rw [h.fresh a (by omega)] at ha
  contradiction

/-- Two heaps with the same records and the same mark are equal. -/
theorem ext_get {h h' : Heap α} (hget : ∀ a, h.get a = h'.get a) (hnext : h.next = h'.next) :
    h = h' := by
  cases h
  cases h'
  simp only [mk.injEq]
  exact ⟨funext hget, hnext⟩

end Heap

/-! ## Lists of pointers -/

section Pointers

/-- Nulling the first occurrence of a pointer erases it from the non-null pointers. -/
theorem reduceOption_replace (a : Nat) (l : List (Option Nat)) :
    (l.replace (some a) none).reduceOption = l.reduceOption.erase a := by
  induction l with
  | nil => rfl
  | cons k l ih =>
      cases k with
      | none =>
          have hne : (some a == (none : Option Nat)) = false := rfl
          rw [List.replace_cons, hne]
          simpa using ih
      | some b =>
          by_cases hb : b = a
          · subst hb
            simp
          · have hne : (some a == some b) = false := by simpa using Ne.symm hb
            rw [List.replace_cons, hne]
            have herase : (b :: l.reduceOption).erase a = b :: l.reduceOption.erase a :=
              List.erase_cons_tail (by simpa using hb)
            simpa [herase] using ih

/-- Where pointers occur once, nulling one leaves exactly the others. -/
theorem mem_replace_none {a b : Nat} {l : List (Option Nat)} (honce : l.reduceOption.Nodup) :
    some b ∈ l.replace (some a) none ↔ b ≠ a ∧ some b ∈ l := by
  rw [← List.reduceOption_mem_iff, reduceOption_replace, honce.mem_erase_iff,
    List.reduceOption_mem_iff]

/-- Where pointers occur once, nulling by position and by value agree. -/
theorem set_none_eq_replace {a i : Nat} {l : List (Option Nat)} (honce : l.reduceOption.Nodup)
    (hi : l[i]? = some (some a)) : l.set i none = l.replace (some a) none := by
  induction l generalizing i with
  | nil => simp at hi
  | cons k l ih =>
      cases i with
      | zero =>
          have hk : k = some a := by simpa using hi
          simp [hk]
      | succ i =>
          have hl : l[i]? = some (some a) := by simpa using hi
          have hal : some a ∈ l := List.mem_of_getElem? hl
          cases k with
          | none =>
              have hne : (some a == (none : Option Nat)) = false := rfl
              rw [List.replace_cons, hne, List.set_cons_succ, ih (by simpa using honce) hl]
          | some b =>
              have hb : b ≠ a := by
                rintro rfl
                rw [List.reduceOption_cons_of_some, List.nodup_cons,
                  List.reduceOption_mem_iff] at honce
                exact honce.1 hal
              have hne : (some a == some b) = false := by simpa using Ne.symm hb
              rw [List.replace_cons, hne, List.set_cons_succ,
                ih (List.Nodup.of_cons (by simpa using honce)) hl]

end Pointers

/-! ## Parent and child pointers -/

section Trees

variable {α : Type} (kids : α → List (Option Nat)) (parent : α → Option Nat)

/-- Child and parent pointers agree; null child pointers are allowed. -/
structure Linked (h : Heap α) : Prop where
  kid_live : ∀ {a n b}, h.get a = some n → some b ∈ kids n →
    ∃ m, h.get b = some m ∧ parent m = some a
  parent_live : ∀ {b m a}, h.get b = some m → parent m = some a →
    ∃ n, h.get a = some n ∧ some b ∈ kids n
  kid_once : ∀ {a n}, h.get a = some n → (kids n).reduceOption.Nodup
  older : ∀ {b m a}, h.get b = some m → parent m = some a → a < b

/-- One step from a record down to a record that names it as its parent. -/
def ParentOf (h : Heap α) (a b : Nat) : Prop :=
  ∃ m, h.get b = some m ∧ parent m = some a

/-- The addresses of the trees below a list of pointers, depth first. -/
inductive Forest (h : Heap α) : List (Option Nat) → List Nat → Prop
  | nil : Forest h [] []
  | skip {ks L} : Forest h ks L → Forest h (none :: ks) L
  | tree {a n ks K L} : h.get a = some n → Forest h (kids n) K → Forest h ks L →
      Forest h (some a :: ks) (a :: K ++ L)

variable {kids parent}

namespace Forest

variable {h h' : Heap α} {ks : List (Option Nat)} {L : List Nat}

/-- Every address of a forest is live. -/
theorem live (hf : Forest kids h ks L) : ∀ b ∈ L, ∃ n, h.get b = some n := by
  induction hf with
  | nil => intro b hb; simp at hb
  | skip _ ih => exact ih
  | @tree a n ks K L hget _ _ ihK ihL =>
      intro b hb
      rcases List.mem_cons.mp hb with rfl | hb
      · exact ⟨n, hget⟩
      · rcases List.mem_append.mp hb with hb | hb
        · exact ihK b hb
        · exact ihL b hb

/-- The top pointers belong to the forest. -/
theorem mem_of_top (hf : Forest kids h ks L) : ∀ b, some b ∈ ks → b ∈ L := by
  induction hf with
  | nil => intro b hb; simp at hb
  | skip _ ih => intro b hb; exact ih b (by simpa using hb)
  | tree _ _ _ _ ihL =>
      intro b hb
      rcases List.mem_cons.mp hb with hb | hb
      · simp [Option.some.inj hb]
      · simp [ihL b hb]

/-- A forest contains the children of its records. -/
theorem closed (hf : Forest kids h ks L) :
    ∀ x ∈ L, ∀ n b, h.get x = some n → some b ∈ kids n → b ∈ L := by
  induction hf with
  | nil => intro x hx; simp at hx
  | skip _ ih => exact ih
  | @tree a n ks K L hget hK _ ihK ihL =>
      intro x hx m b hm hb
      simp only [List.cons_append, List.mem_cons, List.mem_append] at hx ⊢
      rcases hx with rfl | hx | hx
      · rw [hget] at hm
        cases hm
        exact Or.inr (Or.inl (hK.mem_of_top b hb))
      · exact Or.inr (Or.inl (ihK x hx m b hm hb))
      · exact Or.inr (Or.inr (ihL x hx m b hm hb))

/-- A record of a forest is a top record or a child of a record of the forest. -/
theorem mem_top_or_parent (hf : Forest kids h ks L) :
    ∀ x ∈ L, some x ∈ ks ∨ ∃ y ∈ L, ∃ n, h.get y = some n ∧ some x ∈ kids n := by
  induction hf with
  | nil => intro x hx; simp at hx
  | skip _ ih =>
      intro x hx
      rcases ih x hx with htop | hpar
      · exact Or.inl (List.mem_cons_of_mem _ htop)
      · exact Or.inr hpar
  | @tree a n ks K L hget _ _ ihK ihL =>
      intro x hx
      simp only [List.cons_append, List.mem_cons, List.mem_append] at hx
      rcases hx with rfl | hx | hx
      · exact Or.inl (by simp)
      · rcases ihK x hx with htop | ⟨y, hy, m, hm, hxm⟩
        · exact Or.inr ⟨a, by simp, n, hget, htop⟩
        · exact Or.inr ⟨y, by simp [hy], m, hm, hxm⟩
      · rcases ihL x hx with htop | ⟨y, hy, m, hm, hxm⟩
        · exact Or.inl (List.mem_cons_of_mem _ htop)
        · exact Or.inr ⟨y, by simp [hy], m, hm, hxm⟩

end Forest

namespace Linked

variable {h : Heap α} {ks : List (Option Nat)} {L : List Nat}

/-- Every record of a forest is at least as old as the record it was reached from. -/
theorem forest_above (hl : Linked kids parent h) (hf : Forest kids h ks L) (p : Nat)
    (htop : ∀ b, some b ∈ ks → p < b) : ∀ x ∈ L, p < x := by
  induction hf generalizing p with
  | nil => intro x hx; simp at hx
  | skip _ ih => exact ih p fun b hb => htop b (List.mem_cons_of_mem _ hb)
  | @tree a n ks K L hget _ _ ihK ihL =>
      intro x hx
      have hpa : p < a := htop a (by simp)
      simp only [List.cons_append, List.mem_cons, List.mem_append] at hx
      rcases hx with rfl | hx | hx
      · exact hpa
      · have hax : a < x := ihK a (fun b hb => by
          obtain ⟨m, hm, hpar⟩ := hl.kid_live hget hb
          exact hl.older hm hpar) x hx
        omega
      · exact ihL p (fun b hb => htop b (List.mem_cons_of_mem _ hb)) x hx

/-- Live pointers have a forest below them: the recursion goes to younger records. -/
theorem exists_forest (hl : Linked kids parent h) :
    ∀ ks : List (Option Nat), (∀ b, some b ∈ ks → ∃ n, h.get b = some n) →
      ∃ L, Forest kids h ks L := by
  have key : ∀ d : Nat, ∀ ks : List (Option Nat),
      (∀ b, some b ∈ ks → (∃ n, h.get b = some n) ∧ h.next ≤ b + d) →
      ∃ L, Forest kids h ks L := by
    intro d
    induction d with
    | zero =>
        intro ks hks
        induction ks with
        | nil => exact ⟨[], .nil⟩
        | cons k ks ih =>
            obtain ⟨L, hL⟩ := ih fun b hb => hks b (List.mem_cons_of_mem _ hb)
            cases k with
            | none => exact ⟨L, .skip hL⟩
            | some b =>
                obtain ⟨⟨n, hn⟩, hb⟩ := hks b (by simp)
                have := Heap.lt_next hn
                omega
    | succ d ihd =>
        intro ks hks
        induction ks with
        | nil => exact ⟨[], .nil⟩
        | cons k ks ih =>
            obtain ⟨L, hL⟩ := ih fun b hb => hks b (List.mem_cons_of_mem _ hb)
            cases k with
            | none => exact ⟨L, .skip hL⟩
            | some a =>
                obtain ⟨⟨n, hn⟩, ha⟩ := hks a (by simp)
                obtain ⟨K, hK⟩ := ihd (kids n) fun b hb => by
                  obtain ⟨m, hm, hpar⟩ := hl.kid_live hn hb
                  have hab := hl.older hm hpar
                  exact ⟨⟨m, hm⟩, by omega⟩
                exact ⟨_, .tree hn hK hL⟩
  intro ks hks
  exact key h.next ks fun b hb => ⟨hks b hb, by omega⟩

/-- The forest below distinct siblings lists every record once. -/
theorem forest_nodup (hl : Linked kids parent h) (hf : Forest kids h ks L)
    (q : Option Nat) (hks : ks.reduceOption.Nodup)
    (hpar : ∀ b m, some b ∈ ks → h.get b = some m → parent m = q) : L.Nodup := by
  induction hf generalizing q with
  | nil => exact List.nodup_nil
  | skip _ ih =>
      exact ih q (by simpa using hks) fun b m hb hm => hpar b m (List.mem_cons_of_mem _ hb) hm
  | @tree a n ks K L hget hK hL ihK ihL =>
      have hq : parent n = q := hpar a n (by simp) hget
      rw [List.reduceOption_cons_of_some, List.nodup_cons, List.reduceOption_mem_iff] at hks
      have hrest : ∀ b m, some b ∈ ks → h.get b = some m → parent m = q :=
        fun b m hb hm => hpar b m (List.mem_cons_of_mem _ hb) hm
      have hKn : K.Nodup := ihK (some a) (hl.kid_once hget) fun b m hb hm => by
        obtain ⟨m', hm', hp⟩ := hl.kid_live hget hb
        rw [hm] at hm'
        cases hm'
        exact hp
      have hLn : L.Nodup := ihL q hks.2 hrest
      have hKa : ∀ x ∈ K, a < x := hl.forest_above hK a fun b hb => by
        obtain ⟨m, hm, hp⟩ := hl.kid_live hget hb
        exact hl.older hm hp
      have hLq : ∀ p, q = some p → ∀ x ∈ L, p < x := fun p hp => hl.forest_above hL p fun b hb => by
        obtain ⟨m, hm⟩ := hL.live b (hL.mem_of_top b hb)
        exact hl.older hm ((hrest b m hb hm).trans hp)
      have haL : a ∉ L := by
        intro ha
        rcases hL.mem_top_or_parent a ha with htop | ⟨y, hy, m, hm, hay⟩
        · exact hks.1 htop
        · obtain ⟨n', hn', hp⟩ := hl.kid_live hm hay
          rw [hget] at hn'
          cases hn'
          exact absurd (hLq y (hq.symm.trans hp) y hy) (Nat.lt_irrefl y)
      -- A record in both parts has its parent in both, so there is no oldest one.
      have hdisj : ∀ x, x ∈ K → x ∉ L := by
        intro x
        induction x using Nat.strongRecOn with
        | ind x ihx =>
            intro hxK hxL
            have hparK : ∃ y m, h.get x = some m ∧ parent m = some y ∧ (y = a ∨ y ∈ K) := by
              rcases hK.mem_top_or_parent x hxK with htop | ⟨y, hy, m, hm, hxm⟩
              · obtain ⟨m, hm, hp⟩ := hl.kid_live hget htop
                exact ⟨a, m, hm, hp, Or.inl rfl⟩
              · obtain ⟨m', hm', hp⟩ := hl.kid_live hm hxm
                exact ⟨y, m', hm', hp, Or.inr hy⟩
            obtain ⟨y, m, hm, hp, hy⟩ := hparK
            rcases hL.mem_top_or_parent x hxL with htop | ⟨z, hz, m', hm', hxm'⟩
            · have hqy : q = some y := (hrest x m htop hm).symm.trans hp
              have hya : y < a := hl.older hget (hq.trans hqy)
              rcases hy with rfl | hy
              · omega
              · exact absurd (hKa y hy) (by omega)
            · obtain ⟨m'', hm'', hp''⟩ := hl.kid_live hm' hxm'
              rw [hm] at hm''
              cases hm''
              rw [hp] at hp''
              cases hp''
              rcases hy with rfl | hy
              · exact haL hz
              · exact ihx y (hl.older hm hp) hy hz
      rw [List.cons_append, List.nodup_cons, List.nodup_append]
      refine ⟨?_, hKn, hLn, ?_⟩
      · intro ha
        rcases List.mem_append.mp ha with ha | ha
        · exact absurd (hKa a ha) (Nat.lt_irrefl a)
        · exact haL ha
      · intro x hx y hy hxy
        subst hxy
        exact hdisj x hx hy

end Linked

end Trees

end Library
end IdeMultiarch
