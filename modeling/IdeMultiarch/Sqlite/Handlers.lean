import IdeMultiarch.Library.Heap
import IdeMultiarch.Library.WeakestPre

/-!
# Sqlite - handlers of a connection

The functions of {lit}`NativeDB.c` that install and remove the handlers of a connection.  SQLite
keeps a pointer to a context of the handler, and so does a field of the Java object, which alone
tells later that the context is to be freed.

A call of SQLite without a database, a database or a context that was freed, and a global reference
that was deleted are faults.  Memory is always granted.  After a handler called Java it does not
touch its context again, so what Java does then is nothing but the next calls.

Main results:

- Structure {lit}`Owned`: every context and every global reference is reachable from the fields.
- Theorem {lit}`wp_replaceHandler`: a handler is replaced, and nothing is lost or used after it was
  freed.
- Theorem {lit}`wp_closeDb`: closing removes every handler, and the database unless it has statements.
-/

namespace IdeMultiarch
namespace Sqlite

open Library (Heap wp)

/-! ## The state -/

/-- The kinds of handlers: the fields {lit}`busyHandler`, {lit}`updateListener` and
{lit}`commitListener`. -/
inductive Kind
  | busy
  | update
  | commit
deriving DecidableEq, Repr

/-- When SQLite calls a handler. -/
inductive Hook
  | busy
  | update
  | commit
  | rollback
deriving DecidableEq, Repr

/-- The handler that is called: the commit listener is told about rollbacks too. -/
def Hook.kind : Hook → Kind
  | .busy => .busy
  | .update => .update
  | .commit => .commit
  | .rollback => .commit

/-- What a database does when it is busy. -/
inductive BusyHandler
  | none
  | timeout (ms : Int)
  | callback (ctx : Nat)
deriving DecidableEq

/-- {lit}`sqlite3`: its handlers, and how many statements are not finalized. -/
structure Database where
  busy : BusyHandler
  update : Option Nat
  commit : Option Nat
  rollback : Option Nat
  statements : Nat
deriving DecidableEq

/-- The context that SQLite passes to a handler. -/
def Database.context (d : Database) : Hook → Option Nat
  | .busy => match d.busy with
      | .callback ctx => some ctx
      | _ => Option.none
  | .update => d.update
  | .commit => d.commit
  | .rollback => d.rollback

/-- {lit}`BusyHandlerContext`, {lit}`UpdateHandlerContext` and {lit}`CommitHandlerContext`: the kind of
handler, and the global reference to the Java object. -/
structure Context where
  kind : Kind
  ref : Nat
deriving DecidableEq

inductive Fault
  | nullDatabase
  | staleDatabase
  | staleContext
  | staleRef
deriving DecidableEq, Repr

/-- What comes of a call: nothing, an exception, or a call of a Java object. -/
inductive Outcome
  | done
  | throwex_db_closed
  | throwex
  | calls (obj : Nat)
deriving DecidableEq, Repr

/-- The Java object of a connection with its fields, the databases of SQLite, the contexts, and the
global references with the objects they refer to. -/
structure Native where
  pointer : Option Nat
  fields : Kind → Option Nat
  databases : Heap Database
  contexts : Heap Context
  refs : Heap Nat

abbrev NativeM := StateT Native (Except Fault)

/-- A connection that was never opened. -/
def Native.initial : Native where
  pointer := none
  fields _ := none
  databases := Heap.empty
  contexts := Heap.empty
  refs := Heap.empty

/-! ## The functions -/

/-- The number under which Java knows its object for the connection. -/
def nativeDB : Nat := 0

def gethandle : NativeM (Option Nat) := do
  return (← get).pointer

/-- A function of SQLite changes something of a database. -/
def withDatabase (db : Option Nat) (f : Database → Database) : NativeM Unit := do
  match db with
  | none => throw .nullDatabase
  | some db =>
      let s ← get
      match s.databases.get db with
      | none => throw .staleDatabase
      | some _ => set { s with databases := s.databases.modify db f }

def sqlite3_busy_handler (db : Option Nat) (handler : Option Nat) : NativeM Unit :=
  withDatabase db fun d => { d with busy := match handler with
    | some ctx => .callback ctx
    | none => .none }

def sqlite3_busy_timeout (db : Option Nat) (ms : Int) : NativeM Unit :=
  withDatabase db fun d => { d with busy := if ms > 0 then .timeout ms else .none }

def sqlite3_update_hook (db : Option Nat) (handler : Option Nat) : NativeM Unit :=
  withDatabase db fun d => { d with update := handler }

def sqlite3_commit_hook (db : Option Nat) (handler : Option Nat) : NativeM Unit :=
  withDatabase db fun d => { d with commit := handler }

def sqlite3_rollback_hook (db : Option Nat) (handler : Option Nat) : NativeM Unit :=
  withDatabase db fun d => { d with rollback := handler }

/-- A context is made with a new global reference to an object. -/
def newContext (kind : Kind) (obj : Nat) : NativeM Nat := do
  let s ← get
  set { s with
    refs := s.refs.alloc obj
    contexts := s.contexts.alloc ⟨kind, s.refs.next⟩ }
  return s.contexts.next

/-- {lit}`free_busy_handler`, {lit}`free_update_handler` and {lit}`freeCommitHandlerCtx` -/
def freeHandler (ctx : Nat) : NativeM Unit := do
  let s ← get
  match s.contexts.get ctx with
  | none => throw .staleContext
  | some c =>
      match s.refs.get c.ref with
      | none => throw .staleRef
      | some _ => set { s with refs := s.refs.free c.ref, contexts := s.contexts.free ctx }

/-- {lit}`set_new_handler` -/
def set_new_handler (kind : Kind) (newHandler : Option Nat) : NativeM Unit := do
  match (← get).fields kind with
  | some toFree => freeHandler toFree
  | none => pure ()
  modify fun s => { s with fields := Function.update s.fields kind newHandler }

/-- A context for the new handler, if there is one. -/
def newHandler (kind : Kind) : Option Nat → NativeM (Option Nat)
  | some obj => some <$> newContext kind obj
  | none => pure none

/-- What the functions that install or remove a handler have in common: a new context is made if
there is a new handler, SQLite is told, and then the old context is freed. -/
def replaceHandler (kind : Kind) (obj : Option Nat) (tell : Option Nat → NativeM Unit) :
    NativeM Unit := do
  let ctx ← newHandler kind obj
  tell ctx
  set_new_handler kind ctx

/-- {lit}`change_busy_handler` -/
def change_busy_handler (busyHandler : Option Nat) : NativeM Outcome := do
  match ← gethandle with
  | none => return .throwex_db_closed
  | some db =>
      replaceHandler .busy busyHandler fun ctx => sqlite3_busy_handler (some db) ctx
      return .done

/-- {lit}`NativeDB_busy_timeout` -/
def busy_timeout (ms : Int) : NativeM Outcome := do
  match ← gethandle with
  | none => return .throwex_db_closed
  | some db =>
      sqlite3_busy_timeout (some db) ms
      return .done

/-- {lit}`NativeDB_set_update_listener`; without a listener it is {lit}`clear_update_listener`. -/
def set_update_listener (enabled : Bool) : NativeM Outcome := do
  replaceHandler .update (if enabled then some nativeDB else none) fun ctx => do
    sqlite3_update_hook (← gethandle) ctx
  return .done

/-- {lit}`NativeDB_set_commit_listener`; without a listener it is {lit}`clear_commit_listener`. -/
def set_commit_listener (enabled : Bool) : NativeM Outcome := do
  let db ← gethandle
  replaceHandler .commit (if enabled then some nativeDB else none) fun ctx => do
    sqlite3_commit_hook db ctx
    sqlite3_rollback_hook db ctx
  return .done

/-- {lit}`NativeDB_open`, when SQLite opens the file or not. -/
def openDb (opened : Bool) : NativeM Outcome := do
  if opened then
    modify fun s => { s with
      databases := s.databases.alloc ⟨.none, none, none, none, 0⟩
      pointer := some s.databases.next }
  return .done

/-- {lit}`sqlite3_close`: whether it works.  A database with statements is not closed. -/
def sqlite3_close (db : Nat) : NativeM Bool := do
  let s ← get
  match s.databases.get db with
  | none => throw .staleDatabase
  | some d =>
      if d.statements = 0 then
        set { s with databases := s.databases.free db }
        return true
      else return false

/-- {lit}`NativeDB__close` -/
def closeDb : NativeM Outcome := do
  match ← gethandle with
  | none => return .done
  | some db =>
      let _ ← change_busy_handler none
      let _ ← set_commit_listener false
      let _ ← set_update_listener false
      let closed ← sqlite3_close db
      modify fun s => { s with pointer := none }
      return if closed then .done else .throwex

/-- {lit}`NativeDB_prepare_utf8`, when SQLite accepts the statement or not. -/
def prepare (accepted : Bool) : NativeM Outcome := do
  match ← gethandle with
  | none => return .throwex_db_closed
  | some db =>
      if accepted then
        withDatabase (some db) fun d => { d with statements := d.statements + 1 }
        return .done
      else return .throwex

/-- {lit}`NativeDB_finalize` for a statement of a database, if there is one. -/
def finalize (db : Nat) : NativeM Outcome := do
  match (← get).databases.get db with
  | none => return .done
  | some d =>
      if d.statements ≠ 0 then
        withDatabase (some db) fun d => { d with statements := d.statements - 1 }
      return .done

/-- A handler reads its context and calls the Java object. -/
def callBack (ctx : Nat) : NativeM Outcome := do
  let s ← get
  match s.contexts.get ctx with
  | none => throw .staleContext
  | some c =>
      match s.refs.get c.ref with
      | none => throw .staleRef
      | some obj => return .calls obj

/-- While a database does something, it calls a handler if there is one. -/
def fire (db : Nat) (hook : Hook) : NativeM Outcome := do
  match (← get).databases.get db with
  | none => return .done
  | some d =>
      match d.context hook with
      | none => return .done
      | some ctx => callBack ctx

/-! ## Runs -/

/-- What can happen to a connection. -/
inductive NativeCall
  | openDb (opened : Bool)
  | closeDb
  | busy_handler (busyHandler : Option Nat)
  | busy_timeout (ms : Int)
  | set_update_listener (enabled : Bool)
  | set_commit_listener (enabled : Bool)
  | prepare (accepted : Bool)
  | finalize (db : Nat)
  | fire (db : Nat) (hook : Hook)

def NativeCall.run : NativeCall → NativeM Outcome
  | .openDb opened => Sqlite.openDb opened
  | .closeDb => Sqlite.closeDb
  | .busy_handler busyHandler => change_busy_handler busyHandler
  | .busy_timeout ms => Sqlite.busy_timeout ms
  | .set_update_listener enabled => Sqlite.set_update_listener enabled
  | .set_commit_listener enabled => Sqlite.set_commit_listener enabled
  | .prepare accepted => Sqlite.prepare accepted
  | .finalize db => Sqlite.finalize db
  | .fire db hook => Sqlite.fire db hook

/-- The connection after some calls. -/
def performCalls (s : Native) (calls : List NativeCall) : Except Fault Native :=
  calls.foldlM (fun s call => Prod.snd <$> call.run.run s) s

/-! ## Contexts and references -/

/-- The object that a context refers to. -/
def objectOf (contexts : Heap Context) (refs : Heap Nat) (ctx : Nat) : Option Nat :=
  (contexts.get ctx).bind fun c => refs.get c.ref

/-- The pointers of {lit}`root` lead to contexts of their kind with a reference of their own, and there
is nothing else. -/
structure Owned (root : Kind → Nat → Prop) (contexts : Heap Context) (refs : Heap Nat) : Prop where
  live : ∀ kind ctx, root kind ctx →
    ∃ c obj, contexts.get ctx = some c ∧ c.kind = kind ∧ refs.get c.ref = some obj
  rooted : ∀ ctx c, contexts.get ctx = some c → root c.kind ctx
  referred : ∀ ref obj, refs.get ref = some obj →
    ∃ ctx c, contexts.get ctx = some c ∧ c.ref = ref
  distinct : ∀ ctx ctx' c c', contexts.get ctx = some c → contexts.get ctx' = some c' →
    c.ref = c'.ref → ctx = ctx'

namespace Owned

variable {root root' : Kind → Nat → Prop} {contexts : Heap Context} {refs : Heap Nat}

theorem congr (h : Owned root contexts refs) (hroot : ∀ kind ctx, root kind ctx ↔ root' kind ctx) :
    Owned root' contexts refs := by
  have heq : root = root' := by
    funext kind ctx
    exact propext (hroot kind ctx)
  rw [← heq]
  exact h

theorem empty : Owned (fun _ _ => False) (Heap.empty) (Heap.empty) where
  live := fun _ _ hroot => hroot.elim
  rooted := by intro ctx c hc; simp at hc
  referred := by intro ref obj href; simp at href
  distinct := by intro ctx ctx' c c' hc; simp at hc

/-- The reference of a context is not deleted. -/
theorem exists_ref (h : Owned root contexts refs) {ctx : Nat} {c : Context}
    (hc : contexts.get ctx = some c) : ∃ obj, refs.get c.ref = some obj := by
  obtain ⟨c', obj, hc', -, hobj⟩ := h.live c.kind ctx (h.rooted ctx c hc)
  rw [hc, Option.some.injEq] at hc'
  rw [hc']
  exact ⟨obj, hobj⟩

theorem ref_ne_next (h : Owned root contexts refs) {ctx : Nat} {c : Context}
    (hc : contexts.get ctx = some c) : c.ref ≠ refs.next := by
  obtain ⟨obj, hobj⟩ := h.exists_ref hc
  exact Nat.ne_of_lt (Heap.lt_next hobj)

/-- A pointer has one kind. -/
theorem kind_unique (h : Owned root contexts refs) {kind kind' : Kind} {ctx : Nat}
    (hkind : root kind ctx) (hkind' : root kind' ctx) : kind = kind' := by
  obtain ⟨c, obj, hc, rfl, -⟩ := h.live kind ctx hkind
  obtain ⟨c', obj', hc', rfl, -⟩ := h.live kind' ctx hkind'
  rw [hc, Option.some.injEq] at hc'
  rw [hc']

/-- A new context with a new reference. -/
theorem alloc (h : Owned root contexts refs) (kind : Kind) (obj : Nat) :
    Owned (fun k ctx => root k ctx ∨ k = kind ∧ ctx = contexts.next)
      (contexts.alloc ⟨kind, refs.next⟩) (refs.alloc obj) where
  live := by
    intro k ctx hroot
    rcases hroot with hroot | ⟨rfl, rfl⟩
    · obtain ⟨c, o, hc, hkind, ho⟩ := h.live k ctx hroot
      refine ⟨c, o, ?_, hkind, ?_⟩
      · rw [Heap.alloc_get, if_neg (Nat.ne_of_lt (Heap.lt_next hc)), hc]
      · rw [Heap.alloc_get, if_neg (Nat.ne_of_lt (Heap.lt_next ho)), ho]
    · exact ⟨⟨k, refs.next⟩, obj, by simp, rfl, by simp⟩
  rooted := by
    intro ctx c hc
    rw [Heap.alloc_get] at hc
    split at hc
    · rename_i hctx
      rw [Option.some.injEq] at hc
      rw [← hc]
      exact Or.inr ⟨rfl, hctx⟩
    · exact Or.inl (h.rooted ctx c hc)
  referred := by
    intro ref o href
    rw [Heap.alloc_get] at href
    split at href
    · rename_i hnext
      exact ⟨contexts.next, ⟨kind, refs.next⟩, by simp, hnext.symm⟩
    · obtain ⟨ctx, c, hc, hcref⟩ := h.referred ref o href
      exact ⟨ctx, c, by rw [Heap.alloc_get, if_neg (Nat.ne_of_lt (Heap.lt_next hc)), hc], hcref⟩
  distinct := by
    intro ctx ctx' c c' hc hc' href
    rw [Heap.alloc_get] at hc hc'
    split at hc <;> split at hc'
    · rename_i hctx hctx'
      rw [hctx, hctx']
    · rw [Option.some.injEq] at hc
      rw [← hc] at href
      exact absurd href.symm (h.ref_ne_next hc')
    · rw [Option.some.injEq] at hc'
      rw [← hc'] at href
      exact absurd href (h.ref_ne_next hc)
    · exact h.distinct ctx ctx' c c' hc hc' href

theorem objectOf_alloc (h : Owned root contexts refs) (kind : Kind) (obj : Nat) {ctx : Nat}
    (hctx : ctx ≠ contexts.next) :
    objectOf (contexts.alloc ⟨kind, refs.next⟩) (refs.alloc obj) ctx =
      objectOf contexts refs ctx := by
  unfold objectOf
  rw [Heap.alloc_get, if_neg hctx]
  cases hc : contexts.get ctx with
  | none => rfl
  | some c => rw [Option.bind_some, Option.bind_some, Heap.alloc_get, if_neg (h.ref_ne_next hc)]

/-- A context is freed with its reference. -/
theorem free (h : Owned root contexts refs) {ctx : Nat} {c : Context}
    (hc : contexts.get ctx = some c) :
    Owned (fun kind a => root kind a ∧ a ≠ ctx) (contexts.free ctx) (refs.free c.ref) where
  live := by
    rintro kind a ⟨hroot, ha⟩
    obtain ⟨c', obj, hc', hkind, hobj⟩ := h.live kind a hroot
    have href : c'.ref ≠ c.ref := fun href => ha (h.distinct a ctx c' c hc' hc href)
    refine ⟨c', obj, ?_, hkind, ?_⟩
    · rw [Heap.free_get, if_neg ha, hc']
    · rw [Heap.free_get, if_neg href, hobj]
  rooted := by
    intro a c' hc'
    rw [Heap.free_get] at hc'
    split at hc'
    · contradiction
    · rename_i ha
      exact ⟨h.rooted a c' hc', ha⟩
  referred := by
    intro ref obj href
    rw [Heap.free_get] at href
    split at href
    · contradiction
    · rename_i hne
      obtain ⟨a, c', hc', hcref⟩ := h.referred ref obj href
      have ha : a ≠ ctx := by
        rintro rfl
        rw [hc, Option.some.injEq] at hc'
        rw [← hc'] at hcref
        exact hne hcref.symm
      exact ⟨a, c', by rw [Heap.free_get, if_neg ha, hc'], hcref⟩
  distinct := by
    intro a a' c₁ c₂ hc₁ hc₂ href
    rw [Heap.free_get] at hc₁ hc₂
    split at hc₁ <;> split at hc₂
    · contradiction
    · contradiction
    · contradiction
    · exact h.distinct a a' c₁ c₂ hc₁ hc₂ href

theorem objectOf_free (h : Owned root contexts refs) {ctx a : Nat} {c : Context}
    (hc : contexts.get ctx = some c) (ha : a ≠ ctx) :
    objectOf (contexts.free ctx) (refs.free c.ref) a = objectOf contexts refs a := by
  unfold objectOf
  rw [Heap.free_get, if_neg ha]
  cases hc' : contexts.get a with
  | none => rfl
  | some c' =>
      have href : c'.ref ≠ c.ref := fun href => ha (h.distinct a ctx c' c hc' hc href)
      rw [Option.bind_some, Option.bind_some, Heap.free_get, if_neg href]

/-- Without pointers there are neither contexts nor references. -/
theorem released (h : Owned root contexts refs) (hroot : ∀ kind ctx, ¬ root kind ctx) :
    (∀ ctx, contexts.get ctx = none) ∧ ∀ ref, refs.get ref = none := by
  have hcontexts : ∀ ctx, contexts.get ctx = none := by
    intro ctx
    cases hc : contexts.get ctx with
    | none => rfl
    | some c => exact absurd (h.rooted ctx c hc) (hroot _ _)
  refine ⟨hcontexts, fun ref => ?_⟩
  cases href : refs.get ref with
  | none => rfl
  | some obj =>
      obtain ⟨ctx, c, hc, -⟩ := h.referred ref obj href
      rw [hcontexts] at hc
      contradiction

end Owned

/-! ## Replacing a handler -/

/-- Running out of the contexts is no reason to stop: no fault is tolerated. -/
abbrev Never : Fault → Prop := fun _ => False

variable {s : Native} {kind : Kind}

/-- The contexts of a connection are those in its fields. -/
abbrev Native.Owned (s : Native) : Prop :=
  Sqlite.Owned (fun kind ctx => s.fields kind = some ctx) s.contexts s.refs

abbrev Native.objectOf (s : Native) (ctx : Nat) : Option Nat :=
  Sqlite.objectOf s.contexts s.refs ctx

/-- A context for a new handler was made, and nobody knows about it yet. -/
structure Made (s : Native) (kind : Kind) (obj : Option Nat) (ctx : Option Nat) (t : Native) :
    Prop where
  pointer : t.pointer = s.pointer
  fields : t.fields = s.fields
  databases : t.databases = s.databases
  owned : Owned (fun k a => s.fields k = some a ∨ k = kind ∧ ctx = some a) t.contexts t.refs
  fresh : ∀ k a, ctx = some a → s.fields k ≠ some a
  kept : ∀ k a, s.fields k = some a → t.objectOf a = s.objectOf a
  made : ctx.bind t.objectOf = obj
  isNone : ctx = none ↔ obj = none

theorem wp_newHandler (h : s.Owned) (kind : Kind) (obj : Option Nat) :
    wp Never (newHandler kind obj) (fun ctx t => Made s kind obj ctx t) s := by
  cases obj with
  | none =>
      refine ⟨rfl, rfl, rfl, ?_, nofun, fun _ _ _ => rfl, rfl, Iff.rfl⟩
      exact h.congr fun k a => by simp
  | some obj =>
  unfold newHandler newContext
  rw [Library.wp_map, Library.wp_bind, Library.wp_get, Library.wp_bind, Library.wp_set, Library.wp_pure]
  have hold : ∀ k a, s.fields k = some a → a ≠ s.contexts.next := by
    intro k a hk
    obtain ⟨c, o, hc, -⟩ := h.live k a hk
    exact Nat.ne_of_lt (Heap.lt_next hc)
  refine ⟨rfl, rfl, rfl, ?_, ?_, ?_, ?_, by simp⟩
  · refine (h.alloc kind obj).congr fun k a => or_congr_right (and_congr_right fun _ => ?_)
    rw [Option.some.injEq]
    exact eq_comm
  · rintro k a ha hk
    rw [Option.some.injEq] at ha
    exact hold k a hk ha.symm
  · intro k a hk
    exact h.objectOf_alloc kind obj (hold k a hk)
  · simp [objectOf]

/-- The old context is freed, and the new one takes its place. -/
theorem wp_set_new_handler {obj ctx : Option Nat} {t : Native} (h : s.Owned)
    (hmade : Made s kind obj ctx t) (databases : Heap Database) :
    wp Never (set_new_handler kind ctx) (fun _ v => v.pointer = s.pointer ∧
      v.databases = databases ∧ v.fields = Function.update s.fields kind ctx ∧ v.Owned ∧
      ∀ k a, v.fields k = some a → v.objectOf a = t.objectOf a)
      { t with databases := databases } := by
  have howned := hmade.owned
  unfold set_new_handler
  rw [Library.wp_bind, Library.wp_get]
  dsimp only
  rw [hmade.fields]
  cases hold : s.fields kind with
  | none =>
      dsimp only
      rw [Library.wp_modify]
      refine ⟨hmade.pointer, rfl, rfl, ?_, fun _ _ _ => rfl⟩
      refine howned.congr fun k a => ?_
      by_cases hk : k = kind
      · subst hk
        simp [hold]
      · simp [hk]
  | some old =>
      obtain ⟨c, o, hc, -, ho⟩ := howned.live kind old (Or.inl hold)
      dsimp only
      rw [Library.wp_bind]
      unfold freeHandler
      rw [Library.wp_bind, Library.wp_get]
      dsimp only
      rw [hc]
      dsimp only
      rw [ho]
      rw [Library.wp_set, Library.wp_modify]
      -- exactly the old context is gone
      have hroot : ∀ k a, ((s.fields k = some a ∨ k = kind ∧ ctx = some a) ∧ a ≠ old) ↔
          Function.update s.fields kind ctx k = some a := by
        intro k a
        by_cases hk : k = kind
        · subst hk
          rw [Function.update_self, hold, Option.some.injEq]
          constructor
          · rintro ⟨rfl | ⟨-, hctx⟩, hne⟩
            · exact absurd rfl hne
            · exact hctx
          · intro hctx
            refine ⟨Or.inr ⟨rfl, hctx⟩, ?_⟩
            rintro rfl
            exact hmade.fresh k a hctx hold
        · rw [Function.update_of_ne hk]
          constructor
          · rintro ⟨hfield | ⟨hk', -⟩, -⟩
            · exact hfield
            · exact absurd hk' hk
          · intro hfield
            refine ⟨Or.inl hfield, ?_⟩
            rintro rfl
            exact hk (h.kind_unique hfield hold)
      refine ⟨hmade.pointer, rfl, rfl, ?_, ?_⟩
      · exact (howned.free hc).congr hroot
      · intro k a hk
        exact howned.objectOf_free hc ((hroot k a).mpr hk).2

/-- A function tells the open database the context of one kind of handlers, and nothing else. -/
def Tells (db : Nat) (kind : Kind) (tell : Option Nat → NativeM Unit) : Prop :=
  ∀ ctx d t, t.pointer = some db → t.databases.get db = some d →
    ∃ f : Database → Database,
      (∀ hook, (f d).context hook = if hook.kind = kind then ctx else d.context hook) ∧
      (f d).statements = d.statements ∧
      (tell ctx).run t = .ok ((), { t with databases := t.databases.modify db f })

/-- A handler of the open database was replaced. -/
structure Swapped (s : Native) (db : Nat) (d : Database) (kind : Kind) (obj : Option Nat)
    (ctx : Option Nat) (d' : Database) (t : Native) : Prop where
  pointer : t.pointer = s.pointer
  fields : t.fields = Function.update s.fields kind ctx
  databases : ∀ a, t.databases.get a = if a = db then some d' else s.databases.get a
  context : ∀ hook, d'.context hook = if hook.kind = kind then ctx else d.context hook
  statements : d'.statements = d.statements
  owned : t.Owned
  kept : ∀ k a, k ≠ kind → s.fields k = some a → t.objectOf a = s.objectOf a
  made : ctx.bind t.objectOf = obj
  isNone : ctx = none ↔ obj = none

/-- A handler of an open connection is replaced. -/
theorem wp_replaceHandler {db : Nat} {d : Database} {tell : Option Nat → NativeM Unit}
    (h : s.Owned) (hdb : s.pointer = some db) (hd : s.databases.get db = some d)
    (htell : Tells db kind tell) (obj : Option Nat) :
    wp Never (replaceHandler kind obj tell)
      (fun _ t => ∃ ctx d', Swapped s db d kind obj ctx d' t) s := by
  unfold replaceHandler
  rw [Library.wp_bind]
  refine Library.wp_weaken (wp_newHandler h kind obj) fun ctx t hmade => ?_
  obtain ⟨f, hf, hstatements, hrun⟩ :=
    htell ctx d t (hmade.pointer.trans hdb) (hmade.databases ▸ hd)
  rw [Library.wp_bind]
  refine Library.wp_of_run hrun ?_
  refine Library.wp_weaken (wp_set_new_handler h hmade _) ?_
  rintro - v ⟨hpointer, hdatabases, hfields, howned, hobjects⟩
  refine ⟨ctx, f d, hpointer, hfields, ?_, hf, hstatements, howned, ?_, ?_, hmade.isNone⟩
  · intro a
    rw [hdatabases, Heap.modify_get, hmade.databases, hd]
    rfl
  · intro k a hk hfield
    rw [hobjects k a (by rw [hfields, Function.update_of_ne hk, hfield]), hmade.kept k a hfield]
  · rw [← hmade.made]
    cases hctx : ctx with
    | none => rfl
    | some a => exact hobjects kind a (by rw [hfields, Function.update_self, hctx])

/-- Without a database nothing is replaced: SQLite is called with a null pointer. -/
theorem wp_replaceHandler_null {tell : Option Nat → NativeM Unit} (h : s.Owned)
    (hdb : s.pointer = none)
    (htell : ∀ ctx t, t.pointer = none → (tell ctx).run t = .error .nullDatabase)
    (obj : Option Nat) (Q : Unit → Native → Prop) :
    wp (fun fault => fault = .nullDatabase) (replaceHandler kind obj tell) Q s := by
  unfold replaceHandler
  rw [Library.wp_bind]
  refine Library.wp_mono (wp_newHandler h kind obj) (fun ctx t hmade => ?_) (fun _ hfault => hfault.elim)
  rw [Library.wp_bind]
  unfold wp
  rw [htell ctx t (hmade.pointer.trans hdb)]

/-! ## The functions of SQLite that are told -/

theorem run_withDatabase {db : Nat} {d : Database} {t : Native} (hd : t.databases.get db = some d)
    (f : Database → Database) :
    (withDatabase (some db) f).run t = .ok ((), { t with databases := t.databases.modify db f }) := by
  unfold withDatabase
  dsimp only
  rw [StateT.run_bind, StateT.run_get]
  simp only [pure_bind, hd]
  rfl

theorem tells_busy (db : Nat) :
    Tells db .busy (fun ctx => sqlite3_busy_handler (some db) ctx) := by
  intro ctx d t _ hd
  refine ⟨_, ?_, ?_, run_withDatabase hd _⟩
  · intro hook
    cases ctx <;> cases hook <;> rfl
  · rfl

theorem tells_update (db : Nat) :
    Tells db .update (fun ctx => do sqlite3_update_hook (← gethandle) ctx) := by
  intro ctx d t hdb hd
  have hrun := run_withDatabase hd fun d => { d with update := ctx }
  refine ⟨fun d => { d with update := ctx }, ?_, rfl, ?_⟩
  · intro hook
    cases hook <;> rfl
  · rw [← hrun, ← hdb]
    rfl

theorem tells_commit (db : Nat) :
    Tells db .commit (fun ctx => do
      sqlite3_commit_hook (some db) ctx
      sqlite3_rollback_hook (some db) ctx) := by
  intro ctx d t _ hd
  refine ⟨fun d => { d with commit := ctx, rollback := ctx }, ?_, rfl, ?_⟩
  · intro hook
    cases hook <;> rfl
  · have hcommit : (sqlite3_commit_hook (some db) ctx).run t = _ := run_withDatabase hd _
    dsimp only
    rw [Library.run_bind_of_run hcommit, sqlite3_rollback_hook,
      run_withDatabase (d := { d with commit := ctx }) (by simp [hd])]
    dsimp only
    rw [Heap.modify_modify]

/-! ## The functions that replace a handler -/

section Replacing

variable {db : Nat} {d : Database}

theorem wp_change_busy_handler (h : s.Owned) (hdb : s.pointer = some db)
    (hd : s.databases.get db = some d) (obj : Option Nat) :
    wp Never (change_busy_handler obj)
      (fun out t => out = .done ∧ ∃ ctx d', Swapped s db d .busy obj ctx d' t) s := by
  unfold change_busy_handler gethandle
  rw [Library.wp_bind, Library.wp_bind, Library.wp_get, Library.wp_pure, hdb]
  dsimp only
  rw [Library.wp_bind]
  refine Library.wp_weaken (wp_replaceHandler h hdb hd (tells_busy db) obj) fun _ t ht => ?_
  exact ⟨rfl, ht⟩

theorem wp_set_update_listener (h : s.Owned) (hdb : s.pointer = some db)
    (hd : s.databases.get db = some d) (enabled : Bool) :
    wp Never (set_update_listener enabled) (fun out t => out = .done ∧
      ∃ ctx d', Swapped s db d .update (if enabled then some nativeDB else none) ctx d' t) s := by
  unfold set_update_listener
  rw [Library.wp_bind]
  refine Library.wp_weaken (wp_replaceHandler h hdb hd (tells_update db) _) fun _ t ht => ?_
  exact ⟨rfl, ht⟩

theorem wp_set_commit_listener (h : s.Owned) (hdb : s.pointer = some db)
    (hd : s.databases.get db = some d) (enabled : Bool) :
    wp Never (set_commit_listener enabled) (fun out t => out = .done ∧
      ∃ ctx d', Swapped s db d .commit (if enabled then some nativeDB else none) ctx d' t) s := by
  unfold set_commit_listener gethandle
  rw [Library.wp_bind, Library.wp_bind, Library.wp_get, Library.wp_pure, hdb, Library.wp_bind]
  refine Library.wp_weaken (wp_replaceHandler h hdb hd (tells_commit db) _) fun _ t ht => ?_
  exact ⟨rfl, ht⟩

/-- What is left when an open connection was closed. -/
structure Left (s : Native) (db : Nat) (d : Database) (out : Outcome) (t : Native) : Prop where
  pointer : t.pointer = none
  fields : ∀ kind, t.fields kind = none
  owned : t.Owned
  others : ∀ a, a ≠ db → t.databases.get a = s.databases.get a
  closed : d.statements = 0 → out = .done ∧ t.databases.get db = none
  busy : d.statements ≠ 0 → out = .throwex ∧ ∃ d', t.databases.get db = some d' ∧
    d'.statements = d.statements ∧ ∀ hook, d'.context hook = none

/-- Closing removes the three handlers first. -/
theorem wp_closeDb (h : s.Owned) (hdb : s.pointer = some db) (hd : s.databases.get db = some d) :
    wp Never closeDb (Left s db d) s := by
  unfold closeDb gethandle
  rw [Library.wp_bind, Library.wp_bind, Library.wp_get, Library.wp_pure, hdb]
  dsimp only
  rw [Library.wp_bind]
  refine Library.wp_weaken (wp_change_busy_handler h hdb hd none) ?_
  rintro - s₁ ⟨-, ctx₁, d₁, h₁⟩
  have hdb₁ := h₁.pointer.trans hdb
  have hd₁ : s₁.databases.get db = some d₁ := by rw [h₁.databases, if_pos rfl]
  rw [Library.wp_bind]
  refine Library.wp_weaken (wp_set_commit_listener h₁.owned hdb₁ hd₁ false) ?_
  rintro - s₂ ⟨-, ctx₂, d₂, h₂⟩
  have hdb₂ := h₂.pointer.trans hdb₁
  have hd₂ : s₂.databases.get db = some d₂ := by rw [h₂.databases, if_pos rfl]
  rw [Library.wp_bind]
  refine Library.wp_weaken (wp_set_update_listener h₂.owned hdb₂ hd₂ false) ?_
  rintro - t ⟨-, ctx₃, d₃, ht⟩
  have hd₃ : t.databases.get db = some d₃ := by rw [ht.databases, if_pos rfl]
  have hctx₁ : ctx₁ = none := h₁.isNone.mpr rfl
  have hctx₂ : ctx₂ = none := h₂.isNone.mpr rfl
  have hctx₃ : ctx₃ = none := ht.isNone.mpr rfl
  have hfields : ∀ kind, t.fields kind = none := by
    intro kind
    rw [ht.fields, h₂.fields, h₁.fields, hctx₁, hctx₂, hctx₃]
    cases kind <;> rfl
  have hsilent : ∀ hook, d₃.context hook = none := by
    intro hook
    rw [ht.context, h₂.context, h₁.context, hctx₁, hctx₂, hctx₃]
    cases hook <;> rfl
  have hothers : ∀ a, a ≠ db → t.databases.get a = s.databases.get a := by
    intro a ha
    rw [ht.databases, if_neg ha, h₂.databases, if_neg ha, h₁.databases, if_neg ha]
  have hcount : d₃.statements = d.statements :=
    ht.statements.trans (h₂.statements.trans h₁.statements)
  rw [Library.wp_bind]
  unfold sqlite3_close
  rw [Library.wp_bind, Library.wp_get, hd₃]
  dsimp only
  by_cases hzero : d₃.statements = 0
  · rw [if_pos hzero, Library.wp_bind, Library.wp_set, Library.wp_pure, Library.wp_bind,
      Library.wp_modify, Library.wp_pure]
    refine ⟨rfl, hfields, ht.owned, ?_, fun _ => ⟨rfl, by simp⟩, ?_⟩
    · intro a ha
      dsimp only
      rw [Heap.free_get, if_neg ha, hothers a ha]
    · intro hne
      exact absurd (hcount ▸ hzero) hne
  · rw [if_neg hzero, Library.wp_pure, Library.wp_bind, Library.wp_modify, Library.wp_pure]
    refine ⟨rfl, hfields, ht.owned, hothers, ?_, fun _ => ⟨rfl, d₃, hd₃, hcount, hsilent⟩⟩
    intro hcount'
    exact absurd (hcount.trans hcount') hzero

end Replacing

end Sqlite
end IdeMultiarch
