import IdeMultiarch.Sqlite.Handlers

/-!
# Sqlite - runs of a connection

What a sequence of calls does to the handlers of a connection.  For somebody who sets and removes
listeners a connection is open or closed, and an object listens for each kind of handler; contexts
and global references do not occur.

Main results:

- Theorem {lit}`wp_call`: every call keeps a connection safe.
- Theorem {lit}`handlers_refine`: a connection calls the listener that was set last, and closing it
  releases everything.
- Theorem {lit}`reopened_is_stale`: what happens when an open connection is opened again.
- Theorem {lit}`unfinalized_is_lost`: a database that is closed with statements stays for ever.
-/

namespace IdeMultiarch
namespace Sqlite

open Library (Heap wp)

/-! ## The listeners of a connection -/

/-- What a connection is for: it is open or not, and an object listens for each kind of handler. -/
structure Listeners where
  opened : Bool
  listener : Kind → Option Nat

namespace Listeners

/-- Nothing was opened yet. -/
def initial : Listeners := ⟨false, fun _ => none⟩

/-- The listener of an open connection is replaced. -/
def replace (σ : Listeners) (kind : Kind) (obj : Option Nat) : Listeners :=
  if σ.opened then { σ with listener := Function.update σ.listener kind obj } else σ

/-- What a call changes. -/
def step (σ : Listeners) : NativeCall → Listeners
  | .openDb opened => if opened then ⟨true, fun _ => none⟩ else σ
  | .closeDb => ⟨false, fun _ => none⟩
  | .busy_handler busyHandler => σ.replace .busy busyHandler
  | .busy_timeout _ => σ.replace .busy none
  | .set_update_listener enabled => σ.replace .update (if enabled then some nativeDB else none)
  | .set_commit_listener enabled => σ.replace .commit (if enabled then some nativeDB else none)
  | .prepare _ => σ
  | .finalize _ => σ
  | .fire _ _ => σ

/-- A listener is set on an open connection. -/
def Permits (σ : Listeners) : NativeCall → Prop
  | .set_update_listener _ => σ.opened = true
  | .set_commit_listener _ => σ.opened = true
  | _ => True

/-- A connection is opened when it is closed. -/
def OpensClosed (σ : Listeners) : NativeCall → Prop
  | .openDb true => σ.opened = false
  | _ => True

/-- A condition on every call of a sequence. -/
def Along (P : Listeners → NativeCall → Prop) : Listeners → List NativeCall → Prop
  | _, [] => True
  | σ, call :: calls => P σ call ∧ Along P (σ.step call) calls

/-- The object that a handler of the open database calls. -/
def told (σ : Listeners) (current : Bool) (hook : Hook) : Outcome :=
  match σ.listener hook.kind with
  | some obj => if current then .calls obj else .done
  | none => .done

theorem told_of_some {σ : Listeners} {hook : Hook} {obj : Nat}
    (h : σ.listener hook.kind = some obj) : σ.told true hook = .calls obj := by
  unfold told
  rw [h]
  rfl

theorem told_of_none {σ : Listeners} {hook : Hook} (h : σ.listener hook.kind = none)
    (current : Bool) : σ.told current hook = .done := by
  unfold told
  rw [h]

@[simp]
theorem told_false (σ : Listeners) (hook : Hook) : σ.told false hook = .done := by
  unfold told
  cases σ.listener hook.kind <;> rfl

end Listeners

variable {s : Native} {kind : Kind}

/-! ## The invariant -/

/-- A connection is safe: its pointers are good, nothing else is kept, and the open database calls the
listeners. -/
structure Safe (σ : Listeners) (s : Native) : Prop where
  owned : s.Owned
  opened : s.pointer.isSome = σ.opened
  present : ∀ db, s.pointer = some db → ∃ d, s.databases.get db = some d
  silent : ∀ db d hook, s.databases.get db = some d → s.pointer ≠ some db → d.context hook = none
  registered : ∀ db d hook ctx, s.databases.get db = some d → d.context hook = some ctx →
    s.fields hook.kind = some ctx
  heard : ∀ db d hook, s.pointer = some db → s.databases.get db = some d →
    (d.context hook).bind s.objectOf = σ.listener hook.kind
  closed : s.pointer = none → ∀ kind, s.fields kind = none

theorem Listeners.replace_of_opened {σ : Listeners} (h : σ.opened = true) (kind : Kind)
    (obj : Option Nat) :
    σ.replace kind obj = { σ with listener := Function.update σ.listener kind obj } := by
  unfold Listeners.replace
  rw [if_pos h]

theorem Listeners.replace_of_closed {σ : Listeners} (h : σ.opened = false) (kind : Kind)
    (obj : Option Nat) : σ.replace kind obj = σ := by
  unfold Listeners.replace
  rw [h]
  rfl

/-- Replacing a handler keeps a connection safe. -/
theorem Safe.swapped {σ : Listeners} {db : Nat} {d d' : Database} {obj ctx : Option Nat} {t : Native}
    (h : Safe σ s) (hdb : s.pointer = some db) (hd : s.databases.get db = some d)
    (ht : Swapped s db d kind obj ctx d' t) : Safe (σ.replace kind obj) t := by
  have hopened : σ.opened = true := by rw [← h.opened, hdb]; rfl
  refine ⟨ht.owned, ?_, ?_, ?_, ?_, ?_, ?_⟩
  · rw [ht.pointer, h.opened, Listeners.replace_of_opened hopened]
  · intro a ha
    rw [ht.pointer, hdb, Option.some.injEq] at ha
    exact ⟨d', by rw [ht.databases, if_pos ha.symm]⟩
  · intro a e hook he ha
    rw [ht.pointer] at ha
    rw [ht.databases, if_neg (fun heq => ha (by rw [heq, hdb]))] at he
    exact h.silent a e hook he ha
  · intro a e hook ctx' he hctx
    rw [ht.databases] at he
    rw [ht.fields]
    split at he
    · rw [Option.some.injEq] at he
      rw [← he, ht.context] at hctx
      split at hctx
      · rename_i hk
        rw [hk, Function.update_self, hctx]
      · rename_i hk
        rw [Function.update_of_ne hk]
        exact h.registered db d hook ctx' hd hctx
    · rename_i ha
      rw [h.silent a e hook he fun hcur => ha (by rw [hdb] at hcur; simpa using hcur.symm)] at hctx
      contradiction
  · intro a e hook ha he
    rw [ht.pointer, hdb, Option.some.injEq] at ha
    rw [ht.databases, if_pos ha.symm, Option.some.injEq] at he
    rw [← he, ht.context, Listeners.replace_of_opened hopened]
    dsimp only
    by_cases hk : hook.kind = kind
    · rw [if_pos hk, ht.made, hk, Function.update_self]
    · have hkept : (d.context hook).bind t.objectOf = (d.context hook).bind s.objectOf := by
        cases hctx : d.context hook with
        | none => rfl
        | some a' => exact ht.kept _ a' hk (h.registered db d hook a' hd hctx)
      rw [if_neg hk, hkept, h.heard db d hook hdb hd, Function.update_of_ne hk]
  · intro hclosed
    rw [ht.pointer, hdb] at hclosed
    contradiction

/-- A connection that was closed is safe. -/
theorem Safe.left {σ : Listeners} {db : Nat} {d : Database} {out : Outcome} {t : Native}
    (h : Safe σ s) (hdb : s.pointer = some db) (ht : Left s db d out t) :
    Safe ⟨false, fun _ => none⟩ t := by
  have hsilent : ∀ a e hook, t.databases.get a = some e → e.context hook = none := by
    intro a e hook he
    by_cases ha : a = db
    · subst ha
      by_cases hzero : d.statements = 0
      · rw [(ht.closed hzero).2] at he
        contradiction
      · obtain ⟨-, d', hd', -, hnone⟩ := ht.busy hzero
        rw [hd', Option.some.injEq] at he
        rw [← he]
        exact hnone hook
    · rw [ht.others a ha] at he
      exact h.silent a e hook he fun hcur => ha (by rw [hdb] at hcur; simpa using hcur.symm)
  refine ⟨ht.owned, by rw [ht.pointer]; rfl, ?_, fun a e hook he _ => hsilent a e hook he, ?_, ?_,
    fun _ => ht.fields⟩
  · intro a ha
    rw [ht.pointer] at ha
    contradiction
  · intro a e hook ctx he hctx
    rw [hsilent a e hook he] at hctx
    contradiction
  · intro a e hook ha
    rw [ht.pointer] at ha
    contradiction

/-- A database changes, and it calls the listeners that are left. -/
theorem Safe.modify {σ σ' : Listeners} (h : Safe σ s) (db : Nat) {f : Database → Database}
    (hopened : σ'.opened = σ.opened)
    (hsub : ∀ d hook ctx, (f d).context hook = some ctx → d.context hook = some ctx)
    (hheard : ∀ d hook, s.pointer = some db → s.databases.get db = some d →
      ((f d).context hook).bind s.objectOf = σ'.listener hook.kind)
    (hother : s.pointer ≠ some db → σ'.listener = σ.listener) :
    Safe σ' { s with databases := s.databases.modify db f } := by
  have hget : ∀ a d', (s.databases.modify db f).get a = some d' →
      ∃ d, s.databases.get a = some d ∧ (d' = d ∨ d' = f d) := by
    intro a d' hd'
    rw [Heap.modify_get] at hd'
    split at hd'
    · rename_i ha
      obtain ⟨d, hd, rfl⟩ := Option.map_eq_some_iff.mp hd'
      exact ⟨d, ha ▸ hd, Or.inr rfl⟩
    · exact ⟨d', hd', Or.inl rfl⟩
  have hcontext : ∀ d d' hook ctx, d' = d ∨ d' = f d → d'.context hook = some ctx →
      d.context hook = some ctx := by
    rintro d d' hook ctx (rfl | rfl) hctx
    · exact hctx
    · exact hsub d hook ctx hctx
  refine ⟨h.owned, h.opened.trans hopened.symm, ?_, ?_, ?_, ?_, h.closed⟩
  · intro a ha
    obtain ⟨d, hd⟩ := h.present a ha
    by_cases hadb : a = db
    · subst hadb
      exact ⟨f d, by simp [hd]⟩
    · exact ⟨d, by simp [hadb, hd]⟩
  · intro a d' hook hd' ha
    obtain ⟨d, hd, hsame⟩ := hget a d' hd'
    rw [Option.eq_none_iff_forall_ne_some]
    intro ctx hctx
    have hnone := h.silent a d hook hd ha
    rw [hcontext d d' hook ctx hsame hctx] at hnone
    contradiction
  · intro a d' hook ctx hd' hctx
    obtain ⟨d, hd, hsame⟩ := hget a d' hd'
    exact h.registered a d hook ctx hd (hcontext d d' hook ctx hsame hctx)
  · intro a d' hook ha hd'
    dsimp only at ha hd'
    rw [Heap.modify_get] at hd'
    split at hd'
    · rename_i hadb
      obtain ⟨d, hd, rfl⟩ := Option.map_eq_some_iff.mp hd'
      exact hheard d hook (hadb ▸ ha) hd
    · rename_i hadb
      rw [hother fun hdb => hadb (by simpa [hdb] using ha.symm)]
      exact h.heard a d' hook ha hd'

/-- A database changes, but not its handlers. -/
theorem Safe.modify_statements {σ : Listeners} (h : Safe σ s) (db : Nat) {f : Database → Database}
    (hf : ∀ d hook, (f d).context hook = d.context hook) :
    Safe σ { s with databases := s.databases.modify db f } := by
  refine h.modify db rfl ?_ ?_ fun _ => rfl
  · intro d hook ctx hctx
    rw [← hf, hctx]
  · intro d hook hdb hd
    rw [hf]
    exact h.heard db d hook hdb hd

/-- A timeout silences the listener that is asked when a database is busy. -/
theorem Safe.busy_timeout {σ : Listeners} (h : Safe σ s) {db : Nat} (hdb : s.pointer = some db)
    (ms : Int) :
    Safe (σ.replace .busy none) { s with databases := s.databases.modify db fun d =>
      { d with busy := if ms > 0 then .timeout ms else .none } } := by
  have hopened : σ.opened = true := by rw [← h.opened, hdb]; rfl
  rw [Listeners.replace_of_opened hopened]
  refine h.modify db rfl ?_ ?_ fun hne => absurd hdb hne
  · intro d hook ctx hctx
    cases hook with
    | busy => split_ifs at hctx <;> contradiction
    | update => exact hctx
    | commit => exact hctx
    | rollback => exact hctx
  · intro d hook _ hd
    have hheard := h.heard db d hook hdb hd
    cases hook with
    | busy => split_ifs <;> rfl
    | update => exact hheard
    | commit => exact hheard
    | rollback => exact hheard

/-- A closed connection is opened. -/
theorem Safe.open {σ : Listeners} (h : Safe σ s) (hclosed : s.pointer = none) :
    Safe ⟨true, fun _ => none⟩ { s with
      databases := s.databases.alloc ⟨.none, none, none, none, 0⟩
      pointer := some s.databases.next } := by
  have hsilent : ∀ a d hook, (s.databases.alloc ⟨.none, none, none, none, 0⟩).get a = some d →
      d.context hook = none := by
    intro a d hook hd
    rw [Heap.alloc_get] at hd
    split at hd
    · rw [Option.some.injEq] at hd
      rw [← hd]
      cases hook <;> rfl
    · exact h.silent a d hook hd (by rw [hclosed]; nofun)
  refine ⟨h.owned, rfl, ?_, fun a d hook hd _ => hsilent a d hook hd, ?_, ?_, nofun⟩
  · intro a ha
    rw [Option.some.injEq] at ha
    exact ⟨_, by rw [← ha, Heap.alloc_get, if_pos rfl]⟩
  · intro a d hook ctx hd hctx
    rw [hsilent a d hook hd] at hctx
    contradiction
  · intro a d hook _ hd
    rw [hsilent a d hook hd]
    rfl

/-! ## Runs -/

theorem Safe.initial : Safe .initial Native.initial where
  owned := Owned.empty.congr fun kind ctx => by simp [Native.initial]
  opened := rfl
  present := nofun
  silent := by intro db d hook hd; simp [Native.initial] at hd
  registered := by intro db d hook ctx hd; simp [Native.initial] at hd
  heard := nofun
  closed := fun _ _ => rfl

/-- The object that a handler calls. -/
theorem Safe.run_fire {σ : Listeners} (h : Safe σ s) (db : Nat) (hook : Hook) :
    (fire db hook).run s = .ok (σ.told (s.pointer = some db) hook, s) := by
  unfold fire
  rw [Library.run_bind_of_run (t := s) (a := s) rfl]
  cases hd : s.databases.get db with
  | none =>
      have hne : s.pointer ≠ some db := by
        intro hdb
        obtain ⟨d, hd'⟩ := h.present db hdb
        rw [hd] at hd'
        contradiction
      rw [decide_eq_false hne, Listeners.told_false]
      rfl
  | some d =>
      dsimp only
      cases hctx : d.context hook with
      | none =>
          by_cases hdb : s.pointer = some db
          · have hheard := h.heard db d hook hdb hd
            rw [hctx] at hheard
            rw [Listeners.told_of_none hheard.symm]
            rfl
          · rw [decide_eq_false hdb, Listeners.told_false]
            rfl
      | some ctx =>
          have hdb : s.pointer = some db := by
            by_contra hne
            rw [h.silent db d hook hd hne] at hctx
            contradiction
          obtain ⟨c, obj, hc, -, hobj⟩ := h.owned.live _ ctx (h.registered db d hook ctx hd hctx)
          have hheard : some obj = σ.listener hook.kind := by
            rw [← h.heard db d hook hdb hd, hctx, Option.bind_some, Native.objectOf, objectOf, hc,
              Option.bind_some, hobj]
          rw [decide_eq_true hdb, Listeners.told_of_some hheard.symm]
          dsimp only
          unfold callBack
          rw [Library.run_bind_of_run (t := s) (a := s) rfl, hc]
          dsimp only
          rw [hobj]
          rfl

theorem Safe.opened_of_some {σ : Listeners} (h : Safe σ s) {db : Nat} (hdb : s.pointer = some db) :
    σ.opened = true := by
  rw [← h.opened, hdb]
  rfl

theorem Safe.opened_of_none {σ : Listeners} (h : Safe σ s) (hclosed : s.pointer = none) :
    σ.opened = false := by
  rw [← h.opened, hclosed]
  rfl

/-- A safe connection that is closed remains so. -/
theorem Safe.closedDb {σ : Listeners} (h : Safe σ s) (hclosed : s.pointer = none) :
    Safe ⟨false, fun _ => none⟩ s :=
  ⟨h.owned, by rw [hclosed]; rfl, h.present, h.silent, h.registered,
    fun db d hook hdb => by rw [hclosed] at hdb; contradiction, h.closed⟩

/-- A listener is set without a database. -/
theorem wp_set_listener_null {σ : Listeners} (h : Safe σ s) (hclosed : s.pointer = none)
    {call : NativeCall} (hcall : (∃ enabled, call = .set_update_listener enabled) ∨
      ∃ enabled, call = .set_commit_listener enabled) (Q : Outcome → Native → Prop) :
    wp (fun fault => fault = .nullDatabase ∧ ¬ σ.Permits call) call.run Q s := by
  have hforbidden : ¬ σ.Permits call := by
    rcases hcall with ⟨enabled, rfl⟩ | ⟨enabled, rfl⟩ <;>
      simp [Listeners.Permits, h.opened_of_none hclosed]
  have hnull : wp (fun fault => fault = .nullDatabase) call.run Q s := by
    rcases hcall with ⟨enabled, rfl⟩ | ⟨enabled, rfl⟩
    · unfold NativeCall.run set_update_listener
      rw [Library.wp_bind]
      refine wp_replaceHandler_null h.owned hclosed (fun ctx t ht => ?_) _ _
      unfold gethandle
      rw [bind_assoc, Library.run_bind_of_run (t := t) (a := t) rfl, pure_bind, ht]
      rfl
    · unfold NativeCall.run set_commit_listener gethandle
      rw [Library.wp_bind, Library.wp_bind, Library.wp_get, Library.wp_pure, hclosed,
        Library.wp_bind]
      exact wp_replaceHandler_null h.owned hclosed (fun ctx t _ => rfl) _ _
  exact Library.wp_mono hnull (fun _ _ hQ => hQ) fun _ hfault => ⟨hfault, hforbidden⟩

/-- One call. -/
theorem wp_call {σ : Listeners} (h : Safe σ s) (call : NativeCall) (hopen : σ.OpensClosed call) :
    wp (fun fault => fault = .nullDatabase ∧ ¬ σ.Permits call) call.run
      (fun _ t => σ.Permits call ∧ Safe (σ.step call) t) s := by
  have hpointer : s.pointer = none ∨ ∃ db d, s.pointer = some db ∧ s.databases.get db = some d := by
    cases hdb : s.pointer with
    | none => exact Or.inl rfl
    | some db =>
        obtain ⟨d, hd⟩ := h.present db hdb
        exact Or.inr ⟨db, d, rfl, hd⟩
  have hnever : ∀ fault, Never fault → fault = Fault.nullDatabase ∧ ¬ σ.Permits call :=
    fun _ hfault => hfault.elim
  cases call with
  | openDb opened =>
      cases opened with
      | false => exact ⟨trivial, h⟩
      | true =>
          have hclosed : s.pointer = none := by
            rw [← Option.not_isSome_iff_eq_none, h.opened, hopen]
            exact Bool.false_ne_true
          exact ⟨trivial, h.open hclosed⟩
  | closeDb =>
      rcases hpointer with hclosed | ⟨db, d, hdb, hd⟩
      · unfold NativeCall.run closeDb gethandle
        rw [Library.wp_bind, Library.wp_bind, Library.wp_get, Library.wp_pure, hclosed]
        exact ⟨trivial, h.closedDb hclosed⟩
      · refine Library.wp_mono (wp_closeDb h.owned hdb hd) (fun out t ht => ?_) hnever
        exact ⟨trivial, h.left hdb ht⟩
  | busy_handler busyHandler =>
      rcases hpointer with hclosed | ⟨db, d, hdb, hd⟩
      · unfold NativeCall.run change_busy_handler gethandle
        rw [Library.wp_bind, Library.wp_bind, Library.wp_get, Library.wp_pure, hclosed]
        refine ⟨trivial, ?_⟩
        rw [Listeners.step, Listeners.replace_of_closed (h.opened_of_none hclosed)]
        exact h
      · refine Library.wp_mono (wp_change_busy_handler h.owned hdb hd busyHandler) ?_ hnever
        rintro out t ⟨-, ctx, d', ht⟩
        exact ⟨trivial, h.swapped hdb hd ht⟩
  | busy_timeout ms =>
      unfold NativeCall.run busy_timeout gethandle
      rw [Library.wp_bind, Library.wp_bind, Library.wp_get, Library.wp_pure]
      rcases hpointer with hclosed | ⟨db, d, hdb, hd⟩
      · rw [hclosed]
        refine ⟨trivial, ?_⟩
        rw [Listeners.step, Listeners.replace_of_closed (h.opened_of_none hclosed)]
        exact h
      · rw [hdb]
        dsimp only
        rw [Library.wp_bind]
        exact Library.wp_of_run (run_withDatabase hd _) ⟨trivial, h.busy_timeout hdb ms⟩
  | set_update_listener enabled =>
      rcases hpointer with hclosed | ⟨db, d, hdb, hd⟩
      · exact wp_set_listener_null h hclosed (Or.inl ⟨enabled, rfl⟩) _
      · refine Library.wp_mono (wp_set_update_listener h.owned hdb hd enabled) ?_ hnever
        rintro out t ⟨-, ctx, d', ht⟩
        exact ⟨h.opened_of_some hdb, h.swapped hdb hd ht⟩
  | set_commit_listener enabled =>
      rcases hpointer with hclosed | ⟨db, d, hdb, hd⟩
      · exact wp_set_listener_null h hclosed (Or.inr ⟨enabled, rfl⟩) _
      · refine Library.wp_mono (wp_set_commit_listener h.owned hdb hd enabled) ?_ hnever
        rintro out t ⟨-, ctx, d', ht⟩
        exact ⟨h.opened_of_some hdb, h.swapped hdb hd ht⟩
  | prepare accepted =>
      unfold NativeCall.run prepare gethandle
      rw [Library.wp_bind, Library.wp_bind, Library.wp_get, Library.wp_pure]
      rcases hpointer with hclosed | ⟨db, d, hdb, hd⟩
      · rw [hclosed]
        exact ⟨trivial, h⟩
      · rw [hdb]
        cases accepted with
        | false => exact ⟨trivial, h⟩
        | true =>
            dsimp only
            rw [if_pos rfl, Library.wp_bind]
            refine Library.wp_of_run (run_withDatabase hd _) ⟨trivial, ?_⟩
            exact h.modify_statements db fun _ hook => by cases hook <;> rfl
  | finalize db =>
      unfold NativeCall.run finalize
      rw [Library.wp_bind, Library.wp_get]
      cases hd : s.databases.get db with
      | none => exact ⟨trivial, h⟩
      | some d =>
          dsimp only
          by_cases hzero : d.statements = 0
          · rw [if_neg (by simpa using hzero)]
            exact ⟨trivial, h⟩
          · rw [if_pos hzero, Library.wp_bind]
            refine Library.wp_of_run (run_withDatabase hd _) ⟨trivial, ?_⟩
            exact h.modify_statements db fun _ hook => by cases hook <;> rfl
  | fire db hook => exact Library.wp_of_run (h.run_fire db hook) ⟨trivial, h⟩

/-- One call more. -/
theorem performCalls_cons (s : Native) (call : NativeCall) (calls : List NativeCall) :
    performCalls s (call :: calls) =
      (call.run.run s).bind fun r => performCalls r.2 calls := by
  unfold performCalls
  rw [List.foldlM_cons]
  cases call.run.run s <;> rfl

/-- What a sequence of calls makes of a safe connection. -/
theorem Safe.performCalls {σ : Listeners} (h : Safe σ s) {calls : List NativeCall}
    (hopen : Listeners.Along Listeners.OpensClosed σ calls) :
    match performCalls s calls with
    | .error fault => fault = .nullDatabase ∧ ¬ Listeners.Along Listeners.Permits σ calls
    | .ok t => Listeners.Along Listeners.Permits σ calls ∧ Safe (calls.foldl Listeners.step σ) t := by
  induction calls generalizing σ s with
  | nil => exact ⟨trivial, h⟩
  | cons call calls ih =>
      have hcall := wp_call h call hopen.1
      rw [performCalls_cons]
      cases hrun : call.run.run s with
      | error fault =>
          obtain ⟨hfault, hforbidden⟩ := Library.fault_of_wp hcall hrun
          exact ⟨hfault, fun halong => hforbidden halong.1⟩
      | ok r =>
          obtain ⟨hpermits, hsafe⟩ := Library.run_of_wp hcall hrun
          have hrest := ih hsafe hopen.2
          dsimp only [Except.bind]
          cases hcalls : Sqlite.performCalls r.2 calls with
          | error fault =>
              rw [hcalls] at hrest
              exact ⟨hrest.1, fun halong => hrest.2 halong.2⟩
          | ok t =>
              rw [hcalls] at hrest
              exact ⟨⟨hpermits, hrest.1⟩, hrest.2⟩

/-- A connection does what it is for: the open database calls the listeners, a context that exists is
found through its field, and a closed connection keeps nothing. -/
structure Serves (σ : Listeners) (s : Native) : Prop where
  tells : ∀ db hook, (fire db hook).run s = .ok (σ.told (s.pointer = some db) hook, s)
  kept : ∀ ctx c, s.contexts.get ctx = some c → s.fields c.kind = some ctx
  released : σ.opened = false →
    (∀ ctx, s.contexts.get ctx = none) ∧ ∀ ref, s.refs.get ref = none

theorem Safe.serves {σ : Listeners} (h : Safe σ s) : Serves σ s where
  tells := h.run_fire
  kept := h.owned.rooted
  released := by
    intro hopened
    have hclosed : s.pointer = none := by
      rw [← Option.not_isSome_iff_eq_none, h.opened, hopened]
      exact Bool.false_ne_true
    refine h.owned.released fun kind ctx hfield => ?_
    rw [h.closed hclosed] at hfield
    contradiction

/-- A connection that is opened only when it is closed does what it is for, whatever else is called in
whatever order.  The one thing that goes wrong is a listener that is set while it is closed. -/
theorem handlers_refine (calls : List NativeCall)
    (hopen : Listeners.Along Listeners.OpensClosed .initial calls) :
    match performCalls Native.initial calls with
    | .error fault => fault = .nullDatabase ∧ ¬ Listeners.Along Listeners.Permits .initial calls
    | .ok s => Listeners.Along Listeners.Permits .initial calls ∧
        Serves (calls.foldl Listeners.step .initial) s := by
  have h := Safe.initial.performCalls hopen
  cases hcalls : performCalls Native.initial calls with
  | error fault =>
      rw [hcalls] at h
      exact h
  | ok s =>
      rw [hcalls] at h
      exact ⟨h.1, h.2.serves⟩

/-- Two listeners are set, a statement is left, and the connection is closed. -/
def listenAndClose : List NativeCall :=
  [.openDb true, .set_update_listener true, .busy_handler (some 7), .busy_timeout 100,
    .prepare true, .fire 0 .update, .closeDb]

/-- Nothing goes wrong, and the closed connection keeps nothing. -/
theorem handlers_refine_small :
    ∃ s, performCalls Native.initial listenAndClose = .ok s ∧
      Serves (listenAndClose.foldl Listeners.step .initial) s ∧
      (∀ ctx, s.contexts.get ctx = none) ∧ ∀ ref, s.refs.get ref = none := by
  have hrefine := handlers_refine listenAndClose
    ⟨rfl, trivial, trivial, trivial, trivial, trivial, trivial, trivial⟩
  have hok : (performCalls Native.initial listenAndClose).toBool = true := by
    decide +kernel
  cases hcalls : performCalls Native.initial listenAndClose with
  | error fault =>
      rw [hcalls] at hok
      cases hok
  | ok s =>
      rw [hcalls] at hrefine
      obtain ⟨-, hserves⟩ := hrefine
      obtain ⟨hcontexts, hrefs⟩ := hserves.released (by decide)
      exact ⟨s, rfl, hserves, hcontexts, hrefs⟩

/-! ## Opening an open connection -/

/-- A connection with listeners is opened once more and closed.  The first database still has its
handlers, but the contexts are freed. -/
theorem reopened_is_stale (calls : List NativeCall)
    (hopen : Listeners.Along Listeners.OpensClosed .initial calls) {s : Native}
    (hs : performCalls Native.initial calls = .ok s) {db : Nat} (hdb : s.pointer = some db)
    {hook : Hook} {obj : Nat}
    (hlistens : (calls.foldl Listeners.step .initial).listener hook.kind = some obj) :
    performCalls s [.openDb true, .closeDb, .fire db hook] = .error .staleContext := by
  have h := Safe.initial.performCalls hopen
  rw [hs] at h
  have hsafe := h.2
  obtain ⟨d, hd⟩ := hsafe.present db hdb
  obtain ⟨ctx, hctx⟩ : ∃ ctx, d.context hook = some ctx := by
    rw [← Option.ne_none_iff_exists']
    intro hnone
    have hheard := hsafe.heard db d hook hdb hd
    rw [hnone, hlistens] at hheard
    contradiction
  -- the second database takes the place of the first one
  let s' : Native := { s with
    databases := s.databases.alloc ⟨.none, none, none, none, 0⟩
    pointer := some s.databases.next }
  have hdb' : s'.databases.get s.databases.next = some ⟨.none, none, none, none, 0⟩ := by
    simp [s']
  obtain ⟨out, t, hrun, hleft⟩ := Library.exists_run_of_wp (wp_closeDb (s := s') hsafe.owned rfl hdb')
  have hne : db ≠ s.databases.next := Nat.ne_of_lt (Heap.lt_next hd)
  have hd' : t.databases.get db = some d := by
    rw [hleft.others db hne, Heap.alloc_get, if_neg hne, hd]
  have hfreed : t.contexts.get ctx = none := by
    refine (hleft.owned.released fun kind a hfield => ?_).1 ctx
    rw [hleft.fields] at hfield
    contradiction
  have hfire : (fire db hook).run t = .error .staleContext := by
    unfold fire
    rw [Library.run_bind_of_run (t := t) (a := t) rfl, hd']
    dsimp only
    rw [hctx]
    dsimp only
    unfold callBack
    rw [Library.run_bind_of_run (t := t) (a := t) rfl, hfreed]
    rfl
  have hopenDb : (NativeCall.openDb true).run.run s = .ok (.done, s') := rfl
  rw [performCalls_cons, hopenDb]
  dsimp only [Except.bind]
  rw [performCalls_cons, show NativeCall.closeDb.run = closeDb from rfl, hrun]
  dsimp only [Except.bind]
  rw [performCalls_cons, show (NativeCall.fire db hook).run = fire db hook from rfl, hfire]
  rfl

theorem reopened_is_stale_small :
    ∃ s, performCalls Native.initial [.openDb true, .set_commit_listener true] = .ok s ∧
      performCalls s [.openDb true, .closeDb, .fire 0 .rollback] = .error .staleContext :=
  ⟨_, rfl, reopened_is_stale [.openDb true, .set_commit_listener true] ⟨rfl, trivial, trivial⟩ rfl rfl
    rfl⟩

/-! ## Databases that are lost -/

/-- How many statements of a database are not finalized, if it exists. -/
def Native.statements (s : Native) (db : Nat) : Option Nat :=
  (s.databases.get db).map Database.statements

/-- Neither the open database nor any statement changed. -/
structure Quiet (s t : Native) : Prop where
  pointer : t.pointer = s.pointer
  next : t.databases.next = s.databases.next
  statements : t.statements = s.statements

theorem Quiet.refl (s : Native) : Quiet s s := ⟨rfl, rfl, rfl⟩

theorem Quiet.trans (s t u : Native) (h : Quiet s t) (h' : Quiet t u) : Quiet s u :=
  ⟨h'.pointer.trans h.pointer, h'.next.trans h.next, h'.statements.trans h.statements⟩

theorem run_withDatabase_eq_ok {db : Option Nat} {f : Database → Database} {s t : Native} {a : Unit}
    (hrun : (withDatabase db f).run s = .ok (a, t)) :
    ∃ a d, db = some a ∧ s.databases.get a = some d ∧
      t = { s with databases := s.databases.modify a f } := by
  cases db with
  | none => contradiction
  | some db =>
      unfold withDatabase at hrun
      rw [Library.run_bind_of_run (t := s) (a := s) rfl] at hrun
      cases hd : s.databases.get db with
      | none =>
          rw [hd] at hrun
          contradiction
      | some d =>
          rw [hd] at hrun
          cases hrun
          exact ⟨db, d, rfl, hd, rfl⟩

theorem quiet_withDatabase (db : Option Nat) {f : Database → Database}
    (hf : ∀ d, (f d).statements = d.statements) : Library.Respects Quiet (withDatabase db f) := by
  intro s a t hrun
  obtain ⟨db, d, -, hd, rfl⟩ := run_withDatabase_eq_ok hrun
  refine ⟨rfl, rfl, funext fun b => ?_⟩
  unfold Native.statements
  rw [Heap.modify_get]
  split
  · rename_i hb
    rw [hb, hd, Option.map_some, Option.map_some, Option.map_some, hf]
  · rfl

theorem quiet_gethandle : Library.Respects Quiet gethandle :=
  Library.Respects.bind Quiet.trans (Library.Respects.get Quiet.refl) fun s =>
    Library.Respects.pure Quiet.refl s.pointer

theorem quiet_newHandler (kind : Kind) (obj : Option Nat) :
    Library.Respects Quiet (newHandler kind obj) := by
  intro s a t hrun
  cases obj <;> cases hrun <;> exact ⟨rfl, rfl, rfl⟩

theorem quiet_freeHandler (ctx : Nat) : Library.Respects Quiet (freeHandler ctx) := by
  intro s a t hrun
  unfold freeHandler at hrun
  rw [Library.run_bind_of_run (t := s) (a := s) rfl] at hrun
  split at hrun
  · contradiction
  · split at hrun
    · contradiction
    · cases hrun
      exact ⟨rfl, rfl, rfl⟩

theorem quiet_set_new_handler (kind : Kind) (newHandler : Option Nat) :
    Library.Respects Quiet (set_new_handler kind newHandler) := by
  have hset : Library.Respects (E := Fault) Quiet
      (modify fun s => { s with fields := Function.update s.fields kind newHandler }) :=
    Library.Respects.modify fun s => ⟨rfl, rfl, rfl⟩
  unfold set_new_handler
  refine Library.Respects.bind Quiet.trans (Library.Respects.get Quiet.refl) fun s => ?_
  cases s.fields kind with
  | none => exact hset
  | some toFree => exact Library.Respects.bind Quiet.trans (quiet_freeHandler toFree) fun _ => hset

theorem quiet_replaceHandler (kind : Kind) (obj : Option Nat) {tell : Option Nat → NativeM Unit}
    (htell : ∀ ctx, Library.Respects Quiet (tell ctx)) :
    Library.Respects Quiet (replaceHandler kind obj tell) :=
  Library.Respects.bind Quiet.trans (quiet_newHandler kind obj) fun ctx =>
    Library.Respects.bind Quiet.trans (htell ctx) fun _ => quiet_set_new_handler kind ctx

theorem quiet_change_busy_handler (obj : Option Nat) :
    Library.Respects Quiet (change_busy_handler obj) := by
  refine Library.Respects.bind Quiet.trans quiet_gethandle fun db => ?_
  cases db with
  | none => exact Library.Respects.pure Quiet.refl _
  | some db =>
      refine Library.Respects.bind Quiet.trans (quiet_replaceHandler .busy obj fun ctx => ?_)
        fun _ => Library.Respects.pure Quiet.refl _
      exact quiet_withDatabase _ fun _ => rfl

theorem quiet_set_update_listener (enabled : Bool) :
    Library.Respects Quiet (set_update_listener enabled) := by
  refine Library.Respects.bind Quiet.trans (quiet_replaceHandler _ _ fun ctx => ?_)
    fun _ => Library.Respects.pure Quiet.refl _
  refine Library.Respects.bind Quiet.trans quiet_gethandle fun db => ?_
  exact quiet_withDatabase _ fun _ => rfl

theorem quiet_set_commit_listener (enabled : Bool) :
    Library.Respects Quiet (set_commit_listener enabled) := by
  refine Library.Respects.bind Quiet.trans quiet_gethandle fun db => ?_
  refine Library.Respects.bind Quiet.trans (quiet_replaceHandler _ _ fun ctx => ?_)
    fun _ => Library.Respects.pure Quiet.refl _
  exact Library.Respects.bind Quiet.trans (quiet_withDatabase _ fun _ => rfl) fun _ =>
    quiet_withDatabase _ fun _ => rfl

/-- Closing is the three removals, and then the open database is given to SQLite. -/
theorem run_closeDb_eq_ok {s t : Native} {out : Outcome} {db : Nat} (hdb : s.pointer = some db)
    (hrun : closeDb.run s = .ok (out, t)) :
    ∃ u d, Quiet s u ∧ u.databases.get db = some d ∧ t.pointer = none ∧
      t.databases = if d.statements = 0 then u.databases.free db else u.databases := by
  unfold closeDb gethandle at hrun
  rw [bind_assoc, Library.run_bind_of_run (t := s) (a := s) rfl, pure_bind, hdb] at hrun
  obtain ⟨_, s₁, hrun₁, hrun⟩ := Library.run_bind_eq_ok hrun
  obtain ⟨_, s₂, hrun₂, hrun⟩ := Library.run_bind_eq_ok hrun
  obtain ⟨_, u, hrun₃, hrun⟩ := Library.run_bind_eq_ok hrun
  have hquiet : Quiet s u :=
    Quiet.trans _ _ _ (quiet_change_busy_handler _ _ _ _ hrun₁)
      (Quiet.trans _ _ _ (quiet_set_commit_listener _ _ _ _ hrun₂)
        (quiet_set_update_listener _ _ _ _ hrun₃))
  unfold sqlite3_close at hrun
  rw [bind_assoc, Library.run_bind_of_run (t := u) (a := u) rfl] at hrun
  cases hd : u.databases.get db with
  | none =>
      rw [hd] at hrun
      contradiction
  | some d =>
      rw [hd] at hrun
      dsimp only at hrun
      by_cases hzero : d.statements = 0
      · rw [if_pos hzero] at hrun
        cases hrun
        exact ⟨u, d, hquiet, hd, rfl, by rw [if_pos hzero]⟩
      · rw [if_neg hzero] at hrun
        cases hrun
        exact ⟨u, d, hquiet, hd, rfl, by rw [if_neg hzero]⟩

/-- The databases that exist and are not the open one stay what they are. -/
def Leaves (s t : Native) : Prop :=
  ∀ db, s.pointer ≠ some db → db < s.databases.next →
    t.pointer ≠ some db ∧ db < t.databases.next ∧
      ((t.statements db).isSome ↔ (s.statements db).isSome)

theorem Leaves.refl (s : Native) : Leaves s s :=
  fun _ hdb hnext => ⟨hdb, hnext, Iff.rfl⟩

theorem Leaves.trans {s t u : Native} (h : Leaves s t) (h' : Leaves t u) : Leaves s u := by
  intro db hdb hnext
  obtain ⟨hdbt, hnextt, hsame⟩ := h db hdb hnext
  obtain ⟨hdbu, hnextu, hsame'⟩ := h' db hdbt hnextt
  exact ⟨hdbu, hnextu, hsame'.trans hsame⟩

theorem Quiet.leaves {s t : Native} (h : Quiet s t) : Leaves s t := by
  intro db hdb hnext
  rw [h.pointer, h.next, h.statements]
  exact ⟨hdb, hnext, Iff.rfl⟩

/-- A function of SQLite does not make or free a database. -/
theorem leaves_withDatabase {db : Option Nat} {f : Database → Database} {s t : Native} {a : Unit}
    (hrun : (withDatabase db f).run s = .ok (a, t)) : Leaves s t := by
  obtain ⟨db, d, -, hd, rfl⟩ := run_withDatabase_eq_ok hrun
  intro b hb hnext
  refine ⟨hb, hnext, ?_⟩
  unfold Native.statements
  rw [Heap.modify_get]
  split
  · rename_i heq
    rw [heq, hd]
    rfl
  · rfl

theorem leaves_closeDb {s t : Native} {out : Outcome} (hrun : closeDb.run s = .ok (out, t)) :
    Leaves s t := by
  cases hdb : s.pointer with
  | none =>
      unfold closeDb gethandle at hrun
      rw [bind_assoc, Library.run_bind_of_run (t := s) (a := s) rfl, pure_bind, hdb] at hrun
      cases hrun
      exact Leaves.refl s
  | some cur =>
      obtain ⟨u, d, hquiet, -, hpointer, hdatabases⟩ := run_closeDb_eq_ok hdb hrun
      refine hquiet.leaves.trans fun db hne hnext => ?_
      rw [hquiet.pointer, hdb] at hne
      have hcur : db ≠ cur := fun heq => hne (by rw [heq])
      refine ⟨by rw [hpointer]; nofun, ?_, ?_⟩
      · rw [hdatabases]
        split <;> exact hnext
      · unfold Native.statements
        rw [hdatabases]
        split
        · rw [Heap.free_get, if_neg hcur]
        · rfl

/-- A handler that is called changes nothing by itself. -/
theorem same_callBack (ctx : Nat) : Library.Respects (fun s t => t = s) (callBack ctx) := by
  intro s out t hrun
  unfold callBack at hrun
  rw [Library.run_bind_of_run (t := s) (a := s) rfl] at hrun
  split at hrun
  · contradiction
  · split at hrun
    · contradiction
    · cases hrun
      rfl

theorem same_fire (db : Nat) (hook : Hook) : Library.Respects (fun s t => t = s) (fire db hook) := by
  intro s out t hrun
  unfold fire at hrun
  rw [Library.run_bind_of_run (t := s) (a := s) rfl] at hrun
  split at hrun
  · cases hrun
    rfl
  · split at hrun
    · cases hrun
      rfl
    · exact same_callBack _ s out t hrun

/-- One call. -/
theorem leaves_call {call : NativeCall} {s t : Native} {out : Outcome}
    (hrun : call.run.run s = .ok (out, t)) : Leaves s t := by
  cases call with
  | openDb opened =>
      cases opened with
      | false =>
          cases hrun
          exact Leaves.refl s
      | true =>
          cases hrun
          intro db _ hnext
          refine ⟨?_, Nat.lt_succ_of_lt hnext, ?_⟩
          · intro heq
            rw [Option.some.injEq] at heq
            exact Nat.ne_of_lt hnext heq.symm
          · unfold Native.statements
            rw [Heap.alloc_get, if_neg (Nat.ne_of_lt hnext)]
  | closeDb => exact leaves_closeDb hrun
  | busy_handler busyHandler => exact (quiet_change_busy_handler _ _ _ _ hrun).leaves
  | set_update_listener enabled => exact (quiet_set_update_listener _ _ _ _ hrun).leaves
  | set_commit_listener enabled => exact (quiet_set_commit_listener _ _ _ _ hrun).leaves
  | busy_timeout ms =>
      change (Sqlite.busy_timeout ms).run s = _ at hrun
      unfold Sqlite.busy_timeout gethandle at hrun
      rw [bind_assoc, Library.run_bind_of_run (t := s) (a := s) rfl, pure_bind] at hrun
      cases hdb : s.pointer with
      | none =>
          rw [hdb] at hrun
          cases hrun
          exact Leaves.refl s
      | some db =>
          rw [hdb] at hrun
          obtain ⟨_, u, hrun, hpure⟩ := Library.run_bind_eq_ok hrun
          cases hpure
          exact leaves_withDatabase hrun
  | prepare accepted =>
      change (Sqlite.prepare accepted).run s = _ at hrun
      unfold Sqlite.prepare gethandle at hrun
      rw [bind_assoc, Library.run_bind_of_run (t := s) (a := s) rfl, pure_bind] at hrun
      cases hdb : s.pointer with
      | none =>
          rw [hdb] at hrun
          cases hrun
          exact Leaves.refl s
      | some db =>
          rw [hdb] at hrun
          cases accepted with
          | false =>
              cases hrun
              exact Leaves.refl s
          | true =>
              obtain ⟨_, u, hrun, hpure⟩ := Library.run_bind_eq_ok hrun
              cases hpure
              exact leaves_withDatabase hrun
  | finalize db =>
      unfold NativeCall.run finalize at hrun
      rw [Library.run_bind_of_run (t := s) (a := s) rfl] at hrun
      cases hd : s.databases.get db with
      | none =>
          rw [hd] at hrun
          cases hrun
          exact Leaves.refl s
      | some d =>
          rw [hd] at hrun
          dsimp only at hrun
          split at hrun
          · obtain ⟨_, u, hrun, hpure⟩ := Library.run_bind_eq_ok hrun
            cases hpure
            exact leaves_withDatabase hrun
          · cases hrun
            exact Leaves.refl s
  | fire db hook =>
      rw [same_fire db hook s out t hrun]
      exact Leaves.refl s

/-- A sequence of calls. -/
theorem leaves_performCalls {calls : List NativeCall} {s t : Native}
    (hrun : performCalls s calls = .ok t) : Leaves s t := by
  induction calls generalizing s with
  | nil =>
      cases hrun
      exact Leaves.refl _
  | cons call calls ih =>
      rw [performCalls_cons] at hrun
      cases hcall : call.run.run s with
      | error fault =>
          rw [hcall] at hrun
          contradiction
      | ok r =>
          rw [hcall] at hrun
          exact (leaves_call hcall).trans (ih hrun)

/-- A database that is closed while a statement of it is not finalized is never freed, also when the
statement is finalized later: the connection has forgotten it. -/
theorem unfinalized_is_lost {s t : Native} {db n : Nat} (hdb : s.pointer = some db)
    (hn : s.statements db = some n) (calls : List NativeCall)
    (hrun : performCalls s (.closeDb :: calls) = .ok t) :
    t.pointer ≠ some db ∧ ((t.databases.get db).isSome ↔ n ≠ 0) := by
  rw [performCalls_cons] at hrun
  cases hclose : closeDb.run s with
  | error fault =>
      rw [show NativeCall.closeDb.run = closeDb from rfl, hclose] at hrun
      contradiction
  | ok r =>
      rw [show NativeCall.closeDb.run = closeDb from rfl, hclose] at hrun
      obtain ⟨u, d, hquiet, hd, hpointer, hdatabases⟩ := run_closeDb_eq_ok hdb hclose
      have hcount : d.statements = n := by
        have hsame := congrFun hquiet.statements db
        rw [hn, Native.statements, hd, Option.map_some, Option.some.injEq] at hsame
        exact hsame
      have hnext : db < r.2.databases.next := by
        have hlt := Heap.lt_next hd
        rw [hdatabases]
        split <;> exact hlt
      obtain ⟨hforgotten, -, hsame⟩ :=
        leaves_performCalls hrun db (by rw [hpointer]; nofun) hnext
      refine ⟨hforgotten, ?_⟩
      unfold Native.statements at hsame
      rw [Option.isSome_map, Option.isSome_map] at hsame
      rw [hsame, hdatabases, hcount]
      by_cases hzero : n = 0
      · rw [if_pos hzero, Heap.free_get, if_pos rfl]
        simp [hzero]
      · rw [if_neg hzero, hd]
        simp [hzero]

/-- A connection with a statement. -/
def withStatement : Native :=
  { Native.initial with
    pointer := some 0
    databases := Heap.empty.alloc ⟨.none, none, none, none, 1⟩ }

theorem unfinalized_is_lost_small :
    ∃ t, performCalls withStatement [.closeDb, .finalize 0, .closeDb] = .ok t ∧
      t.pointer ≠ some 0 ∧ ((t.databases.get 0).isSome ↔ 1 ≠ 0) :=
  ⟨_, rfl, unfinalized_is_lost (s := withStatement) rfl rfl [.finalize 0, .closeDb] rfl⟩

end Sqlite
end IdeMultiarch
