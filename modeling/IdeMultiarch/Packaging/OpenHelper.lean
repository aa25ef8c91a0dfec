import IdeMultiarch.Packaging.Tar

/-!
# Packaging - closing what was opened

The class {lit}`OpenHelper` keeps what was opened, so that all of it can be closed again: by
{lit}`close` in the end, or by {lit}`onException` when something was thrown.  The transformer of an
IDE opens its files with it.

A resource is known by what its {lit}`close()` throws, if it throws.  Throwables are objects: two of
them are the same if they have the same identity.

Main results:

- Theorem {lit}`close_run`: what {lit}`close` does.
- Theorem {lit}`onException_run`: what {lit}`onException` does when no resource throws the exception
  that is in flight.
- Theorem {lit}`closes_everything_iff`: {lit}`close` closes everything and loses no error; when
  {lit}`onException` does.
- Theorem {lit}`thrown_again_escapes`: the exception in flight, thrown again by a resource.
-/

namespace IdeMultiarch
namespace Packaging

/-! ## Throwables -/

/-- A throwable that was there before: whether it is an {lit}`Exception`, and whether suppression is
enabled. -/
structure Thrown where
  id : Nat
  isException : Bool
  suppression : Bool
deriving DecidableEq, Repr

/-- A throwable: one that was there before, or one that {lit}`OpenHelper` or {lit}`addSuppressed`
makes. -/
inductive Throwable
  | thrown (throwable : Thrown)
  | newException (message : Name)
  | illegalArgumentException (message : Name) (cause : Throwable)
deriving DecidableEq, Repr

/-- {lit}`instanceof Exception` -/
def Throwable.isException : Throwable → Bool
  | .thrown throwable => throwable.isException
  | .newException _ => true
  | .illegalArgumentException _ _ => true

/-- Whether a throwable keeps others. -/
def Throwable.suppression : Throwable → Bool
  | .thrown throwable => throwable.suppression
  | .newException _ => true
  | .illegalArgumentException _ _ => true

/-- A resource: its number and what its {lit}`close()` throws. -/
structure AutoCloseable where
  id : Nat
  failure : Option Thrown
deriving DecidableEq, Repr

/-- What happened: the calls of {lit}`close()`, and the throwables that others keep. -/
structure Jvm where
  closed : List AutoCloseable
  suppressed : Throwable → List Throwable

/-- {lit}`getSuppressed` -/
def Jvm.getSuppressed (jvm : Jvm) (this : Throwable) : List Throwable :=
  if this.suppression then jvm.suppressed this else []

/-- A method that may throw. -/
abbrev Java (α : Type) := ExceptT Throwable (StateM Jvm) α

/-- What a method returns or throws, and what happened then. -/
def outcome {α : Type} (method : Java α) (jvm : Jvm) : Except Throwable α × Jvm :=
  (ExceptT.run method).run jvm

/-- {lit}`addSuppressed` -/
def Throwable.addSuppressed (this exception : Throwable) : Java Unit :=
  if exception = this then
    throw (.illegalArgumentException (str "Self-suppression not permitted") exception)
  else if this.suppression then
    modify fun jvm =>
      { jvm with suppressed :=
          Function.update jvm.suppressed this (jvm.suppressed this ++ [exception]) }
  else pure ()

/-- {lit}`close()` of a resource. -/
def AutoCloseable.close (closeable : AutoCloseable) : Java Unit := do
  modify fun jvm => { jvm with closed := jvm.closed ++ [closeable] }
  match closeable.failure with
  | none => pure ()
  | some throwable => throw (.thrown throwable)

/-! ## The helper -/

/-- {lit}`OpenHelper` -/
structure OpenHelper where
  allCloseable : List AutoCloseable
deriving DecidableEq, Repr

/-- The loop of {lit}`onException`, over the resources from the last to the first. -/
def onExceptionFrom (exception : Throwable) : List AutoCloseable → Java Unit
  | [] => pure ()
  | closeable :: rest => do
      tryCatch closeable.close fun otherException => exception.addSuppressed otherException
      onExceptionFrom exception rest

/-- The loop of {lit}`close`, over the resources from the last to the first. -/
def collectExceptions (exceptions : List Throwable) : List AutoCloseable → Java (List Throwable)
  | [] => pure exceptions
  | closeable :: rest => do
      let exceptions ← tryCatch (do closeable.close; pure exceptions) fun otherException =>
        pure (exceptions ++ [otherException])
      collectExceptions exceptions rest

namespace OpenHelper

/-- {lit}`register` -/
def register (helper : OpenHelper) (closeable : AutoCloseable) : OpenHelper :=
  { helper with allCloseable := helper.allCloseable ++ [closeable] }

/-- {lit}`onException` -/
def onException (helper : OpenHelper) (exception : Throwable) : Java Unit :=
  onExceptionFrom exception helper.allCloseable.reverse

/-- The exception that {lit}`close` makes. -/
def closeException : Throwable :=
  .newException (str "Some exceptions were thrown when closing closeables")

/-- {lit}`close` -/
def close (helper : OpenHelper) : Java Unit := do
  let exceptions ← collectExceptions [] helper.allCloseable.reverse
  match exceptions with
  | [] => pure ()
  | exception :: rest =>
      if rest = [] ∧ exception.isException = true then throw exception
      else do
        exceptions.forM closeException.addSuppressed
        throw closeException

end OpenHelper

/-! ## Methods one after the other -/

theorem outcome_bind {α β : Type} (method : Java α) (next : α → Java β) (jvm : Jvm) :
    outcome (method >>= next) jvm =
      match outcome method jvm with
      | (.ok a, jvm') => outcome (next a) jvm'
      | (.error e, jvm') => (.error e, jvm') := by
  unfold outcome
  rw [ExceptT.run_bind, StateT.run_bind]
  cases (ExceptT.run method).run jvm with
  | mk result jvm' => cases result <;> rfl

theorem outcome_tryCatch {α : Type} (method : Java α) (handler : Throwable → Java α) (jvm : Jvm) :
    outcome (tryCatch method handler) jvm =
      match outcome method jvm with
      | (.ok a, jvm') => (.ok a, jvm')
      | (.error e, jvm') => outcome (handler e) jvm' := by
  unfold outcome
  rw [ExceptT.run_tryCatch, StateT.run_bind]
  cases (ExceptT.run method).run jvm with
  | mk result jvm' => cases result <;> rfl

/-! ## What happens -/

/-- Some resources are closed. -/
def Jvm.close (jvm : Jvm) (closeables : List AutoCloseable) : Jvm :=
  { jvm with closed := jvm.closed ++ closeables }

/-- Some throwables are given to another one, which keeps them if suppression is enabled. -/
def Jvm.suppress (jvm : Jvm) (this : Throwable) (exceptions : List Throwable) : Jvm :=
  if this.suppression then
    { jvm with suppressed :=
        Function.update jvm.suppressed this (jvm.suppressed this ++ exceptions) }
  else jvm

@[simp]
theorem Jvm.close_nil (jvm : Jvm) : jvm.close [] = jvm := by
  simp [Jvm.close]

@[simp]
theorem Jvm.close_append (jvm : Jvm) (closeables closeables' : List AutoCloseable) :
    (jvm.close closeables).close closeables' = jvm.close (closeables ++ closeables') := by
  simp [Jvm.close]

@[simp]
theorem Jvm.suppress_nil (jvm : Jvm) (this : Throwable) : jvm.suppress this [] = jvm := by
  simp [Jvm.suppress]

@[simp]
theorem Jvm.suppress_append (jvm : Jvm) (this : Throwable) (exceptions exceptions' : List Throwable) :
    (jvm.suppress this exceptions).suppress this exceptions' =
      jvm.suppress this (exceptions ++ exceptions') := by
  unfold Jvm.suppress
  split <;> simp

/-- It does not matter whether a resource is closed before or after. -/
theorem Jvm.suppress_close (jvm : Jvm) (this : Throwable) (exceptions : List Throwable)
    (closeables : List AutoCloseable) :
    (jvm.suppress this exceptions).close closeables =
      (jvm.close closeables).suppress this exceptions := by
  unfold Jvm.suppress
  split <;> rfl

@[simp]
theorem Jvm.suppress_closed (jvm : Jvm) (this : Throwable) (exceptions : List Throwable) :
    (jvm.suppress this exceptions).closed = jvm.closed := by
  unfold Jvm.suppress
  split <;> rfl

/-- A throwable keeps what it is given, if suppression is enabled. -/
theorem Jvm.mem_getSuppressed_suppress (jvm : Jvm) {this : Throwable} {exceptions : List Throwable}
    (h : this.suppression = true) {exception : Throwable} (hmem : exception ∈ exceptions) :
    exception ∈ (jvm.suppress this exceptions).getSuppressed this := by
  rw [Jvm.getSuppressed, if_pos h, Jvm.suppress, if_pos h]
  simp [hmem]

/-- What some resources throw when they are closed. -/
def failures (closeables : List AutoCloseable) : List Throwable :=
  closeables.filterMap fun closeable => closeable.failure.map Throwable.thrown

theorem failures_cons_of_none {closeable : AutoCloseable} (h : closeable.failure = none)
    (rest : List AutoCloseable) : failures (closeable :: rest) = failures rest := by
  simp [failures, h]

theorem failures_cons_of_some {closeable : AutoCloseable} {throwable : Thrown}
    (h : closeable.failure = some throwable) (rest : List AutoCloseable) :
    failures (closeable :: rest) = .thrown throwable :: failures rest := by
  simp [failures, h]

/-- A resource is closed, whether this throws or not. -/
theorem outcome_close (closeable : AutoCloseable) (jvm : Jvm) :
    outcome closeable.close jvm =
      (match closeable.failure with
        | none => .ok ()
        | some throwable => .error (.thrown throwable),
        jvm.close [closeable]) := by
  unfold AutoCloseable.close
  cases closeable.failure <;> rfl

/-- A throwable is given to another one. -/
theorem outcome_addSuppressed {this exception : Throwable} (h : exception ≠ this) (jvm : Jvm) :
    outcome (this.addSuppressed exception) jvm = (.ok (), jvm.suppress this [exception]) := by
  unfold Throwable.addSuppressed Jvm.suppress
  rw [if_neg h]
  split <;> rfl

/-- So are several, one after the other. -/
theorem outcome_forM_addSuppressed {this : Throwable} {exceptions : List Throwable}
    (h : this ∉ exceptions) (jvm : Jvm) :
    outcome (exceptions.forM this.addSuppressed) jvm = (.ok (), jvm.suppress this exceptions) := by
  induction exceptions generalizing jvm with
  | nil =>
      rw [Jvm.suppress_nil]
      rfl
  | cons exception exceptions ih =>
      rw [List.mem_cons, not_or] at h
      obtain ⟨hne, hrest⟩ := h
      rw [List.forM_eq_forM, List.forM_cons, outcome_bind, outcome_addSuppressed (Ne.symm hne)]
      dsimp only
      rw [← List.forM_eq_forM, ih hrest, Jvm.suppress_append, List.singleton_append]

/-! ## The loops -/

/-- One round of the loop of {lit}`onException`. -/
theorem onExceptionFrom_cons (exception : Throwable) (closeable : AutoCloseable)
    (rest : List AutoCloseable) (jvm : Jvm) :
    outcome (onExceptionFrom exception (closeable :: rest)) jvm =
      match closeable.failure with
      | none => outcome (onExceptionFrom exception rest) (jvm.close [closeable])
      | some throwable =>
          outcome (do
            exception.addSuppressed (.thrown throwable)
            onExceptionFrom exception rest) (jvm.close [closeable]) := by
  rw [onExceptionFrom, outcome_bind, outcome_tryCatch, outcome_close]
  cases closeable.failure with
  | none => rfl
  | some throwable =>
      dsimp only
      rw [outcome_bind]

/-- The loop of {lit}`onException` closes everything and keeps what is thrown, if this is never the
exception itself. -/
theorem onExceptionFrom_run {exception : Throwable} {closeables : List AutoCloseable}
    (h : exception ∉ failures closeables) (jvm : Jvm) :
    outcome (onExceptionFrom exception closeables) jvm =
      (.ok (), (jvm.close closeables).suppress exception (failures closeables)) := by
  induction closeables generalizing jvm with
  | nil =>
      rw [Jvm.close_nil]
      exact (congrArg (Prod.mk _) (Jvm.suppress_nil jvm exception)).symm
  | cons closeable rest ih =>
      rw [onExceptionFrom_cons]
      cases hfailure : closeable.failure with
      | none =>
          rw [failures_cons_of_none hfailure] at h ⊢
          dsimp only
          rw [ih h, Jvm.close_append, List.singleton_append]
      | some throwable =>
          rw [failures_cons_of_some hfailure] at h ⊢
          rw [List.mem_cons, not_or] at h
          obtain ⟨hne, hrest⟩ := h
          dsimp only
          rw [outcome_bind, outcome_addSuppressed (Ne.symm hne)]
          dsimp only
          rw [ih hrest, Jvm.suppress_close, Jvm.suppress_append, Jvm.close_append,
            List.singleton_append, List.singleton_append]

/-- The loop of {lit}`onException` throws something when a resource throws the exception itself. -/
theorem onExceptionFrom_throws {exception : Throwable} {closeables : List AutoCloseable}
    (h : exception ∈ failures closeables) (jvm : Jvm) :
    ∃ e, (outcome (onExceptionFrom exception closeables) jvm).1 = .error e := by
  induction closeables generalizing jvm with
  | nil => cases h
  | cons closeable rest ih =>
      rw [onExceptionFrom_cons]
      cases hfailure : closeable.failure with
      | none =>
          rw [failures_cons_of_none hfailure] at h
          exact ih h _
      | some throwable =>
          rw [failures_cons_of_some hfailure] at h
          dsimp only
          rw [outcome_bind]
          by_cases hself : Throwable.thrown throwable = exception
          · unfold Throwable.addSuppressed
            rw [if_pos hself]
            exact ⟨_, rfl⟩
          · rw [outcome_addSuppressed hself]
            exact ih ((List.mem_cons.mp h).resolve_left (Ne.symm hself)) _

/-- The loop of {lit}`close` closes everything and collects what is thrown. -/
theorem collectExceptions_run (exceptions : List Throwable) (closeables : List AutoCloseable)
    (jvm : Jvm) :
    outcome (collectExceptions exceptions closeables) jvm =
      (.ok (exceptions ++ failures closeables), jvm.close closeables) := by
  induction closeables generalizing exceptions jvm with
  | nil =>
      rw [Jvm.close_nil]
      exact congrArg (fun l => (Except.ok l, jvm)) (List.append_nil exceptions).symm
  | cons closeable rest ih =>
      rw [collectExceptions, outcome_bind, outcome_tryCatch, outcome_bind, outcome_close]
      cases hfailure : closeable.failure with
      | none =>
          rw [failures_cons_of_none hfailure]
          exact (ih exceptions _).trans (by rw [Jvm.close_append, List.singleton_append])
      | some throwable =>
          rw [failures_cons_of_some hfailure]
          exact (ih _ _).trans (by
            rw [Jvm.close_append, List.singleton_append, List.append_assoc, List.singleton_append])

/-- What is thrown is thrown by one of the resources. -/
theorem mem_failures {exception : Throwable} {closeables : List AutoCloseable} :
    exception ∈ failures closeables ↔
      ∃ closeable ∈ closeables, closeable.failure.map Throwable.thrown = some exception := by
  rw [failures, List.mem_filterMap]

theorem mem_failures_reverse {exception : Throwable} {closeables : List AutoCloseable} :
    exception ∈ failures closeables.reverse ↔ exception ∈ failures closeables := by
  rw [failures, List.filterMap_reverse, List.mem_reverse]
  rfl

theorem failures_reverse_eq_nil {closeables : List AutoCloseable} :
    failures closeables.reverse = [] ↔ failures closeables = [] := by
  rw [failures, List.filterMap_reverse, List.reverse_eq_nil_iff]
  rfl

namespace OpenHelper

variable {helper : OpenHelper} {exception : Throwable}

/-! ## What the methods are for -/

/-- What {lit}`close` is for: all resources are closed once, the last one first; nothing is thrown if
no resource throws, and no throwable is lost. -/
structure CloseLosesNothing (helper : OpenHelper) (jvm : Jvm) : Prop where
  closed : (outcome helper.close jvm).2.closed = jvm.closed ++ helper.allCloseable.reverse
  normal : (outcome helper.close jvm).1 = .ok () ↔
    ∀ closeable ∈ helper.allCloseable, closeable.failure = none
  kept : ∀ t ∈ failures helper.allCloseable, ∃ e, (outcome helper.close jvm).1 = .error e ∧
    (e = t ∨ t ∈ (outcome helper.close jvm).2.getSuppressed e)

/-- What {lit}`onException` is for: all resources are closed once, the last one first; nothing is
thrown, and the exception keeps every throwable. -/
structure OnExceptionLosesNothing (helper : OpenHelper) (exception : Throwable) (jvm : Jvm) :
    Prop where
  closed : (outcome (helper.onException exception) jvm).2.closed =
    jvm.closed ++ helper.allCloseable.reverse
  normal : (outcome (helper.onException exception) jvm).1 = .ok ()
  kept : ∀ t ∈ failures helper.allCloseable,
    t ∈ (outcome (helper.onException exception) jvm).2.getSuppressed exception

/-! ## What the methods do -/

/-- What {lit}`onException` does when no resource throws the exception itself. -/
theorem onException_run (h : exception ∉ failures helper.allCloseable) (jvm : Jvm) :
    outcome (helper.onException exception) jvm =
      (.ok (), (jvm.close helper.allCloseable.reverse).suppress exception
        (failures helper.allCloseable.reverse)) :=
  onExceptionFrom_run (fun hmem => h (mem_failures_reverse.mp hmem)) jvm

/-- {lit}`close` makes an exception of its own, so this keeps all others. -/
theorem closeException_not_mem (closeables : List AutoCloseable) :
    closeException ∉ failures closeables := by
  intro hmem
  obtain ⟨closeable, -, hthrown⟩ := mem_failures.mp hmem
  obtain ⟨throwable, -, hsame⟩ := Option.map_eq_some_iff.mp hthrown
  cases hsame

/-- What {lit}`close` does. -/
theorem close_run (helper : OpenHelper) (jvm : Jvm) :
    outcome helper.close jvm =
      match failures helper.allCloseable.reverse with
      | [] => (.ok (), jvm.close helper.allCloseable.reverse)
      | exception :: rest =>
          if rest = [] ∧ exception.isException = true then
            (.error exception, jvm.close helper.allCloseable.reverse)
          else
            (.error closeException, (jvm.close helper.allCloseable.reverse).suppress closeException
              (exception :: rest)) := by
  have hnot := closeException_not_mem helper.allCloseable.reverse
  rw [close, outcome_bind, collectExceptions_run, List.nil_append]
  dsimp only
  cases hfailures : failures helper.allCloseable.reverse with
  | nil => rfl
  | cons exception rest =>
      dsimp only
      split
      next => rfl
      next =>
        rw [hfailures] at hnot
        rw [outcome_bind, outcome_forM_addSuppressed hnot]
        rfl

/-- {lit}`close` loses nothing. -/
theorem close_losesNothing (helper : OpenHelper) (jvm : Jvm) : helper.CloseLosesNothing jvm := by
  have hrun := helper.close_run jvm
  have hnone : failures helper.allCloseable.reverse = [] ↔
      ∀ closeable ∈ helper.allCloseable, closeable.failure = none := by
    rw [failures_reverse_eq_nil, failures, List.filterMap_eq_nil_iff]
    simp
  cases hfailures : failures helper.allCloseable.reverse with
  | nil =>
      rw [hfailures] at hrun
      refine ⟨by rw [hrun]; rfl, ?_, ?_⟩
      · rw [hrun]
        exact ⟨fun _ => hnone.mp hfailures, fun _ => rfl⟩
      · intro t ht
        rw [← mem_failures_reverse, hfailures] at ht
        cases ht
  | cons exception rest =>
      have hsome : ¬ ∀ closeable ∈ helper.allCloseable, closeable.failure = none := by
        rw [← hnone, hfailures]
        exact List.cons_ne_nil _ _
      rw [hfailures] at hrun
      dsimp only at hrun
      split at hrun
      next hone =>
        refine ⟨by rw [hrun]; rfl, ?_, ?_⟩
        · rw [hrun]
          exact ⟨fun h => absurd h (by simp), fun h => absurd h hsome⟩
        · intro t ht
          rw [← mem_failures_reverse, hfailures, hone.1, List.mem_singleton] at ht
          exact ⟨exception, by rw [hrun], Or.inl ht.symm⟩
      next =>
        refine ⟨by rw [hrun]; simp [Jvm.close], ?_, ?_⟩
        · rw [hrun]
          exact ⟨fun h => absurd h (by simp), fun h => absurd h hsome⟩
        · intro t ht
          rw [← mem_failures_reverse, hfailures] at ht
          refine ⟨closeException, by rw [hrun], Or.inr ?_⟩
          rw [hrun]
          exact Jvm.mem_getSuppressed_suppress _ rfl ht

/-- {lit}`close` closes every resource and loses no error.  {lit}`onException` does so exactly if no
resource throws the exception itself, and the exception can keep what is thrown. -/
theorem closes_everything_iff (helper : OpenHelper) (exception : Throwable) (jvm : Jvm) :
    helper.CloseLosesNothing jvm ∧
      (helper.OnExceptionLosesNothing exception jvm ↔
        exception ∉ failures helper.allCloseable ∧
          (exception.suppression = true ∨ failures helper.allCloseable = [])) := by
  refine ⟨close_losesNothing helper jvm, ?_, ?_⟩
  · intro h
    have hnot : exception ∉ failures helper.allCloseable := by
      intro hmem
      obtain ⟨e, hthrows⟩ := onExceptionFrom_throws (mem_failures_reverse.mpr hmem) jvm
      have hnormal := h.normal
      rw [onException, hthrows] at hnormal
      cases hnormal
    refine ⟨hnot, ?_⟩
    cases hsuppression : exception.suppression with
    | true => exact Or.inl rfl
    | false =>
        right
        refine List.eq_nil_iff_forall_not_mem.mpr fun t ht => ?_
        have hkept := h.kept t ht
        rw [Jvm.getSuppressed, hsuppression] at hkept
        cases hkept
  · rintro ⟨hnot, hkeeps⟩
    have hrun := onException_run hnot jvm
    refine ⟨by rw [hrun]; simp [Jvm.close], by rw [hrun], fun t ht => ?_⟩
    rw [hrun]
    rcases hkeeps with hsuppression | hnil
    · exact Jvm.mem_getSuppressed_suppress _ hsuppression (mem_failures_reverse.mpr ht)
    · rw [hnil] at ht
      cases ht

/-- A throwable that a resource throws while it is in flight is thrown again as the cause of another
one, and the resources that were opened before stay open. -/
theorem thrown_again_escapes :
    ¬ ∀ (helper : OpenHelper) (exception : Throwable) (jvm : Jvm),
      helper.CloseLosesNothing jvm ∧ helper.OnExceptionLosesNothing exception jvm := by
  intro hall
  let failed : Thrown := ⟨0, true, true⟩
  have h := (hall ⟨[⟨0, none⟩, ⟨1, some failed⟩]⟩ (.thrown failed) ⟨[], fun _ => []⟩).2.closed
  exact absurd h (by decide)

end OpenHelper

end Packaging
end IdeMultiarch
