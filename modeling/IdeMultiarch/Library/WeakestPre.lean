import Mathlib.Tactic.Common

/-!
# Library - Weakest preconditions for stateful programs that may fault

Programs are values of {lit}`StateT S (Except E)`: they read and write a state and may
stop with a fault.  The predicate {lit}`wp tol m Q s` says that running {lit}`m` from
{lit}`s` ends in a result and a state satisfying {lit}`Q`, or stops with a fault that
{lit}`tol` tolerates.  Taking {lit}`tol` to be everywhere false gives total
correctness; tolerating one fault (running out of fuel, say) gives partial
correctness with respect to that fault only.

Main results:

- Theorem {lit}`wp_bind`: the sequencing rule, as an equivalence.
- Theorem {lit}`wp_mono`: the rule of consequence, also for the tolerated faults.
- Theorem {lit}`wp_forM`: the loop rule, with an invariant on the list still to do.
- Theorems {lit}`wp_of_run` and {lit}`run_of_wp`: the link with actual runs.
- Theorem {lit}`wp_bind_under`: sequencing under a condition that is only ever lost.
-/

namespace IdeMultiarch
namespace Library

variable {S E α β : Type} {tol tol' : E → Prop}

/-- Running {lit}`m` from {lit}`s` ends as {lit}`Q` says or in a tolerated fault. -/
def wp (tol : E → Prop) (m : StateT S (Except E) α) (Q : α → S → Prop) (s : S) : Prop :=
  match m.run s with
  | .ok r => Q r.1 r.2
  | .error e => tol e

/-! ## Structural rules -/

@[simp]
theorem wp_pure (a : α) (Q : α → S → Prop) (s : S) :
    wp tol (pure a) Q s ↔ Q a s :=
  Iff.rfl

@[simp]
theorem wp_bind (m : StateT S (Except E) α) (f : α → StateT S (Except E) β)
    (Q : β → S → Prop) (s : S) :
    wp tol (m >>= f) Q s ↔ wp tol m (fun a s' => wp tol (f a) Q s') s := by
  unfold wp
  rw [StateT.run_bind]
  cases m.run s with
  | ok r => rfl
  | error e => rfl

@[simp]
theorem wp_get (Q : S → S → Prop) (s : S) :
    wp (E := E) tol (get : StateT S (Except E) S) Q s ↔ Q s s :=
  Iff.rfl

@[simp]
theorem wp_set (s' : S) (Q : PUnit → S → Prop) (s : S) :
    wp (E := E) tol (set s' : StateT S (Except E) PUnit) Q s ↔ Q ⟨⟩ s' :=
  Iff.rfl

@[simp]
theorem wp_modify (f : S → S) (Q : PUnit → S → Prop) (s : S) :
    wp (E := E) tol (modify f : StateT S (Except E) PUnit) Q s ↔ Q ⟨⟩ (f s) :=
  Iff.rfl

@[simp]
theorem wp_throw (e : E) (Q : α → S → Prop) (s : S) :
    wp tol (throw e : StateT S (Except E) α) Q s ↔ tol e :=
  Iff.rfl

@[simp]
theorem wp_map (g : α → β) (m : StateT S (Except E) α) (Q : β → S → Prop) (s : S) :
    wp tol (g <$> m) Q s ↔ wp tol m (fun a s' => Q (g a) s') s := by
  rw [map_eq_pure_bind, wp_bind]
  rfl

/-- The rule of consequence, weakening the postcondition and the tolerated faults. -/
theorem wp_mono {m : StateT S (Except E) α} {Q R : α → S → Prop} {s : S}
    (h : wp tol m Q s) (hQ : ∀ a s', Q a s' → R a s') (htol : ∀ e, tol e → tol' e) :
    wp tol' m R s := by
  unfold wp at *
  cases hrun : m.run s with
  | ok r =>
      rw [hrun] at h
      exact hQ r.1 r.2 h
  | error e =>
      rw [hrun] at h
      exact htol e h

/-- The rule of consequence for the postcondition alone. -/
theorem wp_weaken {m : StateT S (Except E) α} {Q R : α → S → Prop} {s : S}
    (h : wp tol m Q s) (hQ : ∀ a s', Q a s' → R a s') : wp tol m R s :=
  wp_mono h hQ fun _ he => he

/-- The loop rule: {lit}`I` holds of the elements still to do and the current state. -/
theorem wp_forM {f : α → StateT S (Except E) PUnit} (I : List α → S → Prop)
    (hstep : ∀ x xs s, I (x :: xs) s → wp tol (f x) (fun _ s' => I xs s') s) :
    ∀ (l : List α) (s : S), I l s → wp tol (l.forM f) (fun _ s' => I [] s') s := by
  intro l
  induction l with
  | nil => intro s hI; exact hI
  | cons x xs ih =>
      intro s hI
      rw [List.forM_eq_forM, List.forM_cons, wp_bind]
      exact wp_weaken (hstep x xs s hI) fun _ s' hs' => ih s' hs'

/-! ## Weakest preconditions and runs -/

/-- A run that returns establishes the postcondition of any weakest precondition. -/
theorem run_of_wp {m : StateT S (Except E) α} {Q : α → S → Prop} {s s' : S} {a : α}
    (h : wp tol m Q s) (hrun : m.run s = .ok (a, s')) : Q a s' := by
  unfold wp at h
  rw [hrun] at h
  exact h

/-- A run that stops with a fault does so with a tolerated one. -/
theorem fault_of_wp {m : StateT S (Except E) α} {Q : α → S → Prop} {s : S} {e : E}
    (h : wp tol m Q s) (hrun : m.run s = .error e) : tol e := by
  unfold wp at h
  rw [hrun] at h
  exact h

/-- To prove a weakest precondition, look at the run. -/
theorem wp_of_run {m : StateT S (Except E) α} {Q : α → S → Prop} {s s' : S} {a : α}
    (hrun : m.run s = .ok (a, s')) (hQ : Q a s') : wp tol m Q s := by
  unfold wp
  rw [hrun]
  exact hQ

/-- With no fault tolerated the program returns. -/
theorem exists_run_of_wp {m : StateT S (Except E) α} {Q : α → S → Prop} {s : S}
    (h : wp (fun _ => False) m Q s) : ∃ a s', m.run s = .ok (a, s') ∧ Q a s' := by
  unfold wp at h
  cases hrun : m.run s with
  | ok r =>
      rw [hrun] at h
      exact ⟨r.1, r.2, rfl, h⟩
  | error e =>
      rw [hrun] at h
      exact h.elim

/-- Two weakest preconditions of one program hold together. -/
theorem wp_and {m : StateT S (Except E) α} {Q R : α → S → Prop} {s : S}
    (hQ : wp tol m Q s) (hR : wp tol' m R s) : wp tol m (fun a s' => Q a s' ∧ R a s') s := by
  unfold wp at *
  cases hrun : m.run s with
  | ok r =>
      rw [hrun] at hQ hR
      exact ⟨hQ, hR⟩
  | error e =>
      rw [hrun] at hQ
      exact hQ

/-- The postcondition may speak of the run itself. -/
theorem wp_with_run {m : StateT S (Except E) α} {Q : α → S → Prop} {s : S} (h : wp tol m Q s) :
    wp tol m (fun a s' => Q a s' ∧ m.run s = .ok (a, s')) s := by
  unfold wp at *
  cases hrun : m.run s with
  | ok r =>
      rw [hrun] at h
      exact ⟨h, rfl⟩
  | error e =>
      rw [hrun] at h
      exact h

/-- Sequencing on the level of runs: a first part that returns is dropped from the run. -/
theorem run_bind_of_run {m : StateT S (Except E) α} {f : α → StateT S (Except E) β}
    {s t : S} {a : α} (hrun : m.run s = .ok (a, t)) :
    (m >>= f).run s = (f a).run t := by
  rw [StateT.run_bind, hrun]
  rfl

/-- Inversion of a sequence that returns. -/
theorem run_bind_eq_ok {m : StateT S (Except E) α} {f : α → StateT S (Except E) β}
    {s s' : S} {b : β} (hrun : (m >>= f).run s = .ok (b, s')) :
    ∃ a s₁, m.run s = .ok (a, s₁) ∧ (f a).run s₁ = .ok (b, s') := by
  rw [StateT.run_bind] at hrun
  cases hm : m.run s with
  | ok r =>
      rw [hm] at hrun
      exact ⟨r.1, r.2, rfl, hrun⟩
  | error e =>
      rw [hm] at hrun
      contradiction

/-- A postcondition that always holds needs no look at the program. -/
theorem wp_of_all {m : StateT S (Except E) α} {Q : α → S → Prop} (hQ : ∀ a t, Q a t) (s : S) :
    wp (fun _ => True) m Q s := by
  unfold wp
  cases m.run s with
  | ok r => exact hQ r.1 r.2
  | error e => trivial

/-! ## Relations that every step respects -/

/-- Every run of {lit}`m` that returns relates its first state to its last. -/
def Respects (R : S → S → Prop) (m : StateT S (Except E) α) : Prop :=
  ∀ s a t, m.run s = .ok (a, t) → R s t

namespace Respects

variable {R : S → S → Prop}

theorem pure (hrefl : ∀ s, R s s) (a : α) :
    Respects R (Pure.pure a : StateT S (Except E) α) := by
  intro s b t hrun
  cases hrun
  exact hrefl s

theorem throw (e : E) : Respects R (throw e : StateT S (Except E) α) := by
  intro s b t hrun
  contradiction

theorem get (hrefl : ∀ s, R s s) : Respects R (get : StateT S (Except E) S) := by
  intro s b t hrun
  cases hrun
  exact hrefl s

theorem modify {f : S → S} (hf : ∀ s, R s (f s)) :
    Respects R (modify f : StateT S (Except E) PUnit) := by
  intro s b t hrun
  cases hrun
  exact hf s

theorem bind (htrans : ∀ s t u, R s t → R t u → R s u) {m : StateT S (Except E) α}
    {f : α → StateT S (Except E) β} (hm : Respects R m) (hf : ∀ a, Respects R (f a)) :
    Respects R (m >>= f) := by
  intro s b u hrun
  obtain ⟨a, t, hrun₁, hrun₂⟩ := run_bind_eq_ok hrun
  exact htrans s t u (hm s a t hrun₁) (hf a t b u hrun₂)

theorem forM (hrefl : ∀ s, R s s) (htrans : ∀ s t u, R s t → R t u → R s u)
    {f : α → StateT S (Except E) PUnit} (hf : ∀ a, Respects R (f a)) (l : List α) :
    Respects R (l.forM f) := by
  induction l with
  | nil => exact pure hrefl _
  | cons a l ih =>
      rw [List.forM_eq_forM, List.forM_cons]
      exact bind htrans (hf a) fun _ => ih

/-- What a program respects, as a weakest precondition. -/
theorem wp {m : StateT S (Except E) α} (h : Respects R m) (s : S) :
    wp (fun _ => True) m (fun _ t => R s t) s := by
  unfold Library.wp
  cases hrun : m.run s with
  | ok r => exact h s r.1 r.2 hrun
  | error e => trivial

end Respects

/-- Sequencing under a condition on the last state that can only be lost on the way: it is
enough to look at runs whose intermediate state satisfies it too. -/
theorem wp_bind_under {D : S → Prop} {m : StateT S (Except E) α}
    {f : α → StateT S (Except E) β} {P : α → S → Prop} {Q : β → S → Prop} {s : S}
    (hback : ∀ a, Respects (fun t u => D u → D t) (f a))
    (hm : wp (fun _ => True) m (fun a t => D t → P a t) s)
    (hf : ∀ a t, D t → P a t → wp (fun _ => True) (f a) (fun b u => D u → Q b u) t) :
    wp (fun _ => True) (m >>= f) (fun b u => D u → Q b u) s := by
  rw [wp_bind]
  refine wp_weaken hm fun a t ht => ?_
  unfold wp
  cases hrun : (f a).run t with
  | error e => trivial
  | ok r =>
      intro hD
      have hDt : D t := hback a t r.1 r.2 hrun hD
      exact run_of_wp (hf a t hDt (ht hDt)) hrun hD

/-- The loop rule under such a condition. -/
theorem wp_forM_under {D I : S → Prop} {f : α → StateT S (Except E) PUnit}
    (hback : ∀ a, Respects (fun t u => D u → D t) (f a))
    (hstep : ∀ a s, D s → I s → wp (fun _ => True) (f a) (fun _ u => D u → I u) s) :
    ∀ (l : List α) (s : S), (D s → I s) →
      wp (fun _ => True) (l.forM f) (fun _ u => D u → I u) s := by
  intro l
  induction l with
  | nil => exact fun s hI => hI
  | cons a l ih =>
      intro s hI
      rw [List.forM_eq_forM, List.forM_cons, wp_bind]
      unfold wp
      cases hrun : (f a).run s with
      | error e => trivial
      | ok r =>
          refine ih r.2 fun hD => ?_
          have hDs : D s := hback a s r.1 r.2 hrun hD
          exact run_of_wp (hstep a s hDs (hI hDs)) hrun hD

/-! ## Concrete runs -/

/-- Whether a run returned {lit}`b` in a state that passes a test. -/
def returned [DecidableEq α] (r : Except E (α × S)) (b : α) (test : S → Bool) : Bool :=
  match r with
  | .ok (a, s) => a = b && test s
  | .error _ => false

/-- A run that was seen to return has a final state. -/
theorem exists_of_returned [DecidableEq α] {r : Except E (α × S)} {b : α} {test : S → Bool}
    (h : returned r b test = true) : ∃ s, r = .ok (b, s) ∧ test s = true := by
  unfold returned at h
  split at h
  · rename_i a s
    obtain ⟨hab, htest⟩ := Bool.and_eq_true_iff.mp h
    exact ⟨s, by rw [of_decide_eq_true hab], htest⟩
  · contradiction

/-- The last state of a run; the first state when it does not return. -/
def finalState (m : StateT S (Except E) α) (s : S) : S :=
  match m.run s with
  | .ok (_, t) => t
  | .error _ => s

/-- A run that was seen to return, with its last state. -/
theorem run_finalState [DecidableEq α] {m : StateT S (Except E) α} {s : S} {b : α}
    {test : S → Bool} (h : returned (m.run s) b test = true) :
    m.run s = .ok (b, finalState m s) ∧ test (finalState m s) = true := by
  obtain ⟨t, hrun, htest⟩ := exists_of_returned h
  have hfinal : finalState m s = t := by
    unfold finalState
    rw [hrun]
  rw [hfinal]
  exact ⟨hrun, htest⟩

end Library
end IdeMultiarch
