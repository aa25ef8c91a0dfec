import IdeMultiarch.Library.WeakestPre

/-!
# Library - Programs on a richer state

A program on a rich state may follow a program on a part of this state: it returns the same
results, changes the part in the same way and runs into the same faults.  The rest of the rich
state is its own affair, and so is what else it could run into, which following excludes.

The relation {lit}`Follows` has a condition under which the two programs agree.  Without it the
rich program is still known to run into no fault of its own.

Main results:

- Theorem {lit}`Follows.bind`: sequencing.
- Theorem {lit}`Follows.onPart_bind`: a step that both programs make.
- Theorem {lit}`Follows.left`: a step on the rest of the state.
- Theorem {lit}`Follows.forM`: loops over a list.
-/

namespace IdeMultiarch
namespace Library

variable {S T E F α β : Type}

/-- A part of a larger state. -/
structure Part (T S : Type) where
  get : T → S
  set : T → S → T
  get_set : ∀ t s, get (set t s) = s

/-- Run a program on a part of the state. -/
def onPart (part : Part T S) (fault : E → F) (m : StateT S (Except E) α) :
    StateT T (Except F) α := fun t =>
  match m.run (part.get t) with
  | .ok (a, s) => .ok (a, part.set t s)
  | .error e => .error (fault e)

theorem onPart_run_ok {part : Part T S} (fault : E → F) {m : StateT S (Except E) α} {t : T} {s : S}
    {a : α} (hrun : m.run (part.get t) = .ok (a, s)) :
    (onPart part fault m).run t = .ok (a, part.set t s) := by
  unfold onPart StateT.run at *
  dsimp only
  rw [hrun]

theorem onPart_run_error {part : Part T S} (fault : E → F) {m : StateT S (Except E) α} {t : T}
    {e : E} (hrun : m.run (part.get t) = .error e) :
    (onPart part fault m).run t = .error (fault e) := by
  unfold onPart StateT.run at *
  dsimp only
  rw [hrun]

/-- From {lit}`t` the rich program runs into no fault but those of the other one and relates its
first state to its last by {lit}`R`; under the condition {lit}`c` it does what the other one
does on the part. -/
def Follows (part : Part T S) (fault : E → F) (c : Prop) (R : T → T → Prop)
    (rich : StateT T (Except F) α) (m : StateT S (Except E) α) (t : T) : Prop :=
  wp (fun f => ∃ e, f = fault e ∧ (c → m.run (part.get t) = .error e)) rich
    (fun a t' => R t t' ∧ (c → m.run (part.get t) = .ok (a, part.get t'))) t

namespace Follows

variable {part : Part T S} {fault : E → F} {c : Prop} {R R' : T → T → Prop} {t : T}

theorem pure (hR : R t t) (a : α) :
    Follows part fault c R (Pure.pure a) (Pure.pure a : StateT S (Except E) α) t :=
  ⟨hR, fun _ => rfl⟩

theorem throw (e : E) :
    Follows part fault c R (throw (fault e) : StateT T (Except F) α) (MonadExcept.throw e) t :=
  ⟨e, rfl, fun _ => rfl⟩

theorem mono {rich : StateT T (Except F) α} {m : StateT S (Except E) α}
    (h : Follows part fault c R rich m t) (hR : ∀ t', R t t' → R' t t') :
    Follows part fault c R' rich m t :=
  wp_weaken h fun _ t' ht' => ⟨hR t' ht'.1, ht'.2⟩

/-- What the other program is matters under the condition only. -/
theorem congr {rich : StateT T (Except F) α} {m m' : StateT S (Except E) α} (hm : c → m = m')
    (h : Follows part fault c R rich m t) : Follows part fault c R rich m' t := by
  refine wp_mono h ?_ ?_
  · intro a t' ⟨hR, hrun⟩
    exact ⟨hR, fun hc => hm hc ▸ hrun hc⟩
  · rintro e ⟨e', rfl, hrun⟩
    exact ⟨e', rfl, fun hc => hm hc ▸ hrun hc⟩

/-- Sequencing. -/
theorem bind (htrans : ∀ {t t' t''}, R t t' → R t' t'' → R t t'')
    {rich : StateT T (Except F) α} {m : StateT S (Except E) α}
    {fr : α → StateT T (Except F) β} {f : α → StateT S (Except E) β}
    (h : Follows part fault c R rich m t)
    (hf : ∀ a t', R t t' → (c → m.run (part.get t) = .ok (a, part.get t')) →
      Follows part fault c R (fr a) (f a) t') :
    Follows part fault c R (rich >>= fr) (m >>= f) t := by
  unfold Follows
  rw [wp_bind]
  refine wp_mono h ?_ ?_
  · intro a t' ⟨hR, hrun⟩
    refine wp_mono (hf a t' hR hrun) ?_ ?_
    · intro b t'' ⟨hR', hrun'⟩
      exact ⟨htrans hR hR', fun hc => (run_bind_of_run (hrun hc)).trans (hrun' hc)⟩
    · rintro e ⟨e', rfl, hrun'⟩
      exact ⟨e', rfl, fun hc => (run_bind_of_run (hrun hc)).trans (hrun' hc)⟩
  · rintro e ⟨e', rfl, hrun⟩
    refine ⟨e', rfl, fun hc => ?_⟩
    rw [StateT.run_bind, hrun hc]
    rfl

/-- A step that both programs make, with what it does to the part. -/
theorem onPart_bind {m : StateT S (Except E) α} {fr : α → StateT T (Except F) β}
    {f : α → StateT S (Except E) β} (hback : ∀ {s t'}, R (part.set t s) t' → R t t')
    (hf : ∀ a s, m.run (part.get t) = .ok (a, s) →
      Follows part fault c R (fr a) (f a) (part.set t s)) :
    Follows part fault c R (onPart part fault m >>= fr) (m >>= f) t := by
  unfold Follows
  rw [wp_bind]
  cases hrun : m.run (part.get t) with
  | error e =>
      unfold wp
      rw [onPart_run_error fault hrun]
      refine ⟨e, rfl, fun _ => ?_⟩
      rw [StateT.run_bind, hrun]
      rfl
  | ok r =>
      obtain ⟨a, s⟩ := r
      refine wp_of_run (onPart_run_ok fault hrun) (wp_mono (hf a s hrun) ?_ ?_)
      · intro b t' ⟨hR, hrun'⟩
        refine ⟨hback hR, fun hc => (run_bind_of_run hrun).trans ?_⟩
        rw [← part.get_set t s]
        exact hrun' hc
      · rintro e ⟨e', rfl, hrun'⟩
        refine ⟨e', rfl, fun hc => (run_bind_of_run hrun).trans ?_⟩
        rw [← part.get_set t s]
        exact hrun' hc

/-- The last step, when both programs make it. -/
theorem onPart {m : StateT S (Except E) α}
    (hR : ∀ a s, m.run (part.get t) = .ok (a, s) → R t (part.set t s)) :
    Follows part fault c R (Library.onPart part fault m) m t := by
  unfold Follows
  cases hrun : m.run (part.get t) with
  | error e =>
      unfold wp
      rw [onPart_run_error fault hrun]
      exact ⟨e, rfl, fun _ => rfl⟩
  | ok r =>
      obtain ⟨a, s⟩ := r
      refine wp_of_run (onPart_run_ok fault hrun) ⟨hR a s hrun, fun _ => ?_⟩
      rw [part.get_set]

/-- A step on the rest of the state. -/
theorem left {x : StateT T (Except F) α} {fr : α → StateT T (Except F) β}
    {m : StateT S (Except E) β}
    (h : wp (fun _ => False) x (fun a t' => part.get t' = part.get t ∧
      (∀ t'', R t' t'' → R t t'') ∧ Follows part fault c R (fr a) m t') t) :
    Follows part fault c R (x >>= fr) m t := by
  unfold Follows
  rw [wp_bind]
  refine wp_mono h ?_ (fun _ hf => hf.elim)
  intro a t' ⟨hsame, hback, hrest⟩
  rw [← hsame]
  exact wp_weaken hrest fun b t'' ht'' => ⟨hback t'' ht''.1, ht''.2⟩

/-- Loops over a list. -/
theorem forM (hrefl : R t t) (htrans : ∀ {t t' t''}, R t t' → R t' t'' → R t t'')
    (hright : ∀ {t t'}, R t t' → R t' t') {fr : α → StateT T (Except F) PUnit}
    {f : α → StateT S (Except E) PUnit}
    (hf : ∀ a t, R t t → Follows part fault c R (fr a) (f a) t) (l : List α) :
    Follows part fault c R (l.forM fr) (l.forM f) t := by
  induction l generalizing t with
  | nil => exact pure hrefl _
  | cons a l ih =>
      rw [List.forM_eq_forM, List.forM_eq_forM, List.forM_cons, List.forM_cons]
      refine bind (R := R) htrans (hf a t hrefl) ?_
      intro _ t' hR _
      exact ih (hright hR)

end Follows

end Library
end IdeMultiarch
