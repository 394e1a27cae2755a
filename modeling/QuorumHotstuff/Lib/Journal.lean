import Mathlib.Data.Option.Basic

/-!
# Undo logs

A journal keeps, for each change made to a state, an entry whose undo puts back what the change
overwrote; an undo may fail (a panic).  Reverting to a point of the journal undoes the entries
after it from the last back (`undoAll`).

A run is journaled from a state `s` (`Journaled`) when each of its steps appends entries whose
undo takes the state back to the one before the step, up to a relation `r` the undos respect, or
is itself a revert of the entries it drops.  Undoing everything the run appended then takes its
last state back to `s`, up to `r` (`Journaled.undoAll_eq`).
-/

namespace QuorumHotstuff.Lib

variable {σ ε : Type} (undo : ε → σ → Option σ)

/-- Undo the entries from the last back to the first. -/
def undoAll (es : List ε) (s : σ) : Option σ :=
  es.foldr (fun e acc => acc.bind (undo e)) (some s)

@[simp] theorem undoAll_nil (s : σ) : undoAll undo [] s = some s := rfl

theorem undoAll_cons (e : ε) (es : List ε) (s : σ) :
    undoAll undo (e :: es) s = (undoAll undo es s).bind (undo e) := rfl

/-- The later entries are undone first. -/
theorem undoAll_append (es fs : List ε) (s : σ) :
    undoAll undo (es ++ fs) s = (undoAll undo fs s).bind (undoAll undo es) := by
  induction es with
  | nil =>
    rw [List.nil_append]
    cases undoAll undo fs s <;> rfl
  | cons e es ih =>
    rw [List.cons_append, undoAll_cons, ih]
    cases undoAll undo fs s with
    | none => rfl
    | some t => rfl

section Respect

variable {undo} {r : σ → σ → Prop}

/-- Each undo takes related states to related states, or fails on both. -/
def Respects (undo : ε → σ → Option σ) (r : σ → σ → Prop) : Prop :=
  ∀ e s t, r s t → Option.Rel r (undo e s) (undo e t)

theorem Respects.undoAll (h : Respects undo r) (es : List ε) {s t : σ} (hst : r s t) :
    Option.Rel r (Lib.undoAll undo es s) (Lib.undoAll undo es t) := by
  induction es with
  | nil => exact .some hst
  | cons e es ih =>
    rw [undoAll_cons, undoAll_cons]
    generalize Lib.undoAll undo es s = a at ih ⊢
    generalize Lib.undoAll undo es t = b at ih ⊢
    cases ih with
    | none => exact .none
    | some hab => exact h e _ _ hab

/-- A run from `s` to `t` that appended `es` to the journal. -/
inductive Journaled (undo : ε → σ → Option σ) (r : σ → σ → Prop) (s : σ) : σ → List ε → Prop
  /-- The run that has not started. -/
  | refl : Journaled undo r s s []
  /-- A step that appends `fs`, whose undo gives back the state before it up to `r`. -/
  | step {t t' : σ} {es fs : List ε} : Journaled undo r s t es →
      (∃ u, Lib.undoAll undo fs t' = some u ∧ r u t) → Journaled undo r s t' (es ++ fs)
  /-- A revert of the entries `fs` the run appended last. -/
  | revert {t t' : σ} {es fs : List ε} : Journaled undo r s t (es ++ fs) →
      Lib.undoAll undo fs t = some t' → Journaled undo r s t' es

/-- Undoing what a journaled run appended gives back its first state, up to `r`.  By induction
    on the run: a step's own undo leads back to the state before it, and the undos of the earlier
    entries respect `r`. -/
theorem Journaled.undoAll_eq (hr : Equivalence r) (hresp : Respects undo r) {s t : σ}
    {es : List ε} (h : Journaled undo r s t es) : ∃ u, Lib.undoAll undo es t = some u ∧ r u s := by
  induction h with
  | refl => exact ⟨s, rfl, hr.refl s⟩
  | @step t t' es fs _ hstep ih =>
    obtain ⟨u, hu, hut⟩ := hstep
    obtain ⟨v, hv, hvs⟩ := ih
    rw [undoAll_append, hu, Option.bind_some]
    -- the earlier entries undo the same from `u` as from `t`
    have hrel := hresp.undoAll es hut
    rw [hv] at hrel
    generalize Lib.undoAll undo es u = w at hrel ⊢
    cases hrel with
    | some hwv => exact ⟨_, rfl, hr.trans hwv hvs⟩
  | @revert t t' es fs _ hundo ih =>
    obtain ⟨v, hv, hvs⟩ := ih
    rw [undoAll_append, hundo, Option.bind_some] at hv
    exact ⟨v, hv, hvs⟩

end Respect

end QuorumHotstuff.Lib
