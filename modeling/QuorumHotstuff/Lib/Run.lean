import Mathlib.Logic.Relation

/-!
# Runs of a step function that records its outputs

A system is a step function from a state and an input to a new state and a list of outputs.  A
configuration pairs the state with every output so far.  The environment may restrict which
input comes next by looking at the outputs so far (an input that echoes an output must have been
output before).  A run is the reflexive-transitive closure of one step, so Mathlib's
`Relation.ReflTransGen` API applies; this module adds the three rules the proofs use: invariants,
two-state properties that every step keeps, and properties kept while a guard holds.
-/

namespace QuorumHotstuff.Lib

variable {σ ε ω : Type}

/-- One step: an input the environment admits after history `p.2`, applied to the state `p.1`,
    with its outputs appended to the history. -/
def Next (step : σ → ε → σ × List ω) (allowed : List ω → ε → Prop) (p q : σ × List ω) : Prop :=
  ∃ e, allowed p.2 e ∧ q = ((step p.1 e).1, p.2 ++ (step p.1 e).2)

/-- Any number of steps. -/
abbrev Run (step : σ → ε → σ × List ω) (allowed : List ω → ε → Prop) :
    σ × List ω → σ × List ω → Prop :=
  Relation.ReflTransGen (Next step allowed)

/-- The configurations reached from an initial one. -/
def Reachable (init : σ × List ω → Prop) (step : σ → ε → σ × List ω)
    (allowed : List ω → ε → Prop) (q : σ × List ω) : Prop :=
  ∃ p, init p ∧ Run step allowed p q

variable {step : σ → ε → σ × List ω} {allowed : List ω → ε → Prop}

theorem Next.history {p q : σ × List ω} (h : Next step allowed p q) : ∃ out, q.2 = p.2 ++ out := by
  obtain ⟨e, -, rfl⟩ := h
  exact ⟨_, rfl⟩

/-- The history only grows. -/
theorem Run.history {p q : σ × List ω} (h : Run step allowed p q) : ∃ out, q.2 = p.2 ++ out := by
  induction h with
  | refl => exact ⟨[], by simp⟩
  | tail _ hn ih =>
    obtain ⟨o₁, h₁⟩ := ih
    obtain ⟨o₂, h₂⟩ := hn.history
    exact ⟨o₁ ++ o₂, by rw [h₂, h₁, List.append_assoc]⟩

/-- The invariant rule: what each admitted step keeps holds all along a run. -/
theorem Run.invariant {I : σ × List ω → Prop}
    (hstep : ∀ p e, I p → allowed p.2 e → I ((step p.1 e).1, p.2 ++ (step p.1 e).2))
    {p q : σ × List ω} (h : Run step allowed p q) (hp : I p) : I q := by
  induction h with
  | refl => exact hp
  | tail _ hn ih =>
    obtain ⟨e, he, rfl⟩ := hn
    exact hstep _ e ih he

theorem Reachable.invariant {init : σ × List ω → Prop} {I : σ × List ω → Prop}
    (hinit : ∀ p, init p → I p)
    (hstep : ∀ p e, I p → allowed p.2 e → I ((step p.1 e).1, p.2 ++ (step p.1 e).2))
    {q : σ × List ω} (h : Reachable init step allowed q) : I q := by
  obtain ⟨p, hp, hr⟩ := h
  exact Run.invariant hstep hr (hinit p hp)

/-- A run stays reachable when it goes on. -/
theorem Reachable.run {init : σ × List ω → Prop} {p q : σ × List ω}
    (hp : Reachable init step allowed p) (h : Run step allowed p q) :
    Reachable init step allowed q := by
  obtain ⟨p₀, h₀, hr⟩ := hp
  exact ⟨p₀, h₀, hr.trans h⟩

/-- The two-state rule: a reflexive and transitive relation that relates the states before and
    after each step of an invariant-satisfying configuration relates the ends of every run. -/
theorem Run.relates {I : σ × List ω → Prop} {R : σ × List ω → σ × List ω → Prop}
    (hI : ∀ p e, I p → allowed p.2 e → I ((step p.1 e).1, p.2 ++ (step p.1 e).2))
    (hrefl : ∀ p, R p p) (htrans : ∀ p q r, R p q → R q r → R p r)
    (hstep : ∀ p e, I p → allowed p.2 e → R p ((step p.1 e).1, p.2 ++ (step p.1 e).2))
    {p q : σ × List ω} (h : Run step allowed p q) (hp : I p) : R p q := by
  induction h with
  | refl => exact hrefl p
  | tail hr hn ih =>
    obtain ⟨e, he, rfl⟩ := hn
    exact htrans _ _ _ ih (hstep _ e (Run.invariant hI hr hp) he)

/-- The guarded rule: a property that each step keeps whenever the guard holds after it, with a
    guard that holds before a step whenever it holds after it, holds at every point of a run where
    the guard holds. -/
theorem Run.stable_while {I P G : σ × List ω → Prop}
    (hI : ∀ p e, I p → allowed p.2 e → I ((step p.1 e).1, p.2 ++ (step p.1 e).2))
    (hG : ∀ p e, I p → allowed p.2 e → G ((step p.1 e).1, p.2 ++ (step p.1 e).2) → G p)
    (hP : ∀ p e, I p → allowed p.2 e → P p → G ((step p.1 e).1, p.2 ++ (step p.1 e).2) →
      P ((step p.1 e).1, p.2 ++ (step p.1 e).2))
    {p q : σ × List ω} (h : Run step allowed p q) (hp : I p) (hPp : P p) (hGq : G q) : P q := by
  induction h with
  | refl => exact hPp
  | tail hr hn ih =>
    obtain ⟨e, he, rfl⟩ := hn
    have hIr := Run.invariant hI hr hp
    exact hP _ e hIr he (ih (hG _ e hIr he hGq)) hGq

/-- Feed a list of inputs one after another. -/
def runList (step : σ → ε → σ × List ω) (p : σ × List ω) (es : List ε) : σ × List ω :=
  es.foldl (fun p e => ((step p.1 e).1, p.2 ++ (step p.1 e).2)) p

/-- Inputs that the environment admits after any history make a run. -/
theorem Run.of_runList {es : List ε} (hall : ∀ e ∈ es, ∀ h, allowed h e) (p : σ × List ω) :
    Run step allowed p (runList step p es) := by
  induction es generalizing p with
  | nil => exact Relation.ReflTransGen.refl
  | cons e rest ih =>
    have hstep : Next step allowed p ((step p.1 e).1, p.2 ++ (step p.1 e).2) :=
      ⟨e, hall e List.mem_cons_self p.2, rfl⟩
    exact Relation.ReflTransGen.head hstep
      (ih (fun e' he' => hall e' (List.mem_cons_of_mem e he')) _)

/-- Feed a list of inputs one after another, each checked by a Boolean test of the history the run
    has reached when it comes; `none` at the first input the test refuses. -/
def runChecked (step : σ → ε → σ × List ω) (ok : List ω → ε → Bool) :
    σ × List ω → List ε → Option (σ × List ω)
  | p, [] => some p
  | p, e :: es =>
    if ok p.2 e then runChecked step ok ((step p.1 e).1, p.2 ++ (step p.1 e).2) es else none

/-- A checked feed whose test implies admission is a run: the admission of an input may depend on
    the history, as for an input that echoes an earlier output. -/
theorem Run.of_runChecked {ok : List ω → ε → Bool} (hok : ∀ h e, ok h e = true → allowed h e)
    {es : List ε} {p q : σ × List ω} (h : runChecked step ok p es = some q) :
    Run step allowed p q := by
  induction es generalizing p with
  | nil =>
    simp only [runChecked, Option.some.injEq] at h
    subst h
    exact Relation.ReflTransGen.refl
  | cons e rest ih =>
    simp only [runChecked] at h
    by_cases he : ok p.2 e = true
    · rw [if_pos he] at h
      exact Relation.ReflTransGen.head ⟨e, hok _ _ he, rfl⟩ (ih h)
    · rw [if_neg he] at h
      cases h

end QuorumHotstuff.Lib
