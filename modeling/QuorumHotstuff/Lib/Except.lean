import Mathlib.Logic.Basic

/-!
# Binds in `Except`

The Go functions modelled here return a value or an error, so their models run in `Except`.  A
proof peels such a computation apart with `bind_eq_ok`, one bind at a time, and runs a bind
on a known success with `bind_ok`, never unfolding the monad.
-/

namespace QuorumHotstuff.Lib

variable {α β ε : Type}

/-- A bind in `Except` succeeds iff both halves do. -/
theorem bind_eq_ok {x : Except ε α} {f : α → Except ε β} {b : β} :
    (x >>= f) = .ok b ↔ ∃ a, x = .ok a ∧ f a = .ok b := by
  cases x <;> simp [bind, Except.bind]

theorem pure_eq_ok {a b : α} : (pure a : Except ε α) = .ok b ↔ a = b := by
  simp [pure, Except.pure]

theorem bind_ok {a : α} (f : α → Except ε β) : (Except.ok a >>= f) = f a := rfl

end QuorumHotstuff.Lib
