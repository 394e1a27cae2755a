import Mathlib.Data.List.Basic

/-!
# Where two lists first differ

`PartsAt a b d`: `a` and `b` agree below `d`, both have an element at `d`, and `a`'s is the
smaller.  For the lexicographic order this is what `a < b` means once neither list is a prefix of
the other (`exists_partsAt`, and back, `PartsAt.ordered`).  A trie walks such keys a chunk at a
time, so the lemmas here move the index with the chunk: dropping a common part (`PartsAt.drop`),
appending after both (`PartsAt.append`), and cutting the left list to a prefix that still reaches
`d`, or that stops before it and so is a prefix of the right list too.  A map that keeps the
order of the elements keeps where the lists part (`PartsAt.map`).
-/

namespace QuorumHotstuff.Lib

variable {α : Type}

section Order

variable [LT α]

/-- `a` and `b` first differ at `d`, with the smaller element in `a`. -/
def PartsAt : List α → List α → Nat → Prop
  | x :: _, y :: _, 0 => x < y
  | x :: a, y :: b, d + 1 => x = y ∧ PartsAt a b d
  | _, _, _ => False

@[simp] theorem partsAt_cons_zero {x y : α} {a b : List α} : PartsAt (x :: a) (y :: b) 0 ↔ x < y :=
  Iff.rfl

@[simp] theorem partsAt_cons_succ {x y : α} {a b : List α} {d : Nat} :
    PartsAt (x :: a) (y :: b) (d + 1) ↔ x = y ∧ PartsAt a b d :=
  Iff.rfl

@[simp] theorem partsAt_nil_left {b : List α} {d : Nat} : ¬ PartsAt [] b d := by
  cases b <;> cases d <;> simp [PartsAt]

@[simp] theorem partsAt_nil_right {a : List α} {d : Nat} : ¬ PartsAt a [] d := by
  cases a <;> cases d <;> simp [PartsAt]

/-- The elements at `d`. -/
theorem PartsAt.exists_getElem : ∀ {a b : List α} {d : Nat}, PartsAt a b d →
    ∃ x y, a[d]? = some x ∧ b[d]? = some y ∧ x < y
  | x :: _, y :: _, 0, h => ⟨x, y, rfl, rfl, h⟩
  | _ :: _, _ :: _, _ + 1, h => h.2.exists_getElem
  | [], _, _, h | _ :: _, [], _, h => by simp at h

theorem PartsAt.lt_length_left {a b : List α} {d : Nat} (h : PartsAt a b d) : d < a.length := by
  obtain ⟨x, _, hx, _⟩ := h.exists_getElem
  exact (List.getElem?_eq_some_iff.mp hx).1

theorem PartsAt.lt_length_right {a b : List α} {d : Nat} (h : PartsAt a b d) : d < b.length := by
  obtain ⟨_, y, _, hy, _⟩ := h.exists_getElem
  exact (List.getElem?_eq_some_iff.mp hy).1

/-- Below `d` the lists agree. -/
theorem PartsAt.take_eq : ∀ {a b : List α} {d : Nat}, PartsAt a b d → a.take d = b.take d
  | _ :: _, _ :: _, 0, _ => rfl
  | _ :: _, _ :: _, _ + 1, h => by simp [h.1, h.2.take_eq]
  | [], _, _, h | _ :: _, [], _, h => by simp at h

theorem PartsAt.getElem?_eq {a b : List α} {d i : Nat} (h : PartsAt a b d) (hi : i < d) :
    a[i]? = b[i]? := by
  have := congrArg (·[i]?) h.take_eq
  simpa [List.getElem?_take, hi] using this

/-- Dropping a common part moves the first difference down. -/
theorem PartsAt.drop : ∀ {a b : List α} {δ : Nat} (off : Nat), PartsAt a b (off + δ) →
    PartsAt (a.drop off) (b.drop off) δ
  | _, _, _, 0, h => by simpa using h
  | _ :: _, _ :: _, δ, off + 1, h => by
    rw [show off + 1 + δ = (off + δ) + 1 by omega] at h
    exact h.2.drop off
  | [], _, _, _ + 1, h | _ :: _, [], _, _ + 1, h => by simp at h

theorem PartsAt.append : ∀ {a b : List α} {d : Nat} (s t : List α), PartsAt a b d →
    PartsAt (a ++ s) (b ++ t) d
  | _ :: _, _ :: _, 0, _, _, h => h
  | _ :: _, _ :: _, _ + 1, s, t, h => ⟨h.1, h.2.append s t⟩
  | [], _, _, _, _, h | _ :: _, [], _, _, _, h => by simp at h

/-- A prefix of the left list that reaches `d` parts from the right one there too. -/
theorem PartsAt.restrict_left : ∀ {c a b : List α} {d : Nat}, c <+: a → d < c.length →
    PartsAt a b d → PartsAt c b d
  | [], _, _, _, _, hd, _ => by simp at hd
  | x :: c, a, b, d, hc, hd, h => by
    obtain ⟨a', rfl⟩ := hc
    cases b with
    | nil => simp at h
    | cons y b =>
      cases d with
      | zero => exact h
      | succ d =>
        exact ⟨h.1, h.2.restrict_left ⟨a', rfl⟩ (by simpa using hd)⟩

/-- A prefix of the left list that stops at or before `d` is a prefix of the right one. -/
theorem PartsAt.isPrefix_right {c a b : List α} {d : Nat} (hc : c <+: a) (hd : c.length ≤ d)
    (h : PartsAt a b d) : c <+: b := by
  have hca : c = a.take c.length := by
    obtain ⟨a', rfl⟩ := hc
    simp
  have htake : a.take c.length = b.take c.length := by
    have := congrArg (List.take c.length) h.take_eq
    rwa [List.take_take, List.take_take, Nat.min_eq_left hd] at this
  rw [hca, htake]
  exact List.take_prefix _ _

/-- Lists that part differ, and a list that parts from a second before it in the order. -/
theorem PartsAt.ordered (hirr : ∀ x : α, ¬ x < x) : ∀ {a b : List α} {d : Nat}, PartsAt a b d →
    a < b ∧ ¬ a <+: b
  | _ :: _, _ :: _, 0, h => ⟨List.Lex.rel h, fun ⟨_, ht⟩ => by
      obtain ⟨rfl, -⟩ := List.cons.inj ht
      exact hirr _ h⟩
  | _ :: _, _ :: _, _ + 1, h => by
    obtain ⟨rfl, h⟩ := h
    obtain ⟨hlt, hpre⟩ := h.ordered hirr
    exact ⟨List.Lex.cons hlt, fun hp => hpre (List.prefix_cons_inj _ |>.mp hp)⟩
  | [], _, _, h | _ :: _, [], _, h => by simp at h

/-- Two lists that agree up to their last elements part there. -/
theorem partsAt_append_singleton {x y : α} (h : x < y) :
    ∀ l : List α, PartsAt (l ++ [x]) (l ++ [y]) l.length
  | [] => h
  | _ :: l => ⟨rfl, partsAt_append_singleton h l⟩

/-- A map that keeps the order of the elements compared keeps where two lists part. -/
theorem PartsAt.map {β : Type} [LT β] {f : α → β} : ∀ {a b : List α} {d : Nat},
    (∀ x ∈ a, ∀ y ∈ b, x < y → f x < f y) → PartsAt a b d → PartsAt (a.map f) (b.map f) d
  | _ :: _, _ :: _, 0, hf, h => hf _ (by simp) _ (by simp) h
  | _ :: _, _ :: _, _ + 1, hf, h =>
    ⟨congrArg f h.1, h.2.map fun x hx y hy => hf x (by simp [hx]) y (by simp [hy])⟩
  | [], _, _, _, h | _ :: _, [], _, _, h => by simp at h

/-- Of two lists in strict lexicographic order, neither a prefix of the other, the smaller
    parts from the larger where they first differ. -/
theorem exists_partsAt {a b : List α} (hlt : a < b) (hpre : ¬ a <+: b) :
    ∃ d, PartsAt a b d := by
  induction hlt with
  | nil => exact absurd List.nil_prefix hpre
  | @cons x a b _ ih =>
    obtain ⟨d, hd⟩ := ih fun h => hpre (List.prefix_cons_inj x |>.mpr h)
    exact ⟨d + 1, rfl, hd⟩
  | rel h => exact ⟨0, h⟩

end Order

end QuorumHotstuff.Lib
