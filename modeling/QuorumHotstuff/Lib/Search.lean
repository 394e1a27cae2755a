import Mathlib.Tactic.SplitIfs
import Mathlib.Tactic.Conv

/-!
# Binary search for the first index where a predicate holds

`sort.Search(n, f)` halves `[i, j)` until it is empty, keeping every index below `i` one where `f`
fails and every index from `j` on one where it holds.  For an `f` that holds on an upper set of
`[0, n)` it returns the least index of `[0, n)` where `f` holds, or `n` where there is none
(`search_spec`).  Each round shrinks the interval, so `n` rounds are enough.
-/

namespace QuorumHotstuff.Lib

/-- The loop of `sort.Search` over `[i, j)`, with `fuel` rounds. -/
def searchLoop (f : Nat → Bool) : Nat → Nat → Nat → Nat
  | 0, i, _ => i
  | fuel + 1, i, j =>
    if i < j then
      let h := (i + j) / 2
      if !f h then searchLoop f fuel (h + 1) j else searchLoop f fuel i h
    else i

/-- `sort.Search`. -/
def search (n : Nat) (f : Nat → Bool) : Nat := searchLoop f n 0 n

example : search 5 (fun i => decide (3 ≤ i)) = 3 := by decide

section Spec

variable {f : Nat → Bool} {n : Nat}

/-- `f` holds from some point of `[0, n)` on. -/
def Upward (f : Nat → Bool) (n : Nat) : Prop := ∀ a b, a ≤ b → b < n → f a = true → f b = true

/-- The invariant of the loop: `i ≤ j ≤ n`, `f` fails below `i` and holds on `[j, n)`. -/
def Bracket (f : Nat → Bool) (n i j : Nat) : Prop :=
  i ≤ j ∧ j ≤ n ∧ (∀ k < i, f k = false) ∧ ∀ k, j ≤ k → k < n → f k = true

/-- One round keeps the bracket and shrinks it. -/
theorem Bracket.step (hf : Upward f n) {i j : Nat} (hb : Bracket f n i j) (hij : i < j) :
    (f ((i + j) / 2) = false ∧ Bracket f n ((i + j) / 2 + 1) j) ∨
      (f ((i + j) / 2) = true ∧ Bracket f n i ((i + j) / 2)) := by
  obtain ⟨-, hjn, hbelow, habove⟩ := hb
  have hmid : (i + j) / 2 < j := by omega
  cases hh : f ((i + j) / 2) with
  | false =>
    refine .inl ⟨rfl, by omega, hjn, fun k hk => ?_, habove⟩
    -- below the midpoint `f` fails, or it would hold at the midpoint
    rcases Nat.lt_or_ge k i with hki | hki
    · exact hbelow k hki
    · cases hk' : f k with
      | false => rfl
      | true =>
        have := hf k ((i + j) / 2) (by omega) (by omega) hk'
        rw [hh] at this
        cases this
  | true =>
    refine .inr ⟨rfl, by omega, by omega, hbelow, fun k hk hkn => ?_⟩
    exact hf ((i + j) / 2) k hk hkn hh

/-- With a round for each index of the bracket, the loop returns its meeting point. -/
theorem searchLoop_bracket (hf : Upward f n) :
    ∀ (fuel i j : Nat), Bracket f n i j → j - i ≤ fuel →
      Bracket f n (searchLoop f fuel i j) (searchLoop f fuel i j)
  | 0, i, j, hb, hfuel => by
    have hji : j = i := by have := hb.1; omega
    subst hji
    exact hb
  | fuel + 1, i, j, hb, hfuel => by
    simp only [searchLoop]
    split_ifs with hij hfh
    · have hfalse : f ((i + j) / 2) = false := by simpa using hfh
      rcases hb.step hf hij with ⟨-, hb'⟩ | ⟨htrue, -⟩
      · exact searchLoop_bracket hf fuel _ j hb' (by omega)
      · rw [hfalse] at htrue
        cases htrue
    · have htrue : f ((i + j) / 2) = true := by simpa using hfh
      rcases hb.step hf hij with ⟨hfalse, -⟩ | ⟨-, hb'⟩
      · rw [hfalse] at htrue
        cases htrue
      · exact searchLoop_bracket hf fuel i _ hb' (by omega)
    · have hji : j = i := by have := hb.1; omega
      subst hji
      exact hb

/-- `sort.Search` on a monotone predicate: an index of `[0, n]` below which `f` fails and from
    which it holds up to `n`. -/
theorem search_spec (hf : Upward f n) :
    search n f ≤ n ∧ (∀ k < search n f, f k = false) ∧
      ∀ k, search n f ≤ k → k < n → f k = true := by
  have hinit : Bracket f n 0 n :=
    ⟨Nat.zero_le n, Nat.le_refl n, fun _ hk => absurd hk (Nat.not_lt_zero _),
      fun _ hk hkn => absurd hkn (Nat.not_lt_of_le hk)⟩
  obtain ⟨-, hle, hbelow, habove⟩ := searchLoop_bracket hf n 0 n hinit (by omega)
  exact ⟨hle, hbelow, habove⟩

/-- The search finds an index where `f` holds exactly when there is one. -/
theorem search_lt_iff (hf : Upward f n) : search n f < n ↔ ∃ k < n, f k = true := by
  obtain ⟨hle, hbelow, habove⟩ := search_spec hf
  constructor
  · intro hlt
    exact ⟨search n f, hlt, habove _ (Nat.le_refl _) hlt⟩
  · rintro ⟨k, hkn, hk⟩
    rcases Nat.lt_or_ge (search n f) n with hlt | hge
    · exact hlt
    · have := hbelow k (by omega)
      rw [hk] at this
      cases this

end Spec

/-! ## Sorted lists -/

/-- In a list strictly sorted by an integer key `f`, the elements before index `i` are exactly
    those with a key below the element's there. -/
theorem take_eq_filter_of_pairwise {α : Type} {f : α → Int} {l : List α}
    (hl : (l.map f).Pairwise (· < ·)) {i : Nat} {x : α} (hi : l[i]? = some x) :
    l.take i = l.filter fun y => f y < f x := by
  obtain ⟨hilen, hx⟩ := List.getElem?_eq_some_iff.mp hi
  have hlt : ∀ a b (hab : a < b) (hb : b < l.length), f l[a] < f l[b] := by
    intro a b hab hb
    have hpw := List.pairwise_iff_getElem.mp hl a b (by rw [List.length_map]; omega)
      (by rw [List.length_map]; exact hb) hab
    rwa [List.getElem_map, List.getElem_map] at hpw
  conv_rhs => rw [← List.take_append_drop i l]
  rw [List.filter_append, List.filter_eq_self.mpr, List.filter_eq_nil_iff.mpr, List.append_nil]
  · -- from index `i` on, nothing is below the element there
    intro y hy
    obtain ⟨k, hk, rfl⟩ := List.mem_drop_iff_getElem.mp hy
    rw [← hx, decide_eq_true_iff, Int.not_lt]
    rcases Nat.eq_zero_or_pos k with rfl | hpos
    · exact Int.le_refl _
    · exact Int.le_of_lt (hlt i (i + k) (by omega) _)
  · intro y hy
    obtain ⟨k, hk, rfl⟩ := List.mem_take_iff_getElem.mp hy
    rw [← hx, decide_eq_true_iff]
    exact hlt k i (Nat.lt_min.mp hk).1 hilen

end QuorumHotstuff.Lib
