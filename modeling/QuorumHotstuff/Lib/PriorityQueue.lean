import Mathlib.Data.List.Basic
import Mathlib.Data.List.Count

/-!
# Priority queues as binary heaps

`common/prque` (and the `cookiejar` queue it was copied from): a max-priority queue kept in one
array by Go's `container/heap`, the parent of index `j` at `(j - 1) / 2`.  `push` appends the item
and sifts it up; `pop?` swaps the root with the last item, sifts the new root down over the items
before the last, and takes the last item off.  Items of one priority therefore do not leave in
push order: after pushing `a`, `b` and `c` at one priority the queue pops `a`, `c`, `b`.
Priorities never wrap (`prque.New`, not `NewWrapAround`).

Each sift is a loop of `container/heap`, run here on fuel for its number of rounds: `up` and
`down` are given the fuel that `up_fuel` and `down_fuel` show to be enough, so the fuel is never
what stops them.
-/

namespace QuorumHotstuff.Lib

/-- A max-priority queue: the heap array of items with their priorities. -/
structure PQueue (α : Type) where
  items : List (α × Int)
deriving DecidableEq, Repr

namespace PQueue

variable {α : Type}

/-- The empty queue. -/
def empty : PQueue α := ⟨[]⟩

/-- The number of queued items. -/
def size (q : PQueue α) : Nat := q.items.length

/-- Whether the queue holds no item. -/
def isEmpty (q : PQueue α) : Bool := q.items.isEmpty

/-- `Less` of `sstack`: the item at `i` has the greater priority. -/
def less (l : List (α × Int)) (i j : Nat) : Bool :=
  match l[i]?, l[j]? with
  | some a, some b => decide (b.2 < a.2)
  | _, _ => false

/-- `up` of `container/heap`: swap the item at `j` with its parent while it has the greater
priority. -/
def up : Nat → List (α × Int) → Nat → List (α × Int)
  | 0, l, _ => l
  | fuel + 1, l, j =>
    let i := (j - 1) / 2
    if i = j ∨ !less l j i then l else up fuel (l.swap i j) i

/-- `down` of `container/heap` over the first `n` items: swap the item at `i` with its child of
greater priority (the left one on a tie) while that child's priority is greater. -/
def down : Nat → List (α × Int) → Nat → Nat → List (α × Int)
  | 0, l, _, _ => l
  | fuel + 1, l, i, n =>
    let j1 := 2 * i + 1
    if n ≤ j1 then l
    else
      let j := if j1 + 1 < n ∧ less l (j1 + 1) j1 then j1 + 1 else j1
      if !less l j i then l else down fuel (l.swap i j) j n

/-- `Push`: `heap.Push`, the item appended and sifted up from the last index. -/
def push (q : PQueue α) (a : α) (p : Int) : PQueue α :=
  ⟨up q.items.length (q.items ++ [(a, p)]) q.items.length⟩

/-- `Pop`: `heap.Pop`, the root swapped with the last item, sifted down over the others, and the
last item taken off; `none` on the empty queue, where the callers never pop. -/
def pop? (q : PQueue α) : Option ((α × Int) × PQueue α) :=
  let n := q.items.length - 1
  let l := down n (q.items.swap 0 n) 0 n
  match l.getLast? with
  | none => none
  | some x => some (x, ⟨l.dropLast⟩)

/-- The loop both engines run over a queue of pending requests or backlogged messages: pop items
in priority order, push the first one `check` calls future back and stop, drop the others it
refuses, and emit those it passes.  The callers give the queue's size as fuel (`drain_fuel`). -/
def drain {ε β : Type} (check : α → Option ε) (future : ε → Bool) (emit : α → β) :
    Nat → PQueue α → PQueue α × List β
  | 0, q => (q, [])
  | fuel + 1, q =>
    match q.pop? with
    | none => (q, [])
    | some ((a, prio), q') =>
      match check a with
      | some e => if future e then (q'.push a prio, []) else drain check future emit fuel q'
      | none =>
        let (q'', out) := drain check future emit fuel q'
        (q'', emit a :: out)

/-- Pushing `a`, `b`, `c` at one priority pops `a`, then `c`, then `b`. -/
example : ((((empty.push 'a' 0).push 'b' 0).push 'c' 0).pop?.map (·.1.1)) = some 'a' ∧
    ((((empty.push 'a' 0).push 'b' 0).push 'c' 0).pop?.bind (·.2.pop?)).map (·.1.1) = some 'c' := by
  decide

/-! ## The fuel of the sifts -/

/-- A sift up from `j` runs at most `j` rounds: more fuel changes nothing. -/
theorem up_fuel (l : List (α × Int)) (j : Nat) : ∀ fuel, j ≤ fuel → up (fuel + 1) l j = up fuel l j
  | 0, hj => by
    obtain rfl : j = 0 := by omega
    simp [up]
  | fuel + 1, hj => by
    unfold up
    by_cases hstop : (j - 1) / 2 = j ∨ !less l j ((j - 1) / 2)
    · simp only [if_pos hstop]
    · simp only [if_neg hstop]
      -- the parent index is below `j`, which is not the root
      have hj0 : j ≠ 0 := by rintro rfl; simp at hstop
      exact up_fuel _ _ fuel (by omega)

/-- A sift down from `i` over `n` items runs at most `n - i` rounds: more fuel changes nothing. -/
theorem down_fuel (l : List (α × Int)) (i n : Nat) :
    ∀ fuel, n ≤ i + fuel → down (fuel + 1) l i n = down fuel l i n
  | 0, hn => by
    simp only [down, Nat.add_zero] at hn ⊢
    rw [if_pos (by omega)]
  | fuel + 1, hn => by
    unfold down
    dsimp only
    by_cases hleaf : n ≤ 2 * i + 1
    · simp only [if_pos hleaf]
    · simp only [if_neg hleaf]
      -- the child swapped with is above `i`, the right one or the left one
      split_ifs with hright hstop hstop
      · rfl
      · exact down_fuel _ (2 * i + 1 + 1) n fuel (by omega)
      · rfl
      · exact down_fuel _ (2 * i + 1) n fuel (by omega)

/-! ## The items a queue holds -/

@[simp] theorem length_up : ∀ (fuel : Nat) (l : List (α × Int)) (j : Nat),
    (up fuel l j).length = l.length
  | 0, _, _ => rfl
  | fuel + 1, l, j => by
    unfold up
    dsimp only
    split_ifs
    · rfl
    · rw [length_up fuel, List.length_swap]

@[simp] theorem length_down : ∀ (fuel : Nat) (l : List (α × Int)) (i n : Nat),
    (down fuel l i n).length = l.length
  | 0, _, _, _ => rfl
  | fuel + 1, l, i, n => by
    unfold down
    dsimp only
    split_ifs <;> simp only [length_down fuel, List.length_swap]

/-- A sift only moves items. -/
theorem up_perm : ∀ (fuel : Nat) (l : List (α × Int)) (j : Nat), (up fuel l j).Perm l
  | 0, l, _ => .refl l
  | fuel + 1, l, j => by
    unfold up
    dsimp only
    split_ifs
    · exact .refl l
    · exact (up_perm fuel _ _).trans (List.swap_perm l _ _)

theorem down_perm : ∀ (fuel : Nat) (l : List (α × Int)) (i n : Nat), (down fuel l i n).Perm l
  | 0, l, _, _ => .refl l
  | fuel + 1, l, i, n => by
    unfold down
    dsimp only
    split_ifs <;> first
      | exact .refl l
      | exact (down_perm fuel _ _ _).trans (List.swap_perm l _ _)

/-- A push adds its item to those queued. -/
theorem push_perm (q : PQueue α) (a : α) (p : Int) : (q.push a p).items.Perm (q.items ++ [(a, p)]) :=
  up_perm _ _ _

@[simp] theorem size_push (q : PQueue α) (a : α) (p : Int) : (q.push a p).size = q.size + 1 := by
  simp [push, size]

theorem pop?_eq_none_iff (q : PQueue α) : q.pop? = none ↔ q.items = [] := by
  unfold pop?
  dsimp only
  split
  · rename_i h
    -- nothing is left to take only when the sifted array, a permutation of the items, is empty
    have hperm := (down_perm (q.items.length - 1) _ 0 (q.items.length - 1)).trans
      (List.swap_perm q.items 0 (q.items.length - 1))
    rw [List.getLast?_eq_none_iff.mp h] at hperm
    simpa using List.perm_nil.mp hperm.symm
  · rename_i x h
    simp only [reduceCtorEq, false_iff]
    rintro hq
    simp [hq, down] at h

/-- A pop takes one queued item off and leaves the others. -/
theorem pop?_perm {q q' : PQueue α} {x : α × Int} (h : q.pop? = some (x, q')) :
    (x :: q'.items).Perm q.items := by
  unfold pop? at h
  dsimp only at h
  split at h
  · cases h
  · rename_i y hy
    cases h
    have hsplit := List.dropLast_append_getLast? _ hy
    have hperm := (down_perm (q.items.length - 1) _ 0 (q.items.length - 1)).trans
      (List.swap_perm q.items 0 (q.items.length - 1))
    rw [← hsplit] at hperm
    exact List.perm_append_singleton _ _ |>.symm.trans hperm

/-- Popping shortens the queue by one item. -/
theorem size_pop? {q q' : PQueue α} {x : α × Int} (h : q.pop? = some (x, q')) :
    q'.size + 1 = q.size := by
  simpa [size] using (pop?_perm h).length_eq

/-! ## Draining a queue -/

section Drain

variable {ε β : Type} (check : α → Option ε) (future : ε → Bool) (emit : α → β)

/-- A drain pops at most as many items as the queue holds: more fuel changes nothing. -/
theorem drain_fuel : ∀ (fuel : Nat) (q : PQueue α), q.size ≤ fuel →
    drain check future emit (fuel + 1) q = drain check future emit fuel q
  | 0, q, hq => by
    -- an empty queue has nothing to pop
    have hnil : q.items = [] := List.eq_nil_of_length_eq_zero (Nat.le_zero.mp hq)
    unfold drain
    rw [(pop?_eq_none_iff q).mpr hnil]
  | fuel + 1, q, hq => by
    unfold drain
    split
    · rfl
    · rename_i a prio q' hpop
      have hsize : q'.size ≤ fuel := by
        have := size_pop? hpop
        omega
      split
      · split
        · rfl
        · exact drain_fuel fuel q' hsize
      · rw [drain_fuel fuel q' hsize]

/-- A drain keeps only queued items and emits only queued items that the check passes. -/
theorem drain_spec : ∀ (fuel : Nat) (q : PQueue α),
    (drain check future emit fuel q).1.items.Subperm q.items ∧
      ∀ b ∈ (drain check future emit fuel q).2, ∃ a ∈ q.items.map (·.1), check a = none ∧ b = emit a
  | 0, q => ⟨List.Subperm.refl _, by simp [drain]⟩
  | fuel + 1, q => by
    unfold drain
    split
    · exact ⟨List.Subperm.refl _, by simp⟩
    · rename_i a prio q' hpop
      -- the popped item and the rest are the queue's items
      have hperm := pop?_perm hpop
      have hrest : q'.items.Subperm q.items := (List.sublist_cons_self _ _).subperm.trans hperm.subperm
      have hmem : a ∈ q.items.map (·.1) := List.mem_map.mpr ⟨(a, prio), hperm.subset List.mem_cons_self, rfl⟩
      obtain ⟨ih₁, ih₂⟩ := drain_spec fuel q'
      have ih₂' : ∀ b ∈ (drain check future emit fuel q').2, ∃ a ∈ q.items.map (·.1),
          check a = none ∧ b = emit a := by
        intro b hb
        obtain ⟨a', ha', hc, rfl⟩ := ih₂ b hb
        exact ⟨a', List.map_subset _ hrest.subset ha', hc, rfl⟩
      split
      · rename_i e hce
        split
        · -- a future item goes back: the queue is the one popped from
          refine ⟨((push_perm q' a prio).trans (List.perm_append_singleton _ _)).trans hperm |>.subperm, by simp⟩
        · exact ⟨ih₁.trans hrest, ih₂'⟩
      · rename_i hce
        refine ⟨ih₁.trans hrest, ?_⟩
        intro b hb
        rcases List.mem_cons.mp hb with rfl | hb
        · exact ⟨a, hmem, hce, rfl⟩
        · exact ih₂' b hb

end Drain

end PQueue

end QuorumHotstuff.Lib
