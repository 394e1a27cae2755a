import QuorumHotstuff.Hotstuff.Types
import Mathlib.Logic.Function.Basic

/-!
# Per-transaction access lists

`core/state/access_list.go`: the addresses and storage slots a transaction has touched
(EIP-2929).  An address maps to `-1` while it has no slots, else to the index of its slot set in
`slots`.  The journal undoes `AddAddress` by `DeleteAddress` and `AddSlot` by `DeleteSlot`.
`DeleteSlot` cuts `slots` back to the index of the set it empties, which is right only because
undos come in the reverse order of the adds: a set that a slot was added to last is the last one.

A slot set (a Go map used as a set) is a list; a new slot goes in front.  Indexing `slots` out of
range is a panic, `none` here.

`WF` is what every access list a transaction builds satisfies: each address with slots indexes
a slot set, and no slot set is empty.  On such a list `AddSlot` never panics, and the deletes the
journal makes give back the list the adds started from (`deleteSlot_addFresh`,
`deleteSlot_insert`, `deleteAddress_addAddress`).
-/

namespace QuorumHotstuff.State

open QuorumHotstuff.Hotstuff (Address Hash)

/-- `accessList`. -/
structure AccessList where
  addresses : Address → Option Int
  slots : List (List Hash)

/-- `newAccessList`. -/
def newAccessList : AccessList := ⟨fun _ => none, []⟩

namespace AccessList

/-- `al.slots[idx]`, which panics on an index out of range. -/
def slotAt (al : AccessList) (idx : Int) : Option (List Hash) :=
  if 0 ≤ idx then al.slots[idx.toNat]? else none

/-- `ContainsAddress`. -/
def containsAddress (al : AccessList) (address : Address) : Bool :=
  (al.addresses address).isSome

/-- `Contains`: whether the address and whether the slot are present. -/
def contains (al : AccessList) (address : Address) (slot : Hash) : Option (Bool × Bool) :=
  match al.addresses address with
  | none => some (false, false)
  | some idx =>
    if idx = -1 then some (true, false)
    else (al.slotAt idx).map fun slotmap => (true, slotmap.contains slot)

/-- `AddAddress`: the list, and whether the address was new. -/
def addAddress (al : AccessList) (address : Address) : AccessList × Bool :=
  match al.addresses address with
  | some _ => (al, false)
  | none => ({ al with addresses := Function.update al.addresses address (some (-1)) }, true)

/-- The branch of `AddSlot` for an address without slots: a new slot set at the end. -/
def addFresh (al : AccessList) (address : Address) (slot : Hash) : AccessList :=
  ⟨Function.update al.addresses address (some al.slots.length), al.slots ++ [[slot]]⟩

/-- `AddSlot`: the list, whether the address was added, and whether the slot was. -/
def addSlot (al : AccessList) (address : Address) (slot : Hash) :
    Option (AccessList × Bool × Bool) :=
  match al.addresses address with
  | none => some (al.addFresh address slot, true, true)
  | some idx =>
    if idx = -1 then some (al.addFresh address slot, false, true)
    else (al.slotAt idx).map fun slotmap =>
      if slotmap.contains slot then (al, false, false)
      else ({ al with slots := al.slots.set idx.toNat (slot :: slotmap) }, false, true)

/-- `DeleteSlot`, which panics on an address not in the list.  A slot set it empties is cut off
    with every set after it, and the address goes back to having no slots. -/
def deleteSlot (al : AccessList) (address : Address) (slot : Hash) : Option AccessList :=
  match al.addresses address with
  | none => none
  | some idx => (al.slotAt idx).map fun slotmap =>
    if (slotmap.erase slot).length = 0 then
      ⟨Function.update al.addresses address (some (-1)), al.slots.take idx.toNat⟩
    else { al with slots := al.slots.set idx.toNat (slotmap.erase slot) }

/-- `DeleteAddress`. -/
def deleteAddress (al : AccessList) (address : Address) : AccessList :=
  { al with addresses := Function.update al.addresses address none }

/-- Every address with slots indexes a slot set, and none of those is empty. -/
def WF (al : AccessList) : Prop :=
  ∀ address idx, al.addresses address = some idx → idx ≠ -1 →
    ∃ slotmap, al.slotAt idx = some slotmap ∧ slotmap ≠ []

theorem wf_newAccessList : newAccessList.WF := fun _ _ h => by cases h

theorem slotAt_natCast (al : AccessList) (i : Nat) : al.slotAt i = al.slots[i]? := by
  simp [slotAt]

theorem slotAt_append_of_lt {al : AccessList} {idx : Int} {slotmap : List Hash}
    (h : al.slotAt idx = some slotmap) (extra : List (List Hash)) :
    (⟨al.addresses, al.slots ++ extra⟩ : AccessList).slotAt idx = some slotmap := by
  unfold slotAt at h ⊢
  split_ifs at h ⊢ with hidx
  have hlt : idx.toNat < al.slots.length := (List.getElem?_eq_some_iff.mp h).1
  rwa [List.getElem?_append_left hlt]

/-- The set at an index that `AddSlot` or `DeleteSlot` rewrites. -/
theorem slotAt_set {al : AccessList} {idx : Int} {slotmap : List Hash}
    (h : al.slotAt idx = some slotmap) (addresses : Address → Option Int) (j : Int)
    (slotmap' : List Hash) :
    (⟨addresses, al.slots.set idx.toNat slotmap'⟩ : AccessList).slotAt j =
      if j = idx then some slotmap' else al.slotAt j := by
  unfold slotAt at h ⊢
  split_ifs at h with hidx
  have hlt : idx.toNat < al.slots.length := (List.getElem?_eq_some_iff.mp h).1
  by_cases hj : j = idx
  · subst hj
    simp [hidx, hlt]
  · rw [if_neg hj]
    by_cases hj0 : 0 ≤ j
    · have hne : idx.toNat ≠ j.toNat := by omega
      simp [hj0, List.getElem?_set_ne hne]
    · simp [hj0]

/-! ## What the adds do, and what the deletes undo -/

theorem addSlot_eq_fresh {al : AccessList} {address : Address} {slot : Hash}
    (h : al.addresses address = none ∨ al.addresses address = some (-1)) :
    al.addSlot address slot =
      some (al.addFresh address slot, (al.addresses address).isNone, true) := by
  rcases h with h | h <;> simp [addSlot, h]

/-- On a well-formed list `AddSlot` does not panic. -/
theorem WF.addSlot_isSome {al : AccessList} (hal : al.WF) (address : Address) (slot : Hash) :
    (al.addSlot address slot).isSome := by
  unfold addSlot
  split
  · rfl
  · rename_i idx hidx
    split_ifs with h1
    · rfl
    · obtain ⟨slotmap, hslot, -⟩ := hal address idx hidx h1
      simp [hslot]

theorem WF.addAddress {al : AccessList} (hal : al.WF) (address : Address) :
    (al.addAddress address).1.WF := by
  unfold AccessList.addAddress
  split
  · exact hal
  · intro a idx h hne
    dsimp only at h ⊢
    by_cases ha : a = address
    · subst ha
      simp only [Function.update_self, Option.some.injEq] at h
      exact absurd h.symm hne
    · rw [Function.update_of_ne ha] at h
      exact hal a idx h hne

theorem WF.addFresh {al : AccessList} (hal : al.WF) (address : Address) (slot : Hash) :
    (al.addFresh address slot).WF := by
  intro a idx h hne
  by_cases ha : a = address
  · subst ha
    simp only [AccessList.addFresh, Function.update_self, Option.some.injEq] at h
    subst h
    refine ⟨[slot], ?_, List.cons_ne_nil _ _⟩
    rw [AccessList.addFresh, slotAt_natCast, List.getElem?_append_right (Nat.le_refl _)]
    simp
  · dsimp only [AccessList.addFresh] at h
    rw [Function.update_of_ne ha] at h
    obtain ⟨slotmap, hslot, hne'⟩ := hal a idx h hne
    exact ⟨slotmap, slotAt_append_of_lt hslot _, hne'⟩

/-- What `AddSlot` can do: make a new slot set for an address without one, add the slot to the
    address's set, or find it there already. -/
theorem addSlot_cases {al al' : AccessList} {address : Address} {slot : Hash} {c : Bool × Bool}
    (h : al.addSlot address slot = some (al', c)) :
    (al.addresses address = none ∧ al' = al.addFresh address slot ∧ c = (true, true)) ∨
    (al.addresses address = some (-1) ∧ al' = al.addFresh address slot ∧ c = (false, true)) ∨
    ∃ idx slotmap, al.addresses address = some idx ∧ idx ≠ -1 ∧ al.slotAt idx = some slotmap ∧
      ((slotmap.contains slot = true ∧ al' = al ∧ c = (false, false)) ∨
       (slotmap.contains slot = false ∧
          al' = { al with slots := al.slots.set idx.toNat (slot :: slotmap) } ∧ c = (false, true))) := by
  unfold AccessList.addSlot at h
  split at h
  · rename_i hnone
    cases h
    exact .inl ⟨hnone, rfl, rfl⟩
  · rename_i idx hidx
    split_ifs at h with h1
    · subst h1
      cases h
      exact .inr (.inl ⟨hidx, rfl, rfl⟩)
    · obtain ⟨slotmap, hslot, hres⟩ := Option.map_eq_some_iff.mp h
      refine .inr (.inr ⟨idx, slotmap, hidx, h1, hslot, ?_⟩)
      cases hmem : slotmap.contains slot with
      | true =>
        rw [hmem, if_pos rfl] at hres
        cases hres
        exact .inl ⟨rfl, rfl, rfl⟩
      | false =>
        rw [hmem] at hres
        cases hres
        exact .inr ⟨rfl, rfl, rfl⟩

/-- `AddSlot` keeps a list well formed. -/
theorem WF.addSlot {al al' : AccessList} {address : Address} {slot : Hash} {c : Bool × Bool}
    (hal : al.WF) (h : al.addSlot address slot = some (al', c)) : al'.WF := by
  rcases addSlot_cases h with ⟨-, rfl, -⟩ | ⟨-, rfl, -⟩ | ⟨idx, slotmap, -, -, hslot, hcases⟩
  · exact hal.addFresh address slot
  · exact hal.addFresh address slot
  rcases hcases with ⟨-, rfl, -⟩ | ⟨-, rfl, -⟩
  · exact hal
  · intro a j hj hne
    rw [slotAt_set hslot]
    split_ifs with hji
    · exact ⟨_, rfl, List.cons_ne_nil _ _⟩
    · exact hal a j hj hne

theorem deleteAddress_addAddress {al : AccessList} {address : Address}
    (h : al.addresses address = none) : (al.addAddress address).1.deleteAddress address = al := by
  simp only [AccessList.addAddress, h, deleteAddress, Function.update_idem]
  rw [← h, Function.update_eq_self]

/-- Deleting the slot of a set `AddSlot` made takes the set off the end and leaves the address
    without slots. -/
theorem deleteSlot_addFresh (al : AccessList) (address : Address) (slot : Hash) :
    (al.addFresh address slot).deleteSlot address slot =
      some ⟨Function.update al.addresses address (some (-1)), al.slots⟩ := by
  have hslot : (al.addFresh address slot).slotAt (al.slots.length : Int) = some [slot] := by
    rw [addFresh, slotAt_natCast, List.getElem?_append_right (Nat.le_refl _)]
    simp
  have hidx : (al.addFresh address slot).addresses address = some (al.slots.length : Int) := by
    simp [addFresh]
  simp only [deleteSlot, hidx]
  rw [hslot]
  simp [addFresh]

/-- Deleting a slot `AddSlot` put in front of a nonempty set gives back the set. -/
theorem deleteSlot_insert {al : AccessList} {address : Address} {idx : Int}
    {slotmap : List Hash} (slot : Hash) (hidx : al.addresses address = some idx)
    (hslot : al.slotAt idx = some slotmap) (hne : slotmap ≠ []) :
    ({ al with slots := al.slots.set idx.toNat (slot :: slotmap) } : AccessList).deleteSlot
      address slot = some al := by
  have hset := slotAt_set hslot al.addresses idx (slot :: slotmap)
  rw [if_pos rfl] at hset
  have hlen : (slotmap.length = 0) = False := by simpa using hne
  have hget : al.slots[idx.toNat]? = some slotmap := by
    unfold slotAt at hslot
    split_ifs at hslot
    exact hslot
  obtain ⟨hlt, hget'⟩ := List.getElem?_eq_some_iff.mp hget
  simp only [deleteSlot, hidx, hset, Option.map_some, List.erase_cons_head, hlen, if_false,
    List.set_set]
  rw [← hget', List.set_getElem_self]

end AccessList

end QuorumHotstuff.State
