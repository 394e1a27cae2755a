import QuorumHotstuff.Trie.Node
import Mathlib.Data.List.Infix

/-!
# The map a trie stands for, and its canonical form

`look` is the map a node stands for: a short node consumes its key, a full node one nibble, a
value node answers the empty rest of a key.  `Canonical` is the minimal form `delete` keeps:
no short node with an empty key or over a short node or nil, no full node with fewer than two
children.  A canonical node is determined by its map (`Canonical.eq_of_look`): the shape of a
trie in that form does not depend on how it was built.
-/

namespace QuorumHotstuff.Trie

namespace Node

/-- The value a node stores at a key. -/
def look : Node → List Nibble → Option (List UInt8)
  | .nil, _ => none
  | .value v, [] => some v
  | .value _, _ :: _ => none
  | .short k c, key => if k <+: key then c.look (key.drop k.length) else none
  | .full _, [] => none
  | .full cs, i :: r => (cs i).look r

@[simp] theorem look_nil (key : List Nibble) : Node.nil.look key = none := rfl

@[simp] theorem look_value_nil (v : List UInt8) : (Node.value v).look [] = some v := rfl

@[simp] theorem look_value_cons (v : List UInt8) (c : Nibble) (r : List Nibble) :
    (Node.value v).look (c :: r) = none := rfl

@[simp] theorem look_full_nil (cs : Fin 17 → Node) : (Node.full cs).look [] = none := rfl

@[simp] theorem look_full_cons (cs : Fin 17 → Node) (i : Nibble) (r : List Nibble) :
    (Node.full cs).look (i :: r) = (cs i).look r := rfl

theorem look_short (k : List Nibble) (c : Node) (key : List Nibble) :
    (Node.short k c).look key = if k <+: key then c.look (key.drop k.length) else none := by
  cases key <;> rfl

@[simp] theorem look_short_append (k : List Nibble) (c : Node) (r : List Nibble) :
    (Node.short k c).look (k ++ r) = c.look r := by
  simp [look_short]

theorem look_short_eq_none {k key : List Nibble} (c : Node) (h : ¬ k <+: key) :
    (Node.short k c).look key = none := by
  simp [look_short, h]

theorem look_short_eq_some {k key : List Nibble} {c : Node} {v : List UInt8} :
    (Node.short k c).look key = some v ↔ ∃ r, key = k ++ r ∧ c.look r = some v := by
  constructor
  · intro h
    by_cases hk : k <+: key
    · obtain ⟨r, rfl⟩ := hk
      exact ⟨r, rfl, by simpa using h⟩
    · simp [look_short_eq_none c hk] at h
  · rintro ⟨r, rfl, h⟩
    simpa using h

theorem look_value_eq_some {w v : List UInt8} {key : List Nibble} :
    (Node.value w).look key = some v ↔ key = [] ∧ w = v := by
  cases key <;> simp

/-- A short node with an empty key stands for its child's map. -/
@[simp] theorem look_short_nil (c : Node) (key : List Nibble) :
    (Node.short [] c).look key = c.look key := by
  simp [look_short]

/-- A short node over a short node stands for the map of the merged one. -/
theorem look_short_short (k ck : List Nibble) (cv : Node) (key : List Nibble) :
    (Node.short (k ++ ck) cv).look key = (Node.short k (.short ck cv)).look key := by
  by_cases hk : k <+: key
  · obtain ⟨r, rfl⟩ := hk
    rw [look_short_append, look_short, look_short]
    simp [List.prefix_append_right_inj]
  · have hkk : ¬ (k ++ ck) <+: key := fun h => hk ((List.prefix_append k ck).trans h)
    rw [look_short_eq_none _ hk, look_short_eq_none _ hkk]

end Node

theorem look_newLeaf (k : List Nibble) (c : Node) (key : List Nibble) :
    (newLeaf k c).look key = (Node.short k c).look key := by
  cases k with
  | nil => simp [newLeaf]
  | cons _ _ => rfl

theorem look_mergeShort (k : List Nibble) (c : Node) (key : List Nibble) :
    (mergeShort k c).look key = (Node.short k c).look key := by
  cases c with
  | short ck cv => exact Node.look_short_short k ck cv key
  | _ => rfl

/-! ## The children of a full node -/

/-- The indices of a full node's children that are not nil. -/
def occupied (cs : Fin 17 → Node) : List (Fin 17) :=
  (List.finRange 17).filter fun i => !(cs i).isNil

theorem mem_occupied {cs : Fin 17 → Node} {i : Fin 17} : i ∈ occupied cs ↔ cs i ≠ .nil := by
  simp [occupied, Node.isNil_eq_false]

theorem occupied_nodup (cs : Fin 17 → Node) : (occupied cs).Nodup :=
  (List.nodup_finRange 17).filter _

/-- Two children of a full node with two or more. -/
theorem exists_two_of_occupied {cs : Fin 17 → Node} (h : 2 ≤ (occupied cs).length) :
    ∃ i j, i ≠ j ∧ cs i ≠ .nil ∧ cs j ≠ .nil := by
  have hnodup := occupied_nodup cs
  rcases hocc : occupied cs with _ | ⟨i, _ | ⟨j, rest⟩⟩
  · simp [hocc] at h
  · simp [hocc] at h
  · rw [hocc] at hnodup
    have hij : i ≠ j := fun hij => (List.nodup_cons.mp hnodup).1 (by simp [hij])
    exact ⟨i, j, hij, mem_occupied.mp (by simp [hocc]), mem_occupied.mp (by simp [hocc])⟩

/-- Setting one child to a node that is not nil keeps every other child. -/
theorem occupied_length_le_update (cs : Fin 17 → Node) (c : Fin 17) {nn : Node}
    (hnn : nn ≠ .nil) : (occupied cs).length ≤ (occupied (Function.update cs c nn)).length := by
  apply List.Sublist.length_le
  apply List.monotone_filter_right
  intro i hi
  by_cases hic : i = c
  · subst hic
    simp [Node.isNil_eq_false.mpr hnn]
  · simpa [Function.update_of_ne hic] using hi

/-- A child other than the one set stays, so a node with two children keeps one. -/
theorem occupied_update_pos {cs : Fin 17 → Node} (h : 2 ≤ (occupied cs).length) (c : Fin 17)
    (nn : Node) : 1 ≤ (occupied (Function.update cs c nn)).length := by
  obtain ⟨i, j, hij, hi, hj⟩ := exists_two_of_occupied h
  have hmem : ∃ k, k ≠ c ∧ cs k ≠ .nil := by
    by_cases hic : i = c
    · exact ⟨j, fun hjc => hij (hic.trans hjc.symm), hj⟩
    · exact ⟨i, hic, hi⟩
  obtain ⟨k, hkc, hk⟩ := hmem
  have : k ∈ occupied (Function.update cs c nn) := by
    rw [mem_occupied, Function.update_of_ne hkc]
    exact hk
  exact List.length_pos_of_mem this

/-! ## The loop of `delete` -/

/-- `pos` after one more child that is not nil. -/
def Pos.push : Pos → Fin 17 → Pos
  | .none, i => .one i
  | _, _ => .many

/-- `pos` after a list of children none of them nil, from `-1`. -/
def Pos.ofList : List (Fin 17) → Pos
  | [] => .none
  | [p] => .one p
  | _ :: _ :: _ => .many

theorem foldl_push_many (l : List (Fin 17)) : l.foldl Pos.push .many = .many := by
  induction l with
  | nil => rfl
  | cons _ _ ih => exact ih

theorem foldl_push_none (l : List (Fin 17)) : l.foldl Pos.push .none = Pos.ofList l := by
  rcases l with _ | ⟨p, _ | ⟨q, rest⟩⟩
  · rfl
  · rfl
  · exact foldl_push_many rest

/-- The loop skips nil children and pushes the others. -/
theorem foldl_next (cs : Fin 17 → Node) (l : List (Fin 17)) (s : Pos) :
    l.foldl (Pos.next cs) s = (l.filter fun i => !(cs i).isNil).foldl Pos.push s := by
  induction l generalizing s with
  | nil => rfl
  | cons i l ih =>
    by_cases hi : (cs i).isNil
    · simp [Pos.next, hi, ih]
    · have hnext : Pos.next cs s i = Pos.push s i := by
        cases s <;> simp [Pos.next, Pos.push, hi]
      simp [hi, hnext, ih]

theorem childPos_eq (cs : Fin 17 → Node) : childPos cs = Pos.ofList (occupied cs) := by
  rw [childPos, foldl_next, ← foldl_push_none]
  rfl

/-- The one child left is the only index that is not nil. -/
theorem childPos_one {cs : Fin 17 → Node} {p : Fin 17} (h : childPos cs = .one p) :
    cs p ≠ .nil ∧ ∀ i, i ≠ p → cs i = .nil := by
  rw [childPos_eq] at h
  rcases hocc : occupied cs with _ | ⟨q, _ | ⟨q', rest⟩⟩ <;> rw [hocc] at h <;>
    simp only [Pos.ofList, reduceCtorEq, Pos.one.injEq] at h
  subst h
  refine ⟨mem_occupied.mp (by simp [hocc]), fun i hi => ?_⟩
  by_contra hne
  have : i ∈ occupied cs := mem_occupied.mpr hne
  simp [hocc, hi] at this

theorem childPos_many {cs : Fin 17 → Node} (h : childPos cs = .many) :
    2 ≤ (occupied cs).length := by
  rw [childPos_eq] at h
  rcases hocc : occupied cs with _ | ⟨q, _ | ⟨q', rest⟩⟩ <;> rw [hocc] at h <;>
    simp_all [Pos.ofList]

theorem childPos_none {cs : Fin 17 → Node} (h : childPos cs = .none) : occupied cs = [] := by
  rw [childPos_eq] at h
  rcases hocc : occupied cs with _ | ⟨q, _ | ⟨q', rest⟩⟩ <;> rw [hocc] at h <;>
    simp_all [Pos.ofList]

theorem reduceFull_one {cs : Fin 17 → Node} {p : Fin 17} (h : childPos cs = .one p) :
    reduceFull cs = if p ≠ 16 then mergeShort [p] (cs p) else .short [p] (cs p) := by
  rw [reduceFull, h]

theorem reduceFull_of_not_one {cs : Fin 17 → Node} (h : ∀ p, childPos cs ≠ .one p) :
    reduceFull cs = .full cs := by
  unfold reduceFull
  split
  · exact absurd ‹_› (h _)
  · rfl

/-- Reducing a full node keeps its map. -/
theorem look_reduceFull (cs : Fin 17 → Node) (key : List Nibble) :
    (reduceFull cs).look key = (Node.full cs).look key := by
  cases hpos : childPos cs with
  | one p =>
    obtain ⟨-, hothers⟩ := childPos_one hpos
    -- with one child left, the full node is a short node of that child's index
    have hshort : (Node.short [p] (cs p)).look key = (Node.full cs).look key := by
      rcases key with _ | ⟨i, r⟩
      · rfl
      · by_cases hip : i = p
        · subst hip
          exact Node.look_short_append [i] (cs i) r
        · have hnot : ¬ [p] <+: i :: r := by simp [Ne.symm hip]
          rw [Node.look_short_eq_none _ hnot, Node.look_full_cons, hothers i hip]
          rfl
    rw [reduceFull_one hpos]
    split_ifs
    · rw [look_mergeShort, hshort]
    · exact hshort
  | none => rw [reduceFull_of_not_one (by simp [hpos])]
  | many => rw [reduceFull_of_not_one (by simp [hpos])]

/-! ## The canonical form -/

namespace Node

/-- The nodes a canonical short node may point to. -/
def valueOrFull : Node → Bool
  | .value _ => true
  | .full _ => true
  | _ => false

theorem ne_nil_of_valueOrFull {n : Node} (h : n.valueOrFull = true) : n ≠ .nil := by
  rintro rfl
  simp [valueOrFull] at h

theorem valueOrFull_iff {n : Node} :
    n.valueOrFull = true ↔ (∃ w, n = .value w) ∨ ∃ cs, n = .full cs := by
  cases n <;> simp [valueOrFull]

end Node

/-- The canonical minimal form. -/
inductive Canonical : Node → Prop
  | nil : Canonical .nil
  | value (v : List UInt8) : Canonical (.value v)
  | short {k : List Nibble} {c : Node} :
      k ≠ [] → c.valueOrFull = true → Canonical c → Canonical (.short k c)
  | full {cs : Fin 17 → Node} :
      (∀ i, Canonical (cs i)) → 2 ≤ (occupied cs).length → Canonical (.full cs)

theorem Canonical.exists_look {n : Node} (h : Canonical n) (hn : n ≠ .nil) :
    ∃ key v, n.look key = some v := by
  induction h with
  | nil => exact absurd rfl hn
  | value v => exact ⟨[], v, rfl⟩
  | @short k c _ hc _ ih =>
    obtain ⟨key, v, hkey⟩ := ih (Node.ne_nil_of_valueOrFull hc)
    exact ⟨k ++ key, v, by simpa using hkey⟩
  | @full cs _ hocc ih =>
    obtain ⟨i, -, -, hi, -⟩ := exists_two_of_occupied hocc
    obtain ⟨key, v, hkey⟩ := ih i hi
    exact ⟨i :: key, v, hkey⟩

theorem Canonical.eq_nil {n : Node} (h : Canonical n) (hlook : ∀ key, n.look key = none) :
    n = .nil := by
  by_contra hn
  obtain ⟨key, v, hkey⟩ := h.exists_look hn
  simp [hlook key] at hkey

/-- A canonical full node stores keys under two different first nibbles. -/
theorem Canonical.two_nibbles {cs : Fin 17 → Node} (h : Canonical (.full cs)) :
    ∃ i j, i ≠ j ∧ (∃ r v, (cs i).look r = some v) ∧ (∃ r v, (cs j).look r = some v) := by
  cases h with
  | full hcs hocc =>
    obtain ⟨i, j, hij, hi, hj⟩ := exists_two_of_occupied hocc
    exact ⟨i, j, hij, (hcs i).exists_look hi, (hcs j).exists_look hj⟩

/-- A canonical short node and a canonical full node never store the same map: the short
    node's keys share their first nibble. -/
theorem Canonical.short_ne_full {k : List Nibble} {c : Node} {cs : Fin 17 → Node}
    (ha : Canonical (.short k c)) (hb : Canonical (.full cs)) :
    ¬ ∀ key, (Node.short k c).look key = (Node.full cs).look key := by
  intro h
  obtain ⟨i, j, hij, ⟨r₁, v₁, h₁⟩, ⟨r₂, v₂, h₂⟩⟩ := hb.two_nibbles
  have hk : k ≠ [] := by cases ha; assumption
  obtain ⟨x, k', rfl⟩ := List.exists_cons_of_ne_nil hk
  -- both keys start with the short node's first nibble
  have first : ∀ i r v, (cs i).look r = some v → x = i := by
    intro i r v hr
    rw [← Node.look_full_cons, ← h] at hr
    obtain ⟨s, hs, -⟩ := Node.look_short_eq_some.mp hr
    simp only [List.cons_append, List.cons.injEq] at hs
    exact hs.1.symm
  exact hij ((first i r₁ v₁ h₁).symm.trans (first j r₂ v₂ h₂))

/-- Of two canonical short nodes with one map, the one whose key is a prefix of the other's has
    the same key. -/
theorem Canonical.short_key_eq {k k' : List Nibble} {c c' : Node}
    (ha : Canonical (.short k c)) (hb : Canonical (.short k' c'))
    (h : ∀ key, (Node.short k c).look key = (Node.short k' c').look key) (hp : k <+: k') :
    k = k' := by
  obtain ⟨t, rfl⟩ := hp
  rcases t with _ | ⟨x, t⟩
  · simp
  exfalso
  cases ha with
  | short _ hc hcan =>
  -- every key of the second node extends `k ++ x :: t`
  have ext : ∀ key v, (Node.short k c).look key = some v → k ++ x :: t <+: key := by
    intro key v hkey
    rw [h] at hkey
    obtain ⟨s, rfl, -⟩ := Node.look_short_eq_some.mp hkey
    exact List.prefix_append _ _
  rcases Node.valueOrFull_iff.mp hc with ⟨w, rfl⟩ | ⟨cs, rfl⟩
  · -- the only key of the first node is `k` itself, too short
    have hk := ext k w (by simpa using Node.look_short_append k (.value w) [])
    have := hk.length_le
    simp at this
  · obtain ⟨i, j, hij, ⟨r₁, v₁, h₁⟩, ⟨r₂, v₂, h₂⟩⟩ := hcan.two_nibbles
    have e₁ := ext (k ++ i :: r₁) v₁ (by simpa using h₁)
    have e₂ := ext (k ++ j :: r₂) v₂ (by simpa using h₂)
    rw [List.prefix_append_right_inj, List.cons_prefix_cons] at e₁ e₂
    exact hij (e₁.1.symm.trans e₂.1)

/-- A canonical node is determined by its map. -/
theorem Canonical.eq_of_look {a b : Node} (ha : Canonical a) (hb : Canonical b)
    (h : ∀ key, a.look key = b.look key) : a = b := by
  induction ha generalizing b with
  | nil => exact (hb.eq_nil fun key => (h key).symm).symm
  | value v =>
    cases hb with
    | value w => simpa using h []
    | nil => simpa using h []
    | short hk _ _ => simpa [Node.look_short, List.prefix_nil, hk] using h []
    | full _ _ => simpa using h []
  | @short k c hk hc hcan ih =>
    cases hb with
    | nil => exact absurd ((Canonical.short hk hc hcan).eq_nil h) (by simp)
    | value w => simpa [Node.look_short, List.prefix_nil, hk] using h []
    | @short k' c' hk' hc' hcan' =>
      have ha := Canonical.short hk hc hcan
      have hb := Canonical.short hk' hc' hcan'
      -- both keys are prefixes of a key the nodes store, so one is a prefix of the other
      obtain ⟨key, v, hkey⟩ := ha.exists_look (by simp)
      have hpk : k <+: key := (Node.look_short_eq_some.mp hkey).elim fun r hr => hr.1 ▸ by simp
      have hpk' : k' <+: key := by
        rw [h] at hkey
        exact (Node.look_short_eq_some.mp hkey).elim fun r hr => hr.1 ▸ by simp
      have hkk : k = k' := by
        rcases le_total k.length k'.length with hle | hle
        · exact ha.short_key_eq hb h (List.prefix_of_prefix_length_le hpk hpk' hle)
        · exact (hb.short_key_eq ha (fun key => (h key).symm)
            (List.prefix_of_prefix_length_le hpk' hpk hle)).symm
      subst hkk
      have hc : c = c' := ih hcan' fun r => by simpa using h (k ++ r)
      rw [hc]
    | full hcs hocc =>
      exact absurd h ((Canonical.short hk hc hcan).short_ne_full (.full hcs hocc))
  | @full cs hcs hocc ih =>
    cases hb with
    | nil => exact absurd ((Canonical.full hcs hocc).eq_nil h) (by simp)
    | value w => simpa using h []
    | short hk hc hcan =>
      exact absurd (fun key => (h key).symm)
        ((Canonical.short hk hc hcan).short_ne_full (.full hcs hocc))
    | full hcs' _ =>
      congr 1
      funext i
      exact ih i (hcs' i) fun r => h (i :: r)

/-! ## Building canonical nodes -/

theorem Canonical.mergeShort {k : List Nibble} {c : Node} (hk : k ≠ []) (hc : Canonical c)
    (hne : c ≠ .nil) : Canonical (mergeShort k c) := by
  cases hc with
  | nil => exact absurd rfl hne
  | value v => exact .short hk rfl (.value v)
  | short hck hcv hcan => exact .short (by simp [hk]) hcv hcan
  | full hcs hocc => exact .short hk rfl (.full hcs hocc)

/-- A full node that keeps a child and whose value slot holds a value or nothing reduces to a
    canonical node. -/
theorem Canonical.reduceFull {cs : Fin 17 → Node} (hcs : ∀ i, Canonical (cs i))
    (hocc : 1 ≤ (occupied cs).length) (hslot : (cs 16).valueOrFull = true ∨ cs 16 = .nil) :
    Canonical (reduceFull cs) := by
  cases hpos : childPos cs with
  | one p =>
    obtain ⟨hp, -⟩ := childPos_one hpos
    rw [reduceFull_one hpos]
    split_ifs with h16
    · exact .mergeShort (by simp) (hcs p) hp
    · -- the value slot is left alone: it holds a value
      have hp16 : p = 16 := not_not.mp h16
      subst hp16
      exact .short (by simp) (hslot.resolve_right hp) (hcs 16)
  | none => simp [childPos_none hpos] at hocc
  | many =>
    rw [reduceFull_of_not_one (by simp [hpos])]
    exact .full hcs (childPos_many hpos)

end QuorumHotstuff.Trie
