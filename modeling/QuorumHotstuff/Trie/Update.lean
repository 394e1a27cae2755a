import QuorumHotstuff.Trie.Canonical

/-!
# `insert` and `delete` keep the canonical form

`insert` of a value under a key and `delete` of a key change the map of a canonical node at
that key only, and return a canonical node, as long as no key the node stores is a proper
prefix of the other key or the other way round (`PrefixFree`); `delete` also needs the value
slot of a full node to hold a value, which holds when the terminator ends every key
(`TermKeys`).  Hex keys of byte strings satisfy both.  So every trie `TryUpdate` and
`TryDelete` build from the empty one is canonical and stands for the map of the calls made,
and two runs that leave one map leave one root, with one hash.
-/

namespace QuorumHotstuff.Trie

/-! ## `prefixLen` -/

theorem prefixLen_le_left : ∀ a b : List Nibble, prefixLen a b ≤ a.length
  | [], _ => Nat.zero_le _
  | _ :: _, [] => Nat.zero_le _
  | x :: a, y :: b => by
    by_cases hxy : x = y
    · simp [prefixLen, hxy, prefixLen_le_left a b]
    · simp [prefixLen, hxy]

theorem prefixLen_le_right : ∀ a b : List Nibble, prefixLen a b ≤ b.length
  | [], _ => Nat.zero_le _
  | _ :: _, [] => Nat.zero_le _
  | x :: a, y :: b => by
    by_cases hxy : x = y
    · simp [prefixLen, hxy, prefixLen_le_right a b]
    · simp [prefixLen, hxy]

theorem take_prefixLen : ∀ a b : List Nibble, a.take (prefixLen a b) = b.take (prefixLen a b)
  | [], _ => by simp [prefixLen]
  | _ :: _, [] => by simp [prefixLen]
  | x :: a, y :: b => by
    by_cases hxy : x = y
    · simp [prefixLen, hxy, take_prefixLen a b]
    · simp [prefixLen, hxy]

/-- The keys differ right after their common prefix. -/
theorem getElem_prefixLen_ne : ∀ (a b : List Nibble) (ha : prefixLen a b < a.length)
    (hb : prefixLen a b < b.length), a[prefixLen a b] ≠ b[prefixLen a b]
  | [], _, ha, _ => absurd ha (by simp)
  | _ :: _, [], _, hb => absurd hb (by simp)
  | x :: a, y :: b, ha, hb => by
    by_cases hxy : x = y
    · subst hxy
      simp only [prefixLen]
      exact getElem_prefixLen_ne a b (by simpa [prefixLen] using ha) (by simpa [prefixLen] using hb)
    · simp [prefixLen, hxy]

theorem prefixLen_comm : ∀ a b : List Nibble, prefixLen a b = prefixLen b a
  | [], [] => rfl
  | [], _ :: _ => rfl
  | _ :: _, [] => rfl
  | x :: a, y :: b => by
    by_cases hxy : x = y
    · simp [prefixLen, hxy, prefixLen_comm a b]
    · simp [prefixLen, hxy, Ne.symm hxy]

theorem prefixLen_append : ∀ b r : List Nibble, prefixLen (b ++ r) b = b.length
  | [], r => by cases r <;> rfl
  | x :: b, r => by simp [prefixLen, prefixLen_append b r]

/-- A common prefix as long as one key is that key. -/
theorem prefix_of_prefixLen_eq {a b : List Nibble} (h : prefixLen a b = b.length) : b <+: a := by
  have hb : b.take (prefixLen a b) = b := by rw [h, List.take_length]
  rw [← hb, ← take_prefixLen]
  exact List.take_prefix _ _

/-! ## Keys a node can take -/

/-- No key `n` stores is a proper prefix of `key`, nor the other way round. -/
def Node.PrefixFree (n : Node) (key : List Nibble) : Prop :=
  ∀ key' v, n.look key' = some v → key' = key ∨ (¬ key' <+: key ∧ ¬ key <+: key')

theorem Node.PrefixFree.short {k key : List Nibble} {c : Node}
    (h : (Node.short k c).PrefixFree (k ++ key)) : c.PrefixFree key := by
  intro r v hr
  rcases h (k ++ r) v (by simpa using hr) with he | ⟨h₁, h₂⟩
  · exact .inl (List.append_cancel_left he)
  · exact .inr ⟨fun hp => h₁ ((List.prefix_append_right_inj k).mpr hp),
      fun hp => h₂ ((List.prefix_append_right_inj k).mpr hp)⟩

theorem Node.PrefixFree.full {cs : Fin 17 → Node} {i : Nibble} {key : List Nibble}
    (h : (Node.full cs).PrefixFree (i :: key)) : (cs i).PrefixFree key := by
  intro r v hr
  rcases h (i :: r) v hr with he | ⟨h₁, h₂⟩
  · exact .inl (List.cons.inj he).2
  · exact .inr ⟨fun hp => h₁ (List.cons_prefix_cons.mpr ⟨rfl, hp⟩),
      fun hp => h₂ (List.cons_prefix_cons.mpr ⟨rfl, hp⟩)⟩

/-- A key that is a prefix of every other key: the node stores nothing past it. -/
theorem Node.PrefixFree.eq_of_extends {n : Node} {key key' : List Nibble} {v : List UInt8}
    (h : n.PrefixFree key) (hkey' : n.look key' = some v) (hp : key <+: key') : key' = key := by
  rcases h key' v hkey' with he | ⟨-, h₂⟩
  · exact he
  · exact absurd hp h₂

/-- A stored key that is a prefix of the key is the key. -/
theorem Node.PrefixFree.eq_of_prefix_left {n : Node} {key key' : List Nibble} {v : List UInt8}
    (h : n.PrefixFree key) (hkey' : n.look key' = some v) (hp : key' <+: key) : key' = key := by
  rcases h key' v hkey' with he | ⟨h₁, -⟩
  · exact he
  · exact absurd hp h₁

/-- A value node stores the empty key, a prefix of every key. -/
theorem Node.PrefixFree.eq_nil_of_value {v : List UInt8} {key : List Nibble}
    (h : (Node.value v).PrefixFree key) : key = [] :=
  (h.eq_of_prefix_left (Node.look_value_nil v) List.nil_prefix).symm

/-- A key that is a prefix of a short node's key is that key: the node stores a key through its
    own. -/
theorem Node.PrefixFree.eq_of_prefix_short {k key : List Nibble} {c : Node} (hcan : Canonical c)
    (hc : c.valueOrFull = true) (h : (Node.short k c).PrefixFree key) (hp : key <+: k) :
    key = k := by
  obtain ⟨r, v, hr⟩ := hcan.exists_look (Node.ne_nil_of_valueOrFull hc)
  have hstored : k ++ r = key :=
    h.eq_of_extends (Node.look_short_append k c r ▸ hr) (hp.trans (List.prefix_append k r))
  have hlen : k.length ≤ key.length := by
    rw [← hstored, List.length_append]
    omega
  exact hp.eq_of_length (le_antisymm hp.length_le hlen)

/-! ## The map after changing one key -/

theorem look_short_value (k : List Nibble) (w : List UInt8) (key : List Nibble) :
    (Node.short k (.value w)).look key = if key = k then some w else none := by
  by_cases hk : k <+: key
  · obtain ⟨r, rfl⟩ := hk
    rcases r with _ | ⟨x, r⟩
    · simpa using Node.look_short_append k (.value w) []
    · simp
  · have hne : key ≠ k := fun he => hk (he ▸ List.prefix_refl k)
    simp [Node.look_short_eq_none _ hk, hne]

theorem look_short_cons (x : Nibble) (s : List Nibble) (c : Node) (y : Nibble) (r : List Nibble) :
    (Node.short (x :: s) c).look (y :: r) = if x = y then (Node.short s c).look r else none := by
  simp only [Node.look_short, List.cons_prefix_cons, List.length_cons, List.drop_succ_cons]
  by_cases hxy : x = y <;> simp [hxy]

/-- A short node whose child changes at one key changes at that key behind its own. -/
theorem look_short_update {k rest : List Nibble} {c c' : Node} {o : Option (List UInt8)}
    (h : ∀ r, c'.look r = if r = rest then o else c.look r) (key : List Nibble) :
    (Node.short k c').look key = if key = k ++ rest then o else (Node.short k c).look key := by
  by_cases hk : k <+: key
  · obtain ⟨r, rfl⟩ := hk
    simp [h r]
  · have hne : key ≠ k ++ rest := fun he => hk (he ▸ List.prefix_append k rest)
    simp [Node.look_short_eq_none _ hk, hne]

/-- A full node one of whose children changes at one key changes at that key behind the
    child's index. -/
theorem look_full_update {cs : Fin 17 → Node} {i : Fin 17} {rest : List Nibble} {nn : Node}
    {o : Option (List UInt8)} (h : ∀ r, nn.look r = if r = rest then o else (cs i).look r)
    (key : List Nibble) :
    (Node.full (Function.update cs i nn)).look key =
      if key = i :: rest then o else (Node.full cs).look key := by
  rcases key with _ | ⟨j, r⟩
  · simp
  · by_cases hj : j = i
    · subst hj
      simp [h r]
    · simp [hj]

/-! ## Insertion -/

/-- What `insert` of the value `w` under `key` into `n` returns. -/
structure InsertResult (n : Node) (key : List Nibble) (w : List UInt8) (dirty : Bool)
    (n' : Node) : Prop where
  canonical : Canonical n'
  ne_nil : n' ≠ .nil
  valueOrFull : n.valueOrFull = true → n'.valueOrFull = true
  look : ∀ key', n'.look key' = if key' = key then some w else n.look key'
  clean : dirty = false → n' = n

/-- A full node with two children that are not nil. -/
theorem two_le_occupied {cs : Fin 17 → Node} {i j : Fin 17} (hij : i ≠ j) (hi : cs i ≠ .nil)
    (hj : cs j ≠ .nil) : 2 ≤ (occupied cs).length := by
  have hsub : [i, j] ⊆ occupied cs := by
    intro x hx
    simp only [List.mem_cons, List.not_mem_nil, or_false] at hx
    rcases hx with rfl | rfl
    · exact mem_occupied.mpr hi
    · exact mem_occupied.mpr hj
  exact (List.subperm_of_subset (by simp [hij]) hsub).length_le

theorem canonical_newLeaf {k : List Nibble} {c : Node} (hc : c.valueOrFull = true)
    (hcan : Canonical c) : Canonical (newLeaf k c) := by
  cases k with
  | nil => exact hcan
  | cons x k => exact .short (by simp) hc hcan

theorem newLeaf_ne_nil (k : List Nibble) {c : Node} (hc : c ≠ .nil) : newLeaf k c ≠ .nil := by
  cases k with
  | nil => exact hc
  | cons x k => simp [Trie.newLeaf]

/-- The two children of the branch `insert` builds where a short node's key and the new key
    part, at nibbles `kc` and `c₁` after their common prefix. -/
theorem look_branchOut {kc c₁ : Nibble} (hne : kc ≠ c₁) (s₀ s₁ : List Nibble) (c : Node)
    (w : List UInt8) (r : List Nibble) :
    (Node.full (Function.update (Function.update (fun _ => Node.nil) kc (newLeaf s₀ c)) c₁
      (newLeaf s₁ (.value w)))).look r =
      if r = c₁ :: s₁ then some w else (Node.short (kc :: s₀) c).look r := by
  rcases r with _ | ⟨i, r⟩
  · simp [Node.look_short]
  rw [Node.look_full_cons, look_short_cons]
  by_cases hi : i = c₁
  · subst hi
    simp [look_newLeaf, look_short_value, hne]
  · by_cases hik : i = kc
    · subst hik
      simp [look_newLeaf, hi]
    · simp [Function.update_of_ne hik, hi, Ne.symm hik]

theorem Canonical.branchOut {kc c₁ : Nibble} (hne : kc ≠ c₁) (s₀ s₁ : List Nibble) {c : Node}
    (hc : c.valueOrFull = true) (hcan : Canonical c) (w : List UInt8) :
    Canonical (.full (Function.update (Function.update (fun _ => Node.nil) kc (newLeaf s₀ c)) c₁
      (newLeaf s₁ (.value w)))) := by
  refine .full (fun i => ?_) ?_
  · by_cases hi : i = c₁
    · subst hi
      simpa using @canonical_newLeaf s₁ (.value w) rfl (.value w)
    · by_cases hik : i = kc
      · subst hik
        simpa [Function.update_of_ne hi] using @canonical_newLeaf s₀ c hc hcan
      · simpa [Function.update_of_ne hi, Function.update_of_ne hik] using Canonical.nil
  · apply two_le_occupied hne
    · rw [Function.update_of_ne hne, Function.update_self]
      exact newLeaf_ne_nil s₀ (Node.ne_nil_of_valueOrFull hc)
    · rw [Function.update_self]
      exact newLeaf_ne_nil s₁ (by simp)

/-- The empty key is a proper prefix of a key a canonical node stores, unless the node stores
    the empty key itself. -/
theorem Canonical.not_prefixFree_nil {n : Node} (hn : Canonical n) (hne : n ≠ .nil)
    (h0 : n.look [] = none) : ¬ n.PrefixFree [] := by
  intro hfree
  obtain ⟨key, v, hkey⟩ := hn.exists_look hne
  have hnil : key = [] := hfree.eq_of_extends hkey List.nil_prefix
  rw [hnil, h0] at hkey
  cases hkey

theorem Canonical.short_look_nil {k : List Nibble} {c : Node} (hn : Canonical (.short k c)) :
    (Node.short k c).look [] = none := by
  cases hn with
  | short hk _ _ => simp [Node.look_short, List.prefix_nil, hk]

theorem canonical_update {cs : Fin 17 → Node} (hcs : ∀ i, Canonical (cs i)) (c : Fin 17)
    {nn : Node} (hnn : Canonical nn) (i : Fin 17) : Canonical (Function.update cs c nn i) := by
  by_cases hi : i = c
  · subst hi
    simpa using hnn
  · simpa [Function.update_of_ne hi] using hcs i

/-- A key around one of its nibbles. -/
theorem split_at {l : List Nibble} {m : Nat} {x : Nibble} (h : l[m]? = some x) :
    l = l.take m ++ x :: l.drop (m + 1) := by
  obtain ⟨hm, hx⟩ := List.getElem?_eq_some_iff.mp h
  subst hx
  rw [← List.drop_eq_getElem_cons hm, List.take_append_drop]

/-! ## `insert` case by case -/

/-- `insert` into a short node whose key the new key runs through goes on in the child. -/
theorem insert_short_descend {k key : List Nibble} {c val nn : Node} {dirty : Bool}
    (hkey : key ≠ []) (hm : prefixLen key k = k.length)
    (hins : c.insert (key.drop k.length) val = some (dirty, nn)) :
    (Node.short k c).insert key val =
      if dirty then some (true, .short k nn) else some (false, .short k c) := by
  obtain ⟨c₀, cs₀, rfl⟩ := List.exists_cons_of_ne_nil hkey
  simp only [Node.insert, hm, hins, if_true]

/-- `insert` into a short node whose key the new key parts from at `m`, with nibbles `kc` and
    `c₁` there: a branch behind a short node for the common prefix, if there is one. -/
theorem insert_short_branchOut {k key : List Nibble} {c val : Node} {m : Nat} {kc c₁ : Nibble}
    (hkey : key ≠ []) (hpl : prefixLen key k = m) (hm : m ≠ k.length) (hkc : k[m]? = some kc)
    (hc₁ : key[m]? = some c₁) :
    (Node.short k c).insert key val = some (true,
      if m = 0 then .full (Function.update (Function.update (fun _ => Node.nil) kc
        (newLeaf (k.drop (m + 1)) c)) c₁ (newLeaf (key.drop (m + 1)) val))
      else .short (key.take m) (.full (Function.update (Function.update (fun _ => Node.nil) kc
        (newLeaf (k.drop (m + 1)) c)) c₁ (newLeaf (key.drop (m + 1)) val)))) := by
  obtain ⟨c₀, cs₀, rfl⟩ := List.exists_cons_of_ne_nil hkey
  subst hpl
  simp only [Node.insert, if_neg hm, hkc, hc₁]
  split_ifs <;> rfl

/-- `insert` into a full node goes on in the child at the key's first nibble. -/
theorem insert_full_descend {cs : Fin 17 → Node} {x : Nibble} {rest : List Nibble} {val nn : Node}
    {dirty : Bool} (hins : (cs x).insert rest val = some (dirty, nn)) :
    (Node.full cs).insert (x :: rest) val =
      if dirty then some (true, .full (Function.update cs x nn)) else some (false, .full cs) := by
  simp only [Node.insert, hins]

/-- `insert` where the new key parts from a short node's key inside it: a branch at the
    nibble where they differ, behind a short node for their common prefix if there is one. -/
theorem insert_short_split {k key : List Nibble} {c : Node} (hc : c.valueOrFull = true)
    (hcan : Canonical c) (hkey : key ≠ []) (hmk : prefixLen key k < k.length)
    (hmkey : prefixLen key k < key.length) (w : List UInt8) :
    ∃ n', (Node.short k c).insert key (.value w) = some (true, n') ∧
      InsertResult (.short k c) key w true n' := by
  obtain ⟨c₀, cs₀, rfl⟩ := List.exists_cons_of_ne_nil hkey
  obtain ⟨kc, hkc⟩ : ∃ kc, k[prefixLen (c₀ :: cs₀) k]? = some kc :=
    ⟨_, List.getElem?_eq_getElem hmk⟩
  obtain ⟨c₁, hc₁⟩ : ∃ c₁, (c₀ :: cs₀)[prefixLen (c₀ :: cs₀) k]? = some c₁ :=
    ⟨_, List.getElem?_eq_getElem hmkey⟩
  have hne : kc ≠ c₁ := by
    have := getElem_prefixLen_ne (c₀ :: cs₀) k hmkey hmk
    rw [List.getElem?_eq_getElem hmk, Option.some.injEq] at hkc
    rw [List.getElem?_eq_getElem hmkey, Option.some.injEq] at hc₁
    rw [← hkc, ← hc₁]
    exact Ne.symm this
  have hunfold := @insert_short_branchOut k (c₀ :: cs₀) c (.value w) _ kc c₁ (by simp) rfl
    (Nat.ne_of_lt hmk) hkc hc₁
  have hkk := split_at hkc
  have hkk' := split_at hc₁
  rw [← take_prefixLen] at hkk
  generalize prefixLen (c₀ :: cs₀) k = m at *
  generalize c₀ :: cs₀ = key at *
  have hbranch := Canonical.branchOut hne (k.drop (m + 1)) (key.drop (m + 1)) hc hcan w
  -- the node built stands for the map of a short node for the common prefix over the branch
  have hlook : ∀ key', (Node.short (key.take m) (.full (Function.update (Function.update
      (fun _ => Node.nil) kc (newLeaf (k.drop (m + 1)) c)) c₁
      (newLeaf (key.drop (m + 1)) (.value w))))).look key' =
      if key' = key then some w else (Node.short k c).look key' := by
    intro key'
    rw [look_short_update (look_branchOut hne _ _ c w) key', ← hkk', ← Node.look_short_short,
      ← hkk]
  have hclean : ∀ n', n' ≠ .nil → Canonical n' → (∀ key', n'.look key' =
      if key' = key then some w else (Node.short k c).look key') →
      InsertResult (.short k c) key w true n' := fun n' hnil hcan' hlook' =>
    { canonical := hcan', ne_nil := hnil, valueOrFull := fun h => by simp [Node.valueOrFull] at h,
      look := hlook', clean := fun h => by cases h }
  rw [hunfold]
  by_cases hm0 : m = 0
  · subst hm0
    rw [if_pos rfl]
    refine ⟨_, rfl, hclean _ (by simp) hbranch fun key' => ?_⟩
    rw [← hlook key', List.take_zero, Node.look_short_nil]
  · rw [if_neg hm0]
    refine ⟨_, rfl, hclean _ (by simp) ?_ hlook⟩
    exact .short (by simp [List.take_eq_nil_iff, hm0, hkey]) rfl hbranch

/-- `insert` of a value into a canonical node, under a key that no stored key is a proper
    prefix of or extends. -/
theorem insert_spec {n : Node} (hn : Canonical n) {key : List Nibble} (hfree : n.PrefixFree key)
    (w : List UInt8) :
    ∃ dirty n', n.insert key (.value w) = some (dirty, n') ∧ InsertResult n key w dirty n' := by
  induction hn generalizing key with
  | nil =>
    refine ⟨true, newLeaf key (.value w), insert_nil key _, ?_⟩
    exact { canonical := canonical_newLeaf rfl (.value w), ne_nil := newLeaf_ne_nil key (by simp),
            valueOrFull := fun h => by simp [Node.valueOrFull] at h,
            look := fun key' => by rw [look_newLeaf, look_short_value]; simp,
            clean := fun h => by cases h }
  | value v =>
    obtain rfl := hfree.eq_nil_of_value
    refine ⟨v != w, .value w, rfl, ?_⟩
    exact { canonical := .value w, ne_nil := (by simp), valueOrFull := fun _ => rfl,
            look := fun key' => by rcases key' with _ | _ <;> simp,
            clean := fun h => by simp only [bne_eq_false_iff_eq] at h; rw [h] }
  | @short k c hk hc hcan ih =>
    have hn := Canonical.short hk hc hcan
    rcases key with _ | ⟨c₀, cs₀⟩
    · exact absurd hfree (hn.not_prefixFree_nil (by simp) hn.short_look_nil)
    by_cases hm : prefixLen (c₀ :: cs₀) k = k.length
    · -- the key runs through the short node's key: insert the rest into the child
      obtain ⟨rest, hrest⟩ := prefix_of_prefixLen_eq hm
      rw [← hrest] at hfree
      obtain ⟨dirty, nn, hins, hres⟩ := ih hfree.short
      have hdrop : (c₀ :: cs₀).drop k.length = rest := by
        rw [← hrest, List.drop_left]
      have hunfold := insert_short_descend (by simp) hm (hdrop ▸ hins)
      have hlook := @look_short_update k rest c nn (some w) hres.look
      rw [hrest] at hlook
      cases dirty with
      | false =>
        have hnn := hres.clean rfl
        subst hnn
        refine ⟨false, _, hunfold, ?_⟩
        exact { canonical := hn, ne_nil := by simp, valueOrFull := id, look := hlook,
                clean := fun _ => rfl }
      | true =>
        refine ⟨true, _, hunfold, ?_⟩
        exact { canonical := .short hk (hres.valueOrFull hc) hres.canonical, ne_nil := by simp,
                valueOrFull := fun h => by simp [Node.valueOrFull] at h, look := hlook,
                clean := fun h => by cases h }
    · -- the keys part inside the short node's key; the new key does not end there
      have hmk : prefixLen (c₀ :: cs₀) k < k.length :=
        lt_of_le_of_ne (prefixLen_le_right _ _) hm
      have hmkey : prefixLen (c₀ :: cs₀) k < (c₀ :: cs₀).length := by
        refine lt_of_le_of_ne (prefixLen_le_left _ _) fun heq => hm ?_
        have hpre : c₀ :: cs₀ <+: k := prefix_of_prefixLen_eq (prefixLen_comm _ _ ▸ heq)
        rw [heq, hfree.eq_of_prefix_short hcan hc hpre]
      obtain ⟨n', hins, hres⟩ := insert_short_split hc hcan (by simp) hmk hmkey w
      exact ⟨true, n', hins, hres⟩
  | @full cs hcs hocc ih =>
    have hn := Canonical.full hcs hocc
    rcases key with _ | ⟨c₀, r⟩
    · exact absurd hfree (hn.not_prefixFree_nil (by simp) rfl)
    obtain ⟨dirty, nn, hins, hres⟩ := ih c₀ hfree.full
    have hunfold := insert_full_descend hins
    have hlook := look_full_update hres.look
    cases dirty with
    | false =>
      have hnn := hres.clean rfl
      subst hnn
      rw [Function.update_eq_self] at hlook
      refine ⟨false, _, hunfold, ?_⟩
      exact { canonical := hn, ne_nil := by simp, valueOrFull := id, look := hlook,
              clean := fun _ => rfl }
    | true =>
      refine ⟨true, _, hunfold, ?_⟩
      exact { canonical := .full (canonical_update hcs c₀ hres.canonical)
                (hocc.trans (occupied_length_le_update cs c₀ hres.ne_nil)),
              ne_nil := by simp, valueOrFull := fun _ => rfl, look := hlook,
              clean := fun h => by cases h }

/-! ## Deletion -/

/-- Every key `n` stores has the terminator, if at all, at its end. -/
def Node.TermKeys (n : Node) : Prop := ∀ key v, n.look key = some v → 16 ∉ key.dropLast

theorem Node.TermKeys.short {k : List Nibble} {c : Node} (h : (Node.short k c).TermKeys) :
    c.TermKeys := by
  intro r v hr
  have hkr := h (k ++ r) v (by simpa using hr)
  rcases r with _ | ⟨x, r⟩
  · simp
  · rw [List.dropLast_append_of_ne_nil (by simp)] at hkr
    exact fun hmem => hkr (List.mem_append_right k hmem)

theorem Node.TermKeys.full {cs : Fin 17 → Node} (h : (Node.full cs).TermKeys) (i : Fin 17) :
    (cs i).TermKeys := by
  intro r v hr
  have hir := h (i :: r) v hr
  rcases r with _ | ⟨x, r⟩
  · simp
  · rw [List.dropLast_cons_cons] at hir
    exact fun hmem => hir (List.mem_cons_of_mem i hmem)

/-- The value slot of a full node whose keys end at the terminator stores the empty key only. -/
theorem Node.TermKeys.slot {cs : Fin 17 → Node} (h : (Node.full cs).TermKeys) {r : List Nibble}
    {v : List UInt8} (hr : (cs 16).look r = some v) : r = [] := by
  have h16 := h (16 :: r) v hr
  rcases r with _ | ⟨x, r⟩
  · rfl
  · simp at h16

/-- A canonical node that stores the empty key only is a value node or nil. -/
theorem Canonical.valueOrFull_or_nil {n : Node} (hn : Canonical n)
    (h : ∀ r v, n.look r = some v → r = []) : n.valueOrFull = true ∨ n = .nil := by
  cases hn with
  | nil => exact .inr rfl
  | value v => exact .inl rfl
  | short hk hc hcan =>
    obtain ⟨r, v, hr⟩ := (Canonical.short hk hc hcan).exists_look (by simp)
    have := h r v hr
    subst this
    simp [Canonical.short_look_nil (.short hk hc hcan)] at hr
  | full hcs hocc =>
    obtain ⟨r, v, hr⟩ := (Canonical.full hcs hocc).exists_look (by simp)
    have := h r v hr
    subst this
    simp at hr

theorem mergeShort_ne_nil (k : List Nibble) (c : Node) : mergeShort k c ≠ .nil := by
  cases c <;> simp [mergeShort]

theorem reduceFull_ne_nil (cs : Fin 17 → Node) : reduceFull cs ≠ .nil := by
  cases hpos : childPos cs with
  | one p =>
    rw [reduceFull_one hpos]
    split_ifs
    · exact mergeShort_ne_nil _ _
    · simp
  | none | many =>
    rw [@reduceFull_of_not_one cs (by simp [hpos])]
    simp

/-- `delete` never empties a full node. -/
theorem delete_full_ne_nil {cs : Fin 17 → Node} {key : List Nibble} {dirty : Bool} {n' : Node}
    (h : (Node.full cs).delete key = some (dirty, n')) : n' ≠ .nil := by
  rcases key with _ | ⟨c, rest⟩
  · cases h
  · simp only [Node.delete] at h
    rcases hdel : (cs c).delete rest with _ | ⟨d, nn⟩ <;> rw [hdel] at h
    · cases h
    · cases d <;> simp only [Option.some.injEq, Prod.mk.injEq, if_true] at h <;>
        (obtain ⟨-, rfl⟩ := h)
      · simp
      · exact reduceFull_ne_nil _

/-- What `delete` of `key` from `n` returns. -/
structure DeleteResult (n : Node) (key : List Nibble) (dirty : Bool) (n' : Node) : Prop where
  canonical : Canonical n'
  look : ∀ key', n'.look key' = if key' = key then none else n.look key'
  clean : dirty = false → n' = n

/-- `delete` of a key that a short node's key runs through: the rest from the child, and the
    result merged with the short node. -/
theorem delete_short_descend {k rest : List Nibble} {c : Node} (hk : k ≠ [])
    (hc : c.valueOrFull = true) (hcan : Canonical c) (hrest : rest ≠ []) {dirty : Bool} {nn : Node}
    (hdel : c.delete rest = some (dirty, nn)) (hnn : nn ≠ .nil)
    (hres : DeleteResult c rest dirty nn) :
    ∃ dirty n', (Node.short k c).delete (k ++ rest) = some (dirty, n') ∧
      DeleteResult (.short k c) (k ++ rest) dirty n' := by
  have hm : ¬ prefixLen (k ++ rest) k < k.length := by simp [prefixLen_append]
  have hm' : prefixLen (k ++ rest) k ≠ (k ++ rest).length := by
    simp [prefixLen_append, hrest]
  have hunfold : (Node.short k c).delete (k ++ rest) =
      if dirty then some (true, mergeShort k nn) else some (false, .short k c) := by
    simp only [Node.delete, if_neg hm, if_neg hm', List.drop_left, hdel]
  have hlook := @look_short_update k rest c nn none hres.look
  cases dirty with
  | false =>
    have hnn := hres.clean rfl
    subst hnn
    refine ⟨false, _, hunfold, ?_⟩
    exact { canonical := .short hk hc hcan, look := hlook, clean := fun _ => rfl }
  | true =>
    refine ⟨true, _, hunfold, ?_⟩
    exact { canonical := .mergeShort hk hres.canonical hnn,
            look := fun key' => by rw [look_mergeShort, hlook],
            clean := fun h => by cases h }

/-- `delete` of a key from a canonical node whose keys end at the terminator, where no stored
    key is a proper prefix of the key or extends it. -/
theorem delete_spec {n : Node} (hn : Canonical n) {key : List Nibble} (hfree : n.PrefixFree key)
    (hterm : n.TermKeys) :
    ∃ dirty n', n.delete key = some (dirty, n') ∧ DeleteResult n key dirty n' := by
  induction hn generalizing key with
  | nil =>
    refine ⟨false, .nil, rfl, ?_⟩
    exact { canonical := .nil, look := by simp, clean := fun _ => rfl }
  | value v =>
    obtain rfl := hfree.eq_nil_of_value
    refine ⟨true, .nil, rfl, ?_⟩
    exact { canonical := .nil, look := fun key' => by rcases key' with _ | _ <;> simp,
            clean := fun h => by cases h }
  | @short k c hk hc hcan ih =>
    have hn := Canonical.short hk hc hcan
    by_cases hm : prefixLen key k < k.length
    · -- the key leaves the short node's key, which stores nothing under it
      have hnot : ¬ k <+: key := by
        rintro ⟨r, rfl⟩
        simp [prefixLen_append] at hm
      refine ⟨false, .short k c, by simp only [Node.delete, if_pos hm], ?_⟩
      refine { canonical := hn, clean := fun _ => rfl, look := fun key' => ?_ }
      split_ifs with hkey
      · rw [hkey, Node.look_short_eq_none c hnot]
      · rfl
    obtain ⟨rest, rfl⟩ : k <+: key :=
      prefix_of_prefixLen_eq (le_antisymm (prefixLen_le_right _ _) (not_lt.mp hm))
    by_cases hrest : rest = []
    · -- the key is the short node's key: the node goes, it stored that key alone
      subst hrest
      have hm' : prefixLen (k ++ []) k = (k ++ []).length := by
        rw [prefixLen_append, List.append_nil]
      refine ⟨true, .nil, by simp only [Node.delete, if_neg hm, if_pos hm'], ?_⟩
      refine { canonical := .nil, look := fun key' => ?_, clean := fun h => by cases h }
      split_ifs with hkey
      · rfl
      · by_contra hsome
        obtain ⟨v, hv⟩ := Option.ne_none_iff_exists'.mp (Ne.symm hsome)
        obtain ⟨r, rfl, -⟩ := Node.look_short_eq_some.mp hv
        exact hkey (hfree.eq_of_extends hv (by simp))
    -- the key runs on below a full node, the only child with keys past the short node's key
    rcases Node.valueOrFull_iff.mp hc with ⟨w, rfl⟩ | ⟨cs, rfl⟩
    · have hstored : (Node.short k (.value w)).look (k ++ []) = some w := by
        rw [Node.look_short_append]
        rfl
      have := hfree.eq_of_prefix_left hstored ((List.prefix_append_right_inj k).mpr List.nil_prefix)
      simp only [List.append_cancel_left_eq] at this
      exact absurd this.symm hrest
    · obtain ⟨dirty, nn, hdel, hres⟩ := ih hfree.short hterm.short
      exact delete_short_descend hk hc hcan hrest hdel (delete_full_ne_nil hdel) hres
  | @full cs hcs hocc ih =>
    have hn := Canonical.full hcs hocc
    rcases key with _ | ⟨c₀, r⟩
    · exact absurd hfree (hn.not_prefixFree_nil (by simp) rfl)
    obtain ⟨dirty, nn, hdel, hres⟩ := ih c₀ hfree.full (hterm.full c₀)
    have hunfold : (Node.full cs).delete (c₀ :: r) =
        if dirty then some (true, reduceFull (Function.update cs c₀ nn))
        else some (false, .full cs) := by
      simp only [Node.delete, hdel]
    have hlook := look_full_update hres.look
    cases dirty with
    | false =>
      have hnn := hres.clean rfl
      subst hnn
      rw [Function.update_eq_self] at hlook
      refine ⟨false, _, hunfold, ?_⟩
      exact { canonical := hn, look := hlook, clean := fun _ => rfl }
    | true =>
      -- the value slot still stores the empty key only
      have hslot : ∀ r' v, (Function.update cs c₀ nn 16).look r' = some v → r' = [] := by
        intro r' v hr'
        have h16 : (Node.full (Function.update cs c₀ nn)).look (16 :: r') = some v := hr'
        rw [hlook] at h16
        split_ifs at h16
        exact hterm.slot h16
      refine ⟨true, _, hunfold, ?_⟩
      exact { canonical := .reduceFull (canonical_update hcs c₀ hres.canonical)
                (occupied_update_pos hocc c₀ nn)
                ((canonical_update hcs c₀ hres.canonical 16).valueOrFull_or_nil hslot),
              look := fun key' => by rw [look_reduceFull, hlook],
              clean := fun h => by cases h }

end QuorumHotstuff.Trie
