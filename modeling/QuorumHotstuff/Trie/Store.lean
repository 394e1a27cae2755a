import QuorumHotstuff.Trie.Update

/-!
# The trie as a key/value store

A trie root built by `TryUpdate` and `TryDelete` from the empty trie is canonical and stores the
hex keys of byte strings only (`TrieRoot`).  Each call changes the map it stands for as the
store of its key/value pairs does (`Op.store`), and `TryGet` reads that map.  Since a canonical
node is determined by its map, two runs that leave one map leave one root, and `Trie.Hash`
returns one hash for both.
-/

namespace QuorumHotstuff.Trie

open QuorumHotstuff.Lib.Rlp
open QuorumHotstuff.Hotstuff (Hash)

/-! ## Hex keys -/

theorem keybytesToHex_cons (b : UInt8) (str : List UInt8) :
    keybytesToHex (b :: str) = hiNibble b :: loNibble b :: keybytesToHex str := by
  simp [keybytesToHex]

theorem hiNibble_ne (b : UInt8) : hiNibble b ≠ 16 := by
  have := b.toNat_lt
  simp only [hiNibble, ne_eq, Fin.ext_iff]
  omega

theorem loNibble_ne (b : UInt8) : loNibble b ≠ 16 := by
  simp only [loNibble, ne_eq, Fin.ext_iff]
  omega

theorem byte_eq_of_nibbles {a b : UInt8} (hhi : hiNibble a = hiNibble b)
    (hlo : loNibble a = loNibble b) : a = b := by
  simp only [hiNibble, loNibble, Fin.mk.injEq] at hhi hlo
  apply UInt8.toNat_inj.mp
  omega

/-- One hex key is a prefix of another only when they are the same: the terminator of the first
    would have to stand where the second has a nibble. -/
theorem keybytesToHex_prefix_eq : ∀ {a b : List UInt8},
    keybytesToHex a <+: keybytesToHex b → a = b
  | [], [], _ => rfl
  | [], y :: b, h => by
    rw [keybytesToHex_cons] at h
    exact absurd (List.cons_prefix_cons.mp h).1.symm (hiNibble_ne y)
  | x :: a, [], h => by
    rw [keybytesToHex_cons] at h
    exact absurd (List.cons_prefix_cons.mp h).1 (hiNibble_ne x)
  | x :: a, y :: b, h => by
    rw [keybytesToHex_cons, keybytesToHex_cons, List.cons_prefix_cons,
      List.cons_prefix_cons] at h
    rw [byte_eq_of_nibbles h.1 h.2.1, keybytesToHex_prefix_eq h.2.2]

theorem keybytesToHex_injective {a b : List UInt8} (h : keybytesToHex a = keybytesToHex b) :
    a = b :=
  keybytesToHex_prefix_eq (h ▸ List.prefix_refl _)

/-- The key ends at the terminator and has it nowhere else. -/
def Term (key : List Nibble) : Prop := key.getLast? = some 16 ∧ 16 ∉ key.dropLast

theorem term_keybytesToHex (str : List UInt8) : Term (keybytesToHex str) := by
  refine ⟨List.getLast?_concat, ?_⟩
  rw [keybytesToHex, List.dropLast_concat]
  simp only [List.mem_flatMap, List.mem_cons, List.not_mem_nil, or_false, not_exists, not_and]
  intro b _ h
  rcases h with h | h
  · exact hiNibble_ne b h.symm
  · exact loNibble_ne b h.symm

theorem Term.ne_nil {key : List Nibble} (h : Term key) : key ≠ [] := by
  rintro rfl
  simp [Term] at h

/-- The rest of a key behind a nibble that is not the terminator. -/
theorem Term.tail {i : Nibble} {r : List Nibble} (h : Term (i :: r)) (hi : i ≠ 16) : Term r := by
  rcases r with _ | ⟨x, r⟩
  · simp [Term] at h
    exact absurd h hi
  · refine ⟨by simpa using h.1, fun hmem => h.2 ?_⟩
    rw [List.dropLast_cons_cons]
    exact List.mem_cons_of_mem i hmem

/-- Nothing follows the terminator. -/
theorem Term.terminator {r : List Nibble} (h : Term (16 :: r)) : r = [] := by
  rcases r with _ | ⟨x, r⟩
  · rfl
  · have := h.2
    simp at this

/-- The rest of a key behind a prefix that is not the whole key. -/
theorem Term.drop {k r : List Nibble} (h : Term (k ++ r)) (hr : r ≠ []) : Term r := by
  induction k with
  | nil => simpa using h
  | cons i k ih =>
    apply ih
    have hi : i ≠ 16 := by
      intro hi
      subst hi
      have := Term.terminator h
      simp [hr] at this
    exact Term.tail h hi

/-- A key that ends at the terminator is a prefix of no longer one. -/
theorem Term.eq_of_append {k r : List Nibble} (hk : Term k) (h : Term (k ++ r)) : r = [] := by
  by_contra hr
  have hmem : 16 ∈ (k ++ r).dropLast := by
    rw [List.dropLast_append_of_ne_nil hr]
    exact List.mem_append_left _ (List.mem_of_getLast? hk.1)
  exact h.2 hmem

/-! ## `TryGet` -/

/-- `tryGet` reads the map of a canonical node whose keys all end at the terminator, at such a
    key: it never meets a value node before the key's end or a full node after it. -/
theorem tryGet_eq_look {n : Node} (hn : Canonical n)
    (hstored : ∀ key v, n.look key = some v → Term key) {key : List Nibble} (hkey : Term key) :
    n.tryGet key = some ((n.look key).getD []) := by
  induction hn generalizing key with
  | nil => rfl
  | value v => exact absurd (hstored [] v rfl).ne_nil (by simp)
  | @short k c hk hc hcan ih =>
    by_cases hpre : k <+: key
    · obtain ⟨rest, rfl⟩ := hpre
      have htry : (Node.short k c).tryGet (k ++ rest) = c.tryGet rest := by
        simp [Node.tryGet]
      rw [htry, Node.look_short_append]
      rcases Node.valueOrFull_iff.mp hc with ⟨w, rfl⟩ | ⟨cs, rfl⟩
      · -- the short node's key is the stored key, so nothing of the key is left
        have hk' : Term k := by
          have := hstored (k ++ []) w (by rw [Node.look_short_append]; rfl)
          simpa using this
        rw [Term.eq_of_append hk' hkey]
        rfl
      · -- a key stored below the full node runs on past the short node's key
        obtain ⟨r, v, hr⟩ := hcan.exists_look (by simp)
        have hrne : r ≠ [] := by
          rintro rfl
          simp at hr
        have hkr := hstored (k ++ r) v (by simpa using hr)
        have hrest : rest ≠ [] := by
          rintro rfl
          exact hrne (Term.eq_of_append (by simpa using hkey) hkr)
        exact ih (fun r' v' hr' => (hstored (k ++ r') v' (by simpa using hr')).drop
          (by rintro rfl; simp at hr')) (hkey.drop hrest)
    · have htry : (Node.short k c).tryGet key = some [] := by
        simp [Node.tryGet, hpre]
      rw [htry, Node.look_short_eq_none c hpre]
      rfl
  | @full cs hcs hocc ih =>
    rcases key with _ | ⟨i, r⟩
    · exact absurd rfl hkey.ne_nil
    show (cs i).tryGet r = some (((cs i).look r).getD [])
    by_cases hi : i = 16
    · -- the value slot holds a value or nothing, and the key ends here
      subst hi
      rw [Term.terminator hkey]
      have hslot : (cs 16).valueOrFull = true ∨ cs 16 = .nil :=
        (hcs 16).valueOrFull_or_nil fun r' v hr' => Term.terminator (hstored (16 :: r') v hr')
      rcases hslot with h | h
      · rcases Node.valueOrFull_iff.mp h with ⟨w, hc⟩ | ⟨cs', hc⟩
        · rw [hc]
          rfl
        · -- a full node stores no empty key, and the slot stores nothing else
          obtain ⟨r', v, hr'⟩ := (hcs 16).exists_look (by simp [hc])
          have := Term.terminator (hstored (16 :: r') v hr')
          subst this
          rw [hc] at hr'
          simp at hr'
      · rw [h]
        rfl
    · exact ih i (fun r' v hr' => (hstored (i :: r') v hr').tail hi) (hkey.tail hi)

/-! ## Trie roots -/

/-- A trie root the calls build: canonical, storing the hex keys of byte strings only. -/
structure TrieRoot where
  root : Node
  canonical : Canonical root
  hexKeys : ∀ key v, root.look key = some v → ∃ str, key = keybytesToHex str

/-- The empty trie. -/
def TrieRoot.empty : TrieRoot := ⟨.nil, .nil, fun _ _ h => by cases h⟩

/-- The map a trie root stands for, by byte key. -/
def TrieRoot.get (t : TrieRoot) (key : List UInt8) : Option (List UInt8) :=
  t.root.look (keybytesToHex key)

theorem TrieRoot.prefixFree (t : TrieRoot) (str : List UInt8) :
    t.root.PrefixFree (keybytesToHex str) := by
  intro key v hkey
  obtain ⟨a, rfl⟩ := t.hexKeys key v hkey
  by_cases hab : a = str
  · exact .inl (by rw [hab])
  · exact .inr ⟨fun h => hab (keybytesToHex_prefix_eq h),
      fun h => hab (keybytesToHex_prefix_eq h).symm⟩

/-- Every key a trie root stores ends at the terminator. -/
theorem TrieRoot.term (t : TrieRoot) {key : List Nibble} {v : List UInt8}
    (hkey : t.root.look key = some v) : Term key := by
  obtain ⟨a, rfl⟩ := t.hexKeys key v hkey
  exact term_keybytesToHex a

theorem TrieRoot.termKeys (t : TrieRoot) : t.root.TermKeys :=
  fun _ _ hkey => (t.term hkey).2

/-- Two roots with one map are one root. -/
theorem TrieRoot.root_eq_of_get {t₁ t₂ : TrieRoot} (h : t₁.get = t₂.get) : t₁.root = t₂.root := by
  apply t₁.canonical.eq_of_look t₂.canonical
  intro key
  -- a key either root stores is a hex key, where the maps agree
  have hhex : ∀ (t : TrieRoot) v, t.root.look key = some v →
      t₁.root.look key = t₂.root.look key := by
    intro t v hv
    obtain ⟨str, rfl⟩ := t.hexKeys key v hv
    exact congrFun h str
  cases h₁ : t₁.root.look key with
  | some v => rw [← h₁]; exact hhex t₁ v h₁
  | none =>
    cases h₂ : t₂.root.look key with
    | some v => rw [← h₂, ← hhex t₂ v h₂, h₁]
    | none => rfl

/-! ## The calls -/

/-- A key/value map of byte strings: what a trie is for. -/
def Store := List UInt8 → Option (List UInt8)

/-- What a call does to the map: an update with an empty value removes the key. -/
def Op.store : Op → Store → Store
  | .update key value, m => Function.update m key (if value.length ≠ 0 then some value else none)
  | .delete key, m => Function.update m key none

/-- The map the calls leave, from the empty one. -/
def storeOf (ops : List Op) : Store := ops.foldl (fun m op => op.store m) fun _ => none

theorem TrieRoot.get_update {t : TrieRoot} {n : Node} {key : List UInt8} {o : Option (List UInt8)}
    (h : ∀ key', n.look key' = if key' = keybytesToHex key then o else t.root.look key')
    (str : List UInt8) :
    n.look (keybytesToHex str) = Function.update t.get key o str := by
  rw [h]
  by_cases hs : str = key
  · subst hs
    simp
  · have hne : keybytesToHex str ≠ keybytesToHex key := fun he => hs (keybytesToHex_injective he)
    simp [hs, hne, TrieRoot.get]

theorem TrieRoot.hexKeys_update {t : TrieRoot} {n : Node} {key : List UInt8}
    {o : Option (List UInt8)}
    (h : ∀ key', n.look key' = if key' = keybytesToHex key then o else t.root.look key')
    (key' : List Nibble) (v : List UInt8) (hv : n.look key' = some v) :
    ∃ str, key' = keybytesToHex str := by
  rw [h] at hv
  split_ifs at hv with hkey
  · exact ⟨key, hkey⟩
  · exact t.hexKeys key' v hv

/-- A canonical node whose map is a trie root's changed at one hex key is a trie root. -/
theorem TrieRoot.exists_of_look {t : TrieRoot} {n : Node} {key : List UInt8}
    {o : Option (List UInt8)} (hn : Canonical n)
    (h : ∀ key', n.look key' = if key' = keybytesToHex key then o else t.root.look key') :
    ∃ t' : TrieRoot, t'.root = n ∧ t'.get = Function.update t.get key o :=
  ⟨⟨n, hn, TrieRoot.hexKeys_update h⟩, rfl, funext (TrieRoot.get_update h)⟩

/-- `insert` of a value under a byte key. -/
theorem TrieRoot.insert_spec (t : TrieRoot) (key w : List UInt8) :
    ∃ t' : TrieRoot, (t.root.insert (keybytesToHex key) (.value w)).map (·.2) = some t'.root ∧
      t'.get = Function.update t.get key (some w) := by
  obtain ⟨dirty, n', hins, hres⟩ := Trie.insert_spec t.canonical (t.prefixFree key) w
  obtain ⟨t', rfl, hget⟩ := TrieRoot.exists_of_look hres.canonical hres.look
  exact ⟨t', by simp [hins], hget⟩

/-- `delete` of a byte key. -/
theorem TrieRoot.delete_spec (t : TrieRoot) (key : List UInt8) :
    ∃ t' : TrieRoot, (t.root.delete (keybytesToHex key)).map (·.2) = some t'.root ∧
      t'.get = Function.update t.get key none := by
  obtain ⟨dirty, n', hdel, hres⟩ := Trie.delete_spec t.canonical (t.prefixFree key) t.termKeys
  obtain ⟨t', rfl, hget⟩ := TrieRoot.exists_of_look hres.canonical hres.look
  exact ⟨t', by simp [hdel], hget⟩

/-- One call: it succeeds, keeps the root a trie root, and changes its map as the store does. -/
theorem TrieRoot.apply_spec (t : TrieRoot) (op : Op) :
    ∃ t' : TrieRoot, op.apply t.root = some t'.root ∧ t'.get = op.store t.get := by
  cases op with
  | update key value =>
    by_cases hv : value.length ≠ 0
    · obtain ⟨t', h, hget⟩ := t.insert_spec key value
      exact ⟨t', by simpa [Op.apply, tryUpdate, hv] using h, by simpa [Op.store, hv] using hget⟩
    · obtain ⟨t', h, hget⟩ := t.delete_spec key
      exact ⟨t', by simpa [Op.apply, tryUpdate, hv] using h, by simpa [Op.store, hv] using hget⟩
  | delete key =>
    obtain ⟨t', h, hget⟩ := t.delete_spec key
    exact ⟨t', h, hget⟩

/-- A run of calls, by induction on the calls from the one-call lemma. -/
theorem TrieRoot.runOps_spec (t : TrieRoot) (ops : List Op) :
    ∃ t' : TrieRoot, runOps t.root ops = some t'.root ∧
      t'.get = ops.foldl (fun m op => op.store m) t.get := by
  induction ops generalizing t with
  | nil => exact ⟨t, rfl, rfl⟩
  | cons op ops ih =>
    obtain ⟨t₁, h₁, hget₁⟩ := t.apply_spec op
    obtain ⟨t₂, h₂, hget₂⟩ := ih t₁
    refine ⟨t₂, by simp [runOps, h₁, h₂], ?_⟩
    rw [hget₂, hget₁]
    rfl

/-- A run from the empty trie leaves a trie root standing for the map of its calls. -/
theorem runOps_empty (ops : List Op) :
    ∃ t : TrieRoot, runOps .nil ops = some t.root ∧ t.get = storeOf ops := by
  obtain ⟨t, h, hget⟩ := TrieRoot.empty.runOps_spec ops
  exact ⟨t, h, hget⟩

/-- `TryGet` on a trie root answers its map, with the empty slice for a missing key. -/
theorem TrieRoot.tryGet_eq (t : TrieRoot) (key : List UInt8) :
    tryGet t.root key = some ((t.get key).getD []) :=
  tryGet_eq_look t.canonical (fun _ _ hv => t.term hv) (term_keybytesToHex key)

/-- After any calls of `TryUpdate` and `TryDelete` on the empty trie, `TryGet` of every key returns
    the value last written under it, or the empty slice if it was never written or was deleted
    last. -/
theorem tryGet_after_ops (ops : List Op) :
    ∃ root, runOps .nil ops = some root ∧
      ∀ key, tryGet root key = some ((storeOf ops key).getD []) := by
  obtain ⟨t, hrun, hget⟩ := runOps_empty ops
  refine ⟨t.root, hrun, fun key => ?_⟩
  rw [t.tryGet_eq, hget]

/-! ## The root hash -/

theorem rootHash_short (keccak : List Nat → Hash) (k : List Nibble) (c : Node) :
    rootHash keccak (.short k c) =
      some (keccak (Item.list [.str (hexToCompact k), (c.hash keccak false).item]).encode) := by
  simp [rootHash, Node.hash, toHashed]

theorem rootHash_full (keccak : List Nat → Hash) (cs : Fin 17 → Node) :
    ∃ h, rootHash keccak (.full cs) = some h := by
  simp [rootHash, Node.hash, toHashed]

/-- `Trie.Hash` of a trie root: never the failed assertion of a value node at the root. -/
theorem TrieRoot.rootHash_isSome (keccak : List Nat → Hash) (t : TrieRoot) :
    ∃ h, rootHash keccak t.root = some h := by
  rcases ht : t.root with _ | v | ⟨k, c⟩ | cs
  · exact ⟨emptyRoot, rfl⟩
  · -- a value node at the root stores the empty key, which is no hex key
    obtain ⟨str, hstr⟩ := t.hexKeys [] v (by rw [ht]; rfl)
    exact absurd hstr.symm (term_keybytesToHex str).ne_nil
  · exact ⟨_, rootHash_short keccak k c⟩
  · exact rootHash_full keccak cs

/-- Two runs of `TryUpdate` and `TryDelete` from the empty trie that leave one key/value map
    leave one root, in canonical form, and `Trie.Hash` returns one hash for both. -/
theorem trie_root_history_independent (keccak : List Nat → Hash) (ops₁ ops₂ : List Op)
    (hmap : storeOf ops₁ = storeOf ops₂) :
    ∃ root h, runOps .nil ops₁ = some root ∧ runOps .nil ops₂ = some root ∧ Canonical root ∧
      rootHash keccak root = some h := by
  obtain ⟨t₁, h₁, hget₁⟩ := runOps_empty ops₁
  obtain ⟨t₂, h₂, hget₂⟩ := runOps_empty ops₂
  have hroot : t₁.root = t₂.root := TrieRoot.root_eq_of_get (by rw [hget₁, hget₂, hmap])
  obtain ⟨h, hh⟩ := t₁.rootHash_isSome keccak
  exact ⟨t₁.root, h, h₁, hroot ▸ h₂, t₁.canonical, hh⟩

/-- Two keys written in either order, the second run also writing and deleting a third. -/
theorem trie_root_history_independent_example :
    storeOf [.update [1] [5], .update [2] [6]] =
      storeOf [.update [2] [6], .update [3] [7], .update [1] [5], .delete [3]] ∧
    ∃ root h, runOps .nil [.update [1] [5], .update [2] [6]] = some root ∧
      runOps .nil [.update [2] [6], .update [3] [7], .update [1] [5], .delete [3]] = some root ∧
      Canonical root ∧ rootHash List.length root = some h := by
  have hmap : storeOf [.update [1] [5], .update [2] [6]] =
      storeOf [.update [2] [6], .update [3] [7], .update [1] [5], .delete [3]] := by
    funext key
    simp only [storeOf, List.foldl, Op.store, Function.update_apply]
    split_ifs <;> simp_all
  exact ⟨hmap, trie_root_history_independent List.length _ _ hmap⟩

end QuorumHotstuff.Trie
