import QuorumHotstuff.Lib.Rlp.Integer
import QuorumHotstuff.Trie.StackTrie

/-!
# `DeriveSha`

`core/types/hashing.go`: the root hash of a list of transactions or receipts.  `DeriveSha`
resets a `TrieHasher`, updates it with each index's encoding under the index's `AppendUint64`
key, and hashes it.  The indices go `1` to `0x7f`, then `0`, then `0x80` on: the keys are then in
increasing byte order and none is a prefix of another (`indexKeys_sorted`), since a one-byte key
below `0x80` precedes `0x80`, the key of zero, which precedes every longer key, and longer keys
of one length compare as their big-endian bytes.  So the stack trie takes the keys, and its root
is the trie's.

A derivable list is its length and the bytes `EncodeIndex` writes for each index; the buffer
pool and the copy `encodeForDerive` makes are left out.
-/

namespace QuorumHotstuff.Types

open QuorumHotstuff.Lib QuorumHotstuff.Lib.Rlp QuorumHotstuff.Trie
open QuorumHotstuff.Hotstuff (Hash)

/-- `DerivableList`: `Len` and what `EncodeIndex` writes for each index. -/
structure DerivableList where
  len : Nat
  encodeIndex : Nat → List UInt8

/-- `TrieHasher`: `Reset`, `Update` (a Go panic is `none`) and `Hash`. -/
structure TrieHasher (σ : Type) where
  reset : σ
  update : σ → List UInt8 → List UInt8 → Option σ
  hash : σ → Option Hash

/-- The indices of `DeriveSha`'s three loops: `1` to `0x7f` below the length, `0` if the list is
    not empty, then `0x80` up to the length. -/
def deriveShaOrder (len : Nat) : List Nat :=
  List.range' 1 (min (len - 1) 0x7f) ++ (if 0 < len then [0] else []) ++
    List.range' 0x80 (len - 0x80)

example : deriveShaOrder 3 = [1, 2, 0] := by decide

/-- The key of an index: `AppendUint64` of `uint64(i)`. -/
def indexKey (i : Nat) : List UInt8 := (appendUint64 [] (i % 2 ^ 64)).map UInt8.ofNat

/-- `DeriveSha`: each index's encoding under its key, in the order of the loops, then `Hash`. -/
def deriveSha {σ : Type} (list : DerivableList) (hasher : TrieHasher σ) : Option Hash :=
  ((deriveShaOrder list.len).foldlM
    (fun s i => hasher.update s (indexKey i) (list.encodeIndex i)) hasher.reset).bind hasher.hash

/-- `NewStackTrie(nil)` as a `TrieHasher`: `Reset` leaves an empty node at offset zero. -/
def stackTrieHasher (keccak : List Nat → Hash) : TrieHasher StackTrie where
  reset := newStackTrie
  update := StackTrie.tryUpdate keccak
  hash st := some (st.rootHash keccak)

/-- `new(trie.Trie)` as a `TrieHasher`: `Reset` empties the root. -/
def trieHasher (keccak : List Nat → Hash) : TrieHasher Node where
  reset := .nil
  update := tryUpdate
  hash := rootHash keccak

/-! ## The keys are in order -/

/-- Where the key of an index falls among the keys: the one-byte keys of `1` to `0x7f`, then
    the key of `0`, then the keys of `0x80` on. -/
def indexRank (i : Nat) : Nat := if i = 0 then 0x80 else if i < 0x80 then i else i + 1

theorem mem_deriveShaOrder {len i : Nat} (h : i ∈ deriveShaOrder len) : i < len := by
  simp only [deriveShaOrder, List.mem_append, List.mem_range'_1] at h
  split_ifs at h <;> simp at h <;> omega

/-- The loops visit the indices in the order of their keys. -/
theorem deriveShaOrder_pairwise (len : Nat) :
    (deriveShaOrder len).Pairwise fun a b => indexRank a < indexRank b := by
  have hmono : ∀ s n, (∀ i ∈ List.range' s n, 0 < i ∧ (i < 0x80 ∨ 0x80 ≤ s)) →
      (List.range' s n).Pairwise fun a b => indexRank a < indexRank b := fun s n hs =>
    List.Pairwise.imp_of_mem (fun ha hb hab => by
      have := hs _ ha
      have := hs _ hb
      simp only [indexRank]
      split_ifs <;> omega) List.pairwise_lt_range'
  unfold deriveShaOrder
  simp only [List.pairwise_append, List.mem_append, List.mem_range'_1]
  -- within a loop the ranks rise with the indices; across the loops, the one-byte keys come
  -- before the key of zero, and both before the keys from `0x80` on
  refine ⟨⟨hmono _ _ fun i hi => ?_, ?_, ?_⟩, hmono _ _ fun i hi => ?_, ?_⟩
  · simp only [List.mem_range'_1] at hi
    omega
  · split_ifs <;> simp
  · -- a one-byte key before the key of zero
    intro a ha b hb
    split_ifs at hb <;> simp at hb
    subst hb
    simp only [indexRank]
    split_ifs <;> omega
  · simp only [List.mem_range'_1] at hi
    omega
  · -- the first two loops before the third
    intro a ha b hb
    simp only [indexRank]
    split_ifs at ha <;> simp at ha <;> split_ifs <;> omega

/-- Numbers below `256 ^ w` part in their big-endian forms of `w` bytes. -/
theorem beBytes_partsAt : ∀ {w a b : Nat}, a < b → b < 256 ^ w →
    ∃ d, PartsAt (beBytes w a) (beBytes w b) d
  | 0, _, _, hab, hb => by simp at hb; omega
  | w + 1, a, b, hab, hb => by
    rw [beBytes, beBytes]
    by_cases hhigh : a / 256 = b / 256
    · -- the same high bytes: they part at the last one
      rw [hhigh, ← beBytes_length w (b / 256)]
      exact ⟨_, partsAt_append_singleton (by omega) _⟩
    · obtain ⟨d, hd⟩ := @beBytes_partsAt w (a / 256) (b / 256)
        (lt_of_le_of_ne (Nat.div_le_div_right hab.le) hhigh)
        (by rw [pow_succ] at hb; omega)
      exact ⟨d, hd.append _ _⟩

theorem encodeString_natBytes_of_ge {i : Nat} (h : 128 ≤ i) (hi : i < 2 ^ 64) :
    encodeString (natBytes i) = (0x80 + byteLength i) :: natBytes i := by
  have hlen := byteLength_le_eight hi
  rw [encodeString_natBytes, if_neg (by omega), if_neg (by omega), header, if_pos (by omega)]
  rfl

/-- Below `0x80` the key is one byte: `0x80` for zero, else the index itself. -/
theorem encodeString_natBytes_of_lt {i : Nat} (h : i < 128) :
    encodeString (natBytes i) = [if i = 0 then 0x80 else i] := by
  rw [encodeString_natBytes]
  split_ifs <;> rfl

theorem byteLength_mono {a b : Nat} (h : a ≤ b) : byteLength a ≤ byteLength b :=
  byteLength_le_of_lt_pow (lt_of_le_of_lt h (lt_pow_byteLength b))

/-- Two indices part in their keys' bytes in the order of their ranks. -/
theorem encodeString_natBytes_partsAt {a b : Nat} (ha : a < 2 ^ 64) (hb : b < 2 ^ 64)
    (hab : indexRank a < indexRank b) :
    ∃ d, PartsAt (encodeString (natBytes a)) (encodeString (natBytes b)) d := by
  unfold indexRank at hab
  by_cases hb128 : 128 ≤ b
  · rw [encodeString_natBytes_of_ge hb128 hb]
    have hlb : 1 ≤ byteLength b := byteLength_pos (by omega)
    by_cases ha128 : 128 ≤ a
    · -- two long keys: by length, then by their big-endian bytes
      have hlt : a < b := by
        rw [if_neg (by omega), if_neg (by omega), if_neg (by omega), if_neg (by omega)] at hab
        omega
      rw [encodeString_natBytes_of_ge ha128 ha]
      rcases Nat.lt_or_eq_of_le (byteLength_mono hlt.le) with hlen | hlen
      · exact ⟨0, by simp only [partsAt_cons_zero]; omega⟩
      · obtain ⟨d, hd⟩ := beBytes_partsAt hlt (lt_pow_byteLength b)
        refine ⟨d + 1, ?_⟩
        rw [natBytes, natBytes, hlen, partsAt_cons_succ]
        exact ⟨rfl, hd⟩
    · -- a one-byte key, or the key of zero, before a longer key
      rw [encodeString_natBytes_of_lt (by omega)]
      refine ⟨0, ?_⟩
      simp only [partsAt_cons_zero]
      split_ifs <;> omega
  · -- two one-byte keys, or a one-byte key before the key of zero
    have ha' : 0 < a ∧ a < 128 := by
      split_ifs at hab <;> omega
    rw [encodeString_natBytes_of_lt ha'.2, encodeString_natBytes_of_lt (by omega)]
    refine ⟨0, ?_⟩
    simp only [partsAt_cons_zero]
    split_ifs at hab ⊢ <;> omega

theorem mem_encodeString_natBytes_lt {i x : Nat} (hi : i < 2 ^ 64)
    (hx : x ∈ encodeString (natBytes i)) : x < 256 := by
  rw [encodeString_natBytes] at hx
  split_ifs at hx with h0 h128
  · simp at hx
    omega
  · simp at hx
    omega
  · rw [List.mem_append] at hx
    rcases hx with hx | hx
    · exact header_lt (by decide) (by have := byteLength_le_eight hi; omega) x hx
    · exact natBytes_lt hx

theorem indexKey_eq {i : Nat} (hi : i < 2 ^ 64) :
    indexKey i = (encodeString (natBytes i)).map UInt8.ofNat := by
  rw [indexKey, Nat.mod_eq_of_lt hi, appendUint64_eq [] hi, List.nil_append]

/-- The keys of two indices are in byte order, neither a prefix of the other, when their ranks
    are in order. -/
theorem indexKey_ordered {a b : Nat} (ha : a < 2 ^ 64) (hb : b < 2 ^ 64)
    (hab : indexRank a < indexRank b) :
    indexKey a < indexKey b ∧ ¬ indexKey a <+: indexKey b := by
  obtain ⟨d, hd⟩ := encodeString_natBytes_partsAt ha hb hab
  rw [indexKey_eq ha, indexKey_eq hb]
  refine (hd.map fun x hx y hy hxy => ?_).ordered fun x => Nat.lt_irrefl x.toNat
  have hx256 := mem_encodeString_natBytes_lt ha hx
  have hy256 := mem_encodeString_natBytes_lt hb hy
  rw [UInt8.lt_iff_toNat_lt, UInt8.toNat_ofNat_of_lt' hx256, UInt8.toNat_ofNat_of_lt' hy256]
  exact hxy

/-- The keys `DeriveSha` inserts are in increasing byte order, none a prefix of a later one. -/
theorem indexKeys_sorted {len : Nat} (hlen : len ≤ 2 ^ 64) :
    ((deriveShaOrder len).map indexKey).Pairwise fun a b => a < b ∧ ¬ a <+: b :=
  List.pairwise_map.mpr <| (deriveShaOrder_pairwise len).imp_of_mem fun ha hb hab =>
    indexKey_ordered (by have := mem_deriveShaOrder ha; omega)
      (by have := mem_deriveShaOrder hb; omega) hab

/-! ## Both hashers give one root -/

/-- The loop of `Update` calls is any run over the pairs that makes one `Update` a pair. -/
theorem foldlM_update_eq {σ : Type} (hasher : TrieHasher σ) (list : DerivableList)
    (run : σ → List (List UInt8 × List UInt8) → Option σ) (hnil : ∀ s, run s [] = some s)
    (hcons : ∀ s p ps, run s (p :: ps) = (hasher.update s p.1 p.2).bind (run · ps)) :
    ∀ (l : List Nat) (s : σ),
      l.foldlM (fun s i => hasher.update s (indexKey i) (list.encodeIndex i)) s =
        run s (l.map fun i => (indexKey i, list.encodeIndex i))
  | [], s => (hnil s).symm
  | i :: l, s => by
    rw [List.foldlM_cons, List.map_cons, hcons]
    cases hasher.update s (indexKey i) (list.encodeIndex i) with
    | none => rfl
    | some s' => exact foldlM_update_eq hasher list run hnil hcons l s'

/-- `DeriveSha` with a new stack trie gives the root `DeriveSha` with a new trie gives, for a
    list whose encodings are not empty and a Keccak that returns 32-byte hashes. -/
theorem deriveSha_stackTrie_eq_trie {keccak : List Nat → Hash} (hk : ∀ b, keccak b < 2 ^ 256)
    (list : DerivableList) (hlen : list.len ≤ 2 ^ 64)
    (henc : ∀ i < list.len, list.encodeIndex i ≠ []) :
    ∃ h, deriveSha list (stackTrieHasher keccak) = some h ∧
      deriveSha list (trieHasher keccak) = some h := by
  have hvalues : ∀ p ∈ (deriveShaOrder list.len).map (fun i => (indexKey i, list.encodeIndex i)),
      p.2 ≠ [] := by
    intro p hp
    obtain ⟨i, hi, rfl⟩ := List.mem_map.mp hp
    exact henc i (mem_deriveShaOrder hi)
  have hsorted : (((deriveShaOrder list.len).map fun i => (indexKey i, list.encodeIndex i)).map
      Prod.fst).Pairwise fun a b => a < b ∧ ¬ a <+: b := by
    rw [List.map_map]
    exact indexKeys_sorted hlen
  obtain ⟨st, n, hrun, hnrun, hroot⟩ := rootHash_updateAll hk hvalues hsorted
  refine ⟨st.rootHash keccak, ?_, ?_⟩
  · -- the stack trie's loop is `updateAll`
    rw [deriveSha, foldlM_update_eq _ _ (fun st pairs => st.updateAll keccak pairs) (fun _ => rfl)
      (fun _ _ _ => rfl), show (stackTrieHasher keccak).reset = newStackTrie from rfl, hrun]
    rfl
  · -- the trie's loop is a run of `TryUpdate` calls
    rw [deriveSha, foldlM_update_eq _ _ (fun n pairs => runOps n (pairs.map fun p => .update p.1 p.2))
      (fun _ => rfl) (fun _ _ _ => rfl), show (trieHasher keccak).reset = .nil from rfl, hnrun]
    exact hroot.symm

/-- The stack trie computes the trie's root: after `TryUpdate` of pairs with values, keys in
    increasing byte order and none a prefix of a later one, `StackTrie.Hash` is `Trie.Hash` of the
    trie the same calls build; so `DeriveSha` gives one root with either hasher. -/
theorem stack_trie_root_eq_trie_root (keccak : List Nat → Hash) (hk : ∀ b, keccak b < 2 ^ 256) :
    (∀ pairs : List (List UInt8 × List UInt8), (∀ p ∈ pairs, p.2 ≠ []) →
      (pairs.map Prod.fst).Pairwise (fun a b => a < b ∧ ¬ a <+: b) →
      ∃ st n, newStackTrie.updateAll keccak pairs = some st ∧
        runOps .nil (pairs.map fun p => .update p.1 p.2) = some n ∧
        some (st.rootHash keccak) = rootHash keccak n) ∧
    (∀ list : DerivableList, list.len ≤ 2 ^ 64 → (∀ i < list.len, list.encodeIndex i ≠ []) →
      ∃ h, deriveSha list (stackTrieHasher keccak) = some h ∧
        deriveSha list (trieHasher keccak) = some h) :=
  ⟨fun _ hvalues hsorted => rootHash_updateAll hk hvalues hsorted,
    fun list hlen henc => deriveSha_stackTrie_eq_trie hk list hlen henc⟩

theorem stack_trie_root_eq_trie_root_three_keys :
    ∃ st n, newStackTrie.updateAll (fun b => b.sum % 2 ^ 256)
        [([1, 2], [5]), ([1, 3], [6]), ([2], [7])] = some st ∧
      runOps .nil ([([1, 2], [5]), ([1, 3], [6]), ([2], [7])].map fun p => .update p.1 p.2) =
        some n ∧
      some (st.rootHash fun b => b.sum % 2 ^ 256) = rootHash (fun b => b.sum % 2 ^ 256) n :=
  (stack_trie_root_eq_trie_root _ fun _ => Nat.mod_lt _ (Nat.two_pow_pos 256)).1 _ (by decide)
    (by decide)

end QuorumHotstuff.Types
