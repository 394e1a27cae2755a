import QuorumHotstuff.Trie.Encoding
import QuorumHotstuff.Trie.Store
import QuorumHotstuff.Lib.FirstDiff

/-!
# The stack trie

`trie/stacktrie.go`: a trie that takes its keys in increasing order and hashes every subtree as
soon as no later key can enter it.  A node records where its key chunk starts in the full key
(`keyOffset`); inserting into a branch first hashes the nearest elder sibling of the child the
key goes to, and splitting a leaf or an extension hashes the part that the new key leaves behind.
`Hash` hashes the root, forcing a hash where the root's encoding is shorter than one.

The stack trie stands for a trie node (`Repr`): a leaf for a short node over its value, with the
terminator ending its key; an extension for a short node; a branch for a full node with an empty
value slot; a hashed node for any node whose reference in a parent's encoding it holds.  What
`hash` computes is that reference (`childRef_hashVal`), so `Hash` is `Trie.Hash` of the node
(`rootHash_eq`).  Keys inserted in increasing order, none a prefix of another, keep the nodes on
the path of the last key open and every other node hashed or nil (`Spine`); each insertion then
mirrors `Trie.insert` (`Spine.insert`).  So `Hash` after the insertions is `Trie.Hash` of the trie
the same `TryUpdate` calls build (`rootHash_updateAll`).

The database the stack trie may commit nodes to, and the pool its nodes are taken from, are left
out; a Go panic is `none`.
-/

namespace QuorumHotstuff.Trie

open QuorumHotstuff.Lib.Rlp
open QuorumHotstuff.Hotstuff (Hash)

/-- A `*StackTrie`: nil, or a node of a `nodeType` with the fields that type uses.  `keyOffset`
    is where the node's key chunk starts in the full key; an extension's child is its
    `children[0]`; a hashed node keeps only `val`, its encoding when shorter than 32 bytes and its
    hash otherwise. -/
inductive StackTrie where
  | nil
  | empty (keyOffset : Nat)
  | branch (keyOffset : Nat) (children : Fin 16 → StackTrie)
  | ext (keyOffset : Nat) (key : List Nibble) (child : StackTrie)
  | leaf (keyOffset : Nat) (key : List Nibble) (val : List UInt8)
  | hashed (val : List Nat)

instance : Inhabited StackTrie := ⟨.nil⟩

/-- The encoding `rlp.Encode` writes for a list of items already encoded. -/
def encodeList (items : List (List Nat)) : List Nat :=
  header 0xC0 items.flatten.length ++ items.flatten

/-- How a parent's encoding holds a hashed child: `rawNode` of an encoding shorter than 32 bytes,
    `hashNode` of a hash. -/
def childRef (val : List Nat) : List Nat := if val.length < 32 then val else encodeString val

/-- The end of `hash`: the encoding itself when shorter than 32 bytes, else its Keccak hash. -/
def hashedVal (keccak : List Nat → Hash) (enc : List Nat) : List Nat :=
  if enc.length < 32 then enc else beBytes 32 (keccak enc)

/-- The compact form of a leaf's key, which `hexToCompactInPlace` leaves at the start of the key
    once the terminator is appended; that key is never empty, so it never panics. -/
def leafCompact (key : List Nibble) : List Nat :=
  match hexToCompactInPlace ((key ++ [16]).map Fin.val) with
  | some (buf, sz) => buf.take sz
  | none => []

namespace StackTrie

/-- The test `child == nil`. -/
def isNil : StackTrie → Bool
  | .nil => true
  | _ => false

/-- A child index: a nibble below `16`; the terminator overruns `children`. -/
def toIdx (x : Nibble) : Option (Fin 16) := if h : x.val < 16 then some ⟨x.val, h⟩ else none

variable (keccak : List Nat → Hash)

/-- The `val` that `hash` leaves: a branch encodes its sixteen children, each hashed, and an empty
    value slot; an extension its compact key and its hashed child; a leaf its compact key with the
    terminator and its value.  An empty node hashes to `emptyRoot`.  A nil child is never hashed. -/
def hashVal : StackTrie → List Nat
  | .nil => []
  | .empty _ => beBytes 32 emptyRoot
  | .branch _ children => hashedVal keccak (encodeList
      ((List.finRange 16).map (fun i =>
        if (children i).isNil then [0x80] else childRef ((children i).hashVal)) ++ [[0x80]]))
  | .ext _ key child => hashedVal keccak (encodeList
      [encodeString (hexToCompact key), childRef child.hashVal])
  | .leaf _ key val => hashedVal keccak (encodeList
      [encodeString (leafCompact key), encodeString (val.map UInt8.toNat)])
  | .hashed val => val

/-- `hash`: the node becomes a hashed node; one already hashed stays as it is. -/
def hash (st : StackTrie) : StackTrie := .hashed (st.hashVal keccak)

/-- `Hash`: the root's hash, forced where its `val` is not a 32-byte hash. -/
def rootHash (st : StackTrie) : Hash :=
  let val := st.hashVal keccak
  if val.length ≠ 32 then keccak val else beValue val

/-- The loop of the branch case over the elder siblings, from `i - 1` down: the first one that is
    not nil is hashed and the loop stops. -/
def hashElder (children : Fin 16 → StackTrie) : Nat → Fin 16 → StackTrie
  | 0 => children
  | i + 1 =>
    if h : i < 16 then
      if (children ⟨i, h⟩).isNil then hashElder children i
      else Function.update children ⟨i, h⟩ ((children ⟨i, h⟩).hash keccak)
    else children

/-- The loop of `getDiffIndex`: the length of the common prefix of the chunk and the key; reading
    past the key's end panics. -/
def diffIndex : List Nibble → List Nibble → Option Nat
  | [], _ => some 0
  | _ :: _, [] => none
  | c :: cs, d :: ds => if c = d then (diffIndex cs ds).map (· + 1) else some 0

/-- `getDiffIndex`: where the node's chunk and the full key from `keyOffset` on differ. -/
def getDiffIndex (chunk : List Nibble) (keyOffset : Nat) (key : List Nibble) : Option Nat :=
  diffIndex chunk (key.drop keyOffset)

/-- `newLeaf`: a leaf for the key from `ko` on. -/
def newLeaf (ko : Nat) (key : List Nibble) (val : List UInt8) : StackTrie :=
  .leaf ko (key.drop ko) val

/-- `newExt`: an extension for the key from `ko` on. -/
def newExt (ko : Nat) (key : List Nibble) (child : StackTrie) : StackTrie :=
  .ext ko (key.drop ko) child

/-- The empty case of `insert`: the node becomes a leaf for the key from its offset on. -/
def insertEmpty (ko : Nat) (key : List Nibble) (value : List UInt8) : StackTrie :=
  .leaf ko (key.drop ko) value

/-- `insert` of a key without its terminator.  A branch goes down the child at the key's nibble,
    made from an empty node when it is nil, after hashing the nearest elder sibling.  An extension
    whose chunk the key extends goes down its child; otherwise the chunk is split where the key
    parts from it, the part after the split hashed.  A leaf is split likewise, the old leaf
    hashed.  Inserting into a hashed node, or a key that ends inside a leaf, panics. -/
def insert : StackTrie → List Nibble → List UInt8 → Option StackTrie
  | .branch ko children, key, value => do
    let idx ← key[ko]? >>= toIdx
    let elder := hashElder keccak children idx.val
    if (children idx).isNil then
      pure (.branch ko (Function.update elder idx (insertEmpty (ko + 1) key value)))
    else
      let child ← (children idx).insert key value
      pure (.branch ko (Function.update elder idx child))
  | .ext ko chunk child, key, value => do
    let diffidx ← getDiffIndex chunk ko key
    if diffidx = chunk.length then
      let child ← child.insert key value
      pure (.ext ko chunk child)
    else
      -- the part of the extension after the split, hashed
      let n := if diffidx < chunk.length - 1 then newExt (diffidx + 1) chunk child else child
      let n := n.hash keccak
      let o := newLeaf (ko + diffidx + 1) key value
      let origIdx ← chunk[diffidx]? >>= toIdx
      let newIdx ← key[diffidx + ko]? >>= toIdx
      let children := Function.update (Function.update (fun _ => StackTrie.nil) origIdx n) newIdx o
      if diffidx = 0 then pure (.branch ko children)
      else pure (.ext ko (chunk.take diffidx) (.branch (ko + diffidx) children))
  | .leaf ko chunk val, key, value => do
    let diffidx ← getDiffIndex chunk ko key
    if chunk.length ≤ diffidx then none
    else
      let pko := if diffidx = 0 then ko else ko + diffidx
      let origIdx ← chunk[diffidx]? >>= toIdx
      let orig := (newLeaf (diffidx + 1) chunk val).hash keccak
      let newIdx ← key[diffidx + ko]? >>= toIdx
      let children := Function.update
        (Function.update (fun _ => StackTrie.nil) origIdx orig) newIdx (newLeaf (pko + 1) key value)
      if diffidx = 0 then pure (.branch ko children)
      else pure (.ext ko (chunk.take diffidx) (.branch (ko + diffidx) children))
  | .empty ko, key, value => pure (insertEmpty ko key value)
  | .hashed _, _, _ => none
  | .nil, _, _ => none

/-- `TryUpdate`: the key's hex form without the terminator; an empty value panics, as deletion is
    not supported. -/
def tryUpdate (st : StackTrie) (key value : List UInt8) : Option StackTrie :=
  let k := keybytesToHex key
  if value.length = 0 then none else st.insert keccak (k.take (k.length - 1)) value

/-- `TryUpdate` of each pair in turn. -/
def updateAll (st : StackTrie) : List (List UInt8 × List UInt8) → Option StackTrie
  | [] => some st
  | (key, value) :: pairs => (st.tryUpdate keccak key value).bind (updateAll · pairs)

end StackTrie

/-- `NewStackTrie`. -/
def newStackTrie : StackTrie := .empty 0

/-! ## What `hash` computes -/

section Hashing

variable {keccak : List Nat → Hash}

theorem encodeItems_eq_flatten (xs : List Item) : encodeItems xs = (xs.map Item.encode).flatten := by
  induction xs with
  | nil => rfl
  | cons x xs ih => rw [encodeItems_cons, ih, List.map_cons, List.flatten_cons]

theorem encodeList_map_encode (xs : List Item) :
    encodeList (xs.map Item.encode) = (Item.list xs).encode := by
  rw [encodeList, ← encodeItems_eq_flatten, Item.encode]

/-- The reference `hash` leaves for an encoding is the reference the trie's hasher gives it. -/
theorem childRef_hashedVal (it : Item) :
    childRef (hashedVal keccak it.encode) = ((toHashed keccak false it).item).encode := by
  unfold hashedVal toHashed childRef
  by_cases h : it.encode.length < 32
  · simp [h, Hashed.item]
  · simp [h, Hashed.item, Item.fixed, Item.encode]

theorem leafCompact_eq (key : List Nibble) : leafCompact key = hexToCompact (key ++ [16]) := by
  obtain ⟨buf, n, h, htake⟩ := @hexToCompactInPlace_eq (key ++ [16]) (by simp)
  rw [leafCompact, h]
  exact htake

/-- A leaf encodes the short node over its value. -/
theorem hashVal_leaf (ko : Nat) (key : List Nibble) (val : List UInt8) :
    (StackTrie.leaf ko key val).hashVal keccak = hashedVal keccak
      (Item.list [.str (hexToCompact (key ++ [16])), .str (val.map UInt8.toNat)]).encode := by
  rw [StackTrie.hashVal, leafCompact_eq, ← encodeList_map_encode]
  rfl

/-- An extension encodes the short node over its child, given the child's reference. -/
theorem hashVal_ext {ko : Nat} {key : List Nibble} {child : StackTrie} {c : Node}
    (hc : childRef (child.hashVal keccak) = ((c.hash keccak false).item).encode) :
    (StackTrie.ext ko key child).hashVal keccak = hashedVal keccak
      (Item.list [.str (hexToCompact key), (c.hash keccak false).item]).encode := by
  rw [StackTrie.hashVal, hc, ← encodeList_map_encode]
  rfl

/-- A branch encodes the full node of its children with an empty value slot, given the
    children's references. -/
theorem hashVal_branch {ko : Nat} {children : Fin 16 → StackTrie} {cs : Fin 17 → Node}
    (hcs : ∀ i : Fin 16,
      (if (children i).isNil then [0x80] else childRef ((children i).hashVal keccak)) =
        (if (cs i.castSucc).isNil then Item.str []
          else ((cs i.castSucc).hash keccak false).item).encode)
    (h16 : cs 16 = .nil) :
    (StackTrie.branch ko children).hashVal keccak = hashedVal keccak
      (Item.list ((List.finRange 17).map fun i =>
        if (cs i).isNil then .str []
        else if i < 16 then ((cs i).hash keccak false).item else (cs i).rawItem)).encode := by
  rw [StackTrie.hashVal, ← encodeList_map_encode,
    show List.finRange 17 = (List.finRange 16).map Fin.castSucc ++ [Fin.last 16] from
      List.finRange_succ_last, List.map_append, List.map_append, List.map_map, List.map_map]
  -- the sixteen children, then the value slot, which is empty
  have hchildren : (List.finRange 16).map (fun i =>
      if (children i).isNil then [0x80] else childRef ((children i).hashVal keccak)) =
      (List.finRange 16).map ((Item.encode ∘ fun i : Fin 17 => if (cs i).isNil then .str []
        else if i < 16 then ((cs i).hash keccak false).item else (cs i).rawItem) ∘ Fin.castSucc) := by
    apply List.map_congr_left
    intro i _
    have hlt : i.castSucc < (16 : Fin 17) := Fin.castSucc_lt_last i
    simp [hcs i, hlt]
  rw [hchildren]
  simp [h16, Item.encode, encodeString, header]

/-- The branch's references to its children are the full node's, given each child's. -/
theorem branch_refs {children : Fin 16 → StackTrie} {cs : Fin 17 → Node}
    (hnil : ∀ i, (children i).isNil = (cs i.castSucc).isNil)
    (href : ∀ i, cs i.castSucc ≠ .nil →
      childRef ((children i).hashVal keccak) = (((cs i.castSucc).hash keccak false).item).encode)
    (i : Fin 16) :
    (if (children i).isNil then [0x80] else childRef ((children i).hashVal keccak)) =
      (if (cs i.castSucc).isNil then Item.str []
        else ((cs i.castSucc).hash keccak false).item).encode := by
  rw [hnil i]
  by_cases hi : (cs i.castSucc).isNil
  · simp [hi, Item.encode, encodeString, header]
  · simp only [hi, Bool.false_eq_true, if_false]
    exact href i (Node.isNil_eq_false.mp (by simpa using hi))

theorem toHashed_true (it : Item) : toHashed keccak true it = .hash (keccak it.encode) := by
  simp [toHashed]

/-- `Hash` of an encoding: the hash of it, also where `hash` left the encoding itself. -/
theorem rootHash_hashedVal (hk : ∀ b, keccak b < 2 ^ 256) (enc : List Nat) :
    (if (hashedVal keccak enc).length ≠ 32 then keccak (hashedVal keccak enc)
      else beValue (hashedVal keccak enc)) = keccak enc := by
  unfold hashedVal
  by_cases h : enc.length < 32
  · rw [if_pos h, if_pos (by omega)]
  · rw [if_neg h, beBytes_length, if_neg (by decide), beValue_beBytes,
      Nat.mod_eq_of_lt (by simpa using hk enc)]

/-- `Hash` of a node whose encoding the trie's hasher hashes, when forced, is `Trie.Hash` of the
    trie node. -/
theorem rootHash_of_hashVal (hk : ∀ b, keccak b < 2 ^ 256) {st : StackTrie} {n : Node} {it : Item}
    (hst : st.hashVal keccak = hashedVal keccak it.encode) (hn : n ≠ .nil)
    (hhash : n.hash keccak true = toHashed keccak true it) :
    some (st.rootHash keccak) = Trie.rootHash keccak n := by
  rw [StackTrie.rootHash, hst, rootHash_hashedVal hk]
  cases n with
  | nil => exact absurd rfl hn
  | _ => simp only [rootHash, hhash, toHashed_true]

end Hashing

/-! ## The trie node a stack trie stands for -/

/-- A stack trie node stands for a trie node: nil for nil, a leaf for a short node over its value
    with the terminator ending its key, an extension for a short node over its child's node, a
    branch for a full node with an empty value slot, and a hashed node for any node whose
    reference in a parent's encoding it holds. -/
inductive Repr (keccak : List Nat → Hash) : StackTrie → Node → Prop
  | nil : Repr keccak .nil .nil
  | leaf (ko : Nat) (key : List Nibble) (val : List UInt8) :
      Repr keccak (.leaf ko key val) (.short (key ++ [16]) (.value val))
  | ext (ko : Nat) {key : List Nibble} {child : StackTrie} {c : Node} :
      c ≠ .nil → Repr keccak child c → Repr keccak (.ext ko key child) (.short key c)
  | branch (ko : Nat) {children : Fin 16 → StackTrie} {cs : Fin 17 → Node} :
      (∀ i : Fin 16, Repr keccak (children i) (cs i.castSucc)) → cs 16 = .nil →
      Repr keccak (.branch ko children) (.full cs)
  | hashed {val : List Nat} {n : Node} :
      n ≠ .nil → childRef val = ((n.hash keccak false).item).encode → Repr keccak (.hashed val) n

section Repr

variable {keccak : List Nat → Hash} {st : StackTrie} {n : Node}

theorem Repr.isNil_eq (h : Repr keccak st n) : st.isNil = n.isNil := by
  cases h with
  | nil => rfl
  | leaf => rfl
  | ext => rfl
  | branch => rfl
  | hashed hn _ =>
    simp only [StackTrie.isNil]
    exact (Node.isNil_eq_false.mpr hn).symm

theorem Repr.ne_nil (h : Repr keccak st n) (hst : st ≠ .nil) : n ≠ .nil := by
  intro hn
  have := h.isNil_eq
  subst hn
  cases st <;> simp_all [StackTrie.isNil]

/-- What `hash` computes for a node is the reference the trie's hasher gives the node it stands
    for. -/
theorem Repr.childRef_hashVal (h : Repr keccak st n) (hn : n ≠ .nil) :
    childRef (st.hashVal keccak) = ((n.hash keccak false).item).encode := by
  induction h with
  | nil => exact absurd rfl hn
  | leaf ko key val =>
    rw [hashVal_leaf]
    exact childRef_hashedVal _
  | ext ko hc _ ih =>
    rw [hashVal_ext (ih hc)]
    exact childRef_hashedVal _
  | branch ko hchildren h16 ih =>
    rw [hashVal_branch (branch_refs (fun i => (hchildren i).isNil_eq) (fun i => ih i)) h16]
    exact childRef_hashedVal _
  | hashed _ hval => exact hval

/-- `hash` keeps what a node stands for. -/
theorem Repr.hash (h : Repr keccak st n) (hn : n ≠ .nil) : Repr keccak (st.hash keccak) n :=
  .hashed hn (h.childRef_hashVal hn)

/-- `Hash` of a node that is not hashed is `Trie.Hash` of the node it stands for, for a Keccak
    that returns 32-byte hashes. -/
theorem Repr.rootHash_eq (hk : ∀ b, keccak b < 2 ^ 256) (h : Repr keccak st n) (hn : n ≠ .nil)
    (hst : ∀ v, st ≠ .hashed v) : some (st.rootHash keccak) = Trie.rootHash keccak n := by
  cases h with
  | nil => exact absurd rfl hn
  | leaf ko key val => exact rootHash_of_hashVal hk (hashVal_leaf ko key val) hn rfl
  | ext ko hc hchild =>
    exact rootHash_of_hashVal hk (hashVal_ext (hchild.childRef_hashVal hc)) hn rfl
  | branch ko hchildren h16 =>
    exact rootHash_of_hashVal hk (hashVal_branch (branch_refs (fun i => (hchildren i).isNil_eq)
      (fun i => (hchildren i).childRef_hashVal)) h16) hn rfl
  | hashed => exact absurd rfl (hst _)

end Repr

/-! ## `insert` case by case -/

section Insert

variable {keccak : List Nat → Hash}

namespace StackTrie

/-- A node no later key enters: nil, or hashed. -/
def Closed (st : StackTrie) : Prop := st = .nil ∨ ∃ v, st = .hashed v

theorem toIdx_castSucc (i : Fin 16) : toIdx i.castSucc = some i := by
  simp [toIdx]

theorem diffIndex_of_partsAt : ∀ {a b : List Nibble} {d : Nat}, Lib.PartsAt a b d →
    diffIndex a b = some d
  | _ :: _, _ :: _, 0, h => by simp [diffIndex, ne_of_lt (Lib.partsAt_cons_zero.mp h)]
  | _ :: _, _ :: _, _ + 1, h => by simp [diffIndex, h.1, diffIndex_of_partsAt h.2]
  | [], _, _, h | _ :: _, [], _, h => by simp at h

theorem diffIndex_eq_length : ∀ {a b : List Nibble}, a <+: b → diffIndex a b = some a.length
  | [], _, _ => rfl
  | x :: a, _, ⟨t, rfl⟩ => by simp [diffIndex, diffIndex_eq_length ⟨t, rfl⟩]

theorem hash_hashed (v : List Nat) : (StackTrie.hashed v).hash keccak = .hashed v := rfl

/-- With every elder sibling nil or hashed, the loop over them changes nothing. -/
theorem hashElder_of_closed {children : Fin 16 → StackTrie} :
    ∀ {i : Nat}, (∀ j : Fin 16, j.val < i → (children j).Closed) →
      hashElder keccak children i = children
  | 0, _ => rfl
  | i + 1, h => by
    unfold hashElder
    split_ifs with hi hnil
    · exact hashElder_of_closed fun j hj => h j (by omega)
    · obtain hc | ⟨v, hv⟩ := h ⟨i, hi⟩ (by simp)
      · simp [hc, isNil] at hnil
      · have hself : (children ⟨i, hi⟩).hash keccak = children ⟨i, hi⟩ := by
          rw [hv, hash_hashed]
        rw [hself, Function.update_eq_self]
    · rfl

/-- The loop from `y` down hashes the open child `i` when every child between them is nil. -/
theorem hashElder_eq_update {children : Fin 16 → StackTrie} {i : Fin 16}
    (hi : (children i).isNil = false) :
    ∀ {y : Nat}, y ≤ 16 → i.val < y → (∀ j : Fin 16, i < j → j.val < y → children j = .nil) →
      hashElder keccak children y = Function.update children i ((children i).hash keccak)
  | 0, _, h, _ => absurd h (Nat.not_lt_zero _)
  | y + 1, hy, hiy, hnil => by
    unfold hashElder
    rw [dif_pos (by omega)]
    by_cases hyi : y = i.val
    · -- the nearest elder sibling that is not nil is `i` itself
      have heq : (⟨y, by omega⟩ : Fin 16) = i := Fin.ext hyi
      rw [heq, if_neg (by simp [hi])]
    · have hlt : i < ⟨y, by omega⟩ := by
        rw [Fin.lt_def]
        show i.val < y
        omega
      rw [if_pos (by simp [hnil _ hlt (by simp), isNil])]
      exact hashElder_eq_update hi (by omega) (by omega) fun j hij hj => hnil j hij (by omega)

/-- `insert` into a leaf the key parts from inside its chunk, at `diffidx`. -/
theorem insert_leaf_split {ko diffidx : Nat} {chunk key : List Nibble} {val value : List UInt8}
    {x y : Fin 16} (hdiff : getDiffIndex chunk ko key = some diffidx)
    (hlt : diffidx < chunk.length) (hx : chunk[diffidx]? = some x.castSucc)
    (hy : key[diffidx + ko]? = some y.castSucc) :
    (StackTrie.leaf ko chunk val).insert keccak key value =
      let children := Function.update (Function.update (fun _ => StackTrie.nil) x
        ((newLeaf (diffidx + 1) chunk val).hash keccak)) y (newLeaf (ko + diffidx + 1) key value)
      some (if diffidx = 0 then .branch ko children
        else .ext ko (chunk.take diffidx) (.branch (ko + diffidx) children)) := by
  -- the branch sits at the key's offset plus the split, whichever node holds it
  have hpko : (if diffidx = 0 then ko else ko + diffidx) = ko + diffidx := by
    split_ifs <;> omega
  simp only [insert, hdiff, if_neg (Nat.not_le.mpr hlt), hx, hy, toIdx_castSucc, hpko,
    Option.bind_eq_bind, Option.bind_some]
  split_ifs <;> rfl

/-- `insert` into an extension the key parts from inside its chunk, at `diffidx`. -/
theorem insert_ext_split {ko diffidx : Nat} {chunk key : List Nibble} {child : StackTrie}
    {value : List UInt8} {x y : Fin 16} (hdiff : getDiffIndex chunk ko key = some diffidx)
    (hlt : diffidx < chunk.length) (hx : chunk[diffidx]? = some x.castSucc)
    (hy : key[diffidx + ko]? = some y.castSucc) :
    (StackTrie.ext ko chunk child).insert keccak key value =
      let n := if diffidx < chunk.length - 1 then newExt (diffidx + 1) chunk child else child
      let children := Function.update (Function.update (fun _ => StackTrie.nil) x
        (n.hash keccak)) y (newLeaf (ko + diffidx + 1) key value)
      some (if diffidx = 0 then .branch ko children
        else .ext ko (chunk.take diffidx) (.branch (ko + diffidx) children)) := by
  simp only [insert, hdiff, if_neg (Nat.ne_of_lt hlt), hx, hy, toIdx_castSucc,
    Option.bind_eq_bind, Option.bind_some]
  split_ifs <;> rfl

/-- `insert` into an extension whose chunk the key runs through goes on in its child. -/
theorem insert_ext_descend {ko : Nat} {chunk key : List Nibble} {child child' : StackTrie}
    {value : List UInt8} (hdiff : getDiffIndex chunk ko key = some chunk.length)
    (hins : child.insert keccak key value = some child') :
    (StackTrie.ext ko chunk child).insert keccak key value = some (.ext ko chunk child') := by
  simp only [insert, hdiff, if_true, hins, Option.bind_eq_bind, Option.bind_some]
  rfl

/-- `insert` into a branch whose child at the key's nibble is nil: a leaf there. -/
theorem insert_branch_nil {ko : Nat} {children : Fin 16 → StackTrie} {key : List Nibble}
    {value : List UInt8} {i : Fin 16} (hidx : key[ko]? = some i.castSucc)
    (hnil : children i = .nil) :
    (StackTrie.branch ko children).insert keccak key value =
      some (.branch ko (Function.update (hashElder keccak children i.val) i
        (.leaf (ko + 1) (key.drop (ko + 1)) value))) := by
  simp only [insert, hidx, toIdx_castSucc, hnil, isNil, if_true, Option.bind_eq_bind,
    Option.bind_some]
  rfl

/-- `insert` into a branch whose child at the key's nibble is open goes on in that child. -/
theorem insert_branch_descend {ko : Nat} {children : Fin 16 → StackTrie} {key : List Nibble}
    {value : List UInt8} {i : Fin 16} {child' : StackTrie} (hidx : key[ko]? = some i.castSucc)
    (hnil : (children i).isNil = false) (hins : (children i).insert keccak key value = some child') :
    (StackTrie.branch ko children).insert keccak key value =
      some (.branch ko (Function.update (hashElder keccak children i.val) i child')) := by
  simp only [insert, hidx, toIdx_castSucc, hnil, hins, Bool.false_eq_true, if_false,
    Option.bind_eq_bind, Option.bind_some]
  rfl

end StackTrie

end Insert

/-! ## The path of the last key -/

/-- The open nodes of a stack trie lie on the path of the last key inserted, `last`, and `off` is
    where a node's chunk starts in that key: a leaf holds the rest of the key, an extension's
    chunk is the next part of it, and a branch goes on at the key's nibble, its elder children
    nil or hashed and its younger ones nil. -/
inductive Spine (last : List Nibble) : Nat → StackTrie → Prop
  | leaf (off : Nat) (val : List UInt8) : Spine last off (.leaf off (last.drop off) val)
  | ext (off : Nat) {key : List Nibble} {child : StackTrie} : key ≠ [] → key <+: last.drop off →
      Spine last (off + key.length) child → Spine last off (.ext off key child)
  | branch (off : Nat) {children : Fin 16 → StackTrie} (i : Fin 16) :
      last[off]? = some i.castSucc → Spine last (off + 1) (children i) →
      (∀ j < i, (children j).Closed) → (∀ j, i < j → children j = .nil) →
      Spine last off (.branch off children)

section Spine

open Lib (PartsAt)

variable {keccak : List Nat → Hash}

theorem Spine.isNil_eq_false {last : List Nibble} {off : Nat} {st : StackTrie}
    (h : Spine last off st) : st.isNil = false := by
  cases h <;> rfl

theorem Spine.ne_nil {last : List Nibble} {off : Nat} {st : StackTrie} (h : Spine last off st) :
    st ≠ .nil := by
  cases h <;> simp

theorem Spine.ne_hashed {last : List Nibble} {off : Nat} {st : StackTrie} (h : Spine last off st)
    (v : List Nat) : st ≠ .hashed v := by
  cases h <;> simp

theorem Repr.eq_nil {n : Node} (h : Repr keccak .nil n) : n = .nil := by
  cases h
  rfl

/-- Setting one child of a branch keeps what its children stand for. -/
theorem Repr.update {children : Fin 16 → StackTrie} {cs : Fin 17 → Node}
    (h : ∀ j, Repr keccak (children j) (cs j.castSucc)) {i : Fin 16} {st : StackTrie} {n : Node}
    (hi : Repr keccak st n) (j : Fin 16) :
    Repr keccak (Function.update children i st j) (Function.update cs i.castSucc n j.castSucc) := by
  by_cases hj : j = i
  · subst hj
    simpa using hi
  · rw [Function.update_of_ne hj, Function.update_of_ne (Fin.castSucc_injective _ |>.ne hj)]
    exact h j

theorem update_castSucc_sixteen (f : Fin 17 → Node) (i : Fin 16) (n : Node) :
    Function.update f i.castSucc n 16 = f 16 :=
  Function.update_of_ne (Fin.castSucc_lt_last i).ne' _ _

theorem newLeaf_of_ne_nil {k : List Nibble} (hk : k ≠ []) (c : Node) : newLeaf k c = .short k c := by
  cases k with
  | nil => exact absurd rfl hk
  | cons x k => rfl

theorem drop_eq_cons_of_getElem? {l : List Nibble} {i : Nat} {x : Nibble} (h : l[i]? = some x) :
    l.drop i = x :: l.drop (i + 1) := by
  obtain ⟨hi, rfl⟩ := List.getElem?_eq_some_iff.mp h
  exact List.drop_eq_getElem_cons hi

theorem prefixLen_of_partsAt : ∀ {a b : List Nibble} {d : Nat}, PartsAt a b d →
    prefixLen b a = d
  | _ :: _, _ :: _, 0, h => by simp [prefixLen, ne_of_gt (Lib.partsAt_cons_zero.mp h)]
  | _ :: _, _ :: _, _ + 1, h => by simp [prefixLen, h.1, prefixLen_of_partsAt h.2]
  | [], _, _, h | _ :: _, [], _, h => by simp at h

/-- Where two keys part, both nibbles are child indices once the larger one is. -/
theorem exists_idx_of_partsAt {a b : List Nibble} {d : Nat} (h : PartsAt a b d)
    (hb : ∀ y ∈ b, y.val < 16) :
    ∃ x y : Fin 16, a[d]? = some x.castSucc ∧ b[d]? = some y.castSucc ∧ x < y := by
  obtain ⟨x, y, hx, hy, hxy⟩ := h.exists_getElem
  have hy16 : y.val < 16 := hb y (List.mem_of_getElem? hy)
  have hx16 : x.val < 16 := by
    have := Fin.lt_def.mp hxy
    omega
  exact ⟨Fin.castLT x hx16, Fin.castLT y hy16, by simp [hx], by simp [hy], hxy⟩

/-- The branch a split leaves at `d`: the rest of the old node, hashed, at nibble `x`, and a leaf
    for the rest of the new key at its nibble `y`.  It stands for the trie's branch, and the new
    key's path runs through it. -/
theorem split_branch {key : List Nibble} {d : Nat} {x y : Fin 16} (hxy : x < y)
    (hy : key[d]? = some y.castSucc) {orig : StackTrie} {no : Node} (horig : Repr keccak orig no)
    (hno : no ≠ .nil) (value : List UInt8) :
    let children := Function.update (Function.update (fun _ => StackTrie.nil) x
      (orig.hash keccak)) y (StackTrie.newLeaf (d + 1) key value)
    Repr keccak (.branch d children) (.full (Function.update (Function.update (fun _ => .nil)
      x.castSucc no) y.castSucc (.short (key.drop (d + 1) ++ [16]) (.value value)))) ∧
    Spine key d (.branch d children) := by
  dsimp only
  have hyx : y ≠ x := (ne_of_lt hxy).symm
  refine ⟨.branch d (Repr.update (Repr.update (fun _ => .nil) (horig.hash hno)) (.leaf _ _ _)) ?_,
    .branch d y hy ?_ ?_ ?_⟩
  · rw [update_castSucc_sixteen, update_castSucc_sixteen]
  · -- the new key goes on into its leaf
    rw [Function.update_self]
    exact .leaf (d + 1) value
  · -- the only elder child is the old node's rest, hashed
    intro j hj
    rw [Function.update_of_ne (ne_of_lt hj)]
    by_cases hjx : j = x
    · subst hjx
      exact .inr ⟨_, Function.update_self _ _ _⟩
    · exact .inl (by rw [Function.update_of_ne hjx])
  · intro j hj
    rw [Function.update_of_ne (ne_of_gt hj), Function.update_of_ne (ne_of_gt (hxy.trans hj))]

/-- An extension for the part before a split at `off + δ`, over what the split left there. -/
theorem Spine.wrap {key : List Nibble} {off δ : Nat} {b : StackTrie} (hδ : δ ≠ 0)
    (hlen : off + δ ≤ key.length) (hb : Spine key (off + δ) b) :
    Spine key off (.ext off ((key.drop off).take δ) b) := by
  have hK : ((key.drop off).take δ).length = δ := by
    simp only [List.length_take, List.length_drop]
    omega
  refine .ext off (List.ne_nil_of_length_pos (by omega)) (List.take_prefix _ _) ?_
  rw [hK]
  exact hb

/-- What a split of a leaf or an extension at `off + δ` leaves, on both sides: the branch, behind
    an extension for the common part unless the split is at the chunk's start. -/
theorem split_result {key C : List Nibble} {off δ : Nat} {x y : Fin 16} (hxy : x < y)
    (hy : key[δ + off]? = some y.castSucc) (hC : C.take δ = (key.drop off).take δ)
    {orig : StackTrie} {no : Node} (horig : Repr keccak orig no) (hno : no ≠ .nil)
    (value : List UInt8) :
    let children := Function.update (Function.update (fun _ => StackTrie.nil) x
      (orig.hash keccak)) y (StackTrie.newLeaf (off + δ + 1) key value)
    let branch := Function.update (Function.update (fun _ => Node.nil) x.castSucc no) y.castSucc
      (newLeaf ((key.drop off ++ [16]).drop (δ + 1)) (.value value))
    let st' := if δ = 0 then .branch off children
      else .ext off (C.take δ) (.branch (off + δ) children)
    let n' := if δ = 0 then .full branch else .short ((key.drop off ++ [16]).take δ) (.full branch)
    Repr keccak st' n' ∧ n' ≠ .nil ∧ Spine key off st' := by
  dsimp only
  have hlen : off + δ < key.length := by
    have := (List.getElem?_eq_some_iff.mp hy).1
    omega
  -- the new key's rest after the branch, with its terminator
  have hrest : newLeaf ((key.drop off ++ [16]).drop (δ + 1)) (.value value) =
      .short (key.drop (off + δ + 1) ++ [16]) (.value value) := by
    rw [List.drop_append_of_le_length (by simp; omega), List.drop_drop,
      ← Nat.add_assoc, newLeaf_of_ne_nil (by simp)]
  have hsplit := @split_branch keccak key (off + δ) x y hxy (by rwa [Nat.add_comm]) orig no horig
    hno value
  dsimp only at hsplit
  rw [← hrest] at hsplit
  by_cases hδ : δ = 0
  · subst hδ
    simp only [Nat.add_zero] at hsplit
    simp only [if_true]
    exact ⟨hsplit.1, by simp, hsplit.2⟩
  · -- the common part: the same nibbles in the old chunk and in the new key
    have hK : (key.drop off ++ [16]).take δ = (key.drop off).take δ :=
      List.take_append_of_le_length (by simp; omega)
    simp only [if_neg hδ, hK, hC]
    exact ⟨.ext _ (by simp) hsplit.1, by simp, Spine.wrap hδ hlen.le hsplit.2⟩

/-- One insertion mirrors the trie's.  For a key that parts from the last one at `d`, at or
    below the node at offset `off` on the last key's path, `insert` into that node succeeds; the
    trie's `insert` of the rest of the key, with its terminator, into the node it stands for
    makes a new node; the result stands for that node, and the new key's path runs through it. -/
theorem Spine.insert {last : List Nibble} {off : Nat} {st : StackTrie} (hspine : Spine last off st)
    {key : List Nibble} {d : Nat} (hparts : PartsAt last key d) (hkey : ∀ x ∈ key, x.val < 16)
    (value : List UInt8) :
    ∀ {n : Node}, Repr keccak st n → off ≤ d →
      ∃ st' n', st.insert keccak key value = some st' ∧
        n.insert (key.drop off ++ [16]) (.value value) = some (true, n') ∧
        Repr keccak st' n' ∧ n' ≠ .nil ∧ Spine key off st' := by
  have hkey' : ∀ off, ∀ y ∈ key.drop off, y.val < 16 := fun _ y hy =>
    hkey y (List.mem_of_mem_drop hy)
  -- down the path of the last key; the trie node changes with the stack trie node
  induction hspine with
  | leaf off val =>
    intro n hrepr hoff
    cases hrepr
    -- the key parts from the leaf's chunk at `δ`, before the chunk ends
    obtain ⟨δ, rfl⟩ : ∃ δ, d = off + δ := ⟨d - off, by omega⟩
    have hp := hparts.drop off
    obtain ⟨x, y, hx, hy, hxy⟩ := exists_idx_of_partsAt hp (hkey' off)
    have hy' : key[δ + off]? = some y.castSucc := by
      rw [← hy, List.getElem?_drop, Nat.add_comm]
    have hlt := hp.lt_length_left
    have hpt := hp.append [16] [16]
    refine ⟨_, _, StackTrie.insert_leaf_split (StackTrie.diffIndex_of_partsAt hp) hlt hx hy',
      insert_short_branchOut (by simp) (prefixLen_of_partsAt hpt)
        (by simp only [List.length_append, List.length_singleton]; omega)
        (by rw [List.getElem?_append_left hlt, hx])
        (by rw [List.getElem?_append_left hp.lt_length_right, hy]),
      split_result hxy hy' hp.take_eq ?_ (newLeaf_ne_nil _ (by simp)) value⟩
    -- the old leaf's rest, hashed
    rw [List.drop_append_of_le_length hlt, newLeaf_of_ne_nil (by simp)]
    exact .leaf _ _ _
  | @ext off K child hK hpre hchild ih =>
    intro n hrepr hoff
    cases hrepr with
    | ext _ hc hrc =>
    obtain ⟨δ, rfl⟩ : ∃ δ, d = off + δ := ⟨d - off, by omega⟩
    have hp := hparts.drop off
    by_cases hle : K.length ≤ δ
    · -- the key runs through the chunk: go on in the child
      obtain ⟨r, hr⟩ := hp.isPrefix_right hpre hle
      obtain ⟨st', n', hins, hnins, hrepr', hne', hspine'⟩ := ih hrc (by omega)
      have hrest : (key.drop off ++ [16]).drop K.length = key.drop (off + K.length) ++ [16] := by
        rw [List.drop_append_of_le_length (by rw [← hr]; simp), List.drop_drop]
      have hpl : prefixLen (key.drop off ++ [16]) K = K.length := by
        rw [← hr, List.append_assoc]
        exact prefixLen_append K _
      refine ⟨_, _, StackTrie.insert_ext_descend (StackTrie.diffIndex_eq_length ⟨r, hr⟩) hins, ?_, .ext _ hne' hrepr',
        by simp, .ext off hK ⟨r, hr⟩ hspine'⟩
      rw [insert_short_descend (by simp) hpl (hrest ▸ hnins), if_pos rfl]
    · -- the key parts from the chunk inside it: split there
      have hlt : δ < K.length := by omega
      have hpK := hp.restrict_left hpre hlt
      obtain ⟨x, y, hx, hy, hxy⟩ := exists_idx_of_partsAt hpK (hkey' off)
      have hy' : key[δ + off]? = some y.castSucc := by
        rw [← hy, List.getElem?_drop, Nat.add_comm]
      have hpt : PartsAt K (key.drop off ++ [16]) δ := by
        simpa using hpK.append [] [16]
      refine ⟨_, _, StackTrie.insert_ext_split (StackTrie.diffIndex_of_partsAt hpK) hlt hx hy',
        insert_short_branchOut (by simp) (prefixLen_of_partsAt hpt) (Nat.ne_of_lt hlt) hx
          (by rw [List.getElem?_append_left hpK.lt_length_right, hy]),
        split_result hxy hy' hpK.take_eq ?_ (newLeaf_ne_nil _ hc) value⟩
      -- the chunk's rest after the split over the child, hashed; the child alone at its end
      by_cases hend : δ < K.length - 1
      · rw [if_pos hend, newLeaf_of_ne_nil (by simp; omega)]
        exact .ext _ hc hrc
      · rw [if_neg hend, List.drop_eq_nil_of_le (by omega)]
        exact hrc
  | @branch off children i hlast hchild helder hyounger ih =>
    intro n hrepr hoff
    cases hrepr with
    | @branch _ _ cs hcs h16 =>
    have hopen := hchild.isNil_eq_false
    have hci : cs i.castSucc ≠ .nil := (hcs i).ne_nil hchild.ne_nil
    rcases Nat.eq_or_lt_of_le hoff with rfl | hlt
    · -- the new key leaves the last one's path here, for a younger child
      obtain ⟨x, y, hx, hy, hxy⟩ := exists_idx_of_partsAt hparts hkey
      obtain rfl : x = i := Fin.castSucc_injective _ (Option.some.inj (hx.symm.trans hlast))
      have hnil : children y = .nil := hyounger y hxy
      have hcy : cs y.castSucc = .nil := (hnil ▸ hcs y).eq_nil
      -- the last key's child is hashed on the way
      have hst := @StackTrie.insert_branch_nil keccak off children key value y hy hnil
      rw [StackTrie.hashElder_eq_update hopen y.isLt.le hxy fun j hij _ => hyounger j hij] at hst
      have hcs' : ∀ j, Repr keccak (Function.update children x ((children x).hash keccak) j)
          (cs j.castSucc) := by
        intro j
        simpa [Function.update_eq_self] using Repr.update hcs (i := x) ((hcs x).hash hci) j
      refine ⟨_, _, hst, ?_, .branch off (Repr.update hcs' (.leaf _ _ _))
        (by rw [update_castSucc_sixteen]; exact h16), by simp, .branch off y hy ?_ ?_ ?_⟩
      · rw [drop_eq_cons_of_getElem? hy, List.cons_append,
          insert_full_descend (by rw [hcy, insert_nil, newLeaf_of_ne_nil (by simp)]), if_pos rfl]
      · rw [Function.update_self]
        exact .leaf (off + 1) value
      · intro j hj
        rw [Function.update_of_ne (ne_of_lt hj)]
        by_cases hjx : j = x
        · subst hjx
          exact .inr ⟨_, Function.update_self _ _ _⟩
        · rw [Function.update_of_ne hjx]
          rcases lt_or_gt_of_ne hjx with h | h
          · exact helder j h
          · exact .inl (hyounger j h)
      · intro j hj
        rw [Function.update_of_ne (ne_of_gt hj), Function.update_of_ne (ne_of_gt (hxy.trans hj))]
        exact hyounger j (hxy.trans hj)
    · -- the new key follows the last one into child `i`
      have hidx : key[off]? = some i.castSucc := (hparts.getElem?_eq hlt).symm.trans hlast
      obtain ⟨st', n', hins, hnins, hrepr', hne', hspine'⟩ := ih (hcs i) hlt
      have hst := StackTrie.insert_branch_descend hidx hopen hins
      rw [StackTrie.hashElder_of_closed fun j hj => helder j hj] at hst
      refine ⟨_, _, hst, ?_, .branch off (Repr.update hcs hrepr')
        (by rw [update_castSucc_sixteen]; exact h16), by simp, .branch off i hidx ?_ ?_ ?_⟩
      · rw [drop_eq_cons_of_getElem? hidx, List.cons_append, insert_full_descend hnins, if_pos rfl]
      · rw [Function.update_self]
        exact hspine'
      · intro j hj
        rw [Function.update_of_ne (ne_of_lt hj)]
        exact helder j hj
      · intro j hj
        rw [Function.update_of_ne (ne_of_gt hj)]
        exact hyounger j hj

end Spine

/-! ## Keys in increasing order -/

section Run

open Lib (PartsAt)

variable {keccak : List Nat → Hash}

theorem keybytesToHex_eq_dropLast (key : List UInt8) :
    keybytesToHex key = (keybytesToHex key).dropLast ++ [16] := by
  rw [dropLast_keybytesToHex]
  rfl

theorem dropLast_keybytesToHex_lt (key : List UInt8) :
    ∀ x ∈ (keybytesToHex key).dropLast, x.val < 16 := by
  intro x hx
  simp only [dropLast_keybytesToHex, List.mem_flatMap, List.mem_cons, List.not_mem_nil,
    or_false] at hx
  obtain ⟨b, -, rfl | rfl⟩ := hx
  · have := b.toNat_lt
    simp only [hiNibble]
    omega
  · simp only [loNibble]
    omega

/-- Byte keys that part at a byte part at its high nibble or, where those agree, at its low one. -/
theorem partsAt_nibbles : ∀ {a b : List UInt8} {d : Nat}, PartsAt a b d →
    ∃ e, PartsAt (a.flatMap fun x => [hiNibble x, loNibble x])
      (b.flatMap fun x => [hiNibble x, loNibble x]) e
  | x :: _, y :: _, 0, h => by
    have hxy : x.toNat < y.toNat := UInt8.lt_iff_toNat_lt.mp h
    simp only [List.flatMap_cons, List.cons_append, List.nil_append]
    by_cases hhi : x.toNat / 16 = y.toNat / 16
    · refine ⟨1, ?_⟩
      simp only [Lib.partsAt_cons_succ, Lib.partsAt_cons_zero, hiNibble, loNibble, Fin.mk.injEq,
        Fin.mk_lt_mk]
      omega
    · refine ⟨0, ?_⟩
      simp only [Lib.partsAt_cons_zero, hiNibble, Fin.mk_lt_mk]
      omega
  | x :: _, _ :: _, _ + 1, h => by
    obtain ⟨rfl, h⟩ := h
    obtain ⟨e, he⟩ := partsAt_nibbles h
    exact ⟨e + 2, by simpa using he⟩
  | [], _, _, h | _ :: _, [], _, h => by simp at h

/-- `TryUpdate` of each pair in turn mirrors the trie's, from a stack trie on the path of a key
    `last` that stands for the trie's root, when the keys come in increasing order after `last`
    and no key is a prefix of a later one. -/
theorem Spine.updateAll : ∀ {pairs : List (List UInt8 × List UInt8)} {st : StackTrie} {n : Node}
    {last : List UInt8}, Spine (keybytesToHex last).dropLast 0 st → Repr keccak st n →
    (∀ p ∈ pairs, p.2 ≠ []) →
    (last :: pairs.map Prod.fst).Pairwise (fun a b => a < b ∧ ¬ a <+: b) →
    ∃ st' n', st.updateAll keccak pairs = some st' ∧
      runOps n (pairs.map fun p => .update p.1 p.2) = some n' ∧
      Repr keccak st' n' ∧ ∃ last', Spine last' 0 st'
  | [], st, n, last, hspine, hrepr, _, _ => ⟨st, n, rfl, rfl, hrepr, _, hspine⟩
  | (key, value) :: pairs, st, n, last, hspine, hrepr, hvalues, hsorted => by
    obtain ⟨hafter, hsorted⟩ := List.pairwise_cons.mp hsorted
    obtain ⟨hlt, hpre⟩ := hafter key (by simp)
    have hvalue : value.length ≠ 0 := by simpa using hvalues (key, value) (by simp)
    -- the nibbles part where the bytes do
    obtain ⟨d, hd⟩ := Lib.exists_partsAt hlt hpre
    obtain ⟨e, he⟩ := partsAt_nibbles hd
    rw [← dropLast_keybytesToHex, ← dropLast_keybytesToHex] at he
    obtain ⟨st₁, n₁, hins, hnins, hrepr₁, -, hspine₁⟩ :=
      hspine.insert he (dropLast_keybytesToHex_lt key) value hrepr (Nat.zero_le e)
    obtain ⟨st', n', hrun, hnrun, hrepr', hspine'⟩ :=
      Spine.updateAll hspine₁ hrepr₁ (fun p hp => hvalues p (by simp [hp])) hsorted
    refine ⟨st', n', ?_, ?_, hrepr', hspine'⟩
    · rw [StackTrie.updateAll, StackTrie.tryUpdate, if_neg hvalue, ← List.dropLast_eq_take, hins]
      exact hrun
    · rw [List.map_cons, runOps, Op.apply, tryUpdate, if_pos hvalue, keybytesToHex_eq_dropLast,
        ← List.drop_zero (l := (keybytesToHex key).dropLast), hnins]
      exact hnrun

/-- From a new stack trie, `TryUpdate` of pairs with values, in increasing key order with no key
    a prefix of a later one, mirrors the trie's from the empty root: the two stay empty, or the
    stack trie stands for the trie's root and lies on the path of the last key. -/
theorem updateAll_newStackTrie {pairs : List (List UInt8 × List UInt8)}
    (hvalues : ∀ p ∈ pairs, p.2 ≠ [])
    (hsorted : (pairs.map Prod.fst).Pairwise (fun a b => a < b ∧ ¬ a <+: b)) :
    ∃ st n, newStackTrie.updateAll keccak pairs = some st ∧
      runOps .nil (pairs.map fun p => .update p.1 p.2) = some n ∧
      ((st = newStackTrie ∧ n = .nil) ∨ (Repr keccak st n ∧ ∃ last, Spine last 0 st)) := by
  cases pairs with
  | nil => exact ⟨_, _, rfl, rfl, .inl ⟨rfl, rfl⟩⟩
  | cons p pairs =>
    obtain ⟨key, value⟩ := p
    have hvalue : value.length ≠ 0 := by simpa using hvalues (key, value) (by simp)
    -- the first key makes a leaf at the root on both sides
    have hfirst : newStackTrie.tryUpdate keccak key value =
        some (.leaf 0 ((keybytesToHex key).dropLast.drop 0) value) := by
      rw [StackTrie.tryUpdate, if_neg hvalue, ← List.dropLast_eq_take]
      rfl
    have hnfirst : tryUpdate .nil key value =
        some (.short ((keybytesToHex key).dropLast.drop 0 ++ [16]) (.value value)) := by
      rw [tryUpdate, if_pos hvalue, insert_nil, List.drop_zero, ← keybytesToHex_eq_dropLast,
        newLeaf_of_ne_nil (term_keybytesToHex key).ne_nil]
      rfl
    obtain ⟨st', n', hrun, hnrun, hrepr', hspine'⟩ :=
      @Spine.updateAll keccak pairs _ _ key (.leaf 0 value) (.leaf 0 _ value)
        (fun p hp => hvalues p (by simp [hp])) (by simpa using hsorted)
    refine ⟨st', n', ?_, ?_, .inr ⟨hrepr', hspine'⟩⟩
    · rw [StackTrie.updateAll, hfirst]
      exact hrun
    · rw [List.map_cons, runOps, Op.apply, hnfirst]
      exact hnrun

/-- `Hash` of a new stack trie after `TryUpdate` of pairs with values, in increasing key order
    with no key a prefix of a later one, is `Trie.Hash` of the trie the same calls build from the
    empty root, for a Keccak that returns 32-byte hashes. -/
theorem rootHash_updateAll (hk : ∀ b, keccak b < 2 ^ 256) {pairs : List (List UInt8 × List UInt8)}
    (hvalues : ∀ p ∈ pairs, p.2 ≠ [])
    (hsorted : (pairs.map Prod.fst).Pairwise (fun a b => a < b ∧ ¬ a <+: b)) :
    ∃ st n, newStackTrie.updateAll keccak pairs = some st ∧
      runOps .nil (pairs.map fun p => .update p.1 p.2) = some n ∧
      some (st.rootHash keccak) = rootHash keccak n := by
  obtain ⟨st, n, hrun, hnrun, hres⟩ := @updateAll_newStackTrie keccak pairs hvalues hsorted
  refine ⟨st, n, hrun, hnrun, ?_⟩
  rcases hres with ⟨rfl, rfl⟩ | ⟨hrepr, last, hspine⟩
  · -- nothing inserted: an empty node hashes to the empty root
    have hlt : emptyRoot < 256 ^ 32 := by decide
    simp only [StackTrie.rootHash, newStackTrie, StackTrie.hashVal, beBytes_length, ne_eq,
      not_true_eq_false, if_false, beValue_beBytes, Nat.mod_eq_of_lt hlt]
    rfl
  · exact hrepr.rootHash_eq hk (hrepr.ne_nil hspine.ne_nil) hspine.ne_hashed

end Run

end QuorumHotstuff.Trie
