import QuorumHotstuff.Lib.Rlp
import QuorumHotstuff.Hotstuff.Types
import Mathlib.Logic.Function.Basic
import Mathlib.Data.List.FinRange

/-!
# The Merkle Patricia trie in memory

`trie/node.go`, `trie/encoding.go`, `trie/trie.go` and `trie/hasher.go`: the nodes of an
in-memory trie, the hex keys they are addressed by, `insert` and `delete` with the
normalisation `delete` performs on the way up, `TryUpdate`, `TryDelete`, `TryGet`, and the
hasher that `Trie.Hash` runs over the root.

An in-memory trie holds no hash nodes, so the branches that resolve one from the database are
left out, and with them the `prefix` argument, which only names the path in the error they
report.  The hasher's cache flags are left out as well: a node keeps its flags only while its
subtree is unchanged, so the hash it caches is the one computed here.  A Go panic (an index
out of range, a failed type assertion, the `default` case of a type switch) is `none`.
-/

namespace QuorumHotstuff.Trie

open QuorumHotstuff.Lib.Rlp
open QuorumHotstuff.Hotstuff (Hash)

/-- A nibble of a hex key: `0` to `15`, or the terminator `16`, which is also the index of a full
    node's value slot. -/
abbrev Nibble := Fin 17

/-- Nibble literals, the terminator among them, take their `NeZero` from this one constant. -/
instance (priority := high) nibbleNeZero : NeZero (17 : Nat) := ⟨by decide⟩

/-- `node`, without hash nodes. -/
inductive Node where
  | nil
  | value (v : List UInt8)
  | short (key : List Nibble) (val : Node)
  | full (children : Fin 17 → Node)

instance : Inhabited Node := ⟨.nil⟩

namespace Node

/-- The test `cld != nil` of the loops over a full node's children. -/
def isNil : Node → Bool
  | .nil => true
  | _ => false

@[simp] theorem isNil_nil : Node.nil.isNil = true := rfl
@[simp] theorem isNil_value (v : List UInt8) : (Node.value v).isNil = false := rfl
@[simp] theorem isNil_short (k : List Nibble) (c : Node) : (Node.short k c).isNil = false := rfl
@[simp] theorem isNil_full (cs : Fin 17 → Node) : (Node.full cs).isNil = false := rfl

theorem isNil_eq_false {n : Node} : n.isNil = false ↔ n ≠ .nil := by
  cases n <;> simp

end Node

/-! ## Hex keys -/

/-- The high nibble of a byte. -/
def hiNibble (b : UInt8) : Nibble := ⟨b.toNat / 16, by have := b.toNat_lt; omega⟩

/-- The low nibble of a byte. -/
def loNibble (b : UInt8) : Nibble := ⟨b.toNat % 16, by omega⟩

/-- `keybytesToHex`: two nibbles a byte, the high one first, then the terminator. -/
def keybytesToHex (str : List UInt8) : List Nibble :=
  str.flatMap (fun b => [hiNibble b, loNibble b]) ++ [16]

/-- `prefixLen`: the length of the common prefix of two keys. -/
def prefixLen : List Nibble → List Nibble → Nat
  | a :: as, b :: bs => if a = b then prefixLen as bs + 1 else 0
  | _, _ => 0

/-- `hasTerm`. -/
def hasTerm (s : List Nibble) : Bool := s.getLast? == some 16

/-- `decodeNibbles`: two nibbles a byte, the first one high. -/
def decodeNibbles : List Nibble → List Nat
  | a :: b :: rest => ((a.val <<< 4) ||| b.val) :: decodeNibbles rest
  | _ => []

/-- `hexToCompact`: the flag byte (terminator in bit 5, odd length in bit 4, with the first
    nibble of an odd key in its low half), then the remaining nibbles packed in pairs. -/
def hexToCompact (hex : List Nibble) : List Nat :=
  let terminator := if hasTerm hex then 1 else 0
  let hex := if hasTerm hex then hex.dropLast else hex
  if hex.length % 2 = 1 then
    ((terminator <<< 5) ||| (1 <<< 4) ||| (hex.headD 0).val) :: decodeNibbles hex.tail
  else (terminator <<< 5) :: decodeNibbles hex

/-! ## Insertion -/

/-- What `t.insert(nil, prefix, key, value)` returns: the value itself once the key is used up,
    a short node for the rest of the key otherwise. -/
def newLeaf : List Nibble → Node → Node
  | [], value => value
  | key, value => .short key value

namespace Node

/-- `Trie.insert`: the dirty flag and the new node.  Splitting a short node re-inserts its
    child under the rest of its key into an empty slot, which is `newLeaf`. -/
def insert : Node → List Nibble → Node → Option (Bool × Node)
  | n, [], val =>
    match n, val with
    | .value v, .value w => some (v != w, val)
    -- `value.(valueNode)` fails for any other value
    | .value _, _ => none
    | _, _ => some (true, val)
  | .short k v, c :: cs, val =>
    let key := c :: cs
    let matchlen := prefixLen key k
    if matchlen = k.length then
      match v.insert (key.drop matchlen) val with
      | none => none
      | some (dirty, nn) => if dirty then some (true, .short k nn) else some (false, .short k v)
    else
      -- branch out at the index where they differ; `key[matchlen]` fails past the key's end
      match k[matchlen]?, key[matchlen]? with
      | some kc, some c =>
        let branch := Function.update
          (Function.update (fun _ => Node.nil) kc (newLeaf (k.drop (matchlen + 1)) v))
          c (newLeaf (key.drop (matchlen + 1)) val)
        if matchlen = 0 then some (true, .full branch)
        else some (true, .short (key.take matchlen) (.full branch))
      | _, _ => none
  | .full cs, c :: rest, val =>
    match (cs c).insert rest val with
    | none => none
    | some (dirty, nn) =>
      if dirty then some (true, .full (Function.update cs c nn)) else some (false, .full cs)
  | .nil, key, val => some (true, .short key val)
  | .value _, _ :: _, _ => none

end Node

theorem insert_nil (key : List Nibble) (val : Node) :
    Node.nil.insert key val = some (true, newLeaf key val) := by
  cases key with
  | nil => cases val <;> rfl
  | cons c cs => rfl

/-! ## Deletion -/

/-- The `pos` of `delete`'s loop over a full node's children: `-1` before any child is found,
    the index of the only child found, `-2` once a second one is. -/
inductive Pos where
  | none
  | one (i : Fin 17)
  | many

/-- One round of the loop. -/
def Pos.next (cs : Fin 17 → Node) (pos : Pos) (i : Fin 17) : Pos :=
  if (cs i).isNil then pos
  else match pos with
    | .none => .one i
    | _ => .many

/-- The loop over all seventeen children; once `pos` is `-2` it stays there, as after the
    loop's `break`. -/
def childPos (cs : Fin 17 → Node) : Pos := (List.finRange 17).foldl (Pos.next cs) .none

/-- A short node with key `k` over `child`, merged with `child` when that is itself a short
    node: the `concat` of `delete`'s short case and the `append` of its full case. -/
def mergeShort (k : List Nibble) : Node → Node
  | .short ck cv => .short (k ++ ck) cv
  | child => .short k child

/-- The end of `delete` on a full node whose child changed: a node left with one child becomes a
    short node of that child's index, merged with the child when it is a short node and not the
    value slot. -/
def reduceFull (cs : Fin 17 → Node) : Node :=
  match childPos cs with
  | .one pos => if pos ≠ 16 then mergeShort [pos] (cs pos) else .short [pos] (cs pos)
  | _ => .full cs

namespace Node

/-- `Trie.delete`: the dirty flag and the new node, reduced to minimal form on the way up. -/
def delete : Node → List Nibble → Option (Bool × Node)
  | .short k v, key =>
    let matchlen := prefixLen key k
    if matchlen < k.length then some (false, .short k v)
    else if matchlen = key.length then some (true, .nil)
    else
      match v.delete (key.drop k.length) with
      | none => none
      | some (dirty, child) =>
        if dirty then some (true, mergeShort k child) else some (false, .short k v)
  -- `key[0]` fails on an empty key
  | .full _, [] => none
  | .full cs, c :: rest =>
    match (cs c).delete rest with
    | none => none
    | some (dirty, nn) =>
      if dirty then some (true, reduceFull (Function.update cs c nn)) else some (false, .full cs)
  | .value _, _ => some (true, .nil)
  | .nil, _ => some (false, .nil)

/-- `Trie.tryGet` from position `pos` on, given the rest of the key: the value, or the empty
    slice for a missing key.  A value node answers whatever is left of the key. -/
def tryGet : Node → List Nibble → Option (List UInt8)
  | .nil, _ => some []
  | .value v, _ => some v
  | .short k c, key => if k <+: key then c.tryGet (key.drop k.length) else some []
  -- `key[pos]` fails past the key's end
  | .full _, [] => none
  | .full cs, c :: rest => (cs c).tryGet rest

end Node

/-! ## The trie's operations -/

/-- `Trie.TryUpdate` on the root: an empty value deletes the key. -/
def tryUpdate (root : Node) (key value : List UInt8) : Option Node :=
  let k := keybytesToHex key
  if value.length ≠ 0 then (root.insert k (.value value)).map (·.2)
  else (root.delete k).map (·.2)

/-- `Trie.TryDelete` on the root. -/
def tryDelete (root : Node) (key : List UInt8) : Option Node :=
  (root.delete (keybytesToHex key)).map (·.2)

/-- `Trie.TryGet` on the root. -/
def tryGet (root : Node) (key : List UInt8) : Option (List UInt8) :=
  root.tryGet (keybytesToHex key)

/-- The calls that change an in-memory trie. -/
inductive Op where
  | update (key value : List UInt8)
  | delete (key : List UInt8)

def Op.apply : Op → Node → Option Node
  | .update key value, root => tryUpdate root key value
  | .delete key, root => tryDelete root key

/-- The calls one after another. -/
def runOps (root : Node) : List Op → Option Node
  | [] => some root
  | op :: ops => (op.apply root).bind (runOps · ops)

/-! ## Hashing -/

/-- What `hasher.hash` returns in place of a node: the Keccak hash of its encoding, or the
    collapsed node itself when that encoding is shorter than a hash and no hash is forced. -/
inductive Hashed where
  | hash (h : Hash)
  | node (i : Item)

/-- How a parent's encoding holds a `Hashed`: a hash node is a 32-byte string. -/
def Hashed.item : Hashed → Item
  | .hash h => Item.fixed 32 h
  | .node i => i

/-- `shortnodeToHash` and `fullnodeToHash`. -/
def toHashed (keccak : List Nat → Hash) (force : Bool) (collapsed : Item) : Hashed :=
  if collapsed.encode.length < 32 && !force then .node collapsed
  else .hash (keccak collapsed.encode)

namespace Node

/-- The encoding of a node the hasher leaves as it is (a full node's value slot): the struct
    encoding, with the hex key as bytes; a nil interface encodes as the empty list. -/
def rawItem : Node → Item
  | .nil => .list []
  | .value v => .str (v.map UInt8.toNat)
  | .short k c => .list [.str (k.map Fin.val), c.rawItem]
  | .full cs => .list ((List.finRange 17).map fun i =>
      if (cs i).isNil then .str [] else (cs i).rawItem)

/-- `hasher.hash`: a short node's key in compact form over its hashed child, a full node's first
    sixteen children hashed and its value slot as it is, a nil child as `nilValueNode`; value
    nodes are left as they are. -/
def hash (keccak : List Nat → Hash) (force : Bool) : Node → Hashed
  | .nil => .node (.list [])
  | .value v => .node (.str (v.map UInt8.toNat))
  | .short k c =>
    toHashed keccak force (.list [.str (hexToCompact k), (c.hash keccak false).item])
  | .full cs => toHashed keccak force (.list ((List.finRange 17).map fun i =>
      if (cs i).isNil then .str []
      else if i < 16 then ((cs i).hash keccak false).item
      else (cs i).rawItem))

end Node

/-- `emptyRoot`, the root hash of an empty trie. -/
def emptyRoot : Hash := 0x56e81f171bcc55a6ff8345e692c0f86e5b48e01b996cadc001622fb5e363b421

/-- `Trie.Hash`: the root hashed with the hash forced; a root that is a value node fails the
    assertion that the result is a hash node. -/
def rootHash (keccak : List Nat → Hash) : Node → Option Hash
  | .nil => some emptyRoot
  | root =>
    match root.hash keccak true with
    | .hash h => some h
    | .node _ => none

end QuorumHotstuff.Trie
