import QuorumHotstuff.Trie.Encoding
import QuorumHotstuff.Lib.Rlp.Raw

/-!
# Trie nodes read back from their encodings

`decodeNode` of `trie/node.go` with `decodeShort`, `decodeFull` and `decodeRef`: a node's database
encoding is a list of two items, a compact key and a child, or of seventeen, sixteen children and
a value.  A child is an embedded node, written out when its own encoding is shorter than a hash;
a 32-byte string, the hash it is stored under; or the empty string, no child.  The decoded node is
`DecodedNode`, a `node` that may hold hash nodes.  An error comes back up with the path it came
through (`wrapError`).  The node flags, which only cache the hash a node was read under, are left
out, and with them the `hash` argument.  An embedded node is decoded inside its parent's buffer,
which shrinks at each level, so the nesting `fuel` given as the buffer's length is enough.

The hasher writes a node as its collapsed form (`Node.collapse`): the key in compact form and each
child hashed.  `decodeNode` reads that encoding back into the node with its hashed children as
hash nodes (`Node.decoded`), for the nodes a trie of byte keys holds (`Node.Decodable`):
`decodeNode_collapse`.
-/

namespace QuorumHotstuff.Trie

open QuorumHotstuff.Lib QuorumHotstuff.Lib.Rlp
open QuorumHotstuff.Hotstuff (Hash)

/-- `node` as `decodeNode` builds it: a child stored apart is the hash node naming it. -/
inductive DecodedNode where
  | nil
  | value (v : List Nat)
  | hash (h : List Nat)
  | short (key : List Nibble) (val : DecodedNode)
  | full (children : Fin 17 → DecodedNode)

/-- The places `wrapError` records on the way up: `"short"`, `"full"`, `"val"` and `"[i]"`. -/
inductive DecodeCtx where
  | short
  | full
  | val
  | child (i : Nat)
deriving DecidableEq, Repr

/-- The errors `decodeNode` returns. -/
inductive NodeErr where
  /-- `io.ErrUnexpectedEOF` of an empty buffer, or an error of the RLP splitters passed on. -/
  | read (e : StreamErr)
  /-- `"decode error: %v"`: the buffer is not a list. -/
  | decode (e : StreamErr)
  /-- `"invalid number of list elements: %v"`. -/
  | elements (c : Nat)
  /-- `"invalid value node: %v"`. -/
  | invalidValueNode (e : StreamErr)
  /-- `"oversized embedded node (size is %d bytes, want size < %d)"`. -/
  | oversized (size : Nat)
  /-- `"invalid RLP string size %d (want 0 or 32)"`. -/
  | stringSize (n : Nat)
  /-- `decodeError`: an error and the path it came up through, innermost first. -/
  | decodeError (what : NodeErr) (stack : List DecodeCtx)
deriving DecidableEq, Repr

/-- `wrapError`: a `decodeError` gets one more place on its path; any other error becomes one. -/
def wrapError (ctx : DecodeCtx) : NodeErr → NodeErr
  | .decodeError what stack => .decodeError what (stack ++ [ctx])
  | err => .decodeError err [ctx]

/-- `decodeRef`: a child reference at the start of `buf`, and what follows it.  `decodeNode`
    decodes an embedded node. -/
def decodeRef (decodeNode : List Nat → Except NodeErr DecodedNode) (buf : List Nat) :
    Except NodeErr (DecodedNode × List Nat) :=
  match Raw.split buf with
  | .error e => .error (.read e)
  | .ok (kind, val, rest) =>
    match kind with
    | .list _ =>
      -- an embedded node must be shorter than a hash
      if 32 < buf.length - rest.length then .error (.oversized (buf.length - rest.length))
      else (decodeNode buf).map fun n => (n, rest)
    | .string _ =>
      if val.length = 0 then .ok (.nil, rest)
      else if val.length = 32 then .ok (.hash val, rest)
      else .error (.stringSize val.length)
    | .byte _ => .error (.stringSize val.length)

/-- `decodeShort`: a compact key and, by its terminator, a value or a child reference. -/
def decodeShort (decodeNode : List Nat → Except NodeErr DecodedNode) (elems : List Nat) :
    Except NodeErr DecodedNode :=
  match Raw.splitString elems with
  | .error e => .error (.read e)
  | .ok (kbuf, rest) =>
    let key := compactToHex (kbuf.map UInt8.ofNat)
    if hasTerm key then
      match Raw.splitString rest with
      | .error e => .error (.invalidValueNode e)
      | .ok (val, _) => .ok (.short key (.value val))
    else
      match decodeRef decodeNode rest with
      | .error e => .error (wrapError .val e)
      | .ok (r, _) => .ok (.short key r)

/-- The loop of `decodeFull` over `count` children from child `i` on. -/
def decodeChildren (decodeNode : List Nat → Except NodeErr DecodedNode) :
    Nat → Nat → List Nat → Except NodeErr (List DecodedNode × List Nat)
  | 0, _, elems => .ok ([], elems)
  | count + 1, i, elems =>
    match decodeRef decodeNode elems with
    | .error e => .error (wrapError (.child i) e)
    | .ok (cld, rest) =>
      (decodeChildren decodeNode count (i + 1) rest).map fun p => (cld :: p.1, p.2)

/-- `decodeFull`: sixteen child references, then the value, which stays unset when empty. -/
def decodeFull (decodeNode : List Nat → Except NodeErr DecodedNode) (elems : List Nat) :
    Except NodeErr DecodedNode :=
  match decodeChildren decodeNode 16 0 elems with
  | .error e => .error e
  | .ok (cs, elems) =>
    match Raw.splitString elems with
    | .error e => .error (.read e)
    | .ok (val, _) =>
      .ok (.full fun i =>
        if i.val < 16 then cs.getD i.val .nil
        else if 0 < val.length then .value val else .nil)

/-- `decodeNode`: a list of two items is a short node, of seventeen a full node; `CountValues`
    failing counts as no items. -/
def decodeNode : Nat → List Nat → Except NodeErr DecodedNode
  | _, [] => .error (.read .unexpectedEOF)
  | 0, _ :: _ => .error (.read .outOfFuel)
  | fuel + 1, b :: bs =>
    match Raw.splitList (b :: bs) with
    | .error e => .error (.decode e)
    | .ok (elems, _) =>
      match (match Raw.countValues elems with | .ok c => c | .error _ => 0) with
      | 2 => (decodeShort (decodeNode fuel) elems).mapError (wrapError .short)
      | 17 => (decodeFull (decodeNode fuel) elems).mapError (wrapError .full)
      | c => .error (.elements c)

example : decodeNode 2 [0xC0] = .error (.elements 0) := rfl

/-! ## Collapsed nodes and what they decode to -/

namespace Node

/-- The collapsed node of `hashShortNodeChildren` and `hashFullNodeChildren`, as `rlp.Encode`
    writes it: a short node's key in compact form over its hashed child, a full node's first
    sixteen children hashed and its value slot as it is; any other node as it is. -/
def collapse (keccak : List Nat → Hash) : Node → Item
  | .short k c => .list [.str (hexToCompact k), (c.hash keccak false).item]
  | .full cs => .list ((List.finRange 17).map fun i =>
      if (cs i).isNil then .str []
      else if i < 16 then ((cs i).hash keccak false).item
      else (cs i).rawItem)
  | n => n.rawItem

theorem collapse_short (keccak : List Nat → Hash) (k : List Nibble) (c : Node) :
    (Node.short k c).collapse keccak = .list [.str (hexToCompact k), (c.hash keccak false).item] :=
  rfl

theorem collapse_full (keccak : List Nat → Hash) (cs : Fin 17 → Node) :
    (Node.full cs).collapse keccak = .list ((List.finRange 17).map fun i =>
      if (cs i).isNil then .str []
      else if i < 16 then ((cs i).hash keccak false).item
      else (cs i).rawItem) :=
  rfl

theorem hash_short (keccak : List Nat → Hash) (force : Bool) (k : List Nibble) (c : Node) :
    (Node.short k c).hash keccak force = toHashed keccak force ((Node.short k c).collapse keccak) :=
  rfl

theorem hash_full (keccak : List Nat → Hash) (force : Bool) (cs : Fin 17 → Node) :
    (Node.full cs).hash keccak force = toHashed keccak force ((Node.full cs).collapse keccak) :=
  rfl

/-- How a parent's decoding holds child `c`, given `c`'s own decoding `d`: the hash node of its 32
    bytes where the hasher hashed it, else `d` in place. -/
def refOf (keccak : List Nat → Hash) (c : Node) (d : DecodedNode) : DecodedNode :=
  match c.hash keccak false with
  | .hash h => .hash (beBytes 32 h)
  | .node _ => d

/-- How `decodeFull` holds a full node's value slot: an empty value as no value. -/
def slotDecoded : Node → DecodedNode
  | .value v => if v = [] then .nil else .value (v.map UInt8.toNat)
  | _ => .nil

/-- What `decodeNode` reads from a node's collapsed encoding: hashed children as hash nodes,
    embedded ones in place. -/
def decoded (keccak : List Nat → Hash) : Node → DecodedNode
  | .nil => .nil
  | .value v => .value (v.map UInt8.toNat)
  | .short k c => .short k (refOf keccak c (c.decoded keccak))
  | .full cs => .full fun i =>
      if i.val < 16 then refOf keccak (cs i) ((cs i).decoded keccak) else (cs i).slotDecoded

/-- The nodes of a trie of byte keys, as `decodeNode` needs them: a short node's key is nibbles
    below 16 with the terminator at its end exactly when it holds a value; a full node holds no
    value under its first sixteen children, and nothing or a value that is not empty in its last;
    keys and values are shorter than `2 ^ 32`. -/
inductive Decodable : Node → Prop
  | shortValue {k : List Nibble} {v : List UInt8} :
      (∀ x ∈ k.dropLast, x.val < 16) → hasTerm k = true → k.length < 2 ^ 32 → v.length < 2 ^ 32 →
      Decodable (.short k (.value v))
  | shortFull {k : List Nibble} {cs : Fin 17 → Node} :
      k ≠ [] → (∀ x ∈ k, x.val < 16) → k.length < 2 ^ 32 → Decodable (.full cs) →
      Decodable (.short k (.full cs))
  | full {cs : Fin 17 → Node} :
      (∀ i : Fin 17, i.val < 16 → cs i ≠ .nil → Decodable (cs i)) →
      (cs 16 = .nil ∨ ∃ v, cs 16 = .value v ∧ v ≠ [] ∧ v.length < 2 ^ 32) →
      Decodable (.full cs)

end Node

/-! ## Lengths of encodings -/

section Lengths

variable {keccak : List Nat → Hash}

/-- Without forcing, the hasher keeps an item shorter than a hash and hashes any other. -/
theorem toHashed_false_cases (it : Item) :
    (toHashed keccak false it = .node it ∧ it.encode.length < 32) ∨
      (toHashed keccak false it = .hash (keccak it.encode) ∧ 32 ≤ it.encode.length) := by
  unfold toHashed
  by_cases h : it.encode.length < 32
  · exact .inl ⟨by simp [h], h⟩
  · exact .inr ⟨by simp [h], by omega⟩

/-- A child reference takes at most 33 bytes: a 32-byte string, or an item shorter than that. -/
theorem toHashed_item_length_le (it : Item) : (toHashed keccak false it).item.encode.length ≤ 33 := by
  rcases @toHashed_false_cases keccak it with ⟨h, hlt⟩ | ⟨h, -⟩
  · rw [h]
    exact Nat.le_of_lt (Nat.lt_trans hlt (by decide))
  · rw [h]
    simp [Hashed.item, Item.fixed, Item.encode, encodeString, header]

theorem hexToCompact_length_le (k : List Nibble) : (hexToCompact k).length ≤ k.length + 1 := by
  unfold hexToCompact
  -- the nibbles written out are `k` less its terminator
  generalize hhex : (if hasTerm k = true then k.dropLast else k) = hex
  have hle : hex.length ≤ k.length := by
    subst hhex
    split_ifs <;> simp
  simp only [apply_ite List.length, List.length_cons, length_decodeNibbles, List.length_tail]
  split_ifs <;> omega

theorem encodeString_length_le_of_le {bs : List Nat} (h : bs.length ≤ 2 ^ 32) :
    (encodeString bs).length ≤ bs.length + 9 := by
  have := encodeString_length_le bs
  have := byteLength_le_eight (show bs.length < 2 ^ 64 by omega)
  omega

theorem encodeItems_length_le {m : Nat} :
    ∀ {xs : List Item}, (∀ x ∈ xs, x.encode.length ≤ m) → (encodeItems xs).length ≤ xs.length * m
  | [], _ => by simp
  | x :: xs, h => by
    have hx := h x List.mem_cons_self
    have hxs := encodeItems_length_le fun y hy => h y (List.mem_cons_of_mem x hy)
    simp only [encodeItems_cons, List.length_append, List.length_cons, Nat.succ_mul]
    omega

namespace Node

theorem Decodable.hash_eq {n : Node} (hn : n.Decodable) (force : Bool) :
    n.hash keccak force = toHashed keccak force (n.collapse keccak) := by
  cases hn <;> rfl

/-- A child reference takes at most 33 bytes. -/
theorem Decodable.ref_length_le {c : Node} (hc : c.Decodable) :
    (c.hash keccak false).item.encode.length ≤ 33 := by
  rw [hc.hash_eq]
  exact toHashed_item_length_le _

/-- A decodable node is written out as a list of at most seventeen items, each at most
    `2 ^ 32 + 10` bytes long. -/
theorem Decodable.collapse_items {n : Node} (hn : n.Decodable) :
    ∃ xs, n.collapse keccak = .list xs ∧ xs.length ≤ 17 ∧
      ∀ x ∈ xs, x.encode.length ≤ 2 ^ 32 + 10 := by
  have hstr {bs : List Nat} (h : bs.length ≤ 2 ^ 32) : (Item.str bs).encode.length ≤ 2 ^ 32 + 10 := by
    have := encodeString_length_le_of_le h
    simp only [Item.encode]
    omega
  have hkey {k : List Nibble} (h : k.length < 2 ^ 32) :
      (Item.str (hexToCompact k)).encode.length ≤ 2 ^ 32 + 10 := by
    have := hexToCompact_length_le k
    exact hstr (by omega)
  cases hn with
  | shortValue _ _ hk hv =>
    refine ⟨_, rfl, by simp, ?_⟩
    simp only [List.mem_cons, List.not_mem_nil, or_false]
    rintro x (rfl | rfl)
    · exact hkey hk
    · exact hstr (by simpa using hv.le)
  | shortFull _ _ hk hfull =>
    refine ⟨_, rfl, by simp, ?_⟩
    simp only [List.mem_cons, List.not_mem_nil, or_false]
    rintro x (rfl | rfl)
    · exact hkey hk
    · exact Nat.le_trans hfull.ref_length_le (by decide)
  | @full cs hcs hval =>
    refine ⟨_, rfl, by simp, ?_⟩
    simp only [List.mem_map, List.mem_finRange, true_and]
    rintro x ⟨i, rfl⟩
    by_cases hnil : (cs i).isNil = true
    · simp [hnil, Item.encode, encodeString, header]
    by_cases hi : i < 16
    · rw [if_neg hnil, if_pos hi]
      exact Nat.le_trans (hcs i hi (by simpa [isNil_eq_false] using hnil)).ref_length_le (by decide)
    -- the value slot holds nothing or a value shorter than `2 ^ 32`
    have hi16 : i = 16 := by omega
    subst hi16
    rw [if_neg hnil, if_neg hi]
    rcases hval with h | ⟨v, h, -, hv⟩
    · simp [h] at hnil
    · rw [h]
      exact hstr (by simpa using hv.le)

/-- The payload of a decodable node's encoding fits the RLP sizes. -/
theorem Decodable.encodeItems_lt {n : Node} (hn : n.Decodable) {xs : List Item}
    (hxs : n.collapse keccak = .list xs) : (encodeItems xs).length < 2 ^ 64 := by
  obtain ⟨ys, hys, hlen, hitems⟩ := hn.collapse_items
  rw [hxs, Item.list.injEq] at hys
  subst hys
  calc (encodeItems xs).length ≤ xs.length * (2 ^ 32 + 10) := encodeItems_length_le hitems
    _ ≤ 17 * (2 ^ 32 + 10) := Nat.mul_le_mul_right _ hlen
    _ < 2 ^ 64 := by decide

/-- An item of a list is shorter than the list's encoding. -/
theorem encode_length_lt_of_mem {x : Item} {xs : List Item} (h : x ∈ xs) :
    x.encode.length < (Item.list xs).encode.length :=
  Nat.lt_of_le_of_lt (encode_length_le h) (encodeItems_length_lt xs)

end Node

end Lengths

/-! ## Reading a collapsed node back -/

section ReadBack

variable {keccak : List Nat → Hash}

/-- The empty string is no child. -/
theorem decodeRef_empty (dec : List Nat → Except NodeErr DecodedNode) (rest : List Nat) :
    decodeRef dec ((Item.str []).encode ++ rest) = .ok (.nil, rest) := by
  rw [Item.encode, decodeRef, Raw.split_encodeString (by simp)]
  rfl

/-- A 32-byte string is the hash node of those bytes. -/
theorem decodeRef_fixed (dec : List Nat → Except NodeErr DecodedNode) (h : Nat) (rest : List Nat) :
    decodeRef dec ((Item.fixed 32 h).encode ++ rest) = .ok (.hash (beBytes 32 h), rest) := by
  rw [Item.fixed, Item.encode, decodeRef, Raw.split_encodeString (by simp)]
  simp

/-- A list no longer than a hash is an embedded node, decoded in place. -/
theorem decodeRef_list (dec : List Nat → Except NodeErr DecodedNode) {xs : List Item}
    (hle : (Item.list xs).encode.length ≤ 32) (rest : List Nat) :
    decodeRef dec ((Item.list xs).encode ++ rest) =
      (dec ((Item.list xs).encode ++ rest)).map fun n => (n, rest) := by
  have hlen : (encodeItems xs).length < 2 ^ 64 := by
    have := encodeItems_length_lt xs
    omega
  rw [decodeRef, Raw.split_encode_list hlen]
  dsimp only
  rw [if_neg (by simp only [List.length_append, Nat.add_sub_cancel]; omega)]

/-- `decodeChildren` reads a run of child references, each as `decodeRef` reads it. -/
theorem decodeChildren_map {α : Type} {dec : List Nat → Except NodeErr DecodedNode}
    (f : α → Item) (g : α → DecodedNode) :
    ∀ ys : List α, (∀ y ∈ ys, ∀ rest, decodeRef dec ((f y).encode ++ rest) = .ok (g y, rest)) →
      ∀ i rest, decodeChildren dec ys.length i (encodeItems (ys.map f) ++ rest) = .ok (ys.map g, rest)
  | [], _, _, _ => rfl
  | y :: ys, h, i, rest => by
    rw [List.length_cons, decodeChildren, List.map_cons, encodeItems_cons, List.append_assoc,
      h y List.mem_cons_self]
    dsimp only
    rw [decodeChildren_map f g ys (fun y' hy' => h y' (List.mem_cons_of_mem y hy')) (i + 1) rest]
    rfl

/-- `decodeFull` over seventeen items: sixteen child references, each read as `decodeRef` reads
    it, then the value slot as a string. -/
theorem decodeFull_items {dec : List Nat → Except NodeErr DecodedNode} (F : Fin 17 → Item)
    (D : Fin 17 → DecodedNode) {val : List Nat}
    (hch : ∀ i : Fin 17, i.val < 16 → ∀ rest, decodeRef dec ((F i).encode ++ rest) = .ok (D i, rest))
    (hval : F 16 = .str val) (hvlen : val.length < 2 ^ 64)
    (hslot : D 16 = if 0 < val.length then .value val else .nil) :
    decodeFull dec (encodeItems ((List.finRange 17).map F)) = .ok (.full D) := by
  have hchildren := decodeChildren_map (fun j : Fin 16 => F j.castSucc) (fun j => D j.castSucc)
    (List.finRange 16) (fun j _ => hch j.castSucc j.isLt) 0 ((F 16).encode ++ [])
  rw [List.length_finRange] at hchildren
  -- sixteen children, then the value slot
  rw [List.finRange_succ_last, List.map_append, List.map_map, Raw.encodeItems_append,
    List.map_singleton, encodeItems_cons, encodeItems_nil, decodeFull]
  rw [show Fin.last 16 = (16 : Fin 17) from rfl]
  rw [show F ∘ Fin.castSucc = fun j : Fin 16 => F j.castSucc from rfl, hchildren]
  dsimp only
  rw [hval, Item.encode, Raw.splitString_encodeString hvlen]
  dsimp only
  congr 2
  funext i
  by_cases hi : i.val < 16
  · have hlen : i.val < ((List.finRange 16).map fun j => D j.castSucc).length := by simpa using hi
    rw [if_pos hi, List.getD_eq_getElem?_getD, List.getElem?_eq_getElem hlen,
      Option.getD_some, List.getElem_map, List.getElem_finRange]
    rfl
  · -- the last slot
    have h16 : i = 16 := Fin.ext (by have := i.isLt; change i.val = 16; omega)
    rw [if_neg hi, h16, hslot]

theorem hasTerm_eq_false {k : List Nibble} (hk : ∀ x ∈ k, x.val < 16) : hasTerm k = false := by
  cases hlast : k.getLast? with
  | none => simp [hasTerm, hlast]
  | some x =>
    have hx := hk x (List.mem_of_getLast? hlast)
    have hne : x ≠ 16 := fun h => by simp [h] at hx
    simp [hasTerm, hlast, hne]

/-- A short node holding a value: its compact key, terminator set, then the value. -/
theorem decodeShort_value (dec : List Nat → Except NodeErr DecodedNode) {k : List Nibble}
    (hk : ∀ x ∈ k.dropLast, x.val < 16) (hterm : hasTerm k = true)
    (hklen : (hexToCompact k).length < 2 ^ 64) {v : List Nat} (hv : v.length < 2 ^ 64)
    (rest : List Nat) :
    decodeShort dec ((Item.str (hexToCompact k)).encode ++ ((Item.str v).encode ++ rest)) =
      .ok (.short k (.value v)) := by
  rw [Item.encode, decodeShort, Raw.splitString_encodeString hklen]
  dsimp only
  rw [compactToHex_hexToCompact hk, if_pos hterm, Item.encode, Raw.splitString_encodeString hv]

/-- A short node over a child: its compact key, no terminator, then the child's reference. -/
theorem decodeShort_ref (dec : List Nat → Except NodeErr DecodedNode) {k : List Nibble}
    (hk : ∀ x ∈ k, x.val < 16) (hklen : (hexToCompact k).length < 2 ^ 64) (rest : List Nat) :
    decodeShort dec ((Item.str (hexToCompact k)).encode ++ rest) =
      match decodeRef dec rest with
      | .error e => .error (wrapError .val e)
      | .ok (r, _) => .ok (.short k r) := by
  rw [Item.encode, decodeShort, Raw.splitString_encodeString hklen]
  dsimp only
  rw [compactToHex_hexToCompact fun x hx => hk x (List.mem_of_mem_dropLast hx),
    if_neg (by simp [hasTerm_eq_false hk])]

/-- `decodeNode` of a list of two items: a short node. -/
theorem decodeNode_pair {xs : List Item} (hlen : (encodeItems xs).length < 2 ^ 64)
    (h2 : xs.length = 2) (fuel : Nat) (rest : List Nat) :
    decodeNode (fuel + 1) ((Item.list xs).encode ++ rest) =
      (decodeShort (decodeNode fuel) (encodeItems xs)).mapError (wrapError .short) := by
  obtain ⟨b, bs, hb⟩ := List.exists_cons_of_ne_nil
    (List.append_ne_nil_of_left_ne_nil (encode_ne_nil (.list xs)) rest)
  have hcount : Raw.countValues (encodeItems xs) = .ok xs.length :=
    Raw.countValues_encodeItems fun x hx => Nat.lt_of_le_of_lt (encode_length_le hx) hlen
  rw [hb, decodeNode, ← hb, Raw.splitList_encode_list hlen]
  dsimp only
  rw [hcount]
  dsimp only
  rw [h2]
  rfl

/-- `decodeNode` of a list of seventeen items: a full node. -/
theorem decodeNode_seventeen {xs : List Item} (hlen : (encodeItems xs).length < 2 ^ 64)
    (h17 : xs.length = 17) (fuel : Nat) (rest : List Nat) :
    decodeNode (fuel + 1) ((Item.list xs).encode ++ rest) =
      (decodeFull (decodeNode fuel) (encodeItems xs)).mapError (wrapError .full) := by
  obtain ⟨b, bs, hb⟩ := List.exists_cons_of_ne_nil
    (List.append_ne_nil_of_left_ne_nil (encode_ne_nil (.list xs)) rest)
  have hcount : Raw.countValues (encodeItems xs) = .ok xs.length :=
    Raw.countValues_encodeItems fun x hx => Nat.lt_of_le_of_lt (encode_length_le hx) hlen
  rw [hb, decodeNode, ← hb, Raw.splitList_encode_list hlen]
  dsimp only
  rw [hcount]
  dsimp only
  rw [h17]
  rfl

/-- A full node's value slot, nothing or a value shorter than `2 ^ 32`, is written as a string
    that `decodeFull` reads back as the slot. -/
theorem Node.slot_item {n : Node} (h : n = .nil ∨ ∃ v, n = .value v ∧ v ≠ [] ∧ v.length < 2 ^ 32) :
    ∃ val : List Nat, (if n.isNil then Item.str [] else n.rawItem) = .str val ∧
      val.length < 2 ^ 64 ∧ n.slotDecoded = if 0 < val.length then .value val else .nil := by
  rcases h with rfl | ⟨v, rfl, hne, hv⟩
  · exact ⟨[], rfl, by decide, rfl⟩
  · refine ⟨v.map UInt8.toNat, rfl, by simp; omega, ?_⟩
    simp [Node.slotDecoded, hne, List.length_pos_iff]

theorem exists_eq_succ_of_encode_le {it : Item} {fuel : Nat} (h : it.encode.length ≤ fuel) :
    ∃ f, fuel = f + 1 :=
  ⟨fuel - 1, by have := List.length_pos_iff.mpr (encode_ne_nil it); omega⟩

namespace Node

/-- A decodable child's reference reads back as the hash node of its hash or, where the hasher
    embedded the child, as the child's own decoding in place. -/
theorem Decodable.decodeRef_ref {c : Node} (hc : c.Decodable) {fuel : Nat}
    (hfuel : (c.hash keccak false).item.encode.length ≤ fuel)
    (ih : ∀ fuel rest, (c.collapse keccak).encode.length ≤ fuel →
      decodeNode fuel ((c.collapse keccak).encode ++ rest) = .ok (c.decoded keccak))
    (rest : List Nat) :
    decodeRef (decodeNode fuel) ((c.hash keccak false).item.encode ++ rest) =
      .ok (refOf keccak c (c.decoded keccak), rest) := by
  obtain ⟨xs, hxs, -⟩ := @Decodable.collapse_items keccak c hc
  rw [refOf, hc.hash_eq]
  rw [hc.hash_eq] at hfuel
  rcases toHashed_false_cases (c.collapse keccak) with ⟨h, hlt⟩ | ⟨h, -⟩
  · -- embedded: the child's own encoding, read by the decoder handed down
    rw [h] at hfuel ⊢
    dsimp only [Hashed.item] at hfuel ⊢
    rw [hxs] at hlt ⊢
    rw [decodeRef_list _ hlt.le, ← hxs, ih fuel rest hfuel]
    rfl
  · rw [h]
    exact decodeRef_fixed _ _ _

/-- `decodeNode` reads a decodable node's collapsed encoding back as the node with its hashed
    children as hash nodes, whatever follows the encoding, given as much nesting fuel as the
    encoding has bytes.  By induction on the node: an embedded child is read by the recursive
    call, on a shorter encoding. -/
theorem Decodable.decodeNode_collapse {n : Node} (hn : n.Decodable) :
    ∀ fuel rest, (n.collapse keccak).encode.length ≤ fuel →
      decodeNode fuel ((n.collapse keccak).encode ++ rest) = .ok (n.decoded keccak) := by
  induction hn with
  | @shortValue k v hk hterm hklen hvlen =>
    intro fuel rest hfuel
    obtain ⟨f, rfl⟩ := exists_eq_succ_of_encode_le hfuel
    have hlen := (Decodable.shortValue hk hterm hklen hvlen).encodeItems_lt (collapse_short keccak k _)
    have hcompact := hexToCompact_length_le k
    rw [collapse_short, decodeNode_pair hlen rfl, encodeItems_cons, encodeItems_cons,
      encodeItems_nil]
    rw [show ((Node.value v).hash keccak false).item = .str (v.map UInt8.toNat) from rfl,
      decodeShort_value _ hk hterm (by omega) (by simp; omega)]
    rfl
  | @shortFull k cs hne hk hklen hfull ih =>
    intro fuel rest hfuel
    obtain ⟨f, rfl⟩ := exists_eq_succ_of_encode_le hfuel
    have hlen := (Decodable.shortFull hne hk hklen hfull).encodeItems_lt (collapse_short keccak k _)
    have hcompact := hexToCompact_length_le k
    -- the child's reference lies inside the node's encoding
    have href : ((Node.full cs).hash keccak false).item.encode.length ≤ f := by
      have : ((Node.full cs).hash keccak false).item.encode.length <
          (Item.list [.str (hexToCompact k), ((Node.full cs).hash keccak false).item]).encode.length :=
        encode_length_lt_of_mem (by simp)
      rw [collapse_short] at hfuel
      omega
    rw [collapse_short, decodeNode_pair hlen rfl, encodeItems_cons, encodeItems_cons,
      encodeItems_nil, decodeShort_ref _ hk (by omega), hfull.decodeRef_ref href ih]
    rfl
  | @full cs hcs hval ih =>
    intro fuel rest hfuel
    obtain ⟨f, rfl⟩ := exists_eq_succ_of_encode_le hfuel
    have hlen := (Decodable.full hcs hval).encodeItems_lt (collapse_full keccak cs)
    rw [collapse_full] at hfuel
    rw [collapse_full, decodeNode_seventeen hlen (by simp)]
    set F : Fin 17 → Item := fun i => if (cs i).isNil then .str []
      else if i < 16 then ((cs i).hash keccak false).item else (cs i).rawItem with hF
    -- each child reference lies inside the node's encoding
    have hin (i : Fin 17) : (F i).encode.length ≤ f := by
      have := encode_length_lt_of_mem (List.mem_map_of_mem (f := F) (List.mem_finRange i))
      omega
    have hch (i : Fin 17) (hi : i.val < 16) (rest : List Nat) :
        decodeRef (decodeNode f) ((F i).encode ++ rest) =
          .ok (refOf keccak (cs i) ((cs i).decoded keccak), rest) := by
      by_cases hnil : cs i = .nil
      · have hFi : F i = .str [] := by simp [hF, hnil]
        rw [hFi, decodeRef_empty, hnil]
        rfl
      · have hFi : F i = ((cs i).hash keccak false).item := by
          simp [hF, isNil_eq_false.mpr hnil, show i < 16 from hi]
        have hfuel := hin i
        rw [hFi] at hfuel ⊢
        exact (hcs i hi hnil).decodeRef_ref hfuel (ih i hi hnil) rest
    -- the value slot
    obtain ⟨val, hF16, hvlen, hslot⟩ := slot_item hval
    have hF16' : F 16 = .str val := by
      rw [hF]
      dsimp only
      rw [if_neg (show ¬ (16 : Fin 17) < 16 by decide)]
      exact hF16
    rw [decodeFull_items F
      (fun i => if i.val < 16 then refOf keccak (cs i) ((cs i).decoded keccak) else (cs i).slotDecoded)
      (fun i hi rest => by rw [if_pos hi]; exact hch i hi rest) hF16' hvlen
      (by rw [if_neg (by decide)]; exact hslot)]
    rfl

end Node

end ReadBack

end QuorumHotstuff.Trie
