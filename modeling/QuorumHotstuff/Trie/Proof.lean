import QuorumHotstuff.Trie.Decode
import QuorumHotstuff.Trie.Store
import QuorumHotstuff.Lib.HashStore

/-!
# Merkle proofs

`trie/proof.go`.  `Prove` collects the nodes on the way down a key and writes the collapsed
encoding of each one the hasher stores apart under its hash, and the root's under its hash in any
case.  `VerifyProof` starts from a root hash: it reads the node stored under the hash it wants,
decodes it and follows the key through it with `get`, past embedded nodes, to a value, to the end
of the key's path, or to the hash of the next node wanted.

The hash is an abstract `keccak` below `2 ^ 256`; a proof database is a store keyed by hash
(`Lib.HashStore`).  The two results are up to a collision of the hash at the bytes the loop reads:

* completeness (`verifyProof_prove`): over any well-keyed store the proof of a key has been
  written to, `VerifyProof` returns the value the trie stores under the key, or its absence,
  unless two of the encodings `Prove` writes share a hash;
* soundness (`verifyProof_sound`): over any well-keyed store whatever, a value or absence that
  `VerifyProof` returns for a trie's root hash is the trie's, unless the store holds, under the
  hash of one of the encodings the proof of the key consists of, other bytes with that hash.

Both rest on one round of the loop (`Decodable.walk`): a node read back from its encoding
(`Decodable.decodeNode_collapse`) and walked by `get` stops at the value, at the key's absence, or
at the hash of a child whose own lookup stands for the rest of the key.  The tries are those of
`TrieRoot` with keys and values short enough for the encoding (`TrieRoot.Sized`).
-/

namespace QuorumHotstuff.Trie

open QuorumHotstuff.Lib QuorumHotstuff.Lib.Rlp
open QuorumHotstuff.Hotstuff (Hash)

/-! ## The code -/

/-- `get`: follow `key` through a node to the child it names; with `skipResolved`, on through
    embedded nodes to a hash node, no node, or a value.  A short node off the key gives no node;
    a full node at the end of the key panics (`none`). -/
def DecodedNode.get : DecodedNode → List Nibble → Bool → Option (List Nibble × DecodedNode)
  | .short k v, key, skipResolved =>
    if key.length < k.length ∨ k ≠ key.take k.length then some ([], .nil)
    else if skipResolved then v.get (key.drop k.length) skipResolved
    else some (key.drop k.length, v)
  | .full _, [], _ => none
  | .full cs, c :: rest, skipResolved =>
    if skipResolved then (cs c).get rest skipResolved else some (rest, cs c)
  | .hash h, key, _ => some (key, .hash h)
  | .nil, key, _ => some (key, .nil)
  | .value v, _, _ => some ([], .value v)

/-- The errors `VerifyProof` returns. -/
inductive ProofErr where
  /-- `"proof node %d (hash %064x) missing"`. -/
  | missing (i : Nat) (hash : Hash)
  /-- `"bad proof node %d: %v"`. -/
  | bad (i : Nat) (e : NodeErr)
deriving DecidableEq, Repr

/-- The loop of `VerifyProof` from proof node `i` on, with the rest of the key and the hash of
    the node wanted.  It returns the value found, or `none` for a key the trie does not hold;
    `none` outside stands for a panic in `get` or for no `fuel` left.  A hash node `get` stops at
    has the 32 bytes `decodeRef` gives it, all copied into the hash wanted next. -/
def verifyLoop (db : Hash → Option (List Nat)) :
    Nat → Nat → List Nibble → Hash → Option (Except ProofErr (Option (List Nat)))
  | 0, _, _, _ => none
  | fuel + 1, i, key, wantHash =>
    match db wantHash with
    | none => some (.error (.missing i wantHash))
    | some buf =>
      match decodeNode buf.length buf with
      | .error e => some (.error (.bad i e))
      | .ok n =>
        match n.get key true with
        | none => none
        | some (_, .nil) => some (.ok none)
        | some (keyrest, .hash h) => verifyLoop db fuel (i + 1) keyrest (beValue h)
        | some (_, .value v) => some (.ok (some v))
        -- no case of the type switch matches: the loop goes round again
        | some (_, _) => verifyLoop db fuel (i + 1) key wantHash

/-- `VerifyProof`: the value under `key` in the trie with root hash `rootHash`, read through the
    proof database `db`. -/
def verifyProof (db : Hash → Option (List Nat)) (rootHash : Hash) (key : List UInt8) (fuel : Nat) :
    Option (Except ProofErr (Option (List Nat))) :=
  verifyLoop db fuel 0 (keybytesToHex key) rootHash

/-- The first loop of `Prove`: the nodes on the way down `key`, ending with one that shows the key
    absent where it is; `none` is the panic on a value node with key left. -/
def proofPath : Node → List Nibble → Option (List Node)
  | _, [] => some []
  | .nil, _ :: _ => some []
  | .value _, _ :: _ => none
  | .short k c, b :: r =>
    if (b :: r).length < k.length ∨ k ≠ (b :: r).take k.length then some [.short k c]
    else (proofPath c ((b :: r).drop k.length)).map (.short k c :: ·)
  | .full cs, b :: r => (proofPath (cs b) r).map (.full cs :: ·)

/-- What `Prove` writes for the node at index `i` of the path: its collapsed encoding under its
    hash where the hasher stores the node apart, and the root's under its hash in any case. -/
def proofElement (keccak : List Nat → Hash) (i : Nat) (n : Node) : Option (Hash × List Nat) :=
  match n.hash keccak false with
  | .hash h => some (h, (n.collapse keccak).encode)
  | .node _ =>
    if i = 0 then some (keccak (n.collapse keccak).encode, (n.collapse keccak).encode) else none

/-- The second loop of `Prove`: the writes for the nodes of the path from level `fromLevel` on. -/
def proofWrites (keccak : List Nat → Hash) (nodes : List Node) (fromLevel : Nat) :
    List (Hash × List Nat) :=
  (nodes.zipIdx.drop fromLevel).filterMap fun p => proofElement keccak p.2 p.1

/-- `Prove`: the writes for the nodes on the way down `key` from level `fromLevel` on. -/
def prove (keccak : List Nat → Hash) (root : Node) (key : List UInt8) (fromLevel : Nat) :
    Option (List (Hash × List Nat)) :=
  (proofPath root (keybytesToHex key)).map (proofWrites keccak · fromLevel)

/-! ## The nodes of a trie decode -/

theorem length_keybytesToHex (str : List UInt8) :
    (keybytesToHex str).length = 2 * str.length + 1 := by
  induction str with
  | nil => rfl
  | cons b str ih =>
    rw [keybytesToHex_cons, List.length_cons, List.length_cons, ih, List.length_cons]
    omega

theorem Term.hasTerm_eq {key : List Nibble} (h : Term key) : Trie.hasTerm key = true := by
  simp [Trie.hasTerm, h.1]

theorem Term.lt_of_mem_dropLast {key : List Nibble} (h : Term key) {x : Nibble}
    (hx : x ∈ key.dropLast) : x.val < 16 := by
  have hne : x ≠ 16 := fun hx16 => h.2 (hx16 ▸ hx)
  have := x.isLt
  have : x.val ≠ 16 := fun hv => hne (Fin.ext hv)
  omega

/-- A leaf's key: nibbles, then the terminator. -/
theorem Term.of_hasTerm {k : List Nibble} (hk : ∀ x ∈ k.dropLast, x.val < 16)
    (hterm : Trie.hasTerm k = true) : Term k :=
  ⟨by simpa [Trie.hasTerm] using hterm, fun h16 => by have := hk 16 h16; simp at this⟩

/-- An extension's key, nibbles only, leaves a key that ends at the terminator unfinished. -/
theorem Term.ne_nil_of_append {k r : List Nibble} (hk : ∀ x ∈ k, x.val < 16) (h : Term (k ++ r)) :
    r ≠ [] := by
  rintro rfl
  have := hk 16 (List.mem_of_getLast? (by simpa using h.1))
  simp at this

/-- Every key a node stores ends at the terminator and has fewer than `2 ^ 32` nibbles; every
    value it stores is not empty and has fewer than `2 ^ 32` bytes. -/
def Node.Sized (n : Node) : Prop :=
  ∀ key v, n.look key = some v → Term key ∧ key.length < 2 ^ 32 ∧ v ≠ [] ∧ v.length < 2 ^ 32

/-- A trie whose values are not empty, with keys of fewer than `2 ^ 31` bytes and values of fewer
    than `2 ^ 32`. -/
def TrieRoot.Sized (t : TrieRoot) : Prop :=
  ∀ str v, t.get str = some v → v ≠ [] ∧ str.length < 2 ^ 31 ∧ v.length < 2 ^ 32

theorem TrieRoot.Sized.root {t : TrieRoot} (ht : t.Sized) : t.root.Sized := by
  intro key v hkey
  obtain ⟨str, rfl⟩ := t.hexKeys key v hkey
  obtain ⟨hne, hstr, hv⟩ := ht str v hkey
  refine ⟨t.term hkey, ?_, hne, hv⟩
  rw [length_keybytesToHex]
  omega

namespace Node

/-- Below a short node, keys go on past its key. -/
theorem Sized.short {k : List Nibble} {c : Node} (h : (Node.short k c).Sized)
    (hc : c.look [] = none) : c.Sized := by
  intro key v hkey
  have hne : key ≠ [] := by
    rintro rfl
    simp [hc] at hkey
  obtain ⟨hterm, hlen, hv, hvlen⟩ := h (k ++ key) v (by rw [look_short_append]; exact hkey)
  refine ⟨hterm.drop hne, ?_, hv, hvlen⟩
  rw [List.length_append] at hlen
  omega

/-- Below a full node's first sixteen children, keys go on past the child's nibble. -/
theorem Sized.full {cs : Fin 17 → Node} (h : (Node.full cs).Sized) {i : Fin 17}
    (hi : i.val < 16) : (cs i).Sized := by
  intro key v hkey
  have hi16 : i ≠ 16 := fun h16 => by simp [h16] at hi
  obtain ⟨hterm, hlen, hv, hvlen⟩ := h (i :: key) v hkey
  refine ⟨hterm.tail hi16, ?_, hv, hvlen⟩
  rw [List.length_cons] at hlen
  omega

end Node

/-- A canonical node stores under the empty key only as a value node. -/
theorem Canonical.eq_value_of_look_nil {n : Node} (hn : Canonical n) {v : List UInt8}
    (h : n.look [] = some v) : n = .value v := by
  cases hn with
  | nil => cases h
  | value w => cases h; rfl
  | short hk _ _ =>
    rw [Node.look_short, if_neg (by simpa using hk)] at h
    cases h
  | full _ _ => cases h

/-- The nodes of a trie of byte keys with sized keys and values decode: by induction on the
    canonical form, the stored keys fixing where the terminator stands. -/
theorem Canonical.decodable {n : Node} (hn : Canonical n) : n ≠ .nil → n.Sized → n.Decodable := by
  induction hn with
  | nil => exact fun h => absurd rfl h
  | value v =>
    intro _ hs
    exact absurd (hs [] v rfl).1 fun h => h.ne_nil rfl
  | @short k c hk hvf hc ih =>
    intro _ hs
    rcases Node.valueOrFull_iff.mp hvf with ⟨v, rfl⟩ | ⟨cs, rfl⟩
    · -- a leaf: its key is a whole stored key
      obtain ⟨hterm, hlen, -, hv⟩ := hs k v (by simpa using Node.look_short_append k (.value v) [])
      exact .shortValue (fun x hx => hterm.lt_of_mem_dropLast hx) hterm.hasTerm_eq hlen hv
    · -- an extension: its key is a proper prefix of a stored key
      obtain ⟨key, v, hkey⟩ := hc.exists_look (by simp)
      have hne : key ≠ [] := by
        rintro rfl
        simp at hkey
      obtain ⟨hterm, hlen, -, -⟩ := hs (k ++ key) v (by rw [Node.look_short_append]; exact hkey)
      refine .shortFull hk (fun x hx => hterm.lt_of_mem_dropLast ?_) ?_
        (ih (by simp) (hs.short rfl))
      · rw [List.dropLast_append_of_ne_nil hne]
        exact List.mem_append_left _ hx
      · rw [List.length_append] at hlen
        omega
  | @full cs hcs hocc ih =>
    intro _ hs
    refine .full (fun i hi hne => ih i hne (hs.full hi)) ?_
    -- the value slot holds nothing or a value: a node there stores under the empty key only
    by_cases hnil : cs 16 = .nil
    · exact .inl hnil
    obtain ⟨key, v, hkey⟩ := (hcs 16).exists_look hnil
    obtain ⟨hterm, -, hv, hvlen⟩ := hs (16 :: key) v hkey
    have hkey' : (cs 16).look [] = some v := by
      rw [← hterm.terminator]
      exact hkey
    exact .inr ⟨v, (hcs 16).eq_value_of_look_nil hkey', hv, hvlen⟩

/-- A nonempty trie's root decodes. -/
theorem TrieRoot.decodable {t : TrieRoot} (ht : t.Sized) (hne : t.root ≠ .nil) :
    t.root.Decodable :=
  t.canonical.decodable hne ht.root

/-! ## The trie of one key -/

/-- The trie holding one key: a leaf whose key is the whole hex key. -/
def TrieRoot.leaf (str v : List UInt8) : TrieRoot where
  root := .short (keybytesToHex str) (.value v)
  canonical := .short (term_keybytesToHex str).ne_nil rfl (.value v)
  hexKeys key w hkey := by
    obtain ⟨r, rfl, hr⟩ := Node.look_short_eq_some.mp hkey
    cases r with
    | nil => exact ⟨str, List.append_nil _⟩
    | cons _ _ => cases hr

theorem TrieRoot.leaf_get (str v s : List UInt8) :
    (TrieRoot.leaf str v).get s = if s = str then some v else none := by
  split_ifs with hs
  · subst hs
    have hlook := Node.look_short_append (keybytesToHex s) (.value v) []
    rwa [List.append_nil] at hlook
  · cases hget : (TrieRoot.leaf str v).get s with
    | none => rfl
    | some w =>
      -- a key the leaf stores is its own key
      obtain ⟨r, hkey, hr⟩ := Node.look_short_eq_some.mp hget
      cases r with
      | nil => exact absurd (keybytesToHex_injective (by simpa using hkey)) hs
      | cons _ _ => cases hr

theorem TrieRoot.leaf_sized {str v : List UInt8} (hv : v ≠ []) (hstr : str.length < 2 ^ 31)
    (hvlen : v.length < 2 ^ 32) : (TrieRoot.leaf str v).Sized := by
  intro s w hget
  rw [TrieRoot.leaf_get] at hget
  split_ifs at hget with hs
  cases hget
  subst hs
  exact ⟨hv, hstr, hvlen⟩

/-! ## Following a key through a decoded node -/

/-- The test of `get` and of `Prove` that a short node lies off the key: its key is no prefix. -/
theorem off_key_iff {k key : List Nibble} :
    (key.length < k.length ∨ k ≠ key.take k.length) ↔ ¬ k <+: key := by
  rw [List.prefix_iff_eq_take]
  constructor
  · rintro (h | h) heq
    · have := congrArg List.length heq
      simp only [List.length_take] at this
      omega
    · exact h heq
  · exact .inr

theorem get_short_on_key {k r : List Nibble} (v : DecodedNode) (h : k <+: r) :
    (DecodedNode.short k v).get r true = v.get (r.drop k.length) true := by
  rw [DecodedNode.get, if_neg (off_key_iff.not.mpr (not_not.mpr h)), if_pos rfl]

theorem get_short_off_key {k r : List Nibble} (v : DecodedNode) (s : Bool) (h : ¬ k <+: r) :
    (DecodedNode.short k v).get r s = some ([], .nil) := by
  rw [DecodedNode.get, if_pos (off_key_iff.mpr h)]

theorem proofPath_short_on_key {k r : List Nibble} (c : Node) (h : k <+: r) (hr : r ≠ []) :
    proofPath (.short k c) r = (proofPath c (r.drop k.length)).map (.short k c :: ·) := by
  obtain ⟨b, r, rfl⟩ := List.exists_cons_of_ne_nil hr
  rw [proofPath, if_neg (off_key_iff.not.mpr (not_not.mpr h))]

@[simp] theorem proofPath_nil (n : Node) : proofPath n [] = some [] := by
  cases n <;> rfl

theorem proofPath_short_off_key {k r : List Nibble} (c : Node) (h : ¬ k <+: r)
    (hr : r ≠ []) : proofPath (.short k c) r = some [.short k c] := by
  obtain ⟨b, r, rfl⟩ := List.exists_cons_of_ne_nil hr
  rw [proofPath, if_pos (off_key_iff.mpr h)]

/-- A path that goes on from a node holds what follows. -/
theorem subset_of_map_cons {x : Option (List Node)} {n : Node} {ps : List Node}
    (h : x.map (n :: ·) = some ps) : ∃ ps', x = some ps' ∧ ps' ⊆ ps := by
  obtain ⟨ps', hx, rfl⟩ := Option.map_eq_some_iff.mp h
  exact ⟨ps', hx, List.subset_cons_self n ps'⟩

section Walk

variable {keccak : List Nat → Hash}

/-- How a parent's decoding holds a child: the hash node of the child's hash, or the child's own
    decoding. -/
theorem refOf_cases (c : Node) (d : DecodedNode) :
    (∃ h, c.hash keccak false = .hash h ∧ Node.refOf keccak c d = .hash (beBytes 32 h)) ∨
      Node.refOf keccak c d = d := by
  unfold Node.refOf
  cases c.hash keccak false with
  | hash h => exact .inl ⟨h, rfl, rfl⟩
  | node _ => exact .inr rfl

/-- Where `get` leaves a walk through a node `m` along the rest `r` of a key: at the value `m`
    stores under `r`; at the end of the key's path, `m` storing nothing under `r`; or at the hash
    node of a child `c` the hasher stored apart, on `Prove`'s path, whose lookup of the rest `r'`
    is `m`'s of `r`. -/
inductive Walk (keccak : List Nat → Hash) (m : Node) (r : List Nibble) :
    Option (List Nibble × DecodedNode) → Prop
  | value {v : List UInt8} :
      m.look r = some v → Walk keccak m r (some ([], .value (v.map UInt8.toNat)))
  | absent {r' : List Nibble} : m.look r = none → Walk keccak m r (some (r', .nil))
  | hash {c : Node} {r' : List Nibble} {h : Hash} :
      c.hash keccak false = .hash h → c.Decodable → c.look r' = m.look r → Term r' →
      r'.length < r.length →
      (∀ ps, proofPath m r = some ps → ∃ ps', proofPath c r' = some ps' ∧ ps' ⊆ ps) →
      Walk keccak m r (some (r', .hash (beBytes 32 h)))

/-- A walk through a child on the way down stands for one through its parent. -/
theorem Walk.lift {m c : Node} {r r'' : List Nibble} {res : Option (List Nibble × DecodedNode)}
    (hw : Walk keccak c r'' res) (hlook : c.look r'' = m.look r) (hlen : r''.length < r.length)
    (hpath : ∀ ps, proofPath m r = some ps → ∃ ps', proofPath c r'' = some ps' ∧ ps' ⊆ ps) :
    Walk keccak m r res := by
  cases hw with
  | value hv => exact .value (hlook.symm.trans hv)
  | absent hv => exact .absent (hlook.symm.trans hv)
  | hash hh hc hl ht hlen' hpath' =>
    refine .hash hh hc (hl.trans hlook) ht (by omega) fun ps hps => ?_
    obtain ⟨ps', hps', hsub⟩ := hpath ps hps
    obtain ⟨ps'', hps'', hsub'⟩ := hpath' ps' hps'
    exact ⟨ps'', hps'', List.Subset.trans hsub' hsub⟩

/-- A walk that goes on into a decodable child: it stops at the child's hash node where the
    hasher stored the child apart, and walks on through it where it embedded it. -/
theorem Walk.ref {m c : Node} {r r' : List Nibble} (hc : c.Decodable) (hr' : Term r')
    (hlook : c.look r' = m.look r) (hlen : r'.length < r.length)
    (hpath : ∀ ps, proofPath m r = some ps → ∃ ps', proofPath c r' = some ps' ∧ ps' ⊆ ps)
    (ih : Walk keccak c r' ((c.decoded keccak).get r' true)) :
    Walk keccak m r ((Node.refOf keccak c (c.decoded keccak)).get r' true) := by
  rcases refOf_cases c (c.decoded keccak) with ⟨h, hh, href⟩ | href
  · rw [href]
    exact .hash hh hc hlook hr' hlen hpath
  · rw [href]
    exact ih.lift hlook hlen hpath

/-- One round of `VerifyProof`'s walk: `get` through a decodable node along a key that ends at
    the terminator stops at the value, at the key's absence, or at the hash of a child stored
    apart.  By induction on the node; an embedded child is walked through in place. -/
theorem Node.Decodable.walk {m : Node} (hm : m.Decodable) :
    ∀ {r : List Nibble}, Term r → Walk keccak m r ((m.decoded keccak).get r true) := by
  induction hm with
  | @shortValue k v hk hterm hklen hvlen =>
    intro r hr
    have hkterm := Term.of_hasTerm hk hterm
    show Walk keccak _ r ((DecodedNode.short k (.value (v.map UInt8.toNat))).get r true)
    by_cases hpre : k <+: r
    · -- the leaf's key is the whole rest of the key
      obtain ⟨r'', rfl⟩ := hpre
      obtain rfl := Term.eq_of_append hkterm hr
      rw [get_short_on_key _ (List.prefix_append k [])]
      exact .value (Node.look_short_append k (.value v) [])
    · rw [get_short_off_key _ _ hpre]
      exact .absent (Node.look_short_eq_none _ hpre)
  | @shortFull k cs hne hk hklen hfull ih =>
    intro r hr
    show Walk keccak _ r
      ((DecodedNode.short k (Node.refOf keccak (.full cs) ((Node.full cs).decoded keccak))).get r true)
    by_cases hpre : k <+: r
    · obtain ⟨r'', rfl⟩ := hpre
      -- the key goes on past the extension, which holds no terminator
      have hr'' := Term.ne_nil_of_append hk hr
      rw [get_short_on_key _ (List.prefix_append k r''), List.drop_left]
      refine Walk.ref hfull (hr.drop hr'') (by simp) ?_ ?_ (ih (hr.drop hr''))
      · have := List.length_pos_iff.mpr hne
        simp only [List.length_append]
        omega
      · intro ps hps
        rw [proofPath_short_on_key _ (List.prefix_append k r'') (by simp [hne]),
          List.drop_left] at hps
        exact subset_of_map_cons hps
    · rw [get_short_off_key _ _ hpre]
      exact .absent (Node.look_short_eq_none _ hpre)
  | @full cs hcs hval ih =>
    intro r hr
    obtain ⟨b, r0, rfl⟩ := List.exists_cons_of_ne_nil hr.ne_nil
    show Walk keccak _ _ ((if b.val < 16 then Node.refOf keccak (cs b) ((cs b).decoded keccak)
      else (cs b).slotDecoded).get r0 true)
    by_cases hb : b.val < 16
    · rw [if_pos hb]
      have hb16 : b ≠ 16 := fun h16 => by simp [h16] at hb
      by_cases hnil : cs b = .nil
      · -- no child under the nibble
        rw [hnil]
        exact .absent (by simp [hnil])
      · refine Walk.ref (hcs b hb hnil) (hr.tail hb16) rfl (by simp) ?_
          (ih b hb hnil (hr.tail hb16))
        intro ps hps
        exact subset_of_map_cons hps
    · -- the terminator: the value slot, at the key's end
      have hb16 : b = 16 := Fin.ext (by have := b.isLt; change b.val = 16; omega)
      subst hb16
      obtain rfl := hr.terminator
      rw [if_neg hb]
      rcases hval with h16 | ⟨v, h16, hv, -⟩
      · rw [h16]
        exact .absent (by simp [h16])
      · rw [h16]
        simp only [Node.slotDecoded, if_neg hv]
        exact .value (by simp [h16])

end Walk

/-! ## The loop of `VerifyProof` -/

section Loop

variable {keccak : List Nat → Hash} {db : Hash → Option (List Nat)}

theorem toHashed_eq_hash {force : Bool} {it : Item} {h : Hash}
    (hh : toHashed keccak force it = .hash h) : keccak it.encode = h := by
  unfold toHashed at hh
  split_ifs at hh
  cases hh
  rfl

/-- The hash the hasher gives a node it stores apart is the hash of its collapsed encoding. -/
theorem Node.hash_eq_hash {n : Node} {h : Hash} (hn : n.hash keccak false = .hash h) :
    keccak (n.collapse keccak).encode = h := by
  cases n with
  | nil => cases hn
  | value v => cases hn
  | short k c => exact toHashed_eq_hash hn
  | full cs => exact toHashed_eq_hash hn

/-- The root hash of a nonempty trie is the hash of its root's collapsed encoding. -/
theorem Node.Decodable.rootHash_eq {m : Node} (hm : m.Decodable) :
    rootHash keccak m = some (keccak (m.collapse keccak).encode) := by
  have htrue : m.hash keccak true = .hash (keccak (m.collapse keccak).encode) := by
    rw [hm.hash_eq]
    simp [toHashed]
  cases hm <;> simp only [rootHash, htrue]

/-- The 32 bytes of a hash below `2 ^ 256` name the hash. -/
theorem beValue_beBytes_hash (hk : ∀ b, keccak b < 2 ^ 256) (b : List Nat) :
    beValue (beBytes 32 (keccak b)) = keccak b := by
  rw [beValue_beBytes, Nat.mod_eq_of_lt]
  calc keccak b < 2 ^ 256 := hk b
    _ = 256 ^ 32 := by norm_num

/-- What a well-keyed store holds under the hash of a node's encoding decodes to the node, or
    collides with the encoding. -/
theorem read_decoded (hdb : WellKeyed keccak db) {m : Node} (hm : m.Decodable) {buf : List Nat}
    (hbuf : db (keccak (m.collapse keccak).encode) = some buf) :
    decodeNode buf.length buf = .ok (m.decoded keccak) ∨
      CollidesAt keccak db (m.collapse keccak).encode := by
  rcases hdb.eq_or_collidesAt hbuf with rfl | hcol
  · have hdec := @Node.Decodable.decodeNode_collapse keccak m hm _ [] le_rfl
    rw [List.append_nil] at hdec
    exact .inl hdec
  · exact .inr hcol

/-- A collision at the encoding of a node the loop reads: the node it starts from, or a node of
    the path the hasher stores apart. -/
def CollidesOnPath (keccak : List Nat → Hash) (db : Hash → Option (List Nat)) (m : Node)
    (ps : List Node) : Prop :=
  CollidesAt keccak db (m.collapse keccak).encode ∨
    ∃ n ∈ ps, (∃ h, n.hash keccak false = .hash h) ∧ CollidesAt keccak db (n.collapse keccak).encode

/-- A collision on the path of a child stored apart, whose path is within the parent's, is one on
    the parent's. -/
theorem CollidesOnPath.of_child {m c : Node} {ps ps' : List Node} {h : Hash}
    (hc : c.hash keccak false = .hash h) (hcps : c ∈ ps') (hsub : ps' ⊆ ps)
    (hcol : CollidesOnPath keccak db c ps') : CollidesOnPath keccak db m ps := by
  rcases hcol with hcol | ⟨n, hn, hapart, hcol⟩
  · exact .inr ⟨c, hsub hcps, ⟨h, hc⟩, hcol⟩
  · exact .inr ⟨n, hsub hn, hapart, hcol⟩

section Round

variable {fuel i : Nat} {key r' : List Nibble} {wantHash : Hash} {buf : List Nat} {n : DecodedNode}

theorem verifyLoop_bad {e : NodeErr} (hbuf : db wantHash = some buf)
    (hdec : decodeNode buf.length buf = .error e) :
    verifyLoop db (fuel + 1) i key wantHash = some (.error (.bad i e)) := by
  rw [verifyLoop, hbuf]
  dsimp only
  rw [hdec]

theorem verifyLoop_value {v : List Nat} (hbuf : db wantHash = some buf)
    (hdec : decodeNode buf.length buf = .ok n) (hget : n.get key true = some (r', .value v)) :
    verifyLoop db (fuel + 1) i key wantHash = some (.ok (some v)) := by
  rw [verifyLoop, hbuf]
  dsimp only
  rw [hdec]
  dsimp only
  rw [hget]

theorem verifyLoop_absent (hbuf : db wantHash = some buf)
    (hdec : decodeNode buf.length buf = .ok n) (hget : n.get key true = some (r', .nil)) :
    verifyLoop db (fuel + 1) i key wantHash = some (.ok none) := by
  rw [verifyLoop, hbuf]
  dsimp only
  rw [hdec]
  dsimp only
  rw [hget]

theorem verifyLoop_hash {hb : List Nat} (hbuf : db wantHash = some buf)
    (hdec : decodeNode buf.length buf = .ok n) (hget : n.get key true = some (r', .hash hb)) :
    verifyLoop db (fuel + 1) i key wantHash = verifyLoop db fuel (i + 1) r' (beValue hb) := by
  rw [verifyLoop, hbuf]
  dsimp only
  rw [hdec]
  dsimp only
  rw [hget]

end Round

/-- A node on the way down a key heads `Prove`'s path from it. -/
theorem Node.Decodable.proofPath_eq_cons {c : Node} (hc : c.Decodable) {r : List Nibble}
    (hr : r ≠ []) {ps : List Node} (h : proofPath c r = some ps) : ∃ rest, ps = c :: rest := by
  obtain ⟨b, r, rfl⟩ := List.exists_cons_of_ne_nil hr
  cases hc with
  | full _ _ =>
    obtain ⟨ps', -, rfl⟩ := Option.map_eq_some_iff.mp h
    exact ⟨ps', rfl⟩
  | shortValue _ _ _ _ | shortFull _ _ _ _ =>
    rw [proofPath] at h
    split_ifs at h
    · cases h
      exact ⟨[], rfl⟩
    · obtain ⟨ps', -, rfl⟩ := Option.map_eq_some_iff.mp h
      exact ⟨ps', rfl⟩

/-- Whatever the store holds, a value or an absence the loop returns from a node stored under
    its hash is the node's lookup of the key, unless the store holds other bytes of the same hash
    under a node of the key's path that the loop reads.  By induction on the rounds, each one a
    walk (`Decodable.walk`) through the node the store gives back. -/
theorem verifyLoop_sound (hk : ∀ b, keccak b < 2 ^ 256) (hdb : WellKeyed keccak db) :
    ∀ (fuel i : Nat) {m : Node} {r : List Nibble} {ps : List Node} {res : Option (List Nat)},
      m.Decodable → Term r → proofPath m r = some ps →
      verifyLoop db fuel i r (keccak (m.collapse keccak).encode) = some (.ok res) →
      res = (m.look r).map (List.map UInt8.toNat) ∨ CollidesOnPath keccak db m ps
  | 0, _, _, _, _, _, _, _, _, h => by cases h
  | fuel + 1, i, m, r, ps, res, hm, hr, hps, h => by
    cases hbuf : db (keccak (m.collapse keccak).encode) with
    | none =>
      rw [verifyLoop, hbuf] at h
      cases h
    | some buf =>
      rcases read_decoded hdb hm hbuf with hdec | hcol
      · have hw : Walk keccak m r ((m.decoded keccak).get r true) := hm.walk hr
        generalize hg : (m.decoded keccak).get r true = g at hw
        cases hw with
        | value hv =>
          rw [verifyLoop_value hbuf hdec hg] at h
          cases h
          exact .inl (by rw [hv]; rfl)
        | absent hv =>
          rw [verifyLoop_absent hbuf hdec hg] at h
          cases h
          exact .inl (by rw [hv]; rfl)
        | @hash c r' h' hhash hcd hlook hr' _ hpath =>
          -- the next round reads the child under its hash, from the child's part of the path
          obtain ⟨ps', hps', hsub⟩ := hpath ps hps
          obtain ⟨rest, rfl⟩ := hcd.proofPath_eq_cons hr'.ne_nil hps'
          rw [verifyLoop_hash hbuf hdec hg, ← Node.hash_eq_hash hhash,
            beValue_beBytes_hash hk] at h
          rw [← hlook]
          exact (verifyLoop_sound hk hdb fuel (i + 1) hcd hr' hps' h).imp_right
            (CollidesOnPath.of_child hhash List.mem_cons_self hsub)
      · exact .inr (.inl hcol)

/-- From a node stored under its hash, over a well-keyed store that holds every node of `Prove`'s
    path the hasher stored apart, the loop returns the node's lookup of the key, unless the store
    holds other bytes of the same hash under a node of the path the loop reads, given a round for
    each nibble of the key.  By induction on the rounds: the child a walk stops at is on the path,
    so the store holds it. -/
theorem verifyLoop_complete (hk : ∀ b, keccak b < 2 ^ 256) (hdb : WellKeyed keccak db) :
    ∀ (fuel i : Nat) {m : Node} {r : List Nibble} {ps : List Node}, m.Decodable → Term r →
      r.length < fuel → proofPath m r = some ps →
      (∀ n ∈ ps, ∀ h, n.hash keccak false = .hash h → (db h).isSome) →
      (db (keccak (m.collapse keccak).encode)).isSome →
      verifyLoop db fuel i r (keccak (m.collapse keccak).encode) =
        some (.ok ((m.look r).map (List.map UInt8.toNat))) ∨ CollidesOnPath keccak db m ps
  | 0, _, _, _, _, _, _, hfuel, _, _, _ => absurd hfuel (Nat.not_lt_zero _)
  | fuel + 1, i, m, r, ps, hm, hr, hfuel, hps, hheld, hroot => by
    obtain ⟨buf, hbuf⟩ := Option.isSome_iff_exists.mp hroot
    rcases read_decoded hdb hm hbuf with hdec | hcol
    · have hw : Walk keccak m r ((m.decoded keccak).get r true) := hm.walk hr
      generalize hg : (m.decoded keccak).get r true = g at hw
      cases hw with
      | value hv => exact .inl (by rw [verifyLoop_value hbuf hdec hg, hv]; rfl)
      | absent hv => exact .inl (by rw [verifyLoop_absent hbuf hdec hg, hv]; rfl)
      | @hash c r' h hhash hcd hlook hr' hlen hpath =>
        obtain ⟨ps', hps', hsub⟩ := hpath ps hps
        obtain ⟨rest, rfl⟩ := hcd.proofPath_eq_cons hr'.ne_nil hps'
        -- the child heads the rest of the path, so the store holds it
        have hchild : (db (keccak (c.collapse keccak).encode)).isSome := by
          rw [Node.hash_eq_hash hhash]
          exact hheld c (hsub List.mem_cons_self) h hhash
        rw [verifyLoop_hash hbuf hdec hg, ← Node.hash_eq_hash hhash, beValue_beBytes_hash hk,
          ← hlook]
        exact (verifyLoop_complete hk hdb fuel (i + 1) hcd hr' (by omega) hps'
          (fun n hn => hheld n (hsub hn)) hchild).imp_right
          (CollidesOnPath.of_child hhash List.mem_cons_self hsub)
    · exact .inr (.inl hcol)

end Loop

/-! ## `Prove` -/

section Prove

variable {keccak : List Nat → Hash}

/-- `Prove` never panics on a trie's node: it meets a value node only at the key's end. -/
theorem Node.Decodable.proofPath_isSome {m : Node} (hm : m.Decodable) :
    ∀ {r : List Nibble}, Term r → (proofPath m r).isSome := by
  induction hm with
  | @shortValue k v hk hterm _ _ =>
    intro r hr
    by_cases hpre : k <+: r
    · obtain ⟨r'', rfl⟩ := hpre
      obtain rfl := Term.eq_of_append (Term.of_hasTerm hk hterm) hr
      rw [proofPath_short_on_key _ (List.prefix_append k []) hr.ne_nil, List.drop_left]
      rfl
    · rw [proofPath_short_off_key _ hpre hr.ne_nil]
      rfl
  | @shortFull k cs _ hk _ _ ih =>
    intro r hr
    by_cases hpre : k <+: r
    · obtain ⟨r'', rfl⟩ := hpre
      rw [proofPath_short_on_key _ (List.prefix_append k r'') hr.ne_nil, List.drop_left,
        Option.isSome_map]
      exact ih (hr.drop (Term.ne_nil_of_append hk hr))
    · rw [proofPath_short_off_key _ hpre hr.ne_nil]
      rfl
  | @full cs _ _ ih =>
    intro r hr
    obtain ⟨b, r0, rfl⟩ := List.exists_cons_of_ne_nil hr.ne_nil
    rw [proofPath, Option.isSome_map]
    by_cases hb : b.val < 16
    · have hb16 : b ≠ 16 := fun h16 => by simp [h16] at hb
      by_cases hnil : cs b = .nil
      · rw [hnil]
        cases r0 <;> rfl
      · exact ih b hb hnil (hr.tail hb16)
    · -- the terminator ends the key
      have hb16 : b = 16 := Fin.ext (by have := b.isLt; change b.val = 16; omega)
      subst hb16
      obtain rfl := hr.terminator
      rw [proofPath_nil]
      rfl

/-- The nodes of `Prove`'s path from a decodable node decode. -/
theorem Node.Decodable.proofPath_decodable {m : Node} (hm : m.Decodable) :
    ∀ {r : List Nibble} {ps : List Node}, proofPath m r = some ps → ∀ n ∈ ps, n.Decodable := by
  induction hm with
  | @shortValue k v hk hterm hklen hvlen =>
    intro r ps hps n hn
    obtain _ | ⟨b, r⟩ := r
    · rw [proofPath_nil] at hps
      cases hps
      cases hn
    rw [proofPath] at hps
    split_ifs at hps
    · cases hps
      rw [List.mem_singleton.mp hn]
      exact .shortValue hk hterm hklen hvlen
    · obtain ⟨ps', hps', rfl⟩ := Option.map_eq_some_iff.mp hps
      rcases List.mem_cons.mp hn with rfl | hn
      · exact .shortValue hk hterm hklen hvlen
      · -- below the leaf only its value, which is on no path
        cases h : List.drop k.length (b :: r) with
        | nil =>
          rw [h, proofPath_nil] at hps'
          cases hps'
          cases hn
        | cons _ _ =>
          rw [h] at hps'
          cases hps'
  | @shortFull k cs hne hk hklen hfull ih =>
    intro r ps hps n hn
    obtain _ | ⟨b, r⟩ := r
    · rw [proofPath_nil] at hps
      cases hps
      cases hn
    rw [proofPath] at hps
    split_ifs at hps
    · cases hps
      rw [List.mem_singleton.mp hn]
      exact .shortFull hne hk hklen hfull
    · obtain ⟨ps', hps', rfl⟩ := Option.map_eq_some_iff.mp hps
      rcases List.mem_cons.mp hn with rfl | hn
      · exact .shortFull hne hk hklen hfull
      · exact ih hps' n hn
  | @full cs hcs hval ih =>
    intro r ps hps n hn
    obtain _ | ⟨b, r⟩ := r
    · rw [proofPath_nil] at hps
      cases hps
      cases hn
    obtain ⟨ps', hps', rfl⟩ := Option.map_eq_some_iff.mp hps
    rcases List.mem_cons.mp hn with rfl | hn
    · exact .full hcs hval
    · -- a child: one of the first sixteen, or the value slot, which is on no path
      by_cases hb : b.val < 16
      · by_cases hnil : cs b = .nil
        · rw [hnil] at hps'
          cases r <;> (cases hps'; cases hn)
        · exact ih b hb hnil hps' n hn
      · have hb16 : b = 16 := Fin.ext (by have := b.isLt; change b.val = 16; omega)
        subst hb16
        rcases hval with h16 | ⟨v, h16, -⟩ <;> rw [h16] at hps' <;> cases r <;>
          (cases hps'; try cases hn)

theorem proofElement_of_hash {i : Nat} {n : Node} {h : Hash} (hn : n.hash keccak false = .hash h) :
    proofElement keccak i n = some (h, (n.collapse keccak).encode) := by
  simp only [proofElement, hn]

theorem proofElement_enc {i : Nat} {n : Node} {p : Hash × List Nat}
    (h : proofElement keccak i n = some p) : p.2 = (n.collapse keccak).encode := by
  cases hn : n.hash keccak false with
  | hash h' =>
    rw [proofElement_of_hash hn] at h
    cases h
    rfl
  | node _ =>
    simp only [proofElement, hn] at h
    split_ifs at h
    cases h
    rfl

/-- The root is written in any case. -/
theorem proofElement_zero (n : Node) :
    proofElement keccak 0 n =
      some (keccak (n.collapse keccak).encode, (n.collapse keccak).encode) := by
  cases hn : n.hash keccak false with
  | hash h => rw [proofElement_of_hash hn, Node.hash_eq_hash hn]
  | node _ => simp only [proofElement, hn, if_pos]

/-- `Prove` writes each encoding under its own hash. -/
theorem proofWrites_wellKeyed {nodes : List Node} {fromLevel : Nat} {p : Hash × List Nat}
    (hp : p ∈ proofWrites keccak nodes fromLevel) : keccak p.2 = p.1 := by
  obtain ⟨q, -, hq⟩ := List.mem_filterMap.mp hp
  cases hn : q.1.hash keccak false with
  | hash h =>
    rw [proofElement_of_hash hn] at hq
    cases hq
    exact Node.hash_eq_hash hn
  | node _ =>
    simp only [proofElement, hn] at hq
    split_ifs at hq
    cases hq
    rfl

/-- From level 0 on, `Prove` writes every node of the path the hasher stores apart. -/
theorem mem_proofWrites_of_hash {nodes : List Node} {n : Node} (hmem : n ∈ nodes) {h : Hash}
    (hn : n.hash keccak false = .hash h) :
    (h, (n.collapse keccak).encode) ∈ proofWrites keccak nodes 0 := by
  obtain ⟨i, hi⟩ := List.mem_iff_getElem?.mp hmem
  rw [proofWrites, List.drop_zero, List.mem_filterMap]
  exact ⟨(n, i), List.mem_zipIdx_iff_getElem?.mpr hi, proofElement_of_hash hn⟩

/-- From level 0 on, `Prove` writes the root. -/
theorem mem_proofWrites_head (n : Node) (nodes : List Node) :
    (keccak (n.collapse keccak).encode, (n.collapse keccak).encode) ∈
      proofWrites keccak (n :: nodes) 0 := by
  rw [proofWrites, List.drop_zero, List.mem_filterMap]
  exact ⟨(n, 0), by simp, proofElement_zero n⟩

/-- Every write of `Prove`, from any level on, puts the collapsed encoding of a node of the trie
    under its hash, and `decodeNode` reads it back as that node with its hashed children as hash
    nodes. -/
theorem prove_writes_decode {t : TrieRoot} (ht : t.Sized) (key : List UInt8) (fromLevel : Nat)
    {puts : List (Hash × List Nat)} (hputs : prove keccak t.root key fromLevel = some puts) :
    ∀ p ∈ puts, keccak p.2 = p.1 ∧ ∃ n : Node, p.2 = (n.collapse keccak).encode ∧
      decodeNode p.2.length p.2 = .ok (n.decoded keccak) := by
  intro p hp
  obtain ⟨ps, hps, rfl⟩ := Option.map_eq_some_iff.mp hputs
  obtain ⟨q, hq, hqp⟩ := List.mem_filterMap.mp hp
  have hn : q.1 ∈ ps := List.fst_mem_of_mem_zipIdx (List.mem_of_mem_drop hq)
  -- a path with a node on it comes from a trie that is not empty
  have hne : t.root ≠ .nil := by
    intro hnil
    obtain ⟨b, r, hbr⟩ := List.exists_cons_of_ne_nil (term_keybytesToHex key).ne_nil
    rw [hnil, hbr, proofPath] at hps
    cases hps
    cases hn
  have hdec := (TrieRoot.decodable ht hne).proofPath_decodable hps q.1 hn
  refine ⟨proofWrites_wellKeyed hp, q.1, proofElement_enc hqp, ?_⟩
  rw [proofElement_enc hqp]
  have hread := @Node.Decodable.decodeNode_collapse keccak q.1 hdec _ [] le_rfl
  rwa [List.append_nil] at hread

/-- The one write of a leaf's proof, under a hash that sums the bytes. -/
theorem prove_writes_decode_leaf :
    (fun b : List Nat => b.sum % 2 ^ 256) [0xC4, 0x82, 0x20, 0x01, 0x05] = 364 ∧
      ∃ n : Node, [0xC4, 0x82, 0x20, 0x01, 0x05] = (n.collapse fun b => b.sum % 2 ^ 256).encode ∧
        decodeNode 5 [0xC4, 0x82, 0x20, 0x01, 0x05] = .ok (n.decoded fun b => b.sum % 2 ^ 256) :=
  @prove_writes_decode (fun b => b.sum % 2 ^ 256) (TrieRoot.leaf [1] [5])
    (TrieRoot.leaf_sized (by decide) (by decide) (by decide)) [1] 0
    [(364, [0xC4, 0x82, 0x20, 0x01, 0x05])] rfl _ List.mem_cons_self

end Prove

/-! ## Completeness and soundness -/

section Verify

variable {keccak : List Nat → Hash}

/-- The encodings `VerifyProof` reads for `key` from an honest store: those `Prove` writes, and
    for the empty trie, whose root hash is the hash of the empty string, that string's encoding. -/
def TrieRoot.proofEncodings (keccak : List Nat → Hash) (t : TrieRoot) (key : List UInt8) :
    List (List Nat) :=
  match t.root with
  | .nil => [(Item.str []).encode]
  | _ => ((prove keccak t.root key 0).getD []).map Prod.snd

/-- A collision on the path from the root is one at an encoding `Prove` writes. -/
theorem CollidesOnPath.proofWrites {db : Hash → Option (List Nat)} {m : Node} {rest : List Node}
    (hcol : CollidesOnPath keccak db m (m :: rest)) :
    ∃ p ∈ proofWrites keccak (m :: rest) 0, CollidesAt keccak db p.2 := by
  rcases hcol with hcol | ⟨n, hn, ⟨h, hh⟩, hcol⟩
  · exact ⟨_, mem_proofWrites_head m rest, hcol⟩
  · exact ⟨_, mem_proofWrites_of_hash hn hh, hcol⟩

/-- Completeness: the proof `Prove` writes for a key of a nonempty trie, into any well-keyed store,
    makes `VerifyProof` from the trie's root hash return the value the trie stores under the key,
    or its absence, unless two different encodings `Prove` writes have one hash; a round for each
    nibble of the hex key is enough. -/
theorem verifyProof_prove (hk : ∀ b, keccak b < 2 ^ 256) {t : TrieRoot} (ht : t.Sized)
    (hne : t.root ≠ .nil) (key : List UInt8) {db : Hash → Option (List Nat)}
    (hdb : WellKeyed keccak db) (fuel : Nat) (hfuel : 2 * key.length + 1 < fuel) :
    ∃ puts rh, prove keccak t.root key 0 = some puts ∧ rootHash keccak t.root = some rh ∧
      (verifyProof (putAll db puts) rh key fuel =
          some (.ok ((t.get key).map (List.map UInt8.toNat))) ∨
        ∃ p ∈ puts, ∃ q ∈ puts, q.2 ≠ p.2 ∧ keccak q.2 = keccak p.2) := by
  have hm := TrieRoot.decodable ht hne
  have hhex := term_keybytesToHex key
  obtain ⟨ps, hps⟩ := Option.isSome_iff_exists.mp (hm.proofPath_isSome hhex)
  obtain ⟨rest, rfl⟩ := hm.proofPath_eq_cons hhex.ne_nil hps
  refine ⟨proofWrites keccak (t.root :: rest) 0, _, by rw [prove, hps]; rfl, hm.rootHash_eq, ?_⟩
  -- the store with the proof written is well keyed and holds the root and every node stored apart
  have hwrites : ∀ p ∈ proofWrites keccak (t.root :: rest) 0, keccak p.2 = p.1 :=
    fun p hp => proofWrites_wellKeyed hp
  have hdb' : WellKeyed keccak (putAll db (proofWrites keccak (t.root :: rest) 0)) :=
    hdb.putAll hwrites
  have hheld : ∀ n ∈ t.root :: rest, ∀ h, n.hash keccak false = .hash h →
      (putAll db (proofWrites keccak (t.root :: rest) 0) h).isSome :=
    fun n hn h hh => putAll_isSome (mem_proofWrites_of_hash hn hh)
  have hroot : (putAll db (proofWrites keccak (t.root :: rest) 0)
      (keccak (t.root.collapse keccak).encode)).isSome :=
    putAll_isSome (mem_proofWrites_head t.root rest)
  refine (verifyLoop_complete hk hdb' fuel 0 hm hhex (by rw [length_keybytesToHex]; omega) hps
    hheld hroot).imp_right fun hcol => ?_
  -- every hash the loop reads was written, so a collision there is between two writes
  obtain ⟨p, hp, hpcol⟩ := hcol.proofWrites
  exact ⟨p, hp, putAll_collidesAt hwrites hp hpcol⟩

/-- The proof of a leaf's key, under a hash that sums the bytes. -/
theorem verifyProof_prove_leaf :
    ∃ puts rh, prove (fun b => b.sum % 2 ^ 256) (TrieRoot.leaf [1] [5]).root [1] 0 = some puts ∧
      rootHash (fun b => b.sum % 2 ^ 256) (TrieRoot.leaf [1] [5]).root = some rh ∧
      (verifyProof (putAll (fun _ => none) puts) rh [1] 4 =
          some (.ok (((TrieRoot.leaf [1] [5]).get [1]).map (List.map UInt8.toNat))) ∨
        ∃ p ∈ puts, ∃ q ∈ puts, q.2 ≠ p.2 ∧ q.2.sum % 2 ^ 256 = p.2.sum % 2 ^ 256) :=
  verifyProof_prove (fun _ => Nat.mod_lt _ (Nat.two_pow_pos 256))
    (TrieRoot.leaf_sized (by decide) (by decide) (by decide)) (by simp [TrieRoot.leaf]) [1]
    wellKeyed_empty 4 (by decide)

/-- Soundness: whatever a well-keyed store holds, a value or an absence `VerifyProof` returns for
    a key from a trie's root hash is the trie's, unless the store holds, under the hash of one of
    the encodings of the key's proof, other bytes with the same hash.  The empty trie's root hash
    names the encoding of the empty string, which decodes to no node. -/
theorem verifyProof_sound (hk : ∀ b, keccak b < 2 ^ 256)
    (hempty : keccak (Item.str []).encode = emptyRoot) {t : TrieRoot} (ht : t.Sized) {rh : Hash}
    (hrh : rootHash keccak t.root = some rh) {db : Hash → Option (List Nat)}
    (hdb : WellKeyed keccak db) (key : List UInt8) (fuel : Nat) {res : Option (List Nat)}
    (h : verifyProof db rh key fuel = some (.ok res)) :
    res = (t.get key).map (List.map UInt8.toNat) ∨
      ∃ enc ∈ t.proofEncodings keccak key, CollidesAt keccak db enc := by
  by_cases hne : t.root = .nil
  · rw [hne] at hrh
    cases hrh
    rw [verifyProof, ← hempty] at h
    cases fuel with
    | zero => cases h
    | succ fuel =>
      cases hbuf : db (keccak (Item.str []).encode) with
      | none =>
        rw [verifyLoop, hbuf] at h
        cases h
      | some buf =>
        rcases hdb.eq_or_collidesAt hbuf with rfl | hcol
        · have hbad : decodeNode (Item.str []).encode.length (Item.str []).encode =
              .error (.decode .expectedList) := rfl
          rw [verifyLoop_bad hbuf hbad] at h
          cases h
        · refine .inr ⟨_, ?_, hcol⟩
          simp [TrieRoot.proofEncodings, hne]
  · have hm := TrieRoot.decodable ht hne
    have hhex := term_keybytesToHex key
    obtain ⟨ps, hps⟩ := Option.isSome_iff_exists.mp (hm.proofPath_isSome hhex)
    obtain ⟨rest, rfl⟩ := hm.proofPath_eq_cons hhex.ne_nil hps
    rw [hm.rootHash_eq] at hrh
    cases hrh
    refine (verifyLoop_sound hk hdb fuel 0 hm hhex hps h).imp_right fun hcol => ?_
    -- the collision is at an encoding of the proof
    obtain ⟨p, hp, hpcol⟩ := hcol.proofWrites
    have hprove : prove keccak t.root key 0 = some (proofWrites keccak (t.root :: rest) 0) := by
      rw [prove, hps]
      rfl
    refine ⟨p.2, ?_, hpcol⟩
    unfold TrieRoot.proofEncodings
    split
    · exact absurd ‹_› hne
    · rw [hprove]
      exact List.mem_map_of_mem hp

set_option maxRecDepth 20000 in
/-- A leaf's value read through its proof, under a hash that sums the bytes and names the empty
    string by the empty root. -/
theorem verifyProof_sound_leaf :
    some [5] = ((TrieRoot.leaf [1] [5]).get [1]).map (List.map UInt8.toNat) ∨
      ∃ enc ∈ (TrieRoot.leaf [1] [5]).proofEncodings
          (fun b => if b = [0x80] then emptyRoot else b.sum % 2 ^ 256) [1],
        CollidesAt (fun b => if b = [0x80] then emptyRoot else b.sum % 2 ^ 256)
          (putAll (fun _ => none) (proofWrites
            (fun b => if b = [0x80] then emptyRoot else b.sum % 2 ^ 256)
            [(TrieRoot.leaf [1] [5]).root] 0)) enc :=
  @verifyProof_sound (fun b => if b = [0x80] then emptyRoot else b.sum % 2 ^ 256)
    (fun b => by split_ifs <;> simp [emptyRoot, Nat.mod_lt]) (by decide) (TrieRoot.leaf [1] [5])
    (TrieRoot.leaf_sized (by decide) (by decide) (by decide)) 364 rfl
    (putAll (fun _ => none) (proofWrites
      (fun b => if b = [0x80] then emptyRoot else b.sum % 2 ^ 256) [(TrieRoot.leaf [1] [5]).root] 0))
    (wellKeyed_empty.putAll fun _ hp => proofWrites_wellKeyed hp) [1] 4 (some [5]) rfl

end Verify

end QuorumHotstuff.Trie
