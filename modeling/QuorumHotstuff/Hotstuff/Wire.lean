import QuorumHotstuff.Lib.Rlp
import QuorumHotstuff.Hotstuff.Types

/-!
# HotStuff types on the wire

The `EncodeRLP` and `DecodeRLP` methods of `consensus/hotstuff/types.go`, over the items of
`Lib.Rlp`: a view is the list of its round and height as big integers, a certificate, a vote, a
packaged certificate and a diploma are the lists of their fields, and a message is its code,
view, encoded payload, sender and signature.  `FromPayload` decodes a message, hashes it without
its signature (`PayloadNoSig`) and checks that the ECDSA signature recovers the sender; a
validator's `finalizeMessage` signs that hash and encodes the message.

A block is a `types.Block`, whose own RLP form (header, transactions and uncles) is not opened
here: it enters as a codec that round-trips.  A node without a block writes the nil block as the
empty list, which `Block.DecodeRLP` refuses.

Values round-trip when each field lies in its Go type (`uint64` codes, 32-byte hashes, 20-byte
addresses) and the encoding fits the `2^64` bytes an RLP header can state.
-/

namespace QuorumHotstuff.Hotstuff

open QuorumHotstuff.Lib.Rlp

/-- `types.Block`'s RLP form (`extblock`): a codec that round-trips and that refuses the empty
    list, which has none of the three fields `extblock` requires. -/
structure BlockCodec extends Codec Block where
  ofItem_nil : ofItem (.list []) = none

/-- The ECDSA and Keccak primitives behind the signer. -/
structure Crypto where
  /-- `crypto.Keccak256Hash`. -/
  keccak : List Nat → Hash
  /-- `crypto.Sign` of a hash with the key of the validator at the address. -/
  sign : Address → Hash → Bytes
  /-- `crypto.SigToPub` followed by `PubkeyToAddress`; `none` for a signature that does not
      recover. -/
  recover : Hash → Bytes → Option Address

/-! ## Items of the HotStuff types -/

/-- `View.EncodeRLP`: round, then height. -/
def View.toItem (v : View) : Item := .list [.num v.round, .num v.height]

/-- `View.DecodeRLP`. -/
def View.ofItem : Item → Option View
  | .list [r, h] => do
    let round ← r.bigInt?
    let height ← h.bigInt?
    pure ⟨round, height⟩
  | _ => none

/-- `QuorumCert.EncodeRLP`: view, code, node hash, proposer, aggregate signature. -/
def QuorumCert.toItem (qc : QuorumCert) : Item :=
  .list [qc.view.toItem, .num qc.code.val, .fixed 32 qc.proposedBlock, .fixed 20 qc.proposer,
    .str qc.blsSignature]

/-- `QuorumCert.DecodeRLP`. -/
def QuorumCert.ofItem : Item → Option QuorumCert
  | .list [v, c, h, p, s] => do
    let view ← View.ofItem v
    let code ← c.uint?
    let proposedBlock ← h.fixed? 32
    let proposer ← p.fixed? 20
    let sig ← s.bytes?
    pure ⟨view, ⟨code⟩, proposedBlock, proposer, sig⟩
  | _ => none

/-- `Vote.EncodeRLP`: code, view, node hash, signature share. -/
def Vote.toItem (v : Vote) : Item :=
  .list [.num v.code.val, v.view.toItem, .fixed 32 v.proposedBlock, .str v.blsSignature]

/-- `Vote.DecodeRLP`. -/
def Vote.ofItem : Item → Option Vote
  | .list [c, v, h, s] => do
    let code ← c.uint?
    let view ← View.ofItem v
    let proposedBlock ← h.fixed? 32
    let sig ← s.bytes?
    pure ⟨⟨code⟩, view, proposedBlock, sig⟩
  | _ => none

/-- `ProposedBlock.EncodeRLP`: parent hash, then the block (the empty list for a nil block). -/
def ProposedBlock.toItem (B : BlockCodec) (n : ProposedBlock) : Item :=
  .list [.fixed 32 n.parent, match n.block with | some b => B.toItem b | none => .list []]

/-- `ProposedBlock.DecodeRLP`. -/
def ProposedBlock.ofItem (B : BlockCodec) : Item → Option ProposedBlock
  | .list [p, b] => do
    let parent ← p.fixed? 32
    let block ← B.ofItem b
    pure ⟨parent, some block⟩
  | _ => none

/-- `PackagedQC`, encoded field by field: the node, then the certificate. -/
def packagedQCItem (B : BlockCodec) (n : ProposedBlock) (qc : QuorumCert) : Item :=
  .list [n.toItem B, qc.toItem]

def packagedQCOfItem (B : BlockCodec) : Item → Option (ProposedBlock × QuorumCert)
  | .list [n, q] => do
    let node ← ProposedBlock.ofItem B n
    let qc ← QuorumCert.ofItem q
    pure (node, qc)
  | _ => none

/-- `Diploma`, encoded field by field: the commit certificate, then the block hash. -/
def diplomaItem (qc : QuorumCert) (blockHash : Hash) : Item :=
  .list [qc.toItem, .fixed 32 blockHash]

def diplomaOfItem : Item → Option (QuorumCert × Hash)
  | .list [q, h] => do
    let qc ← QuorumCert.ofItem q
    let blockHash ← h.fixed? 32
    pure (qc, blockHash)
  | _ => none

/-- The `Msg` bytes of a payload. -/
def Payload.encode (B : BlockCodec) : Payload → Bytes
  | .qc q => q.toItem.encode
  | .packagedQC n q => (packagedQCItem B n q).encode
  | .vote v => v.toItem.encode
  | .diploma q h => (diplomaItem q h).encode
  | .raw bs => bs

/-! ## Round trips of the payload types -/

/-- Each field of a certificate lies in its Go type. -/
structure QuorumCert.Fits (qc : QuorumCert) : Prop where
  code : qc.code.val < 2 ^ 64
  proposedBlock : qc.proposedBlock < 256 ^ 32
  proposer : qc.proposer < 256 ^ 20

/-- Each field of a vote lies in its Go type. -/
structure Vote.Fits (v : Vote) : Prop where
  code : v.code.val < 2 ^ 64
  proposedBlock : v.proposedBlock < 256 ^ 32

@[simp] theorem View.ofItem_toItem (v : View) : View.ofItem v.toItem = some v := by
  simp [View.ofItem, View.toItem]

theorem QuorumCert.ofItem_toItem {qc : QuorumCert} (h : qc.Fits) :
    QuorumCert.ofItem qc.toItem = some qc := by
  simp [QuorumCert.ofItem, QuorumCert.toItem, uint?_num h.code, fixed?_fixed h.proposedBlock,
    fixed?_fixed h.proposer]

theorem Vote.ofItem_toItem {v : Vote} (h : v.Fits) : Vote.ofItem v.toItem = some v := by
  simp [Vote.ofItem, Vote.toItem, uint?_num h.code, fixed?_fixed h.proposedBlock]

theorem ProposedBlock.ofItem_toItem (B : BlockCodec) {n : ProposedBlock} {b : Block}
    (hb : n.block = some b) (hp : n.parent < 256 ^ 32) :
    ProposedBlock.ofItem B (n.toItem B) = some n := by
  obtain ⟨parent, block⟩ := n
  simp only at hb hp
  subst hb
  simp [ProposedBlock.ofItem, ProposedBlock.toItem, fixed?_fixed hp, B.ofItem_toItem]

/-- A node without a block does not survive the wire: its nil block is written as the empty list,
    which no block decodes from. -/
theorem ProposedBlock.ofItem_toItem_none (B : BlockCodec) (parent : Hash) :
    ProposedBlock.ofItem B ((⟨parent, none⟩ : ProposedBlock).toItem B) = none := by
  simp [ProposedBlock.ofItem, ProposedBlock.toItem, B.ofItem_nil]

theorem packagedQCOfItem_item (B : BlockCodec) {n : ProposedBlock} {b : Block}
    {qc : QuorumCert} (hb : n.block = some b) (hp : n.parent < 256 ^ 32) (hqc : qc.Fits) :
    packagedQCOfItem B (packagedQCItem B n qc) = some (n, qc) := by
  simp [packagedQCOfItem, packagedQCItem, ProposedBlock.ofItem_toItem B hb hp,
    QuorumCert.ofItem_toItem hqc]

theorem diplomaOfItem_item {qc : QuorumCert} {h : Hash} (hqc : qc.Fits) (hh : h < 256 ^ 32) :
    diplomaOfItem (diplomaItem qc h) = some (qc, h) := by
  simp [diplomaOfItem, diplomaItem, QuorumCert.ofItem_toItem hqc, fixed?_fixed hh]

/-! ## Messages: signing and `FromPayload` -/

/-- `hs.Message` on the wire, its payload still encoded. -/
structure WireMessage where
  address : Address
  code : MsgType
  view : View
  msg : Bytes
  signature : Bytes
deriving DecidableEq, Repr

/-- `Message.EncodeRLP`: code, view, payload, sender, signature. -/
def WireMessage.toItem (m : WireMessage) : Item :=
  .list [.num m.code.val, m.view.toItem, .str m.msg, .fixed 20 m.address, .str m.signature]

/-- `Message.DecodeRLP`. -/
def WireMessage.ofItem : Item → Option WireMessage
  | .list [c, v, p, a, s] => do
    let code ← c.uint?
    let view ← View.ofItem v
    let msg ← p.bytes?
    let address ← a.fixed? 20
    let sig ← s.bytes?
    pure ⟨address, ⟨code⟩, view, msg, sig⟩
  | _ => none

/-- `PayloadNoSig`: the message encoded with the zero address and an empty signature. -/
def WireMessage.payloadNoSig (m : WireMessage) : Bytes :=
  ({ m with address := emptyAddress, signature := [] } : WireMessage).toItem.encode

/-- The hash `PayloadNoSig` leaves in the message. -/
def WireMessage.hash (K : Crypto) (m : WireMessage) : Hash := K.keccak m.payloadNoSig

/-- `HotstuffSigner.Sign`: the empty hash is refused. -/
def signHash (K : Crypto) (signer : Address) (h : Hash) : Option Bytes :=
  if h = emptyHash then none else some (K.sign signer h)

/-- `finalizeMessage`: sign the hash of the unsigned message, then encode the signed message. -/
def finalizeMessage (K : Crypto) (signer : Address) (m : WireMessage) : Option Bytes :=
  (signHash K signer (m.hash K)).map fun sig =>
    ({ m with signature := sig } : WireMessage).toItem.encode

/-- `HotstuffSigner.CheckSignature`: the address a signature recovers, when it is a validator.  A
    decoded signature is never nil, so the nil check is left out. -/
def checkSignature (K : Crypto) (validators : List Address) (h : Hash) (sig : Bytes) :
    Option Address :=
  if h = emptyHash then none
  else match K.recover h sig with
    | some a => if a ∈ validators then some a else none
    | none => none

/-- `Message.FromPayload` with `checkValidatorSignature`: decode, hash without the signature, check
    that the signature recovers the sender, and set the sender's address.  A decoded view or
    payload is never nil, so those checks are left out. -/
def fromPayload (K : Crypto) (validators : List Address) (src : Address) (payload : Bytes) :
    Option (WireMessage × Hash) :=
  match decodeAs WireMessage.ofItem payload with
  | none => none
  | some m =>
    match checkSignature K validators (m.hash K) m.signature with
    | some signer => if signer = src then some ({ m with address := src }, m.hash K) else none
    | none => none

/-- Each field of a message lies in its Go type. -/
structure WireMessage.Fits (m : WireMessage) : Prop where
  code : m.code.val < 2 ^ 64
  address : m.address < 256 ^ 20

theorem WireMessage.ofItem_toItem {m : WireMessage} (h : m.Fits) :
    WireMessage.ofItem m.toItem = some m := by
  simp [WireMessage.ofItem, WireMessage.toItem, uint?_num h.code, fixed?_fixed h.address]

/-- The hash leaves out the signature. -/
@[simp] theorem WireMessage.hash_signature (K : Crypto) (m : WireMessage) (sig : Bytes) :
    ({ m with signature := sig } : WireMessage).hash K = m.hash K := rfl

theorem finalizeMessage_eq {K : Crypto} {signer : Address} {m : WireMessage} {payload : Bytes}
    (h : finalizeMessage K signer m = some payload) :
    m.hash K ≠ emptyHash ∧
      payload = ({ m with signature := K.sign signer (m.hash K) } : WireMessage).toItem.encode := by
  unfold finalizeMessage signHash at h
  by_cases hz : m.hash K = emptyHash
  · simp [hz] at h
  · simp only [if_neg hz, Option.map_some, Option.some.injEq] at h
    exact ⟨hz, h.symm⟩

theorem checkSignature_sign {K : Crypto} {validators : List Address} {src : Address} {h : Hash}
    (hrecover : K.recover h (K.sign src h) = some src) (hsrc : src ∈ validators)
    (hh : h ≠ emptyHash) : checkSignature K validators h (K.sign src h) = some src := by
  simp [checkSignature, hh, hrecover, hsrc]

/-- A message a validator signs comes out of `FromPayload` as it went in, with the same hash,
    the signature attached and the sender's address set. -/
theorem fromPayload_finalizeMessage (K : Crypto) {validators : List Address} {src : Address}
    {m : WireMessage} {payload : Bytes} (hrecover : ∀ h, K.recover h (K.sign src h) = some src)
    (hsrc : src ∈ validators) (hm : m.Fits) (hfin : finalizeMessage K src m = some payload)
    (hlen : payload.length < 2 ^ 64) :
    fromPayload K validators src payload =
      some ({ m with address := src, signature := K.sign src (m.hash K) }, m.hash K) := by
  obtain ⟨hne, rfl⟩ := finalizeMessage_eq hfin
  have hfits : ({ m with signature := K.sign src (m.hash K) } : WireMessage).Fits := ⟨hm.code, hm.address⟩
  have hdec := decodeAs_encode hlen (WireMessage.ofItem_toItem hfits)
  simp [fromPayload, hdec, checkSignature_sign (hrecover _) hsrc hne]

/-! ## What survives the wire -/

/-- A validator's signed message comes out of `FromPayload` with its code, view, payload and hash,
    and each payload type decodes from its encoding, a packaged certificate when its node carries a
    block. -/
theorem wire_round_trip (K : Crypto) (B : BlockCodec) :
    (∀ (validators : List Address) (src : Address) (m : WireMessage) (payload : Bytes),
      (∀ h, K.recover h (K.sign src h) = some src) → src ∈ validators → m.Fits →
      finalizeMessage K src m = some payload → payload.length < 2 ^ 64 →
      fromPayload K validators src payload =
        some ({ m with address := src, signature := K.sign src (m.hash K) }, m.hash K)) ∧
    (∀ qc : QuorumCert, qc.Fits → (Payload.encode B (.qc qc)).length < 2 ^ 64 →
      decodeAs QuorumCert.ofItem (Payload.encode B (.qc qc)) = some qc) ∧
    (∀ v : Vote, v.Fits → (Payload.encode B (.vote v)).length < 2 ^ 64 →
      decodeAs Vote.ofItem (Payload.encode B (.vote v)) = some v) ∧
    (∀ (n : ProposedBlock) (b : Block) (qc : QuorumCert), n.block = some b →
      n.parent < 256 ^ 32 → qc.Fits → (Payload.encode B (.packagedQC n qc)).length < 2 ^ 64 →
      decodeAs (packagedQCOfItem B) (Payload.encode B (.packagedQC n qc)) = some (n, qc)) ∧
    (∀ (qc : QuorumCert) (h : Hash), qc.Fits → h < 256 ^ 32 →
      (Payload.encode B (.diploma qc h)).length < 2 ^ 64 →
      decodeAs diplomaOfItem (Payload.encode B (.diploma qc h)) = some (qc, h)) := by
  refine ⟨fun _ _ _ _ hrec hsrc hm hfin hlen => fromPayload_finalizeMessage K hrec hsrc hm hfin hlen,
    fun _ hqc hlen => decodeAs_encode hlen (QuorumCert.ofItem_toItem hqc),
    fun _ hv hlen => decodeAs_encode hlen (Vote.ofItem_toItem hv),
    fun _ _ _ hb hp hqc hlen => decodeAs_encode hlen (packagedQCOfItem_item B hb hp hqc),
    fun _ _ hqc hh hlen => decodeAs_encode hlen (diplomaOfItem_item hqc hh)⟩

/-- Blocks as the list of the four fields the model keeps, each a big integer. -/
def fieldsBlockCodec : BlockCodec where
  toItem b := .list [.num b.number, .num b.parentHash, .num b.coinbase, .num b.hash]
  ofItem
    | .list [n, p, c, h] => do
      let number ← n.bigInt?
      let parentHash ← p.bigInt?
      let coinbase ← c.bigInt?
      let hash ← h.bigInt?
      pure ⟨number, parentHash, coinbase, hash⟩
    | _ => none
  ofItem_toItem b := by simp
  ofItem_nil := rfl

/-- Signatures that name their signer. -/
def namingCrypto : Crypto where
  keccak bs := bs.sum + 1
  sign a h := [a, h % 256]
  recover _ sig := sig.head?

theorem wire_round_trip_example :
    let m : WireMessage := ⟨0, .prepareVote, ⟨0, 1⟩, [0xC0], []⟩
    let qc : QuorumCert := ⟨⟨0, 1⟩, .prepareVote, 5, 1, []⟩
    let v : Vote := ⟨.prepareVote, ⟨0, 1⟩, 5, [1, 2]⟩
    let n : ProposedBlock := ⟨5, some ⟨1, 5, 1, 11⟩⟩
    fromPayload namingCrypto [1, 2] 1 ((finalizeMessage namingCrypto 1 m).getD []) =
      some ({ m with address := 1, signature := namingCrypto.sign 1 (m.hash namingCrypto) },
        m.hash namingCrypto) ∧
    decodeAs QuorumCert.ofItem (Payload.encode fieldsBlockCodec (.qc qc)) = some qc ∧
    decodeAs Vote.ofItem (Payload.encode fieldsBlockCodec (.vote v)) = some v ∧
    decodeAs (packagedQCOfItem fieldsBlockCodec) (Payload.encode fieldsBlockCodec (.packagedQC n qc)) =
      some (n, qc) ∧
    decodeAs diplomaOfItem (Payload.encode fieldsBlockCodec (.diploma qc 11)) = some (qc, 11) := by
  intro m qc v n
  have h := wire_round_trip namingCrypto fieldsBlockCodec
  have hqc : qc.Fits := ⟨by decide, by decide, by decide⟩
  exact ⟨h.1 [1, 2] 1 m _ (fun _ => rfl) (by decide) ⟨by decide, by decide⟩ (by decide) (by decide),
    h.2.1 qc hqc (by decide), h.2.2.1 v ⟨by decide, by decide⟩ (by decide),
    h.2.2.2.1 n ⟨1, 5, 1, 11⟩ qc rfl (by decide) hqc (by decide),
    h.2.2.2.2 qc 11 hqc (by decide) (by decide)⟩

/-- A packaged certificate whose node has no block does not decode from its encoding, whatever
    the block codec. -/
theorem packagedQC_without_block_none (B : BlockCodec) :
    decodeAs (packagedQCOfItem B)
      (Payload.encode B (.packagedQC ⟨5, none⟩ ⟨⟨0, 1⟩, .prepareVote, 5, 1, []⟩)) = none := by
  -- the nil block is the empty list, so the item does not depend on the codec
  have hitem : packagedQCItem B ⟨5, none⟩ ⟨⟨0, 1⟩, .prepareVote, 5, 1, []⟩ =
      .list [.list [.fixed 32 5, .list []], QuorumCert.toItem ⟨⟨0, 1⟩, .prepareVote, 5, 1, []⟩] :=
    rfl
  have hlen : (packagedQCItem B ⟨5, none⟩ ⟨⟨0, 1⟩, .prepareVote, 5, 1, []⟩).encode.length <
      2 ^ 64 := by
    rw [hitem]
    decide
  rw [Payload.encode, decodeAs, decode_encode _ hlen, Option.bind_some]
  simp [packagedQCOfItem, packagedQCItem, ProposedBlock.ofItem_toItem_none]

/-- The packaged certificate of a node without a block, under the codec of the round trip above,
    does not decode. -/
theorem packagedQC_without_block_fails :
    decodeAs (packagedQCOfItem fieldsBlockCodec)
      (Payload.encode fieldsBlockCodec (.packagedQC ⟨5, none⟩ ⟨⟨0, 1⟩, .prepareVote, 5, 1, []⟩)) =
      none :=
  packagedQC_without_block_none fieldsBlockCodec

end QuorumHotstuff.Hotstuff
