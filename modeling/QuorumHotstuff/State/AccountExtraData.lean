import QuorumHotstuff.Lib.Rlp

/-!
# Quorum's per-account extra data

`core/state/account_extra_data.go`: the RLP form of `AccountExtraData` (privacy metadata and
managed parties), stored in the account-extra-data trie and read back by
`getCommittedAccountExtraData` into a zero value, and the legacy form of `PrivacyMetadata` that the
trie held before managed parties were added.

`EncodeRLP` writes the creation hash and the privacy flag as two pointers tagged ``rlp:"nil"``,
then the managed parties.  `DecodeRLP` reads the two pointers, a tail of raw values, and the
managed parties from the first of them.  A nil pointer and the zero flag have the same form, the
empty string, so a standard-private flag would come back as no metadata at all; `EVM.create` stores
metadata only for the other flags.  An empty list of managed parties and the nil slice have the same
form too, and come back as the nil slice.

The decoders work on the item tree the stream reads (`Lib.Rlp.decode`); the tail's raw values after
the first are read whole there, where the stream only skips over them.
-/

namespace QuorumHotstuff.State

open QuorumHotstuff.Lib.Rlp

/-- `engine.PrivacyFlagType`. -/
abbrev PrivacyFlagType := UInt64

/-- `engine.PrivacyFlagStandardPrivate`. -/
def privacyFlagStandardPrivate : PrivacyFlagType := 0

def PrivacyFlagType.isStandardPrivate (f : PrivacyFlagType) : Bool :=
  f == privacyFlagStandardPrivate

def PrivacyFlagType.isNotStandardPrivate (f : PrivacyFlagType) : Bool :=
  !PrivacyFlagType.isStandardPrivate f

/-- `common.EncryptedPayloadHash`, a `[64]byte` read big-endian. -/
abbrev EncryptedPayloadHash := Fin (256 ^ 64)

/-- `state.PrivacyMetadata`. -/
structure PrivacyMetadata where
  creationTxHash : EncryptedPayloadHash
  privacyFlag : PrivacyFlagType
deriving DecidableEq, Repr

/-- `state.AccountExtraData`.  A party is a Go string, its bytes; `none` is the nil slice. -/
structure AccountExtraData where
  privacyMetadata : Option PrivacyMetadata
  managedParties : Option (List (List Nat))
deriving DecidableEq, Repr

/-- The privacy metadata `EVM.create` stores for a contract a private transaction creates: the
    payload's hash and the transaction's flag, unless the flag is standard private. -/
def createPrivacyMetadata (creationTxHash : EncryptedPayloadHash) (privacyFlag : PrivacyFlagType) :
    Option PrivacyMetadata :=
  if PrivacyFlagType.isNotStandardPrivate privacyFlag then some ⟨creationTxHash, privacyFlag⟩
  else none

/-! ## The two forms -/

namespace PrivacyMetadata

/-- `PrivacyMetadata.EncodeRLP`: `privacyMetadataRLP` with an empty tail. -/
def encodeRLP (p : PrivacyMetadata) : Item :=
  .list [.fixed 64 p.creationTxHash, .num p.privacyFlag.toNat]

/-- `PrivacyMetadata.DecodeRLP`: the two fields, then a tail of raw values. -/
def decodeRLP : Item → Option PrivacyMetadata
  | .list (creationTxHash :: privacyFlag :: _) => do
    let creationTxHash ← creationTxHash.array? 64
    let privacyFlag ← privacyFlag.uint64?
    pure ⟨creationTxHash, privacyFlag⟩
  | _ => none

end PrivacyMetadata

namespace AccountExtraData

/-- `AccountExtraData.EncodeRLP`. -/
def encodeRLP (qmd : AccountExtraData) : Item :=
  .list [Item.ofPtr .string (fun hash : EncryptedPayloadHash => .fixed 64 hash.val)
      (qmd.privacyMetadata.map (·.creationTxHash)),
    Item.ofPtr .string (fun flag => .num flag.toNat) (qmd.privacyMetadata.map (·.privacyFlag)),
    .list ((qmd.managedParties.getD []).map .str)]

/-- The metadata `DecodeRLP` builds from the two pointers: only when both are set. -/
def privacyMetadataOf : Option EncryptedPayloadHash → Option PrivacyFlagType → Option PrivacyMetadata
  | some creationTxHash, some privacyFlag => some ⟨creationTxHash, privacyFlag⟩
  | _, _ => none

/-- `AccountExtraData.DecodeRLP` into the zero value. -/
def decodeRLP : Item → Option AccountExtraData
  | .list (creationTxHash :: privacyFlag :: rest) => do
    let creationTxHash ← creationTxHash.ptr? .string (Item.array? 64)
    let privacyFlag ← privacyFlag.ptr? .string Item.uint64?
    match rest with
    | [] => pure ⟨privacyMetadataOf creationTxHash privacyFlag, none⟩
    | managedParties :: _ => do
      let managedParties ← managedParties.list? Item.bytes?
      -- the empty list and the nil slice have one form; both come back nil
      pure ⟨privacyMetadataOf creationTxHash privacyFlag,
        if managedParties.length = 0 then none else some managedParties⟩
  | _ => none

end AccountExtraData

/-! ## Round trips -/

open AccountExtraData

theorem PrivacyFlagType.toNat_ne_zero {f : PrivacyFlagType}
    (h : PrivacyFlagType.isNotStandardPrivate f = true) : f.toNat ≠ 0 := by
  intro h0
  have hf : f = 0 := UInt64.toNat_inj.mp h0
  simp [PrivacyFlagType.isNotStandardPrivate, PrivacyFlagType.isStandardPrivate,
    privacyFlagStandardPrivate, hf] at h

theorem privacyMetadataOf_map (pm : Option PrivacyMetadata) :
    privacyMetadataOf (pm.map (·.creationTxHash)) (pm.map (·.privacyFlag)) = pm := by
  cases pm <;> rfl

@[simp] theorem privacyMetadataOf_none (creationTxHash : Option EncryptedPayloadHash) :
    privacyMetadataOf creationTxHash none = none := by
  cases creationTxHash <;> rfl

/-- The managed parties read back as the list written. -/
theorem list?_managedParties (parties : List (List Nat)) :
    (Item.list (parties.map .str)).list? Item.bytes? = some parties :=
  @list?_list _ Item.bytes? Item.str (fun _ => rfl) parties

/-- The legacy form reads back whatever the flag. -/
theorem PrivacyMetadata.decodeRLP_encodeRLP (p : PrivacyMetadata) :
    PrivacyMetadata.decodeRLP p.encodeRLP = some p := by
  simp [PrivacyMetadata.decodeRLP, PrivacyMetadata.encodeRLP]

/-- The creation hash's pointer reads back: a hash is never the empty string. -/
theorem ptr?_creationTxHash (pm : Option PrivacyMetadata) :
    (Item.ofPtr .string (fun hash : EncryptedPayloadHash => .fixed 64 hash.val)
      (pm.map (·.creationTxHash))).ptr? .string
      (Item.array? 64) = some (pm.map (·.creationTxHash)) := by
  refine ptr?_ofPtr fun hash _ => ⟨array?_fixed hash, fixed_ne_nil (by decide) _, ?_⟩
  simp [Item.fixed]

/-- The flag's pointer reads back unless the flag is standard private. -/
theorem ptr?_privacyFlag {pm : Option PrivacyMetadata}
    (hflag : ∀ p ∈ pm, PrivacyFlagType.isNotStandardPrivate p.privacyFlag = true) :
    (Item.ofPtr .string (fun flag => .num flag.toNat) (pm.map (·.privacyFlag))).ptr? .string
      Item.uint64? = some (pm.map (·.privacyFlag)) := by
  refine ptr?_ofPtr fun flag hmem => ?_
  obtain ⟨p, hp, rfl⟩ := Option.mem_map.mp hmem
  refine ⟨uint64?_num _, num_ne_nil (PrivacyFlagType.toNat_ne_zero (hflag p hp)), ?_⟩
  simp [Item.num]

/-- A standard-private flag reads back as nil: its form is that of the nil pointer. -/
theorem ptr?_standardPrivate :
    (Item.num privacyFlagStandardPrivate.toNat).ptr? .string Item.uint64? = some none :=
  rfl

/-- What `DecodeRLP` reads from `EncodeRLP`'s form: the metadata when its flag is not standard
    private, and the managed parties with the empty list as nil. -/
theorem decodeRLP_encodeRLP (x : AccountExtraData)
    (hflag : ∀ p ∈ x.privacyMetadata, PrivacyFlagType.isNotStandardPrivate p.privacyFlag = true) :
    decodeRLP x.encodeRLP =
      some ⟨x.privacyMetadata, if x.managedParties.getD [] = [] then none else x.managedParties⟩ := by
  simp only [decodeRLP, encodeRLP, ptr?_creationTxHash, ptr?_privacyFlag hflag, list?_managedParties,
    privacyMetadataOf_map, Option.bind_eq_bind, Option.bind_some, List.length_eq_zero_iff]
  -- the nil slice and a non-empty list read back as themselves
  cases hmp : x.managedParties with
  | none => rfl
  | some parties => cases parties <;> rfl

/-- Metadata with a standard-private flag is lost: it reads back as none. -/
theorem decodeRLP_encodeRLP_standardPrivate (x : AccountExtraData) {p : PrivacyMetadata}
    (hp : x.privacyMetadata = some p) (hstd : p.privacyFlag = privacyFlagStandardPrivate) :
    (decodeRLP x.encodeRLP).map (·.privacyMetadata) = some none := by
  have hflag : (Item.ofPtr .string (fun flag => .num flag.toNat)
      (x.privacyMetadata.map (·.privacyFlag))).ptr? .string Item.uint64? = some none := by
    rw [hp, Option.map_some, Item.ofPtr, hstd]
    exact ptr?_standardPrivate
  simp only [decodeRLP, encodeRLP, ptr?_creationTxHash, hflag, list?_managedParties,
    privacyMetadataOf_none, Option.bind_eq_bind, Option.bind_some]
  rfl

/-- A legacy `PrivacyMetadata` read as `AccountExtraData`: the metadata, and no managed parties. -/
theorem decodeRLP_legacy (p : PrivacyMetadata)
    (hflag : PrivacyFlagType.isNotStandardPrivate p.privacyFlag = true) :
    decodeRLP p.encodeRLP = some ⟨some p, none⟩ := by
  have h := @ptr?_privacyFlag (some p) fun _ hq => (Option.mem_some_iff.mp hq) ▸ hflag
  simp only [Item.ofPtr, Option.map_some] at h
  simp only [decodeRLP, PrivacyMetadata.encodeRLP, h]
  have hh := ptr?_creationTxHash (some p)
  simp only [Item.ofPtr, Option.map_some] at hh
  simp only [hh, Option.bind_eq_bind, Option.bind_some]
  rfl

/-- Metadata `EVM.create` stores never has a standard-private flag. -/
theorem createPrivacyMetadata_flag (creationTxHash : EncryptedPayloadHash)
    (privacyFlag : PrivacyFlagType) :
    ∀ p ∈ createPrivacyMetadata creationTxHash privacyFlag,
      PrivacyFlagType.isNotStandardPrivate p.privacyFlag = true := by
  intro p hp
  unfold createPrivacyMetadata at hp
  split_ifs at hp with h
  · cases hp
    exact h
  · cases hp

/-! ## Bytes -/

/-- The legacy form is short: a 66-byte hash string, a flag of at most nine bytes, a header. -/
theorem PrivacyMetadata.encode_length_lt (p : PrivacyMetadata) :
    p.encodeRLP.encode.length < 2 ^ 64 := by
  have hhash := encodeString_length_le (beBytes 64 p.creationTxHash)
  have hflag := encodeString_length_le (natBytes p.privacyFlag.toNat)
  have h64 : byteLength 64 ≤ 8 := byteLength_le_eight (by decide)
  have hb := byteLength_le_eight p.privacyFlag.toNat_lt
  have hbb := byteLength_le_eight (show byteLength p.privacyFlag.toNat < 2 ^ 64 by omega)
  simp only [beBytes_length, natBytes_length] at hhash hflag
  simp only [PrivacyMetadata.encodeRLP, Item.encode, encodeItems, Item.fixed, Item.num,
    List.append_nil, List.length_append]
  -- the payload is under a hundred bytes, so its length takes one byte
  have hpay : (encodeString (beBytes 64 p.creationTxHash)).length +
      (encodeString (natBytes p.privacyFlag.toNat)).length < 2 ^ 64 := by omega
  have hhead := header_length_le 0xC0 ((encodeString (beBytes 64 p.creationTxHash)).length +
    (encodeString (natBytes p.privacyFlag.toNat)).length)
  have := byteLength_le_eight hpay
  omega

/-- The stored bytes read back: `AccountExtraData` whose metadata has a flag other than standard
private, with an empty list of managed parties coming back nil, and the legacy `PrivacyMetadata`
form as that metadata with no managed parties. -/
theorem account_extra_data_round_trip :
    (∀ x : AccountExtraData,
      (∀ p ∈ x.privacyMetadata, PrivacyFlagType.isNotStandardPrivate p.privacyFlag = true) →
      x.encodeRLP.encode.length < 2 ^ 64 →
      decodeAs decodeRLP x.encodeRLP.encode =
        some ⟨x.privacyMetadata, if x.managedParties.getD [] = [] then none else x.managedParties⟩) ∧
    (∀ p : PrivacyMetadata, PrivacyFlagType.isNotStandardPrivate p.privacyFlag = true →
      decodeAs decodeRLP p.encodeRLP.encode = some ⟨some p, none⟩) :=
  ⟨fun x hflag hlen => decodeAs_encode hlen (decodeRLP_encodeRLP x hflag),
    fun p hflag => decodeAs_encode (PrivacyMetadata.encode_length_lt p) (decodeRLP_legacy p hflag)⟩

/-- Party-protection metadata with an empty, non-nil list of managed parties: the list comes back
nil. -/
theorem account_extra_data_round_trip_empty_parties :
    decodeAs decodeRLP (AccountExtraData.encodeRLP ⟨some ⟨5, 1⟩, some []⟩).encode =
      some ⟨some ⟨5, 1⟩, none⟩ :=
  account_extra_data_round_trip.1 ⟨some ⟨5, 1⟩, some []⟩ (by decide) (by decide)

end QuorumHotstuff.State
