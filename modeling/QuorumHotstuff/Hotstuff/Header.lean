import QuorumHotstuff.Hotstuff.Wire

/-!
# Block headers, their HotStuff extra data and their hash

`core/types/block.go` and `hotstuff_extra.go`.  A HotStuff header's extra data is a 32-byte
vanity followed by the RLP of a `HotstuffExtra`: the validators, the encoded commit certificate,
the proposer's seal and a salt.  `Header.Hash` of a header with the HotStuff mix digest hashes the
header with the certificate, seal and salt emptied, so that sealing a block keeps its hash.  The
Istanbul and QBFT filter of `istanbul.go` is a parameter here.
-/

namespace QuorumHotstuff.Hotstuff

open QuorumHotstuff.Lib.Rlp

/-- `types.HotstuffExtra`. -/
structure HotstuffExtra where
  validators : List Address
  encodedQC : Bytes
  /-- `Seal` (the word is a keyword here). -/
  proposerSeal : Bytes
  salt : Bytes
deriving DecidableEq, Repr

def HotstuffExtra.toItem (ex : HotstuffExtra) : Item :=
  .list [.list (ex.validators.map (.fixed 20)), .str ex.encodedQC, .str ex.proposerSeal,
    .str ex.salt]

def HotstuffExtra.ofItem : Item → Option HotstuffExtra
  | .list [.list vs, q, s, t] => do
    let validators ← vs.mapM (·.fixed? 20)
    let encodedQC ← q.bytes?
    let proposerSeal ← s.bytes?
    let salt ← t.bytes?
    pure ⟨validators, encodedQC, proposerSeal, salt⟩
  | _ => none

/-- `HotstuffExtraVanity`. -/
def hotstuffExtraVanity : Nat := 32

/-- `ExtractHotstuffExtraPayload`: the vanity, then exactly one RLP value. -/
def extractHotstuffExtra (extra : Bytes) : Option HotstuffExtra :=
  if extra.length < hotstuffExtraVanity then none
  else decodeAs HotstuffExtra.ofItem (extra.drop hotstuffExtraVanity)

/-- The extra data with its vanity kept and the RLP of `ex` after it. -/
def withExtra (extra : Bytes) (ex : HotstuffExtra) : Bytes :=
  extra.take hotstuffExtraVanity ++ ex.toItem.encode

/-- `types.Header`. -/
structure Header where
  parentHash : Hash
  uncleHash : Hash
  coinbase : Address
  root : Hash
  txHash : Hash
  receiptHash : Hash
  bloom : Bytes
  difficulty : Nat
  number : Nat
  gasLimit : Nat
  gasUsed : Nat
  time : Nat
  extra : Bytes
  mixDigest : Hash
  nonce : Nat
deriving DecidableEq, Repr

/-- The header's fields in order, as Go's struct encoding writes them. -/
def Header.toItem (h : Header) : Item :=
  .list [.fixed 32 h.parentHash, .fixed 32 h.uncleHash, .fixed 20 h.coinbase, .fixed 32 h.root,
    .fixed 32 h.txHash, .fixed 32 h.receiptHash, .str h.bloom, .num h.difficulty, .num h.number,
    .num h.gasLimit, .num h.gasUsed, .num h.time, .str h.extra, .fixed 32 h.mixDigest,
    .fixed 8 h.nonce]

/-- `HotstuffDigest`. -/
def hotstuffDigest : Hash := 2 ^ 256 - 1

/-- `IstanbulDigest`. -/
def istanbulDigest : Hash := 0x63746963616c2062797a616e74696e65206661756c7420746f6c6572616e6365

/-- `Header.SetSeal`. -/
def Header.setSeal (h : Header) (s : Bytes) : Option Header :=
  (extractHotstuffExtra h.extra).map fun ex =>
    { h with extra := withExtra h.extra ({ ex with proposerSeal := s }) }

/-- `Header.SetEncodedQC`. -/
def Header.setEncodedQC (h : Header) (encodedQC : Bytes) : Option Header :=
  (extractHotstuffExtra h.extra).map fun ex =>
    { h with extra := withExtra h.extra ({ ex with encodedQC }) }

/-- The extra data `HotstuffFilteredHeader` keeps: the certificate and salt emptied, the seal
    too unless kept. -/
def HotstuffExtra.filter (ex : HotstuffExtra) (keepSeal : Bool) : HotstuffExtra :=
  { ex with proposerSeal := if keepSeal then ex.proposerSeal else [], encodedQC := [], salt := [] }

/-- `HotstuffFilteredHeader`. -/
def hotstuffFilteredHeader (h : Header) (keepSeal : Bool) : Option Header :=
  (extractHotstuffExtra h.extra).map fun ex => { h with extra := withExtra h.extra (ex.filter keepSeal) }

/-- `rlpHash`. -/
def rlpHash (K : Crypto) (i : Item) : Hash := K.keccak i.encode

/-- `Header.Hash`, with `istanbul` standing for `FilteredHeader` of the Istanbul and QBFT extra. -/
def Header.hash (K : Crypto) (istanbul : Header → Option Header) (h : Header) : Hash :=
  if h.mixDigest = istanbulDigest then
    match istanbul h with
    | some f => rlpHash K f.toItem
    | none => rlpHash K h.toItem
  else if h.mixDigest = hotstuffDigest then
    match hotstuffFilteredHeader h false with
    | some f => rlpHash K f.toItem
    | none => rlpHash K h.toItem
  else rlpHash K h.toItem

/-- `Backend.SealBlock` on the block's header: the encoded commit certificate goes into the extra
    data. -/
def sealHeader (h : Header) (commitQC : QuorumCert) : Option Header :=
  h.setEncodedQC commitQC.toItem.encode

/-! ## Extra data round trips -/

theorem fixed?_lt {w n : Nat} {i : Item} (h : i.fixed? w = some n) : n < 256 ^ w := by
  cases i with
  | str bs =>
    simp only [Item.fixed?] at h
    split_ifs at h with hw
    cases h
    rw [← hw.1]
    exact beValue_lt (by simpa using hw.2)
  | list _ => simp [Item.fixed?] at h

theorem mapM_fixed?_lt {w : Nat} {items : List Item} {vs : List Nat}
    (h : items.mapM (·.fixed? w) = some vs) : ∀ v ∈ vs, v < 256 ^ w := by
  induction items generalizing vs with
  | nil =>
    simp only [List.mapM_nil, Option.pure_def, Option.some.injEq] at h
    simp [← h]
  | cons i items ih =>
    simp only [List.mapM_cons, Option.pure_def, Option.bind_eq_bind, Option.bind_eq_some_iff,
      Option.some.injEq] at h
    obtain ⟨v, hv, vs', hvs', rfl⟩ := h
    intro x hx
    rcases List.mem_cons.mp hx with rfl | hx
    · exact fixed?_lt hv
    · exact ih hvs' x hx

theorem mapM_fixed?_fixed {w : Nat} {vs : List Nat} (h : ∀ v ∈ vs, v < 256 ^ w) :
    (vs.map (Item.fixed w)).mapM (·.fixed? w) = some vs := by
  induction vs with
  | nil => rfl
  | cons v vs ih =>
    have hv := h v List.mem_cons_self
    have hvs := ih fun x hx => h x (List.mem_cons_of_mem v hx)
    simp [List.mapM_cons, fixed?_fixed hv, hvs]

theorem HotstuffExtra.ofItem_toItem {ex : HotstuffExtra} (h : ∀ v ∈ ex.validators, v < 256 ^ 20) :
    HotstuffExtra.ofItem ex.toItem = some ex := by
  simp [HotstuffExtra.ofItem, HotstuffExtra.toItem, mapM_fixed?_fixed h]

/-- Decoded validators are 20-byte addresses. -/
theorem HotstuffExtra.validators_lt {i : Item} {ex : HotstuffExtra}
    (h : HotstuffExtra.ofItem i = some ex) : ∀ v ∈ ex.validators, v < 256 ^ 20 := by
  unfold HotstuffExtra.ofItem at h
  split at h
  · rename_i vs q s t
    simp only [Option.pure_def, Option.bind_eq_bind, Option.bind_eq_some_iff] at h
    obtain ⟨validators, hvs, _, -, _, -, _, -, hex⟩ := h
    rw [← Option.some.inj hex]
    exact mapM_fixed?_lt hvs
  · cases h

theorem extractHotstuffExtra_length {extra : Bytes} {ex : HotstuffExtra}
    (h : extractHotstuffExtra extra = some ex) : hotstuffExtraVanity ≤ extra.length := by
  unfold extractHotstuffExtra at h
  split_ifs at h with hlt
  omega

theorem extractHotstuffExtra_validators_lt {extra : Bytes} {ex : HotstuffExtra}
    (h : extractHotstuffExtra extra = some ex) : ∀ v ∈ ex.validators, v < 256 ^ 20 := by
  unfold extractHotstuffExtra decodeAs at h
  split_ifs at h
  obtain ⟨i, -, hi⟩ := Option.bind_eq_some_iff.mp h
  exact HotstuffExtra.validators_lt hi

/-- Writing an extra back after a vanity-length prefix gives it back to the next extraction. -/
theorem extractHotstuffExtra_withExtra {extra : Bytes} {ex : HotstuffExtra}
    (hlen : hotstuffExtraVanity ≤ extra.length) (hv : ∀ v ∈ ex.validators, v < 256 ^ 20)
    (henc : ex.toItem.encode.length < 2 ^ 64) :
    extractHotstuffExtra (withExtra extra ex) = some ex := by
  have htake : (extra.take hotstuffExtraVanity).length = hotstuffExtraVanity := by
    simp [hlen]
  unfold extractHotstuffExtra withExtra
  rw [if_neg (by simp [htake]), List.drop_left' htake]
  exact decodeAs_encode henc (HotstuffExtra.ofItem_toItem hv)

/-- Filtering a header whose extra was rewritten from its own extraction depends only on the
    filtered extra. -/
theorem hotstuffFilteredHeader_withExtra {h : Header} {ex : HotstuffExtra}
    (hlen : hotstuffExtraVanity ≤ h.extra.length) (hv : ∀ v ∈ ex.validators, v < 256 ^ 20)
    (henc : ex.toItem.encode.length < 2 ^ 64) (keepSeal : Bool) :
    hotstuffFilteredHeader { h with extra := withExtra h.extra ex } keepSeal =
      some { h with extra := withExtra h.extra (ex.filter keepSeal) } := by
  unfold hotstuffFilteredHeader
  rw [extractHotstuffExtra_withExtra hlen hv henc]
  simp only [Option.map_some, Option.some.injEq, Header.mk.injEq, and_true, true_and]
  simp only [withExtra]
  rw [List.take_left' (by simp [hlen])]

/-- A header keeps its hash when its extra is replaced by one with the same filtered form. -/
theorem hash_withExtra (K : Crypto) (istanbul : Header → Option Header) {h : Header}
    {ex ex' : HotstuffExtra} (hd : h.mixDigest = hotstuffDigest)
    (hex : extractHotstuffExtra h.extra = some ex) (hv : ex'.validators = ex.validators)
    (henc : ex'.toItem.encode.length < 2 ^ 64) (hfilter : ex'.filter false = ex.filter false) :
    Header.hash K istanbul { h with extra := withExtra h.extra ex' } = Header.hash K istanbul h := by
  have hlen := extractHotstuffExtra_length hex
  have hfits := extractHotstuffExtra_validators_lt hex
  have hnot : hotstuffDigest ≠ istanbulDigest := by decide
  have hf : hotstuffFilteredHeader h false = some { h with extra := withExtra h.extra (ex.filter false) } := by
    simp [hotstuffFilteredHeader, hex]
  have hmix : ({ h with extra := withExtra h.extra ex' } : Header).mixDigest = hotstuffDigest := hd
  unfold Header.hash
  rw [if_neg (by rw [hmix]; exact hnot), if_pos hmix, if_neg (by rw [hd]; exact hnot), if_pos hd,
    hotstuffFilteredHeader_withExtra hlen (hv ▸ hfits) henc, hf, hfilter]

/-- Rewriting a HotStuff header's extra to one with the same validators and the same filtered form
    keeps the hash, and the next extraction reads the new extra. -/
theorem rewrite_extra_keeps_hash (K : Crypto) (istanbul : Header → Option Header) {h : Header}
    {ex ex' : HotstuffExtra} (hd : h.mixDigest = hotstuffDigest)
    (hex : extractHotstuffExtra h.extra = some ex) (hv : ex'.validators = ex.validators)
    (hfilter : ex'.filter false = ex.filter false) (henc : ex'.toItem.encode.length < 2 ^ 64) :
    Header.hash K istanbul { h with extra := withExtra h.extra ex' } = Header.hash K istanbul h ∧
      extractHotstuffExtra (withExtra h.extra ex') = some ex' :=
  ⟨hash_withExtra K istanbul hd hex hv henc hfilter,
    extractHotstuffExtra_withExtra (extractHotstuffExtra_length hex)
      (hv ▸ extractHotstuffExtra_validators_lt hex) henc⟩

/-- Sealing a HotStuff block keeps its identity: `SetSeal` and `SetEncodedQC` succeed on a header
    whose extra decodes, keep `Header.Hash`, and leave an extra that reads back with the new seal
    or certificate and everything else as it was; so does `SealBlock`. -/
theorem sealing_keeps_hash (K : Crypto) (istanbul : Header → Option Header) (h : Header)
    (ex : HotstuffExtra) (hd : h.mixDigest = hotstuffDigest)
    (hex : extractHotstuffExtra h.extra = some ex) :
    (∀ s : Bytes, ({ ex with proposerSeal := s } : HotstuffExtra).toItem.encode.length < 2 ^ 64 →
      ∃ h', h.setSeal s = some h' ∧ h'.hash K istanbul = h.hash K istanbul ∧
        extractHotstuffExtra h'.extra = some { ex with proposerSeal := s }) ∧
    (∀ q : Bytes, ({ ex with encodedQC := q } : HotstuffExtra).toItem.encode.length < 2 ^ 64 →
      ∃ h', h.setEncodedQC q = some h' ∧ h'.hash K istanbul = h.hash K istanbul ∧
        extractHotstuffExtra h'.extra = some { ex with encodedQC := q }) ∧
    (∀ qc : QuorumCert,
      ({ ex with encodedQC := qc.toItem.encode } : HotstuffExtra).toItem.encode.length < 2 ^ 64 →
      ∃ h', sealHeader h qc = some h' ∧ h'.hash K istanbul = h.hash K istanbul) := by
  have hqc : ∀ q : Bytes, ({ ex with encodedQC := q } : HotstuffExtra).toItem.encode.length < 2 ^ 64 →
      ∃ h', h.setEncodedQC q = some h' ∧ h'.hash K istanbul = h.hash K istanbul ∧
        extractHotstuffExtra h'.extra = some { ex with encodedQC := q } := by
    intro q henc
    -- the certificate is emptied by the filter, so the filtered extra is the old one
    obtain ⟨hhash, hread⟩ :=
      @rewrite_extra_keeps_hash K istanbul h ex { ex with encodedQC := q } hd hex rfl rfl henc
    exact ⟨_, by simp [Header.setEncodedQC, hex], hhash, hread⟩
  refine ⟨?_, hqc, ?_⟩
  · intro s henc
    -- the seal is emptied by the filter as well
    obtain ⟨hhash, hread⟩ :=
      @rewrite_extra_keeps_hash K istanbul h ex { ex with proposerSeal := s } hd hex rfl rfl henc
    exact ⟨_, by simp [Header.setSeal, hex], hhash, hread⟩
  · intro qc henc
    obtain ⟨h', hset, hhash, -⟩ := hqc qc.toItem.encode henc
    exact ⟨h', hset, hhash⟩

/-- The extra data of a fresh HotStuff header: validators `1..4`, nothing sealed yet. -/
def freshExtra : HotstuffExtra := ⟨[1, 2, 3, 4], [], [], []⟩

/-- A HotStuff header of height one proposed by validator 1. -/
def freshHeader : Header :=
  ⟨0, 0, 1, 0, 0, 0, [], 1, 1, 0, 0, 0, List.replicate 32 0 ++ freshExtra.toItem.encode,
    hotstuffDigest, 0⟩

set_option maxRecDepth 4096 in
theorem sealing_keeps_hash_example :
    (∃ h', freshHeader.setSeal [1, 7] = some h' ∧
      h'.hash namingCrypto (fun _ => none) = freshHeader.hash namingCrypto (fun _ => none) ∧
      extractHotstuffExtra h'.extra = some { freshExtra with proposerSeal := [1, 7] }) ∧
    (∃ h', freshHeader.setEncodedQC [0xC0] = some h' ∧
      h'.hash namingCrypto (fun _ => none) = freshHeader.hash namingCrypto (fun _ => none) ∧
      extractHotstuffExtra h'.extra = some { freshExtra with encodedQC := [0xC0] }) ∧
    (∃ h', sealHeader freshHeader ⟨⟨0, 1⟩, .commitVote, 5, 1, [1, 2, 3]⟩ = some h' ∧
      h'.hash namingCrypto (fun _ => none) = freshHeader.hash namingCrypto (fun _ => none)) := by
  have hex : extractHotstuffExtra freshHeader.extra = some freshExtra :=
    @extractHotstuffExtra_withExtra (List.replicate 32 0) freshExtra (by decide) (by decide)
      (by decide)
  have h := sealing_keeps_hash namingCrypto (fun _ => none) freshHeader freshExtra rfl hex
  exact ⟨h.1 [1, 7] (by decide), h.2.1 [0xC0] (by decide),
    h.2.2 ⟨⟨0, 1⟩, .commitVote, 5, 1, [1, 2, 3]⟩ (by decide)⟩

end QuorumHotstuff.Hotstuff
