import QuorumHotstuff.Hotstuff.Header
import QuorumHotstuff.Hotstuff.Certify
import QuorumHotstuff.Hotstuff.Fork

/-!
# The header signer

`consensus/hotstuff/signer/signer.go`: recovering a header's proposer from its seal, with the
cache of recent recoveries, and `VerifyHeader`, which checks the proposer and, for a sealed
header, the commit certificate in its extra data.

The cache is keyed by `Header.Hash`, and a HotStuff header's hash leaves out the seal: two headers
that differ only in their seals share an entry, and the second is answered with the first one's
proposer.  `VerifyHeader` hands the decoded certificate to `AuthQC` alone, which passes any
certificate of height zero and compares neither the code nor the height with the header's.
The ARC cache's eviction is not modelled: it holds every entry, as it does below its 4096 slots.
-/

namespace QuorumHotstuff.Hotstuff

open QuorumHotstuff.Lib.Rlp

/-- The errors of the signer. -/
inductive SignerErr where
  | invalidExtraDataFormat
  | invalidRawHash
  | invalidSignature
  | invalidSigner
  | unauthorized
  | decode
  | authQC (e : Err)
deriving DecidableEq, Repr

/-- `getSignatureAddress`; a decoded seal is never nil, so that check is left out. -/
def getSignatureAddress (K : Crypto) (h : Hash) (sig : Bytes) : Except SignerErr Address :=
  if h = emptyHash then .error .invalidRawHash
  else match K.recover h sig with
    | some a => .ok a
    | none => .error .invalidSignature

/-- `HeaderHash`: the Keccak of the header filtered without its seal; a nil header, when the extra
    does not decode, encodes as the empty list. -/
def headerHash (K : Crypto) (h : Header) : Hash :=
  K.keccak (match hotstuffFilteredHeader h false with
    | some f => f.toItem.encode
    | none => (Item.list []).encode)

/-- The recovery `RecoverSigner` performs on a cache miss: the address the header's own seal
    recovers over its `HeaderHash`. -/
def recoverSeal (K : Crypto) (h : Header) : Except SignerErr Address :=
  match extractHotstuffExtra h.extra with
  | none => .error .invalidExtraDataFormat
  | some ex => getSignatureAddress K (headerHash K h) ex.proposerSeal

/-- `RecoverSigner` with the signature cache, keyed by `Header.Hash`. -/
def recoverSigner (K : Crypto) (istanbul : Header → Option Header) (cache : List (Hash × Address))
    (h : Header) : Except SignerErr Address × List (Hash × Address) :=
  let hash := h.hash K istanbul
  match cache.lookup hash with
  | some a => (.ok a, cache)
  | none =>
    match recoverSeal K h with
    | .error e => (.error e, cache)
    | .ok a => (.ok a, (hash, a) :: cache)

/-- Calls of `RecoverSigner` one after another, with their answers. -/
def recoverSigners (K : Crypto) (istanbul : Header → Option Header)
    (cache : List (Hash × Address)) : List Header → List (Except SignerErr Address)
  | [] => []
  | h :: hs =>
    let r := recoverSigner K istanbul cache h
    r.1 :: recoverSigners K istanbul r.2 hs

/-- `VerifyHeader`: the proposer recovered from the seal must be the coinbase and a validator;
    a sealed header's certificate must pass `AuthQC`. -/
def verifyHeader (E : Env) (K : Crypto) (istanbul : Header → Option Header)
    (cache : List (Hash × Address)) (h : Header) (valSet : List Address) (sealed : Bool) :
    Option SignerErr × List (Hash × Address) :=
  if u64 h.number = 0 then (none, cache)
  else
    let r := recoverSigner K istanbul cache h
    match r.1 with
    | .error e => (some e, r.2)
    | .ok signer =>
      if signer ≠ h.coinbase then (some .invalidSigner, r.2)
      else if signer ∉ valSet then (some .unauthorized, r.2)
      else if sealed then
        match extractHotstuffExtra h.extra with
        | none => (some .invalidExtraDataFormat, r.2)
        | some ex =>
          match decodeAs QuorumCert.ofItem ex.encodedQC with
          | none => (some .decode, r.2)
          | some qc => ((Core.authQC E qc).map .authQC, r.2)
      else (none, r.2)

/-! ## The cache answers for the seal it first saw -/

theorem recoverSigner_of_lookup {K : Crypto} {istanbul : Header → Option Header}
    {cache : List (Hash × Address)} {h : Header} {a : Address}
    (hit : cache.lookup (h.hash K istanbul) = some a) :
    recoverSigner K istanbul cache h = (.ok a, cache) := by
  simp [recoverSigner, hit]

theorem recoverSigner_of_recoverSeal {K : Crypto} {istanbul : Header → Option Header}
    {cache : List (Hash × Address)} {h : Header} {a : Address}
    (miss : cache.lookup (h.hash K istanbul) = none) (hrec : recoverSeal K h = .ok a) :
    recoverSigner K istanbul cache h = (.ok a, (h.hash K istanbul, a) :: cache) := by
  simp [recoverSigner, miss, hrec]

/-- Two seals of one HotStuff header: after the first recovers `a`, the second is answered with
    `a` as well, whatever it recovers itself. -/
theorem recoverSigners_setSeal (K : Crypto) (istanbul : Header → Option Header) {h : Header}
    {ex : HotstuffExtra} (hd : h.mixDigest = hotstuffDigest)
    (hex : extractHotstuffExtra h.extra = some ex) {s₁ s₂ : Bytes}
    (henc₁ : ({ ex with proposerSeal := s₁ } : HotstuffExtra).toItem.encode.length < 2 ^ 64)
    (henc₂ : ({ ex with proposerSeal := s₂ } : HotstuffExtra).toItem.encode.length < 2 ^ 64)
    {cache : List (Hash × Address)} (miss : cache.lookup (h.hash K istanbul) = none) {a : Address}
    (hrec : recoverSeal K { h with extra := withExtra h.extra { ex with proposerSeal := s₁ } } =
      .ok a) :
    recoverSigners K istanbul cache
      [{ h with extra := withExtra h.extra { ex with proposerSeal := s₁ } },
       { h with extra := withExtra h.extra { ex with proposerSeal := s₂ } }] = [.ok a, .ok a] := by
  -- both headers hash as `h` does: the filter empties the seal
  have hash₁ := (@rewrite_extra_keeps_hash K istanbul h ex { ex with proposerSeal := s₁ } hd hex rfl
    rfl henc₁).1
  have hash₂ := (@rewrite_extra_keeps_hash K istanbul h ex { ex with proposerSeal := s₂ } hd hex rfl
    rfl henc₂).1
  have miss₁ : cache.lookup
      (Header.hash K istanbul { h with extra := withExtra h.extra { ex with proposerSeal := s₁ } }) =
        none := by
    rw [hash₁]
    exact miss
  have first := recoverSigner_of_recoverSeal miss₁ hrec
  have hit : ((h.hash K istanbul, a) :: cache).lookup
      (Header.hash K istanbul { h with extra := withExtra h.extra { ex with proposerSeal := s₂ } }) =
        some a := by
    rw [hash₂]
    exact List.lookup_cons_self
  simp only [recoverSigners, first, hash₁]
  rw [recoverSigner_of_lookup hit]

theorem extractHotstuffExtra_fresh {ex : HotstuffExtra} (hv : ∀ v ∈ ex.validators, v < 256 ^ 20)
    (henc : ex.toItem.encode.length < 2 ^ 64) :
    extractHotstuffExtra (withExtra freshHeader.extra ex) = some ex :=
  extractHotstuffExtra_withExtra (by simp [freshHeader, hotstuffExtraVanity]) hv henc

/-- Signatures that name their signer recover the seal's first byte over any header hash. -/
theorem recoverSeal_naming {h : Header} {ex : HotstuffExtra} {a : Address} {rest : Bytes}
    (hex : extractHotstuffExtra h.extra = some ex) (hs : ex.proposerSeal = a :: rest) :
    recoverSeal namingCrypto h = .ok a := by
  simp [recoverSeal, hex, getSignatureAddress, headerHash, namingCrypto, emptyHash, hs]

/-- Validator 1's header of height one sealed with `s`. -/
def sealedWith (s : Bytes) : Header :=
  { freshHeader with extra := withExtra freshHeader.extra { freshExtra with proposerSeal := s } }

set_option maxRecDepth 4096 in
/-- A signer that recovers validator 1 from `sealedWith [1]` answers validator 1 again for
    `sealedWith [2]`, whose own seal recovers validator 2. -/
theorem recoverSigner_cache_ignores_seal :
    recoverSigners namingCrypto (fun _ => none) [] [sealedWith [1], sealedWith [2]] =
      [.ok 1, .ok 1] ∧
    recoverSeal namingCrypto (sealedWith [2]) = .ok 2 := by
  have hex : extractHotstuffExtra freshHeader.extra = some freshExtra :=
    @extractHotstuffExtra_withExtra (List.replicate 32 0) freshExtra (by decide) (by decide)
      (by decide)
  have hread₁ : extractHotstuffExtra (sealedWith [1]).extra =
      some { freshExtra with proposerSeal := [1] } :=
    extractHotstuffExtra_fresh (by decide) (by decide)
  have hread₂ : extractHotstuffExtra (sealedWith [2]).extra =
      some { freshExtra with proposerSeal := [2] } :=
    extractHotstuffExtra_fresh (by decide) (by decide)
  exact ⟨recoverSigners_setSeal namingCrypto (fun _ => none) rfl hex (by decide) (by decide) rfl
    (recoverSeal_naming hread₁ rfl), recoverSeal_naming hread₂ rfl⟩

/-! ## `VerifyHeader` and the certificate of a sealed header -/

/-- For a sealed header whose proposer checks out, `VerifyHeader` is `AuthQC` of the certificate in
    its extra data, and nothing else. -/
theorem verifyHeader_sealed {E : Env} {K : Crypto} {istanbul : Header → Option Header}
    {cache cache' : List (Hash × Address)} {h : Header} {valSet : List Address}
    {ex : HotstuffExtra} {qc : QuorumCert} (hnum : u64 h.number ≠ 0)
    (hrec : recoverSigner K istanbul cache h = (.ok h.coinbase, cache'))
    (hval : h.coinbase ∈ valSet) (hex : extractHotstuffExtra h.extra = some ex)
    (hqc : decodeAs QuorumCert.ofItem ex.encodedQC = some qc) :
    verifyHeader E K istanbul cache h valSet true = ((Core.authQC E qc).map .authQC, cache') := by
  simp [verifyHeader, hnum, hrec, hval, hex, hqc]

/-- Validator 1's header of height one, sealed by it, carrying `qc` as its commit certificate. -/
def certifiedWith (qc : QuorumCert) : Header :=
  { freshHeader with
    extra := withExtra freshHeader.extra
      { freshExtra with encodedQC := qc.toItem.encode, proposerSeal := [1] } }

/-- A certificate of height zero with no signature, and a prepare certificate of height one signed
    by three validators. -/
def heightZeroQC : QuorumCert := ⟨⟨0, 0⟩, .prepareVote, 5, 1, []⟩

def prepareQC : QuorumCert := ⟨⟨0, 1⟩, .prepareVote, 5, 1, [1, 2, 3]⟩

set_option maxRecDepth 4096 in
/-- `VerifyHeader` accepts a sealed header of height one whose certificate has height zero, the
    code of a prepare vote and no signature at all, and one whose certificate is only a prepare
    certificate of its height. -/
theorem verifyHeader_accepts_uncommitted :
    (verifyHeader Core.forkEnv namingCrypto (fun _ => none) [] (certifiedWith heightZeroQC)
      [1, 2, 3, 4] true).1 = none ∧
    (certifiedWith heightZeroQC).number = 1 ∧
    (extractHotstuffExtra (certifiedWith heightZeroQC).extra).bind
      (decodeAs QuorumCert.ofItem ·.encodedQC) = some heightZeroQC ∧
    heightZeroQC.code ≠ .commitVote ∧ heightZeroQC.view.height ≠ 1 ∧
    Core.forkEnv.blsVerifyAggSig ⟨heightZeroQC.code, heightZeroQC.view, heightZeroQC.proposedBlock, []⟩
      heightZeroQC.blsSignature = false ∧
    (verifyHeader Core.forkEnv namingCrypto (fun _ => none) [] (certifiedWith prepareQC)
      [1, 2, 3, 4] true).1 = none ∧
    (extractHotstuffExtra (certifiedWith prepareQC).extra).bind
      (decodeAs QuorumCert.ofItem ·.encodedQC) = some prepareQC ∧
    prepareQC.code ≠ .commitVote := by
  -- each header reads back its certificate and recovers validator 1, its coinbase
  have hv : ∀ v ∈ freshExtra.validators, v < 256 ^ 20 := by decide
  have hread : ∀ qc : QuorumCert, qc.Fits →
      ({ freshExtra with encodedQC := qc.toItem.encode, proposerSeal := [1] } :
        HotstuffExtra).toItem.encode.length < 2 ^ 64 →
      qc.toItem.encode.length < 2 ^ 64 →
      (extractHotstuffExtra (certifiedWith qc).extra).bind (decodeAs QuorumCert.ofItem ·.encodedQC) =
        some qc ∧
      (verifyHeader Core.forkEnv namingCrypto (fun _ => none) [] (certifiedWith qc) [1, 2, 3, 4]
        true).1 = (Core.authQC Core.forkEnv qc).map .authQC := by
    intro qc hfits henc hqlen
    have hex : extractHotstuffExtra (certifiedWith qc).extra =
        some { freshExtra with encodedQC := qc.toItem.encode, proposerSeal := [1] } :=
      extractHotstuffExtra_fresh hv henc
    have hqc : decodeAs QuorumCert.ofItem qc.toItem.encode = some qc :=
      decodeAs_encode hqlen (QuorumCert.ofItem_toItem hfits)
    have hrec := recoverSigner_of_recoverSeal (show List.lookup
      ((certifiedWith qc).hash namingCrypto (fun _ => none)) [] = none from rfl)
      (recoverSeal_naming hex rfl)
    refine ⟨by simp [hex, hqc], ?_⟩
    rw [verifyHeader_sealed (show u64 1 ≠ 0 by decide) hrec (show 1 ∈ [1, 2, 3, 4] by decide) hex hqc]
  obtain ⟨hd₀, hv₀⟩ := hread heightZeroQC ⟨by decide, by decide, by decide⟩ (by decide) (by decide)
  obtain ⟨hd₁, hv₁⟩ := hread prepareQC ⟨by decide, by decide, by decide⟩ (by decide) (by decide)
  refine ⟨by rw [hv₀]; decide, rfl, hd₀, by decide, by decide, by decide, by rw [hv₁]; decide, hd₁,
    by decide⟩

end QuorumHotstuff.Hotstuff
