import QuorumHotstuff.Lib.Rlp

/-!
# Signing legacy transactions, public and private

`core/types/transaction_signing.go` and `transaction_signing_private.go` for legacy transactions:
`SignTx` hashes the transaction as the signer does, signs the hash, and lets the signer turn the
recovery id into the value `V`: `35 + 2·chainId + id` under EIP-155 (and the EIP-2930 signer, which
signs a legacy transaction as EIP-155 does), `27 + id` under Homestead, `37 + id` for Quorum's
private transactions.  `Sender` undoes it.

Privacy is read from `V` in three ways: `Transaction.IsPrivate` compares the low 64 bits of `V`
with 37 and 38, `recoverPlain`'s `isPrivate` compares `V` itself, and `deriveChainId` takes
`(V - 35) / 2` in 64-bit arithmetic when `V` fits.  Chain id 1 makes EIP-155's values 37 and 38,
which `eth/backend.go` refuses; but its check reads the chain id through `Int64()`, and the chain
id `2^63 + 1` passes it while its EIP-155 values are `2^64 + 37` and `2^64 + 38`, which
`IsPrivate` takes for private ones.

ECDSA over secp256k1 and Keccak enter as a structure whose laws say that `crypto.Sign` gives a
valid signature with recovery id 0 or 1 and that `Ecrecover` returns the signer's address.
-/

namespace QuorumHotstuff.Types

open QuorumHotstuff.Lib.Rlp

/-- The order of secp256k1. -/
def secp256k1N : Nat := 0xfffffffffffffffffffffffffffffffebaaedce6af48a03bbfd25e8cd0364141

def secp256k1halfN : Nat := secp256k1N / 2

/-- `crypto.ValidateSignatureValues`. -/
def validateSignatureValues (v r s : Nat) (homestead : Bool) : Bool :=
  if r < 1 ∨ s < 1 then false
  -- reject upper range of s values (ECDSA malleability)
  else if homestead ∧ s > secp256k1halfN then false
  else r < secp256k1N ∧ s < secp256k1N ∧ (v = 0 ∨ v = 1 ∨ v = 10 ∨ v = 11)

/-- A 65-byte `[R || S || V]` signature; `v` is the byte `sig[64]`. -/
structure Signature where
  r : Nat
  s : Nat
  v : Nat
deriving DecidableEq, Repr

/-- Keccak and ECDSA over secp256k1: `crypto.Sign` gives a valid signature whose recovery id is 0
or 1, and `crypto.Ecrecover` (with the public-key check and `PubkeyToAddress` of `recoverPlain`)
inverts it. -/
structure Secp256k1 (Key Hash Address : Type) where
  keccak256 : List Nat → Hash
  sign : Hash → Key → Signature
  ecrecover : Hash → Signature → Option Address
  pubkeyToAddress : Key → Address
  sign_v : ∀ h k, (sign h k).v < 2
  sign_valid : ∀ h k, validateSignatureValues (sign h k).v (sign h k).r (sign h k).s true = true
  ecrecover_sign : ∀ h k, ecrecover h (sign h k) = some (pubkeyToAddress k)

/-- `types.LegacyTx`; `recipient` is the field `To`, nil for a contract creation, and `v`, `r`,
    `s` are the signature values. -/
structure LegacyTx where
  nonce : Nat
  gasPrice : Nat
  gas : Nat
  recipient : Option Nat
  value : Nat
  data : List Nat
  v : Nat
  r : Nat
  s : Nat
deriving DecidableEq, Repr

/-- The signers a legacy transaction meets. -/
inductive Signer where
  | eip155 (chainId : Nat)
  | eip2930 (chainId : Nat)
  | homestead
  | quorumPrivate
deriving DecidableEq, Repr

/-- The errors of `Sender`: `ErrInvalidSig`, `ErrInvalidChainId`, and a failed `Ecrecover` or
    public key. -/
inductive SignerError where
  | invalidSig
  | invalidChainId
  | recover
deriving DecidableEq, Repr

variable {Key Hash Address : Type} (C : Secp256k1 Key Hash Address)

namespace LegacyTx

/-- The fields every signer hashes: `to` is a pointer, empty when nil. -/
def fields (tx : LegacyTx) : List Item :=
  [.num tx.nonce, .num tx.gasPrice, .num tx.gas, Item.ofPtr .string (Item.fixed 20) tx.recipient,
    .num tx.value, .str tx.data]

/-- `Transaction.IsPrivate`: the low 64 bits of `V` (`Uint64()`) are 37 or 38. -/
def isPrivate (tx : LegacyTx) : Bool := tx.v % 2 ^ 64 == 37 || tx.v % 2 ^ 64 == 38

end LegacyTx

/-- `isProtectedV`: a value of at most eight bits other than 27, 28, 1 and 0, or any longer one. -/
def isProtectedV (v : Nat) : Bool :=
  if v < 2 ^ 8 then v != 27 && v != 28 && v != 1 && v != 0 else true

/-- `deriveChainId`, in 64-bit arithmetic when `v` fits. -/
def deriveChainId (v : Nat) : Nat :=
  if v < 2 ^ 64 then
    if v = 27 ∨ v = 28 then 0 else ((v + 2 ^ 64 - 35) % 2 ^ 64) / 2
  else (v - 35) / 2

/-- `isPrivate` of `recoverPlain`: exactly 37 or 38. -/
def isPrivate (v : Int) : Bool := v == 37 || v == 38

/-- `recoverPlain`: the value must have at most eight bits; the offset is 37 for a private value
    and 27 otherwise, subtracted in 64 bits and cut to a byte. -/
def recoverPlain (sighash : Hash) (R S : Nat) (Vb : Int) (homestead : Bool) :
    Except SignerError Address :=
  if 2 ^ 8 ≤ Vb.natAbs then .error .invalidSig
  else
    let offset := if isPrivate Vb then 37 else 27
    let V := ((Vb.natAbs + 2 ^ 64 - offset) % 2 ^ 64) % 2 ^ 8
    if !validateSignatureValues V R S homestead then .error .invalidSig
    else match C.ecrecover sighash ⟨R, S, V⟩ with
      | some addr => .ok addr
      | none => .error .recover

namespace Signer

/-- `Hash`: EIP-155 and the EIP-2930 signer append the chain id and two zeros to a legacy
    transaction's fields; Homestead and the private signer hash the fields alone. -/
def hash : Signer → LegacyTx → Hash
  | .eip155 chainId, tx | .eip2930 chainId, tx =>
    C.keccak256 (Item.list (tx.fields ++ [.num chainId, .num 0, .num 0])).encode
  | .homestead, tx | .quorumPrivate, tx => C.keccak256 (Item.list tx.fields).encode

/-- `decodeSignature`: `V` is the recovery id plus 27, in byte arithmetic. -/
def decodeSignature (sig : Signature) : Nat × Nat × Nat := (sig.r, sig.s, (sig.v + 27) % 2 ^ 8)

/-- `EIP155Signer.SignatureValues`: `35 + id` in byte arithmetic, plus twice the chain id, unless
    the chain id is zero. -/
def eip155SignatureValues (chainId : Nat) (sig : Signature) : Nat × Nat × Nat :=
  if chainId ≠ 0 then (sig.r, sig.s, (sig.v + 35) % 2 ^ 8 + 2 * chainId) else decodeSignature sig

/-- `SignatureValues` for a legacy transaction. -/
def signatureValues : Signer → Signature → Nat × Nat × Nat
  | .eip155 chainId, sig => eip155SignatureValues chainId sig
  -- the EIP-2930 signer hands a legacy transaction to EIP-155
  | .eip2930 chainId, sig => eip155SignatureValues chainId sig
  | .homestead, sig => decodeSignature sig
  -- the private marker: 37 or 38
  | .quorumPrivate, sig => (sig.r, sig.s, (sig.v + 37) % 2 ^ 8)

/-- `HomesteadSigner.Sender`, to which `QuorumPrivateTxSigner.Sender` defers. -/
def homesteadSender (tx : LegacyTx) : Except SignerError Address :=
  recoverPlain C (Signer.homestead.hash C tx) tx.r tx.s tx.v true

/-- The EIP-155 recovery of `EIP155Signer.Sender` and of `eip2930Signer.Sender` on a legacy
    transaction: a private transaction goes to the private signer, an unprotected one to
    Homestead; otherwise the chain id must match and `V - 2·chainId - 8` is recovered. -/
def eip155Sender (signer : Signer) (chainId : Nat) (tx : LegacyTx) : Except SignerError Address :=
  if tx.isPrivate then homesteadSender C tx
  else if !isProtectedV tx.v then homesteadSender C tx
  else if deriveChainId tx.v ≠ chainId then .error .invalidChainId
  else recoverPlain C (signer.hash C tx) tx.r tx.s ((tx.v : Int) - 2 * chainId - 8) true

/-- `ChainID`: the Homestead signer, and the private signer that embeds it, have none. -/
def chainID : Signer → Option Nat
  | .eip155 chainId | .eip2930 chainId => some chainId
  | .homestead | .quorumPrivate => none

/-- `Sender` for a legacy transaction. -/
def sender : Signer → LegacyTx → Except SignerError Address
  | .eip155 chainId, tx => eip155Sender C (.eip155 chainId) chainId tx
  | .eip2930 chainId, tx => eip155Sender C (.eip2930 chainId) chainId tx
  | .homestead, tx => homesteadSender C tx
  | .quorumPrivate, tx => homesteadSender C tx

end Signer

/-- `WithSignature`: the signer's values replace the transaction's. -/
def LegacyTx.withSignature (tx : LegacyTx) (signer : Signer) (sig : Signature) : LegacyTx :=
  let values := signer.signatureValues sig
  { tx with r := values.1, s := values.2.1, v := values.2.2 }

/-- `SignTx`. -/
def signTx (tx : LegacyTx) (signer : Signer) (key : Key) : LegacyTx :=
  tx.withSignature signer (C.sign (signer.hash C tx) key)

/-- `ChainID.Int64()`: the low 64 bits read as a signed number. -/
def bigInt64 (x : Nat) : Int := if x % 2 ^ 64 < 2 ^ 63 then x % 2 ^ 64 else x % 2 ^ 64 - 2 ^ 64

/-- The chain-id check of `eth/backend.go`: "Cannot have chain id or network id as 1." -/
def chainIdAllowed (chainId : Nat) : Bool := bigInt64 chainId != 1

/-! ## Recovering what was signed -/

section Recover

variable {C}

@[simp] theorem hash_withSignature (signer signer' : Signer) (tx : LegacyTx) (sig : Signature) :
    signer.hash C (tx.withSignature signer' sig) = signer.hash C tx := by
  cases signer <;> rfl

/-- `recoverPlain` returns the signer's address when the byte it recovers is the signature's
    recovery id. -/
theorem recoverPlain_sign {h : Hash} {k : Key} {Vb : Int} (hlt : Vb.natAbs < 2 ^ 8)
    (hbyte : ((Vb.natAbs + 2 ^ 64 - (if isPrivate Vb then 37 else 27)) % 2 ^ 64) % 2 ^ 8 =
      (C.sign h k).v) :
    recoverPlain C h (C.sign h k).r (C.sign h k).s Vb true = .ok (C.pubkeyToAddress k) := by
  unfold recoverPlain
  rw [if_neg (by omega)]
  simp only [hbyte, C.sign_valid, Bool.not_true, Bool.false_eq_true, if_false]
  rw [C.ecrecover_sign]

/-- Homestead's values, 27 and 28, recover the signer. -/
theorem recoverPlain_homestead (h : Hash) (k : Key) :
    recoverPlain C h (C.sign h k).r (C.sign h k).s ((27 + (C.sign h k).v : Nat) : Int) true =
      .ok (C.pubkeyToAddress k) := by
  have hv := C.sign_v h k
  apply recoverPlain_sign
  · omega
  · -- 27 and 28 are not private: the offset is 27
    rcases (show (C.sign h k).v = 0 ∨ (C.sign h k).v = 1 by omega) with hv0 | hv1
    · rw [hv0]; decide
    · rw [hv1]; decide

/-- The private values, 37 and 38, recover the signer. -/
theorem recoverPlain_private (h : Hash) (k : Key) :
    recoverPlain C h (C.sign h k).r (C.sign h k).s ((37 + (C.sign h k).v : Nat) : Int) true =
      .ok (C.pubkeyToAddress k) := by
  have hv := C.sign_v h k
  apply recoverPlain_sign
  · omega
  · rcases (show (C.sign h k).v = 0 ∨ (C.sign h k).v = 1 by omega) with hv0 | hv1
    · rw [hv0]; decide
    · rw [hv1]; decide

/-- The EIP-155 value of a recovery id below two under a non-zero chain id. -/
theorem eip155SignatureValues_v {chainId : Nat} (hc : chainId ≠ 0) {sig : Signature}
    (hv : sig.v < 2) : (Signer.eip155SignatureValues chainId sig).2.2 = 35 + sig.v + 2 * chainId := by
  simp only [Signer.eip155SignatureValues, if_pos hc]
  omega

/-- An EIP-155 value reads as private exactly when twice the chain id is 2 in 64 bits. -/
theorem isPrivate_eip155 {chainId id : Nat} (hid : id < 2) :
    ((35 + id + 2 * chainId) % 2 ^ 64 == 37 || (35 + id + 2 * chainId) % 2 ^ 64 == 38) =
      decide (chainId % 2 ^ 63 = 1) := by
  by_cases h : chainId % 2 ^ 63 = 1
  · rw [decide_eq_true h]
    simp only [Bool.or_eq_true, beq_iff_eq]
    omega
  · rw [decide_eq_false h]
    simp only [Bool.or_eq_false_iff, beq_eq_false_iff_ne, ne_eq]
    omega

/-- The EIP-155 recovery undoes the EIP-155 values when the chain id is neither zero nor one in
    63 bits. -/
theorem eip155Sender_signTx {signer : Signer} {chainId : Nat} (hc : chainId ≠ 0)
    (hc1 : chainId % 2 ^ 63 ≠ 1)
    (hvalues : signer.signatureValues = Signer.eip155SignatureValues chainId)
    (tx : LegacyTx) (k : Key) :
    Signer.eip155Sender C signer chainId (signTx C tx signer k) = .ok (C.pubkeyToAddress k) := by
  have hv := C.sign_v (signer.hash C tx) k
  have hV : (signTx C tx signer k).v = 35 + (C.sign (signer.hash C tx) k).v + 2 * chainId := by
    rw [signTx, LegacyTx.withSignature, hvalues]
    exact eip155SignatureValues_v hc hv
  have hpriv : (signTx C tx signer k).isPrivate = false := by
    rw [LegacyTx.isPrivate, hV, isPrivate_eip155 hv, decide_eq_false hc1]
  have hprot : isProtectedV (signTx C tx signer k).v = true := by
    rw [hV]; unfold isProtectedV; split_ifs <;> simp; omega
  have hchain : deriveChainId (signTx C tx signer k).v = chainId := by
    rw [hV]; unfold deriveChainId; split_ifs <;> omega
  -- `V - 2·chainId - 8` is Homestead's value
  have hsub : ((signTx C tx signer k).v : Int) - 2 * chainId - 8 =
      ((27 + (C.sign (signer.hash C tx) k).v : Nat) : Int) := by
    rw [hV]; push_cast; omega
  unfold Signer.eip155Sender
  rw [hpriv, hprot, hchain, hsub]
  simp only [Bool.false_eq_true, if_false, Bool.not_true, ne_eq, not_true_eq_false,
    hash_withSignature, signTx]
  simp only [LegacyTx.withSignature, hvalues, Signer.eip155SignatureValues, if_pos hc]
  exact recoverPlain_homestead _ k

/-- Every signer's `Sender` returns the address of the key `SignTx` signed with, unless its chain
    id is zero or one in 63 bits. -/
theorem sender_signTx (signer : Signer) (hchain : ∀ c ∈ signer.chainID, c ≠ 0 ∧ c % 2 ^ 63 ≠ 1)
    (tx : LegacyTx) (k : Key) :
    signer.sender C (signTx C tx signer k) = .ok (C.pubkeyToAddress k) := by
  cases signer with
  | eip155 c =>
    obtain ⟨hc, hc1⟩ := hchain c rfl
    exact eip155Sender_signTx hc hc1 rfl tx k
  | eip2930 c =>
    obtain ⟨hc, hc1⟩ := hchain c rfl
    exact eip155Sender_signTx hc hc1 rfl tx k
  | homestead =>
    have hv := C.sign_v (Signer.homestead.hash C tx) k
    simp only [Signer.sender, Signer.homesteadSender, signTx, hash_withSignature]
    have hV : ((Signer.decodeSignature (C.sign (Signer.homestead.hash C tx) k)).2.2 : Int) =
        ((27 + (C.sign (Signer.homestead.hash C tx) k).v : Nat) : Int) := by
      simp only [Signer.decodeSignature]; omega
    simp only [LegacyTx.withSignature, Signer.signatureValues, hV]
    exact recoverPlain_homestead _ k
  | quorumPrivate =>
    -- the private signer hashes as Homestead does, and recovers through Homestead
    have hv := C.sign_v (Signer.quorumPrivate.hash C tx) k
    have hhash : Signer.homestead.hash C tx = Signer.quorumPrivate.hash C tx := rfl
    simp only [Signer.sender, Signer.homesteadSender, signTx, hash_withSignature, hhash]
    have hV : (((C.sign (Signer.quorumPrivate.hash C tx) k).v + 37) % 2 ^ 8 : Nat) =
        37 + (C.sign (Signer.quorumPrivate.hash C tx) k).v := by omega
    simp only [LegacyTx.withSignature, Signer.signatureValues, hV]
    exact recoverPlain_private _ k

/-- EIP-155 values are private only for a chain id that is one in 63 bits. -/
theorem eip155SignatureValues_not_private {chainId : Nat} (hc1 : chainId % 2 ^ 63 ≠ 1)
    {sig : Signature} (hv : sig.v < 2) :
    ((Signer.eip155SignatureValues chainId sig).2.2 % 2 ^ 64 == 37 ||
      (Signer.eip155SignatureValues chainId sig).2.2 % 2 ^ 64 == 38) = false := by
  by_cases hc : chainId = 0
  · simp only [Signer.eip155SignatureValues, hc, ne_eq, not_true_eq_false, if_false,
      Signer.decodeSignature]
    simp only [Bool.or_eq_false_iff, beq_eq_false_iff_ne]
    omega
  · rw [eip155SignatureValues_v hc hv, isPrivate_eip155 hv, decide_eq_false hc1]

/-- A signed transaction reads as private exactly under the private signer, unless the chain id is
    one in 63 bits. -/
theorem isPrivate_signTx (signer : Signer) (hchain : ∀ c ∈ signer.chainID, c % 2 ^ 63 ≠ 1)
    (tx : LegacyTx) (k : Key) :
    (signTx C tx signer k).isPrivate = true ↔ signer = .quorumPrivate := by
  have hv := C.sign_v (signer.hash C tx) k
  cases signer with
  | eip155 c | eip2930 c =>
    simp only [signTx, LegacyTx.withSignature, LegacyTx.isPrivate, Signer.signatureValues,
      eip155SignatureValues_not_private (hchain c rfl) hv, Bool.false_eq_true, reduceCtorEq]
  | homestead =>
    simp only [signTx, LegacyTx.withSignature, Signer.signatureValues, Signer.decodeSignature,
      LegacyTx.isPrivate, reduceCtorEq, iff_false, Bool.or_eq_true, beq_iff_eq]
    omega
  | quorumPrivate =>
    simp only [signTx, LegacyTx.withSignature, Signer.signatureValues, LegacyTx.isPrivate,
      iff_true, Bool.or_eq_true, beq_iff_eq]
    omega

end Recover

/-! ## A public chain read as private -/

/-- The chain id `2^63 + 1` passes `eth/backend.go`'s check, which reads it through `Int64()` as
`-(2^63 - 1)`.  Its EIP-155 values are `2^64 + 37` and `2^64 + 38`, whose low 64 bits are the private
marker: the signed public transaction is private to `IsPrivate`, and `Sender` hands it to the
private signer, whose `recoverPlain` refuses a value of more than eight bits. -/
theorem eip155_tx_read_as_private (tx : LegacyTx) (k : Key) :
    chainIdAllowed (2 ^ 63 + 1) = true ∧
    (signTx C tx (.eip155 (2 ^ 63 + 1)) k).isPrivate = true ∧
    (Signer.eip155 (2 ^ 63 + 1)).sender C (signTx C tx (.eip155 (2 ^ 63 + 1)) k) =
      .error .invalidSig := by
  have hv := C.sign_v ((Signer.eip155 (2 ^ 63 + 1)).hash C tx) k
  have hV : (signTx C tx (.eip155 (2 ^ 63 + 1)) k).v =
      2 ^ 64 + 37 + (C.sign ((Signer.eip155 (2 ^ 63 + 1)).hash C tx) k).v := by
    simp only [signTx, LegacyTx.withSignature, Signer.signatureValues,
      eip155SignatureValues_v (show 2 ^ 63 + 1 ≠ 0 by decide) hv]
    omega
  have hpriv : (signTx C tx (.eip155 (2 ^ 63 + 1)) k).isPrivate = true := by
    simp only [LegacyTx.isPrivate, hV, Bool.or_eq_true, beq_iff_eq]
    omega
  refine ⟨by decide, hpriv, ?_⟩
  simp only [Signer.sender, Signer.eip155Sender, hpriv, if_true, Signer.homesteadSender,
    recoverPlain]
  rw [if_pos (by rw [hV]; omega)]

end QuorumHotstuff.Types
