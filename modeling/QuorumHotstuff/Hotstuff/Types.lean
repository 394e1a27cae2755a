import Mathlib.Data.BitVec
import Mathlib.Order.Basic

/-!
# HotStuff messages, views and certificates

`consensus/hotstuff/types.go` and `error.go`: message codes, round-state phases, views with
their `Cmp` and `Sub`, proposed blocks, quorum certificates, votes and the message wrapper that
carries them.  Hashes and addresses are natural numbers, `EmptyHash` and `EmptyAddress` being
zero.  A message's RLP payload is kept decoded: `Payload` has one constructor per Go type that
`Message.Decode` is asked for, so that decoding into the wrong type fails as RLP's shape check
does.  The external functions the core calls (Keccak, the backend, the BLS scheme) are the
fields of `Env`.
-/

namespace QuorumHotstuff.Hotstuff

abbrev Hash := Nat
abbrev Address := Nat
abbrev Bytes := List Nat

/-- `hs.EmptyHash`. -/
def emptyHash : Hash := 0

/-- `hs.EmptyAddress`. -/
def emptyAddress : Address := 0

/-- `big.Int.Uint64`: the low 64 bits of a non-negative big integer. -/
def u64 (x : Nat) : Nat := x % 2 ^ 64

/-- `big.Int.Int64`: the low 64 bits of the magnitude read in two's complement, negated (with
wrap-around) for a negative integer, as `int64(low64(x.abs))` followed by `v = -v`. -/
def i64 (x : Int) : Int :=
  (if x < 0 then -BitVec.ofNat 64 x.natAbs else BitVec.ofNat 64 x.natAbs).toInt

/-- `hs.MsgType`, a `uint64` with eight named codes. -/
structure MsgType where
  val : Nat
deriving DecidableEq, Repr

namespace MsgType

def unknown : MsgType := ⟨0⟩
def newView : MsgType := ⟨1⟩
def prepare : MsgType := ⟨2⟩
def prepareVote : MsgType := ⟨3⟩
def preCommit : MsgType := ⟨4⟩
def preCommitVote : MsgType := ⟨5⟩
def commit : MsgType := ⟨6⟩
def commitVote : MsgType := ⟨7⟩
def decide : MsgType := ⟨8⟩

end MsgType

/-- `MsgType.String`. -/
def MsgType.string (m : MsgType) : String :=
  match m.val with
  | 1 => "NewView"
  | 2 => "Prepare"
  | 3 => "PrepareVote"
  | 4 => "PreCommit"
  | 5 => "PreCommitVote"
  | 6 => "Commit"
  | 7 => "CommitVote"
  | 8 => "Decide"
  | _ => "Unknown"

/-- The `n` lowercase hex digits of `x`, zero-padded on the left: `hex.Encode` of its `n / 2`
big-endian bytes. -/
def hexDigits (n x : Nat) : List Char :=
  let ds := Nat.toDigits 16 (x % 16 ^ n)
  List.replicate (n - ds.length) '0' ++ ds

/-- What `Hash.Format` writes for `%v`: `0x` and the hex digits of the 32 bytes. -/
def hashHex (h : Hash) : String := String.ofList ('0' :: 'x' :: hexDigits 64 h)

/-- `Address.checksumHex`, what `Address.Format` writes for `%v` (EIP-55): `0x` and the hex digits
of the 20 bytes, a letter upper-cased where the nibble at its place in the Keccak-256 of the
lowercase digits is above seven. -/
def checksumHex (keccak : Bytes → Hash) (a : Address) : String :=
  let ds := hexDigits 40 a
  let sha := keccak (ds.map Char.toNat)
  String.ofList ('0' :: 'x' :: ds.zipIdx.map fun (ch, i) =>
    if ch > '9' ∧ sha / 16 ^ (63 - i) % 16 > 7 then ch.toUpper else ch)

/-- `hs.State`: the five phases a round state moves through. -/
inductive State where
  | acceptRequest
  | highQC
  | prepared
  | preCommitted
  | committed
deriving DecidableEq, Repr

/-- The `uint64` value of each phase, which `<` compares. -/
def State.toNat : State → Nat
  | .acceptRequest => 1
  | .highQC => 2
  | .prepared => 3
  | .preCommitted => 4
  | .committed => 5

instance : LT State := ⟨fun a b => a.toNat < b.toNat⟩

instance (a b : State) : Decidable (a < b) := inferInstanceAs (Decidable (a.toNat < b.toNat))

instance : LE State := ⟨fun a b => a.toNat ≤ b.toNat⟩

instance (a b : State) : Decidable (a ≤ b) := inferInstanceAs (Decidable (a.toNat ≤ b.toNat))

theorem State.toNat_injective : Function.Injective State.toNat := by
  intro a b h
  cases a <;> cases b <;> first | rfl | (simp [State.toNat] at h)

theorem State.lt_iff (a b : State) : a < b ↔ a.toNat < b.toNat := Iff.rfl

theorem State.le_iff (a b : State) : a ≤ b ↔ a.toNat ≤ b.toNat := Iff.rfl

/-- `hs.View`: a round number and a block height, both non-negative big integers. -/
structure View where
  round : Nat
  height : Nat
deriving DecidableEq, Repr

/-- `View.Cmp`: heights first, then rounds. -/
def View.cmp (v y : View) : Ordering :=
  if v.height ≠ y.height then compare v.height y.height else compare v.round y.round

/-- `View.Sub`: both differences, each truncated by `big.Int.Int64`. -/
def View.sub (v y : View) : Int × Int :=
  (i64 ((v.height : Int) - y.height), i64 ((v.round : Int) - y.round))

/-- The lexicographic order on views that `View.Cmp` decides. -/
def View.lt (v y : View) : Prop :=
  v.height < y.height ∨ (v.height = y.height ∧ v.round < y.round)

instance (v y : View) : Decidable (v.lt y) := inferInstanceAs (Decidable (_ ∨ _))

/-- `View.String`: `{Round: %d, Height: %d}` of the two `uint64`s. -/
def View.string (v : View) : String :=
  "\x7bRound: " ++ toString (u64 v.round) ++ ", Height: " ++ toString (u64 v.height) ++ "\x7d"

/-- The block fields the core reads: `NumberU64`, `ParentHash`, `Coinbase` and `Hash`.  The hash
is the Keccak of the header without its seal, carried as an opaque value. -/
structure Block where
  number : Nat
  parentHash : Hash
  coinbase : Address
  hash : Hash
deriving DecidableEq, Repr

/-- `Block.NumberU64`. -/
def Block.numberU64 (b : Block) : Nat := u64 b.number

/-- `hs.ProposedBlock`: a parent node hash and the block it carries (`nil` in the node that
`newRoundState` allocates). -/
structure ProposedBlock where
  parent : Hash
  block : Option Block
deriving DecidableEq, Repr

/-- `hs.QuorumCert`. -/
structure QuorumCert where
  view : View
  code : MsgType
  proposedBlock : Hash
  proposer : Address
  blsSignature : Bytes
deriving DecidableEq, Repr

/-- `hs.Vote`. -/
structure Vote where
  code : MsgType
  view : View
  proposedBlock : Hash
  blsSignature : Bytes
deriving DecidableEq, Repr

/-- `Vote.Unsigned`: the same vote with an empty signature. -/
def Vote.unsigned (v : Vote) : Vote := { v with blsSignature := [] }

/-- The decoded `Msg` bytes of a message: a `QuorumCert` (NewView, PreCommit, Commit), a
`PackagedQC` (Prepare), a `Vote`, a `Diploma` (Decide), or bytes that decode as none of them. -/
inductive Payload where
  | qc (qc : QuorumCert)
  | packagedQC (node : ProposedBlock) (qc : QuorumCert)
  | vote (v : Vote)
  | diploma (commitQC : QuorumCert) (blockHash : Hash)
  | raw (bytes : Bytes)
deriving DecidableEq, Repr

/-- `hs.Message` after `FromPayload`: the sender's address, the code, the view and the payload. -/
structure Message where
  address : Address
  code : MsgType
  view : View
  msg : Payload
deriving DecidableEq, Repr

/-- The errors of `consensus/hotstuff/error.go` that the core returns, the `fmt.Errorf`
failures under the check that reports them, and `decode` for an error of RLP decoding passed
through unchanged. -/
inductive Err where
  | invalidMessage
  | invalidSigner
  | futureMessage
  | farAwayFutureMessage
  | oldMessage
  | notFromProposer
  | notToProposer
  | failedDecodeNewView
  | failedDecodePrepare
  | failedDecodePreCommit
  | failedDecodeCommit
  | verifyUnsealedProposal
  | safeNode
  | addNewViews
  | addPrepareVote
  | addPreCommitVote
  | invalidNode
  | nilHighQC
  | invalidQC
  | invalidBlock
  | invalidCode
  | executeBlock
  | sealBlock
  | recoverAggSig
  | decode
  | qcCheck (what : String)
  | nodeCheck (what : String)
  | blockCheck (what : String)
  | voteCheck (what : String)
  | commitCheck (what : String)
deriving DecidableEq, Repr

/-- The functions the core calls outside `consensus/hotstuff/core`: Keccak, the backend and the
threshold BLS scheme of the signer, and the order in which a `map` range visits a message set. -/
structure Env where
  /-- Keccak-256 of a byte string, read as a big-endian number. -/
  keccak256 : Bytes → Hash
  /-- `RLPHash([]common.Hash{parent, blockHash})`, the hash of a proposed block. -/
  rlpHash : Hash → Hash → Hash
  /-- `backend.Verify(block)` returns no error. -/
  verify : Block → Bool
  /-- `backend.ExecuteBlock(block)` returns no error. -/
  executeBlock : Block → Bool
  /-- `backend.SealBlock(block, commitQC)`. -/
  sealBlock : Block → QuorumCert → Option Block
  /-- `tbls.Sign` of the encoded unsigned vote with the share of the validator at `Address`. -/
  blsSign : Address → Vote → Bytes
  /-- `tbls.Recover` of an aggregate signature from signature shares over an encoded vote. -/
  blsRecoverAggSig : Vote → List Bytes → Option Bytes
  /-- `bls.Verify` of an aggregate signature over an encoded vote. -/
  blsVerifyAggSig : Vote → Bytes → Bool
  /-- The order in which ranging over a `map[common.Address]*hs.Message` visits its values. -/
  mapOrder : List Message → List Message

/-- `ProposedBlock.Hash`.  A node without a block only exists between `newRoundState` and the
`Unlock` of the same `startNewRound`, where nothing hashes it. -/
def ProposedBlock.hash (E : Env) (n : ProposedBlock) : Hash :=
  match n.block with
  | some b => E.rlpHash n.parent b.hash
  | none => emptyHash

end QuorumHotstuff.Hotstuff
