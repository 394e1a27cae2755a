import QuorumHotstuff.Istanbul.Types
import Mathlib.Data.List.AList

/-!
# QBFT messages

`qbft/types`: the four messages with their common payload (source, sequence, round, signature),
the signed round-change payload that a PRE-PREPARE carries as justification, and what each message
signs (`EncodePayloadForSigning`).  Messages are kept decoded; RLP is not modelled.  A signature
is a number, and the backend's `GetSignatureAddress` is `Env.recover`, so nothing here assumes the
scheme unforgeable.  `qbftMsgSet` keeps one message per source, which `AList` carries as its
invariant.
-/

namespace QuorumHotstuff.Qbft

open QuorumHotstuff.Istanbul

abbrev Signature := Nat

/-- `Prepare`. -/
structure Prepare where
  source : Address
  sequence : Nat
  round : Nat
  digest : Hash
  signature : Signature
deriving DecidableEq, Repr

/-- `Commit`. -/
structure Commit where
  source : Address
  sequence : Nat
  round : Nat
  digest : Hash
  commitSeal : Bytes
  signature : Signature
deriving DecidableEq, Repr

/-- `SignedRoundChangePayload`: a `nil` prepared round is `none`. -/
structure SignedRoundChangePayload where
  source : Address
  sequence : Nat
  round : Nat
  preparedRound : Option Nat
  preparedDigest : Hash
  signature : Signature
deriving DecidableEq, Repr

/-- `RoundChange`: the signed payload, the prepared block and the PREPARE justification. -/
structure RoundChange where
  payload : SignedRoundChangePayload
  preparedBlock : Option Proposal
  justification : List Prepare
deriving DecidableEq, Repr

/-- `Preprepare` with its ROUND-CHANGE and PREPARE justification. -/
structure Preprepare where
  source : Address
  sequence : Nat
  round : Nat
  proposal : Proposal
  signature : Signature
  justificationRoundChanges : List SignedRoundChangePayload
  justificationPrepares : List Prepare
deriving DecidableEq, Repr

/-- `QBFTMessage`. -/
inductive QBFTMessage where
  | preprepare (m : Preprepare)
  | prepare (m : Prepare)
  | commit (m : Commit)
  | roundChange (m : RoundChange)
deriving DecidableEq, Repr

/-- `PreprepareCode`, `PrepareCode`, `CommitCode`, `RoundChangeCode`. -/
def preprepareCode : Nat := 0x12
def prepareCode : Nat := 0x13
def commitCode : Nat := 0x14
def roundChangeCode : Nat := 0x15

/-- What a message signs, `EncodePayloadForSigning` before RLP: the code and the payload, whose
prepared part a round change drops unless both its round and digest are set. -/
inductive SignedData where
  | preprepare (sequence round : Nat) (proposal : Proposal)
  | prepare (sequence round : Nat) (digest : Hash)
  | commit (sequence round : Nat) (digest : Hash) (commitSeal : Bytes)
  | roundChange (sequence round : Nat) (prepared : Option (Nat × Hash))
deriving DecidableEq, Repr

def Prepare.signedData (p : Prepare) : SignedData := .prepare p.sequence p.round p.digest

def SignedRoundChangePayload.signedData (p : SignedRoundChangePayload) : SignedData :=
  .roundChange p.sequence p.round <|
    match p.preparedRound with
    | some r => if p.preparedDigest = emptyHash then none else some (r, p.preparedDigest)
    | none => none

namespace QBFTMessage

/-- `Code`. -/
def code : QBFTMessage → Nat
  | .preprepare _ => preprepareCode
  | .prepare _ => prepareCode
  | .commit _ => commitCode
  | .roundChange _ => roundChangeCode

/-- `View`. -/
def view : QBFTMessage → View
  | .preprepare m => ⟨m.round, m.sequence⟩
  | .prepare m => ⟨m.round, m.sequence⟩
  | .commit m => ⟨m.round, m.sequence⟩
  | .roundChange m => ⟨m.payload.round, m.payload.sequence⟩

/-- `Source`. -/
def source : QBFTMessage → Address
  | .preprepare m => m.source
  | .prepare m => m.source
  | .commit m => m.source
  | .roundChange m => m.payload.source

/-- `SetSource`. -/
def setSource (a : Address) : QBFTMessage → QBFTMessage
  | .preprepare m => .preprepare { m with source := a }
  | .prepare m => .prepare { m with source := a }
  | .commit m => .commit { m with source := a }
  | .roundChange m => .roundChange { m with payload := { m.payload with source := a } }

/-- `Signature`. -/
def signature : QBFTMessage → Signature
  | .preprepare m => m.signature
  | .prepare m => m.signature
  | .commit m => m.signature
  | .roundChange m => m.payload.signature

/-- `EncodePayloadForSigning`. -/
def signedData : QBFTMessage → SignedData
  | .preprepare m => .preprepare m.sequence m.round m.proposal
  | .prepare m => m.signedData
  | .commit m => .commit m.sequence m.round m.digest m.commitSeal
  | .roundChange m => m.payload.signedData

end QBFTMessage

/-- `qbftMsgSet`: the last message of each source. -/
abbrev MsgSet (α : Type) := AList fun _ : Address => α

namespace MsgSet

variable {α : Type}

/-- `newQBFTMsgSet`. -/
def empty : MsgSet α := ∅

/-- `Add`: the message replaces any earlier one of its source. -/
def add (ms : MsgSet α) (src : Address) (m : α) : MsgSet α := ms.insert src m

/-- `Values`, in the order the map is walked. -/
def values (ms : MsgSet α) : List α := ms.entries.map (·.2)

/-- `Size`. -/
def size (ms : MsgSet α) : Nat := ms.entries.length

end MsgSet

end QuorumHotstuff.Qbft
