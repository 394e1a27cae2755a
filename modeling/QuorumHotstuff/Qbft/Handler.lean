import QuorumHotstuff.Qbft.Core
import QuorumHotstuff.Lib.Except

/-!
# Signatures of a received message

`verifySignatures` of `qbft/core/handler.go`.  The message's signature and the signatures of the
payloads it carries are checked with the core's `validateFn`, `checkValidatorSignature`, which
recovers the signer and refuses one outside the validator set; each checked message takes its
signer as source.  A ROUND-CHANGE has its PREPAREs checked and a PRE-PREPARE its ROUND-CHANGE
payloads.  The PREPAREs a PRE-PREPARE carries are never checked, and `isJustified` reads neither
who signed a payload nor its view, so one validator alone justifies a PRE-PREPARE of its own.
-/

namespace QuorumHotstuff.Qbft

open QuorumHotstuff.Istanbul QuorumHotstuff.Lib

/-- `checkValidatorSignature`: the signer of the data, when it is a validator. -/
def checkValidatorSignature (E : Env) (valSet : ValidatorSet) (data : SignedData)
    (sig : Signature) : Option Address :=
  (E.recover data sig).bind valSet.getByAddress

/-- The `verify` closure of `verifySignatures`: the signer, or `errInvalidSigner`. -/
def verifyOne (validateFn : SignedData → Signature → Option Address) (data : SignedData)
    (sig : Signature) : Except Err Address :=
  match validateFn data sig with
  | some source => .ok source
  | none => .error .invalidSigner

/-- `verifySignatures`: the message, then the payloads it carries, each taking its signer as
source. -/
def verifySignatures (validateFn : SignedData → Signature → Option Address) (m : QBFTMessage) :
    Except Err QBFTMessage := do
  let source ← verifyOne validateFn m.signedData m.signature
  match m.setSource source with
  | .roundChange rc => do
    let prepares ← rc.justification.mapM fun p => do
      let a ← verifyOne validateFn p.signedData p.signature
      pure { p with source := a }
    pure (.roundChange { rc with justification := prepares })
  | .preprepare pp => do
    let payloads ← pp.justificationRoundChanges.mapM fun p => do
      let a ← verifyOne validateFn p.signedData p.signature
      pure { p with source := a }
    pure (.preprepare { pp with justificationRoundChanges := payloads })
  | other => pure other

/-- Whatever PREPAREs a PRE-PREPARE carries, `verifySignatures` passes them on unread. -/
theorem verifySignatures_ignores_prepares (validateFn : SignedData → Signature → Option Address)
    (pp pp' : Preprepare) (prepares : List Prepare)
    (h : verifySignatures validateFn (.preprepare pp) = .ok (.preprepare pp')) :
    verifySignatures validateFn (.preprepare { pp with justificationPrepares := prepares }) =
      .ok (.preprepare { pp' with justificationPrepares := prepares }) := by
  unfold verifySignatures at h ⊢
  -- the signed data of a PRE-PREPARE leaves its justification out
  simp only [QBFTMessage.signedData, QBFTMessage.signature, QBFTMessage.setSource] at h ⊢
  obtain ⟨source, hv, h⟩ := bind_eq_ok.mp h
  rw [hv, bind_ok]
  obtain ⟨payloads, hp, h⟩ := bind_eq_ok.mp h
  rw [hp, bind_ok]
  cases h
  rfl

/-- Sequence 5 among the validators 1 to 4, whose `QuorumSize` is three; validator 4 proposes
round 1.  It signs its PRE-PREPARE and one ROUND-CHANGE payload reporting the proposal prepared in
round 0, and carries three copies of that payload and three PREPAREs for sequence 9 that nobody
signed.  Both checks pass: the three payloads have one source, and no PREPARE is for sequence 5. -/
theorem lone_validator_justifies_preprepare
    (validateFn : SignedData → Signature → Option Address) (sig rcSig : Signature)
    (hpp : validateFn (.preprepare 5 1 ⟨5, 2⟩) sig = some 4)
    (hrc : validateFn (.roundChange 5 1 (some (0, 2))) rcSig = some 4) :
    quorumSize ⟨none, fun _ => false⟩ 5 ⟨[1, 2, 3, 4], .roundRobin, some 4⟩ = 3 ∧
    verifySignatures validateFn (.preprepare ⟨0, 5, 1, ⟨5, 2⟩, sig,
        List.replicate 3 ⟨0, 5, 1, some 0, 2, rcSig⟩, List.replicate 3 ⟨0, 9, 0, 2, 0⟩⟩) =
      .ok (.preprepare ⟨4, 5, 1, ⟨5, 2⟩, sig,
        List.replicate 3 ⟨4, 5, 1, some 0, 2, rcSig⟩, List.replicate 3 ⟨0, 9, 0, 2, 0⟩⟩) ∧
    isJustified ⟨5, 2⟩ (List.replicate 3 ⟨4, 5, 1, some 0, 2, rcSig⟩)
      (List.replicate 3 ⟨0, 9, 0, 2, 0⟩) 3 = none := by
  have hdata : SignedRoundChangePayload.signedData ⟨0, 5, 1, some 0, 2, rcSig⟩ =
      .roundChange 5 1 (some (0, 2)) :=
    rfl
  refine ⟨by decide, ?_, rfl⟩
  simp [verifySignatures, QBFTMessage.signedData, QBFTMessage.signature, QBFTMessage.setSource,
    verifyOne, hpp, hdata, hrc, bind, Except.bind, pure, Except.pure, List.replicate]

theorem lone_validator_justifies_preprepare_example :
    verifySignatures (fun _ s => if s = 4 then some 4 else none)
        (.preprepare ⟨0, 5, 1, ⟨5, 2⟩, 4, List.replicate 3 ⟨0, 5, 1, some 0, 2, 4⟩,
          List.replicate 3 ⟨0, 9, 0, 2, 0⟩⟩) =
      .ok (.preprepare ⟨4, 5, 1, ⟨5, 2⟩, 4, List.replicate 3 ⟨4, 5, 1, some 0, 2, 4⟩,
        List.replicate 3 ⟨0, 9, 0, 2, 0⟩⟩) :=
  (lone_validator_justifies_preprepare _ 4 4 rfl rfl).2.1

end QuorumHotstuff.Qbft
