import QuorumHotstuff.Qbft.Types

/-!
# The PRE-PREPARE justification

`qbft/core/justification.go`.  A PRE-PREPARE of a round above zero must carry a quorum of
ROUND-CHANGE payloads and, when some validator prepared, a quorum of PREPARE messages for the
highest prepared round and the proposal.  The checks count list entries: nothing asks the payloads
to come from distinct validators, or to be for the PRE-PREPARE's sequence and round, so one signed
payload repeated a quorum of times justifies any proposal (`isJustified_replicate`).
-/

namespace QuorumHotstuff.Qbft

open QuorumHotstuff.Istanbul

/-- The errors of `justification.go`, by their `errors.New` texts. -/
abbrev JustificationError := String

/-- The payload counts for the nil quorum: no prepared round (or round zero) and an empty digest. -/
def SignedRoundChangePayload.isNil (m : SignedRoundChangePayload) : Bool :=
  (m.preparedRound = none ∨ m.preparedRound = some 0) ∧ m.preparedDigest = emptyHash

/-- The loop of `hasQuorumOfRoundChangeMessagesForNil`, from the count so far. -/
def nilQuorumFrom (quorumSize : Int) : List SignedRoundChangePayload → Int → Option JustificationError
  | [], _ => some "quorum of roundchange messages with nil prepared round not found"
  | m :: rest, nilCount =>
    if m.isNil then
      if nilCount + 1 = quorumSize then none else nilQuorumFrom quorumSize rest (nilCount + 1)
    else nilQuorumFrom quorumSize rest nilCount

/-- `hasQuorumOfRoundChangeMessagesForNil`. -/
def hasQuorumOfRoundChangeMessagesForNil (roundChangeMessages : List SignedRoundChangePayload)
    (quorumSize : Int) : Option JustificationError :=
  nilQuorumFrom quorumSize roundChangeMessages 0

/-- The loop of `hasQuorumOfRoundChangeMessagesForPreparedRoundAndBlock`, from the count of
payloads prepared at most at `preparedRound` and whether one of them matches. -/
def preparedQuorumFrom (preparedRound : Nat) (preparedBlock : Proposal) (quorumSize : Int) :
    List SignedRoundChangePayload → Int → Bool → Option JustificationError
  | [], _, _ => some "quorum of roundchange messages with prepared round and proposal not found"
  | m :: rest, count, matching =>
    if m.preparedRound.all (· ≤ preparedRound) then
      let matching' := matching ||
        (m.preparedRound = some preparedRound ∧ m.preparedDigest = preparedBlock.hash)
      if count + 1 ≥ quorumSize ∧ matching' then none
      else preparedQuorumFrom preparedRound preparedBlock quorumSize rest (count + 1) matching'
    else preparedQuorumFrom preparedRound preparedBlock quorumSize rest count matching

/-- `hasQuorumOfRoundChangeMessagesForPreparedRoundAndBlock`. -/
def hasQuorumOfRoundChangeMessagesForPreparedRoundAndBlock
    (roundChangeMessages : List SignedRoundChangePayload) (preparedRound : Nat)
    (preparedBlock : Proposal) (quorumSize : Int) : Option JustificationError :=
  preparedQuorumFrom preparedRound preparedBlock quorumSize roundChangeMessages 0 false

/-- `isJustified`.  The prepared round is the round of the first PREPARE, which all of them must
share, along with the proposal's hash. -/
def isJustified (proposal : Proposal) (roundChangeMessages : List SignedRoundChangePayload)
    (prepareMessages : List Prepare) (quorumSize : Int) : Option JustificationError :=
  if (roundChangeMessages.length : Int) < quorumSize then
    some "number of roundchange messages is less than required quorum of messages"
  else if prepareMessages.length ≠ 0 ∧ (prepareMessages.length : Int) < quorumSize then
    some "number of prepared messages is less than required quorum of messages"
  else
    match prepareMessages.head? with
    | none => hasQuorumOfRoundChangeMessagesForNil roundChangeMessages quorumSize
    | some first =>
      if prepareMessages.any (fun spp => spp.round ≠ first.round ∨ proposal.hash ≠ spp.digest) then
        some "prepared messages do not have same round or do not match proposal"
      else
        hasQuorumOfRoundChangeMessagesForPreparedRoundAndBlock roundChangeMessages first.round
          proposal quorumSize

/-- `hasMatchingRoundChangeAndPrepares`.  Its caller only passes a round change whose prepared
round is set. -/
def hasMatchingRoundChangeAndPrepares (roundChange : RoundChange) (prepareMessages : List Prepare)
    (quorumSize : Int) : Option JustificationError :=
  if (prepareMessages.length : Int) < quorumSize then
    some "number of prepare messages is less than quorum of messages"
  else
    match prepareMessages.find? (fun spp => spp.digest ≠ roundChange.payload.preparedDigest ∨
        some spp.round ≠ roundChange.payload.preparedRound) with
    | none => none
    | some spp =>
      if spp.digest ≠ roundChange.payload.preparedDigest then
        some "prepared message digest does not match roundchange prepared digest"
      else some "round number in prepared message does not match prepared round in roundchange"

/-! ## One payload repeated -/

/-- The nil loop succeeds once the count reaches the quorum inside a run of nil payloads. -/
theorem nilQuorumFrom_replicate {m : SignedRoundChangePayload} (hm : m.isNil = true)
    {quorumSize : Int} (k : Nat) (count : Int) (hlo : count < quorumSize)
    (hhi : quorumSize ≤ count + k) : nilQuorumFrom quorumSize (List.replicate k m) count = none := by
  induction k generalizing count with
  | zero => omega
  | succ k ih =>
    rw [List.replicate_succ, nilQuorumFrom, if_pos hm]
    by_cases hq : count + 1 = quorumSize
    · rw [if_pos hq]
    · rw [if_neg hq]
      exact ih (count + 1) (by omega) (by omega)

/-- A quorum of copies of one nil payload justifies every proposal, whoever signed it and for
whatever sequence and round. -/
theorem isJustified_replicate {m : SignedRoundChangePayload} (hm : m.isNil = true)
    (proposal : Proposal) (quorumSize : Nat) (hq : 0 < quorumSize) :
    isJustified proposal (List.replicate quorumSize m) [] quorumSize = none := by
  unfold isJustified
  rw [if_neg (by simp), if_neg (by simp)]
  exact nilQuorumFrom_replicate hm quorumSize 0 (by omega) (by omega)

end QuorumHotstuff.Qbft
