import QuorumHotstuff.Qbft.Handler
import QuorumHotstuff.Lib.Run

/-!
# The QBFT message handlers and the event loop

`preprepare.go`, `prepare.go`, `commit.go`, `roundchange.go`, `request.go`,
`final_committed.go` and the event loop of `handler.go`.  A handler returns the core it leaves,
what it sent and its error, and keeps, as the Go code does, every write made before an error.
The chain head that `backend.LastProposal()` returns is an input of every step that can start a
round.  A broadcast message reaches every validator, the sender included, as a later
`MessageEvent`; a received message and a replayed one are gossiped on when handled without error.
Timers are inputs too: the round-change timer posts a timeout, the timer of `handleRequest` sends
the PRE-PREPARE of its request, and the future PRE-PREPARE timer replays its message.
-/

namespace QuorumHotstuff.Qbft

open QuorumHotstuff.Istanbul QuorumHotstuff.Lib

namespace Core

variable (E : Env)

/-! ## Sending -/

/-- `broadcastPrepare`: a PREPARE for the view and digest of the PRE-PREPARE just accepted, signed
with the node's key.  Without a PRE-PREPARE `Subject` is `nil` and Go panics; the one caller has
just set it. -/
def broadcastPrepare (c : Core) : List Output :=
  match c.cur.proposal with
  | none => []
  | some p =>
    let prepare : Prepare := ⟨c.address, c.cur.sequence, c.cur.round, p.hash, 0⟩
    [.broadcast (.prepare { prepare with signature := E.sign c.address prepare.signedData })]

/-- `broadcastCommit`: a COMMIT for the view and digest of the accepted PRE-PREPARE with the
node's commit seal over the proposal and the `uint32` of the round. -/
def broadcastCommit (c : Core) : List Output :=
  match c.cur.proposal with
  | none => []
  | some p =>
    let commit : Commit :=
      ⟨c.address, c.cur.sequence, c.cur.round, p.hash, E.commitSeal c.address p (u64 c.cur.round % 2 ^ 32), 0⟩
    [.broadcast (.commit { commit with
      signature := E.sign c.address (QBFTMessage.commit commit).signedData })]

/-- `broadcastRoundChange`: a ROUND-CHANGE for the round, unless it is below the current one, with
the prepared round and block and the PREPAREs that prepared them. -/
def broadcastRoundChange (c : Core) (round : Int) : List Output :=
  if (c.cur.round : Int) > round then []
  else
    let payload : SignedRoundChangePayload := ⟨c.address, c.cur.sequence, round.toNat,
      c.cur.preparedRound, (c.cur.preparedBlock.map (·.hash)).getD emptyHash, 0⟩
    let payload := { payload with signature := E.sign c.address payload.signedData }
    [.broadcast (.roundChange ⟨payload, c.cur.preparedBlock, c.qbftPreparedPrepares.getD []⟩)]

/-- `broadcastNextRoundChange`. -/
def broadcastNextRoundChange (c : Core) : List Output :=
  c.broadcastRoundChange E (c.cur.round + 1)

/-- `sendPreprepareMsg`: the proposer of the request's sequence broadcasts a PRE-PREPARE of the
request's proposal with its ROUND-CHANGE and PREPARE justification, and records the round. -/
def sendPreprepareMsg (c : Core) (request : Request) : Core × List Output :=
  if c.cur.sequence = request.proposal.number ∧ c.isProposer then
    let pp : Preprepare := ⟨c.address, c.cur.sequence, c.cur.round, request.proposal, 0,
      ((request.rcMessages.map MsgSet.values).getD []).map (·.payload), request.prepareMessages⟩
    let pp := { pp with signature := E.sign c.address (QBFTMessage.preprepare pp).signedData }
    (c.setCur { c.cur with preprepareSent := c.cur.round }, [.broadcast (.preprepare pp)])
  else (c, [])

/-! ## Requests and timers -/

/-- `handleRequest`: keep a request of the current sequence as pending and, in
`StateAcceptRequest`, arm the timer that proposes it. -/
def handleRequest (c : Core) (request : Request) : Core × Option Err :=
  match c.checkRequestMsg request with
  | some e => (c, some e)
  | none =>
    let c := c.setCur { c.cur with pendingRequest := some request }
    if c.state = .acceptRequest then ({ c with newRoundTimer := some request }, none)
    else (c, none)

/-- The timer of `handleRequest`: arm the round-change timer and send the PRE-PREPARE. -/
def fireNewRoundTimer (c : Core) : Core × List Output :=
  match c.newRoundTimer with
  | none => (c, [])
  | some request => { c with newRoundTimer := none }.newRoundChangeTimer.sendPreprepareMsg E request

/-! ## The handlers -/

/-- `handlePreprepareMsg`: a PRE-PREPARE of the proposer, justified above round zero, with a
proposal the backend verifies, is accepted in `StateAcceptRequest` and answered with a PREPARE.
A future block arms the timer that replays the message. -/
def handlePreprepareMsg (c : Core) (pp : Preprepare) : Core × List Output × Option Err :=
  if !c.valSet.isProposer pp.source then (c, [], some .notFromProposer)
  else if u64 pp.round > 0 ∧ (isJustified pp.proposal pp.justificationRoundChanges
      pp.justificationPrepares (c.quorumSize E)).isSome then (c, [], some .invalidPreparedBlock)
  else
    match E.verify pp.proposal with
    | .futureBlock _ => ({ c with futurePreprepareTimer := some pp }, [], some .futureBlock)
    | .invalid => (c, [], some .invalidProposal)
    | .ok =>
      if c.state = .acceptRequest then
        let c := c.newRoundChangeTimer
        let c := c.setCur { c.cur with preprepare := some pp }
        let (c, out) := c.setState .preprepared
        (c, out ++ c.broadcastPrepare E, none)
      else (c, [], none)

/-- `handlePrepare`: a PREPARE of the accepted proposal is kept; on a quorum before
`StatePrepared` the core records the prepared round, block and PREPAREs and sends its COMMIT. -/
def handlePrepare (c : Core) (prepare : Prepare) : Core × List Output × Option Err :=
  if some prepare.digest ≠ c.cur.proposal.map (·.hash) then (c, [], some .invalidMessage)
  else
    let c := c.setCur { c.cur with qbftPrepares := c.cur.qbftPrepares.add prepare.source prepare }
    if (c.cur.qbftPrepares.size : Int) ≥ c.quorumSize E ∧ c.state.toNat < State.prepared.toNat then
      let preparedBlock :=
        if c.cur.proposal.map (·.hash) = some prepare.digest then c.cur.proposal
        else c.cur.preparedBlock
      let c := { c.setCur { c.cur with preparedRound := some c.cur.round, preparedBlock }
                 with qbftPreparedPrepares := some c.cur.qbftPrepares.values }
      let (c, out) := c.setState .prepared
      (c, out ++ c.broadcastCommit E, none)
    else (c, [], none)

/-- `commitQBFT`: enter `StateCommitted` and hand the proposal to the backend with the COMMITs'
seals; when the backend refuses it, ask for the next round. -/
def commitQBFT (c : Core) : Core × List Output :=
  let (c, out) := c.setState .committed
  match c.cur.proposal with
  | none => (c, out)
  | some p =>
    let seals := c.cur.qbftCommits.values.map (·.commitSeal)
    let out := out ++ [.commit p seals c.cur.round]
    if E.commit p seals c.cur.round then (c, out) else (c, out ++ c.broadcastNextRoundChange E)

/-- `handleCommitMsg`: a COMMIT of the accepted proposal is kept; a quorum commits. -/
def handleCommitMsg (c : Core) (commit : Commit) : Core × List Output × Option Err :=
  if some commit.digest ≠ c.cur.proposal.map (·.hash) then (c, [], some .invalidMessage)
  else
    let c := c.setCur { c.cur with qbftCommits := c.cur.qbftCommits.add commit.source commit }
    if (c.cur.qbftCommits.size : Int) ≥ c.quorumSize E then
      let (c, out) := c.commitQBFT E
      (c, out, none)
    else (c, [], none)

/-- The prepared round, block and PREPAREs `handleRoundChange` records of a ROUND-CHANGE: all
three only when it carries a prepared round, a block and a nonempty justification. -/
def RoundChange.prepared (rc : RoundChange) : Option Nat × Option Proposal × List Prepare :=
  match rc.payload.preparedRound, rc.preparedBlock with
  | some pr, some pb => if rc.justification ≠ [] then (some pr, some pb, rc.justification) else (none, none, [])
  | _, _ => (none, none, [])

/-- The first part of `handleRoundChange`: a ROUND-CHANGE of the current round or above is added
to the round-change set. -/
def addRoundChange (c : Core) (rc : RoundChange) : Core :=
  if rc.payload.round ≥ c.cur.round then
    let (pr, pb, prepares) := RoundChange.prepared rc
    { c with roundChangeSet := c.roundChangeSet.add rc.payload.round rc pr pb prepares (c.quorumSize E) }
  else c

/-- `handleRoundChange`: record a ROUND-CHANGE of the current round or above.  `F + 1` sources of
higher rounds move the core to the least such round; a quorum for the current round makes its
proposer send a justified PRE-PREPARE of the highest prepared block, or of its pending request. -/
def handleRoundChange (head : Proposal × Address) (c : Core) (rc : RoundChange) :
    Core × List Output × Option Err :=
  let currentRound := c.cur.round
  let c := c.addRoundChange E rc
  let num := c.roundChangeSet.higherRoundMessages currentRound
  let currentRoundMessages := c.roundChangeSet.getRCMessagesForGivenRound currentRound
  if (num : Int) = c.valSet.f + 1 then
    let newRound := c.roundChangeSet.getMinRoundChange currentRound
    let (c, out) := c.startNewRound E head newRound
    (c, out ++ c.broadcastRoundChange E newRound, none)
  else if (currentRoundMessages : Int) ≥ c.quorumSize E ∧ c.isProposer ∧
      c.cur.preprepareSent < currentRound then
    match (c.roundChangeSet.highestPreparedBlock.lookup (u64 currentRound)).orElse
        fun _ => c.cur.pendingRequest.map (·.proposal) with
    | none => (c, [], some (.text "no proposal as pending request is nil"))
    | some proposal =>
      let rcMessages := c.roundChangeSet.roundChanges.lookup (u64 currentRound)
      let rcSignedPayloads := ((rcMessages.map MsgSet.values).getD []).map (·.payload)
      let prepareMessages := (c.roundChangeSet.prepareMessages.lookup (u64 currentRound)).getD []
      if (isJustified proposal rcSignedPayloads prepareMessages (c.quorumSize E)).isSome then
        (c, [], none)
      else
        let (c, out) := c.sendPreprepareMsg E ⟨proposal, rcMessages, prepareMessages⟩
        (c, out, none)
  else (c, [], none)

/-- `handleTimeoutMsg`: move to the next round and ask for it. -/
def handleTimeoutMsg (head : Proposal × Address) (c : Core) : Core × List Output :=
  let nextRound : Int := c.cur.round + 1
  let (c, out) := c.startNewRound E head nextRound
  (c, out ++ c.broadcastRoundChange E nextRound)

/-- `handleFinalCommitted`: stop the timers and start the next sequence. -/
def handleFinalCommitted (head : Proposal × Address) (c : Core) : Core × List Output :=
  c.stopTimer.startNewRound E head 0

/-- `deliverMessage`. -/
def deliverMessage (head : Proposal × Address) (c : Core) :
    QBFTMessage → Core × List Output × Option Err
  | .preprepare m => c.handlePreprepareMsg E m
  | .prepare m => c.handlePrepare E m
  | .commit m => c.handleCommitMsg E m
  | .roundChange m => c.handleRoundChange E head m

/-- `handleDecodedMessage`: a message `checkMessage` passes is delivered; a future one goes to the
backlog. -/
def handleDecodedMessage (head : Proposal × Address) (c : Core) (m : QBFTMessage) :
    Core × List Output × Option Err :=
  match c.checkMessage m.code m.view with
  | some .futureMessage => (c.addToBacklog m, [], some .futureMessage)
  | some e => (c, [], some e)
  | none => c.deliverMessage E head m

/-- `handleEncodedMsg` on a decoded message: its signatures first, with the core's
`checkValidatorSignature`. -/
def handleEncodedMsg (head : Proposal × Address) (c : Core) (m : QBFTMessage) :
    Core × List Output × Option Err :=
  match verifySignatures (checkValidatorSignature E c.valSet) m with
  | .error e => (c, [], some e)
  | .ok m => c.handleDecodedMessage E head m

/-- `Start`. -/
def start (head : Proposal × Address) (c : Core) : Core × List Output :=
  c.startNewRound E head 0

end Core

/-- What reaches `handleEvents`: a proposal from the miner, a message, a replayed message, a
round-change timeout, a committed block, and the two timers that call back into the core. -/
inductive Event where
  | request (proposal : Proposal)
  | message (m : QBFTMessage)
  | backlog (m : QBFTMessage)
  | timeout
  | finalCommitted
  | newRoundTimer
  | futurePreprepareTimer
deriving DecidableEq, Repr

namespace Core

variable (E : Env)

/-- One round of `handleEvents`.  A request of a future sequence is kept for later; a message
handled without error is gossiped on. -/
def step (head : Proposal × Address) (c : Core) : Event → Core × List Output
  | .request p =>
    let r : Request := ⟨p, none, []⟩
    match c.handleRequest r with
    | (c, some .futureMessage) => (c.storeRequestMsg r, [])
    | (c, _) => (c, [])
  | .message m =>
    let (c, out, err) := c.handleEncodedMsg E head m
    (c, if err.isNone then out ++ [.gossip m] else out)
  | .backlog m =>
    let (c, out, err) := c.handleDecodedMessage E head m
    (c, if err.isNone then out ++ [.gossip m] else out)
  | .timeout => c.handleTimeoutMsg E head
  | .finalCommitted => c.handleFinalCommitted E head
  | .newRoundTimer => c.fireNewRoundTimer E
  | .futurePreprepareTimer =>
    match c.futurePreprepareTimer with
    | none => (c, [])
    | some pp => (c, [.backlogEvent (.preprepare pp)])

/-- The step of a validator's run: the chain head of the moment and the event. -/
def next (c : Core) (i : (Proposal × Address) × Event) : Core × List Output := c.step E i.1 i.2

end Core

/-- A core at the start of a run: `Start` on a core without a round state. -/
def StartedAs (E : Env) (a : Address) (p : Core × List Output) : Prop :=
  ∃ (c : Core) (head : Proposal × Address), c.address = a ∧ c.current = none ∧ p = c.start E head

end QuorumHotstuff.Qbft
