import QuorumHotstuff.Hotstuff.Core

/-!
# The message handlers and the round machine

`new_view.go`, `prepare.go`, `precommit.go`, `commit.go`, `decide.go`, `request.go`,
`handler.go` and the round logic of `core.go`.  A handler returns the core it leaves, what it
sent, and its error; like the Go code it keeps every write made before an error.  The chain
head that `backend.LastProposal()` returns is an input of every step that can start a round.
-/

namespace QuorumHotstuff.Hotstuff

namespace Core

variable (E : Env)

/-- `setCurrentState`: set the phase, then hand pending requests (in the two phases that take
them) and backlogged messages back to the event loop. -/
def setCurrentState (c : Core) (st : State) : Core × List Output :=
  let c := c.setCur { c.cur with state := st }
  let (c, o1) := if st = .acceptRequest ∨ st = .highQC then c.processPendingRequests else (c, [])
  let (c, o2) := c.processBacklog
  (c, o1 ++ o2)

/-- The block `sendPrepare` proposes: the locked block, else the pending request's block, either
only at the current height. -/
def proposalBlock (s : RoundState) : Option Block :=
  match s.lockedBlock? with
  | some lb => if lb.numberU64 ≠ u64 s.height then none else some lb
  | none =>
    match s.pendingRequest with
    | some r => if r.block.numberU64 ≠ u64 s.height then none else some r.block
    | none => none

/-- `sendPrepare`: the proposer in `StateHighQC` extends the high certificate with its block,
stores the node, and broadcasts it. -/
def sendPrepare (c : Core) : Core × List Output :=
  if !c.isProposer ∨ c.cur.state ≠ .highQC then (c, [])
  else
    match proposalBlock c.cur, c.cur.highQC with
    | some block, some highQC =>
      let node : ProposedBlock := ⟨highQC.proposedBlock, some block⟩
      match c.cur.setProposedBlock node with
      | none => (c, [])
      | some s =>
        let c := c.setCur s
        (c, c.broadcast .prepare (.packagedQC node highQC))
    | _, _ => (c, [])

/-- `getHighQC`: the first certificate of greatest view among the stored NewView messages. -/
def getHighQC (c : Core) : Except Err QuorumCert :=
  let pick := fun (acc : Except Err (Option QuorumCert)) (m : Message) =>
    match acc, m.msg with
    | .error e, _ => .error e
    | .ok none, .qc qc => .ok (some qc)
    | .ok (some h), .qc qc => .ok (some (if h.view.cmp qc.view = .lt then qc else h))
    | .ok _, _ => .error .decode
  match (c.cur.newViews.values E).foldl pick (.ok none) with
  | .error e => .error e
  | .ok none => .error .nilHighQC
  | .ok (some qc) => .ok qc

/-- `handleNewView`: the proposer collects the replicas' prepare certificates and, on a quorum,
takes the highest one and proposes. -/
def handleNewView (c : Core) (data : Message) : Core × List Output × Option Err :=
  match data.msg with
  | .qc prepareQC =>
    if let some e := c.checkView data.view then (c, [], some e) else
    if let some e := c.checkMsgDest then (c, [], some e) else
    if let some e := c.verifyQC E data prepareQC then (c, [], some e) else
    match c.cur.newViews.add data with
    | none => (c, [], some .addNewViews)
    | some set =>
      let c := c.setCur { c.cur with newViews := set }
      if set.size ≥ c.valSet.q ∧ c.cur.state < .highQC then
        match c.getHighQC E with
        | .error e => (c, [], some e)
        | .ok highQC =>
          let c := c.setCur { c.cur with highQC := some highQC }
          let (c, o1) := c.setCurrentState .highQC
          let (c, o2) := c.sendPrepare
          (c, o1 ++ o2, none)
      else (c, [], none)
  | _ => (c, [], some .failedDecodeNewView)

/-- `executeBlock`: the proposer keeps the block it built; a replica executes it. -/
def executeBlock (c : Core) (block : Block) : Option Core :=
  if c.isProposer then some (c.setCur { c.cur with executed := some block })
  else if E.executeBlock block then some (c.setCur { c.cur with executed := some block })
  else none

/-- `handlePrepare`: check the proposal, its block and its high certificate, then vote for it;
a replica first adopts the node. -/
def handlePrepare (c : Core) (data : Message) : Core × List Output × Option Err :=
  match data.msg with
  | .packagedQC node highQC =>
    if let some e := c.checkView data.view then (c, [], some e) else
    if let some e := c.checkMsgSource data.address then (c, [], some e) else
    if let some e := c.checkNode E node false then (c, [], some e) else
    match node.block with
    | none => (c, [], some .invalidNode)
    | some block =>
      if let some e := c.checkBlock block then (c, [], some e) else
      if !E.verify block then (c, [], some .verifyUnsealedProposal) else
      match c.executeBlock E block with
      | none => (c, [], some .executeBlock)
      | some c =>
        if let some e := c.verifyQC E data highQC then (c, [], some e) else
        if (c.safeNode node highQC).isSome then (c, [], some .safeNode) else
        let o1 := if c.isProposer ∧ c.cur.state = .highQC then c.sendVote E .prepareVote else []
        if !c.isProposer ∧ c.cur.state < .highQC then
          match c.cur.setProposedBlock node with
          | none => (c, o1, some .invalidNode)
          | some s =>
            let (c, o2) := (c.setCur s).setCurrentState .highQC
            (c, o1 ++ o2 ++ c.sendVote E .prepareVote, none)
        else (c, o1, none)
  | _ => (c, [], some .failedDecodePrepare)

/-- `acceptPrepareQC`: store the prepare certificate and move to `StatePrepared`. -/
def acceptPrepareQC (c : Core) (qc : QuorumCert) : Core :=
  let (s, db) := c.cur.setPrepareQC c.db qc
  { c with db := db, current := some { s with state := .prepared } }

/-- `handlePrepareVote`: the proposer collects prepare votes and, on a quorum in `StateHighQC`,
forms the prepare certificate and sends it. -/
def handlePrepareVote (c : Core) (data : Message) : Core × List Output × Option Err :=
  match data.msg with
  | .vote vote =>
    if let some e := c.checkView data.view then (c, [], some e) else
    if let some e := c.checkVote E vote .prepareVote then (c, [], some e) else
    if let some e := c.checkMsgDest then (c, [], some e) else
    match c.cur.prepareVotes.add data with
    | none => (c, [], some .addPrepareVote)
    | some set =>
      let c := c.setCur { c.cur with prepareVotes := set }
      if set.size ≥ c.valSet.q ∧ c.cur.state = .highQC then
        match c.messagesToQC E data.code with
        | .error _ => (c, [], some .invalidQC)
        | .ok prepareQC =>
          let c := c.acceptPrepareQC prepareQC
          (c, c.broadcast .preCommit (.qc prepareQC), none)
      else (c, [], none)
  | _ => (c, [], some .failedDecodePrepare)

/-- `handlePreCommit`: a replica in `StateHighQC` accepts the prepare certificate and votes; the
proposer votes on its own certificate. -/
def handlePreCommit (c : Core) (data : Message) : Core × List Output × Option Err :=
  match data.msg with
  | .qc prepareQC =>
    if let some e := c.checkView data.view then (c, [], some e) else
    if let some e := c.checkMsgSource data.address then (c, [], some e) else
    if let some e := c.verifyQC E data prepareQC then (c, [], some e) else
    let o1 := if c.isProposer ∧ c.cur.state = .prepared then c.sendVote E .preCommitVote else []
    if !c.isProposer ∧ c.cur.state = .highQC then
      let c := c.acceptPrepareQC prepareQC
      (c, o1 ++ c.sendVote E .preCommitVote, none)
    else (c, o1, none)
  | _ => (c, [], some .failedDecodePreCommit)

/-- `acceptLockQC`: lock on the current node and move to `StatePreCommitted`. -/
def acceptLockQC (c : Core) (qc : QuorumCert) : Option Core :=
  match c.cur.lock c.db qc with
  | none => none
  | some (s, db) => some { c with db := db, current := some { s with state := .preCommitted } }

/-- `handlePreCommitVote`: the proposer collects pre-commit votes and, on a quorum below
`StatePreCommitted`, forms the lock certificate, locks and sends it. -/
def handlePreCommitVote (c : Core) (data : Message) : Core × List Output × Option Err :=
  match data.msg with
  | .vote vote =>
    if let some e := c.checkView data.view then (c, [], some e) else
    if let some e := c.checkVote E vote .preCommitVote then (c, [], some e) else
    if let some e := c.checkMsgDest then (c, [], some e) else
    match c.cur.preCommitVotes.add data with
    | none => (c, [], some .addPreCommitVote)
    | some set =>
      let c := c.setCur { c.cur with preCommitVotes := set }
      if set.size ≥ c.valSet.q ∧ c.cur.state < .preCommitted then
        match c.messagesToQC E data.code with
        | .error e => (c, [], some e)
        | .ok lockQC =>
          match c.acceptLockQC lockQC with
          | none => (c, [], some .invalidNode)
          | some c => (c, c.broadcast .commit (.qc lockQC), none)
      else (c, [], none)
  | _ => (c, [], some .decode)

/-- `handleCommit`: a replica below `StatePreCommitted` locks on the certificate's node and votes;
the proposer votes until it has committed.  The view checked is the certificate's. -/
def handleCommit (c : Core) (data : Message) : Core × List Output × Option Err :=
  match data.msg with
  | .qc lockQC =>
    if let some e := c.checkView lockQC.view then (c, [], some e) else
    if let some e := c.checkMsgSource data.address then (c, [], some e) else
    if let some e := c.verifyQC E data lockQC then (c, [], some e) else
    let o1 := if c.isProposer ∧ c.cur.state < .committed then c.sendVote E .commitVote else []
    if !c.isProposer ∧ c.cur.state < .preCommitted then
      match c.acceptLockQC lockQC with
      | none => (c, o1, some .invalidNode)
      | some c => (c, o1 ++ c.sendVote E .commitVote, none)
    else (c, o1, none)
  | _ => (c, [], some .failedDecodeCommit)

/-- `acceptCommitQC`: seal the locked node's block, store the commit certificate and move to
`StateCommitted`. -/
def acceptCommitQC (c : Core) (sealedBlock : Block) (qc : QuorumCert) : Option Core :=
  match c.cur.setSealedBlock c.db sealedBlock with
  | none => none
  | some (s, db) =>
    let (s, db) := s.setCommittedQC db qc
    some { c with db := db, current := some { s with state := .committed } }

/-- `handleCommitVote`: the proposer collects commit votes and, on a quorum in
`StatePreCommitted`, seals the locked block with the commit certificate and sends the diploma. -/
def handleCommitVote (c : Core) (data : Message) : Core × List Output × Option Err :=
  match data.msg with
  | .vote vote =>
    if let some e := c.checkView data.view then (c, [], some e) else
    if let some e := c.checkMsgDest then (c, [], some e) else
    if let some e := c.checkVote E vote .commitVote then (c, [], some e) else
    match c.cur.lockedBlock? with
    | none => (c, [], some .invalidNode)
    | some lockedBlock =>
      match c.cur.commitVotes.add data with
      | none => (c, [], some .addPreCommitVote)
      | some set =>
        let c := c.setCur { c.cur with commitVotes := set }
        if set.size ≥ c.valSet.q ∧ c.cur.state = .preCommitted then
          match c.messagesToQC E data.code with
          | .error e => (c, [], some e)
          | .ok commitQC =>
            match E.sealBlock lockedBlock commitQC with
            | none => (c, [], some .sealBlock)
            | some sealedBlock =>
              match c.acceptCommitQC sealedBlock commitQC with
              | none => (c, [], some (.commitCheck "node block not equal to multi-seal block"))
              | some c => (c, c.broadcast .decide (.diploma commitQC sealedBlock.hash), none)
        else (c, [], none)
  | _ => (c, [], some .failedDecodeCommit)

/-- `commit`: hand the sealed block, executed unless it already was, to `backend.Commit`, which
never fails on an executed block. -/
def commit (c : Core) (sealedBlock : Block) : Except Err (Core × List Output) :=
  match c.cur.lockedBlock? with
  | none => .error (.commitCheck "locked block is nil")
  | some lb =>
    if lb.hash ≠ sealedBlock.hash then .error (.commitCheck "expect locked block")
    else
      let fresh := c.cur.executed.map (·.hash) ≠ some sealedBlock.hash
      if fresh ∧ !c.isProposer ∧ !E.executeBlock sealedBlock then .error .executeBlock
      else
        let c := if fresh then c.setCur { c.cur with executed := some sealedBlock } else c
        .ok (c, [.commit (c.cur.executed.getD sealedBlock)])

/-- `updateRoundState`: a fresh round state reloaded from the database at start, else the old one
moved to the new view; without a prepare certificate, the height's start certificate. -/
def updateRoundState (c : Core) (last : Block) (newView : View) : Core :=
  let s := match c.current with
    | none => (RoundState.new c.valSet.validators last newView).reload E c.db newView
    | some s => s.update c.valSet.validators last newView
  match s.prepareQC with
  | some _ => c.setCur s
  | none =>
    let (s, db) := s.setPrepareQC c.db (buildRoundStartQC last)
    { c with db := db, current := some { s with lockQC := none, committedQC := none } }

/-- `sendNewView`: send the prepare certificate to the new proposer. -/
def sendNewView (c : Core) : List Output :=
  match c.cur.prepareQC with
  | some qc => c.broadcast .newView (.qc qc)
  | none => []

/-- The guard of `startNewRound`: the view it moves to and whether it only changes the round, or
`none` where it returns early. -/
def newRoundView (c : Core) (last : Block) (round : Nat) : Option (View × Bool) :=
  match c.current with
  | none => some (⟨0, last.number + 1⟩, false)
  | some s =>
    if last.numberU64 ≥ u64 s.height then some (⟨0, last.number + 1⟩, false)
    else if last.numberU64 < u64 (u64 s.height + (2 ^ 64 - 1)) then none
    else if round = 0 then none
    else if u64 round < u64 s.round then none
    else some (⟨round, s.height⟩, true)

/-- `startNewRound`: move to the next height after the chain head, or to `round` at the same
height, choose the proposer, unlock at a new height, and send the prepare certificate. -/
def startNewRound (head : Block × Address) (c : Core) (round : Nat) : Core × List Output :=
  if !c.isRunning then (c, [])
  else
    match c.newRoundView head.1 round with
    | none => (c, [])
    | some (newView, changeView) =>
      let c := { c with valSet := c.valSet.calcProposer head.2 (u64 newView.round) }
      let c := c.updateRoundState E head.1 newView
      let c := if changeView then c else c.setCur c.cur.unlock
      let (c, o1) := c.setCurrentState .acceptRequest
      (c, o1 ++ c.sendNewView)

/-- `handleDecide`: check the diploma against the locked block and the node; a replica seals,
accepts and commits, the proposer commits the block it sealed; then a new round starts. -/
def handleDecide (head : Block × Address) (c : Core) (data : Message) :
    Core × List Output × Option Err :=
  match data.msg with
  | .diploma commitQC blockHash =>
    if let some e := c.checkView data.view then (c, [], some e) else
    if let some e := c.checkMsgSource data.address then (c, [], some e) else
    if let some e := c.verifyQC E data commitQC then (c, [], some e) else
    match c.cur.lockedBlock? with
    | none => (c, [], some .invalidBlock)
    | some lockedBlock =>
      if blockHash = emptyHash ∨ lockedBlock.hash ≠ blockHash then (c, [], some .invalidBlock) else
      match c.cur.node with
      | some n@⟨_, some nodeBlock⟩ =>
        if n.hash E ≠ commitQC.proposedBlock then
          (c, [], some .invalidQC)
        else if nodeBlock.hash ≠ blockHash then (c, [], some .invalidBlock)
        else
          let r : Except Err (Core × List Output) :=
            if c.isProposer ∧ c.cur.state = .committed then c.commit E lockedBlock
            else if !c.isProposer ∧ c.cur.state = .preCommitted then
              match E.sealBlock lockedBlock commitQC with
              | none => .error .sealBlock
              | some sealedBlock =>
                match c.acceptCommitQC sealedBlock commitQC with
                | none => .error (.commitCheck "node block not equal to multi-seal block")
                | some c => c.commit E sealedBlock
            else .ok (c, [])
          match r with
          | .error e => (c, [], some e)
          | .ok (c, o1) =>
            let (c, o2) := c.startNewRound E head 0
            (c, o1 ++ o2, none)
      | _ => (c, [], some .invalidNode)
  | _ => (c, [], some .failedDecodeCommit)

/-- `handleCheckedMsg`: dispatch on the code and backlog what is for a later round. -/
def handleCheckedMsg (head : Block × Address) (c : Core) (msg : Message) :
    Core × List Output × Option Err :=
  if c.current.isNone then (c, [], none)
  else
    let r :=
      if msg.code = .newView then c.handleNewView E msg
      else if msg.code = .prepare then c.handlePrepare E msg
      else if msg.code = .prepareVote then c.handlePrepareVote E msg
      else if msg.code = .preCommit then c.handlePreCommit E msg
      else if msg.code = .preCommitVote then c.handlePreCommitVote E msg
      else if msg.code = .commit then c.handleCommit E msg
      else if msg.code = .commitVote then c.handleCommitVote E msg
      else if msg.code = .decide then c.handleDecide E head msg
      else (c, [], some .invalidMessage)
    if r.2.2 = some .futureMessage then (r.1.storeBacklog msg, r.2.1, r.2.2) else r

/-- `handleMsg`: a message whose signature names `src` is taken only from a validator. -/
def handleMsg (head : Block × Address) (c : Core) (src : Address) (msg : Message) :
    Core × List Output × Option Err :=
  if c.valSet.getByAddress src = none then (c, [], some .invalidSigner)
  else c.handleCheckedMsg E head { msg with address := src }

/-- `handleRequest`: a request of the current height waits in `StateAcceptRequest`, is proposed
in `StateHighQC`, and is kept for a round change otherwise. -/
def handleRequest (c : Core) (block : Option Block) : Core × List Output × Option Err :=
  match block with
  | none => (c, [], some .invalidMessage)
  | some b =>
    let req : Request := ⟨b⟩
    match c.checkRequestMsg (some b) with
    | some .futureMessage => (c.storeRequestMsg req, [], some .futureMessage)
    | some e => (c, [], some e)
    | none =>
      match c.cur.state with
      | .acceptRequest => (c.storeRequestMsg req, [], none)
      | .highQC =>
        let stale := match c.cur.pendingRequest with
          | none => true
          | some r => r.block.numberU64 < u64 c.cur.height
        if stale then
          let (c, out) := (c.setCur (c.cur.setPendingRequest req)).sendPrepare
          (c, out, none)
        else (c, [], none)
      | _ =>
        if c.cur.pendingRequest.isNone then (c.setCur (c.cur.setPendingRequest req), [], none)
        else (c, [], none)

/-- `handleTimeoutMsg`: move to the next round. -/
def handleTimeoutMsg (head : Block × Address) (c : Core) : Core × List Output :=
  c.startNewRound E head (c.cur.round + 1)

/-- `handleFinalCommitted`: a committed header at or past the current height starts a round. -/
def handleFinalCommitted (head : Block × Address) (c : Core) (number : Nat) :
    Core × List Output :=
  if u64 number ≥ c.heightU64 then c.startNewRound E head 0 else (c, [])

/-- `Start`: forget the round state and start from the chain head. -/
def start (head : Block × Address) (c : Core) : Core × List Output :=
  ({ c with isRunning := true, current := none } : Core).startNewRound E head 0

/-- `Stop`. -/
def stop (c : Core) : Core := { c with isRunning := false }

end Core

/-- The events `handleEvents` receives: a signed message with its sender, a replayed backlog
message, a request from the miner, a round-change timeout, and a final-committed header. -/
inductive Event where
  | message (src : Address) (msg : Message)
  | backlog (msg : Message)
  | request (block : Option Block)
  | timeout
  | finalCommitted (number : Nat)
deriving DecidableEq, Repr

namespace Core

variable (E : Env)

/-- One turn of `handleEvents` with the chain head `head`; returned errors are dropped there. -/
def step (head : Block × Address) (c : Core) : Event → Core × List Output
  | .message src m => let r := c.handleMsg E head src m; (r.1, r.2.1)
  | .backlog m => let r := c.handleCheckedMsg E head m; (r.1, r.2.1)
  | .request b => let r := c.handleRequest b; (r.1, r.2.1)
  | .timeout => c.handleTimeoutMsg E head
  | .finalCommitted n => c.handleFinalCommitted E head n

end Core

end QuorumHotstuff.Hotstuff
