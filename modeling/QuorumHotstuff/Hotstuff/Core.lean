import QuorumHotstuff.Hotstuff.RoundState
import QuorumHotstuff.Lib.PriorityQueue

/-!
# The consensus core: state, checks and sending

`consensus/hotstuff/core/core.go`, `utils.go`, `backlog.go`, the queue half of `request.go`,
and the validator set of `validator/default.go`.  A check returns `Option Err`, `none` being
Go's `nil` error.  What the core sends to the network or hands to the backend is an `Output`;
events it posts to itself asynchronously (backlog replays, pending requests) are outputs too,
since they come back only as later inputs.
-/

namespace QuorumHotstuff.Hotstuff

open QuorumHotstuff.Lib

/-- `hs.SelectProposerPolicy`. -/
inductive Policy where
  | roundRobin
  | sticky
  | vrf
deriving DecidableEq, Repr

/-- `defaultSet`: the sorted validator addresses, the selection policy and the proposer, `nil`
under the VRF selector. -/
structure ValidatorSet where
  validators : List Address
  policy : Policy
  proposer : Option Address
deriving DecidableEq, Repr

namespace ValidatorSet

/-- `Size`. -/
def size (vs : ValidatorSet) : Nat := vs.validators.length

/-- `GetByAddress`: the validator's address when it belongs to the set. -/
def getByAddress (vs : ValidatorSet) (addr : Address) : Option Address :=
  if addr ∈ vs.validators then some addr else none

/-- `IsProposer`: `reflect.DeepEqual` of the proposer and the looked-up validator, so two `nil`s
compare equal. -/
def isProposer (vs : ValidatorSet) (addr : Address) : Bool :=
  vs.proposer == vs.getByAddress addr

/-- `calcSeed`: the index of the last proposer (zero when absent) plus the round, in `uint64`. -/
def calcSeed (vs : ValidatorSet) (proposer : Address) (round : Nat) : Nat :=
  u64 ((if proposer ∈ vs.validators then vs.validators.idxOf proposer else 0) + round)

/-- `roundRobinSelector` and `stickySelector`; they differ only by the `+ 1`. -/
def selectBy (vs : ValidatorSet) (step : Nat) (proposer : Address) (round : Nat) :
    Option Address :=
  if vs.size = 0 then none
  else
    let seed := if proposer = emptyAddress then round else u64 (vs.calcSeed proposer round + step)
    vs.validators[seed % vs.size]?

/-- `roundRobinSelector`. -/
def roundRobinSelector (vs : ValidatorSet) (proposer : Address) (round : Nat) : Option Address :=
  vs.selectBy 1 proposer round

/-- `stickySelector`. -/
def stickySelector (vs : ValidatorSet) (proposer : Address) (round : Nat) : Option Address :=
  vs.selectBy 0 proposer round

/-- `CalcProposer`. -/
def calcProposer (vs : ValidatorSet) (lastProposer : Address) (round : Nat) : ValidatorSet :=
  let p := match vs.policy with
    | .roundRobin => vs.roundRobinSelector lastProposer round
    | .sticky => vs.stickySelector lastProposer round
    | .vrf => none
  { vs with proposer := p }

/-- `F`. -/
def f (vs : ValidatorSet) : Nat := (vs.size - 1) / 3

/-- `Q`. -/
def q (vs : ValidatorSet) : Nat := vs.size - vs.f

end ValidatorSet

/-- What a step hands to the outside: a message unicast to the proposer or broadcast to all
validators (the sender included), a block passed to `backend.Commit`, and the events the core
posts to itself. -/
inductive Output where
  | unicast (dest : Option Address) (msg : Message)
  | broadcast (msg : Message)
  | commit (block : Block)
  | requestEvent (block : Block)
  | backlogEvent (msg : Message)
deriving DecidableEq, Repr

instance : Inhabited Block := ⟨⟨0, 0, 0, 0⟩⟩

instance : Inhabited RoundState := ⟨RoundState.new [] default ⟨0, 0⟩⟩

/-- `Core`.  The database and the backlog outlive `Stop`; `current` is `nil` until `Start`. -/
structure Core where
  address : Address
  valSet : ValidatorSet
  db : DB
  current : Option RoundState
  backlogs : List (Address × PQueue Message)
  pendingRequests : PQueue Request
  isRunning : Bool
deriving DecidableEq, Repr

namespace Core

variable (E : Env)

/-- `c.current`, dereferenced.  Every caller runs after `Start` has set it. -/
def cur (c : Core) : RoundState := c.current.getD default

/-- Store the round state back. -/
def setCur (c : Core) (s : RoundState) : Core := { c with current := some s }

/-- `IsProposer`. -/
def isProposer (c : Core) : Bool := c.valSet.isProposer c.address

/-- `currentView`. -/
def currentView (c : Core) : View := c.cur.view

/-- `Core.HeightU64`. -/
def heightU64 (c : Core) : Nat := match c.current with | some s => u64 s.height | none => 0

/-- `Core.RoundU64`. -/
def roundU64 (c : Core) : Nat := match c.current with | some s => u64 s.round | none => 0

/-- `proposer()`: the proposer's address.  The VRF selector leaves it `nil`, and then no
message passes the proposer checks that guard the callers. -/
def proposer (c : Core) : Address := c.valSet.proposer.getD emptyAddress

/-- `checkView`: classify a message view against the current one by the `int64` differences of
`View.Sub`. -/
def checkView (c : Core) (view : View) : Option Err :=
  let (hdiff, rdiff) := view.sub c.currentView
  if hdiff < 0 then some .oldMessage
  else if hdiff > 1 then some .farAwayFutureMessage
  else if hdiff = 1 then some .futureMessage
  else if rdiff < 0 then some .oldMessage
  else if rdiff = 0 then none
  else some .futureMessage

/-- `checkMsgDest`. -/
def checkMsgDest (c : Core) : Option Err := if c.isProposer then none else some .notToProposer

/-- `checkMsgSource`. -/
def checkMsgSource (c : Core) (src : Address) : Option Err :=
  if c.valSet.isProposer src then none else some .notFromProposer

/-- The message codes whose certificate `verifyQC` requires: PrepareVote for NewView, Prepare and
PreCommit, PreCommitVote for Commit, CommitVote for Decide. -/
def qcCodeMismatch (dataCode qcCode : MsgType) : Bool :=
  (dataCode = .newView && qcCode ≠ .prepareVote) ||
  (dataCode = .prepare && qcCode ≠ .prepareVote) ||
  (dataCode = .preCommit && qcCode ≠ .prepareVote) ||
  (dataCode = .commit && qcCode ≠ .preCommitVote) ||
  (dataCode = .decide && qcCode ≠ .commitVote)

/-- `signer.AuthQC`: a certificate of height zero passes; any other must carry an aggregate
signature over the encoded vote `{Code, View, ProposedBlock}`. -/
def authQC (qc : QuorumCert) : Option Err :=
  if u64 qc.view.height = 0 then none
  else if E.blsVerifyAggSig ⟨qc.code, qc.view, qc.proposedBlock, []⟩ qc.blsSignature then none
  else some (.qcCheck "invalid aggregated signature")

/-- `verifyQC`.  The recomputed message hash always equals `qc.SealHash()`, both being the hash
of the same clean message, so that comparison is left out. -/
def verifyQC (c : Core) (data : Message) (qc : QuorumCert) : Option Err :=
  if u64 qc.view.height = 0 then none
  else if qc.proposedBlock = emptyHash ∨ qc.proposer = emptyAddress then
    some (.qcCheck "qc.ProposedBlock, Proposer, Seal or BLSSig is nil")
  else if qcCodeMismatch data.code qc.code then
    some (.qcCheck ("qc.Code " ++ qc.code.string ++ " not matching message code"))
  else if (data.code = .newView ∨ data.code = .prepare) ∧
      (let (hdiff, rdiff) := data.view.sub qc.view; hdiff < 0 ∨ (hdiff = 0 ∧ rdiff < 0)) then
    some (.qcCheck "view is invalid")
  else if (data.code = .preCommit ∨ data.code = .commit ∨ data.code = .decide) ∧
      qc.view.cmp data.view ≠ .eq then
    some (.qcCheck ("qc.View " ++ qc.view.string ++ " not matching message view"))
  else if (data.code = .preCommit ∨ data.code = .commit ∨ data.code = .decide) ∧
      qc.proposer ≠ c.proposer then
    some (.qcCheck ("expect proposer " ++ checksumHex E.keccak256 c.proposer ++ ", got " ++
      checksumHex E.keccak256 qc.proposer))
  else if (data.code = .preCommit ∨ data.code = .commit ∨ data.code = .decide) ∧
      c.cur.node = none then
    some (.qcCheck "current node is nil")
  else if (data.code = .preCommit ∨ data.code = .commit ∨ data.code = .decide) ∧
      (c.cur.node.map (·.hash E)) ≠ some qc.proposedBlock then
    -- the node is there: the branch above returns without one
    some (.qcCheck ("expect node " ++ hashHex ((c.cur.node.map (·.hash E)).getD emptyHash) ++
      ", got " ++ hashHex qc.proposedBlock))
  else authQC E qc

/-- `buildRoundStartQC`: the certificate a height starts from, naming the last block (or a fixed
hash and no proposer at genesis). -/
def buildRoundStartQC (lastBlock : Block) : QuorumCert :=
  if lastBlock.numberU64 = 0 then ⟨⟨0, lastBlock.number⟩, .prepareVote, 0x12345, emptyAddress, []⟩
  else ⟨⟨0, lastBlock.number⟩, .prepareVote, lastBlock.hash, lastBlock.coinbase, []⟩

/-- `broadcast`: nothing leaves a node outside the validator set; votes and NewView go to the
proposer, the leader's messages to everyone. -/
def broadcast (c : Core) (code : MsgType) (payload : Payload) : List Output :=
  if c.valSet.getByAddress c.address = none then []
  else
    let msg : Message := ⟨c.address, code, c.currentView, payload⟩
    if code = .newView ∨ code = .prepareVote ∨ code = .preCommitVote ∨ code = .commitVote then
      [.unicast c.valSet.proposer msg]
    else if code = .prepare ∨ code = .preCommit ∨ code = .commit ∨ code = .decide then
      [.broadcast msg]
    else []

/-- `sendVote`: sign the round state's unsigned vote and send it to the proposer. -/
def sendVote (c : Core) (code : MsgType) : List Output :=
  match c.cur.unsignedVote E code with
  | none => []
  | some vote => c.broadcast code (.vote { vote with blsSignature := E.blsSign c.address vote })

/-- `checkNode`: a received node needs a parent and a block; with `compare` it must also be the
local node. -/
def checkNode (c : Core) (node : ProposedBlock) (compare : Bool) : Option Err :=
  if node.parent = emptyHash ∨ node.block = none then some .invalidNode
  else if !compare then none
  else match c.cur.node with
    | none => some (.nodeCheck "current node is nil")
    | some loc =>
      if loc.hash E ≠ node.hash E then some (.nodeCheck "expect node")
      else if loc.block.map (·.hash) ≠ node.block.map (·.hash) then
        some (.nodeCheck "expect block")
      else none

/-- `checkBlock`: the block extends the last chained block (numbers compared as `uint64`) and, when
the round state is locked, is the locked block. -/
def checkBlock (c : Core) (block : Block) : Option Err :=
  let last := c.cur.lastChainedBlock
  if u64 (last.numberU64 + 1) ≠ block.numberU64 then some (.blockCheck "expect block number")
  else if last.hash ≠ block.parentHash then some (.blockCheck "expect parent hash")
  else match c.cur.lockedBlock? with
    | some lb =>
      if block.numberU64 ≠ lb.numberU64 then some (.blockCheck "expect locked block number")
      else if block.hash ≠ lb.hash then some (.blockCheck "expect locked block hash")
      else none
    | none => none

/-- `checkVote`: the vote, signature aside, is the round state's own unsigned vote. -/
def checkVote (c : Core) (vote : Vote) (code : MsgType) : Option Err :=
  if c.cur.unsignedVote E code = some vote.unsigned then none
  else some (.voteCheck "vote does not match expected vote")

/-- `safeNode`: the node extends the high certificate, and either extends the lock certificate
(safety) or the high certificate is newer than it (liveness). -/
def safeNode (c : Core) (node : ProposedBlock) (highQC : QuorumCert) : Option Err :=
  if highQC.proposedBlock ≠ node.parent then some (.nodeCheck "expect parent")
  else match c.cur.lockQC with
    | none => none
    | some lockQC =>
      if lockQC.proposedBlock = node.parent then none
      else if highQC.view.cmp lockQC.view = .gt then none
      else some .safeNode

/-- `GetMessages`. -/
def getMessages (c : Core) (code : MsgType) : Option MessageSet :=
  if code = .prepareVote then some c.cur.prepareVotes
  else if code = .preCommitVote then some c.cur.preCommitVotes
  else if code = .commitVote then some c.cur.commitVotes
  else none

/-- The decoded vote of a stored vote message. -/
def voteOf (m : Message) : Option Vote :=
  match m.msg with
  | .vote v => some v
  | _ => none

/-- `messagesToQC`: aggregate the signature shares of the vote set of `code` into a certificate
for the current node, view and proposer. -/
def messagesToQC (c : Core) (code : MsgType) : Except Err QuorumCert :=
  match c.getMessages code with
  | none => .error .invalidCode
  | some set =>
    let msgs := set.values E
    if msgs.isEmpty then .error (.qcCheck "assemble qc: not enough message")
    else
      match c.cur.unsignedVote E code with
      | none => .error (.qcCheck "could not encode expectedVote")
      | some expectedVote =>
        let sigShares := msgs.map fun m => ((voteOf m).map (·.blsSignature)).getD []
        match E.blsRecoverAggSig expectedVote sigShares with
        | none => .error .recoverAggSig
        | some aggSig =>
          .ok ⟨c.currentView, code, expectedVote.proposedBlock, c.proposer, aggSig⟩

/-! ## Queues of future requests and messages -/

/-- `checkRequestMsg`: the request's block against the current height, as big integers. -/
def checkRequestMsg (c : Core) (block : Option Block) : Option Err :=
  match block with
  | none => some .invalidMessage
  | some b =>
    if c.cur.height > b.number then some .oldMessage
    else if c.cur.height < b.number then some .futureMessage
    else none

/-- `int64` wrap-around of an integer. -/
def wrap64 (x : Int) : Int := (BitVec.ofInt 64 x).toInt

/-- `storeRequestMsg`: queue a request under the negated `int64` of its number. -/
def storeRequestMsg (c : Core) (req : Request) : Core :=
  { c with pendingRequests := c.pendingRequests.push req (wrap64 (-i64 req.block.number)) }

/-- The loop of `processPendingRequests`: repost the requests `checkRequestMsg` passes, drop the
old ones, push the first future one back and stop. -/
def drainRequests (c : Core) (fuel : Nat) (q : PQueue Request) : PQueue Request × List Output :=
  q.drain (fun r => c.checkRequestMsg (some r.block)) (fun e => decide (e = .futureMessage))
    (fun r => .requestEvent r.block) fuel

/-- `processPendingRequests`: repost every request of the current height, drop the old ones, and
stop at the first future one. -/
def processPendingRequests (c : Core) : Core × List Output :=
  let (q, out) := c.drainRequests c.pendingRequests.size c.pendingRequests
  ({ c with pendingRequests := q }, out)

/-- `messagePriorityTable`. -/
def messagePriority (code : MsgType) : Int :=
  if code.val ≤ 8 then code.val else 0

/-- `backlog.toPriority`: heights before rounds before codes, negated, in `int64`. -/
def toPriority (code : MsgType) (view : View) : Int :=
  wrap64 (-(i64 view.height * 100 + i64 view.round * 10 + messagePriority code))

/-- The queue of a sender in the backlog. -/
def backlogOf (c : Core) (addr : Address) : PQueue Message :=
  ((c.backlogs.find? (·.1 = addr)).map (·.2)).getD .empty

/-- Replace the queue of a sender. -/
def setBacklog (c : Core) (addr : Address) (q : PQueue Message) : Core :=
  if c.backlogs.any (·.1 == addr) then
    { c with backlogs := c.backlogs.map fun e => if e.1 = addr then (addr, q) else e }
  else { c with backlogs := c.backlogs ++ [(addr, q)] }

/-- `backlog.Push`. -/
def backlogPush (c : Core) (msg : Message) : Core :=
  if msg.address = emptyAddress ∨ msg.code.val > MsgType.decide.val then c
  else c.setBacklog msg.address ((c.backlogOf msg.address).push msg (toPriority msg.code msg.view))

/-- `storeBacklog`: keep a future message of another validator. -/
def storeBacklog (c : Core) (msg : Message) : Core :=
  if msg.address = c.address then c
  else if c.valSet.getByAddress msg.address = none then c
  else c.backlogPush msg

/-- The inner loop of `processBacklog` on one queue: replay the messages `checkView` passes,
drop the old ones, push the first future one back and stop. -/
def drainBacklog (c : Core) (fuel : Nat) (q : PQueue Message) : PQueue Message × List Output :=
  q.drain (fun m => c.checkView m.view) (fun e => decide (e = .futureMessage)) Output.backlogEvent
    fuel

/-- `processBacklog`: replay the queued messages of the current view, keep the future ones. -/
def processBacklog (c : Core) : Core × List Output :=
  let step := fun (acc : List (Address × PQueue Message) × List Output)
      (e : Address × PQueue Message) =>
    if c.valSet.getByAddress e.1 = none then (acc.1 ++ [e], acc.2)
    else
      let (q, out) := c.drainBacklog e.2.size e.2
      (acc.1 ++ [(e.1, q)], acc.2 ++ out)
  let (queues, out) := c.backlogs.foldl step ([], [])
  ({ c with backlogs := queues }, out)

end Core

end QuorumHotstuff.Hotstuff
