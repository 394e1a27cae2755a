import QuorumHotstuff.Qbft.RoundChange
import QuorumHotstuff.Lib.PriorityQueue

/-!
# The QBFT core: state, checks, queues and new rounds

`qbft/core/core.go`, `roundstate.go`, `backlog.go`, `request.go` and `types.go`.  A check
returns `Option Err`, `none` being Go's `nil`.  What the core sends or hands to the backend is an
`Output`; the events it posts to itself (backlog replays, pending requests) are outputs too, and
come back only as later inputs.  The three timers are flags: `roundChangeTimer` is armed or not,
the future PRE-PREPARE timer holds the message it will replay, and the new-round timer of
`handleRequest` the request it will propose.
-/

namespace QuorumHotstuff.Qbft

open QuorumHotstuff.Istanbul QuorumHotstuff.Lib

/-- `State`. -/
inductive State where
  | acceptRequest
  | preprepared
  | prepared
  | committed
deriving DecidableEq, Repr

/-- The `uint64` value of a state, which `State.Cmp` compares. -/
def State.toNat : State → Nat
  | .acceptRequest => 0
  | .preprepared => 1
  | .prepared => 2
  | .committed => 3

/-- The errors of `qbft/core/errors.go`, the backend's errors on a proposal, and the texts of the
`errors.New` and `fmt.Errorf` failures. -/
inductive Err where
  | notFromProposer
  | futureMessage
  | oldMessage
  | invalidMessage
  | invalidSigner
  | invalidPreparedBlock
  | futureBlock
  | invalidProposal
  | text (s : String)
deriving DecidableEq, Repr

/-- What `backend.Verify` says of a proposal: valid, a block of the future to retry after a
duration, or invalid. -/
inductive VerifyResult where
  | ok
  | futureBlock (duration : Nat)
  | invalid
deriving DecidableEq, Repr

/-- The backend and the configuration the core calls. -/
structure Env where
  /-- `GetSignatureAddress` of the signed data. -/
  recover : SignedData → Signature → Option Address
  /-- `backend.Sign` with the node's key. -/
  sign : Address → SignedData → Signature
  /-- `SignWithoutHashing(PrepareCommittedSeal(header, round))`. -/
  commitSeal : Address → Proposal → Nat → Bytes
  verify : Proposal → VerifyResult
  /-- Whether `backend.Commit` succeeds. -/
  commit : Proposal → List Bytes → Nat → Bool
  /-- `backend.Validators(lastProposal)`. -/
  validators : Proposal → ValidatorSet
  config : Config

/-- `Request`. -/
structure Request where
  proposal : Proposal
  rcMessages : Option (MsgSet RoundChange)
  prepareMessages : List Prepare
deriving DecidableEq

/-- `roundState`. -/
structure RoundState where
  round : Nat
  sequence : Nat
  preprepare : Option Preprepare
  qbftPrepares : MsgSet Prepare
  qbftCommits : MsgSet Commit
  pendingRequest : Option Request
  preparedRound : Option Nat
  preparedBlock : Option Proposal
  preprepareSent : Nat
deriving DecidableEq

namespace RoundState

/-- `newRoundState`. -/
def new (view : View) (preprepare : Option Preprepare) (preparedRound : Option Nat)
    (preparedBlock : Option Proposal) (pendingRequest : Option Request) : RoundState :=
  ⟨view.round, view.sequence, preprepare, MsgSet.empty, MsgSet.empty, pendingRequest,
    preparedRound, preparedBlock, 0⟩

/-- `Proposal`. -/
def proposal (s : RoundState) : Option Proposal := s.preprepare.map (·.proposal)

end RoundState

instance : Inhabited RoundState := ⟨RoundState.new ⟨0, 0⟩ none none none none⟩

/-- What a step hands to the outside: a message broadcast to every validator (the sender
included) or gossiped to the others, a block passed to `backend.Commit` with its seals and round,
and the events the core posts to itself. -/
inductive Output where
  | broadcast (m : QBFTMessage)
  | gossip (m : QBFTMessage)
  | commit (proposal : Proposal) (seals : List Bytes) (round : Nat)
  | requestEvent (proposal : Proposal)
  | backlogEvent (m : QBFTMessage)
deriving DecidableEq, Repr

/-- An output the core posts to itself: a pending request or a backlogged message handed back to
the event loop. -/
def Output.IsReplay : Output → Prop
  | .requestEvent _ => True
  | .backlogEvent _ => True
  | _ => False

/-- `core`. -/
structure Core where
  address : Address
  state : State
  valSet : ValidatorSet
  backlogs : List (Address × PQueue QBFTMessage)
  current : Option RoundState
  roundChangeSet : RoundChangeSet
  qbftPreparedPrepares : Option (List Prepare)
  pendingRequests : PQueue Request
  roundChangeTimer : Bool
  futurePreprepareTimer : Option Preprepare
  newRoundTimer : Option Request
deriving DecidableEq

namespace Core

variable (E : Env)

/-- `c.current`, dereferenced: every caller runs after `Start` has set it. -/
def cur (c : Core) : RoundState := c.current.getD default

/-- Store the round state back. -/
def setCur (c : Core) (s : RoundState) : Core := { c with current := some s }

/-- `currentView`. -/
def currentView (c : Core) : View := ⟨c.cur.round, c.cur.sequence⟩

/-- `IsProposer`. -/
def isProposer (c : Core) : Bool := c.valSet.isProposer c.address

/-- `QuorumSize`. -/
def quorumSize (c : Core) : Int := Istanbul.quorumSize E.config c.cur.sequence c.valSet

/-- `newRoundChangeTimer`. -/
def newRoundChangeTimer (c : Core) : Core :=
  { c with roundChangeTimer := true, futurePreprepareTimer := none }

/-- `stopTimer`. -/
def stopTimer (c : Core) : Core :=
  { c with roundChangeTimer := false, futurePreprepareTimer := none }

/-! ## Requests -/

/-- `checkRequestMsg`. -/
def checkRequestMsg (c : Core) (request : Request) : Option Err :=
  if c.cur.sequence > request.proposal.number then some .oldMessage
  else if c.cur.sequence < request.proposal.number then some .futureMessage
  else none

/-- `storeRequestMsg`. -/
def storeRequestMsg (c : Core) (request : Request) : Core :=
  { c with pendingRequests := c.pendingRequests.push request (-(request.proposal.number : Int)) }

/-- The loop of `processPendingRequests`: repost the requests `checkRequestMsg` passes, drop the
old ones, push the first future one back and stop. -/
def drainRequests (c : Core) (fuel : Nat) (q : PQueue Request) : PQueue Request × List Output :=
  q.drain c.checkRequestMsg (fun e => decide (e = .futureMessage))
    (fun r => .requestEvent r.proposal) fuel

/-- `processPendingRequests`: repost every request of the current sequence, drop the old ones,
and stop at the first future one. -/
def processPendingRequests (c : Core) : Core × List Output :=
  let (q, out) := c.drainRequests c.pendingRequests.size c.pendingRequests
  ({ c with pendingRequests := q }, out)

/-! ## The backlog -/

/-- `checkMessage`: a ROUND-CHANGE is future only for a later sequence and old below the current
view; any other message must be of the current view and of a code the state accepts. -/
def checkMessage (c : Core) (msgCode : Nat) (view : View) : Option Err :=
  if msgCode = roundChangeCode then
    if view.sequence > c.currentView.sequence then some .futureMessage
    else if view.cmp c.currentView = .lt then some .oldMessage
    else none
  else if view.cmp c.currentView = .gt then some .futureMessage
  else if view.cmp c.currentView = .lt then some .oldMessage
  else
    match c.state with
    | .acceptRequest => if msgCode > preprepareCode then some .futureMessage else none
    | .preprepared =>
      if msgCode < prepareCode then some .invalidMessage
      else if msgCode > prepareCode then some .futureMessage
      else none
    | .prepared => if msgCode < commitCode then some .invalidMessage else none
    | .committed => some .invalidMessage

/-- `msgPriority`, zero for a code it does not list. -/
def msgPriority (code : Nat) : Nat :=
  if code = preprepareCode then 1 else if code = commitCode then 2
  else if code = prepareCode then 3 else 0

/-- `toPriority`, in `uint64` before the negation (the `float32` rounding is left out). -/
def toPriority (msgCode : Nat) (view : View) : Int :=
  if msgCode = roundChangeCode then -(u64 (u64 view.sequence * 1000) : Int)
  else -(u64 (u64 view.sequence * 1000 + u64 view.round * 10 + msgPriority msgCode) : Int)

/-- The queue of a source in the backlog. -/
def backlogOf (c : Core) (addr : Address) : PQueue QBFTMessage :=
  ((c.backlogs.find? (·.1 = addr)).map (·.2)).getD .empty

/-- Replace the queue of a source. -/
def setBacklog (c : Core) (addr : Address) (q : PQueue QBFTMessage) : Core :=
  if c.backlogs.any (·.1 == addr) then
    { c with backlogs := c.backlogs.map fun e => if e.1 = addr then (addr, q) else e }
  else { c with backlogs := c.backlogs ++ [(addr, q)] }

/-- `addToBacklog`: keep a future message of another node. -/
def addToBacklog (c : Core) (msg : QBFTMessage) : Core :=
  if msg.source = c.address then c
  else c.setBacklog msg.source ((c.backlogOf msg.source).push msg (toPriority msg.code msg.view))

/-- The inner loop of `processBacklog` on one queue: replay the messages `checkMessage` passes,
drop the others it refuses, push the first future one back and stop. -/
def drainBacklog (c : Core) (fuel : Nat) (q : PQueue QBFTMessage) :
    PQueue QBFTMessage × List Output :=
  q.drain (fun m => c.checkMessage m.code m.view) (fun e => decide (e = .futureMessage))
    Output.backlogEvent fuel

/-- One source of `processBacklog`: its queue is deleted when the source is no validator, and
drained otherwise. -/
def processQueue (c : Core) (acc : List (Address × PQueue QBFTMessage) × List Output)
    (e : Address × PQueue QBFTMessage) : List (Address × PQueue QBFTMessage) × List Output :=
  if c.valSet.getByAddress e.1 = none then acc
  else
    let (q, out) := c.drainBacklog e.2.size e.2
    (acc.1 ++ [(e.1, q)], acc.2 ++ out)

/-- `processBacklog`: drop the queues of non-validators, replay the messages each queue holds up
to its first future one. -/
def processBacklog (c : Core) : Core × List Output :=
  let (queues, out) := c.backlogs.foldl c.processQueue ([], [])
  ({ c with backlogs := queues }, out)

/-- `setState`: entering `StateAcceptRequest` reposts the pending requests; every call replays
the backlog. -/
def setState (c : Core) (state : State) : Core × List Output :=
  let c := { c with state := state }
  let (c, o1) := if state = .acceptRequest then c.processPendingRequests else (c, [])
  let (c, o2) := c.processBacklog
  (c, o1 ++ o2)

/-! ## New rounds -/

/-- `updateRoundState`: a round change keeps the PRE-PREPARE, the prepared round and block and
the pending request. -/
def updateRoundState (c : Core) (view : View) (roundChange : Bool) : Core :=
  match c.current, roundChange with
  | some s, true =>
    c.setCur (RoundState.new view s.preprepare s.preparedRound s.preparedBlock s.pendingRequest)
  | _, _ => c.setCur (RoundState.new view none none none none)

/-- The view `startNewRound` moves to, with whether it is a round change, or `none` when it
returns early.  The round is a `big.Int`, negative only when `getMinRoundChange` converted a
`uint64` above `2^63`. -/
def newRoundView (c : Core) (lastProposal : Proposal) (round : Int) : Option (View × Bool) :=
  match c.current with
  | none => some (⟨0, lastProposal.number + 1⟩, false)
  | some s =>
    if lastProposal.number ≥ s.sequence then some (⟨0, lastProposal.number + 1⟩, false)
    else if (lastProposal.number : Int) = Hotstuff.i64 (Hotstuff.i64 s.sequence - 1) then
      if round = 0 then none
      else if round < s.round then none
      else some (⟨round.toNat, s.sequence⟩, true)
    else none

/-- The core at the view `startNewRound` moves to: the validators of the new sequence unless it is
a round change, the round state of `updateRoundState`, and the proposer of the new round. -/
def enterRound (c : Core) (head : Proposal × Address) (newView : View) (roundChange : Bool) :
    Core :=
  let c := if roundChange then c else { c with valSet := E.validators head.1 }
  let c := c.updateRoundState newView roundChange
  { c with valSet := c.valSet.calcProposer head.2 (u64 newView.round) }

/-- The round changes `startNewRound` keeps: none at round zero, those of the round and above
otherwise, with an entry for the round; above round zero the round-change timer is armed. -/
def resetRoundChanges (c : Core) (round : Int) : Core :=
  let c :=
    if u64 round.natAbs = 0 then
      { c with qbftPreparedPrepares := none, roundChangeSet := RoundChangeSet.new c.valSet }
    else { c with roundChangeSet := c.roundChangeSet.clearLowerThan round }
  let c := { c with roundChangeSet := c.roundChangeSet.newRound round }
  if u64 round.natAbs > 0 then c.newRoundChangeTimer else c

/-- `startNewRound`: move to the view `newRoundView` gives, enter `StateAcceptRequest`, and reset
the round changes. -/
def startNewRound (c : Core) (head : Proposal × Address) (round : Int) : Core × List Output :=
  match c.newRoundView head.1 round with
  | none => (c, [])
  | some (newView, roundChange) =>
    let (c, out) := (c.enterRound E head newView roundChange).setState .acceptRequest
    (c.resetRoundChanges round, out)

/-! ## What the queues replay -/

/-- The pending requests' loop reposts only queued requests of the current sequence. -/
theorem processPendingRequests_spec (c : Core) :
    c.processPendingRequests.1 = { c with pendingRequests := c.processPendingRequests.1.pendingRequests } ∧
    c.processPendingRequests.1.pendingRequests.items.Subperm c.pendingRequests.items ∧
    ∀ o ∈ c.processPendingRequests.2, ∃ r ∈ c.pendingRequests.items.map (·.1),
      c.checkRequestMsg r = none ∧ o = .requestEvent r.proposal :=
  ⟨rfl, PQueue.drain_spec _ _ _ _ _⟩

/-- The backlog after some of its sources: the queues kept are of validators and part of what they
held, and every replay is of a queued message of a validator that `checkMessage` passes. -/
def BacklogDrained (c : Core) (acc : List (Address × PQueue QBFTMessage) × List Output) : Prop :=
  (∀ e ∈ acc.1, c.valSet.getByAddress e.1 ≠ none ∧ ∃ q, (e.1, q) ∈ c.backlogs ∧ e.2.items.Subperm q.items) ∧
  ∀ o ∈ acc.2, ∃ m, o = .backlogEvent m ∧ c.checkMessage m.code m.view = none ∧
    ∃ e ∈ c.backlogs, c.valSet.getByAddress e.1 ≠ none ∧ m ∈ e.2.items.map (·.1)

theorem BacklogDrained.processQueue {c : Core} {acc : List (Address × PQueue QBFTMessage) × List Output}
    (h : c.BacklogDrained acc) {e : Address × PQueue QBFTMessage} (he : e ∈ c.backlogs) :
    c.BacklogDrained (c.processQueue acc e) := by
  unfold Core.processQueue
  split_ifs with hv
  · exact h
  · -- the drained queue of a validator joins the kept ones, its replays the outputs
    obtain ⟨hsub, hout⟩ := PQueue.drain_spec (fun m => c.checkMessage m.code m.view)
      (fun e => decide (e = .futureMessage)) Output.backlogEvent e.2.size e.2
    refine ⟨fun e' he' => ?_, fun o ho => ?_⟩
    · rcases List.mem_append.mp he' with he' | he'
      · exact h.1 e' he'
      · obtain rfl := List.mem_singleton.mp he'
        exact ⟨hv, e.2, he, hsub⟩
    · rcases List.mem_append.mp ho with ho | ho
      · exact h.2 o ho
      · obtain ⟨m, hm, hc, rfl⟩ := hout o ho
        exact ⟨m, rfl, hc, e, he, hv, hm⟩

/-- `processBacklog` changes the backlog only: it keeps the queues of validators, each a part of
what it held, and replays only queued messages of validators that `checkMessage` passes. -/
theorem processBacklog_spec (c : Core) :
    c.processBacklog.1 = { c with backlogs := c.processBacklog.1.backlogs } ∧
    c.BacklogDrained (c.processBacklog.1.backlogs, c.processBacklog.2) := by
  refine ⟨rfl, ?_⟩
  -- the fold over the sources keeps the invariant from the empty start
  have hfold : ∀ (l : List (Address × PQueue QBFTMessage)) acc, (∀ e ∈ l, e ∈ c.backlogs) →
      c.BacklogDrained acc → c.BacklogDrained (l.foldl c.processQueue acc) := by
    intro l
    induction l with
    | nil => intro acc _ h; exact h
    | cons e l ih =>
      intro acc hl h
      exact ih _ (fun e' he' => hl e' (List.mem_cons_of_mem e he'))
        (h.processQueue (hl e List.mem_cons_self))
  exact hfold c.backlogs ([], []) (fun _ h => h) ⟨by simp, by simp⟩

/-- `setState` sets the state and hands back pending requests and backlogged messages; nothing else
of the core changes. -/
theorem setState_spec (c : Core) (state : State) :
    (c.setState state).1 = { c with state := state
                                    pendingRequests := (c.setState state).1.pendingRequests
                                    backlogs := (c.setState state).1.backlogs } ∧
    ∀ o ∈ (c.setState state).2, o.IsReplay := by
  unfold setState
  split_ifs
  · refine ⟨rfl, fun o ho => ?_⟩
    rcases List.mem_append.mp ho with ho | ho
    · obtain ⟨_, _, _, rfl⟩ := (processPendingRequests_spec _).2.2 o ho
      trivial
    · obtain ⟨_, rfl, _⟩ := (processBacklog_spec _).2.2 o ho
      trivial
  · refine ⟨rfl, fun o ho => ?_⟩
    rcases List.mem_append.mp ho with ho | ho
    · cases ho
    · obtain ⟨_, rfl, _⟩ := (processBacklog_spec _).2.2 o ho
      trivial

@[simp] theorem state_setState (c : Core) (state : State) : (c.setState state).1.state = state := by
  rw [(setState_spec c state).1]

@[simp] theorem current_setState (c : Core) (state : State) :
    (c.setState state).1.current = c.current := by
  rw [(setState_spec c state).1]

@[simp] theorem valSet_setState (c : Core) (state : State) : (c.setState state).1.valSet = c.valSet := by
  rw [(setState_spec c state).1]

@[simp] theorem roundChangeSet_setState (c : Core) (state : State) :
    (c.setState state).1.roundChangeSet = c.roundChangeSet := by
  rw [(setState_spec c state).1]

@[simp] theorem cur_setState (c : Core) (state : State) : (c.setState state).1.cur = c.cur := by
  unfold cur
  rw [current_setState]

@[simp] theorem currentView_setState (c : Core) (state : State) :
    (c.setState state).1.currentView = c.currentView := by
  unfold currentView
  rw [cur_setState]

/-! ## What new rounds do -/

/-- `updateRoundState` moves the round state to the view, keeping the PRE-PREPARE only on a round
change from a round state; nothing else of the core changes. -/
theorem updateRoundState_spec (c : Core) (view : View) (roundChange : Bool) :
    c.updateRoundState view roundChange =
      c.setCur (if roundChange ∧ c.current.isSome then
        RoundState.new view c.cur.preprepare c.cur.preparedRound c.cur.preparedBlock c.cur.pendingRequest
      else RoundState.new view none none none none) := by
  unfold updateRoundState
  cases hc : c.current <;> cases roundChange <;> simp [cur, hc]

/-- The view `startNewRound` moves to is after the current one, or the current one itself on a
round change to the current round, which is not round zero. -/
theorem newRoundView_later {c : Core} {last : Proposal} {round : Int} {v : View} {rc : Bool}
    (h : c.newRoundView last round = some (v, rc)) :
    c.currentView.lt v ∨ (rc = true ∧ round ≠ 0 ∧ round = c.cur.round ∧ v = c.currentView) := by
  unfold newRoundView at h
  unfold currentView cur
  split at h
  · -- no round state: the default view is before every new sequence
    rename_i hnone
    cases h
    rw [hnone]
    left; left
    exact Nat.succ_pos _
  · rename_i s hs
    rw [hs]
    simp only [Option.getD_some]
    split_ifs at h with hnew _ hzero hlow
    · cases h
      left; left
      show s.sequence < last.number + 1
      omega
    · cases h
      -- a round change: the new round is at least the current one
      by_cases heq : round = s.round
      · right
        exact ⟨rfl, hzero, heq, by simp [heq]⟩
      · left; right
        show s.sequence = s.sequence ∧ s.round < round.toNat
        omega

@[simp] theorem currentView_enterRound (c : Core) (head : Proposal × Address) (v : View)
    (rc : Bool) : (c.enterRound E head v rc).currentView = v := by
  unfold enterRound
  dsimp only
  rw [updateRoundState_spec]
  split_ifs <;> rfl

/-- The validators of a new round: the current ones on a round change, the backend's for the
new sequence otherwise; the proposer changes only. -/
theorem validators_enterRound (c : Core) (head : Proposal × Address) (v : View) (rc : Bool) :
    (c.enterRound E head v rc).valSet.validators =
      (if rc then c.valSet else E.validators head.1).validators := by
  unfold enterRound
  dsimp only
  rw [updateRoundState_spec]
  cases rc <;> rfl

@[simp] theorem roundChangeSet_enterRound (c : Core) (head : Proposal × Address) (v : View)
    (rc : Bool) : (c.enterRound E head v rc).roundChangeSet = c.roundChangeSet := by
  unfold enterRound
  dsimp only
  rw [updateRoundState_spec]
  cases rc <;> rfl

theorem resetRoundChanges_frame (c : Core) (round : Int) :
    (c.resetRoundChanges round).current = c.current ∧ (c.resetRoundChanges round).state = c.state ∧
      (c.resetRoundChanges round).valSet = c.valSet := by
  unfold resetRoundChanges newRoundChangeTimer
  split_ifs <;> exact ⟨rfl, rfl, rfl⟩

theorem rounds64_resetRoundChanges {c : Core} (h : c.roundChangeSet.Rounds64) (round : Int) :
    (c.resetRoundChanges round).roundChangeSet.Rounds64 := by
  unfold resetRoundChanges newRoundChangeTimer
  split_ifs
  · exact (RoundChangeSet.rounds64_new _).newRound _
  · exact (RoundChangeSet.rounds64_new _).newRound _
  · exact (h.clearLowerThan _).newRound _
  · exact (h.clearLowerThan _).newRound _

/-- At round zero the round changes start afresh. -/
theorem rounds64_resetRoundChanges_zero (c : Core) : (c.resetRoundChanges 0).roundChangeSet.Rounds64 := by
  have h0 : u64 (0 : Int).natAbs = 0 := rfl
  unfold resetRoundChanges newRoundChangeTimer
  simp only [h0, if_true, gt_iff_lt, lt_self_iff_false, if_false]
  exact (RoundChangeSet.rounds64_new _).newRound _

/-- `startNewRound` either returns early and changes nothing, or moves to the core of
`enterRound` in `StateAcceptRequest` and only replays. -/
theorem startNewRound_cases (c : Core) (head : Proposal × Address) (round : Int) :
    (c.newRoundView head.1 round = none ∧ c.startNewRound E head round = (c, [])) ∨
    ∃ v rc, c.newRoundView head.1 round = some (v, rc) ∧
      (c.startNewRound E head round).1.current = (c.enterRound E head v rc).current ∧
      (c.startNewRound E head round).1.state = .acceptRequest ∧
      (c.startNewRound E head round).1.valSet = (c.enterRound E head v rc).valSet ∧
      ∀ o ∈ (c.startNewRound E head round).2, o.IsReplay := by
  unfold startNewRound
  cases hv : c.newRoundView head.1 round with
  | none => exact .inl ⟨rfl, rfl⟩
  | some vrc =>
    obtain ⟨v, rc⟩ := vrc
    right
    -- `setState` keeps the round state and validators of `enterRound`, and the reset keeps them
    obtain ⟨hs, hout⟩ := setState_spec (c.enterRound E head v rc) .acceptRequest
    obtain ⟨hcur, hst, hval⟩ := resetRoundChanges_frame
      ((c.enterRound E head v rc).setState .acceptRequest).1 round
    refine ⟨v, rc, rfl, ?_, ?_, ?_, hout⟩
    · rw [hcur, hs]
    · rw [hst, hs]
    · rw [hval, hs]

/-- The rounds of round changes stay `uint64` through a new round. -/
theorem rounds64_startNewRound {c : Core} (h : c.roundChangeSet.Rounds64) (head : Proposal × Address)
    (round : Int) : (c.startNewRound E head round).1.roundChangeSet.Rounds64 := by
  unfold startNewRound
  split
  · exact h
  · rename_i v rc _
    apply rounds64_resetRoundChanges
    rw [roundChangeSet_setState, roundChangeSet_enterRound]
    exact h

end Core

end QuorumHotstuff.Qbft
