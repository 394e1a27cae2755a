import QuorumHotstuff.Hotstuff.Types

/-!
# The round state

`consensus/hotstuff/core/round_state.go` and `message_set.go`: the per-view state of a
validator (view, phase, proposed node, lock, certificates and vote sets), its setters, and the
`round-state-*` entries it keeps in the node's database, which `reload` reads back when a core
starts.  Writing to the database never fails here: the stores only return the error of
`db.Put`, which this model does not produce.
-/

namespace QuorumHotstuff.Hotstuff

/-- `MessageSet`: the validator addresses it admits and one message per sender, in the order
the senders were first added (the order of a `map` range is `Env.mapOrder` of this list). -/
structure MessageSet where
  vs : List Address
  msgs : List Message
deriving DecidableEq, Repr

/-- `NewMessageSet`. -/
def MessageSet.new (vs : List Address) : MessageSet := ⟨vs, []⟩

/-- `MessageSet.Add`: reject a sender outside the validator set, else store the message under
its sender, replacing the earlier one. -/
def MessageSet.add (s : MessageSet) (msg : Message) : Option MessageSet :=
  if msg.address ∈ s.vs then
    if s.msgs.any (·.address == msg.address) then
      some { s with msgs := s.msgs.map fun m => if m.address = msg.address then msg else m }
    else
      some { s with msgs := s.msgs ++ [msg] }
  else
    none

/-- `MessageSet.Size`. -/
def MessageSet.size (s : MessageSet) : Nat := s.msgs.length

/-- `MessageSet.Values`. -/
def MessageSet.values (E : Env) (s : MessageSet) : List Message := E.mapOrder s.msgs

/-- `hs.Request` after `checkRequestMsg`: its block is not nil. -/
structure Request where
  block : Block
deriving DecidableEq, Repr

/-- The `round-state-*` keys of the database.  `storeView` has no caller, so `view` is only
ever read. -/
structure DB where
  view : Option View
  prepareQC : Option QuorumCert
  lockQC : Option QuorumCert
  commitQC : Option QuorumCert
  node : Option ProposedBlock
deriving DecidableEq, Repr

/-- `roundState`.  `executed` is the `Block` of the `*consensus.ExecutedBlock`, the only field
of it the core reads. -/
structure RoundState where
  round : Nat
  height : Nat
  state : State
  lastChainedBlock : Block
  pendingRequest : Option Request
  node : Option ProposedBlock
  lockedBlock : Option Block
  executed : Option Block
  proposalLocked : Bool
  newViews : MessageSet
  prepareVotes : MessageSet
  preCommitVotes : MessageSet
  commitVotes : MessageSet
  highQC : Option QuorumCert
  prepareQC : Option QuorumCert
  lockQC : Option QuorumCert
  committedQC : Option QuorumCert
deriving DecidableEq, Repr

namespace RoundState

variable (E : Env)

/-- `newRoundState`: a fresh state in `StateAcceptRequest` whose node is `new(hs.ProposedBlock)`. -/
def new (vs : List Address) (lastChainedBlock : Block) (view : View) : RoundState where
  round := view.round
  height := view.height
  state := .acceptRequest
  lastChainedBlock := lastChainedBlock
  pendingRequest := none
  node := some ⟨emptyHash, none⟩
  lockedBlock := none
  executed := none
  proposalLocked := false
  newViews := .new vs
  prepareVotes := .new vs
  preCommitVotes := .new vs
  commitVotes := .new vs
  highQC := none
  prepareQC := none
  lockQC := none
  committedQC := none

/-- `roundState.update`: the new view and chained block, with empty vote sets. -/
def update (s : RoundState) (vs : List Address) (lastChainedBlock : Block) (view : View) :
    RoundState :=
  { s with
    height := view.height
    round := view.round
    lastChainedBlock := lastChainedBlock
    newViews := .new vs
    prepareVotes := .new vs
    preCommitVotes := .new vs
    commitVotes := .new vs }

/-- `roundState.View`. -/
def view (s : RoundState) : View := ⟨s.round, s.height⟩

/-- `SetPendingRequest`: a request is accepted only once. -/
def setPendingRequest (s : RoundState) (req : Request) : RoundState :=
  if s.pendingRequest.isNone then { s with pendingRequest := some req } else s

/-- `SetProposedBlock`. -/
def setProposedBlock (s : RoundState) (node : ProposedBlock) : Option RoundState :=
  if node.block.isNone then none else some { s with node := some node }

/-- `Lock`: persist `qc` and the node, then lock on the node's block. -/
def lock (s : RoundState) (db : DB) (qc : QuorumCert) : Option (RoundState × DB) :=
  match s.node with
  | none => none
  | some n =>
    some ({ s with lockQC := some qc, lockedBlock := n.block, proposalLocked := true },
      { db with lockQC := some qc, node := some n })

/-- `Unlock`, at the start of a new height. -/
def unlock (s : RoundState) : RoundState :=
  { s with
    pendingRequest := none
    proposalLocked := false
    lockedBlock := none
    node := none
    executed := none }

/-- `LockedBlock`. -/
def lockedBlock? (s : RoundState) : Option Block :=
  if s.proposalLocked then s.lockedBlock else none

/-- `SetSealedBlock`: replace the node's block by its sealed copy, which must have the same
hash, and persist the node. -/
def setSealedBlock (s : RoundState) (db : DB) (block : Block) : Option (RoundState × DB) :=
  match s.node with
  | some ⟨parent, some b⟩ =>
    if b.hash ≠ block.hash then none
    else
      let node : ProposedBlock := ⟨parent, some block⟩
      let executed :=
        match s.executed with
        | some e => if e.hash = block.hash then some block else some e
        | none => none
      some ({ s with node := some node, lockedBlock := some block, executed := executed },
        { db with node := some node })
  | _ => none

/-- `UnsignedVote`: a vote for the current node in the current view. -/
def unsignedVote (s : RoundState) (code : MsgType) : Option Vote :=
  match s.node with
  | none => none
  | some n =>
    if n.hash E = emptyHash then none
    else some ⟨code, s.view, n.hash E, []⟩

/-- `SetPrepareQC`, persisting the certificate. -/
def setPrepareQC (s : RoundState) (db : DB) (qc : QuorumCert) : RoundState × DB :=
  ({ s with prepareQC := some qc }, { db with prepareQC := some qc })

/-- `SetCommittedQC`, persisting the certificate. -/
def setCommittedQC (s : RoundState) (db : DB) (qc : QuorumCert) : RoundState × DB :=
  ({ s with committedQC := some qc }, { db with commitQC := some qc })

/-- `loadView`: a stored view later than the requested one wins. -/
def loadView (s : RoundState) (db : DB) (cur : View) : RoundState :=
  match db.view with
  | some v => if v.cmp cur = .gt then { s with height := v.height, round := v.round } else s
  | none => s

/-- `loadPrepareQC`. -/
def loadPrepareQC (s : RoundState) (db : DB) : RoundState :=
  match db.prepareQC with | some qc => { s with prepareQC := some qc } | none => s

/-- `loadLockQC`. -/
def loadLockQC (s : RoundState) (db : DB) : RoundState :=
  match db.lockQC with | some qc => { s with lockQC := some qc } | none => s

/-- `loadCommitQC`. -/
def loadCommitQC (s : RoundState) (db : DB) : RoundState :=
  match db.commitQC with | some qc => { s with committedQC := some qc } | none => s

/-- `loadNode`. -/
def loadNode (s : RoundState) (db : DB) : RoundState :=
  match db.node with | some n => { s with node := some n } | none => s

/-- `reload`: read back the stored view, certificates and node, and relock on the node when the
stored lock certificate names it. -/
def reload (s : RoundState) (db : DB) (view : View) : RoundState :=
  let s := ((((s.loadView db view).loadPrepareQC db).loadLockQC db).loadCommitQC db).loadNode db
  match s.lockQC, s.node with
  | some qc, some n =>
    if n.block.isSome ∧ qc.proposedBlock = n.hash E then
      { s with lockedBlock := n.block, proposalLocked := true }
    else s
  | _, _ => s

/-! ### What each load step writes -/

section Load

variable (s : RoundState) (db : DB)

theorem loadView_of_none {db : DB} (h : db.view = none) (cur : View) : s.loadView db cur = s := by
  unfold loadView
  rw [h]

/-- `loadView` writes the round and the height only. -/
theorem loadView_eq (cur : View) :
    ∃ r h, s.loadView db cur = { s with round := r, height := h } := by
  unfold loadView
  split
  · split_ifs
    · exact ⟨_, _, rfl⟩
    · exact ⟨s.round, s.height, rfl⟩
  · exact ⟨s.round, s.height, rfl⟩

theorem loadPrepareQC_eq : s.loadPrepareQC db = { s with prepareQC := db.prepareQC.or s.prepareQC } := by
  unfold loadPrepareQC
  split <;> rename_i h <;> rw [h] <;> rfl

theorem loadLockQC_eq : s.loadLockQC db = { s with lockQC := db.lockQC.or s.lockQC } := by
  unfold loadLockQC
  split <;> rename_i h <;> rw [h] <;> rfl

theorem loadCommitQC_eq :
    s.loadCommitQC db = { s with committedQC := db.commitQC.or s.committedQC } := by
  unfold loadCommitQC
  split <;> rename_i h <;> rw [h] <;> rfl

theorem loadNode_eq : s.loadNode db = { s with node := db.node.or s.node } := by
  unfold loadNode
  split <;> rename_i h <;> rw [h] <;> rfl

/-- `reload` returns the loaded state, relocked on its node or not. -/
theorem reload_cases (view : View) :
    let t := ((((s.loadView db view).loadPrepareQC db).loadLockQC db).loadCommitQC db).loadNode db
    s.reload E db view = t ∨
      ∃ b, s.reload E db view = { t with lockedBlock := b, proposalLocked := true } := by
  intro t
  unfold reload
  dsimp only
  split
  · split_ifs
    · exact .inr ⟨_, rfl⟩
    · exact .inl rfl
  · exact .inl rfl

end Load

end RoundState

end QuorumHotstuff.Hotstuff
