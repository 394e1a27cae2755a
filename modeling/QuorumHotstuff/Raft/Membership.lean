import Mathlib.Tactic.SplitIfs
import Mathlib.Data.List.Basic
import Mathlib.Algebra.Group.Nat.Defs

/-!
# Raft membership: proposing and applying new peers

`raft/handler.go`: `nextRaftId`, `isRaftIdRemoved`, `isRaftIdUsed`, `isNodeAlreadyInCluster`,
`ProposeNewPeer`, `addPeer`, `removePeer`, and the `EntryConfChange` branch of `eventLoop` that
applies a committed configuration change.  A membership is the part of the `ProtocolManager` these
functions read: the node's raft id and enode, the peers by raft id, the removed ids, the number of
bootstrap nodes, whether the node is a learner and whether DNS is on.  What `ProposeNewPeer`
sends on `confChangeProposalC` is kept in order in `proposals`.

`nextRaftId` is computed from the applied membership only, and proposing changes nothing of it, so
two proposals made before either is applied get the same raft id (`proposeNewPeer_same_id`).
-/

namespace QuorumHotstuff.Raft

/-- A parsed enode: the node's id (its public key), IP bytes, TCP port, the `raftport` query
parameter and its host name. -/
structure Node where
  id : Nat
  ip : List Nat
  tcp : Nat
  raftPort : Option Nat
  host : String
deriving DecidableEq, Repr

/-- `Address`, with the IP written as its host name. -/
structure Address where
  raftId : Nat
  nodeId : Nat
  p2pPort : Nat
  raftPort : Nat
  hostname : String
deriving DecidableEq, Repr

/-- `Peer`. -/
structure Peer where
  address : Address
  p2pNode : Node
deriving DecidableEq, Repr

/-- `raftpb.ConfChangeType`. -/
inductive ConfChangeType where
  | addNode
  | removeNode
  | updateNode
  | addLearnerNode
deriving DecidableEq, Repr

/-- `raftpb.ConfChange`, its context being the decoded `Address`. -/
structure ConfChange where
  type : ConfChangeType
  nodeId : Nat
  context : Address
deriving DecidableEq, Repr

/-- The membership fields of `ProtocolManager`, and the proposals sent so far. -/
structure Membership where
  raftId : Nat
  selfNode : Node
  peers : List (Nat × Peer)
  removedPeers : List Nat
  bootstrapNodes : Nat
  learner : Bool
  useDns : Bool
  proposals : List ConfChange
deriving DecidableEq, Repr

/-- The errors of `ProposeNewPeer`, from `isLearnerNode`, the address checks and
`isNodeAlreadyInCluster`. -/
inductive ProposeError where
  | learnerCannotAddPeer
  | dnsNotEnabled
  | notIPv4 (length : Nat)
  | missingRaftPort
  | selfEnode (id : Nat)
  | alreadyAdded (id : Nat)
  | p2pInUse (id raftId : Nat)
  | raftInUse (id raftId : Nat)
deriving DecidableEq, Repr

namespace Membership

variable (pm : Membership)

/-- `nextRaftId`: one more than the largest raft id in use or removed, as a `uint16`. -/
def nextRaftId : Nat :=
  let maxId := pm.peers.foldl (fun m p => max m p.1) pm.raftId
  let maxId := pm.removedPeers.foldl max maxId
  (maxId + 1) % 2 ^ 16

/-- `isRaftIdRemoved`. -/
def isRaftIdRemoved (id : Nat) : Bool := pm.removedPeers.contains id

/-- `isRaftIdUsed`. -/
def isRaftIdUsed (raftId : Nat) : Bool :=
  pm.raftId = raftId || pm.isRaftIdRemoved raftId || (pm.peers.lookup raftId).isSome

/-- The check `isNodeAlreadyInCluster` makes of one peer. -/
def peerConflict (node : Node) (peerRaftId : Nat) (peer : Peer) : Option ProposeError :=
  if peer.p2pNode.id = node.id then some (.alreadyAdded node.id)
  else if peer.p2pNode.ip = node.ip then
    if peer.p2pNode.tcp = node.tcp then some (.p2pInUse peer.p2pNode.id peerRaftId)
    else if some peer.address.raftPort = node.raftPort then
      some (.raftInUse peer.p2pNode.id peerRaftId)
    else none
  else none

/-- `isNodeAlreadyInCluster`; Go visits the peers in the map's order, here the list's. -/
def isNodeAlreadyInCluster (node : Node) : Option ProposeError :=
  if pm.selfNode.id = node.id then some (.selfEnode node.id)
  else pm.peers.findSome? fun p => peerConflict node p.1 p.2

/-- `newAddress`: the host name with DNS on and a host given, else the IP. -/
def newAddress (raftId raftPort : Nat) (node : Node) (useDns : Bool) : Address :=
  if useDns ∧ node.host ≠ "" then ⟨raftId, node.id, node.tcp, raftPort, node.host⟩
  else ⟨raftId, node.id, node.tcp, raftPort, ".".intercalate (node.ip.map toString)⟩

/-- `ProposeNewPeer` of a parsed enode: the checks, then a configuration change for the next
raft id sent to the proposal channel. -/
def proposeNewPeer (node : Node) (isLearner : Bool) : Except ProposeError (Nat × Membership) :=
  if pm.learner then .error .learnerCannotAddPeer
  else if ¬ pm.useDns ∧ node.host ≠ "" then .error .dnsNotEnabled
  else if ¬ pm.useDns ∧ node.ip.length ≠ 4 then .error (.notIPv4 node.ip.length)
  else match node.raftPort with
    | none => .error .missingRaftPort
    | some raftPort =>
      match pm.isNodeAlreadyInCluster node with
      | some err => .error err
      | none =>
        let raftId := pm.nextRaftId
        let cc : ConfChange :=
          ⟨if isLearner then .addLearnerNode else .addNode, raftId,
            newAddress raftId raftPort node pm.useDns⟩
        .ok (raftId, { pm with proposals := pm.proposals ++ [cc] })

/-- `addPeer`: the peer under its raft id. -/
def addPeer (address : Address) (node : Node) : Membership :=
  { pm with peers := (address.raftId, ⟨address, node⟩) :: pm.peers.filter (·.1 ≠ address.raftId) }

/-- `removePeer`: the peer dropped, and its id removed for good. -/
def removePeer (raftId : Nat) : Membership :=
  { pm with peers := pm.peers.filter (·.1 ≠ raftId), removedPeers := raftId :: pm.removedPeers }

/-- The enode `addPeer` builds from an address. -/
def nodeOfAddress (address : Address) : Node :=
  ⟨address.nodeId, [], address.p2pPort, some address.raftPort, address.hostname⟩

/-- The `EntryConfChange` branch of `eventLoop`: an added id that is removed, or a bootstrap id in
use, is ignored; an id in use is a learner promoted; a fresh id becomes a peer.  A removal of an
id not yet removed removes it.  `ApplyConfChange` makes the node a voter or a learner when the
change is about its own id.  A `ConfChangeUpdateNode` is `fatalf`: `none`. -/
def applyConfChange (cc : ConfChange) : Option Membership :=
  let raftId := cc.nodeId % 2 ^ 16
  let pm := match cc.type with
    | .addNode => if raftId = pm.raftId then { pm with learner := false } else pm
    | .addLearnerNode => if raftId = pm.raftId then { pm with learner := true } else pm
    | _ => pm
  match cc.type with
  | .addNode | .addLearnerNode =>
    if pm.isRaftIdRemoved raftId then some pm
    else if pm.isRaftIdUsed raftId ∧ raftId ≤ pm.bootstrapNodes then some pm
    else if pm.isRaftIdUsed raftId then some pm
    else some (pm.addPeer cc.context (nodeOfAddress cc.context))
  | .removeNode => if pm.isRaftIdRemoved raftId then some pm else some (pm.removePeer raftId)
  | .updateNode => none

/-- Whether applying the change stops the node: the removal of its own id, not yet removed
(`exitAfterApplying`). -/
def removesSelf (cc : ConfChange) : Bool :=
  cc.type = .removeNode && !pm.isRaftIdRemoved (cc.nodeId % 2 ^ 16) && cc.nodeId % 2 ^ 16 = pm.raftId

/-- Only a `ConfChangeUpdateNode` stops `eventLoop` with `fatalf`. -/
theorem applyConfChange_eq_none_iff (pm : Membership) (cc : ConfChange) :
    pm.applyConfChange cc = none ↔ cc.type = .updateNode := by
  unfold applyConfChange
  cases cc.type <;> simp only [reduceCtorEq, iff_false] <;> split_ifs <;> simp

/-- Applying a change keeps the node's own raft id. -/
theorem raftId_applyConfChange {pm pm' : Membership} {cc : ConfChange}
    (h : pm.applyConfChange cc = some pm') : pm'.raftId = pm.raftId := by
  unfold applyConfChange at h
  cases hty : cc.type with
  | updateNode => simp [hty] at h
  | removeNode =>
    simp only [hty] at h
    split_ifs at h <;> cases h <;> rfl
  | addNode =>
    simp only [hty] at h
    split_ifs at h <;> cases h <;> rfl
  | addLearnerNode =>
    simp only [hty] at h
    split_ifs at h <;> cases h <;> rfl

end Membership

/-! ## Proposals between applies -/

namespace Membership

/-- A proposal only adds to the proposal channel. -/
theorem proposeNewPeer_frame {pm pm' : Membership} {node : Node} {isLearner : Bool} {raftId : Nat}
    (h : pm.proposeNewPeer node isLearner = .ok (raftId, pm')) :
    raftId = pm.nextRaftId ∧ ∃ cc, cc.nodeId = raftId ∧ pm' = { pm with proposals := pm.proposals ++ [cc] } := by
  unfold proposeNewPeer at h
  split_ifs at h
  -- a voter or a learner: the same raft id either way
  all_goals
    split at h
    · cases h
    · split at h
      · cases h
      · cases h
        exact ⟨rfl, _, rfl, rfl⟩

/-- `nextRaftId` reads no proposal. -/
theorem nextRaftId_proposals (pm : Membership) (ps : List ConfChange) :
    ({ pm with proposals := ps } : Membership).nextRaftId = pm.nextRaftId := rfl

/-- Two proposals made before either is applied get the same raft id. -/
theorem proposeNewPeer_same_id {pm pm₁ pm₂ : Membership} {a b : Node} {la lb : Bool}
    {i j : Nat} (h₁ : pm.proposeNewPeer a la = .ok (i, pm₁))
    (h₂ : pm₁.proposeNewPeer b lb = .ok (j, pm₂)) : i = j := by
  obtain ⟨rfl, cc, -, rfl⟩ := proposeNewPeer_frame h₁
  obtain ⟨rfl, -⟩ := proposeNewPeer_frame h₂
  exact (nextRaftId_proposals pm _).symm

end Membership

/-- The node of raft id 1 in a cluster bootstrapped with the nodes 1, 2 and 3. -/
def bootstrapCluster : Membership :=
  ⟨1, ⟨11, [10, 0, 0, 1], 30301, some 50401, ""⟩,
    [(2, ⟨⟨2, 12, 30301, 50401, "10.0.0.2"⟩, ⟨12, [10, 0, 0, 2], 30301, some 50401, ""⟩⟩),
     (3, ⟨⟨3, 13, 30301, 50401, "10.0.0.3"⟩, ⟨13, [10, 0, 0, 3], 30301, some 50401, ""⟩⟩)],
    [], 3, false, false, []⟩

/-- Node 1 proposes the enode A (id 14), then the enode B (id 15) before the first change is
applied: both get raft id 4.  Applying the two committed changes in order makes A the peer 4; the
second is taken for a learner promotion, and B is never added. -/
theorem raft_id_reused :
    (bootstrapCluster.proposeNewPeer ⟨14, [10, 0, 0, 4], 30301, some 50401, ""⟩ false >>= fun r =>
      r.2.proposeNewPeer ⟨15, [10, 0, 0, 5], 30301, some 50401, ""⟩ false >>= fun r' =>
      pure (r.1, r'.1,
        (r'.2.proposals.foldlM Membership.applyConfChange r'.2).map fun pm =>
          (pm.peers.lookup 4).map (·.p2pNode.id))) =
      (.ok (4, 4, some (some 14)) : Except ProposeError _) := by
  rfl

end QuorumHotstuff.Raft
