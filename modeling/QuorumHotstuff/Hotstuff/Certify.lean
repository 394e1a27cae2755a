import QuorumHotstuff.Hotstuff.Wire
import QuorumHotstuff.Hotstuff.Progress

/-!
# Honest certificates verify

Three parties encode the same vote.  A replica's `sendVote` signs the encoding of its round
state's unsigned vote; the leader's `messagesToQC` recovers the aggregate over the encoding of its
own unsigned vote (`expectedVoteBytes`) and names the current view, the node hash and the
proposer; `AuthQC` rebuilds the vote `{Code, View, ProposedBlock}` from the decoded certificate.
In one view, on one node, the three votes coincide.  A replica in that view, under that proposer
and holding that node, then accepts the decoded certificate in the PreCommit, Commit or Decide
that carries it, as long as an aggregate the scheme recovers verifies on the vote it was recovered
for.

`verifyQC` refuses a certificate whose proposer is the zero address, so a leader whose proposer is
that address (or none, which `proposer` reads as it) forms certificates that nobody accepts.
-/

namespace QuorumHotstuff.Hotstuff

open QuorumHotstuff.Lib.Rlp

namespace RoundState

variable {E : Env}

theorem unsignedVote_eq_some {s : RoundState} {code : MsgType} {v : Vote}
    (h : s.unsignedVote E code = some v) :
    ∃ n, s.node = some n ∧ n.hash E ≠ emptyHash ∧ v = ⟨code, s.view, n.hash E, []⟩ := by
  unfold unsignedVote at h
  cases hn : s.node with
  | none => simp [hn] at h
  | some n =>
    simp only [hn] at h
    split_ifs at h with hz
    cases h
    exact ⟨n, rfl, hz, rfl⟩

/-- The unsigned vote depends on the view and the node hash only. -/
theorem unsignedVote_congr {s t : RoundState} (code : MsgType) (hview : s.view = t.view)
    (hnode : s.node.map (·.hash E) = t.node.map (·.hash E)) :
    s.unsignedVote E code = t.unsignedVote E code := by
  unfold unsignedVote
  cases hs : s.node <;> cases ht : t.node <;> simp_all

end RoundState

namespace Core

variable {E : Env}

/-- What `messagesToQC` returns: the current view, the code, the hash of the expected vote's node
    and the proposer, with an aggregate recovered for the expected vote. -/
theorem messagesToQC_ok {c : Core} {code : MsgType} {qc : QuorumCert}
    (h : c.messagesToQC E code = .ok qc) :
    ∃ ev, c.cur.unsignedVote E code = some ev ∧
      (∃ sigs, E.blsRecoverAggSig ev sigs = some qc.blsSignature) ∧
      qc = ⟨c.currentView, code, ev.proposedBlock, c.proposer, qc.blsSignature⟩ := by
  unfold messagesToQC at h
  split at h
  · cases h
  · dsimp only at h
    split_ifs at h
    split at h
    · cases h
    · rename_i ev hev
      split at h
      · cases h
      · rename_i agg hagg
        cases h
        exact ⟨ev, hev, ⟨_, hagg⟩, rfl⟩

/-- The codes of a vote and of the message that carries its certificate. -/
def carriers : List (MsgType × MsgType) :=
  [(.prepareVote, .preCommit), (.preCommitVote, .commit), (.commitVote, .decide)]

/-- On a PreCommit, Commit or Decide carrying a certificate of the matching vote code, for the
    message's view, the replica's proposer and node, `verifyQC` is `AuthQC`. -/
theorem verifyQC_of_carrier (c : Core) {dm : Message} {qc : QuorumCert}
    (hcarrier : (qc.code, dm.code) ∈ carriers) (hblock : qc.proposedBlock ≠ emptyHash)
    (hprop : qc.proposer ≠ emptyAddress) (hview : qc.view = dm.view)
    (hproposer : qc.proposer = c.proposer)
    (hnode : c.cur.node.map (·.hash E) = some qc.proposedBlock) :
    c.verifyQC E dm qc = authQC E qc := by
  have hcodes : (dm.code = .preCommit ∨ dm.code = .commit ∨ dm.code = .decide) ∧
      qcCodeMismatch dm.code qc.code = false := by
    simp only [carriers, List.mem_cons, Prod.mk.injEq, List.not_mem_nil, or_false] at hcarrier
    rcases hcarrier with ⟨h1, h2⟩ | ⟨h1, h2⟩ | ⟨h1, h2⟩ <;>
      · rw [h1, h2]
        decide
  have hnode' : c.cur.node ≠ none := by
    intro hn
    simp [hn] at hnode
  have hcmp : qc.view.cmp dm.view = .eq := by
    rw [hview]
    simp [View.cmp]
  unfold verifyQC
  by_cases hz : u64 qc.view.height = 0
  · simp [hz, authQC]
  · have hnv : ¬ (dm.code = .newView ∨ dm.code = .prepare) := by
      rcases hcodes.1 with h | h | h <;> rw [h] <;> decide
    simp [hz, hblock, hprop, hcodes.2, hnv, hcmp, ← hproposer, hnode', hnode]

/-- `AuthQC` accepts a certificate whose aggregate the scheme recovered for the certificate's own
    vote. -/
theorem authQC_of_recovered
    (hbls : ∀ v sigs agg, E.blsRecoverAggSig v sigs = some agg → E.blsVerifyAggSig v agg = true)
    {qc : QuorumCert} {sigs : List Bytes}
    (hrec : E.blsRecoverAggSig ⟨qc.code, qc.view, qc.proposedBlock, []⟩ sigs = some qc.blsSignature) :
    authQC E qc = none := by
  simp [authQC, hbls _ _ _ hrec]

/-- A certificate the leader assembles from its vote set comes back from its encoding, and a
    replica in the leader's view, under the same proposer and on the same node, accepts it in the
    message that carries it; the replica signs, the leader recovers for, and `AuthQC` checks the
    same vote bytes. -/
theorem honest_certificate_verifies (E : Env)
    (hbls : ∀ v sigs agg, E.blsRecoverAggSig v sigs = some agg → E.blsVerifyAggSig v agg = true)
    (c r : Core) (code : MsgType) (qc : QuorumCert) (dm : Message)
    (hqc : c.messagesToQC E code = .ok qc) (hleader : c.proposer ≠ emptyAddress)
    (hfits : qc.Fits) (hlen : qc.toItem.encode.length < 2 ^ 64)
    (hcarrier : (code, dm.code) ∈ carriers) (hview : dm.view = c.currentView)
    (hrview : r.currentView = c.currentView) (hrprop : r.proposer = c.proposer)
    (hrnode : r.cur.node.map (·.hash E) = c.cur.node.map (·.hash E)) :
    decodeAs QuorumCert.ofItem qc.toItem.encode = some qc ∧
      r.verifyQC E dm qc = none ∧
      (c.cur.unsignedVote E code).map (·.toItem.encode) =
        some (Vote.toItem ⟨qc.code, qc.view, qc.proposedBlock, []⟩).encode ∧
      (r.cur.unsignedVote E code).map (·.toItem.encode) =
        some (Vote.toItem ⟨qc.code, qc.view, qc.proposedBlock, []⟩).encode := by
  obtain ⟨ev, hev, ⟨sigs, hrec⟩, hq⟩ := messagesToQC_ok hqc
  obtain ⟨n, hn, hnz, rfl⟩ := RoundState.unsignedVote_eq_some hev
  -- the certificate names the expected vote's view, code and node, and the leader's proposer
  have hcode : qc.code = code := by rw [hq]
  have hqview : qc.view = c.currentView := by rw [hq]
  have hblock : qc.proposedBlock = n.hash E := by rw [hq]
  have hprop : qc.proposer = c.proposer := by rw [hq]
  have hvote : (⟨qc.code, qc.view, qc.proposedBlock, []⟩ : Vote) =
      ⟨code, c.cur.view, n.hash E, []⟩ := by
    rw [hcode, hqview, hblock]
    rfl
  have hrvote : r.cur.unsignedVote E code = c.cur.unsignedVote E code :=
    RoundState.unsignedVote_congr code hrview hrnode
  have hrn : r.cur.node.map (·.hash E) = some qc.proposedBlock := by
    rw [hrnode, hn, hblock]
    rfl
  have hverify : r.verifyQC E dm qc = authQC E qc :=
    verifyQC_of_carrier r (hcode ▸ hcarrier) (hblock ▸ hnz) (hprop ▸ hleader)
      (hqview.trans hview.symm) (hprop.trans hrprop.symm) hrn
  refine ⟨decodeAs_encode hlen (QuorumCert.ofItem_toItem hfits), ?_, ?_, ?_⟩
  · rw [hverify]
    exact authQC_of_recovered hbls (hvote ▸ hrec)
  · rw [hev, hvote]
    rfl
  · rw [hrvote, hev, hvote]
    rfl

/-- The leader `a` of view `(0, 1)` among validators `[0, 1, 2, 3]`, on a node with one vote
    stored. -/
def votingLeader (a : Address) : Core where
  address := a
  valSet := ⟨[0, 1, 2, 3], .roundRobin, some a⟩
  db := ⟨none, none, none, none, none⟩
  current := some { RoundState.new [0, 1, 2, 3] ⟨0, 0, 0, 5⟩ ⟨0, 1⟩ with
    node := some ⟨0x12345, some ⟨1, 5, a, 11⟩⟩
    prepareVotes := ⟨[0, 1, 2, 3], [⟨1, .prepareVote, ⟨0, 1⟩, .vote ⟨.prepareVote, ⟨0, 1⟩,
      (⟨0x12345, some ⟨1, 5, a, 11⟩⟩ : ProposedBlock).hash exampleEnv, [1]⟩⟩]⟩ }
  backlogs := []
  pendingRequests := ⟨[]⟩
  isRunning := true

/-- The certificate `votingLeader a` assembles. -/
def votingQC (a : Address) : QuorumCert :=
  ⟨⟨0, 1⟩, .prepareVote, (⟨0x12345, some ⟨1, 5, a, 11⟩⟩ : ProposedBlock).hash exampleEnv, a, [1]⟩

theorem honest_certificate_verifies_example :
    decodeAs QuorumCert.ofItem (votingQC 1).toItem.encode = some (votingQC 1) ∧
      (votingLeader 1).verifyQC exampleEnv ⟨1, .preCommit, ⟨0, 1⟩, .qc (votingQC 1)⟩ (votingQC 1) =
        none ∧
      ((votingLeader 1).cur.unsignedVote exampleEnv .prepareVote).map (·.toItem.encode) =
        some (Vote.toItem ⟨(votingQC 1).code, (votingQC 1).view, (votingQC 1).proposedBlock, []⟩).encode ∧
      ((votingLeader 1).cur.unsignedVote exampleEnv .prepareVote).map (·.toItem.encode) =
        some (Vote.toItem ⟨(votingQC 1).code, (votingQC 1).view, (votingQC 1).proposedBlock, []⟩).encode :=
  honest_certificate_verifies exampleEnv (fun _ _ _ _ => rfl) (votingLeader 1) (votingLeader 1)
    .prepareVote (votingQC 1) ⟨1, .preCommit, ⟨0, 1⟩, .qc (votingQC 1)⟩ (by decide) (by decide)
    ⟨by decide, by decide, by decide⟩ (by decide) (by decide) rfl rfl rfl rfl

/-- The certificate of a leader at the zero address, refused by that leader itself as a replica:
    every aggregate verifies in `exampleEnv`, yet `verifyQC` takes the zero proposer for a missing
    one. -/
theorem zero_address_leader_refused :
    (∀ v agg, exampleEnv.blsVerifyAggSig v agg = true) ∧
    (votingLeader 0).messagesToQC exampleEnv .prepareVote = .ok (votingQC 0) ∧
    (votingLeader 0).verifyQC exampleEnv ⟨0, .preCommit, ⟨0, 1⟩, .qc (votingQC 0)⟩ (votingQC 0) =
      some (.qcCheck "qc.ProposedBlock, Proposer, Seal or BLSSig is nil") :=
  ⟨fun _ _ => rfl, by decide, by decide⟩

end Core

end QuorumHotstuff.Hotstuff
