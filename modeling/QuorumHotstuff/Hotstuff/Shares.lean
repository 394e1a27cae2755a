import QuorumHotstuff.Hotstuff.Backlog

/-!
# Signature shares in the vote sets

`checkVote` compares a vote with the round state's own unsigned vote, so the share a vote carries
is never looked at before the proposer stores the vote; the share is only read when
`messagesToQC` hands every stored share to `BLSRecoverAggSig`, which is `tbls.Recover`.  That
routine reads the shares in the order given, fails the whole recovery at the first share that
does not verify under the public share of its own index, and stops once it holds the threshold.
`shareEnv` is such a scheme: a share names its index in its first byte.

With four validators the quorum is three.  The proposer 1 gathers its own vote and the honest
votes of 2 and 3, but validator 4 voted first with a share that does not verify; the map order
puts that vote first, so every attempt to form the prepare certificate fails, and the proposer
never sends its PreCommit.
-/

namespace QuorumHotstuff.Hotstuff

open QuorumHotstuff.Lib

namespace Core

/-- The share a vote carries never decides whether `checkVote` admits it. -/
theorem checkVote_ignores_share (E : Env) (c : Core) (v : Vote) (s : Bytes) (code : MsgType) :
    c.checkVote E { v with blsSignature := s } code = c.checkVote E v code := rfl

/-- The share of the validator with index `a` on a vote. -/
def shareOf (a : Address) (v : Vote) : Bytes :=
  [a, v.code.val, v.view.round, v.view.height, v.proposedBlock]

/-- The aggregate signature on a vote. -/
def aggregateOf (v : Vote) : Bytes := [0, v.code.val, v.view.round, v.view.height, v.proposedBlock]

/-- `tbls.Recover` with threshold `t` over the indices `1..4`: `n` valid shares read so far. -/
def recoverShares (v : Vote) (t : Nat) : List Bytes → Nat → Option Bytes
  | [], n => if t ≤ n then some (aggregateOf v) else none
  | s :: rest, n =>
    match s.head? with
    | some i =>
      if i ∈ [1, 2, 3, 4] ∧ s = shareOf i v then
        if t ≤ n + 1 then some (aggregateOf v) else recoverShares v t rest (n + 1)
      else none
    | none => none

/-- Threshold BLS over four shares with threshold three; the map order keeps insertion order. -/
def shareEnv : Env where
  keccak256 _ := 0
  rlpHash p h := p + h + 1
  verify _ := true
  executeBlock _ := true
  sealBlock b _ := some b
  blsSign a v := shareOf a v.unsigned
  blsRecoverAggSig v sigs := recoverShares v 3 sigs 0
  blsVerifyAggSig v sig := sig = aggregateOf v.unsigned
  mapOrder ms := ms

def leaderNewView (a : Address) : Message := ⟨a, .newView, ⟨0, 1⟩, .qc startQC⟩

/-- The prepare vote on the proposer's node in view `(0, 1)`, with the share `sig`. -/
def leaderVote (a : Address) (sig : Bytes) : Message :=
  ⟨a, .prepareVote, ⟨0, 1⟩, .vote ⟨.prepareVote, ⟨0, 1⟩, (forkNode 11).hash shareEnv, sig⟩⟩

def honestShare (a : Address) : Bytes :=
  shareEnv.blsSign a ⟨.prepareVote, ⟨0, 1⟩, (forkNode 11).hash shareEnv, []⟩

/-- The proposer 1 of view `(0, 1)` on the genesis head: three NewViews, its request, its own
    Prepare, the vote of 4 with a bad share, then the honest votes of 2, 3 and 1. -/
def leaderEvents : List ((Block × Address) × Event) :=
  [(forkHead, .message 2 (leaderNewView 2)), (forkHead, .message 3 (leaderNewView 3)),
   (forkHead, .message 4 (leaderNewView 4)), (forkHead, .request (some (forkBlock 11))),
   (forkHead, .message 1 (forkPrepare 0 11)), (forkHead, .message 4 (leaderVote 4 [4, 9, 9])),
   (forkHead, .message 2 (leaderVote 2 (honestShare 2))),
   (forkHead, .message 3 (leaderVote 3 (honestShare 3))),
   (forkHead, .message 1 (leaderVote 1 (honestShare 1)))]

def leaderStart : Core × List Output := (forkCore 1).start shareEnv forkHead

def leaderConfig : Core × List Output := runList (next shareEnv) leaderStart leaderEvents

/-- The proposer's own Prepare and vote come after it sent them. -/
theorem leaderEvents_checked :
    runChecked (next shareEnv) (authenticTest 1) leaderStart leaderEvents =
      some leaderConfig := by
  decide

theorem byzantine_share_blocks_certificate :
    Reachable (StartedAs shareEnv 1) (next shareEnv) (Authentic 1) leaderConfig ∧
    leaderConfig.1.valSet.q = 3 ∧ leaderConfig.1.cur.state = .highQC ∧
    (∀ a ∈ [1, 2, 3], leaderVote a (honestShare a) ∈ leaderConfig.1.cur.prepareVotes.msgs) ∧
    leaderVote 4 [4, 9, 9] ∈ leaderConfig.1.cur.prepareVotes.msgs ∧ [4, 9, 9] ≠ honestShare 4 ∧
    (shareEnv.blsRecoverAggSig ⟨.prepareVote, ⟨0, 1⟩, (forkNode 11).hash shareEnv, []⟩
      ([2, 3, 1].map honestShare)).isSome ∧
    leaderConfig.1.messagesToQC shareEnv .prepareVote = .error .recoverAggSig ∧
    ∀ m ∈ sentIn leaderConfig.2, m.code ≠ .preCommit := by
  have hstart : StartedAs shareEnv 1 leaderStart :=
    ⟨⟨forkCore 1, forkHead, rfl, by decide, rfl⟩, rfl⟩
  have hrun : Run (next shareEnv) (Authentic 1) leaderStart leaderConfig :=
    Run.of_runChecked (fun _ _ h => authentic_of_test h) leaderEvents_checked
  exact ⟨⟨_, hstart, hrun⟩, by decide, by decide, by decide, by decide, by decide, by decide,
    by decide, by decide⟩

end Core

end QuorumHotstuff.Hotstuff
