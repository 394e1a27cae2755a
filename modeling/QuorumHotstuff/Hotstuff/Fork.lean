import QuorumHotstuff.Hotstuff.Equivocation

/-!
# A forged Decide forks the chain

`verifyQC` returns early for every certificate whose own view has height zero, before it compares
the certificate with the message or checks its signature: the shortcut is meant for the genesis
certificate a round starts from.  `handleDecide` checks nothing else of the commit certificate, so
a replica in `StatePreCommitted` commits its locked block on a Decide of the proposer that carries
a certificate of view `(0, 0)` naming its node, with any code and no signature
(`handleDecide_commits_height_zero`).

The run at the end uses this with four validators `[1, 2, 3, 4]` and the byzantine proposer `1`.
Every certificate `1` sends is backed by votes the honest validators sent, except the forged one,
which carries no signature at all and does not verify.  Validator `2` commits block `11` at height
one; validators `3` and `4`, never locked, move on to round four and commit block `13` at the same
height.
-/

namespace QuorumHotstuff.Hotstuff

open QuorumHotstuff.Lib

/-- The certificates a payload carries. -/
def Payload.certs : Payload → List QuorumCert
  | .qc q => [q]
  | .packagedQC _ q => [q]
  | .diploma q _ => [q]
  | _ => []

namespace Core

variable {E : Env}

/-- A message of the current view passes `checkView`. -/
theorem checkView_self (c : Core) : c.checkView c.cur.view = none := by
  unfold checkView currentView
  simp [View.sub, i64]

/-- `verifyQC` passes every certificate whose own height reads as zero, whatever the message. -/
theorem verifyQC_of_height_zero (c : Core) (data : Message) {qc : QuorumCert}
    (h : u64 qc.view.height = 0) : c.verifyQC E data qc = none := by
  unfold verifyQC
  rw [if_pos h]

/-- `commit` of a block of the locked hash, which a replica can execute, hands the backend a
    block of that hash. -/
theorem commit_ok {c : Core} {lb sb : Block} (hl : c.cur.lockedBlock? = some lb)
    (hh : lb.hash = sb.hash) (hexec : c.isProposer = false → E.executeBlock sb = true) :
    ∃ c' b', c.commit E sb = .ok (c', [.commit b']) ∧ b'.hash = sb.hash := by
  unfold commit
  rw [hl]
  dsimp only
  rw [if_neg (by rw [hh]; exact not_not.mpr rfl)]
  by_cases hfresh : c.cur.executed.map Block.hash = some sb.hash
  · -- executed already: the executed block, of the same hash, goes to the backend
    obtain ⟨e, he, heh⟩ := Option.map_eq_some_iff.mp hfresh
    rw [if_neg (by simp [hfresh]), if_neg (by simp [hfresh])]
    exact ⟨c, e, by rw [he]; rfl, heh⟩
  · have hgo : ¬ ((c.cur.executed.map Block.hash ≠ some sb.hash) ∧ (!c.isProposer) = true ∧
        (!E.executeBlock sb) = true) := by
      rintro ⟨-, hp, hx⟩
      cases hpc : c.isProposer
      · rw [hexec hpc] at hx
        cases hx
      · rw [hpc] at hp
        cases hp
    rw [if_neg hgo, if_pos hfresh]
    exact ⟨_, sb, rfl, rfl⟩

/-- A replica locked in `StatePreCommitted` commits its locked block on a Decide of the proposer
    in its view whose certificate names its node and has height zero, whatever the certificate's
    code, view round, proposer and signature: no commit quorum is checked. -/
theorem handleDecide_commits_height_zero {c : Core} {head : Block × Address} {data : Message}
    {qc : QuorumCert} {b sb : Block} {n : ProposedBlock}
    (hmsg : data.msg = .diploma qc b.hash) (hview : data.view = c.cur.view)
    (hsrc : c.valSet.isProposer data.address = true) (hqc : u64 qc.view.height = 0)
    (hlock : c.cur.lockedBlock? = some b) (hnode : c.cur.node = some n) (hnb : n.block = some b)
    (hname : qc.proposedBlock = n.hash E) (hb : b.hash ≠ emptyHash)
    (hrep : c.isProposer = false) (hst : c.cur.state = .preCommitted)
    (hseal : E.sealBlock b qc = some sb) (hsb : sb.hash = b.hash) (hexec : E.executeBlock sb = true) :
    ∃ b', Output.commit b' ∈ (c.handleDecide E head data).2.1 ∧ b'.hash = b.hash := by
  obtain ⟨p, nb⟩ := n
  cases hnb
  have hs : c.checkMsgSource data.address = none := by
    unfold checkMsgSource
    rw [if_pos hsrc]
  have hpl : c.cur.proposalLocked = true := by
    unfold RoundState.lockedBlock? at hlock
    split_ifs at hlock with h
    exact h
  unfold handleDecide
  rw [hmsg]
  dsimp only
  rw [hview, checkView_self, hs, verifyQC_of_height_zero c data hqc, hlock]
  dsimp only
  rw [if_neg (by simp [hb]), hnode]
  dsimp only
  rw [if_neg (by simp [hname]), if_neg (by simp)]
  simp only [hrep, hst, hseal, Bool.false_eq_true, false_and, ↓reduceIte, Bool.not_false,
    and_self]
  -- sealing keeps the lock, now on the sealed block
  obtain ⟨c₂, hacc, hlock₂, hrep₂⟩ : ∃ c₂, c.acceptCommitQC sb qc = some c₂ ∧
      c₂.cur.lockedBlock? = some sb ∧ c₂.isProposer = false := by
    unfold acceptCommitQC RoundState.setSealedBlock RoundState.setCommittedQC
    rw [hnode]
    dsimp only
    rw [if_neg (by rw [hsb]; exact not_not.mpr rfl)]
    have hpl' : (c.current.getD default).proposalLocked = true := hpl
    exact ⟨_, rfl, by simp [cur, RoundState.lockedBlock?, hpl'], hrep⟩
  obtain ⟨c₃, b', hcommit, hb'⟩ := commit_ok hlock₂ rfl (fun _ => hexec)
  rw [hacc]
  dsimp only
  rw [hcommit]
  exact ⟨b', by simp, hb'.trans hsb⟩


/-! ## The fork -/

/-- Signatures that name their signers: a share is the signer's address, an aggregate lists the
    shares, and it verifies when three distinct validators of `[1, 2, 3, 4]` are among them. -/
def forkEnv : Env where
  keccak256 _ := 0
  rlpHash p h := p + h + 1
  verify _ := true
  executeBlock _ := true
  sealBlock b _ := some b
  blsSign a _ := [a]
  blsRecoverAggSig _ sigs := some sigs.flatten
  blsVerifyAggSig _ sig := decide (3 ≤ ((sig.filter (· ∈ [1, 2, 3, 4])).dedup).length)
  mapOrder ms := ms

def forkCore (a : Address) : Core where
  address := a
  valSet := ⟨[1, 2, 3, 4], .roundRobin, none⟩
  db := ⟨none, none, none, none, none⟩
  current := none
  backlogs := []
  pendingRequests := ⟨[]⟩
  isRunning := false

/-- The genesis block as chain head, so that every round of height one starts from the genesis
    certificate of view `(0, 0)`. -/
def forkHead : Block × Address := (⟨0, 0, 0, 5⟩, emptyAddress)

def forkBlock (h : Hash) : Block := ⟨1, 5, 1, h⟩

def forkNode (h : Hash) : ProposedBlock := ⟨0x12345, some (forkBlock h)⟩

/-- What `buildRoundStartQC` gives on the genesis head. -/
def startQC : QuorumCert := ⟨⟨0, 0⟩, .prepareVote, 0x12345, emptyAddress, []⟩

def forkQC (code : MsgType) (round : Nat) (h : Hash) (sig : Bytes) : QuorumCert :=
  ⟨⟨round, 1⟩, code, (forkNode h).hash forkEnv, 1, sig⟩

def forkPrepare (round : Nat) (h : Hash) : Message :=
  ⟨1, .prepare, ⟨round, 1⟩, .packagedQC (forkNode h) startQC⟩

def forkPreCommit (round : Nat) (h : Hash) (sig : Bytes) : Message :=
  ⟨1, .preCommit, ⟨round, 1⟩, .qc (forkQC .prepareVote round h sig)⟩

def forkCommit (round : Nat) (h : Hash) (sig : Bytes) : Message :=
  ⟨1, .commit, ⟨round, 1⟩, .qc (forkQC .preCommitVote round h sig)⟩

def forkDecide (round : Nat) (h : Hash) (qc : QuorumCert) : Message :=
  ⟨1, .decide, ⟨round, 1⟩, .diploma qc (forkBlock h).hash⟩

/-- The forged commit certificate: view `(0, 0)`, the victim's node, no signature. -/
def forgedQC : QuorumCert := ⟨⟨0, 0⟩, .commitVote, (forkNode 11).hash forkEnv, 1, []⟩

/-- Validator `2` sees round zero through to its lock, then the forged Decide. -/
def victimEvents : List ((Block × Address) × Event) :=
  [(forkHead, .message 1 (forkPrepare 0 11)), (forkHead, .message 1 (forkPreCommit 0 11 [2, 3, 4])),
    (forkHead, .message 1 (forkCommit 0 11 [2, 3, 4])), (forkHead, .message 1 (forkDecide 0 11 forgedQC))]

/-- Validators `3` and `4` never see round zero's Commit: they time out four times and go through
    round four on block `13`, with the byzantine validator's vote in each quorum. -/
def laterEvents : List ((Block × Address) × Event) :=
  [(forkHead, .message 1 (forkPrepare 0 11)), (forkHead, .message 1 (forkPreCommit 0 11 [2, 3, 4])),
    (forkHead, .timeout), (forkHead, .timeout), (forkHead, .timeout), (forkHead, .timeout),
    (forkHead, .message 1 (forkPrepare 4 13)), (forkHead, .message 1 (forkPreCommit 4 13 [3, 4, 1])),
    (forkHead, .message 1 (forkCommit 4 13 [3, 4, 1])),
    (forkHead, .message 1 (forkDecide 4 13 (forkQC .commitVote 4 13 [3, 4, 1])))]

def forkEvents (a : Address) : List ((Block × Address) × Event) :=
  if a = 2 then victimEvents else laterEvents

def forkConfig (a : Address) (es : List ((Block × Address) × Event)) : Core × List Output :=
  runList (next forkEnv) ((forkCore a).start forkEnv forkHead) es

/-- The vote of validator `a` that a share of a certificate stands for, as `sendVote` sends it
    under `forkEnv`. -/
def forkVote (qc : QuorumCert) (a : Address) : Message :=
  ⟨a, qc.code, qc.view, .vote ⟨qc.code, qc.view, qc.proposedBlock, [a]⟩⟩

/-- Every share of the certificate's aggregate is the byzantine validator's own, or a vote the
    honest validator of that share sent: nothing is forged. -/
def Backed (byz : Address) (sent : Address → List Message) (qc : QuorumCert) : Prop :=
  ∀ s ∈ qc.blsSignature, s = byz ∨ forkVote qc s ∈ sent s

instance (byz : Address) (sent : Address → List Message) (qc : QuorumCert) :
    Decidable (Backed byz sent qc) := by
  unfold Backed
  infer_instance

/-- Every input of the fork is a message of validator `1` or a timeout. -/
theorem forkEvents_authentic {a : Address} (ha : a ≠ 1) :
    ∀ e ∈ forkEvents a, ∀ h, Authentic a h e := by
  intro e he h
  -- every event is on the genesis head, and every message is signed by validator 1
  have hall : e.1 = forkHead ∧ ∀ m, e.2.handled = some m → m.address = 1 := by
    unfold forkEvents victimEvents laterEvents at he
    split_ifs at he
    · simp only [List.mem_cons, List.not_mem_nil, or_false] at he
      rcases he with rfl | rfl | rfl | rfl <;>
        exact ⟨rfl, fun m hm => by simp [Event.handled] at hm; subst hm; rfl⟩
    · simp only [List.mem_cons, List.not_mem_nil, or_false] at he
      rcases he with rfl | rfl | rfl | rfl | rfl | rfl | rfl | rfl | rfl | rfl <;>
        exact ⟨rfl, fun m hm => by simp [Event.handled] at hm <;> subst hm <;> rfl⟩
  refine ⟨?_, fun m hm hma => absurd (hma.symm.trans (hall.2 m hm)) ha⟩
  show e.1.1.number + 1 < 2 ^ 64
  rw [hall.1]
  decide

theorem fork_reachable {a : Address} (ha : a ≠ 1) :
    Reachable (StartedAs forkEnv a) (next forkEnv) (Authentic a) (forkConfig a (forkEvents a)) :=
  ⟨_, ⟨⟨forkCore a, forkHead, rfl, by decide, rfl⟩, rfl⟩, Run.of_runList (forkEvents_authentic ha) _⟩

/-- Agreement fails.  Three honest validators of `[1, 2, 3, 4]` run on inputs from the byzantine
    proposer `1` only, whose certificates are all backed by votes they sent; the one without a
    signature does not verify.  Validator `2` hands block `11` to the backend and validators `3`
    and `4` hand block `13`, of the same number. -/
theorem forged_decide_forks :
    (∀ a ∈ [2, 3, 4], Reachable (StartedAs forkEnv a) (next forkEnv) (Authentic a)
      (forkConfig a (forkEvents a))) ∧
    (∀ a ∈ [2, 3, 4], ∀ e ∈ forkEvents a, ∀ m, e.2.handled = some m → m.address = 1 ∧
      ∀ qc ∈ m.msg.certs, Backed 1 (fun s => sentIn (forkConfig s (forkEvents s)).2) qc) ∧
    (∀ data, forkEnv.blsVerifyAggSig data forgedQC.blsSignature = false) ∧
    Output.commit (forkBlock 11) ∈ (forkConfig 2 (forkEvents 2)).2 ∧
    (∀ a ∈ [3, 4], Output.commit (forkBlock 13) ∈ (forkConfig a (forkEvents a)).2) ∧
    (forkBlock 11).number = (forkBlock 13).number ∧ (forkBlock 11).hash ≠ (forkBlock 13).hash := by
  refine ⟨?_, ?_, fun _ => rfl, by decide, by decide, rfl, by decide⟩
  · intro a ha
    have ha' : a ≠ 1 := by
      rintro rfl
      simp at ha
    exact fork_reachable ha'
  · -- the messages of the three runs, each certificate checked against the votes sent
    decide

end Core

end QuorumHotstuff.Hotstuff
