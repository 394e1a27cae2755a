import QuorumHotstuff.Qbft.Steps

/-!
# Replicated round changes fork the chain

Four validators `[1, 2, 3, 4]`, of which `4` is byzantine, at sequence five after a block that
validator `2` proposed, so that `3` proposes round zero and `4` round one.  Validator `3` proposes
block `B`; all of `1`, `2` and `3` prepare it and send their COMMITs, and validator `1` commits `B`
on the COMMITs of `1`, `2` and `4`.  The COMMITs for `2` and `3` are held back: their round-change
timers fire and they move to round one.  There validator `4` sends a PRE-PREPARE of block `B'`
justified by three copies of one nil ROUND-CHANGE payload of its own, which `isJustified` counts as
a quorum; `2` and `3` accept it and commit `B'` at the same sequence.

Signatures name their signers (`forkEnv`), so a signature of an honest validator stands for data it
signed.  `Backed` says that every signature a received message carries, its own and those of its
justification, is the byzantine validator's or one the honest signer put on a message it
broadcast in its own run.
-/

namespace QuorumHotstuff.Qbft

open QuorumHotstuff.Istanbul QuorumHotstuff.Lib

/-- The signed data and signatures a message carries: its own, and those of the ROUND-CHANGE
payloads and PREPAREs it carries as justification. -/
def QBFTMessage.signatures (m : QBFTMessage) : List (SignedData × Signature) :=
  (m.signedData, m.signature) ::
    match m with
    | .preprepare pp =>
      pp.justificationRoundChanges.map (fun p => (p.signedData, p.signature)) ++
        pp.justificationPrepares.map (fun p => (p.signedData, p.signature))
    | .roundChange rc => rc.justification.map (fun p => (p.signedData, p.signature))
    | _ => []

/-- What the messages of a list of outputs carry signed: those a validator broadcast. -/
def signedIn (out : List Output) : List (SignedData × Signature) :=
  out.flatMap fun
    | .broadcast m => m.signatures
    | _ => []

/-- Every signature of the message is the byzantine validator's own, or one that the honest
validator it names put on a message it broadcast. -/
def Backed (byz : Address) (sent : Address → List Output) (m : QBFTMessage) : Prop :=
  ∀ x ∈ m.signatures, x.2 = byz ∨ x ∈ signedIn (sent x.2)

instance (byz : Address) (sent : Address → List Output) (m : QBFTMessage) :
    Decidable (Backed byz sent m) :=
  inferInstanceAs (Decidable (∀ x ∈ m.signatures, x.2 = byz ∨ x ∈ signedIn (sent x.2)))

/-- Signatures that name their signers, every block valid and committed, and the validators
`[1, 2, 3, 4]` at every sequence, whose `QuorumSize` is three. -/
def forkEnv : Env where
  recover _ sig := some sig
  sign a _ := a
  commitSeal a _ _ := [a]
  verify _ := .ok
  commit _ _ _ := true
  validators _ := ⟨[1, 2, 3, 4], .roundRobin, none⟩
  config := ⟨none, fun _ => false⟩

/-- The core of validator `a` before `Start`. -/
def forkCore (a : Address) : Core where
  address := a
  state := .acceptRequest
  valSet := ⟨[1, 2, 3, 4], .roundRobin, none⟩
  backlogs := []
  current := none
  roundChangeSet := RoundChangeSet.new ⟨[1, 2, 3, 4], .roundRobin, none⟩
  qbftPreparedPrepares := none
  pendingRequests := .empty
  roundChangeTimer := false
  futurePreprepareTimer := none
  newRoundTimer := none

/-- The chain head: block four, proposed by validator `2`. -/
def forkHead : Proposal × Address := (⟨4, 40⟩, 2)

/-- Block `B` of round zero and block `B'` of round one, both at sequence five. -/
def blockB : Proposal := ⟨5, 1⟩
def blockB' : Proposal := ⟨5, 2⟩

def preprepare₀ : Preprepare := ⟨3, 5, 0, blockB, 3, [], []⟩

def prepare₀ (a : Address) : QBFTMessage := .prepare ⟨a, 5, 0, blockB.hash, a⟩

def commit₀ (a : Address) : QBFTMessage := .commit ⟨a, 5, 0, blockB.hash, [a], a⟩

/-- The nil ROUND-CHANGE payload of round one that validator `4` signs. -/
def byzPayload : SignedRoundChangePayload := ⟨4, 5, 1, none, emptyHash, 4⟩

/-- Validator `4`'s PRE-PREPARE of `B'`, justified by three copies of its own payload. -/
def preprepare₁ : Preprepare := ⟨4, 5, 1, blockB', 4, List.replicate 3 byzPayload, []⟩

def prepare₁ (a : Address) : QBFTMessage := .prepare ⟨a, 5, 1, blockB'.hash, a⟩

def commit₁ (a : Address) : QBFTMessage := .commit ⟨a, 5, 1, blockB'.hash, [a], a⟩

/-- Round zero up to the COMMIT, as validators `1` and `2` see it. -/
def roundZero : List Event :=
  [.message (.preprepare preprepare₀), .message (prepare₀ 1), .message (prepare₀ 2),
    .message (prepare₀ 3)]

/-- Round one after the timeout, as validators `2` and `3` see it. -/
def roundOne : List Event :=
  [.timeout, .message (.preprepare preprepare₁), .message (prepare₁ 2), .message (prepare₁ 3),
    .message (prepare₁ 4), .message (commit₁ 2), .message (commit₁ 3), .message (commit₁ 4)]

/-- The inputs of each validator: `3` first proposes `B` on its request. -/
def forkEvents (a : Address) : List Event :=
  if a = 1 then roundZero ++ [.message (commit₀ 1), .message (commit₀ 2), .message (commit₀ 4)]
  else if a = 2 then roundZero ++ roundOne
  else [.request blockB, .newRoundTimer] ++ roundZero ++ roundOne

/-- The run of validator `a` from `Start`, on the chain head throughout. -/
def forkConfig (a : Address) : Core × List Output :=
  runList (Core.next forkEnv) ((forkCore a).start forkEnv forkHead)
    ((forkEvents a).map fun e => (forkHead, e))

theorem fork_reachable (a : Address) :
    Reachable (StartedAs forkEnv a) (Core.next forkEnv) (fun _ _ => True) (forkConfig a) :=
  ⟨_, ⟨forkCore a, forkHead, rfl, rfl, rfl⟩, Run.of_runList (fun _ _ _ => trivial) _⟩

/-- The message of a `MessageEvent`. -/
def Event.message? : Event → Option QBFTMessage
  | .message m => some m
  | _ => none

/-- Agreement fails.  Round-robin selection after a block of validator `2` makes `3` the proposer
of round zero and `4` that of round one; `QuorumSize` is three; the round changes of the three
distinct validators `2`, `3` and `4` do not justify `B'` without PREPAREs, but three copies of
`4`'s own nil round change do.  The three honest validators run the handlers from `Start` on
messages whose every signature is `4`'s or one the honest signer put on a message it broadcast;
validator `1` hands `B` to the backend and validators `2` and `3` hand `B'`, of the same
sequence. -/
theorem replicated_round_change_justifies_conflicting_block :
    (ValidatorSet.calcProposer ⟨[1, 2, 3, 4], .roundRobin, none⟩ 2 0).proposer = some 3 ∧
    (ValidatorSet.calcProposer ⟨[1, 2, 3, 4], .roundRobin, none⟩ 2 1).proposer = some 4 ∧
    quorumSize ⟨none, fun _ => false⟩ 5 ⟨[1, 2, 3, 4], .roundRobin, some 4⟩ = 3 ∧
    isJustified ⟨5, 2⟩
      [⟨2, 5, 1, some 0, 1, 0⟩, ⟨3, 5, 1, some 0, 1, 0⟩, ⟨4, 5, 1, none, emptyHash, 0⟩] [] 3 ≠ none ∧
    isJustified ⟨5, 2⟩ (List.replicate 3 ⟨4, 5, 1, none, emptyHash, 0⟩) [] 3 = none ∧
    (∀ a ∈ [1, 2, 3],
      Reachable (StartedAs forkEnv a) (Core.next forkEnv) (fun _ _ => True) (forkConfig a)) ∧
    (∀ a ∈ [1, 2, 3], ∀ e ∈ forkEvents a, ∀ m ∈ e.message?,
      Backed 4 (fun s => (forkConfig s).2) m) ∧
    (∃ seals r, Output.commit blockB seals r ∈ (forkConfig 1).2) ∧
    (∀ a ∈ [2, 3], ∃ seals r, Output.commit blockB' seals r ∈ (forkConfig a).2) ∧
    blockB.number = blockB'.number ∧ blockB.hash ≠ blockB'.hash := by
  refine ⟨by decide, by decide, by decide, by decide, isJustified_replicate rfl ⟨5, 2⟩ 3 (by decide),
    fun a _ => fork_reachable a, ?_, ⟨[[4], [2], [1]], 0, by decide⟩, ?_, rfl, by decide⟩
  · -- every signature a received message carries, checked against the runs
    decide
  · intro a ha
    simp only [List.mem_cons, List.not_mem_nil, or_false] at ha
    rcases ha with rfl | rfl
    · exact ⟨[[4], [3], [2]], 1, by decide⟩
    · exact ⟨[[4], [3], [2]], 1, by decide⟩

end QuorumHotstuff.Qbft
