import QuorumHotstuff.Qbft.Fork

/-!
# An honest validator votes for one proposal a view

The PREPAREs and COMMITs a validator broadcasts are its votes.  Whatever messages, timeouts and
requests reach it, a validator running the handlers never votes for two digests in one view
(`reachable_votes_agree`).  The invariant behind it: every vote sent stands at the core, either before
its current view, or at its current view past `StateAcceptRequest` with a PRE-PREPARE of the voted
digest.  A step moves the view only forward, to a later view whenever it enters
`StateAcceptRequest` again, and within a view past `StateAcceptRequest` it keeps the PRE-PREPARE;
each step's lemma says so (`Keeps`), the PRE-PREPARE handler and the PREPARE handler being the two
that vote.

That `startNewRound` always reaches a later view needs two facts of every reachable core: it has
validators, so that `F + 1` higher round changes exist before `handleRoundChange` moves on, and the
rounds of its round changes are `uint64`, so that the least of them is another round.
-/

namespace QuorumHotstuff.Qbft

open QuorumHotstuff.Istanbul QuorumHotstuff.Lib

/-- The view and digest of a PREPARE or COMMIT the core broadcasts. -/
def Output.vote? : Output → Option (View × Hash)
  | .broadcast (.prepare m) => some (⟨m.round, m.sequence⟩, m.digest)
  | .broadcast (.commit m) => some (⟨m.round, m.sequence⟩, m.digest)
  | _ => none

/-- The votes among a list of outputs. -/
def votesIn (out : List Output) : List (View × Hash) := out.filterMap Output.vote?

@[simp] theorem votesIn_nil : votesIn [] = [] := rfl

@[simp] theorem votesIn_append (o₁ o₂ : List Output) :
    votesIn (o₁ ++ o₂) = votesIn o₁ ++ votesIn o₂ :=
  List.filterMap_append

theorem votesIn_of_replays {out : List Output} (h : ∀ o ∈ out, o.IsReplay) : votesIn out = [] := by
  refine List.filterMap_eq_nil_iff.mpr fun o ho => ?_
  have hr := h o ho
  cases o <;> simp_all [Output.IsReplay, Output.vote?]

namespace Core

variable (E : Env)

/-! ## What a step keeps -/

/-- What every reachable core has: validators, and rounds of round changes that are `uint64`. -/
structure Sane (c : Core) : Prop where
  validators : c.valSet.validators ≠ []
  rounds : c.roundChangeSet.Rounds64

theorem Sane.of_parts {c c' : Core} (h : c.Sane) (hval : c'.valSet.validators = c.valSet.validators)
    (hr : c'.roundChangeSet = c.roundChangeSet) : c'.Sane :=
  ⟨hval ▸ h.validators, hr ▸ h.rounds⟩

/-- Where a vote of view `v` for digest `d` stands at a core: before its view, or at its view
past `StateAcceptRequest` with a PRE-PREPARE of that digest. -/
def VoteStands (c : Core) (v : View) (d : Hash) : Prop :=
  v.lt c.currentView ∨
    (v = c.currentView ∧ c.state ≠ .acceptRequest ∧ c.cur.proposal.map (·.hash) = some d)

/-- What a step from `c` to `c'` with outputs `out` keeps: a sane core, a view that only moves on,
within a view past `StateAcceptRequest` the state and the PRE-PREPARE, and votes only at the new
core's view for its PRE-PREPARE. -/
structure Keeps (c c' : Core) (out : List Output) : Prop where
  sane : c'.Sane
  view_le : c.currentView.le c'.currentView
  settled : c'.currentView = c.currentView → c.state ≠ .acceptRequest →
    c'.state ≠ .acceptRequest ∧ c'.cur.proposal = c.cur.proposal
  votes : ∀ x ∈ votesIn out, x.1 = c'.currentView ∧ c'.state ≠ .acceptRequest ∧
    c'.cur.proposal.map (·.hash) = some x.2

/-- A step that keeps the view, the state, the PRE-PREPARE, the validators and the round changes
and votes for nothing. -/
theorem Keeps.of_frame {c c' : Core} {out : List Output} (hs : c.Sane)
    (hv : c'.currentView = c.currentView) (hst : c'.state = c.state)
    (hp : c'.cur.proposal = c.cur.proposal) (hval : c'.valSet = c.valSet)
    (hr : c'.roundChangeSet = c.roundChangeSet) (hq : votesIn out = []) : Keeps c c' out where
  sane := hs.of_parts (by rw [hval]) hr
  view_le := hv ▸ View.le_refl _
  settled := fun _ h => ⟨hst ▸ h, hp⟩
  votes := by simp [hq]

theorem Keeps.refl {c : Core} (hs : c.Sane) : Keeps c c [] :=
  .of_frame hs rfl rfl rfl rfl rfl rfl

/-- In `StateAcceptRequest` a step may set the PRE-PREPARE of the view. -/
theorem Keeps.of_accept {c c' : Core} (hs : c.Sane) (hst : c.state = .acceptRequest)
    (hv : c'.currentView = c.currentView) (hval : c'.valSet = c.valSet)
    (hr : c'.roundChangeSet = c.roundChangeSet) : Keeps c c' [] where
  sane := hs.of_parts (by rw [hval]) hr
  view_le := hv ▸ View.le_refl _
  settled := fun _ h => absurd hst h
  votes := by simp

theorem Keeps.append_quiet {c c' : Core} {out out' : List Output} (h : Keeps c c' out)
    (hq : votesIn out' = []) : Keeps c c' (out ++ out') :=
  { h with votes := by simpa [hq] using h.votes }

/-- Votes at the view the step reaches, past `StateAcceptRequest`, for its PRE-PREPARE. -/
theorem Keeps.vote {c c' : Core} {out votes : List Output} (h : Keeps c c' out)
    (hst : c'.state ≠ .acceptRequest)
    (hv : ∀ x ∈ votesIn votes, x.1 = c'.currentView ∧ c'.cur.proposal.map (·.hash) = some x.2) :
    Keeps c c' (out ++ votes) :=
  { h with
    votes := by
      intro x hx
      simp only [votesIn_append, List.mem_append] at hx
      rcases hx with hx | hx
      · exact h.votes x hx
      · exact ⟨(hv x hx).1, hst, (hv x hx).2⟩ }

/-- A quiet step, then another. -/
theorem Keeps.trans {c c₁ c₂ : Core} {out : List Output} (h₁ : Keeps c c₁ [])
    (h₂ : Keeps c₁ c₂ out) : Keeps c c₂ out where
  sane := h₂.sane
  view_le := View.le_trans h₁.view_le h₂.view_le
  settled := by
    intro hv hst
    -- the middle view is squeezed between two equal ones
    have hv₁ : c₁.currentView = c.currentView :=
      View.le_antisymm (hv ▸ h₂.view_le) h₁.view_le
    obtain ⟨hst₁, hp₁⟩ := h₁.settled hv₁ hst
    obtain ⟨hst₂, hp₂⟩ := h₂.settled (hv.trans hv₁.symm) hst₁
    exact ⟨hst₂, hp₂.trans hp₁⟩
  votes := h₂.votes

/-- A vote keeps standing through a step. -/
theorem VoteStands.keeps {c c' : Core} {out : List Output} {v : View} {d : Hash}
    (h : c.VoteStands v d) (hk : Keeps c c' out) : c'.VoteStands v d := by
  rcases h with hlt | ⟨rfl, hst, hp⟩
  · exact .inl (View.lt_of_lt_of_le hlt hk.view_le)
  · rcases hk.view_le with hlt | heq
    · exact .inl hlt
    · obtain ⟨hst', hp'⟩ := hk.settled heq.symm hst
      exact .inr ⟨heq, hst', hp' ▸ hp⟩

/-! ## Sending -/

theorem votesIn_broadcastPrepare (c : Core) : ∀ x ∈ votesIn (c.broadcastPrepare E),
    x.1 = c.currentView ∧ c.cur.proposal.map (·.hash) = some x.2 := by
  unfold broadcastPrepare
  split
  · simp
  · rename_i p hp
    simp [votesIn, Output.vote?, currentView, hp]

theorem votesIn_broadcastCommit (c : Core) : ∀ x ∈ votesIn (c.broadcastCommit E),
    x.1 = c.currentView ∧ c.cur.proposal.map (·.hash) = some x.2 := by
  unfold broadcastCommit
  split
  · simp
  · rename_i p hp
    simp [votesIn, Output.vote?, currentView, hp]

@[simp] theorem votesIn_broadcastRoundChange (c : Core) (round : Int) :
    votesIn (c.broadcastRoundChange E round) = [] := by
  unfold broadcastRoundChange
  split_ifs <;> rfl

theorem keeps_sendPreprepareMsg {c : Core} (hs : c.Sane) (request : Request) :
    Keeps c (c.sendPreprepareMsg E request).1 (c.sendPreprepareMsg E request).2 := by
  unfold sendPreprepareMsg
  split_ifs
  · exact .of_frame hs rfl rfl rfl rfl rfl rfl
  · exact .refl hs

/-! ## State changes and new rounds -/

/-- `setState` to any state but `StateAcceptRequest` keeps what votes need. -/
theorem keeps_setState {c : Core} (hs : c.Sane) (state : State) (hst : state ≠ .acceptRequest) :
    Keeps c (c.setState state).1 (c.setState state).2 where
  sane := hs.of_parts (by simp) (by simp)
  view_le := by
    rw [currentView_setState]
    exact View.le_refl _
  settled := fun _ _ => ⟨by simpa using hst, by simp⟩
  votes := by simp [votesIn_of_replays (setState_spec c state).2]

/-- Leaving `StateAcceptRequest` at the view and voting for the PRE-PREPARE: what the PRE-PREPARE
and PREPARE handlers do once they accept. -/
theorem keeps_setState_vote {c c₁ : Core} (state : State) (h₁ : Keeps c c₁ [])
    (hst : state ≠ .acceptRequest) {votes : List Output}
    (hv : ∀ x ∈ votesIn votes, x.1 = (c₁.setState state).1.currentView ∧
      (c₁.setState state).1.cur.proposal.map (·.hash) = some x.2) :
    Keeps c (c₁.setState state).1 ((c₁.setState state).2 ++ votes) :=
  (h₁.trans (keeps_setState h₁.sane state hst)).vote (by simpa using hst) hv

@[simp] theorem votesIn_startNewRound (c : Core) (head : Proposal × Address) (round : Int) :
    votesIn (c.startNewRound E head round).2 = [] := by
  rcases startNewRound_cases E c head round with ⟨-, heq⟩ | ⟨-, -, -, -, -, -, hout⟩
  · rw [heq]
    rfl
  · exact votesIn_of_replays hout

/-- `startNewRound` to round zero or to another round than the current one keeps what votes need:
it moves to a later view whenever it moves at all. -/
theorem keeps_startNewRound (hE : ∀ p, (E.validators p).validators ≠ []) {c : Core} (hs : c.Sane)
    (head : Proposal × Address) {round : Int} (hr : round = 0 ∨ round ≠ c.cur.round) :
    Keeps c (c.startNewRound E head round).1 (c.startNewRound E head round).2 := by
  rcases startNewRound_cases E c head round with ⟨-, heq⟩ | ⟨v, rc, hv, hcur, hst, hval, hout⟩
  · rw [heq]
    exact .refl hs
  · -- the view moves on: the same view again would be a round change to the current round
    have hlt : c.currentView.lt v := by
      rcases newRoundView_later hv with hlt | ⟨-, hne, hround, -⟩
      · exact hlt
      · rcases hr with hr | hr
        · exact absurd hr hne
        · exact absurd hround hr
    have hview : (c.startNewRound E head round).1.currentView = v := by
      unfold currentView cur
      rw [hcur]
      exact currentView_enterRound E c head v rc
    refine ⟨⟨?_, rounds64_startNewRound E hs.rounds head round⟩, ?_, ?_, ?_⟩
    · rw [hval, validators_enterRound]
      split
      · exact hs.validators
      · exact hE _
    · rw [hview]
      exact .inl hlt
    · intro heq
      rw [hview] at heq
      exact absurd heq.symm (View.ne_of_lt hlt)
    · simp

/-! ## The handlers -/

theorem keeps_handlePreprepareMsg {c : Core} (hs : c.Sane) (pp : Preprepare) :
    Keeps c (c.handlePreprepareMsg E pp).1 (c.handlePreprepareMsg E pp).2.1 := by
  unfold handlePreprepareMsg
  split
  · exact .refl hs
  split
  · exact .refl hs
  split
  · -- a future block only arms the timer that replays the message
    exact .of_frame hs rfl rfl rfl rfl rfl rfl
  · exact .refl hs
  · split
    · -- accepted in `StateAcceptRequest`: the PRE-PREPARE is set, the state moves on, one PREPARE
      rename_i hst
      dsimp only
      refine keeps_setState_vote .preprepared ?_ (by decide) (votesIn_broadcastPrepare E _)
      exact .of_accept hs hst rfl rfl rfl
    · exact .refl hs

theorem keeps_handlePrepare {c : Core} (hs : c.Sane) (prepare : Prepare) :
    Keeps c (c.handlePrepare E prepare).1 (c.handlePrepare E prepare).2.1 := by
  unfold handlePrepare
  split
  · exact .refl hs
  · dsimp only
    split
    · -- a quorum before `StatePrepared`: the prepared round and block recorded, one COMMIT
      refine keeps_setState_vote .prepared ?_ (by decide) (votesIn_broadcastCommit E _)
      exact .of_frame hs rfl rfl rfl rfl rfl rfl
    · exact .of_frame hs rfl rfl rfl rfl rfl rfl

theorem keeps_commitQBFT {c : Core} (hs : c.Sane) :
    Keeps c (c.commitQBFT E).1 (c.commitQBFT E).2 := by
  have hk := keeps_setState hs .committed (by decide)
  unfold commitQBFT
  dsimp only
  split
  · exact hk
  · -- the block handed to the backend and a ROUND-CHANGE are no votes
    split_ifs
    · exact hk.append_quiet rfl
    · exact (hk.append_quiet rfl).append_quiet (votesIn_broadcastRoundChange E _ _)

theorem keeps_handleCommitMsg {c : Core} (hs : c.Sane) (commit : Commit) :
    Keeps c (c.handleCommitMsg E commit).1 (c.handleCommitMsg E commit).2.1 := by
  unfold handleCommitMsg
  split
  · exact .refl hs
  · dsimp only
    split
    · -- a quorum of COMMITs commits
      refine Keeps.trans ?_ (keeps_commitQBFT E ?_)
      · exact .of_frame hs rfl rfl rfl rfl rfl rfl
      · exact hs.of_parts rfl rfl
    · exact .of_frame hs rfl rfl rfl rfl rfl rfl

/-- `F + 1` is positive with validators. -/
theorem f_add_one_pos {vs : ValidatorSet} (h : vs.validators ≠ []) : 0 < vs.f + 1 := by
  have hlen : 0 < vs.validators.length := List.length_pos_of_ne_nil h
  unfold ValidatorSet.f ValidatorSet.size
  omega

theorem keeps_addRoundChange {c : Core} (hs : c.Sane) (rc : RoundChange) :
    Keeps c (c.addRoundChange E rc) [] := by
  unfold addRoundChange
  split
  · -- the round-change set grows by one message, its rounds still `uint64`
    dsimp only
    exact ⟨⟨hs.validators, hs.rounds.add _ _ _ _ _ _⟩, View.le_refl _, fun _ h => ⟨h, rfl⟩, by simp⟩
  · exact .refl hs

theorem keeps_handleRoundChange (hE : ∀ p, (E.validators p).validators ≠ []) {c : Core}
    (hs : c.Sane) (head : Proposal × Address) (rc : RoundChange) :
    Keeps c (c.handleRoundChange E head rc).1 (c.handleRoundChange E head rc).2.1 := by
  have h₁ := keeps_addRoundChange E hs rc
  have hround : (c.addRoundChange E rc).cur.round = c.cur.round := by
    unfold addRoundChange
    split_ifs <;> rfl
  unfold handleRoundChange
  dsimp only
  generalize c.addRoundChange E rc = c₁ at h₁ hround ⊢
  have hs₁ := h₁.sane
  split
  · -- `F + 1` higher round changes: a new round at the least of them, another round
    rename_i hnum
    have hpos : 0 < c₁.roundChangeSet.higherRoundMessages c.cur.round := by
      have := f_add_one_pos hs₁.validators
      omega
    have hne := RoundChangeSet.getMinRoundChange_ne hs₁.rounds hpos
    exact h₁.trans ((keeps_startNewRound E hE hs₁ head (.inr (by rw [hround]; exact hne))).append_quiet
      (votesIn_broadcastRoundChange E _ _))
  · split
    · -- a quorum of the round makes its proposer send a PRE-PREPARE
      split
      · exact h₁
      · split
        · exact h₁
        · exact h₁.trans (keeps_sendPreprepareMsg E hs₁ _)
    · exact h₁

theorem keeps_handleTimeoutMsg (hE : ∀ p, (E.validators p).validators ≠ []) {c : Core}
    (hs : c.Sane) (head : Proposal × Address) :
    Keeps c (c.handleTimeoutMsg E head).1 (c.handleTimeoutMsg E head).2 := by
  unfold handleTimeoutMsg
  dsimp only
  exact (keeps_startNewRound E hE hs head (.inr (by omega))).append_quiet
    (votesIn_broadcastRoundChange E _ _)

theorem keeps_handleFinalCommitted (hE : ∀ p, (E.validators p).validators ≠ []) {c : Core}
    (hs : c.Sane) (head : Proposal × Address) :
    Keeps c (c.handleFinalCommitted E head).1 (c.handleFinalCommitted E head).2 := by
  refine Keeps.trans ?_ (keeps_startNewRound E hE ?_ head (.inl rfl))
  · exact .of_frame hs rfl rfl rfl rfl rfl rfl
  · exact hs.of_parts rfl rfl

theorem keeps_deliverMessage (hE : ∀ p, (E.validators p).validators ≠ []) {c : Core}
    (hs : c.Sane) (head : Proposal × Address) (m : QBFTMessage) :
    Keeps c (c.deliverMessage E head m).1 (c.deliverMessage E head m).2.1 := by
  cases m with
  | preprepare m => exact keeps_handlePreprepareMsg E hs m
  | prepare m => exact keeps_handlePrepare E hs m
  | commit m => exact keeps_handleCommitMsg E hs m
  | roundChange m => exact keeps_handleRoundChange E hE hs head m

theorem keeps_addToBacklog {c : Core} (hs : c.Sane) (m : QBFTMessage) :
    Keeps c (c.addToBacklog m) [] := by
  unfold addToBacklog setBacklog
  split_ifs <;> exact .of_frame hs rfl rfl rfl rfl rfl rfl

theorem keeps_handleDecodedMessage (hE : ∀ p, (E.validators p).validators ≠ []) {c : Core}
    (hs : c.Sane) (head : Proposal × Address) (m : QBFTMessage) :
    Keeps c (c.handleDecodedMessage E head m).1 (c.handleDecodedMessage E head m).2.1 := by
  unfold handleDecodedMessage
  split
  · exact keeps_addToBacklog hs m
  · exact .refl hs
  · exact keeps_deliverMessage E hE hs head m

theorem keeps_handleEncodedMsg (hE : ∀ p, (E.validators p).validators ≠ []) {c : Core}
    (hs : c.Sane) (head : Proposal × Address) (m : QBFTMessage) :
    Keeps c (c.handleEncodedMsg E head m).1 (c.handleEncodedMsg E head m).2.1 := by
  unfold handleEncodedMsg
  split
  · exact .refl hs
  · exact keeps_handleDecodedMessage E hE hs head _

/-- A request changes only the pending request and the timer that proposes it. -/
theorem keeps_handleRequest {c c' : Core} {err : Option Err} (hs : c.Sane) (request : Request)
    (h : c.handleRequest request = (c', err)) : Keeps c c' [] := by
  unfold handleRequest at h
  split at h
  · cases h
    exact .refl hs
  · dsimp only at h
    split_ifs at h <;> cases h <;> exact .of_frame hs rfl rfl rfl rfl rfl rfl

/-- Every step of the event loop keeps what votes need. -/
theorem keeps_step (hE : ∀ p, (E.validators p).validators ≠ []) {c : Core} (hs : c.Sane)
    (head : Proposal × Address) (ev : Event) :
    Keeps c (c.step E head ev).1 (c.step E head ev).2 := by
  cases ev with
  | request p =>
    dsimp only [step]
    split
    · -- a request of a future sequence is kept for later
      rename_i c' h
      have hk := keeps_handleRequest hs _ h
      exact hk.trans (.of_frame hk.sane rfl rfl rfl rfl rfl rfl)
    · rename_i c' _ _ h
      exact keeps_handleRequest hs _ h
  | message m =>
    have hk := keeps_handleEncodedMsg E hE hs head m
    dsimp only [step]
    split_ifs
    · exact hk.append_quiet rfl
    · exact hk
  | backlog m =>
    have hk := keeps_handleDecodedMessage E hE hs head m
    dsimp only [step]
    split_ifs
    · exact hk.append_quiet rfl
    · exact hk
  | timeout => exact keeps_handleTimeoutMsg E hE hs head
  | finalCommitted => exact keeps_handleFinalCommitted E hE hs head
  | newRoundTimer =>
    dsimp only [step]
    unfold fireNewRoundTimer
    split
    · exact .refl hs
    · refine Keeps.trans ?_ (keeps_sendPreprepareMsg E ?_ _)
      · exact .of_frame hs rfl rfl rfl rfl rfl rfl
      · exact hs.of_parts rfl rfl
  | futurePreprepareTimer =>
    dsimp only [step]
    split
    · exact .refl hs
    · exact .of_frame hs rfl rfl rfl rfl rfl rfl

/-! ## Runs -/

/-- The votes of a history stand at the core, and two of one view carry one digest. -/
structure Voted (p : Core × List Output) : Prop where
  sane : p.1.Sane
  stand : ∀ x ∈ votesIn p.2, p.1.VoteStands x.1 x.2
  agree : ∀ x ∈ votesIn p.2, ∀ y ∈ votesIn p.2, x.1 = y.1 → x.2 = y.2

/-- One step keeps the invariant: old votes keep standing, new ones stand at the new view, and a
new vote of an old vote's view is for the PRE-PREPARE the old one stood on. -/
theorem Voted.keeps {c c' : Core} {hist out : List Output} (h : Voted (c, hist))
    (hk : Keeps c c' out) : Voted (c', hist ++ out) := by
  have hnew : ∀ x ∈ votesIn out, c'.VoteStands x.1 x.2 := fun x hx =>
    let ⟨h₁, h₂, h₃⟩ := hk.votes x hx
    .inr ⟨h₁, h₂, h₃⟩
  -- an old vote of the new core's view is for the digest of its PRE-PREPARE
  have hold : ∀ x ∈ votesIn hist, x.1 = c'.currentView → c'.cur.proposal.map (·.hash) = some x.2 := by
    intro x hx hv
    rcases h.stand x hx with hlt | ⟨hv', hst, hp⟩
    · exact absurd hv (View.ne_of_lt (View.lt_of_lt_of_le hlt hk.view_le))
    · obtain ⟨-, hp'⟩ := hk.settled (hv.symm.trans hv') hst
      rw [hp']
      exact hp
  refine ⟨hk.sane, ?_, ?_⟩
  · intro x hx
    rcases List.mem_append.mp (by simpa using hx) with hx | hx
    · exact (h.stand x hx).keeps hk
    · exact hnew x hx
  · intro x hx y hy hxy
    simp only [votesIn_append, List.mem_append] at hx hy
    rcases hx with hx | hx <;> rcases hy with hy | hy
    · exact h.agree x hx y hy hxy
    · obtain ⟨hy₁, -, hy₃⟩ := hk.votes y hy
      exact Option.some.inj ((hold x hx (hxy.trans hy₁)).symm.trans hy₃)
    · obtain ⟨hx₁, -, hx₃⟩ := hk.votes x hx
      exact Option.some.inj (hx₃.symm.trans (hold y hy (hxy.symm.trans hx₁)))
    · exact Option.some.inj ((hk.votes x hx).2.2.symm.trans (hk.votes y hy).2.2)

/-- `Start` leaves a sane core that has voted for nothing, whatever core it starts from: the
validators of the backend and a fresh round-change set. -/
theorem voted_start (hE : ∀ p, (E.validators p).validators ≠ []) {c : Core} (hc : c.current = none)
    (head : Proposal × Address) : Voted (c.start E head) := by
  have hv : c.newRoundView head.1 0 = some (⟨0, head.1.number + 1⟩, false) := by
    simp [newRoundView, hc]
  have hq : votesIn (c.start E head).2 = [] := votesIn_startNewRound E c head 0
  -- the core `Start` leaves: the new sequence's round entered, then the round changes reset
  have hstart : (c.start E head).1 =
      ((c.enterRound E head ⟨0, head.1.number + 1⟩ false).setState .acceptRequest).1.resetRoundChanges 0 := by
    unfold start startNewRound
    rw [hv]
  refine ⟨⟨?_, ?_⟩, by simp [hq], by simp [hq]⟩
  · rw [hstart, (resetRoundChanges_frame _ 0).2.2, valSet_setState, validators_enterRound]
    exact hE _
  · rw [hstart]
    exact rounds64_resetRoundChanges_zero _

/-- Whatever messages, timeouts, requests and commits reach it, a validator running the handlers
from `Start` never broadcasts PREPAREs or COMMITs of two digests for one view. -/
theorem reachable_votes_agree (hE : ∀ p, (E.validators p).validators ≠ []) {a : Address}
    {allowed : List Output → (Proposal × Address) × Event → Prop} {q : Core × List Output}
    (h : Reachable (StartedAs E a) (next E) allowed q) :
    ∀ x ∈ votesIn q.2, ∀ y ∈ votesIn q.2, x.1 = y.1 → x.2 = y.2 := by
  have hinv : Voted q := by
    refine Reachable.invariant (fun p hp => ?_) (fun p i hp _ => ?_) h
    · obtain ⟨c, head, -, hc, rfl⟩ := hp
      exact voted_start E hE hc head
    · exact hp.keeps (keeps_step E hE hp.sane i.1 i.2)
  exact hinv.agree

end Core

/-- In the fork run validator `2` votes for `B` in round zero and for `B'` in round one, two
views, and for one digest in each. -/
theorem fork_votes_agree :
    (⟨0, 5⟩, blockB.hash) ∈ votesIn (forkConfig 2).2 ∧ (⟨1, 5⟩, blockB'.hash) ∈ votesIn (forkConfig 2).2 ∧
    ∀ x ∈ votesIn (forkConfig 2).2, ∀ y ∈ votesIn (forkConfig 2).2, x.1 = y.1 → x.2 = y.2 :=
  ⟨by decide, by decide, Core.reachable_votes_agree forkEnv (fun _ => List.cons_ne_nil _ _) (fork_reachable 2)⟩

end QuorumHotstuff.Qbft
