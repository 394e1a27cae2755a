import QuorumHotstuff.Hotstuff.Handlers
import QuorumHotstuff.Hotstuff.Spine

/-!
# What each operation of the core does to its spine

One lemma per operation that the handlers compose: the queues of pending requests and
backlogged messages never touch the spine and send nothing; `setCurrentState` only sets the
phase; `sendPrepare`, the `accept*` functions, `commit` and `executeBlock` have their effect
stated once here, so that `Steps` never unfolds them.
-/

namespace QuorumHotstuff.Hotstuff

open Spine QuorumHotstuff.Lib

namespace Core

variable (E : Env)

/-- The current node is the one `sendPrepare` proposes: the high certificate's node extended by
    the proposal block. -/
def proposed (s : RoundState) : Bool :=
  match proposalBlock s, s.highQC with
  | some blk, some hq => s.node == some ⟨hq.proposedBlock, some blk⟩
  | _, _ => false

/-- The spine of a core. -/
def spine (c : Core) : Spine :=
  ⟨c.cur.view, c.cur.state, c.cur.node, c.cur.lockedBlock?, c.isRunning, c.current.isSome, c.db.view,
    c.address, c.isProposer, proposed c.cur⟩

variable {E}

theorem proposed_iff {s : RoundState} :
    proposed s = true ↔ ∃ blk hq, proposalBlock s = some blk ∧ s.highQC = some hq ∧
      s.node = some ⟨hq.proposedBlock, some blk⟩ := by
  unfold proposed
  constructor
  · intro h
    split at h
    · rename_i blk hq hb hh
      exact ⟨blk, hq, hb, hh, beq_iff_eq.mp h⟩
    · cases h
  · rintro ⟨blk, hq, hb, hh, hn⟩
    rw [hb, hh]
    exact beq_iff_eq.mpr hn

theorem proposed_setPendingRequest {s : RoundState} (req : Request) (h : proposed s = true) :
    proposed (s.setPendingRequest req) = true := by
  unfold RoundState.setPendingRequest
  split
  · rename_i hnone
    obtain ⟨blk, hq, hb, hh, hn⟩ := proposed_iff.mp h
    -- nothing was pending, so the proposal is the locked block, which a request does not change
    refine proposed_iff.mpr ⟨blk, hq, ?_, hh, hn⟩
    have hp : s.pendingRequest = none := Option.isNone_iff_eq_none.mp hnone
    have hl : ({ s with pendingRequest := some req } : RoundState).lockedBlock? = s.lockedBlock? :=
      rfl
    unfold proposalBlock at hb ⊢
    rw [hl]
    cases hlb : s.lockedBlock? with
    | some lb =>
      rw [hlb] at hb
      exact hb
    | none =>
      rw [hlb, hp] at hb
      cases hb
  · exact h

theorem spine_setCur (c : Core) (s : RoundState) :
    (c.setCur s).spine = ⟨s.view, s.state, s.node, s.lockedBlock?, c.isRunning, true, c.db.view,
      c.address, c.isProposer, proposed s⟩ :=
  rfl

/-- Storing back a round state that agrees on the spine's fields leaves the spine as it was. -/
theorem spine_setCur_frame {c : Core} {s : RoundState} (hc : c.spine.started = true)
    (hv : s.view = c.cur.view) (hs : s.state = c.cur.state) (hn : s.node = c.cur.node)
    (hl : s.lockedBlock? = c.cur.lockedBlock?) (hp : proposed s = proposed c.cur) :
    (c.setCur s).spine = c.spine := by
  rw [spine_setCur, hv, hs, hn, hl, hp, ← hc]
  rfl

/-! ## Checks and certificates -/

/-- A view that passes `checkView` is the current one, up to the `int64` of the differences. -/
theorem sub_eq_zero_of_checkView {c : Core} {v : View} (h : c.checkView v = none) :
    v.sub c.cur.view = (0, 0) := by
  unfold checkView at h
  generalize hs : v.sub c.currentView = d at h
  obtain ⟨hd, rd⟩ := d
  dsimp only at h
  split_ifs at h with h₁ h₂ h₃ h₄ h₅
  have hh : hd = 0 := by omega
  rw [h₅, hh] at hs
  exact hs

/-- `checkMsgSource` lets through the proposer only. -/
theorem isProposer_of_checkMsgSource {c : Core} {a : Address} (h : c.checkMsgSource a = none) :
    c.valSet.isProposer a = true := by
  unfold checkMsgSource at h
  split_ifs at h with ha
  exact ha

/-- `messagesToQC` certifies the current view. -/
theorem messagesToQC_view {c : Core} {code : MsgType} {qc : QuorumCert}
    (h : c.messagesToQC E code = .ok qc) : qc.view = c.cur.view := by
  unfold messagesToQC at h
  split at h
  · cases h
  · dsimp only at h
    split_ifs at h
    split at h
    · cases h
    · split at h
      · cases h
      · cases h
        rfl

/-! ## The queues -/

/-- Draining the pending requests reposts them and sends nothing. -/
theorem sentIn_drainRequests (c : Core) (fuel : Nat) (q : PQueue Request) :
    sentIn (c.drainRequests fuel q).2 = [] := by
  rw [sentIn, List.filterMap_eq_nil_iff]
  intro o ho
  obtain ⟨r, -, -, rfl⟩ := (PQueue.drain_spec _ _ _ fuel q).2 o ho
  rfl

/-- Draining a backlog queue replays messages and sends nothing. -/
theorem sentIn_drainBacklog (c : Core) (fuel : Nat) (q : PQueue Message) :
    sentIn (c.drainBacklog fuel q).2 = [] := by
  rw [sentIn, List.filterMap_eq_nil_iff]
  intro o ho
  obtain ⟨m, -, -, rfl⟩ := (PQueue.drain_spec _ _ _ fuel q).2 o ho
  rfl

@[simp] theorem spine_processPendingRequests (c : Core) :
    c.processPendingRequests.1.spine = c.spine := rfl

@[simp] theorem sentIn_processPendingRequests (c : Core) :
    sentIn c.processPendingRequests.2 = [] :=
  sentIn_drainRequests c _ _

@[simp] theorem spine_processBacklog (c : Core) : c.processBacklog.1.spine = c.spine := rfl

/-- A fold whose step adds nothing to a filter of its outputs, from an accumulator whose outputs
    the filter keeps nothing of, ends with outputs it keeps nothing of. -/
theorem outputs_foldl_eq_nil {α β γ : Type} (g : List Output → List γ)
    (f : β × List Output → α → β × List Output)
    (hf : ∀ acc e, g acc.2 = [] → g (f acc e).2 = []) :
    ∀ (l : List α) (acc : β × List Output), g acc.2 = [] → g (l.foldl f acc).2 = []
  | [], _, h => h
  | e :: l, acc, h => outputs_foldl_eq_nil g f hf l (f acc e) (hf acc e h)

@[simp] theorem sentIn_processBacklog (c : Core) : sentIn c.processBacklog.2 = [] := by
  unfold processBacklog
  dsimp only
  refine outputs_foldl_eq_nil sentIn _ ?_ _ _ rfl
  intro acc e hacc
  -- a queue of an unknown sender is kept as it is; a drained queue only requeues
  split
  · exact hacc
  · rw [sentIn_append, hacc, sentIn_drainBacklog]
    rfl

@[simp] theorem spine_storeBacklog (c : Core) (m : Message) :
    (c.storeBacklog m).spine = c.spine := by
  unfold storeBacklog backlogPush setBacklog
  split_ifs <;> rfl

@[simp] theorem spine_storeRequestMsg (c : Core) (r : Request) :
    (c.storeRequestMsg r).spine = c.spine := rfl

/-- `setCurrentState` sets the phase and sends nothing. -/
theorem spine_setCurrentState {c : Core} (hc : c.spine.started = true) (st : State) :
    (c.setCurrentState st).1.spine = { c.spine with state := st } := by
  unfold setCurrentState
  split
  · rw [spine_processBacklog, spine_processPendingRequests, spine_setCur, ← hc]
    rfl
  · rw [spine_processBacklog, spine_setCur, ← hc]
    rfl

theorem cur_setCurrentState (c : Core) (st : State) :
    (c.setCurrentState st).1.cur = { c.cur with state := st } := by
  unfold setCurrentState
  split <;> rfl

@[simp] theorem sentIn_setCurrentState (c : Core) (st : State) :
    sentIn (c.setCurrentState st).2 = [] := by
  unfold setCurrentState
  split <;> simp

/-! ## Sending -/

theorem mem_sentIn_broadcast {c : Core} {code : MsgType} {p : Payload} {m : Message}
    (h : m ∈ sentIn (c.broadcast code p)) : m = ⟨c.address, code, c.cur.view, p⟩ := by
  unfold broadcast at h
  split_ifs at h <;> simp [sentIn, Output.sent] at h <;> exact h

theorem mem_sentIn_sendVote {c : Core} {code : MsgType} {m : Message}
    (h : m ∈ sentIn (c.sendVote E code)) :
    ∃ n, c.cur.node = some n ∧ m = ⟨c.address, code, c.cur.view,
      .vote ⟨code, c.cur.view, n.hash E, E.blsSign c.address ⟨code, c.cur.view, n.hash E, []⟩⟩⟩ := by
  unfold sendVote RoundState.unsignedVote at h
  split at h
  · simp at h
  · rename_i vote hvote
    split at hvote
    · cases hvote
    · rename_i n hn
      split at hvote
      · cases hvote
      · cases hvote
        exact ⟨n, hn, mem_sentIn_broadcast h⟩

/-- The votes that `sendVote` sends are cast from the current spine. -/
theorem castAt_of_mem_sendVote {c : Core} {code : MsgType} {m : Message} {v : Vote}
    (h : m ∈ sentIn (c.sendVote E code)) (hv : m.msg = .vote v) : CastAt E c.spine m v := by
  obtain ⟨n, hn, rfl⟩ := mem_sentIn_sendVote h
  cases hv
  exact ⟨rfl, rfl, n, hn, rfl⟩

/-- Only a validator of the set sends anything. -/
theorem getByAddress_of_mem_sentIn_broadcast {c : Core} {code : MsgType} {p : Payload}
    {m : Message} (h : m ∈ sentIn (c.broadcast code p)) :
    c.valSet.getByAddress c.address ≠ none := by
  intro hnone
  unfold broadcast at h
  rw [if_pos hnone] at h
  simp at h

theorem getByAddress_of_mem_sentIn_sendVote {c : Core} {code : MsgType} {m : Message}
    (h : m ∈ sentIn (c.sendVote E code)) : c.valSet.getByAddress c.address ≠ none := by
  unfold sendVote at h
  split at h
  · simp at h
  · exact getByAddress_of_mem_sentIn_broadcast h

/-- A vote that `sendVote` sends says of the current spine what a vote says, given that the
    spine of a validator of the set may cast a vote of that code, or the permit covers it. -/
theorem sentAt_of_mem_sendVote {P : MsgType → Spine → Prop} {c : Core} {code : MsgType}
    {m : Message} (h : m ∈ sentIn (c.sendVote E code))
    (hs : c.valSet.getByAddress c.address ≠ none → c.spine.Votes code ∨ P code c.spine) :
    SentAt E P c.spine m := by
  obtain ⟨n, -, hm⟩ := mem_sentIn_sendVote h
  have hset := hs (getByAddress_of_mem_sentIn_sendVote h)
  refine ⟨fun v hv => ⟨castAt_of_mem_sendVote h hv, ?_⟩, fun n qc hn => ?_, fun _ qc hq => ?_⟩
  · -- the vote carries the code it was cast with
    rw [hm] at hv
    cases hv
    exact hset
  · rw [hm] at hn
    cases hn
  · rw [hm] at hq
    cases hq

/-- A validator of the set that is the proposer is the only address `checkMsgSource` lets
    through. -/
theorem address_eq_of_isProposer {c : Core} {a : Address} (ha : c.valSet.isProposer a = true)
    (hc : c.isProposer = true) (hin : c.valSet.getByAddress c.address ≠ none) : a = c.address := by
  unfold isProposer ValidatorSet.isProposer at *
  have hself : c.valSet.getByAddress c.address = some c.address := by
    unfold ValidatorSet.getByAddress at hin ⊢
    split_ifs at hin ⊢
    · rfl
    · exact absurd rfl hin
  rw [beq_iff_eq, hself] at hc
  rw [beq_iff_eq, hc] at ha
  unfold ValidatorSet.getByAddress at ha
  split_ifs at ha
  exact (Option.some.inj ha).symm

/-- `sendPrepare` either does nothing or, as proposer in `StateHighQC`, makes the high
    certificate's node extended by the proposal block the current node and broadcasts it. -/
theorem sendPrepare_cases (c : Core) :
    c.sendPrepare = (c, []) ∨
    ∃ hq blk, c.isProposer = true ∧ c.cur.state = .highQC ∧ c.cur.highQC = some hq ∧
      proposalBlock c.cur = some blk ∧
      c.sendPrepare = (c.setCur { c.cur with node := some ⟨hq.proposedBlock, some blk⟩ },
        (c.setCur { c.cur with node := some ⟨hq.proposedBlock, some blk⟩ }).broadcast .prepare
          (.packagedQC ⟨hq.proposedBlock, some blk⟩ hq)) := by
  unfold sendPrepare
  split_ifs with hg
  · exact .inl rfl
  · simp only [Bool.not_eq_true', not_or, Bool.not_eq_false, ne_eq, not_not] at hg
    split
    · rename_i blk hq hblk hhq
      right
      exact ⟨hq, blk, hg.1, hg.2, hhq, hblk, rfl⟩
    · exact .inl rfl

/-- The proposal block of a locked round state is the locked block. -/
theorem proposalBlock_of_locked {s : RoundState} {b blk : Block} (hl : s.lockedBlock? = some b)
    (hp : proposalBlock s = some blk) : blk = b := by
  unfold proposalBlock at hp
  rw [hl] at hp
  dsimp only at hp
  split_ifs at hp
  cases hp
  rfl

/-- A block that passes `checkBlock` while the round state is locked has the locked hash. -/
theorem checkBlock_locked {c : Core} {blk b : Block} (hc : c.checkBlock blk = none)
    (hl : c.cur.lockedBlock? = some b) : blk.hash = b.hash := by
  unfold checkBlock at hc
  rw [hl] at hc
  dsimp only at hc
  split_ifs at hc with h₁ h₂ h₃ h₄
  exact Classical.not_not.mp h₄

/-! ## Moving forward -/

theorem spine_acceptPrepareQC (c : Core) (qc : QuorumCert) :
    (c.acceptPrepareQC qc).spine = { c.spine with state := .prepared, started := true } := rfl

/-- `acceptLockQC` locks on the block of the current node and moves to `StatePreCommitted`. -/
theorem acceptLockQC_spine {c c' : Core} {qc : QuorumCert} (h : c.acceptLockQC qc = some c') :
    ∃ n pd, c.cur.node = some n ∧ c'.spine = { c.spine with
      state := .preCommitted, lockedBlock := n.block, started := true, proposed := pd } := by
  unfold acceptLockQC RoundState.lock at h
  split at h
  · cases h
  · rename_i s db hs
    split at hs
    · cases hs
    · rename_i n hn
      cases hs
      cases h
      exact ⟨n, _, hn, rfl⟩

/-- `acceptCommitQC` replaces the node's block by its sealed copy of the same hash, which becomes
    the locked block, and moves to `StateCommitted`. -/
theorem acceptCommitQC_spine {c c' : Core} {sb : Block} {qc : QuorumCert}
    (h : c.acceptCommitQC sb qc = some c') :
    ∃ p b pd, c.cur.node = some ⟨p, some b⟩ ∧ b.hash = sb.hash ∧
      c'.spine = { c.spine with
        state := .committed, node := some ⟨p, some sb⟩
        lockedBlock := if c.cur.proposalLocked then some sb else none, started := true
        proposed := pd } := by
  unfold acceptCommitQC RoundState.setSealedBlock at h
  split at h
  · cases h
  · rename_i s db hs
    split at hs
    · rename_i p b hn
      split_ifs at hs with hh
      cases hs
      cases h
      exact ⟨p, b, _, hn, Classical.not_not.mp hh, rfl⟩
    · cases hs

theorem commit_spine {c c' : Core} {sb : Block} {out : List Output}
    (hc : c.spine.started = true) (h : c.commit E sb = .ok (c', out)) :
    c'.spine = c.spine ∧ sentIn out = [] := by
  unfold commit at h
  split at h
  · cases h
  · dsimp only at h
    split_ifs at h with h₁ h₂ h₃
    · cases h
      exact ⟨spine_setCur_frame hc rfl rfl rfl rfl rfl, rfl⟩
    · cases h
      exact ⟨rfl, rfl⟩

theorem executeBlock_eq {c c' : Core} {blk : Block} (h : c.executeBlock E blk = some c') :
    c' = c.setCur { c.cur with executed := some blk } := by
  unfold executeBlock at h
  split_ifs at h <;> exact (Option.some.inj h).symm

theorem executeBlock_spine {c c' : Core} {blk : Block} (hc : c.spine.started = true)
    (h : c.executeBlock E blk = some c') : c'.spine = c.spine := by
  unfold executeBlock at h
  split_ifs at h <;> cases h <;> exact spine_setCur_frame hc rfl rfl rfl rfl rfl

/-! ## Rounds -/

theorem u64_of_lt {x : Nat} (h : x < 2 ^ 64) : u64 x = x := Nat.mod_eq_of_lt h

/-- Without a stored view, `reload` keeps the view it is given. -/
theorem view_reload {s : RoundState} {db : DB} (hdb : db.view = none) (v : View) :
    (s.reload E db v).view = s.view := by
  -- each load step writes fields other than the round and the height, and so does the relock
  have hload : (((((s.loadView db v).loadPrepareQC db).loadLockQC db).loadCommitQC db).loadNode
      db).view = s.view := by
    simp only [s.loadView_of_none hdb, RoundState.loadPrepareQC_eq, RoundState.loadLockQC_eq,
      RoundState.loadCommitQC_eq, RoundState.loadNode_eq]
    rfl
  rcases s.reload_cases E db v with h | ⟨b, h⟩
  · rw [h]
    exact hload
  · rw [h]
    exact hload

theorem view_updateRoundState {c : Core} (hdb : c.db.view = none) (last : Block) (nv : View) :
    (c.updateRoundState E last nv).cur.view = nv := by
  unfold updateRoundState
  -- the state is reloaded at start, else moved to the new view; storing a start certificate
  -- keeps its view
  split
  · dsimp only
    split
    · exact view_reload hdb nv
    · exact view_reload hdb nv
  · dsimp only
    split
    · rfl
    · rfl

/-- `updateRoundState` of a started core keeps the phase, the node and the lock. -/
theorem updateRoundState_of_some {c : Core} {s : RoundState} (hc : c.current = some s)
    (last : Block) (nv : View) :
    (c.updateRoundState E last nv).cur.state = s.state ∧
      (c.updateRoundState E last nv).cur.node = s.node ∧
      (c.updateRoundState E last nv).cur.lockedBlock? = s.lockedBlock? := by
  unfold updateRoundState
  rw [hc]
  dsimp only
  split <;> exact ⟨rfl, rfl, rfl⟩

theorem updateRoundState_frame (c : Core) (last : Block) (nv : View) :
    (c.updateRoundState E last nv).isRunning = c.isRunning ∧
      (c.updateRoundState E last nv).db.view = c.db.view ∧
      (c.updateRoundState E last nv).current.isSome = true := by
  unfold updateRoundState
  split <;> dsimp only <;> split <;> exact ⟨rfl, rfl, rfl⟩

theorem isProposer_updateRoundState (c : Core) (last : Block) (nv : View) :
    (c.updateRoundState E last nv).isProposer = c.isProposer := by
  unfold updateRoundState
  split <;> dsimp only <;> split <;> rfl

theorem address_updateRoundState (c : Core) (last : Block) (nv : View) :
    (c.updateRoundState E last nv).address = c.address := by
  unfold updateRoundState
  split <;> dsimp only <;> split <;> rfl

theorem spine_updateRoundState {c : Core} {s : RoundState} (hc : c.current = some s)
    (hdb : c.db.view = none) (last : Block) (nv : View) :
    (c.updateRoundState E last nv).spine =
      ⟨nv, s.state, s.node, s.lockedBlock?, c.isRunning, true, c.db.view, c.address, c.isProposer,
        proposed (c.updateRoundState E last nv).cur⟩ := by
  obtain ⟨hst, hn, hl⟩ := updateRoundState_of_some (E := E) hc last nv
  obtain ⟨hrun, hdb', hsome⟩ := updateRoundState_frame (E := E) c last nv
  unfold spine
  rw [view_updateRoundState hdb, hst, hn, hl, hrun, hdb', hsome, address_updateRoundState,
    isProposer_updateRoundState]

/-- A message of `broadcast` is quiet when its payload is no vote or node and its code is not
    Commit. -/
theorem quiet_broadcast {c : Core} {code : MsgType} {p : Payload} (hv : ∀ v, p ≠ .vote v)
    (hn : ∀ n qc, p ≠ .packagedQC n qc) (hcode : code ≠ .commit) :
    ∀ m ∈ sentIn (c.broadcast code p), Quiet m := by
  intro m hm
  rw [mem_sentIn_broadcast hm]
  exact ⟨hv, hn, hcode⟩

/-- `sendNewView` sends a prepare certificate in a NewView, a quiet message. -/
theorem quiet_sendNewView (c : Core) : ∀ m ∈ sentIn c.sendNewView, Quiet m := by
  intro m hm
  unfold sendNewView at hm
  split at hm
  · exact quiet_broadcast (by simp) (by simp) (by decide) m hm
  · simp at hm

/-- A `startNewRound` that does not return early lands in `StateAcceptRequest` at the view
    `newRoundView` chose, keeping the node and the lock only when it changes the round; it sends
    only a NewView. -/
theorem startNewRound_cases {c : Core} {s : RoundState} (hc : c.current = some s)
    (hdb : c.db.view = none) (head : Block × Address) (round : Nat) :
    ((c.isRunning = false ∨ c.newRoundView head.1 round = none) ∧
      c.startNewRound E head round = (c, [])) ∨
    ∃ nv cv pr pd, c.isRunning = true ∧ c.newRoundView head.1 round = some (nv, cv) ∧
      (c.startNewRound E head round).1.spine = ⟨nv, .acceptRequest,
        if cv then s.node else none, if cv then s.lockedBlock? else none, c.isRunning, true,
        none, c.address, pr, pd⟩ ∧
      ∀ m ∈ sentIn (c.startNewRound E head round).2, Quiet m := by
  unfold startNewRound
  split_ifs with hrun
  · exact .inl ⟨.inl (by simpa using hrun), rfl⟩
  · split
    · rename_i hnone
      exact .inl ⟨.inr hnone, rfl⟩
    · rename_i nv cv hview
      right
      replace hrun : c.isRunning = true := by simpa using hrun
      -- the core after `updateRoundState` and the `Unlock` of a new height
      let c₁ := ({ c with valSet := c.valSet.calcProposer head.2 (u64 nv.round) } : Core)
      let c₂ := c₁.updateRoundState E head.1 nv
      let c₃ := if cv then c₂ else c₂.setCur c₂.cur.unlock
      have h₂ : c₂.spine = ⟨nv, s.state, s.node, s.lockedBlock?, c.isRunning, true, none,
          c.address, c₁.isProposer, proposed c₂.cur⟩ := by
        rw [← hdb]
        exact spine_updateRoundState (c := c₁) hc hdb head.1 nv
      have h₃ : c₃.spine = ⟨nv, s.state, if cv then s.node else none,
          if cv then s.lockedBlock? else none, c.isRunning, true, none, c.address, c₁.isProposer,
          proposed c₃.cur⟩ := by
        cases cv
        · show (c₂.setCur c₂.cur.unlock).spine = _
          rw [spine_setCur]
          have hv : c₂.cur.view = nv := congrArg Spine.view h₂
          have hr : c₂.isRunning = c.isRunning := congrArg Spine.running h₂
          have hd : c₂.db.view = none := congrArg Spine.storedView h₂
          have hs : c₂.cur.state = s.state := congrArg Spine.state h₂
          have ha : c₂.address = c.address := congrArg Spine.self h₂
          have hp : c₂.isProposer = c₁.isProposer := isProposer_updateRoundState c₁ head.1 nv
          simp only [RoundState.unlock, RoundState.lockedBlock?, Bool.false_eq_true, ↓reduceIte]
          rw [← hv, ← hr, ← hd, ← hs, ← ha, ← hp]
          rfl
        · exact h₂
      have hstarted : c₃.spine.started = true := by rw [h₃]
      refine ⟨nv, cv, c₁.isProposer, proposed c₃.cur, hrun, hview, ?_, ?_⟩
      · show (c₃.setCurrentState .acceptRequest).1.spine = _
        rw [spine_setCurrentState hstarted, h₃]
      · intro m hm
        rw [sentIn_append, List.mem_append] at hm
        rcases hm with hm | hm
        · simp at hm
        · exact quiet_sendNewView _ m hm

/-- Where `startNewRound` moves a started core, for the rounds its callers pass (zero, and the
    next round on a timeout), when the view fits in `uint64` and the chain head is below
    `2^64 - 1`: to a strictly later view that still fits, at a new height with round zero unless
    it only changes the round. -/
theorem newRoundView_spec {c : Core} {s : RoundState} {last : Block} {round : Nat} {nv : View}
    {cv : Bool} (hc : c.current = some s) (hh : s.height < 2 ^ 64) (hr : s.round < 2 ^ 64)
    (hlast : last.number + 1 < 2 ^ 64) (hround : round = 0 ∨ round = s.round + 1)
    (h : c.newRoundView last round = some (nv, cv)) :
    s.view.key < nv.key ∧ nv.height < 2 ^ 64 ∧ nv.round < 2 ^ 64 ∧
      (cv = true → nv.height = s.height) ∧ (cv = false → s.height < nv.height) := by
  have hnum : last.numberU64 = last.number := u64_of_lt (by omega)
  unfold newRoundView at h
  rw [hc] at h
  dsimp only at h
  rw [hnum, u64_of_lt hh] at h
  split_ifs at h with h₁ h₂ h₃ h₄
  · -- the chain head caught up: the next height, round zero
    cases h
    have hlt : s.height < last.number + 1 := by omega
    exact ⟨View.key_lt_iff.mpr (.inl hlt), hlast, Nat.two_pow_pos 64, fun h => absurd h (by decide),
      fun _ => hlt⟩
  · -- only the round changes, and it is the next one
    cases h
    have hround' : round = s.round + 1 := by omega
    have hwrap : s.round + 1 < 2 ^ 64 := by
      by_contra hge
      rw [u64_of_lt hr, hround', show s.round + 1 = 2 ^ 64 by omega] at h₄
      simp [u64] at h₄
      omega
    have hlt : s.round < round := by omega
    exact ⟨View.key_lt_iff.mpr (.inr ⟨rfl, hlt⟩), hh, show round < 2 ^ 64 by omega, fun _ => rfl,
      fun h => absurd h (by decide)⟩

/-! ## Each operation is sound -/

variable {P : MsgType → Spine → Prop}

theorem sound_frame {c c' : Core} {out : List Output} (hc : c.spine.Inv) (h : c'.spine = c.spine)
    (hout : ∀ m ∈ sentIn out, Quiet m) : Sound E P c.spine c'.spine out := by
  rw [h]
  exact .of_quiet hc (Advance.refl _) hout

theorem sound_sendVote {c : Core} (hc : c.spine.Inv) {code : MsgType}
    (hs : c.valSet.getByAddress c.address ≠ none → c.spine.Votes code ∨ P code c.spine) :
    Sound E P c.spine c.spine (c.sendVote E code) :=
  .cast hc fun _ hm => sentAt_of_mem_sendVote hm hs

theorem sound_setCurrentState {c : Core} (hc : c.spine.Inv) {st : State} (hst : c.cur.state ≤ st) :
    Sound E P c.spine (c.setCurrentState st).1.spine (c.setCurrentState st).2 := by
  rw [spine_setCurrentState hc.started]
  exact .of_quiet (hc.withState st) (Advance.withState _ hst) (by simp)

theorem sound_acceptPrepareQC {c : Core} (hc : c.spine.Inv) (hst : c.cur.state ≤ .prepared)
    (qc : QuorumCert) : Sound E P c.spine (c.acceptPrepareQC qc).spine [] := by
  have hsp : (c.acceptPrepareQC qc).spine = { c.spine with state := .prepared } := by
    rw [spine_acceptPrepareQC, ← hc.started]
  rw [hsp]
  exact .of_quiet (hc.withState _) (Advance.withState _ hst) (by simp)

/-- The spine `sendPrepare` leaves: the proposed node, which is now the proposal. -/
theorem spine_sendPrepare {c : Core} (hc : c.spine.started = true) {hq : QuorumCert} {blk : Block}
    (hhq : c.cur.highQC = some hq) (hblk : proposalBlock c.cur = some blk) :
    (c.setCur { c.cur with node := some ⟨hq.proposedBlock, some blk⟩ }).spine =
      { c.spine with node := some ⟨hq.proposedBlock, some blk⟩, proposed := true } := by
  have hp : proposed { c.cur with node := some ⟨hq.proposedBlock, some blk⟩ } = true :=
    proposed_iff.mpr ⟨blk, hq, hblk, hhq, rfl⟩
  rw [spine_setCur, hp, ← hc]
  rfl

/-- The node `sendPrepare` proposes carries the locked block, so the invariant survives; a
    proposer whose node already is the proposal proposes it again; the Prepare is sent from the
    settled spine that holds the node. -/
theorem sound_sendPrepare {c : Core} (hc : c.spine.Inv) :
    Sound E P c.spine c.sendPrepare.1.spine c.sendPrepare.2 := by
  rcases sendPrepare_cases c with h | ⟨hq, blk, hprop, hst, hhq, hblk, h⟩
  · rw [h]
    exact .refl hc
  · rw [h]
    dsimp only
    rw [spine_sendPrepare hc.started hhq hblk]
    have hinv : { c.spine with node := some ⟨hq.proposedBlock, some blk⟩, proposed := true }.Inv := by
      refine ⟨hc.running, hc.started, hc.height_pos, hc.height_lt, hc.round_lt, hc.storedView,
        fun n hn => ?_, fun b hb => ?_⟩
      · cases hn
        rfl
      · rw [proposalBlock_of_locked hb hblk]
        exact ⟨_, rfl, rfl⟩
    have hadv : Advance c.spine
        { c.spine with node := some ⟨hq.proposedBlock, some blk⟩, proposed := true } := by
      refine .sameView rfl (State.le_refl _) (fun b hb => ⟨b, hb, rfl⟩) rfl rfl ?_
        (fun _ _ _ => rfl)
      -- a settled proposer in `StateHighQC` already holds the node it proposes
      intro hs
      obtain ⟨blk', hq', hblk', hhq', hn⟩ := proposed_iff.mp (hs.2 hprop hst)
      rw [hblk] at hblk'
      rw [hhq] at hhq'
      cases hblk'
      cases hhq'
      show some _ = Option.map ProposedBlock.key c.cur.node
      rw [hn]
      rfl
    refine (Sound.of_quiet hinv hadv (by simp)).nil_trans (Sound.cast hinv fun m hm => ?_)
    rw [mem_sentIn_broadcast hm]
    refine ⟨fun v hv => (by cases hv), fun n qc hn => ?_, fun hcode => (by cases hcode)⟩
    cases hn
    exact ⟨rfl, ⟨by rw [← hst]; exact State.le_refl _, fun _ _ => rfl⟩, rfl⟩

/-- A replica below `StateHighQC` adopts a node whose block has the locked hash (`checkBlock` saw
    to it); its node was not settled. -/
theorem sound_adopt {c : Core} (hc : c.spine.Inv) (hst : c.cur.state < .highQC)
    {node : ProposedBlock} {blk : Block} (hnb : node.block = some blk)
    (hlock : ∀ b, c.spine.lockedBlock = some b → blk.hash = b.hash) :
    Sound E P c.spine (c.setCur { c.cur with node := some node }).spine [] := by
  have hnot : ¬ c.spine.Settled := fun hs => Nat.lt_irrefl _ (Nat.lt_of_lt_of_le hst hs.1)
  rw [spine_setCur, ← hc.started]
  refine .of_quiet ⟨hc.running, hc.started, hc.height_pos, hc.height_lt, hc.round_lt,
    hc.storedView, fun n hn => ?_, fun b hb => ?_⟩
    (.sameView rfl (State.le_refl _) (fun b hb => ⟨b, hb, rfl⟩) rfl rfl (fun hs => absurd hs hnot)
      (fun hh => absurd (hh ▸ hst) (Nat.lt_irrefl _))) (by simp)
  · cases hn
    rw [hnb]
    rfl
  · refine ⟨node, rfl, ?_⟩
    rw [hnb, Option.map_some, hlock b hb]

/-- Below `StateHighQC`, storing back a round state that keeps the view, the phase, the node and
    the lock is sound, whatever it does to the proposal. -/
theorem sound_setCur_below {c : Core} (hc : c.spine.Inv) (hst : c.cur.state < .highQC)
    {s : RoundState} (hv : s.view = c.cur.view) (hs : s.state = c.cur.state)
    (hn : s.node = c.cur.node) (hl : s.lockedBlock? = c.cur.lockedBlock?) :
    Sound E P c.spine (c.setCur s).spine [] := by
  rw [spine_setCur]
  refine .of_quiet ⟨hc.running, rfl, ?_, ?_, ?_, hc.storedView, ?_, ?_⟩
    (.sameView hv (by rw [hs]; exact State.le_refl _) ?_ rfl rfl (fun _ => by rw [hn]; rfl)
      (fun hh => absurd (hh ▸ hst) (Nat.lt_irrefl _))) (by simp)
  · rw [hv]
    exact hc.height_pos
  · rw [hv]
    exact hc.height_lt
  · rw [hv]
    exact hc.round_lt
  · rw [hn]
    exact hc.nodeBlock
  · intro b hb
    rw [hn]
    have hb' : c.cur.lockedBlock? = some b := by rw [← hl]; exact hb
    exact hc.lockNode b hb'
  · intro b hb
    exact ⟨b, by rw [hl]; exact hb, rfl⟩

/-- A request kept while another waits leaves the proposal as it was. -/
theorem sound_setPendingRequest {c : Core} (hc : c.spine.Inv) (req : Request) :
    Sound E P c.spine (c.setCur (c.cur.setPendingRequest req)).spine [] := by
  have hsp : (c.setCur (c.cur.setPendingRequest req)).spine =
      { c.spine with proposed := proposed (c.cur.setPendingRequest req) } := by
    rw [spine_setCur, ← hc.started]
    unfold RoundState.setPendingRequest
    split <;> rfl
  rw [hsp]
  exact .of_quiet ⟨hc.running, hc.started, hc.height_pos, hc.height_lt, hc.round_lt, hc.storedView,
    hc.nodeBlock, hc.lockNode⟩
    (.sameView rfl (State.le_refl _) (fun b hb => ⟨b, hb, rfl⟩) rfl rfl (fun _ => rfl)
      (fun _ _ hp => proposed_setPendingRequest req hp)) (by simp)

theorem setProposedBlock_eq {s s' : RoundState} {node : ProposedBlock}
    (h : s.setProposedBlock node = some s') : s' = { s with node := some node } := by
  unfold RoundState.setProposedBlock at h
  split_ifs at h
  exact (Option.some.inj h).symm

theorem sound_cond_sendVote {c : Core} (hc : c.spine.Inv) (p : Prop) [Decidable p]
    (code : MsgType)
    (hs : p → c.valSet.getByAddress c.address ≠ none → c.spine.Votes code ∨ P code c.spine) :
    Sound E P c.spine c.spine (if p then c.sendVote E code else []) := by
  split
  · rename_i hp
    exact sound_sendVote hc (hs hp)
  · exact .refl hc

/-- Locking on the current node keeps a lock of the same height on the same hash, since the
    node carries the locked block. -/
theorem sound_acceptLockQC {c c' : Core} (hc : c.spine.Inv) (hst : c.cur.state ≤ .preCommitted)
    {qc : QuorumCert} (h : c.acceptLockQC qc = some c') : Sound E P c.spine c'.spine [] := by
  obtain ⟨n, pd, hn, h'⟩ := acceptLockQC_spine h
  rw [h']
  refine .of_quiet ⟨hc.running, rfl, hc.height_pos, hc.height_lt, hc.round_lt, hc.storedView,
    hc.nodeBlock, ?_⟩
    (.sameView rfl hst ?_ rfl rfl (fun _ => rfl) (fun _ h => by cases h)) (by simp)
  · intro b hb
    refine ⟨n, hn, ?_⟩
    rw [show n.block = some b from hb]
    rfl
  · intro b hb
    obtain ⟨n', hn', hh⟩ := hc.lockNode b hb
    have hnn : n' = n := Option.some.inj (hn'.symm.trans hn)
    rw [hnn] at hh
    obtain ⟨b', hb', hbh⟩ := Option.map_eq_some_iff.mp hh
    exact ⟨b', hb', hbh⟩

/-- Sealing replaces the node's block and the locked block by a copy of the same hash. -/
theorem sound_acceptCommitQC {c c' : Core} (hc : c.spine.Inv) (hst : c.cur.state ≤ .committed)
    {sb : Block} {qc : QuorumCert} (h : c.acceptCommitQC sb qc = some c') :
    Sound E P c.spine c'.spine [] := by
  obtain ⟨p, b, pd, hn, hbh, h'⟩ := acceptCommitQC_spine h
  rw [h']
  refine .of_quiet ⟨hc.running, rfl, hc.height_pos, hc.height_lt, hc.round_lt, hc.storedView,
    fun n hn => by cases hn; rfl, ?_⟩
    (.sameView rfl hst ?_ rfl rfl ?_ (fun _ h => by cases h)) (by simp)
  · intro b' hb'
    refine ⟨⟨p, some sb⟩, rfl, ?_⟩
    split_ifs at hb'
    cases hb'
    rfl
  · intro b' hb'
    -- the old lock is on the node's block, whose hash the sealed block keeps
    obtain ⟨n', hn', hh⟩ := hc.lockNode b' hb'
    have hnn : n' = ⟨p, some b⟩ := Option.some.inj (hn'.symm.trans hn)
    rw [hnn] at hh
    have hlocked : c.cur.proposalLocked = true := by
      by_contra hpl
      simp [spine, RoundState.lockedBlock?, hpl] at hb'
    refine ⟨sb, by simp [hlocked], ?_⟩
    rw [← hbh]
    exact Option.some.inj hh
  · intro _
    show some (ProposedBlock.key ⟨p, some sb⟩) = Option.map ProposedBlock.key c.cur.node
    rw [hn]
    simp [ProposedBlock.key, hbh]

/-- `startNewRound`, called with round zero or the next round, is sound for a core whose chain head
    is below `2^64 - 1`. -/
theorem sound_startNewRound {c : Core} (hc : c.spine.Inv) {head : Block × Address} {round : Nat}
    (hhead : head.1.number + 1 < 2 ^ 64) (hround : round = 0 ∨ round = c.cur.round + 1) :
    Sound E P c.spine (c.startNewRound E head round).1.spine (c.startNewRound E head round).2 := by
  obtain ⟨s, hs⟩ := Option.isSome_iff_exists.mp hc.started
  have hcur : c.cur = s := by simp [cur, hs]
  rcases startNewRound_cases (E := E) hs hc.storedView head round with
    ⟨-, h⟩ | ⟨nv, cv, pr, pd, -, hview, h, hout⟩
  · rw [h]
    exact .refl hc
  · have hh : s.height < 2 ^ 64 := by have := hc.height_lt; rwa [spine, hcur] at this
    have hr : s.round < 2 ^ 64 := by have := hc.round_lt; rwa [spine, hcur] at this
    rw [hcur] at hround
    obtain ⟨hlt, hnh, hnr, hcv, hcv'⟩ := newRoundView_spec hs hh hr hhead hround hview
    have hsp : c.spine = ⟨s.view, s.state, s.node, s.lockedBlock?, c.isRunning, true,
        c.db.view, c.address, c.isProposer, proposed s⟩ := by
      rw [← hc.started]
      simp [spine, hcur]
    -- the view moves strictly forward, so what a step keeps within a view says nothing here
    have hne : ∀ {v : View}, v = nv → v ≠ s.view := by
      intro v hv heq
      rw [← hv, heq] at hlt
      exact lt_irrefl _ hlt
    rw [h]
    refine .of_quiet ⟨hc.running, rfl, ?_, hnh, hnr, rfl, ?_, ?_⟩ ⟨?_, ?_, ?_, ?_, ?_, ?_, ?_⟩ hout
    · -- the height never goes down from a positive one
      have hpos := hc.height_pos
      rw [hsp] at hpos
      have hle := View.height_le_of_key_le (le_of_lt hlt)
      exact Nat.lt_of_lt_of_le hpos hle
    · -- a kept node is the old one; a new height has none
      intro n hn
      cases cv
      · simp at hn
      · have := hc.nodeBlock n
        rw [hsp] at this
        exact this hn
    · -- a kept lock keeps its node; a new height has neither
      intro b hb
      cases cv
      · simp at hb
      · have := hc.lockNode b
        rw [hsp] at this
        exact this hb
    · rw [hsp]
      exact le_of_lt hlt
    · intro heq
      rw [hsp] at heq
      exact absurd heq (hne rfl)
    · intro hheight b hb
      rw [hsp] at hb hheight
      cases cv
      · have hgt := hcv' rfl
        have hview : s.view.height = s.height := rfl
        simp only at hheight
        omega
      · exact ⟨b, hb, rfl⟩
    · rw [hsp]
    · intro heq
      rw [hsp] at heq
      exact absurd heq (hne rfl)
    · intro heq
      rw [hsp] at heq
      exact absurd heq (hne rfl)
    · intro heq
      rw [hsp] at heq
      exact absurd heq (hne rfl)

end Core

end QuorumHotstuff.Hotstuff
