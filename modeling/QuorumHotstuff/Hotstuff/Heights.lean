import QuorumHotstuff.Hotstuff.Steps

/-!
# The blocks a validator holds are of its height

`checkBlock` compares a proposed block's number with the number of the last chained block,
`sendPrepare` proposes only a block whose number is the height, and `backend.SealBlock` only adds
the commit certificate to a header.  So every block the round state holds, as its node's block,
its locked block or its executed block, has the height as its `uint64` number, and the chain head
it moved to is the block just below the height.  `commit` hands the backend one of these blocks:
the number of a committed block is the height it was committed at.
-/

namespace QuorumHotstuff.Hotstuff

/-- `backend.SealBlock` adds the commit certificate to the header and keeps its number. -/
def Env.SealKeepsNumber (E : Env) : Prop :=
  ∀ b qc b', E.sealBlock b qc = some b' → b'.number = b.number

namespace RoundState

/-- The chain head sits just below the height, and every block the round state holds, as node,
    lock or executed block, is of the height, numbers compared as `uint64`. -/
structure OfHeight (s : RoundState) : Prop where
  last : u64 (s.lastChainedBlock.numberU64 + 1) = u64 s.height
  node : ∀ n, s.node = some n → ∀ b, n.block = some b → b.numberU64 = u64 s.height
  locked : ∀ b, s.lockedBlock = some b → b.numberU64 = u64 s.height
  executed : ∀ b, s.executed = some b → b.numberU64 = u64 s.height

/-- A round state that keeps the height, the chain head and the blocks keeps the invariant. -/
theorem OfHeight.frame {s s' : RoundState} (h : s.OfHeight) (hh : s'.height = s.height)
    (hl : s'.lastChainedBlock = s.lastChainedBlock) (hn : s'.node = s.node)
    (hk : s'.lockedBlock = s.lockedBlock) (he : s'.executed = s.executed) : s'.OfHeight :=
  ⟨by rw [hl, hh]; exact h.last, by rw [hn, hh]; exact h.node, by rw [hk, hh]; exact h.locked,
    by rw [he, hh]; exact h.executed⟩

theorem OfHeight.lockedBlock? {s : RoundState} (h : s.OfHeight) {b : Block}
    (hb : s.lockedBlock? = some b) : b.numberU64 = u64 s.height := by
  unfold RoundState.lockedBlock? at hb
  split_ifs at hb
  exact h.locked b hb

end RoundState

namespace Core

variable {E : Env}

/-- A block that passes `checkBlock` is of the height. -/
theorem numberU64_of_checkBlock {c : Core} (h : c.cur.OfHeight) {blk : Block}
    (hc : c.checkBlock blk = none) : blk.numberU64 = u64 c.cur.height := by
  unfold checkBlock at hc
  dsimp only at hc
  split_ifs at hc with h₁
  rw [← h.last]
  exact (Classical.not_not.mp h₁).symm

/-- `sendPrepare` proposes a block of the height. -/
theorem numberU64_of_proposalBlock {s : RoundState} {blk : Block} (hp : proposalBlock s = some blk) :
    blk.numberU64 = u64 s.height := by
  unfold proposalBlock at hp
  split at hp
  · split_ifs at hp with h₁
    cases hp
    exact Classical.not_not.mp h₁
  · split at hp
    · split_ifs at hp with h₁
      cases hp
      exact Classical.not_not.mp h₁
    · cases hp

theorem ofHeight_setCurrentState {c : Core} (h : c.cur.OfHeight) (st : State) :
    (c.setCurrentState st).1.cur.OfHeight := by
  rw [cur_setCurrentState]
  exact h.frame rfl rfl rfl rfl rfl

theorem ofHeight_acceptPrepareQC {c : Core} (h : c.cur.OfHeight) (qc : QuorumCert) :
    (c.acceptPrepareQC qc).cur.OfHeight :=
  h.frame rfl rfl rfl rfl rfl

theorem ofHeight_acceptLockQC {c c' : Core} (h : c.cur.OfHeight) {qc : QuorumCert}
    (hl : c.acceptLockQC qc = some c') : c'.cur.OfHeight := by
  unfold acceptLockQC RoundState.lock at hl
  split at hl
  · cases hl
  · rename_i s db hs
    split at hs
    · cases hs
    · rename_i n hn
      cases hs
      cases hl
      -- the lock is the node's block
      exact ⟨h.last, h.node, fun b hb => h.node n hn b hb, h.executed⟩

/-- Sealing puts a block of the height in place of the node's block. -/
theorem ofHeight_acceptCommitQC {c c' : Core} (h : c.cur.OfHeight) {sb : Block} {qc : QuorumCert}
    (hsb : sb.numberU64 = u64 c.cur.height) (ha : c.acceptCommitQC sb qc = some c') :
    c'.cur.OfHeight := by
  unfold acceptCommitQC RoundState.setSealedBlock at ha
  split at ha
  · cases ha
  · rename_i s db hs
    split at hs
    · split_ifs at hs
      cases hs
      cases ha
      refine ⟨h.last, ?_, fun b hb => ?_, fun b hb => ?_⟩
      · intro n hn b hb
        cases hn
        cases hb
        exact hsb
      · cases hb
        exact hsb
      · -- the executed block is the sealed one or the one it was
        dsimp only at hb
        split at hb
        · split_ifs at hb
          · cases hb
            exact hsb
          · rename_i e he _
            have hbe : e = b := Option.some.inj hb
            rw [← hbe]
            exact h.executed e he
        · cases hb
    · cases hs

theorem ofHeight_commit {c c' : Core} (h : c.cur.OfHeight) {sb : Block} {out : List Output}
    (hsb : sb.numberU64 = u64 c.cur.height) (hc : c.commit E sb = .ok (c', out)) :
    c'.cur.OfHeight := by
  unfold commit at hc
  split at hc
  · cases hc
  · dsimp only at hc
    split_ifs at hc
    · cases hc
      exact ⟨h.last, h.node, h.locked, fun b hb => by cases hb; exact hsb⟩
    · cases hc
      exact h

theorem ofHeight_executeBlock {c c' : Core} (h : c.cur.OfHeight) {blk : Block}
    (hb : blk.numberU64 = u64 c.cur.height) (he : c.executeBlock E blk = some c') :
    c'.cur.OfHeight := by
  rw [executeBlock_eq he]
  exact ⟨h.last, h.node, h.locked, fun b hb' => by cases hb'; exact hb⟩

theorem ofHeight_sendPrepare {c : Core} (h : c.cur.OfHeight) : c.sendPrepare.1.cur.OfHeight := by
  rcases sendPrepare_cases c with hs | ⟨hq, blk, -, -, -, hblk, hs⟩
  · rw [hs]
    exact h
  · rw [hs]
    refine ⟨h.last, fun n hn b hb => ?_, h.locked, h.executed⟩
    cases hn
    cases hb
    exact numberU64_of_proposalBlock hblk

/-- The view `newRoundView` chooses has the chain head just below its height; a round change keeps
    the height, which the chain head is then just below. -/
theorem last_of_newRoundView {c : Core} {last : Block} {round : Nat} {nv : View} {cv : Bool}
    (hb : ∀ s, c.current = some s → 0 < s.height ∧ s.height < 2 ^ 64)
    (h : c.newRoundView last round = some (nv, cv)) :
    u64 (last.numberU64 + 1) = u64 nv.height ∧
      (cv = true → ∃ s, c.current = some s ∧ nv.height = s.height) := by
  unfold newRoundView at h
  split at h
  · cases h
    refine ⟨?_, fun h => absurd h (by decide)⟩
    show u64 (u64 last.number + 1) = u64 (last.number + 1)
    unfold u64
    omega
  · rename_i s hs
    obtain ⟨hpos, hlt⟩ := hb s hs
    split_ifs at h with h₁ h₂ h₃ h₄
    · cases h
      refine ⟨?_, fun h => absurd h (by decide)⟩
      show u64 (u64 last.number + 1) = u64 (last.number + 1)
      unfold u64
      omega
    · cases h
      refine ⟨?_, fun _ => ⟨s, hs, rfl⟩⟩
      -- the head is neither at the height nor more than one below it
      unfold u64 at h₁ h₂ ⊢
      show (last.numberU64 + 1) % 2 ^ 64 = s.height % 2 ^ 64
      unfold Block.numberU64 at h₁ h₂ ⊢
      omega

theorem lastChainedBlock_reload (s : RoundState) (db : DB) (v : View) :
    (s.reload E db v).lastChainedBlock = s.lastChainedBlock := by
  -- each load step writes fields other than the chain head, and so does the relock
  have hload : (((((s.loadView db v).loadPrepareQC db).loadLockQC db).loadCommitQC db).loadNode
      db).lastChainedBlock = s.lastChainedBlock := by
    obtain ⟨r, h, hview⟩ := s.loadView_eq db v
    simp only [hview, RoundState.loadPrepareQC_eq, RoundState.loadLockQC_eq,
      RoundState.loadCommitQC_eq, RoundState.loadNode_eq]
  rcases s.reload_cases E db v with h | ⟨b, h⟩
  · rw [h]
    exact hload
  · rw [h]
    exact hload

/-- `updateRoundState` moves to the height of the new view on the chain head it is given. -/
theorem updateRoundState_head {c : Core} (hdb : c.db.view = none) (last : Block) (nv : View) :
    (c.updateRoundState E last nv).cur.height = nv.height ∧
      (c.updateRoundState E last nv).cur.lastChainedBlock = last := by
  refine ⟨congrArg View.height (view_updateRoundState hdb last nv), ?_⟩
  unfold updateRoundState
  split
  · dsimp only
    split <;> exact lastChainedBlock_reload _ _ _
  · dsimp only
    split <;> rfl

/-- `updateRoundState` of a started core keeps the blocks it holds. -/
theorem updateRoundState_blocks {c : Core} {s : RoundState} (hc : c.current = some s)
    (last : Block) (nv : View) :
    (c.updateRoundState E last nv).cur.node = s.node ∧
      (c.updateRoundState E last nv).cur.lockedBlock = s.lockedBlock ∧
      (c.updateRoundState E last nv).cur.executed = s.executed := by
  unfold updateRoundState
  rw [hc]
  dsimp only
  split <;> exact ⟨rfl, rfl, rfl⟩

/-- The round state `startNewRound` leaves after `updateRoundState` and, at a new height,
    `Unlock`: the chain head below the new height, and no block unless the round only changed. -/
theorem ofHeight_newRound {c : Core} (h : ∀ s, c.current = some s → s.OfHeight)
    (hdb : c.db.view = none) {head : Block} {nv : View} {cv : Bool}
    (hlast : u64 (head.numberU64 + 1) = u64 nv.height)
    (hcv : cv = true → ∃ s, c.current = some s ∧ nv.height = s.height) :
    (if cv then c.updateRoundState E head nv
      else (c.updateRoundState E head nv).setCur (c.updateRoundState E head nv).cur.unlock).cur.OfHeight := by
  obtain ⟨hh, hl⟩ := updateRoundState_head (E := E) hdb head nv
  cases cv
  · -- a new height: `Unlock` drops the node, the lock and the executed block
    refine ⟨?_, fun n hn => (by cases hn), fun b hb => (by cases hb), fun b hb => (by cases hb)⟩
    show u64 ((c.updateRoundState E head nv).cur.lastChainedBlock.numberU64 + 1) =
      u64 (c.updateRoundState E head nv).cur.height
    rw [hh, hl, hlast]
  · -- a round change keeps the height and the blocks
    obtain ⟨s, hs, hsh⟩ := hcv rfl
    obtain ⟨hn, hk, he⟩ := updateRoundState_blocks (E := E) hs head nv
    have hof := h s hs
    show (c.updateRoundState E head nv).cur.OfHeight
    refine ⟨?_, ?_, ?_, ?_⟩
    · rw [hh, hl, hlast]
    · rw [hn, hh, hsh]
      exact hof.node
    · rw [hk, hh, hsh]
      exact hof.locked
    · rw [he, hh, hsh]
      exact hof.executed

theorem ofHeight_startNewRound {c : Core} (hc : c.spine.Inv) (h : c.cur.OfHeight)
    (head : Block × Address) (round : Nat) : (c.startNewRound E head round).1.cur.OfHeight := by
  obtain ⟨s, hs⟩ := Option.isSome_iff_exists.mp hc.started
  have hcur : c.cur = s := by simp [cur, hs]
  unfold startNewRound
  split_ifs with hrun
  · exact h
  · split
    · exact h
    · rename_i nv cv hview
      have hb : ∀ s', c.current = some s' → 0 < s'.height ∧ s'.height < 2 ^ 64 := by
        intro s' hs'
        rw [hs] at hs'
        cases hs'
        rw [← hcur]
        exact ⟨hc.height_pos, hc.height_lt⟩
      obtain ⟨hlast, hcv⟩ := last_of_newRoundView hb hview
      dsimp only
      rw [cur_setCurrentState]
      refine (ofHeight_newRound (c := { c with valSet := c.valSet.calcProposer head.2 (u64 nv.round) })
        ?_ hc.storedView hlast hcv).frame rfl rfl rfl rfl rfl
      intro s' hs'
      rw [hs] at hs'
      cases hs'
      rw [← hcur]
      exact h

theorem ofHeight_start {c : Core} (hdb : c.db.view = none) (head : Block × Address) :
    (c.start E head).1.cur.OfHeight := by
  unfold start startNewRound
  simp only [Bool.not_true, Bool.false_eq_true, ↓reduceIte, newRoundView]
  rw [cur_setCurrentState]
  have hlast : u64 (head.1.numberU64 + 1) = u64 (head.1.number + 1) := by
    unfold Block.numberU64 u64
    omega
  exact (ofHeight_newRound (c := { c with
      valSet := c.valSet.calcProposer head.2 (u64 0)
      current := none
      isRunning := true }) (fun _ hs => by cases hs) hdb hlast
    (fun h : false = true => absurd h (by decide))).frame rfl rfl rfl rfl rfl


theorem ofHeight_handleNewView {c : Core} (h : c.cur.OfHeight) (data : Message) :
    (c.handleNewView E data).1.cur.OfHeight := by
  unfold handleNewView
  split
  · split
    · exact h
    · split
      · exact h
      · split
        · exact h
        · split
          · exact h
          · rename_i set _
            have h₁ : (c.setCur { c.cur with newViews := set }).cur.OfHeight :=
              h.frame rfl rfl rfl rfl rfl
            generalize c.setCur { c.cur with newViews := set } = c₁ at h₁
            dsimp only
            split_ifs
            · split
              · exact h₁
              · rename_i highQC _
                have h₂ : (c₁.setCur { c₁.cur with highQC := some highQC }).cur.OfHeight :=
                  h₁.frame rfl rfl rfl rfl rfl
                exact ofHeight_sendPrepare (ofHeight_setCurrentState h₂ _)
            · exact h₁
  · exact h

/-- A replica adopts a node whose block passed `checkBlock`, which it also executed. -/
theorem ofHeight_handlePrepare {c : Core} (h : c.cur.OfHeight) (data : Message) :
    (c.handlePrepare E data).1.cur.OfHeight := by
  unfold handlePrepare
  split
  · rename_i node highQC _
    split
    · exact h
    · split
      · exact h
      · split
        · exact h
        · split
          · exact h
          · rename_i block hblock
            split
            · exact h
            · rename_i hchk
              have hnum := numberU64_of_checkBlock h (eq_none_of_not_some hchk)
              split
              · exact h
              · split
                · exact h
                · rename_i c₁ hexec
                  have h₁ := ofHeight_executeBlock h hnum hexec
                  have hh : c₁.cur.height = c.cur.height := by rw [executeBlock_eq hexec]; rfl
                  split
                  · exact h₁
                  · split
                    · exact h₁
                    · dsimp only
                      by_cases hrep : !c₁.isProposer ∧ c₁.cur.state < .highQC
                      · rw [if_pos hrep]
                        split
                        · exact h₁
                        · rename_i s hs
                          rw [setProposedBlock_eq hs]
                          dsimp only
                          apply ofHeight_setCurrentState
                          refine ⟨h₁.last, ?_, h₁.locked, h₁.executed⟩
                          intro n hn b hb
                          cases hn
                          rw [hblock] at hb
                          cases hb
                          rw [hh]
                          exact hnum
                      · rw [if_neg hrep]
                        exact h₁
  · exact h

theorem ofHeight_handlePrepareVote {c : Core} (h : c.cur.OfHeight) (data : Message) :
    (c.handlePrepareVote E data).1.cur.OfHeight := by
  unfold handlePrepareVote
  split
  · split
    · exact h
    · split
      · exact h
      · split
        · exact h
        · split
          · exact h
          · rename_i set _
            have h₁ : (c.setCur { c.cur with prepareVotes := set }).cur.OfHeight :=
              h.frame rfl rfl rfl rfl rfl
            generalize c.setCur { c.cur with prepareVotes := set } = c₁ at h₁
            dsimp only
            split_ifs
            · split
              · exact h₁
              · exact ofHeight_acceptPrepareQC h₁ _
            · exact h₁
  · exact h

theorem ofHeight_handlePreCommit {c : Core} (h : c.cur.OfHeight) (data : Message) :
    (c.handlePreCommit E data).1.cur.OfHeight := by
  unfold handlePreCommit
  split
  · split
    · exact h
    · split
      · exact h
      · split
        · exact h
        · dsimp only
          by_cases hrep : !c.isProposer ∧ c.cur.state = .highQC
          · rw [if_pos hrep]
            exact ofHeight_acceptPrepareQC h _
          · rw [if_neg hrep]
            exact h
  · exact h

theorem ofHeight_handlePreCommitVote {c : Core} (h : c.cur.OfHeight) (data : Message) :
    (c.handlePreCommitVote E data).1.cur.OfHeight := by
  unfold handlePreCommitVote
  split
  · split
    · exact h
    · split
      · exact h
      · split
        · exact h
        · split
          · exact h
          · rename_i set _
            have h₁ : (c.setCur { c.cur with preCommitVotes := set }).cur.OfHeight :=
              h.frame rfl rfl rfl rfl rfl
            generalize c.setCur { c.cur with preCommitVotes := set } = c₁ at h₁
            dsimp only
            split_ifs
            · split
              · exact h₁
              · split
                · exact h₁
                · rename_i c₂ hlock
                  exact ofHeight_acceptLockQC h₁ hlock
            · exact h₁
  · exact h

theorem ofHeight_handleCommit {c : Core} (h : c.cur.OfHeight) (data : Message) :
    (c.handleCommit E data).1.cur.OfHeight := by
  unfold handleCommit
  split
  · split
    · exact h
    · split
      · exact h
      · split
        · exact h
        · dsimp only
          by_cases hrep : !c.isProposer ∧ c.cur.state < .preCommitted
          · rw [if_pos hrep]
            split
            · exact h
            · rename_i c₂ hlock
              exact ofHeight_acceptLockQC h hlock
          · rw [if_neg hrep]
            exact h
  · exact h

/-- The proposer seals its locked block, which keeps the block's number. -/
theorem ofHeight_handleCommitVote {c : Core} (hseal : E.SealKeepsNumber) (h : c.cur.OfHeight)
    (data : Message) : (c.handleCommitVote E data).1.cur.OfHeight := by
  unfold handleCommitVote
  split
  · split
    · exact h
    · split
      · exact h
      · split
        · exact h
        · split
          · exact h
          · rename_i lockedBlock hlb
            split
            · exact h
            · rename_i set _
              have h₁ : (c.setCur { c.cur with commitVotes := set }).cur.OfHeight :=
                h.frame rfl rfl rfl rfl rfl
              have hlb₁ : (c.setCur { c.cur with commitVotes := set }).cur.lockedBlock? =
                  some lockedBlock := hlb
              generalize c.setCur { c.cur with commitVotes := set } = c₁ at h₁ hlb₁
              dsimp only
              split_ifs
              · split
                · exact h₁
                · split
                  · exact h₁
                  · rename_i sb hsb
                    split
                    · exact h₁
                    · rename_i c₂ hcommit
                      have hnum : sb.numberU64 = u64 c₁.cur.height := by
                        unfold Block.numberU64
                        rw [hseal _ _ _ hsb]
                        exact h₁.lockedBlock? hlb₁
                      exact ofHeight_acceptCommitQC h₁ hnum hcommit
              · exact h₁
  · exact h

section Rounds

variable {head : Block × Address}

/-- The replica seals its locked block, which keeps the number, and commits it; the proposer
    commits the block it sealed; then a round starts. -/
theorem ofHeight_handleDecide {c : Core} (hseal : E.SealKeepsNumber) (hc : c.spine.Inv)
    (h : c.cur.OfHeight) (data : Message) : (c.handleDecide E head data).1.cur.OfHeight := by
  unfold handleDecide
  split
  · split
    · exact h
    · split
      · exact h
      · split
        · exact h
        · split
          · exact h
          · rename_i lockedBlock hlb
            have hnum : lockedBlock.numberU64 = u64 c.cur.height := h.lockedBlock? hlb
            split
            · exact h
            · split
              · split
                · exact h
                · split
                  · exact h
                  · dsimp only
                    split
                    · exact h
                    · rename_i c' o₁ hr
                      -- the core after `commit`, before the new round
                      have h₁ : c'.spine.Inv ∧ c'.cur.OfHeight := by
                        split_ifs at hr with hp hq
                        · exact ⟨(sound_commit (P := fun _ _ => True) hc hr).inv,
                            ofHeight_commit h hnum hr⟩
                        · split at hr
                          · cases hr
                          · rename_i sb hsb
                            split at hr
                            · cases hr
                            · rename_i c₂ hcommit
                              have hsbn : sb.numberU64 = u64 c.cur.height := by
                                unfold Block.numberU64
                                rw [hseal _ _ _ hsb]
                                exact hnum
                              have h₂ := sound_acceptCommitQC (E := E) (P := fun _ _ => True) hc
                                (by rw [hq.2]; decide) hcommit
                              have hh : c₂.cur.height = c.cur.height := by
                                obtain ⟨p, b, pd, -, -, hsp⟩ := acceptCommitQC_spine hcommit
                                exact congrArg (fun s : Spine => s.view.height) hsp
                              refine ⟨(sound_commit (P := fun _ _ => True) h₂.inv hr).inv, ofHeight_commit
                                (ofHeight_acceptCommitQC h hsbn hcommit) ?_ hr⟩
                              rw [hh]
                              exact hsbn
                        · cases hr
                          exact ⟨hc, h⟩
                      exact ofHeight_startNewRound h₁.1 h₁.2 head 0
              · exact h
  · exact h

theorem cur_storeBacklog (c : Core) (m : Message) : (c.storeBacklog m).cur = c.cur := by
  unfold storeBacklog backlogPush setBacklog
  split_ifs <;> rfl

/-- A branch of the dispatch on the message code keeps the blocks of the height when both of its
    arms do. -/
theorem ofHeight_ite {Q : Prop} [Decidable Q] {a b : Core × List Output × Option Err}
    (ha : Q → a.1.cur.OfHeight) (hb : ¬ Q → b.1.cur.OfHeight) :
    (if Q then a else b).1.cur.OfHeight := by
  split
  · exact ha ‹_›
  · exact hb ‹_›

theorem ofHeight_handleCheckedMsg {c : Core} (hseal : E.SealKeepsNumber) (hc : c.spine.Inv)
    (h : c.cur.OfHeight) (msg : Message) : (c.handleCheckedMsg E head msg).1.cur.OfHeight := by
  unfold handleCheckedMsg
  by_cases hcur : c.current.isNone = true
  · rw [if_pos hcur]
    exact h
  rw [if_neg hcur]
  -- the handler of the code, then a future message goes to the backlog
  have hr : ∀ r : Core × List Output × Option Err, r.1.cur.OfHeight →
      (if r.2.2 = some .futureMessage then (r.1.storeBacklog msg, r.2.1, r.2.2) else r).1.cur.OfHeight := by
    intro r hr
    split
    · rw [cur_storeBacklog]
      exact hr
    · exact hr
  apply hr
  refine ofHeight_ite (fun _ => ofHeight_handleNewView h msg) fun _ => ?_
  refine ofHeight_ite (fun _ => ofHeight_handlePrepare h msg) fun _ => ?_
  refine ofHeight_ite (fun _ => ofHeight_handlePrepareVote h msg) fun _ => ?_
  refine ofHeight_ite (fun _ => ofHeight_handlePreCommit h msg) fun _ => ?_
  refine ofHeight_ite (fun _ => ofHeight_handlePreCommitVote h msg) fun _ => ?_
  refine ofHeight_ite (fun _ => ofHeight_handleCommit h msg) fun _ => ?_
  refine ofHeight_ite (fun _ => ofHeight_handleCommitVote hseal h msg) fun _ => ?_
  exact ofHeight_ite (fun _ => ofHeight_handleDecide hseal hc h msg) fun _ => h

end Rounds

theorem ofHeight_setPendingRequest {c : Core} (h : c.cur.OfHeight) (req : Request) :
    (c.setCur (c.cur.setPendingRequest req)).cur.OfHeight := by
  unfold RoundState.setPendingRequest
  split
  · exact h.frame rfl rfl rfl rfl rfl
  · exact h

theorem ofHeight_handleRequest {c : Core} (h : c.cur.OfHeight) (block : Option Block) :
    (c.handleRequest block).1.cur.OfHeight := by
  unfold handleRequest
  split
  · exact h
  · dsimp only
    split
    · exact h
    · exact h
    · split
      · exact h
      · split
        · exact ofHeight_sendPrepare (ofHeight_setPendingRequest h _)
        · split_ifs
          · exact ofHeight_sendPrepare (ofHeight_setPendingRequest h _)
          · exact h
      · split
        · exact ofHeight_setPendingRequest h _
        · exact h

/-- Every event keeps the blocks a started validator holds at its height. -/
theorem ofHeight_step (hseal : E.SealKeepsNumber) {c : Core} (hc : c.spine.Inv) (h : c.cur.OfHeight)
    (head : Block × Address) (ev : Event) : (c.step E head ev).1.cur.OfHeight := by
  cases ev with
  | message src msg =>
    show (c.handleMsg E head src msg).1.cur.OfHeight
    unfold handleMsg
    split
    · exact h
    · exact ofHeight_handleCheckedMsg hseal hc h _
  | backlog msg => exact ofHeight_handleCheckedMsg hseal hc h msg
  | request block => exact ofHeight_handleRequest h block
  | timeout => exact ofHeight_startNewRound hc h head _
  | finalCommitted number =>
    show (c.handleFinalCommitted E head number).1.cur.OfHeight
    unfold handleFinalCommitted
    split
    · exact ofHeight_startNewRound hc h head 0
    · exact h

end Core

end QuorumHotstuff.Hotstuff
