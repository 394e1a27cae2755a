import QuorumHotstuff.Hotstuff.Ops

/-!
# Every handler is sound

One lemma per handler of the core: from a spine that satisfies the invariant, the handler leaves
a spine that satisfies it, advances, and casts every vote it sends from a spine in between.  Each
proof follows the handler's checks in order; an early return leaves the core as it was, and the
rest is assembled from the lemmas of `Ops`.  `sound_step` gathers them for one event.
-/

namespace QuorumHotstuff.Hotstuff

open Spine

/-- The message an event hands to `handleCheckedMsg`: a signed message with its signer as sender,
    or a replayed backlog message. -/
def Event.handled : Event → Option Message
  | .message src m => some { m with address := src }
  | .backlog m => some m
  | _ => none

/-- The permit of an event: the message it hands over is an echo for a vote of `code` from the
    spine. -/
def Event.permit (ev : Event) (code : MsgType) (si : Spine) : Prop :=
  ∃ m, ev.handled = some m ∧ Echo m code si

namespace Core

variable {E : Env} {P : MsgType → Spine → Prop}

/-- A check that did not fail returned `none`. -/
theorem eq_none_of_not_some {o : Option Err} (h : ∀ e, o = some e → False) : o = none :=
  Option.eq_none_iff_forall_ne_some.mpr h

theorem sound_handleNewView {c : Core} (hc : c.spine.Inv) (data : Message) :
    Sound E P c.spine (c.handleNewView E data).1.spine (c.handleNewView E data).2.1 := by
  unfold handleNewView
  split
  · split
    · exact .refl hc
    · split
      · exact .refl hc
      · split
        · exact .refl hc
        · split
          · exact .refl hc
          · rename_i set _
            have h₁ : (c.setCur { c.cur with newViews := set }).spine = c.spine :=
              spine_setCur_frame hc.started rfl rfl rfl rfl rfl
            generalize c.setCur { c.cur with newViews := set } = c₁ at h₁
            dsimp only
            split_ifs with hq
            · split
              · exact sound_frame hc h₁ (by simp)
              · rename_i highQC _
                -- the proposer takes the highest certificate, enters `StateHighQC` and proposes
                rw [← h₁]
                have h₂ := sound_setCur_below (E := E) (P := P) (h₁ ▸ hc) hq.2
                  (s := { c₁.cur with highQC := some highQC }) rfl rfl rfl rfl
                have hst : (c₁.setCur { c₁.cur with highQC := some highQC }).cur.state ≤
                    .highQC := State.le_of_lt hq.2
                generalize c₁.setCur { c₁.cur with highQC := some highQC } = c₂ at h₂ hst ⊢
                dsimp only
                have h₃ := sound_setCurrentState (E := E) (P := P) h₂.inv hst
                exact h₂.nil_trans (h₃.trans (sound_sendPrepare h₃.inv))
            · exact sound_frame hc h₁ (by simp)
  · exact .refl hc

/-- The proposer votes on a Prepare from the proposer in its view, which is its own Prepare: the
    permit `Echo data` covers that vote; a replica votes from `StateHighQC`, where its node is
    settled. -/
theorem sound_handlePrepare {c : Core} (hc : c.spine.Inv) (data : Message) :
    Sound E (Echo data) c.spine (c.handlePrepare E data).1.spine (c.handlePrepare E data).2.1 := by
  unfold handlePrepare
  split
  · rename_i node highQC hmsg
    split
    · exact .refl hc
    · rename_i hview
      split
      · exact .refl hc
      · rename_i hsrc
        split
        · exact .refl hc
        · split
          · exact .refl hc
          · rename_i block hblock
            split
            · exact .refl hc
            · rename_i hchk
              have hlock : ∀ b, c.spine.lockedBlock = some b → block.hash = b.hash :=
                fun b hb => checkBlock_locked (eq_none_of_not_some hchk) hb
              split
              · exact .refl hc
              · split
                · exact .refl hc
                · rename_i c₁ hexec
                  have h₁ := executeBlock_spine hc.started hexec
                  have hc₁ : c₁.spine.Inv := h₁ ▸ hc
                  have hvs : c₁.valSet = c.valSet := by rw [executeBlock_eq hexec]; rfl
                  -- the Prepare came from the proposer in the current view
                  have hecho : c₁.isProposer = true → c₁.valSet.getByAddress c₁.address ≠ none →
                      Echo data .prepareVote c₁.spine := by
                    intro hp hin
                    refine ⟨address_eq_of_isProposer ?_ hp hin,
                      .inl ⟨by decide, node, highQC, hmsg, ?_⟩⟩
                    · rw [hvs]
                      exact isProposer_of_checkMsgSource (eq_none_of_not_some hsrc)
                    · rw [h₁]
                      exact sub_eq_zero_of_checkView (eq_none_of_not_some hview)
                  rw [← h₁]
                  split
                  · exact .refl hc₁
                  · split
                    · exact .refl hc₁
                    · -- the proposer votes in `StateHighQC`; a replica below it adopts the node
                      dsimp only
                      have hvote := sound_cond_sendVote (E := E) hc₁
                        (c₁.isProposer ∧ c₁.cur.state = .highQC) .prepareVote
                        (fun hp hin => .inr (hecho hp.1 hin))
                      by_cases hrep : !c₁.isProposer ∧ c₁.cur.state < .highQC
                      · rw [if_pos hrep]
                        split
                        · simpa using hvote
                        · rename_i s hs
                          rw [setProposedBlock_eq hs]
                          have had := sound_adopt (E := E) (P := Echo data) hc₁ hrep.2 hblock
                            (h₁ ▸ hlock)
                          have hst : (c₁.setCur { c₁.cur with node := some node }).cur.state ≤
                              .highQC := State.le_of_lt hrep.2
                          have h₂ := sound_setCurrentState (E := E) (P := Echo data) had.inv hst
                          -- a replica in `StateHighQC` is settled
                          have hnp : c₁.isProposer = false := by simpa using hrep.1
                          have hset : ((c₁.setCur { c₁.cur with node := some node }).setCurrentState
                              .highQC).1.spine.Settled := by
                            rw [spine_setCurrentState had.inv.started]
                            exact ⟨State.le_refl _, fun hp _ => Bool.noConfusion (hp.symm.trans hnp)⟩
                          exact (hvote.trans (had.nil_trans h₂)).trans
                            (sound_sendVote h₂.inv (fun _ => .inl (.of_settled hset (by decide))))
                      · rw [if_neg hrep]
                        exact hvote
  · exact .refl hc

theorem sound_handlePrepareVote {c : Core} (hc : c.spine.Inv) (data : Message) :
    Sound E P c.spine (c.handlePrepareVote E data).1.spine (c.handlePrepareVote E data).2.1 := by
  unfold handlePrepareVote
  split
  · split
    · exact .refl hc
    · split
      · exact .refl hc
      · split
        · exact .refl hc
        · split
          · exact .refl hc
          · rename_i set _
            have h₁ : (c.setCur { c.cur with prepareVotes := set }).spine = c.spine :=
              spine_setCur_frame hc.started rfl rfl rfl rfl rfl
            generalize c.setCur { c.cur with prepareVotes := set } = c₁ at h₁
            have hc₁ : c₁.spine.Inv := h₁ ▸ hc
            rw [← h₁]
            dsimp only
            split_ifs with hq
            · split
              · exact .refl hc₁
              · rename_i prepareQC _
                -- the proposer forms the prepare certificate and sends it in a PreCommit
                have h₂ := sound_acceptPrepareQC (E := E) (P := P) hc₁ (by rw [hq.2]; decide)
                  prepareQC
                exact h₂.nil_trans
                  (sound_frame h₂.inv rfl (quiet_broadcast (by simp) (by simp) (by decide)))
            · exact .refl hc₁
  · exact .refl hc

/-- Both the proposer and a replica vote from `StatePrepared`, where the node is settled. -/
theorem sound_handlePreCommit {c : Core} (hc : c.spine.Inv) (data : Message) :
    Sound E P c.spine (c.handlePreCommit E data).1.spine (c.handlePreCommit E data).2.1 := by
  unfold handlePreCommit
  split
  · rename_i prepareQC _
    split
    · exact .refl hc
    · split
      · exact .refl hc
      · split
        · exact .refl hc
        · dsimp only
          have hvote := sound_cond_sendVote (E := E) (P := P) hc
            (c.isProposer ∧ c.cur.state = .prepared) .preCommitVote
            (fun hp _ => .inl (.of_settled
              (settled_of_lt (by show State.highQC < c.cur.state; rw [hp.2]; decide)) (by decide)))
          by_cases hrep : !c.isProposer ∧ c.cur.state = .highQC
          · -- a replica in `StateHighQC` accepts the certificate and votes
            rw [if_pos hrep]
            have h₂ := sound_acceptPrepareQC (E := E) (P := P) hc (by rw [hrep.2]; decide) prepareQC
            have hset : (c.acceptPrepareQC prepareQC).spine.Settled :=
              settled_of_lt (show State.highQC < State.prepared by decide)
            exact hvote.trans
              (h₂.nil_trans (sound_sendVote h₂.inv (fun _ => .inl (.of_settled hset (by decide)))))
          · rw [if_neg hrep]
            exact hvote
  · exact .refl hc

theorem sound_handlePreCommitVote {c : Core} (hc : c.spine.Inv) (data : Message) :
    Sound E P c.spine (c.handlePreCommitVote E data).1.spine (c.handlePreCommitVote E data).2.1 := by
  unfold handlePreCommitVote
  split
  · split
    · exact .refl hc
    · split
      · exact .refl hc
      · split
        · exact .refl hc
        · split
          · exact .refl hc
          · rename_i set _
            have h₁ : (c.setCur { c.cur with preCommitVotes := set }).spine = c.spine :=
              spine_setCur_frame hc.started rfl rfl rfl rfl rfl
            generalize c.setCur { c.cur with preCommitVotes := set } = c₁ at h₁
            have hc₁ : c₁.spine.Inv := h₁ ▸ hc
            rw [← h₁]
            dsimp only
            split_ifs with hq
            · split
              · exact .refl hc₁
              · rename_i lockQC hqc
                split
                · exact .refl hc₁
                · rename_i c₂ hlock
                  -- the proposer locks and sends the lock certificate of its view in a Commit
                  have h₂ := sound_acceptLockQC (E := E) (P := P) hc₁ (State.le_of_lt hq.2) hlock
                  obtain ⟨n, pd, hn, hsp⟩ := acceptLockQC_spine hlock
                  obtain ⟨b, hb⟩ := Option.isSome_iff_exists.mp (hc₁.nodeBlock n hn)
                  refine h₂.nil_trans (Sound.cast h₂.inv fun m hm => ?_)
                  rw [mem_sentIn_broadcast hm]
                  refine ⟨fun v hv => (by cases hv), fun n qc hn => (by cases hn), fun _ qc hq => ?_⟩
                  cases hq
                  rw [hsp, messagesToQC_view hqc]
                  exact ⟨rfl, State.le_refl _, b, hb⟩
            · exact .refl hc₁
  · exact .refl hc

/-- The proposer votes on a Commit from the proposer whose certificate is of its view, which is
    its own Commit: the permit `Echo data` covers that vote; a replica votes from
    `StatePreCommitted`, where its node is settled. -/
theorem sound_handleCommit {c : Core} (hc : c.spine.Inv) {data : Message}
    (hcode : data.code = .commit) :
    Sound E (Echo data) c.spine (c.handleCommit E data).1.spine (c.handleCommit E data).2.1 := by
  unfold handleCommit
  split
  · rename_i lockQC hmsg
    split
    · exact .refl hc
    · rename_i hview
      split
      · exact .refl hc
      · rename_i hsrc
        split
        · exact .refl hc
        · dsimp only
          -- the Commit came from the proposer, with a certificate of the current view
          have hecho : c.isProposer = true → c.valSet.getByAddress c.address ≠ none →
              Echo data .commitVote c.spine := by
            intro hp hin
            refine ⟨address_eq_of_isProposer ?_ hp hin, .inr ⟨hcode, lockQC, hmsg, ?_⟩⟩
            · exact isProposer_of_checkMsgSource (eq_none_of_not_some hsrc)
            · exact sub_eq_zero_of_checkView (eq_none_of_not_some hview)
          have hvote := sound_cond_sendVote (E := E) hc
            (c.isProposer ∧ c.cur.state < .committed) .commitVote
            (fun hp hin => .inr (hecho hp.1 hin))
          by_cases hrep : !c.isProposer ∧ c.cur.state < .preCommitted
          · rw [if_pos hrep]
            split
            · simpa using hvote
            · rename_i c₂ hlock
              -- a replica below `StatePreCommitted` locks on the node and votes
              have h₂ := sound_acceptLockQC (E := E) (P := Echo data) hc (State.le_of_lt hrep.2)
                hlock
              obtain ⟨n, pd, hn, hsp⟩ := acceptLockQC_spine hlock
              obtain ⟨b, hb⟩ := Option.isSome_iff_exists.mp (hc.nodeBlock n hn)
              have hvotes : c₂.spine.Votes .commitVote := by
                rw [hsp]
                exact ⟨settled_of_lt (show State.highQC < State.preCommitted by decide),
                  fun _ => ⟨b, hb⟩⟩
              exact hvote.trans (h₂.nil_trans (sound_sendVote h₂.inv (fun _ => .inl hvotes)))
          · rw [if_neg hrep]
            exact hvote
  · exact .refl hc

theorem sound_handleCommitVote {c : Core} (hc : c.spine.Inv) (data : Message) :
    Sound E P c.spine (c.handleCommitVote E data).1.spine (c.handleCommitVote E data).2.1 := by
  unfold handleCommitVote
  split
  · split
    · exact .refl hc
    · split
      · exact .refl hc
      · split
        · exact .refl hc
        · split
          · exact .refl hc
          · split
            · exact .refl hc
            · rename_i set _
              have h₁ : (c.setCur { c.cur with commitVotes := set }).spine = c.spine :=
                spine_setCur_frame hc.started rfl rfl rfl rfl rfl
              generalize c.setCur { c.cur with commitVotes := set } = c₁ at h₁
              have hc₁ : c₁.spine.Inv := h₁ ▸ hc
              rw [← h₁]
              dsimp only
              split_ifs with hq
              · split
                · exact .refl hc₁
                · split
                  · exact .refl hc₁
                  · split
                    · exact .refl hc₁
                    · rename_i c₂ hcommit
                      -- the proposer seals the locked block and sends the diploma
                      have h₂ := sound_acceptCommitQC (E := E) (P := P) hc₁ (by rw [hq.2]; decide)
                        hcommit
                      exact h₂.nil_trans
                        (sound_frame h₂.inv rfl (quiet_broadcast (by simp) (by simp) (by decide)))
              · exact .refl hc₁
  · exact .refl hc

/-- `commit` hands a block to the backend and leaves the spine. -/
theorem sound_commit {c c' : Core} (hc : c.spine.Inv) {sb : Block} {out : List Output}
    (h : c.commit E sb = .ok (c', out)) : Sound E P c.spine c'.spine out := by
  obtain ⟨hsp, hout⟩ := commit_spine hc.started h
  exact sound_frame hc hsp (fun m hm => by simp [hout] at hm)

/-- A branch of the dispatch on the message code is sound when both of its arms are. -/
theorem sound_ite {Q : Prop} [Decidable Q] {s : Spine} {a b : Core × List Output × Option Err}
    (ha : Q → Sound E P s a.1.spine a.2.1) (hb : ¬ Q → Sound E P s b.1.spine b.2.1) :
    Sound E P s (if Q then a else b).1.spine (if Q then a else b).2.1 := by
  split
  · exact ha ‹_›
  · exact hb ‹_›

/-- Keeping a future message in the backlog leaves the spine. -/
theorem sound_storeBacklog_of_future {c : Core} {r : Core × List Output × Option Err} (msg : Message)
    (h : Sound E P c.spine r.1.spine r.2.1) :
    Sound E P c.spine
      (if r.2.2 = some .futureMessage then (r.1.storeBacklog msg, r.2.1, r.2.2) else r).1.spine
      (if r.2.2 = some .futureMessage then (r.1.storeBacklog msg, r.2.1, r.2.2) else r).2.1 := by
  split
  · exact h.trans_frame (spine_storeBacklog r.1 msg)
  · exact h

section Rounds

variable {head : Block × Address} (hhead : head.1.number + 1 < 2 ^ 64)
include hhead

theorem sound_handleDecide {c : Core} (hc : c.spine.Inv) (data : Message) :
    Sound E P c.spine (c.handleDecide E head data).1.spine (c.handleDecide E head data).2.1 := by
  unfold handleDecide
  split
  · split
    · exact .refl hc
    · split
      · exact .refl hc
      · split
        · exact .refl hc
        · split
          · exact .refl hc
          · split
            · exact .refl hc
            · split
              · split
                · exact .refl hc
                · split
                  · exact .refl hc
                  · dsimp only
                    split
                    · exact .refl hc
                    · rename_i c' o₁ hr
                      -- the proposer commits what it sealed; a replica seals, then commits
                      have h₁ : Sound E P c.spine c'.spine o₁ := by
                        split_ifs at hr with hp hq
                        · exact sound_commit hc hr
                        · split at hr
                          · cases hr
                          · split at hr
                            · cases hr
                            · rename_i c₂ hcommit
                              have h₂ := sound_acceptCommitQC (E := E) (P := P) hc
                                (by rw [hq.2]; decide) hcommit
                              exact h₂.nil_trans (sound_commit h₂.inv hr)
                        · cases hr
                          exact .refl hc
                      exact h₁.trans (sound_startNewRound h₁.inv hhead (.inl rfl))
              · exact .refl hc
  · exact .refl hc

theorem sound_handleCheckedMsg {c : Core} (hc : c.spine.Inv) (msg : Message) :
    Sound E (Echo msg) c.spine (c.handleCheckedMsg E head msg).1.spine
      (c.handleCheckedMsg E head msg).2.1 := by
  unfold handleCheckedMsg
  -- rewriting with the branch keeps the dispatch folded; splitting it would unfold every handler
  by_cases hcur : c.current.isNone = true
  · rw [if_pos hcur]
    exact .refl hc
  rw [if_neg hcur]
  refine sound_storeBacklog_of_future msg ?_
  refine sound_ite (fun _ => sound_handleNewView hc msg) fun _ => ?_
  refine sound_ite (fun _ => sound_handlePrepare hc msg) fun _ => ?_
  refine sound_ite (fun _ => sound_handlePrepareVote hc msg) fun _ => ?_
  refine sound_ite (fun _ => sound_handlePreCommit hc msg) fun _ => ?_
  refine sound_ite (fun _ => sound_handlePreCommitVote hc msg) fun _ => ?_
  refine sound_ite (fun hcommit => sound_handleCommit hc hcommit) fun _ => ?_
  refine sound_ite (fun _ => sound_handleCommitVote hc msg) fun _ => ?_
  exact sound_ite (fun _ => sound_handleDecide hhead hc msg) fun _ => .refl hc

theorem sound_handleMsg {c : Core} (hc : c.spine.Inv) (src : Address) (msg : Message) :
    Sound E (Echo { msg with address := src }) c.spine (c.handleMsg E head src msg).1.spine (c.handleMsg E head src msg).2.1 := by
  unfold handleMsg
  split
  · exact .refl hc
  · exact sound_handleCheckedMsg hhead hc _

theorem sound_handleTimeoutMsg {c : Core} (hc : c.spine.Inv) :
    Sound E P c.spine (c.handleTimeoutMsg E head).1.spine (c.handleTimeoutMsg E head).2 :=
  sound_startNewRound hc hhead (.inr rfl)

theorem sound_handleFinalCommitted {c : Core} (hc : c.spine.Inv) (number : Nat) :
    Sound E P c.spine (c.handleFinalCommitted E head number).1.spine
      (c.handleFinalCommitted E head number).2 := by
  unfold handleFinalCommitted
  split
  · exact sound_startNewRound hc hhead (.inl rfl)
  · exact .refl hc

end Rounds

theorem sound_sendPrepare_pending {c : Core} (hc : c.spine.Inv) (req : Request) :
    Sound E P c.spine (c.setCur (c.cur.setPendingRequest req)).sendPrepare.1.spine
      (c.setCur (c.cur.setPendingRequest req)).sendPrepare.2 :=
  (sound_setPendingRequest hc req).nil_trans
    (sound_sendPrepare (sound_setPendingRequest (E := E) (P := P) hc req).inv)

theorem sound_handleRequest {c : Core} (hc : c.spine.Inv) (block : Option Block) :
    Sound E P c.spine (c.handleRequest block).1.spine (c.handleRequest block).2.1 := by
  unfold handleRequest
  split
  · exact .refl hc
  · dsimp only
    split
    · exact sound_frame hc (spine_storeRequestMsg _ _) (by simp)
    · exact .refl hc
    · split
      · exact sound_frame hc (spine_storeRequestMsg _ _) (by simp)
      · -- in `StateHighQC` a request is proposed at once unless one of this height waits
        split
        · exact sound_sendPrepare_pending hc _
        · split_ifs
          · exact sound_sendPrepare_pending hc _
          · exact .refl hc
      · split
        · exact sound_setPendingRequest hc _
        · exact .refl hc

section Rounds

variable {head : Block × Address} (hhead : head.1.number + 1 < 2 ^ 64)
include hhead

/-- Every event the core can receive is sound, the message it hands over covering the votes of
    a spine that is not settled. -/
theorem sound_step {c : Core} (hc : c.spine.Inv) (ev : Event) :
    Sound E ev.permit c.spine (c.step E head ev).1.spine (c.step E head ev).2 := by
  cases ev with
  | message src msg => exact (sound_handleMsg hhead hc src msg).weaken fun _ _ h => ⟨_, rfl, h⟩
  | backlog msg => exact (sound_handleCheckedMsg hhead hc msg).weaken fun _ _ h => ⟨_, rfl, h⟩
  | request block => exact sound_handleRequest hc block
  | timeout => exact sound_handleTimeoutMsg hhead hc
  | finalCommitted number => exact sound_handleFinalCommitted hhead hc number

end Rounds

end Core

end QuorumHotstuff.Hotstuff
