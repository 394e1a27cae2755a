import QuorumHotstuff.Hotstuff.Steps
import QuorumHotstuff.Lib.Run

/-!
# A validator's runs: views, phases and the lock

The event loop of one validator as a system of `Lib.Run`.  The input of a turn is the chain head
that `backend.LastProposal()` reports together with the event; a run starts right after `Start`
on a database that stores no view (nothing calls `storeView`) and sees chain heads below
`2^64 - 1`, so that every height fits in the `uint64` that `HeightU64` returns.  Over such runs
the view never goes back, the phase never goes back within a view, a round change moves to a
later view, and a lock is kept, and voted for, as long as the height stays.

At a chain head of `2^64 - 1` the next height reads as zero through `HeightU64`, so every
`startNewRound` takes the "catch up" branch back to the same height and unlocks: the examples at
the end of the module run the core into that.
-/

namespace QuorumHotstuff.Hotstuff

open Spine QuorumHotstuff.Lib

namespace Core

variable (E : Env)

/-- One turn of the event loop, on the chain head the backend reports. -/
def next (c : Core) (i : (Block × Address) × Event) : Core × List Output := c.step E i.1 i.2

/-- The configurations right after `Start` on a chain head below `2^64 - 1`, from a core whose
    database stores no view. -/
def Started (p : Core × List Output) : Prop :=
  ∃ (c : Core) (head : Block × Address),
    c.db.view = none ∧ head.1.number + 1 < 2 ^ 64 ∧ c.start E head = p

/-- Chain heads below `2^64 - 1`, so that the height after them fits in `uint64`. -/
def HeadFits (_ : List Output) (i : (Block × Address) × Event) : Prop :=
  i.1.1.number + 1 < 2 ^ 64

variable {E}

/-- `Start` lands at the height after the chain head, round zero, in `StateAcceptRequest`, with no
    node and no lock. -/
theorem spine_start {c : Core} (hdb : c.db.view = none) (head : Block × Address) :
    ∃ pr pd, (c.start E head).1.spine =
      ⟨⟨0, head.1.number + 1⟩, .acceptRequest, none, none, true, true, none, c.address, pr, pd⟩ := by
  unfold start startNewRound
  simp only [Bool.not_true, Bool.false_eq_true, ↓reduceIte, newRoundView]
  have hv := view_updateRoundState (E := E) (c := { c with
    valSet := c.valSet.calcProposer head.2 (u64 0), current := none, isRunning := true })
    hdb head.1 ⟨0, head.1.number + 1⟩
  obtain ⟨hrun, hdb', -⟩ := updateRoundState_frame (E := E) { c with
    valSet := c.valSet.calcProposer head.2 (u64 0), current := none, isRunning := true }
    head.1 ⟨0, head.1.number + 1⟩
  have ha := address_updateRoundState (E := E) { c with
    valSet := c.valSet.calcProposer head.2 (u64 0), current := none, isRunning := true }
    head.1 ⟨0, head.1.number + 1⟩
  generalize updateRoundState E _ head.1 _ = c₂ at hv hrun hdb' ha ⊢
  -- `Unlock` runs on the state `reload` returned
  rw [spine_setCurrentState rfl, spine_setCur]
  simp only [RoundState.unlock, RoundState.lockedBlock?, Bool.false_eq_true, ↓reduceIte]
  rw [← hv, hrun, hdb', hdb, ha]
  exact ⟨_, _, rfl⟩

theorem inv_of_started {p : Core × List Output} (h : Started E p) : p.1.spine.Inv := by
  obtain ⟨c, head, hdb, hhead, rfl⟩ := h
  obtain ⟨pr, pd, h⟩ := spine_start (E := E) hdb head
  rw [h]
  exact ⟨rfl, rfl, Nat.succ_pos _, hhead, Nat.two_pow_pos 64, rfl, fun n hn => (by cases hn),
    fun b hb => (by cases hb)⟩

theorem inv_next {p : Core × List Output} {i : (Block × Address) × Event} (hp : p.1.spine.Inv)
    (hi : HeadFits p.2 i) : (next E p.1 i).1.spine.Inv :=
  (sound_step hi hp i.2).inv

/-- Over a run from a configuration that satisfies the invariant, the spines at its two ends are
    related by `Sound`, with the outputs the run added. -/
theorem sound_run {p q : Core × List Output} (hp : p.1.spine.Inv) (h : Run (next E) HeadFits p q) :
    ∃ out, q.2 = p.2 ++ out ∧ Sound E (fun _ _ => True) p.1.spine q.1.spine out := by
  refine Run.relates (I := fun p => p.1.spine.Inv)
    (R := fun p q => p.1.spine.Inv →
      ∃ out, q.2 = p.2 ++ out ∧ Sound E (fun _ _ => True) p.1.spine q.1.spine out)
    (fun p i hp hi => inv_next hp hi) ?_ ?_ ?_ h hp hp
  · intro p hp
    exact ⟨[], by simp, .refl hp⟩
  · intro p q r hpq hqr hp
    obtain ⟨o₁, h₁, s₁⟩ := hpq hp
    obtain ⟨o₂, h₂, s₂⟩ := hqr s₁.inv
    exact ⟨o₁ ++ o₂, by rw [h₂, h₁, List.append_assoc], s₁.trans s₂⟩
  · intro p i _ hi hp
    exact ⟨_, rfl, (sound_step hi hp i.2).weaken fun _ _ _ => trivial⟩

theorem inv_of_reachable {p : Core × List Output}
    (h : Reachable (Started E) (next E) HeadFits p) : p.1.spine.Inv :=
  Reachable.invariant (I := fun p => p.1.spine.Inv) (fun _ hp => inv_of_started hp)
    (fun _ _ hp hi => inv_next hp hi) h

/-- A phase not below `StateAcceptRequest` is `StateAcceptRequest` itself. -/
theorem State.eq_acceptRequest_of_le {a : State} (h : a ≤ .acceptRequest) : a = .acceptRequest := by
  cases a <;> first | rfl | (exact absurd h (by decide))

/-! ## A four-validator example

Validator 2 of the validators 1 to 4 starts on a chain head of number `n` proposed by validator 2,
so that validator 3 proposes round zero of height `n + 1`.  Validator 3 sends a Prepare for a
block of height `n + 1`, then a Commit whose lock certificate names that node; then the round
times out, and validator 3 sends a Prepare for a second block. -/

/-- The environment of the example: hashes add up, every block verifies, executes and seals as
    itself, and every aggregate signature verifies. -/
def exampleEnv : Env where
  keccak256 _ := 0
  rlpHash p h := p + h + 1
  verify _ := true
  executeBlock _ := true
  sealBlock b _ := some b
  blsSign a _ := [a]
  blsRecoverAggSig _ sigs := some sigs.flatten
  blsVerifyAggSig _ _ := true
  mapOrder ms := ms

/-- Validator 2, stopped, with an empty database. -/
def exampleCore : Core where
  address := 2
  valSet := ⟨[1, 2, 3, 4], .roundRobin, none⟩
  db := ⟨none, none, none, none, none⟩
  current := none
  backlogs := []
  pendingRequests := ⟨[]⟩
  isRunning := false

/-- The chain head of number `n`, with hash 7, proposed by validator 2. -/
def exampleHead (n : Nat) : Block × Address := (⟨n, 0, 1, 7⟩, 2)

/-- The first block proposed on top of it (hash 11), and the second (hash 13). -/
def exampleBlock (n : Nat) (h : Hash) : Block := ⟨n + 1, 7, 3, h⟩

/-- The Prepare for the first block: its node has hash `7 + 11 + 1 = 19`. -/
def examplePrepare (n : Nat) : Message :=
  ⟨3, .prepare, ⟨0, n + 1⟩, .packagedQC ⟨7, some (exampleBlock n 11)⟩ ⟨⟨0, n⟩, .prepareVote, 7, 1, []⟩⟩

/-- The Commit of the first node. -/
def exampleCommit (n : Nat) : Message :=
  ⟨3, .commit, ⟨0, n + 1⟩, .qc ⟨⟨0, n + 1⟩, .preCommitVote, 19, 3, [3]⟩⟩

/-- The Prepare for the second block, extending the first node. -/
def examplePrepare₂ (n : Nat) : Message :=
  ⟨3, .prepare, ⟨0, n + 1⟩, .packagedQC ⟨19, some (exampleBlock n 13)⟩ ⟨⟨0, n⟩, .prepareVote, 19, 1, []⟩⟩

/-- The inputs of the example run. -/
def exampleEvents (n : Nat) : List ((Block × Address) × Event) :=
  [(exampleHead n, .message 3 (examplePrepare n)), (exampleHead n, .message 3 (exampleCommit n)),
    (exampleHead n, .timeout), (exampleHead n, .message 3 (examplePrepare₂ n))]

/-- The configuration after `Start` and the first `k` inputs. -/
def exampleConfig (n k : Nat) : Core × List Output :=
  runList (next exampleEnv) (exampleCore.start exampleEnv (exampleHead n)) ((exampleEvents n).take k)

theorem exampleEvents_head {n : Nat} {e : (Block × Address) × Event} (he : e ∈ exampleEvents n) :
    e.1 = exampleHead n := by
  simp only [exampleEvents, List.mem_cons, List.not_mem_nil, or_false] at he
  rcases he with rfl | rfl | rfl | rfl <;> rfl

theorem exampleEvents_fit {es : List ((Block × Address) × Event)} (hes : ∀ e ∈ es, e ∈ exampleEvents 5) :
    ∀ e ∈ es, ∀ h, HeadFits h e := by
  intro e he h
  show e.1.1.number + 1 < 2 ^ 64
  rw [exampleEvents_head (hes e he)]
  decide

theorem example_reachable (k : Nat) :
    Reachable (Started exampleEnv) (next exampleEnv) HeadFits (exampleConfig 5 k) :=
  ⟨_, ⟨exampleCore, exampleHead 5, rfl, by decide, rfl⟩,
    Run.of_runList (exampleEvents_fit fun _ he => List.mem_of_mem_take he) _⟩

/-! ## Views and phases -/

/-- Views and phases only move forward.  Over every run of a started validator on chain heads
    below `2^64 - 1`: the view never decreases; within a view the phase never decreases, so the
    validator is back in `StateAcceptRequest` only at a strictly later view; and every
    `startNewRound` its callers make (round zero, or the next round on a timeout) that does not
    return early moves to a strictly later view, in `StateAcceptRequest`. -/
theorem run_view_phase_advance {p q : Core × List Output}
    (hp : Reachable (Started E) (next E) HeadFits p) (hr : Run (next E) HeadFits p q) :
    p.1.cur.view.key ≤ q.1.cur.view.key ∧
    (q.1.cur.view = p.1.cur.view → p.1.cur.state ≤ q.1.cur.state) ∧
    (p.1.cur.state ≠ .acceptRequest → q.1.cur.state = .acceptRequest →
      p.1.cur.view.key < q.1.cur.view.key) ∧
    ∀ (head : Block × Address) (round : Nat), head.1.number + 1 < 2 ^ 64 →
      (round = 0 ∨ round = p.1.cur.round + 1) → p.1.newRoundView head.1 round ≠ none →
      p.1.cur.view.key < (p.1.startNewRound E head round).1.cur.view.key ∧
      (p.1.startNewRound E head round).1.cur.state = .acceptRequest := by
  have hinv := inv_of_reachable hp
  obtain ⟨out, -, hs⟩ := sound_run hinv hr
  have hview : p.1.cur.view.key ≤ q.1.cur.view.key := hs.adv.view_le
  have hstate : q.1.cur.view = p.1.cur.view → p.1.cur.state ≤ q.1.cur.state := hs.adv.state_le
  refine ⟨hview, hstate, ?_, ?_⟩
  · -- returning to `StateAcceptRequest` within a view would move the phase back
    intro hne hq
    refine lt_of_le_of_ne hview fun heq => hne ?_
    have hle := hstate (View.key_injective heq).symm
    rw [hq] at hle
    exact State.eq_acceptRequest_of_le hle
  · intro head round hhead hround hsome
    obtain ⟨s, hs⟩ := Option.isSome_iff_exists.mp hinv.started
    have hcur : p.1.cur = s := by simp [cur, hs]
    rcases startNewRound_cases (E := E) hs hinv.storedView head round with
      ⟨hret, -⟩ | ⟨nv, cv, _, _, -, hnv, h, -⟩
    · -- an early return needs a stopped engine or no new view
      rcases hret with hret | hret
      · have hrun : p.1.isRunning = true := hinv.running
        rw [hrun] at hret
        cases hret
      · exact absurd hret hsome
    · have hh : s.height < 2 ^ 64 := by have := hinv.height_lt; rwa [spine, hcur] at this
      have hr : s.round < 2 ^ 64 := by have := hinv.round_lt; rwa [spine, hcur] at this
      rw [hcur] at hround
      obtain ⟨hlt, -⟩ := newRoundView_spec hs hh hr hhead hround hnv
      have hv : (p.1.startNewRound E head round).1.cur.view = nv := congrArg Spine.view h
      have hst : (p.1.startNewRound E head round).1.cur.state = .acceptRequest :=
        congrArg Spine.state h
      rw [hv, hst, hcur]
      exact ⟨hlt, rfl⟩

/-- From `Start` through the Prepare, the Commit and the timeout of the example: the view moves
    from height 6 round 0 to round 1. -/
theorem run_view_phase_advance_example :
    Reachable (Started exampleEnv) (next exampleEnv) HeadFits (exampleConfig 5 0) ∧
    Run (next exampleEnv) HeadFits (exampleConfig 5 0) (exampleConfig 5 3) ∧
    (exampleConfig 5 0).1.cur.view.key ≤ (exampleConfig 5 3).1.cur.view.key ∧
    (exampleConfig 5 3).1.cur.view = ⟨1, 6⟩ := by
  have hr : Run (next exampleEnv) HeadFits (exampleConfig 5 0) (exampleConfig 5 3) :=
    Run.of_runList (exampleEvents_fit fun _ he => List.mem_of_mem_take he) _
  exact ⟨example_reachable 0, hr, (run_view_phase_advance (example_reachable 0) hr).1, by decide⟩

/-- On a chain head of number `2^64 - 1` the validator is at height `2^64`, which `HeightU64`
    reads as zero: the timeout takes the "catch up" branch of `startNewRound`, back to the same
    view, and the validator leaves `StatePreCommitted` for `StateAcceptRequest` within one view. -/
theorem timeout_at_last_height_resets_phase :
    (exampleConfig (2 ^ 64 - 1) 2).1.cur.state = .preCommitted ∧
    (exampleConfig (2 ^ 64 - 1) 2).1.newRoundView (exampleHead (2 ^ 64 - 1)).1 1 ≠ none ∧
    (exampleConfig (2 ^ 64 - 1) 3).1.cur.view = (exampleConfig (2 ^ 64 - 1) 2).1.cur.view ∧
    (exampleConfig (2 ^ 64 - 1) 3).1.cur.state = .acceptRequest := by
  decide

/-! ## The lock -/

/-- The lock is kept, and voted for, within a height.  Over every run of a started validator on
    chain heads below `2^64 - 1`, once `LockedBlock()` returns `b`: while the height stays, it
    returns a block with `b`'s hash, and every vote the validator sends at that height is for a
    node whose block has `b`'s hash. -/
theorem run_lock_stable {p q : Core × List Output}
    (hp : Reachable (Started E) (next E) HeadFits p) (hr : Run (next E) HeadFits p q)
    {b : Block} (hb : p.1.cur.lockedBlock? = some b) :
    (q.1.cur.height = p.1.cur.height →
      ∃ b', q.1.cur.lockedBlock? = some b' ∧ b'.hash = b.hash) ∧
    ∀ out, q.2 = p.2 ++ out → ∀ m ∈ sentIn out, ∀ v, m.msg = .vote v →
      m.view.height = p.1.cur.height →
      ∃ n : ProposedBlock, n.block.map Block.hash = some b.hash ∧ v.proposedBlock = n.hash E := by
  have hinv := inv_of_reachable hp
  obtain ⟨out, hout, hs⟩ := sound_run hinv hr
  refine ⟨fun hh => hs.adv.lock_kept hh b hb, ?_⟩
  intro out' hout' m hm v hv hmh
  have hsame : out' = out := List.append_cancel_left (hout'.symm.trans hout)
  subst hsame
  obtain ⟨si, hsi, hadv, -, hsent⟩ := hs.sent hm
  obtain ⟨⟨hview, -, n, hn, hvn⟩, -⟩ := hsent.vote v hv
  -- the vote was cast at the height of the lock, from a spine still locked on `b`'s hash
  have hh : si.view.height = p.1.spine.view.height := by
    rw [← hview]
    exact hmh
  obtain ⟨b', hb', hbb⟩ := hadv.lock_kept hh b hb
  obtain ⟨n', hn', hnb⟩ := hsi.lockNode b' hb'
  rw [hn] at hn'
  cases hn'
  exact ⟨n, by rw [hnb, hbb], hvn⟩

/-- In the example, the validator locks on the first block with the Commit, and keeps the lock
    through the timeout, which only changes the round. -/
theorem run_lock_stable_example :
    Reachable (Started exampleEnv) (next exampleEnv) HeadFits (exampleConfig 5 2) ∧
    Run (next exampleEnv) HeadFits (exampleConfig 5 2) (exampleConfig 5 3) ∧
    (exampleConfig 5 2).1.cur.lockedBlock? = some (exampleBlock 5 11) ∧
    (exampleConfig 5 3).1.cur.height = (exampleConfig 5 2).1.cur.height ∧
    ∃ b', (exampleConfig 5 3).1.cur.lockedBlock? = some b' ∧ b'.hash = 11 := by
  have hr : Run (next exampleEnv) HeadFits (exampleConfig 5 2) (exampleConfig 5 3) :=
    @Run.of_runList _ _ _ (next exampleEnv) HeadFits [(exampleHead 5, .timeout)]
      (exampleEvents_fit fun _ he => by
        rw [List.mem_singleton.mp he]
        simp [exampleEvents]) _
  have hb : (exampleConfig 5 2).1.cur.lockedBlock? = some (exampleBlock 5 11) := by decide
  have hh : (exampleConfig 5 3).1.cur.height = (exampleConfig 5 2).1.cur.height := by decide
  exact ⟨example_reachable 2, hr, hb, hh, (run_lock_stable (example_reachable 2) hr hb).1 hh⟩

/-- On a chain head of number `2^64 - 1` the validator locks on the first block at height `2^64`,
    and the timeout unlocks it at the same height. -/
theorem timeout_at_last_height_unlocks :
    (exampleConfig (2 ^ 64 - 1) 2).1.cur.lockedBlock? = some (exampleBlock (2 ^ 64 - 1) 11) ∧
    (exampleConfig (2 ^ 64 - 1) 3).1.cur.height = (exampleConfig (2 ^ 64 - 1) 2).1.cur.height ∧
    (exampleConfig (2 ^ 64 - 1) 3).1.cur.lockedBlock? = none := by
  decide

/-! ## Restart -/

/-- `Start` never leaves a lock: whatever the core held, the new round state is unlocked. -/
theorem lockedBlock?_start (c : Core) (head : Block × Address) :
    (c.start E head).1.cur.lockedBlock? = none := by
  unfold start startNewRound
  simp only [Bool.not_true, Bool.false_eq_true, ↓reduceIte, newRoundView]
  generalize updateRoundState E _ head.1 _ = c₂
  rw [cur_setCurrentState]
  rfl

/-- `reload` relocks on a stored node that the stored lock certificate names, but `Start` runs it
    inside a `startNewRound` at a new height, whose `Unlock` follows at once: after `Stop` and
    `Start` no lock is left. -/
theorem restart_drops_lock (c : Core) (head : Block × Address) (v : View) {qc : QuorumCert}
    {n : ProposedBlock} {b : Block} (hqc : c.db.lockQC = some qc) (hn : c.db.node = some n)
    (hb : n.block = some b) (hq : qc.proposedBlock = n.hash E) :
    ((RoundState.new c.valSet.validators head.1 v).reload E c.db v).lockedBlock? = some b ∧
    (c.stop.start E head).1.cur.lockedBlock? = none := by
  refine ⟨?_, lockedBlock?_start _ head⟩
  -- the load steps write the lock certificate and the node that the relock compares
  have hload : ∀ s : RoundState,
      (((((s.loadView c.db v).loadPrepareQC c.db).loadLockQC c.db).loadCommitQC c.db).loadNode
        c.db).lockQC = some qc ∧
      (((((s.loadView c.db v).loadPrepareQC c.db).loadLockQC c.db).loadCommitQC c.db).loadNode
        c.db).node = some n := by
    intro s
    simp only [RoundState.loadPrepareQC_eq, RoundState.loadLockQC_eq, RoundState.loadCommitQC_eq,
      RoundState.loadNode_eq, hqc, hn, Option.some_or, and_self]
  unfold RoundState.reload
  dsimp only
  obtain ⟨h₁, h₂⟩ := hload (RoundState.new c.valSet.validators head.1 v)
  rw [h₁, h₂]
  dsimp only
  rw [if_pos ⟨by rw [hb]; rfl, hq⟩]
  exact hb

/-- The example validator is locked on the first block at height 6 while the chain head is at 5;
    its database holds the lock certificate and the node, on which `reload` relocks; yet after
    `Stop` and `Start` on the same database it is at height 6 with no lock. -/
theorem restart_example_drops_lock :
    (exampleConfig 5 2).1.cur.lockedBlock? = some (exampleBlock 5 11) ∧
    (exampleConfig 5 2).1.cur.height = 6 ∧
    ((RoundState.new [1, 2, 3, 4] (exampleHead 5).1 ⟨0, 6⟩).reload exampleEnv
      (exampleConfig 5 2).1.db ⟨0, 6⟩).lockedBlock? = some (exampleBlock 5 11) ∧
    ((exampleConfig 5 2).1.stop.start exampleEnv (exampleHead 5)).1.cur.height = 6 ∧
    ((exampleConfig 5 2).1.stop.start exampleEnv (exampleHead 5)).1.cur.lockedBlock? = none := by
  have hdb : (exampleConfig 5 2).1.db.lockQC = some ⟨⟨0, 6⟩, .preCommitVote, 19, 3, [3]⟩ ∧
      (exampleConfig 5 2).1.db.node = some ⟨7, some (exampleBlock 5 11)⟩ := by decide
  obtain ⟨hrelock, hstart⟩ := restart_drops_lock (E := exampleEnv) (exampleConfig 5 2).1
    (exampleHead 5) ⟨0, 6⟩ hdb.1 hdb.2 rfl rfl
  exact ⟨by decide, by decide, hrelock, by decide, hstart⟩

end Core

end QuorumHotstuff.Hotstuff
