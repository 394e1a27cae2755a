import QuorumHotstuff.Qbft.Justification

/-!
# The round-change set

`roundChangeSet` of `qbft/core/roundchange.go`: per round (as `uint64`), the ROUND-CHANGE
messages by source, and the highest prepared round and block seen in a round change whose
PREPARE justification matched, with that justification.  Go's maps are `AList`s; walking one
follows its entries, where Go's order is unspecified.
-/

namespace QuorumHotstuff.Qbft

open QuorumHotstuff.Istanbul

/-- `roundChangeSet`. -/
structure RoundChangeSet where
  validatorSet : ValidatorSet
  roundChanges : AList fun _ : Nat => MsgSet RoundChange
  prepareMessages : AList fun _ : Nat => List Prepare
  highestPreparedRound : AList fun _ : Nat => Nat
  highestPreparedBlock : AList fun _ : Nat => Proposal
deriving DecidableEq

namespace RoundChangeSet

/-- `newRoundChangeSet`. -/
def new (valSet : ValidatorSet) : RoundChangeSet := ⟨valSet, ∅, ∅, ∅, ∅⟩

/-- `NewRound`: an empty message set and an empty justification for the round, unless present. -/
def newRound (rcs : RoundChangeSet) (r : Int) : RoundChangeSet :=
  let round := u64 r.natAbs
  { rcs with
    roundChanges :=
      if (rcs.roundChanges.lookup round).isNone then rcs.roundChanges.insert round MsgSet.empty
      else rcs.roundChanges
    prepareMessages :=
      if (rcs.prepareMessages.lookup round).isNone then rcs.prepareMessages.insert round []
      else rcs.prepareMessages }

/-- `Add`: record the message under its round; a prepared round above the highest one recorded,
with a matching PREPARE justification, becomes the highest. -/
def add (rcs : RoundChangeSet) (r : Nat) (msg : RoundChange) (preparedRound : Option Nat)
    (preparedBlock : Option Proposal) (prepareMessages : List Prepare) (quorumSize : Int) :
    RoundChangeSet :=
  let round := u64 r
  let set := ((rcs.roundChanges.lookup round).getD MsgSet.empty).add msg.payload.source msg
  let rcs := { rcs with roundChanges := rcs.roundChanges.insert round set }
  match preparedRound with
  | none => rcs
  | some pr =>
    if (rcs.highestPreparedRound.lookup round).all (· < pr) ∧
        hasMatchingRoundChangeAndPrepares msg prepareMessages quorumSize = none then
      { rcs with
        highestPreparedRound := rcs.highestPreparedRound.insert round pr
        highestPreparedBlock :=
          match preparedBlock with
          | some b => rcs.highestPreparedBlock.insert round b
          | none => rcs.highestPreparedBlock.erase round
        prepareMessages := rcs.prepareMessages.insert round prepareMessages }
    else rcs

/-- `higherRoundMessages`: the number of distinct sources of ROUND-CHANGE messages for rounds
above the given one. -/
def higherRoundMessages (rcs : RoundChangeSet) (round : Nat) : Nat :=
  ((rcs.roundChanges.entries.filter (fun e => e.1 > u64 round)).flatMap (·.2.keys)).dedup.length

/-- `getRCMessagesForGivenRound`. -/
def getRCMessagesForGivenRound (rcs : RoundChangeSet) (round : Nat) : Nat :=
  ((rcs.roundChanges.lookup (u64 round)).map MsgSet.size).getD 0

/-- `int64` of a `uint64`, as `big.NewInt(int64(k))` reads it. -/
def int64OfU64 (k : Nat) : Int := if k < 2 ^ 63 then k else (k : Int) - 2 ^ 64

/-- `getMinRoundChange`: the least round above the given one that has messages, or the given
round itself. -/
def getMinRoundChange (rcs : RoundChangeSet) (round : Nat) : Int :=
  match ((rcs.roundChanges.keys.filter (· > u64 round)).min?) with
  | some k => int64OfU64 k
  | none => round

/-- `ClearLowerThan`: drop every round below the given one, and every round without messages. -/
def clearLowerThan (rcs : RoundChangeSet) (r : Int) : RoundChangeSet :=
  let round := u64 r.natAbs
  let drop := (rcs.roundChanges.entries.filter (fun e => e.2.size = 0 ∨ e.1 < round)).map (·.1)
  drop.foldl (fun rcs k =>
    { rcs with
      roundChanges := rcs.roundChanges.erase k
      highestPreparedRound := rcs.highestPreparedRound.erase k
      highestPreparedBlock := rcs.highestPreparedBlock.erase k
      prepareMessages := rcs.prepareMessages.erase k }) rcs

/-! ## Rounds as `uint64` -/

/-- Every round the set keeps messages for is a `uint64`, as `Add` and `NewRound` store them. -/
def Rounds64 (rcs : RoundChangeSet) : Prop := ∀ k ∈ rcs.roundChanges.keys, k < 2 ^ 64

theorem rounds64_new (vs : ValidatorSet) : (new vs).Rounds64 := by
  intro k hk
  simp [new, AList.keys_empty] at hk

/-- A key inserted is a `uint64`, the others were there. -/
theorem Rounds64.insert {rcs : RoundChangeSet} (h : rcs.Rounds64) (n : Nat) (set : MsgSet RoundChange) :
    ∀ k ∈ (rcs.roundChanges.insert (u64 n) set).keys, k < 2 ^ 64 := by
  intro k hk
  rw [AList.keys_insert] at hk
  rcases List.mem_cons.mp hk with rfl | hk
  · exact Nat.mod_lt _ (Nat.two_pow_pos 64)
  · exact h k (List.mem_of_mem_erase hk)

theorem Rounds64.newRound {rcs : RoundChangeSet} (h : rcs.Rounds64) (r : Int) :
    (rcs.newRound r).Rounds64 := by
  unfold RoundChangeSet.newRound Rounds64
  dsimp only
  split_ifs
  · exact h.insert _ _
  · exact h

theorem add_roundChanges (rcs : RoundChangeSet) (r : Nat) (msg : RoundChange)
    (preparedRound : Option Nat) (preparedBlock : Option Proposal) (prepareMessages : List Prepare)
    (quorumSize : Int) :
    (rcs.add r msg preparedRound preparedBlock prepareMessages quorumSize).roundChanges =
      rcs.roundChanges.insert (u64 r)
        (((rcs.roundChanges.lookup (u64 r)).getD MsgSet.empty).add msg.payload.source msg) := by
  unfold RoundChangeSet.add
  dsimp only
  split
  · rfl
  · split_ifs <;> rfl

theorem Rounds64.add {rcs : RoundChangeSet} (h : rcs.Rounds64) (r : Nat) (msg : RoundChange)
    (preparedRound : Option Nat) (preparedBlock : Option Proposal) (prepareMessages : List Prepare)
    (quorumSize : Int) :
    (rcs.add r msg preparedRound preparedBlock prepareMessages quorumSize).Rounds64 := by
  unfold Rounds64
  rw [add_roundChanges]
  exact h.insert _ _

theorem Rounds64.clearLowerThan {rcs : RoundChangeSet} (h : rcs.Rounds64) (r : Int) :
    (rcs.clearLowerThan r).Rounds64 := by
  unfold RoundChangeSet.clearLowerThan
  dsimp only
  -- each deletion only removes keys
  generalize (rcs.roundChanges.entries.filter _).map _ = drop
  induction drop generalizing rcs with
  | nil => exact h
  | cons k drop ih =>
    refine ih (fun k' hk' => h k' ?_)
    rw [AList.keys_erase] at hk'
    exact List.mem_of_mem_erase hk'

/-- With round changes from some source above a round, the least round above it is another
round: the `int64` of a `uint64` above the round, or a negative one. -/
theorem getMinRoundChange_ne {rcs : RoundChangeSet} (h : rcs.Rounds64) {round : Nat}
    (hpos : 0 < rcs.higherRoundMessages round) : rcs.getMinRoundChange round ≠ round := by
  unfold higherRoundMessages at hpos
  -- some entry lies above the round
  obtain ⟨e, he, hgt⟩ : ∃ e ∈ rcs.roundChanges.entries, e.1 > u64 round := by
    have hne : rcs.roundChanges.entries.filter (fun e => e.1 > u64 round) ≠ [] := by
      intro hnil
      rw [hnil] at hpos
      simp at hpos
    obtain ⟨e, he⟩ := List.exists_mem_of_ne_nil _ hne
    obtain ⟨he, hgt⟩ := List.mem_filter.mp he
    exact ⟨e, he, by simpa using hgt⟩
  have hkey : e.1 ∈ rcs.roundChanges.keys := List.mem_map.mpr ⟨e, he, rfl⟩
  have hne : rcs.roundChanges.keys.filter (· > u64 round) ≠ [] :=
    List.ne_nil_of_mem (List.mem_filter.mpr ⟨hkey, by simpa using hgt⟩)
  obtain ⟨k, hk⟩ := Option.ne_none_iff_exists'.mp (mt List.min?_eq_none_iff.mp hne)
  obtain ⟨hkmem, hkgt⟩ := List.mem_filter.mp (List.min?_mem hk)
  have hk64 := h k hkmem
  have hkgt' : k > round % 2 ^ 64 := by simpa [u64] using hkgt
  unfold getMinRoundChange int64OfU64
  rw [hk]
  dsimp only
  split_ifs with h63
  · intro heq
    have : k = round := by exact_mod_cast heq
    omega
  · omega

end RoundChangeSet

end QuorumHotstuff.Qbft
