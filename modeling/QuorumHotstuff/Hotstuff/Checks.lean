import QuorumHotstuff.Hotstuff.Fork

/-!
# What `checkView` and `verifyQC` let through

`View.Sub` truncates each big-integer difference to `int64`.  Inside `int64` the truncation is the
identity (`i64_of_bounds`), so on views whose components are below `2^63` `checkView` classifies
a message exactly by the lexicographic order of views, and the ordering test of `verifyQC` rejects
exactly the certificates of a later view.  Past that range a height that differs by `2^64` reads
as the current one.

`verifyQC` returns success for every certificate whose height reads as zero in `uint64`, before
it compares anything with the message; the closing theorem shows what that leaves unchecked.
-/

namespace QuorumHotstuff.Hotstuff

/-- `Int64()` is the identity on integers that fit in `int64`. -/
theorem i64_of_bounds {x : Int} (hlo : -2 ^ 63 ≤ x) (hhi : x < 2 ^ 63) : i64 x = x := by
  unfold i64
  by_cases hx : x < 0
  · rw [if_pos hx, BitVec.toInt_neg, BitVec.toInt_ofNat']
    simp only [Int.bmod]
    omega
  · rw [if_neg hx, BitVec.toInt_ofNat']
    simp only [Int.bmod]
    omega

/-- On views below `2^63`, `View.Sub` is the pair of exact differences. -/
theorem View.sub_of_bounds {v y : View} (hvh : v.height < 2 ^ 63) (hvr : v.round < 2 ^ 63)
    (hyh : y.height < 2 ^ 63) (hyr : y.round < 2 ^ 63) :
    v.sub y = ((v.height : Int) - y.height, (v.round : Int) - y.round) := by
  unfold View.sub
  rw [i64_of_bounds (by omega) (by omega), i64_of_bounds (by omega) (by omega)]

/-- The ordering test of `verifyQC`, on views below `2^63`: a negative height difference, or a
    zero one with a negative round difference, is exactly a later second view. -/
theorem View.sub_rejects_iff {v y : View} (hvh : v.height < 2 ^ 63) (hvr : v.round < 2 ^ 63)
    (hyh : y.height < 2 ^ 63) (hyr : y.round < 2 ^ 63) :
    ((v.sub y).1 < 0 ∨ ((v.sub y).1 = 0 ∧ (v.sub y).2 < 0)) ↔ v.lt y := by
  rw [View.sub_of_bounds hvh hvr hyh hyr]
  unfold View.lt
  omega

namespace Core

/-- `checkView` on views below `2^63`, as comparisons of the components. -/
theorem checkView_of_bounds (c : Core) {v : View} (hh : v.height < 2 ^ 63) (hr : v.round < 2 ^ 63)
    (hch : c.currentView.height < 2 ^ 63) (hcr : c.currentView.round < 2 ^ 63) :
    c.checkView v =
      if v.height < c.currentView.height then some .oldMessage
      else if v.height > c.currentView.height + 1 then some .farAwayFutureMessage
      else if v.height = c.currentView.height + 1 then some .futureMessage
      else if v.round < c.currentView.round then some .oldMessage
      else if v.round = c.currentView.round then none
      else some .futureMessage := by
  unfold checkView
  rw [View.sub_of_bounds hh hr hch hcr]
  dsimp only
  -- each guard on the `int64` differences is the comparison of the components
  have e₁ : ((v.height : Int) - c.currentView.height < 0) = (v.height < c.currentView.height) :=
    propext (by omega)
  have e₂ : ((v.height : Int) - c.currentView.height > 1) = (v.height > c.currentView.height + 1) :=
    propext (by omega)
  have e₃ : ((v.height : Int) - c.currentView.height = 1) = (v.height = c.currentView.height + 1) :=
    propext (by omega)
  have e₄ : ((v.round : Int) - c.currentView.round < 0) = (v.round < c.currentView.round) :=
    propext (by omega)
  have e₅ : ((v.round : Int) - c.currentView.round = 0) = (v.round = c.currentView.round) :=
    propext (by omega)
  simp only [e₁, e₂, e₃, e₄, e₅]

/-- View classification is exact on views below `2^63`: `checkView` passes exactly the current
    view, reports an old message exactly below it, a future message exactly for a later round of
    the current height or any round of the next height, and a far-away one exactly beyond. -/
theorem checkView_exact (c : Core) (v : View) (hh : v.height < 2 ^ 63) (hr : v.round < 2 ^ 63)
    (hch : c.currentView.height < 2 ^ 63) (hcr : c.currentView.round < 2 ^ 63) :
    (c.checkView v = none ↔ v = c.currentView) ∧
    (c.checkView v = some .oldMessage ↔ v.height < c.currentView.height ∨
      (v.height = c.currentView.height ∧ v.round < c.currentView.round)) ∧
    (c.checkView v = some .futureMessage ↔ (v.height = c.currentView.height ∧
      v.round > c.currentView.round) ∨ v.height = c.currentView.height + 1) ∧
    (c.checkView v = some .farAwayFutureMessage ↔ v.height > c.currentView.height + 1) := by
  rw [checkView_of_bounds c hh hr hch hcr]
  obtain ⟨r, h⟩ := v
  obtain ⟨R, H⟩ := c.currentView
  simp only [View.mk.injEq]
  refine ⟨?_, ?_, ?_, ?_⟩ <;> split_ifs <;> simp <;> omega

/-- Past `int64` the classification fails: at every current view, a message `2^64` heights ahead
    passes `checkView` as current; in every message, a certificate `2^64` heights later passes the
    ordering test of `verifyQC`. -/
theorem checkView_accepts_wrapped_height (c : Core) (d : View) :
    c.checkView ⟨c.currentView.round, c.currentView.height + 2 ^ 64⟩ = none ∧
    (⟨c.currentView.round, c.currentView.height + 2 ^ 64⟩ : View) ≠ c.currentView ∧
    ¬ ((d.sub ⟨d.round, d.height + 2 ^ 64⟩).1 < 0 ∨ ((d.sub ⟨d.round, d.height + 2 ^ 64⟩).1 = 0 ∧
      (d.sub ⟨d.round, d.height + 2 ^ 64⟩).2 < 0)) ∧ d.lt ⟨d.round, d.height + 2 ^ 64⟩ := by
  -- both differences of heights are `± 2^64`, which `Int64()` reads as zero
  have hwrap : i64 (2 ^ 64) = 0 := by decide
  have hwrap' : i64 (-2 ^ 64) = 0 := by decide
  have hzero : i64 0 = 0 := by decide
  have hsub : d.sub ⟨d.round, d.height + 2 ^ 64⟩ = (0, 0) := by
    unfold View.sub
    simp only [Nat.cast_add, Nat.cast_pow, Nat.cast_ofNat, sub_add_cancel_left, sub_self]
    rw [hwrap', hzero]
  refine ⟨?_, ?_, ?_, .inl (by simp)⟩
  · unfold checkView View.sub
    simp only [Nat.cast_add, Nat.cast_pow, Nat.cast_ofNat, add_sub_cancel_left, sub_self]
    rw [hwrap]
    decide
  · intro h
    have := congrArg View.height h
    simp at this
  · rw [hsub]
    decide

/-- The locked replica of the fork run. -/
def lockedReplica : Core := (forkConfig 2 (victimEvents.take 3)).1

/-- A certificate of height zero, with a round, code, node and proposer of no view at hand. -/
def zeroHeightQC : QuorumCert := ⟨⟨5, 0⟩, .prepareVote, 77, 9, []⟩

def zeroHeightDecide : Message := ⟨1, .decide, ⟨0, 1⟩, .diploma zeroHeightQC 77⟩

/-- A certificate of height `2^64`, which `Uint64` reads as zero. -/
def wrappedQC : QuorumCert := ⟨⟨0, 2 ^ 64⟩, .prepareVote, 77, 9, []⟩

def wrappedNewView : Message := ⟨3, .newView, ⟨0, 5⟩, .qc wrappedQC⟩

/-- `verifyQC` checks nothing of a certificate whose height reads as zero in `uint64`.  At the
    locked replica of the fork run, a Decide of view `(0, 1)` passes with a certificate of another
    view, the wrong code, a proposer and node that are not the replica's, and a signature that does
    not verify; a NewView of height five passes with a certificate of height `2^64`, later than
    the message and not the genesis certificate, whose signature does not verify either. -/
theorem verifyQC_skips_uint64_zero_heights :
    lockedReplica.verifyQC forkEnv zeroHeightDecide zeroHeightQC = none ∧
      zeroHeightQC.code ≠ .commitVote ∧ zeroHeightQC.view ≠ zeroHeightDecide.view ∧
      zeroHeightQC.proposer ≠ lockedReplica.proposer ∧
      lockedReplica.cur.node.map (·.hash forkEnv) ≠ some zeroHeightQC.proposedBlock ∧
      forkEnv.blsVerifyAggSig ⟨zeroHeightQC.code, zeroHeightQC.view, zeroHeightQC.proposedBlock, []⟩
        zeroHeightQC.blsSignature = false ∧
      lockedReplica.verifyQC forkEnv wrappedNewView wrappedQC = none ∧
      wrappedNewView.view.lt wrappedQC.view ∧ wrappedQC.view.height ≠ 0 ∧
      forkEnv.blsVerifyAggSig ⟨wrappedQC.code, wrappedQC.view, wrappedQC.proposedBlock, []⟩
        wrappedQC.blsSignature = false := by
  refine ⟨verifyQC_of_height_zero lockedReplica zeroHeightDecide (by decide), by decide, by decide,
    by decide, by decide, rfl, verifyQC_of_height_zero lockedReplica wrappedNewView (by decide),
    by decide, by decide, rfl⟩

end Core

end QuorumHotstuff.Hotstuff
