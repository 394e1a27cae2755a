import QuorumHotstuff.Hotstuff.Types

/-!
# Istanbul views, proposals and validator sets

What the two Istanbul engines share: `istanbul.View` with its `Cmp`, a proposal reduced to its
number and hash, the validator set of `validator/default.go` with its two proposer selectors, and
`QuorumSize` of `qbft/core/core.go` and `ibft/core/core.go`, which read the configuration of
`config.go`.  Hashes, addresses and `Uint64` are those of the HotStuff model: go-ethereum's
`common.Hash`, `common.Address` and `big.Int.Uint64`.
-/

namespace QuorumHotstuff.Istanbul

export QuorumHotstuff.Hotstuff (Hash Address Bytes emptyHash emptyAddress u64)

/-- `istanbul.View`. -/
structure View where
  round : Nat
  sequence : Nat
deriving DecidableEq, Repr

/-- `View.Cmp`: sequences first, then rounds. -/
def View.cmp (v y : View) : Ordering :=
  if v.sequence ≠ y.sequence then compare v.sequence y.sequence
  else if v.round ≠ y.round then compare v.round y.round
  else .eq

/-- The order `View.Cmp` decides: an earlier sequence, or the same sequence and an earlier
round. -/
def View.lt (v y : View) : Prop :=
  v.sequence < y.sequence ∨ (v.sequence = y.sequence ∧ v.round < y.round)

def View.le (v y : View) : Prop := v.lt y ∨ v = y

namespace View

theorem lt_irrefl (v : View) : ¬ v.lt v := by
  unfold View.lt
  omega

theorem le_refl (v : View) : v.le v := .inr rfl

theorem lt_of_lt_of_le {u v w : View} (h₁ : u.lt v) (h₂ : v.le w) : u.lt w := by
  rcases h₂ with h₂ | rfl
  · unfold View.lt at *
    omega
  · exact h₁

theorem le_trans {u v w : View} (h₁ : u.le v) (h₂ : v.le w) : u.le w := by
  rcases h₁ with h₁ | rfl
  · exact .inl (lt_of_lt_of_le h₁ h₂)
  · exact h₂

theorem ne_of_lt {v w : View} (h : v.lt w) : v ≠ w := by
  rintro rfl
  exact lt_irrefl v h

theorem le_antisymm {v w : View} (h₁ : v.le w) (h₂ : w.le v) : v = w := by
  rcases h₁ with h₁ | rfl
  · rcases h₂ with h₂ | rfl
    · exact absurd (lt_of_lt_of_le h₁ (.inl h₂)) (lt_irrefl v)
    · rfl
  · rfl

end View

/-- `istanbul.Proposal`, a block: its number and its hash. -/
structure Proposal where
  number : Nat
  hash : Hash
deriving DecidableEq, Repr

/-- `istanbul.ProposerPolicyId`. -/
inductive ProposerPolicy where
  | roundRobin
  | sticky
deriving DecidableEq, Repr

/-- `defaultSet`: the sorted addresses, the policy and the current proposer. -/
structure ValidatorSet where
  validators : List Address
  policy : ProposerPolicy
  proposer : Option Address
deriving DecidableEq, Repr

namespace ValidatorSet

/-- `Size`. -/
def size (vs : ValidatorSet) : Nat := vs.validators.length

/-- `GetByAddress`: the validator, when the address belongs to the set. -/
def getByAddress (vs : ValidatorSet) (addr : Address) : Option Address :=
  if addr ∈ vs.validators then some addr else none

/-- `IsProposer`: `reflect.DeepEqual` of the proposer and the looked-up validator. -/
def isProposer (vs : ValidatorSet) (addr : Address) : Bool :=
  vs.proposer == vs.getByAddress addr

/-- `calcSeed`: the index of the last proposer (zero when absent) plus the round. -/
def calcSeed (vs : ValidatorSet) (proposer : Address) (round : Nat) : Nat :=
  u64 ((if proposer ∈ vs.validators then vs.validators.idxOf proposer else 0) + round)

/-- `roundRobinProposer` and `stickyProposer`, which differ by the `+ 1` after a known proposer. -/
def selectBy (vs : ValidatorSet) (step : Nat) (proposer : Address) (round : Nat) :
    Option Address :=
  if vs.size = 0 then none
  else
    let seed := if proposer = emptyAddress then round else u64 (vs.calcSeed proposer round + step)
    vs.validators[seed % vs.size]?

/-- `CalcProposer` under the set's policy. -/
def calcProposer (vs : ValidatorSet) (lastProposer : Address) (round : Nat) : ValidatorSet :=
  { vs with proposer := vs.selectBy (if vs.policy = .roundRobin then 1 else 0) lastProposer round }

/-- `F`: `ceil(N / 3) - 1`, an `int` that is `-1` for the empty set. -/
def f (vs : ValidatorSet) : Int := ((vs.size + 2) / 3 : Nat) - 1

end ValidatorSet

/-- The part of `istanbul.Config` that `QuorumSize` reads: the `ceil2Nby3Block` fork and the
`twoFPlusOneEnabled` value the transitions give at a block. -/
structure Config where
  ceil2Nby3Block : Option Nat
  twoFPlusOneEnabled : Nat → Bool

/-- `QuorumSize`: `2F + 1` while `2F + 1` is enabled or before the `ceil2Nby3Block` fork (always
when it is unset), `ceil(2N / 3)` after it.  `math.Ceil` of the float quotient is the integer
ceiling for every set of fewer than `2^52` validators. -/
def quorumSize (cfg : Config) (sequence : Nat) (vs : ValidatorSet) : Int :=
  if cfg.twoFPlusOneEnabled sequence ∨ cfg.ceil2Nby3Block = none ∨
      (∃ b, cfg.ceil2Nby3Block = some b ∧ sequence < b) then 2 * vs.f + 1
  else ((2 * vs.size + 2) / 3 : Nat)

instance (cfg : Config) (sequence : Nat) : Decidable (∃ b, cfg.ceil2Nby3Block = some b ∧ sequence < b) :=
  match cfg.ceil2Nby3Block with
  | some b => decidable_of_iff (sequence < b) (by simp)
  | none => isFalse (by simp)

end QuorumHotstuff.Istanbul
