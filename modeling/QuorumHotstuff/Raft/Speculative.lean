import Mathlib.Data.Finset.Basic
import Mathlib.Data.List.Chain

/-!
# The raft minter's speculative chain

`raft/speculative_chain.go` with the calls of `raft/minter.go`.  The speculative chain keeps the
blocks the minter has minted and not yet seen accepted, oldest first, the head the next block is
built on, the hashes of blocks it expects to be ruled invalid (the guard) and the hashes of the
transactions in its pending blocks, which `withoutProposedTxes` keeps out of the next block.
`extend`, `accept`, `unwindFrom`, `clear` and `setHead` are the operations; blocks are read through
their hash, parent hash and transactions.

Starting from `clear`, every sequence of operations keeps the representation invariant `Inv`:
the head is the last pending block, each pending block is a child of the one before, and the
proposed transactions are exactly those of the pending blocks, which share none
(`speculative_chain_invariant`).
-/

namespace QuorumHotstuff.Raft

/-- What the speculative chain reads of `types.Block` and `types.Transaction`. -/
structure BlockOps (Block Tx Hash : Type) where
  hash : Block → Hash
  parentHash : Block → Hash
  transactions : Block → List Tx
  txHash : Tx → Hash

variable {Block Tx Hash Addr : Type} [DecidableEq Hash] (B : BlockOps Block Tx Hash)

/-- `speculativeChain`: the deque of unapplied blocks is a list, oldest first. -/
structure SpeculativeChain (Block Hash : Type) where
  head : Block
  unappliedBlocks : List Block
  expectedInvalidBlockHashes : Finset Hash
  proposedTxes : Finset Hash

namespace SpeculativeChain

/-- The hashes of a block's transactions. -/
def txHashes (b : Block) : Finset Hash := ((B.transactions b).map B.txHash).toFinset

/-- The hashes of the transactions of a list of blocks. -/
def txesOf : List Block → Finset Hash
  | [] => ∅
  | b :: bs => txHashes B b ∪ txesOf bs

/-- `clear`. -/
def clear (b : Block) : SpeculativeChain Block Hash := ⟨b, [], ∅, ∅⟩

/-- `extend`: the block becomes the head, its transactions are proposed, and it is appended. -/
def extend (chain : SpeculativeChain Block Hash) (b : Block) : SpeculativeChain Block Hash :=
  { chain with head := b, proposedTxes := chain.proposedTxes ∪ txHashes B b,
               unappliedBlocks := chain.unappliedBlocks ++ [b] }

/-- `setHead`. -/
def setHead (chain : SpeculativeChain Block Hash) (b : Block) : SpeculativeChain Block Hash := { chain with head := b }

/-- `accept`: with no pending block the accepted one is the head; the expected oldest block is
dropped with its transactions; any other block clears the chain onto the accepted one. -/
def accept (chain : SpeculativeChain Block Hash) (acceptedBlock : Block) : SpeculativeChain Block Hash :=
  match chain.unappliedBlocks with
  | [] => { chain with head := acceptedBlock }
  | earliestProposed :: rest =>
    if B.hash earliestProposed = B.hash acceptedBlock then
      { chain with unappliedBlocks := rest,
                   proposedTxes := chain.proposedTxes \ txHashes B acceptedBlock }
    else clear acceptedBlock

/-- The loop of `unwindFrom` over the pending blocks, newest first: pop one, point the head at
the new last block (or the chain's head block), drop its transactions, and go on into the guard
until the invalid block is popped. -/
def unwindLoop (invalidHash : Hash) (headBlock : Block) :
    List Block → SpeculativeChain Block Hash → SpeculativeChain Block Hash
  | [], chain => chain
  | currBlock :: rest, chain =>
    let chain := { chain with unappliedBlocks := rest.reverse, head := rest.head?.getD headBlock,
                              proposedTxes := chain.proposedTxes \ txHashes B currBlock }
    if B.hash currBlock ≠ invalidHash then
      let guard := insert (B.hash currBlock) chain.expectedInvalidBlockHashes
      unwindLoop invalidHash headBlock rest { chain with expectedInvalidBlockHashes := guard }
    else chain

/-- `unwindFrom`: a guarded hash leaves the guard; otherwise blocks are popped up to the invalid
one. -/
def unwindFrom (chain : SpeculativeChain Block Hash) (invalidHash : Hash) (headBlock : Block) : SpeculativeChain Block Hash :=
  if invalidHash ∈ chain.expectedInvalidBlockHashes then
    { chain with expectedInvalidBlockHashes := chain.expectedInvalidBlockHashes.erase invalidHash }
  else unwindLoop B invalidHash headBlock chain.unappliedBlocks.reverse chain

/-- `withoutProposedTxes`: each address's transactions that are not proposed, and the addresses
left with some. -/
def withoutProposedTxes (chain : SpeculativeChain Block Hash) (addrTxes : List (Addr × List Tx)) : List (Addr × List Tx) :=
  addrTxes.filterMap fun (addr, txes) =>
    let filteredTxes := txes.filter fun tx => B.txHash tx ∉ chain.proposedTxes
    if filteredTxes.length > 0 then some (addr, filteredTxes) else none

end SpeculativeChain

/-- The operations on the speculative chain. -/
inductive SpecOp (Block Hash : Type) where
  | extend (b : Block)
  | accept (b : Block)
  | unwindFrom (invalidHash : Hash) (headBlock : Block)
  | clear (b : Block)
  | setHead (b : Block)

namespace SpecOp

/-- One operation. -/
def apply (chain : SpeculativeChain Block Hash) : SpecOp Block Hash → SpeculativeChain Block Hash
  | extend b => chain.extend B b
  | accept b => chain.accept B b
  | unwindFrom invalidHash headBlock => chain.unwindFrom B invalidHash headBlock
  | clear b => SpeculativeChain.clear b
  | setHead b => chain.setHead b

/-- When the minter calls an operation: `mintNewBlock` extends with a block built on the head from
transactions of the pool (by address) that `withoutProposedTxes` kept, and `setHead` is called only
with no pending block. -/
def Allowed (Addr : Type) (chain : SpeculativeChain Block Hash) : SpecOp Block Hash → Prop
  | extend b => B.parentHash b = B.hash chain.head ∧
      ∃ addrTxes : List (Addr × List Tx), ∀ tx ∈ B.transactions b,
        ∃ p ∈ chain.withoutProposedTxes B addrTxes, tx ∈ p.2
  | setHead _ => chain.unappliedBlocks = []
  | _ => True

end SpecOp

/-- A sequence of operations, each allowed where it is made. -/
def SpecRun (Addr : Type) : SpeculativeChain Block Hash → List (SpecOp Block Hash) → Prop
  | _, [] => True
  | chain, op :: ops => SpecOp.Allowed B Addr chain op ∧ SpecRun Addr (op.apply B chain) ops

/-- The chain after a sequence of operations. -/
def specRun (chain : SpeculativeChain Block Hash) (ops : List (SpecOp Block Hash)) :
    SpeculativeChain Block Hash :=
  ops.foldl (SpecOp.apply B) chain

namespace SpeculativeChain

/-- The representation invariant: the head is the last pending block, each pending block is the
child of the one before, the proposed transactions are those of the pending blocks, and no two
pending blocks share a transaction. -/
structure Inv (chain : SpeculativeChain Block Hash) : Prop where
  head_last : ∀ b ∈ chain.unappliedBlocks.getLast?, chain.head = b
  linked : chain.unappliedBlocks.IsChain fun b b' => B.parentHash b' = B.hash b
  proposed : chain.proposedTxes = txesOf B chain.unappliedBlocks
  disjoint : chain.unappliedBlocks.Pairwise fun b b' => Disjoint (txHashes B b) (txHashes B b')

/-! ## Transaction sets -/

@[simp] theorem txesOf_append (l₁ l₂ : List Block) :
    txesOf B (l₁ ++ l₂) = txesOf B l₁ ∪ txesOf B l₂ := by
  induction l₁ with
  | nil => simp [txesOf]
  | cons b bs ih => rw [List.cons_append, txesOf, txesOf, ih, Finset.union_assoc]

@[simp] theorem txesOf_singleton (b : Block) : txesOf B [b] = txHashes B b := by
  simp [txesOf]

theorem txHashes_subset_txesOf {l : List Block} {b : Block} (hb : b ∈ l) :
    txHashes B b ⊆ txesOf B l := by
  induction l with
  | nil => cases hb
  | cons a l ih =>
    rcases List.mem_cons.mp hb with rfl | hb
    · exact Finset.subset_union_left
    · exact (ih hb).trans Finset.subset_union_right

/-- A set that meets no block of a list meets none of its transactions. -/
theorem disjoint_txesOf {s : Finset Hash} {l : List Block}
    (h : ∀ b ∈ l, Disjoint s (txHashes B b)) : Disjoint s (txesOf B l) := by
  induction l with
  | nil => exact Finset.disjoint_empty_right s
  | cons a l ih =>
    rw [txesOf, Finset.disjoint_union_right]
    exact ⟨h a List.mem_cons_self, ih fun b hb => h b (List.mem_cons_of_mem a hb)⟩

/-- What `withoutProposedTxes` keeps is not proposed. -/
theorem withoutProposedTxes_not_proposed {chain : SpeculativeChain Block Hash}
    {addrTxes : List (Addr × List Tx)} {p : Addr × List Tx} {tx : Tx}
    (hp : p ∈ chain.withoutProposedTxes B addrTxes) (htx : tx ∈ p.2) :
    B.txHash tx ∉ chain.proposedTxes := by
  obtain ⟨⟨addr, txes⟩, -, hf⟩ := List.mem_filterMap.mp hp
  dsimp only at hf
  split_ifs at hf
  cases hf
  simpa using (List.mem_filter.mp htx).2

/-- A block made of transactions `withoutProposedTxes` kept shares none with the pending blocks. -/
theorem disjoint_of_withoutProposedTxes {chain : SpeculativeChain Block Hash} {b : Block}
    {addrTxes : List (Addr × List Tx)}
    (h : ∀ tx ∈ B.transactions b, ∃ p ∈ chain.withoutProposedTxes B addrTxes, tx ∈ p.2) :
    Disjoint chain.proposedTxes (txHashes B b) := by
  rw [Finset.disjoint_right]
  intro x hx
  obtain ⟨tx, htx, rfl⟩ := List.mem_map.mp (List.mem_toFinset.mp hx)
  obtain ⟨p, hp, htxp⟩ := h tx htx
  exact withoutProposedTxes_not_proposed B hp htxp

/-! ## One operation -/

section Step

variable {B} {chain : SpeculativeChain Block Hash}

theorem clear_inv (b : Block) : (clear b : SpeculativeChain Block Hash).Inv B :=
  ⟨(fun _ h => by cases h), .nil, rfl, .nil⟩

/-- The guard is no part of the invariant. -/
theorem Inv.setGuard (h : chain.Inv B) (guard : Finset Hash) :
    Inv B { chain with expectedInvalidBlockHashes := guard } :=
  ⟨h.head_last, h.linked, h.proposed, h.disjoint⟩

/-- With no pending block, any block may be the head. -/
theorem Inv.setHead (h : chain.Inv B) (hq : chain.unappliedBlocks = []) (b : Block) :
    (chain.setHead b).Inv B :=
  ⟨fun _ hb => by simp [SpeculativeChain.setHead, hq] at hb, h.linked, h.proposed, h.disjoint⟩

theorem Inv.extend (h : chain.Inv B) {b : Block} (hparent : B.parentHash b = B.hash chain.head)
    (hfresh : Disjoint chain.proposedTxes (txHashes B b)) : (chain.extend B b).Inv B where
  head_last := by simp [SpeculativeChain.extend]
  linked := by
    refine h.linked.append (.singleton b) ?_
    -- the old last pending block is the head the new block was built on
    intro x hx y hy
    cases hy
    rw [hparent, h.head_last x hx]
  proposed := by simp [SpeculativeChain.extend, h.proposed]
  disjoint := by
    rw [h.proposed] at hfresh
    refine List.pairwise_append.mpr ⟨h.disjoint, List.pairwise_singleton _ b, ?_⟩
    intro a ha b' hb'
    cases List.mem_singleton.mp hb'
    exact hfresh.mono_left (txHashes_subset_txesOf B ha)

/-- Dropping the oldest pending block and its transactions. -/
theorem Inv.shift (h : chain.Inv B) {first : Block} {rest : List Block}
    (hq : chain.unappliedBlocks = first :: rest) :
    Inv B { chain with unappliedBlocks := rest,
                       proposedTxes := chain.proposedTxes \ txHashes B first } where
  head_last := by
    intro b hb
    apply h.head_last
    rw [hq, List.getLast?_cons, Option.mem_def.mp hb]
    rfl
  linked := by simpa [hq] using h.linked.tail
  proposed := by
    have hd := List.pairwise_cons.mp (hq ▸ h.disjoint)
    rw [h.proposed, hq, txesOf]
    exact Finset.union_sdiff_cancel_left (disjoint_txesOf B hd.1)
  disjoint := (hq ▸ h.disjoint).of_cons

/-- Dropping the newest pending block and its transactions, the head moving to the one before. -/
theorem Inv.pop (h : chain.Inv B) {init : List Block} {last : Block}
    (hq : chain.unappliedBlocks = init ++ [last]) (headBlock : Block) :
    Inv B { chain with unappliedBlocks := init, head := init.getLast?.getD headBlock,
                       proposedTxes := chain.proposedTxes \ txHashes B last } where
  head_last := by
    intro b hb
    dsimp only
    rw [Option.mem_def.mp hb]
    rfl
  linked := (hq ▸ h.linked).left_of_append
  proposed := by
    have hd := List.pairwise_append.mp (hq ▸ h.disjoint)
    have hlast : Disjoint (txesOf B init) (txHashes B last) :=
      (disjoint_txesOf B fun a ha => (hd.2.2 a ha last (List.mem_singleton_self last)).symm).symm
    rw [h.proposed, hq, txesOf_append, txesOf_singleton]
    exact Finset.union_sdiff_cancel_right hlast
  disjoint := (List.pairwise_append.mp (hq ▸ h.disjoint)).1

/-- The loop of `unwindFrom` keeps the invariant: each round pops the newest pending block. -/
theorem unwindLoop_inv (invalidHash : Hash) (headBlock : Block) :
    ∀ (rs : List Block) (chain : SpeculativeChain Block Hash),
      chain.unappliedBlocks = rs.reverse → chain.Inv B →
        (unwindLoop B invalidHash headBlock rs chain).Inv B := by
  intro rs
  induction rs with
  | nil => intro chain _ h; exact h
  | cons currBlock rest ih =>
    intro chain hq h
    have hpop := h.pop (by rw [hq, List.reverse_cons]) headBlock
    rw [List.getLast?_reverse] at hpop
    unfold unwindLoop
    split_ifs
    · exact ih _ rfl (hpop.setGuard _)
    · exact hpop

theorem Inv.unwindFrom (h : chain.Inv B) (invalidHash : Hash) (headBlock : Block) :
    (chain.unwindFrom B invalidHash headBlock).Inv B := by
  unfold SpeculativeChain.unwindFrom
  split_ifs
  · exact h.setGuard _
  · exact unwindLoop_inv invalidHash headBlock _ chain (List.reverse_reverse _).symm h

/-- `accept` keeps the invariant when blocks of one hash carry the same transactions. -/
theorem Inv.accept
    (hhash : ∀ b b' : Block, B.hash b = B.hash b' → txHashes B b = txHashes B b')
    (h : chain.Inv B) (acceptedBlock : Block) : (chain.accept B acceptedBlock).Inv B := by
  unfold SpeculativeChain.accept
  split
  · next hq => exact h.setHead hq acceptedBlock
  · next first rest hq =>
    split_ifs with hexp
    -- the expected block: its transactions are those of the accepted one
    · rw [← hhash _ _ hexp]
      exact h.shift hq
    · exact clear_inv acceptedBlock

end Step

end SpeculativeChain

open SpeculativeChain

/-! ## Runs -/

section Runs

variable {B}

theorem SpecOp.apply_inv
    (hhash : ∀ b b' : Block, B.hash b = B.hash b' → txHashes B b = txHashes B b')
    {chain : SpeculativeChain Block Hash} (h : chain.Inv B) :
    ∀ op : SpecOp Block Hash, op.Allowed B Addr chain → (op.apply B chain).Inv B
  | .extend _, ⟨hparent, _, hkept⟩ => h.extend hparent (disjoint_of_withoutProposedTxes B hkept)
  | .accept b, _ => h.accept hhash b
  | .unwindFrom invalidHash headBlock, _ => h.unwindFrom invalidHash headBlock
  | .clear b, _ => clear_inv b
  | .setHead b, hq => h.setHead hq b

/-- Every run of allowed operations keeps the invariant. -/
theorem specRun_inv
    (hhash : ∀ b b' : Block, B.hash b = B.hash b' → txHashes B b = txHashes B b') :
    ∀ (ops : List (SpecOp Block Hash)) (chain : SpeculativeChain Block Hash),
      chain.Inv B → SpecRun B Addr chain ops → (specRun B chain ops).Inv B := by
  intro ops
  induction ops with
  | nil => intro chain h _; exact h
  | cons op ops ih =>
    intro chain h hrun
    exact ih _ (SpecOp.apply_inv hhash h op hrun.1) hrun.2

end Runs

/-- From `clear`, every sequence of allowed operations leaves a head that is the last pending
block, pending blocks each built on the one before, and proposed transactions that are exactly
those of the pending blocks, no two of which share one.  Blocks of one hash are taken to carry the
same transactions, as the header's transaction root makes them. -/
theorem speculative_chain_invariant (B : BlockOps Block Tx Hash)
    (hhash : ∀ b b' : Block, B.hash b = B.hash b' → txHashes B b = txHashes B b')
    (b : Block) (ops : List (SpecOp Block Hash)) (hrun : SpecRun B Addr (clear b) ops) :
    (specRun B (clear b) ops).Inv B :=
  specRun_inv hhash ops _ (clear_inv b) hrun

/-- Blocks 1, 2, 3 minted on 0; 1 accepted; 2 ruled invalid, which unwinds 3 into the guard and 2;
the guard then absorbs 3's own invalidation; 2 is minted again on 1. -/
theorem speculative_chain_invariant_unwind :
    (specRun (⟨id, (· - 1), fun n => [n], id⟩ : BlockOps Nat Nat Nat) (clear 0)
      [.extend 1, .extend 2, .extend 3, .accept 1, .unwindFrom 2 1, .unwindFrom 3 1,
        .extend 2]).Inv ⟨id, (· - 1), fun n => [n], id⟩ :=
  speculative_chain_invariant _ (fun b b' (h : b = b') => by rw [h]) 0 _ (show SpecRun _ Nat _ _ by
    simp only [SpecRun, SpecOp.Allowed]
    exact ⟨⟨rfl, [(0, [1])], by decide⟩, ⟨rfl, [(0, [2])], by decide⟩,
      ⟨rfl, [(0, [3])], by decide⟩, trivial, trivial, trivial, ⟨rfl, [(0, [2])], by decide⟩, trivial⟩)

end QuorumHotstuff.Raft
