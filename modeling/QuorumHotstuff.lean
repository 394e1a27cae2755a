import QuorumHotstuff.Lib.PriorityQueue
import QuorumHotstuff.Lib.Run
import QuorumHotstuff.Lib.Except
import QuorumHotstuff.Lib.Rlp
import QuorumHotstuff.Lib.Rlp.Encbuf
import QuorumHotstuff.Lib.Rlp.Stream
import QuorumHotstuff.Lib.Rlp.Reader
import QuorumHotstuff.Hotstuff.Types
import QuorumHotstuff.Hotstuff.RoundState
import QuorumHotstuff.Hotstuff.Core
import QuorumHotstuff.Hotstuff.Handlers
import QuorumHotstuff.Hotstuff.Spine
import QuorumHotstuff.Hotstuff.Ops
import QuorumHotstuff.Hotstuff.Steps
import QuorumHotstuff.Hotstuff.Progress
import QuorumHotstuff.Hotstuff.Equivocation
import QuorumHotstuff.Hotstuff.Heights
import QuorumHotstuff.Hotstuff.Fork
import QuorumHotstuff.Istanbul.Types
import QuorumHotstuff.Qbft.Types
import QuorumHotstuff.Qbft.Justification
import QuorumHotstuff.Qbft.RoundChange
import QuorumHotstuff.Qbft.Core
import QuorumHotstuff.Qbft.Handler
import QuorumHotstuff.Hotstuff.Checks
import QuorumHotstuff.Hotstuff.Backlog
import QuorumHotstuff.Hotstuff.Shares
import QuorumHotstuff.Hotstuff.Wire
import QuorumHotstuff.Hotstuff.Certify
import QuorumHotstuff.Hotstuff.Header
import QuorumHotstuff.Hotstuff.Signer
import QuorumHotstuff.Trie.Node
import QuorumHotstuff.Trie.Canonical
import QuorumHotstuff.Trie.Update
import QuorumHotstuff.Trie.Store
import QuorumHotstuff.Permission.OrgCache
import QuorumHotstuff.Raft.Membership
import QuorumHotstuff.Raft.Apply
import QuorumHotstuff.Raft.Speculative
import QuorumHotstuff.State.AccountExtraData
import QuorumHotstuff.Types.TransactionSigning
import QuorumHotstuff.Lib.Rlp.Integer
import QuorumHotstuff.Lib.FirstDiff
import QuorumHotstuff.Trie.Encoding
import QuorumHotstuff.Trie.StackTrie
import QuorumHotstuff.Types.DeriveSha
import QuorumHotstuff.Lib.HashStore
import QuorumHotstuff.Lib.Rlp.Raw
import QuorumHotstuff.Trie.Decode
import QuorumHotstuff.Trie.Proof
import QuorumHotstuff.Lib.Search
import QuorumHotstuff.Lib.Journal
import QuorumHotstuff.State.AccessList
import QuorumHotstuff.State.StateDB
import QuorumHotstuff.State.Observe
import QuorumHotstuff.State.Undo
import QuorumHotstuff.State.Snapshot
import QuorumHotstuff.State.Refine
import QuorumHotstuff.Istanbul.Voting
import QuorumHotstuff.Qbft.Steps
import QuorumHotstuff.Qbft.Fork
import QuorumHotstuff.Qbft.Votes
