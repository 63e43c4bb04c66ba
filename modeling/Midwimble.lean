import Midwimble.Lib.Fallible
import Midwimble.Core.Mmr
import Midwimble.Core.Snapshot
import Midwimble.Lib.Window
import Midwimble.ForkChoice.Windows
import Midwimble.ForkChoice.Quota
import Midwimble.Relay.Binding
import Midwimble.Chain.Accepted
import Midwimble.ForkChoice.Weight
import Midwimble.Chain.Backed
import Midwimble.Chain.Supply
import Midwimble.Core.Sync
import Midwimble.Sync.Headers
import Midwimble.Core.Stealth
import Midwimble.Core.Template
import Midwimble.Lib.KeySort
import Midwimble.Template.Selection
import Midwimble.Template.Split
import Midwimble.Chain.Mmr
import Midwimble.Template.Proofs
import Midwimble.Chain.Timestamps
import Midwimble.Chain.Issuance
import Midwimble.Identity.MergedMining
import Midwimble.Identity.Block
import Midwimble.Template.Aggregation
import Midwimble.Template.Agreement
import Midwimble.Template.Rushed
import Midwimble.Template.Mineable
import Midwimble.Sync.Saturation
import Midwimble.Core.SparseMerkle
import Midwimble.Lib.SparseTree
import Midwimble.Merkle.Cache
import Midwimble.Merkle.Canonical
import Midwimble.Merkle.Proofs
import Midwimble.Core.Pool
import Midwimble.Lib.HashChain
import Midwimble.Pool.Owners
import Midwimble.Pool.ShareTree
import Midwimble.Core.ShareLog
import Midwimble.Lib.OrderedMap
import Midwimble.Pool.ShareLog
import Midwimble.Pool.ShareLogRuns
import Midwimble.Core.Finality
import Midwimble.Finality.Floor
import Midwimble.Finality.Recorded
import Midwimble.Core.BlockSync
import Midwimble.Sync.BlockRuns
import Midwimble.Mempool.Reorgs
import Midwimble.Mempool.Entries
import Midwimble.Mempool.Index
import Midwimble.Difficulty.Asert
import Midwimble.Lib.Sampling
import Midwimble.Core.Payout
import Midwimble.Pool.Payout
import Midwimble.Core.Recovery
import Midwimble.Recovery.Claims
import Midwimble.Core.Wallet
import Midwimble.Wallet.Reservations
import Midwimble.Wallet.Reorgs
import Midwimble.Core.WebWallet
import Midwimble.Wallet.Compact
import Midwimble.Wallet.Balance
import Midwimble.Wallet.Scanning
import Midwimble.Mempool.Refusals
import Midwimble.Core.BondScript
import Midwimble.Bond.Script
import Midwimble.Core.Storage
import Midwimble.Bond.Diffs
import Midwimble.Merkle.Range
import Midwimble.Merkle.PeaksOnly
import Midwimble.Merkle.RangeProofs
import Midwimble.Merkle.RangeSoundness
import Midwimble.Core.Anchor
import Midwimble.ProofOfWork.Batches
import Midwimble.Finality.CheckedLinks
import Midwimble.Core.Orphan
import Midwimble.ForkChoice.Orphan
import Midwimble.Core.Filter
import Midwimble.Lib.Bits
import Midwimble.Filter.Golomb
import Midwimble.Filter.Matching
import Midwimble.Core.Bootstrap
import Midwimble.Sync.Bootstrap
import Midwimble.Core.PoolWindow
import Midwimble.Pool.Commitments
import Midwimble.Core.SimdMining
import Midwimble.ProofOfWork.Lanes
import Midwimble.ProofOfWork.Jobs
import Midwimble.Core.Mss
import Midwimble.Signatures.Keys
import Midwimble.Signatures.Wire
import Midwimble.Core.Sending
import Midwimble.Lib.Greedy
import Midwimble.Wallet.Sending
import Midwimble.Wallet.Building
import Midwimble.Wallet.MaxSendable
import Midwimble.Wallet.HistoryRuns
import Midwimble.Core.Database
import Midwimble.Core.Burn
import Midwimble.Chain.Built
import Midwimble.Storage.Commits
import Midwimble.Explorer.Records
import Midwimble.Explorer.BurnRows
import Midwimble.Explorer.BurnReads
import Midwimble.Explorer.BurnRuns
import Midwimble.Explorer.BurnTotals
import Midwimble.Explorer.BurnReorgs
import Midwimble.Lib.Diffs
import Midwimble.Lib.Rows
import Midwimble.Lib.Leaves
import Midwimble.Storage.Groups
import Midwimble.Storage.Spends
import Midwimble.Storage.Ledgers
import Midwimble.Storage.LedgerBlocks
import Midwimble.Storage.Undo
import Midwimble.Storage.LedgerRuns
import Midwimble.Core.Reads
import Midwimble.Storage.Kept
import Midwimble.Storage.Rebuilt
import Midwimble.Storage.Replays
import Midwimble.Storage.Histories
import Midwimble.Storage.Records
import Midwimble.Storage.Loads
import Midwimble.Storage.Rewinds
import Midwimble.Storage.Sessions
import Midwimble.Storage.Pages
import Midwimble.Storage.Imports
import Midwimble.Storage.Exports
import Midwimble.Storage.Validated
import Midwimble.Storage.Bootstraps
import Midwimble.Lib.Traces
import Midwimble.Core.Explorer
import Midwimble.Explorer.Index
import Midwimble.Explorer.Confirmed
