import Attesta.Api.Admission
import Attesta.Api.Artifacts
import Attesta.Api.ClaimConflict
import Attesta.Api.ClaimSafety
import Attesta.Api.Convergence
import Attesta.Api.CursorWalk
import Attesta.Api.Error
import Attesta.Api.FinalRoots
import Attesta.Api.HistoricalRoots
import Attesta.Api.Isolation
import Attesta.Api.Issuer
import Attesta.Api.IssuerMirror
import Attesta.Api.Licensing
import Attesta.Api.Limits
import Attesta.Api.LostReplies
import Attesta.Api.MailboxDurability
import Attesta.Api.MailboxSafety
import Attesta.Api.MailboxService
import Attesta.Api.NoteDelivery
import Attesta.Api.NoteStream
import Attesta.Api.PathAnswers
import Attesta.Api.Pickup
import Attesta.Api.Quota
import Attesta.Api.QuotaBounds
import Attesta.Api.RateWindow
import Attesta.Api.Readiness
import Attesta.Api.Rebuild
import Attesta.Api.Recipient
import Attesta.Api.Retention
import Attesta.Api.RetentionCycle
import Attesta.Api.RetryAfter
import Attesta.Api.RootChanges
import Attesta.Api.RootHistory
import Attesta.Api.ServedPaths
import Attesta.Api.SlotBounds
import Attesta.Api.SseSlots
import Attesta.Api.Stats
import Attesta.Api.StatsCache
import Attesta.Api.StatsScan
import Attesta.Api.StoredLeaves
import Attesta.Api.StreamRequest
import Attesta.Api.Sweep
import Attesta.Api.SweepLock
import Attesta.Api.TopUp
import Attesta.Api.Tree
import Attesta.Api.TreeKeys
import Attesta.Api.TreeMirror
import Attesta.Api.TreeSafety
import Attesta.Api.TreeService
import Attesta.Core.Capacity
import Attesta.Core.Config
import Attesta.Core.Connect
import Attesta.Core.Hex
import Attesta.Core.Merkle
import Attesta.Core.MerkleRefinement
import Attesta.Core.Models
import Attesta.Core.PathLength
import Attesta.Core.PathSoundness
import Attesta.Core.RootBinding
import Attesta.Disclosure.Report
import Attesta.Disclosure.Scan
import Attesta.Foundation.Backoff
import Attesta.Foundation.Base64
import Attesta.Foundation.BucketClock
import Attesta.Foundation.Checkpoint
import Attesta.Foundation.Conformance
import Attesta.Foundation.CursorWalk
import Attesta.Foundation.Feed
import Attesta.Foundation.HashTable
import Attesta.Foundation.KeyedRows
import Attesta.Foundation.LexicalPath
import Attesta.Foundation.Machine
import Attesta.Foundation.PaddedLevels
import Attesta.Foundation.PaddedTree
import Attesta.Foundation.Replay
import Attesta.Foundation.SeparatedList
import Attesta.Foundation.StalePaths
import Attesta.Foundation.TokenBucket
import Attesta.Foundation.WriteBehind
import Attesta.Indexer.Accounting
import Attesta.Indexer.EventLayout
import Attesta.Indexer.Events
import Attesta.Indexer.KeyedTables
import Attesta.Indexer.Mirror
import Attesta.Indexer.Parts
import Attesta.Indexer.PoolTotals
import Attesta.Indexer.Recount
import Attesta.Indexer.Replay
import Attesta.Indexer.Run
import Attesta.Indexer.Shim
import Attesta.Indexer.Shutdown
import Attesta.Indexer.Store
import Attesta.Indexer.Sync
import Attesta.Indexer.SyncFallback
import Attesta.Indexer.SyncSafety
import Attesta.Indexer.Wedge
import Attesta.Indexer.WrongShape
